import TradeDesk.Rules
import TradeDesk.Text

/-!
# The account the monitoring loops watch

The account and the orders as the broker gives them
(`tc/broker/models.py`), the typed view every loop reads
(`tc/loops/reconcile.py`, `build_view`), and the watches of a tick over it
(`tc/loops/tick.py`, `evaluate_watches`). None of this does any I/O.

A dictionary is the list of its items, in the order they were first set.
-/

namespace TradeDesk.Loops

/-! ## Dictionaries -/

section

variable {α : Type}

/-- `d[key] = value`: a key that is there keeps its place. -/
def setItem (d : List (String × α)) (key : String) (value : α) : List (String × α) :=
  if d.any fun e => e.1 == key then d.map fun e => if e.1 == key then (key, value) else e
  else d ++ [(key, value)]

/-- A dictionary comprehension: the last value of a key stays. -/
def dictOf (items : List (String × α)) : List (String × α) :=
  items.foldl (fun d e => setItem d e.1 e.2) []

end

/-! ## The broker's rows -/

structure Position where
  symbol : String
  assetType : String
  quantity : ℤ
  averagePrice : Option ℚ
  marketValue : ℚ
  dayPl : ℚ
  settledQuantity : ℤ
deriving DecidableEq, Repr

structure AccountSnapshot where
  accountHash : String
  readAt : Instant
  liquidationValue : ℚ
  cashAvailableForTrading : ℚ
  unsettledCash : ℚ
  cashBalance : ℚ
  cashCall : ℚ
  isClosingOnlyRestricted : Bool
  positions : List Position
deriving DecidableEq, Repr

def AccountSnapshot.reserveCash (a : AccountSnapshot) : ℚ :=
  min a.cashBalance (a.cashAvailableForTrading + a.unsettledCash)

/-- The symbols with a position: those whose quantity is not zero. -/
def AccountSnapshot.held (a : AccountSnapshot) : List String :=
  (a.positions.filter fun p => p.quantity != 0).map (·.symbol)

structure OrderLeg where
  instruction : String
  quantity : ℤ
  symbol : String
  assetType : String
deriving DecidableEq, Repr

structure OrderRow where
  orderId : ℤ
  status : String
  orderType : String
  duration : String
  enteredAt : Instant
  quantity : ℤ
  filledQuantity : ℤ
  price : Option ℚ
  stopPrice : Option ℚ
  legs : List OrderLeg
deriving DecidableEq, Repr

def resting : List String :=
  ["WORKING", "QUEUED", "ACCEPTED", "PENDING_ACTIVATION", "AWAITING_STOP_CONDITION"]

def stopTypes : List String := ["STOP", "STOP_LIMIT"]

/-- `text.startswith(start)`. -/
def startsWith (text start : String) : Bool := start.toList.isPrefixOf text.toList

namespace OrderRow

variable (o : OrderRow)

def symbol : String :=
  match o.legs with
  | [] => ""
  | leg :: _ => leg.symbol

def isRestingStop : Bool := resting.contains o.status && stopTypes.contains o.orderType

def isSellStop : Bool :=
  match o.legs with
  | [leg] => o.isRestingStop && startsWith leg.instruction "SELL"
  | _ => false

def isEntry : Bool :=
  match o.legs with
  | [] => false
  | leg :: _ => resting.contains o.status && o.orderType == "LIMIT" &&
      startsWith leg.instruction "BUY"

/-- Earlier in the broker's book. -/
def earlier (o₁ o₂ : OrderRow) : Bool :=
  o₁.enteredAt < o₂.enteredAt || (o₁.enteredAt == o₂.enteredAt && o₁.orderId ≤ o₂.orderId)

end OrderRow

/-! ## The view -/

structure BookView where
  account : AccountSnapshot
  orders : List OrderRow
  /-- One resting sell stop a symbol, the earliest. -/
  restingStops : List (String × OrderRow)
  /-- Every resting sell stop of a symbol that has more than one. -/
  duplicateStops : List (String × List OrderRow)
  naked : List String
  partials : List (String × ℤ × ℤ)
  orphanedStops : List OrderRow
  openEntries : List OrderRow
  restricted : Bool
  readAt : Instant
deriving DecidableEq, Repr

/-- Every resting sell stop, not one a symbol. -/
def BookView.restingStopCount (v : BookView) : ℕ :=
  v.restingStops.length + (v.duplicateStops.map fun e => e.2.length - 1).sum

/-- The resting sell stops by symbol, each list earliest first. -/
def stopsBySymbol (orders : List OrderRow) : List (String × List OrderRow) :=
  ((orders.filter (·.isSellStop)).foldl (fun d o =>
    setItem d o.symbol ((d.lookup o.symbol).getD [] ++ [o])) []).map fun e =>
      (e.1, e.2.mergeSort OrderRow.earlier)

def buildView (account : AccountSnapshot) (orders : List OrderRow) (readAt : Instant) :
    BookView :=
  let held := dictOf ((account.positions.filter fun p => 0 < p.quantity).map fun p =>
    (p.symbol, p.quantity))
  let bySymbol := stopsBySymbol orders
  let stops := bySymbol.filterMap fun e => e.2.head?.map fun o => (e.1, o)
  { account, orders, readAt
    restingStops := stops
    duplicateStops := bySymbol.filter fun e => 1 < e.2.length
    naked := ((held.filter fun e => (stops.lookup e.1).isNone).map (·.1)).mergeSort
    partials := held.filterMap fun e => match stops.lookup e.1 with
      | none => none
      | some o => if o.quantity = e.2 then none else some (e.1, e.2, o.quantity)
    orphanedStops := (stops.filter fun e => (held.lookup e.1).isNone).map (·.2)
    openEntries := orders.filter (·.isEntry)
    restricted := account.isClosingOnlyRestricted || account.cashCall != 0 }

/-! ## Option symbols and the clocks' alerts -/

structure OptionRef where
  underlying : String
  expiry : Date
  kind : Char
  strike : ℚ
deriving DecidableEq, Repr

/-- The date six digits `yymmdd` name in this century, if they name one. -/
def thisCentury : List ℕ → Option Date
  | [y1, y0, m1, m0, d1, d0] =>
    let y : ℤ := 2000 + (10 * y1 + y0)
    let m : ℤ := 10 * m1 + m0
    let d : ℤ := 10 * d1 + d0
    if 1 ≤ m ∧ m ≤ 12 ∧ 1 ≤ d ∧ d ≤ monthLength y m then some (dayNumber y m d) else none
  | _ => none

/-- A Schwab option symbol: a root of one to six letters, spaces, the date,
C or P, and the strike in thousandths. -/
def parseOsi (symbol : String) : Option OptionRef :=
  let cs := stripChars symbol.toList
  let isRoot := fun c : Char => ('A' ≤ c && c ≤ 'Z') || c == '.'
  let root := cs.takeWhile isRoot
  let tail := (cs.dropWhile isRoot).dropWhile isSpace
  let day := (tail.take 6).filterMap digitValue
  let strike := (tail.drop 7).filterMap digitValue
  match thisCentury day, tail[6]? with
  | some expiry, some kind =>
    if 1 ≤ root.length ∧ root.length ≤ 6 ∧ tail.length = 15 ∧ strike.length = 8 ∧
        (kind = 'C' ∨ kind = 'P') then
      some ⟨String.ofList root, expiry, kind, (ofDigits strike : ℚ) / 1000⟩
    else none
  | _, _ => none

example : (parseOsi "AMH   261016P00030000").map (·.expiry) = some (dayNumber 2026 10 16) := by
  decide +kernel

inductive ClockKind where
  | optionClose | leveragedClose | optionWarn | leveragedWarn
deriving DecidableEq, Repr

/-- Most urgent first. -/
def ClockKind.precedence : ClockKind → ℕ
  | optionClose => 0
  | leveragedClose => 1
  | optionWarn => 2
  | leveragedWarn => 3

/-- What of a clock an alert prints: days or sessions, and the limits. -/
structure ClockAlert where
  symbol : String
  kind : ClockKind
  count : ℤ
  warn : ℤ
  close : ℤ
deriving DecidableEq, Repr

/-! ## The watches -/

/-- What a trip's detail prints. -/
inductive TripDetail where
  | restriction (closingOnly : Bool) (cashCall : ℚ)
  | reserve (cash reserve : ℚ)
  | drawdown (value halt hwm : ℚ)
  | naked (symbols : List String)
  | partials (rows : List (String × ℤ × ℤ))
  | stopFill (gone orphans : List String)
  | duplicateStop (rows : List (String × List ℤ))
  | clock (alert : ClockAlert)
  | blind
  | unseeded
deriving DecidableEq, Repr

/-- Watch 0 is a failure of the sweep itself. -/
structure Trip where
  watch : ℕ
  name : String
  detail : TripDetail
deriving DecidableEq, Repr

def ClockKind.name : ClockKind → String
  | optionClose => "option_close"
  | leveragedClose => "leveraged_close"
  | optionWarn => "option_warn"
  | leveragedWarn => "leveraged_warn"

/-- The positions of the snapshot before that this account has no more. -/
def goneSince (prior : List (String × ℤ)) (account : AccountSnapshot) : List String :=
  ((prior.filter fun e => e.2 != 0 && !account.held.contains e.1).map (·.1)).mergeSort

/-- An orphaned stop as the trip prints it. -/
def orphanText (o : OrderRow) : String := o.symbol ++ "(" ++ toString o.quantity ++ ")"

/-- Watch 6: a position gone since the last snapshot, a resting stop with
no position behind it, or two resting stops on one symbol. -/
def stopFillTrips (view : BookView) (prior : List (String × ℤ)) : List Trip :=
  let gone := goneSince prior view.account
  let orphans := (view.orphanedStops.map orphanText).mergeSort
  let doubled := (view.duplicateStops.map fun e => (e.1, e.2.map (·.orderId))).mergeSort
    fun e₁ e₂ => e₁.1 ≤ e₂.1
  (if gone = [] ∧ orphans = [] then [] else [⟨6, "stop_fill", .stopFill gone orphans⟩]) ++
    if doubled = [] then [] else [⟨6, "duplicate_stop", .duplicateStop doubled⟩]

/-- Watch 3: the halt the account value is at or below, if it is. A mark
that is not positive is not seeded, and nothing is tested. -/
def haltCrossed (value hwm : ℚ) (rules : Rules) : Except Exc (Option ℚ) :=
  if 0 < hwm then do
    let halted ← isHalted value hwm rules
    let halt ← haltThreshold hwm rules
    return if halted then some halt else none
  else .ok none

/-- The watches in priority order. -/
def evaluateWatches (view : BookView) (prior : List (String × ℤ)) (hwm : ℚ) (rules : Rules)
    (reserve : ℚ) (alerts : List ClockAlert) : Except Exc (List Trip) := do
  let account := view.account
  let crossed ← haltCrossed account.liquidationValue hwm rules
  return (if view.restricted then
      [⟨1, "restriction", .restriction account.isClosingOnlyRestricted account.cashCall⟩] else []) ++
    (if account.reserveCash < reserve then
      [⟨2, "reserve", .reserve account.reserveCash reserve⟩] else []) ++
    (match crossed with
      | none => []
      | some halt => [⟨3, "drawdown", .drawdown account.liquidationValue halt hwm⟩]) ++
    (if view.naked = [] then [] else [⟨4, "naked", .naked view.naked⟩]) ++
    (if view.partials = [] then [] else [⟨5, "partial", .partials view.partials⟩]) ++
    stopFillTrips view prior ++
    alerts.map fun a => ⟨7, a.kind.name, .clock a⟩

/-- The letter of a watch in a tick's flags. -/
def watchFlag : ℕ → Option String
  | 1 => some "R"
  | 2 => some "V"
  | 3 => some "H"
  | 4 => some "N"
  | 5 => some "P"
  | 6 => some "X"
  | 7 => some "K"
  | _ => none

/-- The letters of the trips, once each, then those of the sweep. -/
def flagString (trips : List Trip) (extra : List String) : String :=
  let letters := trips.foldl (fun acc t => match watchFlag t.watch with
    | none => acc
    | some f => if f ∈ acc then acc else acc ++ [f]) []
  match letters ++ extra with
  | [] => "-"
  | all => String.join all

/-- An option on a declared leveraged symbol is leveraged itself. -/
def leveragedEffective (symbols leveraged : List String) : List String :=
  leveraged ++ symbols.filter fun s =>
    ((parseOsi s).map fun ref => leveraged.contains ref.underlying).getD false

end TradeDesk.Loops
