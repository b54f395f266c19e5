import TradeDesk.Text

/-!
# The pre-order gate

`scripts/pre-order-check.sh` reads its arguments into shell variables,
checks them, and evaluates the arithmetic gates in their order. A dollar
text becomes an integer number of ten-thousandths (`toE4`), and the shell
calculates in 64 bits and wraps (`wrap`).

The messages are left out but for what they name; `UsageError` has one
constructor for each check. A regular expression's `[0-9]` is a digit of
ASCII. The rules are as `lib-rules.sh` has loaded them: a percentage is the
number of its text.
-/

namespace TradeDesk.Scripts

/-! ## Numbers of the shell -/

/-- The value of an arithmetic expansion, in 64 bits. -/
def wrap (n : ℤ) : ℤ := n.bmod (2 ^ 64)

/-- `$((10#s))`, of digits. -/
def number (digits : List Char) : ℤ := wrap (ofDigits (digits.map fun c => c.toNat - 48))

/-- `^[0-9]{1,whole}(\.[0-9]{1,4})?$`. -/
def decimalFormat (whole : ℕ) (s : String) : Bool :=
  let digits := s.toList.takeWhile Char.isDigit
  decide (1 ≤ digits.length ∧ digits.length ≤ whole) &&
    match s.toList.dropWhile Char.isDigit with
    | [] => true
    | '.' :: frac => decide (1 ≤ frac.length ∧ frac.length ≤ 4) && frac.all Char.isDigit
    | _ => false

/-- `is_number`, `is_price`, and the wider bound of the intent. -/
def isNumber (s : String) : Bool := decimalFormat 8 s
def isPrice (s : String) : Bool := decimalFormat 5 s
def isIntent (s : String) : Bool := decimalFormat 13 s

/-- `^[0-9]{1,7}$`. -/
def isQty (s : String) : Bool :=
  decide (1 ≤ s.toList.length ∧ s.toList.length ≤ 7) && s.toList.all Char.isDigit

/-- `to_e4`: what stands before the first point, and the first four digits
after it. -/
def toE4 (s : String) : ℤ :=
  let int := s.toList.takeWhile (· != '.')
  let frac := (s.toList.dropWhile (· != '.')).tail
  wrap (wrap (number int * 10000) + number ((frac ++ ['0', '0', '0', '0']).take 4))

example : toE4 "099.5" = 995000 := by decide +kernel

/-! ## Arguments -/

inductive Instrument where
  | equity | option | leveragedEtf
deriving DecidableEq, Repr

def Instrument.text : Instrument → String
  | .equity => "equity"
  | .option => "option"
  | .leveragedEtf => "leveraged_etf"

def Instrument.all : List Instrument := [.equity, .option, .leveragedEtf]

/-- The shell variables that a flag's value goes to. -/
inductive Quantity where
  | instrument | symbol | qty | price | intentNotional | compCapital | settledCash
  | existingPositionValue | existingOptionPremium | openOptionPremium | leveragedAggregate
  | underlyingPrice
deriving DecidableEq, Repr

/-- The flags that have a value. -/
inductive ValueFlag where
  | instrument | symbol | qty | price | intentNotional | accountValue | compCapital | settledCash
  | existingPositionValue | existingOptionPremium | openOptionPremium | leveragedAggregate
  | underlyingPrice
deriving DecidableEq, Repr

/-- The variable of a flag; the account's value has two names. -/
def ValueFlag.sets : ValueFlag → Quantity
  | .instrument => .instrument
  | .symbol => .symbol
  | .qty => .qty
  | .price => .price
  | .intentNotional => .intentNotional
  | .accountValue => .compCapital
  | .compCapital => .compCapital
  | .settledCash => .settledCash
  | .existingPositionValue => .existingPositionValue
  | .existingOptionPremium => .existingOptionPremium
  | .openOptionPremium => .openOptionPremium
  | .leveragedAggregate => .leveragedAggregate
  | .underlyingPrice => .underlyingPrice

inductive Flag where
  | value (f : ValueFlag)
  | leveragedUnderlying
deriving DecidableEq, Repr

def Flag.text : Flag → String
  | .value .instrument => "--instrument"
  | .value .symbol => "--symbol"
  | .value .qty => "--qty"
  | .value .price => "--price"
  | .value .intentNotional => "--intent-notional"
  | .value .accountValue => "--account-value"
  | .value .compCapital => "--comp-capital"
  | .value .settledCash => "--settled-cash"
  | .value .existingPositionValue => "--existing-position-value"
  | .value .existingOptionPremium => "--existing-option-premium"
  | .value .openOptionPremium => "--open-option-premium"
  | .value .leveragedAggregate => "--leveraged-aggregate"
  | .value .underlyingPrice => "--underlying-price"
  | .leveragedUnderlying => "--leveraged-underlying"

def Flag.all : List Flag :=
  [.value .instrument, .value .symbol, .value .qty, .value .price, .value .intentNotional,
    .value .accountValue, .value .compCapital, .value .settledCash,
    .value .existingPositionValue, .value .existingOptionPremium, .value .openOptionPremium,
    .value .leveragedAggregate, .value .underlyingPrice, .leveragedUnderlying]

/-- The branch of the `case` that an argument takes. -/
def flagOf (arg : String) : Option Flag := Flag.all.find? fun f => f.text == arg

inductive UsageError where
  | needsValue (f : Flag)
  | duplicate (f : Flag)
  | unrecognized (arg : String)
  | instrumentRequired
  | instrument (value : String)
  | symbolRequired
  | symbolIsFlag (value : String)
  | qty (value : String)
  | price (value : String)
  | intentNotional (value : String)
  | amount (q : Quantity) (value : String)
  | underlyingRequired
  | underlyingPrice (value : String)
  | aggregateRequired
  | notValidWith (f : Flag) (i : Instrument)
deriving DecidableEq, Repr

/-- The shell's variables, and the flags seen. -/
structure Vars where
  values : Quantity → String
  leveragedUnderlying : Bool
  seen : List Flag

/-- What the optional amounts are when they are not given. -/
def defaultValue : Quantity → String
  | .existingPositionValue => "0"
  | .existingOptionPremium => "0"
  | .openOptionPremium => "0"
  | .leveragedAggregate => "0"
  | _ => ""

def Vars.init : Vars := ⟨defaultValue, false, []⟩

/-- Why the arguments are not gone on with. -/
inductive Stop where
  | help
  | usage (e : UsageError)
deriving DecidableEq, Repr

/-- `once`, and the assignment after it. -/
def Vars.set (v : Vars) (f : ValueFlag) (value : String) : Except Stop Vars :=
  if .value f ∈ v.seen then .error (.usage (.duplicate (.value f)))
  else .ok ⟨Function.update v.values f.sets value, v.leveragedUnderlying, v.seen ++ [.value f]⟩

def Vars.switch (v : Vars) : Except Stop Vars :=
  if .leveragedUnderlying ∈ v.seen then .error (.usage (.duplicate .leveragedUnderlying))
  else .ok ⟨v.values, true, v.seen ++ [.leveragedUnderlying]⟩

/-- The argument loop. -/
def argumentLoop (v : Vars) : List String → Except Stop Vars
  | [] => .ok v
  | arg :: rest =>
    match flagOf arg with
    | some .leveragedUnderlying =>
      match v.switch with
      | .error stop => .error stop
      | .ok v' => argumentLoop v' rest
    | some (.value f) =>
      match rest with
      | [] => .error (.usage (.needsValue (.value f)))
      | value :: rest' =>
        match v.set f value with
        | .error stop => .error stop
        | .ok v' => argumentLoop v' rest'
    | none =>
      if arg = "-h" ∨ arg = "--help" then .error .help else .error (.usage (.unrecognized arg))

/-! ## Validation -/

/-- `[ .. ] || usage_err ..`. -/
def require (c : Prop) [Decidable c] (e : UsageError) : Except UsageError Unit :=
  if c then .ok () else .error e

/-- `case "$instrument"`. -/
def instrumentOf (value : String) : Except UsageError Instrument :=
  match Instrument.all.find? fun i => i.text == value with
  | some i => .ok i
  | none => .error (if value = "" then .instrumentRequired else .instrument value)

/-- The amounts `is_number` is asked of. -/
def accountAmounts : List Quantity :=
  [.compCapital, .settledCash, .existingPositionValue, .existingOptionPremium, .openOptionPremium,
    .leveragedAggregate]

/-- The flags of options only. -/
def optionFlags : List Flag :=
  [.value .underlyingPrice, .value .existingOptionPremium, .value .openOptionPremium]

/-- Flags that are not the instrument's are refused. -/
def refuseSeen (v : Vars) (i : Instrument) (flags : List Flag) : Except UsageError Unit :=
  flags.forM fun f => require (f ∉ v.seen) (.notValidWith f i)

/-- `case "$instrument"`: which flags it takes, and which it needs. -/
def checkFlags (v : Vars) : Instrument → Except UsageError Unit
  | .option => do
    require (v.values .underlyingPrice ≠ "") .underlyingRequired
    require (isPrice (v.values .underlyingPrice) = true)
      (.underlyingPrice (v.values .underlyingPrice))
    refuseSeen v .option [.value .existingPositionValue]
    if v.leveragedUnderlying then
      require (.value .leveragedAggregate ∈ v.seen) .aggregateRequired
    else refuseSeen v .option [.value .leveragedAggregate]
  | .equity =>
    refuseSeen v .equity (optionFlags ++ [.value .leveragedAggregate, .leveragedUnderlying])
  | .leveragedEtf => do
    refuseSeen v .leveragedEtf (optionFlags ++ [.leveragedUnderlying])
    require (.value .leveragedAggregate ∈ v.seen) .aggregateRequired

/-- Everything between the argument loop and the conversions. -/
def validate (v : Vars) : Except UsageError Instrument := do
  let i ← instrumentOf (v.values .instrument)
  require (v.values .symbol ≠ "") .symbolRequired
  require ("--".toList.isPrefixOf (v.values .symbol).toList = false)
    (.symbolIsFlag (v.values .symbol))
  require (isQty (v.values .qty) = true) (.qty (v.values .qty))
  require (1 ≤ number (v.values .qty).toList ∧ number (v.values .qty).toList ≤ 1000000)
    (.qty (v.values .qty))
  require (isPrice (v.values .price) = true) (.price (v.values .price))
  require (isIntent (v.values .intentNotional) = true) (.intentNotional (v.values .intentNotional))
  accountAmounts.forM fun q => require (isNumber (v.values q) = true) (.amount q (v.values q))
  checkFlags v i
  return i

/-- The arguments, up to the conversions. -/
def checkArguments (argv : List String) : Except Stop (Vars × Instrument) := do
  let v ← argumentLoop .init argv
  let i ← (validate v).mapError .usage
  return (v, i)

/-! ## The gates -/

/-- The rules the gate asks for. -/
structure RuleBook where
  positionPct : ℤ
  optionSinglePct : ℤ
  optionOpenPct : ℤ
  leveragedPct : ℤ
  minSharePrice : String

/-- The same, as the file has them: a key may be missing. -/
structure RulesFile where
  positionPct : Option ℤ
  optionSinglePct : Option ℤ
  optionOpenPct : Option ℤ
  leveragedPct : Option ℤ
  minSharePrice : Option String

/-- `rule_get` of each of them. -/
def RulesFile.book (file : RulesFile) : Option RuleBook := do
  let positionPct ← file.positionPct
  let optionSinglePct ← file.optionSinglePct
  let optionOpenPct ← file.optionOpenPct
  let leveragedPct ← file.leveragedPct
  let minSharePrice ← file.minSharePrice
  return ⟨positionPct, optionSinglePct, optionOpenPct, leveragedPct, minSharePrice⟩

/-- How the script ends. -/
inductive Exit where
  | help
  | usage (e : UsageError)
  | rules
  | floor
  | notional
  | cap
  | cash
  | pass
deriving DecidableEq, Repr

def Exit.code : Exit → ℕ
  | .help => 0
  | .usage _ => 2
  | .floor => 3
  | .notional => 4
  | .cap => 5
  | .cash => 6
  | .rules => 7
  | .pass => 0

/-- The gates were evaluated. -/
def Exit.gated : Exit → Bool
  | .floor | .notional | .cap | .cash | .pass => true
  | .help | .usage _ | .rules => false

/-- The variables of the gates, in ten-thousandths. -/
structure E4 where
  qty : ℤ
  price : ℤ
  intent : ℤ
  comp : ℤ
  settled : ℤ
  existing : ℤ
  existingPremium : ℤ
  openPremium : ℤ
  leveraged : ℤ
  underlying : ℤ
  floor : ℤ

def conversions (book : RuleBook) (v : Vars) : E4 where
  qty := number (v.values .qty).toList
  price := toE4 (v.values .price)
  intent := toE4 (v.values .intentNotional)
  comp := toE4 (v.values .compCapital)
  settled := toE4 (v.values .settledCash)
  existing := toE4 (v.values .existingPositionValue)
  existingPremium := toE4 (v.values .existingOptionPremium)
  openPremium := toE4 (v.values .openOptionPremium)
  leveraged := toE4 (v.values .leveragedAggregate)
  underlying := toE4 (v.values .underlyingPrice)
  floor := toE4 book.minSharePrice

def multiplier : Instrument → ℤ
  | .option => 100
  | _ => 1

/-- `comp_e4 * pct / 100`. -/
def capE4 (comp pct : ℤ) : ℤ := (wrap (comp * pct)).tdiv 100

/-- The totals of the caps, each with its cap, in the order of the script. -/
def capsE4 (book : RuleBook) (e : E4) (leveragedUnderlying : Bool) : Instrument → List (ℤ × ℤ)
  | .equity => [(wrap (e.existing + wrap (e.qty * e.price)), capE4 e.comp book.positionPct)]
  | .leveragedEtf =>
    [(wrap (e.existing + wrap (e.qty * e.price)), capE4 e.comp book.positionPct),
      (wrap (e.leveraged + wrap (e.qty * e.price)), capE4 e.comp book.leveragedPct)]
  | .option =>
    let premium := wrap (wrap (e.qty * e.price) * 100)
    [(wrap (e.existingPremium + premium), capE4 e.comp book.optionSinglePct),
      (wrap (e.openPremium + premium), capE4 e.comp book.optionOpenPct)] ++
      if leveragedUnderlying then
        [(wrap (e.leveraged + premium), capE4 e.comp book.leveragedPct)]
      else []

/-- `[ "$diff" -lt 0 ] && diff=$(( -diff ))`. -/
def absE4 (diff : ℤ) : ℤ := if diff < 0 then wrap (-diff) else diff

/-- The gates, in their order: the first that fails is the exit. -/
def gates (book : RuleBook) (v : Vars) (i : Instrument) : Exit :=
  let e := conversions book v
  let notional := wrap (wrap (e.qty * e.price) * multiplier i)
  let floored := if i = .option then e.underlying else e.price
  if floored < e.floor then .floor
  else if 100 < absE4 (wrap (notional - e.intent)) then .notional
  else if (capsE4 book e v.leveragedUnderlying i).any fun c => c.2 < c.1 then .cap
  else if e.settled < notional then .cash
  else .pass

/-- The script. No rules file is one that could not be loaded. -/
def preOrderCheck (rules : Option RulesFile) (argv : List String) : Exit :=
  match rules with
  | none => .rules
  | some file =>
    match checkArguments argv with
    | .error .help => .help
    | .error (.usage e) => .usage e
    | .ok (v, i) =>
      match file.book with
      | none => .rules
      | some book => gates book v i

end TradeDesk.Scripts
