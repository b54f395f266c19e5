import TradeDesk.Loops.Directory
import TradeDesk.Lists.Dict

/-!
# The gates and the rank

`filter_universe` looks at every quote once. It is skipped for want of a
price, gated out by one of four numbers, filtered as a takeover stub, or it
becomes a row; the rows are then ranked. `screen` is the turn of that loop,
and what the loop returns is what its turns say of the quotes one by one
(`screenLoop_eq`): so a symbol's fate never depends on another's, and every
quote has exactly one (`fates_perm`).
-/

namespace TradeDesk.Loops

open TradeDesk.Async TradeDesk.Lists

/-- What `quotes_verbose` says of a symbol; without a price it is
unquotable. -/
structure VerboseQuote where
  price : Option ℚ
  avg10DaysVolume : ℚ
  fundLeverageFactor : ℚ
  high : Option ℚ
  low : Option ℚ
  week52High : ℚ
  optionable : Bool
  description : String
  lastEarnings : String
  isEtf : Bool
deriving DecidableEq, Repr

/-- A row of the universe. The leverage is a multiple; no range means that
the quote had no usable high and low. -/
structure UniverseRow where
  symbol : String
  price : ℚ
  adv10 : ℚ
  dollarVol : ℚ
  pctFrom52wkHigh : ℚ
  optionable : Bool
  leverage : ℚ
  lastEarnings : String
  isEtf : Bool
  sessionRangePct : Option ℚ
  description : String
  qualified : Bool
deriving DecidableEq, Repr

structure Counts where
  fetched : ℕ
  quoted : ℕ
  qualified : ℕ
  stubFiltered : ℕ
  nodata : ℕ
  ranked : ℕ
  dropped : ℕ
  skipped : List String
  chunks : ℕ
  chunksFailed : ℕ
deriving DecidableEq, Repr

/-! ## One quote -/

def no52wkHighGap : ℚ := 999

def sessionRangePct (q : VerboseQuote) (price : ℚ) : Option ℚ :=
  match q.high, q.low with
  | some hi, some lo =>
    if hi ≤ 0 ∨ lo ≤ 0 ∨ price ≤ 0 then none else some ((hi - lo) / price * 100)
  | _, _ => none

/-- The floors, as the rules give them. -/
structure Gates where
  minPrice : ℚ
  minDollar : ℚ
  minShares : ℚ
  minRange : ℚ

def gatesOf (rules : Rules) : Except Exc Gates := do
  let minPrice ← rules.get .manual "min_share_price_usd"
  let minDollar ← rules.get .manual "min_avg_daily_dollar_volume"
  let minShares ← rules.get .manual "min_avg_daily_volume"
  let minRange ← rules.get .strategy "min_session_range_pct"
  return ⟨minPrice, minDollar, minShares, minRange⟩

/-- The row of a symbol at a price. -/
def rowAt (symbol : String) (q : VerboseQuote) (price : ℚ) : UniverseRow where
  symbol := symbol
  price := price
  adv10 := q.avg10DaysVolume
  dollarVol := q.avg10DaysVolume * price
  pctFrom52wkHigh :=
    if q.week52High ≠ 0 then (q.week52High - price) / q.week52High * 100 else no52wkHighGap
  optionable := q.optionable
  leverage := q.fundLeverageFactor / 100
  lastEarnings := q.lastEarnings
  isEtf := q.isEtf
  sessionRangePct := sessionRangePct q price
  description := q.description
  qualified := true

inductive Verdict where
  | skipped | gated | stub
  | kept (row : UniverseRow)
deriving DecidableEq, Repr

/-- The gates in their order; the stub gate lets a name without a range
through. -/
def screen (g : Gates) (symbol : String) (q : VerboseQuote) : Verdict :=
  match q.price with
  | none => .skipped
  | some price =>
    if price < g.minPrice then .gated
    else if q.avg10DaysVolume * price < g.minDollar then .gated
    else if q.avg10DaysVolume < g.minShares then .gated
    else if q.fundLeverageFactor ≠ 0 ∧ q.fundLeverageFactor ≠ 100 then .gated
    else if (sessionRangePct q price).any fun rng => rng < g.minRange then .stub
    else .kept (rowAt symbol q price)

/-! ## The loop -/

structure Screened where
  rows : List UniverseRow
  skipped : List String
  stubFiltered : ℕ
  nodata : ℕ
deriving DecidableEq, Repr

def screenLoop (g : Gates) : List (String × VerboseQuote) → Screened → Screened
  | [], acc => acc
  | (symbol, q) :: rest, acc => screenLoop g rest <| match screen g symbol q with
    | .skipped => { acc with skipped := acc.skipped ++ [symbol] }
    | .gated => acc
    | .stub => { acc with stubFiltered := acc.stubFiltered + 1 }
    | .kept row => { acc with
        rows := acc.rows ++ [row]
        nodata := acc.nodata + if row.sessionRangePct = none then 1 else 0 }

/-- The order of the rank: nearest its high first, then by dollar volume. -/
def rankLe (a b : UniverseRow) : Bool :=
  a.pctFrom52wkHigh < b.pctFrom52wkHigh ∨
    a.pctFrom52wkHigh = b.pctFrom52wkHigh ∧ b.dollarVol ≤ a.dollarVol

/-- `rows[:n]`. -/
def headOf (n : ℤ) (rows : List UniverseRow) : List UniverseRow :=
  if 0 ≤ n then rows.take n.toNat else rows.take (rows.length - n.natAbs)

def filterUniverse (quotes : Dict String VerboseQuote) (rules : Rules) (rankTop : Option ℤ) :
    Except Exc (List UniverseRow × Counts) := do
  let gates ← gatesOf rules
  let rankTop ← match rankTop with
    | some n => pure n
    | none => rules.getInt .strategy "working_universe_size"
  let found := screenLoop gates quotes.items ⟨[], [], 0, 0⟩
  let all := found.rows.mergeSort rankLe
  let rows := if rankTop ≠ 0 ∧ rankTop < all.length then headOf rankTop all else all
  return (rows, ⟨0, quotes.items.length, all.length, found.stubFiltered, found.nodata, rows.length,
    all.length - rows.length, found.skipped, 0, 0⟩)

/-! ## What passes -/

/-- A quote passes every gate. -/
def Passes (g : Gates) (q : VerboseQuote) : Prop :=
  ∃ price, q.price = some price ∧ g.minPrice ≤ price ∧ g.minDollar ≤ q.avg10DaysVolume * price ∧
    g.minShares ≤ q.avg10DaysVolume ∧ (q.fundLeverageFactor = 0 ∨ q.fundLeverageFactor = 100) ∧
    ∀ rng, sessionRangePct q price = some rng → g.minRange ≤ rng

variable {g : Gates} {symbol : String} {q : VerboseQuote} {row : UniverseRow}

/-- **What is kept has passed, and what passes is kept**, as the row of its
own numbers. -/
theorem screen_kept_iff : screen g symbol q = .kept row ↔
    Passes g q ∧ ∃ price, q.price = some price ∧ row = rowAt symbol q price := by
  unfold screen Passes
  cases hp : q.price with
  | none => simp
  | some price =>
    dsimp only
    constructor
    · intro h
      split at h
      · cases h
      next hprice =>
        split at h
        · cases h
        next hdollar =>
          split at h
          · cases h
          next hshares =>
            split at h
            · cases h
            next hlev =>
              split at h
              · cases h
              next hrange =>
                cases h
                refine ⟨⟨price, rfl, not_lt.mp hprice, not_lt.mp hdollar, not_lt.mp hshares, ?_, ?_⟩,
                  price, rfl, rfl⟩
                · by_cases hzero : q.fundLeverageFactor = 0
                  · exact .inl hzero
                  · exact .inr (not_not.mp fun hne => hlev ⟨hzero, hne⟩)
                · intro rng hr
                  rw [hr] at hrange
                  simpa using hrange
    · rintro ⟨⟨p, hp', hprice, hdollar, hshares, hlev, hrange⟩, p', hp'', rfl⟩
      obtain rfl := Option.some.inj hp'
      obtain rfl := Option.some.inj hp''
      have hno : ((sessionRangePct q price).any fun rng => decide (rng < g.minRange)) = false := by
        cases hr : sessionRangePct q price with
        | none => rfl
        | some rng => simpa using hrange rng hr
      have hkeep : ¬ (q.fundLeverageFactor ≠ 0 ∧ q.fundLeverageFactor ≠ 100) := by
        rintro ⟨hzero, hne⟩
        exact hlev.elim hzero hne
      rw [if_neg (not_lt.mpr hprice), if_neg (not_lt.mpr hdollar), if_neg (not_lt.mpr hshares),
        if_neg hkeep, hno]
      rfl

theorem rowAt_symbol {price : ℚ} : (rowAt symbol q price).symbol = symbol := rfl

/-- The row of a symbol carries its name. -/
theorem screen_kept_symbol (h : screen g symbol q = .kept row) : row.symbol = symbol := by
  obtain ⟨_, price, _, rfl⟩ := screen_kept_iff.mp h
  rfl

/-! ## What the loop returns -/

/-- The quotes with a verdict. -/
def withVerdict (g : Gates) (v : Verdict) (items : List (String × VerboseQuote)) : List String :=
  (items.filter fun e => screen g e.1 e.2 == v).map (·.1)

/-- The rows of the quotes that are kept. -/
def keptRows (g : Gates) (items : List (String × VerboseQuote)) : List UniverseRow :=
  items.filterMap fun e => match screen g e.1 e.2 with
    | .kept row => some row
    | _ => none

/-- **A quote's fate is its own**: the loop collects the verdicts. -/
theorem screenLoop_eq {items : List (String × VerboseQuote)} : ∀ {acc : Screened},
    screenLoop g items acc = ⟨acc.rows ++ keptRows g items,
      acc.skipped ++ withVerdict g .skipped items,
      acc.stubFiltered + (withVerdict g .stub items).length,
      acc.nodata + (keptRows g items).countP (fun r => r.sessionRangePct = none)⟩ := by
  induction items with
  | nil =>
    intro acc
    simp [screenLoop, keptRows, withVerdict]
  | cons e items ih =>
    intro acc
    obtain ⟨symbol, q⟩ := e
    unfold screenLoop
    rw [ih]
    unfold keptRows withVerdict
    cases hv : screen g symbol q with
    | skipped => simp [hv]
    | gated => simp [hv]
    | stub =>
      simp [hv]
      omega
    | kept row =>
      simp [hv, List.countP_cons]
      omega

theorem withVerdict_cons {v : Verdict} {items : List (String × VerboseQuote)} :
    withVerdict g v ((symbol, q) :: items) =
      if screen g symbol q = v then symbol :: withVerdict g v items else withVerdict g v items := by
  unfold withVerdict
  by_cases hv : screen g symbol q = v <;> simp [hv]

theorem keptRows_cons_of_kept {items : List (String × VerboseQuote)}
    (hv : screen g symbol q = .kept row) :
    keptRows g ((symbol, q) :: items) = row :: keptRows g items := by
  unfold keptRows
  simp [hv]

theorem keptRows_cons_of_not {items : List (String × VerboseQuote)}
    (hv : ∀ row, screen g symbol q ≠ .kept row) :
    keptRows g ((symbol, q) :: items) = keptRows g items := by
  unfold keptRows
  rw [List.filterMap_cons]
  cases hs : screen g symbol q with
  | kept row => exact absurd hs (hv row)
  | skipped | gated | stub => rfl

/-- **Every quote has one fate.** -/
theorem fates_perm (items : List (String × VerboseQuote)) :
    (items.map (·.1)).Perm (withVerdict g .skipped items ++ withVerdict g .gated items ++
      withVerdict g .stub items ++ (keptRows g items).map (·.symbol)) := by
  induction items with
  | nil => exact .nil
  | cons e items ih =>
    obtain ⟨symbol, q⟩ := e
    refine (ih.cons symbol).trans ?_
    rw [withVerdict_cons, withVerdict_cons, withVerdict_cons]
    -- the name goes to the list of its verdict, past the lists before it
    cases hv : screen g symbol q with
    | skipped =>
      rw [keptRows_cons_of_not (by simp [hv])]
      exact .refl _
    | gated =>
      rw [keptRows_cons_of_not (by simp [hv]), if_neg (by simp),
        if_pos rfl, if_neg (by simp), List.append_assoc, List.append_assoc, List.append_assoc,
        List.append_assoc]
      exact List.perm_middle.symm
    | stub =>
      rw [keptRows_cons_of_not (by simp [hv]), if_neg (by simp),
        if_neg (by simp), if_pos rfl, List.append_assoc, List.append_assoc _ (symbol :: _)]
      exact List.perm_middle.symm
    | kept row =>
      rw [keptRows_cons_of_kept hv, if_neg (by simp), if_neg (by simp), if_neg (by simp),
        List.map_cons, screen_kept_symbol hv]
      exact List.perm_middle.symm

/-- A row is kept for a quote that passes. -/
theorem mem_keptRows {items : List (String × VerboseQuote)} : row ∈ keptRows g items ↔
    ∃ q, (row.symbol, q) ∈ items ∧ screen g row.symbol q = .kept row := by
  unfold keptRows
  rw [List.mem_filterMap]
  constructor
  · rintro ⟨⟨symbol, q⟩, hmem, hrow⟩
    dsimp only at hrow
    split at hrow
    next r hr =>
      obtain rfl := Option.some.inj hrow
      obtain rfl := screen_kept_symbol hr
      exact ⟨q, hmem, hr⟩
    · cases hrow
  · rintro ⟨q, hmem, hr⟩
    refine ⟨_, hmem, ?_⟩
    dsimp only
    rw [hr]

/-! ## The rank -/

theorem rankLe_trans (a b c : UniverseRow) (hab : rankLe a b = true) (hbc : rankLe b c = true) :
    rankLe a c = true := by
  unfold rankLe at *
  simp only [decide_eq_true_eq] at *
  rcases hab with hab | ⟨hab, hvab⟩
  · rcases hbc with hbc | ⟨hbc, _⟩
    · exact .inl (hab.trans hbc)
    · exact .inl (hbc ▸ hab)
  · rcases hbc with hbc | ⟨hbc, hvbc⟩
    · exact .inl (hab ▸ hbc)
    · exact .inr ⟨hab.trans hbc, hvbc.trans hvab⟩

theorem rankLe_total (a b : UniverseRow) : (rankLe a b || rankLe b a) = true := by
  unfold rankLe
  rcases lt_trichotomy a.pctFrom52wkHigh b.pctFrom52wkHigh with h | h | h
  · simp [h]
  · rcases le_total a.dollarVol b.dollarVol with hv | hv
    · simp [h, hv]
    · simp [h, hv]
  · simp [h]

theorem headOf_prefix (n : ℤ) (rows : List UniverseRow) : headOf n rows <+: rows := by
  unfold headOf
  split
  · exact List.take_prefix _ _
  · exact List.take_prefix _ _

end TradeDesk.Loops
