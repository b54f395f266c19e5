import TradeDesk.Scripts.Arguments

/-!
# The gates over exact amounts

What the script evaluates in ten-thousandths and 64 bits is what its gates
say of the amounts themselves. Every conversion is exact (`toE4_exact`),
every sum and product stays in the range of the shell
(`arithmetic_fits`), and a cap that is divided down to a whole number of
ten-thousandths is the cap floored at one (`capE4_exact`). So each
comparison is that of the amounts, scaled by ten thousand.
-/

namespace TradeDesk.Scripts

/-! ## The gates -/

/-- The amounts of an order. -/
structure Order where
  qty : ℚ
  price : ℚ
  intent : ℚ
  account : ℚ
  settled : ℚ
  existing : ℚ
  existingPremium : ℚ
  openPremium : ℚ
  leveraged : ℚ
  underlying : ℚ

def orderOf (v : Vars) : Order where
  qty := amount (v.values .qty)
  price := amount (v.values .price)
  intent := amount (v.values .intentNotional)
  account := amount (v.values .compCapital)
  settled := amount (v.values .settledCash)
  existing := amount (v.values .existingPositionValue)
  existingPremium := amount (v.values .existingOptionPremium)
  openPremium := amount (v.values .openOptionPremium)
  leveraged := amount (v.values .leveragedAggregate)
  underlying := amount (v.values .underlyingPrice)

/-- A share of the account, floored at a ten-thousandth. -/
def flooredCap (account : ℚ) (pct : ℤ) : ℚ := ⌊account * pct / 100 * 10000⌋ / 10000

namespace Order

variable (o : Order)

/-- What the order costs: a contract is a hundred shares. -/
def notional (i : Instrument) : ℚ := o.qty * o.price * if i = .option then 100 else 1

/-- What would be held, with the cap on it. -/
def caps (book : RuleBook) (leveragedUnderlying : Bool) : Instrument → List (ℚ × ℚ)
  | .equity => [(o.existing + o.qty * o.price, flooredCap o.account book.positionPct)]
  | .leveragedEtf =>
    [(o.existing + o.qty * o.price, flooredCap o.account book.positionPct),
      (o.leveraged + o.qty * o.price, flooredCap o.account book.leveragedPct)]
  | .option =>
    [(o.existingPremium + o.qty * o.price * 100, flooredCap o.account book.optionSinglePct),
      (o.openPremium + o.qty * o.price * 100, flooredCap o.account book.optionOpenPct)] ++
      if leveragedUnderlying then
        [(o.leveraged + o.qty * o.price * 100, flooredCap o.account book.leveragedPct)]
      else []

end Order

/-- The exit code of the gates in their order. -/
def exactCode (book : RuleBook) (v : Vars) (i : Instrument) : ℕ :=
  let o := orderOf v
  if (if i = .option then o.underlying else o.price) < amount book.minSharePrice then 3
  else if 1 / 100 < |o.notional i - o.intent| then 4
  else if ∃ c ∈ o.caps book v.leveragedUnderlying i, c.2 < c.1 then 5
  else if o.settled < o.notional i then 6
  else 0

/-! ## What the shell calculates -/

/-- The values of the arithmetic expansions of `to_e4`. -/
def conversionSteps (s : String) : List ℤ :=
  let int := valueOf (s.toList.takeWhile (· != '.'))
  let frac := valueOf ((((s.toList.dropWhile (· != '.')).tail) ++ ['0', '0', '0', '0']).take 4)
  [int, frac, int * 10000, int * 10000 + frac]

/-- Those of the gates, for variables in ten-thousandths. -/
def arithmetic (book : RuleBook) (e : E4) (i : Instrument) : List ℤ :=
  [e.qty * e.price, e.qty * e.price * multiplier i, e.qty * e.price * 100,
    e.comp * book.positionPct, e.comp * book.optionSinglePct, e.comp * book.optionOpenPct,
    e.comp * book.leveragedPct, e.qty * e.price * multiplier i - e.intent,
    -(e.qty * e.price * multiplier i - e.intent), e.existing + e.qty * e.price,
    e.leveraged + e.qty * e.price, e.existingPremium + e.qty * e.price * 100,
    e.openPremium + e.qty * e.price * 100, e.leveraged + e.qty * e.price * 100]

/-- The texts that are converted. -/
def converted (book : RuleBook) (v : Vars) (i : Instrument) : List String :=
  [v.values .price, v.values .intentNotional] ++ accountAmounts.map v.values ++
    (if i = .option then [v.values .underlyingPrice] else []) ++ [book.minSharePrice]

/-- Percentages are not negative, and no more than the shell can multiply the
largest account value with. -/
structure Percentages (book : RuleBook) : Prop where
  position : 0 ≤ book.positionPct ∧ book.positionPct ≤ 9223372
  optionSingle : 0 ≤ book.optionSinglePct ∧ book.optionSinglePct ≤ 9223372
  optionOpen : 0 ≤ book.optionOpenPct ∧ book.optionOpenPct ≤ 9223372
  leveraged : 0 ≤ book.leveragedPct ∧ book.leveragedPct ≤ 9223372

variable {book : RuleBook} {v : Vars} {i : Instrument}

theorem conversionSteps_fit {whole : ℕ} {s : String} (h : decimalFormat whole s = true)
    (hwhole : whole ≤ 13) : ∀ n ∈ conversionSteps s, Fits64 n := by
  obtain ⟨int, frac, hint, hfrac, hintDigits, hfracDigits, -, hle, -⟩ := decimalFormat_parts h
  have hpadDigits : ∀ c ∈ (frac ++ ['0', '0', '0', '0']).take 4, c.isDigit = true := by
    intro c hc
    rcases List.mem_append.mp (List.mem_of_mem_take hc) with hc | hc
    · exact hfracDigits c hc
    · have hzero : c = '0' := by simpa using hc
      rw [hzero]
      rfl
  have hintLt := valueOf_lt hintDigits
  have hpadLt := valueOf_lt hpadDigits
  have hpow : 10 ^ int.length ≤ 10 ^ whole := Nat.pow_le_pow_right (by decide) hle
  have hwide : 10 ^ whole ≤ 10 ^ 13 := Nat.pow_le_pow_right (by decide) hwhole
  have hpadLen : 10 ^ ((frac ++ ['0', '0', '0', '0']).take 4).length ≤ 10 ^ 4 := by
    refine Nat.pow_le_pow_right (by decide) ?_
    rw [List.length_take]
    exact Nat.min_le_left _ _
  intro n hn
  unfold conversionSteps at hn
  dsimp only at hn
  rw [hint, hfrac] at hn
  simp only [List.mem_cons, List.not_mem_nil, or_false] at hn
  unfold Fits64
  rcases hn with rfl | rfl | rfl | rfl
  · omega
  · omega
  · omega
  · omega

/-- The ranges of the variables, and what the amounts make of them. -/
structure Converted (book : RuleBook) (e : E4) (o : Order) (i : Instrument) : Prop where
  qty : (e.qty : ℚ) = o.qty ∧ 1 ≤ e.qty ∧ e.qty ≤ 1000000
  price : (e.price : ℚ) = o.price * 10000 ∧ 0 ≤ e.price ∧ e.price < 10 ^ 9
  intent : (e.intent : ℚ) = o.intent * 10000 ∧ 0 ≤ e.intent ∧ e.intent < 10 ^ 17
  comp : (e.comp : ℚ) = o.account * 10000 ∧ 0 ≤ e.comp ∧ e.comp < 10 ^ 12
  settled : (e.settled : ℚ) = o.settled * 10000 ∧ 0 ≤ e.settled ∧ e.settled < 10 ^ 12
  existing : (e.existing : ℚ) = o.existing * 10000 ∧ 0 ≤ e.existing ∧ e.existing < 10 ^ 12
  existingPremium : (e.existingPremium : ℚ) = o.existingPremium * 10000 ∧
    0 ≤ e.existingPremium ∧ e.existingPremium < 10 ^ 12
  openPremium : (e.openPremium : ℚ) = o.openPremium * 10000 ∧
    0 ≤ e.openPremium ∧ e.openPremium < 10 ^ 12
  leveraged : (e.leveraged : ℚ) = o.leveraged * 10000 ∧ 0 ≤ e.leveraged ∧ e.leveraged < 10 ^ 12
  underlying : i = .option → (e.underlying : ℚ) = o.underlying * 10000
  floor : (e.floor : ℚ) = amount book.minSharePrice * 10000

theorem Checked.underlying (c : Checked v .option) : isPrice (v.values .underlyingPrice) = true :=
  (checkFlags_ok.mp c.flags).2.1

theorem converted_of_checked (c : Checked v i) (hmin : isIntent book.minSharePrice = true) :
    Converted book (conversions book v) (orderOf v) i := by
  have hscaled : ∀ {s : String} {whole bound : ℕ}, decimalFormat whole s = true → whole ≤ 13 →
      bound = whole + 4 → (toE4 s : ℚ) = amount s * 10000 ∧ 0 ≤ toE4 s ∧ toE4 s < 10 ^ bound := by
    intro s whole bound hformat hwhole hbound
    rw [hbound]
    exact toE4_exact hformat hwhole
  have hamount : ∀ q ∈ accountAmounts, (toE4 (v.values q) : ℚ) = amount (v.values q) * 10000 ∧
      0 ≤ toE4 (v.values q) ∧ toE4 (v.values q) < 10 ^ 12 :=
    fun q hq => hscaled (c.amounts q hq) (by decide) rfl
  -- with the records written out, each field is that of its text
  unfold conversions orderOf
  constructor
  all_goals dsimp only
  case qty => exact ⟨(isQty_exact c.qty).1, c.qty_range⟩
  case price => exact hscaled c.price (by decide) rfl
  case intent => exact hscaled c.intent (by decide) rfl
  case underlying =>
    intro hi
    subst hi
    exact (hscaled c.underlying (by decide) rfl).1
  case floor => exact (hscaled hmin (by decide) rfl).1
  all_goals exact hamount _ (by decide)

theorem mul_bounds {a b c d : ℤ} (ha : 0 ≤ a) (hac : a ≤ c) (hb : 0 ≤ b) (hbd : b ≤ d) :
    0 ≤ a * b ∧ a * b ≤ c * d :=
  ⟨Int.mul_nonneg ha hb, Int.mul_le_mul hac hbd hb (ha.trans hac)⟩

/-- **Nothing that the gates calculate leaves the range of the shell.** -/
theorem arithmetic_fits {e : E4} {o : Order} (h : Converted book e o i) (hpct : Percentages book) :
    ∀ n ∈ arithmetic book e i, Fits64 n := by
  obtain ⟨-, hq1, hq⟩ := h.qty
  obtain ⟨-, hp0, hp⟩ := h.price
  obtain ⟨-, hi0, hi⟩ := h.intent
  obtain ⟨-, hc0, hc⟩ := h.comp
  obtain ⟨-, he0, he⟩ := h.existing
  obtain ⟨-, hx0, hx⟩ := h.existingPremium
  obtain ⟨-, ho0, ho⟩ := h.openPremium
  obtain ⟨-, hl0, hl⟩ := h.leveraged
  have hproduct : 0 ≤ e.qty * e.price ∧ e.qty * e.price ≤ 1000000 * 10 ^ 9 :=
    mul_bounds (by omega) hq hp0 (by omega)
  have hcap : ∀ {pct : ℤ}, 0 ≤ pct ∧ pct ≤ 9223372 →
      0 ≤ e.comp * pct ∧ e.comp * pct ≤ 10 ^ 12 * 9223372 := fun hp =>
    mul_bounds hc0 (by omega) hp.1 hp.2
  have h1 := hcap hpct.position
  have h2 := hcap hpct.optionSingle
  have h3 := hcap hpct.optionOpen
  have h4 := hcap hpct.leveraged
  generalize hP : e.qty * e.price = P at hproduct
  have hmult : 0 ≤ P * multiplier i ∧ P * multiplier i ≤ 10 ^ 15 * 100 := by
    refine mul_bounds hproduct.1 hproduct.2 ?_ ?_
    · cases i <;> decide
    · cases i <;> decide
  intro n hn
  unfold arithmetic at hn
  rw [hP] at hn
  generalize P * multiplier i = N at hn hmult
  simp only [List.mem_cons, List.not_mem_nil, or_false] at hn
  unfold Fits64
  rcases hn with rfl | rfl | rfl | rfl | rfl | rfl | rfl | rfl | rfl | rfl | rfl | rfl | rfl | rfl
  all_goals omega

/-- A cap that is divided down is the cap floored at a ten-thousandth. -/
theorem capE4_exact {comp pct : ℤ} {account : ℚ} (hcomp : (comp : ℚ) = account * 10000)
    (h0 : 0 ≤ comp) (hpct : 0 ≤ pct) (hfits : Fits64 (comp * pct)) :
    (capE4 comp pct : ℚ) = flooredCap account pct * 10000 := by
  have hfloor : ⌊account * pct / 100 * 10000⌋ = comp * pct / 100 := by
    have hscale : account * pct / 100 * 10000 = ((comp * pct : ℤ) : ℚ) / ((100 : ℕ) : ℚ) := by
      push_cast
      rw [hcomp]
      ring
    rw [hscale, Rat.floor_intCast_div_natCast]
    rfl
  unfold capE4 flooredCap
  rw [wrap_of_fits hfits, hfloor, Int.tdiv_eq_ediv_of_nonneg (Int.mul_nonneg h0 hpct)]
  rw [div_mul_cancel₀]
  norm_num

/-! ## The comparisons -/

/-- `n` is the amount `x`, in ten-thousandths. -/
def Scaled (n : ℤ) (x : ℚ) : Prop := (n : ℚ) = x * 10000

theorem Scaled.lt_iff {a b : ℤ} {x y : ℚ} (ha : Scaled a x) (hb : Scaled b y) :
    a < b ↔ x < y := by
  rw [← Int.cast_lt (R := ℚ), ha, hb]
  exact mul_lt_mul_iff_left₀ (by norm_num)

theorem Scaled.add {a b : ℤ} {x y : ℚ} (ha : Scaled a x) (hb : Scaled b y) :
    Scaled (a + b) (x + y) := by
  unfold Scaled at *
  rw [Int.cast_add, ha, hb]
  ring

theorem Scaled.sub {a b : ℤ} {x y : ℚ} (ha : Scaled a x) (hb : Scaled b y) :
    Scaled (a - b) (x - y) := by
  unfold Scaled at *
  rw [Int.cast_sub, ha, hb]
  ring

theorem Scaled.abs {a : ℤ} {x : ℚ} (ha : Scaled a x) : Scaled |a| |x| := by
  unfold Scaled at *
  rw [Int.cast_abs, ha, abs_mul]
  norm_num

theorem Scaled.mul {a : ℤ} {x : ℚ} (k : ℤ) (ha : Scaled a x) : Scaled (a * k) (x * k) := by
  unfold Scaled at *
  rw [Int.cast_mul, ha]
  ring

theorem Converted.value {e : E4} {o : Order} (h : Converted book e o i) :
    Scaled (e.qty * e.price) (o.qty * o.price) := by
  unfold Scaled
  rw [Int.cast_mul, h.qty.1, h.price.1]
  ring

theorem absE4_eq {d : ℤ} (h : Fits64 (-d)) : absE4 d = |d| := by
  unfold absE4
  split
  next hneg => rw [wrap_of_fits h, abs_of_neg hneg]
  next hnonneg => rw [abs_of_nonneg (by omega)]

/-- A total is over its cap exactly when the amounts are. -/
theorem over_iff {scaled : List (ℤ × ℤ)} {exact : List (ℚ × ℚ)}
    (h : List.Forall₂ (fun c d => Scaled c.1 d.1 ∧ Scaled c.2 d.2) scaled exact) :
    (scaled.any fun c => c.2 < c.1) = true ↔ ∃ d ∈ exact, d.2 < d.1 := by
  induction h with
  | nil => simp
  | cons hcd _ ih =>
    rw [List.any_cons, Bool.or_eq_true, ih, decide_eq_true_iff, hcd.2.lt_iff hcd.1]
    simp only [List.mem_cons, exists_eq_or_imp]

/-- **The totals and the caps are those of the amounts.** -/
theorem caps_exact {e : E4} {o : Order} (h : Converted book e o i) (hpct : Percentages book)
    (lev : Bool) : List.Forall₂ (fun c d => Scaled c.1 d.1 ∧ Scaled c.2 d.2)
      (capsE4 book e lev i) (o.caps book lev i) := by
  have hfits := arithmetic_fits h hpct
  unfold arithmetic at hfits
  simp only [List.mem_cons, List.not_mem_nil, or_false, forall_eq_or_imp, forall_eq] at hfits
  obtain ⟨hvalue, -, hpremium, hpos, hsingle, hopen, hlev, -, -, hheld, hlevHeld, hsingleHeld,
    hopenHeld, hlevPremium⟩ := hfits
  have hcap : ∀ {pct : ℤ}, 0 ≤ pct → Fits64 (e.comp * pct) →
      Scaled (capE4 e.comp pct) (flooredCap o.account pct) := fun h0 hf =>
    capE4_exact h.comp.1 h.comp.2.1 h0 hf
  have hamount := h.value
  have hcontract : Scaled (e.qty * e.price * 100) (o.qty * o.price * 100) := by
    simpa using hamount.mul 100
  cases i with
  | equity =>
    unfold capsE4 Order.caps
    dsimp only
    rw [wrap_of_fits hvalue, wrap_of_fits hheld]
    exact .cons ⟨Scaled.add h.existing.1 hamount, hcap hpct.position.1 hpos⟩ .nil
  | leveragedEtf =>
    unfold capsE4 Order.caps
    dsimp only
    rw [wrap_of_fits hvalue, wrap_of_fits hheld, wrap_of_fits hlevHeld]
    exact .cons ⟨Scaled.add h.existing.1 hamount, hcap hpct.position.1 hpos⟩
      (.cons ⟨Scaled.add h.leveraged.1 hamount, hcap hpct.leveraged.1 hlev⟩ .nil)
  | option =>
    unfold capsE4 Order.caps
    dsimp only
    rw [wrap_of_fits hvalue, wrap_of_fits hpremium, wrap_of_fits hsingleHeld,
      wrap_of_fits hopenHeld, wrap_of_fits hlevPremium]
    refine .cons ⟨Scaled.add h.existingPremium.1 hcontract, hcap hpct.optionSingle.1 hsingle⟩
      (.cons ⟨Scaled.add h.openPremium.1 hcontract, hcap hpct.optionOpen.1 hopen⟩ ?_)
    split
    · exact .cons ⟨Scaled.add h.leveraged.1 hcontract, hcap hpct.leveraged.1 hlev⟩ .nil
    · exact .nil

/-- **The gates are those of the amounts**, in the same order. -/
theorem gates_exact (c : Checked v i) (hpct : Percentages book)
    (hmin : isIntent book.minSharePrice = true) : (gates book v i).code = exactCode book v i := by
  have h := converted_of_checked c hmin
  have hfits := arithmetic_fits h hpct
  have hover := over_iff (caps_exact h hpct v.leveragedUnderlying)
  unfold gates exactCode
  dsimp only
  generalize conversions book v = e at *
  generalize orderOf v = o at *
  unfold arithmetic at hfits
  simp only [List.mem_cons, List.not_mem_nil, or_false, forall_eq_or_imp, forall_eq] at hfits
  obtain ⟨hvalue, hnotional, -, -, -, -, -, hdiff, hneg, -⟩ := hfits
  have hscaled : Scaled (e.qty * e.price * multiplier i) (o.notional i) := by
    have hmult := h.value.mul (multiplier i)
    unfold Order.notional
    cases i with
    | equity => exact hmult
    | option => exact hmult
    | leveragedEtf => exact hmult
  have hfloor : (if i = .option then e.underlying else e.price) < e.floor ↔
      (if i = .option then o.underlying else o.price) < amount book.minSharePrice := by
    split
    next hi => exact Scaled.lt_iff (h.underlying hi) h.floor
    next => exact Scaled.lt_iff h.price.1 h.floor
  have hcent : 100 < |e.qty * e.price * multiplier i - e.intent| ↔
      1 / 100 < |o.notional i - o.intent| := by
    have hhundred : Scaled 100 (1 / 100) := by
      unfold Scaled
      norm_num
    exact hhundred.lt_iff (hscaled.sub h.intent.1).abs
  have hcash : e.settled < e.qty * e.price * multiplier i ↔ o.settled < o.notional i :=
    Scaled.lt_iff h.settled.1 hscaled
  rw [wrap_of_fits hvalue, wrap_of_fits hnotional, wrap_of_fits hdiff, absE4_eq hneg]
  simp only [hfloor, hcent, hover, hcash, apply_ite Exit.code]
  rfl

theorem checked_of_accepted {argv : List String} (h : checkArguments argv = .ok (v, i)) :
    Checked v i := by
  obtain ⟨settings, -, -, hv, hlegit⟩ := checkArguments_ok.mp h
  rw [hv]
  exact checked_iff.mpr hlegit

/-- **The order gate is exact.** For arguments that are accepted, the exit
code is that of the gates over the amounts themselves; each conversion to
ten-thousandths loses nothing; and nothing that is calculated on the way
leaves the range of the shell. -/
theorem orderGate_exact {file : RulesFile} {argv : List String} (hbook : file.book = some book)
    (hpct : Percentages book) (hmin : isIntent book.minSharePrice = true)
    (haccepted : checkArguments argv = .ok (v, i)) :
    (preOrderCheck (some file) argv).code = exactCode book v i ∧
      (number (v.values .qty).toList : ℚ) = amount (v.values .qty) ∧
      (∀ s ∈ converted book v i, Scaled (toE4 s) (amount s)) ∧
      ∀ n ∈ (converted book v i).flatMap conversionSteps ++
        arithmetic book (conversions book v) i, Fits64 n := by
  have c := checked_of_accepted haccepted
  have hformat : ∀ s ∈ converted book v i, ∃ whole ≤ 13, decimalFormat whole s = true := by
    intro s hs
    unfold converted at hs
    simp only [List.mem_append, List.mem_cons, List.not_mem_nil, or_false] at hs
    rcases hs with (((rfl | rfl) | hs) | hs) | rfl
    · exact ⟨5, by decide, c.price⟩
    · exact ⟨13, by decide, c.intent⟩
    · obtain ⟨q, hq, rfl⟩ := List.mem_map.mp hs
      exact ⟨8, by decide, c.amounts q hq⟩
    · split at hs
      next hi =>
        subst hi
        rw [List.mem_singleton.mp hs]
        exact ⟨5, by decide, c.underlying⟩
      next => cases hs
    · exact ⟨13, by decide, hmin⟩
  refine ⟨?_, (isQty_exact c.qty).1, fun s hs => ?_, fun n hn => ?_⟩
  · unfold preOrderCheck
    dsimp only
    rw [haccepted]
    dsimp only
    rw [hbook]
    exact gates_exact c hpct hmin
  · obtain ⟨whole, hwhole, hdecimal⟩ := hformat s hs
    exact (toE4_exact hdecimal hwhole).1
  · rcases List.mem_append.mp hn with hn | hn
    · obtain ⟨s, hs, hstep⟩ := List.mem_flatMap.mp hn
      obtain ⟨whole, hwhole, hdecimal⟩ := hformat s hs
      exact conversionSteps_fit hdecimal hwhole n hstep
    · exact arithmetic_fits (converted_of_checked c hmin) hpct n hn

/-- An order that is just at its cap, and takes all the cash. -/
private def atTheCap : List String :=
  ["--instrument", "equity", "--symbol", "TST", "--qty", "35", "--price", "10.00",
    "--intent-notional", "350.00", "--account-value", "1000.00", "--settled-cash", "350.00"]

theorem orderGate_exact_atTheCap : ∃ v i, checkArguments atTheCap = .ok (v, i) ∧
    exactCode ⟨35, 10, 30, 20, "5.00"⟩ v i = 0 := by
  have hpass : preOrderCheck (some ⟨some 35, some 10, some 30, some 20, some "5.00"⟩) atTheCap =
      .pass := by decide +kernel
  cases hargs : checkArguments atTheCap with
  | error stop =>
    unfold preOrderCheck at hpass
    dsimp only at hpass
    rw [hargs] at hpass
    cases stop with
    | help => cases hpass
    | usage e => cases hpass
  | ok p =>
    obtain ⟨v, i⟩ := p
    refine ⟨v, i, rfl, ?_⟩
    have hexact := @orderGate_exact ⟨35, 10, 30, 20, "5.00"⟩ v i
      ⟨some 35, some 10, some 30, some 20, some "5.00"⟩ atTheCap rfl
      ⟨by decide, by decide, by decide, by decide⟩ (by decide +kernel) hargs
    rw [← hexact.1, hpass]
    rfl

end TradeDesk.Scripts
