import TradeDesk.Models

/-!
# Rules and their arithmetic

`tc/rules/model.py` is a typed view over `rules.yml`, two flat tables of
decimals; a key that is not there is an error, never "no cap applied".
`tc/rules/arith.py` is the arithmetic every cap and stop is computed by.
-/

namespace TradeDesk

structure Rules where
  manual : List (String × ℚ)
  strategy : List (String × ℚ)

namespace Rules

variable (r : Rules)

def get (sec : Section) (key : String) : Except Exc ℚ :=
  let table := match sec with
    | .manual => r.manual
    | .strategy => r.strategy
  match table.lookup key with
  | some v => .ok v
  | none => .error (.keyError sec key)

/-- `int(rules.get(..))`. -/
def getInt (sec : Section) (key : String) : Except Exc ℤ := (r.get sec key).map truncInt

def singlePositionPct : Except Exc ℚ := r.get .manual "single_position_pct"
def optionSinglePositionPct : Except Exc ℚ := r.get .manual "option_single_position_pct"
def optionOpenPremiumPct : Except Exc ℚ := r.get .manual "option_open_premium_pct"
def optionMinDte : Except Exc ℤ := r.getInt .manual "option_min_dte"
def optionCloseAtDte : Except Exc ℤ := r.getInt .manual "option_close_at_dte"
def stopAtrMultiple : Except Exc ℚ := r.get .manual "stop_atr_multiple"
def stopTriggerMinPct : Except Exc ℚ := r.get .manual "stop_trigger_min_pct"
def stopTriggerMaxPct : Except Exc ℚ := r.get .manual "stop_trigger_max_pct"
def stopLimitPctBelowTrigger : Except Exc ℚ := r.get .manual "stop_limit_pct_below_trigger"

def leveragedMaxHoldSessions : Except Exc ℤ := r.getInt .manual "leveraged_max_hold_sessions"
def haltMultipleOfHwm : Except Exc ℚ := r.get .manual "halt_multiple_of_hwm"

/-- Every rule that can be read is at least zero. -/
def NonNeg : Prop := ∀ sec key v, r.get sec key = .ok v → 0 ≤ v

/-- A table of non-negative values reads non-negative values. -/
theorem lookup_nonneg {key : String} {v : ℚ} : ∀ {table : List (String × ℚ)},
    (∀ e ∈ table, 0 ≤ e.2) → table.lookup key = some v → 0 ≤ v := by
  intro table htab h
  induction table with
  | nil => cases h
  | cons e es ih =>
    rw [List.lookup_cons] at h
    split at h
    · cases h
      exact htab e List.mem_cons_self
    · exact ih (fun e' he' => htab e' (List.mem_cons_of_mem e he')) h

/-- Reading the tables entry by entry is enough. -/
theorem nonNeg_of_entries (hm : ∀ e ∈ r.manual, 0 ≤ e.2) (hs : ∀ e ∈ r.strategy, 0 ≤ e.2) :
    r.NonNeg := by
  intro sec key v h
  unfold get at h
  cases sec <;> simp only at h <;> split at h
  next w hw => cases h; exact lookup_nonneg hm hw
  · cases h
  next w hw => cases h; exact lookup_nonneg hs hw
  · cases h

end Rules

/-- The rules the engine reads here, as `rules.yml` has them. -/
def rulesYml : Rules where
  manual := [
    ("single_position_pct", 35), ("option_single_position_pct", 10),
    ("option_open_premium_pct", 30), ("option_min_dte", 18), ("option_min_delta", 45 / 100),
    ("option_max_delta", 75 / 100), ("option_min_open_interest", 500),
    ("option_max_spread_pct_of_mid", 10), ("option_close_at_dte", 5),
    ("stop_atr_multiple", 5 / 2), ("stop_trigger_min_pct", 8), ("stop_trigger_max_pct", 15),
    ("stop_limit_pct_below_trigger", 5), ("leveraged_max_hold_sessions", 5),
    ("halt_multiple_of_hwm", 80 / 100), ("correlation_cap_pct", 50),
    ("correlation_threshold", 7 / 10)]
  strategy := [
    ("max_daily_atr_pct", 6), ("pitch_horizon_min_days", 2), ("pitch_horizon_max_days", 20),
    ("pitch_level_max_distance_pct", 30), ("desk_max_new_calls_per_day", 5),
    ("min_fundable_conviction", 3), ("size_shares_pct_conviction_3", 10),
    ("size_shares_pct_conviction_4", 15), ("size_shares_pct_conviction_5", 20),
    ("size_option_premium_pct_conviction_3", 5),
    ("size_option_premium_pct_conviction_4", 15 / 2),
    ("size_option_premium_pct_conviction_5", 10), ("max_funded_positions", 8),
    ("option_max_dte", 60), ("option_target_delta", 60 / 100),
    ("option_min_delta", 45 / 100), ("veto_window_minutes", 10), ("max_entry_chase_pct", 5),
    ("desk_max_pitches_per_analyst_run", 5), ("desk_preopen_max_new_pitches", 2),
    ("checkpoint_min_pm_calls", 40), ("analyst_review_min_pitches", 15),
    ("scorecard_ci_min_n", 20)]

theorem rulesYml_nonNeg : rulesYml.NonNeg :=
  Rules.nonNeg_of_entries _ (by decide +kernel) (by decide +kernel)

/-! ## Arithmetic -/

def capDollars (pct accountValue : ℚ) : ℚ := floorCents (accountValue * pct / 100)

structure StopGeometry where
  trigger : ℚ
  limit : ℚ
  triggerPct : ℚ
deriving DecidableEq, Repr

/-- The trigger is `multiple × ATR%` below the entry, clamped; the limit sits
`limit_pct` below the trigger. -/
def stopGeometry (entry dailyAtrPct : ℚ) (rules : Rules) : Except Exc StopGeometry := do
  let raw := (← rules.stopAtrMultiple) * dailyAtrPct
  let triggerPct := min (max raw (← rules.stopTriggerMinPct)) (← rules.stopTriggerMaxPct)
  let trigger := cents (entry * (100 - triggerPct) / 100)
  let limit := cents (trigger * (100 - (← rules.stopLimitPctBelowTrigger)) / 100)
  return ⟨trigger, limit, triggerPct⟩

def haltThreshold (hwm : ℚ) (rules : Rules) : Except Exc ℚ := do
  return cents (hwm * (← rules.haltMultipleOfHwm))

def drawdownPct (accountValue hwm : ℚ) : Except Exc ℚ :=
  if hwm ≤ 0 then .error .valueError else .ok (cents ((accountValue - hwm) / hwm * 100))

def isHalted (accountValue hwm : ℚ) (rules : Rules) : Except Exc Bool := do
  return accountValue ≤ (← haltThreshold hwm rules)

def ratchetHwm (prior close : ℚ) : ℚ := max prior close

end TradeDesk
