import TradeDesk.Desk.FirstTouch
import TradeDesk.Desk.Options
import TradeDesk.Desk.Run
import TradeDesk.Desk.Watch
import TradeDesk.Weekdays

/-!
# An option outlasts its call

A call is held for so many sessions, an option is closed so many calendar
days before it expires. `min_dte` (`tc/desk/options.py`) turns the first
into the second: five sessions take seven days, rounded up, and a week on
top. That is enough from any weekday on (`minDte_outlasts`), and where every
weekday is a session the horizon's session is the weekday of that number
(`resolvedOn_weekday`), so the close before expiry is never the first to
come (`option_outlasts_call`).
-/

namespace TradeDesk.Desk

open TradeDesk.Async

/-! ## The days to expiry -/

theorem minDte_ok {h m close : ℤ} {rules : Rules} (hmin : minDte h rules = .ok m)
    (hclose : rules.optionCloseAtDte = .ok close) : -((-h * 7) / 5) + close + 7 ≤ m := by
  obtain ⟨floor, _, hmin⟩ := except_bind_ok hmin
  obtain ⟨close', hclose', hmin⟩ := except_bind_ok hmin
  rw [hclose] at hclose'
  cases hclose'
  cases hmin
  exact le_max_right _ _

/-- Within so many weekdays and one more, more than the close is left. -/
theorem minDte_outlasts {h m close s e expiry : ℤ} (hh : 1 ≤ h)
    (hm : -((-h * 7) / 5) + close + 7 ≤ m) (hdte : m ≤ expiry - s)
    (hcount : weekdaysFrom s e ≤ h + 1) : close < expiry - e := by
  rcases le_or_gt s e with hse | hse
  · unfold weekdaysFrom at hcount
    rw [tradingDaysBetween_eq (by omega)] at hcount
    unfold weekdaysUpTo at hcount
    omega
  · omega

/-! ## The sessions -/

/-- Every weekday from the item's session up to the last bar was a session. -/
def NoHolidays (item : Item) (spy : List DailyBar) : Prop :=
  ∀ d, item.session ≤ d → (∃ b ∈ spy, d ≤ b.date) → weekday d < 5 → HasBar spy d

section

variable {item : Item} {bars spy bench : List DailyBar}

theorem mem_sessionsOf {d : Date} : d ∈ sessionsOf item spy ↔ HasBar spy d ∧ item.session ≤ d := by
  unfold sessionsOf HasBar BarOf
  simp [and_comm]

theorem Dated.sessions_sorted (hspy : Dated spy) : (sessionsOf item spy).Pairwise (· < ·) :=
  hspy.ordered.filter _

/-- Between a session and the one before it lies no weekday. -/
theorem weekdays_between {days : List ℤ} (hsorted : days.Pairwise (· < ·)) {s : ℤ}
    (hfull : ∀ d, s ≤ d → (∃ x ∈ days, d ≤ x) → weekday d < 5 → d ∈ days)
    (hfrom : ∀ d ∈ days, s ≤ d) : ∀ (k : ℕ) (d : ℤ), days[k]? = some d → weekdaysFrom s d ≤ k + 1 := by
  intro k
  induction k with
  | zero =>
    intro d hd
    have hmem := List.mem_of_getElem? hd
    have hle := hfrom d hmem
    -- the first day of the list is the first weekday there is
    have hnone : tradingDaysBetween (s - 1) (d - 1) = 0 := by
      refine tradingDaysBetween_zero fun x hx hxd hday => ?_
      have hin := hfull x (by omega) ⟨d, hmem, by omega⟩ hday
      obtain ⟨rest, hrest⟩ := List.head?_eq_some_iff.mp (List.head?_eq_getElem?.trans hd)
      rw [hrest] at hin hsorted
      rcases List.mem_cons.mp hin with rfl | hin
      · omega
      · have := List.rel_of_pairwise_cons hsorted hin
        omega
    have hlast := tradingDaysBetween_next (d - 1)
    unfold weekdaysFrom
    rw [tradingDaysBetween_add (show s - 1 ≤ d - 1 by omega) (show d - 1 ≤ d by omega), hnone]
    rw [sub_add_cancel] at hlast
    rw [hlast]
    split <;> omega
  | succ k ih =>
    intro d hd
    have hk : k + 1 < days.length := (List.getElem?_eq_some_iff.mp hd).1
    have hprev : days[k]? = some days[k] := List.getElem?_eq_getElem (by omega)
    have hd' : d = days[k + 1] := (List.getElem?_eq_some_iff.mp hd).2.symm
    have hlt : days[k] < d := by
      rw [hd']
      exact List.pairwise_iff_getElem.mp hsorted k (k + 1) (by omega) hk (by omega)
    have hmem := List.mem_of_getElem? hd
    have hnone : tradingDaysBetween days[k] (d - 1) = 0 := by
      refine tradingDaysBetween_zero fun x hx hxd hday => ?_
      have hs := hfrom _ (List.mem_of_getElem? hprev)
      have hin := hfull x (by omega) ⟨d, hmem, by omega⟩ hday
      obtain ⟨i, hi, rfl⟩ := List.getElem_of_mem hin
      -- a day of the list is not between two that follow each other
      rcases le_or_gt i k with hik | hik
      · rcases Nat.lt_or_eq_of_le hik with hik | rfl
        · have := List.pairwise_iff_getElem.mp hsorted i k hi (by omega) hik
          omega
        · omega
      · by_cases hnext : i = k + 1
        · subst hnext
          omega
        · have := List.pairwise_iff_getElem.mp hsorted (k + 1) i hk hi (by omega)
          omega
    have hlast := tradingDaysBetween_next (d - 1)
    rw [sub_add_cancel] at hlast
    have hs := hfrom _ (List.mem_of_getElem? hprev)
    rw [weekdaysFrom_split hs hlt.le,
      tradingDaysBetween_add (show days[k] ≤ d - 1 by omega) (show d - 1 ≤ d by omega), hnone, hlast]
    have hprevCount := ih _ hprev
    push_cast
    split <;> omega

/-- Where every weekday is a session, an item is resolved within as many
weekdays as its horizon has sessions. -/
theorem resolvedOn_weekday (hspy : Dated spy) (hfull : NoHolidays item spy) {r : Resolution}
    (h : resolve item bars spy bench = .ok (some r)) (hh : 0 ≤ item.horizonDays) :
    weekdaysFrom item.session r.resolvedOn ≤ item.horizonDays := by
  obtain ⟨f, hf, hdone⟩ := resolve_found.mp h
  obtain ⟨_, s, bb, _, _, rfl⟩ := done_some hdone
  have hwindow := hf.day
  unfold window firstDays at hwindow
  rw [if_pos hh] at hwindow
  have hshort : f.index < item.horizonDays.toNat := by
    have hlen := (List.getElem?_eq_some_iff.mp hwindow).1
    rw [List.length_take] at hlen
    omega
  rw [List.getElem?_take_of_lt hshort] at hwindow
  have hcount := weekdays_between hspy.sessions_sorted (s := item.session) (fun d hd hx hday => by
    obtain ⟨x, hx, hdx⟩ := hx
    obtain ⟨⟨b, hb, hdate⟩, _⟩ := mem_sessionsOf.mp hx
    exact mem_sessionsOf.mpr ⟨hfull d hd ⟨b, hb, hdate ▸ hdx⟩ hday, hd⟩)
    (fun d hd => (mem_sessionsOf.mp hd).2) f.index f.day hwindow
  show weekdaysFrom item.session f.day ≤ item.horizonDays
  omega

end

/-- What an exit before expiry says of the day. -/
theorem exitReason_dteClose {cfg : Settings} {pos : PaperPosition} {direction : Direction}
    {target inval price : ℚ} {u t : Quote} {today : Date}
    (he : exitReason cfg pos direction target inval u t today = .ok (some (.dteClose, price))) :
    ∃ expiry close, osiExpiry cfg pos.symbol = .ok expiry ∧
      cfg.rules.optionCloseAtDte = .ok close ∧ expiry - today ≤ close := by
  unfold exitReason at he
  by_cases hshares : pos.instrument = .shares
  · rw [if_pos hshares] at he
    obtain ⟨limit, _, he⟩ := except_bind_ok he
    split at he
    · cases he
    · split at he
      · cases he
      · cases he
  · rw [if_neg hshares] at he
    split at he
    · cases he
    · split at he
      · cases he
      · obtain ⟨expiry, hexpiry, he⟩ := except_bind_ok he
        obtain ⟨close, hclose, he⟩ := except_bind_ok he
        split at he
        next hdue => exact ⟨expiry, close, hexpiry, hclose, hdue⟩
        · cases he

/-- **An option outlasts its call.** Bought with the days `min_dte` asks
for, it has more than the close's left on every weekday session of the
horizon and on the one after; and without holidays the exit before expiry
is not the reason to sell it up to the session after its call is resolved. -/
theorem option_outlasts_call {cfg : Settings} {h m close : ℤ} {s expiry : Date} (hh : 1 ≤ h)
    (hmin : minDte h cfg.rules = .ok m) (hclose : cfg.rules.optionCloseAtDte = .ok close)
    (hdte : m ≤ expiry - s) :
    (∀ e, weekdaysFrom s e ≤ h + 1 → close < expiry - e) ∧
    ∀ (item : Item) (bars spy bench : List DailyBar) (r : Resolution), item.session = s →
      item.horizonDays = h → Dated spy → NoHolidays item spy →
      resolve item bars spy bench = .ok (some r) →
      ∀ (pos : PaperPosition) (direction : Direction) (target inval price : ℚ) (u t : Quote)
        (e : Date), osiExpiry cfg pos.symbol = .ok expiry →
        weekdaysFrom s e ≤ weekdaysFrom s r.resolvedOn + 1 →
        exitReason cfg pos direction target inval u t e ≠ .ok (some (.dteClose, price)) := by
  have hlasts (e : Date) (hcount : weekdaysFrom s e ≤ h + 1) : close < expiry - e :=
    minDte_outlasts hh (minDte_ok hmin hclose) hdte hcount
  refine ⟨hlasts, ?_⟩
  intro item bars spy bench r hsession hhorizon hspy hfull hres pos direction target inval price u t
    e hexpiry hcount hexit
  have hresolved := resolvedOn_weekday hspy hfull hres (by omega)
  rw [hsession, hhorizon] at hresolved
  have hleft := hlasts e (by omega)
  obtain ⟨expiry', close', hexpiry', hclose', hdue⟩ := exitReason_dteClose hexit
  rw [hexpiry] at hexpiry'
  rw [hclose] at hclose'
  cases hexpiry'
  cases hclose'
  exact absurd hdue (not_le.mpr hleft)

/-- A call of five sessions from Monday 28 September 2026: nineteen days are
asked for, and on its sixth weekday, a Monday, more than five are left. -/
theorem option_outlasts_week : minDte 5 deskSettings.rules = .ok 19 ∧
    (5 : ℤ) < dayNumber 2026 10 17 - dayNumber 2026 10 5 := by
  have hmin : minDte 5 deskSettings.rules = .ok 19 := by decide +kernel
  exact ⟨hmin, (option_outlasts_call (h := 5) (m := 19) (s := dayNumber 2026 9 28)
    (by decide) hmin (by decide +kernel) (by decide +kernel)).1 _ (by decide +kernel)⟩

end TradeDesk.Desk
