import TradeDesk.Scripts.Amounts
import Mathlib.Data.List.Induction
import Mathlib.Data.List.Nodup

/-!
# What the order gate takes

An argument vector is flags and their values, one after the other. The loop
reads it as the settings it spells (`argumentLoop_ok`), each flag once, and
a variable holds what it was set to last. `Legit` says in terms of the
settings alone what an instrument takes and needs, for a given notion of
what a value may be.

What the header says is `Legit` for the documented ranges, with every
quantity set at most once; what the code does is `Legit` for its regular
expressions, with every flag given at most once. The account's value has two
flags, and an amount has two digits more than its bound. These are all the
difference there is (`orderGate_plain_iff`).
-/

namespace TradeDesk.Scripts

/-! ## Settings -/

/-- A flag with its value, or the one that has none. -/
inductive Setting where
  | set (f : ValueFlag) (value : String)
  | leveragedUnderlying
deriving DecidableEq

namespace Setting

def flag : Setting → Flag
  | .set f _ => .value f
  | .leveragedUnderlying => .leveragedUnderlying

/-- The variable that is set. -/
def quantity : Setting → Option Quantity
  | .set f _ => some f.sets
  | .leveragedUnderlying => none

def words : Setting → List String
  | .set f value => [(Flag.value f).text, value]
  | .leveragedUnderlying => [Flag.leveragedUnderlying.text]

/-- The variables after it. -/
def apply (v : Vars) : Setting → Vars
  | .set f value =>
    ⟨Function.update v.values f.sets value, v.leveragedUnderlying, v.seen ++ [.value f]⟩
  | .leveragedUnderlying => ⟨v.values, true, v.seen ++ [.leveragedUnderlying]⟩

end Setting

/-- The argument vector of the settings. -/
def spell (settings : List Setting) : List String := settings.flatMap Setting.words

theorem flag_mem_all (f : Flag) : f ∈ Flag.all := by
  cases f with
  | value f =>
    cases f
    all_goals decide
  | leveragedUnderlying => decide

theorem Flag.text_injective {f g : Flag} (h : f.text = g.text) : f = g := by
  have hall : ∀ f ∈ Flag.all, ∀ g ∈ Flag.all, f.text = g.text → f = g := by decide +kernel
  exact hall f (flag_mem_all f) g (flag_mem_all g) h

theorem flagOf_eq_some {arg : String} {f : Flag} : flagOf arg = some f ↔ arg = f.text := by
  constructor
  · intro h
    have hfound : (f.text == arg) = true := by simpa using List.find?_some h
    exact (beq_iff_eq.mp hfound).symm
  · rintro rfl
    unfold flagOf
    cases hfind : Flag.all.find? fun g => g.text == f.text with
    | none => exact absurd (beq_self_eq_true _) (List.find?_eq_none.mp hfind f (flag_mem_all f))
    | some g =>
      have hfound : g.text = f.text := by simpa using List.find?_some hfind
      rw [Flag.text_injective hfound]

/-! ## The argument loop -/

theorem argumentLoop_switch (v : Vars) (rest : List String) :
    argumentLoop v (Flag.leveragedUnderlying.text :: rest) =
      if .leveragedUnderlying ∈ v.seen then .error (.usage (.duplicate .leveragedUnderlying))
      else argumentLoop (Setting.leveragedUnderlying.apply v) rest := by
  conv_lhs => unfold argumentLoop
  rw [flagOf_eq_some.mpr rfl]
  dsimp only
  unfold Vars.switch
  by_cases hseen : Flag.leveragedUnderlying ∈ v.seen
  · rw [if_pos hseen, if_pos hseen]
  · rw [if_neg hseen, if_neg hseen]
    rfl

theorem argumentLoop_set (v : Vars) (f : ValueFlag) (value : String) (rest : List String) :
    argumentLoop v ((Flag.value f).text :: value :: rest) =
      if .value f ∈ v.seen then .error (.usage (.duplicate (.value f)))
      else argumentLoop ((Setting.set f value).apply v) rest := by
  conv_lhs => unfold argumentLoop
  rw [flagOf_eq_some.mpr rfl]
  dsimp only
  unfold Vars.set
  by_cases hseen : Flag.value f ∈ v.seen
  · rw [if_pos hseen, if_pos hseen]
  · rw [if_neg hseen, if_neg hseen]
    rfl

theorem argumentLoop_bare (v : Vars) (f : ValueFlag) :
    argumentLoop v [(Flag.value f).text] = .error (.usage (.needsValue (.value f))) := by
  unfold argumentLoop
  rw [flagOf_eq_some.mpr rfl]

theorem argumentLoop_other (v : Vars) {arg : String} (rest : List String)
    (h : flagOf arg = none) : argumentLoop v (arg :: rest) =
      if arg = "-h" ∨ arg = "--help" then .error .help
      else .error (.usage (.unrecognized arg)) := by
  unfold argumentLoop
  rw [h]

/-- An argument vector is empty, or begins with a setting, or with a flag
that lacks its value, or with what is no flag. -/
theorem argvInduction {motive : List String → Prop} (nil : motive [])
    (setting : ∀ s rest, motive rest → motive (Setting.words s ++ rest))
    (bare : ∀ f : ValueFlag, motive [(Flag.value f).text])
    (other : ∀ arg rest, flagOf arg = none → motive (arg :: rest)) : ∀ argv, motive argv
  | [] => nil
  | arg :: rest => by
    cases hflag : flagOf arg with
    | none => exact other arg rest hflag
    | some f =>
      have harg := flagOf_eq_some.mp hflag
      subst harg
      cases f with
      | leveragedUnderlying =>
        exact setting .leveragedUnderlying rest (argvInduction nil setting bare other rest)
      | value f =>
        cases rest with
        | nil => exact bare f
        | cons value rest =>
          exact setting (.set f value) rest (argvInduction nil setting bare other rest)

theorem argumentLoop_words (v : Vars) (s : Setting) (rest : List String) :
    argumentLoop v (s.words ++ rest) =
      if s.flag ∈ v.seen then .error (.usage (.duplicate s.flag))
      else argumentLoop (s.apply v) rest := by
  cases s with
  | set f value => exact argumentLoop_set v f value rest
  | leveragedUnderlying => exact argumentLoop_switch v rest

theorem apply_seen (v : Vars) (s : Setting) : (s.apply v).seen = v.seen ++ [s.flag] := by
  cases s with
  | set f value => rfl
  | leveragedUnderlying => rfl

theorem argumentLoop_spell {settings : List Setting} : ∀ {v : Vars},
    (settings.map Setting.flag).Nodup → (∀ s ∈ settings, s.flag ∉ v.seen) →
    argumentLoop v (spell settings) = .ok (settings.foldl Setting.apply v) := by
  induction settings with
  | nil =>
    intro v _ _
    rfl
  | cons s settings ih =>
    intro v hnodup hunseen
    rw [List.map_cons, List.nodup_cons] at hnodup
    obtain ⟨hfirst, hrest⟩ := hnodup
    have hs := hunseen s List.mem_cons_self
    show argumentLoop v (s.words ++ spell settings) = _
    rw [argumentLoop_words, if_neg hs, List.foldl_cons]
    refine ih hrest fun t ht hseen => ?_
    rw [apply_seen] at hseen
    rcases List.mem_append.mp hseen with hseen | hseen
    · exact hunseen t (List.mem_cons_of_mem _ ht) hseen
    · rw [← List.mem_singleton.mp hseen] at hfirst
      exact hfirst (List.mem_map_of_mem ht)

/-- **The loop reads the settings that the vector spells**, if no flag is
given twice. -/
theorem argumentLoop_ok {argv : List String} {v v' : Vars} : argumentLoop v argv = .ok v' ↔
    ∃ settings, argv = spell settings ∧ (settings.map Setting.flag).Nodup ∧
      (∀ s ∈ settings, s.flag ∉ v.seen) ∧ v' = settings.foldl Setting.apply v := by
  constructor
  · intro h
    induction argv using argvInduction generalizing v with
    | nil =>
      cases h
      exact ⟨[], rfl, List.nodup_nil, fun s hs => (by cases hs), rfl⟩
    | setting s rest ih =>
      rw [argumentLoop_words] at h
      split at h
      · cases h
      next hs =>
        obtain ⟨settings, rfl, hnodup, hunseen, rfl⟩ := ih h
        refine ⟨s :: settings, rfl, ?_, fun t ht => ?_, rfl⟩
        · rw [List.map_cons, List.nodup_cons]
          refine ⟨fun hmem => ?_, hnodup⟩
          obtain ⟨t, ht, hflag⟩ := List.mem_map.mp hmem
          refine hunseen t ht ?_
          rw [apply_seen, hflag]
          exact List.mem_append_right _ List.mem_cons_self
        · rcases List.mem_cons.mp ht with rfl | ht
          · exact hs
          · intro hseen
            refine hunseen t ht ?_
            rw [apply_seen]
            exact List.mem_append_left _ hseen
    | bare f =>
      rw [argumentLoop_bare] at h
      cases h
    | other arg rest hflag =>
      rw [argumentLoop_other v rest hflag] at h
      split at h
      · cases h
      · cases h
  · rintro ⟨settings, rfl, hnodup, hunseen, rfl⟩
    exact argumentLoop_spell hnodup hunseen

/-- A help flag stands where a flag is read. -/
def HelpFlag (argv : List String) : Prop :=
  ∃ settings arg rest, argv = spell settings ++ arg :: rest ∧ (arg = "-h" ∨ arg = "--help")

theorem argumentLoop_help {argv : List String} {v : Vars} (h : argumentLoop v argv = .error .help) :
    HelpFlag argv := by
  induction argv using argvInduction generalizing v with
  | nil => cases h
  | setting s rest ih =>
    rw [argumentLoop_words] at h
    split at h
    · cases h
    · obtain ⟨settings, arg, rest', rfl, harg⟩ := ih h
      refine ⟨s :: settings, arg, rest', ?_, harg⟩
      show s.words ++ (spell settings ++ arg :: rest') = (s.words ++ spell settings) ++ _
      rw [List.append_assoc]
  | bare f =>
    rw [argumentLoop_bare] at h
    cases h
  | other arg rest hflag =>
    rw [argumentLoop_other v rest hflag] at h
    split at h
    next harg => exact ⟨[], arg, rest, rfl, harg⟩
    · cases h

/-- A vector spells one list of settings. -/
theorem spell_injective : ∀ {xs ys : List Setting}, spell xs = spell ys → xs = ys := by
  intro xs
  induction xs with
  | nil =>
    intro ys h
    cases ys with
    | nil => rfl
    | cons y ys =>
      cases y with
      | set f value => cases h
      | leveragedUnderlying => cases h
  | cons x xs ih =>
    intro ys h
    cases ys with
    | nil =>
      cases x with
      | set f value => cases h
      | leveragedUnderlying => cases h
    | cons y ys =>
      have hwords : x.words ++ spell xs = y.words ++ spell ys := h
      cases x with
      | set f value =>
        cases y with
        | set g value' =>
          obtain ⟨hflag, htail⟩ := List.cons.inj hwords
          obtain ⟨hvalue, hrest⟩ := List.cons.inj htail
          rw [Flag.value.inj (Flag.text_injective hflag), hvalue, ih hrest]
        | leveragedUnderlying =>
          cases Flag.text_injective (List.cons.inj hwords).1
      | leveragedUnderlying =>
        cases y with
        | set g value' => cases Flag.text_injective (List.cons.inj hwords).1
        | leveragedUnderlying => rw [ih (List.cons.inj hwords).2]

/-! ## What was given -/

/-- The value of a quantity after a setting. -/
def Setting.gives (q : Quantity) (value : Option String) : Setting → Option String
  | .set f value' => if f.sets = q then some value' else value
  | .leveragedUnderlying => value

/-- The value a quantity was given: the last one. -/
def given (settings : List Setting) (q : Quantity) : Option String :=
  settings.foldl (Setting.gives q) none

theorem given_append (settings : List Setting) (s : Setting) (q : Quantity) :
    given (settings ++ [s]) q = s.gives q (given settings q) := by
  unfold given
  rw [List.foldl_append]
  rfl

def onLeveraged (settings : List Setting) : Bool := decide (.leveragedUnderlying ∈ settings)

/-- The variables that the loop leaves. -/
def varsOf (settings : List Setting) : Vars := settings.foldl Setting.apply .init

theorem varsOf_append (settings : List Setting) (s : Setting) :
    varsOf (settings ++ [s]) = s.apply (varsOf settings) := by
  unfold varsOf
  rw [List.foldl_append]
  rfl

/-- A variable holds what it was given, or its default. -/
theorem varsOf_values (settings : List Setting) (q : Quantity) :
    (varsOf settings).values q = (given settings q).getD (defaultValue q) := by
  induction settings using List.reverseRecOn with
  | nil => rfl
  | append_singleton settings s ih =>
    rw [varsOf_append, given_append]
    cases s with
    | set f value =>
      show Function.update (varsOf settings).values f.sets value q =
        (if f.sets = q then some value else given settings q).getD (defaultValue q)
      by_cases hq : f.sets = q
      · rw [if_pos hq, ← hq, Function.update_self]
        rfl
      · rw [if_neg hq, Function.update_of_ne (Ne.symm hq)]
        exact ih
    | leveragedUnderlying => exact ih

theorem varsOf_seen (settings : List Setting) :
    (varsOf settings).seen = settings.map Setting.flag := by
  induction settings using List.reverseRecOn with
  | nil => rfl
  | append_singleton settings s ih =>
    rw [varsOf_append, apply_seen, ih, List.map_append]
    rfl

theorem varsOf_leveraged (settings : List Setting) :
    (varsOf settings).leveragedUnderlying = onLeveraged settings := by
  induction settings using List.reverseRecOn with
  | nil => rfl
  | append_singleton settings s ih =>
    rw [varsOf_append]
    unfold onLeveraged at ih ⊢
    cases s with
    | set f value =>
      show (varsOf settings).leveragedUnderlying = _
      rw [ih]
      simp
    | leveragedUnderlying =>
      show true = _
      simp

/-- A quantity that was given was set, and to that value. -/
theorem given_mem {settings : List Setting} {q : Quantity} {value : String}
    (h : given settings q = some value) : ∃ f, .set f value ∈ settings ∧ f.sets = q := by
  induction settings using List.reverseRecOn with
  | nil => cases h
  | append_singleton settings s ih =>
    rw [given_append] at h
    have hearlier : given settings q = some value →
        ∃ f, .set f value ∈ settings ++ [s] ∧ f.sets = q := by
      intro hgiven
      obtain ⟨f, hf, hsets⟩ := ih hgiven
      exact ⟨f, List.mem_append_left _ hf, hsets⟩
    cases s with
    | set f value' =>
      unfold Setting.gives at h
      dsimp only at h
      split at h
      next hq =>
        cases h
        exact ⟨f, List.mem_append_right _ List.mem_cons_self, hq⟩
      · exact hearlier h
    | leveragedUnderlying => exact hearlier h

/-- One that was set was given. -/
theorem given_isSome {settings : List Setting} {q : Quantity} :
    (given settings q).isSome = true ↔ some q ∈ settings.map Setting.quantity := by
  induction settings using List.reverseRecOn with
  | nil => exact ⟨fun h => (by cases h), fun h => by cases h⟩
  | append_singleton settings s ih =>
    rw [List.map_append, List.mem_append, ← ih, given_append]
    cases s with
    | set f value =>
      show (if f.sets = q then some value else given settings q).isSome = true ↔
        (given settings q).isSome = true ∨ some q ∈ [some f.sets]
      by_cases hq : f.sets = q
      · rw [if_pos hq, hq]
        exact ⟨fun _ => .inr List.mem_cons_self, fun _ => rfl⟩
      · rw [if_neg hq, List.mem_singleton, Option.some_inj]
        exact ⟨.inl, fun h => h.resolve_right (Ne.symm hq)⟩
    | leveragedUnderlying =>
      show (given settings q).isSome = true ↔ (given settings q).isSome = true ∨ some q ∈ [none]
      simp

/-- Where a quantity is set once, every value of it is the one given. -/
theorem given_of_mem {settings : List Setting} (hnodup : (settings.map Setting.quantity).Nodup)
    {f : ValueFlag} {value : String} (h : .set f value ∈ settings) :
    given settings f.sets = some value := by
  induction settings using List.reverseRecOn with
  | nil => cases h
  | append_singleton settings s ih =>
    rw [List.map_append, List.nodup_append] at hnodup
    obtain ⟨hbefore, -, hapart⟩ := hnodup
    rw [given_append]
    rcases List.mem_append.mp h with hmem | hmem
    · have hq : some f.sets ∈ settings.map Setting.quantity := List.mem_map.mpr ⟨_, hmem, rfl⟩
      cases s with
      | set g value' =>
        have hne : g.sets ≠ f.sets := fun heq =>
          hapart _ hq (some g.sets) (List.mem_singleton.mpr rfl) (congrArg some heq.symm)
        show (if g.sets = f.sets then some value' else given settings f.sets) = _
        rw [if_neg hne]
        exact ih hbefore hmem
      | leveragedUnderlying => exact ih hbefore hmem
    · rw [← List.mem_singleton.mp hmem]
      exact if_pos rfl

/-- A flag that alone sets its quantity was seen if that was given. -/
theorem seen_iff {settings : List Setting} {f : ValueFlag}
    (halone : ∀ g : ValueFlag, g.sets = f.sets → g = f) :
    .value f ∈ (varsOf settings).seen ↔ (given settings f.sets).isSome = true := by
  rw [varsOf_seen, given_isSome, List.mem_map, List.mem_map]
  refine exists_congr fun s => and_congr_right fun _ => ?_
  cases s with
  | set g value =>
    constructor
    · intro h
      rw [← Flag.value.inj h]
      rfl
    · intro h
      rw [← halone g (Option.some.inj h)]
      rfl
  | leveragedUnderlying => exact ⟨fun h => (by cases h), fun h => by cases h⟩

theorem switch_iff {settings : List Setting} :
    .leveragedUnderlying ∈ (varsOf settings).seen ↔ onLeveraged settings = true := by
  rw [varsOf_seen, List.mem_map]
  unfold onLeveraged
  rw [decide_eq_true_iff]
  constructor
  · rintro ⟨s, hs, hflag⟩
    cases s with
    | set f value => cases hflag
    | leveragedUnderlying => exact hs
  · exact fun h => ⟨_, h, rfl⟩

/-! ## Validation -/

theorem require_ok {c : Prop} [Decidable c] {e : UsageError} : require c e = .ok () ↔ c := by
  unfold require
  by_cases h : c
  · rw [if_pos h]
    exact ⟨fun _ => h, fun _ => rfl⟩
  · rw [if_neg h]
    exact ⟨fun hno => (by cases hno), fun hc => absurd hc h⟩

theorem bind_ok_iff {α : Type} {x : Except UsageError Unit} {f : Unit → Except UsageError α} {a : α} :
    (x >>= f) = .ok a ↔ x = .ok () ∧ f () = .ok a := by
  cases x with
  | error e => exact ⟨fun h => (by cases h), fun h => by cases h.1⟩
  | ok u => exact ⟨fun h => ⟨rfl, h⟩, fun h => h.2⟩

theorem forM_ok {α : Type} {f : α → Except UsageError Unit} : ∀ {xs : List α},
    xs.forM f = .ok () ↔ ∀ x ∈ xs, f x = .ok ()
  | [] => ⟨fun _ x hx => (by cases hx), fun _ => rfl⟩
  | x :: xs => by
    have hcons : (x :: xs).forM f = (f x >>= fun _ => xs.forM f) := List.forM_cons
    rw [hcons, bind_ok_iff, forM_ok, List.forall_mem_cons]

theorem Instrument.text_injective {i j : Instrument} (h : i.text = j.text) : i = j := by
  cases i
  all_goals
    cases j
    all_goals first | rfl | exact absurd h (by decide)

theorem instrumentOf_ok {value : String} {i : Instrument} :
    instrumentOf value = .ok i ↔ value = i.text := by
  unfold instrumentOf
  cases hfind : Instrument.all.find? fun j => j.text == value with
  | none =>
    refine ⟨fun h => (by cases h), fun h => ?_⟩
    have hmem : i ∈ Instrument.all := by cases i <;> decide
    exact absurd (beq_iff_eq.mpr h.symm) (List.find?_eq_none.mp hfind i hmem)
  | some j =>
    have hj : j.text = value := by simpa using List.find?_some hfind
    constructor
    · intro h
      rw [← Except.ok.inj h, hj]
    · intro h
      rw [Instrument.text_injective (hj.trans h)]

/-- What the script has checked of its variables. -/
structure Checked (v : Vars) (i : Instrument) : Prop where
  instrument : v.values .instrument = i.text
  symbol : v.values .symbol ≠ "" ∧ "--".toList.isPrefixOf (v.values .symbol).toList = false
  qty : isQty (v.values .qty) = true
  qty_range : 1 ≤ number (v.values .qty).toList ∧ number (v.values .qty).toList ≤ 1000000
  price : isPrice (v.values .price) = true
  intent : isIntent (v.values .intentNotional) = true
  amounts : ∀ q ∈ accountAmounts, isNumber (v.values q) = true
  flags : checkFlags v i = .ok ()

/-- **A validation that ends well has checked everything.** -/
theorem validate_ok {v : Vars} {i : Instrument} : validate v = .ok i ↔ Checked v i := by
  have hinstrument : validate v = .ok i ↔ v.values .instrument = i.text ∧
      (v.values .symbol ≠ "" ∧ "--".toList.isPrefixOf (v.values .symbol).toList = false ∧
        isQty (v.values .qty) = true ∧
        (1 ≤ number (v.values .qty).toList ∧ number (v.values .qty).toList ≤ 1000000) ∧
        isPrice (v.values .price) = true ∧ isIntent (v.values .intentNotional) = true ∧
        (∀ q ∈ accountAmounts, isNumber (v.values q) = true) ∧ checkFlags v i = .ok ()) := by
    unfold validate
    cases hi : instrumentOf (v.values .instrument) with
    | error e =>
      refine ⟨fun h => (by cases h), fun h => ?_⟩
      rw [instrumentOf_ok.mpr h.1] at hi
      cases hi
    | ok j =>
      have hj := instrumentOf_ok.mp hi
      show (require _ _ >>= _) = .ok i ↔ _
      simp only [bind_ok_iff, require_ok, forM_ok]
      constructor
      · rintro ⟨h1, h2, h3, h4, h5, h6, h7, h8, h9⟩
        cases h9
        exact ⟨hj, h1, h2, h3, h4, h5, h6, h7, h8⟩
      · rintro ⟨hi', h1, h2, h3, h4, h5, h6, h7, h8⟩
        obtain rfl := Instrument.text_injective (hj.symm.trans hi')
        exact ⟨h1, h2, h3, h4, h5, h6, h7, h8, rfl⟩
  rw [hinstrument]
  constructor
  · rintro ⟨h0, h1, h2, h3, h4, h5, h6, h7, h8⟩
    exact ⟨h0, ⟨h1, h2⟩, h3, h4, h5, h6, h7, h8⟩
  · rintro ⟨h0, ⟨h1, h2⟩, h3, h4, h5, h6, h7, h8⟩
    exact ⟨h0, h1, h2, h3, h4, h5, h6, h7, h8⟩

theorem refuseSeen_ok {v : Vars} {i : Instrument} {flags : List Flag} :
    refuseSeen v i flags = .ok () ↔ ∀ f ∈ flags, f ∉ v.seen := by
  unfold refuseSeen
  rw [forM_ok]
  exact forall₂_congr fun f _ => require_ok

theorem checkFlags_ok {v : Vars} {i : Instrument} : checkFlags v i = .ok () ↔ match i with
    | .option => v.values .underlyingPrice ≠ "" ∧ isPrice (v.values .underlyingPrice) = true ∧
        .value .existingPositionValue ∉ v.seen ∧
        (.value .leveragedAggregate ∈ v.seen ↔ v.leveragedUnderlying = true)
    | .equity => (∀ f ∈ optionFlags, f ∉ v.seen) ∧ .value .leveragedAggregate ∉ v.seen ∧
        .leveragedUnderlying ∉ v.seen
    | .leveragedEtf => (∀ f ∈ optionFlags, f ∉ v.seen) ∧ .leveragedUnderlying ∉ v.seen ∧
        .value .leveragedAggregate ∈ v.seen := by
  cases i with
  | equity =>
    unfold checkFlags
    rw [refuseSeen_ok, List.forall_mem_append]
    simp
  | leveragedEtf =>
    unfold checkFlags
    rw [bind_ok_iff, refuseSeen_ok, require_ok, List.forall_mem_append]
    simp [and_assoc]
  | option =>
    unfold checkFlags
    rw [bind_ok_iff, bind_ok_iff, bind_ok_iff, require_ok, require_ok, refuseSeen_ok]
    refine and_congr_right fun _ => and_congr_right fun _ => and_congr (by simp) ?_
    cases hlev : v.leveragedUnderlying with
    | true =>
      show require _ _ = .ok () ↔ _
      rw [require_ok]
      simp
    | false =>
      show refuseSeen v _ _ = .ok () ↔ _
      rw [refuseSeen_ok]
      simp

/-! ## What an instrument takes and needs -/

/-- Whether a quantity can be given for an instrument; `lev` is whether the
option's underlying is leveraged. -/
def Applies (i : Instrument) (lev : Bool) : Quantity → Prop
  | .underlyingPrice => i = .option
  | .existingOptionPremium => i = .option
  | .openOptionPremium => i = .option
  | .existingPositionValue => i ≠ .option
  | .leveragedAggregate => i = .leveragedEtf ∨ i = .option ∧ lev = true
  | _ => True

/-- The quantities that have no default. -/
def required (i : Instrument) (lev : Bool) : List Quantity :=
  [.instrument, .symbol, .qty, .price, .intentNotional, .compCapital, .settledCash] ++
    (if i = .option then [.underlyingPrice] else []) ++
    if i = .leveragedEtf ∨ lev = true then [.leveragedAggregate] else []

/-- The settings are an instrument's, with values of this form. -/
structure Legit (fmt : Quantity → String → Prop) (settings : List Setting) (i : Instrument) :
    Prop where
  instrument : given settings .instrument = some i.text
  needed : ∀ q ∈ required i (onLeveraged settings), (given settings q).isSome = true
  applies : ∀ q, (given settings q).isSome = true → Applies i (onLeveraged settings) q
  switch : onLeveraged settings = true → i = .option
  format : ∀ q value, given settings q = some value → fmt q value

/-- The form that the script's tests let a value have. -/
def InFormat (q : Quantity) (s : String) : Prop :=
  match q with
  | .instrument => ∃ i : Instrument, s = i.text
  | .symbol => s ≠ "" ∧ "--".toList.isPrefixOf s.toList = false
  | .qty => isQty s = true ∧ 1 ≤ amount s ∧ amount s ≤ 1000000
  | .price => isPrice s = true
  | .underlyingPrice => isPrice s = true
  | .intentNotional => isIntent s = true
  | _ => isNumber s = true

/-- The form and the range that the header gives: an account-level amount is
at most 99999999.99. -/
def Documented (q : Quantity) (s : String) : Prop :=
  InFormat q s ∧ (q ∈ accountAmounts → amount s ≤ 9999999999 / 100)

/-- **The plain vector**: every quantity is given at most once, every flag
applies, what is required is given, and every value is as documented. -/
def Plain (settings : List Setting) : Prop :=
  (settings.map Setting.quantity).Nodup ∧ ∃ i, Legit Documented settings i

/-- What the script takes for it. -/
def Taken (settings : List Setting) : Prop :=
  (settings.map Setting.flag).Nodup ∧ ∃ i, Legit InFormat settings i

theorem inFormat_amount {q : Quantity} (h : q ∈ accountAmounts) (s : String) :
    InFormat q s ↔ isNumber s = true := by
  unfold accountAmounts at h
  simp only [List.mem_cons, List.not_mem_nil, or_false] at h
  rcases h with rfl | rfl | rfl | rfl | rfl | rfl
  all_goals exact Iff.rfl

theorem qty_inFormat {s : String} : InFormat .qty s ↔
    isQty s = true ∧ 1 ≤ number s.toList ∧ number s.toList ≤ 1000000 := by
  refine and_congr_right fun h => ?_
  obtain ⟨hexact, -⟩ := isQty_exact h
  rw [← hexact]
  exact and_congr (by exact_mod_cast Iff.rfl) (by exact_mod_cast Iff.rfl)

variable {settings : List Setting} {i : Instrument}

/-- A variable without a default has a form only if it was given. -/
theorem value_given {q : Quantity} {P : String → Prop} (hdefault : ¬ P (defaultValue q)) :
    P ((varsOf settings).values q) ↔
      (given settings q).isSome = true ∧ ∀ value, given settings q = some value → P value := by
  rw [varsOf_values]
  cases given settings q with
  | none => exact ⟨fun h => absurd h hdefault, fun h => by cases h.1⟩
  | some value =>
    refine ⟨fun h => ⟨rfl, fun value' heq => ?_⟩, fun h => h.2 value rfl⟩
    rwa [← Option.some.inj heq]

/-- One whose default has the form need not have been. -/
theorem value_optional {q : Quantity} {P : String → Prop} (hdefault : P (defaultValue q)) :
    P ((varsOf settings).values q) ↔ ∀ value, given settings q = some value → P value := by
  rw [varsOf_values]
  cases given settings q with
  | none => exact ⟨fun _ value heq => (by cases heq), fun _ => hdefault⟩
  | some value =>
    refine ⟨fun h value' heq => ?_, fun h => h value rfl⟩
    rwa [← Option.some.inj heq]

/-- The flags that an instrument takes, by what was given. -/
theorem checkFlags_given : checkFlags (varsOf settings) i = .ok () ↔ match i with
    | .option => ((given settings .underlyingPrice).isSome = true ∧
          ∀ value, given settings .underlyingPrice = some value → isPrice value = true) ∧
        ¬ (given settings .existingPositionValue).isSome = true ∧
        ((given settings .leveragedAggregate).isSome = true ↔ onLeveraged settings = true)
    | .equity => (¬ (given settings .underlyingPrice).isSome = true ∧
          ¬ (given settings .existingOptionPremium).isSome = true ∧
          ¬ (given settings .openOptionPremium).isSome = true) ∧
        ¬ (given settings .leveragedAggregate).isSome = true ∧ ¬ onLeveraged settings = true
    | .leveragedEtf => (¬ (given settings .underlyingPrice).isSome = true ∧
          ¬ (given settings .existingOptionPremium).isSome = true ∧
          ¬ (given settings .openOptionPremium).isSome = true) ∧
        ¬ onLeveraged settings = true ∧ (given settings .leveragedAggregate).isSome = true := by
  have hunderlying : .value .underlyingPrice ∈ (varsOf settings).seen ↔
      (given settings .underlyingPrice).isSome = true :=
    seen_iff fun g h => by cases g <;> first | rfl | cases h
  have hpremium : .value .existingOptionPremium ∈ (varsOf settings).seen ↔
      (given settings .existingOptionPremium).isSome = true :=
    seen_iff fun g h => by cases g <;> first | rfl | cases h
  have hopen : .value .openOptionPremium ∈ (varsOf settings).seen ↔
      (given settings .openOptionPremium).isSome = true :=
    seen_iff fun g h => by cases g <;> first | rfl | cases h
  have hexisting : .value .existingPositionValue ∈ (varsOf settings).seen ↔
      (given settings .existingPositionValue).isSome = true :=
    seen_iff fun g h => by cases g <;> first | rfl | cases h
  have haggregate : .value .leveragedAggregate ∈ (varsOf settings).seen ↔
      (given settings .leveragedAggregate).isSome = true :=
    seen_iff fun g h => by cases g <;> first | rfl | cases h
  have hnone : (∀ f ∈ optionFlags, f ∉ (varsOf settings).seen) ↔
      (¬ (given settings .underlyingPrice).isSome = true ∧
        ¬ (given settings .existingOptionPremium).isSome = true ∧
        ¬ (given settings .openOptionPremium).isSome = true) := by
    unfold optionFlags
    rw [List.forall_mem_cons, List.forall_mem_cons, List.forall_mem_singleton, hunderlying,
      hpremium, hopen]
  rw [checkFlags_ok]
  cases i with
  | equity =>
    dsimp only
    rw [hnone, haggregate, switch_iff]
  | leveragedEtf =>
    dsimp only
    rw [hnone, haggregate, switch_iff]
  | option =>
    have hempty : isPrice "" = false := by decide
    have hprice : ¬ isPrice (defaultValue .underlyingPrice) = true := by
      show ¬ isPrice "" = true
      rw [hempty]
      exact Bool.false_ne_true
    have hnonempty : isPrice ((varsOf settings).values .underlyingPrice) = true →
        (varsOf settings).values .underlyingPrice ≠ "" := by
      intro h hnil
      rw [hnil, hempty] at h
      cases h
    dsimp only
    rw [hexisting, haggregate, varsOf_leveraged, ← value_given (P := (isPrice · = true)) hprice,
      ← and_assoc]
    exact and_congr_left fun _ => ⟨fun h => h.2, fun h => ⟨hnonempty h, h⟩⟩

/-- **What is checked of the variables is what is said of the settings.** -/
theorem checked_iff : Checked (varsOf settings) i ↔ Legit InFormat settings i := by
  have hempty : isNumber "" = false := by decide
  have hzero : isNumber "0" = true := by decide
  have hinstrument : (varsOf settings).values .instrument = i.text ↔
      given settings .instrument = some i.text := by
    rw [value_given (P := (· = i.text)) (by cases i <;> decide)]
    constructor
    · rintro ⟨hsome, hvalue⟩
      obtain ⟨value, hgiven⟩ := Option.isSome_iff_exists.mp hsome
      rw [hgiven, hvalue value hgiven]
    · intro hgiven
      rw [hgiven]
      exact ⟨rfl, fun value heq => (Option.some.inj heq).symm⟩
  have hneeded : ∀ q : Quantity, (∀ s, InFormat q s ↔ isNumber s = true) → defaultValue q = "" →
      (isNumber ((varsOf settings).values q) = true ↔ (given settings q).isSome = true ∧
        ∀ value, given settings q = some value → InFormat q value) := by
    intro q hform hdefault
    rw [value_given (P := (isNumber · = true)) (by rw [hdefault, hempty]; exact Bool.false_ne_true)]
    simp only [hform]
  have hoptional : ∀ q : Quantity, (∀ s, InFormat q s ↔ isNumber s = true) → defaultValue q = "0" →
      (isNumber ((varsOf settings).values q) = true ↔
        ∀ value, given settings q = some value → InFormat q value) := by
    intro q hform hdefault
    rw [value_optional (P := (isNumber · = true)) (by rw [hdefault]; exact hzero)]
    simp only [hform]
  have hform : ∀ q : Quantity, ¬ InFormat q (defaultValue q) →
      (InFormat q ((varsOf settings).values q) ↔ (given settings q).isSome = true ∧
        ∀ value, given settings q = some value → InFormat q value) := fun q h => value_given h
  have hsymbol := hform .symbol fun h => h.1 rfl
  have hqty := hform .qty fun h => by cases h.1
  have hprice := hform .price fun h => by cases h
  have hintent := hform .intentNotional fun h => by cases h
  have hcomp := hneeded .compCapital (fun s => Iff.rfl) rfl
  have hsettled := hneeded .settledCash (fun s => Iff.rfl) rfl
  have hexisting := hoptional .existingPositionValue (fun s => Iff.rfl) rfl
  have hpremium := hoptional .existingOptionPremium (fun s => Iff.rfl) rfl
  have hopen := hoptional .openOptionPremium (fun s => Iff.rfl) rfl
  have haggregate := hoptional .leveragedAggregate (fun s => Iff.rfl) rfl
  constructor
  · intro c
    have hflags := checkFlags_given.mp c.flags
    have hamount : ∀ q ∈ accountAmounts, isNumber ((varsOf settings).values q) = true := c.amounts
    have hgiven := hinstrument.mp c.instrument
    obtain ⟨gsymbol, fsymbol⟩ := hsymbol.mp c.symbol
    obtain ⟨gqty, fqty⟩ := hqty.mp (qty_inFormat.mpr ⟨c.qty, c.qty_range⟩)
    obtain ⟨gprice, fprice⟩ := hprice.mp c.price
    obtain ⟨gintent, fintent⟩ := hintent.mp c.intent
    obtain ⟨gcomp, fcomp⟩ := hcomp.mp (hamount _ (by decide))
    obtain ⟨gsettled, fsettled⟩ := hsettled.mp (hamount _ (by decide))
    refine ⟨hgiven, fun q hq => ?_, fun q hq => ?_, fun hlev => ?_, fun q value hvalue => ?_⟩
    · unfold required at hq
      rcases List.mem_append.mp hq with hleft | haggr
      · rcases List.mem_append.mp hleft with hbase | hunder
        · simp only [List.mem_cons, List.not_mem_nil, or_false] at hbase
          rcases hbase with rfl | rfl | rfl | rfl | rfl | rfl | rfl
          · rw [hgiven]
            rfl
          · exact gsymbol
          · exact gqty
          · exact gprice
          · exact gintent
          · exact gcomp
          · exact gsettled
        · split at hunder
          next hi =>
            subst hi
            rw [List.mem_singleton.mp hunder]
            exact hflags.1.1
          · cases hunder
      · split at haggr
        next hi =>
          rw [List.mem_singleton.mp haggr]
          cases i with
          | equity => exact absurd (hi.resolve_left (by decide)) hflags.2.2
          | leveragedEtf => exact hflags.2.2
          | option => exact hflags.2.2.mpr (hi.resolve_left (by decide))
        · cases haggr
    · cases i with
      | equity =>
        obtain ⟨⟨h1, h2, h3⟩, h4, -⟩ := hflags
        cases q with
        | underlyingPrice => exact absurd hq h1
        | existingOptionPremium => exact absurd hq h2
        | openOptionPremium => exact absurd hq h3
        | leveragedAggregate => exact absurd hq h4
        | existingPositionValue => exact fun h => by cases h
        | _ => trivial
      | leveragedEtf =>
        obtain ⟨⟨h1, h2, h3⟩, -, -⟩ := hflags
        cases q with
        | underlyingPrice => exact absurd hq h1
        | existingOptionPremium => exact absurd hq h2
        | openOptionPremium => exact absurd hq h3
        | leveragedAggregate => exact .inl rfl
        | existingPositionValue => exact fun h => by cases h
        | _ => trivial
      | option =>
        obtain ⟨-, h1, h2⟩ := hflags
        cases q with
        | existingPositionValue => exact absurd hq h1
        | leveragedAggregate => exact .inr ⟨rfl, h2.mp hq⟩
        | underlyingPrice => rfl
        | existingOptionPremium => rfl
        | openOptionPremium => rfl
        | _ => trivial
    · cases i with
      | equity => exact absurd hlev hflags.2.2
      | leveragedEtf => exact absurd hlev hflags.2.1
      | option => rfl
    · cases q with
      | instrument =>
        rw [hgiven] at hvalue
        exact ⟨i, (Option.some.inj hvalue).symm⟩
      | symbol => exact fsymbol value hvalue
      | qty => exact fqty value hvalue
      | price => exact fprice value hvalue
      | intentNotional => exact fintent value hvalue
      | compCapital => exact fcomp value hvalue
      | settledCash => exact fsettled value hvalue
      | existingPositionValue => exact hexisting.mp (hamount _ (by decide)) value hvalue
      | existingOptionPremium => exact hpremium.mp (hamount _ (by decide)) value hvalue
      | openOptionPremium => exact hopen.mp (hamount _ (by decide)) value hvalue
      | leveragedAggregate => exact haggregate.mp (hamount _ (by decide)) value hvalue
      | underlyingPrice =>
        have hsome : (given settings .underlyingPrice).isSome = true := by
          rw [hvalue]
          rfl
        cases i with
        | equity => exact absurd hsome hflags.1.1
        | leveragedEtf => exact absurd hsome hflags.1.1
        | option => exact hflags.1.2 value hvalue
  · intro l
    have hneed : ∀ q ∈ [Quantity.instrument, .symbol, .qty, .price, .intentNotional, .compCapital,
        .settledCash], (given settings q).isSome = true := fun q hq =>
      l.needed q (List.mem_append_left _ (List.mem_append_left _ hq))
    obtain ⟨hisQty, hrange⟩ := qty_inFormat.mp
      (hqty.mpr ⟨hneed _ (by decide), l.format .qty⟩)
    refine ⟨hinstrument.mpr l.instrument, hsymbol.mpr ⟨hneed _ (by decide), l.format .symbol⟩,
      hisQty, hrange, hprice.mpr ⟨hneed _ (by decide), l.format .price⟩,
      hintent.mpr ⟨hneed _ (by decide), l.format .intentNotional⟩, fun q hq => ?_,
      checkFlags_given.mpr ?_⟩
    · unfold accountAmounts at hq
      simp only [List.mem_cons, List.not_mem_nil, or_false] at hq
      rcases hq with rfl | rfl | rfl | rfl | rfl | rfl
      · exact hcomp.mpr ⟨hneed _ (by decide), l.format .compCapital⟩
      · exact hsettled.mpr ⟨hneed _ (by decide), l.format .settledCash⟩
      · exact hexisting.mpr (l.format .existingPositionValue)
      · exact hpremium.mpr (l.format .existingOptionPremium)
      · exact hopen.mpr (l.format .openOptionPremium)
      · exact haggregate.mpr (l.format .leveragedAggregate)
    · cases i with
      | equity =>
        refine ⟨⟨fun h => ?_, fun h => ?_, fun h => ?_⟩, fun h => ?_, fun h => ?_⟩
        · cases l.applies _ h
        · cases l.applies _ h
        · cases l.applies _ h
        · rcases l.applies _ h with h | h
          · cases h
          · cases h.1
        · cases l.switch h
      | leveragedEtf =>
        refine ⟨⟨fun h => ?_, fun h => ?_, fun h => ?_⟩, fun h => ?_, ?_⟩
        · cases l.applies _ h
        · cases l.applies _ h
        · cases l.applies _ h
        · cases l.switch h
        · exact l.needed _ (List.mem_append_right _ List.mem_cons_self)
      | option =>
        refine ⟨⟨l.needed _ (List.mem_append_left _ (List.mem_append_right _ List.mem_cons_self)),
          l.format .underlyingPrice⟩, fun h => l.applies _ h rfl, fun h => ?_, fun h => ?_⟩
        · exact ((l.applies _ h).resolve_left fun h => by cases h).2
        · refine l.needed _ (List.mem_append_right _ ?_)
          rw [if_pos (.inr h)]
          exact List.mem_cons_self

/-! ## The vector -/

variable {argv : List String} {file : RulesFile} {book : RuleBook} {v : Vars}

/-- **The arguments are gone on with** if the vector spells settings that an
instrument takes, and no flag twice. -/
theorem checkArguments_ok : checkArguments argv = .ok (v, i) ↔ ∃ settings, argv = spell settings ∧
    (settings.map Setting.flag).Nodup ∧ v = varsOf settings ∧ Legit InFormat settings i := by
  unfold checkArguments
  constructor
  · intro h
    cases hloop : argumentLoop .init argv with
    | error stop =>
      rw [hloop] at h
      cases h
    | ok w =>
      rw [hloop] at h
      obtain ⟨settings, hspell, hnodup, -, hw⟩ := argumentLoop_ok.mp hloop
      cases hvalid : validate w with
      | error e =>
        have hstop : (validate w).mapError Stop.usage = .error (.usage e) := by
          rw [hvalid]
          rfl
        have hbind : ((validate w).mapError Stop.usage >>= fun j => .ok (w, j)) = .ok (v, i) := h
        rw [hstop] at hbind
        cases hbind
      | ok j =>
        have hgo : (validate w).mapError Stop.usage = .ok j := by
          rw [hvalid]
          rfl
        have hbind : ((validate w).mapError Stop.usage >>= fun j => .ok (w, j)) = .ok (v, i) := h
        rw [hgo] at hbind
        cases hbind
        rw [hw] at hvalid
        exact ⟨settings, hspell, hnodup, hw, checked_iff.mp (validate_ok.mp hvalid)⟩
  · rintro ⟨settings, rfl, hnodup, rfl, hlegit⟩
    have hloop : argumentLoop .init (spell settings) = .ok (varsOf settings) :=
      argumentLoop_spell hnodup fun s _ hs => by cases hs
    have hvalid := validate_ok.mpr (checked_iff.mpr hlegit)
    rw [hloop]
    show ((validate (varsOf settings)).mapError Stop.usage >>= fun j => .ok (varsOf settings, j)) = _
    rw [hvalid]
    rfl

theorem gated_ite {c : Prop} [Decidable c] {a b : Exit} (ha : a.gated = true)
    (hb : b.gated = true) : (if c then a else b).gated = true := by
  split
  · exact ha
  · exact hb

theorem gates_gated (book : RuleBook) (v : Vars) (i : Instrument) :
    (gates book v i).gated = true := by
  unfold gates
  exact gated_ite rfl (gated_ite rfl (gated_ite rfl (gated_ite rfl rfl)))

/-- The gates are reached by what is taken, and by nothing else. -/
theorem gated_iff (hbook : file.book = some book) :
    (preOrderCheck (some file) argv).gated = true ↔
      ∃ settings, argv = spell settings ∧ Taken settings := by
  unfold preOrderCheck
  dsimp only
  constructor
  · intro h
    split at h
    · cases h
    · cases h
    next v i hok =>
      obtain ⟨settings, hspell, hnodup, -, hlegit⟩ := checkArguments_ok.mp hok
      exact ⟨settings, hspell, hnodup, i, hlegit⟩
  · rintro ⟨settings, hspell, hnodup, i, hlegit⟩
    rw [checkArguments_ok.mpr ⟨settings, hspell, hnodup, rfl, hlegit⟩]
    dsimp only
    rw [hbook]
    exact gates_gated _ _ _

/-- Without a help flag, whatever does not reach the gates is a usage error. -/
theorem refused_code (hbook : file.book = some book) (hhelp : ¬ HelpFlag argv)
    (h : (preOrderCheck (some file) argv).gated = false) :
    (preOrderCheck (some file) argv).code = 2 := by
  unfold preOrderCheck at h ⊢
  dsimp only at h ⊢
  split
  next hstop =>
    refine absurd ?_ hhelp
    unfold checkArguments at hstop
    cases hloop : argumentLoop .init argv with
    | error stop =>
      rw [hloop] at hstop
      cases hstop
      exact argumentLoop_help hloop
    | ok w =>
      rw [hloop] at hstop
      have hbind : ((validate w).mapError Stop.usage >>= fun j => .ok (w, j)) = .error Stop.help :=
        hstop
      cases hvalid : validate w with
      | error e =>
        rw [hvalid] at hbind
        cases hbind
      | ok j =>
        rw [hvalid] at hbind
        cases hbind
  · rfl
  next v i hok =>
    rw [hok] at h
    dsimp only at h
    rw [hbook] at h
    exact absurd (gates_gated book v i) (by rw [h]; exact Bool.false_ne_true)

/-- The account's value is given under one of its names at most. -/
def OneName (settings : List Setting) : Prop :=
  ¬ (.value .accountValue ∈ settings.map Setting.flag ∧
    .value .compCapital ∈ settings.map Setting.flag)

/-- No account-level amount is over its bound. -/
def InBounds (settings : List Setting) : Prop :=
  ∀ q ∈ accountAmounts, ∀ value, given settings q = some value → amount value ≤ 9999999999 / 100

/-- The quantity that a flag sets. -/
def Flag.sets : Flag → Option Quantity
  | .value f => some f.sets
  | .leveragedUnderlying => none

theorem quantity_eq (s : Setting) : s.quantity = s.flag.sets := by
  cases s with
  | set f value => rfl
  | leveragedUnderlying => rfl

theorem flag_sets_eq {f g : Flag} (h : f.sets = g.sets) : f = g ∨
    f = .value .accountValue ∧ g = .value .compCapital ∨
      f = .value .compCapital ∧ g = .value .accountValue := by
  have hall : ∀ f ∈ Flag.all, ∀ g ∈ Flag.all, f.sets = g.sets → f = g ∨
      f = .value .accountValue ∧ g = .value .compCapital ∨
        f = .value .compCapital ∧ g = .value .accountValue := by decide +kernel
  exact hall f (flag_mem_all f) g (flag_mem_all g) h

/-- Each quantity once is each flag once, and one name for the account. -/
theorem quantities_nodup : (settings.map Setting.quantity).Nodup ↔
    (settings.map Setting.flag).Nodup ∧ OneName settings := by
  have hmap : settings.map Setting.quantity = (settings.map Setting.flag).map Flag.sets := by
    rw [List.map_map]
    exact List.map_congr_left fun s _ => quantity_eq s
  rw [hmap]
  constructor
  · intro h
    refine ⟨List.Nodup.of_map _ h, fun hboth => ?_⟩
    have hsame := List.inj_on_of_nodup_map h hboth.1 hboth.2 rfl
    cases hsame
  · rintro ⟨hnodup, hone⟩
    refine List.Nodup.map_on (fun f hf g hg hsets => ?_) hnodup
    rcases flag_sets_eq hsets with heq | ⟨rfl, rfl⟩ | ⟨rfl, rfl⟩
    · exact heq
    · exact absurd ⟨hf, hg⟩ hone
    · exact absurd ⟨hg, hf⟩ hone

/-- What is plain is taken; what is taken is plain if the account has one
name and the amounts are within their bound. -/
theorem plain_iff : Plain settings ↔ Taken settings ∧ OneName settings ∧ InBounds settings := by
  unfold Plain Taken
  rw [quantities_nodup]
  constructor
  · rintro ⟨⟨hnodup, hone⟩, i, hlegit⟩
    refine ⟨⟨hnodup, i, ?_⟩, hone, fun q hq value hvalue => (hlegit.format q value hvalue).2 hq⟩
    exact ⟨hlegit.instrument, hlegit.needed, hlegit.applies, hlegit.switch,
      fun q value hvalue => (hlegit.format q value hvalue).1⟩
  · rintro ⟨⟨hnodup, i, hlegit⟩, hone, hbounds⟩
    refine ⟨⟨hnodup, hone⟩, i, ?_⟩
    exact ⟨hlegit.instrument, hlegit.needed, hlegit.applies, hlegit.switch,
      fun q value hvalue => ⟨hlegit.format q value hvalue, fun hq => hbounds q hq value hvalue⟩⟩

/-- The gates are reached by the plain vectors, and the others exit with 2. -/
def PlainlyTaken (file : RulesFile) (argv : List String) : Prop :=
  ((preOrderCheck (some file) argv).gated = true ↔
      ∃ settings, argv = spell settings ∧ Plain settings) ∧
    ((preOrderCheck (some file) argv).gated = false → (preOrderCheck (some file) argv).code = 2)

/-- **The order gate takes what it was plainly given** unless the vector
spells settings that are right but for the account's value, given under both
its names, or for an amount over its bound. -/
theorem orderGate_plain_iff (hbook : file.book = some book) (hhelp : ¬ HelpFlag argv) :
    PlainlyTaken file argv ↔ ∀ settings, argv = spell settings → Taken settings →
      OneName settings ∧ InBounds settings := by
  unfold PlainlyTaken
  rw [gated_iff hbook]
  constructor
  · rintro ⟨hiff, -⟩ settings hspell htaken
    obtain ⟨settings', hspell', hplain⟩ := hiff.mp ⟨settings, hspell, htaken⟩
    obtain rfl := spell_injective (hspell'.symm.trans hspell)
    exact (plain_iff.mp hplain).2
  · intro h
    refine ⟨⟨?_, ?_⟩, refused_code hbook hhelp⟩
    · rintro ⟨settings, hspell, htaken⟩
      exact ⟨settings, hspell, plain_iff.mpr ⟨htaken, h settings hspell htaken⟩⟩
    · rintro ⟨settings, hspell, hplain⟩
      exact ⟨settings, hspell, (plain_iff.mp hplain).1⟩

private def rulesYml : RulesFile := ⟨some 35, some 10, some 30, some 20, some "5.00"⟩

private def tenShares (account : List Setting) : List Setting :=
  [.set .instrument "equity", .set .symbol "TST", .set .qty "10", .set .price "10.00",
    .set .intentNotional "100.00"] ++ account ++ [.set .settledCash "1000.00"]

private theorem tenShares_noHelp {account : List Setting}
    (h : "-h" ∉ spell (tenShares account) ∧ "--help" ∉ spell (tenShares account)) :
    ¬ HelpFlag (spell (tenShares account)) := by
  rintro ⟨settings, arg, rest, hargv, harg⟩
  have hmem : arg ∈ spell (tenShares account) := by
    rw [hargv]
    exact List.mem_append_right _ List.mem_cons_self
  rcases harg with rfl | rfl
  · exact h.1 hmem
  · exact h.2 hmem

theorem orderGate_plain_tenShares :
    PlainlyTaken rulesYml (spell (tenShares [.set .accountValue "1000.00"])) := by
  refine (orderGate_plain_iff rfl (tenShares_noHelp (by decide +kernel))).mpr
    fun settings hspell _ => ?_
  obtain rfl := spell_injective hspell
  refine ⟨fun hboth => ?_, fun q hq value hvalue => ?_⟩
  · revert hboth
    decide
  · unfold accountAmounts at hq
    simp only [List.mem_cons, List.not_mem_nil, or_false] at hq
    rcases hq with rfl | rfl | rfl | rfl | rfl | rfl
    · obtain rfl := Option.some.inj hvalue
      decide +kernel
    · obtain rfl := Option.some.inj hvalue
      decide +kernel
    · cases hvalue
    · cases hvalue
    · cases hvalue
    · cases hvalue

/-- The account's value is given twice, and the last one stands. -/
theorem orderGate_twoNames : ¬ ∀ (file : RulesFile) (book : RuleBook) (argv : List String),
    file.book = some book → ¬ HelpFlag argv → PlainlyTaken file argv := by
  intro hclaim
  obtain ⟨hiff, -⟩ := hclaim rulesYml ⟨35, 10, 30, 20, "5.00"⟩
    (spell (tenShares [.set .accountValue "500.00", .set .compCapital "1000.00"])) rfl
    (tenShares_noHelp (by decide +kernel))
  obtain ⟨settings, hspell, hplain⟩ := hiff.mp (by decide +kernel)
  obtain rfl := spell_injective hspell
  obtain ⟨-, hone, -⟩ := plain_iff.mp hplain
  exact hone ⟨by decide, by decide⟩

end TradeDesk.Scripts
