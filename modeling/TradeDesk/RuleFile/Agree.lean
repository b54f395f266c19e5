import TradeDesk.RuleFile.Numbers

/-!
# Two loaders of one file

The order gate reads `rules.yml` with `load_rules` and `rule_get`, the engine
with `Rules.load`. For a text both accept they have the same rules, with the
same numbers, just if it is straight (`agree_iff`): a section that is begun
again has all its rules again, since YAML keeps the last block of a name and
the shell every variable it ever set; no rule is named with a word that YAML
takes for something else than a text; and every value that counts is written
as both read it (`SameNumber`).

What each of them has is read off the file's blocks: the shell the last rule
of a name in all blocks (`ruleGet_isSome`, `ruleGet_last`), the engine the
last of the last block (`Rules.load_blocks`).
-/

namespace TradeDesk.RuleFile

open TradeDesk.Lists

def SECTIONS : List String := ["manual", "strategy"]

def Rules.table (r : Rules) (sec : String) : List (YamlKey × Decimal) :=
  if sec = "manual" then r.manual else r.strategy

/-- **The two loaders agree**: they have the same rules, and each is the same
number to both. -/
structure Agree (env : List (String × String)) (rules : Rules) : Prop where
  /-- the engine's names are texts, as the shell's are -/
  texts : ∀ sec ∈ SECTIONS, ∀ k d, (rules.table sec).lookup k = some d → ∃ key, k = .str key
  names : ∀ name, (ruleGet env name).isSome = true ↔
    ∃ sec ∈ SECTIONS, ∃ key, ((rules.table sec).lookup (.str key)).isSome = true ∧
      name = sec ++ "_" ++ key
  values : ∀ sec ∈ SECTIONS, ∀ key d, (rules.table sec).lookup (.str key) = some d →
    ∃ val q, ruleGet env (sec ++ "_" ++ key) = some val ∧ d = .finite q ∧ shellNumber val = some q

/-- The rules of a section in its last block. -/
def lastBlock (blocks : List Block) (sec : List Char) : List (List Char × List Char) :=
  (lastOf blocks sec).getD []

/-- What a file has to be for the two to agree. -/
structure Straight (blocks : List Block) : Prop where
  /-- a section that is begun again has all its rules again -/
  repeated : ∀ b ∈ blocks, ∀ e ∈ b.2, ∃ e' ∈ lastBlock blocks b.1, e'.1 = e.1
  /-- no rule is named with a word for something else than a text -/
  named : ∀ b ∈ blocks, ∀ e ∈ b.2, keyOf e.1 = .str (String.ofList e.1)
  /-- a value that counts is written as both read it -/
  numbers : ∀ b ∈ blocks, ∀ key val, lastOf (lastBlock blocks b.1) key = some val →
    SameNumber val

/-! ## Names -/

theorem keyOf_str {name : List Char} {s : String} (h : keyOf name = .str s) :
    s = String.ofList name := by
  unfold keyOf at h
  split at h
  next => cases h
  next => cases h
  next => cases h
  next =>
    cases h
    rfl

theorem keyOf_section {sec : String} (h : sec ∈ SECTIONS) : keyOf sec.toList = .str sec := by
  have hall : ∀ s ∈ SECTIONS, keyOf s.toList = .str s := by decide +kernel
  exact hall sec h

/-- A rule's name for the shell says which section it is of, and its key. -/
theorem ruleName_injective {sec sec' key key' : String} (hsec : sec ∈ SECTIONS)
    (hsec' : sec' ∈ SECTIONS) (h : sec ++ "_" ++ key = sec' ++ "_" ++ key') :
    sec = sec' ∧ key = key' := by
  have hchars := congrArg String.toList h
  simp only [String.toList_append, List.append_assoc] at hchars
  have hcancel : ∀ s : String, s.toList ++ ("_".toList ++ key.toList) =
      s.toList ++ ("_".toList ++ key'.toList) → key = key' := fun s hs =>
    String.toList_inj.mp (List.append_cancel_left (List.append_cancel_left hs))
  have hhead : ∀ s t : List Char, "manual".toList ++ s ≠ "strategy".toList ++ t := by
    intro s t heq
    have hfirst : 'm' = 's' := (List.cons.inj heq).1
    exact absurd hfirst (by decide)
  simp only [SECTIONS, List.mem_cons, List.not_mem_nil, or_false] at hsec hsec'
  rcases hsec with rfl | rfl
  · rcases hsec' with rfl | rfl
    · exact ⟨rfl, hcancel _ hchars⟩
    · exact absurd hchars (hhead _ _)
  · rcases hsec' with rfl | rfl
    · exact absurd hchars.symm (hhead _ _)
    · exact ⟨rfl, hcancel _ hchars⟩

/-! ## The shell -/

/-- The variables set for blocks. -/
def envOf (blocks : List Block) : List (String × String) :=
  (ungroup blocks).map fun x =>
    (variableOf (String.ofList x.1.1) (String.ofList x.1.2), String.ofList x.2)

theorem loadRulesSh_blocks {text : String} {env : List (String × String)}
    (h : loadRulesSh text = some env) :
    env = envOf (blocksOf ((shellLines text.toList).map shellLine)) := by
  obtain ⟨out, hout, rfl⟩ := Option.map_eq_some_iff.mp h
  rw [awk_blocks hout]
  unfold envOf ungroup
  rw [List.map_flatMap, List.map_flatMap]
  refine congrArg (fun f => List.flatMap f _) (funext fun b => ?_)
  unfold printedOf
  rw [List.map_map, List.map_map]
  rfl

section

variable {blocks : List Block} {sec key val : List Char} {es : List (List Char × List Char)}

/-- What a variable is set to is not empty. -/
theorem ruleGet_eq (hvals : ∀ b ∈ blocks, ∀ e ∈ b.2, e.2 ≠ []) (name : String) :
    ruleGet (envOf blocks) name = lastOf (envOf blocks) ("RULE_" ++ name) := by
  unfold ruleGet
  cases h : lastOf (envOf blocks) ("RULE_" ++ name) with
  | none => rfl
  | some v =>
    obtain ⟨x, hx, he⟩ := List.mem_map.mp (lastOf_mem h)
    obtain ⟨b, hb, e, hmem, rfl⟩ := mem_ungroup.mp hx
    obtain ⟨-, rfl⟩ := Prod.mk.inj he
    exact Option.filter_some_pos (by simpa using hvals b hb e hmem)

/-- **The shell has a rule** that stands in any block. -/
theorem ruleGet_isSome (hvals : ∀ b ∈ blocks, ∀ e ∈ b.2, e.2 ≠ []) {name : String} :
    (ruleGet (envOf blocks) name).isSome = true ↔
      ∃ b ∈ blocks, ∃ e ∈ b.2, name = String.ofList b.1 ++ "_" ++ String.ofList e.1 := by
  rw [ruleGet_eq hvals, lastOf_isSome]
  constructor
  · rintro ⟨x, hx, hname⟩
    obtain ⟨y, hy, rfl⟩ := List.mem_map.mp hx
    obtain ⟨b, hb, e, he, rfl⟩ := mem_ungroup.mp hy
    exact ⟨b, hb, e, he, (String.append_right_inj _).mp hname.symm⟩
  · rintro ⟨b, hb, e, he, rfl⟩
    exact ⟨_, List.mem_map_of_mem (mem_ungroup.mpr ⟨b, hb, e, he, rfl⟩), rfl⟩

/-- **Its value is that of the last block**, if the rule is in it. -/
theorem ruleGet_last (hvals : ∀ b ∈ blocks, ∀ e ∈ b.2, e.2 ≠ [])
    (hsections : ∀ b ∈ blocks, String.ofList b.1 ∈ SECTIONS) (hlast : lastOf blocks sec = some es)
    (h : lastOf es key = some val) :
    ruleGet (envOf blocks) (String.ofList sec ++ "_" ++ String.ofList key) =
      some (String.ofList val) := by
  have hsec := hsections _ (lastOf_mem hlast)
  have hmap := lastOf_map (l := ungroup blocks) (k := (sec, key)) (g := String.ofList)
    (f := fun x => variableOf (String.ofList x.1) (String.ofList x.2)) (by
      intro x hx heq
      obtain ⟨b, hb, e, -, rfl⟩ := mem_ungroup.mp hx
      obtain ⟨hs, hk⟩ := ruleName_injective (hsections b hb) hsec
        ((String.append_right_inj _).mp heq)
      exact Prod.ext (String.ofList_injective hs) (String.ofList_injective hk))
  rw [ruleGet_eq hvals]
  refine hmap.trans ?_
  rw [lastOf_ungroup hlast h]
  rfl

end

/-! ## The engine -/

section

variable {texts : Texts}

/-- What a loaded table has under a key, from what the file has. -/
def TableOf (texts : Texts) (sec : String) (items : YamlKey → Option Yaml)
    (table : List (YamlKey × Decimal)) : Prop :=
  ∀ k, match items k with
    | none => table.lookup k = none
    | some value => ∃ d, toDecimal texts sec k value = .ok d ∧ table.lookup k = some d

theorem tableOf_mapM {sec : String} {items : List (YamlKey × Yaml)}
    {table : List (YamlKey × Decimal)}
    (h : (items.mapM fun e => do let d ← toDecimal texts sec e.1 e.2; return (e.1, d)) =
      Except.ok table) : TableOf texts sec (fun k => items.lookup k) table := by
  induction items generalizing table with
  | nil =>
    cases h
    exact fun _ => rfl
  | cons e items ih =>
    rw [List.mapM_cons] at h
    cases hd : toDecimal texts sec e.1 e.2 with
    | error err =>
      rw [hd] at h
      cases h
    | ok d =>
      rw [hd] at h
      cases hrest : items.mapM fun e => do
          let d ← toDecimal texts sec e.1 e.2
          return (e.1, d) with
      | error err =>
        simp only [hrest] at h
        cases h
      | ok rest =>
        simp only [hrest] at h
        cases h
        intro k
        dsimp only
        rw [List.lookup_cons, List.lookup_cons]
        cases hk : k == e.1 with
        | true =>
          rw [eq_of_beq hk]
          exact ⟨d, hd, rfl⟩
        | false => exact ih hrest k

theorem loadSection_tableOf {path sec : String} {es : List (List Char × List Char)} {body : Yaml}
    {table : List (YamlKey × Decimal)} (hbody : BodyOf es body)
    (h : loadSection texts path sec body = .ok table) :
    TableOf texts sec (lastOf (es.map fun e => (keyOf e.1, resolve e.2))) table := by
  unfold BodyOf at hbody
  split at hbody
  next hes =>
    subst hes
    subst hbody
    cases h
    exact fun _ => rfl
  next =>
    obtain ⟨text, items, rfl, hitems⟩ := hbody
    rw [← funext hitems]
    unfold loadSection at h
    split at h
    next hempty =>
      obtain rfl : items = [] := List.isEmpty_iff.mp hempty
      cases h
      exact fun _ => rfl
    next => exact tableOf_mapM h

/-- A value that loads has the two sections, and no others. -/
theorem rulesOf_sections {path : String} {raw : Yaml} {rules : Rules}
    (h : rulesOf texts path raw = .ok rules) : ∃ text items, raw = .mapping text items ∧
      (∀ e ∈ items, ∃ sec ∈ SECTIONS, e.1 = .str sec) ∧
      ∀ sec ∈ SECTIONS, ∃ body, items.lookup (.str sec) = some body ∧
        loadSection texts path sec body = .ok (rules.table sec) := by
  unfold rulesOf at h
  dsimp only at h
  split at h
  next text items =>
    split at h
    next hsections =>
      refine ⟨text, items, rfl, ?_, ?_⟩
      · intro e he
        have hname := List.all_eq_true.mp
          (Bool.and_eq_true_iff.mp (Bool.and_eq_true_iff.mp hsections).1).1 e he
        rcases Bool.or_eq_true_iff.mp hname with hname | hname
        · exact ⟨"manual", List.mem_cons_self, eq_of_beq hname⟩
        · exact ⟨"strategy", by decide, eq_of_beq hname⟩
      · split at h
        next m s hm hs =>
          cases hmanual : loadSection texts path "manual" m with
          | error e =>
            rw [hmanual] at h
            cases h
          | ok manual =>
            cases hstrategy : loadSection texts path "strategy" s with
            | error e =>
              rw [hmanual, hstrategy] at h
              cases h
            | ok strategy =>
              rw [hmanual, hstrategy] at h
              cases h
              intro sec hsec
              simp only [SECTIONS, List.mem_cons, List.not_mem_nil, or_false] at hsec
              rcases hsec with rfl | rfl
              · exact ⟨m, hm, hmanual⟩
              · exact ⟨s, hs, hstrategy⟩
        next => cases h
    next => cases h
  next => cases h

/-- **The engine has the rules of each section's last block.** -/
theorem rulesOf_blocks {path : String} {raw : Yaml} {rules : Rules} {blocks : List Block}
    (hread : ReadAs blocks raw) (h : rulesOf texts path raw = .ok rules) :
    (∀ b ∈ blocks, String.ofList b.1 ∈ SECTIONS) ∧ ∀ sec ∈ SECTIONS,
      ∃ es, lastOf blocks sec.toList = some es ∧
        TableOf texts sec (lastOf (es.map fun e => (keyOf e.1, resolve e.2)))
          (rules.table sec) := by
  obtain ⟨text, items, rfl, hnames, hbodies⟩ := rulesOf_sections h
  obtain ⟨text', items', hitems, hread⟩ := hread
  cases hitems
  constructor
  · intro b hb
    have hmem : (lastOf (blocks.map fun b => (keyOf b.1, b.2)) (keyOf b.1)).isSome = true :=
      lastOf_isSome.mpr ⟨_, List.mem_map_of_mem hb, rfl⟩
    have hb' := hread (keyOf b.1)
    obtain ⟨es, hes⟩ := Option.isSome_iff_exists.mp hmem
    rw [hes] at hb'
    obtain ⟨body, hbody, -⟩ := hb'
    obtain ⟨front, back, hlist, -⟩ := List.lookup_eq_some_iff.mp hbody
    obtain ⟨sec, hsec, hkey⟩ := hnames _ (hlist ▸ List.mem_append_right _ List.mem_cons_self)
    rwa [← keyOf_str hkey]
  · intro sec hsec
    obtain ⟨body, hbody, hload⟩ := hbodies sec hsec
    have hsec' := hread (.str sec)
    have hmap := lastOf_map (l := blocks) (k := sec.toList) (f := keyOf) (g := id) (by
      intro b _ hb
      rw [keyOf_section hsec] at hb
      rw [keyOf_str hb, String.toList_ofList])
    rw [keyOf_section hsec, Option.map_id] at hmap
    have hlast : lastOf (blocks.map fun b => (keyOf b.1, b.2)) (.str sec) =
        lastOf blocks sec.toList := hmap
    rw [hlast] at hsec'
    split at hsec'
    next =>
      rw [hbody] at hsec'
      cases hsec'
    next es hes =>
      obtain ⟨body', hbody', hbodyOf⟩ := hsec'
      cases hbody.symm.trans hbody'
      exact ⟨es, hes, loadSection_tableOf hbodyOf hload⟩

end

/-! ## Both -/

section

variable {texts : Texts} {rules : Rules} {blocks : List Block}

/-- Of the rules of a block the engine has those with this key. -/
theorem lastOf_keyOf {es : List (List Char × List Char)} {key : List Char}
    (hkey : keyOf key = .str (String.ofList key)) :
    lastOf (es.map fun e => (keyOf e.1, resolve e.2)) (.str (String.ofList key)) =
      (lastOf es key).map resolve := by
  rw [← hkey]
  refine lastOf_map fun e _ he => ?_
  rw [hkey] at he
  exact (String.ofList_injective (keyOf_str he)).symm

variable (hsafe : ∀ b ∈ blocks, ∀ e ∈ b.2, IsValue e.2)
  (hsections : ∀ b ∈ blocks, String.ofList b.1 ∈ SECTIONS)
  (htables : ∀ sec ∈ SECTIONS, ∃ es, lastOf blocks sec.toList = some es ∧
    TableOf texts sec (lastOf (es.map fun e => (keyOf e.1, resolve e.2))) (rules.table sec))

include htables in
/-- A rule of the engine stands in the last block of its section. -/
theorem mem_of_table {sec : String} {k : YamlKey} {d : Decimal} (hsec : sec ∈ SECTIONS)
    (h : (rules.table sec).lookup k = some d) :
    ∃ b ∈ blocks, String.ofList b.1 = sec ∧ lastOf blocks b.1 = some b.2 ∧
      (∃ e ∈ b.2, keyOf e.1 = k) ∧ ∃ value, lastOf (b.2.map fun e => (keyOf e.1, resolve e.2)) k =
        some value ∧ toDecimal texts sec k value = .ok d := by
  obtain ⟨es, hes, htable⟩ := htables sec hsec
  have hk := htable k
  split at hk
  next =>
    rw [h] at hk
    cases hk
  next value hvalue =>
    obtain ⟨d', hd', hlookup⟩ := hk
    cases h.symm.trans hlookup
    refine ⟨(sec.toList, es), lastOf_mem hes, String.ofList_toList, hes, ?_, value, hvalue, hd'⟩
    obtain ⟨x, hx, hxk⟩ := lastOf_isSome.mp (Option.isSome_iff_exists.mpr ⟨value, hvalue⟩)
    obtain ⟨e, he, rfl⟩ := List.mem_map.mp hx
    exact ⟨e, he, hxk⟩

include htables in
/-- A rule of the last block of its section is one of the engine. -/
theorem table_of_last {b : Block} {es : List (List Char × List Char)} {key val : List Char}
    (hsec : String.ofList b.1 ∈ SECTIONS) (hlast : lastOf blocks b.1 = some es)
    (h : lastOf es key = some val) (hkey : keyOf key = .str (String.ofList key)) :
    ∃ d, toDecimal texts (String.ofList b.1) (.str (String.ofList key)) (resolve val) = .ok d ∧
      (rules.table (String.ofList b.1)).lookup (.str (String.ofList key)) = some d := by
  obtain ⟨es', hes', htable⟩ := htables _ hsec
  rw [String.toList_ofList] at hes'
  cases hlast.symm.trans hes'
  have hk := htable (.str (String.ofList key))
  rw [lastOf_keyOf hkey, h] at hk
  exact hk

include hsafe hsections htables in
theorem straight_of_agree (h : Agree (envOf blocks) rules) : Straight blocks := by
  have hvals : ∀ b ∈ blocks, ∀ e ∈ b.2, e.2 ≠ [] := fun b hb e he => (hsafe b hb e he).1
  -- a rule of the shell is one of the engine, in the last block
  have hrule : ∀ b ∈ blocks, ∀ e ∈ b.2, keyOf e.1 = .str (String.ofList e.1) ∧
      ∃ e' ∈ lastBlock blocks b.1, e'.1 = e.1 := by
    intro b hb e he
    obtain ⟨sec, hsec, key, htable, hname⟩ :=
      (h.names _).mp ((ruleGet_isSome hvals).mpr ⟨b, hb, e, he, rfl⟩)
    obtain ⟨rfl, rfl⟩ := ruleName_injective (hsections b hb) hsec hname
    obtain ⟨d, hd⟩ := Option.isSome_iff_exists.mp htable
    obtain ⟨b', -, hsame, hlast, ⟨e', he', hkey⟩, -⟩ := mem_of_table htables hsec hd
    have hkey' : e'.1 = e.1 := (String.ofList_injective (keyOf_str hkey)).symm
    rw [hkey'] at hkey
    refine ⟨hkey, e', ?_, hkey'⟩
    unfold lastBlock
    rw [← String.ofList_injective hsame, hlast]
    exact he'
  refine ⟨fun b hb e he => (hrule b hb e he).2, fun b hb e he => (hrule b hb e he).1, ?_⟩
  intro b hb key val hval
  obtain ⟨es, hes⟩ := Option.isSome_iff_exists.mp (lastOf_isSome.mpr ⟨b, hb, rfl⟩)
  have hblock : lastBlock blocks b.1 = es := by
    unfold lastBlock
    rw [hes]
    rfl
  rw [hblock] at hval
  have hmem := lastOf_mem hes
  have hkey := (hrule _ hmem _ (lastOf_mem hval)).1
  obtain ⟨d, hd, hlookup⟩ := table_of_last htables (hsections b hb) hes hval hkey
  obtain ⟨val', q, hget, hfinite, hnumber⟩ := h.values _ (hsections b hb) _ d hlookup
  rw [ruleGet_last hvals hsections hes hval] at hget
  cases hget
  exact (sameNumber_iff (hsafe _ hmem _ (lastOf_mem hval)) hd).mp ⟨q, hfinite, hnumber⟩

include hsafe hsections htables in
theorem agree_of_straight (h : Straight blocks) : Agree (envOf blocks) rules := by
  have hvals : ∀ b ∈ blocks, ∀ e ∈ b.2, e.2 ≠ [] := fun b hb e he => (hsafe b hb e he).1
  refine ⟨?_, ?_, ?_⟩
  · intro sec hsec k d hd
    obtain ⟨b, hb, -, -, ⟨e, he, rfl⟩, -⟩ := mem_of_table htables hsec hd
    exact ⟨_, h.named b hb e he⟩
  · intro name
    rw [ruleGet_isSome hvals]
    constructor
    · rintro ⟨b, hb, e, he, rfl⟩
      obtain ⟨e', he', hsame⟩ := h.repeated b hb e he
      obtain ⟨es, hes⟩ := Option.isSome_iff_exists.mp (lastOf_isSome.mpr ⟨b, hb, rfl⟩)
      unfold lastBlock at he'
      rw [hes] at he'
      obtain ⟨val, hval⟩ := Option.isSome_iff_exists.mp (lastOf_isSome.mpr ⟨e', he', hsame⟩)
      obtain ⟨d, -, hd⟩ :=
        table_of_last htables (hsections b hb) hes hval (h.named b hb e he)
      exact ⟨_, hsections b hb, _, Option.isSome_iff_exists.mpr ⟨d, hd⟩, rfl⟩
    · rintro ⟨sec, hsec, key, htable, rfl⟩
      obtain ⟨d, hd⟩ := Option.isSome_iff_exists.mp htable
      obtain ⟨b, hb, rfl, -, ⟨e, he, hkey⟩, -⟩ := mem_of_table htables hsec hd
      rw [keyOf_str hkey]
      exact ⟨b, hb, e, he, rfl⟩
  · intro sec hsec key d hd
    obtain ⟨b, hb, rfl, hlast, ⟨e, he, hkey⟩, value, hvalue, hload⟩ :=
      mem_of_table htables hsec hd
    obtain rfl := keyOf_str hkey
    rw [lastOf_keyOf hkey] at hvalue
    obtain ⟨val, hval, rfl⟩ := Option.map_eq_some_iff.mp hvalue
    have hsame : SameNumber val := by
      refine h.numbers b hb e.1 val ?_
      unfold lastBlock
      rwa [hlast]
    obtain ⟨q, hq, hnumber⟩ :=
      (sameNumber_iff (hsafe b hb _ (lastOf_mem hval)) hload).mpr hsame
    exact ⟨_, q, ruleGet_last hvals hsections hlast hval, hq, hnumber⟩

end

/-- **The two loaders agree** on a text both accept, and that hides nothing
behind another line end, just if it is straight. -/
theorem agree_iff {texts : Texts} {safeLoad : String → Except YamlError Yaml} {t : Tree}
    {text : String} {env : List (String × String)} {rules : Rules}
    (hyaml : ReadsFlat texts safeLoad) (hfile : t.entries.lookup ["rules.yml"] = some (.text text))
    (hquiet : Quiet text.toList) (hshell : loadRulesSh text = some env)
    (hengine : Rules.load texts safeLoad t = .ok rules) :
    Agree env rules ↔ Straight (blocksOf ((shellLines text.toList).map shellLine)) := by
  obtain ⟨out, hout, -⟩ := Option.map_eq_some_iff.mp hshell
  obtain ⟨hawk, hblocks⟩ := awk_of_spoken (inTextMode_spoken hquiet hout)
  obtain ⟨raw, hraw, hrules⟩ : ∃ raw, safeLoad (inTextMode text) = .ok raw ∧
      rulesOf texts (t.fullPath ["rules.yml"]) raw = .ok rules := by
    unfold Rules.load Tree.readText at hengine
    rw [hfile] at hengine
    dsimp only at hengine
    split at hengine
    next => cases hengine
    next => cases hengine
    next raw hraw => exact ⟨raw, hraw, hengine⟩
  obtain ⟨doc, hdoc, hlines, hread⟩ :=
    hyaml (inTextMode text) _ raw rules (Option.isSome_iff_exists.mpr ⟨out, hawk.trans hout⟩)
      hraw hrules
  have hsame : doc.map FlatLine.line = (yamlLines (inTextMode text).toList).map shellLine := by
    rw [hlines, List.map_map]
    exact List.map_congr_left fun x hx => (shellLine_print (hdoc x hx)).symm
  have hsafe := blocksOf_safe hdoc
  rw [hsame, hblocks] at hread hsafe
  obtain ⟨hsections, htables⟩ := rulesOf_blocks hread hrules
  rw [loadRulesSh_blocks hshell]
  exact ⟨straight_of_agree hsafe hsections htables, agree_of_straight hsafe hsections htables⟩

/-! ## Two files -/

private def noTexts : Texts := ⟨id, fun _ => none, fun _ => "", ""⟩

private def deskOf (text : String) : Tree := ⟨"/desk", [(["rules.yml"], .text text)]⟩

/-- One rule, and a section without any. -/
private def capDoc (val : String) : List FlatLine :=
  [.header "manual".toList 0, .entry 1 0 "cap".toList val.toList (.comment 0 " percent".toList),
    .header "strategy".toList 0, .blank 0]

private def capText (val : String) : String :=
  "manual:\n  cap: " ++ val ++ " # percent\nstrategy:\n"

private def capLoad (val : String) : String → Except YamlError Yaml :=
  knowing (capText val) (blocksOf ((capDoc val).map FlatLine.line))

private theorem straight_half :
    Straight (blocksOf ((shellLines (capText "0.5").toList).map shellLine)) := by
  have hblocks : blocksOf ((shellLines (capText "0.5").toList).map shellLine) =
      [("manual".toList, [("cap".toList, "0.5".toList)]), ("strategy".toList, [])] := by
    decide +kernel
  have hform : formOf "0.5".toList = .float := by decide +kernel
  have hsame : SameNumber "0.5".toList := by
    unfold SameNumber
    rw [hform]
    exact ⟨by decide, 1 / 2, by decide +kernel, by decide +kernel⟩
  rw [hblocks]
  refine ⟨by decide +kernel, by decide +kernel, fun b hb key val hval => ?_⟩
  have hall : ∀ b ∈ [("manual".toList, [("cap".toList, "0.5".toList)]), ("strategy".toList, [])],
      ∀ e ∈ lastBlock [("manual".toList, [("cap".toList, "0.5".toList)]), ("strategy".toList, [])]
        b.1, e.2 = "0.5".toList := by decide +kernel
  rw [show val = "0.5".toList from hall b hb _ (lastOf_mem hval)]
  exact hsame

theorem agree_iff_half : ∃ env rules, loadRulesSh (capText "0.5") = some env ∧
    Rules.load noTexts (capLoad "0.5") (deskOf (capText "0.5")) = .ok rules ∧ Agree env rules := by
  have hflat : ReadsFlat noTexts (capLoad "0.5") :=
    readsFlat_knowing (by decide +kernel) (by decide +kernel)
  have hquiet : Quiet (capText "0.5").toList := by
    unfold Quiet
    decide +kernel
  have hshell : loadRulesSh (capText "0.5") = some [("RULE_manual_cap", "0.5")] := by
    decide +kernel
  have hengine : Rules.load noTexts (capLoad "0.5") (deskOf (capText "0.5")) =
      .ok ⟨[(.str "cap", .finite (1 / 2))], []⟩ := by
    decide +kernel
  exact ⟨_, _, hshell, hengine, (agree_iff hflat rfl hquiet hshell hengine).mpr straight_half⟩

/-- A cap of `035` is 35 percent to the order gate, and 29 to the engine. -/
theorem loaders_disagree : ∃ env rules, ReadsFlat noTexts (capLoad "035") ∧
    loadRulesSh (capText "035") = some env ∧
    Rules.load noTexts (capLoad "035") (deskOf (capText "035")) = .ok rules ∧
    (ruleGet env "manual_cap").bind shellNumber = some 35 ∧
    (rules.table "manual").lookup (.str "cap") = some (.finite 29) ∧ ¬ Agree env rules := by
  refine ⟨[("RULE_manual_cap", "035")], ⟨[(.str "cap", .finite 29)], []⟩,
    readsFlat_knowing (by decide +kernel) (by decide +kernel), by decide +kernel,
    by decide +kernel, by decide +kernel, by decide, fun h => ?_⟩
  obtain ⟨val, q, hget, hq, hnumber⟩ := h.values "manual" (by decide) "cap" (.finite 29) (by decide)
  have hval : ruleGet [("RULE_manual_cap", "035")] "manual_cap" = some "035" := by decide +kernel
  obtain rfl : "035" = val := Option.some.inj (hval.symm.trans hget)
  have hshell : shellNumber "035" = some 35 := by decide +kernel
  cases hq
  rw [hshell] at hnumber
  exact absurd (Option.some.inj hnumber) (by decide)

end TradeDesk.RuleFile
