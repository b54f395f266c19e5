import TradeDesk.Files.Volume
import TradeDesk.JsonText.Spelling

/-!
# The token file

`engine/tc/broker/token.py`: one file with the token schwab-py reads and
refreshes. It is only ever replaced whole, by way of a private temporary
file; a file that is no token is moved aside under a name of its own, so
that what was wrong with it can be looked at.

Writes come from a refresh (`write`) and from the callback of a login
(`completeAuth`). Any of them may be stopped at any operation, by an error or
by the end of the process, and the power may go at any time. `Story.known`
is what can then be in the token file: after a write that returned only its
text, after one that was stopped also what could be there before.

One writer at a time: two would share the temporary file. What schwab-py
does with the network is left to the acts' arguments, the umask is taken to
spare the owner's bits, and a file that is not UTF-8 is one more text that
is no JSON.
-/

namespace TradeDesk.Broker

open TradeDesk.Files TradeDesk.Lists TradeDesk.JsonText

def tokenFile : String := "token.json"
def ctxFile : String := "auth-context.json"
def tmpOf (name : String) : String := name ++ ".tmp"

/-- The names a writer opens. -/
def temps : List String := [tmpOf tokenFile, tmpOf ctxFile]

/-- `0o600`. -/
def privateMode : ℕ := 384

/-! ## Reading -/

/-- `json.loads`. -/
def loads (depth : ℕ) (text : List Char) : Except Fault Value :=
  match rawDecode depth (skipBlanks text) with
  | .error f => .error f
  | .ok (value, rest) => if skipBlanks rest = [] then .ok value else .error .malformed

/-- The metadata schwab-py needs: a creation time that is a number and not a
Boolean, and a token. -/
def tokenOf : Value → Option (List (List ℕ × Value))
  | .obj items =>
    match lookup items "creation_timestamp", lookup items "token" with
    | some (.int _), some _ => some items
    | some (.float _), some _ => some items
    | _, _ => none
  | _ => none

/-- What is made of a text: a token, a text to be moved aside, or an error
that `read` does not catch (`RecursionError`). -/
inductive Parsed where
  | token (items : List (List ℕ × Value))
  | corrupt
  | raises

def parse (depth : ℕ) (text : List Char) : Parsed :=
  match loads depth text with
  | .error .depth => .raises
  | .error .malformed => .corrupt
  | .error .digits => .corrupt
  | .ok value =>
    match tokenOf value with
    | some items => .token items
    | none => .corrupt

/-- `base`, `base-1`, `base-2` and so on. -/
def numbered (base : String) : ℕ → String
  | 0 => base
  | n + 1 => base ++ "-" ++ toString (n + 1)

/-- `while dest.exists()`. -/
def freeFrom (d : Directory) (base : String) : ℕ → ℕ → String
  | 0, n => numbered base n
  | fuel + 1, n => if d.has (numbered base n) then freeFrom d base fuel (n + 1) else numbered base n

/-- There are not more names taken than names. -/
def freeName (d : Directory) (base : String) : String := freeFrom d base d.items.length 0

/-- The name for what was found corrupt in this second. -/
def corruptName (d : Directory) (now : ℤ) : String :=
  freeName d (tokenFile ++ ".corrupt-" ++ toString now)

/-- What `read` answers: it raises only what it does not catch. -/
inductive ReadResult where
  | absent
  | found (items : List (List ℕ × Value))
  | raises

/-- `TokenStore.read`. The file may not be readable, and may not be movable. -/
def read (depth : ℕ) (v : Volume) (now : ℤ) (readable movable : Bool) : ReadResult × Volume :=
  match v.found v.dir tokenFile with
  | none => (.absent, v)
  | some (text, _) =>
    if readable then
      match parse depth text with
      | .token items => (.found items, v)
      | .raises => (.raises, v)
      | .corrupt => (.absent, if movable then v.rename tokenFile (corruptName v.dir now) else v)
    else (.absent, v)

/-! ## Writing -/

/-- `_write_private`. -/
def writePrivate (v : Volume) (path : String) (text : List Char) (stop : Option ℕ) : Volume :=
  replaceFile v path (tmpOf path) privateMode text stop

/-- What is done with the file, and to it. `answer` is the token the exchange
ends with, if it does; a `tamper` is somebody else's edit. -/
inductive Act where
  | write (text : List Char) (stop : Option ℕ)
  | beginAuth (ctx : List Char) (stop : Option ℕ)
  | completeAuth (answer : Option (List Char)) (stop : Option ℕ)
  | read (now : ℤ) (readable movable : Bool)
  | tamper (text : List Char) (mode : ℕ)
  | powerCut (n : ℕ) (left : ℕ → List Char × ℕ)

/-- The volume, what can be in the token file, and what was moved aside. -/
structure Story where
  volume : Volume
  known : List Found
  aside : List (String × List Char)

/-- What a write makes known. -/
def knownAfter (known : List Found) (text : List Char) (stop : Option ℕ) : List Found :=
  match stop with
  | none => [some (text, privateMode)]
  | some _ => some (text, privateMode) :: known

/-- What a read moves aside, and where to. -/
def movedAside (depth : ℕ) (v : Volume) (now : ℤ) (readable movable : Bool) :
    Option (String × List Char) :=
  match v.found v.dir tokenFile with
  | none => none
  | some (text, _) =>
    match parse depth text with
    | .corrupt => if readable && movable then some (corruptName v.dir now, text) else none
    | .token _ => none
    | .raises => none

def Story.step (depth : ℕ) (s : Story) : Act → Story
  | .write text stop =>
    { s with volume := writePrivate s.volume tokenFile text stop
             known := knownAfter s.known text stop }
  | .beginAuth ctx stop => { s with volume := writePrivate s.volume ctxFile ctx stop }
  | .completeAuth answer stop =>
    match s.volume.dir.has ctxFile, answer with
    | true, some text =>
      let written := writePrivate s.volume tokenFile text stop
      { s with volume := if stop = none then written.unlink ctxFile else written
               known := knownAfter s.known text stop }
    | _, _ => s
  | .read now readable movable =>
    match movedAside depth s.volume now readable movable with
    | some found =>
      { volume := (read depth s.volume now readable movable).2
        known := none :: s.known
        aside := s.aside ++ [found] }
    | none => { s with volume := (read depth s.volume now readable movable).2 }
  | .tamper text mode =>
    match s.volume.dir.get? tokenFile with
    | some i => { s with volume := s.volume.alter i fun _ => ⟨text, mode, false⟩ }
    | none => s
  | .powerCut n left =>
    match s.volume.kept[n]? with
    | some d => { s with volume := s.volume.cut d left }
    | none => s

def Story.run (depth : ℕ) (s : Story) (acts : List Act) : Story := acts.foldl (Story.step depth) s

/-! ## Names -/

private theorem numbered_toList (base : String) (n : ℕ) :
    (numbered base (n + 1)).toList = base.toList ++ '-' :: Nat.toDigits 10 (n + 1) := by
  show (base ++ "-" ++ toString (n + 1)).toList = _
  have htext : (toString (n + 1)).toList = Nat.toDigits 10 (n + 1) := Nat.toList_repr
  rw [String.toList_append, String.toList_append, List.append_assoc, htext]
  rfl

theorem numbered_injective (base : String) : Function.Injective (numbered base) := by
  intro n m h
  have hlist := congrArg String.toList h
  cases n with
  | zero =>
    cases m with
    | zero => rfl
    | succ m =>
      rw [numbered_toList] at hlist
      have hlen := congrArg List.length hlist
      simp [numbered] at hlen
  | succ n =>
    cases m with
    | zero =>
      rw [numbered_toList] at hlist
      have hlen := congrArg List.length hlist
      simp [numbered] at hlen
    | succ m =>
      rw [numbered_toList, numbered_toList] at hlist
      have hdigits := (List.cons.inj (List.append_cancel_left hlist)).2
      rw [← (toDigits_read (n + 1)).1, hdigits, (toDigits_read (m + 1)).1]

theorem freeFrom_free {d : Directory} {base : String} {fuel n m : ℕ} (hn : n ≤ m)
    (hm : m ≤ n + fuel) (hfree : d.has (numbered base m) = false) :
    d.has (freeFrom d base fuel n) = false := by
  induction fuel generalizing n with
  | zero =>
    obtain rfl : m = n := by omega
    exact hfree
  | succ fuel ih =>
    unfold freeFrom
    split
    next htaken =>
      have hne : m ≠ n := by
        rintro rfl
        rw [hfree] at htaken
        cases htaken
      exact ih (by omega) (by omega)
    next hfree => simpa using hfree

/-- The name that is found is not taken. -/
theorem freeName_free (d : Directory) (base : String) : d.has (freeName d base) = false := by
  obtain ⟨m, hm, hfree⟩ : ∃ m ≤ d.items.length, d.has (numbered base m) = false := by
    by_contra hnone
    have htaken : ∀ m ≤ d.items.length, numbered base m ∈ d.keys := by
      intro m hm
      rw [Dict.mem_keys_iff]
      by_contra hfree
      exact hnone ⟨m, hm, by simpa [Dict.has] using hfree⟩
    have hsub : (List.range (d.items.length + 1)).map (numbered base) ⊆ d.keys := by
      intro name hname
      obtain ⟨m, hm, rfl⟩ := List.mem_map.mp hname
      rw [List.mem_range] at hm
      exact htaken m (by omega)
    have hle := ((List.nodup_range.map (numbered_injective base)).subperm hsub).length_le
    rw [List.length_map, List.length_range, Dict.keys, List.length_map] at hle
    omega
  exact freeFrom_free (Nat.zero_le _) (by omega) hfree

private theorem freeFrom_numbered (d : Directory) (base : String) (fuel n : ℕ) :
    ∃ m, freeFrom d base fuel n = numbered base m := by
  induction fuel generalizing n with
  | zero => exact ⟨n, rfl⟩
  | succ fuel ih =>
    unfold freeFrom
    split
    · exact ih (n + 1)
    · exact ⟨n, rfl⟩

/-- What is moved aside gets a name of its own. -/
theorem corruptName_other (d : Directory) (now : ℤ) :
    corruptName d now ≠ tokenFile ∧ corruptName d now ≠ ctxFile ∧ corruptName d now ∉ temps := by
  obtain ⟨m, hm⟩ := freeFrom_numbered d (tokenFile ++ ".corrupt-" ++ toString now) d.items.length 0
  obtain ⟨rest, hrest⟩ : ∃ rest, (corruptName d now).toList = "token.json.c".toList ++ rest := by
    unfold corruptName freeName
    rw [hm]
    cases m with
    | zero => exact ⟨_, by simp only [numbered, tokenFile, String.toList_append]; rfl⟩
    | succ m =>
      rw [numbered_toList]
      exact ⟨_, by simp only [tokenFile, String.toList_append]; rfl⟩
  have hne : ∀ name : String, ¬ "token.json.c".toList <+: name.toList →
      corruptName d now ≠ name := by
    intro name hname heq
    exact hname ⟨rest, by rw [← hrest, heq]⟩
  refine ⟨hne _ (by decide), hne _ (by decide), ?_⟩
  intro hmem
  unfold temps at hmem
  rcases List.mem_cons.mp hmem with heq | hmem
  · exact hne _ (by decide) heq
  · exact hne _ (by decide) (List.mem_singleton.mp hmem)

theorem tokenFile_closed : tokenFile ∉ temps := by decide
theorem ctxFile_closed : ctxFile ∉ temps := by decide

/-! ## What the token file holds -/

variable {depth : ℕ} {s : Story}

/-- A read changes the volume by what it moves aside. -/
theorem read_volume (depth : ℕ) (v : Volume) (now : ℤ) (readable movable : Bool) :
    (read depth v now readable movable).2 =
      match movedAside depth v now readable movable with
      | some found => v.rename tokenFile found.1
      | none => v := by
  unfold read movedAside
  cases v.found v.dir tokenFile with
  | none => rfl
  | some found =>
    dsimp only
    cases readable with
    | false => cases parse depth found.1 <;> rfl
    | true =>
      cases parse depth found.1 with
      | token items => rfl
      | raises => rfl
      | corrupt => cases movable <;> rfl

/-- What a read moves aside was in the token file, and gets a free name. -/
theorem movedAside_spec {v : Volume} {now : ℤ} {readable movable : Bool}
    {found : String × List Char} (h : movedAside depth v now readable movable = some found) :
    found.1 = corruptName v.dir now ∧
      ∃ i x, v.dir.get? tokenFile = some i ∧ v.inodes[i]? = some x ∧ x.text = found.2 := by
  unfold movedAside at h
  split at h
  · cases h
  next text mode hfound =>
    split at h
    · split at h
      · obtain rfl := Option.some.inj h
        obtain ⟨x, hx, heq⟩ := Option.map_eq_some_iff.mp hfound
        obtain ⟨i, hi, hget⟩ := Option.bind_eq_some_iff.mp hx
        exact ⟨rfl, i, x, hi, hget, (Prod.mk.inj heq).1⟩
      · cases h
    · cases h
    · cases h

/-- In every directory that may be left, the token file is as it is known. -/
def Story.Known (s : Story) : Prop := Sound temps tokenFile (· ∈ s.known) s.volume

/-- Not somebody else's edit. -/
def Act.Own : Act → Prop
  | .tamper _ _ => False
  | _ => True

theorem Story.Known.write (hs : s.Known) (text : List Char) (stop : Option ℕ) :
    Sound temps tokenFile (· ∈ knownAfter s.known text stop)
      (writePrivate s.volume tokenFile text stop) := by
  have htmp : tmpOf tokenFile ∈ temps := by decide
  have hwritten := Sound.replaceFile hs htmp tokenFile_closed privateMode text stop
  refine hwritten.mono fun f hf => ?_
  cases stop with
  | none => exact List.mem_singleton.mpr (hf.resolve_left fun h => h.1 rfl)
  | some k => exact List.mem_cons.mpr (hf.symm.imp id And.right)

theorem Story.Known.step (hs : s.Known) {a : Act} (ha : a.Own) : (s.step depth a).Known := by
  unfold Story.step
  -- one case an act: a write is known by what it installs, the others add nothing but an absence
  cases a with
  | write text stop => exact hs.write text stop
  | beginAuth ctx stop =>
    exact Sound.replaceOther hs (by decide) tokenFile_closed ctxFile_closed (by decide) _ _ _
  | completeAuth answer stop =>
    dsimp only
    split
    next text _ =>
      have hwritten := hs.write text stop
      unfold Story.Known
      dsimp only
      split
      · exact hwritten.unlink tokenFile_closed (by decide)
      · exact hwritten
    next => exact hs
  | read now readable movable =>
    have hvolume := read_volume depth s.volume now readable movable
    dsimp only
    split
    next found hfound =>
      rw [hfound] at hvolume
      unfold Story.Known
      dsimp only
      rw [hvolume]
      obtain ⟨hne, -, hclosed⟩ : found.1 ≠ tokenFile ∧ found.1 ≠ ctxFile ∧ found.1 ∉ temps := by
        rw [(movedAside_spec hfound).1]
        exact corruptName_other _ _
      exact (hs.rename_away tokenFile_closed hclosed hne).mono fun f hf =>
        List.mem_cons.mpr (hf.symm.imp id id)
    next hnone =>
      rw [hnone] at hvolume
      unfold Story.Known
      dsimp only
      rw [hvolume]
      exact hs
  | tamper text mode => exact ha.elim
  | powerCut n left =>
    dsimp only
    split
    next d hd => exact hs.cut tokenFile_closed (List.mem_of_getElem? hd) left
    next => exact hs

theorem Story.Known.run (hs : s.Known) {acts : List Act} (hacts : ∀ a ∈ acts, a.Own) :
    (s.run depth acts).Known := by
  unfold Story.run
  induction acts generalizing s with
  | nil => exact hs
  | cons a acts ih =>
    rw [List.foldl_cons]
    exact ih (hs.step (hacts a List.mem_cons_self)) fun a ha => hacts a (List.mem_cons_of_mem _ ha)

/-! ## Tokens survive -/

def Parsed.isToken : Parsed → Bool
  | .token _ => true
  | .corrupt => false
  | .raises => false

def IsToken (depth : ℕ) (text : List Char) : Prop := (parse depth text).isToken = true

/-- What an act would put into the token file. -/
def Act.installs : Act → Option (List Char)
  | .write text _ => some text
  | .completeAuth answer _ => answer
  | .beginAuth _ _ => none
  | .read _ _ _ => none
  | .tamper _ _ => none
  | .powerCut _ _ => none

/-- What is installed is a token. -/
def Act.Whole (depth : ℕ) (a : Act) : Prop :=
  a.Own ∧ ∀ text, a.installs = some text → IsToken depth text

/-- All that is known is a token, in a private file. -/
def Story.Whole (depth : ℕ) (s : Story) : Prop :=
  ∀ text mode, some (text, mode) ∈ s.known → mode = privateMode ∧ IsToken depth text

/-- What is known after an act was known, or is what the act installs. -/
theorem known_step (a : Act) (f : Found) (hf : f ∈ (s.step depth a).known) :
    f ∈ s.known ∨ (∃ text, a.installs = some text ∧ f = some (text, privateMode)) ∨
      (f = none ∧ ∃ now readable movable found, a = .read now readable movable ∧
        movedAside depth s.volume now readable movable = some found) := by
  have hafter : ∀ text stop, f ∈ knownAfter s.known text stop →
      f ∈ s.known ∨ f = some (text, privateMode) := by
    intro text stop hf
    cases stop with
    | none => exact Or.inr (List.mem_singleton.mp hf)
    | some k => exact (List.mem_cons.mp hf).symm
  unfold Story.step at hf
  cases a with
  | write text stop =>
    rcases hafter text stop hf with hold | hnew
    · exact Or.inl hold
    · exact Or.inr (Or.inl ⟨text, rfl, hnew⟩)
  | beginAuth ctx stop => exact Or.inl hf
  | completeAuth answer stop =>
    dsimp only at hf
    split at hf
    next text _ =>
      rcases hafter text stop hf with hold | hnew
      · exact Or.inl hold
      · exact Or.inr (Or.inl ⟨text, rfl, hnew⟩)
    next => exact Or.inl hf
  | read now readable movable =>
    dsimp only at hf
    split at hf
    next found hfound =>
      rcases List.mem_cons.mp hf with hnone | hold
      · exact Or.inr (Or.inr ⟨hnone, now, readable, movable, found, rfl, hfound⟩)
      · exact Or.inl hold
    next => exact Or.inl hf
  | tamper text mode =>
    dsimp only at hf
    split at hf <;> exact Or.inl hf
  | powerCut n left =>
    dsimp only at hf
    split at hf <;> exact Or.inl hf

/-- A token is not moved aside. -/
theorem Story.Known.stays (hs : s.Known) (hwhole : s.Whole depth) (now : ℤ)
    (readable movable : Bool) : movedAside depth s.volume now readable movable = none := by
  have hfound := hs.found hs.here
  unfold movedAside
  cases h : s.volume.found s.volume.dir tokenFile with
  | none => rfl
  | some found =>
    rw [h] at hfound
    obtain ⟨-, htoken⟩ := hwhole _ _ hfound
    unfold IsToken at htoken
    dsimp only
    cases hparse : parse depth found.1 with
    | token items => rfl
    | raises => rfl
    | corrupt =>
      rw [hparse] at htoken
      cases htoken

theorem Story.Whole.step (hwhole : s.Whole depth) (hs : s.Known) {a : Act}
    (ha : a.Whole depth) : (s.step depth a).Whole depth ∧ (s.step depth a).aside = s.aside := by
  constructor
  · intro text mode hf
    rcases known_step a _ hf with hold | ⟨text', hinstalls, heq⟩ | ⟨hnone, -⟩
    · exact hwhole text mode hold
    · cases heq
      exact ⟨rfl, ha.2 _ hinstalls⟩
    · cases hnone
  · unfold Story.step
    cases a with
    | write text stop => rfl
    | beginAuth ctx stop => rfl
    | completeAuth answer stop =>
      dsimp only
      split <;> rfl
    | read now readable movable =>
      dsimp only
      rw [hs.stays hwhole]
    | tamper text mode => exact ha.1.elim
    | powerCut n left =>
      dsimp only
      split <;> rfl

private theorem whole_run {acts : List Act} (hs : s.Known) (hwhole : s.Whole depth)
    (hacts : ∀ a ∈ acts, a.Whole depth) :
    (s.run depth acts).Known ∧ (s.run depth acts).Whole depth ∧
      (s.run depth acts).aside = s.aside ∧
      ∀ f ∈ (s.run depth acts).known, f ∈ s.known ∨
        ∃ a ∈ acts, ∃ text, a.installs = some text ∧ f = some (text, privateMode) := by
  unfold Story.run
  induction acts generalizing s with
  | nil => exact ⟨hs, hwhole, rfl, fun f hf => Or.inl hf⟩
  | cons a acts ih =>
    have ha := hacts a List.mem_cons_self
    obtain ⟨hwhole', haside⟩ := hwhole.step hs ha
    obtain ⟨hk, hw, hsame, hfrom⟩ := ih (hs.step ha.1) hwhole'
      fun a ha => hacts a (List.mem_cons_of_mem _ ha)
    rw [List.foldl_cons]
    refine ⟨hk, hw, hsame.trans haside, fun f hf => ?_⟩
    rcases hfrom f hf with hstep | ⟨b, hb, htext⟩
    -- nothing is moved aside while all that is known is a token
    · rcases known_step a f hstep with
        hold | ⟨text, hnew⟩ | ⟨-, now, readable, movable, found, -, hm⟩
      · exact Or.inl hold
      · exact Or.inr ⟨a, List.mem_cons_self, text, hnew⟩
      · rw [hs.stays hwhole] at hm
        cases hm
    · exact Or.inr ⟨b, List.mem_cons_of_mem _ hb, htext⟩

/-- **No crash tears the token.** Whatever is stopped and wherever the power
goes, each directory that may be left has under `token.json` what was there
to begin with or a whole token that was being installed, for its owner only;
so nothing is ever moved aside. -/
theorem token_survives {acts : List Act} (hs : s.Known) (hwhole : s.Whole depth)
    (hacts : ∀ a ∈ acts, a.Whole depth) :
    (∀ d ∈ (s.run depth acts).volume.kept,
      ((s.run depth acts).volume.found d tokenFile ∈ s.known ∨ ∃ a ∈ acts, ∃ text,
        a.installs = some text ∧
          (s.run depth acts).volume.found d tokenFile = some (text, privateMode)) ∧
      ∀ text mode, (s.run depth acts).volume.found d tokenFile = some (text, mode) →
        mode = privateMode ∧ IsToken depth text) ∧
    (s.run depth acts).aside = s.aside := by
  obtain ⟨hk, hw, haside, hfrom⟩ := whole_run hs hwhole hacts
  refine ⟨fun d hd => ⟨hfrom _ (hk.found hd), fun text mode heq => ?_⟩, haside⟩
  have hfound := hk.found hd
  rw [heq] at hfound
  exact hw text mode hfound

/-- A box with no token yet. -/
def coldStart : Story := ⟨⟨[], Dict.empty, [Dict.empty]⟩, [none], []⟩

theorem coldStart_known : coldStart.Known := Sound.empty List.mem_cons_self

theorem coldStart_whole : coldStart.Whole depth := by
  intro text mode hf
  cases List.mem_singleton.mp hf

def firstToken : List Char := "\x7b\"creation_timestamp\": 1, \"token\": \x7b\x7d\x7d".toList

theorem firstToken_token : IsToken 2 firstToken :=
  show (parse 2 firstToken).isToken = true by decide +kernel

theorem token_survives_stop :
    (∀ d ∈ (coldStart.run 2
        [.write firstToken (some 20), .powerCut 0 fun _ => ([], 0)]).volume.kept,
      ((coldStart.run 2 [.write firstToken (some 20),
          .powerCut 0 fun _ => ([], 0)]).volume.found d tokenFile ∈ coldStart.known ∨
        ∃ a ∈ [Act.write firstToken (some 20), .powerCut 0 fun _ => ([], 0)], ∃ text,
          a.installs = some text ∧ (coldStart.run 2 [.write firstToken (some 20),
            .powerCut 0 fun _ => ([], 0)]).volume.found d tokenFile = some (text, privateMode)) ∧
      ∀ text mode, (coldStart.run 2 [.write firstToken (some 20),
          .powerCut 0 fun _ => ([], 0)]).volume.found d tokenFile = some (text, mode) →
        mode = privateMode ∧ IsToken 2 text) ∧
    (coldStart.run 2 [.write firstToken (some 20), .powerCut 0 fun _ => ([], 0)]).aside =
      coldStart.aside := by
  refine token_survives coldStart_known coldStart_whole fun a ha => ?_
  rcases List.mem_cons.mp ha with rfl | ha
  · exact ⟨trivial, fun text heq => Option.some.inj heq ▸ firstToken_token⟩
  · rw [List.mem_singleton.mp ha]
    exact ⟨trivial, fun text heq => by cases heq⟩

/-- The act puts the text into the token file and returns. -/
def Story.Installs (s : Story) (a : Act) (text : List Char) : Prop :=
  a = .write text none ∨ (a = .completeAuth (some text) none ∧ s.volume.dir.has ctxFile = true)

theorem Story.Installs.known {a : Act} {text : List Char} (h : s.Installs a text) :
    (s.step depth a).known = [some (text, privateMode)] := by
  rcases h with rfl | ⟨rfl, hctx⟩
  · rfl
  · unfold Story.step
    rw [hctx]
    rfl

/-- **An installed token is not lost.** Once a write has returned, its token
is in the file until another is being installed: in every directory that may
be left, whatever else is stopped and however often the power goes. -/
theorem installed_survives {before later : List Act} {a : Act} {text : List Char} (hs : s.Known)
    (hwhole : s.Whole depth) (hacts : ∀ b ∈ before ++ a :: later, b.Whole depth)
    (ha : (s.run depth before).Installs a text) (hlater : ∀ b ∈ later, b.installs = none) :
    ∀ d ∈ (s.run depth (before ++ a :: later)).volume.kept,
      (s.run depth (before ++ a :: later)).volume.found d tokenFile =
        some (text, privateMode) := by
  have hbefore : ∀ b ∈ before, b.Whole depth := fun b hb => hacts b (List.mem_append_left _ hb)
  have hafter : ∀ b ∈ later, b.Whole depth := fun b hb => hacts b (by simp [hb])
  obtain ⟨hk, hw, -⟩ := whole_run hs hwhole hbefore
  have hnow := hacts a (by simp)
  obtain ⟨hk', -, -, hfrom⟩ := whole_run (hk.step hnow.1) (hw.step hk hnow).1 hafter
  have hrun : s.run depth (before ++ a :: later) =
      ((s.run depth before).step depth a).run depth later := by
    unfold Story.run
    rw [List.foldl_append, List.foldl_cons]
  rw [hrun]
  intro d hd
  -- once it has returned, its text is all that is known
  rcases hfrom _ (hk'.found hd) with hold | ⟨b, hb, text', hinstalls, -⟩
  · rw [ha.known] at hold
    exact List.mem_singleton.mp hold
  · rw [hlater b hb] at hinstalls
    cases hinstalls

theorem installed_survives_cut : ∃ v, (coldStart.run 2 ([] ++ .write firstToken none ::
      [.powerCut 0 fun _ => ([], 0)])).volume = v ∧
    ∀ d ∈ v.kept, v.found d tokenFile = some (firstToken, privateMode) := by
  refine ⟨_, rfl, installed_survives coldStart_known coldStart_whole (fun a ha => ?_)
    (Or.inl rfl) ?_⟩
  · rcases List.mem_cons.mp ha with rfl | ha
    · exact ⟨trivial, fun text heq => Option.some.inj heq ▸ firstToken_token⟩
    · rw [List.mem_singleton.mp ha]
      exact ⟨trivial, fun text heq => by cases heq⟩
  · intro a ha
    rw [List.mem_singleton.mp ha]
    rfl

/-! ## Evidence stays -/

/-- What was moved aside is where it was put, each file under a name of its
own. -/
structure Story.Filed (s : Story) : Prop where
  neat : Neat s.volume
  own : ∀ e ∈ s.aside, e.1 ≠ tokenFile ∧ e.1 ≠ ctxFile ∧ e.1 ∉ temps
  kept : ∀ e ∈ s.aside, ∃ i x, s.volume.dir.get? e.1 = some i ∧ s.volume.inodes[i]? = some x ∧
    x.text = e.2
  distinct : (s.aside.map Prod.fst).Nodup

def Act.NoCut : Act → Prop
  | .powerCut _ _ => False
  | _ => True

/-- Files that are not touched stay filed. -/
theorem Story.Filed.untouched {v : Volume} {known : List Found} (hs : s.Filed) (hneat : Neat v)
    (hsame : ∀ name, name ≠ tokenFile → name ≠ ctxFile → name ∉ temps →
      Unmoved name s.volume v) : Story.Filed ⟨v, known, s.aside⟩ := by
  refine ⟨hneat, hs.own, fun e he => ?_, hs.distinct⟩
  obtain ⟨htoken, hctx, htemp⟩ := hs.own e he
  obtain ⟨i, x, hi, hx, htext⟩ := hs.kept e he
  obtain ⟨hi', hx'⟩ := hsame e.1 htoken hctx htemp i x hi hx
  exact ⟨i, x, hi', hx', htext⟩

theorem writePrivate_untouched {v : Volume} (hneat : Neat v) {path : String}
    (hpath : path = tokenFile ∨ path = ctxFile) (text : List Char) (stop : Option ℕ) :
    Neat (writePrivate v path text stop) ∧
      ∀ name, name ≠ tokenFile → name ≠ ctxFile → name ∉ temps →
        Unmoved name v (writePrivate v path text stop) := by
  obtain ⟨hneat', hsame⟩ := hneat.replaceFile path (tmpOf path) privateMode text stop
  refine ⟨hneat', fun name htoken hctx htemp => hsame name ?_ ?_⟩
  · rcases hpath with rfl | rfl
    · exact htoken
    · exact hctx
  · rintro rfl
    apply htemp
    rcases hpath with rfl | rfl
    · exact List.mem_cons_self
    · exact List.mem_cons_of_mem _ List.mem_cons_self

/-- A text that is moved aside is filed: its name was free, so it is none of
those already filed. -/
theorem Story.Filed.moveAside (hs : s.Filed) {now : ℤ} {readable movable : Bool}
    {found : String × List Char}
    (hfound : movedAside depth s.volume now readable movable = some found)
    (known : List Found) :
    Story.Filed ⟨s.volume.rename tokenFile found.1, known, s.aside ++ [found]⟩ := by
  obtain ⟨hname, i, x, hi, hx, htext⟩ := movedAside_spec hfound
  obtain ⟨hneat, hsame⟩ := hs.neat.rename tokenFile found.1
  obtain ⟨hput, hinodes⟩ := Neat.renamed hi found.1
  have hfree : ∀ e ∈ s.aside, e.1 ≠ found.1 := by
    intro e he heq
    obtain ⟨j, y, hj, -⟩ := hs.kept e he
    have htaken := freeName_free s.volume.dir (tokenFile ++ ".corrupt-" ++ toString now)
    change s.volume.dir.has (corruptName s.volume.dir now) = false at htaken
    rw [← hname, ← heq, Dict.has, hj] at htaken
    cases htaken
  refine ⟨hneat, ?_, ?_, ?_⟩
  · intro e he
    rcases List.mem_append.mp he with he | he
    · exact hs.own e he
    · rw [List.mem_singleton.mp he, hname]
      exact corruptName_other _ _
  · intro e he
    dsimp only
    rcases List.mem_append.mp he with he | he
    · obtain ⟨j, y, hj, hy, hsametext⟩ := hs.kept e he
      obtain ⟨hj', hy'⟩ := hsame e.1 (hs.own e he).1 (hfree e he) j y hj hy
      exact ⟨j, y, hj', hy', hsametext⟩
    · rw [List.mem_singleton.mp he]
      refine ⟨i, x, hput, ?_, htext⟩
      rw [hinodes]
      exact hx
  · rw [List.map_append, List.map_singleton]
    refine List.Nodup.append hs.distinct (List.nodup_singleton _) ?_
    intro name hname' hmem
    obtain ⟨e, he, rfl⟩ := List.mem_map.mp hname'
    exact hfree e he (List.mem_singleton.mp hmem)

theorem Story.Filed.step (hs : s.Filed) {a : Act} (ha : a.NoCut) :
    (s.step depth a).Filed ∧ s.aside <+: (s.step depth a).aside := by
  unfold Story.step
  cases a with
  | write text stop =>
    obtain ⟨hneat, hsame⟩ := writePrivate_untouched hs.neat (Or.inl rfl) text stop
    exact ⟨hs.untouched hneat hsame, List.prefix_refl _⟩
  | beginAuth ctx stop =>
    obtain ⟨hneat, hsame⟩ := writePrivate_untouched hs.neat (Or.inr rfl) ctx stop
    exact ⟨hs.untouched hneat hsame, List.prefix_refl _⟩
  | completeAuth answer stop =>
    dsimp only
    split
    next text _ =>
      obtain ⟨hneat, hsame⟩ := writePrivate_untouched hs.neat (Or.inl rfl) text stop
      refine ⟨?_, List.prefix_refl _⟩
      split
      · obtain ⟨hneat', hsame'⟩ := hneat.unlink ctxFile
        exact hs.untouched hneat' fun name htoken hctx htemp =>
          (hsame name htoken hctx htemp).trans (hsame' name hctx)
      · exact hs.untouched hneat hsame
    next => exact ⟨hs, List.prefix_refl _⟩
  | read now readable movable =>
    have hvolume := read_volume depth s.volume now readable movable
    dsimp only
    split
    next found hfound =>
      rw [hfound] at hvolume
      rw [hvolume]
      exact ⟨hs.moveAside hfound _, List.prefix_append _ _⟩
    next hnone =>
      rw [hnone] at hvolume
      rw [hvolume]
      exact ⟨hs, List.prefix_refl _⟩
  | tamper text mode =>
    dsimp only
    split
    next i hi =>
      obtain ⟨hneat, hsame⟩ := hs.neat.alter hi fun _ => ⟨text, mode, false⟩
      exact ⟨hs.untouched hneat fun name htoken _ _ => hsame name htoken, List.prefix_refl _⟩
    next => exact ⟨hs, List.prefix_refl _⟩
  | powerCut n left => exact ha.elim

/-- **Evidence is never lost.** Over any acts, somebody else's edits with
them, a text that was once moved aside is still there, under a name no other
has. -/
theorem evidence_stays {acts : List Act} (hs : s.Filed) (hacts : ∀ a ∈ acts, a.NoCut) :
    s.aside <+: (s.run depth acts).aside ∧
    ((s.run depth acts).aside.map Prod.fst).Nodup ∧
    ∀ e ∈ (s.run depth acts).aside,
      ((s.run depth acts).volume.found (s.run depth acts).volume.dir e.1).map Prod.fst =
        some e.2 := by
  have hrun : (s.run depth acts).Filed ∧ s.aside <+: (s.run depth acts).aside := by
    unfold Story.run
    induction acts generalizing s with
    | nil => exact ⟨hs, List.prefix_refl _⟩
    | cons a acts ih =>
      obtain ⟨hstep, hpre⟩ : (s.step depth a).Filed ∧ s.aside <+: (s.step depth a).aside :=
        hs.step (hacts a List.mem_cons_self)
      obtain ⟨hfiled, hpre'⟩ := ih hstep fun a ha => hacts a (List.mem_cons_of_mem _ ha)
      exact ⟨hfiled, hpre.trans hpre'⟩
  obtain ⟨hfiled, hpre⟩ := hrun
  refine ⟨hpre, hfiled.distinct, fun e he => ?_⟩
  obtain ⟨i, x, hi, hx, htext⟩ := hfiled.kept e he
  unfold Volume.found
  rw [hi, Option.bind_some, hx]
  exact congrArg some htext

theorem evidence_stays_twice :
    coldStart.aside <+: (coldStart.run 2 [.write ['x'] none, .read 7 true true,
      .write ['y'] none, .read 7 true true]).aside ∧
    ((coldStart.run 2 [.write ['x'] none, .read 7 true true, .write ['y'] none,
      .read 7 true true]).aside.map Prod.fst).Nodup ∧
    ∀ e ∈ (coldStart.run 2 [.write ['x'] none, .read 7 true true, .write ['y'] none,
        .read 7 true true]).aside,
      ((coldStart.run 2 [.write ['x'] none, .read 7 true true, .write ['y'] none,
        .read 7 true true]).volume.found (coldStart.run 2 [.write ['x'] none, .read 7 true true,
          .write ['y'] none, .read 7 true true]).volume.dir e.1).map Prod.fst = some e.2 := by
  refine evidence_stays ⟨⟨?_, ?_⟩, ?_, ?_, List.nodup_nil⟩ ?_
  · intro a i hi
    cases hi
  · intro a b i hi
    cases hi
  · exact fun e he => by cases he
  · exact fun e he => by cases he
  · intro a ha
    simp only [List.mem_cons, List.not_mem_nil, or_false] at ha
    rcases ha with rfl | rfl | rfl | rfl <;> exact trivial

end TradeDesk.Broker
