import TradeDesk.Research.Ledgers
import TradeDesk.Store
import Mathlib.Data.List.Infix

/-!
# The token loop

`tc/loops/token.py` and the tables it keeps (`token_events`, `alerts`). A
check that finds the token dead or absent sees to it that one `token_dead`
alert is open, one that finds it fresh acknowledges them all, and a check
that finds it due, dead or absent posts once a day: what it has posted is
recorded under the Eastern date, and the next check looks for that text.

It is recorded only with a link, though. A check whose `begin_auth` fails
posts and records nothing, and so does the next: of the checks of a day and
a kind, those up to the first with a link are posted (`postedUpTo`).

The instants of the rows are left out, since nothing here reads them, and a
number of days is a rational that some format prints to one decimal.
-/

namespace TradeDesk.Loops

open TradeDesk.Research

/-! ## The token -/

inductive TokenState where
  | absent | fresh | reauthDue | dead
deriving DecidableEq, Repr

/-- The word a message has for a state. -/
def TokenState.text : TokenState → String
  | .absent => "absent"
  | .fresh => "fresh"
  | .reauthDue => "reauth_due"
  | .dead => "dead"

/-- `action_for`. -/
def actionFor : TokenState → String
  | .fresh => "none"
  | .reauthDue => "REAUTH NOW: tc auth-url, open on phone"
  | .dead => "DEAD — account is blind until re-auth"
  | .absent => "no token — run tc auth-url"

/-- What `TokenStore.status` answers. -/
structure TokenStatus where
  state : TokenState
  ageDays : Option ℚ
  daysUntilDead : Option ℚ
deriving DecidableEq

/-! ## The tables -/

structure TokenEvent where
  kind : String
  detail : String
deriving DecidableEq, Repr

structure Alert where
  id : ℕ
  kind : String
  message : String
  acked : Bool
deriving DecidableEq, Repr

structure TokenTables where
  events : List TokenEvent
  alerts : List Alert
deriving DecidableEq, Repr

namespace TokenTables

variable (t : TokenTables)

/-- The tables of a new store. -/
def empty : TokenTables := ⟨[], []⟩

/-- `record_token_event`. -/
def recordTokenEvent (kind detail : String) : TokenTables :=
  { t with events := t.events ++ [⟨kind, detail⟩] }

/-- `open_alert`. -/
def openAlert (kind message : String) : TokenTables :=
  { t with alerts := t.alerts ++ [⟨nextId (t.alerts.map (·.id)), kind, message, false⟩] }

/-- `ack_alert`. -/
def ackAlert (alertId : ℕ) : TokenTables :=
  { t with alerts := t.alerts.map fun a => if a.id = alertId then { a with acked := true } else a }

/-- `ack_alerts_of_kind`. -/
def ackAlertsOfKind (kind : String) : TokenTables :=
  { t with alerts := t.alerts.map fun a => if a.kind = kind then { a with acked := true } else a }

/-- `open_alerts`. -/
def openAlerts : List Alert := t.alerts.filter (!·.acked)

end TokenTables

/-- SQL's `LIKE`, on the characters of the pattern and of the text: `%` is
any text, `_` any character, and letters match in either case. -/
def like : List Char → List Char → Bool
  | [], cs => cs.isEmpty
  | p :: ps, cs =>
    if p = '%' then cs.tails.any (like ps)
    else match cs with
      | [] => false
      | c :: cs => (p = '_' || p.toLower == c.toLower) && like ps cs

/-- `_already_posted_today`. -/
def alreadyPostedToday (t : TokenTables) (kind : String) (etDate : IsoDate) : Bool :=
  t.events.any fun e => e.kind == kind && like (etDate.text ++ "%").toList e.detail.toList

/-! ## A check -/

/-- The Eastern date of an instant, and `.1f`. -/
structure TokenTexts where
  etDate : Instant → IsoDate
  oneDecimal : ℚ → String

/-- What a check meets: the token, the time, and the link `begin_auth` gives,
if it does not fail. -/
structure TokenCheck where
  status : TokenStatus
  now : Instant
  beginAuth : Option String

structure TokenReport where
  status : TokenStatus
  action : String
  authUrl : Option String
deriving DecidableEq

/-- What a check leaves: the tables, its report, and the text it posts. -/
structure Checked where
  tables : TokenTables
  report : TokenReport
  posted : Option String
deriving DecidableEq

section

variable (texts : TokenTexts)

/-- `_dud_clause`. -/
def dudClause (left : Option ℚ) (fallback : String) : String :=
  match left with
  | some left => texts.oneDecimal left ++ " days until dead"
  | none => fallback

/-- A dead or absent token has a `token_dead` alert. -/
def standingAlert (t : TokenTables) (status : TokenStatus) : TokenTables :=
  if status.state = .dead ∨ status.state = .absent then
    if t.openAlerts.any (·.kind == "token_dead") then t
    else t.openAlert "token_dead" ("Schwab token " ++ status.state.text ++
      ": the engine is BLIND. " ++ dudClause texts status.daysUntilDead "token absent" ++
      ". Run `tc auth-url`.")
  else t

/-- The kind a post is recorded under. -/
def dedupeKind (state : TokenState) : String :=
  if state = .reauthDue then "auth_url_posted" else "blind_posted"

def postText (status : TokenStatus) (url : Option String) : String :=
  let urlText := url.getD "(auth-url unavailable — see logs)"
  if status.state = .reauthDue then
    "🔑 Schwab re-auth due — " ++ dudClause texts status.daysUntilDead "n/a" ++
      ". Open on your phone (Tailscale on): " ++ urlText
  else "⛔ Schwab token " ++ status.state.text ++
    ": the engine is BLIND — no reconciliation, no watches, resting stops only. " ++
    dudClause texts status.daysUntilDead "token absent" ++ ". Re-auth: " ++ urlText

/-- `token_check`. -/
def tokenCheck (t : TokenTables) (c : TokenCheck) : Checked :=
  let report (url : Option String) : TokenReport := ⟨c.status, actionFor c.status.state, url⟩
  let etDate := texts.etDate c.now
  if c.status.state = .fresh then
    ⟨(t.recordTokenEvent "checked" etDate.text).ackAlertsOfKind "token_dead", report none, none⟩
  else
    let t := standingAlert texts t c.status
    let kind := dedupeKind c.status.state
    if alreadyPostedToday t kind etDate then ⟨t, report none, none⟩
    else
      let t := match c.beginAuth with
        | none => t.recordTokenEvent "auth_url_failed" etDate.text
        | some _ => t.recordTokenEvent kind (etDate.text ++ " " ++ c.status.state.text)
      ⟨t, report c.beginAuth, some (postText texts c.status c.beginAuth)⟩

/-! ## Runs -/

/-- A check, or an alert acknowledged by hand. -/
inductive TokenOp where
  | check (c : TokenCheck)
  | ack (alertId : ℕ)

/-- The tables, and the checks so far with what each left. -/
structure TokenRun where
  tables : TokenTables
  checks : List (TokenCheck × Checked)

def TokenRun.step (run : TokenRun) : TokenOp → TokenRun
  | .check c =>
    let r := tokenCheck texts run.tables c
    ⟨r.tables, run.checks ++ [(c, r)]⟩
  | .ack alertId => { run with tables := run.tables.ackAlert alertId }

/-- Any number of checks and acknowledgements, from an empty store. -/
def tokenRun (ops : List TokenOp) : TokenRun := ops.foldl (TokenRun.step texts) ⟨.empty, []⟩

end

/-! ## The standing alert -/

variable {texts : TokenTexts} {t : TokenTables} {c : TokenCheck} {kind : String}

/-- How many alerts of a kind are open. -/
def TokenTables.openOf (t : TokenTables) (kind : String) : ℕ :=
  t.openAlerts.countP (·.kind == kind)

theorem openOf_eq (t : TokenTables) (kind : String) :
    t.openOf kind = t.alerts.countP fun a => a.kind == kind && !a.acked := by
  unfold TokenTables.openOf TokenTables.openAlerts
  rw [List.countP_filter]

theorem openOf_openAlert (message : String) :
    (t.openAlert kind message).openOf kind = t.openOf kind + 1 := by
  rw [openOf_eq, openOf_eq]
  unfold TokenTables.openAlert
  rw [List.countP_append]
  simp

theorem openOf_ackAlert_le (alertId : ℕ) : (t.ackAlert alertId).openOf kind ≤ t.openOf kind := by
  rw [openOf_eq, openOf_eq]
  unfold TokenTables.ackAlert
  rw [List.countP_map]
  refine List.countP_mono_left fun a _ h => ?_
  by_cases hid : a.id = alertId
  · simp [hid] at h
  · simpa [hid] using h

theorem openOf_ackAlertsOfKind : (t.ackAlertsOfKind kind).openOf kind = 0 := by
  rw [openOf_eq]
  unfold TokenTables.ackAlertsOfKind
  rw [List.countP_map, List.countP_eq_zero]
  intro a _ h
  by_cases hkind : a.kind = kind
  · simp [hkind] at h
  · simp [hkind] at h

/-- A dead or absent token has its alert, and never a second one. -/
theorem openOf_standingAlert (status : TokenStatus) (hone : t.openOf "token_dead" ≤ 1) :
    (standingAlert texts t status).openOf "token_dead" ≤ 1 ∧
      (status.state = .dead ∨ status.state = .absent →
        (standingAlert texts t status).openOf "token_dead" = 1) := by
  unfold standingAlert
  by_cases hstate : status.state = .dead ∨ status.state = .absent
  · rw [if_pos hstate]
    by_cases hopen : t.openAlerts.any (·.kind == "token_dead") = true
    · rw [if_pos hopen]
      have hpos : 0 < t.openOf "token_dead" :=
        List.countP_pos_iff.mpr (List.any_eq_true.mp hopen)
      exact ⟨hone, fun _ => by omega⟩
    · rw [if_neg hopen, openOf_openAlert]
      have hzero : t.openOf "token_dead" = 0 := by
        refine List.countP_eq_zero.mpr fun a ha h => hopen ?_
        exact List.any_eq_true.mpr ⟨a, ha, h⟩
      rw [hzero]
      exact ⟨le_rfl, fun _ => rfl⟩
  · rw [if_neg hstate]
    exact ⟨hone, fun h => absurd h hstate⟩

/-- Where a check leaves the alerts. -/
theorem tokenCheck_alerts : (tokenCheck texts t c).tables.alerts =
    if c.status.state = .fresh then (t.ackAlertsOfKind "token_dead").alerts
    else (standingAlert texts t c.status).alerts := by
  unfold tokenCheck
  by_cases hfresh : c.status.state = .fresh
  · rw [if_pos hfresh, if_pos hfresh]
    rfl
  · rw [if_neg hfresh, if_neg hfresh]
    dsimp only
    split
    · rfl
    · cases c.beginAuth with
      | none => rfl
      | some url => rfl

/-- The alert answers what a check saw: one after a dead or absent token, none
after a fresh one. -/
def Answered (entry : TokenCheck × Checked) : Prop :=
  (entry.1.status.state = .dead ∨ entry.1.status.state = .absent →
    entry.2.tables.openOf "token_dead" = 1) ∧
  (entry.1.status.state = .fresh → entry.2.tables.openOf "token_dead" = 0)

/-- **One check** keeps the alert single, and answers. -/
theorem tokenCheck_answered (hone : t.openOf "token_dead" ≤ 1) :
    (tokenCheck texts t c).tables.openOf "token_dead" ≤ 1 ∧
      Answered (c, tokenCheck texts t c) := by
  have halerts : ∀ t' : TokenTables, (tokenCheck texts t c).tables.alerts = t'.alerts →
      (tokenCheck texts t c).tables.openOf "token_dead" = t'.openOf "token_dead" := by
    intro t' h
    rw [openOf_eq, openOf_eq, h]
  unfold Answered
  dsimp only
  by_cases hfresh : c.status.state = .fresh
  · rw [halerts _ (tokenCheck_alerts.trans (if_pos hfresh)), openOf_ackAlertsOfKind]
    refine ⟨by omega, fun h => ?_, fun _ => rfl⟩
    rw [hfresh] at h
    rcases h with h | h
    · cases h
    · cases h
  · rw [halerts _ (tokenCheck_alerts.trans (if_neg hfresh))]
    obtain ⟨hle, hstands⟩ := @openOf_standingAlert texts t c.status hone
    exact ⟨hle, hstands, fun h => absurd h hfresh⟩

/-! ## The text of a day -/

/-- A character of a date's text. -/
private def IsDateChar (c : Char) : Prop := c.isDigit = true ∨ c = '-'

private theorem IsDateChar.toNat_lt {d : Char} (hd : IsDateChar d) : d.toNat < 'A'.toNat := by
  rcases hd with hd | rfl
  · unfold Char.isDigit at hd
    rw [Bool.and_eq_true, decide_eq_true_iff, decide_eq_true_iff] at hd
    have hle : d.val.toNat ≤ 57 := UInt32.le_iff_toNat_le.mp hd.2
    have htoNat : d.toNat = d.val.toNat := rfl
    rw [htoNat]
    exact Nat.lt_of_le_of_lt hle (by decide)
  · decide

/-- Either case of a letter is none of them. -/
private theorem toLower_eq_iff {d c : Char} (hd : IsDateChar d) :
    d.toLower = c.toLower ↔ d = c := by
  have hlt := hd.toNat_lt
  have hself : d.toLower = d := by
    unfold Char.toLower
    rw [dif_neg]
    intro h
    have hge : 'A'.val.toNat ≤ d.val.toNat := UInt32.le_iff_toNat_le.mp h.1
    exact absurd hlt (Nat.not_lt.mpr hge)
  constructor
  · intro h
    rw [hself] at h
    by_cases hupper : c.val ≥ 'A'.val ∧ c.val ≤ 'Z'.val
    · exfalso
      unfold Char.toLower at h
      rw [dif_pos hupper] at h
      have hval : d.val.toNat = (c.val + 32).toNat := congrArg (fun c : Char => c.val.toNat) h
      have hge : 65 ≤ c.val.toNat := UInt32.le_iff_toNat_le.mp hupper.1
      have hle : c.val.toNat ≤ 90 := UInt32.le_iff_toNat_le.mp hupper.2
      have hsum : (c.val + 32).toNat = c.val.toNat + 32 := by
        rw [UInt32.toNat_add]
        exact Nat.mod_eq_of_lt (by
          have : (32 : UInt32).toNat = 32 := rfl
          omega)
      have hd65 : d.val.toNat < 65 := hlt
      omega
    · unfold Char.toLower at h
      rwa [dif_neg hupper] at h
  · rintro rfl
    rfl

private theorem like_cons {p c : Char} {ps cs : List Char} (h : p ≠ '%') :
    like (p :: ps) (c :: cs) = ((p = '_' || p.toLower == c.toLower) && like ps cs) := if_neg h

private theorem like_cons_nil {p : Char} {ps : List Char} (h : p ≠ '%') :
    like (p :: ps) [] = false := if_neg h

/-- A pattern of digits and dashes and a `%` matches what begins with them. -/
private theorem like_prefix : ∀ {ds : List Char}, (∀ d ∈ ds, IsDateChar d) → ∀ cs,
    like (ds ++ ['%']) cs = ds.isPrefixOf cs
  | [], _, cs => by
    show cs.tails.any (like []) = true
    exact List.any_eq_true.mpr ⟨[], (List.mem_tails _ _).mpr List.nil_suffix, rfl⟩
  | d :: ds, h, cs => by
    have hd := h d List.mem_cons_self
    have hpercent : d ≠ '%' := by
      rintro rfl
      revert hd
      unfold IsDateChar
      decide
    have hany : d ≠ '_' := by
      rintro rfl
      exact absurd hd.toNat_lt (by decide)
    rw [List.cons_append]
    cases cs with
    | nil => exact like_cons_nil hpercent
    | cons c cs =>
      have hchar : (d.toLower == c.toLower) = (d == c) := by
        rw [Bool.eq_iff_iff, beq_iff_eq, beq_iff_eq]
        exact toLower_eq_iff hd
      rw [like_cons hpercent, like_prefix (fun d hd => h d (List.mem_cons_of_mem _ hd)) cs, hchar,
        List.isPrefixOf_cons_cons, decide_eq_false hany, Bool.false_or]

private theorem date_chars (d : IsoDate) :
    d.text.toList.length = 10 ∧ ∀ c ∈ d.text.toList, IsDateChar c := by
  have hreal := d.real
  unfold realDate at hreal
  split at hreal
  next y3 y2 y1 y0 m1 m0 d1 d0 hchars =>
    rw [Bool.and_eq_true, List.all_eq_true] at hreal
    have hdigit := hreal.1
    rw [hchars]
    refine ⟨rfl, fun c hc => ?_⟩
    by_cases hdash : c = '-'
    · exact .inr hdash
    · exact .inl (hdigit c (by simp at hc ⊢; tauto))
  · cases hreal

/-- What is recorded of one day is not found on another. -/
theorem like_date (d d' : IsoDate) (word : String) :
    like (d.text ++ "%").toList (d'.text ++ " " ++ word).toList = decide (d' = d) := by
  obtain ⟨hlen, hchars⟩ := date_chars d
  obtain ⟨hlen', -⟩ := date_chars d'
  have hpattern : (d.text ++ "%").toList = d.text.toList ++ ['%'] := by simp
  have htext : (d'.text ++ " " ++ word).toList = d'.text.toList ++ (' ' :: word.toList) := by simp
  rw [hpattern, like_prefix hchars, htext, Bool.eq_iff_iff, List.isPrefixOf_iff_prefix,
    decide_eq_true_iff]
  constructor
  · intro h
    have htake := List.prefix_iff_eq_take.mp h
    rw [List.take_append_of_le_length (by omega), hlen, ← hlen', List.take_length] at htake
    cases d
    cases d'
    have htext := String.toList_injective htake
    subst htext
    rfl
  · rintro rfl
    exact List.prefix_append _ _

/-! ## The posts of a day -/

/-- A check that would post of this kind on this day. -/
def Meets (texts : TokenTexts) (kind : String) (d : IsoDate) (c : TokenCheck) : Prop :=
  c.status.state ≠ .fresh ∧ dedupeKind c.status.state = kind ∧ texts.etDate c.now = d

instance (d : IsoDate) (c : TokenCheck) : Decidable (Meets texts kind d c) := by
  unfold Meets
  infer_instance

theorem dedupeKind_ne (state : TokenState) :
    dedupeKind state ≠ "checked" ∧ dedupeKind state ≠ "auth_url_failed" := by
  cases state with
  | absent => decide
  | fresh => decide
  | reauthDue => decide
  | dead => decide

/-- A row more, seen by kind and day. -/
theorem posted_record {d : IsoDate} {kind' detail : String} :
    alreadyPostedToday (t.recordTokenEvent kind' detail) kind d = (alreadyPostedToday t kind d ||
      (kind' == kind && like (d.text ++ "%").toList detail.toList)) := by
  unfold alreadyPostedToday TokenTables.recordTokenEvent
  rw [List.any_append]
  simp

theorem posted_standingAlert {d : IsoDate} {status : TokenStatus} :
    alreadyPostedToday (standingAlert texts t status) kind d = alreadyPostedToday t kind d := by
  unfold standingAlert
  split
  · split
    · rfl
    · rfl
  · rfl

/-- **A check posts** exactly if it meets its kind and day and none of them is
recorded. -/
theorem tokenCheck_posted {d : IsoDate} (h : Meets texts kind d c) :
    (tokenCheck texts t c).posted.isSome = !alreadyPostedToday t kind d := by
  obtain ⟨hfresh, rfl, rfl⟩ := h
  unfold tokenCheck
  rw [if_neg hfresh]
  dsimp only
  rw [posted_standingAlert]
  by_cases hposted : alreadyPostedToday t (dedupeKind c.status.state) (texts.etDate c.now) = true
  · rw [if_pos hposted, hposted]
    rfl
  · rw [if_neg hposted, Bool.eq_false_iff.mpr hposted]
    rfl

/-- **A check records** its kind and day exactly if it has a link. -/
theorem tokenCheck_records (state : TokenState) (d : IsoDate) :
    alreadyPostedToday (tokenCheck texts t c).tables (dedupeKind state) d =
      (alreadyPostedToday t (dedupeKind state) d ||
        (decide (Meets texts (dedupeKind state) d c) && c.beginAuth.isSome)) := by
  obtain ⟨hchecked, hfailed⟩ := dedupeKind_ne state
  unfold tokenCheck
  by_cases hfresh : c.status.state = .fresh
  · rw [if_pos hfresh, decide_eq_false fun h : Meets _ _ _ _ => h.1 hfresh, Bool.false_and,
      Bool.or_false]
    refine Eq.trans (posted_record (t := t)) ?_
    rw [beq_eq_false_iff_ne.mpr (Ne.symm hchecked), Bool.false_and, Bool.or_false]
  · rw [if_neg hfresh]
    dsimp only
    rw [posted_standingAlert]
    by_cases hposted : alreadyPostedToday t (dedupeKind c.status.state) (texts.etDate c.now) = true
    · rw [if_pos hposted]
      dsimp only
      rw [posted_standingAlert]
      by_cases hmeets : Meets texts (dedupeKind state) d c
      · rw [← hmeets.2.1, ← hmeets.2.2, hposted, Bool.true_or]
      · rw [decide_eq_false hmeets, Bool.false_and, Bool.or_false]
    · rw [if_neg hposted]
      cases c.beginAuth with
      | none =>
        dsimp only
        rw [posted_record, posted_standingAlert, beq_eq_false_iff_ne.mpr (Ne.symm hfailed)]
        simp
      | some url =>
        dsimp only
        rw [posted_record, posted_standingAlert, like_date]
        refine congrArg _ ?_
        rw [Option.isSome_some, Bool.and_true, Bool.eq_iff_iff, Bool.and_eq_true, beq_iff_eq,
          decide_eq_true_iff, decide_eq_true_iff]
        exact ⟨fun h => ⟨hfresh, h⟩, fun h => h.2⟩

/-! ## Every run -/

/-- The checks of a run. -/
def checksOf (ops : List TokenOp) : List TokenCheck :=
  ops.filterMap fun
    | .check c => some c
    | .ack _ => none

/-- Those of a kind and a day. -/
def checksOn (texts : TokenTexts) (ops : List TokenOp) (kind : String) (d : IsoDate) :
    List TokenCheck := (checksOf ops).filter fun c => Meets texts kind d c

/-- How many posts of a kind a run sends on a day. -/
def postsOn (texts : TokenTexts) (ops : List TokenOp) (kind : String) (d : IsoDate) : ℕ :=
  (tokenRun texts ops).checks.countP fun e => Meets texts kind d e.1 && e.2.posted.isSome

/-- The checks up to the first with a link. -/
def postedUpTo : List TokenCheck → ℕ
  | [] => 0
  | c :: cs => if c.beginAuth.isSome then 1 else postedUpTo cs + 1

/-- The first of the checks has a link, or there is no second. -/
def LinkFirst : List TokenCheck → Prop
  | c :: _ :: _ => c.beginAuth.isSome = true
  | _ => True

theorem postedUpTo_append (cs : List TokenCheck) (c : TokenCheck) : postedUpTo (cs ++ [c]) =
    postedUpTo cs + if cs.any (·.beginAuth.isSome) then 0 else 1 := by
  induction cs with
  | nil =>
    show (if c.beginAuth.isSome = true then 1 else 0 + 1) = 0 + 1
    split
    · rfl
    · rfl
  | cons x cs ih =>
    rw [List.cons_append, postedUpTo, postedUpTo, List.any_cons]
    by_cases hlink : x.beginAuth.isSome = true
    · rw [if_pos hlink, if_pos hlink, hlink, Bool.true_or, if_pos rfl]
    · rw [if_neg hlink, if_neg hlink, ih, Bool.eq_false_iff.mpr hlink, Bool.false_or]
      omega

theorem postedUpTo_le_one (cs : List TokenCheck) : postedUpTo cs ≤ 1 ↔ LinkFirst cs := by
  match cs with
  | [] => simp [postedUpTo, LinkFirst]
  | [c] =>
    have hle : postedUpTo [c] ≤ 1 := by
      unfold postedUpTo postedUpTo
      split
      · omega
      · omega
    exact ⟨fun _ => trivial, fun _ => hle⟩
  | c :: c' :: cs =>
    unfold LinkFirst
    rw [postedUpTo]
    by_cases hlink : c.beginAuth.isSome = true
    · rw [if_pos hlink]
      exact ⟨fun _ => hlink, fun _ => le_rfl⟩
    · rw [if_neg hlink]
      refine ⟨fun h => ?_, fun h => absurd h hlink⟩
      have hpos : 1 ≤ postedUpTo (c' :: cs) := by
        unfold postedUpTo
        split
        · omega
        · omega
      omega

/-- What a run has posted and recorded so far. -/
structure RunKeeps (texts : TokenTexts) (ops : List TokenOp) : Prop where
  one : (tokenRun texts ops).tables.openOf "token_dead" ≤ 1
  answered : ∀ e ∈ (tokenRun texts ops).checks, Answered e
  recorded : ∀ state d, alreadyPostedToday (tokenRun texts ops).tables (dedupeKind state) d =
    (checksOn texts ops (dedupeKind state) d).any (·.beginAuth.isSome)
  posts : ∀ kind d, postsOn texts ops kind d = postedUpTo (checksOn texts ops kind d)

theorem tokenRun_append (ops : List TokenOp) (op : TokenOp) :
    tokenRun texts (ops ++ [op]) = (tokenRun texts ops).step texts op := by
  unfold tokenRun
  rw [List.foldl_append]
  rfl

theorem checksOn_ack (ops : List TokenOp) (alertId : ℕ) (d : IsoDate) :
    checksOn texts (ops ++ [.ack alertId]) kind d = checksOn texts ops kind d := by
  unfold checksOn checksOf
  rw [List.filterMap_append]
  simp

theorem checksOn_check (ops : List TokenOp) (d : IsoDate) :
    checksOn texts (ops ++ [.check c]) kind d =
      if Meets texts kind d c then checksOn texts ops kind d ++ [c]
      else checksOn texts ops kind d := by
  unfold checksOn checksOf
  rw [List.filterMap_append, List.filter_append]
  by_cases h : Meets texts kind d c
  · rw [if_pos h]
    exact congrArg _ (List.filter_cons_of_pos (by simpa using h))
  · rw [if_neg h]
    exact (congrArg _ (List.filter_cons_of_neg (by simpa using h))).trans (List.append_nil _)

theorem RunKeeps.ack {ops : List TokenOp} (h : RunKeeps texts ops) (alertId : ℕ) :
    RunKeeps texts (ops ++ [.ack alertId]) where
  one := by
    rw [tokenRun_append]
    exact (openOf_ackAlert_le alertId).trans h.one
  answered := by
    rw [tokenRun_append]
    exact h.answered
  recorded state d := by
    rw [tokenRun_append, checksOn_ack, ← h.recorded]
    rfl
  posts kind d := by
    rw [checksOn_ack, ← h.posts]
    unfold postsOn
    rw [tokenRun_append]
    rfl

theorem RunKeeps.check {ops : List TokenOp} (h : RunKeeps texts ops) (c : TokenCheck) :
    RunKeeps texts (ops ++ [.check c]) where
  one := by
    rw [tokenRun_append]
    exact (tokenCheck_answered h.one).1
  answered := by
    rw [tokenRun_append]
    intro e he
    rcases List.mem_append.mp he with he | he
    · exact h.answered e he
    · rw [List.mem_singleton.mp he]
      exact (tokenCheck_answered h.one).2
  recorded state d := by
    rw [tokenRun_append]
    refine (tokenCheck_records state d).trans ?_
    rw [h.recorded, checksOn_check]
    by_cases hmeets : Meets texts (dedupeKind state) d c
    · rw [decide_eq_true hmeets, if_pos hmeets, List.any_append]
      simp
    · rw [decide_eq_false hmeets, if_neg hmeets, Bool.false_and, Bool.or_false]
  posts kind d := by
    unfold postsOn
    rw [tokenRun_append, checksOn_check]
    show List.countP _ ((tokenRun texts ops).checks ++ [(c, tokenCheck texts _ c)]) = _
    rw [List.countP_append]
    refine (congrArg (· + _) (h.posts kind d)).trans ?_
    by_cases hmeets : Meets texts kind d c
    · rw [if_pos hmeets, postedUpTo_append]
      refine congrArg _ ?_
      have hrecorded := h.recorded c.status.state d
      rw [hmeets.2.1] at hrecorded
      rw [List.countP_singleton, decide_eq_true hmeets, Bool.true_and, tokenCheck_posted hmeets,
        hrecorded]
      cases (checksOn texts ops kind d).any (·.beginAuth.isSome) with
      | true => rfl
      | false => rfl
    · rw [if_neg hmeets, List.countP_singleton, decide_eq_false hmeets]
      rfl

/-- **Every run** has one alert at most, answers every check, and posts of a
day's checks those up to the first with a link. -/
theorem tokenRun_keeps (ops : List TokenOp) : RunKeeps texts ops := by
  induction ops using List.reverseRecOn with
  | nil =>
    refine ⟨Nat.zero_le 1, fun e he => ?_, fun _ _ => rfl, fun _ _ => rfl⟩
    cases he
  | append_singleton ops op ih =>
    cases op with
    | check c => exact ih.check c
    | ack alertId => exact ih.ack alertId

/-- The alarm: every check is answered, and of a kind no day has two posts. -/
def Alarmed (texts : TokenTexts) (ops : List TokenOp) : Prop :=
  (∀ e ∈ (tokenRun texts ops).checks, Answered e) ∧ ∀ kind d, postsOn texts ops kind d ≤ 1

/-- **The token alarm**: after any checks and acknowledgements the alert
answers what was seen, and a day has at most one post of each kind exactly if
`begin_auth` does not fail at the first check of that kind and day, or that is
the only one. -/
theorem token_alarm (texts : TokenTexts) (ops : List TokenOp) :
    Alarmed texts ops ↔ ∀ kind d, LinkFirst (checksOn texts ops kind d) := by
  have hkeeps : RunKeeps texts ops := tokenRun_keeps ops
  unfold Alarmed
  constructor
  · rintro ⟨-, hposts⟩ kind d
    rw [← postedUpTo_le_one, ← hkeeps.posts]
    exact hposts kind d
  · intro h
    refine ⟨hkeeps.answered, fun kind d => ?_⟩
    rw [hkeeps.posts, postedUpTo_le_one]
    exact h kind d

/-! ## Two checks without a link -/

private def september2 : IsoDate := ⟨"2026-09-02", by decide +kernel⟩

private def plainTexts : TokenTexts := ⟨fun _ => september2, fun _ => "-1.0"⟩

private def deadCheck : TokenCheck := ⟨⟨.dead, some 8, some (-1)⟩, 0, none⟩

/-- A dead token is announced at every check of the day while there is no
link. -/
theorem token_alarm_repeats : ¬ ∀ texts ops, Alarmed texts ops := by
  intro h
  have hposts := (h plainTexts [.check deadCheck, .check deadCheck]).2 "blind_posted" september2
  rw [(tokenRun_keeps _).posts] at hposts
  revert hposts
  decide +kernel

end TradeDesk.Loops
