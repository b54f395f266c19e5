import TradeDesk.Desk.Context

/-!
# Who reacted to a proposal

`tc/desk/approval.py`: ❌ vetoes, ✅ executes at once. The two emoji are
read separately and judged separately: a veto that was read is a veto even
when the approvals were not, while an approval counts only when the vetoes
could be read too, so a ✅ never hastens a fill past a ❌ nobody could see.

`ReadUsers` says, of the history a reader leaves, that an emoji's users
were read; `readReactions_approve` is the reader's guarantee.
-/

namespace TradeDesk.Desk

open TradeDesk.Async

def vetoEmoji : String := "❌"
def approveEmoji : String := "✅"

/-- Retries after the service asks to wait. -/
def rateLimitRetries : ℕ := 2

/-- `unreadable` is set when either emoji could not be read. -/
structure Reaction where
  veto : Bool
  approve : Bool
  unreadable : Bool
deriving DecidableEq, Repr

def askUsers (messageId emoji : String) : DeskM HttpReply :=
  Prog.query (Query.reactionUsers messageId emoji)

/-- What a reply that is not to be retried says: nobody has reacted, the
users, or nothing that can be read. -/
def usersOf : HttpReply → Option (List User)
  | .failed => none
  | .reply status body =>
    if status = 404 then some []
    else if ¬(200 ≤ status ∧ status < 300) then none
    else match body with
      | .users us => some us
      | .notList => none
      | .notJson => none

def rateLimited : HttpReply → Bool
  | .failed => false
  | .reply status _ => status == 429

/-- The users behind one emoji, waiting out the rate limit while retries
are left. -/
def reactionUsers (messageId emoji : String) : ℕ → DeskM (Option (List User))
  | 0 => do return usersOf (← askUsers messageId emoji)
  | retries + 1 => do
    let r ← askUsers messageId emoji
    if rateLimited r then reactionUsers messageId emoji retries else return usersOf r

/-- Whether somebody who counts is among them. -/
def counts (approver : Option String) (us : List User) : Bool :=
  us.any fun u => !u.bot && match approver with
    | none => true
    | some a => u.id == a

def readReactions (reactions : Reactions) (messageId : String) : DeskM Reaction :=
  match reactions with
  | .noReactions => return ⟨false, false, false⟩
  | .discord approver => do
    let vetoes ← reactionUsers messageId vetoEmoji rateLimitRetries
    let approvals ← reactionUsers messageId approveEmoji rateLimitRetries
    return ⟨vetoes.any (counts approver), vetoes.isSome && approvals.any (counts approver),
      vetoes.isNone || approvals.isNone⟩

/-! ## What the reader guarantees -/

/-- The history holds a reply that named the emoji's users. -/
def ReadUsers (h : History) (messageId emoji : String) (us : List User) : Prop :=
  ∃ reply, .asked (.reactionUsers messageId emoji) reply ∈ h ∧ usersOf reply = some us

variable {Adm : ∀ q, Answer q → Prop} {G : History → Store → Store → Prop}
  {h : History} {s : Store}

theorem always_askUsers {R : Except Exc HttpReply → History → Store → Prop}
    {messageId emoji : String} :
    Always Adm G R (askUsers messageId emoji) h s ↔
      ∀ r : HttpReply, Adm (.reactionUsers messageId emoji) r →
        R (.ok r) (.asked (.reactionUsers messageId emoji) r :: h) s := Iff.rfl

/-- The reader writes nothing, only adds to the history, and gives only
users it read. -/
theorem reactionUsers_spec (messageId emoji : String) : ∀ (retries : ℕ) (h : History) (s : Store),
    Always Adm G (fun r h' s' => s' = s ∧ (∃ new, h' = new ++ h) ∧
      ∃ us?, r = .ok us? ∧ ∀ us, us? = some us → ReadUsers h' messageId emoji us)
      (reactionUsers messageId emoji retries) h s
  | 0, h, s => by
    unfold reactionUsers
    rw [always_bind, always_askUsers]
    intro r _
    exact ⟨rfl, ⟨[_], rfl⟩, _, rfl, fun us hus => ⟨r, List.mem_cons_self, hus⟩⟩
  | retries + 1, h, s => by
    unfold reactionUsers
    rw [always_bind, always_askUsers]
    intro r _
    dsimp only
    split
    · refine (reactionUsers_spec messageId emoji retries _ s).mono (fun _ _ _ hg => hg) ?_
      rintro r' h' s' ⟨hs, ⟨new, hnew⟩, hus⟩
      exact ⟨hs, ⟨new ++ [_], by rw [hnew, List.append_assoc]; rfl⟩, hus⟩
    · exact ⟨rfl, ⟨[_], rfl⟩, _, rfl, fun us hus => ⟨r, List.mem_cons_self, hus⟩⟩

/-- The pass read an approval of the message, and its vetoes too. -/
def ReadApproval (cfg : Settings) (h : History) (messageId : String) : Prop :=
  ∃ approver, cfg.reactions = .discord approver ∧
    (∃ us, ReadUsers h messageId vetoEmoji us) ∧
    ∃ us, ReadUsers h messageId approveEmoji us ∧ counts approver us = true

theorem ReadUsers.mono {h h' : History} {messageId emoji : String} {us : List User}
    (hr : ReadUsers h messageId emoji us) (hsub : ∀ e ∈ h, e ∈ h') :
    ReadUsers h' messageId emoji us := by
  obtain ⟨reply, hmem, hus⟩ := hr
  exact ⟨reply, hsub _ hmem, hus⟩

theorem ReadApproval.mono {cfg : Settings} {h h' : History} {messageId : String}
    (hr : ReadApproval cfg h messageId) (hsub : ∀ e ∈ h, e ∈ h') :
    ReadApproval cfg h' messageId := by
  obtain ⟨approver, hre, ⟨vs, hv⟩, us, hu, hc⟩ := hr
  exact ⟨approver, hre, ⟨vs, hv.mono hsub⟩, us, hu.mono hsub, hc⟩

/-- **An approval was read together with the vetoes.** -/
theorem readReactions_spec (cfg : Settings) (messageId : String) :
    Always Adm G (fun r h' s' => s' = s ∧ (∃ new, h' = new ++ h) ∧
      ∃ re, r = .ok re ∧ (re.approve = true → ReadApproval cfg h' messageId))
      (readReactions cfg.reactions messageId) h s := by
  unfold readReactions
  split
  next hcfg => exact ⟨rfl, ⟨[], rfl⟩, _, rfl, fun hc => by cases hc⟩
  next approver hcfg =>
    refine (reactionUsers_spec messageId vetoEmoji _ h s).bind ?_ ?_
    · rintro vetoes h₁ s₁ ⟨rfl, ⟨new₁, rfl⟩, vs?, hvs, hv⟩
      cases hvs
      refine (reactionUsers_spec messageId approveEmoji _ _ s₁).bind ?_ ?_
      · rintro approvals h₂ s₂ ⟨rfl, ⟨new₂, rfl⟩, us?, hus, hu⟩
        cases hus
        refine ⟨rfl, ⟨new₂ ++ new₁, by rw [List.append_assoc]⟩, _, rfl, ?_⟩
        intro happ
        obtain ⟨hsome, hany⟩ := Bool.and_eq_true_iff.mp happ
        obtain ⟨vs, hvs⟩ := Option.isSome_iff_exists.mp hsome
        cases approvals with
        | none => cases hany
        | some us =>
          refine ⟨approver, hcfg, ⟨vs, (hv vs hvs).mono ?_⟩, us, hu us rfl, hany⟩
          exact fun e he => List.mem_append_right new₂ he
      · rintro e h₂ s₂ ⟨_, _, us?, hus, _⟩
        cases hus
    · rintro e h₁ s₁ ⟨_, _, vs?, hvs, _⟩
      cases hvs

end TradeDesk.Desk
