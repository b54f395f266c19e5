import TradeDesk.Desk.Paper

/-!
# Posting proposals behind their veto window

`tc/desk/post.py`. A proposal is posted on the Eastern date it was made or
expires; a post that did not go out expires too, since nobody could react
to it. `stampPosted` claims the post, so of two processes only the first
sets the message whose reactions count.
-/

namespace TradeDesk.Desk

open TradeDesk.Async

def askPostMessage (n : Notice) : DeskM (Option String) := Prog.query (Query.postMessage n)

def askPost (n : Notice) : DeskM Bool := Prog.query (Query.post n)

/-- The stop a message shows, planned off the proposal's limit. -/
def stopText (cfg : Settings) (p : Proposal) (call : Call) : Look StopText := do
  if p.instrument != .shares then return .noRestingStop
  else
    let inval ← effectiveInvalidation call
    match entryStop p.maxEntryPrice (p.atrPct.getD 0) inval cfg.rules with
    | .ok stop => return .planned stop
    | .error (.sizingRefused _) => return .tooTight
    | .error e => .raise e

/-- The entry window's end, or the session's close less the veto window
when that is earlier. -/
def postingEnd (cfg : Settings) (veto : ℤ) (day : Date) (window : Option MarketWindow) : Instant :=
  let stop := cfg.et.combine day cfg.entryWindowEnd
  match window with
  | none => stop
  | some w => match w.rthEnd with
    | none => stop
    | some rthEnd => if w.date = day then min stop (rthEnd - veto) else stop

/-- `int(rules.get("strategy", "veto_window_minutes"))` minutes. -/
def vetoWindow (rules : Rules) : Except Exc ℤ :=
  (rules.getInt .strategy "veto_window_minutes").map (· * minute)

/-- The deadline of a proposal posted now: the veto window after the later
of now and the entry window's start. -/
def vetoDeadline (cfg : Settings) (veto : ℤ) (now : Instant) : Instant :=
  max now (cfg.et.combine (cfg.et.date now) cfg.entryWindowStart) + veto

/-- The loop's body: expire, or post and stamp. -/
def postProposal (cfg : Settings) (now : Instant) (veto : ℤ) (stop : Instant) (posted : List ℕ)
    (p : Proposal) : DeskM (List ℕ) := do
  if cfg.et.date p.createdAt < cfg.et.date now then
    recordOutcome p.id now .expired
    return posted
  else if stop ≤ now then
    recordOutcome p.id now .expired
    return posted
  else
    match ← .scan (getCall p.callId) with
    | none => .raise (.noSuchCall p.id p.callId)
    | some call => do
      let deadline := vetoDeadline cfg veto now
      let text ← .scan (stopText cfg p call)
      match ← askPostMessage (.proposal p call deadline text) with
      | none => do
        recordOutcome p.id now .expired
        return posted
      | some mid => do
        let first ← markPosted p.id now deadline (some mid)
        return if first then posted ++ [p.id] else posted

def postProposals (cfg : Settings) (now : Instant) (window : Option MarketWindow) :
    DeskM (List ℕ) := do
  let veto ← .check (vetoWindow cfg.rules)
  let ps ← .scan unpostedProposals
  ps.foldlM (postProposal cfg now veto (postingEnd cfg veto (cfg.et.date now) window)) []

end TradeDesk.Desk
