import TradeDesk.Desk.Times

/-!
# No entry without its veto window

Posting sets three stamps at once: when, until when a veto counts, and the
message whose reactions are read (`PostedRight`). The watch fills only on
the date of the post, in the session, before the cutoff, and only after
the deadline or on an approval read together with the vetoes; that is the
evidence `EntryOk` keeps. What remains is time: no row is later than the
pass that reads it, so a post no earlier than today is a post of today, of
a proposal made today.
-/

namespace TradeDesk.Desk

open TradeDesk.Async

variable {cfg : Settings} {op : Op} {Adm : ∀ q, Answer q → Prop} {h h' : History} {a b s : Store}
variable {init : Store} {log : List Entry}

/-- The stamps of a posted proposal are those of one post. -/
structure PostedRight (cfg : Settings) (s : Store) : Prop where
  stamps : ∀ p ∈ s.proposals, ∀ t, p.postedAt = some t → ∃ mid veto, p.messageId = some mid ∧
    vetoWindow cfg.rules = .ok veto ∧ p.vetoDeadline = some (vetoDeadline cfg veto t) ∧
    cfg.et.date t ≤ cfg.et.date p.createdAt

theorem PostedRight.of_same (hp : PostedRight cfg a) (hprops : b.proposals = a.proposals) :
    PostedRight cfg b :=
  ⟨hprops ▸ hp.stamps⟩

/-- Only posting stamps a proposal, and it stamps the one it posted. -/
theorem DeskWrite.postedRight (hdw : DeskWrite cfg op h a b) (hw : WF a)
    (hpr : PostedRight cfg a) : PostedRight cfg b := by
  cases hdw with
  | call | extension | tighten | exitRequest | dropped | buy | filled | mark | sell | exitDone |
    resolve => exact hpr.of_same rfl
  | @proposal t cin _ a₀ c plan _ _ _ =>
    refine ⟨fun p hp t' ht' => ?_⟩
    rcases mem_addProposal.mp hp with hp | rfl
    · exact hpr.stamps p hp t' ht'
    · cases ht'
  | posted p veto mid hp _ hday hveto =>
    refine ⟨fun q hq t ht => ?_⟩
    obtain ⟨r, hr, rfl⟩ := Store.mem_stampPosted.mp hq
    split at ht
    next hc =>
      cases ht
      obtain rfl := hw.proposal_unique hr hp hc.1
      rw [if_pos hc]
      exact ⟨mid, veto, rfl, hveto, rfl, hday⟩
    next hc =>
      rw [if_neg hc]
      exact hpr.stamps r hr t ht

theorem Fresh.postedRight (hf : Fresh s) : PostedRight cfg s := by
  refine ⟨fun p hp => ?_⟩
  rw [hf.proposals] at hp
  cases hp

/-! ## What an entry fill has behind it -/

/-- The proposal was made today and posted today, with a message. -/
structure PostedToday (cfg : Settings) (now : Instant) (p : Proposal) (posted : Instant)
    (mid : String) : Prop where
  postedAt : p.postedAt = some posted
  messageId : p.messageId = some mid
  created : cfg.et.date p.createdAt = cfg.et.date now
  posted : cfg.et.date posted = cfg.et.date now

/-- The regular session of the window is open, and the cutoff is ahead. -/
structure InSession (cfg : Settings) (now : Instant) (window : Option MarketWindow) : Prop where
  open_ : ∃ start stop, (sessionWindow cfg now window).isTradingDay = true ∧
    (sessionWindow cfg now window).date = cfg.et.date now ∧
    (sessionWindow cfg now window).rthStart = some start ∧
    (sessionWindow cfg now window).rthEnd = some stop ∧ start ≤ now ∧ now < stop
  cutoff : cfg.et.time now < clockTime 15 55

/-- The deadline is behind, a whole veto window after the post and after
the entry window's start; or an approval was read with the vetoes. -/
def Reviewed (cfg : Settings) (now : Instant) (h : History) (p : Proposal) (posted : Instant)
    (mid : String) : Prop :=
  (∃ deadline veto, p.vetoDeadline = some deadline ∧ vetoWindow cfg.rules = .ok veto ∧
      max posted (cfg.et.combine (cfg.et.date posted) cfg.entryWindowStart) + veto ≤ deadline ∧
      deadline ≤ now) ∨
    ReadApproval cfg h mid

/-- The price is a positive ask within the limit, in quotes none of which
is stale. -/
structure PricedAt (now : Instant) (h : History) (p : Proposal) (price : ℚ) : Prop where
  positive : 0 < price
  limit : price ≤ p.maxEntryPrice
  quoted : ∃ quotes q, ReadQuotes h quotes ∧ quotes.get? p.symbol = some q ∧ q.ask = price ∧
    Fresh? now q ∧ ∀ u, quotes.get? p.underlying = some u → Fresh? now u

/-- The window a pass goes by is the window of its own date. -/
theorem sessionWindow_date (now : Instant) (window : Option MarketWindow) :
    (sessionWindow cfg now window).date = cfg.et.date now := by
  have hfall : (fallbackWindow cfg.et (cfg.et.date now)).date = cfg.et.date now := by
    unfold fallbackWindow
    split <;> rfl
  unfold sessionWindow
  split
  · split
    next hd => exact hd
    · exact hfall
  · exact hfall

/-- **No entry without its veto window.** In a chronological run every
entry fill is a watch's, at the watch's time: of a proposal made and
posted that day, in the session and before the cutoff, with its veto
window over or an approval read together with the vetoes, and at a fresh
positive ask within its limit. -/
theorem entry_reviewed (hrun : Run cfg Adm init log s) (hf : Fresh init)
    (hchron : Chronological log) : ∀ e ∈ log, ∀ a b, .wrote a b ∈ e.hist →
      ∀ f, f.side = .buy → b = a.addFill f → ∃ window, e.op = .deskWatch f.at_ window ∧
        InSession cfg f.at_ window ∧ ∃ p ∈ a.proposals, p.id = f.proposalId ∧
          ∃ posted mid h post, e.hist = post ++ .wrote a b :: h ∧
            PostedToday cfg f.at_ p posted mid ∧ Reviewed cfg f.at_ h p posted mid ∧
            PricedAt f.at_ h p f.price := by
  have hright := (hrun.throughout (J := PostedRight cfg) hf.sound hf.postedRight
    (fun _ _ _ _ _ hw hp hdw => hdw.postedRight hw hp)
    fun _ _ hp hw => by
      obtain ⟨_, _, _, _, _, rfl⟩ := hw
      exact hp.of_same rfl).2
  intro e he a b hmem f hside hb
  obtain ⟨h, post, hsplit, _, _, hdw⟩ := hrun.wrote hf.sound e he a b hmem
  obtain ⟨now, window, p, hop, hp, _, hat, hid, _, stop, hok⟩ := hdw.entry hside hb
  obtain ⟨posted, hposted, hday⟩ := hok.posted
  obtain ⟨mid, veto, hmid, hveto, hdeadline, hmade⟩ :=
    (hright e he a b hmem).1.stamps p hp posted hposted
  have htimely := (hrun.timely_wrote hf hchron e he now (by rw [Entry.time?, hop]; rfl)
    a b hmem).1
  -- today ≤ the post's date ≤ the proposal's date ≤ today
  have hcreated := cfg.et.date_mono (htimely.created p hp)
  subst hat
  refine ⟨window, hop, ⟨?_, hok.cutoff⟩, p, hp, hid.symm, posted, mid, h, post, hsplit,
    ⟨hposted, hmid, le_antisymm hcreated (le_trans hday hmade),
      le_antisymm (le_trans hmade hcreated) hday⟩, ?_, ⟨hok.positive, hok.limit, hok.quoted⟩⟩
  · obtain ⟨hd, start, stop, hs, hst, hle, hlt⟩ := phaseFor_rth hok.session
    exact ⟨start, stop, hd, sessionWindow_date _ _, hs, hst, hle, hlt⟩
  · rcases hok.reviewed with ⟨d, hd, hdle⟩ | ⟨mid', hmid', hread⟩
    · rw [hdeadline] at hd
      exact Or.inl ⟨d, veto, hd ▸ hdeadline, hveto, le_of_eq (Option.some.inj hd), hdle⟩
    · obtain rfl := Option.some.inj (hmid'.symm.trans hmid)
      exact Or.inr hread

/-- The watch of the morning bought what was posted that morning. -/
theorem entry_reviewed_bought : ∃ log,
    Run deskSettings AnyAnswer openingStore log (buying.play deskSettings openingStore) ∧
    (buying.play deskSettings openingStore).paperFills ≠ [] ∧
    ∀ e ∈ log, ∀ a b, .wrote a b ∈ e.hist → ∀ f, f.side = .buy → b = a.addFill f →
      ∃ window, e.op = .deskWatch f.at_ window ∧ InSession deskSettings f.at_ window ∧
        ∃ p ∈ a.proposals, p.id = f.proposalId ∧ ∃ posted mid h post, e.hist = post ++ .wrote a b :: h ∧
          PostedToday deskSettings f.at_ p posted mid ∧ Reviewed deskSettings f.at_ h p posted mid ∧
          PricedAt f.at_ h p f.price := by
  obtain ⟨log, hrun, hops⟩ := buying.goes_on opening_run
  refine ⟨log, hrun, by decide +kernel, entry_reviewed hrun openingStore_fresh ?_⟩
  exact chronological_of_ops (by rw [hops]; decide +kernel)

end TradeDesk.Desk
