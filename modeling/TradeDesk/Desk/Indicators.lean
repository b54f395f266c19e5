import TradeDesk.Desk.Paper

/-!
# Numbers computed from stored bars

`atrPct` and `logReturnCorr` of `tc/desk/indicators.py`, and
`correlatedWith` of the PM, which the watch shares. Each answers nothing
rather than guess when the history is too short.
-/

namespace TradeDesk.Desk

open TradeDesk.Async

def mean (xs : List ℚ) : ℚ := xs.sum / xs.length

def trueRange (prev cur : DailyBar) : ℚ :=
  max (max (cur.high - cur.low) |cur.high - prev.close|) |cur.low - prev.close|

/-- Mean true range over the last `n` sessions, as % of the last close. -/
def atrPct (bars : List DailyBar) (n : ℕ := 14) : Option ℚ :=
  match bars.getLast? with
  | none => none
  | some last =>
    if bars.length < n + 1 ∨ last.close ≤ 0 then none
    else
      let window := bars.drop (bars.length - (n + 1))
      some (mean (List.zipWith trueRange window.dropLast window.tail) / last.close * 100)

/-- `{b.date: b.close}`, a later bar of one date winning. -/
def closeOn (bars : List DailyBar) (d : Date) : Option ℚ :=
  (bars.reverse.find? fun b => b.date == d).map (·.close)

/-- Ratios of neighbours. -/
def growth : List ℚ → List ℚ
  | a :: b :: rest => b / a :: growth (b :: rest)
  | _ => []

/-- Pearson correlation of daily log returns over the last `n` common dates. -/
def logReturnCorr (cfg : Settings) (a b : List DailyBar) (n : ℕ := 60) : Option ℚ :=
  let common := (a.map (·.date)).dedup.filter fun d => (closeOn b d).isSome
  let sorted := common.mergeSort
  let dates := sorted.drop (sorted.length - (n + 1))
  let ca := dates.filterMap (closeOn a)
  let cb := dates.filterMap (closeOn b)
  if dates.length < n + 1 ∨ ca.any (· ≤ 0) ∨ cb.any (· ≤ 0) then none
  else
    let ra := (growth ca).map cfg.ln
    let rb := (growth cb).map cfg.ln
    let ma := mean ra
    let mb := mean rb
    let cov := (List.zipWith (fun x y => (x - ma) * (y - mb)) ra rb).sum
    let va := (ra.map fun x => (x - ma) ^ 2).sum
    let vb := (rb.map fun x => (x - mb) ^ 2).sum
    if va = 0 ∨ vb = 0 then none else some (cov / (cfg.sqrt va * cfg.sqrt vb))

def corrBars : ℕ := 80

/-- The book's names whose daily returns correlate with `symbol` above the
threshold. A name already in the answer is not read again. -/
def correlatedLoop (cfg : Settings) (symbol : String) (threshold : ℚ) (mine : List DailyBar) :
    List Holding → List String → Look (List String)
  | [], out => return out
  | h :: hs, out =>
    if h.symbol = symbol ∨ h.symbol ∈ out then correlatedLoop cfg symbol threshold mine hs out
    else do
      let theirs ← .get fun s => s.barsFor h.symbol none (some corrBars)
      let above := (logReturnCorr cfg mine theirs).any fun r => threshold < r
      correlatedLoop cfg symbol threshold mine hs (if above then out ++ [h.symbol] else out)

def correlatedWith (cfg : Settings) (symbol : String) (book : BookState) : Look (List String) := do
  let threshold ← .check (cfg.rules.get .manual "correlation_threshold")
  let mine ← .get fun s => s.barsFor symbol none (some corrBars)
  correlatedLoop cfg symbol threshold mine book.holdings []

end TradeDesk.Desk
