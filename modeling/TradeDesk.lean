import TradeDesk.Purse
import TradeDesk.Weekdays
import TradeDesk.Table
import TradeDesk.Async.Pool
import TradeDesk.Async.Under
import TradeDesk.Desk.Paper
import TradeDesk.Desk.Pitches
import TradeDesk.Desk.Indicators
import TradeDesk.Desk.Options
import TradeDesk.Desk.Approval
import TradeDesk.Desk.Post
import TradeDesk.Desk.Pm
import TradeDesk.Desk.Watch
import TradeDesk.Desk.Scoring
import TradeDesk.Desk.Run
import TradeDesk.Desk.Ledger
import TradeDesk.Desk.Book
import TradeDesk.Desk.Writes
import TradeDesk.Desk.Specs
import TradeDesk.Desk.LoopSpecs
import TradeDesk.Desk.Effects
import TradeDesk.Desk.Prices
import TradeDesk.Desk.Times
import TradeDesk.Desk.Solvency
import TradeDesk.Desk.Accounting
import TradeDesk.Desk.Marks
import TradeDesk.Desk.VetoWindow
import TradeDesk.Desk.OpenCalls
import TradeDesk.Desk.Chains
import TradeDesk.Desk.Stops
import TradeDesk.Desk.AtMostOnce
import TradeDesk.Desk.Atomic
import TradeDesk.Desk.Serialisable
import TradeDesk.Loops.Book
import TradeDesk.Loops.Tick
import TradeDesk.Loops.Gone
import TradeDesk.Loops.Mark
import TradeDesk.Engine.Scheduler
import TradeDesk.Engine.Passes
import TradeDesk.Engine.Fires
import TradeDesk.Engine.DeskChain
import TradeDesk.Research.Swap
import TradeDesk.Research.Recovery
import TradeDesk.Research.Views
import TradeDesk.Research.Source
import TradeDesk.Research.Importer
import TradeDesk.Research.Entries
import TradeDesk.Runner.Result
import TradeDesk.Runner.Render
import TradeDesk.Desk.Contract
import TradeDesk.Desk.Chase
import TradeDesk.Desk.Cluster
import TradeDesk.Desk.Caps
import TradeDesk.Loops.Directory
import TradeDesk.Loops.Screen
import TradeDesk.Loops.Universe
import TradeDesk.Loops.Token
import TradeDesk.Loops.Sweep
import TradeDesk.Desk.PitchLedger
import TradeDesk.Desk.Checkpoint
import TradeDesk.Desk.Bars
import TradeDesk.Desk.FirstTouch
import TradeDesk.Desk.Stuck
import TradeDesk.Loops.Close
import TradeDesk.Research.Escalations
import TradeDesk.Desk.Pass
import TradeDesk.Desk.Due
import TradeDesk.Desk.Clear
import TradeDesk.Loops.Coverage
import TradeDesk.Loops.Stored
import TradeDesk.Desk.Placement
import TradeDesk.Loops.Hold
import TradeDesk.Loops.Osi
import TradeDesk.Desk.Outlast
import TradeDesk.Desk.SignLaw
import TradeDesk.Desk.Scores
import TradeDesk.Desk.Announced
import TradeDesk.Desk.Elapsed
import TradeDesk.Desk.Holes
import TradeDesk.Host.Probe
import TradeDesk.Loops.Printed
import TradeDesk.Research.Fenced
import TradeDesk.Research.RoundTrip
import TradeDesk.Scripts.OrderGate
import TradeDesk.Scripts.Amounts
import TradeDesk.Scripts.Arguments
import TradeDesk.Scripts.ExactGate
import TradeDesk.JsonText.Decoder
import TradeDesk.JsonText.Spelling
import TradeDesk.Jobs.Verdicts
import TradeDesk.Jobs.VerdictText
import TradeDesk.Jobs.Braces
import TradeDesk.Jobs.Fences
import TradeDesk.Jobs.Recover
import TradeDesk.Jobs.Dispatch
import TradeDesk.Jobs.Replies
import TradeDesk.Desk.Stamps
import TradeDesk.Async.Mutex
import TradeDesk.Loops.Snapshots
import TradeDesk.RuleFile.Reports
import TradeDesk.RuleFile.Agree
import TradeDesk.Research.Again
import TradeDesk.Broker.TokenFile
import TradeDesk.Mcp.Gate
import TradeDesk.Scripts.SectorWrite
import TradeDesk.Scripts.ResearchWrite
