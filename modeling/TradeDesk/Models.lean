import TradeDesk.Clock
import TradeDesk.Money

/-!
# Names every module shares

The enumerations of `tc/desk/models.py`, what the outside can be asked
and what it answers, and the exceptions the desk's functions leave with.

A refusal carries the values its message prints, not the rendered text:
nothing in the engine reads a message back.
-/

namespace TradeDesk

/-! ## Enumerations -/

inductive Analyst where
  | technical | earnings | news | macros
deriving DecidableEq, Repr

inductive Direction where
  | up | down
deriving DecidableEq, Repr

inductive Instrument where
  | shares | call | put
deriving DecidableEq, Repr

inductive OptionKind where
  | call | put
deriving DecidableEq, Repr

inductive Funding where
  | none | shares | call | put
deriving DecidableEq, Repr

inductive Origin where
  | pitch | pm | legacy
deriving DecidableEq, Repr

/-- What a resolution resolves. -/
inductive ItemKind where
  | pitch | call
deriving DecidableEq, Repr

inductive How where
  | target | invalidation | horizon | gapTarget | gapInvalidation | openThrough
deriving DecidableEq, Repr

inductive Outcome where
  | filled | skippedPrice | skippedInvalid | skippedBlind | expired
deriving DecidableEq, Repr

inductive Side where
  | buy | sell
deriving DecidableEq, Repr

/-- Why a paper fill was made. -/
inductive FillReason where
  | entry | stop | target | invalidation | dteClose | callResolved | pmExit
deriving DecidableEq, Repr

/-- A pitch's benchmark is SPY or one of the eleven sector SPDRs. -/
def benchmarks : List String :=
  ["SPY", "XLB", "XLC", "XLE", "XLF", "XLI", "XLK", "XLP", "XLRE", "XLU", "XLV", "XLY"]

/-! ## The broker's data -/

structure Quote where
  symbol : String
  last : ℚ
  bid : ℚ
  ask : ℚ
  quoteTime : Instant
deriving DecidableEq, Repr

structure DailyBar where
  date : Date
  «open» : ℚ
  high : ℚ
  low : ℚ
  close : ℚ
deriving DecidableEq, Repr

structure OptionContract where
  osi : String
  kind : OptionKind
  bid : ℚ
  ask : ℚ
  delta : Option ℚ
  openInterest : ℤ
  daysToExpiration : ℤ
deriving DecidableEq, Repr

/-- How a broker read fails: the token is dead, the read failed, or some
other exception leaves the client. -/
inductive BrokerFault where
  | unauthorized | error | crashed
deriving DecidableEq, Repr

/-! ## Exceptions -/

/-- Where a decimal or a level stands in a request. -/
inductive PriceField where
  | target | invalidation | maxEntryPrice
deriving DecidableEq, Repr

/-- Why a desk rule refused the model's input. -/
inductive Refusal where
  | badPrice (field : PriceField) (value : String)
  | nonPositivePrice (field : PriceField) (value : String)
  | badBenchmark (value : String)
  | badHorizon (lo hi h : ℤ)
  | upLevels (last : ℚ)
  | downLevels (last : ℚ)
  | tooFar (field : PriceField) (level maxDist last : ℚ)
  | notTradeable (symbol : String)
  | duringSession
  | runLimit (cap : ℤ)
  | pitchStillOpen (pitchId : ℕ) (symbol : String) (direction : Direction)
  | notYours (pitchId : ℕ)
  | hasReference (pitchId : ℕ)
  | dailyCap (cap : ℤ)
  | stillOpen (callId : ℕ) (symbol : String) (direction : Direction)
  | pitchNotOpen (pitchId : ℕ)
  | pitchMismatch (pitchId : ℕ) (symbol : String) (direction : Direction)
  | brokerBlind
  | quoteReadFailed
  | noQuote (symbol : String)
  | staleQuote (symbol : String) (age : ℤ)
  | bookNotStarted
  | sharesFundUpOnly
  | sharesNeedMaxEntry
  | chasesLast (maxEntry chase last : ℚ)
  | chasesAsk (maxEntry chase ask : ℚ)
  | noAtr (symbol : String)
  | atrCeiling (symbol : String) (atr ceiling : ℚ)
  | invalidationAboveEntry
  | wrongOptionKind (direction : Direction) (want : Instrument)
  | optionNeedsSymbol
  | chainReadFailed
  | notACandidate (option : String) (candidates : List String)
  | legacyFunding
  | notInAccount (symbol : String)
  | legacyOpen (symbol : String)
  | noDeskCall (callId : ℕ)
  | extensionUsed (callId : ℕ)
  | notAtHorizon
  | nothingToCarry (callId : ℕ)
  | noCall (callId : ℕ)
  | legacyStop
  | resolvedCall (callId : ℕ)
  | nothingToProtect (callId : ℕ)
  | notBetween (cur last : ℚ)
  | nothingHeld (symbol : String)
deriving DecidableEq, Repr

/-- Why sizing, a `DeskRefused` of its own class, refused. -/
inductive SizingRefusal where
  | unfundable (conviction : ℕ)
  | noWholeShare (conviction : ℕ) (budget maxEntry : ℚ)
  | noContract (conviction : ℕ) (per budget : ℚ)
  | bookFull (positions pending : ℕ) (maxPos : ℤ)
  | reserve (cash notional reserve : ℚ)
  | sameName (symbol : String) (notional same pct equity : ℚ)
  | optionCap (notional pct equity : ℚ)
  | openPremium (openPremium notional pct : ℚ)
  | cluster (symbol : String) (held notional capPct : ℚ)
  | stopAboveFill (trigger fill : ℚ)
  | askBelowInvalidation
deriving DecidableEq, Repr

/-- The two sections of `rules.yml`. -/
inductive Section where
  | manual | strategy
deriving DecidableEq, Repr

/-- The exceptions a modelled function can leave with. -/
inductive Exc where
  | deskRefused (r : Refusal)
  | sizingRefused (r : SizingRefusal)
  | keyError (sec : Section) (key : String)
  | missingQuote (symbol : String)
  | notOsi (osi : String)
  | divisionByZero
  | integrityError
  | assertion
  | noSuchCall (proposalId callId : ℕ)
  | unauthorized
  | brokerError
  | indexError
  | valueError
  | typeError
  | crashed
  | diverged
deriving DecidableEq, Repr

end TradeDesk
