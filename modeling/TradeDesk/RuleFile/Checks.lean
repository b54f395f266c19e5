import TradeDesk.RuleFile.Load
import Mathlib.Data.List.Lex
import Mathlib.Data.List.Sort
import Mathlib.Data.String.Basic

/-!
# The consistency checker

`tc/rules/consistency.py`: ten checks that the documents, the scripts and
the configuration say what `rules.yml` says, each a list of findings and a
count of what it looked at. `run_checks` runs them one after another and
puts their findings into one report.

A check that raises ends the run, and the report with it. `_lines` reads a
file so that neither its bytes nor its permissions can raise; what a check
does beside that is modelled with every exception it can leave with.
-/

namespace TradeDesk.RuleFile

open TradeDesk.Research (splitlines)

/-! ## Patterns -/

/-- A regular expression. -/
inductive Pattern where
  | never
  | empty
  | one (p : Char → Bool)
  | cat (a b : Pattern)
  | alt (a b : Pattern)
  | star (a : Pattern)

namespace Pattern

def nullable : Pattern → Bool
  | never | one _ => false
  | empty | star _ => true
  | cat a b => a.nullable && b.nullable
  | alt a b => a.nullable || b.nullable

/-- What is left of the pattern after one character. -/
def after (c : Char) : Pattern → Pattern
  | never | empty => never
  | one p => if p c then empty else never
  | cat a b => if a.nullable then alt (cat (a.after c) b) (b.after c) else cat (a.after c) b
  | alt a b => alt (a.after c) (b.after c)
  | star a => cat (a.after c) (star a)

/-- It matches at the front of the text. -/
def atFront (r : Pattern) : List Char → Bool
  | [] => r.nullable
  | c :: cs => r.nullable || (r.after c).atFront cs

/-- `re.search`, as a truth value. -/
def search (r : Pattern) (cs : List Char) : Bool := cs.tails.any r.atFront

/-- `re.search` of `^…` with `MULTILINE`. -/
def searchLines (r : Pattern) (cs : List Char) : Bool :=
  (cs :: cs.tails.filterMap fun
    | '\n' :: rest => some rest
    | _ => none).any r.atFront

/-- These characters, each as `same` compares it. -/
def literalBy (same : Char → Char → Bool) (s : String) : Pattern :=
  s.toList.foldr (fun c r => cat (one (same c)) r) empty

def literal (s : String) : Pattern := literalBy (fun c d => d == c) s

/-- `(a|b|…)`. -/
def anyOf (words : List String) : Pattern := (words.map literal).foldr alt never

/-- One after another. -/
def inOrder (parts : List Pattern) : Pattern := parts.foldr cat empty

end Pattern

/-- `\s`. -/
def space : Pattern := .one isSpace

/-- `[^|]*`. -/
def noBar : Pattern := .star (.one (· != '|'))

def HARDCODE : Pattern :=
  .inOrder [.literal "*", .star space, .anyOf ["35", "30", "20", "15", "10", "50"], .star space,
    .literal "/", .star space, .literal "100"]

def UNGATED : String := "--jesus-take-the-wheel"

def CROSS_BASIS : Pattern :=
  let compares := Pattern.anyOf ["<=", "≤", ">=", "≥"]
  .alt (.inOrder [.literal "comp_capital", noBar, compares, noBar, .anyOf ["halt", "hwm"]])
    (.inOrder [.anyOf ["halt", "hwm"], noBar, compares, noBar, .literal "comp_capital"])

def CROSS_BASIS_PY : Pattern :=
  let compares := Pattern.anyOf ["<=", ">=", "<", ">"]
  .alt (.inOrder [.literal "comp_capital", .star space, compares, .star space,
      .anyOf ["halt", "hwm"]])
    (.inOrder [.anyOf ["halt", "hwm"], .star space, compares, .star space,
      .literal "comp_capital"])

def ENDGAME : Pattern :=
  .inOrder [.anyOf ["lockout", "flat by", "END_DATE"], noBar, .anyOf ["9/", "2026-09"]]

/-- How `IGNORECASE` compares a small letter: `ſ` is an `s`. -/
def sameLetter (c d : Char) : Bool := d.toLower == c || (c == 's' && d == 'ſ')

def ENDGAME_OK : Pattern :=
  (["removed", "deleted", "no longer", "was "].map (Pattern.literalBy sameLetter)).foldr
    .alt .never

def DEAD_KEYS : List String :=
  ["window_start", "window_end", "final_session", "lockout_start", "lockout_final_sessions",
    "all_options_flat_by", "last_leveraged_entry"]

def RETIRED_STRATEGY_KEYS : List String :=
  ["sleeve_core_pct", "sleeve_catalyst_pct", "max_deployed_pct", "catalyst_min_whole_shares",
    "stall_rule_consecutive_closes", "stall_rule_from_session", "ratchet_breakeven_at_gain_pct",
    "ratchet_entry_plus8_at_gain_pct", "option_expiry_min_days_past_earnings",
    "option_expiry_max_days_past_earnings", "scout_entry_window_min_days",
    "scout_entry_window_max_days"]

/-- `re.search(rf"^\s+{k}:", text, re.MULTILINE)`. -/
def carriesKey (k : String) (text : String) : Bool :=
  (Pattern.inOrder [space, .star space, .literal k, .literal ":"]).searchLines text.toList

/-! ## Annotations -/

/-- A match of `ANNOTATION`. -/
structure Mark where
  num : List Char
  key : List Char
deriving DecidableEq, Repr

/-- `[0-9]`. -/
def isAsciiDigit (c : Char) : Bool := '0' ≤ c && c ≤ '9'

/-- `[a-zA-Z0-9_]`. -/
def isKeyChar (c : Char) : Bool :=
  isAsciiDigit c || ('a' ≤ c && c ≤ 'z') || ('A' ≤ c && c ≤ 'Z') || c == '_'

/-- What follows these characters, if the text starts with them. -/
def afterLiteral (s : String) (cs : List Char) : Option (List Char) :=
  if s.toList.isPrefixOf cs then some (cs.drop s.toList.length) else none

/-- `ANNOTATION.match` here, and what is left behind it. A number is taken as
long as it goes: what may follow it cannot be part of it. -/
def annotationAt (cs : List Char) : Option (Mark × List Char) := do
  let num := cs.takeWhile fun c => isAsciiDigit c || c == '.'
  let rest := cs.drop num.length
  let rest := match rest with
    | '%' :: rest => rest
    | rest => rest
  let rest ← afterLiteral "**<!--rule:" rest
  let key := rest.takeWhile isKeyChar
  let rest ← afterLiteral "-->" (rest.drop key.length)
  if num.head?.any isAsciiDigit && !key.isEmpty then return (⟨num, key⟩, rest) else none

/-- The matches in a text of which this many characters are matched already. -/
def annotationsFrom : ℕ → List Char → List Mark
  | _, [] => []
  | skip + 1, _ :: cs => annotationsFrom skip cs
  | 0, c :: cs =>
    match annotationAt (c :: cs) with
    | some (a, rest) => a :: annotationsFrom (cs.length - rest.length) cs
    | none => annotationsFrom 0 cs

/-- `ANNOTATION.finditer(line)`. -/
def annotations (line : List Char) : List Mark := annotationsFrom 0 line

example : annotations "cap **35%**<!--rule:manual_cap--> 9.5**<!--rule:k-->".toList =
    [⟨"35".toList, "manual_cap".toList⟩, ⟨"9.5".toList, "k".toList⟩] := by decide +kernel

/-! ## Findings -/

structure Finding where
  check : String
  path : Option String
  line : Option ℕ
  message : String
deriving DecidableEq, Repr

structure Report where
  findings : List Finding
  /-- how much each check looked at -/
  checked : List (String × ℕ)
deriving DecidableEq, Repr

/-- What a check can leave with. -/
inductive Raised where
  | keyError (sec key : String)
  | invalidOperation
  | valueError
  | overflowError
  | unicodeDecodeError (text : String)
  /-- whatever `yaml.safe_load` lets through -/
  | fromYaml (text : String)
deriving DecidableEq, Repr

abbrev Check := Except Raised (List Finding × ℕ)

def orRaise (e : Raised) (x : Option α) : Except Raised α :=
  match x with
  | some a => .ok a
  | none => .error e

/-! ## Files -/

def SKIP_DIRS : List String :=
  [".git", ".venv", "node_modules", "archive", ".playwright-mcp", "__pycache__", ".mypy_cache",
    ".pytest_cache", ".ruff_cache", ".hypothesis"]

/-- `p.suffix`: from the last dot of the name on, unless that is its first
character or its last. -/
def suffixOf (name : String) : String :=
  let tail := (name.toList.reverse.takeWhile (· != '.')).reverse
  if tail.length + 1 < name.toList.length && !tail.isEmpty then String.ofList ('.' :: tail)
  else ""

/-- The file is one that is checked. -/
def isWalked (suffixes : Option (List String)) (e : Path × Entry) : Bool :=
  e.2 != .directory &&
    (suffixes.all fun ss => ss.contains (suffixOf (e.1.getLastD ""))) &&
    !(e.1.any SKIP_DIRS.contains) &&
    !(e.1.dropLast.any fun part => ".egg-info".toList.isSuffixOf part.toList)

/-- `sorted`, by the parts of a path. -/
def sortPaths (ps : List Path) : List Path := ps.insertionSort (· ≤ ·)

section

variable (t : Tree) (texts : Texts)

/-- `_walk(root, suffixes, under)`. -/
def walk (suffixes : Option (List String)) (under : Option (List String)) : List Path :=
  let below (base : Path) := sortPaths ((t.entries.filter fun e =>
    base.isPrefixOf e.1 && base != e.1 && isWalked suffixes e).map (·.1))
  match under with
  | none => below []
  | some dirs => dirs.flatMap fun d => below [d]

/-- `_lines`: the numbered lines, or none and a finding. -/
def linesOf (p : Path) (check : String) : List Finding × List (List Char × ℕ) :=
  match t.readReplaced texts p with
  | .ok s => ([], (splitlines s.toList).zipIdx 1)
  | .error e => ([⟨check, some p.rel, none, "unreadable: " ++ e⟩], [])

/-- `line.lstrip().startswith("#")`. -/
def isComment (line : List Char) : Bool := (line.dropWhile isSpace).head? == some '#'

/-- A check that reports every line of these files it finds `bad`. -/
def grep (check message : String) (bad : List Char → Bool) (files : List Path) : List Finding :=
  files.flatMap fun p =>
    let (unread, lines) := linesOf t texts p check
    unread ++ (lines.filter fun l => bad l.1).map fun l => ⟨check, some p.rel, some l.2, message⟩

/-! ## The checks that read rule values -/

/-- What each annotated key stands for; of two entries for one name the later
counts. -/
def ruleTable (rules : Rules) : Option (List (String × Decimal)) := do
  let named (sec : String) (e : YamlKey × Decimal) : Option (String × Decimal) :=
    e.1.text.map fun k => (sec ++ k, e.2)
  let manual ← rules.manual.mapM (named "manual_")
  let strategy ← rules.strategy.mapM (named "strategy_")
  return (manual ++ strategy).reverse

/-- One match on one line. -/
def checkMark (table : List (String × Decimal)) (p : Path) (i : ℕ) (a : Mark) :
    Except Raised (List Finding) := do
  let key := String.ofList a.key
  let found (message : String) : Finding := ⟨"annotations", some p.rel, some i, message⟩
  let stated ← orRaise .invalidOperation (Decimal.ofText (String.ofList a.num))
  match table.lookup key with
  | none => return [found ("unknown rule '" ++ key ++ "'")]
  | some value =>
    let differs ← orRaise .invalidOperation (stated.ne? value)
    return if differs then
        [found ("states " ++ texts.decimal stated ++ " but rules.yml has " ++ key ++ " = " ++
          texts.decimal value)]
      else []

/-- The annotations of one file. -/
def checkFile (table : List (String × Decimal)) (p : Path) : Check := do
  let (unread, lines) := linesOf t texts p "annotations"
  let marks := lines.flatMap fun l => (annotations l.1).map fun a => (l.2, a)
  let findings ← marks.mapM fun m => checkMark texts table p m.1 m.2
  return (unread ++ findings.flatten, marks.length)

def checkAnnotations (rules : Rules) : Check := do
  let table ← orRaise .valueError (ruleTable rules)
  let files ← (walk t (some [".md"]) none).mapM (checkFile t texts table)
  return (files.flatMap (·.1), (files.map (·.2)).sum)

end

/-- `rules.get(section, key)`. -/
def Rules.get (r : Rules) (sec key : String) : Except Raised Decimal :=
  orRaise (.keyError sec key) ((if sec = "manual" then r.manual else r.strategy).lookup (.str key))

/-- Which side a strategy value must be on. -/
inductive Tighter where
  | ge | le
deriving DecidableEq, Repr

structure TightnessRow where
  skey : String
  mkey : String
  side : Tighter
  label : String
deriving DecidableEq, Repr

def TIGHTNESS : List TightnessRow :=
  [⟨"option_min_delta", "option_min_delta", .ge, "delta-floor"⟩,
    ⟨"leveraged_exit_session", "leveraged_max_hold_sessions", .le, "leveraged-hold"⟩,
    ⟨"sleeve_options_open_pct", "option_open_premium_pct", .le, "options-open"⟩,
    ⟨"sleeve_leveraged_pct", "leveraged_aggregate_pct", .le, "leveraged-aggregate"⟩,
    ⟨"size_shares_pct_conviction_5", "single_position_pct", .le, "shares-conviction-5"⟩,
    ⟨"size_option_premium_pct_conviction_5", "option_single_position_pct", .le,
      "option-conviction-5"⟩]

section

variable (texts : Texts)

/-- A finding about the file as a whole. -/
def aboutRules (check message : String) : Finding := ⟨check, some "rules.yml", none, message⟩

def checkRow (rules : Rules) (row : TightnessRow) : Except Raised (List Finding) := do
  let s ← rules.get "strategy" row.skey
  let m ← rules.get "manual" row.mkey
  let ok ← orRaise .invalidOperation (match row.side with
    | .ge => m.le? s
    | .le => s.le? m)
  return if ok then []
    else [aboutRules "tightness" (row.label ++ ": strategy " ++ texts.decimal s ++
      " is LOOSER than manual " ++ texts.decimal m)]

def checkTightness (rules : Rules) : Check := do
  let rows ← TIGHTNESS.mapM (checkRow texts rules)
  return (rows.flatten, TIGHTNESS.length)

/-- `int(rules.get("manual", key))`. -/
def Rules.getInt (rules : Rules) (key : String) : Except Raised ℤ := do
  let d ← rules.get "manual" key
  orRaise (if d.isNan then .valueError else .overflowError) d.int?

/-- `arith.dte_floor_identity_holds`. -/
def dteFloorIdentityHolds (rules : Rules) : Except Raised Bool := do
  let closeAt ← rules.getInt "option_close_at_dte"
  let blind ← rules.getInt "option_max_blind_days"
  let margin ← rules.getInt "option_dte_execution_margin_days"
  let minDte ← rules.getInt "option_min_dte"
  return minDte == closeAt + blind + margin

def checkDerived (rules : Rules) : Check := do
  let identity ← dteFloorIdentityHolds rules
  let mn ← rules.get "manual" "option_min_delta"
  let mx ← rules.get "manual" "option_max_delta"
  let sd ← rules.get "strategy" "option_min_delta"
  let upright ← orRaise .invalidOperation (mn.lt? mx)
  let above ← orRaise .invalidOperation (mn.le? sd)
  -- `mn <= sd <= mx` looks at the second half only if the first is true
  let inside ← if above then orRaise .invalidOperation (sd.le? mx) else pure false
  let found := aboutRules "derived"
  return ((if identity then []
      else [found "option_min_dte != close_at_dte + max_blind_days + execution_margin"]) ++
    (if upright then []
      else [found ("option delta band inverted: " ++ texts.decimal mn ++ " >= " ++
        texts.decimal mx)]) ++
    (if inside then []
      else [found ("strategy option_min_delta " ++ texts.decimal sd ++ " outside band " ++
        texts.decimal mn ++ "-" ++ texts.decimal mx)]), 3)

end

/-! ## The checks that read text -/

section

variable (t : Tree) (texts : Texts)

def checkDeadKeys : Check :=
  match t.readText texts ["rules.yml"] with
  | .error (.osError e) => .ok ([aboutRules "dead_keys" ("unreadable: " ++ e)], 0)
  | .error (.unicodeDecodeError e) => .error (.unicodeDecodeError e)
  | .ok text =>
    let dead := (DEAD_KEYS.filter fun k => carriesKey k text).map fun k =>
      aboutRules "dead_keys" ("carries '" ++ k ++
        "' — §8 and the endgame calendar were deleted 2026-08-31")
    let retired := (RETIRED_STRATEGY_KEYS.filter fun k => carriesKey k text).map fun k =>
      aboutRules "dead_keys" ("carries '" ++ k ++
        "' — retired with the trading desk 2026-09-27 (strategy.md §12)")
    .ok (dead ++ retired, DEAD_KEYS.length + RETIRED_STRATEGY_KEYS.length)

def checkHardcoded : Check :=
  let files := (walk t (some [".sh"]) (some ["scripts"]) ++
    walk t (some [".py"]) (some ["engine"])).filter fun p =>
      !List.contains ["lib-rules.sh", "check-consistency.sh", "consistency.py"] (p.getLastD "")
  .ok (grep t texts "hardcoded" "hard-codes a rule percentage — read it from rules.yml"
    (fun l => !isComment l && HARDCODE.search l) files, files.length)

def checkUngated : Check :=
  let files := (walk t none (some ["docker", "scripts", ".claude", "engine"])).filter fun p =>
    !List.contains ["check-consistency.sh", "consistency.py"] (p.getLastD "")
  .ok (grep t texts "ungated_broker" "bypasses the Discord approval gate"
    (fun l => (Pattern.literal UNGATED).search l && !isComment l) files, files.length)

def checkCrossBasis : Check :=
  let docs := walk t (some [".md"]) (some [".claude"])
  let code := (walk t (some [".py"]) (some ["engine"])).filter fun p =>
    p.getLastD "" != "consistency.py"
  let message := "compares comp_capital against halt/HWM — false halt"
  .ok (grep t texts "cross_basis" message CROSS_BASIS.search docs ++
    grep t texts "cross_basis" message (fun l => !isComment l && CROSS_BASIS_PY.search l) code,
    docs.length + code.length)

def checkEndgame : Check :=
  let sr : Path := ["scripts", "scheduled-run.sh"]
  let files := walk t (some [".md"]) (some [".claude"]) ++
    (if (t.entries.lookup sr).isSome then [sr] else [])
  .ok (grep t texts "endgame" "live endgame date from the deleted §8"
    (fun l => ENDGAME.search l && !ENDGAME_OK.search l) files, files.length)

end

/-! ## The tool registry and the schedule -/

def COMMON_TOOLS : List String := ["ping"]

def READ_TOOLS : List String :=
  ["get_datetime", "market_hours", "quotes", "price_history", "option_chain", "expiration_chain",
    "instruments", "movers", "status_latest", "rules"]

def DECIDE_ONLY_READ_TOOLS : List String := ["book"]

def ANALYST_TOOLS : List String := ["briefing", "pitch_submit", "pitch_withdraw", "my_record"]

def PM_TOOLS : List String :=
  ["paper_book", "pitches_read", "scorecard", "option_candidates", "call_submit", "call_extend",
    "call_tighten", "exit_request"]

def DECIDE_TOOLS : List String := []

def ROLE_TOOLS : List (String × List String) :=
  [("research", COMMON_TOOLS ++ READ_TOOLS ++ ANALYST_TOOLS),
    ("decide", COMMON_TOOLS ++ READ_TOOLS ++ DECIDE_ONLY_READ_TOOLS ++ PM_TOOLS ++ DECIDE_TOOLS)]

def FORBIDDEN : Pattern := .anyOf ["place", "cancel", "replace", "order"]

def forbiddenTools : List (String × String) :=
  ROLE_TOOLS.flatMap fun e =>
    (e.2.filter fun name => FORBIDDEN.search name.toList).map fun name => (e.1, name)

/-- The keys of `JOB_SPECS`. -/
def JOB_SPECS : List String :=
  ["analyst_technical", "analyst_earnings", "analyst_news", "analyst_macro", "preopen_news",
    "preopen_earnings", "pm", "pm_midday"]

def CHAINED_JOBS : List String :=
  ["analyst_technical", "analyst_earnings", "analyst_news", "analyst_macro", "preopen_news",
    "preopen_earnings"]

def JOBS : List String :=
  ["tick", "session_close", "token_check", "expectations", "backup", "weekly_universe",
    "bars_refresh", "scorecard_weekly", "desk_watch", "desk_evening", "desk_preopen"] ++ JOB_SPECS

section

variable (texts : Texts)

def checkToolRegistry : Check :=
  .ok (forbiddenTools.map fun e => ⟨"tool_registry", some "engine/tc/mcp/registry.py", none,
    "role " ++ texts.repr e.1 ++ " exposes order-shaped tool " ++ texts.repr e.2⟩,
    (ROLE_TOOLS.map fun e => e.2.length).sum)

variable (safeLoad : String → Except YamlError Yaml) (t : Tree)

def aboutConfig (message : String) : Finding :=
  ⟨"schedule_vs_doc", some "config.yml", none, message⟩

/-- The `schedule` of a loaded configuration, when it is a mapping. -/
def scheduleBlock (cfg : Yaml) : Option (List (YamlKey × Yaml)) :=
  match cfg with
  | .mapping _ items => match items.lookup (.str "schedule") with
    | some (.mapping _ block) => some block
    | _ => none
  | _ => none

/-- `_schedule`: findings and the names scheduled. The values are turned into
texts as well, and used no further. -/
def schedule : Except Raised (List Finding × List String) :=
  match t.readText texts ["config.yml"] with
  | .error (.osError e) => .ok ([aboutConfig ("unreadable: " ++ e)], [])
  | .error (.unicodeDecodeError e) => .error (.unicodeDecodeError e)
  | .ok text =>
    match safeLoad text with
    | .error (.yaml e) => .ok ([aboutConfig ("unreadable: " ++ e)], [])
    | .error (.other e) => .error (.fromYaml e)
    | .ok cfg =>
      match scheduleBlock cfg with
      | none => .ok ([aboutConfig "no schedule block"], [])
      | some block => do
        let names ← block.mapM fun e => do
          let k ← orRaise .valueError e.1.text
          if e.2.hasText then return k else .error .valueError
        return ([], names.dedup)

def checkScheduleVsDoc : Check := do
  let (findings, names) ← schedule texts safeLoad t
  let unknown := (names.filter fun n => !JOBS.contains n).insertionSort (· ≤ ·)
  let silent := (JOB_SPECS.filter fun n =>
    !CHAINED_JOBS.contains n && !names.contains n).insertionSort (· ≤ ·)
  return (findings ++
    (unknown.map fun n => aboutConfig ("schedules " ++ texts.repr n ++
      ", which is not a job the engine knows")) ++
    silent.map fun n => aboutConfig (texts.repr n ++
      " has a job spec but no schedule entry: it can never fire"), names.length)

/-! ## The report -/

/-- `CHECKS`: each check's name, itself, and whether it needs rules. -/
def CHECKS : List (String × (Rules → Check) × Bool) :=
  [("annotations", checkAnnotations t texts, true),
    ("tightness", checkTightness texts, true),
    ("derived", checkDerived texts, true),
    ("dead_keys", fun _ => checkDeadKeys t texts, false),
    ("hardcoded", fun _ => checkHardcoded t texts, false),
    ("ungated_broker", fun _ => checkUngated t texts, false),
    ("cross_basis", fun _ => checkCrossBasis t texts, false),
    ("endgame", fun _ => checkEndgame t texts, false),
    ("tool_registry", fun _ => checkToolRegistry texts, false),
    ("schedule_vs_doc", fun _ => checkScheduleVsDoc texts safeLoad t, false)]

/-- One check, added to the report. -/
def runCheck (loaded : Option Rules) (rep : Report) (c : String × (Rules → Check) × Bool) :
    Except Raised Report :=
  if c.2.2 && loaded.isNone then .ok rep
  else do
    let (findings, n) ← c.2.1 (loaded.getD Rules.placeholder)
    return ⟨rep.findings ++ findings, rep.checked ++ [(c.1, n)]⟩

/-- The rules the checks are run with, and the report to begin with. -/
def loadRules (rules : Option Rules) : Option Rules × Report :=
  match rules with
  | some r => (some r, ⟨[], []⟩)
  | none => match Rules.load texts safeLoad t with
    | .ok r => (some r, ⟨[], []⟩)
    | .error e => (none, ⟨[aboutRules "rules_load" ("cannot load rules.yml: " ++ e)], []⟩)

/-- `run_checks(root, rules)`. -/
def runChecks (rules : Option Rules) : Except Raised Report :=
  let (loaded, rep) := loadRules texts safeLoad t rules
  (CHECKS texts safeLoad t).foldlM (runCheck loaded) rep

end

end TradeDesk.RuleFile
