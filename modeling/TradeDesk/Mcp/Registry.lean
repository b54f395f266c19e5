import TradeDesk.Jobs.Dispatch
import TradeDesk.Lists.Dict
import Mathlib.Data.List.Sort

/-!
# The tools of a role

`engine/tc/mcp/registry.py` says which tools a role has, and
`build_servers` makes a server for each role: the registrars put tools on it,
and what they put there is held against the table. A registrar is any change
of a server, and may raise. So whatever the registrars are, a server that is
built has exactly the declared names, and none is shaped like an order
(`buildServer_names`); unless stubs are allowed, all of it is the
registrars' own.

A tool is its name and whether it is a stub; what it does is left out.
-/

namespace TradeDesk.Mcp

open TradeDesk.Jobs (Role)
open TradeDesk.Lists

/-! ## The table -/

def commonTools : List String := ["ping"]

def readTools : List String :=
  ["get_datetime", "market_hours", "quotes", "price_history", "option_chain", "expiration_chain",
    "instruments", "movers", "status_latest", "rules"]

def decideOnlyReadTools : List String := ["book"]

def analystTools : List String := ["briefing", "pitch_submit", "pitch_withdraw", "my_record"]

def pmTools : List String :=
  ["paper_book", "pitches_read", "scorecard", "option_candidates", "call_submit", "call_extend",
    "call_tighten", "exit_request"]

def decideTools : List String := []

/-- `ROLE_TOOLS`. -/
def roleTools : Role → List String
  | .research => commonTools ++ readTools ++ analystTools
  | .decide => commonTools ++ readTools ++ decideOnlyReadTools ++ pmTools ++ decideTools

/-- `ROLES`. -/
def roles : List Role := [.research, .decide]

/-- The alternatives of `FORBIDDEN`. -/
def forbiddenWords : List String := ["place", "cancel", "replace", "order"]

/-- `FORBIDDEN.search(name)`. -/
def orderShaped (name : String) : Bool :=
  forbiddenWords.any fun word => name.toList.tails.any fun t => word.toList.isPrefixOf t

/-! ## Servers -/

/-- The tool manager: each name, and whether it is a stub. -/
abbrev Server := Dict String Bool

/-- `add_tool`: a name that is taken keeps its tool. -/
def addTool (server : Server) (name : String) (stub : Bool) : Server :=
  if server.has name then server else server.set name stub

inductive BuildError where
  | orderShaped (role : Role) (place : String) (names : List String)
  | undeclared (role : Role) (names : List String)
  | missing (role : Role) (names : List String)
  | registrar

abbrev Registrar := Server → Except BuildError Server

def sorted (names : List String) : List String := names.mergeSort (· ≤ ·)

/-- `_refuse_order_shaped`. -/
def refuseOrderShaped (role : Role) (names : List String) (place : String) :
    Except BuildError Unit :=
  let offenders := sorted (names.filter orderShaped)
  if offenders = [] then .ok () else .error (.orderShaped role place offenders)

/-- `_register_pending`. -/
def registerPending (server : Server) (missing : List String) : Server :=
  missing.foldl (fun s name => addTool s name true) server

/-- The server as `ping` and the registrars leave it. -/
def registered (registrars : List Registrar) : Except BuildError Server :=
  registrars.foldlM (fun server register => register server) (addTool Dict.empty "ping" false)

/-- One turn of the loop of `build_servers`. -/
def buildServer (registrars : List Registrar) (allowStubs : Bool) (role : Role) :
    Except BuildError Server := do
  refuseOrderShaped role (roleTools role) "declares"
  let server ← registered registrars
  refuseOrderShaped role server.keys "registered"
  let undeclared := sorted (server.keys.filter (· ∉ roleTools role))
  if undeclared ≠ [] then throw (.undeclared role undeclared)
  let missing := sorted ((roleTools role).dedup.filter (· ∉ server.keys))
  if missing ≠ [] ∧ allowStubs = false then throw (.missing role missing)
  return registerPending server missing

/-- `build_servers`: a server for each role of the table. -/
def buildServers (registrars : Role → List Registrar) (allowStubs : Bool) :
    Except BuildError (Dict Role Server) := do
  let research ← buildServer (registrars .research) allowStubs .research
  let decide_ ← buildServer (registrars .decide) allowStubs .decide
  return (Dict.empty.set .research research).set .decide decide_

/-! ## What is built -/

theorem sorted_eq_nil {names : List String} : sorted names = [] ↔ names = [] := by
  unfold sorted
  rw [← List.length_eq_zero_iff, List.length_mergeSort, List.length_eq_zero_iff]

theorem mem_keys_addTool {server : Server} {name other : String} {stub : Bool} :
    other ∈ (addTool server name stub).keys ↔ other ∈ server.keys ∨ other = name := by
  unfold addTool
  split
  next h =>
    refine ⟨Or.inl, fun hmem => ?_⟩
    rcases hmem with hmem | rfl
    · exact hmem
    · exact Dict.mem_keys_iff.mpr h
  next h =>
    rw [Dict.mem_keys_iff, Dict.mem_keys_iff, Dict.get?_set]
    by_cases heq : other = name
    · simp [heq]
    · simp [heq]

theorem mem_keys_registerPending {server : Server} {missing : List String} {other : String} :
    other ∈ (registerPending server missing).keys ↔ other ∈ server.keys ∨ other ∈ missing := by
  unfold registerPending
  induction missing generalizing server with
  | nil => simp
  | cons name missing ih =>
    rw [List.foldl_cons, ih, mem_keys_addTool, List.mem_cons, or_assoc]

theorem refuseOrderShaped_ok {role : Role} {names : List String} {place : String}
    (h : refuseOrderShaped role names place = .ok ()) :
    ∀ name ∈ names, orderShaped name = false := by
  unfold refuseOrderShaped at h
  dsimp only at h
  split at h
  next hnil =>
    rw [sorted_eq_nil, List.filter_eq_nil_iff] at hnil
    intro name hname
    simpa using hnil name hname
  next => cases h

/-- **A server is what its role declares.** Whatever the registrars do, a
server that is built has the declared names and no others, and none of them
is shaped like an order; with no stubs allowed it is as the registrars left
it. -/
theorem buildServer_names {registrars : List Registrar} {allowStubs : Bool} {role : Role}
    {server : Server} (h : buildServer registrars allowStubs role = .ok server) :
    (∀ name, name ∈ server.keys ↔ name ∈ roleTools role) ∧
      (∀ name ∈ server.keys, orderShaped name = false) ∧
      (allowStubs = false → registered registrars = .ok server) := by
  unfold buildServer at h
  simp only [bind, Except.bind, pure, Except.pure, throw, throwThe, MonadExceptOf.throw] at h
  split at h
  · cases h
  next hdeclared =>
    split at h
    · cases h
    next left hleft =>
      split at h
      · cases h
      next hshaped =>
        split at h
        · cases h
        next hundeclared =>
          split at h
          · cases h
          next hmissing =>
            obtain rfl := Except.ok.inj h
            have hdeclares := refuseOrderShaped_ok hdeclared
            have hleftDeclared : ∀ name ∈ left.keys, name ∈ roleTools role := by
              rw [not_not, sorted_eq_nil, List.filter_eq_nil_iff] at hundeclared
              intro name hname
              simpa using hundeclared name hname
            have hnames : ∀ name, name ∈ (registerPending left
                (sorted ((roleTools role).dedup.filter (· ∉ left.keys)))).keys ↔
                  name ∈ roleTools role := by
              intro name
              rw [mem_keys_registerPending, sorted, List.mem_mergeSort, List.mem_filter,
                List.mem_dedup]
              by_cases hleft : name ∈ left.keys
              · simp [hleft, hleftDeclared name hleft]
              · simp [hleft]
            refine ⟨hnames, fun name hname => hdeclares name ((hnames name).mp hname), ?_⟩
            intro hstubs
            have hnone : sorted ((roleTools role).dedup.filter (· ∉ left.keys)) = [] := by
              by_contra hne
              exact hmissing ⟨hne, hstubs⟩
            rw [hnone]
            exact hleft

theorem roleTools_plain (role : Role) : ∀ name ∈ roleTools role, orderShaped name = false := by
  cases role <;> decide +kernel

theorem refuseOrderShaped_plain {role : Role} {names : List String} {place : String}
    (h : ∀ name ∈ names, orderShaped name = false) :
    refuseOrderShaped role names place = .ok () := by
  unfold refuseOrderShaped
  dsimp only
  rw [if_pos]
  rw [sorted_eq_nil, List.filter_eq_nil_iff]
  intro name hname
  simp [h name hname]

/-- With no stubs allowed a role's server is built exactly where the
registrars supply what the role declares. -/
theorem buildServer_iff {registrars : List Registrar} {role : Role} {server : Server} :
    buildServer registrars false role = .ok server ↔
      registered registrars = .ok server ∧ ∀ name, name ∈ server.keys ↔ name ∈ roleTools role := by
  constructor
  · intro h
    obtain ⟨hnames, -, hleft⟩ := buildServer_names h
    exact ⟨hleft rfl, hnames⟩
  · rintro ⟨hleft, hnames⟩
    have hundeclared : sorted (server.keys.filter (· ∉ roleTools role)) = [] := by
      rw [sorted_eq_nil, List.filter_eq_nil_iff]
      intro name hname
      simp [(hnames name).mp hname]
    have hmissing : sorted ((roleTools role).dedup.filter (· ∉ server.keys)) = [] := by
      rw [sorted_eq_nil, List.filter_eq_nil_iff]
      intro name hname
      simp [(hnames name).mpr (List.mem_dedup.mp hname)]
    have hplain : ∀ name ∈ server.keys, orderShaped name = false :=
      fun name hname => roleTools_plain role name ((hnames name).mp hname)
    unfold buildServer
    rw [refuseOrderShaped_plain (roleTools_plain role), hleft]
    simp only [bind, Except.bind, pure, Except.pure, refuseOrderShaped_plain hplain, hundeclared,
      hmissing, ne_eq, not_true_eq_false, false_and, if_false]
    rfl

/-- A role's server among those that are built. -/
theorem buildServers_get {registrars : Role → List Registrar} {allowStubs : Bool}
    {servers : Dict Role Server} (h : buildServers registrars allowStubs = .ok servers)
    (role : Role) : ∃ server, servers.get? role = some server ∧
      buildServer (registrars role) allowStubs role = .ok server := by
  unfold buildServers at h
  cases hresearch : buildServer (registrars .research) allowStubs .research with
  | error e =>
    rw [hresearch] at h
    cases h
  | ok research =>
    cases hdecide : buildServer (registrars .decide) allowStubs .decide with
    | error e =>
      rw [hresearch, hdecide] at h
      cases h
    | ok decide_ =>
      rw [hresearch, hdecide] at h
      obtain rfl := Except.ok.inj h
      cases role with
      | research => exact ⟨research, by simp, hresearch⟩
      | decide => exact ⟨decide_, by simp, hdecide⟩

end TradeDesk.Mcp
