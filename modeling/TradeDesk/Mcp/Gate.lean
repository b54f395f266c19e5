import TradeDesk.Mcp.Registry
import TradeDesk.Text
import Mathlib.Data.List.DropRight

/-!
# The gate before the tools

Each role's server is mounted under `/mcp/<role>`, and `RoleAuthMiddleware`
looks at every request first: the bearer says which role is asking, and the
path says whose tools are asked for. What is mounted is chosen by the router,
which is a parameter here; it is only known to put a mount's own paths there
(`MountsUnder`).

`mount_opens_iff` is when a request gets through to a role's tools, and
`tool_reached` what that says of a tool that is called.

A path is what the router and the gate both take it for, without the prefix
the application itself is mounted under. A header is Latin-1.
-/

namespace TradeDesk.Mcp

open TradeDesk.Jobs (Role)
open TradeDesk.Lists

/-! ## Tokens -/

structure RoleTokens where
  research : Option String
  decide : Option String

def RoleTokens.of (s : RoleTokens) : Role → Option String
  | .research => s.research
  | .decide => s.decide

/-- A token that is set and not empty. -/
def RoleTokens.set? (s : RoleTokens) (role : Role) : Option String :=
  (s.of role).filter (· ≠ "")

/-- `mcp_tokens`: each role's bearer; it raises where the two are one. -/
def RoleTokens.mcpTokens (s : RoleTokens) : Except String (List (String × Role)) :=
  if (s.set? .research).isSome ∧ s.set? .research = s.set? .decide then
    .error "mcp research and decide tokens must differ"
  else .ok (roles.filterMap fun role => (s.set? role).map fun t => (t, role))

/-! ## The middleware -/

def isAscii (s : String) : Bool := s.toList.all fun c => c.toNat < 128

/-- The loop of `_role_for`: `compare_digest` raises on a configured token
that is not ASCII. -/
def compareTokens (presented : String) : List (String × Role) → Except Unit (Option Role)
  | [] => .ok none
  | (token, role) :: rest =>
    if isAscii token = false then .error ()
    else if token = presented then .ok (some role)
    else compareTokens presented rest

/-- `_role_for`. -/
def roleFor (tokens : List (String × Role)) (presented : String) : Except Unit (Option Role) :=
  if isAscii presented then compareTokens presented tokens else .ok none

/-- `path.strip("/").split("/")[1]`, if there is one. -/
def wantedOf (path : List Char) : List Char :=
  (((path.dropWhile (· = '/')).rdropWhile (· = '/')).splitOn '/')[1]?.getD []

/-- `auth.lower().startswith("bearer ")`: of Latin-1 only ASCII is lowered
into ASCII. -/
def isBearer (auth : List Char) : Bool := "bearer ".toList.isPrefixOf (auth.map Char.toLower)

/-- `auth.split(" ", 1)[1].strip()`. -/
def presentedOf (auth : List Char) : String :=
  String.ofList (stripChars ((auth.dropWhile (· ≠ ' ')).drop 1))

/-- What the middleware does with a request. -/
inductive Answer where
  | passed
  | missingBearer
  | badToken
  | wrongRole (role : Role) (wanted : List Char)
  | raised
deriving DecidableEq

/-- `dispatch`. -/
def dispatch (tokens : List (String × Role)) (path auth : List Char) : Answer :=
  if "/mcp/".toList.isPrefixOf path = false then .passed
  else if isBearer auth = false then .missingBearer
  else
    match roleFor tokens (presentedOf auth) with
    | .error () => .raised
    | .ok none => .badToken
    | .ok (some role) =>
      if wantedOf path ≠ role.text.toList then .wrongRole role (wantedOf path) else .passed

/-- The role whose server answers a request, if one does. -/
def serve (tokens : List (String × Role)) (router : List Char → Option Role)
    (path auth : List Char) : Option Role :=
  if dispatch tokens path auth = .passed then router path else none

/-- `Mount("/mcp/<role>", ...)`: what is routed there is under it. -/
def MountsUnder (router : List Char → Option Role) : Prop :=
  ∀ path role, router path = some role →
    "/mcp/".toList ++ role.text.toList ++ ['/'] <+: path

/-! ## What a path asks for -/

/-- Stripping the end of a text whose front does not end in what is
stripped. -/
theorem rdropWhile_front {α : Type} {p : α → Bool} {front : List α}
    (hfront : front.rdropWhile p = front) (u : List α) :
    ∃ t, (front ++ u).rdropWhile p = front ++ t ∧ t <+: u := by
  induction u using List.reverseRecOn with
  | nil =>
    refine ⟨[], ?_, List.prefix_refl _⟩
    rw [List.append_nil]
    exact hfront
  | append_singleton u x ih =>
    rw [← List.append_assoc, List.rdropWhile_concat]
    split
    · obtain ⟨t, heq, hpre⟩ := ih
      exact ⟨t, heq, hpre.trans (List.prefix_append _ _)⟩
    · exact ⟨u ++ [x], List.append_assoc _ _ _, List.prefix_refl _⟩

theorem role_noSlash (role : Role) : '/' ∉ role.text.toList := by
  cases role <;> decide

theorem role_text_injective {role role' : Role} (h : role.text.toList = role'.text.toList) :
    role = role' := by
  cases role <;> cases role' <;> first | rfl | exact absurd h (by decide)

/-- A path under a role's mount asks for that role. -/
theorem wantedOf_mount {path : List Char} {role : Role}
    (h : "/mcp/".toList ++ role.text.toList ++ ['/'] <+: path) :
    wantedOf path = role.text.toList := by
  obtain ⟨rest, rfl⟩ := h
  have hdrop : ("/mcp/".toList ++ role.text.toList ++ ['/'] ++ rest).dropWhile (· = '/') =
      ("mcp/".toList ++ role.text.toList) ++ '/' :: rest := by
    have hslash : "/mcp/".toList = '/' :: 'm' :: "cp/".toList := by decide
    have hmcp : "mcp/".toList = 'm' :: "cp/".toList := by decide
    rw [hslash, hmcp]
    simp only [List.cons_append, List.append_assoc, List.nil_append]
    rw [List.dropWhile_cons_of_pos (by decide), List.dropWhile_cons_of_neg (by decide)]
  have hfront : ("mcp/".toList ++ role.text.toList).rdropWhile (· = '/') =
      "mcp/".toList ++ role.text.toList := by
    cases role <;> decide
  obtain ⟨t, ht, hpre⟩ := rdropWhile_front hfront ('/' :: rest)
  have hsplit : ("mcp/".toList ++ role.text.toList ++ t).splitOn '/' =
      "mcp".toList :: (role.text.toList ++ t).splitOn '/' := by
    have hmcp : "mcp/".toList ++ role.text.toList ++ t =
        "mcp".toList ++ '/' :: (role.text.toList ++ t) := by
      have hslash : "mcp/".toList = "mcp".toList ++ ['/'] := by decide
      rw [hslash, List.append_assoc, List.append_assoc]
      rfl
    rw [hmcp, List.splitOn_append_cons_self_of_not_mem (by decide)]
  unfold wantedOf
  rw [hdrop, ht, hsplit, List.getElem?_cons_succ]
  cases t with
  | nil =>
    rw [List.append_nil, List.splitOn_eq_singleton (role_noSlash role)]
    rfl
  | cons c t =>
    obtain ⟨u, hu⟩ := hpre
    obtain rfl : c = '/' := (List.cons.inj hu).1
    rw [List.splitOn_append_cons_self_of_not_mem (role_noSlash role)]
    rfl

/-! ## Who gets through -/

/-- The bearer of a header, if it has one. -/
def presents (auth : List Char) : Option String :=
  if isBearer auth then some (presentedOf auth) else none

/-- No token that is compared on the way to this role's makes the comparison
raise. -/
def RoleTokens.Comparable (s : RoleTokens) (role : Role) : Prop :=
  ∀ r t, r = .research ∨ r = role → s.set? r = some t → isAscii t = true

variable {s : RoleTokens} {tokens : List (String × Role)} {router : List Char → Option Role}

/-- Two roles never have one token. -/
theorem mcpTokens_distinct (h : s.mcpTokens = .ok tokens) {r r' : Role} {t : String}
    (ht : s.set? r = some t) (ht' : s.set? r' = some t) : r = r' := by
  have hne : s.set? .research = s.set? .decide → (s.set? .research).isSome = true → False := by
    intro heq hsome
    unfold RoleTokens.mcpTokens at h
    rw [if_pos ⟨hsome, heq⟩] at h
    cases h
  cases r with
  | research =>
    cases r' with
    | research => rfl
    | decide => exact (hne (ht.trans ht'.symm) (by rw [ht]; rfl)).elim
  | decide =>
    cases r' with
    | research => exact (hne (ht'.trans ht.symm) (by rw [ht']; rfl)).elim
    | decide => rfl

/-- The comparisons find a role where its token is the one presented and those
before it are others, and can be compared. -/
theorem compareTokens_some {presented : String} {role : Role} :
    compareTokens presented tokens = .ok (some role) ↔
      ∃ before after, tokens = before ++ (presented, role) :: after ∧ isAscii presented = true ∧
        ∀ e ∈ before, isAscii e.1 = true ∧ e.1 ≠ presented := by
  induction tokens with
  | nil => simp [compareTokens]
  | cons e rest ih =>
    obtain ⟨token, r⟩ := e
    unfold compareTokens
    constructor
    · intro h
      split at h
      · cases h
      next hascii =>
        have hascii : isAscii token = true := by simpa using hascii
        split at h
        next heq =>
          obtain rfl := Option.some.inj (Except.ok.inj h)
          subst heq
          exact ⟨[], rest, rfl, hascii, fun e he => by cases he⟩
        next hne =>
          obtain ⟨before, after, rfl, hpresented, hbefore⟩ := ih.mp h
          refine ⟨(token, r) :: before, after, rfl, hpresented, fun e he => ?_⟩
          rcases List.mem_cons.mp he with rfl | he
          · exact ⟨hascii, hne⟩
          · exact hbefore e he
    · rintro ⟨before, after, heq, hpresented, hbefore⟩
      cases before with
      | nil =>
        obtain ⟨heq, -⟩ := List.cons.inj heq
        cases heq
        rw [if_neg (by simp [hpresented]), if_pos rfl]
      | cons x before =>
        obtain ⟨rfl, hrest⟩ := List.cons.inj heq
        obtain ⟨hascii, hne⟩ := hbefore _ List.mem_cons_self
        rw [if_neg (by simp [hascii]), if_neg hne]
        exact ih.mpr ⟨before, after, hrest, hpresented,
          fun e he => hbefore e (List.mem_cons_of_mem _ he)⟩

/-- The role of a bearer is the one whose token it is. -/
theorem roleFor_iff (h : s.mcpTokens = .ok tokens) (presented : String) (role : Role) :
    roleFor tokens presented = .ok (some role) ↔
      s.set? role = some presented ∧ s.Comparable role := by
  have htokens : tokens = roles.filterMap fun r => (s.set? r).map fun t => (t, r) := by
    unfold RoleTokens.mcpTokens at h
    split at h
    · cases h
    · exact (Except.ok.inj h).symm
  have hmem : ∀ t r, (t, r) ∈ tokens ↔ s.set? r = some t := by
    intro t r
    rw [htokens, List.mem_filterMap]
    constructor
    · rintro ⟨r', -, hr'⟩
      obtain ⟨t', ht', heq⟩ := Option.map_eq_some_iff.mp hr'
      cases heq
      exact ht'
    · intro ht
      exact ⟨r, by cases r <;> simp [roles], by rw [ht]; rfl⟩
  have hfirst : ∀ t, s.set? .research = some t → ∃ rest, tokens = (t, Role.research) :: rest := by
    intro t ht
    rw [htokens, roles, List.filterMap_cons_some (b := (t, Role.research)) (by rw [ht]; rfl)]
    exact ⟨_, rfl⟩
  unfold roleFor
  split
  next hascii =>
    rw [compareTokens_some]
    constructor
    · rintro ⟨before, after, heq, -, hbefore⟩
      refine ⟨(hmem presented role).mp (by simp [heq]), fun r t hr ht => ?_⟩
      rcases hr with rfl | rfl
      · -- the research token is listed first, so it is compared in any case
        obtain ⟨rest, hrest⟩ := hfirst t ht
        cases before with
        | nil =>
          rw [hrest] at heq
          obtain ⟨heq, -⟩ := List.cons.inj heq
          cases heq
          exact hascii
        | cons x before =>
          rw [hrest] at heq
          obtain ⟨rfl, -⟩ := List.cons.inj heq
          exact (hbefore _ List.mem_cons_self).1
      · have hsame := (hmem presented r).mp (by simp [heq])
        rw [ht] at hsame
        exact Option.some.inj hsame ▸ hascii
    · rintro ⟨hset, hcomp⟩
      obtain ⟨before, after, heq, hnew⟩ :=
        List.eq_append_cons_of_mem ((hmem presented role).mpr hset)
      refine ⟨before, after, heq, hascii, fun e he => ?_⟩
      obtain ⟨t, r⟩ := e
      have ht := (hmem t r).mp (by simp [heq, he])
      have hother : t ≠ presented := by
        rintro rfl
        rw [mcpTokens_distinct h ht hset] at he
        exact hnew he
      refine ⟨?_, hother⟩
      cases r with
      | research => exact hcomp .research t (Or.inl rfl) ht
      | decide =>
        cases role with
        | decide =>
          rw [ht] at hset
          exact absurd (Option.some.inj hset) hother
        | research =>
          -- its token comes first, with none before it
          obtain ⟨rest, hrest⟩ := hfirst presented hset
          cases before with
          | nil => cases he
          | cons x before =>
            rw [hrest] at heq
            obtain ⟨rfl, -⟩ := List.cons.inj heq
            exact absurd List.mem_cons_self hnew
  next hascii =>
    constructor
    · intro hnone
      cases Except.ok.inj hnone
    · rintro ⟨hset, hcomp⟩
      exact absurd (hcomp role presented (Or.inr rfl) hset) hascii

/-- Under a role's mount, what is let through has that role's bearer. -/
theorem dispatch_passed {path auth : List Char} {role : Role}
    (hunder : "/mcp/".toList ++ role.text.toList ++ ['/'] <+: path) :
    dispatch tokens path auth = .passed ↔
      isBearer auth = true ∧ roleFor tokens (presentedOf auth) = .ok (some role) := by
  have hmcp : "/mcp/".toList.isPrefixOf path = true := by
    rw [List.isPrefixOf_iff_prefix]
    rw [List.append_assoc] at hunder
    exact (List.prefix_append _ _).trans hunder
  unfold dispatch
  rw [hmcp, if_neg (by decide)]
  cases isBearer auth with
  | false => simp
  | true =>
    rw [if_neg (by decide)]
    cases roleFor tokens (presentedOf auth) with
    | error e => simp
    | ok found =>
      cases found with
      | none => simp
      | some r =>
        dsimp only
        rw [wantedOf_mount hunder]
        constructor
        · intro h
          split at h
          · cases h
          next hsame => exact ⟨rfl, by rw [role_text_injective (not_not.mp hsame)]⟩
        · rintro ⟨-, hr⟩
          obtain rfl := Option.some.inj (Except.ok.inj hr)
          rw [if_neg (fun hne => hne rfl)]

/-- What gets through has the bearer of its role. -/
theorem serve_some (hrouter : MountsUnder router) (htokens : s.mcpTokens = .ok tokens)
    {path auth : List Char} {role : Role} (h : serve tokens router path auth = some role) :
    router path = some role ∧ ∃ token, s.set? role = some token ∧ presents auth = some token ∧
      s.Comparable role := by
  unfold serve at h
  unfold presents
  split at h
  next hpassed =>
    obtain ⟨hbearer, hrole⟩ := (dispatch_passed (hrouter path role h)).mp hpassed
    obtain ⟨hset, hcomp⟩ := (roleFor_iff htokens _ _).mp hrole
    exact ⟨h, _, hset, if_pos hbearer, hcomp⟩
  next => cases h

/-- The two mounts, in the order of `mcp_routes`. -/
def mcpRoutes (path : List Char) : Option Role :=
  roles.find? fun role => ("/mcp/".toList ++ role.text.toList ++ ['/']).isPrefixOf path

theorem mcpRoutes_under : MountsUnder mcpRoutes := by
  intro path role h
  have hfound := List.find?_some h
  exact List.isPrefixOf_iff_prefix.mp hfound

/-- The tool a request calls by name, if it gets to one. -/
def reach (servers : Dict Role Server) (tokens : List (String × Role))
    (router : List Char → Option Role) (path auth : List Char) (name : String) : Option Bool := do
  let role ← serve tokens router path auth
  let server ← servers.get? role
  server.get? name

/-- **A tool is only reached with its role's token.** Whatever the registrars
put on the servers, a tool that a request reaches is one its role declares,
is not shaped like an order and is no stub the engine put there; the request
has the token of that role, which is no other role's. -/
theorem tool_reached {registrars : Role → List Registrar} {servers : Dict Role Server}
    (hservers : buildServers registrars false = .ok servers) (hrouter : MountsUnder router)
    (htokens : s.mcpTokens = .ok tokens) {path auth : List Char} {name : String} {tool : Bool}
    (h : reach servers tokens router path auth name = some tool) :
    ∃ role token left, name ∈ roleTools role ∧ orderShaped name = false ∧
      registered (registrars role) = .ok left ∧ left.get? name = some tool ∧
      s.set? role = some token ∧ presents auth = some token ∧
      ∀ r, s.set? r = some token → r = role := by
  obtain ⟨role, hserve, h⟩ := Option.bind_eq_some_iff.mp h
  obtain ⟨server, hserver, h⟩ := Option.bind_eq_some_iff.mp h
  obtain ⟨server', hget, hbuilt⟩ := buildServers_get hservers role
  rw [hserver] at hget
  obtain rfl := Option.some.inj hget
  obtain ⟨hnames, hshaped, hleft⟩ := buildServer_names hbuilt
  obtain ⟨-, token, hset, hpresents, -⟩ :=
    serve_some hrouter htokens hserve
  have hkey : name ∈ server.keys := by
    rw [Dict.mem_keys_iff, h]
    rfl
  exact ⟨role, token, server, (hnames name).mp hkey, hshaped name hkey, hleft rfl, h, hset,
    hpresents, fun r hr => mcpTokens_distinct htokens hr hset⟩

/-- A registrar that puts down whatever its role declares. -/
def declares (role : Role) : Registrar := fun server =>
  .ok (registerPending server (roleTools role))

theorem declares_built (role : Role) : buildServer [declares role] false role =
    .ok (registerPending (addTool Dict.empty "ping" false) (roleTools role)) := by
  refine buildServer_iff.mpr ⟨rfl, fun name => ?_⟩
  rw [mem_keys_registerPending, mem_keys_addTool]
  refine ⟨fun h => ?_, Or.inr⟩
  rcases h with (hempty | rfl) | hdeclared
  · cases hempty
  · cases role <;> exact List.mem_cons_self
  · exact hdeclared

theorem tool_reached_ping :
    ∃ role token left, "ping" ∈ roleTools role ∧ orderShaped "ping" = false ∧
      registered [declares role] = .ok left ∧ left.get? "ping" = some false ∧
      (RoleTokens.mk (some "alpha") (some "beta")).set? role = some token ∧
      presents "Bearer alpha".toList = some token ∧
      ∀ r, (RoleTokens.mk (some "alpha") (some "beta")).set? r = some token → r = role := by
  have hservers : buildServers (fun role => [declares role]) false = .ok
      ((Dict.empty.set .research (registerPending (addTool Dict.empty "ping" false)
        (roleTools .research))).set .decide (registerPending (addTool Dict.empty "ping" false)
          (roleTools .decide))) := by
    unfold buildServers
    rw [declares_built, declares_built]
    rfl
  have hreach : reach ((Dict.empty.set .research (registerPending (addTool Dict.empty "ping" false)
      (roleTools .research))).set .decide (registerPending (addTool Dict.empty "ping" false)
        (roleTools .decide))) [("alpha", .research), ("beta", .decide)] mcpRoutes
      "/mcp/research/".toList "Bearer alpha".toList "ping" = some false := by
    decide +kernel
  exact tool_reached (s := ⟨some "alpha", some "beta"⟩) hservers mcpRoutes_under rfl hreach

end TradeDesk.Mcp
