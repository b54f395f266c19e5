import TradeDesk.Text

/-!
# Values a message may hold

The fields of an SDK message are whatever the stream delivered, or missing.
`PyVal` is a Python value as the runner looks into it: whether it counts as
true, what `int`, `list` and `dict` make of it, whether its keys are
strings, and which strings are anywhere in it. A float that is no number is
`none`; an object of another class has no parts.
-/

namespace TradeDesk.Runner

inductive PyVal where
  | none
  | bool (b : Bool)
  | int (n : ℤ)
  | float (q : Option ℚ)
  | str (s : String)
  | list (xs : List PyVal)
  | dict (items : List (PyVal × PyVal))
  | object

/-- What a conversion raises. -/
inductive PyExc where
  | typeError | valueError | overflowError
deriving DecidableEq, Repr

namespace PyVal

/-- `bool(v)`. -/
def truthy : PyVal → Bool
  | none => false
  | bool b => b
  | int n => n != 0
  | float q => q != some 0
  | str s => s != ""
  | list xs => !xs.isEmpty
  | dict items => !items.isEmpty
  | object => true

/-- `getattr(last, name, default)`, where the attribute may be missing. -/
def orElse (v : Option PyVal) (default_ : PyVal) : PyVal := v.getD default_

mutual

/-- Every string in a value, the keys of its dicts included. -/
def strings : PyVal → List String
  | str s => [s]
  | list xs => stringsOf xs
  | dict items => itemStrings items
  | none => []
  | bool _ => []
  | int _ => []
  | float _ => []
  | object => []

def stringsOf : List PyVal → List String
  | [] => []
  | x :: xs => strings x ++ stringsOf xs

def itemStrings : List (PyVal × PyVal) → List String
  | [] => []
  | (k, v) :: items => strings k ++ strings v ++ itemStrings items

end

/-- The digits of an `int(text)`: one underscore may stand between two. -/
def intDigits : List Char → Option (List ℕ)
  | [] => Option.none
  | [c] => (digitValue c).map fun d => [d]
  | c :: '_' :: cs => do return (← digitValue c) :: (← intDigits cs)
  | c :: cs => do return (← digitValue c) :: (← intDigits cs)

/-- `int(text)`. -/
def parseInt (text : String) : Option ℤ :=
  match stripChars text.toList with
  | '-' :: cs => (intDigits cs).map fun ds => -(ofDigits ds : ℤ)
  | '+' :: cs => (intDigits cs).map fun ds => (ofDigits ds : ℤ)
  | cs => (intDigits cs).map fun ds => (ofDigits ds : ℤ)

/-- `int(v)`. -/
def toInt : PyVal → Except PyExc ℤ
  | bool b => .ok (if b then 1 else 0)
  | int n => .ok n
  | float (some q) => .ok (truncInt q)
  | float Option.none => .error .overflowError
  | str s => match parseInt s with
    | some n => .ok n
    | Option.none => .error .valueError
  | _ => .error .typeError

/-- What iterating a value gives. -/
def iterate : PyVal → Except PyExc (List PyVal)
  | list xs => .ok xs
  | dict items => .ok (items.map (·.1))
  | str s => .ok (s.toList.map fun c => str (String.ofList [c]))
  | _ => .error .typeError

/-- `list(v)`. -/
def toList (v : PyVal) : Except PyExc (List PyVal) := v.iterate

/-- Two values that are one key of a dict: only those that can be. -/
def sameKey : PyVal → PyVal → Bool
  | none, none => true
  | bool a, bool b => a == b
  | bool a, int n => (if a then 1 else 0) == n
  | int n, bool a => (if a then 1 else 0) == n
  | int a, int b => a == b
  | str a, str b => a == b
  | float (some a), float (some b) => a == b
  | int a, float (some b) => (a : ℚ) == b
  | float (some a), int b => a == (b : ℚ)
  | bool a, float (some b) => (if a then 1 else 0) == b
  | float (some a), bool b => a == (if b then 1 else 0)
  | _, _ => false

def hashable : PyVal → Bool
  | list _ => false
  | dict _ => false
  | _ => true

/-- `d[k] = v`. -/
def setItem (items : List (PyVal × PyVal)) (k v : PyVal) : List (PyVal × PyVal) :=
  if items.any fun e => e.1.sameKey k then
    items.map fun e => if e.1.sameKey k then (e.1, v) else e
  else items ++ [(k, v)]

/-- One element of a list given to `dict`: a pair. -/
def toPair (v : PyVal) : Except PyExc (PyVal × PyVal) := do
  match ← v.iterate with
  | [k, x] => if k.hashable then return (k, x) else .error .typeError
  | _ => .error .valueError

/-- `dict(v)`. -/
def toDict : PyVal → Except PyExc (List (PyVal × PyVal))
  | dict items => .ok items
  | v => do
    let pairs ← (← v.iterate).mapM toPair
    return pairs.foldl (fun items e => setItem items e.1 e.2) []

/-- A key of a `dict[str, Any]`. -/
def isStr : PyVal → Bool
  | str _ => true
  | _ => false

/-- The items of a `dict[str, Any]`. -/
def stringKeys (items : List (PyVal × PyVal)) : Bool := items.all fun e => e.1.isStr

def isStringDict : PyVal → Bool
  | dict items => stringKeys items
  | _ => false

end PyVal

end TradeDesk.Runner
