import LoadOrder.Text.LowerCase
import LoadOrder.Text.Pieces
import LoadOrder.Script.Layout

namespace LoadOrder.Script

/-- One element of a clause. `code` is the element's own text, kept near the root only. -/
inductive Node
  | clause (key : String) (code : Option String) (children : List Node)
  | pair (key value : String) (code : Option String)
  | value (value : String) (code : Option String)
deriving BEq, Repr

structure File where
  name : String
  children : List Node
deriving BEq, Repr

namespace Node

def code : Node → Option String
  | clause _ code _ => code
  | pair _ _ code => code
  | value _ code => code

/-- The elements of a clause, none for the other kinds. -/
def children : Node → List Node
  | clause _ _ children => children
  | _ => []

end Node

def numbered (nodes : List Node) : List (Nat × Node) :=
  nodes.zipIdx.map fun (n, i) => (i, n)

/-- The first clause with this key, whatever the case of its letters. -/
def findClause? (nodes : List Node) (key : String) : Option (Nat × List Node × String) :=
  (numbered nodes).findSome? fun
    | (i, .clause k _ children) =>
      if Text.sameIgnoringCase k key then some (i, children, k) else none
    | _ => none

/-- The first pair with this key, whatever the case of its letters. -/
def findPair? (nodes : List Node) (key : String) : Option (Nat × String × String) :=
  (numbered nodes).findSome? fun
    | (i, .pair k v _) => if Text.sameIgnoringCase k key then some (i, k, v) else none
    | _ => none

/-- The value of the first pair with this key. -/
def findValue? (nodes : List Node) (key : String) : Option String :=
  (findPair? nodes key).map (·.2.2)

/-- Elements keep their code in the file itself and in its clauses, counted from the file as one. -/
def keepsCode (level : Nat) : Bool := level == 2 || level == 3

def Head.name (h : Head) : String := Text.trimmed h.key.source

mutual

/-- The element that a statement at a level becomes. -/
def Node.ofStatement (level : Nat) (s : Statement) : Node :=
  let code := if keepsCode level then some s.code else none
  match s with
  | .clause h body _ => .clause ((h.map Head.name).getD "") code (nodesOf (level + 1) body)
  | .leaf (some h) a _ => .pair h.name (Text.trimmed a.text) code
  | .leaf none a _ => .value (Text.trimmed a.text) code

def nodesOf (level : Nat) : List Statement → List Node
  | [] => []
  | s :: rest => Node.ofStatement level s :: nodesOf level rest

end

theorem nodesOf_eq_map (level : Nat) (statements : List Statement) :
    nodesOf level statements = statements.map (Node.ofStatement level) := by
  induction statements with
  | nil => rfl
  | cons s rest ih => simp [nodesOf, ih]

end LoadOrder.Script
