import LoadOrder.Script.Token

namespace LoadOrder.Script

structure Head where
  key : Atom
  operator : Operator
deriving DecidableEq, Repr

/-- One statement: an atom or a clause in braces, with a key or without. -/
inductive Statement
  | leaf (head : Option Head) (value : Atom) (position : Position)
  | clause (head : Option Head) (body : List Statement) (position : Position)
deriving BEq, Repr

namespace Statement

def position : Statement → Position
  | leaf _ _ p => p
  | clause _ _ p => p

def head : Statement → Option Head
  | leaf h _ _ => h
  | clause h _ _ => h

end Statement

def maxDepth : Nat := 128

/-- A clause whose closing brace has not been read: where it opens, what it belongs to, and the
statements read before it, latest first. -/
structure Open where
  opened : Position
  head : Option Head
  start : Position
  before : List Statement

/-- What has been read of a statement that may go on. -/
inductive Pending
  | nothing
  | atom (atom : Atom) (start : Position)
  | head (head : Head) (start operatorAt : Position)

/-- The reader between two tokens: the open clauses, innermost first, the statements read in the
innermost, latest first, and the statement being read. -/
structure Reader where
  opens : List Open
  done : List Statement
  pending : Pending

namespace Reader

def start : Reader := ⟨[], [], .nothing⟩

/-- An atom that no operator follows is a statement. -/
def settle (r : Reader) : Reader :=
  match r.pending with
  | .atom a p => { r with done := .leaf none a p :: r.done, pending := .nothing }
  | _ => r

def openClause (r : Reader) (head : Option Head) (start opened : Position) :
    Except SyntaxError Reader :=
  if r.opens.length < maxDepth then
    .ok ⟨⟨opened, head, start, r.done⟩ :: r.opens, [], .nothing⟩
  else .error ⟨.tooDeep, opened⟩

def closeClause (r : Reader) (closed : Position) : Except SyntaxError Reader :=
  match r.opens with
  | [] => .error ⟨.unmatchedClosing, closed⟩
  | o :: opens => .ok ⟨opens, .clause o.head r.done.reverse o.start :: o.before, .nothing⟩

/-- Reads one token. -/
def step (r : Reader) (t : Located) : Except SyntaxError Reader :=
  match r.pending, t.token with
  | .head h p _, .atom a => .ok { r with done := .leaf (some h) a p :: r.done, pending := .nothing }
  | .head h p _, .opening => r.openClause (some h) p t.position
  | .head h _ at_, _ => .error ⟨.missingValue h.operator, at_⟩
  | .atom a p, .operator o => .ok { r with pending := .head ⟨a, o⟩ p t.position }
  | .nothing, .operator o => .error ⟨.operatorWithoutKey o, t.position⟩
  | _, .atom a => .ok { r.settle with pending := .atom a t.position }
  | _, .opening => r.settle.openClause none t.position t.position
  | _, .closing => r.settle.closeClause t.position

def finish (r : Reader) : Except SyntaxError (List Statement) :=
  match r.pending, r.opens with
  | .head h _ at_, _ => .error ⟨.missingValue h.operator, at_⟩
  | _, o :: _ => .error ⟨.unclosed, o.opened⟩
  | _, [] => .ok r.settle.done.reverse

end Reader

def ofTokens (tokens : List Located) : Except SyntaxError (List Statement) := do
  (← tokens.foldlM Reader.step Reader.start).finish

def parse (text : String) : Except SyntaxError (List Statement) :=
  match tokens text with
  | .error e => .error e
  | .ok ts => ofTokens ts

end LoadOrder.Script
