import LoadOrder.Rules

namespace LoadOrder

inductive Decision
  | alone
  | loadOrder
  | firstFile
  | lastFile
deriving DecidableEq, Repr

def SourceOrder.decision : SourceOrder → Decision
  | .first => .firstFile
  | .last => .lastFile

def leastString? : List String → Option String
  | [] => none
  | s :: rest => some (rest.foldl (fun best t => if t < best then t else best) s)

def greatestString? : List String → Option String
  | [] => none
  | s :: rest => some (rest.foldl (fun best t => if best < t then t else best) s)

def SourceOrder.choose? : SourceOrder → List String → Option String
  | .first, files => leastString? files
  | .last, files => greatestString? files

/-- All definitions are in one file, whatever the case of its letters. -/
def inOneFile : List Definition → Bool
  | [] => true
  | d :: rest => rest.all (·.fileKey == d.fileKey)

/-- The winner among candidates in load order, and what decided. A later mod that ships the deciding
file overrides it. -/
def winner? (candidates : List Definition) (rules : Option Rules) :
    Option (Definition × Decision) := do
  let last ← candidates.getLast?
  if candidates.length = 1 then return (last, .alone)
  if inOneFile candidates then return (last, .loadOrder)
  match rules.bind (·.orderFor last) with
  | none => return (last, .loadOrder)
  | some order =>
    let file ← order.choose? (candidates.map (·.file))
    let chosen ← candidates.reverse.find? (·.file == file)
    return (chosen, order.decision)

end LoadOrder
