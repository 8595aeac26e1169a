import LoadOrder.Script.Node

namespace LoadOrder.Script

structure PairEntry where
  key : String
  value : String
  code : Option String
  index : Nat
deriving DecidableEq, Repr

structure ValueEntry where
  value : String
  code : Option String
  index : Nat
deriving DecidableEq, Repr

/-- A clause with what is in it, or a whole file. -/
structure Branch where
  key : String
  branches : List Branch
  pairs : List PairEntry
  values : List ValueEntry
  code : Option String
  index : Nat

/-- An element of a clause, whatever its kind. -/
inductive Element
  | branch (branch : Branch)
  | pair (pair : PairEntry)
  | value (value : ValueEntry)

def Element.index : Element → Nat
  | branch b => b.index
  | pair p => p.index
  | value v => v.index

namespace Branch

def childCount (b : Branch) : Nat := b.branches.length + b.pairs.length + b.values.length

/-- The elements of all kinds, back in the order of their places. -/
def children (b : Branch) : List Element :=
  (b.branches.map Element.branch ++ b.pairs.map Element.pair ++
    b.values.map Element.value).mergeSort fun a b => a.index ≤ b.index

end Branch

/-- The pairs among some elements, the first of which is at place `index`. -/
def pairsOf (index : Nat) : List Node → List PairEntry
  | [] => []
  | .pair key value code :: rest => ⟨key, value, code, index⟩ :: pairsOf (index + 1) rest
  | _ :: rest => pairsOf (index + 1) rest

def valuesOf (index : Nat) : List Node → List ValueEntry
  | [] => []
  | .value value code :: rest => ⟨value, code, index⟩ :: valuesOf (index + 1) rest
  | _ :: rest => valuesOf (index + 1) rest

mutual

/-- The clause at a place, if it is one. -/
def Node.branch? (index : Nat) : Node → Option Branch
  | .clause key code children =>
    some ⟨key, branchesOf 0 children, pairsOf 0 children, valuesOf 0 children, code, index⟩
  | _ => none

def branchesOf (index : Nat) : List Node → List Branch
  | [] => []
  | node :: rest => (node.branch? index).toList ++ branchesOf (index + 1) rest

end

def File.branch (file : File) : Branch where
  key := file.name
  branches := branchesOf 0 file.children
  pairs := pairsOf 0 file.children
  values := valuesOf 0 file.children
  code := none
  index := 0

end LoadOrder.Script
