import LoadOrder.Definition

namespace LoadOrder

/-- Values under keys: the keys differ, and each has its values in order. -/
abbrev Buckets (α : Type) := List (String × List α)

namespace Buckets

variable {α : Type}

def find (buckets : Buckets α) (key : String) : List α :=
  match buckets with
  | [] => []
  | (k, members) :: rest => if k = key then members else find rest key

def hasKey (buckets : Buckets α) (key : String) : Bool := buckets.any (·.1 == key)

/-- Adds a value at the end of its bucket. A new key comes last. -/
def append (key : String) (a : α) : Buckets α → Buckets α
  | [] => [(key, [a])]
  | (k, members) :: rest =>
    if k = key then (k, members ++ [a]) :: rest else (k, members) :: append key a rest

/-- Adds a value at the end of its bucket. A new key comes before the first greater one. -/
def insert (key : String) (a : α) : Buckets α → Buckets α
  | [] => [(key, [a])]
  | (k, members) :: rest =>
    if k = key then (k, members ++ [a]) :: rest
    else if key < k then (key, [a]) :: (k, members) :: rest
    else (k, members) :: insert key a rest

/-- Buckets in the order in which the keys occur first. -/
def group (key : α → String) (members : List α) : Buckets α :=
  members.foldl (fun buckets a => append (key a) a buckets) []

def sorted (key : α → String) (members : List α) : Buckets α :=
  members.foldl (fun buckets a => insert (key a) a buckets) []

/-- The places of values that stand with their places. -/
def places (buckets : Buckets (α × Nat)) : Buckets Nat :=
  buckets.map fun (key, members) => (key, members.map (·.2))

end Buckets

def Definition.sameSlot (a b : Definition) : Bool :=
  a.modName == b.modName && a.fileKey == b.fileKey && a.identity == b.identity

/-- Of the definitions in one slot only the last is kept. -/
def keepLast : List Definition → List Definition
  | [] => []
  | d :: rest => if rest.any (·.sameSlot d) then keepLast rest else d :: keepLast rest

/-- A sequence of definitions that can be looked up by file and by identity. -/
structure Index where
  all : List Definition
  byFile : Buckets Nat
  byIdentity : Buckets Nat
  keepsDuplicates : Bool
deriving BEq, Repr

namespace Index

/-- Indexes definitions in their order. Unless duplicates are kept, a mod that defines an identity
twice in one file is left with the last. -/
def build (definitions : List Definition) (keepsDuplicates : Bool) : Index :=
  let all := if keepsDuplicates then definitions else keepLast definitions
  ⟨all, (Buckets.sorted (fun (d, _) => d.fileKey) all.zipIdx).places,
    (Buckets.group (fun (d, _) => d.identity) all.zipIdx).places, keepsDuplicates⟩

def empty : Index := ⟨[], [], [], false⟩

def atPlaces (index : Index) (places : List Nat) : List Definition :=
  places.filterMap (index.all[·]?)

/-- The definitions in a file, whatever the case of its letters. -/
def inFile (index : Index) (file : String) : List Definition :=
  index.atPlaces (index.byFile.find (Text.lowercase file))

/-- The definitions with an identity, whatever the case of its letters. -/
def withIdentity (index : Index) (identity : String) : List Definition :=
  index.atPlaces (index.byIdentity.find (Text.lowercase identity))

def files (index : Index) : List String := index.byFile.map (·.1)

/-- The identities in the order in which they occur. -/
def identities (index : Index) : List String :=
  ((index.all.map Definition.identity).filter index.byIdentity.hasKey).eraseDups

def size (index : Index) : Nat := index.all.length

def isEmpty (index : Index) : Bool := index.all.isEmpty

def add (index : Index) (more : List Definition) : Index :=
  build (index.all ++ more) index.keepsDuplicates

def remove (index : Index) (p : Definition → Bool) : Index :=
  build (index.all.filter fun d => !p d) index.keepsDuplicates

end Index

end LoadOrder
