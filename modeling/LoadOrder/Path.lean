import LoadOrder.Text.Pieces

/-!
Paths with `/` as the only separator. A path is kept as the text it was given as; its components are
what two spellings of it share.
-/

namespace LoadOrder.Path

/-- A component of a path. Paths are ordered by their components. -/
inductive Component
  | root
  | here
  | up
  | named (name : String)
deriving DecidableEq, Ord, Repr

/-- A component after the first: empty ones and `.` are no components. -/
def laterComponent (piece : List Char) : Option Component :=
  if piece = [] ∨ piece = ['.'] then none
  else if piece = ['.', '.'] then some .up
  else some (.named (String.ofList piece))

def isAbsolute (path : String) : Bool := path.toList.head? == some '/'

def hasNul (path : String) : Bool := path.toList.contains '\x00'

/-- The components of a path. A `.` counts only at the start of a relative path. -/
def components (path : String) : List Component :=
  let pieces := Text.split (· == '/') path.toList
  if isAbsolute path then .root :: pieces.filterMap laterComponent
  else if pieces.head? = some ['.'] then .here :: pieces.tail.filterMap laterComponent
  else pieces.filterMap laterComponent

def fileName? (path : String) : Option String :=
  match (components path).getLast? with
  | some (.named name) => some name
  | _ => none

/-- What follows the last point of the file name, unless the name begins with that point. -/
def extension? (path : String) : Option String := do
  let pieces := Text.split (· == '.') (← fileName? path).toList
  if pieces.length = 1 ∨ pieces.length = 2 ∧ pieces.head? = some [] then none
  else pieces.getLast?.map String.ofList

/-- The path `base` followed by `path`. An absolute `path` takes the place of `base`. -/
def join (base path : String) : String :=
  if isAbsolute path then path
  else if base = "" ∨ base.toList.getLast? = some '/' then base ++ path
  else base ++ "/" ++ path

def Component.text : Component → String
  | .root => ""
  | .here => "."
  | .up => ".."
  | .named name => name

def ofComponents : List Component → String
  | [.root] => "/"
  | components => Text.join "/" (components.map Component.text)

/-- The path without its last component; none for a root and for the empty path. -/
def parent? (path : String) : Option String :=
  match (components path).reverse with
  | [] => none
  | .root :: _ => none
  | _ :: before => some (ofComponents before.reverse)

end LoadOrder.Path
