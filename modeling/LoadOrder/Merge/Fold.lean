import LoadOrder.Line
import LoadOrder.Merge.Rename

/-!
Variables and namespaces of exported objects. An object brings the ones in its scope along:
namespaces once, variables under fresh names, which the object's code then uses.
-/

namespace LoadOrder

def Definition.inBlockOf (d owner : Definition) : Definition :=
  { d with codeTag := owner.codeTag, codeSeparator := owner.codeSeparator }

/-- A definition with a name replaced in its code. -/
def Definition.renamed (d : Definition) (old new : String) : Definition :=
  { d with
    code := rename d.code old new
    originalCode := rename d.originalCode old new }

/-- A namespace declaration is exported already, up to spaces and tabs. -/
def declares (exported : List Definition) (ns : Definition) : Bool :=
  exported.any fun d => d.kind == .namespace && Line.squeeze d.code == Line.squeeze ns.code

/-- Adds the owner's namespaces that are not declared yet. -/
def foldNamespaces (exported : List Definition) (owner : Definition) : List Definition :=
  (owner.scope.filter (·.kind == .namespace)).foldl
    (fun exported ns =>
      if declares exported ns then exported else exported ++ [ns.inBlockOf owner])
    exported

/-- Adds a variable under a fresh name, which the owner uses from then on. -/
def foldVariable (state : List Definition × Definition) (v : Definition) :
    List Definition × Definition :=
  let (exported, owner) := state
  let name := freeName exported v.id
  (exported ++ [{ (v.renamed v.id name).inBlockOf owner with id := name }],
    owner.renamed v.id name)

def foldVariables (exported : List Definition) (owner : Definition) :
    List Definition × Definition :=
  (owner.scope.filter (·.kind == .variable)).foldl foldVariable (exported, owner)

/-- Adds the owner's namespaces and variables. The owner itself is not added. -/
def foldSupport (exported : List Definition) (owner : Definition) :
    List Definition × Definition :=
  foldVariables (foldNamespaces exported owner) owner

end LoadOrder
