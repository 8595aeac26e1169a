import LoadOrder.Json.Basic
import LoadOrder.Script.Branch

namespace LoadOrder.Script

def codeJson (code : Option String) : Json := code.elim .null .text

def PairEntry.toJson (p : PairEntry) : Json :=
  .object [("key", .text p.key), ("value", .text p.value), ("code", codeJson p.code),
    ("index", .natural p.index)]

def ValueEntry.toJson (v : ValueEntry) : Json :=
  .object [("value", .text v.value), ("code", codeJson v.code), ("index", .natural v.index)]

mutual

def Branch.toJson : Branch → Json
  | ⟨key, branches, pairs, values, code, index⟩ =>
    .object [("key", .text key), ("nodes", .array (branchesJson branches)),
      ("key_values", .array (pairs.map PairEntry.toJson)),
      ("values", .array (values.map ValueEntry.toJson)), ("code", codeJson code),
      ("index", .natural index)]

def branchesJson : List Branch → List Json
  | [] => []
  | b :: rest => b.toJson :: branchesJson rest

end

def File.toJson (file : File) : Json := file.branch.toJson

def indentation (depth : Nat) : String := String.ofList (List.replicate (2 * depth) ' ')

mutual

/-- The outline of a clause: its key, its pairs and its values, and the outlines of its clauses. -/
def Branch.outline (depth : Nat) : Branch → List String
  | ⟨key, branches, pairs, values, code, index⟩ =>
    (indentation depth ++ key ++ " (" ++
        toString (Branch.childCount ⟨key, branches, pairs, values, code, index⟩) ++ " children)") ::
      pairs.map (fun p => indentation (depth + 1) ++ p.key ++ " = " ++ p.value) ++
      values.map (fun v => indentation (depth + 1) ++ v.value) ++ outlines (depth + 1) branches

def outlines (depth : Nat) : List Branch → List String
  | [] => []
  | b :: rest => b.outline depth ++ outlines depth rest

end

def File.outline (file : File) : List String := file.branch.outline 0

end LoadOrder.Script
