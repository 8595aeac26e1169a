import LoadOrder.Json.Basic
import LoadOrder.Definition

namespace LoadOrder.Definition

def fieldNames : List String :=
  ["id", "type", "value_type", "file", "disk_file", "mod_name", "code", "original_code", "code_tag",
    "code_separator", "order", "variables", "dependencies"]

mutual

def toJson : Definition → Json
  | ⟨id, type, kind, file, diskFile, modName, code, originalCode, codeTag, codeSeparator, order,
      scope, dependencies⟩ =>
    .object [("id", .text id), ("type", .text type), ("value_type", .text kind.name),
      ("file", .text file), ("disk_file", .text diskFile), ("mod_name", .text modName),
      ("code", .text code), ("original_code", .text originalCode), ("code_tag", .text codeTag),
      ("code_separator", .text codeSeparator), ("order", .natural order),
      ("variables", .array (listToJson scope)), ("dependencies", Json.ofTexts dependencies)]

def listToJson : List Definition → List Json
  | [] => []
  | d :: rest => d.toJson :: listToJson rest

end

def ofJson? : (room : Nat) → Json → Option Definition
  | room + 2, j => do
    match ← Json.fields? (room + 2) fieldNames j with
    | [id, type, kind, file, diskFile, modName, code, originalCode, codeTag, codeSeparator, order,
        scope, dependencies] =>
      let text := Json.fieldOr? "" Json.text?
      return {
        id := ← text id
        type := ← text type
        kind := ← Json.fieldOr? .object (Json.constant? (room + 1) Kind.name Kind.all) kind
        file := ← text file
        diskFile := ← text diskFile
        modName := ← text modName
        code := ← text code
        originalCode := ← text originalCode
        codeTag := ← text codeTag
        codeSeparator := ← text codeSeparator
        order := ← Json.fieldOr? 0 Json.word64? order
        scope := ← Json.fieldOr? [] (Json.list? (room + 1) (ofJson? room)) scope
        dependencies := ← Json.fieldOr? [] (Json.texts? (room + 1)) dependencies }
    | _ => none
  | _, _ => none

end LoadOrder.Definition
