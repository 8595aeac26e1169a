import LoadOrder.Text.Blank
import LoadOrder.Definition.Index

/-!
One text from several definitions: grouped by the tag of their blocks, in each group first what
supports the others.
-/

namespace LoadOrder

/-- The lines of a text that are not blank. -/
def solidLines (text : String) : List String :=
  (Text.linesOf text).filter fun line => !Text.isBlankText line

def indented (width : Nat) (line : String) : String :=
  String.ofList (List.replicate width ' ') ++ line ++ "\n"

/-- The lines of a text that are not blank, indented. -/
def indentedLines (width : Nat) (text : String) : String :=
  String.join ((solidLines text).map (indented width))

/-- The end of a block that begins with a separator, if the separator is a brace. -/
def closingOf? (separator : String) : Option String :=
  if Text.trimmed separator = "\x7b" then some "\x7d" else none

/-- The first line that contains the closing brace, and the lines before and after it. -/
def splitAtClosing? : List String → Option (List String × String × List String)
  | [] => none
  | line :: rest =>
    if line.toList.contains '\x7d' then some ([], line, rest)
    else (splitAtClosing? rest).map fun (before, closing, after) => (line :: before, closing, after)

/-- The lines of a block in braces. What supports the others comes after the first line that closes
a brace, or first of all if none does. -/
def blockBody (support bodies : List String) : String :=
  let lines := bodies.flatMap solidLines
  match splitAtClosing? lines with
  | some (before, closing, after) =>
    String.join ((before ++ [closing]).map (indented 4)) ++
      String.join (support.map (indentedLines 8)) ++ String.join (after.map (indented 4))
  | none =>
    String.join (support.map (indentedLines 4)) ++ String.join (lines.map (indented 4))

/-- A block with its tag. A separator that is no brace is followed by the lines alone. -/
def blockText (tag separator : String) (support bodies : List String) : String :=
  match closingOf? separator with
  | some closing =>
    tag ++ " = " ++ Text.trimmed separator ++ "\n" ++ blockBody support bodies ++ closing ++ "\n"
  | none => tag ++ separator ++ "\n" ++ String.join ((support ++ bodies).map (indentedLines 4))

def Definition.blockKey (d : Definition) : String := Text.lowercase (Text.trimmed d.codeTag)

/-- The members of a block as one text, on the template of the first. -/
def groupText (group : List Definition) : String :=
  let support := group.filter (·.kind == .namespace) ++ group.filter (·.kind == .variable)
  let bodies := group.filter (!·.isSupport)
  match group with
  | [] => ""
  | first :: _ =>
    let tag := Text.trimmed first.codeTag
    if tag = "" then String.join ((support ++ bodies).map (·.originalCode ++ "\n"))
    else
      blockText tag first.codeSeparator (support.map (·.originalCode))
        (bodies.map (·.originalCode))

/-- One definition for several, on the template of the first; none for none. -/
def compose? (definitions : List Definition) : Option Definition :=
  definitions.head?.map fun first =>
    { first with
      kind := if first.isSupport then .object else first.kind
      code := String.join ((Buckets.sorted Definition.blockKey definitions).map (groupText ·.2)) }

/-- One definition for what a file exports: variables and namespaces by name, then the others in
their order. -/
def composeExport? (exported : List Definition) : Option Definition :=
  let support := exported.filter Definition.isSupport
  let others := exported.filter (!·.isSupport)
  compose? (support.mergeSort (fun a b => a.id ≤ b.id) ++
    others.mergeSort fun a b => a.order ≤ b.order)

end LoadOrder
