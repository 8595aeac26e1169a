import LoadOrder.Script.Node
import LoadOrder.Path

namespace LoadOrder.Script

/-- A script file from its lines. The file goes by its name without folders. -/
def File.ofLines (path : String) (lines : List String) : Except SyntaxError File :=
  (parse (Text.join "\n" lines)).map fun statements =>
    ⟨Text.trimmed ((Path.fileName? path).getD path), nodesOf 2 statements⟩

def File.ofText (path text : String) : Except SyntaxError File :=
  File.ofLines path (Text.linesOf text)

end LoadOrder.Script
