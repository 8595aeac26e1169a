import LoadOrder.CommandLine.Arguments
import LoadOrder.Files.Export
import LoadOrder.Line
import LoadOrder.Script.Record

namespace LoadOrder.CommandLine

def text (lines : List String) : String := String.join (lines.map (· ++ "\n"))

/-- A number with spaces in front, three characters wide. -/
def rightAligned (n : Nat) : String :=
  let digits := (toString n).toList
  String.ofList (List.replicate (3 - digits.length) ' ' ++ digits)

def definitionLine (d : Definition) : String :=
  "  " ++ rightAligned d.order ++ ". " ++ d.id ++ " (" ++ d.kind.name ++ ")" ++
    (if d.codeTag = "" then "" else " [" ++ d.codeTag ++ "]") ++ " -> " ++ d.identity

def conflictLines (conflicts : Index) : List String :=
  conflicts.identities.flatMap fun identity =>
    identity :: (conflicts.withIdentity identity).map fun d =>
      "  " ++ d.modName ++ " (" ++ d.file ++ ")"

variable {m : Type → Type} [Monad m] (fs : FileSystem m)

def onLines (change : String → String) (path : String) : ExceptT Error m String := do
  return text ((Text.linesOf (← fs.readText path)).map change)

def showScript (path : String) (json : Bool) : ExceptT Error m String := do
  let file ← fs.readScript path
  return if json then text [file.toJson.print]
    else text (["File: " ++ path, ""] ++ file.outline)

def showDefinitions (path : String) (relative : Option String) (modName : String)
    (tagged json : Bool) : ExceptT Error m String := do
  let content ← fs.readText path
  let source : Source := {
    file := relative.getD (Text.forwardSlashes path)
    diskFile := path
    modName
    dependencies := []
    lines := Text.linesOf content
    tagged }
  match source.definitions with
  | .error e => throw (.script path e)
  | .ok definitions =>
    return if json then text [(Json.array (Definition.listToJson definitions)).print]
      else text (["Definitions (" ++ toString definitions.length ++ "):", ""] ++
        definitions.map definitionLine)

def findMod (installed : List Mod) (name : String) : ExceptT Error (StateT Cache m) Mod :=
  match installed.find? (·.name == name) with
  | some found => return found
  | none => throw (.missingMod name)

/-- The mods of a configuration, its definitions and their analysis. -/
def analyse (config : Config) : ExceptT Error (StateT Cache m) (List Mod × Analysis) := do
  let game := config.toGame
  let rules := some config.folderRules.rules
  let installed ← (fs.collaborators config.installed).installedMods game
  let mods ← config.collection.mods.mapM fun wanted => findMod installed wanted.name
  let all ← FileSystem.keep (fs.scanMods game mods rules)
  return (mods, .of all config.toCollection.mods rules)

def showConflicts (path : String) (list : Bool) : ExceptT Error (StateT Cache m) String := do
  let config ← FileSystem.keep (fs.loadConfig path)
  let (mods, analysis) ← analyse fs config
  return text ([
    "Collection: " ++ config.collection.name,
    "Mods: " ++ toString mods.length,
    "Definitions: " ++ toString analysis.all.size,
    "Conflicts: " ++ toString analysis.conflicts.identities.length,
    "Overwritten: " ++ toString analysis.overwritten.size,
    "Orphans: " ++ toString analysis.orphans.size] ++
    if list then "" :: conflictLines analysis.conflicts else [])

def mergeMods (path : String) (byFiles : Bool) (name : Option String) :
    ExceptT Error (StateT Cache m) String := do
  let config ← FileSystem.keep (fs.loadConfig path)
  let collaborators := fs.collaborators config.installed
  let game := config.toGame
  let collection := config.toCollection
  let name := name.getD collection.name
  let merged ←
    if byFiles then collaborators.mergeFiles (some game) (some collection) name
    else do
      let (_, analysis) ← analyse fs config
      collaborators.mergeDefinitions [config.folderRules.rules] config.duplicatePolicy (some game)
        (some collection) analysis collection.mods name
  return text <| match merged with
    | some merged =>
      ["Merged mod: " ++ merged.name, "Descriptor: " ++ merged.descriptorFile,
        "Directory: " ++ merged.path]
    | none => ["Nothing to merge."]

def writeTemplate (path : String) : ExceptT Error m String := do
  fs.saveConfig path Config.template
  return text ["Created merge configuration: " ++ path, "",
    "Edit the file to describe your game and collection, then run:",
    "  pdx-cli merge --config " ++ path]

def Command.output : Command → ExceptT Error (StateT Cache m) String
  | .parse file json => FileSystem.keep (showScript fs file json)
  | .clean file => FileSystem.keep (onLines fs Line.tighten file)
  | .prettify file => FileSystem.keep (onLines fs Line.spread file)
  | .definitions file relative modName tagged json =>
    FileSystem.keep (showDefinitions fs file relative modName tagged json)
  | .conflicts config list => showConflicts fs config list
  | .merge config byFiles name => mergeMods fs config byFiles name
  | .createConfig output => FileSystem.keep (writeTemplate fs output)

/-- How a run of the program ends. -/
structure Outcome where
  code : Nat
  out : String
  err : String
deriving DecidableEq, Repr

def usage : String := text ["Usage: pdx-cli [--verbose] <COMMAND>", "",
  "Commands:", "  parse", "  clean", "  prettify", "  definitions", "  conflicts", "  merge",
  "  create-config"]

def run (arguments : List String) : m Outcome := do
  match read arguments with
  | .error .help => return ⟨0, usage, ""⟩
  | .error .version => return ⟨0, "pdx-cli 0.1.0\n", ""⟩
  | .error .wrongUsage => return ⟨2, "", usage⟩
  | .ok command =>
    match ← ((command.output fs).run).run' Cache.empty with
    | .ok out => return ⟨0, out, ""⟩
    | .error e => return ⟨1, "", "Error: " ++ e.message ++ "\n"⟩

end LoadOrder.CommandLine
