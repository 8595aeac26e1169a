namespace LoadOrder.CommandLine

/-- What the program is asked to do. -/
inductive Command
  | parse (file : String) (json : Bool)
  | clean (file : String)
  | prettify (file : String)
  | definitions (file : String) (relative : Option String) (modName : String) (tagged json : Bool)
  | conflicts (config : String) (list : Bool)
  | merge (config : String) (byFiles : Bool) (name : Option String)
  | createConfig (output : String)
deriving DecidableEq, Repr

/-- Why there is no command to run. -/
inductive Stop
  | help
  | version
  | wrongUsage
deriving DecidableEq, Repr

inductive Operand
  | nothing
  | text
  | path
deriving DecidableEq, Repr

structure Flag where
  long : String
  short : Option Char
  operand : Operand
deriving DecidableEq, Repr

def verbose : Flag := ⟨"verbose", some 'v', .nothing⟩

def file : Flag := ⟨"file", some 'f', .path⟩

def config : Flag := ⟨"config", some 'c', .path⟩

def json : Flag := ⟨"json", none, .nothing⟩

def flagsOf? (command : String) : Option (List Flag) :=
  match command with
  | "parse" => some [file, json, verbose]
  | "clean" => some [file, verbose]
  | "prettify" => some [file, verbose]
  | "definitions" =>
    some [file, ⟨"relative", some 'r', .text⟩, ⟨"mod-name", some 'm', .text⟩,
      ⟨"tagged", none, .nothing⟩, json, verbose]
  | "conflicts" => some [config, ⟨"list", some 'l', .nothing⟩, verbose]
  | "merge" =>
    some [config, ⟨"by-files", none, .nothing⟩, ⟨"name", some 'n', .text⟩, verbose]
  | "create-config" => some [⟨"output", some 'o', .path⟩, verbose]
  | _ => none

/-- Options that are given, each once, with their operands. -/
abbrev Given := List (String × String)

def give (given : Given) (flag : Flag) (operand : String) : Except Stop Given :=
  if (given.lookup flag.long).isSome ∨ flag.operand = .path ∧ operand = "" then
    .error .wrongUsage
  else .ok (given ++ [(flag.long, operand)])

/-- An argument that can be the operand of an option before it. -/
def isOperand (argument : String) : Bool :=
  argument == "-" || argument.toList.head? != some '-'

/-- Where to go on after an argument: with the options given so far, and with the option that waits
for its operand. -/
abbrev Progress := Given × Option Flag

/-- Takes an option, with its operand if that is attached. -/
def take (given : Given) (flag : Flag) (attached : Option String) : Except Stop Progress :=
  match flag.operand, attached with
  | .nothing, none => (give given flag "").map (·, none)
  | .nothing, some _ => .error .wrongUsage
  | _, some operand => (give given flag operand).map (·, none)
  | _, none => .ok (given, some flag)

/-- Takes an option by its long name; an operand is attached by an equals sign. -/
def takeLong (flags : List Flag) (given : Given) (argument : List Char) : Except Stop Progress :=
  let name := String.ofList (argument.takeWhile (· != '='))
  let attached :=
    match argument.dropWhile (· != '=') with
    | [] => none
    | _ :: operand => some (String.ofList operand)
  match flags.find? (·.long == name) with
  | some flag => take given flag attached
  | none => .error (if name = "help" ∧ attached = none then .help else .wrongUsage)

/-- Takes options by their letters. What follows the letter of an option with an operand is its
operand. -/
def takeLetters (flags : List Flag) : Given → List Char → Except Stop Progress
  | given, [] => .ok (given, none)
  | given, letter :: rest =>
    match flags.find? (·.short == some letter) with
    | none => .error (if letter = 'h' then .help else .wrongUsage)
    | some flag =>
      match flag.operand, rest with
      | .nothing, rest => do takeLetters flags (← give given flag "") rest
      | _, [] => .ok (given, some flag)
      | _, '=' :: operand => take given flag (some (String.ofList operand))
      | _, operand => take given flag (some (String.ofList operand))

def takeOption (flags : List Flag) (given : Given) (argument : String) : Except Stop Progress :=
  match argument.toList with
  | '-' :: '-' :: name => takeLong flags given name
  | '-' :: letters => takeLetters flags given letters
  | _ => .error .wrongUsage

/-- Reads the options of a command. Nothing may follow them but two dashes. -/
def readOptions (flags : List Flag) : Given → List String → Except Stop Given
  | given, [] => .ok given
  | given, argument :: rest =>
    if argument = "--" then if rest = [] then .ok given else .error .wrongUsage
    else if isOperand argument then .error .wrongUsage
    else
      match takeOption flags given argument with
      | .error stop => .error stop
      | .ok (given, none) => readOptions flags given rest
      | .ok (given, some flag) =>
        match rest with
        | [] => .error .wrongUsage
        | operand :: rest =>
          if isOperand operand then
            match give given flag operand with
            | .ok given => readOptions flags given rest
            | .error stop => .error stop
          else .error .wrongUsage

def required (given : Given) (name : String) : Except Stop String :=
  match given.lookup name with
  | some operand => .ok operand
  | none => .error .wrongUsage

def command (name : String) (given : Given) : Except Stop Command :=
  let has := fun name => (given.lookup name).isSome
  match name with
  | "parse" => do return .parse (← required given "file") (has "json")
  | "clean" => do return .clean (← required given "file")
  | "prettify" => do return .prettify (← required given "file")
  | "definitions" => do
    return .definitions (← required given "file") (given.lookup "relative")
      ((given.lookup "mod-name").getD "local") (has "tagged") (has "json")
  | "conflicts" => do return .conflicts (← required given "config") (has "list")
  | "merge" => do
    return .merge (← required given "config") (has "by-files") (given.lookup "name")
  | "create-config" => do return .createConfig (← required given "output")
  | _ => .error .wrongUsage

def helpWith : List String → Stop
  | [] => .help
  | [name] => if name = "help" ∨ (flagsOf? name).isSome then .help else .wrongUsage
  | _ => .wrongUsage

/-- Reads the options before the command's name, then the command. -/
def readCommand : Given → List String → Except Stop Command
  | _, [] => .error .wrongUsage
  | given, argument :: rest =>
    if argument = "--version" then .error .version
    else if isOperand argument then
      match flagsOf? argument with
      | some flags => do command argument (← readOptions flags [] rest)
      | none => .error (if argument = "help" then helpWith rest else .wrongUsage)
    else if argument = "--" then .error .wrongUsage
    else
      match takeOption [verbose, ⟨"version", some 'V', .nothing⟩] given argument with
      | .error stop => .error stop
      | .ok (given, _) =>
        if (given.lookup "version").isSome then .error .version else readCommand given rest

def read (arguments : List String) : Except Stop Command := readCommand [] arguments

end LoadOrder.CommandLine
