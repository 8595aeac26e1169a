import LoadOrder.Script.Statement

namespace LoadOrder

/-- Why an operation on a file or folder failed. -/
inductive FileError
  | notFound
  | alreadyThere
  | notFolder
  | isFolder
  | notEmpty
  | invalidPath
  | nameTooLong
  | nulInPath
  | notText
  | notRegular
  | other (text : String)
deriving DecidableEq, Repr

def FileError.message : FileError → String
  | .notFound => "No such file or directory (os error 2)"
  | .alreadyThere => "File exists (os error 17)"
  | .notFolder => "Not a directory (os error 20)"
  | .isFolder => "Is a directory (os error 21)"
  | .notEmpty => "Directory not empty (os error 39)"
  | .invalidPath => "Invalid argument (os error 22)"
  | .nameTooLong => "File name too long (os error 36)"
  | .nulInPath => "file name contained an unexpected NUL byte"
  | .notText => "stream did not contain valid UTF-8"
  | .notRegular => "the source path is neither a regular file nor a symlink to a regular file"
  | .other text => text

inductive Error
  | fileRead (path : String) (cause : FileError)
  | script (path : String) (cause : Script.SyntaxError)
  | walk (path : String) (cause : FileError)
  | invalidConfig (text : String)
  | missingMod (name : String)
  | file (cause : FileError)
  | json
deriving DecidableEq, Repr

def Error.message : Error → String
  | .fileRead path cause => "failed to read file '" ++ path ++ "': " ++ cause.message
  | .script path cause => "failed to parse '" ++ path ++ "' at " ++ cause.report
  | .walk path cause =>
    "failed to traverse directory: IO error for operation on " ++ path ++ ": " ++ cause.message
  | .invalidConfig text => "invalid configuration: " ++ text
  | .missingMod name => "mod '" ++ name ++ "' is not installed"
  | .file cause => "IO error: " ++ cause.message
  | .json => "JSON error: not a valid document"

end LoadOrder
