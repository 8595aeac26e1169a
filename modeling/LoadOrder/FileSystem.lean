import LoadOrder.Error

namespace LoadOrder

/-- The operations on files and folders that the library needs. Paths are taken as they are given.
-/
structure FileSystem (m : Type → Type) where
  read : (path : String) → ExceptT FileError m String
  /-- makes or replaces a file; its folder has to be there -/
  write : (path text : String) → ExceptT FileError m Unit
  createFolders : (path : String) → ExceptT FileError m Unit
  /-- removes a folder with all that is in it -/
  removeFolder : (path : String) → ExceptT FileError m Unit
  /-- copies a file; the folder of the copy has to be there -/
  copy : (source target : String) → ExceptT FileError m Unit
  /-- the files below a folder, relative to it; for a file, the empty path; a failure comes with the
  path that it is about -/
  filesBelow : (path : String) → ExceptT (String × FileError) m (List String)
  names : (path : String) → ExceptT FileError m (List String)
  isFile : (path : String) → m Bool
  isFolder : (path : String) → m Bool
  isThere : (path : String) → m Bool

end LoadOrder
