import LoadOrder.Json.Basic
import LoadOrder.Mod

namespace LoadOrder

/-- What a listing is kept under. -/
structure CacheKey where
  category : String
  parameters : List String
deriving DecidableEq, Repr

/-- Stored documents by key; each key at most once. -/
structure Cache where
  entries : List (CacheKey × Json)
deriving Repr

namespace Cache

def empty : Cache := ⟨[]⟩

def get? (cache : Cache) (key : CacheKey) : Option Json :=
  (cache.entries.find? (·.1 == key)).map (·.2)

def erase (cache : Cache) (key : CacheKey) : Cache :=
  ⟨cache.entries.filter (·.1 != key)⟩

def insert (cache : Cache) (key : CacheKey) (j : Json) : Cache :=
  ⟨(key, j) :: (cache.erase key).entries⟩

def eraseAll (cache : Cache) (keys : List CacheKey) : Cache := keys.foldl erase cache

def size (cache : Cache) : Nat := cache.entries.length

end Cache

namespace Mod

def toJson (m : Mod) : Json :=
  .object [("name", .text m.name), ("descriptor_file", .text m.descriptorFile),
    ("path", .text m.path), ("version", .text m.version), ("source", .text m.source.name),
    ("dependencies", Json.ofTexts m.dependencies)]

def ofJson? (j : Json) : Option Mod := do
  match ← Json.fields? Json.maxRoom
    ["name", "descriptor_file", "path", "version", "source", "dependencies"] j with
  | [name, descriptorFile, path, version, source, dependencies] =>
    let text := Json.fieldOr? "" Json.text?
    return {
      name := ← text name
      descriptorFile := ← text descriptorFile
      path := ← text path
      version := ← text version
      source := ← Json.fieldOr? .onDisk
        (Json.constant? Json.maxRoom ModSource.name ModSource.all) source
      dependencies := ← Json.fieldOr? [] (Json.texts? Json.maxRoom) dependencies }
  | _ => none

def listToJson (mods : List Mod) : Json := .array (mods.map toJson)

def listOfJson? (j : Json) : Option (List Mod) := Json.list? Json.maxRoom ofJson? j

end Mod

/-- The listing of a game's mods is kept under this key. -/
def Game.cacheKey (game : Game) : CacheKey := ⟨"mods", [game.key]⟩

end LoadOrder
