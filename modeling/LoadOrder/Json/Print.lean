import LoadOrder.Json.Basic

namespace LoadOrder.Json

def hexDigit (n : Nat) : Char := "0123456789abcdef".toList.getD n '0'

/-- A character as it stands in a string. Only quotes, backslashes and control characters are
escaped. -/
def escape (c : Char) : List Char :=
  if c = '"' then ['\\', '"']
  else if c = '\\' then ['\\', '\\']
  else if c = '\x08' then ['\\', 'b']
  else if c = '\t' then ['\\', 't']
  else if c = '\n' then ['\\', 'n']
  else if c = '\x0c' then ['\\', 'f']
  else if c = '\r' then ['\\', 'r']
  else if c.toNat < 0x20 then
    ['\\', 'u', '0', '0', hexDigit (c.toNat / 16), hexDigit (c.toNat % 16)]
  else [c]

def quote (s : String) : List Char := '"' :: s.toList.flatMap escape ++ ['"']

def newline (indent : Nat) : List Char := '\n' :: List.replicate (2 * indent) ' '

mutual

/-- A document over several lines, two spaces to a level. -/
def layout (indent : Nat) : Json → List Char
  | null => "null".toList
  | bool b => if b then "true".toList else "false".toList
  | natural n => (toString n).toList
  | number literal => literal.toList
  | text s => quote s
  | array [] => "[]".toList
  | array (j :: rest) =>
    '[' :: newline (indent + 1) ++ layout (indent + 1) j ++ itemsLayout (indent + 1) rest ++
      newline indent ++ [']']
  | object [] => ['\x7b', '\x7d']
  | object ((key, j) :: rest) =>
    '\x7b' :: newline (indent + 1) ++ quote key ++ ':' :: ' ' :: layout (indent + 1) j ++
      membersLayout (indent + 1) rest ++ newline indent ++ ['\x7d']
  | broken => "null".toList

def itemsLayout (indent : Nat) : List Json → List Char
  | [] => []
  | j :: rest => ',' :: newline indent ++ layout indent j ++ itemsLayout indent rest

def membersLayout (indent : Nat) : List (String × Json) → List Char
  | [] => []
  | (key, j) :: rest =>
    ',' :: newline indent ++ quote key ++ ':' :: ' ' :: layout indent j ++ membersLayout indent rest

end

def print (j : Json) : String := String.ofList (layout 0 j)

end LoadOrder.Json
