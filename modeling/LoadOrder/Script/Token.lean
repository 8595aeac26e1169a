import LoadOrder.Text.Blank
import LoadOrder.Script.Position

namespace LoadOrder.Script

/-- What stands between a key and its value. -/
inductive Operator
  | equal
  | equalEqual
  | notEqual
  | less
  | lessEqual
  | greater
  | greaterEqual
  | maybeEqual
deriving DecidableEq, Repr

def Operator.text : Operator → String
  | .equal => "="
  | .equalEqual => "=="
  | .notEqual => "!="
  | .less => "<"
  | .lessEqual => "<="
  | .greater => ">"
  | .greaterEqual => ">="
  | .maybeEqual => "?="

/-- A word, or what stands between two quotes, escapes kept as written. -/
inductive Atom
  | word (text : String)
  | quoted (text : String)
deriving DecidableEq, Repr

def Atom.text : Atom → String
  | .word text => text
  | .quoted text => text

def Atom.source : Atom → String
  | .word text => text
  | .quoted text => "\"" ++ text ++ "\""

inductive Token
  | atom (atom : Atom)
  | operator (operator : Operator)
  | opening
  | closing
deriving DecidableEq, Repr

def Token.source : Token → String
  | .atom a => a.source
  | .operator o => o.text
  | .opening => "\x7b"
  | .closing => "\x7d"

structure Located where
  token : Token
  position : Position
deriving DecidableEq, Repr

/-- Why a text is not a script. -/
inductive Fault
  | unterminatedString
  | unexpectedCharacter
  | unclosed
  | unmatchedClosing
  | operatorWithoutKey (operator : Operator)
  | missingValue (operator : Operator)
  | tooDeep
deriving DecidableEq, Repr

def Fault.message : Fault → String
  | .unterminatedString => "unterminated string"
  | .unexpectedCharacter => "unexpected character"
  | .unclosed => "unclosed '\x7b'"
  | .unmatchedClosing => "unexpected '\x7d'"
  | .operatorWithoutKey o => "operator '" ++ o.text ++ "' without a key"
  | .missingValue o => "missing value after '" ++ o.text ++ "'"
  | .tooDeep => "nesting too deep"

structure SyntaxError where
  fault : Fault
  position : Position
deriving DecidableEq, Repr

def SyntaxError.message (e : SyntaxError) : String :=
  e.fault.message ++ " (" ++ e.position.text ++ ")"

def SyntaxError.report (e : SyntaxError) : String := e.position.text ++ ": " ++ e.fault.message

def isGap (c : Char) : Bool := Text.isBlank c || c == '\uFEFF'

def isWordChar (c : Char) : Bool :=
  !isGap c && c != '=' && c != '\x7b' && c != '\x7d' && c != '<' && c != '>' && c != '"' && c != '#'

/-- The text begins with one equals sign and not with two. -/
def singleEqual : List Char → Bool
  | '=' :: '=' :: _ => false
  | '=' :: _ => true
  | _ => false

/-- The number of characters of the word that goes on in a text. A word stops before the operator
that a `!` or `?` makes with a single equals sign. -/
def wordLength : List Char → Nat
  | [] => 0
  | c :: rest =>
    if !isWordChar c || (c == '!' || c == '?') && singleEqual rest then 0
    else wordLength rest + 1

/-- The number of characters up to the quote that closes a string, if there is one. A backslash
takes the next character with it. -/
def quotedLength? : List Char → Option Nat
  | [] => none
  | '"' :: _ => some 0
  | '\\' :: _ :: rest => (quotedLength? rest).map (· + 2)
  | '\\' :: [] => none
  | _ :: rest => (quotedLength? rest).map (· + 1)

/-- What a text that is not empty begins with: its number of characters and, unless it is a gap or
a comment, the token. -/
inductive Front
  | gap (length : Nat)
  | token (token : Token) (length : Nat)
  | unreadable
deriving DecidableEq, Repr

/-- An operator that may be followed by an equals sign. -/
def Front.comparison (plain withEqual : Operator) : List Char → Front
  | '=' :: _ => .token (.operator withEqual) 2
  | _ => .token (.operator plain) 1

def Front.word (c : Char) (rest : List Char) : Front :=
  let n := wordLength rest
  .token (.atom (.word (String.ofList (c :: rest.take n)))) (n + 1)

/-- What stands at the front of the text `c :: rest`. -/
def Front.of (c : Char) (rest : List Char) : Front :=
  if isGap c then .gap 1
  else if c = '#' then .gap ((rest.takeWhile (· != '\n')).length + 1)
  else if c = '\x7b' then .token .opening 1
  else if c = '\x7d' then .token .closing 1
  else if c = '=' then comparison .equal .equalEqual rest
  else if c = '<' then comparison .less .lessEqual rest
  else if c = '>' then comparison .greater .greaterEqual rest
  else if c = '!' ∧ rest.head? = some '=' then .token (.operator .notEqual) 2
  else if c = '?' ∧ rest.head? = some '=' then .token (.operator .maybeEqual) 2
  else if c = '"' then
    match quotedLength? rest with
    | some n => .token (.atom (.quoted (String.ofList (rest.take n)))) (n + 2)
    | none => .unreadable
  else if isWordChar c then word c rest
  else .unreadable

def Fault.ofUnreadable (c : Char) : Fault :=
  if c = '"' then .unterminatedString else .unexpectedCharacter

/-- The tokens of a text that begins at `p`, or where none of them begins. -/
def tokensFrom (p : Position) : List Char → Except SyntaxError (List Located)
  | [] => .ok []
  | c :: rest =>
    match Front.of c rest with
    | .gap n => tokensFrom (p.after (c :: rest.take (n - 1))) (rest.drop (n - 1))
    | .token t n =>
      (tokensFrom (p.after (c :: rest.take (n - 1))) (rest.drop (n - 1))).map (⟨t, p⟩ :: ·)
    | .unreadable => .error ⟨.ofUnreadable c, p⟩
termination_by s => s.length
decreasing_by all_goals simp only [List.length_drop, List.length_cons]; omega

def tokens (text : String) : Except SyntaxError (List Located) :=
  tokensFrom .start text.toList

end LoadOrder.Script
