import DefLoad.Kdl.Chars
import DefLoad.Kdl.Value

/-!
The words of a KDL document. Comments and line continuations count as blanks, so a token list says
where blanks stand but not which.
-/

namespace DefLoad.Kdl

inductive Token
  | blank
  | newline
  | semicolon
  | openBrace
  | closeBrace
  | openParen
  | closeParen
  | equals
  /-- A slash and a dash, which comment out what follows. -/
  | slashDash
  /-- A string in any of its notations. -/
  | text (s : String)
  /-- A number or a `#` keyword. -/
  | literal (v : Value)
deriving DecidableEq, Repr

namespace Token

def isBlank : Token → Bool
  | blank => true
  | _ => false

def isLineSpace : Token → Bool
  | blank | newline => true
  | _ => false

def isDashOrLineSpace : Token → Bool
  | blank | newline | slashDash => true
  | _ => false

end Token

end DefLoad.Kdl
