import DefLoad.Text.Ascii

/-!
The character classes of KDL 2.0 and the words that are no plain identifiers.
-/

namespace DefLoad.Kdl

def isNewline (c : Char) : Bool :=
  let n := c.toNat
  (10 ≤ n && n ≤ 13) || n = 0x85 || n = 0x2028 || n = 0x2029

def isSpace (c : Char) : Bool :=
  let n := c.toNat
  n = 9 || n = 0x20 || n = 0xA0 || n = 0x1680 || (0x2000 ≤ n && n ≤ 0x200A) || n = 0x202F ||
    n = 0x205F || n = 0x3000

/-- Characters that may not stand in a document, not even inside quotes. -/
def isForbidden (c : Char) : Bool :=
  let n := c.toNat
  n ≤ 8 || (0xE ≤ n && n ≤ 0x1F) || n = 0x200E || n = 0x200F || (0x202A ≤ n && n ≤ 0x202E) ||
    (0x2066 ≤ n && n ≤ 0x2069) || n = 0xFEFF

def isPunctuation (c : Char) : Bool :=
  c == '\\' || c == '/' || c == '(' || c == ')' || c == '\x7b' || c == '\x7d' || c == '[' ||
    c == ']' ||
    c == ';' || c == '"' || c == '#' || c == '='

/-- Characters of a string written without quotes. -/
def isBare (c : Char) : Bool := !(isNewline c || isSpace c || isForbidden c || isPunctuation c)

def isSign (c : Char) : Bool := c == '+' || c == '-'

/-- Words that look like a keyword or a number without its `#`. -/
def reserved : List String := ["inf", "-inf", "nan", "true", "false", "null"]

/-- `digit…`, `.digit…` and `sign digit…` are read as numbers, well formed or not. -/
def startsLikeNumber : List Char → Bool
  | [] => false
  | [c] => Text.isDecimalDigit c
  | c :: d :: _ => Text.isDecimalDigit c || ((c == '.' || isSign c) && Text.isDecimalDigit d)

/-- A sign, a point and a digit are neither a number nor a plain identifier. -/
def startsLikeFraction : List Char → Bool
  | s :: p :: d :: _ => isSign s && p == '.' && Text.isDecimalDigit d
  | _ => false

end DefLoad.Kdl
