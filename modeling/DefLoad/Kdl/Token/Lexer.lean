import DefLoad.Kdl.Number
import DefLoad.Kdl.Token

/-!
From characters to tokens. A string or a number has to end at a mark or a blank; a keyword does not.
-/

namespace DefLoad.Kdl

/-- The rest after a comment with so many closings still to come. -/
def skipComment : Nat → List Char → Option (List Char)
  | 0, cs => some cs
  | n + 1, '*' :: '/' :: cs => skipComment n cs
  | n + 1, '/' :: '*' :: cs => skipComment (n + 2) cs
  | n + 1, _ :: cs => skipComment (n + 1) cs
  | _ + 1, [] => none

/-- The rest after a line and its newline. -/
def skipLine : List Char → List Char
  | [] => []
  | c :: cs => (dropNewline? (c :: cs)).getD (skipLine cs)

/-- The rest after the backslash of a continued line: blanks and comments up to the newline. -/
def skipContinuation : Nat → List Char → Option (List Char)
  | 0, [] => some []
  | _ + 1, [] => none
  | 0, '/' :: '*' :: cs => skipContinuation 1 cs
  | 0, '/' :: '/' :: cs => some (skipLine cs)
  | 0, c :: cs => if isSpace c then skipContinuation 0 cs else dropNewline? (c :: cs)
  | n + 1, '*' :: '/' :: cs => skipContinuation n cs
  | n + 1, '/' :: '*' :: cs => skipContinuation (n + 2) cs
  | n + 1, _ :: cs => skipContinuation (n + 1) cs

/-- What may stand behind a string or a number: the end, a blank, a newline, a comment, or a mark
other than an opening parenthesis. -/
def endsWord : List Char → Bool
  | [] => true
  | c :: cs =>
    if c == '/' then cs.head? == some '*' || cs.head? == some '/'
    else
      isSpace c || isNewline c || c == '\\' || c == '=' || c == ';' || c == ')' || c == '\x7b' ||
        c == '\x7d'

/-- A string or a number that ends where it has to. -/
def word? (t : Token) (rest : List Char) : Option (Token × List Char) :=
  if endsWord rest then some (t, rest) else none

def keywords : List (String × Value) :=
  [("true", .bool true), ("false", .bool false), ("null", .null),
    ("inf", .float Decimal.Format.double.infinityBits),
    ("-inf", .float (Decimal.Format.double.signed true Decimal.Format.double.infinityBits)),
    ("nan", .float Decimal.Format.double.nanBits)]

/-- The keyword at the start of a text. Whatever follows is read on its own. -/
def readKeyword (cs : List Char) : Option (Token × List Char) :=
  (keywords.find? fun (name, _) => name.toList.isPrefixOf cs).map fun (name, v) =>
    (.literal v, cs.drop name.length)

/-- What follows hashes: a raw string, or a keyword after a single one. -/
def readHash (cs : List Char) : Option (Token × List Char) :=
  let hashes := (cs.takeWhile (· == '#')).length
  match cs.dropWhile (· == '#') with
  | '"' :: rest => (readRaw hashes ('"' :: rest)).bind fun (s, rest) => word? (.text s) rest
  | rest => if hashes = 1 then readKeyword rest else none

/-- A number, or a string without quotes. -/
def readBare (cs : List Char) : Option (Token × List Char) :=
  let word := cs.takeWhile isBare
  if startsLikeNumber word then (readNumber cs).bind fun (v, rest) => word? (.literal v) rest
  else if startsLikeFraction word then none
  else if word.isEmpty || reserved.contains (String.ofList word) then none
  else word? (.text (String.ofList word)) (cs.dropWhile isBare)

namespace Token

/-- The first token of a text that is not empty. -/
def next : List Char → Option (Token × List Char)
  | [] => none
  | '\x7b' :: cs => some (.openBrace, cs)
  | '\x7d' :: cs => some (.closeBrace, cs)
  | '(' :: cs => some (.openParen, cs)
  | ')' :: cs => some (.closeParen, cs)
  | ';' :: cs => some (.semicolon, cs)
  | '=' :: cs => some (.equals, cs)
  | '"' :: cs => (readQuoted ('"' :: cs)).bind fun (s, rest) => word? (.text s) rest
  | '#' :: cs => readHash ('#' :: cs)
  | '\\' :: cs => (skipContinuation 0 cs).map (.blank, ·)
  | '/' :: '-' :: cs => some (.slashDash, cs)
  | '/' :: '/' :: cs => some (.newline, skipLine cs)
  | '/' :: '*' :: cs => (skipComment 1 cs).map (.blank, ·)
  | c :: cs =>
    if isSpace c then some (.blank, cs.dropWhile isSpace)
    else if isNewline c then (dropNewline? (c :: cs)).map (.newline, ·)
    else readBare (c :: cs)

def scan : Nat → List Char → Option (List Token)
  | _, [] => some []
  | 0, _ => none
  | n + 1, cs => (next cs).bind fun (t, rest) => (scan n rest).map (t :: ·)

/-- The tokens of a text. Each token takes a character, so as many steps as characters suffice. -/
def ofChars? (cs : List Char) : Option (List Token) := scan cs.length cs

end Token

end DefLoad.Kdl
