import DefLoad.Kdl.Chars

/-!
Strings in quotes: escapes, raw strings, and lines that are freed of their common indentation.
-/

namespace DefLoad.Kdl

/-- A character of a string body. Whether it was escaped matters for indentation only. -/
inductive Piece
  | plain (c : Char)
  | escaped (c : Char)
  | lineBreak
deriving DecidableEq, Repr

namespace Piece

def isSpace : Piece → Bool
  | plain c => Kdl.isSpace c
  | _ => false

def char : Piece → Char
  | plain c => c
  | escaped c => c
  | lineBreak => '\n'

end Piece

def unescape? : Char → Option Char
  | '\\' => some '\\'
  | '"' => some '"'
  | 'b' => some '\x08'
  | 'f' => some '\x0c'
  | 'n' => some '\n'
  | 'r' => some '\r'
  | 't' => some '\t'
  | 's' => some ' '
  | _ => none

def escape? : Char → Option Char
  | '\\' => some '\\'
  | '"' => some '"'
  | '\x08' => some 'b'
  | '\x0c' => some 'f'
  | '\n' => some 'n'
  | '\r' => some 'r'
  | '\t' => some 't'
  | _ => none

theorem unescape?_escape? {c e : Char} (h : escape? c = some e) : unescape? e = some c := by
  unfold escape? at h
  split at h <;> simp_all [unescape?]
  all_goals subst h; rfl

def hexValue? (c : Char) : Option Nat :=
  if '0' ≤ c && c ≤ '9' then some (c.toNat - '0'.toNat)
  else if 'a' ≤ c && c ≤ 'f' then some (c.toNat - 'a'.toNat + 10)
  else if 'A' ≤ c && c ≤ 'F' then some (c.toNat - 'A'.toNat + 10)
  else none

def scalar? (n : Nat) : Option Char := if n.isValidChar then some (Char.ofNat n) else none

/-- Where the reader of a string body stands. -/
inductive Mode
  | body
  /-- After a backslash before blanks or newlines, which all vanish. -/
  | gap
  /-- Inside a code point escape, after so many digits of that value. -/
  | code (digits value : Nat)
deriving DecidableEq

/-- A carriage return before a line feed; the pair is one newline, counted at the line feed. -/
def startsPair (c : Char) (cs : List Char) : Bool := c == '\r' && cs.head? == some '\n'

def isGap (c : Char) : Bool := isSpace c || isNewline c

/-- Reads a body with escapes up to its closing quote, or three closing quotes when `lines`. -/
def readBody (lines : Bool) : Mode → List Char → Option (List Piece × List Char)
  | _, [] => none
  | .code digits value, c :: cs =>
    if c = '\x7d' then
      if digits = 0 then none
      else (scalar? value).bind fun ch =>
        (readBody lines .body cs).map fun (ps, rest) => (.escaped ch :: ps, rest)
    else (hexValue? c).bind fun h =>
      if digits < 6 then readBody lines (.code (digits + 1) (value * 16 + h)) cs else none
  | mode, c :: cs =>
    if mode = .gap && isGap c then readBody lines .gap cs
    else if c = '"' then
      if lines then
        match cs with
        | '"' :: '"' :: rest => some ([], rest)
        | _ => (readBody lines .body cs).map fun (ps, rest) => (.plain c :: ps, rest)
      else some ([], cs)
    else if c = '\\' then
      match cs with
      | [] => none
      | 'u' :: '\x7b' :: es => readBody lines (.code 0 0) es
      | e :: es =>
        if isGap e then readBody lines .gap es
        else (unescape? e).bind fun ch =>
          (readBody lines .body es).map fun (ps, rest) => (.escaped ch :: ps, rest)
    else if isForbidden c then none
    else if isNewline c then
      if !lines then none
      else if startsPair c cs then readBody lines .body cs
      else (readBody lines .body cs).map fun (ps, rest) => (.lineBreak :: ps, rest)
    else (readBody lines .body cs).map fun (ps, rest) => (.plain c :: ps, rest)

/-- The rest after `count` characters `c`, if the text starts with them. -/
def dropExactly (c : Char) : Nat → List Char → Option (List Char)
  | 0, cs => some cs
  | n + 1, d :: cs => if d = c then dropExactly c n cs else none
  | _ + 1, [] => none

def closeRaw? (lines : Bool) (hashes : Nat) (cs : List Char) : Option (List Char) :=
  (dropExactly '"' (if lines then 3 else 1) cs).bind (dropExactly '#' hashes)

/-- Reads a body without escapes up to its closing quotes and hashes. -/
def readRawBody (lines : Bool) (hashes : Nat) : List Char → Option (List Piece × List Char)
  | [] => none
  | c :: cs =>
    match closeRaw? lines hashes (c :: cs) with
    | some rest => some ([], rest)
    | none =>
      if isForbidden c then none
      else if isNewline c then
        if !lines then none
        else if startsPair c cs then readRawBody lines hashes cs
        else (readRawBody lines hashes cs).map fun (ps, rest) => (.lineBreak :: ps, rest)
      else (readRawBody lines hashes cs).map fun (ps, rest) => (.plain c :: ps, rest)

/-- The first line and the lines after it. -/
def splitLines : List Piece → List Piece × List (List Piece)
  | [] => ([], [])
  | .lineBreak :: ps => let (l, ls) := splitLines ps; ([], l :: ls)
  | p :: ps => let (l, ls) := splitLines ps; (p :: l, ls)

/-- Cuts the indentation off a line. A line of blanks only is empty, however long. -/
def dedentLine (indent line : List Piece) : Option (List Piece) :=
  if line.all Piece.isSpace then some []
  else if indent.isPrefixOf line then some (line.drop indent.length)
  else none

/-- The last line holds blanks only; they are the indentation of all others. -/
def dedent (body : List Piece) : Option (List Piece) :=
  let (first, others) := splitLines body
  let lines := first :: others
  let indent := lines.getLastD []
  if indent.all Piece.isSpace then
    (lines.dropLast.mapM (dedentLine indent)).map (List.intercalate [Piece.lineBreak])
  else none

def stringOf (ps : List Piece) : String := String.ofList (ps.map Piece.char)

/-- The rest after a newline; a carriage return and line feed are one newline. -/
def dropNewline? : List Char → Option (List Char)
  | '\r' :: '\n' :: cs => some cs
  | c :: cs => if isNewline c then some cs else none
  | [] => none

/-- A string in quotes, from its opening quote on. -/
def readQuoted (cs : List Char) : Option (String × List Char) :=
  match dropExactly '"' 3 cs with
  | some rest => do
    let (ps, rest) ← readBody true .body (← dropNewline? rest)
    return (stringOf (← dedent ps), rest)
  | none => do
    let (ps, rest) ← readBody false .body (cs.drop 1)
    return (stringOf ps, rest)

/-- A raw string, from its first quote on. It has lines if three quotes and a newline open it; else
every quote after the first belongs to the body. A lone quote has no raw notation. -/
def readRaw (hashes : Nat) (cs : List Char) : Option (String × List Char) := do
  let (ps, rest) ← match (dropExactly '"' 3 cs).bind dropNewline? with
    | some rest => (readRawBody true hashes rest).bind fun (ps, rest) => (dedent ps).map (·, rest)
    | none => (dropExactly '"' 1 cs).bind (readRawBody false hashes)
  if ps = [.plain '"'] then none else some (stringOf ps, rest)

end DefLoad.Kdl
