import DefLoad.Decimal.Numeral
import DefLoad.Selector
import DefLoad.Text.Blank

/-!
Reading a selector. Every reader takes the rest of the text and returns what is left of it, so the
place of a fault is the rest at which it was found.
-/

namespace DefLoad.Selector

open Text (isBlank skipBlanks isDecimalDigit)

inductive Fault
  /-- The text cannot go on like this; an empty rest means that it ended too early. -/
  | at (rest : List Char)
  | zeroPosition
deriving DecidableEq, Repr

abbrev Reader (α : Type) := List Char → Except Fault (α × List Char)

def isDelimiter (c : Char) : Bool :=
  c == '/' || c == '[' || c == ']' || c == '=' || c == '@' || c == '(' || c == ')' || c == '\x27' ||
    c == '"'

def isNameChar (c : Char) : Bool := !(isBlank c || isDelimiter c)

/-- The greatest position that can be asked for. -/
def greatestPosition : Nat := Nat.pow 2 64 - 1

def readName : Reader (List Char) := fun cs =>
  match cs.takeWhile isNameChar with
  | [] => .error (.at cs)
  | name => .ok (name, cs.dropWhile isNameChar)

def expect (c : Char) : Reader Unit
  | d :: cs => if d = c then .ok ((), cs) else .error (.at (d :: cs))
  | [] => .error (.at [])

/-- The text up to a quote, and the rest after it. -/
def readLiteral (quote : Char) : Reader (List Char)
  | [] => .error (.at [])
  | c :: cs =>
    if c = quote then .ok ([], cs)
    else (readLiteral quote cs).map fun (s, rest) => (c :: s, rest)

/-- An equals sign and a quoted literal, or nothing. -/
def readEquals : Reader (Option String) := fun cs =>
  match skipBlanks cs with
  | '=' :: rest =>
    match skipBlanks rest with
    | c :: rest =>
      if c = '\x27' || c = '"' then
        (readLiteral c rest).map fun (s, rest) => (some (String.ofList s), rest)
      else .error (.at (c :: rest))
    | [] => .error (.at [])
  | rest => .ok (none, rest)

def readPosition : Reader Predicate := fun cs =>
  let n := Decimal.ofDigits (cs.takeWhile isDecimalDigit)
  if n = 0 || greatestPosition < n then .error .zeroPosition
  else .ok (.position n, cs.dropWhile isDecimalDigit)

def readAttrPredicate : Reader Predicate := fun cs => do
  let (key, cs) ← readName cs
  let (value, cs) ← readEquals cs
  return (match value with
    | some v => .attrEquals (String.ofList key) v
    | none => .hasAttr (String.ofList key), cs)

/-- What follows `text(`. -/
def readTextPredicate : Reader Predicate := fun cs => do
  let ((), cs) ← expect ')' cs
  let (value, cs) ← readEquals cs
  match value with
  | some v => return (.textEquals v, cs)
  | none => .error (.at cs)

def readChildPredicate : Reader Predicate := fun cs => do
  let (name, cs) ← readName cs
  match String.ofList name, cs with
  | "text", '(' :: cs => readTextPredicate cs
  | name, cs =>
    let (value, cs) ← readEquals cs
    return (match value with
      | some v => .childEquals name v
      | none => .hasChild name, cs)

/-- A predicate after its opening bracket, with the closing one. -/
def readPredicate : Reader Predicate := fun cs => do
  let (p, cs) ← match skipBlanks cs with
    | [] => .error (.at [])
    | '@' :: cs => readAttrPredicate cs
    | c :: cs => if isDecimalDigit c then readPosition (c :: cs) else readChildPredicate (c :: cs)
  let ((), cs) ← expect ']' (skipBlanks cs)
  return (p, cs)

def readPredicates : Nat → Reader (List Predicate)
  | 0, cs => .ok ([], cs)
  | n + 1, cs =>
    match skipBlanks cs with
    | '[' :: rest => do
      let (p, rest) ← readPredicate rest
      let (ps, rest) ← readPredicates n rest
      return (p :: ps, rest)
    | rest => .ok ([], rest)

def nameTest (name : String) : NameTest :=
  match name with
  | "*" => .any
  | "." => .current
  | ".." => .parent
  | _ => .named name

def readStep (descend : Bool) : Reader Step := fun cs => do
  let (name, cs) ← readName (skipBlanks cs)
  let (ps, cs) ← readPredicates (cs.length + 1) cs
  return (⟨descend, nameTest (String.ofList name), ps⟩, cs)

/-- Steps that each begin with a slash. -/
def readMoreSteps : Nat → Reader (List Step)
  | 0, cs => .error (.at cs)
  | n + 1, cs =>
    match cs with
    | [] => .ok ([], [])
    | '/' :: '/' :: rest => follow n true rest
    | '/' :: rest => follow n false rest
    | c :: rest => .error (.at (c :: rest))
where
  follow (n : Nat) (descend : Bool) (rest : List Char) : Except Fault (List Step × List Char) := do
    let (s, rest) ← readStep descend rest
    let (ss, rest) ← readMoreSteps n (skipBlanks rest)
    return (s :: ss, rest)

/-- All steps of a selector without blanks in front. -/
def readSteps (cs : List Char) : Except Fault (List Step) :=
  match cs with
  | '/' :: _ => (readMoreSteps (cs.length + 1) cs).map Prod.fst
  | _ => do
    let (s, rest) ← readStep false cs
    let (ss, _) ← readMoreSteps (rest.length + 1) (skipBlanks rest)
    return s :: ss

def utf8Length (cs : List Char) : Nat := cs.foldl (fun n c => n + c.utf8Size) 0

theorem foldl_utf8Size (cs : List Char) (n : Nat) :
    cs.foldl (fun n c => n + c.utf8Size) n = n + utf8Length cs := by
  induction cs generalizing n with
  | nil => rfl
  | cons c cs ih =>
    have hcons : utf8Length (c :: cs) = 0 + c.utf8Size + utf8Length cs := ih (0 + c.utf8Size)
    rw [List.foldl_cons, ih, hcons]
    omega

@[simp] theorem utf8Length_nil : utf8Length [] = 0 := rfl

@[simp] theorem utf8Length_cons (c : Char) (cs : List Char) :
    utf8Length (c :: cs) = c.utf8Size + utf8Length cs := by
  have hcons : utf8Length (c :: cs) = 0 + c.utf8Size + utf8Length cs := foldl_utf8Size cs _
  rw [hcons, Nat.zero_add]

@[simp] theorem utf8Length_append (a b : List Char) :
    utf8Length (a ++ b) = utf8Length a + utf8Length b := by
  rw [utf8Length, List.foldl_append, foldl_utf8Size]
  rfl

def Fault.toError (source : String) : Fault → SelectorError
  | .zeroPosition => .zeroPosition source
  | .at [] => .unexpectedEnd source
  | .at (c :: rest) => .unexpected source (utf8Length source.toList - utf8Length (c :: rest)) c

def parse (source : String) : Except SelectorError Selector :=
  match skipBlanks source.toList with
  | [] => .error .empty
  | c :: cs =>
    match readSteps (c :: cs) with
    | .ok steps => .ok ⟨c == '/', steps⟩
    | .error fault => .error (fault.toError source)

end DefLoad.Selector
