import DefLoad.Arsenal.Plain
import DefLoad.Parsers.Standard

/-!
Parsers for the sample's plain types. Some of them give a value of another type on the text `wrong`.
-/

namespace DefLoad.Arsenal

open Parsers (nameIn)

/-- The text before the first separator and the text after it. -/
def splitFirst (c : Char) : List Char → Option (List Char × List Char)
  | [] => none
  | d :: cs => if d = c then some ([], cs) else (splitFirst c cs).map fun (a, b) => (d :: a, b)

def readI32 (cs : List Char) : Option Int := ((Decimal.Range.signed 32).read cs).toOption

def tagParser : Parser where
  name := "tag"
  contextFree := false
  handles t := t.key = tag
  parse _ c :=
    if c.text = "wrong" then .ok (pointValue 0 0)
    else
      match c.node with
      | none => .error "tags need their node"
      | some n => .ok (tagValue s!"{n.name}={c.text}")

def pointParser : Parser where
  name := "point"
  contextFree := true
  handles t := t.key = point
  parse _ c :=
    if c.text = "wrong" then .ok (tagValue "wrong")
    else
      let found := (splitFirst ',' c.text.toList).bind fun (x, y) =>
        (readI32 x).bind fun x => (readI32 y).map fun y => pointValue x y
      match found with
      | some v => .ok v
      | none => .error s!"'{c.text}' is not a point"

def slotText : Slot → String
  | .root => "root"
  | .member => "member"
  | .item i => s!"list:{i}"
  | .entry (.scalar k (.text s)) => if k = .string then s!"key:{s}" else "key?"
  | .entry (.scalar k (.int n)) => if k = .i32 then s!"num:{n}" else "key?"
  | .entry _ => "key?"

/-- All that a parser can see, as one text. -/
def probeText (e : Env) (c : Context) : String :=
  let shown (s : Option String) : String := s.getD "-"
  let typeOf (v : Option Value) : String := shown (v.map fun v => nameIn e v.type)
  String.intercalate "|"
    ["text=" ++ c.text, "target=" ++ nameIn e c.target, "declared=" ++ nameIn e c.declared,
      "member=" ++ shown (c.member.map (·.name)), "owner=" ++ typeOf c.owner,
      "slot=" ++ slotText c.slot, "current=" ++ typeOf c.current,
      "node=" ++ shown (c.node.map (·.name)), "hint=" ++ shown (c.attr "Hint"),
      "exact=" ++ toString e.config.caseSensitive, "slug=" ++ toString (e.findDef "Slug").isSome]

def probeParser : Parser where
  name := "probe"
  contextFree := true
  handles t := t.key = probe
  parse e c := .ok (.scalar probe (.text (probeText e c)))

def shoutParser : Parser where
  name := "shout"
  contextFree := true
  handles t := t.key = .string || t.key = tag
  parse _ c := .ok (.scalar c.target (.text (Text.upper c.text)))

/-- A weight and a bulk with a slash between them. -/
def readStats (cs : List Char) : Except String Value :=
  match splitFirst '/' cs with
  | none => .error "stats need a slash"
  | some (weight, bulk) =>
    match (Decimal.Format.single.read weight).toOption, readI32 bulk with
    | none, _ => .error "bad weight"
    | _, none => .error "bad bulk"
    | some w, some b => .ok (statsValue w b 10)

def statsParser : Parser where
  name := "stats"
  contextFree := false
  handles t := t.key = stats
  parse _ c := if c.text = "wrong" then .ok (pointValue 0 0) else readStats c.text.toList

def denyParser : Parser where
  name := "deny"
  contextFree := false
  handles t := t.key = sealedText
  parse _ c := .error s!"denied: {c.text}"

/-- Handles nothing and waits for the end of the load. -/
def countParser : Parser where
  name := "count"
  contextFree := false
  handles _ := false
  parse _ _ := .error "nothing to count"
  listens := true

def parsers : List Parser :=
  [tagParser, pointParser, probeParser, shoutParser, statsParser, denyParser, countParser]

def parser? (name : String) : Option Parser := parsers.find? (·.name == name)

end DefLoad.Arsenal
