import DefLoad.Config
import DefLoad.Types.NameLookup

/-!
Parsers turn the text of a node, or the node itself, into a value. The first parser that handles a
type handles it from then on.
-/

namespace DefLoad

/-- What a parser may consult beyond its own context. -/
structure Env where
  types : TypeTable
  config : Config
  /-- The defs that a reference can mean. -/
  findDef : String → Option Handle

structure Parser where
  name : String
  /-- It works from the text and the target alone; only such parsers read map keys. -/
  contextFree : Bool
  handles : Descriptor → Bool
  parse : Env → Context → Except String Value
  /-- It wants to hear when all defs of a load have been read. -/
  listens : Bool := false

/-- The parser for a type is the first one that handles it. -/
def parserFor (parsers : List Parser) (t : Descriptor) : Option Parser :=
  parsers.find? (·.handles t)

theorem parserFor_spec {parsers : List Parser} {t : Descriptor} {p : Parser}
    (h : parserFor parsers t = some p) : p ∈ parsers ∧ p.handles t = true := by
  unfold parserFor at h
  have hhandles := List.find?_some h
  exact ⟨List.mem_of_find?_eq_some h, hhandles⟩

/-- Parsers in the order of their addition, each under a number of its own, and the answers given so
far by type. -/
structure ParserTable where
  entries : List (Nat × Parser)
  next : Nat
  answers : Assoc TypeKey (Option Parser)

namespace ParserTable

def empty : ParserTable := ⟨[], 0, []⟩

def parsers (t : ParserTable) : List Parser := t.entries.map Prod.snd

/-- Adds a new parser and forgets all answers. -/
def add (t : ParserTable) (p : Parser) : ParserTable := ⟨t.entries ++ [(t.next, p)], t.next + 1, []⟩

/-- Adds a parser that has a number already, unless it is there. -/
def addNumbered (t : ParserTable) (e : Nat × Parser) : ParserTable :=
  if t.entries.any (·.1 == e.1) then t else { t with entries := t.entries ++ [e], answers := [] }

def ofList (ps : List Parser) : ParserTable := ps.foldl add empty

def find (t : ParserTable) (d : Descriptor) : Option Parser × ParserTable :=
  match Assoc.get? t.answers d.key with
  | some answer => (answer, t)
  | none =>
    let answer := parserFor t.parsers d
    (answer, { t with answers := Assoc.set t.answers d.key answer })

end ParserTable

end DefLoad
