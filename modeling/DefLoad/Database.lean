import DefLoad.Types.TypeTable

/-!
The defs of completed loads. Each is held by a cell that outlives its registration; the database
indexes the cells by ID and by type.
-/

namespace DefLoad

structure Database where
  types : TypeTable
  /-- All cells ever made. -/
  cells : List Value
  /-- The registered defs by ID, in the order of registration. -/
  byId : Assoc String Handle
  /-- The registered defs under their type and each of its supertypes. -/
  byType : Assoc TypeKey (List Handle)

namespace Database

def empty (types : TypeTable) : Database := ⟨types, [], [], []⟩

def get? (db : Database) (id : String) : Option Handle := db.byId.get? id

def all (db : Database) : List Handle := db.byId.map Prod.snd

def size (db : Database) : Nat := db.byId.length

/-- All defs of a type or of a subtype. -/
def ofType (db : Database) (k : TypeKey) : List Handle := (db.byType.get? k).getD []

def read (db : Database) (h : Handle) : Value := db.cells[h.cell]?.getD default

def write (db : Database) (h : Handle) (v : Value) : Database :=
  { db with cells := db.cells.set h.cell v }

/-- Puts a def into a cell of its own. -/
def allocate (db : Database) (v : Value) : Handle × Database :=
  (⟨v.id, v.type, db.cells.length⟩, { db with cells := db.cells ++ [v] })

/-- The types under which a def is found. -/
def indexTypes (db : Database) (k : TypeKey) : List TypeKey := k :: db.types.supertypes k

def addTo (m : Assoc TypeKey (List Handle)) (h : Handle) (k : TypeKey) :
    Assoc TypeKey (List Handle) :=
  m.set k ((m.get? k).getD [] ++ [h])

def removeFrom (m : Assoc TypeKey (List Handle)) (h : Handle) (k : TypeKey) :
    Assoc TypeKey (List Handle) :=
  match m.get? k with
  | none => m
  | some hs =>
    match hs.filter (·.cell != h.cell) with
    | [] => m.erase k
    | rest => m.set k rest

/-- An ID that is empty or taken cannot be registered. -/
def canRegister (db : Database) (h : Handle) : Bool := !h.id.isEmpty && !db.byId.contains h.id

def register (db : Database) (h : Handle) : Database :=
  if db.canRegister h then
    { db with
      byId := db.byId.set h.id h
      byType := (db.indexTypes h.type).foldl (addTo · h) db.byType }
  else db

def unregister (db : Database) (id : String) : Option Handle × Database :=
  match db.get? id with
  | none => (none, db)
  | some h =>
    (some h,
      { db with
        byId := db.byId.erase id
        byType := (db.indexTypes h.type).foldl (removeFrom · h) db.byType })

/-- Forgets all defs; their cells stay readable. -/
def clear (db : Database) : Database := { db with byId := [], byType := [] }

theorem register_of_not_canRegister {db : Database} {h : Handle} (hc : db.canRegister h = false) :
    db.register h = db := by
  simp [register, hc]

end Database

end DefLoad
