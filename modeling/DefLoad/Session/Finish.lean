import DefLoad.Session.Patches

/-!
The end of a load: the nodes that become defs are chosen, instances are made and filled, registered,
and told in three passes that the load is over.
-/

namespace DefLoad.Session

structure Report where
  created : Nat
  /-- Defs that were there before and have been filled again. -/
  reused : Nat
  registered : Nat
  /-- Parsers that were told that all defs have been read. -/
  notified : Nat
  diagnostics : Diagnostics

def namedDefType (types : TypeTable) (n : Node) : Except String Descriptor := do
  let t ← namedType types "def" n
  let name := (n.attr "Type").getD ""
  if t.isAbstract then .error s!"def type '{name}' is abstract"
  else if t.isDef then return t
  else .error s!"type '{name}' is not a def type"

/-- A node that may become a def: its place in the master tree, its type, and the def that it fills
again, if there is one. -/
structure Candidate where
  index : Nat
  node : Node
  type : Descriptor
  existing : Option Handle

def existing? (s : Session) (id : String) : Option Handle :=
  if s.mode = .reload then s.db.get? id else none

def candidate (s : Session) (index : Nat) (n : Node) : Reported (Option Candidate) := do
  if n.flag "Abstract" = some true then return none
  match s.existing? n.name with
  | some h =>
    match s.db.types.get? h.type with
    | some t => return some ⟨index, n, t, some h⟩
    | none =>
      .report (.error .resolution n.name "type of the existing def is not registered")
      return none
  | none =>
    match namedDefType s.db.types n with
    | .ok t => return some ⟨index, n, t, none⟩
    | .error message =>
      .report (.error .resolution n.name message)
      return none

def candidates (s : Session) : Nat → List Node → Reported (List Candidate)
  | _, [] => return []
  | i, n :: ns => do
    let c ← candidate s i n
    let cs ← candidates s (i + 1) ns
    return c.toList ++ cs

/-- The candidates of one name that the policy keeps: at most one. -/
def kept (policy : DuplicatePolicy) (cs : List Candidate) : Option Nat :=
  match policy with
  | .firstWins => (cs.head?).map (·.index)
  | .lastWins => (cs.getLast?).map (·.index)
  | .rejectAll =>
    match cs with
    | [c] => some c.index
    | _ => none

def skipped (c : Candidate) : Diagnostic :=
  let source := (c.node.attr "Source").getD "<unknown source>"
  .error .resolution c.node.name s!"duplicate def ID '{c.node.name}'; node from {source} skipped"

/-- The names of candidates, each once, in the order of first appearance. -/
def distinctNames : List Candidate → List String
  | [] => []
  | c :: cs => c.node.name :: (distinctNames cs).filter (· != c.node.name)

def ofName (cs : List Candidate) (name : String) : List Candidate := cs.filter (·.node.name == name)

/-- The candidates that become defs, in their order. Complaints come name by name. -/
def select (policy : DuplicatePolicy) (cs : List Candidate) : Reported (List Candidate) := do
  let lost (name : String) : List Candidate :=
    (ofName cs name).filter fun c => some c.index != kept policy (ofName cs name)
  .reportAll ((distinctNames cs).flatMap fun name => (lost name).map skipped)
  return cs.filter fun c => some c.index == kept policy (ofName cs c.node.name)

/-- A def of the running load. -/
structure Pending where
  handle : Handle
  type : Descriptor
  node : Node
  reused : Bool

/-- A fresh instance, if it is one of the def type. -/
def newDef (c : Candidate) : Reported (Option Value) := do
  match c.type.build none with
  | .error e =>
    .report (.error .construction c.node.name e.message)
    return none
  | .ok v =>
    if c.type.isDef ∧ v.type = c.type.key then return some (v.withId c.node.name)
    else
      .report (.error .construction c.node.name s!"{c.type.name} did not produce a def")
      return none

def prepare (db : Database) : List Candidate → Reported (List Pending × Database)
  | [] => return ([], db)
  | c :: cs => do
    match c.existing with
    | some h =>
      let (ps, db) ← prepare db cs
      return (⟨h, c.type, c.node, true⟩ :: ps, db)
    | none =>
      match ← newDef c with
      | none => prepare db cs
      | some v =>
        let (h, db) := db.allocate v
        let (ps, db) ← prepare db cs
        return (⟨h, c.type, c.node, false⟩ :: ps, db)

/-- References mean the defs of the running load first, then the registered ones. -/
def lookup (pending : List Pending) (db : Database) (id : String) : Option Handle :=
  match pending.reverse.find? (·.handle.id == id) with
  | some p => some p.handle
  | none => db.get? id

/-- Fills one def from its node. -/
def fill (s : Reading.Setting) (p : Pending) (v : Value) : Reported Value := do
  let v ← if p.reused then Reading.reset p.type p.handle.id v else pure v
  Reading.readDef s p.type p.handle.id p.node v

def fillAll (s : Reading.Setting) : List Pending → Database → Reported Database
  | [], db => return db
  | p :: ps, db => do
    let v ← fill s p (db.read p.handle)
    fillAll s ps (db.write p.handle v)

/-- Registers new defs; gives those that get callbacks, and the numbers of new and old ones. -/
def registerAll (rerun : Bool) :
    List Pending → Database → Reported (List Handle × Nat × Nat × Database)
  | [], db => return ([], 0, 0, db)
  | p :: ps, db => do
    if p.reused then
      let (hs, created, reused, db) ← registerAll rerun ps db
      return (if rerun then p.handle :: hs else hs, created, reused + 1, db)
    else if db.canRegister p.handle then
      let (hs, created, reused, db) ← registerAll rerun ps (db.register p.handle)
      return (p.handle :: hs, created + 1, reused, db)
    else
      .report (.error .resolution p.handle.id "a def with this ID is already registered")
      registerAll rerun ps db

def role (db : Database) (h : Handle) : DefRole :=
  ((db.types.get? h.type).bind Descriptor.defRole).getD {}

def failure (h : Handle) (callback : String) (reason : Option String) : Diagnostics :=
  (reason.map fun reason => .error .lifecycle h.id s!"{callback} failed: {reason}").toList

/-- One pass of a callback that may change its def. -/
def runPass (callback : String) (run : DefRole → Value → Value × Option String) :
    List Handle → Database → Reported Database
  | [], db => return db
  | h :: hs, db => do
    let (v, reason) := run (role db h) (db.read h)
    .reportAll (failure h callback reason)
    runPass callback run hs (db.write h v)

def configDiagnostics (db : Database) (h : Handle) : Diagnostics :=
  let (found, reason) := (role db h).configErrors (db.read h)
  found.diagnostics h.id ++ failure h "config_errors" reason

/-- All first callbacks come before any second one, these before any check of configurations. -/
def announce (hs : List Handle) (db : Database) : Reported Database := do
  let db ← runPass "post_load" DefRole.postLoad hs db
  let db ← runPass "late_post_load" DefRole.latePostLoad hs db
  .reportAll (hs.flatMap (configDiagnostics db))
  return db

/-- Whether defs that are filled again get their callbacks again. -/
def reruns (s : Session) : Bool := s.mode = .fresh || s.config.rerunCallbacks

structure Loaded where
  created : Nat
  reused : Nat
  db : Database

def load (s : Session) : Reported Loaded := do
  let cs ← candidates s 0 s.master.root.children
  let chosen ← select s.config.duplicates cs
  let (pending, db) ← prepare s.db chosen
  let db ← fillAll (s.setting (lookup pending db)) pending db
  let (handles, created, reused, db) ← registerAll s.reruns pending db
  let db ← announce handles db
  return ⟨created, reused, db⟩

/-- Resolves inheritance, if that has not been done yet. -/
def settle (s : Session) : Session :=
  if s.master.resolved then s
  else { s with master := s.master.resolve }.found s.master.resolveDiagnostics

/-- Makes defs of the tree as it stands; gives the report and the database. -/
def conclude (s : Session) : Report × Database :=
  let run := s.load
  (⟨run.value.created, run.value.reused, run.value.db.size, (s.parsers.filter (·.listens)).length,
    s.diagnostics ++ run.found⟩, run.value.db)

/-- Ends the load; gives its report and the database. -/
def finish (s : Session) : Report × Database := s.settle.conclude

end DefLoad.Session
