import DefLoad.Proofs.DatabaseIndex

/-!
Programs that work with a database: they make defs, register and unregister them, and hold loads
that are finished or given up. After every such run the indices of the database agree.
-/

namespace DefLoad

namespace Session

/-! A load changes the indices by registering the defs that it has made, and in no other way. -/

/-- The handles of the defs that a load has made. -/
def made (ps : List Pending) : List Handle := (ps.filter (!·.reused)).map Pending.handle

theorem made_cons (p : Pending) (ps : List Pending) :
    made (p :: ps) = if p.reused then made ps else p.handle :: made ps := by
  unfold made
  cases hp : p.reused <;> simp [hp]

/-- The nodes that become defs at the end of a load. -/
def chosen (s : Session) : List Candidate :=
  (select s.config.duplicates (candidates s 0 s.master.root.children).value).value

/-- The defs that are filled then. -/
def pendings (s : Session) : List Pending := (prepare s.db (chosen s)).value.1

/-- Two databases that differ at most in what the cells hold. -/
structure SameIndex (db db' : Database) : Prop where
  types : db'.types = db.types
  byId : db'.byId = db.byId
  byType : db'.byType = db.byType
  cells : db'.cells.length = db.cells.length

namespace SameIndex

variable {db db' db'' : Database}

theorem refl (db : Database) : SameIndex db db := ⟨rfl, rfl, rfl, rfl⟩

theorem trans (h : SameIndex db db') (h' : SameIndex db' db'') : SameIndex db db'' :=
  ⟨h'.types.trans h.types, h'.byId.trans h.byId, h'.byType.trans h.byType,
    h'.cells.trans h.cells⟩

theorem write (db : Database) (h : Handle) (v : Value) : SameIndex db (db.write h v) :=
  ⟨rfl, rfl, rfl, List.length_set⟩

end SameIndex

theorem fillAll_sameIndex (s : Reading.Setting) (ps : List Pending) (db : Database) :
    SameIndex db (fillAll s ps db).value := by
  induction ps generalizing db with
  | nil => exact .refl db
  | cons p ps ih => exact (SameIndex.write db p.handle _).trans (ih _)

theorem runPass_sameIndex (callback : String) (run : DefRole → Value → Value × Option String)
    (hs : List Handle) (db : Database) : SameIndex db (runPass callback run hs db).value := by
  induction hs generalizing db with
  | nil => exact .refl db
  | cons h hs ih => exact (SameIndex.write db h _).trans (ih _)

theorem announce_sameIndex (hs : List Handle) (db : Database) :
    SameIndex db (announce hs db).value :=
  (runPass_sameIndex "post_load" DefRole.postLoad hs db).trans
    (runPass_sameIndex "late_post_load" DefRole.latePostLoad hs _)

/-- The handles of new cells, the first of which is the `n`-th. -/
def Numbered (n : Nat) (hs : List Handle) : Prop := ∀ i h, hs[i]? = some h → h.cell = n + i

theorem Numbered.cons {n : Nat} {h : Handle} {hs : List Handle} (hc : h.cell = n)
    (hn : Numbered (n + 1) hs) : Numbered n (h :: hs) := by
  intro i h' hi
  cases i with
  | zero =>
    cases hi
    exact hc
  | succ i =>
    have hcell := hn i h' hi
    omega

theorem Numbered.append {n : Nat} {hs hs' : List Handle} (h : Numbered n hs)
    (h' : Numbered (n + hs.length) hs') : Numbered n (hs ++ hs') := by
  intro i x hi
  by_cases hlt : i < hs.length
  · exact h i x (by rwa [List.getElem?_append_left hlt] at hi)
  · rw [List.getElem?_append_right (by omega)] at hi
    have hcell := h' (i - hs.length) x hi
    omega

/-- The second database has new cells with the given handles, and the same indices. -/
structure Grows (new : List Handle) (db db' : Database) : Prop where
  types : db'.types = db.types
  byId : db'.byId = db.byId
  byType : db'.byType = db.byType
  cells : db'.cells.length = db.cells.length + new.length
  numbered : Numbered db.cells.length new

theorem Grows.refl (db : Database) : Grows [] db db :=
  ⟨rfl, rfl, rfl, rfl, fun i h hi => by simp at hi⟩

theorem Grows.allocate {db db' : Database} {new : List Handle} {v : Value}
    (h : Grows new (db.allocate v).2 db') : Grows ((db.allocate v).1 :: new) db db' := by
  have hlength : (db.allocate v).2.cells.length = db.cells.length + 1 := by
    simp [Database.allocate]
  constructor
  case types => exact h.types
  case byId => exact h.byId
  case byType => exact h.byType
  case cells =>
    have hcells := h.cells
    simp only [List.length_cons]
    omega
  case numbered =>
    have hnumbered := h.numbered
    rw [hlength] at hnumbered
    exact hnumbered.cons rfl

theorem prepare_grows (db : Database) (cs : List Candidate) :
    Grows (made (prepare db cs).value.1) db (prepare db cs).value.2 := by
  induction cs generalizing db with
  | nil => exact .refl db
  | cons c cs ih =>
    unfold prepare
    cases c.existing with
    | some h => exact ih db
    | none =>
      simp only [Reported.bind_value]
      cases (newDef c).value with
      | none => exact ih db
      | some v => exact (ih (db.allocate v).2).allocate

theorem registerAll_db (rerun : Bool) (ps : List Pending) (db : Database) :
    (registerAll rerun ps db).value.2.2.2 = (made ps).foldl Database.register db := by
  induction ps generalizing db with
  | nil => rfl
  | cons p ps ih =>
    unfold registerAll
    rw [made_cons]
    cases hr : p.reused with
    | true => exact ih db
    | false =>
      cases hc : db.canRegister p.handle with
      | true => exact ih (db.register p.handle)
      | false =>
        have hsame := Database.register_of_not_canRegister hc
        simp only [Bool.false_eq_true, if_false, List.foldl_cons, hsame]
        exact ih db

theorem perform_db (s : Session) (c : Command) : (s.perform c).db = s.db := by
  rcases perform_cases s c with ⟨-, ha⟩ | ⟨-, hp⟩ | ⟨p, rfl⟩
  · exact ha.reads.db
  · exact ((ReadsAs.close s).trans hp.reads).db
  · rfl

theorem run_db (s : Session) (cs : List Command) : (s.run cs).db = s.db := by
  induction cs generalizing s with
  | nil => rfl
  | cons c cs ih => exact (ih (s.perform c)).trans (perform_db s c)

theorem settle_db (s : Session) : s.settle.db = s.db := by
  unfold settle
  split <;> rfl

end Session

open Session (SameIndex Numbered Grows made chosen pendings)

/-- A program with a database, and the handles of all defs that were ever made for it. -/
structure Store where
  db : Database
  handles : List Handle

namespace Store

inductive Command
  /-- Makes a def outside of any load. -/
  | make (v : Value)
  /-- Changes a def in its cell. -/
  | write (n : Nat) (v : Value)
  | register (n : Nat)
  | unregister (id : String)
  | clear
  /-- A load with the calls that are made on it before its end. -/
  | load (mode : LoadMode) (config : Config) (calls : List Session.Command)
  /-- A load that is begun and never finished. -/
  | giveUp (mode : LoadMode) (config : Config) (calls : List Session.Command)

def start (types : TypeTable) : Store := ⟨.empty types, []⟩

def session (st : Store) (mode : LoadMode) (config : Config) (calls : List Session.Command) :
    Session := (Session.start st.db config mode).run calls

def perform (st : Store) : Command → Store
  | .make v =>
    let (h, db) := st.db.allocate v
    ⟨db, st.handles ++ [h]⟩
  | .write n v =>
    match st.handles[n]? with
    | some h => { st with db := st.db.write h v }
    | none => st
  | .register n =>
    match st.handles[n]? with
    | some h => { st with db := st.db.register h }
    | none => st
  | .unregister id => { st with db := (st.db.unregister id).2 }
  | .clear => { st with db := st.db.clear }
  | .load mode config calls =>
    let s := st.session mode config calls
    ⟨s.finish.2, st.handles ++ made (pendings s.settle)⟩
  | .giveUp mode config calls => { st with db := (st.session mode config calls).db }

def run (st : Store) (cs : List Command) : Store := cs.foldl perform st

/-- The indices agree, and every registered def is in a cell of its own, whose handle is known. -/
structure Consistent (types : TypeTable) (st : Store) : Prop where
  table : st.db.types = types
  indexed : st.db.Indexed
  numbered : Numbered 0 st.handles
  cells : st.handles.length = st.db.cells.length
  known : ∀ h ∈ st.db.all, h ∈ st.handles

theorem mem_all_register {db : Database} {h x : Handle} (hx : x ∈ (db.register h).all) :
    x ∈ db.all ∨ x = h := by
  cases hc : db.canRegister h with
  | true =>
    rw [Database.all_register hc] at hx
    simpa using hx
  | false =>
    rw [Database.register_of_not_canRegister hc] at hx
    exact .inl hx

namespace Consistent

variable {types : TypeTable} {st : Store} {db : Database}

theorem start (types : TypeTable) : (Store.start types).Consistent types :=
  ⟨rfl, .empty types, fun i h hi => by simp [Store.start] at hi, rfl,
    by simp [Store.start, Database.empty, Database.all]⟩

/-- Two registered defs in one cell are the same. -/
theorem eq_of_cell (hs : st.Consistent types) :
    ∀ h ∈ st.db.all, ∀ h' ∈ st.db.all, h.cell = h'.cell → h = h' := by
  intro h hh h' hh' hc
  obtain ⟨i, hi⟩ := List.mem_iff_getElem?.mp (hs.known h hh)
  obtain ⟨j, hj⟩ := List.mem_iff_getElem?.mp (hs.known h' hh')
  have hci := hs.numbered i h hi
  have hcj := hs.numbered j h' hj
  have hij : i = j := by omega
  subst hij
  exact Option.some.inj (hi.symm.trans hj)

theorem of_same (hs : st.Consistent types) (h : SameIndex st.db db) :
    Consistent types { st with db := db } where
  table := h.types.trans hs.table
  indexed := hs.indexed.of_same h.types h.byId h.byType
  numbered := hs.numbered
  cells := hs.cells.trans h.cells.symm
  known := by
    have hall : db.all = st.db.all := by rw [Database.all, Database.all, h.byId]
    rw [hall]
    exact hs.known

theorem register (hs : st.Consistent types) {h : Handle} (hh : h ∈ st.handles) :
    Consistent types { st with db := st.db.register h } where
  table := by
    rw [← hs.table]
    unfold Database.register
    split <;> rfl
  indexed := hs.indexed.register h
  numbered := hs.numbered
  cells := by
    rw [hs.cells]
    unfold Database.register
    split <;> rfl
  known x hx := by
    rcases mem_all_register hx with hx | rfl
    · exact hs.known x hx
    · exact hh

theorem registerAll (hs : st.Consistent types) {hs' : List Handle} (hh : ∀ h ∈ hs', h ∈ st.handles) :
    Consistent types { st with db := hs'.foldl Database.register st.db } := by
  induction hs' generalizing st with
  | nil => exact hs
  | cons h hs' ih =>
    exact ih (hs.register (hh h List.mem_cons_self)) fun x hx => hh x (List.mem_cons_of_mem _ hx)

theorem unregister (hs : st.Consistent types) (id : String) :
    Consistent types { st with db := (st.db.unregister id).2 } where
  table := by
    rw [← hs.table]
    unfold Database.unregister
    split <;> rfl
  indexed := hs.indexed.unregister hs.eq_of_cell id
  numbered := hs.numbered
  cells := by
    rw [hs.cells]
    unfold Database.unregister
    split <;> rfl
  known x hx := by
    apply hs.known x
    unfold Database.unregister at hx
    split at hx
    · exact hx
    · exact ((Assoc.erase_sublist _ _).map Prod.snd).subset hx

theorem clear (hs : st.Consistent types) : Consistent types { st with db := st.db.clear } :=
  ⟨hs.table, .clear st.db, hs.numbered, hs.cells, fun h hh => by cases hh⟩

theorem begin (hs : st.Consistent types) (config : Config) (mode : LoadMode) :
    Consistent types { st with db := (Session.start st.db config mode).db } := by
  cases mode with
  | fresh => exact hs.clear
  | reload => exact hs

theorem grow (hs : st.Consistent types) {new : List Handle} (h : Grows new st.db db) :
    Consistent types ⟨db, st.handles ++ new⟩ where
  table := h.types.trans hs.table
  indexed := hs.indexed.of_same h.types h.byId h.byType
  numbered := hs.numbered.append (by rw [Nat.zero_add, hs.cells]; exact h.numbered)
  cells := by
    rw [List.length_append, hs.cells]
    exact h.cells.symm
  known x hx := by
    have hall : db.all = st.db.all := by rw [Database.all, Database.all, h.byId]
    rw [hall] at hx
    exact List.mem_append_left _ (hs.known x hx)

theorem conclude (hs : st.Consistent types) {s : Session} (hdb : s.db = st.db) :
    Consistent types ⟨s.conclude.2, st.handles ++ made (pendings s)⟩ := by
  have hgrows := Session.prepare_grows s.db (chosen s)
  rw [hdb] at hgrows
  have hprepared := hs.grow hgrows
  rw [← hdb] at hprepared
  have hfilled := hprepared.of_same (Session.fillAll_sameIndex
    (s.setting (Session.lookup (pendings s) (Session.prepare s.db (chosen s)).value.2))
    (pendings s) _)
  have hregistered := hfilled.registerAll fun h hh => List.mem_append_right st.handles hh
  rw [← Session.registerAll_db s.reruns] at hregistered
  exact hregistered.of_same (Session.announce_sameIndex _ _)

/-- One step of a program keeps the indices in agreement. -/
theorem perform (hs : st.Consistent types) (c : Command) : (st.perform c).Consistent types := by
  cases c with
  | make v => exact hs.grow (Grows.refl _).allocate
  | write n v =>
    simp only [Store.perform]
    split
    case h_1 h hn => exact hs.of_same (.write st.db h v)
    case h_2 => exact hs
  | register n =>
    simp only [Store.perform]
    split
    case h_1 h hn => exact hs.register (List.mem_of_getElem? hn)
    case h_2 => exact hs
  | unregister id => exact hs.unregister id
  | clear => exact hs.clear
  | load mode config calls =>
    have hbegun := hs.begin config mode
    have hdb : (st.session mode config calls).settle.db = (Session.start st.db config mode).db := by
      rw [Session.settle_db, session, Session.run_db]
    exact hbegun.conclude hdb
  | giveUp mode config calls =>
    have hdb : (st.session mode config calls).db = (Session.start st.db config mode).db :=
      Session.run_db _ _
    simp only [Store.perform, hdb]
    exact hs.begin config mode

theorem run (hs : st.Consistent types) (cs : List Command) : (st.run cs).Consistent types := by
  induction cs generalizing st with
  | nil => exact hs
  | cons c cs ih => exact ih (hs.perform c)

end Consistent

/-- After every run the two indices agree: a type lists exactly the registered defs of its subtypes,
each once and in the order of registration, and every ID finds its def. The table may declare bases
in circles and bases that it does not hold. -/
theorem run_indexed (types : TypeTable) (cs : List Command) :
    let db := ((start types).run cs).db
    (∀ k, db.ofType k = db.all.filter (types.isSubtype ·.type k) ∧
      ((db.ofType k).map Handle.cell).Nodup) ∧
    (db.all.map Handle.id).Nodup ∧ (∀ h ∈ db.all, h.id ≠ "") ∧
    (∀ id h, db.get? id = some h ↔ h ∈ db.all ∧ h.id = id) ∧
    ∀ e ∈ db.byType, ∀ h ∈ e.2, h ∈ db.all := by
  have hs := (Consistent.start types).run cs
  generalize (start types).run cs = st at hs
  have hi := hs.indexed
  have hlist (k : TypeKey) : st.db.ofType k = st.db.all.filter (types.isSubtype ·.type k) := by
    rw [hi.lists k, hs.table]
  have hids : (st.db.all.map Handle.id).Nodup := by
    have hkeys : st.db.all.map Handle.id = Assoc.keys st.db.byId := by
      rw [Database.all, List.map_map]
      exact List.map_congr_left fun e he => (hi.named e he).1.symm
    rw [hkeys]
    exact hi.ids
  have hcells : (st.db.all.map Handle.cell).Nodup :=
    List.Nodup.map_on (fun h hh h' hh' hc => hs.eq_of_cell h hh h' hh' hc) hids.of_map
  refine ⟨fun k => ⟨hlist k, ?_⟩, hids, ?_, fun id h => hi.get?_iff, ?_⟩
  · rw [hlist k]
    exact hcells.sublist (List.filter_sublist.map Handle.cell)
  · intro h hh
    obtain ⟨e, he, rfl⟩ := List.mem_map.mp hh
    exact (hi.named e he).2
  · intro e he h hh
    have hof : st.db.ofType e.1 = e.2 := by
      rw [Database.ofType, Assoc.get?_of_mem hi.types he]
      rfl
    rw [← hof, hlist] at hh
    exact List.mem_of_mem_filter hh

end Store

end DefLoad
