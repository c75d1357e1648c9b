import DefLoad.Proofs.Claimants
import DefLoad.Proofs.Dangling
import DefLoad.Proofs.Upkeep

/-!
The stages of a load and the cells of the defs. Each stage changes the cells of the defs that it
works on and no other; new defs enter the database in the order in which they are made.
-/

namespace DefLoad

namespace Database

variable {db : Database} {h d : Handle} {v : Value}

theorem read_write_ne (hne : h.cell ≠ d.cell) : (db.write h v).read d = db.read d := by
  simp [read, write, hne]

theorem read_write_self (hlt : h.cell < db.cells.length) : (db.write h v).read h = v := by
  simp [read, write, hlt]

theorem read_allocate_old (hlt : d.cell < db.cells.length) :
    (db.allocate v).2.read d = db.read d := by
  unfold read allocate
  rw [List.getElem?_append_left hlt]

theorem read_allocate_new : (db.allocate v).2.read (db.allocate v).1 = v := by
  simp [read, allocate]

end Database

namespace Session

variable {db : Database} {d : Handle}

/-! What stays as it is. -/

theorem fillAll_frame {set : Reading.Setting} {ps : List Pending}
    (hd : ∀ p ∈ ps, p.handle.cell ≠ d.cell) : (fillAll set ps db).value.read d = db.read d := by
  induction ps generalizing db with
  | nil => rfl
  | cons p ps ih =>
    refine (ih fun q hq => hd q (List.mem_cons_of_mem p hq)).trans ?_
    exact Database.read_write_ne (hd p List.mem_cons_self)

theorem runPass_frame {callback : String} {run : DefRole → Value → Value × Option String}
    {hs : List Handle} (hd : ∀ h ∈ hs, h.cell ≠ d.cell) :
    (runPass callback run hs db).value.read d = db.read d := by
  induction hs generalizing db with
  | nil => rfl
  | cons h hs ih =>
    refine (ih fun h' hh' => hd h' (List.mem_cons_of_mem h hh')).trans ?_
    exact Database.read_write_ne (hd h List.mem_cons_self)

theorem announce_frame {hs : List Handle} (hd : ∀ h ∈ hs, h.cell ≠ d.cell) :
    (announce hs db).value.read d = db.read d :=
  (runPass_frame hd).trans (runPass_frame hd)

theorem prepare_frame {cs : List Candidate} (hd : d.cell < db.cells.length) :
    (prepare db cs).value.2.read d = db.read d := by
  induction cs generalizing db with
  | nil => rfl
  | cons c cs ih =>
    unfold prepare
    cases c.existing with
    | some h => exact ih hd
    | none =>
      simp only [Reported.bind_value]
      cases (newDef c).value with
      | none => exact ih hd
      | some v =>
        have hgrown : d.cell < (db.allocate v).2.cells.length := by
          simp only [Database.allocate, List.length_append, List.length_singleton]
          omega
        exact (ih hgrown).trans (Database.read_allocate_old hd)

/-! What holds of a def all along. -/

theorem write_keeps {Q : Value → Prop} {h : Handle} {v : Value} (hv : h.cell = d.cell → Q v)
    (hd : Q (db.read d)) : Q ((db.write h v).read d) := by
  by_cases hc : h.cell = d.cell
  · by_cases hlt : h.cell < db.cells.length
    · rw [← read_eq_of_cell hc, Database.read_write_self hlt]
      exact hv hc
    · -- nothing is written beyond the last cell
      have hsame : (db.write h v).read d = db.read d := by
        simp [Database.read, Database.write, List.set_eq_of_length_le (Nat.le_of_not_lt hlt)]
      rwa [hsame]
  · rwa [Database.read_write_ne hc]

/-- What a callback keeps, a pass of it keeps. -/
theorem runPass_keeps {Q : Value → Prop} {callback : String}
    {run : DefRole → Value → Value × Option String} {hs : List Handle}
    (hrun : ∀ h v, Q v → Q (run (role db h) v).1) (hd : Q (db.read d)) :
    Q ((runPass callback run hs db).value.read d) := by
  induction hs generalizing db with
  | nil => exact hd
  | cons h hs ih =>
    refine ih hrun (write_keeps (fun hc => hrun h _ ?_) hd)
    rwa [read_eq_of_cell hc]

/-- What the callbacks of all types keep is kept by all callbacks of a load. -/
theorem announce_keeps {Q : Value → Prop}
    (hcalls : ∀ k t, db.types.get? k = some t → t.isDef = true → t.CallbacksKeep Q)
    (hs : List Handle) (hd : Q (db.read d)) : Q ((announce hs db).value.read d) := by
  have hrole {db' : Database} (htypes : db'.types = db.types) (h : Handle) (v : Value) (hv : Q v) :
      Q ((role db' h).postLoad v).1 ∧ Q ((role db' h).latePostLoad v).1 := by
    rcases role_cases db' h with hnone | ⟨k, t, ht, hrole⟩
    · rw [hnone]
      exact ⟨hv, hv⟩
    · rw [htypes] at ht
      have hkept := hcalls k t ht (by rw [Descriptor.isDef, hrole]; rfl)
      exact ⟨hkept.postLoad _ hrole v hv, hkept.latePostLoad _ hrole v hv⟩
  have htypes := (runPass_sameIndex "post_load" DefRole.postLoad hs db).types
  have hfirst : Q ((runPass "post_load" DefRole.postLoad hs db).value.read d) :=
    runPass_keeps (fun h v hv => (hrole rfl h v hv).1) hd
  exact runPass_keeps (fun h v hv => (hrole htypes h v hv).2) hfirst

theorem fillAll_keeps {Q : Value → Prop} {set : Reading.Setting} {ps : List Pending}
    (hfill : ∀ p ∈ ps, ∀ v, Q v → Q (fill set p v).value) (hd : Q (db.read d)) :
    Q ((fillAll set ps db).value.read d) := by
  induction ps generalizing db with
  | nil => exact hd
  | cons p ps ih =>
    refine ih (fun q hq => hfill q (List.mem_cons_of_mem p hq)) (write_keeps (fun hc => ?_) hd)
    refine hfill p List.mem_cons_self _ ?_
    rwa [read_eq_of_cell hc]

/-! What becomes of the defs of a load. -/

theorem fillAll_read {set : Reading.Setting} {ps : List Pending} {p : Pending}
    (hcells : (ps.map (·.handle.cell)).Nodup) (hp : p ∈ ps)
    (hlt : p.handle.cell < db.cells.length) :
    (fillAll set ps db).value.read p.handle = (fill set p (db.read p.handle)).value := by
  induction ps generalizing db with
  | nil => cases hp
  | cons q ps ih =>
    obtain ⟨hnot, hcells⟩ := List.nodup_cons.mp hcells
    have hother : ∀ q' ∈ ps, q'.handle.cell ≠ q.handle.cell := fun q' hq' he =>
      hnot (List.mem_map.mpr ⟨q', hq', he⟩)
    rcases List.mem_cons.mp hp with rfl | hp
    · exact (fillAll_frame hother).trans (Database.read_write_self hlt)
    · have hwritten := (SameIndex.write db q.handle (fill set q (db.read q.handle)).value).cells
      refine (ih hcells hp (by rw [hwritten]; exact hlt)).trans ?_
      rw [Database.read_write_ne (hother p hp).symm]

/-- A candidate that becomes a def: it was there before, or an instance of it can be built. -/
def ready (c : Candidate) : Bool := c.existing.isSome || (newDef c).value.isSome

/-- The def of a candidate. A new one has a cell with its fresh instance. -/
inductive Prepares (db : Database) (c : Candidate) : Pending → Prop
  | again {h : Handle} (hex : c.existing = some h) : Prepares db c ⟨h, c.type, c.node, true⟩
  | fresh {v : Value} {h : Handle} (hex : c.existing = none) (hv : (newDef c).value = some v)
    (hid : h.id = v.id) (htype : h.type = v.type) (hread : db.read h = v) :
    Prepares db c ⟨h, c.type, c.node, false⟩

theorem prepare_forall₂ (db : Database) (cs : List Candidate) :
    List.Forall₂ (Prepares (prepare db cs).value.2) (cs.filter ready) (prepare db cs).value.1 := by
  induction cs generalizing db with
  | nil => exact .nil
  | cons c cs ih =>
    unfold prepare
    cases hex : c.existing with
    | some h =>
      rw [List.filter_cons_of_pos (by simp [ready, hex])]
      exact .cons (.again hex) (ih db)
    | none =>
      simp only [Reported.bind_value]
      cases hnew : (newDef c).value with
      | none =>
        rw [List.filter_cons_of_neg (by simp [ready, hex, hnew])]
        exact ih db
      | some v =>
        rw [List.filter_cons_of_pos (by simp [ready, hnew])]
        have hlt : (db.allocate v).1.cell < (db.allocate v).2.cells.length := by
          simp [Database.allocate]
        refine .cons (.fresh hex hnew rfl rfl ?_) (ih (db.allocate v).2)
        exact (prepare_frame hlt).trans Database.read_allocate_new

/-! Registering. -/

/-- The new defs that have an ID. -/
def named (ps : List Pending) : List Handle := (made ps).filter (!·.id.isEmpty)

/-- The defs that get callbacks. -/
def announced (rerun : Bool) (ps : List Pending) : List Handle :=
  (ps.filter fun p => if p.reused then rerun else !p.handle.id.isEmpty).map Pending.handle

/-- No new def has the ID of another def. -/
structure Registrable (db : Database) (ps : List Pending) : Prop where
  free : ∀ h ∈ named ps, db.get? h.id = none
  distinct : ((named ps).map Handle.id).Nodup

theorem named_cons (p : Pending) (ps : List Pending) : named (p :: ps) =
    if p.reused || p.handle.id.isEmpty then named ps else p.handle :: named ps := by
  unfold named
  rw [made_cons]
  cases p.reused <;> cases hid : p.handle.id.isEmpty <;> simp [hid]

theorem canRegister_iff {h : Handle} :
    db.canRegister h = true ↔ h.id.isEmpty = false ∧ db.get? h.id = none := by
  unfold Database.canRegister Assoc.contains Database.get?
  simp

theorem Registrable.tail {p : Pending} {ps : List Pending} (h : Registrable db (p :: ps))
    (hp : (p.reused || p.handle.id.isEmpty) = true) : Registrable db ps := by
  have hnamed := named_cons p ps
  rw [if_pos hp] at hnamed
  exact ⟨hnamed ▸ h.free, hnamed ▸ h.distinct⟩

/-- A def that has been registered leaves the others free. -/
theorem Registrable.register {p : Pending} {ps : List Pending} (h : Registrable db (p :: ps))
    (hp : (p.reused || p.handle.id.isEmpty) = false) :
    db.canRegister p.handle = true ∧ Registrable (db.register p.handle) ps := by
  have hnamed : named (p :: ps) = p.handle :: named ps := by rw [named_cons, hp]; rfl
  obtain ⟨hfree, hdistinct⟩ := h
  rw [hnamed] at hfree hdistinct
  obtain ⟨hnot, hdistinct⟩ := List.nodup_cons.mp hdistinct
  obtain ⟨-, hid⟩ := Bool.or_eq_false_iff.mp hp
  refine ⟨canRegister_iff.mpr ⟨hid, hfree _ List.mem_cons_self⟩, ⟨fun h' hh' => ?_, hdistinct⟩⟩
  have hne : p.handle.id ≠ h'.id := fun he => hnot (List.mem_map.mpr ⟨h', hh', he.symm⟩)
  rw [Database.register_get?, if_neg fun hc => hne hc.2]
  exact hfree h' (List.mem_cons_of_mem _ hh')

theorem register_byId {h : Handle} (hc : db.canRegister h = true) :
    (db.register h).byId = db.byId ++ [(h.id, h)] := by
  simp only [Database.canRegister, Bool.and_eq_true, Bool.not_eq_true'] at hc
  simp [Database.register, Database.canRegister, hc.1, hc.2,
    Assoc.set_of_not_contains _ _ _ hc.2]

/-- Every new def that has an ID is registered, after the others, in the order of the load. -/
theorem registerAll_spec (rerun : Bool) {ps : List Pending} (h : Registrable db ps) :
    let r := (registerAll rerun ps db).value
    r.2.2.2.byId = db.byId ++ (named ps).map (fun h => (h.id, h)) ∧
      r.1 = announced rerun ps ∧ r.2.1 = (named ps).length ∧
      r.2.2.1 = (ps.filter (·.reused)).length := by
  induction ps generalizing db with
  | nil => exact ⟨(List.append_nil _).symm, rfl, rfl, rfl⟩
  | cons p ps ih =>
    cases hr : p.reused with
    | true =>
      obtain ⟨hbyId, hannounced, hcreated, hreused⟩ := ih (h.tail (by rw [hr]; rfl))
      simp only [registerAll, hr, if_true, Reported.bind_value, Reported.pure_value]
      refine ⟨?_, ?_, ?_, ?_⟩
      · simpa [named_cons, hr] using hbyId
      · rw [hannounced]
        cases rerun <;> simp [announced, hr]
      · simpa [named_cons, hr] using hcreated
      · simpa [hr] using hreused
    | false =>
      cases hid : p.handle.id.isEmpty with
      | true =>
        have hcan : db.canRegister p.handle = false := by simp [Database.canRegister, hid]
        obtain ⟨hbyId, hannounced, hcreated, hreused⟩ := ih (h.tail (by rw [hr, hid]; rfl))
        simp only [registerAll, hr, hcan, Bool.false_eq_true, if_false, Reported.bind_value]
        refine ⟨?_, ?_, ?_, ?_⟩
        · simpa [named_cons, hr, hid] using hbyId
        · simpa [announced, hr, hid] using hannounced
        · simpa [named_cons, hr, hid] using hcreated
        · simpa [hr] using hreused
      | false =>
        obtain ⟨hcan, hregistered⟩ := h.register (by rw [hr, hid]; rfl)
        obtain ⟨hbyId, hannounced, hcreated, hreused⟩ := ih hregistered
        simp only [registerAll, hr, hcan, Bool.false_eq_true, if_false, if_true,
          Reported.bind_value, Reported.pure_value]
        refine ⟨?_, ?_, ?_, ?_⟩
        · rw [hbyId, register_byId hcan]
          simp [named_cons, hr, hid]
        · simpa [announced, hr, hid] using hannounced
        · simpa [named_cons, hr, hid] using hcreated
        · simpa [hr] using hreused

/-! The defs of a whole load. -/

/-- New cells are apart, and they come after those that were there. -/
theorem Numbered.nodup {n : Nat} {hs : List Handle} (h : Numbered n hs) :
    (hs.map Handle.cell).Nodup := by
  refine List.pairwise_map.mpr (List.pairwise_iff_getElem.mpr fun i j hi hj hij => ?_)
  have hci := h i _ (List.getElem?_eq_getElem hi)
  have hcj := h j _ (List.getElem?_eq_getElem hj)
  omega

theorem Numbered.bounds {n : Nat} {hs : List Handle} (h : Numbered n hs) {x : Handle}
    (hx : x ∈ hs) : n ≤ x.cell ∧ x.cell < n + hs.length := by
  obtain ⟨i, hi, rfl⟩ := List.mem_iff_getElem.mp hx
  have hcell := h i _ (List.getElem?_eq_getElem hi)
  omega

section

variable {s : Session}

theorem registered_read (s : Session) (d : Handle) : (registered s).read d = (filled s).read d := by
  rw [Database.read, registered, (registerAll_same _ _).1]
  rfl

theorem registered_types (s : Session) : (registered s).types = s.db.types := by
  rw [registered, (registerAll_same _ _).2]
  exact (fillAll_sameIndex _ _ _).types.trans (prepare_grows s.db (chosen s)).types

theorem mem_named {ps : List Pending} {h : Handle} : h ∈ named ps ↔
    h.id ≠ "" ∧ ∃ p ∈ ps, p.reused = false ∧ p.handle = h := by
  simp only [named, made, List.mem_filter, List.mem_map, Bool.not_eq_true',
    String.isEmpty_eq_false_iff]
  constructor
  · rintro ⟨⟨p, ⟨hp, hnew⟩, rfl⟩, hid⟩
    exact ⟨hid, p, hp, hnew, rfl⟩
  · rintro ⟨hid, p, hp, hnew, rfl⟩
    exact ⟨⟨p, ⟨hp, hnew⟩, rfl⟩, hid⟩

theorem registrable (hs : s.Begins) : Registrable (filled s) (pendings s) := by
  constructor
  case free =>
    intro h hh
    obtain ⟨hid, p, hp, hnew, rfl⟩ := mem_named.mp hh
    have hof := (mem_pendings hp).1
    have hname := hof.id_eq hs hid
    rw [Database.get?, filled_byId, hname]
    cases hof with
    | found hreused => rw [hreused] at hnew; cases hnew
    | fresh hreused hex =>
      rw [hs.existing?] at hex
      exact hex
  case distinct =>
    have hpendings : (pendings s).Nodup := (nodup_pendings s).of_map
    have hmade : (made (pendings s)).Pairwise fun h h' => h.id ≠ "" → h.id ≠ h'.id := by
      refine List.pairwise_map.mpr ((hpendings.filter _).imp_of_mem fun {p q} hp hq hne => ?_)
      intro hid he
      exact hne (eq_of_id hs (List.mem_of_mem_filter hp) (List.mem_of_mem_filter hq) hid
        he.symm).symm
    refine List.pairwise_map.mpr ((hmade.filter _).imp_of_mem fun {h h'} hh _ hne => ?_)
    exact hne (by simpa using (List.mem_filter.mp hh).2)

/-- What a load comes to: the new defs that have an ID are registered after the ones that were
there. -/
theorem conclude_spec (hs : s.Begins) :
    s.conclude.2.byId = s.db.byId ++ (named (pendings s)).map (fun h => (h.id, h)) ∧
      s.conclude.1.created = (named (pendings s)).length ∧
      s.conclude.1.reused = ((pendings s).filter (·.reused)).length ∧
      s.conclude.1.registered = s.conclude.2.size := by
  obtain ⟨hbyId, -, hcreated, hreused⟩ := registerAll_spec s.reruns (registrable hs)
  refine ⟨?_, hcreated, hreused, rfl⟩
  rw [registerAll_db] at hbyId
  rw [conclude_byId, registered, hbyId, filled_byId]

/-- The defs that are told that a load is over. -/
def called (s : Session) : List Handle :=
  (registerAll s.reruns (pendings s) (filled s)).value.1

theorem called_eq (hs : s.Begins) : called s = announced s.reruns (pendings s) :=
  (registerAll_spec s.reruns (registrable hs)).2.1

/-- A load ends with the callbacks of the given defs. -/
structure EndsWith (s : Session) (hs : List Handle) : Prop where
  db : s.conclude.2 = (announce hs (registered s)).value
  found : ∃ found, s.conclude.1.diagnostics = found ++ (announce hs (registered s)).found

theorem conclude_called (s : Session) : EndsWith s (called s) := by
  let cs := candidates s 0 s.master.root.children
  let begun := prepare s.db (chosen s)
  let full := fillAll (filling s) (pendings s) (prepared s)
  let entered := registerAll s.reruns (pendings s) (filled s)
  have hdb : entered.value.2.2.2 = registered s := registerAll_db _ _ _
  have hfound : s.load.found = cs.found ++ ((select s.config.duplicates cs.value).found ++
      (begun.found ++ (full.found ++ (entered.found ++
        ((announce (called s) entered.value.2.2.2).found ++ []))))) := rfl
  rw [hdb] at hfound
  constructor
  case db => exact congrArg (fun db => (announce (called s) db).value) hdb
  case found =>
    refine ⟨s.diagnostics ++ (cs.found ++ ((select s.config.duplicates cs.value).found ++
      (begun.found ++ (full.found ++ entered.found)))), ?_⟩
    rw [show s.conclude.1.diagnostics = s.diagnostics ++ s.load.found from rfl, hfound]
    simp only [List.append_assoc, List.append_nil]

theorem run_config (s : Session) (cs : List Command) : (s.run cs).config = s.config := by
  induction cs generalizing s with
  | nil => rfl
  | cons c cs ih =>
    refine (ih (s.perform c)).trans ?_
    rcases perform_cases s c with ⟨-, ha⟩ | ⟨-, hp⟩ | ⟨p, rfl⟩
    · exact ha.reads.config
    · exact ((ReadsAs.close s).trans hp.reads).config
    · rfl

end

end Session

/-! The types of carbines and rounds bring no code along. -/

theorem Store.armory_plain {k : TypeKey} {t : Descriptor} (h : armory.get? k = some t) :
    t.Plain := by
  have hmem : (k, t) ∈ armory.types := Assoc.mem_of_get? h
  simp only [armory, List.mem_cons, Prod.mk.injEq, List.not_mem_nil, or_false] at hmem
  rcases hmem with ⟨-, rfl⟩ | ⟨-, rfl⟩ | ⟨-, rfl⟩ | ⟨-, rfl⟩
  · exact ⟨fun m hm => (by cases hm), rfl, fun role h => (Option.some.inj h).symm⟩
  · exact ⟨fun m hm => (by cases hm), rfl, fun role h => (by cases h)⟩
  · exact ⟨fun m hm => (by cases hm), rfl, fun role h => (by cases h)⟩
  · refine ⟨fun m hm => ?_, rfl, fun role h => (Option.some.inj h).symm⟩
    rw [List.mem_singleton.mp hm]
    exact ⟨_, _, _, _, rfl⟩

end DefLoad
