import DefLoad.Proofs.Cells

/-!
What a reload leaves alone. Registered defs stay registered, and new ones come after them; a def for
which no node is selected is neither changed nor told of the reload.
-/

namespace DefLoad

/-- Neither filling nor callbacks turn an instance of the type into one of another type. -/
structure Descriptor.KeepsTypes (t : Descriptor) : Prop where
  members : ∀ k, Reading.KeptBy t fun v => v.type = k
  callbacks : ∀ k, t.CallbacksKeep fun v => v.type = k

namespace Session

variable {s : Session} {db : Database} {h : Handle}

/-- The nodes that become defs. -/
def selected (s : Session) : List Node :=
  winners (claims s) s.config.duplicates s.master.root.children

theorem chosen_names (s : Session) :
    (chosen s).map (·.node.name) = (selected s).map (·.name) := by
  rw [selected, ← chosen_nodes, List.map_map]
  rfl

theorem name_of_pending {p : Pending} (hp : p ∈ pendings s) :
    ∃ n ∈ selected s, n.name = p.node.name := by
  have hname := (prepare_names s.db (chosen s)).subset (List.mem_map_of_mem hp)
  rw [chosen_names] at hname
  exact List.mem_map.mp hname

/-- The IDs of the new defs are names of selected nodes, in their order. -/
theorem named_sublist (hs : s.Begins) :
    ((named (pendings s)).map Handle.id).Sublist ((selected s).map (·.name)) := by
  have hids : (named (pendings s)).map Handle.id =
      ((pendings s).filter fun p => !p.handle.id.isEmpty && !p.reused).map (·.node.name) := by
    rw [named, made, List.filter_map, List.filter_filter, List.map_map]
    refine List.map_congr_left fun p hp => ?_
    obtain ⟨hmem, hp⟩ := List.mem_filter.mp hp
    exact (mem_pendings hmem).1.id_eq hs (by simpa using (Bool.and_eq_true_iff.mp hp).1)
  rw [hids, ← chosen_names]
  exact (List.filter_sublist.map _).trans (prepare_names s.db (chosen s))

theorem mem_prepare_again {cs : List Candidate} {c : Candidate} (hc : c ∈ cs)
    (hex : c.existing = some h) : ⟨h, c.type, c.node, true⟩ ∈ (prepare db cs).value.1 := by
  induction cs generalizing db with
  | nil => cases hc
  | cons c' cs ih =>
    unfold prepare
    rcases List.mem_cons.mp hc with rfl | hc
    · rw [hex]
      exact List.mem_cons_self
    · cases c'.existing with
      | some h' => exact List.mem_cons_of_mem _ (ih hc)
      | none =>
        simp only [Reported.bind_value]
        cases (newDef c').value with
        | none => exact ih hc
        | some v => exact List.mem_cons_of_mem _ (ih hc)

/-- The defs that are filled again are those that were registered under the name of a selected
node. -/
theorem mem_reused_iff (hs : s.Begins) :
    h ∈ ((pendings s).filter (·.reused)).map Pending.handle ↔
      h ∈ s.db.all ∧ ∃ n ∈ selected s, n.name = h.id := by
  constructor
  · intro hh
    obtain ⟨p, hp, rfl⟩ := List.mem_map.mp hh
    obtain ⟨hp, hreused⟩ := List.mem_filter.mp hp
    cases (mem_pendings hp).1 with
    | fresh hnew => rw [hnew] at hreused; cases hreused
    | found _ hex =>
      rw [hs.existing?, hs.indexed.get?_iff] at hex
      rw [hex.2]
      exact ⟨hex.1, name_of_pending hp⟩
  · rintro ⟨hall, n, hn, hname⟩
    rw [selected, ← chosen_nodes] at hn
    obtain ⟨c, hc, rfl⟩ := List.mem_map.mp hn
    have hex : c.existing = some h := by
      rw [(chosen_claim hc).2, hs.existing?, hs.indexed.get?_iff]
      exact ⟨hall, hname.symm⟩
    exact List.mem_map_of_mem (List.mem_filter.mpr ⟨mem_prepare_again hc hex, rfl⟩)

theorem nodup_reused (hs : s.Begins) :
    (((pendings s).filter (·.reused)).map Pending.handle).Nodup := by
  have hpendings : (pendings s).Nodup := (nodup_pendings s).of_map
  refine List.Nodup.map_on (fun p hp p' hp' hsame => ?_) (hpendings.filter _)
  have hid : p.handle.id ≠ "" := by
    have hall := ((mem_reused_iff hs).mp (List.mem_map_of_mem hp)).1
    obtain ⟨e, he, heq⟩ := List.mem_map.mp hall
    rw [← heq]
    exact (hs.indexed.named e he).2
  exact (eq_of_id hs (List.mem_of_mem_filter hp) (List.mem_of_mem_filter hp') hid
    (by rw [hsame])).symm

theorem nodup_all (hs : s.Begins) : s.db.all.Nodup := by
  have hids : (s.db.all.map Handle.id).Nodup := by
    have hkeys : s.db.all.map Handle.id = Assoc.keys s.db.byId := by
      rw [Database.all, List.map_map]
      exact List.map_congr_left fun e he => (hs.indexed.named e he).1.symm
    rw [hkeys]
    exact hs.indexed.ids
  exact hids.of_map

/-- As many defs are filled again as have a selected node. -/
theorem length_reused (hs : s.Begins) : ((pendings s).filter (·.reused)).length =
    (s.db.all.filter fun h => (selected s).any (·.name == h.id)).length := by
  have hperm : (((pendings s).filter (·.reused)).map Pending.handle).Perm
      (s.db.all.filter fun h => (selected s).any (·.name == h.id)) := by
    refine (List.perm_ext_iff_of_nodup (nodup_reused hs) ((nodup_all hs).filter _)).mpr fun h => ?_
    rw [mem_reused_iff hs, List.mem_filter, List.any_eq_true]
    simp only [beq_iff_eq]
  rw [← hperm.length_eq, List.length_map]

/-! What a load does with the cells. -/

/-- Callbacks run on defs of the load only. -/
theorem called_ne (hs : s.Begins) (hcells : ∀ p ∈ pendings s, p.handle.cell ≠ h.cell) :
    ∀ a ∈ called s, a.cell ≠ h.cell := by
  intro a ha
  rw [called_eq hs] at ha
  obtain ⟨p, hp, rfl⟩ := List.mem_map.mp ha
  exact hcells p (List.mem_of_mem_filter hp)

/-- A cell that belongs to no def of the load. -/
theorem conclude_frame (hs : s.Begins) (hlt : h.cell < s.db.cells.length)
    (hcells : ∀ p ∈ pendings s, p.handle.cell ≠ h.cell) : s.conclude.2.read h = s.db.read h := by
  have hcalled := called_ne hs hcells
  rw [(conclude_called s).db, announce_frame hcalled, registered_read]
  exact (fillAll_frame hcells).trans (prepare_frame hlt)

theorem conclude_type (htypes : ∀ k t, s.db.types.get? k = some t → t.KeepsTypes)
    (hlt : h.cell < s.db.cells.length) : (s.conclude.2.read h).type = (s.db.read h).type := by
  let Q : Value → Prop := fun v => v.type = (s.db.read h).type
  have hid (v : Value) (id : String) (hv : Q v) : Q (v.withId id) :=
    (Value.type_setField v _ _).trans hv
  have hfill : ∀ p ∈ pendings s, ∀ v, Q v → Q (fill (filling s) p v).value := by
    intro p hp v hv
    obtain ⟨k, hk⟩ := (mem_pendings hp).2
    have hmembers := (htypes k _ hk).members (s.db.read h).type
    have hcalls := (htypes k _ hk).callbacks (s.db.read h).type
    unfold fill
    cases p.reused with
    | true =>
      exact Reading.readDef_kept hmembers hid hcalls _ _ (Reading.reset_kept hmembers hid _ hv)
    | false => exact Reading.readDef_kept hmembers hid hcalls _ _ hv
  have hprepared : Q ((prepared s).read h) := congrArg Value.type (prepare_frame hlt)
  have hfilled : Q ((filled s).read h) := fillAll_keeps hfill hprepared
  rw [(conclude_called s).db]
  refine announce_keeps (Q := Q) (fun k t ht _ => ?_) _ (by rwa [registered_read])
  rw [registered_types] at ht
  exact (htypes k t ht).callbacks _

end Session

open Session (made chosen pendings selected called)

namespace Store

variable {types : TypeTable} {st : Store} {config : Config} {calls : List Session.Command}

namespace Consistent

variable (hs : st.Consistent types)

include hs

theorem cell_lt {h : Handle} (hh : h ∈ st.db.all) : h.cell < st.db.cells.length := by
  have hbounds := hs.numbered.bounds (hs.known h hh)
  rw [hs.cells] at hbounds
  omega

/-- No def of a reload is in the cell of a def without a selected node. -/
theorem cell_ne {h : Handle} (hh : h ∈ st.db.all)
    (hnone : ∀ n ∈ selected (st.settled .reload config calls), n.name ≠ h.id) {p : Session.Pending}
    (hp : p ∈ pendings (st.settled .reload config calls)) : p.handle.cell ≠ h.cell := by
  intro hc
  have hbegins : (st.settled .reload config calls).Begins := hs.begins
  have hdb : (st.settled .reload config calls).db = st.db := settled_db
  cases hreused : p.reused with
  | true =>
    have hagain := (Session.mem_reused_iff hbegins).mp
      (List.mem_map_of_mem (List.mem_filter.mpr ⟨hp, hreused⟩))
    rw [hdb] at hagain
    obtain ⟨hall, n, hn, hname⟩ := hagain
    rw [hs.eq_of_cell _ hall h hh hc] at hname
    exact hnone n hn hname
  | false =>
    have hnew : p.handle ∈ made (pendings (st.settled .reload config calls)) :=
      List.mem_map_of_mem (List.mem_filter.mpr ⟨hp, by simp [hreused]⟩)
    have hbounds := (Session.prepare_grows _ _).numbered.bounds hnew
    rw [hdb] at hbounds
    have hlt := hs.cell_lt hh
    omega

end Consistent

/-- A reload registers new defs after those that are registered, which stay as they are registered.
A def for which no node is selected keeps its state, and no callback runs on it. -/
theorem reload_frame (types : TypeTable) (cs : List Command) (config : Config)
    (calls : List Session.Command) :
    let st := (start types).run cs
    let s := st.settled .reload config calls
    let report := (st.session .reload config calls).finish.1
    let db := (st.perform (.load .reload config calls)).db
    ∃ created : List Handle,
      db.byId = st.db.byId ++ created.map (fun h => (h.id, h)) ∧
      (∀ h ∈ created, st.db.cells.length ≤ h.cell) ∧
      (created.map Handle.id).Sublist ((selected s).map (·.name)) ∧
      s.EndsWith (called s) ∧
      (∀ h ∈ st.db.all, (∀ n ∈ selected s, n.name ≠ h.id) →
        db.read h = st.db.read h ∧ ∀ a ∈ called s, a.cell ≠ h.cell) ∧
      ((∀ k t, types.get? k = some t → t.KeepsTypes) →
        ∀ h ∈ st.db.all, (db.read h).type = (st.db.read h).type) ∧
      report.created = created.length ∧ report.registered = st.db.size + report.created ∧
      report.reused = (st.db.all.filter fun h => (selected s).any (·.name == h.id)).length := by
  intro st s report db
  have hs : st.Consistent types := (Consistent.start types).run cs
  have hbegins : s.Begins := hs.begins
  have hdb : s.db = st.db := settled_db
  have hload : db = s.conclude.2 := perform_load_db
  obtain ⟨hbyId, hcreated, hreused, hregistered⟩ := Session.conclude_spec hbegins
  have hlength := Session.length_reused hbegins
  rw [hdb] at hbyId hlength
  refine ⟨Session.named (pendings s), hload ▸ hbyId, fun h hh => ?_,
    Session.named_sublist hbegins, Session.conclude_called s, fun h hh hnone => ?_,
    fun htypes h hh => ?_, hcreated, ?_, hreused.trans hlength⟩
  · have hnew := (Session.prepare_grows s.db (chosen s)).numbered.bounds (List.mem_of_mem_filter hh)
    rw [hdb] at hnew
    exact hnew.1
  · have hcells : ∀ p ∈ pendings s, p.handle.cell ≠ h.cell := fun p hp => hs.cell_ne hh hnone hp
    refine ⟨?_, Session.called_ne hbegins hcells⟩
    rw [hload, Session.conclude_frame hbegins (hdb ▸ hs.cell_lt hh) hcells, hdb]
  · rw [hload, Session.conclude_type ?_ (hdb ▸ hs.cell_lt hh), hdb]
    rw [hs.settled_types]
    exact htypes
  · rw [show report.registered = _ from hregistered, show report.created = _ from hcreated,
      Database.size, hbyId, List.length_append, List.length_map]
    rfl

/-! A reload that brings a new round and fills an old one, while the carbine is only a pattern. -/

section

theorem armory_keepsTypes : ∀ k t, armory.get? k = some t → t.KeepsTypes := by
  intro k t h
  have ht := armory_plain h
  exact ⟨fun k => .of_plain ht fun v name x hv => (Value.type_setField v name x).trans hv,
    fun k => ht.callbacksKeep _⟩

def restock : Document :=
  let round (name : String) : Node := (Node.named name).setAttr "Type" "Slug"
  let pattern := ((Node.named "Carbine").setAttr "Type" "Rifle").setAttr "Abstract" "true"
  ⟨[⟨"Defs", .empty, none, [round "Ball", pattern, round "Buck"]⟩]⟩

theorem carbine_kept :
    let st := (start armory).run [armoryLoad]
    let db := (st.perform (.load .reload {} [.addDocument restock ""])).db
    (∀ k t, armory.get? k = some t → t.KeepsTypes) ∧ carbine ∈ st.db.all ∧ buck ∈ st.db.all ∧
      db.read carbine = st.db.read carbine ∧ (db.read buck).type = (st.db.read buck).type := by
  intro st db
  have hcarbine : carbine ∈ st.db.all := List.mem_cons_self
  have hbuck : buck ∈ st.db.all := List.mem_cons_of_mem _ List.mem_cons_self
  obtain ⟨created, -, -, -, -, hkept, htypes, -⟩ :=
    reload_frame armory [armoryLoad] {} [.addDocument restock ""]
  have hnodes : (selected (st.settled .reload {} [.addDocument restock ""])).map (·.name) =
      ["Ball", "Buck"] := rfl
  refine ⟨armory_keepsTypes, hcarbine, hbuck, (hkept carbine hcarbine fun n hn => ?_).1,
    htypes armory_keepsTypes buck hbuck⟩
  have hname := List.mem_map_of_mem (f := (·.name)) hn
  rw [hnodes] at hname
  intro he
  rw [he] at hname
  exact absurd hname (by decide)

end

end Store

end DefLoad
