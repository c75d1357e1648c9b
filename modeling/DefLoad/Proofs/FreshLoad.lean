import DefLoad.Proofs.Cells
import DefLoad.Proofs.DuplicateComplaints

/-!
A fresh load. The database then holds the defs of the nodes that prevail under the policy for
duplicate IDs, that have a name, and of which an instance can be built, in the order of the nodes.
-/

namespace DefLoad

/-- A def of the type has the ID that it is given: filling the def leaves room for the ID, and no
callback changes it. -/
structure Descriptor.BearsIds (t : Descriptor) : Prop where
  build : ∀ v, t.build none = .ok v → v.BearsId
  members : Reading.KeptBy t Value.BearsId
  callbacks : ∀ id, t.CallbacksKeep fun v => v.id = id

namespace Session

/-- A node that is not abstract and names a concrete def type. -/
def typed (types : TypeTable) (n : Node) : Bool :=
  n.flag "Abstract" != some true && (defType? types n).isSome

/-- The fresh instance for a node, if it is one of the def type. -/
def instance? (types : TypeTable) (n : Node) : Option Value :=
  (defType? types n).bind fun t => (t.build none).toOption.filter (·.type = t.key)

/-- A node of which a def can be made and registered. -/
def entrant (types : TypeTable) (n : Node) : Bool := !n.name.isEmpty && (instance? types n).isSome

/-- A registered def is the one of a node: its key, the ID of its handle and its own are the name of
the node, and its type is the one that the node names. -/
structure Enters (db : Database) (n : Node) (h : Handle) : Prop where
  key : db.get? n.name = some h
  handle : h.id = n.name
  own : (db.read h).id = n.name
  type : ∃ t, defType? db.types n = some t ∧ h.type = t.key

section

variable {s : Session} {types : TypeTable} {n : Node} {t : Descriptor}

/-! Without defs from before, claims rest on the types of the nodes alone. -/

theorem existing?_fresh (hmode : s.mode = .fresh) (id : String) : s.existing? id = none := by
  rw [existing?, hmode]
  rfl

theorem claims_fresh (hmode : s.mode = .fresh) : claims s = typed s.db.types := by
  funext n
  unfold claims claim? typed
  rw [existing?_fresh hmode]
  by_cases habstract : n.flag "Abstract" = some true <;> simp [habstract]

theorem defType?_spec (h : defType? types n = some t) :
    (∃ k, types.get? k = some t) ∧ t.isDef = true := by
  obtain ⟨hfound, hconcrete⟩ := Option.filter_eq_some_iff.mp h
  obtain ⟨k, -, hk⟩ := Option.bind_eq_some_iff.mp hfound
  exact ⟨⟨k, hk⟩, (Bool.and_eq_true_iff.mp hconcrete).2⟩

theorem chosen_fresh (hmode : s.mode = .fresh) {c : Candidate} (hc : c ∈ chosen s) :
    c.existing = none ∧ defType? s.db.types c.node = some c.type := by
  obtain ⟨hclaim, hexisting⟩ := chosen_claim hc
  unfold claim? at hclaim
  rw [existing?_fresh hmode] at hclaim hexisting
  split at hclaim
  · cases hclaim
  · exact ⟨hexisting, hclaim⟩

theorem newDef_value {c : Candidate} (h : defType? types c.node = some c.type) :
    (newDef c).value = (instance? types c.node).map (·.withId c.node.name) := by
  have hdef := (defType?_spec h).2
  unfold newDef instance?
  rw [h, Option.bind_some]
  cases c.type.build none with
  | error e => rfl
  | ok v =>
    by_cases hkey : v.type = c.type.key
    · simp [hdef, hkey, Except.toOption, Option.filter]
    · simp only [hdef, hkey, and_false, if_false, Except.toOption, Option.filter, decide_false]
      rfl

theorem instance?_spec {v : Value} (ht : defType? types n = some t)
    (h : instance? types n = some v) : t.build none = .ok v ∧ v.type = t.key := by
  rw [instance?, ht, Option.bind_some] at h
  cases hbuilt : t.build none with
  | error e => rw [hbuilt] at h; cases h
  | ok w =>
    rw [hbuilt] at h
    obtain ⟨hw, hkey⟩ := Option.filter_eq_some_iff.mp h
    cases hw
    exact ⟨rfl, by simpa using hkey⟩

/-! The defs of the load. -/

/-- A new def that has been made for a node. -/
structure MadeFor (s : Session) (n : Node) (p : Pending) : Prop where
  pending : p ∈ pendings s
  node : p.node = n
  fresh : p.reused = false
  type : defType? s.db.types n = some p.type
  id : p.handle.id = n.name
  key : p.handle.type = p.type.key
  bears : ((prepared s).read p.handle).BearsId

theorem MadeFor.registeredType {p : Pending} (h : MadeFor s n p) :
    ∃ k, s.db.types.get? k = some p.type ∧ p.type.isDef = true := by
  obtain ⟨⟨k, hk⟩, hdef⟩ := defType?_spec h.type
  exact ⟨k, hk, hdef⟩

variable (hmode : s.mode = .fresh)
  (hids : ∀ k t, s.db.types.get? k = some t → t.isDef = true → t.BearsIds)

include hmode

/-- The candidates of which defs are made, by their nodes. -/
theorem ready_nodes : ((chosen s).filter ready).map (·.node) =
    (winners (typed s.db.types) s.config.duplicates s.master.root.children).filter
      fun n => (instance? s.db.types n).isSome := by
  rw [← claims_fresh hmode, ← chosen_nodes, List.filter_map]
  refine congrArg (List.map _) (List.filter_congr fun c hc => ?_)
  obtain ⟨hnone, htype⟩ := chosen_fresh hmode hc
  simp [ready, hnone, newDef_value htype]

theorem made_fresh : made (pendings s) = (pendings s).map Pending.handle := by
  refine congrArg (List.map _) (List.filter_eq_self.mpr fun p hp => ?_)
  cases (mem_pendings hp).1 with
  | found hreused hex => rw [existing?_fresh hmode] at hex; cases hex
  | fresh hreused => rw [hreused]; rfl

include hids

/-- A def is made for every node that prevails and of which an instance can be built. -/
theorem pendings_fresh : List.Forall₂ (MadeFor s)
    ((winners (typed s.db.types) s.config.duplicates s.master.root.children).filter
      fun n => (instance? s.db.types n).isSome) (pendings s) := by
  rw [← ready_nodes hmode, List.forall₂_map_left_iff]
  have hmade := prepare_forall₂ s.db (chosen s)
  have hmem := (List.forall₂_and_left _ _).mpr ⟨fun p (hp : p ∈ pendings s) => hp, hmade.flip⟩
  refine ((List.forall₂_and_left _ _).mpr ⟨fun c hc => List.mem_of_mem_filter hc, hmem.flip⟩).imp ?_
  rintro c p ⟨hc, hp, hprepares⟩
  obtain ⟨hnone, htype⟩ := chosen_fresh hmode hc
  cases hprepares with
  | again hex => rw [hnone] at hex; cases hex
  | @fresh v h hex hv hid hkey hread =>
    rw [newDef_value htype] at hv
    obtain ⟨w, hw, rfl⟩ := Option.map_eq_some_iff.mp hv
    obtain ⟨hbuilt, hwtype⟩ := instance?_spec htype hw
    obtain ⟨⟨k, hk⟩, hdef⟩ := defType?_spec htype
    have hbears : w.BearsId := (hids k _ hk hdef).build w hbuilt
    refine ⟨hp, rfl, rfl, htype, hid.trans (hbears _), ?_, ?_⟩
    · rw [hkey, Value.withId, Value.type_setField]
      exact hwtype
    · rw [show (prepared s).read h = _ from hread]
      exact hbears.setField _ _

/-- Each def is filled in a cell of its own, and has its ID then. -/
theorem filled_id {p : Pending} (h : MadeFor s n p) : ((filled s).read p.handle).id = n.name := by
  obtain ⟨k, hk, hdef⟩ := h.registeredType
  have hbears := hids k _ hk hdef
  have hnumbered : Numbered s.db.cells.length ((pendings s).map Pending.handle) := by
    rw [← made_fresh hmode]
    exact (prepare_grows s.db (chosen s)).numbered
  have hcells : ((pendings s).map (·.handle.cell)).Nodup := by
    have hnodup := hnumbered.nodup
    rwa [List.map_map] at hnodup
  have hlt : p.handle.cell < (prepared s).cells.length := by
    have hbounds := hnumbered.bounds (List.mem_map_of_mem h.pending)
    rw [prepared, (prepare_grows s.db (chosen s)).cells]
    rw [← made_fresh hmode] at hbounds
    exact hbounds.2
  rw [filled, fillAll_read hcells h.pending hlt, fill, h.fresh]
  refine (?_ : _ = p.handle.id).trans h.id
  exact Reading.readDef_id hbears.members (hbears.callbacks _) _ h.bears

/-- The database holds the defs of the nodes that prevail and can become defs, in their order. -/
theorem conclude_fresh (hs : s.Begins) :
    let db := s.conclude.2
    let defs := (winners (typed s.db.types) s.config.duplicates s.master.root.children).filter
      (entrant s.db.types)
    List.Forall₂ (Enters db) defs db.all ∧ s.conclude.1.created = defs.length ∧
      s.conclude.1.registered = defs.length ∧ db.size = defs.length := by
  intro db defs
  let ps := (pendings s).filter fun p => !p.handle.id.isEmpty
  have hpairs : List.Forall₂ (MadeFor s) defs ps := by
    have hall := pendings_fresh hmode hids
    have hsame (n : Node) (p : Pending) (h : MadeFor s n p) :
        (!n.name.isEmpty) = true ↔ (!p.handle.id.isEmpty) = true := by rw [h.id]
    have hfiltered := List.rel_filter (fun n p h => hsame n p h) hall
    rwa [List.filter_filter] at hfiltered
  have hnamed : named (pendings s) = ps.map Pending.handle := by
    rw [named, made_fresh hmode, List.filter_map]
    rfl
  obtain ⟨hbyId, hcreated, -, hregistered⟩ := conclude_spec hs
  have hdb := (conclude_called s).db
  rw [hs.fresh hmode, List.nil_append, hnamed] at hbyId
  have hlength : ps.length = defs.length := hpairs.length_eq.symm
  have hall : db.all = ps.map Pending.handle := by
    rw [Database.all, hbyId, List.map_map]
    exact List.map_id'' (fun _ => rfl) _
  have hkeys : (Assoc.keys db.byId).Nodup := by
    have hdistinct := (registrable hs).distinct
    rw [hnamed] at hdistinct
    rwa [hbyId, Assoc.keys, List.map_map]
  have hsize : db.size = defs.length := by
    rw [Database.size, hbyId, List.length_map, List.length_map, hlength]
  refine ⟨?_, ?_, hregistered.trans hsize, hsize⟩
  · rw [hall, List.forall₂_map_right_iff]
    have hnames : ∀ n ∈ defs, n.name ≠ "" := fun n hn => by
      have hentrant := (List.mem_filter.mp hn).2
      simpa using (Bool.and_eq_true_iff.mp hentrant).1
    refine ((List.forall₂_and_left _ _).mpr ⟨hnames, hpairs⟩).imp ?_
    rintro n p ⟨hname, h⟩
    have hmem : (p.handle.id, p.handle) ∈ db.byId := by
      have hp : p ∈ ps := List.mem_filter.mpr ⟨h.pending, by simpa [h.id] using hname⟩
      rw [hbyId]
      exact List.mem_map_of_mem (List.mem_map_of_mem hp)
    have hfilled := filled_id hmode hids h
    refine ⟨?_, h.id, ?_, p.type, ?_, h.key⟩
    · rw [← h.id]
      exact Assoc.get?_of_mem hkeys hmem
    · rw [← registered_read] at hfilled
      rw [show db = _ from hdb]
      refine announce_keeps (Q := fun v => v.id = n.name) (fun k t ht hdef => ?_) _ hfilled
      rw [registered_types] at ht
      exact (hids k t ht hdef).callbacks n.name
    · have htypes : db.types = s.db.types := by
        rw [show db = _ from hdb, (announce_sameIndex _ _).types, registered_types]
      rw [htypes]
      exact h.type
  · rw [hcreated, hnamed, List.length_map, hlength]

end

/-- After a fresh load the database holds, in the order of the nodes, exactly the defs of the nodes
that prevail on their names, that have a name, and of which an instance can be built. Only nodes
that are typed claim names; each that does not prevail is complained about. -/
theorem fresh_load_ids (db : Database) (config : Config) (calls : List Command)
    (hids : ∀ k t, db.types.get? k = some t → t.isDef = true → t.BearsIds) :
    let s := (run (start db config .fresh) calls).settle
    let loaded := (run (start db config .fresh) calls).finish
    let ns := s.master.root.children
    let selected := winners (typed db.types) config.duplicates ns
    let lost := losers (typed db.types) config.duplicates ns
    let defs := selected.filter (entrant db.types)
    let complaints := loaded.1.diagnostics.filter Diagnostic.isDuplicate
    (selected.map (·.name)).Nodup ∧
      (∀ n ∈ selected ++ lost, typed db.types n = true) ∧
      List.Forall₂ (Enters loaded.2) defs loaded.2.all ∧
      loaded.1.created = defs.length ∧ loaded.1.registered = defs.length ∧
      loaded.2.size = defs.length ∧
      complaints.Perm (lost.map duplicate) ∧
      complaints.length + selected.length = (ns.filter (typed db.types)).length := by
  intro s loaded ns selected lost defs complaints
  have hdb : s.db = db.clear := by
    rw [settle_db, run_db]
    rfl
  have hmode : s.mode = .fresh := by
    rw [(settle_reads _).mode, run_mode]
    rfl
  have hconfig : s.config = config := by
    rw [(settle_reads _).config, run_config]
    rfl
  have htypes : s.db.types = db.types := by rw [hdb]; rfl
  have hs : s.Begins := ⟨hdb ▸ .clear db, fun _ => by rw [hdb]; rfl⟩
  have hbegun : IsQuiet (start db config .fresh) := fun d hd => by cases hd
  have hquiet : IsQuiet s := (hbegun.run calls).settle
  have hselected : (chosen s).map (·.node) = selected := by
    rw [chosen_nodes, claims_fresh hmode, htypes, hconfig]
  have hcomplaints : complaints.Perm (lost.map duplicate) := by
    have hall := conclude_duplicates hquiet
    rwa [claims_fresh hmode, htypes, hconfig] at hall
  have hcount := length_winners_add_losers (typed db.types) config.duplicates ns
  have hdefs := conclude_fresh hmode (by rwa [htypes]) hs
  rw [htypes, hconfig] at hdefs
  obtain ⟨hin, hcreated, hregistered, hsize⟩ := hdefs
  refine ⟨?_, fun n => claims_of_mem, hin, hcreated, hregistered, hsize, hcomplaints, ?_⟩
  · have hnames := nodup_chosen s
    rw [← hselected, List.map_map]
    exact hnames
  · rw [hcomplaints.length_eq, List.length_map]
    exact (Nat.add_comm _ _).trans hcount

/-! Claims on one name, not all of them typed. -/

section

open Store (armory armory_plain)

theorem armory_bearsIds : ∀ k t, armory.get? k = some t → t.isDef = true → t.BearsIds := by
  intro k t h _
  have ht := armory_plain h
  refine ⟨fun v hv => ?_, .of_plain ht fun v name x hv => hv.setField name x,
    fun id => ht.callbacksKeep _⟩
  have hmem : (k, t) ∈ armory.types := Assoc.mem_of_get? h
  simp only [armory, List.mem_cons, Prod.mk.injEq, List.not_mem_nil, or_false] at hmem
  rcases hmem with ⟨-, rfl⟩ | ⟨-, rfl⟩ | ⟨-, rfl⟩ | ⟨-, rfl⟩ <;> cases hv <;>
    exact Value.bearsId_record _ _

/-- Of the five nodes that are called `Buck`, three are typed. -/
def bucks : Document :=
  let buck := Node.named "Buck"
  let typedBuck := buck.setAttr "Type" "Slug"
  ⟨[⟨"Defs", .empty, none,
    [typedBuck, buck, typedBuck, typedBuck.setAttr "Abstract" "true", typedBuck,
      (Node.named "").setAttr "Type" "Slug", (Node.named "Carbine").setAttr "Type" "Rifle"]⟩]⟩

def bucksSession : Session :=
  run (start (.empty armory) { duplicates := .lastWins } .fresh) [.addDocument bucks ""]

def bucksNodes : List Node := bucksSession.settle.master.root.children

theorem bucks_loaded :
    let loaded := bucksSession.finish
    (∀ k t, armory.get? k = some t → t.isDef = true → t.BearsIds) ∧
      loaded.1.created = 2 ∧ loaded.2.size = 2 ∧
      (loaded.1.diagnostics.filter Diagnostic.isDuplicate).length = 2 := by
  obtain ⟨-, -, -, hcreated, -, hsize, -, hcomplaints⟩ := fresh_load_ids (.empty armory)
    { duplicates := .lastWins } [.addDocument bucks ""] armory_bearsIds
  have hselected : (winners (typed armory) .lastWins bucksNodes).length = 3 := rfl
  have hdefs : ((winners (typed armory) .lastWins bucksNodes).filter (entrant armory)).length = 2 :=
    rfl
  have htyped : (bucksNodes.filter (typed armory)).length = 5 := rfl
  refine ⟨armory_bearsIds, hcreated.trans hdefs, hsize.trans hdefs, ?_⟩
  change _ + (winners (typed armory) .lastWins bucksNodes).length =
    (bucksNodes.filter (typed armory)).length at hcomplaints
  rw [hselected, htyped] at hcomplaints
  exact Nat.add_right_cancel hcomplaints

end

end Session

end DefLoad
