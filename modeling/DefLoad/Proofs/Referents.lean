import DefLoad.Proofs.StoreRun

/-!
What the references of a load mean in the end. A reference is resolved against the defs that the
load is about to register; these become registered under their IDs, unless the ID is empty.
-/

namespace DefLoad

namespace Database

/-! Registering defs one after the other. -/

variable {db : Database} {h x : Handle} {id : String}

theorem register_get? (db : Database) (h : Handle) (id : String) :
    (db.register h).get? id =
      if db.canRegister h = true ∧ h.id = id then some h else db.get? id := by
  unfold register get?
  cases db.canRegister h with
  | false => simp
  | true => simp [beq_iff_eq]

/-- What stands under an ID stays there. -/
theorem register_keeps (hx : db.get? id = some x) : (db.register h).get? id = some x := by
  rw [register_get?, if_neg ?_, hx]
  rintro ⟨hcan, rfl⟩
  have hnot : db.byId.contains h.id = false := by
    simp only [canRegister, Bool.and_eq_true, Bool.not_eq_true'] at hcan
    exact hcan.2
  have hyes : db.byId.contains h.id = true := by
    rw [Assoc.contains, show db.byId.get? h.id = some x from hx]
    rfl
  rw [hnot] at hyes
  cases hyes

theorem registerAll_keeps (hs : List Handle) (hx : db.get? id = some x) :
    (hs.foldl register db).get? id = some x := by
  induction hs generalizing db with
  | nil => exact hx
  | cons h hs ih => exact ih (register_keeps hx)

/-- The only def of an ID that is free comes to stand there. -/
theorem registerAll_get? {hs : List Handle} (hmem : h ∈ hs) (hid : h.id ≠ "")
    (honly : ∀ h' ∈ hs, h'.id = h.id → h' = h) (hfree : db.get? h.id = none) :
    (hs.foldl register db).get? h.id = some h := by
  induction hs generalizing db with
  | nil => cases hmem
  | cons a hs ih =>
    by_cases ha : a.id = h.id
    · obtain rfl : a = h := honly a List.mem_cons_self ha
      have hcan : db.canRegister a = true := by
        rw [canRegister, Assoc.contains, show db.byId.get? a.id = none from hfree]
        simpa using hid
      refine registerAll_keeps hs ?_
      rw [register_get?, if_pos ⟨hcan, rfl⟩]
    · have hmem' : h ∈ hs := by
        rcases List.mem_cons.mp hmem with rfl | hmem
        · exact absurd rfl ha
        · exact hmem
      refine ih hmem' (fun h' hh' => honly h' (List.mem_cons_of_mem a hh')) ?_
      rw [register_get?, if_neg (fun hc => ha hc.2), hfree]

end Database

namespace Session

variable {s : Session}

/-! The nodes that become defs. -/

theorem namedDefType_registered {types : TypeTable} {n : Node} {t : Descriptor}
    (h : namedDefType types n = .ok t) : ∃ k, types.get? k = some t := by
  unfold namedDefType namedType at h
  cases hname : n.attr "Type" with
  | none =>
    rw [hname] at h
    cases h
  | some name =>
    rw [hname] at h
    dsimp only at h
    cases hfound : (types.resolve name).bind types.get? with
    | none =>
      rw [hfound] at h
      cases h
    | some t' =>
      rw [hfound] at h
      obtain ⟨k, -, hk⟩ := Option.bind_eq_some_iff.mp hfound
      simp only [bind, Except.bind] at h
      split at h
      · cases h
      · split at h
        · cases h
          exact ⟨k, hk⟩
        · cases h

/-- A node that may become a def goes by its name, and its type is in the table. -/
structure Candidate.Of (s : Session) (c : Candidate) : Prop where
  existing : c.existing = s.existing? c.node.name
  type : ∃ k, s.db.types.get? k = some c.type

theorem candidate_spec {i : Nat} {n : Node} {c : Candidate}
    (h : (candidate s i n).value = some c) : c.index = i ∧ c.Of s := by
  unfold candidate at h
  split at h
  · cases h
  · split at h
    case h_1 hex =>
      split at h
      case h_1 t ht =>
        cases h
        exact ⟨rfl, hex.symm, _, ht⟩
      case h_2 => cases h
    case h_2 hex =>
      split at h
      case h_1 t ht =>
        cases h
        exact ⟨rfl, hex.symm, namedDefType_registered ht⟩
      case h_2 => cases h

theorem candidates_cons (s : Session) (i : Nat) (n : Node) (ns : List Node) :
    (candidates s i (n :: ns)).value =
      (candidate s i n).value.toList ++ (candidates s (i + 1) ns).value := rfl

theorem mem_candidates {i : Nat} {ns : List Node} {c : Candidate}
    (h : c ∈ (candidates s i ns).value) : i ≤ c.index ∧ c.Of s := by
  induction ns generalizing i with
  | nil => cases h
  | cons n ns ih =>
    rw [candidates_cons] at h
    rcases List.mem_append.mp h with h | h
    · obtain ⟨hindex, hof⟩ := candidate_spec (Option.mem_toList.mp h)
      exact ⟨Nat.le_of_eq hindex.symm, hof⟩
    · obtain ⟨hindex, hof⟩ := ih h
      exact ⟨by omega, hof⟩

theorem nodup_candidates (s : Session) (i : Nat) (ns : List Node) :
    ((candidates s i ns).value.map Candidate.index).Nodup := by
  induction ns generalizing i with
  | nil => exact List.nodup_nil
  | cons n ns ih =>
    rw [candidates_cons]
    cases hc : (candidate s i n).value with
    | none => exact ih (i + 1)
    | some c =>
      have hindex := (candidate_spec hc).1
      refine List.nodup_cons.mpr ⟨fun hmem => ?_, ih (i + 1)⟩
      obtain ⟨c', hc', hsame⟩ := List.mem_map.mp hmem
      have hlater := (mem_candidates hc').1
      omega

theorem mem_chosen {c : Candidate} (h : c ∈ chosen s) : c.Of s := by
  have hmem : c ∈ (candidates s 0 s.master.root.children).value := List.mem_of_mem_filter h
  exact (mem_candidates hmem).2

/-- Of each name at most one node is chosen. -/
theorem nodup_chosen (s : Session) : ((chosen s).map (·.node.name)).Nodup := by
  have hindices := nodup_candidates s 0 s.master.root.children
  refine List.Nodup.map_on (fun c hc c' hc' hname => ?_) (hindices.of_map.filter _)
  obtain ⟨hmem, hkept⟩ := List.mem_filter.mp hc
  obtain ⟨hmem', hkept'⟩ := List.mem_filter.mp hc'
  -- both are the one that the policy keeps
  rw [beq_iff_eq, hname] at hkept
  rw [beq_iff_eq, ← hkept, Option.some.injEq] at hkept'
  exact List.inj_on_of_nodup_map hindices hmem hmem' hkept'.symm

/-! The defs of a running load. -/

/-- A def that is filled: one that was found again under its name, or a new one whose name is free.
A new def without a place for its ID has the empty one. -/
inductive Pending.Of (s : Session) (p : Pending) : Prop
  | found (hreused : p.reused = true) (hex : s.existing? p.node.name = some p.handle) : Of s p
  | fresh (hreused : p.reused = false) (hex : s.existing? p.node.name = none)
    (hid : p.handle.id = p.node.name ∨ p.handle.id = "") : Of s p

theorem id_withId (v : Value) (id : String) : (v.withId id).id = id ∨ (v.withId id).id = "" := by
  cases v with
  | record k fields => exact .inl (by simp [Value.withId, Value.setField, Value.id,
      Value.textField, Value.field?, Value.string])
  | _ => exact .inr rfl

theorem newDef_eq_some {c : Candidate} {v : Value} (h : (newDef c).value = some v) :
    ∃ w, c.type.build none = .ok w ∧ v = w.withId c.node.name := by
  unfold newDef at h
  split at h
  · cases h
  · split at h
    · cases h
      exact ⟨_, ‹_›, rfl⟩
    · cases h

theorem prepare_names (db : Database) (cs : List Candidate) :
    ((prepare db cs).value.1.map (·.node.name)).Sublist (cs.map (·.node.name)) := by
  induction cs generalizing db with
  | nil => exact List.Sublist.slnil
  | cons c cs ih =>
    unfold prepare
    cases c.existing with
    | some h => exact (ih db).cons_cons _
    | none =>
      simp only [Reported.bind_value]
      cases (newDef c).value with
      | none => exact (ih db).cons _
      | some v => exact (ih (db.allocate v).2).cons_cons _

theorem mem_prepare {db : Database} {cs : List Candidate} (hcs : ∀ c ∈ cs, c.Of s) {p : Pending}
    (h : p ∈ (prepare db cs).value.1) : p.Of s ∧ ∃ k, s.db.types.get? k = some p.type := by
  induction cs generalizing db with
  | nil => cases h
  | cons c cs ih =>
    have hc := hcs c List.mem_cons_self
    have hrest : ∀ c ∈ cs, c.Of s := fun c' hc' => hcs c' (List.mem_cons_of_mem c hc')
    unfold prepare at h
    cases hex : c.existing with
    | some h' =>
      rw [hex] at h
      rcases List.mem_cons.mp h with rfl | h
      · exact ⟨.found rfl (hc.existing.symm.trans hex), hc.type⟩
      · exact ih hrest h
    | none =>
      rw [hex] at h
      simp only [Reported.bind_value] at h
      cases hnew : (newDef c).value with
      | none =>
        rw [hnew] at h
        exact ih hrest h
      | some v =>
        rw [hnew] at h
        obtain ⟨w, -, rfl⟩ := newDef_eq_some hnew
        rcases List.mem_cons.mp h with rfl | h
        · exact ⟨.fresh rfl (hc.existing.symm.trans hex) (id_withId w _), hc.type⟩
        · exact ih hrest h

theorem mem_pendings {p : Pending} (h : p ∈ pendings s) :
    p.Of s ∧ ∃ k, s.db.types.get? k = some p.type :=
  mem_prepare (fun _ hc => mem_chosen hc) h

theorem nodup_pendings (s : Session) : ((pendings s).map (·.node.name)).Nodup :=
  (nodup_chosen s).sublist (prepare_names s.db (chosen s))

/-- A database that a load begins with. A fresh load begins with an empty one. -/
structure Begins (s : Session) : Prop where
  indexed : s.db.Indexed
  fresh : s.mode = .fresh → s.db.byId = []

theorem Begins.existing? (hs : s.Begins) (id : String) : s.existing? id = s.db.get? id := by
  unfold Session.existing?
  cases hm : s.mode with
  | reload => rfl
  | fresh =>
    rw [Database.get?, hs.fresh hm]
    rfl

/-- The ID of a pending def is its name, if there is one. -/
theorem Pending.Of.id_eq (hs : s.Begins) {p : Pending} (h : p.Of s) (hid : p.handle.id ≠ "") :
    p.handle.id = p.node.name := by
  cases h with
  | found hreused hex =>
    rw [hs.existing?] at hex
    exact (hs.indexed.get?_iff.mp hex).2
  | fresh hreused hex hname => exact hname.resolve_right hid

theorem eq_of_id (hs : s.Begins) {p p' : Pending} (hp : p ∈ pendings s) (hp' : p' ∈ pendings s)
    (hid : p.handle.id ≠ "") (hsame : p'.handle.id = p.handle.id) : p' = p := by
  have hname := (mem_pendings hp).1.id_eq hs hid
  have hname' := (mem_pendings hp').1.id_eq hs (by rwa [hsame])
  exact List.inj_on_of_nodup_map (nodup_pendings s) hp' hp
    (hname'.symm.trans (hsame.trans hname))

/-! The defs that references are resolved against. -/

/-- The defs of a load before they are filled. -/
def prepared (s : Session) : Database := (prepare s.db (chosen s)).value.2

/-- The surroundings in which the defs of a load are filled. -/
def filling (s : Session) : Reading.Setting := s.setting (lookup (pendings s) (prepared s))

theorem prepared_get? (s : Session) (id : String) : (prepared s).get? id = s.db.get? id := by
  rw [Database.get?, prepared, (prepare_grows s.db (chosen s)).byId]
  rfl

theorem lookup_cases {id : String} {h : Handle}
    (hfound : lookup (pendings s) (prepared s) id = some h) :
    (∃ p ∈ pendings s, p.handle = h) ∨ s.db.get? id = some h := by
  unfold lookup at hfound
  split at hfound
  case h_1 p hp =>
    cases hfound
    exact .inl ⟨p, List.mem_reverse.mp (List.mem_of_find?_eq_some hp), rfl⟩
  case h_2 =>
    rw [prepared_get?] at hfound
    exact .inr hfound

/-- The defs of a load when they have been filled. -/
def filled (s : Session) : Database := (fillAll (filling s) (pendings s) (prepared s)).value

/-- The database when the new defs have been registered. -/
def registered (s : Session) : Database := (made (pendings s)).foldl Database.register (filled s)

/-- All that follows is callbacks. -/
theorem conclude_eq (s : Session) : ∃ hs, s.conclude.2 = (announce hs (registered s)).value := by
  refine ⟨(registerAll s.reruns (pendings s) (filled s)).value.1, ?_⟩
  rw [registered, ← registerAll_db s.reruns]
  rfl

theorem conclude_byId (s : Session) : s.conclude.2.byId = (registered s).byId := by
  obtain ⟨hs, heq⟩ := conclude_eq s
  rw [heq]
  exact (announce_sameIndex hs _).byId

theorem filled_byId (s : Session) : (filled s).byId = s.db.byId :=
  (fillAll_sameIndex _ _ _).byId.trans (prepare_grows s.db (chosen s)).byId

/-- A def that a reference can mean is found under its ID in the end. -/
theorem conclude_registers (hs : s.Begins) {id : String} {h : Handle}
    (hfound : lookup (pendings s) (prepared s) id = some h) (hid : h.id ≠ "") :
    s.conclude.2.get? h.id = some h := by
  have hdb (id : String) : (filled s).get? id = s.db.get? id := by
    rw [Database.get?, filled_byId]
    rfl
  rw [Database.get?, conclude_byId]
  change (registered s).get? h.id = some h
  rcases lookup_cases hfound with ⟨p, hp, rfl⟩ | hold
  · have hof := (mem_pendings hp).1
    have hname := hof.id_eq hs hid
    cases hof with
    | found hreused hex =>
      refine Database.registerAll_keeps _ ?_
      rw [hdb, hname, ← hs.existing?, hex]
    | fresh hreused hex =>
      have hmade : p.handle ∈ made (pendings s) :=
        List.mem_map_of_mem (List.mem_filter.mpr ⟨hp, by simp [hreused]⟩)
      refine Database.registerAll_get? hmade hid (fun h' hh' hsame' => ?_) ?_
      · obtain ⟨p', hp', rfl⟩ := List.mem_map.mp hh'
        rw [eq_of_id hs hp (List.mem_of_mem_filter hp') hid hsame']
      · rw [hdb, hname, ← hs.existing?, hex]
  · have hhid : h.id = id := (hs.indexed.get?_iff.mp hold).2
    refine Database.registerAll_keeps _ ?_
    rw [hdb, hhid, hold]

end Session

end DefLoad
