import DefLoad.Proofs.Adding

/-!
What filling a def keeps. A property of the instances of a type that every writing into a member
keeps holds when all children of a node have been read, and when the members have been reset.
-/

namespace DefLoad

/-- An ID that it is given stays with it. -/
def Value.BearsId (v : Value) : Prop := ∀ id, (v.withId id).id = id

theorem Value.bearsId_record (k : TypeKey) (fields : List (String × Value)) :
    (Value.record k fields).BearsId := by
  intro id
  simp [Value.withId, Value.setField, Value.id, Value.textField, Value.field?, Value.string]

theorem Value.BearsId.setField {v : Value} (h : v.BearsId) (name : String) (x : Value) :
    (v.setField name x).BearsId := by
  cases v with
  | record k fields => exact Value.bearsId_record _ _
  | _ => exact h

/-- What the type calls when an instance has been filled keeps a property of its instances. -/
structure Descriptor.CallbacksKeep (t : Descriptor) (Q : Value → Prop) : Prop where
  postConstruct : ∀ hook, t.postConstruct = some hook → ∀ c v, Q v → Q (hook c v)
  postLoad : ∀ role, t.defRole = some role → ∀ v, Q v → Q (role.postLoad v).1
  latePostLoad : ∀ role, t.defRole = some role → ∀ v, Q v → Q (role.latePostLoad v).1

/-- A type whose members are stored fields and that calls nothing. -/
structure Descriptor.Plain (t : Descriptor) : Prop where
  members : ∀ m ∈ t.members, ∃ owner type name default, m.access = .field owner type name default
  postConstruct : t.postConstruct = none
  role : ∀ role, t.defRole = some role → role = {}

theorem Descriptor.Plain.callbacksKeep {t : Descriptor} (ht : t.Plain) (Q : Value → Prop) :
    t.CallbacksKeep Q where
  postConstruct hook h := by
    rw [ht.postConstruct] at h
    cases h
  postLoad role h v hv := by
    rw [ht.role role h]
    exact hv
  latePostLoad role h v hv := by
    rw [ht.role role h]
    exact hv

namespace Reading

/-- Taking and assigning the members of a type keep a property of its instances. -/
structure KeptBy (t : Descriptor) (Q : Value → Prop) : Prop where
  take : ∀ m ∈ t.members, ∀ v x w, Q v → m.access.take v = some (x, w) → Q w
  assign : ∀ m ∈ t.members, ∀ v x w, Q v → m.access.assign v x = .ok w → Q w

variable {s : Setting} {t : Descriptor} {Q : Value → Prop} {v : Value}

theorem store_kept (ht : KeptBy t Q) {m : Member} (hm : m ∈ t.members) (trail : List String)
    (hv : Q v) (write : Option Value) : Q (store m trail v write).value := by
  cases write with
  | none => exact hv
  | some x =>
    simp only [store]
    cases ha : m.access.assign v x with
    | ok w => exact ht.assign m hm v x w hv ha
    | error e => exact hv

theorem taken_kept (ht : KeptBy t Q) {m : Member} (hm : m ∈ t.members) (hv : Q v) :
    Q (taken m v).2 := by
  unfold taken
  cases htake : m.access.take v with
  | none => exact hv
  | some found => exact ht.take m hm v found.1 found.2 hv htake

theorem storeMember_kept (ht : KeptBy t Q) (trail : List String) (child : Node) (read : ReadChild)
    (hv : Q v) : Q (storeMember s trail t v child read).value := by
  unfold storeMember
  simp only [Reported.bind_value]
  cases hp : (place s (trail ++ [child.name]) t child).value with
  | none => exact hv
  | some p =>
    have hm : p.member ∈ t.members := (Descriptor.mem_ownMembers.mp (place_spec hp).1).1
    exact store_kept ht hm _ (taken_kept ht hm hv) _

theorem readMembers_kept (ht : KeptBy t Q) (trail : List String) (cs : List Node) (hv : Q v) :
    Q (readMembers s trail t cs v).value := by
  induction cs generalizing v with
  | nil =>
    unfold readMembers
    exact hv
  | cons c cs ih =>
    unfold readMembers
    exact ih (storeMember_kept ht trail c _ hv)

theorem resetMembers_kept (ht : KeptBy t Q) (id : String) {ms : List Member} (hms : ms ⊆ t.members)
    (fresh : Value) (hv : Q v) : Q (resetMembers id fresh ms v).value := by
  induction ms generalizing fresh v with
  | nil => exact hv
  | cons m ms ih =>
    have hrest : ms ⊆ t.members := fun x hx => hms (List.mem_cons_of_mem m hx)
    unfold resetMembers
    split
    case isTrue => exact ih hrest fresh hv
    case isFalse =>
      cases m.access.take fresh with
      | none => exact ih hrest fresh hv
      | some found =>
        dsimp only
        cases ha : m.access.assign v found.1 with
        | error e => exact ih hrest found.2 hv
        | ok w => exact ih hrest found.2 (ht.assign m (hms List.mem_cons_self) v _ w hv ha)

/-- Members that are stored fields keep what the setting of fields keeps. -/
theorem KeptBy.of_plain (ht : t.Plain) (hfield : ∀ v name x, Q v → Q (v.setField name x)) :
    KeptBy t Q where
  take m hm v x w hv h := by
    obtain ⟨owner, type, name, default, heq⟩ := ht.members m hm
    rw [heq, Access.field] at h
    dsimp only at h
    split at h
    · obtain ⟨y, -, hy⟩ := Option.map_eq_some_iff.mp h
      cases hy
      exact hfield v name default hv
    · cases h
  assign m hm v x w hv h := by
    obtain ⟨owner, type, name, default, heq⟩ := ht.members m hm
    rw [heq] at h
    simp only [Access.field, Access.checked] at h
    split at h
    · cases h
    · split at h
      · cases h
      · cases h
        exact hfield v name x hv

/-- A def is reset, and its ID set. -/
theorem reset_kept (ht : KeptBy t Q) (hid : ∀ v id, Q v → Q (v.withId id)) (id : String)
    (hv : Q v) : Q (reset t id v).value := by
  unfold reset
  cases t.build none with
  | error e => exact hv
  | ok fresh => exact hid _ id (resetMembers_kept ht id (fun _ hm => hm) fresh hv)

/-- A def is filled, its ID set, and its hook run. -/
theorem readDef_kept (ht : KeptBy t Q) (hid : ∀ v id, Q v → Q (v.withId id))
    (hcalls : t.CallbacksKeep Q) (id : String) (n : Node) (hv : Q v) :
    Q (readDef s t id n v).value := by
  have hmembers : Q (readMembers s [id] t n.children (v.withId id)).value :=
    readMembers_kept ht [id] n.children (hid v id hv)
  have hfilled := hid _ id hmembers
  unfold readDef
  cases hh : t.postConstruct with
  | none => exact hfilled
  | some hook => exact hcalls.postConstruct hook hh _ _ hfilled

/-- However the members are filled, the def comes out with its ID. -/
theorem readDef_id {id : String} (ht : KeptBy t Value.BearsId)
    (hcalls : t.CallbacksKeep fun v => v.id = id) (n : Node) (hv : v.BearsId) :
    (readDef s t id n v).value.id = id := by
  have hmembers : (readMembers s [id] t n.children (v.withId id)).value.BearsId :=
    readMembers_kept ht [id] n.children (hv.setField _ _)
  have hfilled := hmembers id
  unfold readDef
  cases hh : t.postConstruct with
  | none => exact hfilled
  | some hook => exact hcalls.postConstruct hook hh _ _ hfilled

end Reading

end DefLoad
