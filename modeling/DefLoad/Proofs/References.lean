import DefLoad.Parsers.Standard
import DefLoad.Proofs.Typing

/-!
The references that stand in a value, at any depth. All operations on values hand on the references
that they find; of the standard parsers one makes references, and the others make none.
-/

namespace DefLoad

/-- A set of references, each with the type that it was declared for. -/
abbrev Refs := TypeKey → Handle → Prop

namespace Value

/-- A reference stands somewhere in a value. -/
inductive Mentions (target : TypeKey) (h : Handle) : Value → Prop
  | ref : Mentions target h (.ref target h)
  | present {v : Value} (hv : Mentions target h v) : Mentions target h (.present v)
  | boxed {k : TypeKey} {v : Value} (hv : Mentions target h v) : Mentions target h (.boxed k v)
  | item {k : TypeKey} {items : List Value} {v : Value} (hmem : v ∈ items)
    (hv : Mentions target h v) : Mentions target h (.list k items)
  | key {kind : MapKind} {kt vt : TypeKey} {entries : List (Value × Value)} {e : Value × Value}
    (hmem : e ∈ entries) (hv : Mentions target h e.1) :
    Mentions target h (.map kind kt vt entries)
  | entry {kind : MapKind} {kt vt : TypeKey} {entries : List (Value × Value)} {e : Value × Value}
    (hmem : e ∈ entries) (hv : Mentions target h e.2) :
    Mentions target h (.map kind kt vt entries)
  | field {k : TypeKey} {fields : List (String × Value)} {f : String × Value} (hmem : f ∈ fields)
    (hv : Mentions target h f.2) : Mentions target h (.record k fields)

/-- All references in a value are of a set. -/
def RefersIn (S : Refs) (v : Value) : Prop := ∀ target h, v.Mentions target h → S target h

variable {S : Refs} {v w x : Value} {k : TypeKey}

theorem refersIn_scalar (k : TypeKey) (a : Atom) : (scalar k a).RefersIn S := by
  intro target h hm
  cases hm

theorem refersIn_absent (k : TypeKey) : (absent k).RefersIn S := by
  intro target h hm
  cases hm

theorem refersIn_present : (present v).RefersIn S ↔ v.RefersIn S := by
  constructor
  · intro hv target h hm
    exact hv target h (.present hm)
  · intro hv target h hm
    cases hm with
    | present hm => exact hv target h hm

theorem refersIn_boxed : (boxed k v).RefersIn S ↔ v.RefersIn S := by
  constructor
  · intro hv target h hm
    exact hv target h (.boxed hm)
  · intro hv target h hm
    cases hm with
    | boxed hm => exact hv target h hm

theorem refersIn_list {items : List Value} :
    (list k items).RefersIn S ↔ ∀ v ∈ items, v.RefersIn S := by
  constructor
  · intro hv v hmem target h hm
    exact hv target h (.item hmem hm)
  · intro hv target h hm
    cases hm with
    | item hmem hm => exact hv _ hmem target h hm

theorem refersIn_map {kind : MapKind} {kt vt : TypeKey} {entries : List (Value × Value)} :
    (map kind kt vt entries).RefersIn S ↔ ∀ e ∈ entries, e.1.RefersIn S ∧ e.2.RefersIn S := by
  constructor
  · intro hv e hmem
    refine ⟨fun target h hm => ?_, fun target h hm => ?_⟩
    · exact hv target h (.key hmem hm)
    · exact hv target h (.entry hmem hm)
  · intro hv target h hm
    cases hm with
    | key hmem hm => exact (hv _ hmem).1 target h hm
    | entry hmem hm => exact (hv _ hmem).2 target h hm

theorem refersIn_record {fields : List (String × Value)} :
    (record k fields).RefersIn S ↔ ∀ f ∈ fields, f.2.RefersIn S := by
  constructor
  · intro hv f hmem target h hm
    exact hv target h (.field hmem hm)
  · intro hv target h hm
    cases hm with
    | field hmem hm => exact hv _ hmem target h hm

theorem refersIn_ref {target : TypeKey} {h : Handle} :
    (ref target h).RefersIn S ↔ S target h := by
  constructor
  · intro hv
    exact hv target h .ref
  · intro hS target h hm
    cases hm
    exact hS

/-! Operations on values. -/

theorem mem_set {name : String} {fields : Assoc String Value} {f : String × Value}
    (h : f ∈ fields.set name x) : f ∈ fields ∨ f.2 = x := by
  induction fields with
  | nil =>
    rw [List.mem_singleton.mp h]
    exact .inr rfl
  | cons g fields ih =>
    unfold Assoc.set at h
    split at h
    · rcases List.mem_cons.mp h with rfl | h
      · exact .inr rfl
      · exact .inl (List.mem_cons_of_mem g h)
    · rcases List.mem_cons.mp h with rfl | h
      · exact .inl List.mem_cons_self
      · exact (ih h).imp_left (List.mem_cons_of_mem g)

namespace RefersIn

theorem setField (hv : v.RefersIn S) (hx : x.RefersIn S) (name : String) :
    (v.setField name x).RefersIn S := by
  cases v with
  | record k fields =>
    refine refersIn_record.mpr fun f hf => ?_
    rcases mem_set hf with hf | hf
    · exact refersIn_record.mp hv f hf
    · rw [hf]
      exact hx
  | _ => exact hv

theorem field? {name : String} (hv : v.RefersIn S) (h : v.field? name = some x) :
    x.RefersIn S := by
  cases v with
  | record k fields => exact refersIn_record.mp hv _ (Assoc.mem_of_get? h)
  | _ => cases h

theorem withId (hv : v.RefersIn S) (id : String) : (v.withId id).RefersIn S :=
  hv.setField (refersIn_scalar _ _) "id"

theorem wrap (hv : v.RefersIn S) (h : Value.wrap k v = some w) : w.RefersIn S := by
  unfold Value.wrap at h
  split at h
  · cases h
    exact refersIn_present.mpr hv
  · cases h

theorem unwrap (hv : v.RefersIn S) (h : Value.unwrap k v = some w) : w.RefersIn S := by
  unfold Value.unwrap at h
  split at h
  · split at h
    · cases h
      exact refersIn_present.mp hv
    · cases h
  · cases h

theorem of_none? (h : none? k = some v) : v.RefersIn S := by
  unfold none? at h
  split at h
  · cases h
    exact refersIn_absent _
  · cases h

theorem push (hv : v.RefersIn S) (hx : x.RefersIn S) (h : Value.push k v x = some w) :
    w.RefersIn S := by
  unfold Value.push at h
  split at h
  · split at h
    · cases h
      refine refersIn_list.mpr fun y hy => ?_
      rcases List.mem_append.mp hy with hy | hy
      · exact refersIn_list.mp hv y hy
      · rw [List.mem_singleton.mp hy]
        exact hx
    · cases h
  · cases h

theorem insert {key : Value} (hv : v.RefersIn S) (hkey : key.RefersIn S) (hx : x.RefersIn S)
    (h : (Value.insert k v key x).map? = some w) : w.RefersIn S := by
  unfold Value.insert at h
  split at h
  · rename_i kind kt vt entries
    have hold := refersIn_map.mp hv
    -- every entry of the new map is an old one, the new one, or an old key with the new value
    have hnew {es : List (Value × Value)} (hes : ∀ e ∈ es, e = (key, x) ∨ e ∈ entries) :
        (map kind kt vt es).RefersIn S := by
      refine refersIn_map.mpr fun e he => ?_
      rcases hes e he with rfl | he
      · exact ⟨hkey, hx⟩
      · exact hold e he
    split at h
    · split at h
      · cases h
        refine refersIn_map.mpr fun e he => ?_
        rcases HasType.mem_replaceEntry he with he | ⟨hvalue, old, hmem, hsame⟩
        · exact hold e he
        · rw [hvalue, ← hsame]
          exact ⟨(hold old hmem).1, hx⟩
      · split at h
        · cases h
          exact hnew fun e he => HasType.mem_insertSorted he
        · cases h
          refine hnew fun e he => ?_
          rcases List.mem_append.mp he with he | he
          · exact .inr he
          · exact .inl (List.mem_singleton.mp he)
    · cases h
  · cases h

theorem convertWithin {r : TypeTable} {n : Nat} (hv : v.RefersIn S)
    (h : r.convertWithin v n k = .ok w) : w.RefersIn S := by
  induction n generalizing k w with
  | zero =>
    unfold TypeTable.convertWithin at h
    split at h
    · cases h
      exact hv
    · cases h
  | succ n ih =>
    unfold TypeTable.convertWithin at h
    split at h
    · cases h
      exact hv
    · split at h
      · rename_i inner hshape
        cases hin : r.convertWithin v n inner with
        | error e =>
          rw [hin] at h
          cases h
        | ok y =>
          rw [hin] at h
          have hwrapped : TypeTable.wrapped k y = .ok w := h
          unfold TypeTable.wrapped at hwrapped
          split at hwrapped
          · cases hwrapped
            exact (ih hin).wrap ‹_›
          · cases hwrapped
      · split at h
        · unfold TypeTable.upcast at h
          split at h
          · cases h
            exact refersIn_boxed.mpr hv
          · cases h
        · cases h
      · cases h

theorem convert {r : TypeTable} (hv : v.RefersIn S) (h : r.convert v k = .ok w) :
    w.RefersIn S :=
  hv.convertWithin h

end RefersIn

end Value

/-- All references that a reading step can see are of a set. -/
structure Context.RefersIn (S : Refs) (c : Context) : Prop where
  current : ∀ v, c.current = some v → v.RefersIn S
  owner : ∀ v, c.owner = some v → v.RefersIn S
  slot : ∀ v, c.slot = .entry v → v.RefersIn S

section

variable (S : Refs)

/-- What a type brings along makes no references: fresh values, hooks, members and callbacks hand on
those that they find. -/
structure Descriptor.Keeps (t : Descriptor) : Prop where
  build : ∀ c v, (∀ context, c = some context → context.RefersIn S) → t.build c = .ok v →
    v.RefersIn S
  hook : ∀ hook, t.postConstruct = some hook → ∀ c v, c.RefersIn S → v.RefersIn S →
    (hook c v).RefersIn S
  take : ∀ m ∈ t.members, ∀ o x w, o.RefersIn S → m.access.take o = some (x, w) →
    x.RefersIn S ∧ w.RefersIn S
  assign : ∀ m ∈ t.members, ∀ o x w, o.RefersIn S → x.RefersIn S → m.access.assign o x = .ok w →
    w.RefersIn S
  postLoad : ∀ role, t.defRole = some role → ∀ v, v.RefersIn S → (role.postLoad v).1.RefersIn S
  latePostLoad : ∀ role, t.defRole = some role → ∀ v, v.RefersIn S →
    (role.latePostLoad v).1.RefersIn S

def TypeTable.Keeps (r : TypeTable) : Prop := ∀ k t, r.get? k = some t → t.Keeps S

/-- A parser that makes no references. -/
def Parser.Keeps (p : Parser) : Prop :=
  ∀ e c v, c.RefersIn S → p.parse e c = .ok v → v.RefersIn S

end

/-- Stored fields hand on what they hold, and what is put into them. -/
theorem Access.field_keeps {S : Refs} {owner type : TypeKey} {name : String} {default : Value}
    (hdefault : default.RefersIn S) {o x w : Value} (ho : o.RefersIn S) :
    ((Access.field owner type name default).take o = some (x, w) →
      x.RefersIn S ∧ w.RefersIn S) ∧
    (x.RefersIn S → (Access.field owner type name default).assign o x = .ok w →
      w.RefersIn S) := by
  constructor
  · intro h
    simp only [Access.field] at h
    split at h
    · obtain ⟨y, hy, he⟩ := Option.map_eq_some_iff.mp h
      cases he
      exact ⟨ho.field? hy, ho.setField hdefault name⟩
    · cases h
  · intro hx h
    simp only [Access.field, Access.checked] at h
    split at h
    · cases h
    · split at h
      · cases h
      · cases h
        exact ho.setField hx name

/-- A type that brings no code along makes no references. -/
theorem Descriptor.keeps_of_fields {S : Refs} {t : Descriptor} (hpre : t.preConstruct = none)
    (hpost : t.postConstruct = none) (hrole : ∀ role, t.defRole = some role → role = {})
    (hfresh : ∀ v, t.construct = some (.ok v) → v.RefersIn S)
    (hmembers : ∀ m ∈ t.members, ∃ owner type name default,
      m.access = .field owner type name default ∧ default.RefersIn S) : t.Keeps S where
  build c v _ h := by
    unfold Descriptor.build at h
    rw [hpre] at h
    split at h
    · cases h
    · split at h
      case h_3 w hw =>
        cases h
        exact hfresh v hw
      all_goals cases h
  hook hook h := by
    rw [hpost] at h
    cases h
  take m hm o x w ho h := by
    obtain ⟨owner, type, name, default, heq, hdefault⟩ := hmembers m hm
    rw [heq] at h
    exact (Access.field_keeps hdefault ho).1 h
  assign m hm o x w ho hx h := by
    obtain ⟨owner, type, name, default, heq, hdefault⟩ := hmembers m hm
    rw [heq] at h
    exact (Access.field_keeps hdefault ho).2 hx h
  postLoad role h v hv := by
    rw [hrole role h]
    exact hv
  latePostLoad role h v hv := by
    rw [hrole role h]
    exact hv

namespace Parsers

/-- What the parser for references has given. -/
def Given (e : Env) : Refs := fun target h => ∃ c, parseRef e c = .ok (.ref target h)

theorem parseRef_eq_ok {e : Env} {c : Context} {v : Value} (h : parseRef e c = .ok v) :
    ∃ target handle, v = .ref target handle ∧ e.findDef (Text.trim c.text) = some handle ∧
      e.types.isSubtype handle.type target = true := by
  unfold parseRef at h
  dsimp only at h
  split at h
  · split at h
    · cases h
    · split at h
      · cases h
        exact ⟨_, _, rfl, ‹_›, ‹_›⟩
      · cases h
  · cases h

theorem simple_keeps {S : Refs} {name : String} {k : TypeKey}
    {read : String → Except String Value} (h : ∀ text v, read text = .ok v → ∃ a, v = .scalar k a) :
    (simple name k read).Keeps S := by
  intro e c v _ hv
  obtain ⟨a, rfl⟩ := h c.text v hv
  exact Value.refersIn_scalar k a

theorem integer_keeps {S : Refs} (k : TypeKey) (range : Decimal.Range) :
    (integer k range).Keeps S := by
  refine simple_keeps fun text v h => ?_
  unfold readInteger at h
  split at h
  · cases h
    exact ⟨_, rfl⟩
  · cases h

theorem float_keeps {S : Refs} (k : TypeKey) (f : Decimal.Format) : (float k f).Keeps S := by
  refine simple_keeps fun text v h => ?_
  unfold readFloat at h
  split at h
  · cases h
    exact ⟨_, rfl⟩
  · cases h

theorem enumeration_keeps {S : Refs} : enumeration.Keeps S := by
  intro e c v _ hv
  change parseVariant e c = .ok v at hv
  unfold parseVariant at hv
  dsimp only at hv
  split at hv
  · cases hv
  · split at hv
    · split at hv
      · rename_i hvariant
        cases hv
        unfold Descriptor.variant? at hvariant
        split at hvariant
        · obtain ⟨i, -, rfl⟩ := Option.map_eq_some_iff.mp hvariant
          exact Value.refersIn_scalar _ _
        · cases hvariant
      · cases hv
    · cases hv

/-- Only the parser for references makes any. -/
theorem standard_keeps {S : Refs} {p : Parser} (hp : p ∈ standard) : p = defRef ∨ p.Keeps S := by
  have hnode : node.Keeps S := by
    intro e c v _ hv
    simp only [node] at hv
    split at hv
    · cases hv
      exact Value.refersIn_scalar _ _
    · cases hv
  have htypeName : typeName.Keeps S := by
    intro e c v _ hv
    simp only [typeName] at hv
    split at hv
    · cases hv
      exact Value.refersIn_scalar _ _
    · cases hv
  have hstring : (simple "string" .string fun s => .ok (.string s)).Keeps S := by
    refine simple_keeps fun text v h => ?_
    cases h
    exact ⟨_, rfl⟩
  have hbool : (simple "bool" .bool readBool).Keeps S := by
    refine simple_keeps fun text v h => ?_
    unfold readBool at h
    split at h
    · cases h
      exact ⟨_, rfl⟩
    · cases h
  simp only [standard, List.mem_cons, List.not_mem_nil, or_false] at hp
  rcases hp with rfl | rfl | rfl | rfl | rfl | rfl | rfl | rfl | rfl | rfl | rfl | rfl | rfl | rfl
  · exact .inl rfl
  · exact .inr enumeration_keeps
  · exact .inr hnode
  · exact .inr htypeName
  · exact .inr hstring
  · exact .inr hbool
  · exact .inr (integer_keeps _ _)
  · exact .inr (integer_keeps _ _)
  · exact .inr (integer_keeps _ _)
  · exact .inr (integer_keeps _ _)
  · exact .inr (float_keeps _ _)
  · exact .inr (float_keeps _ _)
  · exact .inr (integer_keeps _ _)
  · exact .inr (integer_keeps _ _)

end Parsers

end DefLoad
