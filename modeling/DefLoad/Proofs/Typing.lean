import DefLoad.Proofs.Conversion
import DefLoad.Types.Core

/-!
Values that are what their types say, and tables whose types are what they say. In such a table a
value that fits a declared type can be converted to it, and stays what it is.
-/

namespace DefLoad

/-- What the values of named types hold: the contents of plain values, the fields of records. -/
structure Content where
  atoms : TypeKey → Atom → Prop
  fields : TypeKey → List (String × TypeKey)

/-- A value is of a type, inside and out. -/
inductive HasType (r : TypeTable) (T : Content) : Value → TypeKey → Prop
  | scalar {name : String} {a : Atom} (h : T.atoms (.named name) a) :
    HasType r T (.scalar (.named name) a) (.named name)
  | absent {k : TypeKey} : HasType r T (.absent k) (.optional k)
  | present {v : Value} {k : TypeKey} (h : HasType r T v k) :
    HasType r T (.present v) (.optional k)
  | list {k : TypeKey} {items : List Value} (h : ∀ x ∈ items, HasType r T x k) :
    HasType r T (.list k items) (.list k)
  | map {kind : MapKind} {k v : TypeKey} {entries : List (Value × Value)}
    (hkeys : ∀ e ∈ entries, HasType r T e.1 k) (hvalues : ∀ e ∈ entries, HasType r T e.2 v) :
    HasType r T (.map kind k v entries) (.map kind k v)
  | record {name : String} {entries : Assoc String Value}
    (hkeys : entries.keys = (T.fields (.named name)).map Prod.fst)
    (h : ∀ f ∈ T.fields (.named name), ∀ x, entries.get? f.1 = some x → HasType r T x f.2) :
    HasType r T (.record (.named name) entries) (.named name)
  | boxed {name : String} {v : Value} {t : Descriptor} {is : List StandIn} {i : StandIn}
    (ht : r.get? (.named name) = some t) (hshape : t.shape = .abstract is) (hi : i ∈ is)
    (h : HasType r T v i.concrete) : HasType r T (.boxed (.named name) v) (.named name)
  | ref {target : TypeKey} {handle : Handle} (h : r.isSubtype handle.type target = true) :
    HasType r T (.ref target handle) (.ref target)

namespace HasType

variable {r : TypeTable} {T : Content} {v x : Value} {k : TypeKey}

theorem type_eq (h : HasType r T v k) : v.type = k := by
  induction h with
  | present h ih => exact congrArg TypeKey.optional ih
  | _ => rfl

theorem wrap (h : HasType r T v k) : Value.wrap (.optional k) v = some (.present v) :=
  if_pos (by rw [h.type_eq])

/-- What is inside an optional value. -/
theorem unwrap {o : TypeKey} (h : HasType r T x o) (hv : Value.unwrap o x = some v)
    (ho : o = .optional k) : HasType r T v k := by
  subst ho
  cases h with
  | absent => cases hv
  | present h =>
    simp only [Value.unwrap] at hv
    split at hv
    · cases hv
      exact h
    · cases hv

theorem push {xs : Value} (hxs : HasType r T xs (.list k)) (hx : HasType r T x k) :
    ∃ ys, Value.push (.list k) xs x = some ys ∧ HasType r T ys (.list k) := by
  cases hxs with
  | list h =>
    rename_i items
    refine ⟨.list k (items ++ [x]), if_pos ⟨rfl, hx.type_eq⟩, .list ?_⟩
    intro y hy
    rcases List.mem_append.mp hy with hy | hy
    · exact h y hy
    · rw [List.mem_singleton.mp hy]
      exact hx

theorem mem_insertSorted {key e : Value × Value} {entries : List (Value × Value)}
    (h : e ∈ Value.insertSorted key.1 key.2 entries) : e = key ∨ e ∈ entries := by
  induction entries with
  | nil => exact .inl (List.mem_singleton.mp h)
  | cons a entries ih =>
    unfold Value.insertSorted at h
    split at h
    · exact (List.mem_cons.mp h).imp_right id
    · rcases List.mem_cons.mp h with rfl | h
      · exact .inr List.mem_cons_self
      · exact (ih h).imp_right (List.mem_cons_of_mem a)

/-- An entry that is replaced keeps its key. -/
theorem mem_replaceEntry {key value : Value} {e : Value × Value} {entries : List (Value × Value)}
    (h : e ∈ Value.replaceEntry key value entries) :
    e ∈ entries ∨ e.2 = value ∧ ∃ old ∈ entries, old.1 = e.1 := by
  induction entries with
  | nil => cases h
  | cons a entries ih =>
    unfold Value.replaceEntry at h
    split at h
    · rcases List.mem_cons.mp h with rfl | h
      · exact .inr ⟨rfl, a, List.mem_cons_self, rfl⟩
      · exact .inl (List.mem_cons_of_mem a h)
    · rcases List.mem_cons.mp h with rfl | h
      · exact .inl List.mem_cons_self
      · rcases ih h with h | ⟨hvalue, old, hold, he⟩
        · exact .inl (List.mem_cons_of_mem a h)
        · exact .inr ⟨hvalue, old, List.mem_cons_of_mem a hold, he⟩

theorem insert {kind : MapKind} {kt vt : TypeKey} {m key : Value}
    (hm : HasType r T m (.map kind kt vt)) (hkey : HasType r T key kt) (hx : HasType r T x vt) :
    ∃ m', (Value.insert (.map kind kt vt) m key x = .inserted m' ∨
        Value.insert (.map kind kt vt) m key x = .replaced m') ∧
      HasType r T m' (.map kind kt vt) := by
  cases hm with
  | map hkeys hvalues =>
    rename_i entries
    have hnew {es : List (Value × Value)}
        (hes : ∀ e ∈ es, e = (key, x) ∨ e ∈ entries) :
        HasType r T (.map kind kt vt es) (.map kind kt vt) := by
      constructor
      · intro e he
        rcases hes e he with rfl | he
        · exact hkey
        · exact hkeys e he
      · intro e he
        rcases hes e he with rfl | he
        · exact hx
        · exact hvalues e he
    simp only [Value.insert, hkey.type_eq, hx.type_eq, and_self, if_true]
    split
    · refine ⟨_, .inr rfl, ?_⟩
      constructor
      · intro e he
        rcases mem_replaceEntry he with he | ⟨-, old, hold, hsame⟩
        · exact hkeys e he
        · rw [← hsame]
          exact hkeys old hold
      · intro e he
        rcases mem_replaceEntry he with he | ⟨hvalue, -⟩
        · exact hvalues e he
        · rw [hvalue]
          exact hx
    · split
      · exact ⟨_, .inl rfl, hnew fun e he => mem_insertSorted he⟩
      · refine ⟨_, .inl rfl, hnew fun e he => ?_⟩
        rcases List.mem_append.mp he with he | he
        · exact .inr he
        · exact .inl (List.mem_singleton.mp he)

end HasType

/-- What plain values of the standard types hold: a number is in the range of its type. -/
inductive Plain : TypeKey → Atom → Prop
  | bool (b : Bool) : Plain .bool (.bool b)
  | int {k : TypeKey} {range : Decimal.Range} {n : Int} (hk : (k, range) ∈ Core.integers)
    (hn : range.contains n = true) : Plain k (.int n)
  | bits {k : TypeKey} {f : Decimal.Format} {n : Nat} (hk : (k, f) ∈ Core.floats)
    (hn : n < 2 * f.signBit) : Plain k (.bits n)
  | text (s : String) : Plain .string (.text s)
  | node (n : Node) : Plain .node (.node n)
  | type (k : TypeKey) : Plain .typeKey (.type k)

section

variable (r : TypeTable) (T : Content)

/-- The values that a hook can see are what their types say. -/
structure Context.Typed (c : Context) : Prop where
  current : ∀ v, c.current = some v → ∃ k, HasType r T v k
  owner : ∀ v, c.owner = some v → ∃ k, HasType r T v k
  slot : ∀ v, c.slot = .entry v → ∃ k, HasType r T v k

/-- A member gives and takes values of its type, and leaves its owner one of the owner's type. -/
structure Access.Typed (owner type : TypeKey) (a : Access) : Prop where
  take : ∀ o x w, HasType r T o owner → a.take o = some (x, w) →
    HasType r T x type ∧ HasType r T w owner
  assign : ∀ o x, HasType r T o owner → HasType r T x type →
    ∃ w, a.assign o x = .ok w ∧ HasType r T w owner

/-- A container is of the type that its parts say, and members move values of the types that they
name. An abstract type takes the values of the types under which its stand-ins are known. -/
def Shape.Sound (k : TypeKey) : Shape → Prop
  | .scalar => True
  | .enumeration names => (∃ name, k = .named name) ∧ ∀ i < names.length, T.atoms k (.variant i)
  | .optional inner => k = .optional inner
  | .list element => k = .list element
  | .map key value => ∃ kind, k = .map kind key value
  | .class ms => ∀ m ∈ ms, m.access.Typed r T k m.type
  | .abstract is => (∃ name, k = .named name) ∧ ∀ i ∈ is, i.key = i.concrete
  | .ref target => k = .ref target

/-- A descriptor keeps its word: it builds, wraps, lists and puts in the types that it declares. -/
structure Descriptor.Sound (t : Descriptor) : Prop where
  shape : t.shape.Sound r T t.key
  build : ∀ c v, (∀ context, c = some context → context.Typed r T) → t.build c = .ok v →
    HasType r T v t.key
  hook : ∀ hook, t.postConstruct = some hook → ∀ c v, c.Typed r T → HasType r T v t.key →
    HasType r T (hook c v) t.key

/-- A table whose descriptors keep their word. -/
structure TypeTable.Sound : Prop where
  plain : ∀ k a, Plain k a → T.atoms k a
  key : ∀ k t, r.get? k = some t → t.key = k
  types : ∀ k t, r.get? k = some t → t.Sound r T

end

namespace Descriptor.Sound

variable {r : TypeTable} {T : Content} {t : Descriptor}

theorem of_shape (ht : t.Sound r T) {shape : Shape} (h : t.shape = shape) :
    shape.Sound r T t.key := by
  rw [← h]
  exact ht.shape

theorem members (ht : t.Sound r T) : ∀ m ∈ t.members, m.access.Typed r T t.key m.type := by
  intro m hm
  unfold Descriptor.members at hm
  split at hm
  case h_1 ms hshape => exact ht.of_shape hshape m hm
  case h_2 => cases hm

end Descriptor.Sound

namespace TypeTable.Sound

variable {r : TypeTable} {T : Content} (hr : r.Sound T)

include hr

theorem convertWithin {v : Value} {source target : TypeKey} (hv : HasType r T v source) {n : Nat}
    (h : r.fitsWithin source n target = true) :
    ∃ w, r.convertWithin v n target = .ok w ∧ HasType r T w target := by
  induction n generalizing target with
  | zero =>
    have heq : source = target := by simpa [fitsWithin] using h
    subst heq
    exact ⟨v, if_pos hv.type_eq, hv⟩
  | succ n ih =>
    by_cases hne : source = target
    · subst hne
      exact ⟨v, if_pos hv.type_eq, hv⟩
    · have hvne : ¬v.type = target := by rwa [hv.type_eq]
      simp only [TypeTable.convertWithin, if_neg hvne]
      rcases (fitsWithin_succ hne).mp h with ⟨t, inner, ht, hshape, hin⟩ | ⟨t, is, ht, hshape, hi⟩
      · obtain ⟨w, hw, htyped⟩ := ih hin
        have hkey : t.key = .optional inner := (hr.types target t ht).of_shape hshape
        rw [hr.key target t ht] at hkey
        subst hkey
        simp only [ht, hshape, Option.map_some, hw, Except.bind, wrapped, htyped.wrap]
        exact ⟨_, rfl, .present htyped⟩
      · obtain ⟨⟨name, hname⟩, hstandIns⟩ := (hr.types target t ht).of_shape hshape
        rw [hr.key target t ht] at hname
        subst hname
        obtain ⟨i, hi, hkey⟩ := hi
        obtain ⟨j, hj⟩ : ∃ j, is.find? (·.key = v.type) = some j := by
          have hsome : (is.find? (·.key = v.type)).isSome = true := by
            rw [List.find?_isSome]
            exact ⟨i, hi, by simp [hkey, hv.type_eq]⟩
          exact Option.isSome_iff_exists.mp hsome
        have hmem := List.mem_of_find?_eq_some hj
        have hjkey : j.key = v.type := by simpa using List.find?_some hj
        have hconcrete : v.type = j.concrete := by
          rw [← hstandIns j hmem, hjkey]
        have hup : upcast (.named name) j v = .ok (.boxed (.named name) v) := if_pos hconcrete
        simp only [ht, hshape, Option.map_some, hj, hup]
        refine ⟨_, rfl, .boxed ht hshape hmem ?_⟩
        rwa [← hconcrete, hv.type_eq]

/-- What fits can be converted. -/
theorem convert {v : Value} {source target : TypeKey} (hv : HasType r T v source)
    (h : r.fits source target = true) :
    ∃ w, r.convert v target = .ok w ∧ HasType r T w target :=
  hr.convertWithin hv h

theorem faithful : r.Faithful where
  wraps k t inner ht hshape v hv := by
    have hkey : t.key = .optional inner := (hr.types k t ht).of_shape hshape
    rw [hr.key k t ht] at hkey
    exact ⟨.present v, if_pos (by rw [hv, hkey])⟩
  takes k t is ht hshape i hi v hv := by
    obtain ⟨-, hstandIns⟩ := (hr.types k t ht).of_shape hshape
    exact ⟨.boxed k v, if_pos (by rw [hv, hstandIns i hi])⟩

/-- What does not fit is handed back. -/
theorem convert_misfit {v : Value} {source target : TypeKey} (hv : HasType r T v source)
    (h : r.fits source target = false) : r.convert v target = .error v := by
  have hspec := convertWithin_spec hr.faithful v (r.size + 1) target
  have hnot : ¬r.fitsWithin v.type (r.size + 1) target = true := by
    rw [hv.type_eq]
    exact ne_true_of_eq_false h
  rwa [if_neg hnot] at hspec

theorem null {k : TypeKey} {v : Value} (h : r.null? k = some v) : HasType r T v k := by
  unfold TypeTable.null? at h
  obtain ⟨t, ht, h⟩ := Option.bind_eq_some_iff.mp h
  have hsound := hr.types k t ht
  have hkey := hr.key k t ht
  split at h
  case h_1 inner hshape =>
    have hoptional : t.key = .optional inner := hsound.of_shape hshape
    rw [hkey] at hoptional
    subst hoptional
    cases h
    exact .absent
  case h_2 =>
    have hbuild : t.build none = .ok v := by
      cases hb : t.build none with
      | ok w =>
        rw [hb] at h
        exact congrArg Except.ok (Option.some.inj h)
      | error e =>
        rw [hb] at h
        cases h
    have htyped := hsound.build none v (by simp) hbuild
    rwa [hkey] at htyped

end TypeTable.Sound

/-! Types that keep their word. -/

section

variable {r : TypeTable} {T : Content} {o x default : Value} {owner name : String} {type : TypeKey}

/-- A field of its type can be set where all fields go by different names. -/
theorem HasType.setField (hd : ((T.fields (.named owner)).map Prod.fst).Nodup)
    (hf : (name, type) ∈ T.fields (.named owner)) (ho : HasType r T o (.named owner))
    (hx : HasType r T x type) : HasType r T (o.setField name x) (.named owner) := by
  cases ho with
  | scalar h => exact .scalar h
  | boxed ht hshape hi h => exact .boxed ht hshape hi h
  | @record _ entries hkeys h =>
    have hname : name ∈ entries.keys := by
      rw [hkeys]
      exact List.mem_map_of_mem hf
    have hcontains : entries.contains name = true := by
      cases hget : entries.get? name with
      | some y => simp [Assoc.contains, hget]
      | none => exact absurd hname ((Assoc.get?_eq_none_iff entries name).mp hget)
    refine .record ((Assoc.keys_set_of_contains entries name x hcontains).trans hkeys) ?_
    intro f hmem y hy
    rw [Assoc.get?_set] at hy
    split at hy
    case isTrue heq =>
      have hsame : f = (name, type) :=
        List.inj_on_of_nodup_map hd hmem hf (beq_iff_eq.mp heq).symm
      cases hy
      rw [hsame]
      exact hx
    case isFalse => exact h f hmem y hy

theorem Access.field_typed (hd : ((T.fields (.named owner)).map Prod.fst).Nodup)
    (hf : (name, type) ∈ T.fields (.named owner)) (hdefault : HasType r T default type) :
    (Access.field (.named owner) type name default).Typed r T (.named owner) type := by
  constructor
  case take =>
    intro o x w ho h
    simp only [Access.field, ho.type_eq, if_true, Option.map_eq_some_iff, Prod.mk.injEq] at h
    obtain ⟨y, hy, rfl, rfl⟩ := h
    refine ⟨?_, ho.setField hd hf hdefault⟩
    cases ho with
    | scalar => cases hy
    | boxed => cases hy
    | record hkeys h => exact h _ hf y hy
  case assign =>
    intro o x ho hx
    refine ⟨o.setField name x, ?_, ho.setField hd hf hx⟩
    simp [Access.field, Access.checked, ho.type_eq, hx.type_eq]

/-- Without hooks it is enough that a fresh value is what it should be. -/
theorem Descriptor.sound_of_fresh {t : Descriptor} (hshape : t.shape.Sound r T t.key)
    (hpre : t.preConstruct = none) (hpost : t.postConstruct = none)
    (hfresh : ∀ v, t.construct = some (.ok v) → HasType r T v t.key) : t.Sound r T := by
  constructor
  case shape => exact hshape
  case build =>
    intro c v _ h
    unfold Descriptor.build at h
    rw [hpre] at h
    split at h
    · cases h
    · split at h
      case h_3 w hw =>
        cases h
        exact hfresh v hw
      all_goals cases h
  case hook =>
    intro hook h
    rw [hpost] at h
    cases h

/-- A type that comes without a constructor and without hooks keeps its word by its shape. -/
theorem plainType_sound {k : TypeKey} {shape : Shape} (h : shape.Sound r T k) :
    (Arsenal.plainType k shape).Sound r T :=
  Descriptor.sound_of_fresh h rfl rfl fun v hv => by cases hv

theorem TypeTable.sound_of_mem (hplain : ∀ k a, Plain k a → T.atoms k a)
    (h : ∀ e ∈ r.types, e.2.key = e.1 ∧ e.2.Sound r T) : r.Sound T where
  plain := hplain
  key k t hk := (h (k, t) (Assoc.mem_of_get? hk)).1
  types k t hk := (h (k, t) (Assoc.mem_of_get? hk)).2

end

end DefLoad
