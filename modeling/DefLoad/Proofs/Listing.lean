import DefLoad.Proofs.Accounting
import DefLoad.Proofs.StandardTypes
import Mathlib.Data.List.Perm.Basic

/-!
A table that is consistent: every type stands once, in the schema that it belongs to and in no
other, containers in the first one, and whatever a type uses is in the table. Entering a type and
filling in what it uses keep a builder so.
-/

namespace DefLoad

/-- Lists, maps, optional types and references, which have no names of their own. -/
def Shape.isContainer : Shape → Bool
  | .optional _ | .list _ | .map _ _ | .ref _ => true
  | _ => false

def TypeKey.isNamed : TypeKey → Bool
  | .named _ => true
  | _ => false

namespace Descriptor

def standIns (t : Descriptor) : List StandIn :=
  match t.shape with
  | .abstract is => is
  | _ => []

/-- The types of which the values of a type are made, and those that stand in for it. -/
def uses (t : Descriptor) : List TypeKey := t.parts ++ t.standIns.map StandIn.key

theorem uses_class {t : Descriptor} {ms : List Member} (h : t.shape = .class ms) :
    t.uses = ms.map Member.type := by
  simp [uses, parts, standIns, h]

theorem uses_abstract {t : Descriptor} {is : List StandIn} (h : t.shape = .abstract is) :
    t.uses = is.map StandIn.key := by
  simp [uses, parts, standIns, h]

end Descriptor

namespace TypeTable

structure Consistent (r : TypeTable) : Prop where
  distinct : (r.schemas.map Schema.name).Nodup
  keyed : ∀ k t, r.get? k = some t → t.key = k
  /-- Every type has a schema, which lists it once, and no other schema lists it. -/
  listed : ∀ k t, r.get? k = some t → t.schema < r.schemas.length ∧
    ∀ i s, r.schemas[i]? = some s → s.types.count k = if i = t.schema then 1 else 0
  registered : ∀ s ∈ r.schemas, ∀ k ∈ s.types, ∃ t, r.get? k = some t
  size : r.size = r.listed.length
  core : r.schemas[0]?.map Schema.name = some Builder.core
  /-- The types without a name of their own are the containers, which stand in the first schema. -/
  containers : ∀ k t, r.get? k = some t →
    t.shape.isContainer = !k.isNamed ∧ (t.shape.isContainer = true → t.schema = 0)
  closed : ∀ k t, r.get? k = some t → ∀ j ∈ t.uses, ∃ u, r.get? j = some u

end TypeTable

namespace Builder

/-- A descriptor as it stands in the table under its key. -/
structure Belongs (b : Builder) (k : TypeKey) (t : Descriptor) : Prop where
  key : t.key = k
  container : t.shape.isContainer = !k.isNamed
  inCore : k.isNamed = false → t.schema = 0
  uses : ∀ j ∈ t.uses, b.contains j = true

/-- What holds of a builder at all times, also while a type is being described. -/
structure Kept (b : Builder) : Prop extends Filed b where
  core : (b.schemas.map Schema.name)[0]? = some Builder.core
  keys : (Assoc.keys b.types).Nodup
  belongs : ∀ k t, Assoc.get? b.types k = some t → b.Belongs k t
  once : ∀ s ∈ b.schemas, s.types.Nodup
  owned : ∀ i s, b.schemas[i]? = some s → ∀ k ∈ s.types,
    ∃ t, Assoc.get? b.types k = some t ∧ t.schema = i

variable {b : Builder} {k : TypeKey} {t : Descriptor}

theorem contains_iff : b.contains k = true ↔ ∃ t, Assoc.get? b.types k = some t :=
  Option.isSome_iff_exists

theorem contains_insert (b : Builder) (t : Descriptor) (k : TypeKey) :
    (b.insert t).contains k = (t.key == k || b.contains k) := by
  unfold insert
  split <;> by_cases hk : t.key = k <;> simp [contains, Assoc.contains, hk]

theorem contains_insert_self (b : Builder) (t : Descriptor) :
    (b.insert t).contains t.key = true := by
  rw [contains_insert, beq_self_eq_true, Bool.true_or]

theorem contains_insert_mono (t : Descriptor) (h : b.contains k = true) :
    (b.insert t).contains k = true := by
  rw [contains_insert, h, Bool.or_true]

theorem contains_modify (b : Builder) (j : TypeKey) (f : Descriptor → Descriptor) (k : TypeKey) :
    (b.modify j f).contains k = b.contains k := by
  unfold modify
  split
  case h_1 t ht => by_cases hk : j = k <;> simp_all [contains, Assoc.contains]
  case h_2 => rfl

/-- Entering a type that is there already replaces its descriptor, all but the schema. -/
theorem insert_of_contains (h : b.contains t.key = true) :
    b.insert t = b.modify t.key fun old => { t with schema := old.schema } := by
  obtain ⟨old, hold⟩ := contains_iff.mp h
  rw [insert, modify, hold]

theorem Belongs.mono {b' : Builder} (h : b.Belongs k t)
    (hkeeps : ∀ j, b.contains j = true → b'.contains j = true) : b'.Belongs k t :=
  ⟨h.key, h.container, h.inCore, fun j hj => hkeeps j (h.uses j hj)⟩

/-- What a schema is like when a type that was not there yet has entered. -/
theorem schema_of_insert (hnew : b.contains t.key = false) {i : Nat} {s : Schema}
    (hs : (b.insert t).schemas[i]? = some s) :
    ∃ old, b.schemas[i]? = some old ∧
      s.types = if t.schema = i then old.types ++ [t.key] else old.types := by
  have hnone : Assoc.get? b.types t.key = none := by simpa [contains, Assoc.contains] using hnew
  rw [insert, hnone, List.getElem?_modify] at hs
  obtain ⟨old, hold, rfl⟩ := Option.map_eq_some_iff.mp hs
  refine ⟨old, hold, ?_⟩
  split <;> rfl

theorem map_name_insert (b : Builder) (t : Descriptor) :
    (b.insert t).schemas.map Schema.name = b.schemas.map Schema.name := by
  unfold insert
  split
  · rfl
  · exact map_name_modify b.schemas t.schema t.key

theorem keys_insert_nodup (h : (Assoc.keys b.types).Nodup) (t : Descriptor) :
    (Assoc.keys (b.insert t).types).Nodup := by
  unfold insert
  split <;> exact Assoc.nodup_keys_set h t.key _

namespace Kept

theorem empty (catalog : Catalog) : Kept (Builder.empty catalog) where
  toFiled := .empty catalog
  core := rfl
  keys := List.nodup_nil
  belongs := fun k t h => by simp [Builder.empty, Assoc.get?] at h
  once := by simp [Builder.empty]
  owned := by
    intro i s hs k hk
    rw [List.mem_singleton.mp (List.mem_of_getElem? hs)] at hk
    cases hk

theorem schema (h : Kept b) (name : String) : Kept (b.schema name) := by
  have hfiled := h.toFiled.schema name
  have hbelongs (c : Builder) (hc : c.types = b.types) (k : TypeKey) (t : Descriptor)
      (ht : Assoc.get? c.types k = some t) : c.Belongs k t :=
    (h.belongs k t (hc ▸ ht)).mono fun j hj => by rwa [contains, hc]
  unfold Builder.schema at hfiled ⊢
  split at hfiled
  case h_1 i hi => exact ⟨hfiled, h.core, h.keys, hbelongs _ rfl, h.once, h.owned⟩
  case h_2 hnone =>
    refine ⟨hfiled, ?_, h.keys, hbelongs _ rfl, ?_, ?_⟩
    · rw [List.map_append, List.getElem?_append_left (List.getElem?_eq_some_iff.mp h.core).1]
      exact h.core
    · intro s hs
      rcases List.mem_append.mp hs with hs | hs
      · exact h.once s hs
      · rw [List.mem_singleton.mp hs]
        exact List.nodup_nil
    · intro i s hs k hk
      rcases Nat.lt_or_ge i b.schemas.length with hi | hi
      · rw [List.getElem?_append_left hi] at hs
        exact h.owned i s hs k hk
      · -- the schema that is new lists nothing
        rw [List.getElem?_append_right hi] at hs
        rw [List.mem_singleton.mp (List.mem_of_getElem? hs)] at hk
        cases hk

theorem not_mem_of_new (h : Kept b) (hnew : b.contains k = false) {s : Schema}
    (hs : s ∈ b.schemas) : k ∉ s.types := by
  intro hk
  obtain ⟨i, hi⟩ := List.mem_iff_getElem?.mp hs
  obtain ⟨t, ht, -⟩ := h.owned i s hi k hk
  rw [contains_iff.mpr ⟨t, ht⟩] at hnew
  cases hnew

/-- A type that is not there yet enters as the last one of its schema. -/
theorem enter (h : Kept b) (hnew : b.contains t.key = false) (hs : t.schema < b.schemas.length)
    (ht : b.Belongs t.key t) : Kept (b.insert t) := by
  have hkeeps : ∀ j, b.contains j = true → (b.insert t).contains j = true :=
    fun _ hj => contains_insert_mono t hj
  refine ⟨h.toFiled.insert hs, ?_, keys_insert_nodup h.keys t, ?_, ?_, ?_⟩
  · rw [map_name_insert]
    exact h.core
  · intro k u hu
    rw [insert_new hnew] at hu
    split at hu
    case isTrue hk =>
      cases hu
      exact hk ▸ ht.mono hkeeps
    case isFalse => exact (h.belongs k u hu).mono hkeeps
  · intro s hs
    obtain ⟨i, hi⟩ := List.mem_iff_getElem?.mp hs
    obtain ⟨old, hold, htypes⟩ := schema_of_insert hnew hi
    have hmem := List.mem_of_getElem? hold
    rw [htypes]
    split
    · exact List.concat_eq_append ▸ (h.once old hmem).concat (h.not_mem_of_new hnew hmem)
    · exact h.once old hmem
  · intro i s hs k hk
    obtain ⟨old, hold, htypes⟩ := schema_of_insert hnew hs
    have hkept (hk : k ∈ old.types) : ∃ u, Assoc.get? (b.insert t).types k = some u ∧
        u.schema = i := by
      have hne : t.key ≠ k := by
        rintro rfl
        exact h.not_mem_of_new hnew (List.mem_of_getElem? hold) hk
      rw [insert_new hnew, if_neg hne]
      exact h.owned i old hold k hk
    rw [htypes] at hk
    split at hk
    case isTrue hi =>
      rcases List.mem_append.mp hk with hk | hk
      · exact hkept hk
      · rw [insert_new hnew, if_pos (List.mem_singleton.mp hk).symm]
        exact ⟨t, rfl, hi⟩
    case isFalse => exact hkept hk

/-- A type is given another descriptor and stays in its schema. -/
theorem modify (h : Kept b) {f : Descriptor → Descriptor} (hf : ∀ t, (f t).schema = t.schema)
    (ht : ∀ t, Assoc.get? b.types k = some t → b.Belongs k (f t)) : Kept (b.modify k f) := by
  have hfiled := h.toFiled.modify k hf
  have hkeeps : ∀ j, b.contains j = true → (b.modify k f).contains j = true := by
    intro j hj
    rwa [contains_modify]
  unfold Builder.modify at hfiled hkeeps ⊢
  split
  case h_2 => exact h
  case h_1 old hold =>
    rw [hold] at hfiled hkeeps
    refine ⟨hfiled, h.core, Assoc.nodup_keys_set h.keys k (f old), ?_, h.once, ?_⟩
    · intro j u hu
      rw [Assoc.get?_set] at hu
      split at hu
      case isTrue hk =>
        cases hu
        exact beq_iff_eq.mp hk ▸ (ht old hold).mono hkeeps
      case isFalse => exact (h.belongs j u hu).mono hkeeps
    · intro i s hs j hj
      obtain ⟨u, hu, hi⟩ := h.owned i s hs j hj
      rw [Assoc.get?_set]
      split
      case isTrue hk =>
        rw [← beq_iff_eq.mp hk, hold] at hu
        cases hu
        exact ⟨f old, rfl, (hf old).trans hi⟩
      case isFalse => exact ⟨u, hu, hi⟩

/-- A container may have entered already while its parts were described. -/
theorem insertContainer (h : Kept b) (hs : t.schema = 0) (ht : b.Belongs t.key t) :
    Kept (b.insert t) := by
  cases hknown : b.contains t.key with
  | false => exact h.enter hknown (hs ▸ Nat.zero_lt_of_lt h.current_lt) ht
  | true =>
    rw [insert_of_contains hknown]
    refine h.modify (fun _ => rfl) fun old hold => ?_
    exact ⟨ht.key, ht.container, (h.belongs t.key old hold).inCore, ht.uses⟩

theorem mem_types_iff (h : Kept b) {i : Nat} {s : Schema} (hs : b.schemas[i]? = some s)
    (ht : Assoc.get? b.types k = some t) : k ∈ s.types ↔ i = t.schema := by
  constructor
  · intro hk
    obtain ⟨u, hu, hi⟩ := h.owned i s hs k hk
    rw [ht] at hu
    cases hu
    exact hi.symm
  · rintro rfl
    obtain ⟨s', hs', hk⟩ := h.listed k t ht
    rw [hs] at hs'
    cases hs'
    exact hk

theorem listed_nodup (h : Kept b) : b.table.listed.Nodup := by
  refine List.nodup_flatMap.mpr ⟨h.once, List.pairwise_iff_getElem.mpr ?_⟩
  intro i j hi hj hlt k hki hkj
  obtain ⟨t, ht, rfl⟩ := h.owned i _ (List.getElem?_eq_getElem hi) k hki
  have hji := (h.mem_types_iff (List.getElem?_eq_getElem hj) ht).mp hkj
  omega

theorem mem_listed_iff (h : Kept b) : k ∈ b.table.listed ↔ k ∈ Assoc.keys b.types := by
  rw [TypeTable.listed, List.mem_flatMap]
  constructor
  · rintro ⟨s, hs, hk⟩
    obtain ⟨i, hi⟩ := List.mem_iff_getElem?.mp hs
    obtain ⟨t, ht, -⟩ := h.owned i s hi k hk
    exact List.mem_map_of_mem (f := Prod.fst) (Assoc.mem_of_get? ht)
  · intro hk
    obtain ⟨⟨j, t⟩, hmem, rfl⟩ := List.mem_map.mp hk
    obtain ⟨s, hs, hk⟩ := h.listed j t (Assoc.get?_of_mem h.keys hmem)
    exact ⟨s, List.mem_of_getElem? hs, hk⟩

theorem consistent (h : Kept b) : b.table.Consistent where
  distinct := h.distinct
  keyed := fun k t ht => (h.belongs k t ht).key
  listed := by
    intro k t ht
    obtain ⟨s, hs, -⟩ := h.listed k t ht
    refine ⟨(List.getElem?_eq_some_iff.mp hs).1, fun i s hs => ?_⟩
    rw [(h.once s (List.mem_of_getElem? hs)).count]
    exact if_congr (h.mem_types_iff hs ht) rfl rfl
  registered := by
    intro s hs k hk
    obtain ⟨i, hi⟩ := List.mem_iff_getElem?.mp hs
    obtain ⟨t, ht, -⟩ := h.owned i s hi k hk
    exact ⟨t, ht⟩
  size := by
    have hperm := (List.perm_ext_iff_of_nodup h.listed_nodup h.keys).mpr fun k => h.mem_listed_iff
    have hlength := hperm.length_eq
    rw [Assoc.keys, List.length_map] at hlength
    exact hlength.symm
  core := by
    rw [← List.getElem?_map]
    exact h.core
  containers := by
    intro k t ht
    obtain ⟨-, hcontainer, hcore, -⟩ := h.belongs k t ht
    refine ⟨hcontainer, fun hshape => hcore ?_⟩
    rwa [hcontainer, Bool.not_eq_true'] at hshape
  closed := fun k t ht j hj => contains_iff.mp ((h.belongs k t ht).uses j hj)

end Kept

end Builder

end DefLoad
