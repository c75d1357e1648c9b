import DefLoad.Proofs.Registration
import DefLoad.Types.Core

/-!
The types that every program has. A type that is in the table is not described anew, so the plain
types stay what they were entered as, whatever a program declares and registers after them.
-/

namespace DefLoad

namespace Builder

/-- A builder that selections of schemas and registrations of types have led to. -/
inductive Extends (b : Builder) : Builder → Prop
  | refl : Extends b b
  | schema {c : Builder} (name : String) : Extends b c → Extends b (c.schema name)
  | register {c : Builder} (k : TypeKey) : Extends b c → Extends b (c.register k)

/-- The type is a plain value that goes by its own name and has no hook. -/
structure PlainType (k : TypeKey) (t : Descriptor) : Prop where
  key : t.key = k
  name : t.name = TypeKey.localName k.title
  shape : t.shape = .scalar
  postConstruct : t.postConstruct = none

section

variable {b c : Builder} {k : TypeKey} {t : Descriptor}

theorem insert_get? (b : Builder) (t : Descriptor) (k : TypeKey) (h : t.key ≠ k) :
    Assoc.get? (b.insert t).types k = Assoc.get? b.types k := by
  unfold insert
  split <;> simp [h]

theorem modify_get? (b : Builder) (f : Descriptor → Descriptor) {j k : TypeKey} (h : j ≠ k) :
    Assoc.get? (b.modify j f).types k = Assoc.get? b.types k := by
  unfold modify
  split <;> simp [h]

/-- A registration leaves the types alone that are there. -/
theorem register_get? (h : Assoc.get? b.types k = some t) (j : TypeKey) :
    Assoc.get? (b.register j).types k = some t := by
  apply describe_keeps (P := fun b => Assoc.get? b.types k = some t) (· = k) _ _ _ _ b j h
  · rintro b' j hb rfl
    rw [contains, Assoc.contains, hb]
    rfl
  · intro b t' hb _ hne
    rwa [insert_get? b t' k hne]
  · intro b j f hb _ hne
    rwa [modify_get? b f hne]

theorem registerAll_get? (h : Assoc.get? b.types k = some t) (ks : List TypeKey) :
    Assoc.get? (b.registerAll ks).types k = some t := by
  induction ks generalizing b with
  | nil => exact h
  | cons j ks ih => exact ih (register_get? h j)

theorem Extends.get? (hc : Extends b c) (h : Assoc.get? b.types k = some t) :
    Assoc.get? c.types k = some t := by
  induction hc with
  | refl => exact h
  | schema name _ ih =>
    unfold Builder.schema
    split <;> exact ih
  | register j _ ih => exact register_get? ih j

/-! Plain types are entered as they are declared. -/

theorem insert_new (hnew : b.contains t.key = false) (k : TypeKey) :
    Assoc.get? (b.insert t).types k = if t.key = k then some t else Assoc.get? b.types k := by
  have hnone : Assoc.get? b.types t.key = none := by simpa [contains, Assoc.contains] using hnew
  simp [insert, hnone]

theorem insert_catalog (b : Builder) (t : Descriptor) : (b.insert t).catalog = b.catalog := by
  unfold insert
  split <;> rfl

/-- The descriptor of a plain value that goes by its own name. -/
def plain (b : Builder) (k : TypeKey) (default : Option Value) : Descriptor :=
  { b.named k k.title .scalar with construct := default.map .ok }

/-- The type is declared as a plain value that goes by its own name. -/
def DeclaresPlain (catalog : Catalog) (k : TypeKey) : Prop :=
  (∃ name, k = .named name) ∧ ∃ default, Assoc.get? catalog k = some (.scalar k.title default)

theorem register_plain (hk : DeclaresPlain b.catalog k) (hnew : b.contains k = false) :
    ∃ default, b.register k = b.insert (b.plain k default) := by
  obtain ⟨⟨name, rfl⟩, default, hdeclared⟩ := hk
  have hnot : ¬b.contains (.named name) = true := by simp [hnew]
  refine ⟨default, ?_⟩
  rw [register, budget, TypeKey.size, describe, if_neg hnot, hdeclared]
  rfl

theorem registerAll_plain {ks : List TypeKey} (hnodup : ks.Nodup)
    (hnew : ∀ k ∈ ks, b.contains k = false) (hdeclared : ∀ k ∈ ks, DeclaresPlain b.catalog k) :
    ∀ k ∈ ks, ∃ t, Assoc.get? (b.registerAll ks).types k = some t ∧ PlainType k t := by
  induction ks generalizing b with
  | nil => nofun
  | cons k ks ih =>
    obtain ⟨hnot, hrest⟩ := List.nodup_cons.mp hnodup
    have hfree := hnew k List.mem_cons_self
    obtain ⟨default, hregister⟩ := register_plain (hdeclared k List.mem_cons_self) hfree
    have hget (j : TypeKey) : Assoc.get? (b.register k).types j =
        if k = j then some (b.plain k default) else Assoc.get? b.types j := by
      rw [hregister, insert_new (t := b.plain k default) hfree]
      rfl
    intro k' hk'
    rcases List.mem_cons.mp hk' with rfl | hk'
    · have hfirst : Assoc.get? (b.register k').types k' = some (b.plain k' default) := by
        rw [hget, if_pos rfl]
      exact ⟨_, registerAll_get? hfirst ks, rfl, rfl, rfl, rfl⟩
    · have hcatalog : (b.register k).catalog = b.catalog := by rw [hregister, insert_catalog]
      refine ih hrest (fun j hj => ?_) (fun j hj => ?_) k' hk'
      · have hne : k ≠ j := fun he => hnot (he ▸ hj)
        rw [contains, Assoc.contains, hget, if_neg hne]
        exact hnew j (List.mem_cons_of_mem k hj)
      · rw [hcatalog]
        exact hdeclared j (List.mem_cons_of_mem k hj)

end

end Builder

namespace Core

open Builder (Extends PlainType)

/-- The integer types are plain values in the table of every program. -/
theorem integer_plain {declared : Catalog} {b : Builder} (hb : Extends (builder declared) b)
    {k : TypeKey} {range : Decimal.Range} (hk : (k, range) ∈ integers) :
    ∃ t, b.table.get? k = some t ∧ PlainType k t := by
  let plainTypes : List TypeKey := [.bool] ++ integers.map Prod.fst
  have hmem : k ∈ plainTypes := List.mem_append_right _ (List.mem_map_of_mem hk)
  have hdeclared : ∀ k ∈ plainTypes, Builder.DeclaresPlain (catalog ++ declared) k := by
    intro k hk
    simp only [plainTypes, integers, List.map_cons, List.map_nil, List.cons_append,
      List.nil_append, List.mem_cons, List.not_mem_nil, or_false] at hk
    rcases hk with rfl | rfl | rfl | rfl | rfl | rfl | rfl <;> exact ⟨⟨_, rfl⟩, _, rfl⟩
  obtain ⟨t, ht, hplain⟩ := Builder.registerAll_plain (b := Builder.empty (catalog ++ declared))
    (by decide) (fun _ _ => rfl) hdeclared k hmem
  refine ⟨t, hb.get? ?_, hplain⟩
  have hrest := Builder.registerAll_get? ht
    (floats.map Prod.fst ++ [.string, .node, .typeKey, treeEdit])
  rw [Builder.registerAll, Builder.registerAll, ← List.foldl_append] at hrest
  rwa [builder, Builder.registerAll, order]

end Core

end DefLoad
