import DefLoad.Types.Builder
import Mathlib.Data.List.Nodup

/-!
What a table of types is like however it was built: every type is listed in the schema that it
belongs to, and no two schemas share a name.
-/

namespace DefLoad.Builder

/-- A builder as selections of schemas and registrations of types leave it. -/
inductive Reachable (catalog : Catalog) : Builder → Prop
  | empty : Reachable catalog (Builder.empty catalog)
  | schema {b : Builder} (name : String) : Reachable catalog b → Reachable catalog (b.schema name)
  | register {b : Builder} (k : TypeKey) : Reachable catalog b → Reachable catalog (b.register k)

/-- Types stand in the schema that they belong to, under names of schemas that are all different. -/
structure Filed (b : Builder) : Prop where
  current_lt : b.current < b.schemas.length
  distinct : (b.schemas.map Schema.name).Nodup
  listed : ∀ k t, Assoc.get? b.types k = some t →
    ∃ s, b.schemas[t.schema]? = some s ∧ k ∈ s.types

/-- What inserting and filling in descriptors keeps, describing a type keeps. Neither is done to a
type that is there when its description begins. -/
theorem describe_keeps {P : Builder → Prop} (fixed : TypeKey → Prop)
    (hfixed : ∀ b k, P b → fixed k → b.contains k = true)
    (hinsert : ∀ b t, P b → t.schema = b.current ∨ t.schema = 0 → ¬fixed t.key → P (b.insert t))
    (hmodify : ∀ b k f, P b → (∀ t : Descriptor, (f t).schema = t.schema) → ¬fixed k →
      P (b.modify k f))
    (n : Nat) (b : Builder) (k : TypeKey) (h : P b) : P (describe n b k).1 := by
  induction n generalizing b k with
  | zero => rwa [describe]
  | succ n ih =>
    have hpart (b : Builder) (draft : Draft) (part : Part) (h : P b) :
        P (describe.describePart n b draft part).1 := by
      cases part <;> rw [describe.describePart]
      case member type _ _ _ _ _ => exact ih b type h
      case embed type _ => exact ih b type h
      case base => exact h
    have hparts (parts : List Part) (s : Builder × Draft) (h : P s.1) :
        P (parts.foldl (fun s part => describe.describePart n s.1 s.2 part) s).1 := by
      induction parts generalizing s with
      | nil => exact h
      | cons part parts ih => exact ih _ (hpart s.1 s.2 part h)
    have hstandIns (ks : List TypeKey) (s : Builder × List StandIn) (h : P s.1) :
        P (ks.foldl
          (fun s k => ((describe n s.1 k).1, s.2 ++ [⟨(describe n s.1 k).2, k⟩])) s).1 := by
      induction ks generalizing s with
      | nil => exact h
      | cons k ks ihs => exact ihs _ (ih s.1 k h)
    by_cases hknown : b.contains k = true
    · cases k <;> rw [describe, if_pos hknown] <;> exact h
    · have hfree : ¬fixed k := fun hk => hknown (hfixed b k h hk)
      cases k with
      | named name =>
        rw [describe, if_neg hknown]
        split
        · exact h
        · exact h
        · exact ih b _ h
        · exact hinsert b _ h (.inl rfl) hfree
        · exact hinsert b _ h (.inl rfl) hfree
        · exact hmodify _ _ _ (hparts _ _ (hinsert b _ h (.inl rfl) hfree)) (fun _ => rfl) hfree
        · exact hmodify _ _ _ (hstandIns _ _ (hinsert b _ h (.inl rfl) hfree)) (fun _ => rfl) hfree
      | optional inner =>
        rw [describe, if_neg hknown]
        exact hinsert _ _ (ih b inner h) (.inr rfl) hfree
      | list element =>
        rw [describe, if_neg hknown]
        exact hinsert _ _ (ih b element h) (.inr rfl) hfree
      | map kind key value =>
        rw [describe, if_neg hknown]
        exact hinsert _ _ (ih _ value (ih b key h)) (.inr rfl) hfree
      | ref target =>
        rw [describe, if_neg hknown]
        exact hinsert b _ h (.inr rfl) hfree

theorem map_name_modify (ss : List Schema) (i : Nat) (k : TypeKey) :
    (ss.modify i fun s => { s with types := s.types ++ [k] }).map Schema.name =
      ss.map Schema.name := by
  apply List.ext_getElem?
  intro j
  simp only [List.getElem?_map, List.getElem?_modify]
  cases ss[j]? <;> split <;> rfl

namespace Filed

variable {b : Builder}

theorem empty (catalog : Catalog) : Filed (Builder.empty catalog) where
  current_lt := Nat.zero_lt_one
  distinct := List.nodup_singleton core
  listed := fun k t h => by simp [Builder.empty, Assoc.get?] at h

theorem schema (h : Filed b) (name : String) : Filed (b.schema name) := by
  unfold Builder.schema
  split
  case h_1 i hi =>
    exact ⟨(List.findIdx?_eq_some_iff_getElem.mp hi).1, h.distinct, h.listed⟩
  case h_2 hnone =>
    have hnew : name ∉ b.schemas.map Schema.name := by
      simpa [List.findIdx?_eq_none_iff] using hnone
    refine ⟨by simp, ?_, ?_⟩
    · rw [List.map_append, List.map_singleton]
      exact h.distinct.append (List.nodup_singleton _) (by simpa using hnew)
    · intro k t ht
      obtain ⟨s, hs, hk⟩ := h.listed k t ht
      exact ⟨s, by rw [List.getElem?_append_left (List.getElem?_eq_some_iff.mp hs).1, hs], hk⟩

theorem insert (h : Filed b) {t : Descriptor} (ht : t.schema < b.schemas.length) :
    Filed (b.insert t) := by
  unfold Builder.insert
  split
  case h_1 old hold =>
    refine ⟨h.current_lt, h.distinct, fun k d hd => ?_⟩
    rw [Assoc.get?_set] at hd
    split at hd
    case isTrue hk =>
      rw [← beq_iff_eq.mp hk, ← Option.some.inj hd]
      exact h.listed t.key old hold
    case isFalse => exact h.listed k d hd
  case h_2 hnone =>
    refine ⟨by simpa using h.current_lt, by simpa only [map_name_modify] using h.distinct,
      fun k d hd => ?_⟩
    rw [Assoc.get?_set] at hd
    simp only [List.getElem?_modify]
    split at hd
    case isTrue hk =>
      -- a new type stands last in its schema
      rw [← beq_iff_eq.mp hk, ← Option.some.inj hd, List.getElem?_eq_getElem ht]
      exact ⟨_, congrArg some (if_pos rfl), List.mem_append_right _ (List.mem_singleton_self _)⟩
    case isFalse =>
      obtain ⟨s, hs, hmem⟩ := h.listed k d hd
      rw [hs]
      split
      · exact ⟨_, rfl, List.mem_append_left _ hmem⟩
      · exact ⟨s, rfl, hmem⟩

theorem modify (h : Filed b) (k : TypeKey) {f : Descriptor → Descriptor}
    (hf : ∀ t, (f t).schema = t.schema) : Filed (b.modify k f) := by
  unfold Builder.modify
  split
  case h_2 => exact h
  case h_1 old hold =>
    refine ⟨h.current_lt, h.distinct, fun j d hd => ?_⟩
    rw [Assoc.get?_set] at hd
    split at hd
    case isTrue hk =>
      rw [← beq_iff_eq.mp hk, ← Option.some.inj hd, hf]
      exact h.listed k old hold
    case isFalse => exact h.listed j d hd

theorem register (h : Filed b) (k : TypeKey) : Filed (b.register k) := by
  apply describe_keeps (fun _ => False) _ _ _ _ b k h
  · exact fun b k h hk => hk.elim
  · rintro b t h (ht | ht) -
    · exact h.insert (ht ▸ h.current_lt)
    · exact h.insert (ht ▸ Nat.zero_lt_of_lt h.current_lt)
  · exact fun b k f h hf _ => h.modify k hf

end Filed

theorem Reachable.filed {catalog : Catalog} {b : Builder} (h : Reachable catalog b) : Filed b := by
  induction h with
  | empty => exact .empty catalog
  | schema name _ ih => exact ih.schema name
  | register k _ ih => exact ih.register k

end DefLoad.Builder
