import DefLoad.Types.TypeTable
import Mathlib.Data.List.Nodup
import Mathlib.Data.List.Perm.Subperm
import Mathlib.Order.Nat

/-!
Chains of optional types. A chain that does not come back to where it was is no longer than the
table, so a walk along it ends within as many steps as the table has types.
-/

namespace DefLoad.TypeTable

variable {r : TypeTable}

theorem length_le_size {ks : List TypeKey} (hd : ks.Nodup)
    (hk : ∀ k ∈ ks, ∃ t, r.get? k = some t) : ks.length ≤ r.size := by
  have hsub : ks ⊆ Assoc.keys r.types := by
    intro k hmem
    obtain ⟨t, ht⟩ := hk k hmem
    exact List.mem_map_of_mem (f := Prod.fst) (Assoc.mem_of_get? ht)
  have hle := (List.subperm_of_subset hd hsub).length_le
  simpa [Assoc.keys, size] using hle

/-- Induction along keys of falling rank, where every registered key uses up one step. Keys of
different ranks are different, so there are no more steps than registered types. -/
theorem rank_induction (rank : TypeKey → Nat) {P : Nat → TypeKey → Prop}
    (unregistered : ∀ m k, r.get? k = none → P m k)
    (registered : ∀ m k t, r.get? k = some t → (∀ j, rank j < rank k → P m j) → P (m + 1) k)
    (k : TypeKey) : P r.size k := by
  have hwalk (m : Nat) : ∀ (seen : List TypeKey) (k : TypeKey), seen.Nodup →
      (∀ j ∈ seen, ∃ t, r.get? j = some t) → (∀ j ∈ seen, rank k < rank j) →
      seen.length + m = r.size → P m k := by
    induction m with
    | zero =>
      intro seen k hd hseen hrank hlength
      cases hk : r.get? k with
      | none => exact unregistered 0 k hk
      | some t =>
        have hnew : k ∉ seen := fun hmem => Nat.lt_irrefl _ (hrank k hmem)
        have hle : (k :: seen).length ≤ r.size := by
          apply length_le_size (List.nodup_cons.mpr ⟨hnew, hd⟩)
          intro j hj
          rcases List.mem_cons.mp hj with rfl | hj
          · exact ⟨t, hk⟩
          · exact hseen j hj
        simp only [List.length_cons] at hle
        omega
    | succ m ih =>
      intro seen k hd hseen hrank hlength
      cases hk : r.get? k with
      | none => exact unregistered (m + 1) k hk
      | some t =>
        have hnew : k ∉ seen := fun hmem => Nat.lt_irrefl _ (hrank k hmem)
        refine registered m k t hk fun j hj => ?_
        apply ih (k :: seen) j (List.nodup_cons.mpr ⟨hnew, hd⟩)
        · intro i hi
          rcases List.mem_cons.mp hi with rfl | hi
          · exact ⟨t, hk⟩
          · exact hseen i hi
        · intro i hi
          rcases List.mem_cons.mp hi with rfl | hi
          · exact hj
          · exact hj.trans (hrank i hi)
        · simp only [List.length_cons]
          omega
  exact hwalk r.size [] k List.nodup_nil (by simp) (by simp) (by simp)

/-! Optional types. -/

/-- No type is optional without end. -/
def Grounded (r : TypeTable) : Prop :=
  ∃ rank : TypeKey → Nat, ∀ k t inner, r.get? k = some t → t.shape = .optional inner →
    rank inner < rank k

/-- A type with at most so many layers of optional types around it. -/
inductive Layers (r : TypeTable) : Nat → Descriptor → Prop
  | plain {n : Nat} {t : Descriptor} (hplain : ∀ inner, t.shape ≠ .optional inner) : Layers r n t
  | optional {n : Nat} {t : Descriptor} {inner : TypeKey} (hshape : t.shape = .optional inner)
    (h : ∀ t', r.get? inner = some t' → Layers r n t') : Layers r (n + 1) t

theorem Grounded.layers (hr : r.Grounded) {k : TypeKey} {t : Descriptor} (hk : r.get? k = some t) :
    Layers r r.size t := by
  obtain ⟨rank, hrank⟩ := hr
  have hall : ∀ t, r.get? k = some t → Layers r r.size t := by
    apply rank_induction rank (P := fun m k => ∀ t, r.get? k = some t → Layers r m t)
    case unregistered =>
      intro m k hk t ht
      rw [hk] at ht
      cases ht
    case registered =>
      intro m k t hk ih t' ht'
      cases hshape : t'.shape with
      | optional inner => exact .optional hshape (ih inner (hrank k t' inner ht' hshape))
      | _ => exact .plain (by simp [hshape])
  exact hall t hk

/-! Which values fit where. -/

/-- A value of another type fits an optional type when it fits the one inside, and an abstract type
when it is known as one of those that stand in for it. -/
theorem fitsWithin_succ {source target : TypeKey} {n : Nat} (hne : source ≠ target) :
    r.fitsWithin source (n + 1) target = true ↔
      (∃ t inner, r.get? target = some t ∧ t.shape = .optional inner ∧
        r.fitsWithin source n inner = true) ∨
      ∃ t is, r.get? target = some t ∧ t.shape = .abstract is ∧ ∃ i ∈ is, i.key = source := by
  simp only [fitsWithin, if_neg hne]
  cases ht : r.get? target with
  | none => simp
  | some t =>
    simp only [Option.map_some, Option.some.injEq, exists_and_left, exists_eq_left']
    cases hshape : t.shape with
    | optional inner => simp
    | abstract is => simp
    | _ => simp

/-- What fits at all, fits within the steps that a walk is given. -/
theorem fits_of_fitsWithin {source target : TypeKey} {n : Nat}
    (h : r.fitsWithin source n target = true) : r.fits source target = true := by
  classical
  -- the rank of a key is the number of steps that its own walk needs
  let rank (k : TypeKey) : Nat :=
    if h : ∃ n, r.fitsWithin source n k = true then Nat.find h else 0
  have hrank {k inner : TypeKey} {t : Descriptor} (hk : r.get? k = some t)
      (hshape : t.shape = .optional inner) (hne : source ≠ k)
      (h : ∃ n, r.fitsWithin source n k = true) :
      (∃ n, r.fitsWithin source n inner = true) ∧ rank inner < rank k := by
    have hfound := Nat.find_spec h
    have hleast : rank k = Nat.find h := dif_pos h
    cases hn : Nat.find h with
    | zero =>
      rw [hn] at hfound
      simp [fitsWithin, hne] at hfound
    | succ n =>
      rw [hn, fitsWithin_succ hne] at hfound
      rcases hfound with ⟨t', inner', ht', hs', hin⟩ | ⟨t', is, ht', hs', -⟩
      · rw [hk] at ht'
        cases ht'
        rw [hshape] at hs'
        cases hs'
        have hle : rank inner ≤ n := by
          have hinner : rank inner = Nat.find ⟨n, hin⟩ := dif_pos ⟨n, hin⟩
          rw [hinner]
          exact Nat.find_le hin
        exact ⟨⟨n, hin⟩, by omega⟩
      · rw [hk] at ht'
        cases ht'
        simp [hshape] at hs'
  have hall : (∃ n, r.fitsWithin source n target = true) →
      r.fitsWithin source (r.size + 1) target = true := by
    apply rank_induction rank (P := fun m k => (∃ n, r.fitsWithin source n k = true) →
      r.fitsWithin source (m + 1) k = true)
    case unregistered =>
      intro m k hk hex
      obtain ⟨n, hn⟩ := hex
      by_cases hne : source = k
      · simp [fitsWithin, hne]
      · cases n with
        | zero => simp [fitsWithin, hne] at hn
        | succ n =>
          rw [fitsWithin_succ hne, hk] at hn
          simp at hn
    case registered =>
      intro m k t hk ih hex
      by_cases hne : source = k
      · simp [fitsWithin, hne]
      · rw [fitsWithin_succ hne]
        obtain ⟨n, hn⟩ := hex
        cases n with
        | zero => simp [fitsWithin, hne] at hn
        | succ n =>
          rcases (fitsWithin_succ hne).mp hn with ⟨t', inner, ht', hs', hin⟩ | hstand
          · obtain ⟨hex', hlt⟩ := hrank ht' hs' hne ⟨n + 1, hn⟩
            exact .inl ⟨t', inner, ht', hs', ih inner hlt hex'⟩
          · exact .inr hstand
  exact hall ⟨n, h⟩

end DefLoad.TypeTable
