import DefLoad.Selector.Select
import Mathlib.Data.Set.Card

/-!
Document order: the lexicographic order of paths, with the document before all nodes. Sorting and
dropping repetitions lists a set of contexts in this order, and in such a list the place of a
context is the number of contexts up to it.
-/

namespace DefLoad.Selector

theorem pathLe_refl (p : List Nat) : pathLe p p = true := by
  induction p with
  | nil => rfl
  | cons i p ih => simp [pathLe, ih]

theorem pathLe_trans {p q r : List Nat} (h : pathLe p q = true) (h' : pathLe q r = true) :
    pathLe p r = true := by
  induction p generalizing q r with
  | nil => rfl
  | cons i p ih =>
    cases q with
    | nil => cases h
    | cons j q =>
      cases r with
      | nil => cases h'
      | cons k r =>
        simp only [pathLe, Bool.or_eq_true, Bool.and_eq_true, decide_eq_true_eq, beq_iff_eq] at *
        rcases h with hij | ⟨rfl, h⟩
        · left
          omega
        · exact h'.imp id fun hjk => ⟨hjk.1, ih h hjk.2⟩

theorem pathLe_total (p q : List Nat) : pathLe p q = true ∨ pathLe q p = true := by
  induction p generalizing q with
  | nil => exact .inl rfl
  | cons i p ih =>
    cases q with
    | nil => exact .inr rfl
    | cons j q =>
      simp only [pathLe, Bool.or_eq_true, Bool.and_eq_true, decide_eq_true_eq, beq_iff_eq]
      rcases Nat.lt_trichotomy i j with hlt | rfl | hgt
      · exact .inl (.inl hlt)
      · exact (ih q).imp (fun h => .inr ⟨rfl, h⟩) fun h => .inr ⟨rfl, h⟩
      · exact .inr (.inl hgt)

theorem pathLe_antisymm {p q : List Nat} (h : pathLe p q = true) (h' : pathLe q p = true) :
    p = q := by
  induction p generalizing q with
  | nil =>
    cases q with
    | nil => rfl
    | cons j q => cases h'
  | cons i p ih =>
    cases q with
    | nil => cases h
    | cons j q =>
      simp only [pathLe, Bool.or_eq_true, Bool.and_eq_true, decide_eq_true_eq, beq_iff_eq] at h h'
      have hij : i = j := by omega
      subst hij
      have hpq : p = q := ih (by simpa using h) (by simpa using h')
      rw [hpq]

theorem pathLe_append (p q : List Nat) : pathLe p (p ++ q) = true := by
  induction p with
  | nil => cases q <;> rfl
  | cons i p ih => simp [pathLe, ih]

/-- The path comes before the other one in the document. -/
def PathBefore (p q : List Nat) : Prop := pathLe p q = true ∧ p ≠ q

theorem PathBefore.not_le {p q : List Nat} (h : PathBefore p q) : ¬pathLe q p = true :=
  fun hle => h.2 (pathLe_antisymm h.1 hle)

/-- What comes before a path is not below it. -/
theorem PathBefore.ne_append {p q : List Nat} (h : PathBefore p q) (r : List Nat) : p ≠ q ++ r := by
  rintro rfl
  exact h.not_le (pathLe_append q r)

/-- Paths are compared index by index, and a path comes before the longer paths that begin with
it. -/
theorem pathBefore_iff_lex {p q : List Nat} : PathBefore p q ↔ List.Lex (· < ·) p q := by
  induction p generalizing q with
  | nil =>
    cases q with
    | nil => simp [PathBefore, pathLe]
    | cons j q => simp [PathBefore, pathLe]
  | cons i p ih =>
    cases q with
    | nil => simp [PathBefore, pathLe]
    | cons j q =>
      rw [List.cons_lex_cons_iff, ← ih]
      simp only [PathBefore, pathLe, Bool.or_eq_true, Bool.and_eq_true, decide_eq_true_eq, beq_iff_eq,
        ne_eq, List.cons.injEq, not_and]
      constructor
      · rintro ⟨hlt | ⟨rfl, hle⟩, hne⟩
        · exact .inl hlt
        · exact .inr ⟨rfl, hle, hne rfl⟩
      · rintro (hlt | ⟨rfl, hle, hne⟩)
        · exact ⟨.inl hlt, fun he => absurd he (Nat.ne_of_lt hlt)⟩
        · exact ⟨.inr ⟨rfl, hle⟩, fun _ => hne⟩

namespace Context

theorem le_refl (c : Context) : c.le c = true := by
  cases c with
  | document => rfl
  | node p => exact pathLe_refl p

theorem le_trans {c d e : Context} (h : c.le d = true) (h' : d.le e = true) : c.le e = true := by
  cases c with
  | document => rfl
  | node p =>
    cases d with
    | document => cases h
    | node q =>
      cases e with
      | document => cases h'
      | node r => exact pathLe_trans (q := q) h h'

theorem le_total (c d : Context) : (c.le d || d.le c) = true := by
  cases c with
  | document => rfl
  | node p =>
    cases d with
    | document => rfl
    | node q =>
      rw [Bool.or_eq_true]
      exact pathLe_total p q

theorem le_antisymm {c d : Context} (h : c.le d = true) (h' : d.le c = true) : c = d := by
  cases c with
  | document =>
    cases d with
    | document => rfl
    | node q => cases h'
  | node p =>
    cases d with
    | document => cases h
    | node q => rw [pathLe_antisymm h h']

/-- The first context stands before the second one in the document. -/
def Before (c d : Context) : Prop := c.le d = true ∧ c ≠ d

theorem Before.not_le {c d : Context} (h : c.Before d) : ¬d.le c = true :=
  fun hle => h.2 (le_antisymm h.1 hle)

theorem before_node {p q : List Nat} : (node p).Before (node q) ↔ PathBefore p q := by
  rw [PathBefore, Before, ne_eq, node.injEq]
  rfl

end Context

open Context (Before)

/-! Lists in document order. -/

theorem mem_dropRepeats {cs : List Context} {d : Context} : d ∈ dropRepeats cs ↔ d ∈ cs := by
  fun_induction dropRepeats cs with
  | case1 => rfl
  | case2 c => rfl
  | case3 c cs ih => simp [ih]
  | case4 c e cs hne ih => simp [ih]

theorem dropRepeats_before {cs : List Context} (h : cs.Pairwise fun c d => c.le d = true) :
    (dropRepeats cs).Pairwise Before := by
  fun_induction dropRepeats cs with
  | case1 => exact .nil
  | case2 c => exact List.pairwise_singleton _ c
  | case3 c cs ih => exact ih h.of_cons
  | case4 c e cs hne ih =>
    refine List.pairwise_cons.mpr ⟨fun d hd => ?_, ih h.of_cons⟩
    have hmem : d ∈ e :: cs := mem_dropRepeats.mp hd
    refine ⟨List.rel_of_pairwise_cons h hmem, ?_⟩
    rintro rfl
    -- a repetition of `c` further on would stand after `e`, which stands after `c`
    have hce : c.le e = true := List.rel_of_pairwise_cons h List.mem_cons_self
    have hec : e.le c = true := by
      rcases List.mem_cons.mp hmem with rfl | hmem
      · exact Context.le_refl _
      · exact List.rel_of_pairwise_cons h.of_cons hmem
    exact hne (Context.le_antisymm hce hec)

theorem mem_inOrder {cs : List Context} {d : Context} : d ∈ inOrder cs ↔ d ∈ cs := by
  rw [inOrder, mem_dropRepeats, List.mem_mergeSort]

theorem inOrder_before (cs : List Context) : (inOrder cs).Pairwise Before := by
  have htrans (c d e : Context) (h : c.le d = true) (h' : d.le e = true) : c.le e = true :=
    Context.le_trans h h'
  exact dropRepeats_before (List.pairwise_mergeSort htrans Context.le_total cs)

/-! Places. -/

/-- The place of a context in a set of contexts, counted from one in document order. -/
noncomputable def place (S : Set Context) (d : Context) : Nat := {e ∈ S | e.le d = true}.ncard

theorem place_eq {cs : List Context} (h : cs.Pairwise Before) {i : Nat} {d : Context}
    (hd : cs[i]? = some d) : place {e | e ∈ cs} d = i + 1 := by
  induction cs generalizing i with
  | nil => cases hd
  | cons c cs ih =>
    cases i with
    | zero =>
      obtain rfl : c = d := Option.some.inj hd
      have hone : {e | e ∈ c :: cs ∧ e.le c = true} = {c} := by
        ext e
        simp only [Set.mem_ofPred_eq, List.mem_cons, Set.mem_singleton_iff]
        constructor
        · rintro ⟨rfl | he, hle⟩
          · rfl
          · exact absurd hle (List.rel_of_pairwise_cons h he).not_le
        · rintro rfl
          exact ⟨.inl rfl, Context.le_refl e⟩
      show {e | e ∈ c :: cs ∧ e.le c = true}.ncard = 1
      rw [hone, Set.ncard_singleton]
    | succ i =>
      have hd' : cs[i]? = some d := hd
      have hcd : c.le d = true := (List.rel_of_pairwise_cons h (List.mem_of_getElem? hd')).1
      have hnot : c ∉ {e | e ∈ cs ∧ e.le d = true} := fun hc =>
        (List.rel_of_pairwise_cons h hc.1).2 rfl
      have hmore : {e | e ∈ c :: cs ∧ e.le d = true} =
          insert c {e | e ∈ cs ∧ e.le d = true} := by
        ext e
        simp only [Set.mem_ofPred_eq, List.mem_cons, Set.mem_insert_iff]
        constructor
        · rintro ⟨rfl | he, hle⟩
          · exact .inl rfl
          · exact .inr ⟨he, hle⟩
        · rintro (rfl | ⟨he, hle⟩)
          · exact ⟨.inl rfl, hcd⟩
          · exact ⟨.inr he, hle⟩
      have hfinite : {e | e ∈ cs ∧ e.le d = true}.Finite :=
        (List.finite_toSet cs).subset fun e he => he.1
      have hrest : {e | e ∈ cs ∧ e.le d = true}.ncard = i + 1 := ih h.of_cons hd'
      show {e | e ∈ c :: cs ∧ e.le d = true}.ncard = i + 1 + 1
      rw [hmore, Set.ncard_insert_of_notMem hnot hfinite, hrest]

end DefLoad.Selector
