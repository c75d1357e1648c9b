import DefLoad.Types.TypeTable
import Mathlib.Algebra.GroupWithZero.Nat
import Mathlib.Data.List.Nodup
import Mathlib.Logic.Relation

/-!
Both searches over declared bases find what the declarations say: a type is a subtype of all that it
reaches through bases, and its supertypes are the others among them, each listed once. The table may
declare bases in a circle and name bases that it does not hold.
-/

namespace DefLoad.TypeTable

open Relation (ReflTransGen)

variable (r : TypeTable)

def DeclaresBase (child parent : TypeKey) : Prop := parent ∈ r.bases child

/-- The number of bases that types outside of `seen` declare. -/
def unseenBases (seen : List TypeKey) : Nat :=
  ((r.types.filter fun e => !decide (e.1 ∈ seen)).map (·.2.bases.length)).sum

theorem baseCount_eq : r.baseCount = r.unseenBases [] := by
  have hfold (m : Assoc TypeKey Descriptor) (n : Nat) :
      m.foldl (fun n e => n + e.2.bases.length) n = n + (m.map (·.2.bases.length)).sum := by
    induction m generalizing n with
    | nil => simp
    | cons e m ih => simp [ih, Nat.add_assoc]
  simp [baseCount, unseenBases, hfold]

/-- Looking at a new type pays for the bases that it adds. -/
theorem unseenBases_cons {k : TypeKey} {seen : List TypeKey} (h : k ∉ seen) :
    (r.bases k).length + r.unseenBases (k :: seen) ≤ r.unseenBases seen := by
  obtain ⟨types, schemas⟩ := r
  simp only [bases, get?, unseenBases]
  induction types with
  | nil => simp [Assoc.get?]
  | cons e types ih =>
    obtain ⟨a, t⟩ := e
    simp only [List.mem_cons, Bool.decide_or, Bool.not_or] at ih ⊢
    by_cases ha : a = k
    · subst ha
      simp [Assoc.get?, h]
      omega
    · have hka : (a == k) = false := by simpa using ha
      by_cases hs : a ∈ seen
      · simpa [Assoc.get?, ha, hka, hs] using ih
      · simp [Assoc.get?, ha, hka, hs]
        omega

theorem unseenBases_snoc (k origin : TypeKey) (found : List TypeKey) :
    r.unseenBases (origin :: (found ++ [k])) = r.unseenBases (k :: origin :: found) := by
  unfold unseenBases
  congr 3
  funext e
  simp only [List.mem_cons, List.mem_append, List.not_mem_nil, or_false]
  congr 2
  rw [← or_assoc, or_comm]

/-- A set of types that holds all bases of its members. -/
def ClosedUnderBases (v : List TypeKey) : Prop := ∀ k ∈ v, ∀ b ∈ r.bases k, b ∈ v

variable {r}

theorem ClosedUnderBases.mem {v : List TypeKey} (hv : r.ClosedUnderBases v) {a b : TypeKey}
    (ha : a ∈ v) (h : ReflTransGen r.DeclaresBase a b) : b ∈ v := by
  induction h with
  | refl => exact ha
  | tail _ hstep ih => exact hv _ ih _ hstep

/-! Whether a type is reached. -/

theorem exists_of_reaches {parent : TypeKey} {fuel : Nat} {visited stack : List TypeKey}
    (h : r.reaches parent fuel visited stack = true) :
    ∃ k ∈ stack, ReflTransGen r.DeclaresBase k parent := by
  induction fuel generalizing visited stack with
  | zero => simp [reaches] at h
  | succ fuel ih =>
    cases stack with
    | nil => simp [reaches] at h
    | cons k stack =>
      simp only [reaches] at h
      split at h
      case isTrue hk => exact ⟨k, List.mem_cons_self, hk ▸ .refl⟩
      case isFalse =>
        split at h
        case isTrue =>
          obtain ⟨j, hj, hreach⟩ := ih h
          exact ⟨j, List.mem_cons_of_mem k hj, hreach⟩
        case isFalse =>
          obtain ⟨j, hj, hreach⟩ := ih h
          rcases List.mem_append.mp hj with hj | hj
          · exact ⟨k, List.mem_cons_self, .head (List.mem_reverse.mp hj) hreach⟩
          · exact ⟨j, List.mem_cons_of_mem k hj, hreach⟩

/-- A search that fails has been everywhere: what it has seen is closed under bases. -/
theorem closed_of_not_reaches {parent : TypeKey} {fuel : Nat} {visited stack : List TypeKey}
    (hfuel : stack.length + r.unseenBases visited ≤ fuel)
    (h : r.reaches parent fuel visited stack = false) (hparent : parent ∉ visited)
    (hvisited : ∀ k ∈ visited, ∀ b ∈ r.bases k, b ∈ visited ∨ b ∈ stack) :
    ∃ v, r.ClosedUnderBases v ∧ parent ∉ v ∧ visited ⊆ v ∧ stack ⊆ v := by
  induction fuel generalizing visited stack with
  | zero =>
    have hstack : stack = [] := List.eq_nil_of_length_eq_zero (by omega)
    subst hstack
    exact ⟨visited, by simpa [ClosedUnderBases] using hvisited, hparent, by simp, by simp⟩
  | succ fuel ih =>
    cases stack with
    | nil => exact ⟨visited, by simpa [ClosedUnderBases] using hvisited, hparent, by simp, by simp⟩
    | cons k stack =>
      simp only [reaches] at h
      simp only [List.length_cons] at hfuel
      split at h
      case isTrue => cases h
      case isFalse hk =>
        split at h
        case isTrue hseen =>
          obtain ⟨v, hv, hp, hsub, hstack⟩ := ih (by omega) h hparent (by
            intro j hj b hb
            rcases hvisited j hj b hb with hb | hb
            · exact .inl hb
            · rcases List.mem_cons.mp hb with rfl | hb
              · exact .inl hseen
              · exact .inr hb)
          exact ⟨v, hv, hp, hsub, List.cons_subset.mpr ⟨hsub hseen, hstack⟩⟩
        case isFalse hnew =>
          have hpaid := r.unseenBases_cons hnew
          obtain ⟨v, hv, hp, hsub, hstack⟩ := ih
            (by simp only [List.length_append, List.length_reverse]; omega) h
            (by simp [Ne.symm hk, hparent]) (by
              intro j hj b hb
              rcases List.mem_cons.mp hj with rfl | hj
              · simp [hb]
              · rcases hvisited j hj b hb with hb | hb
                · simp [hb]
                · rcases List.mem_cons.mp hb with rfl | hb <;> simp_all)
          obtain ⟨hk', hsub⟩ := List.cons_subset.mp hsub
          exact ⟨v, hv, hp, hsub, List.cons_subset.mpr ⟨hk', (List.append_subset.mp hstack).2⟩⟩

theorem isSubtype_iff {child parent : TypeKey} :
    r.isSubtype child parent = true ↔ ReflTransGen r.DeclaresBase child parent := by
  constructor
  · intro h
    obtain ⟨k, hk, hreach⟩ := exists_of_reaches h
    rwa [List.mem_singleton.mp hk] at hreach
  · intro h
    cases hsub : r.isSubtype child parent with
    | true => rfl
    | false =>
      obtain ⟨v, hv, hparent, -, hchild⟩ := closed_of_not_reaches
        (by simp [baseCount_eq, Nat.add_comm]) hsub (by simp) (by simp)
      exact (hparent (hv.mem (hchild List.mem_cons_self) h)).elim

/-! All supertypes. -/

/-- The search for all supertypes of `origin` while `stack` is still to be looked at. -/
structure Collecting (r : TypeTable) (origin : TypeKey) (found stack : List TypeKey) : Prop where
  nodup : found.Nodup
  other : origin ∉ found
  reached : ∀ k ∈ found ++ stack, ReflTransGen r.DeclaresBase origin k
  closed : ∀ k ∈ found, ∀ b ∈ r.bases k, b = origin ∨ b ∈ found ∨ b ∈ stack

namespace Collecting

variable {origin k : TypeKey} {found stack : List TypeKey}

theorem skip (h : Collecting r origin found (k :: stack)) (hk : k = origin ∨ k ∈ found) :
    Collecting r origin found stack where
  nodup := h.nodup
  other := h.other
  reached j hj := h.reached j (by
    rcases List.mem_append.mp hj with hj | hj <;> simp [hj])
  closed j hj b hb := by
    rcases h.closed j hj b hb with hb | hb | hb
    · exact .inl hb
    · exact .inr (.inl hb)
    · rcases List.mem_cons.mp hb with rfl | hb
      · exact hk.imp_right .inl
      · exact .inr (.inr hb)

theorem take (h : Collecting r origin found (k :: stack)) (hk : ¬(k = origin ∨ k ∈ found)) :
    Collecting r origin (found ++ [k]) ((r.bases k).reverse ++ stack) where
  nodup := List.concat_eq_append ▸ List.Nodup.concat (fun hmem => hk (.inr hmem)) h.nodup
  other := by
    have hne : ¬origin = k := fun he => hk (.inl he.symm)
    simp [h.other, hne]
  reached j hj := by
    have hreach : ReflTransGen r.DeclaresBase origin k := h.reached k (by simp)
    simp only [List.mem_append, List.mem_singleton, List.mem_reverse] at hj
    rcases hj with (hj | rfl) | hj | hj
    · exact h.reached j (by simp [hj])
    · exact hreach
    · exact hreach.tail hj
    · exact h.reached j (by simp [hj])
  closed j hj b hb := by
    rcases List.mem_append.mp hj with hj | hj
    · rcases h.closed j hj b hb with hb | hb | hb
      · exact .inl hb
      · simp [hb]
      · rcases List.mem_cons.mp hb with rfl | hb <;> simp_all
    · rw [List.mem_singleton.mp hj] at hb
      simp [hb]

end Collecting

theorem collect_nil (origin : TypeKey) (fuel : Nat) (found : List TypeKey) :
    r.collect origin fuel found [] = found := by
  cases fuel <;> rfl

/-- With steps enough nothing is left to be looked at. -/
theorem collect_spec {origin : TypeKey} {fuel : Nat} {found stack : List TypeKey}
    (hfuel : stack.length + r.unseenBases (origin :: found) ≤ fuel)
    (h : Collecting r origin found stack) :
    Collecting r origin (r.collect origin fuel found stack) [] ∧
      ∀ k ∈ found ++ stack, k = origin ∨ k ∈ r.collect origin fuel found stack := by
  induction fuel generalizing found stack with
  | zero =>
    have hstack : stack = [] := List.eq_nil_of_length_eq_zero (by omega)
    subst hstack
    rw [collect_nil]
    exact ⟨h, fun k hk => .inr (by simpa using hk)⟩
  | succ fuel ih =>
    cases stack with
    | nil =>
      rw [collect_nil]
      exact ⟨h, fun k hk => .inr (by simpa using hk)⟩
    | cons k stack =>
      simp only [List.length_cons] at hfuel
      simp only [collect]
      split
      case isTrue hk =>
        obtain ⟨hend, hall⟩ := ih (by omega) (h.skip hk)
        refine ⟨hend, fun j hj => ?_⟩
        rcases List.mem_append.mp hj with hj | hj
        · exact hall j (by simp [hj])
        · rcases List.mem_cons.mp hj with rfl | hj
          · rcases hk with hk | hk
            · exact .inl hk
            · exact hall j (by simp [hk])
          · exact hall j (by simp [hj])
      case isFalse hk =>
        have hpaid := r.unseenBases_cons (show k ∉ origin :: found by simpa using hk)
        have hsame := r.unseenBases_snoc k origin found
        obtain ⟨hend, hall⟩ := ih
          (by rw [hsame]; simp only [List.length_append, List.length_reverse]; omega) (h.take hk)
        refine ⟨hend, fun j hj => hall j ?_⟩
        rcases List.mem_append.mp hj with hj | hj
        · simp [hj]
        · rcases List.mem_cons.mp hj with rfl | hj <;> simp_all

/-- As many steps as there are declared bases suffice to look at all that lies above a type. -/
theorem bases_fuel (r : TypeTable) (k : TypeKey) :
    (r.bases k).reverse.length + r.unseenBases [k] ≤ r.baseCount + 1 := by
  have hpaid := r.unseenBases_cons (show k ∉ [] by simp)
  rw [List.length_reverse, baseCount_eq]
  omega

theorem supertypes_spec (r : TypeTable) (k : TypeKey) :
    Collecting r k (r.supertypes k) [] ∧ ∀ b ∈ r.bases k, b = k ∨ b ∈ r.supertypes k := by
  have hstart : Collecting r k [] (r.bases k).reverse :=
    ⟨by simp, by simp, fun j hj => .single (by simpa [DeclaresBase] using hj), by simp⟩
  have hfuel := r.bases_fuel k
  obtain ⟨hend, hall⟩ := collect_spec hfuel hstart
  exact ⟨hend, fun b hb => hall b (by simpa using hb)⟩

theorem mem_supertypes_iff {k b : TypeKey} :
    b ∈ r.supertypes k ↔ b ≠ k ∧ ReflTransGen r.DeclaresBase k b := by
  obtain ⟨hend, hbases⟩ := supertypes_spec r k
  constructor
  · intro hb
    exact ⟨fun he => hend.other (he ▸ hb), hend.reached b (by simpa using hb)⟩
  · rintro ⟨hne, hreach⟩
    have hclosed : r.ClosedUnderBases (k :: r.supertypes k) := by
      intro j hj b hb
      rcases List.mem_cons.mp hj with rfl | hj
      · exact List.mem_cons.mpr (hbases b hb)
      · rcases hend.closed j hj b hb with hb | hb | hb <;> simp_all
    exact (List.mem_cons.mp (hclosed.mem List.mem_cons_self hreach)).resolve_left hne

theorem isSubtype_iff_eq_or_mem {child parent : TypeKey} :
    r.isSubtype child parent = true ↔ parent = child ∨ parent ∈ r.supertypes child := by
  rw [isSubtype_iff, mem_supertypes_iff]
  constructor
  · intro h
    by_cases he : parent = child
    · exact .inl he
    · exact .inr ⟨he, h⟩
  · rintro (rfl | ⟨-, h⟩)
    · exact .refl
    · exact h

end DefLoad.TypeTable
