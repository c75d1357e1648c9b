import DefLoad.Arsenal.Plain
import DefLoad.Proofs.Subtypes
import Mathlib.Logic.Function.Iterate

/-!
The two searches over declared bases as loops that nothing limits. Each round takes one of the types
that are still to be looked at. Whatever is declared, in circles or with bases that the table does
not hold, both loops end after at most two rounds more than there are declared bases.
-/

namespace DefLoad.TypeTable

open Relation (ReflTransGen)

/-- A search under way, with the types that it has seen and those that it has to look at, the next
one first, or the answer of a search. -/
inductive Search (α : Type)
  | looking (seen stack : List TypeKey)
  | ended (answer : α)

/-- One round of the search for `parent`. -/
def seek (r : TypeTable) (parent : TypeKey) : Search Bool → Search Bool
  | .ended answer => .ended answer
  | .looking _ [] => .ended false
  | .looking visited (k :: stack) =>
    if k = parent then .ended true
    else if k ∈ visited then .looking visited stack
    else .looking (k :: visited) ((r.bases k).reverse ++ stack)

/-- One round of the search for all supertypes of `origin`. -/
def gather (r : TypeTable) (origin : TypeKey) : Search (List TypeKey) → Search (List TypeKey)
  | .ended answer => .ended answer
  | .looking found [] => .ended found
  | .looking found (k :: stack) =>
    if k = origin ∨ k ∈ found then .looking found stack
    else .looking (found ++ [k]) ((r.bases k).reverse ++ stack)

variable {r : TypeTable}

theorem seek_ended (parent : TypeKey) (n : Nat) (answer : Bool) :
    (r.seek parent)^[n] (.ended answer) = .ended answer :=
  Function.iterate_fixed rfl n

theorem gather_ended (origin : TypeKey) (n : Nat) (answer : List TypeKey) :
    (r.gather origin)^[n] (.ended answer) = .ended answer :=
  Function.iterate_fixed rfl n

/-- The loop ends within one round more than the steps that pay for its bases, with the answer that
so many steps give. -/
theorem iterate_seek {parent : TypeKey} {fuel : Nat} {visited stack : List TypeKey}
    (hfuel : stack.length + r.unseenBases visited ≤ fuel) :
    (r.seek parent)^[fuel + 1] (.looking visited stack) =
      .ended (r.reaches parent fuel visited stack) := by
  induction fuel generalizing visited stack with
  | zero =>
    have hstack : stack = [] := List.eq_nil_of_length_eq_zero (by omega)
    rw [hstack]
    rfl
  | succ fuel ih =>
    rw [Function.iterate_succ_apply]
    cases stack with
    | nil => exact seek_ended parent (fuel + 1) false
    | cons k stack =>
      simp only [List.length_cons] at hfuel
      simp only [seek, reaches]
      split
      case isTrue => exact seek_ended parent (fuel + 1) true
      case isFalse =>
        split
        case isTrue => exact ih (by omega)
        case isFalse hnew =>
          have hpaid := r.unseenBases_cons hnew
          exact ih (by simp only [List.length_append, List.length_reverse]; omega)

theorem iterate_gather {origin : TypeKey} {fuel : Nat} {found stack : List TypeKey}
    (hfuel : stack.length + r.unseenBases (origin :: found) ≤ fuel) :
    (r.gather origin)^[fuel + 1] (.looking found stack) =
      .ended (r.collect origin fuel found stack) := by
  induction fuel generalizing found stack with
  | zero =>
    have hstack : stack = [] := List.eq_nil_of_length_eq_zero (by omega)
    rw [hstack]
    rfl
  | succ fuel ih =>
    rw [Function.iterate_succ_apply]
    cases stack with
    | nil => exact gather_ended origin (fuel + 1) found
    | cons k stack =>
      simp only [List.length_cons] at hfuel
      simp only [gather, collect]
      split
      case isTrue => exact ih (by omega)
      case isFalse hk =>
        have hpaid := r.unseenBases_cons (show k ∉ origin :: found by simpa using hk)
        have hsame := r.unseenBases_snoc k origin found
        exact ih (by rw [hsame]; simp only [List.length_append, List.length_reverse]; omega)

/-- Both searches end, and both find what the declarations say: a type is a subtype of all that it
reaches through bases, itself included, and its supertypes are the others among them, each listed
once. -/
theorem searches_close_bases (r : TypeTable) (child parent : TypeKey) :
    (r.seek parent)^[r.baseCount + 2] (.looking [] [child]) = .ended (r.isSubtype child parent) ∧
      (r.gather child)^[r.baseCount + 2] (.looking [] (r.bases child).reverse) =
        .ended (r.supertypes child) ∧
      (r.isSubtype child parent = true ↔ ReflTransGen r.DeclaresBase child parent) ∧
      (r.supertypes child).Nodup ∧
      (∀ b, b ∈ r.supertypes child ↔ b ≠ child ∧ ReflTransGen r.DeclaresBase child b) ∧
      (r.isSubtype child parent = true ↔ parent = child ∨ parent ∈ r.supertypes child) := by
  have hseek : [child].length + r.unseenBases [] ≤ r.baseCount + 1 := by
    rw [baseCount_eq, List.length_singleton]
    omega
  obtain ⟨hend, -⟩ := supertypes_spec r child
  exact ⟨iterate_seek hseek, iterate_gather (r.bases_fuel child), isSubtype_iff, hend.nodup,
    fun _ => mem_supertypes_iff, isSubtype_iff_eq_or_mem⟩

/-- Rifles and guns are bases of each other, and no table holds ghosts. -/
example :
    let plain (name : String) (bases : List TypeKey) : TypeKey × Descriptor :=
      (.named name, { Arsenal.plainType (.named name) .scalar with bases })
    let r : TypeTable := ⟨[plain "Rifle" [.named "Gun", .named "Gear"],
      plain "Gun" [.named "Rifle", .named "Ghost"], plain "Gear" [.named "Ghost"]], []⟩
    r.supertypes (.named "Rifle") = [.named "Gear", .named "Ghost", .named "Gun"] := by
  decide

end DefLoad.TypeTable
