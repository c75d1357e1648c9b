import DefLoad.Master
import Mathlib.Data.List.Perm.Subperm
import Mathlib.Logic.Relation

/-!
Parents as a relation between indices, and what following them finds: a chain ends at a node without
a parent, a cycle comes back to an index that it has passed, an orphan stands below a missing name.
-/

namespace DefLoad.Master

open Relation

/-- The node at `j` bears the name and no node before it does. -/
def IsFirst (nodes : List Node) (name : String) (j : Nat) : Prop :=
  (∃ n, nodes[j]? = some n ∧ n.name = name) ∧
    ∀ k < j, ∀ n, nodes[k]? = some n → n.name ≠ name

/-- The node at `i` names the node at `j` as its parent. -/
def IsParent (nodes : List Node) (i j : Nat) : Prop :=
  ∃ n name, nodes[i]? = some n ∧ n.attr "Parent" = some name ∧ IsFirst nodes name j

/-- The node at `i` names a parent that no node is. -/
def IsOrphan (nodes : List Node) (i : Nat) : Prop :=
  ∃ n name, nodes[i]? = some n ∧ n.attr "Parent" = some name ∧ ∀ m ∈ nodes, m.name ≠ name

/-- `j` lies on the chain of `i`, which begins with `i` itself. -/
def Above (nodes : List Node) (i j : Nat) : Prop := ReflTransGen (IsParent nodes) i j

def ReachesMissing (nodes : List Node) (i : Nat) : Prop := ∃ j, Above nodes i j ∧ IsOrphan nodes j

def Revisits (nodes : List Node) (i : Nat) : Prop :=
  ∃ j, Above nodes i j ∧ TransGen (IsParent nodes) j j

/-- The way up from one index to another, with the indices passed before the last one. -/
inductive Trail (nodes : List Node) : Nat → List Nat → Nat → Prop
  | here (i : Nat) : Trail nodes i [] i
  | up {i k j : Nat} {is : List Nat} :
    IsParent nodes i k → Trail nodes k is j → Trail nodes i (i :: is) j

theorem firstNamed_eq_some_iff (nodes : List Node) (name : String) (j : Nat) :
    firstNamed nodes name = some j ↔ IsFirst nodes name j := by
  simp only [firstNamed, List.findIdx?_eq_some_iff_getElem, beq_iff_eq, IsFirst]
  constructor
  · rintro ⟨hj, hn, hk⟩
    refine ⟨⟨nodes[j], List.getElem?_eq_getElem hj, hn⟩, ?_⟩
    intro k hkj n hkn
    obtain ⟨hk', rfl⟩ := List.getElem?_eq_some_iff.mp hkn
    exact hk k hkj
  · rintro ⟨⟨n, hjn, hn⟩, hk⟩
    obtain ⟨hj, rfl⟩ := List.getElem?_eq_some_iff.mp hjn
    exact ⟨hj, hn, fun k hkj => hk k hkj _ (List.getElem?_eq_getElem (by omega))⟩

theorem firstNamed_eq_none_iff (nodes : List Node) (name : String) :
    firstNamed nodes name = none ↔ ∀ m ∈ nodes, m.name ≠ name := by
  simp [firstNamed]

theorem parentName_eq_some_iff (nodes : List Node) (i : Nat) (name : String) :
    parentName nodes i = some name ↔ ∃ n, nodes[i]? = some n ∧ n.attr "Parent" = some name := by
  simp [parentName, Option.bind_eq_some_iff]

theorem isParent_iff (nodes : List Node) (i j : Nat) :
    IsParent nodes i j ↔
      ∃ name, parentName nodes i = some name ∧ firstNamed nodes name = some j := by
  simp only [IsParent, parentName_eq_some_iff, firstNamed_eq_some_iff]
  constructor
  · rintro ⟨n, name, hi, hp, hj⟩
    exact ⟨name, ⟨n, hi, hp⟩, hj⟩
  · rintro ⟨name, ⟨n, hi, hp⟩, hj⟩
    exact ⟨n, name, hi, hp, hj⟩

theorem isOrphan_iff (nodes : List Node) (i : Nat) :
    IsOrphan nodes i ↔
      ∃ name, parentName nodes i = some name ∧ firstNamed nodes name = none := by
  simp only [IsOrphan, parentName_eq_some_iff, firstNamed_eq_none_iff]
  constructor
  · rintro ⟨n, name, hi, hp, hj⟩
    exact ⟨name, ⟨n, hi, hp⟩, hj⟩
  · rintro ⟨name, ⟨n, hi, hp⟩, hj⟩
    exact ⟨n, name, hi, hp, hj⟩

theorem isParent_unique (nodes : List Node) : Relator.RightUnique (IsParent nodes) := by
  intro i j k hj hk
  obtain ⟨a, ha, hja⟩ := (isParent_iff nodes i j).mp hj
  obtain ⟨b, hb, hkb⟩ := (isParent_iff nodes i k).mp hk
  have hab : a = b := Option.some.inj (ha.symm.trans hb)
  subst hab
  exact Option.some.inj (hja.symm.trans hkb)

theorem IsParent.lt {nodes : List Node} {i j : Nat} (h : IsParent nodes i j) :
    i < nodes.length ∧ j < nodes.length := by
  obtain ⟨n, name, hi, -, ⟨m, hj, -⟩, -⟩ := h
  exact ⟨(List.getElem?_eq_some_iff.mp hi).1, (List.getElem?_eq_some_iff.mp hj).1⟩

theorem Above.lt {nodes : List Node} {i j : Nat} (h : Above nodes i j) (hi : i < nodes.length) :
    j < nodes.length := by
  induction h with
  | refl => exact hi
  | tail _ hp _ => exact hp.lt.2

/-! Nothing lies above a node without a parent or above an orphan. -/

theorem not_isParent_of_root {nodes : List Node} {r : Nat} (h : parentName nodes r = none)
    (k : Nat) : ¬ IsParent nodes r k := by
  intro hp
  obtain ⟨name, hn, -⟩ := (isParent_iff nodes r k).mp hp
  simp [h] at hn

theorem IsOrphan.not_isParent {nodes : List Node} {r : Nat} (h : IsOrphan nodes r) (k : Nat) :
    ¬ IsParent nodes r k := by
  intro hp
  obtain ⟨a, ha, hka⟩ := (isOrphan_iff nodes r).mp h
  obtain ⟨b, hb, hkb⟩ := (isParent_iff nodes r k).mp hp
  have hab : a = b := Option.some.inj (ha.symm.trans hb)
  subst hab
  simp [hka] at hkb

/-- A cycle goes on through whatever lies above it. -/
theorem cycle_of_above {nodes : List Node} {i j : Nat} (hc : TransGen (IsParent nodes) i i)
    (h : Above nodes i j) : TransGen (IsParent nodes) j j := by
  induction h with
  | refl => exact hc
  | tail _ hp ih =>
    obtain ⟨k, hk, hkb⟩ := TransGen.head'_iff.mp ih
    have hkc := isParent_unique nodes hk hp
    subst hkc
    exact TransGen.tail' hkb hp

/-- The end of a chain is the end for all that lies on it. -/
theorem above_end {nodes : List Node} {i j r : Nat} (h : Above nodes i r)
    (hr : ∀ k, ¬ IsParent nodes r k) (hj : Above nodes i j) : Above nodes j r := by
  rcases ReflTransGen.total_of_right_unique (isParent_unique nodes) hj h with hjr | hrj
  · exact hjr
  · rcases hrj.cases_head with rfl | ⟨k, hk, -⟩
    · exact .refl
    · exact (hr k hk).elim

theorem not_revisits_of_end {nodes : List Node} {i r : Nat} (h : Above nodes i r)
    (hr : ∀ k, ¬ IsParent nodes r k) : ¬ Revisits nodes i := by
  rintro ⟨j, hij, hjj⟩
  obtain ⟨k, hk, -⟩ := TransGen.head'_iff.mp (cycle_of_above hjj (above_end h hr hij))
  exact hr k hk

namespace Trail

variable {nodes : List Node} {i j k : Nat} {is : List Nat}

theorem snoc (h : Trail nodes i is j) (hk : IsParent nodes j k) :
    Trail nodes i (is ++ [j]) k := by
  induction h with
  | here i => exact .up hk (.here k)
  | up hp _ ih => exact .up hp (ih hk)

/-- There is one way up to an end. -/
theorem unique {is' : List Nat} {j' : Nat} (h : Trail nodes i is j) (h' : Trail nodes i is' j')
    (hj : ∀ k, ¬ IsParent nodes j k) (hj' : ∀ k, ¬ IsParent nodes j' k) : is = is' ∧ j = j' := by
  induction h generalizing is' with
  | here i =>
    cases h' with
    | here => exact ⟨rfl, rfl⟩
    | up hp _ => exact (hj _ hp).elim
  | up hp _ ih =>
    cases h' with
    | here => exact (hj' _ hp).elim
    | up hp' ht' =>
      have hk := isParent_unique nodes hp' hp
      subst hk
      obtain ⟨his, hjj⟩ := ih ht' hj
      exact ⟨by rw [his], hjj⟩

theorem exists_of_above (h : Above nodes i j) : ∃ is, Trail nodes i is j := by
  induction h with
  | refl => exact ⟨[], .here i⟩
  | tail _ hp ih =>
    obtain ⟨is, ht⟩ := ih
    exact ⟨_, ht.snoc hp⟩

theorem above (h : Trail nodes i is j) : Above nodes i j := by
  induction h with
  | here i => exact .refl
  | up hp _ ih => exact .head hp ih

theorem above_of_mem (h : Trail nodes i is j) {a : Nat} (ha : a ∈ is) :
    Above nodes i a ∧ TransGen (IsParent nodes) a j := by
  induction h with
  | here i => simp at ha
  | up hp ht ih =>
    rcases List.mem_cons.mp ha with rfl | ha
    · exact ⟨.refl, TransGen.head' hp ht.above⟩
    · exact ⟨.head hp (ih ha).1, (ih ha).2⟩

theorem head_mem (h : Trail nodes i is j) : i ∈ is ++ [j] := by
  cases h with
  | here => simp
  | up => simp

theorem parent_mem (h : Trail nodes i is j) {a b : Nat} (ha : a ∈ is) (hb : IsParent nodes a b) :
    b ∈ is ++ [j] := by
  induction h with
  | here i => simp at ha
  | up hp ht ih =>
    rcases List.mem_cons.mp ha with rfl | ha
    · rw [isParent_unique nodes hb hp]
      exact List.mem_cons_of_mem _ ht.head_mem
    · exact List.mem_cons_of_mem _ (ih ha)

/-- A trail that ends at a node without a parent, or where it has been before, holds the whole
chain. -/
theorem mem_iff_above (h : Trail nodes i is j) (hj : (∀ k, ¬ IsParent nodes j k) ∨ j ∈ is)
    (a : Nat) : a ∈ is ++ [j] ↔ Above nodes i a := by
  constructor
  · intro ha
    rcases List.mem_append.mp ha with ha | ha
    · exact (h.above_of_mem ha).1
    · rw [List.mem_singleton.mp ha]
      exact h.above
  · intro ha
    induction ha with
    | refl => exact h.head_mem
    | tail _ hp ih =>
      rcases List.mem_append.mp ih with hb | hb
      · exact h.parent_mem hb hp
      · rw [List.mem_singleton.mp hb] at hp
        rcases hj with hj | hj
        · exact (hj _ hp).elim
        · exact h.parent_mem hj hp

end Trail

theorem end_unique {nodes : List Node} {i r r' : Nat} (h : Above nodes i r) (h' : Above nodes i r')
    (hr : ∀ k, ¬ IsParent nodes r k) (hr' : ∀ k, ¬ IsParent nodes r' k) : r = r' := by
  obtain ⟨is, ht⟩ := Trail.exists_of_above h
  obtain ⟨is', ht'⟩ := Trail.exists_of_above h'
  exact (ht.unique ht' hr hr').2

/-- What a lineage says about the chain of an index. -/
def Describes (nodes : List Node) (i : Nat) : Lineage → Prop
  | .chain indices =>
    ∃ is r, indices = is ++ [r] ∧ Trail nodes i is r ∧ parentName nodes r = none
  | .cycle indices => ∃ is r, indices = is ++ [r] ∧ Trail nodes i is r ∧ r ∈ is
  | .orphan child parent =>
    ∃ is, Trail nodes i is child ∧ parentName nodes child = some parent ∧
      firstNamed nodes parent = none

/-- The indices that a climb has seen: none twice, and all of them indices of nodes. -/
structure Passed (nodes : List Node) (seen : List Nat) : Prop where
  distinct : seen.Nodup
  bound : ∀ a ∈ seen, a < nodes.length

namespace Passed

variable {nodes : List Node} {seen : List Nat}

theorem nil (nodes : List Node) : Passed nodes [] := ⟨List.nodup_nil, by simp⟩

theorem cons {current next : Nat} (h : Passed nodes seen) (hc : current ∉ seen)
    (hp : IsParent nodes current next) : Passed nodes (current :: seen) := by
  refine ⟨List.nodup_cons.mpr ⟨hc, h.distinct⟩, ?_⟩
  intro a ha
  rcases List.mem_cons.mp ha with rfl | ha
  · exact hp.lt.1
  · exact h.bound a ha

theorem length_le (h : Passed nodes seen) : seen.length ≤ nodes.length := by
  have hsub : seen ⊆ List.range nodes.length := fun a ha => List.mem_range.mpr (h.bound a ha)
  simpa using (h.distinct.subperm hsub).length_le

end Passed

/-- The indices seen form the trail to the current one. With that the steps never run out. -/
theorem climb_describes (nodes : List Node) (i n : Nat) (seen : List Nat) (current : Nat)
    (ht : Trail nodes i seen.reverse current) (hs : Passed nodes seen)
    (hn : nodes.length < n + seen.length) : Describes nodes i (climb nodes n seen current) := by
  induction n generalizing seen current with
  | zero =>
    -- as many indices have been seen as there are nodes, so a step must be left
    have hle := hs.length_le
    omega
  | succ n ih =>
    rw [climb]
    by_cases hc : current ∈ seen
    · rw [if_pos hc]
      exact ⟨seen.reverse, current, rfl, ht, by simpa using hc⟩
    · rw [if_neg hc]
      cases hp : parentName nodes current with
      | none => exact ⟨seen.reverse, current, rfl, ht, hp⟩
      | some parent =>
        dsimp only
        cases hf : firstNamed nodes parent with
        | none => exact ⟨seen.reverse, ht, hp, hf⟩
        | some next =>
          have hstep := (isParent_iff nodes current next).mpr ⟨parent, hp, hf⟩
          apply ih (current :: seen) next
          · rw [List.reverse_cons]
            exact ht.snoc hstep
          · exact hs.cons hc hstep
          · simp only [List.length_cons]
            omega

theorem lineage_describes (nodes : List Node) (i : Nat) : Describes nodes i (lineage nodes i) :=
  climb_describes nodes i _ [] i (.here i) (.nil nodes) (by simp)

/-- More steps than there are nodes find nothing new. -/
theorem climb_succ (nodes : List Node) (n : Nat) (seen : List Nat) (current : Nat)
    (hs : Passed nodes seen) (hn : nodes.length < n + seen.length) :
    climb nodes (n + 1) seen current = climb nodes n seen current := by
  induction n generalizing seen current with
  | zero =>
    have hle := hs.length_le
    omega
  | succ n ih =>
    rw [climb.eq_def nodes (n + 1), climb.eq_def nodes (n + 1 + 1)]
    dsimp only
    by_cases hc : current ∈ seen
    · rw [if_pos hc, if_pos hc]
    · rw [if_neg hc, if_neg hc]
      cases hp : parentName nodes current with
      | none => rfl
      | some parent =>
        dsimp only
        cases hf : firstNamed nodes parent with
        | none => rfl
        | some next =>
          have hstep := (isParent_iff nodes current next).mpr ⟨parent, hp, hf⟩
          apply ih (current :: seen) next (hs.cons hc hstep)
          simp only [List.length_cons]
          omega

theorem climb_eq_lineage (nodes : List Node) (i n : Nat) (hn : nodes.length < n) :
    climb nodes n [] i = lineage nodes i := by
  induction hn with
  | refl => rfl
  | @step n hn ih =>
    have hlt : nodes.length < n + ([] : List Nat).length := hn
    rw [climb_succ nodes n [] i (.nil nodes) hlt, ih]

theorem not_reachesMissing_of_root {nodes : List Node} {i r : Nat} (h : Above nodes i r)
    (hr : parentName nodes r = none) : ¬ ReachesMissing nodes i := by
  rintro ⟨j, hij, hj⟩
  have hjr := end_unique hij h hj.not_isParent (not_isParent_of_root hr)
  subst hjr
  obtain ⟨name, hn, -⟩ := (isOrphan_iff nodes j).mp hj
  simp [hr] at hn

/-! The three outcomes exclude one another. -/

theorem lineage_of_chain {nodes : List Node} {i : Nat} {indices : List Nat}
    (h : lineage nodes i = .chain indices) :
    ¬ ReachesMissing nodes i ∧ ¬ Revisits nodes i ∧ ∀ j, j ∈ indices ↔ Above nodes i j := by
  have hd := lineage_describes nodes i
  rw [h] at hd
  obtain ⟨is, r, rfl, ht, hr⟩ := hd
  have hend := not_isParent_of_root hr
  exact ⟨not_reachesMissing_of_root ht.above hr, not_revisits_of_end ht.above hend,
    ht.mem_iff_above (.inl hend)⟩

theorem lineage_of_cycle {nodes : List Node} {i : Nat} {indices : List Nat}
    (h : lineage nodes i = .cycle indices) :
    Revisits nodes i ∧ ∀ j, j ∈ indices ↔ Above nodes i j := by
  have hd := lineage_describes nodes i
  rw [h] at hd
  obtain ⟨is, r, rfl, ht, hr⟩ := hd
  exact ⟨⟨r, ht.above, (ht.above_of_mem hr).2⟩, ht.mem_iff_above (.inr hr)⟩

theorem lineage_of_orphan {nodes : List Node} {i child : Nat} {parent : String}
    (h : lineage nodes i = .orphan child parent) :
    ReachesMissing nodes i ∧ ¬ Revisits nodes i := by
  have hd := lineage_describes nodes i
  rw [h] at hd
  obtain ⟨is, ht, hp, hf⟩ := hd
  have ho : IsOrphan nodes child := (isOrphan_iff nodes child).mpr ⟨parent, hp, hf⟩
  exact ⟨⟨child, ht.above, ho⟩, not_revisits_of_end ht.above ho.not_isParent⟩

/-- A chain that is neither cut off nor endless has a root. -/
theorem exists_root {nodes : List Node} {i : Nat} (hm : ¬ ReachesMissing nodes i)
    (hv : ¬ Revisits nodes i) : ∃ r, Above nodes i r ∧ parentName nodes r = none := by
  cases hl : lineage nodes i with
  | cycle indices => exact (hv (lineage_of_cycle hl).1).elim
  | orphan child parent => exact (hm (lineage_of_orphan hl).1).elim
  | chain indices =>
    have hd := lineage_describes nodes i
    rw [hl] at hd
    obtain ⟨is, r, -, ht, hr⟩ := hd
    exact ⟨r, ht.above, hr⟩

/-- The lineage finds the trail up to a node without a parent. -/
theorem Trail.lineage_eq {nodes : List Node} {i r : Nat} {is : List Nat} (h : Trail nodes i is r)
    (hr : parentName nodes r = none) : lineage nodes i = .chain (is ++ [r]) := by
  have hend := not_isParent_of_root hr
  cases hl : lineage nodes i with
  | cycle indices => exact (not_revisits_of_end h.above hend (lineage_of_cycle hl).1).elim
  | orphan child parent =>
    exact (not_reachesMissing_of_root h.above hr (lineage_of_orphan hl).1).elim
  | chain indices =>
    have hd := lineage_describes nodes i
    rw [hl] at hd
    obtain ⟨is', r', rfl, ht', hr'⟩ := hd
    obtain ⟨rfl, rfl⟩ := h.unique ht' hend (not_isParent_of_root hr')
    rfl

end DefLoad.Master
