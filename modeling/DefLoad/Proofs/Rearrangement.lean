import DefLoad.Proofs.NearestDefinition
import Mathlib.Data.List.Nodup
import Mathlib.Logic.Equiv.Defs

/-!
The order of definitions. When top-level nodes change places and those of one name keep their order,
every chain leads through the same nodes, so each node comes to the same end.
-/

namespace DefLoad.Master

/-- The second list holds the nodes of the first one at other places. Nodes of one name keep their
order. -/
structure Rearranges (σ : Equiv.Perm Nat) (nodes nodes' : List Node) : Prop where
  moved : ∀ i, nodes'[σ i]? = nodes[i]?
  ordered : ∀ i j m n, i < j → nodes[i]? = some m → nodes[j]? = some n → m.name = n.name →
    σ i < σ j

/-- What becomes of the node at an index, unless it is dropped. -/
def outcome (item : String) (nodes : List Node) (i : Nat) : Option Node :=
  if i ∈ droppedIndices item nodes then none else some (resolvedNode item nodes i)

/-- What is reported about the node at an index. -/
def complaint (item : String) (nodes : List Node) (i : Nat) : Option Diagnostic :=
  (verdict item nodes i (nodeAt nodes i)).diagnostic? nodes (nodeAt nodes i)

theorem resolveNodes_eq_outcomes (item : String) (nodes : List Node) :
    resolveNodes item nodes = (List.range nodes.length).filterMap (outcome item nodes) := by
  simp only [resolveNodes, verdicts_eq, List.filterMap_map]
  rfl

theorem resolutionDiagnostics_eq_complaints (item : String) (nodes : List Node) :
    resolutionDiagnostics item nodes =
      (List.range nodes.length).filterMap (complaint item nodes) := by
  simp only [resolutionDiagnostics, verdicts_eq, List.filterMap_map]
  rfl

theorem map_nodeAt_range (nodes : List Node) :
    (List.range nodes.length).map (nodeAt nodes) = nodes := by
  have hfst := congrArg (List.map Prod.fst) (zipIdx_eq_map_range nodes)
  rw [List.zipIdx_map_fst, List.map_map] at hfst
  exact hfst.symm

/-- The same lineage with its nodes at other places. -/
def Lineage.map (σ : Nat → Nat) : Lineage → Lineage
  | .chain indices => .chain (indices.map σ)
  | .cycle indices => .cycle (indices.map σ)
  | .orphan child parent => .orphan (σ child) parent

def Verdict.map (σ : Nat → Nat) : Verdict → Verdict
  | .unchanged => .unchanged
  | .composed n => .composed n
  | .broken l => .broken (l.map σ)

theorem Verdict.dropped_map (σ : Nat → Nat) (i : Nat) (v : Verdict) :
    (v.map σ).dropped (σ i) = (v.dropped i).map σ := by
  cases v with
  | unchanged => rfl
  | composed n => rfl
  | broken l => cases l <;> rfl

theorem Verdict.node_map (σ : Nat → Nat) (n : Node) (v : Verdict) :
    (v.map σ).node n = v.node n := by
  cases v <;> rfl

namespace Rearranges

variable {σ : Equiv.Perm Nat} {nodes nodes' : List Node} (h : Rearranges σ nodes nodes')

include h

theorem moved_symm (i : Nat) : nodes[σ.symm i]? = nodes'[i]? := by
  rw [← h.moved, σ.apply_symm_apply]

theorem symm : Rearranges σ.symm nodes' nodes := by
  refine ⟨h.moved_symm, fun i j m n hij hi hj hname => ?_⟩
  rw [← h.moved_symm] at hi hj
  rcases Nat.lt_trichotomy (σ.symm i) (σ.symm j) with hlt | heq | hgt
  · exact hlt
  · exact absurd (σ.symm.injective heq) (Nat.ne_of_lt hij)
  · -- the other order would have been kept
    have hji := h.ordered _ _ n m hgt hj hi hname.symm
    rw [σ.apply_symm_apply, σ.apply_symm_apply] at hji
    omega

theorem nodeAt_eq (i : Nat) : nodeAt nodes' (σ i) = nodeAt nodes i := by
  rw [nodeAt, nodeAt, h.moved]

theorem parentName_eq (i : Nat) : parentName nodes' (σ i) = parentName nodes i := by
  rw [parentName, parentName, h.moved]

theorem lt_length_iff (i : Nat) : σ i < nodes'.length ↔ i < nodes.length := by
  rw [← Nat.not_le, ← Nat.not_le, ← List.getElem?_eq_none_iff, ← List.getElem?_eq_none_iff, h.moved]

/-- The indices of the first list, in the order in which their nodes stand in the second one. -/
theorem range_perm : ((List.range nodes'.length).map σ.symm).Perm (List.range nodes.length) := by
  have hnodup : ((List.range nodes'.length).map σ.symm).Nodup :=
    (List.nodup_map_iff σ.symm.injective).mpr List.nodup_range
  rw [List.perm_ext_iff_of_nodup hnodup List.nodup_range]
  intro i
  rw [List.mem_range, ← h.lt_length_iff, List.mem_map]
  constructor
  · rintro ⟨j, hj, rfl⟩
    simpa using hj
  · intro hi
    exact ⟨σ i, List.mem_range.mpr hi, σ.symm_apply_apply i⟩

theorem length_eq : nodes'.length = nodes.length := by
  simpa using h.range_perm.length_eq

theorem nodes_eq :
    nodes' = ((List.range nodes.length).map σ.symm).map (nodeAt nodes) := by
  have hat : nodeAt nodes ∘ σ.symm = nodeAt nodes' := by
    funext i
    rw [Function.comp_apply, ← h.nodeAt_eq, σ.apply_symm_apply]
  rw [List.map_map, hat, ← h.length_eq, map_nodeAt_range]

theorem isFirst {name : String} {j : Nat} (hj : IsFirst nodes name j) :
    IsFirst nodes' name (σ j) := by
  obtain ⟨⟨n, hn, hname⟩, hbefore⟩ := hj
  refine ⟨⟨n, by rw [h.moved, hn], hname⟩, fun k hk m hm hmname => ?_⟩
  rw [← h.moved_symm] at hm
  rcases Nat.lt_trichotomy (σ.symm k) j with hlt | rfl | hgt
  · exact hbefore _ hlt m hm hmname
  · simp at hk
  · have hjk := h.ordered _ _ n m hgt hn hm (hname.trans hmname.symm)
    rw [σ.apply_symm_apply] at hjk
    omega

theorem firstNamed_eq (name : String) :
    firstNamed nodes' name = (firstNamed nodes name).map σ := by
  cases hf : firstNamed nodes name with
  | some j =>
    rw [firstNamed_eq_some_iff] at hf
    exact (firstNamed_eq_some_iff ..).mpr (h.isFirst hf)
  | none =>
    rw [firstNamed_eq_none_iff] at hf
    refine (firstNamed_eq_none_iff ..).mpr fun m hm => ?_
    obtain ⟨k, hk⟩ := List.mem_iff_getElem?.mp hm
    rw [← h.moved_symm] at hk
    exact hf m (List.mem_of_getElem? hk)

/-- A climb meets the same nodes. -/
theorem climb_eq (n : Nat) (seen : List Nat) (i : Nat) :
    climb nodes' n (seen.map σ) (σ i) = (climb nodes n seen i).map σ := by
  induction n generalizing seen i with
  | zero => simp [climb, Lineage.map]
  | succ n ih =>
    rw [climb, climb]
    by_cases hseen : i ∈ seen
    · rw [if_pos (List.mem_map_of_mem hseen), if_pos hseen]
      simp [Lineage.map]
    · have hseen' : σ i ∉ seen.map σ := by simpa using hseen
      rw [if_neg hseen', if_neg hseen, h.parentName_eq]
      cases parentName nodes i with
      | none => simp [Lineage.map]
      | some parent =>
        dsimp only
        rw [h.firstNamed_eq]
        cases firstNamed nodes parent with
        | none => rfl
        | some next => exact ih (i :: seen) next

theorem lineage_eq (i : Nat) : lineage nodes' (σ i) = (lineage nodes i).map σ := by
  rw [lineage, lineage, h.length_eq]
  exact h.climb_eq (nodes.length + 1) [] i

theorem compose_eq (item name : String) (indices : List Nat) :
    compose item nodes' name (indices.map σ) = compose item nodes name indices := by
  rw [compose, compose, ← List.map_reverse]
  cases indices.reverse with
  | nil => rfl
  | cons ancestor parts =>
    have hparts : nodeAt nodes' ∘ σ = nodeAt nodes := funext h.nodeAt_eq
    simp only [List.map_cons, h.nodeAt_eq, List.map_map, hparts]

theorem verdict_eq (item : String) (i : Nat) (n : Node) :
    verdict item nodes' (σ i) n = (verdict item nodes i n).map σ := by
  rw [verdict, verdict, h.lineage_eq]
  cases isFolded n with
  | false => rfl
  | true =>
    cases lineage nodes i with
    | chain indices => exact congrArg Verdict.composed (h.compose_eq item n.name indices)
    | cycle indices => rfl
    | orphan child parent => rfl

theorem resolvedNode_eq (item : String) (i : Nat) :
    resolvedNode item nodes' (σ i) = resolvedNode item nodes i := by
  rw [resolvedNode, resolvedNode, h.nodeAt_eq, h.verdict_eq, Verdict.node_map]

theorem droppedIndices_subset {item : String} {i : Nat} (hi : i ∈ droppedIndices item nodes) :
    σ i ∈ droppedIndices item nodes' := by
  rw [mem_droppedIndices] at hi ⊢
  obtain ⟨k, n, hk, hi⟩ := hi
  refine ⟨σ k, n, by rw [h.moved, hk], ?_⟩
  rw [h.verdict_eq, Verdict.dropped_map]
  exact List.mem_map_of_mem hi

theorem mem_droppedIndices_iff (item : String) (i : Nat) :
    σ i ∈ droppedIndices item nodes' ↔ i ∈ droppedIndices item nodes := by
  refine ⟨fun hi => ?_, h.droppedIndices_subset⟩
  simpa using h.symm.droppedIndices_subset hi

theorem outcome_eq (item : String) (i : Nat) : outcome item nodes' (σ i) = outcome item nodes i := by
  simp only [outcome, h.mem_droppedIndices_iff, h.resolvedNode_eq]

theorem lineageMessage_eq (l : Lineage) :
    lineageMessage nodes' (l.map σ) = lineageMessage nodes l := by
  cases l with
  | chain indices => rfl
  | cycle indices => simp [lineageMessage, Lineage.map, h.nodeAt_eq, Function.comp_def]
  | orphan child parent => simp [lineageMessage, Lineage.map, h.nodeAt_eq]

theorem complaint_eq (item : String) (i : Nat) :
    complaint item nodes' (σ i) = complaint item nodes i := by
  rw [complaint, complaint, h.nodeAt_eq, h.verdict_eq]
  cases verdict item nodes i (nodeAt nodes i) with
  | unchanged => rfl
  | composed n => rfl
  | broken l => simp only [Verdict.diagnostic?, Verdict.map, h.lineageMessage_eq]

/-- A pass over the second list finds what the first list has, in another order. -/
theorem filterMap_range {α : Type} {f f' : Nat → Option α} (hf : ∀ i, f' (σ i) = f i) :
    (List.range nodes'.length).filterMap f' =
      ((List.range nodes.length).map σ.symm).filterMap f := by
  rw [List.filterMap_map, h.length_eq]
  congr 1
  funext i
  rw [Function.comp_apply, ← hf, σ.apply_symm_apply]

end Rearranges

/-- A node whose chain is sound is composed of the nodes of its chain as they stood at first, not of
what has become of them. -/
theorem outcome_of_folds {item : String} {nodes : List Node} {i : Nat} (hf : Folds nodes i)
    (hd : ¬ Drops nodes i) :
    ∃ is r, Trail nodes i is r ∧ parentName nodes r = none ∧
      outcome item nodes i = some ((is.map (nodeAt nodes)).foldr (fun s d => merge item d s)
        ((nodeAt nodes r).rename (nodeAt nodes i).name)) := by
  obtain ⟨n, hn, -⟩ := id hf
  have hlt := (List.getElem?_eq_some_iff.mp hn).1
  have hkept : i ∉ droppedIndices item nodes := fun hi =>
    hd ((mem_droppedIndices_iff item nodes i).mp hi)
  have hdescribed := lineage_describes nodes i
  cases hl : lineage nodes i with
  | cycle indices => exact (hd (.inl ⟨hf, .inr (lineage_of_cycle hl).1⟩)).elim
  | orphan child parent => exact (hd (.inl ⟨hf, .inl (lineage_of_orphan hl).1⟩)).elim
  | chain indices =>
    rw [hl] at hdescribed
    obtain ⟨is, r, rfl, ht, hr⟩ := hdescribed
    refine ⟨is, r, ht, hr, ?_⟩
    rw [outcome, if_neg hkept, resolvedNode, verdict_of_folds (getElem?_nodeAt hlt) hf, hl]
    exact congrArg some (compose_eq_foldr item nodes _ is r)

/-- Inheritance does not depend on the order of definitions. When top-level nodes change places and
those of one name keep their order, the same nodes are dropped and the same trees composed: the
resolved nodes and the complaints are those of the nodes as they stood first, in the new order. A
composed tree is made of the nodes of its chain as they were given, wherever they stand and whatever
becomes of them. -/
theorem resolve_rearranged {σ : Equiv.Perm Nat} {root root' : Node}
    (h : Rearranges σ root.children root'.children) (item : String) :
    let first := List.range root.children.length
    let second := first.map σ.symm
    let tree := outcome item root.children
    let report := complaint item root.children
    second.Perm first ∧ root'.children = second.map (nodeAt root.children) ∧
    (resolve ⟨root, item, false⟩).root.children = first.filterMap tree ∧
    (resolve ⟨root', item, false⟩).root.children = second.filterMap tree ∧
    resolveDiagnostics ⟨root, item, false⟩ = first.filterMap report ∧
    resolveDiagnostics ⟨root', item, false⟩ = second.filterMap report ∧
    (∀ i ∈ first, (tree i = none ↔ Drops root.children i) ∧
      (Drops root'.children (σ i) ↔ Drops root.children i)) ∧
    ∀ i, Folds root.children i → ¬ Drops root.children i →
      ∃ is r, Trail root.children i is r ∧ parentName root.children r = none ∧
        tree i = some ((is.map (nodeAt root.children)).foldr (fun s d => merge item d s)
          ((nodeAt root.children r).rename (nodeAt root.children i).name)) := by
  intro first second tree report
  have hperm := h.range_perm
  rw [h.length_eq] at hperm
  refine ⟨hperm, h.nodes_eq, resolveNodes_eq_outcomes item _, ?_,
    resolutionDiagnostics_eq_complaints item _, ?_, fun i _ => ⟨?_, ?_⟩,
    fun i => outcome_of_folds⟩
  · exact (resolveNodes_eq_outcomes item _).trans (h.filterMap_range (h.outcome_eq item))
  · exact (resolutionDiagnostics_eq_complaints item _).trans
      (h.filterMap_range (h.complaint_eq item))
  · rw [← mem_droppedIndices_iff item]
    simp [tree, outcome]
  · rw [← mem_droppedIndices_iff item, ← mem_droppedIndices_iff item, h.mem_droppedIndices_iff]

/-! A rifle under a gun that has a parent itself, a second gun, and two nodes that go in a circle. -/

section

def armoury : Node :=
  let base := (Node.named "Base").setAttr "Abstract" "true"
  let gun (damage : String) : Node :=
    { (Node.named "Gun").setAttr "Parent" "Base" with
      children := [⟨"Damage", .empty, some damage, []⟩] }
  { Node.named "Defs" with
    children := [base, gun "2", (Node.named "Rifle").setAttr "Parent" "Gun", gun "5",
      (Node.named "X").setAttr "Parent" "Y", (Node.named "Y").setAttr "Parent" "X"] }

/-- Where the nodes of the armoury go. The guns keep their order. -/
def shuffle : Equiv.Perm Nat where
  toFun
    | 0 => 5
    | 1 => 2
    | 2 => 0
    | 3 => 4
    | 4 => 3
    | 5 => 1
    | n + 6 => n + 6
  invFun
    | 5 => 0
    | 2 => 1
    | 0 => 2
    | 4 => 3
    | 3 => 4
    | 1 => 5
    | n + 6 => n + 6
  left_inv i := by
    match i with
    | 0 | 1 | 2 | 3 | 4 | 5 => rfl
    | n + 6 => rfl
  right_inv i := by
    match i with
    | 0 | 1 | 2 | 3 | 4 | 5 => rfl
    | n + 6 => rfl

/-- The armoury with every child before its parent. -/
def shuffled : Node :=
  { armoury with children := [2, 5, 1, 4, 3, 0].map (nodeAt armoury.children) }

theorem armoury_rearranges : Rearranges shuffle armoury.children shuffled.children := by
  refine ⟨fun i => ?_, ?_⟩
  · match i with
    | 0 | 1 | 2 | 3 | 4 | 5 => rfl
    | n + 6 => rfl
  · have hkept : ∀ i < 6, ∀ j < 6, i < j →
        (nodeAt armoury.children i).name = (nodeAt armoury.children j).name →
        shuffle i < shuffle j := by decide
    intro i j m n hij hi hj hname
    have hlt := (List.getElem?_eq_some_iff.mp hj).1
    have hjlt : j < 6 := hlt
    rw [← nodeAt_of_getElem? hi, ← nodeAt_of_getElem? hj] at hname
    exact hkept i (by omega) j hjlt hij hname

theorem armoury_rearranged :
    Rearranges shuffle armoury.children shuffled.children ∧
      (resolve ⟨armoury, "li", false⟩).root.children.map Node.name =
        ["Base", "Gun", "Rifle", "Gun"] ∧
      (resolve ⟨shuffled, "li", false⟩).root.children.map Node.name =
        ["Rifle", "Gun", "Gun", "Base"] ∧
      (resolve ⟨shuffled, "li", false⟩).root.children.Perm
        (resolve ⟨armoury, "li", false⟩).root.children ∧
      (resolveDiagnostics ⟨shuffled, "li", false⟩).map Diagnostic.path = ["Y", "X"] := by
  obtain ⟨hperm, -, hfirst, hsecond, -, hreport, -⟩ := resolve_rearranged armoury_rearranges "li"
  refine ⟨armoury_rearranges, ?_, ?_, ?_, ?_⟩
  · rw [hfirst]
    decide
  · rw [hsecond]
    decide
  · rw [hfirst, hsecond]
    exact hperm.filterMap _
  · rw [hreport]
    decide

end

end DefLoad.Master
