import DefLoad.Proofs.Lineage
import DefLoad.Proofs.Merge
import Mathlib.Data.List.Forall2

/-!
Which nodes resolving inheritance drops and which it keeps, in terms of parents alone.
-/

namespace DefLoad.Master

/-- The node at `i` has a parent and is no template. -/
def Folds (nodes : List Node) (i : Nat) : Prop :=
  ∃ n, nodes[i]? = some n ∧ n.flag "Abstract" ≠ some true ∧ ∃ parent, n.attr "Parent" = some parent

/-- The chain of the node at `i` ends at a missing name or never ends. -/
def Broken (nodes : List Node) (i : Nat) : Prop :=
  Folds nodes i ∧ (ReachesMissing nodes i ∨ Revisits nodes i)

/-- The node at `i` has a broken chain, or lies on the endless chain of a node that is folded. -/
def Drops (nodes : List Node) (i : Nat) : Prop :=
  Broken nodes i ∨ ∃ k, Folds nodes k ∧ Revisits nodes k ∧ Above nodes k i

/-- The indices of the nodes that are kept. -/
def survivors (item : String) (nodes : List Node) : List Nat :=
  (List.range nodes.length).filter (· ∉ droppedIndices item nodes)

/-- The node that takes the place of the one at an index. -/
def resolvedNode (item : String) (nodes : List Node) (i : Nat) : Node :=
  (verdict item nodes i (nodeAt nodes i)).node (nodeAt nodes i)

variable {item : String} {nodes : List Node} {i : Nat} {n : Node}

theorem nodeAt_of_getElem? (h : nodes[i]? = some n) : nodeAt nodes i = n := by
  simp [nodeAt, h]

theorem getElem?_nodeAt (h : i < nodes.length) : nodes[i]? = some (nodeAt nodes i) := by
  simp [nodeAt, List.getElem?_eq_getElem h]

theorem folds_iff (h : nodes[i]? = some n) : Folds nodes i ↔ isFolded n = true := by
  simp [Folds, h, isFolded, Option.isSome_iff_exists]

theorem zipIdx_eq_map_range (nodes : List Node) :
    nodes.zipIdx = (List.range nodes.length).map fun i => (nodeAt nodes i, i) := by
  apply List.ext_getElem?
  intro i
  by_cases h : i < nodes.length
  · simp [h, nodeAt]
  · simp [h]

theorem verdicts_eq (item : String) (nodes : List Node) :
    verdicts item nodes = (List.range nodes.length).map fun i =>
      (i, nodeAt nodes i, verdict item nodes i (nodeAt nodes i)) := by
  simp [verdicts, zipIdx_eq_map_range]

theorem mem_droppedIndices (item : String) (nodes : List Node) (i : Nat) :
    i ∈ droppedIndices item nodes ↔
      ∃ k n, nodes[k]? = some n ∧ i ∈ (verdict item nodes k n).dropped k := by
  simp only [droppedIndices, verdicts_eq, List.mem_flatMap, List.mem_map, List.mem_range]
  constructor
  · rintro ⟨_, ⟨k, hk, rfl⟩, hi⟩
    exact ⟨k, nodeAt nodes k, getElem?_nodeAt hk, hi⟩
  · rintro ⟨k, n, hk, hi⟩
    have hn := nodeAt_of_getElem? hk
    subst hn
    exact ⟨_, ⟨k, (List.getElem?_eq_some_iff.mp hk).1, rfl⟩, hi⟩

/-! What the verdict on a node is, by its chain. -/

theorem verdict_of_not_folds (h : nodes[i]? = some n) (hf : ¬ Folds nodes i) :
    verdict item nodes i n = .unchanged := by
  rw [folds_iff h, Bool.not_eq_true] at hf
  simp [verdict, hf]

theorem verdict_of_folds (h : nodes[i]? = some n) (hf : Folds nodes i) :
    verdict item nodes i n =
      match lineage nodes i with
      | .chain indices => .composed (compose item nodes n.name indices)
      | l => .broken l := by
  rw [folds_iff h] at hf
  cases hl : lineage nodes i <;> simp [verdict, hf, hl]

theorem mem_droppedIndices_iff (item : String) (nodes : List Node) (i : Nat) :
    i ∈ droppedIndices item nodes ↔ Drops nodes i := by
  rw [mem_droppedIndices]
  constructor
  · rintro ⟨k, n, hk, hi⟩
    by_cases hf : Folds nodes k
    · rw [verdict_of_folds hk hf] at hi
      cases hl : lineage nodes k with
      | chain indices => simp [hl, Verdict.dropped] at hi
      | cycle indices =>
        obtain ⟨hr, hm⟩ := lineage_of_cycle hl
        simp only [hl, Verdict.dropped] at hi
        exact .inr ⟨k, hf, hr, (hm i).mp hi⟩
      | orphan child parent =>
        simp only [hl, Verdict.dropped, List.mem_singleton] at hi
        subst hi
        exact .inl ⟨hf, .inl (lineage_of_orphan hl).1⟩
    · simp [verdict_of_not_folds hk hf, Verdict.dropped] at hi
  · -- a node on an endless chain is dropped by the node that the chain begins with
    have hcycle (k : Nat) (hf : Folds nodes k) (hr : Revisits nodes k) (ha : Above nodes k i) :
        ∃ k n, nodes[k]? = some n ∧ i ∈ (verdict item nodes k n).dropped k := by
      obtain ⟨n, hk, -⟩ := id hf
      refine ⟨k, n, hk, ?_⟩
      rw [verdict_of_folds hk hf]
      cases hl : lineage nodes k with
      | chain indices => exact ((lineage_of_chain hl).2.1 hr).elim
      | cycle indices => exact ((lineage_of_cycle hl).2 i).mpr ha
      | orphan child parent => exact ((lineage_of_orphan hl).2 hr).elim
    rintro (⟨hf, hm | hr⟩ | ⟨k, hf, hr, ha⟩)
    · obtain ⟨n, hi, -⟩ := id hf
      refine ⟨i, n, hi, ?_⟩
      rw [verdict_of_folds hi hf]
      cases hl : lineage nodes i with
      | chain indices => exact ((lineage_of_chain hl).1 hm).elim
      | cycle indices => exact ((lineage_of_cycle hl).2 i).mpr .refl
      | orphan child parent => simp [Verdict.dropped]
    · exact hcycle i hf hr .refl
    · exact hcycle k hf hr ha

theorem mem_survivors : i ∈ survivors item nodes ↔ i < nodes.length ∧ ¬ Drops nodes i := by
  simp [survivors, mem_droppedIndices_iff]

theorem survivors_pairwise (item : String) (nodes : List Node) :
    (survivors item nodes).Pairwise (· < ·) := List.pairwise_lt_range.filter _

theorem forall₂_filterMap {α β : Type} (f : α → Option β) (l : List α) :
    List.Forall₂ (fun a b => a ∈ l ∧ f a = some b) (l.filter fun a => (f a).isSome)
      (l.filterMap f) := by
  induction l with
  | nil => exact .nil
  | cons a l ih =>
    have ih := ih.imp fun _ _ h => And.intro (List.mem_cons_of_mem a h.1) h.2
    cases ha : f a with
    | none => simpa [ha] using ih
    | some b => simpa [ha] using ih

theorem resolveNodes_eq_map (item : String) (nodes : List Node) :
    resolveNodes item nodes = (survivors item nodes).map (resolvedNode item nodes) := by
  simp only [resolveNodes, verdicts_eq, List.filterMap_map, survivors]
  rw [← List.filterMap_eq_map', ← List.filterMap_eq_filter, List.filterMap_filterMap]
  congr 1
  funext i
  by_cases hi : i ∈ droppedIndices item nodes <;> simp [hi, resolvedNode, Option.guard]

theorem compose_name (item : String) (nodes : List Node) (name : String) (indices : List Nat) :
    (compose item nodes name indices).name = name := by
  have hfold (parts : List Node) (d : Node) : (parts.foldl (merge item) d).name = d.name := by
    induction parts generalizing d with
    | nil => rfl
    | cons p ps ih => rw [List.foldl_cons, ih, merge_name]
  unfold compose
  split
  · rfl
  · rw [hfold]; rfl

theorem resolvedNode_name (h : nodes[i]? = some n) : (resolvedNode item nodes i).name = n.name := by
  rw [resolvedNode, nodeAt_of_getElem? h]
  by_cases hf : Folds nodes i
  · rw [verdict_of_folds h hf]
    cases lineage nodes i with
    | chain indices => exact compose_name item nodes n.name indices
    | cycle indices => rfl
    | orphan child parent => rfl
  · rw [verdict_of_not_folds h hf]; rfl

theorem resolvedNode_of_not_folds (h : nodes[i]? = some n) (hf : ¬ Folds nodes i) :
    resolvedNode item nodes i = n := by
  rw [resolvedNode, nodeAt_of_getElem? h, verdict_of_not_folds h hf]; rfl

/-- No cycle runs into a chain that has a root. -/
theorem not_drops_of_root {r : Nat} (h : Above nodes i r) (hr : parentName nodes r = none) :
    ¬ Drops nodes i := by
  have hend := not_isParent_of_root hr
  rintro (⟨-, hm | hv⟩ | ⟨k, -, hv, hki⟩)
  · exact not_reachesMissing_of_root h hr hm
  · exact not_revisits_of_end h hend hv
  · exact not_revisits_of_end (hki.trans h) hend hv

/-- A sound chain is kept as a whole. -/
theorem not_drops_of_above {j : Nat} (hf : Folds nodes i) (hs : ¬ Broken nodes i)
    (ha : Above nodes i j) : ¬ Drops nodes j := by
  obtain ⟨r, h, hr⟩ := exists_root (fun hm => hs ⟨hf, .inl hm⟩) (fun hv => hs ⟨hf, .inr hv⟩)
  exact not_drops_of_root (above_end h (not_isParent_of_root hr) ha) hr

/-! The complaints. -/

theorem diagnostic?_isSome (h : nodes[i]? = some n) :
    ((verdict item nodes i n).diagnostic? nodes n).isSome ↔ Broken nodes i := by
  by_cases hf : Folds nodes i
  · rw [verdict_of_folds h hf]
    cases hl : lineage nodes i with
    | chain indices =>
      obtain ⟨hm, hr, -⟩ := lineage_of_chain hl
      simp [Verdict.diagnostic?, Broken, hm, hr]
    | cycle indices =>
      simp [Verdict.diagnostic?, lineageMessage, Broken, hf, (lineage_of_cycle hl).1]
    | orphan child parent =>
      simp [Verdict.diagnostic?, lineageMessage, Broken, hf, (lineage_of_orphan hl).1]
  · simp [verdict_of_not_folds h hf, Verdict.diagnostic?, Broken, hf]

theorem diagnostic?_eq {d : Diagnostic} {v : Verdict} (h : v.diagnostic? nodes n = some d) :
    d.severity = .error ∧ d.stage = .resolution ∧ d.path = n.name := by
  cases v with
  | unchanged => simp [Verdict.diagnostic?] at h
  | composed m => simp [Verdict.diagnostic?] at h
  | broken l =>
    obtain ⟨message, -, rfl⟩ := Option.map_eq_some_iff.mp h
    exact ⟨rfl, rfl, rfl⟩

/-- One complaint for each broken chain, in order. -/
theorem resolutionDiagnostics_forall₂ (item : String) (nodes : List Node) :
    ∃ broken : List Nat, broken.Pairwise (· < ·) ∧ (∀ i, i ∈ broken ↔ Broken nodes i) ∧
      List.Forall₂ (fun i d => ∃ n, nodes[i]? = some n ∧ d.severity = Severity.error ∧
        d.stage = Stage.resolution ∧ d.path = n.name) broken (resolutionDiagnostics item nodes) := by
  let f := fun i => (verdict item nodes i (nodeAt nodes i)).diagnostic? nodes (nodeAt nodes i)
  refine ⟨(List.range nodes.length).filter fun i => (f i).isSome, ?_, ?_, ?_⟩
  · exact List.pairwise_lt_range.filter _
  · intro i
    simp only [List.mem_filter, List.mem_range]
    constructor
    · rintro ⟨hi, hd⟩
      exact (diagnostic?_isSome (getElem?_nodeAt hi)).mp hd
    · intro hb
      obtain ⟨n, hn, -⟩ := id hb.1
      have hi := (List.getElem?_eq_some_iff.mp hn).1
      exact ⟨hi, (diagnostic?_isSome (getElem?_nodeAt hi)).mpr hb⟩
  · have hds : resolutionDiagnostics item nodes = (List.range nodes.length).filterMap f := by
      simp only [resolutionDiagnostics, verdicts_eq, List.filterMap_map]
      rfl
    rw [hds]
    refine (forall₂_filterMap f _).imp fun i d h => ?_
    exact ⟨nodeAt nodes i, getElem?_nodeAt (List.mem_range.mp h.1), diagnostic?_eq h.2⟩

/-- Resolving inheritance drops just the nodes with a broken chain and those on the endless chain of
a folded node. The others stay in order under their names, together with all that lies above a
folded one; a node that is not folded stays as it is. Each broken chain is reported once, in order,
and no chain is cut off for want of steps. -/
theorem resolve_drops_exactly (root : Node) (item : String) :
    (∀ steps, root.children.length < steps →
      ∀ i, climb root.children steps [] i = lineage root.children i) ∧
    (survivors item root.children).Pairwise (· < ·) ∧
    (∀ i, i ∈ survivors item root.children ↔
      i < root.children.length ∧ ¬ Drops root.children i) ∧
    List.Forall₂
      (fun i n => ∃ old, root.children[i]? = some old ∧ n.name = old.name ∧
        (¬ Folds root.children i → n = old))
      (survivors item root.children) (resolve ⟨root, item, false⟩).root.children ∧
    (∀ i, Folds root.children i →
      (i ∈ survivors item root.children ↔ ¬ Broken root.children i) ∧
      (i ∈ survivors item root.children →
        ∀ j, Above root.children i j → j ∈ survivors item root.children)) ∧
    ∃ broken : List Nat, broken.Pairwise (· < ·) ∧ (∀ i, i ∈ broken ↔ Broken root.children i) ∧
      List.Forall₂
        (fun i d => ∃ n, root.children[i]? = some n ∧ d.severity = Severity.error ∧
          d.stage = Stage.resolution ∧ d.path = n.name)
        broken (resolveDiagnostics ⟨root, item, false⟩) := by
  refine ⟨fun steps h i => climb_eq_lineage root.children i steps h,
    survivors_pairwise item root.children, fun i => mem_survivors, ?_, ?_,
    resolutionDiagnostics_forall₂ item root.children⟩
  · show List.Forall₂ _ _ (resolveNodes item root.children)
    rw [resolveNodes_eq_map, List.forall₂_map_right_iff, List.forall₂_same]
    intro i hi
    have hn := getElem?_nodeAt (mem_survivors.mp hi).1
    exact ⟨_, hn, resolvedNode_name hn, resolvedNode_of_not_folds hn⟩
  · intro i hf
    have hkept (hs : ¬ Broken root.children i) (j : Nat) (ha : Above root.children i j) :
        j ∈ survivors item root.children := by
      obtain ⟨n, hn, -⟩ := id hf
      have hlt := (List.getElem?_eq_some_iff.mp hn).1
      exact mem_survivors.mpr ⟨ha.lt hlt, not_drops_of_above hf hs ha⟩
    have hsound (hi : i ∈ survivors item root.children) : ¬ Broken root.children i :=
      fun hb => (mem_survivors.mp hi).2 (.inl hb)
    exact ⟨⟨hsound, fun hs => hkept hs i .refl⟩, fun hi => hkept (hsound hi)⟩

end DefLoad.Master
