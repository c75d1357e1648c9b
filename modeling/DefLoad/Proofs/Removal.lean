import DefLoad.Proofs.Revision

/-!
Removing comes to one pass over the tree as it was. The last match goes first, so what is removed
lies below or behind the matches that are left and their paths stay what they were.
-/

namespace DefLoad

namespace Node

mutual

/-- The nodes of a tree with their paths, in document order. -/
def listing : Node → List (List Nat × Node)
  | ⟨name, attrs, text, children⟩ => ([], ⟨name, attrs, text, children⟩) :: listingAll 0 children

/-- The nodes of the trees of children, the first of which has the given place. -/
def listingAll : Nat → List Node → List (List Nat × Node)
  | _, [] => []
  | i, c :: cs => (listing c).map (fun e => (i :: e.1, e.2)) ++ listingAll (i + 1) cs

end

/-- What a node is apart from its children, and how deep it stands. -/
def line (e : List Nat × Node) : Nat × String × Attributes × Option String :=
  (e.1.length, e.2.name, e.2.attrs, e.2.text)

end Node

namespace Selector

theorem pathBefore_cons_iff {i j : Nat} {p q : List Nat} :
    PathBefore (i :: p) (j :: q) ↔ i < j ∨ i = j ∧ PathBefore p q := by
  simp only [pathBefore_iff_lex]
  exact List.cons_lex_cons_iff

end Selector

open Node (listing listingAll line)
open Selector (PathBefore pathBefore_cons_iff)

namespace TreeEdit

mutual

/-- The tree without the marked nodes below its root. -/
def prune (M : Marks) : Node → Node
  | ⟨name, attrs, text, children⟩ => ⟨name, attrs, text, pruneAll M 0 children⟩

/-- The children that are not marked, pruned in turn. The first one has the given place. -/
def pruneAll (M : Marks) : Nat → List Node → List Node
  | _, [] => []
  | i, c :: cs =>
    if M [i] then pruneAll M (i + 1) cs else prune (M.below i) c :: pruneAll M (i + 1) cs

end

/-- No node on the path is marked, the root apart. -/
def spared : Marks → List Nat → Bool
  | _, [] => true
  | M, i :: p => !M [i] && spared (M.below i) p

variable {M M' : Marks} {root n c : Node} {i : Nat} {p : List Nat}

theorem prune_eq (M : Marks) (n : Node) :
    prune M n = { n with children := pruneAll M 0 n.children } := by
  cases n
  rfl

theorem pruneAll_append (M : Marks) (k : Nat) (cs ds : List Node) :
    pruneAll M k (cs ++ ds) = pruneAll M k cs ++ pruneAll M (k + cs.length) ds := by
  induction cs generalizing k with
  | nil => rfl
  | cons c cs ih =>
    have hrest : k + 1 + cs.length = k + (c :: cs).length := by
      rw [List.length_cons]
      omega
    rw [List.cons_append, pruneAll, pruneAll, ih, hrest]
    split <;> rfl

/-- Only marks on the children and below them matter. -/
theorem pruneAll_congr {k : Nat} (cs : List Node)
    (h : ∀ j, k ≤ j → j < k + cs.length → M.below j = M'.below j) :
    pruneAll M k cs = pruneAll M' k cs := by
  induction cs generalizing k with
  | nil => rfl
  | cons c cs ih =>
    simp only [List.length_cons] at h
    have hk : M.below k = M'.below k := h k (Nat.le_refl k) (by omega)
    have hmark : M [k] = M' [k] := congrFun hk []
    rw [pruneAll, pruneAll, hk, hmark, ih fun j hj hlt => h j (by omega) (by omega)]

theorem length_pruneAll {k : Nat} {cs : List Node}
    (h : ∀ j, k ≤ j → j < k + cs.length → M [j] = false) :
    (pruneAll M k cs).length = cs.length := by
  induction cs generalizing k with
  | nil => rfl
  | cons c cs ih =>
    simp only [List.length_cons] at h
    have hk : M [k] = false := h k (Nat.le_refl k) (by omega)
    rw [pruneAll, hk, if_neg Bool.false_ne_true, List.length_cons, List.length_cons,
      ih fun j hj hlt => h j (by omega) (by omega)]

mutual

theorem prune_unmarked (n : Node) : prune (fun _ => false) n = n := by
  obtain ⟨name, attrs, text, children⟩ := n
  rw [prune, pruneAll_unmarked 0 children]

theorem pruneAll_unmarked (k : Nat) (cs : List Node) : pruneAll (fun _ => false) k cs = cs := by
  cases cs with
  | nil => rfl
  | cons c cs =>
    have hc := prune_unmarked c
    have hcs := pruneAll_unmarked (k + 1) cs
    rw [pruneAll, hcs, if_neg Bool.false_ne_true]
    congr 1

end

/-- The root is never removed. -/
theorem prune_mark_nil : prune (M.mark []) root = prune M root := by
  have hbelow (j : Nat) : (M.mark []).below j = M.below j := by
    funext q
    simp [Marks.mark, Marks.below]
  rw [prune_eq, prune_eq, pruneAll_congr root.children fun j _ _ => hbelow j]

theorem Marks.of_cons (p : List Nat) (ps : List (List Nat)) :
    Marks.of (p :: ps) = (Marks.of ps).mark p := by
  funext q
  by_cases hq : q = p <;> simp [Marks.mark, Marks.of, hq]

/-! All marks come after a path. -/

theorem unmarked_of_before (hM : ∀ q, M q = true → PathBefore (i :: p) q) {j : Nat} (hj : j ≤ i) :
    M [j] = false := by
  rw [← Bool.not_eq_true]
  intro hm
  rcases pathBefore_cons_iff.mp (hM [j] hm) with hlt | ⟨rfl, hle, hne⟩
  · omega
  · cases p with
    | nil => exact hne rfl
    | cons k p => cases hle

theorem below_before (hM : ∀ q, M q = true → PathBefore (i :: p) q) :
    ∀ q, M.below i q = true → PathBefore p q := by
  intro q hq
  rcases pathBefore_cons_iff.mp (hM (i :: q) hq) with hlt | ⟨-, hbefore⟩
  · omega
  · exact hbefore

/-- Up to a child and itself nothing is missing, and one more mark on it or below it does not touch
the others. -/
theorem pruneAll_split {cs : List Node} (hc : cs[i]? = some c) (hM : ∀ j ≤ i, M [j] = false) :
    ∃ before after, before.length = i ∧
      pruneAll M 0 cs = before ++ prune (M.below i) c :: after ∧
      ∀ p, pruneAll (M.mark (i :: p)) 0 cs =
        before ++ if p = [] then after else prune ((M.below i).mark p) c :: after := by
  obtain ⟨hlt, hget⟩ := List.getElem?_eq_some_iff.mp hc
  have hcs : cs = cs.take i ++ c :: cs.drop (i + 1) := by
    rw [← hget, List.getElem_cons_drop, List.take_append_drop]
  have hlength : (cs.take i).length = i := List.length_take_of_le (by omega)
  refine ⟨pruneAll M 0 (cs.take i), pruneAll M (i + 1) (cs.drop (i + 1)), ?_, ?_, fun p => ?_⟩
  · rw [length_pruneAll fun j _ hj => hM j (by omega), hlength]
  · conv_lhs => rw [hcs]
    rw [pruneAll_append, hlength, pruneAll, Nat.zero_add, hM i (Nat.le_refl i),
      if_neg Bool.false_ne_true]
  · have hother {j : Nat} (hj : j ≠ i) : (M.mark (i :: p)).below j = M.below j :=
      Marks.below_mark_ne hj
    have hmark : (M.mark (i :: p)) [i] = decide (p = []) := by
      cases p <;> simp [Marks.mark, hM i (Nat.le_refl i)]
    conv_lhs => rw [hcs]
    rw [pruneAll_append, hlength, pruneAll, Nat.zero_add, hmark, Marks.below_mark,
      pruneAll_congr (cs.take i) fun j _ hj => hother (by omega),
      pruneAll_congr (cs.drop (i + 1)) fun j hj _ => hother (by omega)]
    simp

/-- A path before all marks leads to the same node as in the tree from which nothing is missing. -/
theorem at?_prune (hn : root.at? p = some n) (hM : ∀ q, M q = true → PathBefore p q) :
    (prune M root).at? p = some (prune (fun q => M (p ++ q)) n) := by
  induction p generalizing M root with
  | nil =>
    rw [Node.at?_nil] at hn ⊢
    cases hn
    rfl
  | cons i p ih =>
    obtain ⟨c, hc, hcn⟩ := Option.bind_eq_some_iff.mp hn
    obtain ⟨before, after, hlength, hpruned, -⟩ :=
      pruneAll_split hc fun j hj => unmarked_of_before hM hj
    have hchild : (prune M root).children[i]? = some (prune (M.below i) c) := by
      rw [prune_eq, hpruned, ← hlength]
      simp
    rw [Node.at?, hchild]
    exact ih hcn (below_before hM)

/-- Removing the node at a path before all marks is marking it too. -/
theorem eraseAt_prune (hn : root.at? p = some n) (hp : p ≠ [])
    (hM : ∀ q, M q = true → PathBefore p q) :
    (prune M root).eraseAt p = prune (M.mark p) root := by
  induction p generalizing M root with
  | nil => exact absurd rfl hp
  | cons i p ih =>
    obtain ⟨c, hc, hcn⟩ := Option.bind_eq_some_iff.mp hn
    obtain ⟨before, after, hlength, hpruned, hmarked⟩ :=
      pruneAll_split hc fun j hj => unmarked_of_before hM hj
    rw [prune_eq, prune_eq (M.mark (i :: p)), hpruned, hmarked p, ← hlength]
    cases p with
    | nil => simp [Node.eraseAt, Node.erasePath, List.eraseIdx_append_of_length_le]
    | cons k p =>
      have hchild : Node.erasePath (k :: p) (prune (M.below i) c) =
          prune ((M.below i).mark (k :: p)) c :=
        ih hcn (List.cons_ne_nil k p) (below_before hM)
      rw [Node.eraseAt, Node.erasePath, if_neg (List.cons_ne_nil k p), hlength, ← hchild,
        List.modify_eq_take_drop]
      simp [← hlength]

/-- From the last match to the first: every removal finds its node, and the root stays. -/
theorem removeAll_prunes {found : List (List Nat)} (horder : found.Pairwise PathBefore)
    (hlive : ∀ p ∈ found, ∃ n, root.at? p = some n) :
    removeAll found root = ((found.filter (· ≠ [])).length, prune (.of found) root) := by
  induction found with
  | nil =>
    rw [Marks.of_nil, prune_unmarked]
    rfl
  | cons p ps ih =>
    obtain ⟨hbefore, horder⟩ := List.pairwise_cons.mp horder
    obtain ⟨n, hn⟩ := hlive p List.mem_cons_self
    have hM : ∀ q, Marks.of ps q = true → PathBefore p q := by simpa [Marks.of] using hbefore
    rw [removeAll, ih horder fun q hq => hlive q (List.mem_cons_of_mem p hq), Marks.of_cons]
    cases p with
    | nil =>
      rw [prune_mark_nil]
      simp [Node.removable?]
    | cons i p =>
      have hfound := at?_prune hn hM
      rw [← eraseAt_prune hn (List.cons_ne_nil i p) hM]
      simp [Node.removable?, hfound]

/-- When the turn of a match comes, what it has matched is still there. -/
theorem removable?_removeAll {before after : List (List Nat)}
    (horder : (before ++ p :: after).Pairwise PathBefore)
    (hlive : ∀ q ∈ before ++ p :: after, ∃ n, root.at? q = some n) (hp : p ≠ []) :
    ∃ n m, root.at? p = some n ∧ (removeAll after root).2.removable? p = some m ∧
      line (p, m) = line (p, n) := by
  obtain ⟨n, hn⟩ := hlive p (by simp)
  obtain ⟨hfirst, hafter⟩ := List.pairwise_cons.mp (List.pairwise_append.mp horder).2.1
  have hM : ∀ q, Marks.of after q = true → PathBefore p q := by simpa [Marks.of] using hfirst
  have hlater : ∀ q ∈ after, ∃ n, root.at? q = some n := fun q hq => hlive q (by simp [hq])
  refine ⟨n, prune (fun q => Marks.of after (p ++ q)) n, hn, ?_, by rw [prune_eq]; rfl⟩
  rw [removeAll_prunes hafter hlater]
  cases p with
  | nil => exact absurd rfl hp
  | cons i p => exact at?_prune hn hM

/-! What the pruned tree holds. -/

theorem lines_below (i : Nat) (es : List (List Nat × Node)) :
    (es.map fun e => (i :: e.1, e.2)).map line = (es.map line).map fun l => (l.1 + 1, l.2) := by
  simp only [List.map_map]
  rfl

theorem filter_below (M : Marks) (i : Nat) (es : List (List Nat × Node)) :
    (es.map fun e => (i :: e.1, e.2)).filter (spared M ·.1) =
      if M [i] then [] else (es.filter (spared (M.below i) ·.1)).map fun e => (i :: e.1, e.2) := by
  rw [List.filter_map]
  cases hm : M [i] with
  | true => simp [Function.comp_def, spared, hm]
  | false => simp [Function.comp_def, spared, hm]

mutual

/-- Line by line the pruned tree is the tree itself without the nodes on whose path a mark lies. -/
theorem lines_prune (M : Marks) (n : Node) :
    (listing (prune M n)).map line = ((listing n).filter (spared M ·.1)).map line := by
  obtain ⟨name, attrs, text, children⟩ := n
  have hchildren := lines_pruneAll M 0 0 children
  rw [prune, listing, listing, List.map_cons, hchildren, List.filter_cons_of_pos rfl]
  rfl

theorem lines_pruneAll (M : Marks) (j k : Nat) (cs : List Node) :
    (listingAll j (pruneAll M k cs)).map line =
      ((listingAll k cs).filter (spared M ·.1)).map line := by
  cases cs with
  | nil => rfl
  | cons c cs =>
    have hc := lines_prune (M.below k) c
    rw [pruneAll, listingAll, List.filter_append, filter_below]
    split
    case isTrue => rw [lines_pruneAll M j (k + 1) cs, List.nil_append]
    case isFalse =>
      rw [listingAll, List.map_append, List.map_append, lines_below, lines_below, hc,
        lines_pruneAll M (j + 1) (k + 1) cs]

end

/-- A node is spared when none of the matches, the root apart, is the node or lies above it. -/
theorem spared_iff : spared M p = true ↔ ∀ q, M q = true → q ≠ [] → ¬ q <+: p := by
  induction p generalizing M with
  | nil => simp [spared]
  | cons i p ih =>
    simp only [spared, Bool.and_eq_true, Bool.not_eq_true', ih]
    constructor
    · rintro ⟨hi, hbelow⟩ q hq hne hprefix
      cases q with
      | nil => exact hne rfl
      | cons j q =>
        obtain ⟨rfl, hrest⟩ := List.cons_prefix_cons.mp hprefix
        by_cases hnil : q = []
        · subst hnil
          rw [hi] at hq
          cases hq
        · exact hbelow q hq hnil hrest
    · intro h
      refine ⟨?_, fun q hq hne hprefix => ?_⟩
      · rw [← Bool.not_eq_true]
        exact fun hi => h [i] hi (List.cons_ne_nil i []) (by simp)
      · exact h (i :: q) hq (List.cons_ne_nil i q) (List.cons_prefix_cons.mpr ⟨rfl, hprefix⟩)

/-! The listing of a tree. -/

mutual

theorem mem_listing (n m : Node) (p : List Nat) : (p, m) ∈ listing n ↔ n.at? p = some m := by
  obtain ⟨name, attrs, text, children⟩ := n
  rw [listing, List.mem_cons, mem_listingAll 0 children p m]
  cases p with
  | nil => simp [eq_comm]
  | cons i p => simp [Node.at?, Option.bind_eq_some_iff]

theorem mem_listingAll (k : Nat) (cs : List Node) (p : List Nat) (m : Node) :
    (p, m) ∈ listingAll k cs ↔
      ∃ i q c, p = (k + i) :: q ∧ cs[i]? = some c ∧ c.at? q = some m := by
  cases cs with
  | nil => simp [listingAll]
  | cons c cs =>
    rw [listingAll, List.mem_append, mem_listingAll (k + 1) cs p m, List.mem_map]
    constructor
    · rintro (⟨⟨q, d⟩, hmem, he⟩ | ⟨i, q, d, rfl, hd, hat⟩)
      · cases he
        exact ⟨0, q, c, rfl, rfl, (mem_listing c d q).mp hmem⟩
      · exact ⟨i + 1, q, d, by rw [Nat.add_right_comm, Nat.add_assoc], hd, hat⟩
    · rintro ⟨i, q, d, rfl, hd, hat⟩
      cases i with
      | zero =>
        cases hd
        exact .inl ⟨(q, m), (mem_listing c m q).mpr hat, rfl⟩
      | succ i =>
        exact .inr ⟨i, q, d, by rw [Nat.add_right_comm, Nat.add_assoc], hd, hat⟩

end

mutual

theorem listing_ordered (n : Node) : (listing n).Pairwise fun d e => PathBefore d.1 e.1 := by
  obtain ⟨name, attrs, text, children⟩ := n
  refine List.pairwise_cons.mpr ⟨?_, listingAll_ordered 0 children⟩
  rintro ⟨p, m⟩ hmem
  obtain ⟨i, q, c, rfl, -⟩ := (mem_listingAll 0 children p m).mp hmem
  exact ⟨rfl, (List.cons_ne_nil _ q).symm⟩

theorem listingAll_ordered (k : Nat) (cs : List Node) :
    (listingAll k cs).Pairwise fun d e => PathBefore d.1 e.1 := by
  cases cs with
  | nil => exact .nil
  | cons c cs =>
    refine List.pairwise_append.mpr ⟨?_, listingAll_ordered (k + 1) cs, ?_⟩
    · exact List.pairwise_map.mpr ((listing_ordered c).imp fun h =>
        pathBefore_cons_iff.mpr (.inr ⟨rfl, h⟩))
    · intro d hd e he
      obtain ⟨e', -, rfl⟩ := List.mem_map.mp hd
      obtain ⟨i, q, c', he, -⟩ := (mem_listingAll (k + 1) cs e.1 e.2).mp he
      rw [he]
      exact pathBefore_cons_iff.mpr (.inl (by omega))

end

/-- A patch that removes gives the tree of all nodes that are not matched and have no matched
ancestor, the root apart, each as deep as before and with its attributes and text. Every matched
node is found and removed when its turn comes, also when it lies in another one, and counted once;
the root stays. -/
theorem execute_removes (patch : TreeEdit) (root : Node) {selector : Selector}
    (hpath : Selector.parse patch.path = .ok selector) (hop : patch.operation = .remove) :
    let found := selector.select root
    let targets := found.filter (· ≠ [])
    let tree := prune (.of found) root
    patch.execute root = (.ofCount targets.length, tree) ∧ targets.Nodup ∧
    (∀ before p after, found = before ++ p :: after → p ≠ [] →
      ∃ n m, root.at? p = some n ∧ (removeAll after root).2.removable? p = some m ∧
        line (p, m) = line (p, n)) ∧
    (listing tree).map line =
      ((listing root).filter fun e => ∀ p ∈ targets, ¬ p <+: e.1).map line ∧
    (∀ p n, (p, n) ∈ listing root ↔ root.at? p = some n) ∧
    (listing root).Pairwise fun d e => PathBefore d.1 e.1 := by
  intro found targets tree
  have horder := selector.select_pathBefore root
  have hlive := selector.select_live root
  refine ⟨?_, ?_, ?_, ?_, fun p n => mem_listing root n p, listing_ordered root⟩
  · have hrun : removeAll (selector.select root) root = _ := removeAll_prunes horder hlive
    simp only [execute, hpath, hop, if_true, hrun]
    rfl
  · exact (horder.imp fun h => h.2).filter _
  · intro before p after hsplit
    have hselect : selector.select root = before ++ p :: after := hsplit
    rw [hselect] at horder hlive
    exact removable?_removeAll horder hlive
  · have hspared (e : List Nat × Node) :
        spared (.of found) e.1 = decide (∀ p ∈ targets, ¬ p <+: e.1) := by
      rw [Bool.eq_iff_iff, spared_iff, decide_eq_true_iff]
      simp [targets, Marks.of]
    rw [lines_prune, funext hspared]

section

/-- Nodes that have stats. -/
def holders : Selector := ⟨true, [⟨true, .any, [.hasChild "Stats"]⟩]⟩

def discard : TreeEdit := ⟨"//*[Stats]", .remove, none⟩

/-- The root is among the matches, and one of the others lies in another one. -/
theorem crates_discarded :
    Selector.parse discard.path = .ok holders ∧ discard.operation = .remove ∧
      holders.select crates = [[], [0], [0, 0]] ∧
      discard.execute crates = (.ofCount 2, ⟨"Defs", .empty, none, [.named "Stats"]⟩) := by
  have hpath : Selector.parse discard.path = .ok holders := by cbv
  have hfound : holders.select crates = [[], [0], [0, 0]] := by cbv
  obtain ⟨hrun, -⟩ := execute_removes discard crates hpath rfl
  rw [hfound] at hrun
  exact ⟨hpath, rfl, hfound, hrun⟩

end

end TreeEdit

end DefLoad
