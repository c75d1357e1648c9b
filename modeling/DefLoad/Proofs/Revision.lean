import DefLoad.Patch
import DefLoad.Proofs.Selection
import Mathlib.Data.List.Permutation

/-!
Adding and replacing come to one pass over the tree as it was. The matches are edited one after the
other, each in the tree that the ones before it have left; that is the same as deciding on all
matched nodes at once, but for those inside a child that is replaced.
-/

namespace DefLoad

open Selector (PathBefore pathLe pathLe_append)

namespace TreeEdit

/-- What is done with the children of a node. -/
inductive Action
  /-- The child at this place gives way to the fragment. -/
  | replace (i : Nat)
  /-- The fragment comes last. -/
  | append
deriving DecidableEq, Repr

/-- The action on a matched node: a first child of the fragment's name can be replaced, a missing
one can be added. -/
def action? (op : Operation) (name : String) (n : Node) : Option Action :=
  match n.children.findIdx? (·.name == name) with
  | some i => if op = .modify ∨ op = .modifyOrAdd then some (.replace i) else none
  | none => if op = .add ∨ op = .modifyOrAdd then some .append else none

def Action.apply (fragment : Node) : Option Action → List Node → List Node
  | none, cs => cs
  | some (.replace i), cs => cs.set i fragment
  | some .append, cs => cs ++ [fragment]

def Action.replaced? : Action → Option Nat
  | .replace i => some i
  | .append => none

/-- The paths of matched nodes. -/
abbrev Marks := List Nat → Bool

/-- The marks below a child. -/
def Marks.below (M : Marks) (i : Nat) : Marks := fun p => M (i :: p)

def Marks.of (ps : List (List Nat)) : Marks := fun p => p ∈ ps

section

variable (op : Operation) (fragment : Node)

def decide? (M : Marks) (n : Node) : Option Action :=
  if M [] then action? op fragment.name n else none

mutual

/-- One pass: every marked node is decided on as it stands, and below it the pass goes on. -/
def revise (M : Marks) : Node → Node
  | ⟨name, attrs, text, children⟩ =>
    let n : Node := ⟨name, attrs, text, children⟩
    { n with children := Action.apply fragment (decide? op fragment M n) (reviseAll M 0 children) }

/-- Passes through children, the first of which has the given place. -/
def reviseAll (M : Marks) : Nat → List Node → List Node
  | _, [] => []
  | i, c :: cs => revise (M.below i) c :: reviseAll M (i + 1) cs

end

/-- The path leads into a child that is replaced, or to that child itself. -/
def inReplaced : Marks → Node → List Nat → Bool
  | _, _, [] => false
  | M, n, i :: p =>
    decide? op fragment M n = some (.replace i) ||
      (n.children[i]?).any fun c => inReplaced (M.below i) c p

/-- There is an action on the node at a path, if it is marked. -/
def isActed (M : Marks) (root : Node) (p : List Nat) : Bool :=
  !inReplaced op fragment M root p && ((root.at? p).bind (action? op fragment.name)).isSome

/-- The matched nodes on which there is an action. -/
def acted (found : List (List Nat)) (root : Node) : List (List Nat) :=
  found.filter (isActed op fragment (.of found) root)

end

section

variable {op : Operation} {fragment : Node} {M : Marks} {n c root : Node} {i : Nat} {p : List Nat}

theorem edit_eq : edit op fragment n = (action? op fragment.name n).map fun a =>
    ({ n with children := Action.apply fragment (some a) n.children }, a.replaced?) := by
  unfold edit action?
  cases op <;> cases n.children.findIdx? (·.name == fragment.name) <;> rfl

theorem revise_eq (M : Marks) (n : Node) : revise op fragment M n =
    { n with
      children := Action.apply fragment (decide? op fragment M n)
        (reviseAll op fragment M 0 n.children) } := by
  cases n
  rfl

theorem getElem?_reviseAll (M : Marks) (k : Nat) (cs : List Node) (i : Nat) :
    (reviseAll op fragment M k cs)[i]? =
      (cs[i]?).map (revise op fragment (M.below (k + i))) := by
  induction cs generalizing k i with
  | nil => rfl
  | cons c cs ih =>
    cases i with
    | zero => rfl
    | succ i =>
      simp only [reviseAll, List.getElem?_cons_succ, ih]
      rw [Nat.add_right_comm, Nat.add_assoc]

theorem length_reviseAll (M : Marks) (k : Nat) (cs : List Node) :
    (reviseAll op fragment M k cs).length = cs.length := by
  induction cs generalizing k with
  | nil => rfl
  | cons c cs ih => simp [reviseAll, ih]

mutual

/-- Where nothing is marked nothing changes. -/
theorem revise_unmarked (n : Node) : revise op fragment (fun _ => false) n = n := by
  obtain ⟨name, attrs, text, children⟩ := n
  rw [revise, reviseAll_unmarked 0 children]
  rfl

theorem reviseAll_unmarked (k : Nat) (cs : List Node) :
    reviseAll op fragment (fun _ => false) k cs = cs := by
  cases cs with
  | nil => rfl
  | cons c cs =>
    have hc := revise_unmarked c
    have hcs := reviseAll_unmarked (k + 1) cs
    rw [reviseAll, hcs]
    congr 1

end

/-! Following a path through the revised tree. -/

theorem inReplaced_cons : inReplaced op fragment M root (i :: p) = false ↔
    decide? op fragment M root ≠ some (.replace i) ∧
      ∀ c, root.children[i]? = some c → inReplaced op fragment (M.below i) c p = false := by
  rw [inReplaced, Bool.or_eq_false_iff, decide_eq_false_iff_not]
  cases root.children[i]? with
  | none => simp
  | some c => simp

/-- An action elsewhere leaves a child where it is. -/
theorem getElem?_apply {a : Option Action} {cs : List Node} (ha : a ≠ some (.replace i))
    (hi : i < cs.length) : (Action.apply fragment a cs)[i]? = cs[i]? := by
  cases a with
  | none => rfl
  | some a =>
    cases a with
    | replace j =>
      have hj : j ≠ i := fun he => ha (by rw [he])
      exact List.getElem?_set_ne hj
    | append => exact List.getElem?_append_left hi

theorem child_revise (hc : root.children[i]? = some c)
    (hi : decide? op fragment M root ≠ some (.replace i)) :
    (revise op fragment M root).children[i]? = some (revise op fragment (M.below i) c) := by
  have hlt : i < (reviseAll op fragment M 0 root.children).length := by
    rw [length_reviseAll]
    exact (List.getElem?_eq_some_iff.mp hc).1
  rw [revise_eq, getElem?_apply hi hlt, getElem?_reviseAll, hc, Nat.zero_add]
  rfl

/-- A node that is not in a replaced child is found again, revised, on its path. -/
theorem at?_revise (hn : root.at? p = some n) (hp : inReplaced op fragment M root p = false) :
    (revise op fragment M root).at? p = some (revise op fragment (fun q => M (p ++ q)) n) := by
  induction p generalizing M root with
  | nil =>
    rw [Node.at?_nil] at hn ⊢
    cases hn
    rfl
  | cons i p ih =>
    obtain ⟨c, hc, hcn⟩ := Option.bind_eq_some_iff.mp hn
    obtain ⟨hi, hbelow⟩ := inReplaced_cons.mp hp
    rw [Node.at?, child_revise hc hi]
    exact ih hcn (hbelow c hc)

/-! Marking one more node. -/

/-- The marks and one more path. -/
def Marks.mark (M : Marks) (p : List Nat) : Marks := fun q => M q || q == p

theorem Marks.mark_of (ps : List (List Nat)) (p : List Nat) :
    (Marks.of ps).mark p = .of (ps ++ [p]) := by
  funext q
  by_cases hq : q = p <;> simp [Marks.mark, Marks.of, hq]

theorem Marks.below_mark (M : Marks) (i : Nat) (p : List Nat) :
    (M.mark (i :: p)).below i = (M.below i).mark p := by
  funext q
  simp [Marks.mark, Marks.below]

theorem Marks.below_mark_ne {j : Nat} (h : j ≠ i) : (M.mark (i :: p)).below j = M.below j := by
  funext q
  simp [Marks.mark, Marks.below, h]

theorem decide?_mark_cons :
    decide? op fragment (M.mark (i :: p)) n = decide? op fragment M n := by
  simp [decide?, Marks.mark]

theorem decide?_mark_nil :
    decide? op fragment (M.mark []) n = action? op fragment.name n := by
  simp [decide?, Marks.mark]

/-- One more mark below a child changes no other child. -/
theorem reviseAll_mark {g : Node → Node} {cs : List Node} (hc : cs[i]? = some c)
    (h : revise op fragment ((M.below i).mark p) c = g (revise op fragment (M.below i) c)) :
    reviseAll op fragment (M.mark (i :: p)) 0 cs = (reviseAll op fragment M 0 cs).modify i g := by
  apply List.ext_getElem?
  intro j
  rw [List.getElem?_modify, getElem?_reviseAll, getElem?_reviseAll, Nat.zero_add]
  by_cases hj : i = j
  · subst hj
    simp [hc, Marks.below_mark, h]
  · rw [Marks.below_mark_ne (Ne.symm hj)]
    simp [hj]

theorem apply_modify {a : Option Action} {cs : List Node} (g : Node → Node)
    (ha : a ≠ some (.replace i)) (hi : i < cs.length) :
    Action.apply fragment a (cs.modify i g) = (Action.apply fragment a cs).modify i g := by
  cases a with
  | none => rfl
  | some a =>
    cases a with
    | replace j =>
      have hj : j ≠ i := fun he => ha (by rw [he])
      apply List.ext_getElem?
      intro k
      simp only [Action.apply, List.getElem?_set, List.getElem?_modify, List.length_modify]
      by_cases hk : j = k
      · subst hk
        simp [Ne.symm hj]
      · simp [hk]
    | append =>
      apply List.ext_getElem?
      intro k
      simp only [Action.apply, List.getElem?_append, List.getElem?_modify, List.length_modify]
      by_cases hk : i = k
      · subst hk
        simp [hi]
      · simp [hk]

theorem apply_replace_modify {cs : List Node} (g : Node → Node) :
    Action.apply fragment (some (.replace i)) (cs.modify i g) =
      Action.apply fragment (some (.replace i)) cs := by
  apply List.ext_getElem?
  intro k
  simp only [Action.apply, List.getElem?_set, List.getElem?_modify, List.length_modify]
  by_cases hk : i = k <;> simp [hk]

/-- A mark inside a replaced child changes nothing. -/
theorem revise_mark_inReplaced (hn : root.at? p = some n)
    (hp : inReplaced op fragment M root p = true) :
    revise op fragment (M.mark p) root = revise op fragment M root := by
  induction p generalizing M root with
  | nil => cases hp
  | cons i p ih =>
    obtain ⟨c, hc, hcn⟩ := Option.bind_eq_some_iff.mp hn
    rw [revise_eq, revise_eq, decide?_mark_cons]
    by_cases hi : decide? op fragment M root = some (.replace i)
    · -- the child is thrown away, whatever has become of it
      rw [reviseAll_mark (g := fun _ => revise op fragment ((M.below i).mark p) c) hc rfl, hi,
        apply_replace_modify]
    · have hbelow : inReplaced op fragment (M.below i) c p = true := by
        simpa [inReplaced, hi, hc] using hp
      rw [reviseAll_mark (g := id) hc (ih hcn hbelow), List.modify_id]

variable (op fragment) in
/-- A mark that comes last changes the marked node, which is still as it was. -/
theorem revise_mark (hn : root.at? p = some n) (hp : inReplaced op fragment M root p = false)
    (hM : ∀ q, M (p ++ q) = false) :
    revise op fragment (M.mark p) root = (revise op fragment M root).modifyAt (fun n =>
      { n with children := Action.apply fragment (action? op fragment.name n) n.children }) p := by
  induction p generalizing M root with
  | nil =>
    have hnone : M = fun _ => false := funext hM
    have hbelow (i : Nat) : (M.mark []).below i = fun _ => false := by
      rw [hnone]
      rfl
    have hchildren : reviseAll op fragment (M.mark []) 0 root.children = root.children := by
      apply List.ext_getElem?
      intro i
      rw [getElem?_reviseAll, hbelow, funext revise_unmarked]
      simp
    rw [revise_eq, hchildren, decide?_mark_nil, hnone, revise_unmarked]
    rfl
  | cons i p ih =>
    obtain ⟨c, hc, hcn⟩ := Option.bind_eq_some_iff.mp hn
    obtain ⟨hi, hbelow⟩ := inReplaced_cons.mp hp
    have hlt : i < (reviseAll op fragment M 0 root.children).length := by
      rw [length_reviseAll]
      exact (List.getElem?_eq_some_iff.mp hc).1
    rw [revise_eq, decide?_mark_cons, reviseAll_mark hc (ih hcn (hbelow c hc) fun q => hM q),
      apply_modify _ hi hlt, revise_eq M root]
    rfl

theorem inReplaced_mark_nil {r : List Nat} :
    inReplaced op fragment (M.mark []) root r = true ↔ inReplaced op fragment M root r = true ∨
      ∃ i, action? op fragment.name root = some (.replace i) ∧ [i] <+: r := by
  cases r with
  | nil => simp [inReplaced]
  | cons j r =>
    have hbelow : (M.mark []).below j = M.below j := by
      funext q
      simp [Marks.mark, Marks.below]
    have hdecide (a : Action) : decide? op fragment M root = some a →
        action? op fragment.name root = some a := by
      unfold decide?
      split <;> simp
    simp only [inReplaced, decide?_mark_nil, hbelow, Bool.or_eq_true, decide_eq_true_eq,
      List.singleton_prefix_cons_iff]
    constructor
    · rintro (h | h)
      · exact .inr ⟨j, h, rfl⟩
      · exact .inl (.inr h)
    · rintro ((h | h) | ⟨i, h, rfl⟩)
      · exact .inl (hdecide _ h)
      · exact .inr h
      · exact .inl h

/-- What one more mark puts into replaced children. -/
theorem inReplaced_mark {r : List Nat} (hn : root.at? p = some n) :
    inReplaced op fragment (M.mark p) root r = true ↔ inReplaced op fragment M root r = true ∨
      inReplaced op fragment M root p = false ∧
        ∃ i, action? op fragment.name n = some (.replace i) ∧ p ++ [i] <+: r := by
  induction p generalizing M root r with
  | nil =>
    rw [Node.at?_nil] at hn
    cases hn
    rw [inReplaced_mark_nil]
    simp [inReplaced]
  | cons k p ih =>
    obtain ⟨c, hc, hcn⟩ := Option.bind_eq_some_iff.mp hn
    cases r with
    | nil => simp [inReplaced]
    | cons j r =>
      simp only [inReplaced, decide?_mark_cons]
      by_cases hj : j = k
      · subst hj
        by_cases hd : decide? op fragment M root = some (.replace j)
        · simp [hd]
        · simp [hd, hc, Marks.below_mark, ih hcn]
      · have hk : k ≠ j := Ne.symm hj
        simp [Marks.below_mark_ne hj, hk]

/-- Whether a path leads into a replaced child depends on the marks above it only. -/
theorem inReplaced_congr {M' : Marks} (h : ∀ q r, r ≠ [] → p = q ++ r → M q = M' q) :
    inReplaced op fragment M root p = inReplaced op fragment M' root p := by
  induction p generalizing M M' root with
  | nil => rfl
  | cons i p ih =>
    have hdecide : decide? op fragment M root = decide? op fragment M' root := by
      rw [decide?, decide?, h [] (i :: p) (by simp) rfl]
    have hbelow (c : Node) : inReplaced op fragment (M.below i) c p =
        inReplaced op fragment (M'.below i) c p :=
      ih fun q r hr hp => h (i :: q) r hr (by rw [hp]; rfl)
    simp only [inReplaced, hdecide, hbelow]

/-! The run over all matches. -/

theorem modifyPath_id (p : List Nat) (n : Node) : Node.modifyPath id p n = n := by
  induction p generalizing n with
  | nil => rfl
  | cons i p ih =>
    have hid : Node.modifyPath id p = id := funext ih
    rw [Node.modifyPath, hid, List.modify_id]
    cases n
    rfl

/-- Only what is done with the node at the path matters. -/
theorem modifyPath_congr {g g' : Node → Node} (hn : root.at? p = some n) (hg : g n = g' n) :
    Node.modifyPath g p root = Node.modifyPath g' p root := by
  induction p generalizing root with
  | nil =>
    rw [Node.at?_nil] at hn
    cases hn
    exact hg
  | cons i p ih =>
    obtain ⟨c, hc, hcn⟩ := Option.bind_eq_some_iff.mp hn
    have hchildren : root.children.modify i (Node.modifyPath g p) =
        root.children.modify i (Node.modifyPath g' p) := by
      apply List.ext_getElem?
      intro j
      rw [List.getElem?_modify, List.getElem?_modify]
      by_cases hj : i = j
      · subst hj
        simpa [hc] using ih hcn
      · simp [hj]
    rw [Node.modifyPath, Node.modifyPath, hchildren]

/-- One match after the other: with some of them done, the tree is the original one revised at
those, and what is kept of them tells which of the others are gone. -/
theorem editAll_revises {all done rest replaced : List (List Nat)} (hall : all = done ++ rest)
    (horder : all.Pairwise PathBefore) (hlive : ∀ p ∈ all, ∃ n, root.at? p = some n)
    (hreplaced : ∀ p, replaced.any (·.isPrefixOf p) = true ↔
      inReplaced op fragment (.of done) root p = true) :
    editAll op fragment rest replaced (revise op fragment (.of done) root) =
      ((rest.filter (isActed op fragment (.of all) root)).length,
        revise op fragment (.of all) root) := by
  induction rest generalizing done replaced with
  | nil =>
    rw [hall, List.append_nil]
    rfl
  | cons p rest ih =>
    obtain ⟨n, hn⟩ := hlive p (by simp [hall])
    have hsplit : all = (done ++ [p]) ++ rest := by simp [hall]
    obtain ⟨-, hrest, hbefore⟩ := List.pairwise_append.mp (hall ▸ horder)
    -- the matches that are done come before this one, the others after it
    have hquiet (q : List Nat) : Marks.of done (p ++ q) = false := by
      refine decide_eq_false fun hmem => ?_
      exact (hbefore _ hmem p List.mem_cons_self).ne_append q rfl
    have hsame : inReplaced op fragment (.of all) root p =
        inReplaced op fragment (.of done) root p := by
      apply inReplaced_congr
      intro q r hr hp
      have hnot : q ∉ p :: rest := by
        intro hmem
        rcases List.mem_cons.mp hmem with rfl | hmem
        · exact hr (by simpa using hp)
        · exact (List.rel_of_pairwise_cons hrest hmem).not_le (hp ▸ pathLe_append q r)
      simp only [Marks.of, hall, List.mem_append, hnot, or_false]
    have hnext (replaced' : List (List Nat)) (h : ∀ r, replaced'.any (·.isPrefixOf r) = true ↔
        inReplaced op fragment ((Marks.of done).mark p) root r = true) :=
      @ih (done ++ [p]) replaced' hsplit (by rwa [Marks.mark_of] at h)
    rw [← Marks.mark_of] at hnext
    unfold editAll
    cases hp : inReplaced op fragment (.of done) root p with
    | true =>
      have hacted : isActed op fragment (.of all) root p = false := by
        rw [isActed, hsame, hp]
        rfl
      rw [if_pos ((hreplaced p).mpr hp), List.filter_cons_of_neg (by simp [hacted]),
        ← revise_mark_inReplaced hn hp]
      exact hnext replaced fun r => by rw [hreplaced, inReplaced_mark hn, hp]; simp
    | false =>
      have hnot : ¬replaced.any (·.isPrefixOf p) = true := by rw [hreplaced, hp]; simp
      have hacted : isActed op fragment (.of all) root p =
          (action? op fragment.name n).isSome := by
        rw [isActed, hsame, hp, hn]
        rfl
      have hfound : (revise op fragment (.of done) root).at? p = some n := by
        rw [at?_revise hn hp, funext hquiet, revise_unmarked]
      have hmark := revise_mark op fragment hn hp hquiet
      rw [if_neg hnot, hfound, Option.bind_some, edit_eq]
      cases ha : action? op fragment.name n with
      | none =>
        have hunchanged : revise op fragment ((Marks.of done).mark p) root =
            revise op fragment (.of done) root := by
          have hid : { n with children := Action.apply fragment none n.children } = id n := by
            cases n
            rfl
          rw [hmark, Node.modifyAt, modifyPath_congr hfound (by rw [ha, hid]), modifyPath_id]
        rw [List.filter_cons_of_neg (by simp [hacted, ha]), ← hunchanged]
        exact hnext replaced fun r => by rw [hreplaced, inReplaced_mark hn, ha]; simp
      | some a =>
        have hedited : revise op fragment ((Marks.of done).mark p) root =
            (revise op fragment (.of done) root).modifyAt (fun _ =>
              { n with children := Action.apply fragment (some a) n.children }) p := by
          rw [hmark]
          exact modifyPath_congr hfound (by rw [ha])
        have hrun := hnext ((a.replaced?.map fun i => p ++ [i]).toList ++ replaced) (by
          intro r
          rw [inReplaced_mark hn, hp, ha]
          cases a with
          | replace i => simp [Action.replaced?, ← hreplaced, or_comm]
          | append => simp [Action.replaced?, hreplaced])
        rw [List.filter_cons_of_pos (by simp [hacted, ha]), List.length_cons]
        simp only [Option.map_some]
        rw [← hedited, hrun]

theorem Marks.of_nil : Marks.of [] = fun _ => false := by
  funext q
  simp [Marks.of]

theorem inReplaced_unmarked : inReplaced op fragment (fun _ => false) root p = false := by
  induction p generalizing root with
  | nil => rfl
  | cons i p ih => exact inReplaced_cons.mpr ⟨by simp [decide?], fun c _ => ih⟩

/-- Editing one match after the other is one pass. -/
theorem editAll_eq_revise {found : List (List Nat)} (horder : found.Pairwise PathBefore)
    (hlive : ∀ p ∈ found, ∃ n, root.at? p = some n) : editAll op fragment found [] root =
      ((acted op fragment found root).length, revise op fragment (.of found) root) := by
  have hrun : editAll op fragment found [] (revise op fragment (.of []) root) = _ :=
    editAll_revises (show found = [] ++ found from rfl) horder hlive
      (by simp [Marks.of_nil, inReplaced_unmarked])
  rw [Marks.of_nil, revise_unmarked] at hrun
  exact hrun

/-! What the revised tree holds. -/

theorem revise_name (M : Marks) (n : Node) : (revise op fragment M n).name = n.name := by
  rw [revise_eq]

theorem map_name_reviseAll (M : Marks) (k : Nat) (cs : List Node) :
    (reviseAll op fragment M k cs).map Node.name = cs.map Node.name := by
  induction cs generalizing k with
  | nil => rfl
  | cons c cs ih => rw [reviseAll, List.map_cons, List.map_cons, revise_name, ih]

variable (op fragment) in
theorem findIdx?_reviseAll (M : Marks) (k : Nat) (cs : List Node) (name : String) :
    (reviseAll op fragment M k cs).findIdx? (·.name == name) =
      cs.findIdx? (·.name == name) := by
  have hmap (cs : List Node) : cs.findIdx? (·.name == name) =
      (cs.map Node.name).findIdx? (· == name) := by
    rw [List.findIdx?_map]
    rfl
  rw [hmap, hmap, map_name_reviseAll]

theorem find?_set_of_findIdx? {cs : List Node} {q : Node → Bool} {f : Node}
    (h : cs.findIdx? q = some i) (hf : q f = true) : (cs.set i f).find? q = some f := by
  obtain ⟨hlt, -, hbefore⟩ := List.findIdx?_eq_some_iff_getElem.mp h
  rw [List.find?_eq_some_iff_getElem]
  refine ⟨hf, i, by simpa using hlt, by simp, fun j hj => ?_⟩
  rw [List.getElem_set_ne (by omega)]
  simpa using hbefore j hj

/-- A marked node that can be replaced in or added to has the fragment as its first child of that
name. -/
theorem child?_revise_modifyOrAdd (hM : M [] = true) :
    (revise .modifyOrAdd fragment M n).child? fragment.name = some fragment := by
  rw [revise_eq, Node.child?, decide?, if_pos hM]
  have hidx := findIdx?_reviseAll .modifyOrAdd fragment M 0 n.children fragment.name
  unfold action?
  cases hfound : n.children.findIdx? (·.name == fragment.name) with
  | some i =>
    rw [hfound] at hidx
    exact find?_set_of_findIdx? hidx (by simp)
  | none =>
    rw [hfound, List.findIdx?_eq_none_iff] at hidx
    have hnone := List.find?_eq_none.mpr fun c hc => Bool.eq_false_iff.mp (hidx c hc)
    simp [Action.apply, List.find?_append, hnone]

theorem child?_revise_add (hM : M [] = true) :
    ∃ c, (revise .add fragment M n).child? fragment.name = some c := by
  rw [revise_eq, Node.child?, decide?, if_pos hM]
  have hidx := findIdx?_reviseAll .add fragment M 0 n.children fragment.name
  rw [← Option.isSome_iff_exists, List.find?_isSome]
  unfold action?
  cases hfound : n.children.findIdx? (·.name == fragment.name) with
  | some i =>
    rw [hfound] at hidx
    obtain ⟨hlt, hname, -⟩ := List.findIdx?_eq_some_iff_getElem.mp hidx
    exact ⟨_, List.getElem_mem hlt, hname⟩
  | none => exact ⟨fragment, by simp [Action.apply]⟩

/-- Adding replaces nothing. -/
theorem inReplaced_add : inReplaced .add fragment M root p = false := by
  have hdecide (M : Marks) (n : Node) (i : Nat) :
      decide? .add fragment M n ≠ some (.replace i) := by
    unfold decide? action?
    cases n.children.findIdx? (·.name == fragment.name) <;> split <;> simp
  induction p generalizing M root with
  | nil => rfl
  | cons i p ih => exact inReplaced_cons.mpr ⟨hdecide M root i, fun c _ => ih⟩

end

/-- A patch that adds or replaces gives the tree that comes of one pass over the original: every
matched node outside of the replaced children is decided on as it stood there. It counts its
actions. Other nodes stay as they are. So after the patch every matched node has a child of the
fragment's name, and where such a child is replaced or else added, the first one is the fragment. -/
theorem execute_revises (patch : TreeEdit) (root : Node) {selector : Selector} {fragment : Node}
    (hpath : Selector.parse patch.path = .ok selector)
    (hfragment : patch.fragment? = some fragment) (hop : patch.operation ≠ .remove) :
    let found := selector.select root
    let gone := inReplaced patch.operation fragment (.of found) root
    let actions := acted patch.operation fragment found root
    let tree := revise patch.operation fragment (.of found) root
    patch.execute root = (.ofCount actions.length, tree) ∧
    (∀ p n, root.at? p = some n → gone p = false → ∃ m, tree.at? p = some m ∧
      m.name = n.name ∧ m.attrs = n.attrs ∧ m.text = n.text ∧
      (p ∉ actions → m.children.map Node.name = n.children.map Node.name)) ∧
    (patch.operation = .modifyOrAdd → ∀ p ∈ found, gone p = false →
      (tree.at? p).bind (·.child? fragment.name) = some fragment) ∧
    (patch.operation = .add → ∀ p ∈ found,
      ∃ c, (tree.at? p).bind (·.child? fragment.name) = some c) := by
  intro found gone actions tree
  have horder := selector.select_pathBefore root
  have hlive := selector.select_live root
  have hmarked {p : List Nat} (hp : p ∈ found) : Marks.of found (p ++ []) = true := by
    simpa [Marks.of] using hp
  refine ⟨?_, ?_, ?_, ?_⟩
  · have hrun : editAll patch.operation fragment (selector.select root) [] root = _ :=
      editAll_eq_revise horder hlive
    simp only [execute, hpath, hfragment, if_neg hop, hrun]
    rfl
  · intro p n hn hp
    refine ⟨_, at?_revise hn hp, revise_name _ n, by rw [revise_eq], by rw [revise_eq], ?_⟩
    intro hnot
    have hdecide :
        decide? patch.operation fragment (fun q => Marks.of found (p ++ q)) n = none := by
      unfold decide?
      split
      case isTrue hmark =>
        have hfound : p ∈ found := by simpa [Marks.of] using hmark
        simpa [actions, acted, isActed, hfound, hn, show inReplaced _ _ _ _ _ = _ from hp]
          using hnot
      case isFalse => rfl
    rw [revise_eq, hdecide]
    exact map_name_reviseAll _ 0 n.children
  · intro h p hp hgone
    obtain ⟨n, hn⟩ := hlive p hp
    have hat : tree.at? p = _ := at?_revise hn hgone
    rw [hat, h]
    exact child?_revise_modifyOrAdd (hmarked hp)
  · intro h p hp
    obtain ⟨n, hn⟩ := hlive p hp
    have hat : tree.at? p = _ := at?_revise hn (by rw [h]; exact inReplaced_add)
    rw [hat, h]
    exact child?_revise_add (hmarked hp)

/-! A crate whose stats hold stats of their own: the inner ones go with the outer ones. -/

section

def weight (text : String) : Node := ⟨"Weight", .empty, some text, []⟩

def lightStats : Node := ⟨"Stats", .empty, none, [weight "1"]⟩

def nestedStats : Node := ⟨"Stats", .empty, none, [⟨"Stats", .empty, none, [weight "9"]⟩]⟩

def crates : Node :=
  ⟨"Defs", .empty, none, [⟨"Crate", .empty, none, [nestedStats]⟩, .named "Stats"]⟩

def lighten : TreeEdit := ⟨"//Stats", .modifyOrAdd, some ⟨"Value", .empty, none, [lightStats]⟩⟩

def anyStats : Selector := ⟨true, [⟨true, .named "Stats", []⟩]⟩

theorem crates_lightened :
    Selector.parse lighten.path = .ok anyStats ∧ lighten.fragment? = some lightStats ∧
      lighten.operation ≠ .remove ∧
      anyStats.select crates = [[0, 0], [0, 0, 0], [1]] ∧
      (lighten.execute crates).1 = .ofCount 2 ∧
      ((lighten.execute crates).2.at? [0, 0]).bind (·.child? "Stats") = some lightStats ∧
      ((lighten.execute crates).2.at? [1]).bind (·.child? "Stats") = some lightStats := by
  have hpath : Selector.parse lighten.path = .ok anyStats := by cbv
  have hfound : anyStats.select crates = [[0, 0], [0, 0, 0], [1]] := by cbv
  obtain ⟨hrun, -, hfirst, -⟩ := execute_revises lighten crates hpath rfl (by decide)
  rw [hfound] at hrun hfirst
  rw [hrun]
  refine ⟨hpath, rfl, by decide, hfound, ?_, ?_, ?_⟩
  · cbv
  · exact hfirst rfl [0, 0] (by simp) (by cbv)
  · exact hfirst rfl [1] (by simp) (by cbv)

end

end TreeEdit

end DefLoad
