import DefLoad.Proofs.DocumentOrder
import Mathlib.Logic.Relation

/-!
What a selector means, said with relations: a step goes to descendants or not, moves along one axis,
and filters the set of its candidates by one predicate after the other. Selecting gives exactly the
nodes that the steps lead to, each once and in document order.
-/

namespace DefLoad.Selector

namespace Context

/-- The root node is the child of the document; a node's children are numbered. -/
inductive Child (root : Node) : Context → Context → Prop
  | root : Child root document (node [])
  | node {p : List Nat} {n : Node} {i : Nat} (h : root.at? p = some n)
    (hi : i < n.children.length) : Child root (node p) (node (p ++ [i]))

/-- A context and everything below it. -/
def Below (root : Node) : Context → Context → Prop := Relation.ReflTransGen (Child root)

/-- The document, or a node that the tree has. -/
def Live (root : Node) : Context → Prop
  | document => True
  | node p => ∃ n, root.at? p = some n

theorem children_of_none {root : Node} {p : List Nat} (h : root.at? p = none) :
    (node p).children root = [] := by
  simp [children, h]

theorem children_of_some {root n : Node} {p : List Nat} (h : root.at? p = some n) :
    (node p).children root = (List.range n.children.length).map fun i => node (p ++ [i]) := by
  simp [children, h]

theorem mem_children {root : Node} {c d : Context} : d ∈ c.children root ↔ Child root c d := by
  cases c with
  | document =>
    constructor
    · intro h
      rw [List.mem_singleton.mp h]
      exact .root
    · rintro ⟨⟩
      exact List.mem_singleton.mpr rfl
  | node p =>
    cases hp : root.at? p with
    | none =>
      rw [children_of_none hp]
      constructor
      · rintro ⟨⟩
      · intro h
        cases h with
        | node hn _ =>
          rw [hp] at hn
          cases hn
    | some n =>
      simp only [children_of_some hp, List.mem_map, List.mem_range]
      constructor
      · rintro ⟨i, hi, rfl⟩
        exact .node hp hi
      · intro h
        cases h with
        | @node _ m i hn hi =>
          rw [hp] at hn
          cases hn
          exact ⟨i, hi, rfl⟩

theorem Child.live {root : Node} {c d : Context} (h : Child root c d) :
    c.Live root ∧ d.Live root := by
  cases h with
  | root => exact ⟨trivial, root, root.at?_nil⟩
  | @node p n i h hi =>
    refine ⟨⟨n, h⟩, n.children[i], ?_⟩
    simp [Node.at?_append, h, Node.at?, hi]

theorem Below.live {root : Node} {c d : Context} (h : Below root c d) (hc : c.Live root) :
    d.Live root := by
  induction h with
  | refl => exact hc
  | tail _ h _ => exact h.live.2

/-- The parent of a context is the one whose child it is. -/
theorem parent?_eq_some_iff {root : Node} {c d : Context} (hc : c.Live root) :
    c.parent? = some d ↔ Child root d c := by
  constructor
  · intro h
    cases c with
    | document => cases h
    | node p =>
      obtain rfl | ⟨q, i, rfl⟩ := p.eq_nil_or_concat
      · cases h
        exact .root
      · have hd : node q = d := by simpa [parent?] using h
        obtain ⟨m, hm⟩ := hc
        rw [List.concat_eq_append, Node.at?_append] at hm
        obtain ⟨n, hn, hi⟩ := Option.bind_eq_some_iff.mp hm
        have hlt : i < n.children.length := by
          by_contra hge
          simp [Node.at?, List.getElem?_eq_none (Nat.le_of_not_lt hge)] at hi
        rw [← hd, List.concat_eq_append]
        exact .node hn hlt
  · intro h
    cases h with
    | root => rfl
    | node h hi => simp [parent?]

/-- Visiting meets what is below any of the waiting contexts. -/
theorem mem_visit {root : Node} {waiting : List Context} {d : Context} :
    d ∈ visit root waiting ↔ ∃ c ∈ waiting, Below root c d := by
  fun_induction visit root waiting with
  | case1 => simp
  | case2 c waiting ih =>
    rw [List.mem_cons, ih]
    constructor
    · rintro (rfl | ⟨e, he, hbelow⟩)
      · exact ⟨d, List.mem_cons_self, .refl⟩
      · rcases List.mem_append.mp he with he | he
        · exact ⟨e, List.mem_cons_of_mem _ he, hbelow⟩
        · exact ⟨c, List.mem_cons_self, .head (mem_children.mp he) hbelow⟩
    · rintro ⟨e, he, hbelow⟩
      rcases List.mem_cons.mp he with rfl | he
      · rcases Relation.ReflTransGen.cases_head hbelow with rfl | ⟨f, hchild, hbelow⟩
        · exact .inl rfl
        · exact .inr ⟨f, List.mem_append_right _ (mem_children.mpr hchild), hbelow⟩
      · exact .inr ⟨e, List.mem_append_left _ he, hbelow⟩

theorem mem_descendants {root : Node} {c d : Context} :
    d ∈ c.descendants root ↔ Below root c d := by
  rw [descendants, List.mem_mergeSort, mem_visit]
  simp

theorem children_before (root : Node) (c : Context) : (c.children root).Pairwise Before := by
  cases c with
  | document => exact List.pairwise_singleton _ _
  | node p =>
    cases hp : root.at? p with
    | none =>
      rw [children_of_none hp]
      exact .nil
    | some n =>
      rw [children_of_some hp]
      refine List.pairwise_map.mpr (List.pairwise_lt_range.imp ?_)
      intro i j hij
      exact before_node.mpr (pathBefore_iff_lex.mpr (List.Lex.append_left _ (.rel hij) p))

end Context

open Context (Before Below Child Live)

/-! What the parts of a step mean. -/

/-- Where a name test leads. The parent axis is the child axis turned around. -/
def NameTest.Leads (root : Node) (c d : Context) : NameTest → Prop
  | .any => Child root c d
  | .current => d = c
  | .parent => Child root d c
  | .named name => Child root c d ∧ ∃ n, d.node? root = some n ∧ n.name = name

/-- What a predicate says of a node at a place. -/
def Predicate.Means (position : Nat) (n : Node) : Predicate → Prop
  | .position k => position = k
  | .hasAttr key => ∃ value, n.attr key = some value
  | .attrEquals key value => n.attr key = some value
  | .hasChild name => ∃ c ∈ n.children, c.name = name
  | .childEquals name value => ∃ c ∈ n.children, c.name = name ∧ c.text.getD "" = value
  | .textEquals value => n.text.getD "" = value

/-- What a predicate leaves of a set of candidates. Places are counted in this very set. -/
def Predicate.Leaves (root : Node) (p : Predicate) (S : Set Context) : Set Context :=
  {d ∈ S | ∃ n, d.node? root = some n ∧ p.Means (place S d) n}

/-- What all predicates of a step leave of its candidates from one context. -/
def Step.Leaves (root : Node) (s : Step) (c : Context) : Set Context :=
  s.predicates.foldl (fun S p => p.Leaves root S) {d | s.test.Leads root c d}

/-- A step leads from a context, or from anything below it when it descends. -/
def Step.Leads (root : Node) (s : Step) (c d : Context) : Prop :=
  ∃ b, (if s.descend then Below root c b else b = c) ∧ d ∈ s.Leaves root b

/-- Where steps lead one after the other. -/
def Lead (root : Node) : List Step → Context → Context → Prop
  | [], c, d => d = c
  | s :: steps, c, d => ∃ b, s.Leads root c b ∧ Lead root steps b d

/-! Each part is evaluated to what it means. -/

theorem Predicate.holds_iff {position : Nat} {n : Node} {p : Predicate} :
    p.holds position n = true ↔ p.Means position n := by
  cases p with
  | position k => simp [holds, Means]
  | hasAttr key => simp [holds, Means, Option.isSome_iff_exists]
  | attrEquals key value => simp [holds, Means]
  | hasChild name => simp [holds, Means, Node.child?, List.find?_isSome]
  | childEquals name value => simp [holds, Means]
  | textEquals value => simp [holds, Means]

theorem NameTest.mem_candidates {root : Node} {t : NameTest} {c d : Context} (hc : c.Live root) :
    d ∈ t.candidates root c ↔ t.Leads root c d := by
  cases t with
  | any => exact Context.mem_children
  | current => exact List.mem_singleton
  | parent =>
    rw [candidates, Option.mem_toList]
    exact Context.parent?_eq_some_iff hc
  | named name =>
    rw [candidates, List.mem_filter, Context.mem_children]
    simp [Leads, Option.any_eq_true]

theorem NameTest.candidates_before (root : Node) (t : NameTest) (c : Context) :
    (t.candidates root c).Pairwise Before := by
  cases t with
  | any => exact Context.children_before root c
  | current => exact List.pairwise_singleton _ _
  | parent =>
    rw [candidates]
    cases c.parent? with
    | none => exact .nil
    | some d => exact List.pairwise_singleton _ _
  | named name => exact (Context.children_before root c).sublist List.filter_sublist

theorem Predicate.keep_sublist (root : Node) (p : Predicate) (k : Nat) (cs : List Context) :
    (p.keep root k cs).Sublist cs := by
  induction cs generalizing k with
  | nil => exact List.Sublist.slnil
  | cons c cs ih =>
    unfold keep
    split
    · exact (ih (k + 1)).cons_cons c
    · exact (ih (k + 1)).cons c

/-- A candidate is kept when the predicate holds at its index, the first one counting `k`. -/
theorem Predicate.mem_keep {root : Node} {p : Predicate} {k : Nat} {cs : List Context}
    {d : Context} :
    d ∈ p.keep root k cs ↔
      ∃ i n, cs[i]? = some d ∧ d.node? root = some n ∧ p.holds (k + i) n = true := by
  induction cs generalizing k with
  | nil => simp [keep]
  | cons c cs ih =>
    -- the first candidate has the index 0, the others move up by one
    have hsplit : (∃ i n, (c :: cs)[i]? = some d ∧ d.node? root = some n ∧
        p.holds (k + i) n = true) ↔
        (d = c ∧ (c.node? root).any (p.holds k) = true) ∨ d ∈ p.keep root (k + 1) cs := by
      rw [ih]
      constructor
      · rintro ⟨i, n, hi, hn, hp⟩
        cases i with
        | zero =>
          obtain rfl : c = d := Option.some.inj hi
          exact .inl ⟨rfl, (Option.any_eq_true _ _).mpr ⟨n, hn, hp⟩⟩
        | succ i => exact .inr ⟨i, n, hi, hn, by rwa [Nat.add_right_comm, Nat.add_assoc]⟩
      · rintro (⟨rfl, hany⟩ | ⟨i, n, hi, hn, hp⟩)
        · obtain ⟨n, hn, hp⟩ := (Option.any_eq_true _ _).mp hany
          exact ⟨0, n, rfl, hn, hp⟩
        · exact ⟨i + 1, n, hi, hn, by rwa [Nat.add_right_comm, Nat.add_assoc] at hp⟩
    rw [hsplit, keep]
    split
    case isTrue h => simp [h]
    case isFalse h => simp [h]

theorem Predicate.keep_eq_leaves {root : Node} {p : Predicate} {cs : List Context}
    (h : cs.Pairwise Before) : {d | d ∈ p.keep root 1 cs} = p.Leaves root {d | d ∈ cs} := by
  ext d
  simp only [Set.mem_ofPred_eq, Leaves, mem_keep]
  constructor
  · rintro ⟨i, n, hi, hn, hp⟩
    have hplace := place_eq h hi
    refine ⟨List.mem_of_getElem? hi, n, hn, ?_⟩
    rw [hplace, ← holds_iff, Nat.add_comm]
    exact hp
  · rintro ⟨hmem, n, hn, hp⟩
    obtain ⟨i, hi⟩ := List.mem_iff_getElem?.mp hmem
    have hplace := place_eq h hi
    rw [hplace, ← holds_iff, Nat.add_comm] at hp
    exact ⟨i, n, hi, hn, hp⟩

/-- Filtering lists in document order is filtering sets. -/
theorem keepAll_eq {root : Node} {ps : List Predicate} {cs : List Context}
    (h : cs.Pairwise Before) :
    {d | d ∈ ps.foldl (fun cs p => p.keep root 1 cs) cs} =
      ps.foldl (fun S p => p.Leaves root S) {d | d ∈ cs} := by
  induction ps generalizing cs with
  | nil => rfl
  | cons p ps ih =>
    have hkept : (p.keep root 1 cs).Pairwise Before := h.sublist (p.keep_sublist root 1 cs)
    rw [List.foldl_cons, List.foldl_cons, ih hkept, p.keep_eq_leaves h]

theorem Step.mem_from {root : Node} {s : Step} {c d : Context} (hc : c.Live root) :
    d ∈ s.from root c ↔ d ∈ s.Leaves root c := by
  have hcandidates : {d | d ∈ s.test.candidates root c} = {d | s.test.Leads root c d} :=
    Set.ext fun d => NameTest.mem_candidates hc
  have hkept : {d | d ∈ s.from root c} = s.Leaves root c := by
    rw [Step.from, keepAll_eq (NameTest.candidates_before root s.test c), hcandidates, Leaves]
  exact Set.ext_iff.mp hkept d

/-- Predicates only ever remove candidates. -/
theorem Step.leaves_subset (root : Node) (s : Step) (c : Context) :
    s.Leaves root c ⊆ {d | s.test.Leads root c d} := by
  unfold Leaves
  generalize {d | s.test.Leads root c d} = S
  induction s.predicates generalizing S with
  | nil => exact subset_rfl
  | cons p ps ih => exact (ih (p.Leaves root S)).trans fun d hd => hd.1

theorem NameTest.Leads.live {root : Node} {t : NameTest} {c d : Context}
    (h : t.Leads root c d) (hc : c.Live root) : d.Live root := by
  cases t with
  | any => exact (Child.live h).2
  | current =>
    cases h
    exact hc
  | parent => exact (Child.live h).1
  | named name => exact h.1.live.2

theorem Step.live_of_start {root : Node} {s : Step} {c b : Context}
    (h : if s.descend then Below root c b else b = c) (hc : c.Live root) : b.Live root := by
  split at h
  · exact h.live hc
  · rw [h]
    exact hc

theorem Step.Leads.live {root : Node} {s : Step} {c d : Context} (h : s.Leads root c d)
    (hc : c.Live root) : d.Live root := by
  obtain ⟨b, hb, hd⟩ := h
  exact NameTest.Leads.live (s.leaves_subset root b hd) (live_of_start hb hc)

/-- A step applied to a list of contexts leads from any of them. -/
theorem Step.mem_apply {root : Node} {s : Step} {cs : List Context} {d : Context}
    (hcs : ∀ c ∈ cs, c.Live root) :
    d ∈ s.apply root cs ↔ ∃ c ∈ cs, s.Leads root c d := by
  have hstarts (b : Context) : b ∈ s.starts root cs ↔
      ∃ c ∈ cs, if s.descend then Below root c b else b = c := by
    unfold starts
    split
    · simp only [List.mem_flatMap, Context.mem_descendants]
    · simp
  have hlive {b : Context} (hb : b ∈ s.starts root cs) : b.Live root := by
    obtain ⟨c, hc, hcb⟩ := (hstarts b).mp hb
    exact live_of_start hcb (hcs c hc)
  rw [apply, mem_inOrder, List.mem_flatMap]
  constructor
  · rintro ⟨b, hb, hd⟩
    obtain ⟨c, hc, hcb⟩ := (hstarts b).mp hb
    exact ⟨c, hc, b, hcb, (s.mem_from (hlive hb)).mp hd⟩
  · rintro ⟨c, hc, b, hcb, hd⟩
    have hb : b ∈ s.starts root cs := (hstarts b).mpr ⟨c, hc, hcb⟩
    exact ⟨b, hb, (s.mem_from (hlive hb)).mpr hd⟩

/-- Steps keep the contexts in document order and alive, and lead where they mean to. -/
theorem steps_spec {root : Node} (steps : List Step) {cs : List Context}
    (horder : cs.Pairwise Before) (hcs : ∀ c ∈ cs, c.Live root) :
    let ds := steps.foldl (Step.apply root) cs
    ds.Pairwise Before ∧ (∀ d ∈ ds, d.Live root) ∧
      ∀ d, d ∈ ds ↔ ∃ c ∈ cs, Lead root steps c d := by
  induction steps generalizing cs with
  | nil => exact ⟨horder, hcs, fun d => by simp [Lead]⟩
  | cons s steps ih =>
    have hlive : ∀ d ∈ s.apply root cs, d.Live root := by
      intro d hd
      obtain ⟨c, hc, hleads⟩ := (s.mem_apply hcs).mp hd
      exact hleads.live (hcs c hc)
    obtain ⟨horder', hlive', hmem⟩ := ih (inOrder_before _) hlive
    refine ⟨horder', hlive', fun d => (hmem d).trans ?_⟩
    constructor
    · rintro ⟨b, hb, hd⟩
      obtain ⟨c, hc, hleads⟩ := (s.mem_apply hcs).mp hb
      exact ⟨c, hc, b, hleads, hd⟩
    · rintro ⟨c, hc, b, hleads, hd⟩
      exact ⟨b, (s.mem_apply hcs).mpr ⟨c, hc, hleads⟩, hd⟩

/-- The context from which the first step starts. -/
def origin (s : Selector) : Context := if s.absolute then .document else .node []

/-- What all steps together find from where the first one starts. -/
theorem found_spec (s : Selector) (root : Node) :
    let ds := s.steps.foldl (Step.apply root) [s.origin]
    ds.Pairwise Before ∧ (∀ d ∈ ds, d.Live root) ∧
      ∀ d, d ∈ ds ↔ Lead root s.steps s.origin d := by
  have horigin : ∀ c ∈ [s.origin], c.Live root := by
    intro c hc
    rw [List.mem_singleton.mp hc, origin]
    split
    · trivial
    · exact ⟨root, root.at?_nil⟩
  obtain ⟨horder, hlive, hmem⟩ := steps_spec s.steps (List.pairwise_singleton _ _) horigin
  refine ⟨horder, hlive, fun d => ?_⟩
  rw [hmem]
  simp only [List.mem_singleton, exists_eq_left]

theorem Context.path?_eq_some {c : Context} {p : List Nat} : c.path? = some p ↔ c = .node p := by
  cases c with
  | document => simp [path?]
  | node q => simp [path?]

/-- A path is selected when the steps come to the node that it is the path of. -/
theorem mem_select {s : Selector} {root : Node} {p : List Nat} :
    p ∈ s.select root ↔ Lead root s.steps s.origin (.node p) := by
  obtain ⟨-, -, hmem⟩ := s.found_spec root
  have hselect : p ∈ s.select root ↔
      ∃ c ∈ s.steps.foldl (Step.apply root) [s.origin], c.path? = some p := List.mem_filterMap
  simp only [hselect, Context.path?_eq_some, exists_eq_right, hmem]

theorem select_pathBefore (s : Selector) (root : Node) : (s.select root).Pairwise PathBefore := by
  obtain ⟨horder, -, -⟩ := s.found_spec root
  refine List.pairwise_filterMap.mpr (horder.imp fun {c d} hcd p hp q hq => ?_)
  rw [Context.path?_eq_some.mp hp, Context.path?_eq_some.mp hq] at hcd
  exact Context.before_node.mp hcd

theorem select_live (s : Selector) (root : Node) :
    ∀ p ∈ s.select root, ∃ n, root.at? p = some n := by
  obtain ⟨-, hlive, -⟩ := s.found_spec root
  intro p hp
  obtain ⟨c, hc, hcp⟩ := List.mem_filterMap.mp hp
  have hnode := hlive c hc
  rwa [Context.path?_eq_some.mp hcp] at hnode

/-- The paths that are selected stand strictly in document order, each is the path of a node, and
they are exactly the paths to which the steps lead. -/
theorem select_exact (s : Selector) (root : Node) :
    (s.select root).Pairwise (List.Lex (· < ·)) ∧
    (∀ p ∈ s.select root, ∃ n, root.at? p = some n) ∧
    ∀ p, p ∈ s.select root ↔ Lead root s.steps s.origin (.node p) :=
  ⟨(s.select_pathBefore root).imp pathBefore_iff_lex.mp, s.select_live root, fun _ => mem_select⟩

/-- The second child of any node: places are counted anew for each parent. -/
example :
    let inner : Node := ⟨"B", .empty, none, [.named "C", .named "D"]⟩
    select ⟨false, [⟨true, .any, [.position 2]⟩]⟩ ⟨"Defs", .empty, none, [.named "A", inner]⟩ =
      [[1], [1, 1]] := by
  cbv

end DefLoad.Selector
