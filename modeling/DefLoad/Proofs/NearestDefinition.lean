import DefLoad.Proofs.Resolution

/-!
What a composed node holds along a path of child names: the value of the nearest node of the chain
that defines it.
-/

namespace DefLoad

namespace Node

/-- The node at the end of a path of child names; each name means the first child that bears it. -/
def descend (n : Node) : List String → Option Node
  | [] => some n
  | name :: p => (n.child? name).bind (·.descend p)

theorem rename_self (n : Node) : n.rename n.name = n := by
  cases n
  rfl

end Node

namespace Master

/-- Along the path no node is marked as a list or has two children of the name that comes next, and
the path leads to a plain value, if anywhere. -/
def plain : List String → Node → Bool
  | [], n => n.isValue
  | name :: p, n =>
    n.flag "IsList" != some true && decide (n.countChild name ≤ 1) && (n.child? name).all (plain p)

/-- A node before the end of the path replaces what it is merged into. -/
def blocks : List String → Node → Bool
  | [], _ => false
  | name :: p, n => replaces n || (n.child? name).any (blocks p)

/-- The text at the end of a path, if the path leads anywhere. -/
def textAt (p : List String) (n : Node) : Option (Option String) := (n.descend p).map (·.text)

/-- The value of the first node of a chain that has one, unless a node before it blocks the way. -/
def nearest {α : Type} (value : Node → Option α) (blocked : Node → Bool) : List Node → Option α
  | [] => none
  | a :: as => (value a).or (if blocked a then none else nearest value blocked as)

variable {item : String} {p : List String}

theorem textAt_cons (name : String) (p : List String) (n : Node) :
    textAt (name :: p) n = (n.child? name).bind (textAt p) := by
  simp only [textAt, Node.descend]
  cases n.child? name <;> rfl

theorem plain_cons_iff (name : String) (p : List String) (n : Node) :
    plain (name :: p) n = true ↔
      n.flag "IsList" ≠ some true ∧ n.countChild name ≤ 1 ∧
        ∀ c, n.child? name = some c → plain p c = true := by
  simp [plain, Option.all_eq_true, and_assoc]

theorem flag_takeOver (s d : Node) {key : String} (h : key ≠ "Inherit") :
    (takeOver s d).flag key = s.flag key := by
  simp only [Node.flag, Node.attr, takeOver]
  rw [Attributes.get?_erase_ne _ (Ne.symm h)]

theorem flag_dressed {d s : Node} {key : String} {b : Bool} (ha : key ≠ "Abstract")
    (hn : key ≠ "Null") (hs : s.flag key ≠ some b) (hd : d.flag key ≠ some b) :
    (dressed d s).flag key ≠ some b := by
  simp only [Node.flag, attr_dressed d s ha hn]
  cases h : s.attr key with
  | none => simpa [Node.flag] using hd
  | some v => simpa [Node.flag, h] using hs

theorem flag_merge {s : Node} (h : replaces s = false) (d : Node) (key : String) :
    (merge item d s).flag key = (dressed d s).flag key :=
  congrArg (·.bind Node.readFlag) (attr_merge_of_not_replaces h d key)

/-- Merging keeps paths plain. At the end of the path the source speaks first; where it is silent,
the destination is heard unless the source has replaced it. -/
theorem merge_plain (hp : item ∉ p) {d s : Node} (hd : plain p d = true) (hs : plain p s = true) :
    plain p (merge item d s) = true ∧
      textAt p (merge item d s) = (textAt p s).or (if blocks p s then none else textAt p d) := by
  induction p generalizing d s with
  | nil =>
    simp only [plain, textAt, Node.descend, Option.map_some, Option.some_or]
    cases hr : replaces s with
    | true =>
      rw [merge_replaces item hr]
      exact ⟨hs, rfl⟩
    | false =>
      have hv : d.isValue = true := hd
      rw [merge_of_not_replaces hr, if_pos hv]
      exact ⟨hs, rfl⟩
  | cons name p ih =>
    obtain ⟨hni, hp⟩ := not_or.mp (mt List.mem_cons.mpr hp)
    rw [plain_cons_iff] at hd hs ⊢
    obtain ⟨hdl, hdc, hdp⟩ := hd
    obtain ⟨hsl, hsc, hsp⟩ := hs
    cases hr : replaces s with
    | true =>
      -- nothing of the destination is left, and the path is blocked here
      rw [merge_replaces item hr]
      refine ⟨⟨?_, hsc, hsp⟩, ?_⟩
      · rwa [flag_takeOver s d (by decide)]
      · simp only [blocks, hr, Bool.true_or, if_true, Option.or_none]
        rfl
    | false =>
      -- the children of the next name, at most one on each side, are merged in turn
      have hl := flag_dressed (by decide) (by decide) hsl hdl
      have hc := child?_merge hr hl (Ne.symm hni) hsc
      refine ⟨⟨?_, countChild_merge hr hl (Ne.symm hni) hsc hdc, ?_⟩, ?_⟩
      · rwa [flag_merge hr]
      · intro c hm
        rw [hc] at hm
        cases hsn : s.child? name with
        | none => exact hdp c (by simpa [hsn, mergeFirst] using hm)
        | some x =>
          cases hdn : d.child? name with
          | none =>
            simp only [hsn, hdn, mergeFirst, Option.some.injEq] at hm
            exact hm ▸ hsp x hsn
          | some y =>
            simp only [hsn, hdn, mergeFirst, Option.some.injEq] at hm
            exact hm ▸ (ih hp (hdp y hdn) (hsp x hsn)).1
      · simp only [textAt_cons, hc, blocks, hr, Bool.false_or]
        cases hsn : s.child? name with
        | none => simp [mergeFirst]
        | some x =>
          cases hdn : d.child? name with
          | none => simp [mergeFirst]
          | some y => simpa [mergeFirst] using (ih hp (hdp y hdn) (hsp x hsn)).2

/-- Folding a chain gives each plain path its nearest text. -/
theorem foldr_merge_plain (hp : item ∉ p) (as : List Node) {base : Node}
    (hb : plain p base = true) (has : ∀ a ∈ as, plain p a = true) :
    plain p (as.foldr (fun s d => merge item d s) base) = true ∧
      textAt p (as.foldr (fun s d => merge item d s) base) =
        nearest (textAt p) (blocks p) (as ++ [base]) := by
  induction as with
  | nil => simp [nearest, hb]
  | cons a as ih =>
    obtain ⟨hplain, htext⟩ := ih fun b h => has b (List.mem_cons_of_mem a h)
    obtain ⟨hm, ht⟩ := merge_plain hp hplain (has a List.mem_cons_self)
    refine ⟨hm, ?_⟩
    rw [List.foldr_cons, ht, htext]
    rfl

theorem compose_eq_foldr (item : String) (nodes : List Node) (name : String) (is : List Nat)
    (r : Nat) :
    compose item nodes name (is ++ [r]) =
      (is.map (nodeAt nodes)).foldr (fun s d => merge item d s) ((nodeAt nodes r).rename name) := by
  simp [compose, List.map_reverse, List.foldl_reverse]

/-! The nearest value in terms of the nodes of the chain. -/

/-- The first node with a value decides, unless a node before it blocks the way. -/
theorem nearest_append {α : Type} {value : Node → Option α} {blocked : Node → Bool}
    {before : List Node} (after : List Node) {a : Node} {v : α} (hb : ∀ b ∈ before, value b = none)
    (ha : value a = some v) :
    nearest value blocked (before ++ a :: after) = if before.any blocked then none else some v := by
  induction before with
  | nil => simp [nearest, ha]
  | cons b before ih =>
    have hrest := ih fun c hc => hb c (List.mem_cons_of_mem b hc)
    rw [List.cons_append, nearest, hb b List.mem_cons_self, Option.none_or, hrest, List.any_cons]
    cases blocked b <;> rfl

theorem nearest_eq_none {α : Type} {value : Node → Option α} (blocked : Node → Bool)
    {as : List Node} (h : ∀ a ∈ as, value a = none) : nearest value blocked as = none := by
  induction as with
  | nil => rfl
  | cons a as ih =>
    rw [nearest, h a List.mem_cons_self, ih fun b hb => h b (List.mem_cons_of_mem a hb)]
    simp

/-- Whether the last node blocks the way does not matter. -/
theorem nearest_concat {α : Type} {value : Node → Option α} (blocked : Node → Bool) (as : List Node)
    {a b : Node} (h : value a = value b) :
    nearest value blocked (as ++ [a]) = nearest value blocked (as ++ [b]) := by
  induction as with
  | nil => simp [nearest, h]
  | cons c as ih => rw [List.cons_append, nearest, ih]; rfl

theorem textAt_rename (p : List String) (n : Node) (name : String) :
    textAt p (n.rename name) = textAt p n := by cases p <;> rfl

theorem plain_rename (p : List String) (n : Node) (name : String) :
    plain p (n.rename name) = plain p n := by cases p <;> rfl

section

variable {nodes : List Node} {i r : Nat} {is : List Nat}

theorem folds_of_trail (ht : Trail nodes i is r) (his : is ≠ [])
    (ha : (nodeAt nodes i).flag "Abstract" ≠ some true) : Folds nodes i := by
  cases ht with
  | here => exact (his rfl).elim
  | up hp _ =>
    obtain ⟨n, name, hn, hparent, -⟩ := hp
    rw [nodeAt_of_getElem? hn] at ha
    exact ⟨n, hn, ha, name, hparent⟩

/-- A sound chain is folded from its root down to the node; a node without a parent stays. -/
theorem resolvedNode_of_trail (hi : i < nodes.length)
    (ha : (nodeAt nodes i).flag "Abstract" ≠ some true) (ht : Trail nodes i is r)
    (hr : parentName nodes r = none) :
    resolvedNode item nodes i =
      (is.map (nodeAt nodes)).foldr (fun s d => merge item d s)
        ((nodeAt nodes r).rename (nodeAt nodes i).name) := by
  have hn := getElem?_nodeAt hi
  by_cases his : is = []
  · subst his
    cases ht
    have hf : ¬ Folds nodes i := by
      rintro ⟨n, hn, -, parent, hparent⟩
      simp [parentName, hn, hparent] at hr
    rw [resolvedNode_of_not_folds hn hf]
    exact (nodeAt nodes i).rename_self.symm
  · rw [resolvedNode, verdict_of_folds hn (folds_of_trail ht his ha), ht.lineage_eq hr]
    exact compose_eq_foldr item nodes (nodeAt nodes i).name is r

/-- What a chain composes to has at each plain path the nearest text. -/
theorem textAt_resolvedNode (hi : i < nodes.length) (hp : item ∉ p)
    (ha : (nodeAt nodes i).flag "Abstract" ≠ some true) (ht : Trail nodes i is r)
    (hr : parentName nodes r = none) (hs : ∀ a ∈ is ++ [r], plain p (nodeAt nodes a) = true) :
    textAt p (resolvedNode item nodes i) =
      nearest (textAt p) (blocks p) ((is ++ [r]).map (nodeAt nodes)) := by
  have hbase : plain p ((nodeAt nodes r).rename (nodeAt nodes i).name) = true := by
    rw [plain_rename]
    exact hs r (by simp)
  have hparts : ∀ a ∈ is.map (nodeAt nodes), plain p a = true := by
    intro a ha
    obtain ⟨j, hj, rfl⟩ := List.mem_map.mp ha
    exact hs j (by simp [hj])
  rw [resolvedNode_of_trail hi ha ht hr, (foldr_merge_plain hp _ hbase hparts).2,
    nearest_concat _ _ (textAt_rename p _ _)]
  simp

end

/-- The nearest definition wins. A node whose chain is sound is kept; along a plain path it holds
the text of the nearest node of its chain that has one there, and nothing when a node nearer than
that one replaces what it inherits on the way. -/
theorem resolve_nearest_text {root : Node} {i r : Nat} {is : List Nat} {n : Node}
    (hn : root.children[i]? = some n) (ha : n.flag "Abstract" ≠ some true)
    (ht : Trail root.children i is r) (hr : parentName root.children r = none) (hp : item ∉ p)
    (hs : ∀ a ∈ is ++ [r], plain p (nodeAt root.children a) = true) :
    ∃ (place : Nat) (composed : Node), (survivors item root.children)[place]? = some i ∧
      (resolve ⟨root, item, false⟩).root.children[place]? = some composed ∧
      (∀ before a after text, is ++ [r] = before ++ a :: after →
        (∀ b ∈ before, textAt p (nodeAt root.children b) = none) →
        textAt p (nodeAt root.children a) = some text →
        textAt p composed =
          if before.any fun b => blocks p (nodeAt root.children b) then none else some text) ∧
      ((∀ a ∈ is ++ [r], textAt p (nodeAt root.children a) = none) → textAt p composed = none) := by
  have hi := (List.getElem?_eq_some_iff.mp hn).1
  have hkept : i ∈ survivors item root.children :=
    mem_survivors.mpr ⟨hi, not_drops_of_root ht.above hr⟩
  obtain ⟨place, hlt, hplace⟩ := List.getElem_of_mem hkept
  have hsome : (survivors item root.children)[place]? = some i :=
    List.getElem?_eq_some_iff.mpr ⟨hlt, hplace⟩
  have htext := textAt_resolvedNode hi hp (by rwa [nodeAt_of_getElem? hn]) ht hr hs
  refine ⟨place, resolvedNode item root.children i, hsome, ?_, ?_, ?_⟩
  · show (resolveNodes item root.children)[place]? = _
    rw [resolveNodes_eq_map, List.getElem?_map, hsome]
    rfl
  · intro before a after text hsplit hb hat
    have hb' : ∀ b ∈ before.map (nodeAt root.children), textAt p b = none := by
      simpa using hb
    rw [htext, hsplit, List.map_append, List.map_cons, nearest_append _ hb' hat, List.any_map]
    rfl
  · intro hnone
    rw [htext]
    apply nearest_eq_none
    intro m hm
    obtain ⟨a, ha, rfl⟩ := List.mem_map.mp hm
    exact hnone a ha

/-- Three levels: `Stats` of the lowest one replaces what lies above it. -/
def threeLevels : Node :=
  let value (name text : String) : Node := ⟨name, .empty, some text, []⟩
  { Node.named "Defs" with
    children := [
      { (Node.named "C").setAttr "Abstract" "true" with
        children := [value "Damage" "1", value "Range" "30",
          { Node.named "Stats" with children := [value "Weight" "4", value "Bulk" "2"] }] },
      { ((Node.named "B").setAttr "Parent" "C").setAttr "Abstract" "true" with
        children := [value "Damage" "2",
          { Node.named "Stats" with children := [value "Weight" "5"] }] },
      { (Node.named "A").setAttr "Parent" "B" with
        children := [value "Damage" "3",
          { (Node.named "Stats").setAttr "Inherit" "false" with
            children := [value "Bulk" "9"] }] }] }

theorem threeLevels_trail : Trail threeLevels.children 2 [2, 1] 0 := by
  have hA : IsParent threeLevels.children 2 1 :=
    (isParent_iff _ 2 1).mpr ⟨"B", by decide, by decide⟩
  have hB : IsParent threeLevels.children 1 0 :=
    (isParent_iff _ 1 0).mpr ⟨"C", by decide, by decide⟩
  exact .up hA (.up hB (.here 0))

theorem threeLevels_weight :
    ∃ (place : Nat) (composed : Node), (survivors "li" threeLevels.children)[place]? = some 2 ∧
      (resolve ⟨threeLevels, "li", false⟩).root.children[place]? = some composed ∧
      textAt ["Stats", "Weight"] composed = none := by
  have hpath : "li" ∉ ["Stats", "Weight"] := by decide
  obtain ⟨place, composed, hplace, hcomposed, hnearest, -⟩ :=
    resolve_nearest_text rfl (by decide) threeLevels_trail rfl hpath (by decide)
  refine ⟨place, composed, hplace, hcomposed, ?_⟩
  exact hnearest [2] 1 [0] (some "5") rfl (by decide) rfl

end Master

end DefLoad
