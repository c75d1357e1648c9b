import DefLoad.Proofs.NearestDefinition

/-!
The attributes of a composed node. Each is the one of the nearest node of the chain that carries it,
as far as no nearer node replaces what it inherits; `Abstract` and `Null` are the node's own.
-/

namespace DefLoad

namespace Attributes

theorem get?_erase_self (a : Attributes) (key : String) : (a.erase key).get? key = none :=
  Assoc.get?_erase_self a.distinct key

end Attributes

namespace Master

variable {item key : String}

/-- The attributes that a node never takes from a node above it. -/
def ownKeys : List String := ["Abstract", "Null"]

theorem attr_takeOver (s d : Node) (h : key ≠ "Inherit") : (takeOver s d).attr key = s.attr key :=
  Attributes.get?_erase_ne _ (Ne.symm h)

theorem get?_clearOwn {attrs : Attributes} (h : key ∈ ownKeys) :
    (clearOwn attrs).get? key = none := by
  unfold clearOwn
  by_cases hn : key = "Null"
  · rw [hn, Attributes.get?_erase_self]
  · have ha : key = "Abstract" := by simpa [ownKeys, hn] using h
    rw [ha, Attributes.get?_erase_ne _ (by decide), Attributes.get?_erase_self]

theorem attr_dressed_own (d s : Node) (h : key ∈ ownKeys) :
    (dressed d s).attr key = s.attr key := by
  simp only [dressed, Node.attr, Attributes.get?_setAll, get?_clearOwn h, Option.or_none]

/-- The source speaks first; where it is silent, the destination is heard unless it is replaced. -/
theorem attr_merge_or (d s : Node) (hi : key ≠ "Inherit") (ho : key ∉ ownKeys) :
    (merge item d s).attr key = (s.attr key).or (if replaces s then none else d.attr key) := by
  have ha : key ≠ "Abstract" := fun h => ho (by simp [ownKeys, h])
  have hn : key ≠ "Null" := fun h => ho (by simp [ownKeys, h])
  cases hr : replaces s with
  | true => rw [merge_replaces item hr, attr_takeOver s d hi, if_pos rfl, Option.or_none]
  | false => rw [attr_merge_of_not_replaces hr, attr_dressed d s ha hn, if_neg Bool.false_ne_true]

theorem attr_merge_own (d s : Node) (ho : key ∈ ownKeys) :
    (merge item d s).attr key = s.attr key := by
  have hi : key ≠ "Inherit" := fun h => by simp [ownKeys, h] at ho
  cases hr : replaces s with
  | true => rw [merge_replaces item hr, attr_takeOver s d hi]
  | false => rw [attr_merge_of_not_replaces hr, attr_dressed_own d s ho]

/-- Folding a chain gives each attribute its nearest value. -/
theorem attr_foldr_merge (as : List Node) (base : Node) (hi : key ≠ "Inherit")
    (ho : key ∉ ownKeys) :
    (as.foldr (fun s d => merge item d s) base).attr key =
      nearest (·.attr key) replaces (as ++ [base]) := by
  induction as with
  | nil => simp [nearest]
  | cons a as ih => rw [List.foldr_cons, attr_merge_or _ a hi ho, ih]; rfl

variable (item)

section

variable {nodes : List Node} {i r : Nat} {is : List Nat} (hi : i < nodes.length)
  (ha : (nodeAt nodes i).flag "Abstract" ≠ some true) (ht : Trail nodes i is r)
  (hr : parentName nodes r = none)

include hi ha ht hr

theorem attr_resolvedNode (hk : key ≠ "Inherit") (ho : key ∉ ownKeys) :
    (resolvedNode item nodes i).attr key =
      nearest (·.attr key) replaces ((is ++ [r]).map (nodeAt nodes)) := by
  have hname :
      ((nodeAt nodes r).rename (nodeAt nodes i).name).attr key = (nodeAt nodes r).attr key := rfl
  rw [resolvedNode_of_trail hi ha ht hr, attr_foldr_merge _ _ hk ho, nearest_concat _ _ hname]
  simp

/-- The last merge is that of the node itself. -/
theorem attr_resolvedNode_own (ho : key ∈ ownKeys) :
    (resolvedNode item nodes i).attr key = (nodeAt nodes i).attr key := by
  rw [resolvedNode_of_trail hi ha ht hr]
  cases ht with
  | here => rfl
  | up _ _ => exact attr_merge_own _ _ ho

end

theorem exists_place {root : Node} {i r : Nat} (hi : i < root.children.length)
    (h : Above root.children i r) (hr : parentName root.children r = none) :
    ∃ place : Nat, (survivors item root.children)[place]? = some i ∧
      (resolve ⟨root, item, false⟩).root.children[place]? =
        some (resolvedNode item root.children i) := by
  obtain ⟨place, hplace⟩ := List.getElem?_of_mem
    (mem_survivors.mpr ⟨hi, not_drops_of_root h hr⟩ : i ∈ survivors item root.children)
  refine ⟨place, hplace, ?_⟩
  show (resolveNodes item root.children)[place]? = _
  rw [resolveNodes_eq_map, List.getElem?_map, hplace]
  rfl

/-- A node whose chain is sound is kept, and it carries each attribute of the nearest node of its
chain that has one, unless a node nearer than that one replaces what it inherits. It is a template
or null only by its own word. -/
theorem resolve_inherits_attributes {root : Node} {i r : Nat} {is : List Nat} {n : Node}
    (hn : root.children[i]? = some n) (ha : n.flag "Abstract" ≠ some true)
    (ht : Trail root.children i is r) (hr : parentName root.children r = none) :
    ∃ (place : Nat) (composed : Node), (survivors item root.children)[place]? = some i ∧
      (resolve ⟨root, item, false⟩).root.children[place]? = some composed ∧
      (∀ key, key ≠ "Abstract" → key ≠ "Null" → key ≠ "Inherit" →
        (∀ before a after value, is ++ [r] = before ++ a :: after →
          (∀ b ∈ before, (nodeAt root.children b).attr key = none) →
          (nodeAt root.children a).attr key = some value →
          composed.attr key =
            if before.any fun b => replaces (nodeAt root.children b) then none else some value) ∧
        ((∀ a ∈ is ++ [r], (nodeAt root.children a).attr key = none) →
          composed.attr key = none)) ∧
      composed.attr "Abstract" = n.attr "Abstract" ∧ composed.attr "Null" = n.attr "Null" ∧
      composed.flag "Abstract" = n.flag "Abstract" ∧ composed.flag "Null" = n.flag "Null" := by
  have hi := (List.getElem?_eq_some_iff.mp hn).1
  have hnode := nodeAt_of_getElem? hn
  rw [← hnode] at ha ⊢
  obtain ⟨place, hplace, hcomposed⟩ := exists_place item hi ht.above hr
  have hown (key : String) (ho : key ∈ ownKeys) :=
    attr_resolvedNode_own item hi ha ht hr ho
  have hAbstract := hown "Abstract" (by simp [ownKeys])
  have hNull := hown "Null" (by simp [ownKeys])
  refine ⟨place, resolvedNode item root.children i, hplace, hcomposed, ?_, hAbstract, hNull,
    congrArg (·.bind Node.readFlag) hAbstract, congrArg (·.bind Node.readFlag) hNull⟩
  intro key hka hkn hki
  have hattr := attr_resolvedNode item hi ha ht hr hki (by simp [ownKeys, hka, hkn])
  constructor
  · intro before a after value hsplit hb hat
    have hb' : ∀ b ∈ before.map (nodeAt root.children), b.attr key = none := by simpa using hb
    rw [hattr, hsplit, List.map_append, List.map_cons, nearest_append _ hb' hat, List.any_map]
    rfl
  · intro hnone
    rw [hattr]
    apply nearest_eq_none
    intro m hm
    obtain ⟨a, ha, rfl⟩ := List.mem_map.mp hm
    exact hnone a ha

/-- The node in the middle is a template that replaces what it inherits. -/
def crossbows : Node :=
  { Node.named "Defs" with
    children := [
      (((Node.named "Base").setAttr "Type" "GunDef").setAttr "Tag" "old").setAttr "Null" "true",
      ((((Node.named "Bow").setAttr "Parent" "Base").setAttr "Abstract" "true").setAttr "Inherit"
        "false").setAttr "Tag" "new",
      (Node.named "Crossbow").setAttr "Parent" "Bow"] }

theorem crossbows_trail : Trail crossbows.children 2 [2, 1] 0 := by
  have hlow : IsParent crossbows.children 2 1 :=
    (isParent_iff _ 2 1).mpr ⟨"Bow", by decide, by decide⟩
  have hhigh : IsParent crossbows.children 1 0 :=
    (isParent_iff _ 1 0).mpr ⟨"Base", by decide, by decide⟩
  exact .up hlow (.up hhigh (.here 0))

theorem crossbow_attributes :
    ∃ (place : Nat) (composed : Node), (survivors "li" crossbows.children)[place]? = some 2 ∧
      (resolve ⟨crossbows, "li", false⟩).root.children[place]? = some composed ∧
      composed.attr "Tag" = some "new" ∧ composed.attr "Type" = none ∧
      composed.attr "Abstract" = none ∧ composed.attr "Null" = none := by
  obtain ⟨place, composed, hplace, hcomposed, hnearest, hAbstract, hNull, -⟩ :=
    resolve_inherits_attributes "li" rfl (by decide) crossbows_trail rfl
  refine ⟨place, composed, hplace, hcomposed, ?_, ?_, hAbstract, hNull⟩
  · exact (hnearest "Tag" (by decide) (by decide) (by decide)).1 [2] 1 [0] "new" rfl (by decide) rfl
  · exact (hnearest "Type" (by decide) (by decide) (by decide)).1 [2, 1] 0 [] "GunDef" rfl
      (by decide) rfl

end Master

end DefLoad
