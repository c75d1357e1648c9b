import DefLoad.Master
import Mathlib.Data.List.Count

/-!
Merging seen from outside: the name, the attributes and the first child of each name of the merged
node, from those of the two sides.
-/

namespace DefLoad

theorem Attributes.get?_setAll (a source : Attributes) (k : String) :
    (a.setAll source).get? k = (source.get? k).or (a.get? k) := by
  obtain ⟨es, hd⟩ := source
  simp only [setAll, Attributes.get?]
  induction es generalizing a with
  | nil => simp [Assoc.get?]
  | cons e es ih =>
    obtain ⟨j, v⟩ := e
    obtain ⟨hj, hd⟩ := List.nodup_cons.mp hd
    have hset := Assoc.get?_set a.entries j k v
    simp only [List.foldl_cons, ih (a.set j v) hd, Assoc.get?]
    by_cases hk : j = k
    · subst hk
      have hnone : Assoc.get? es j = none := (Assoc.get?_eq_none_iff es j).mpr hj
      simp [hnone, Attributes.set, hset]
    · simp [Attributes.set, hset, hk]

namespace Node

/-- The number of children of a name. -/
def countChild (n : Node) (name : String) : Nat := n.children.countP (·.name == name)

theorem find?_modifyFirst_self (name : String) {f : Node → Node} (hf : ∀ x, (f x).name = x.name)
    (ns : List Node) :
    (modifyFirst name f ns).find? (·.name == name) = (ns.find? (·.name == name)).map f := by
  induction ns with
  | nil => rfl
  | cons n ns ih =>
    by_cases hn : n.name = name
    · simp [modifyFirst, hn, hf]
    · simpa [modifyFirst, hn] using ih

theorem find?_modifyFirst_ne {name other : String} {f : Node → Node}
    (hf : ∀ x, (f x).name = x.name) (h : name ≠ other) (ns : List Node) :
    (modifyFirst name f ns).find? (·.name == other) = ns.find? (·.name == other) := by
  induction ns with
  | nil => rfl
  | cons n ns ih =>
    by_cases hn : n.name = name
    · subst hn
      simp [modifyFirst, hf, h]
    · have hb : (n.name == name) = false := by simpa using hn
      simp [modifyFirst, hb, List.find?_cons, ih]

theorem map_name_modifyFirst (name : String) {f : Node → Node}
    (hf : ∀ x, (f x).name = x.name) (ns : List Node) :
    (modifyFirst name f ns).map Node.name = ns.map Node.name := by
  induction ns with
  | nil => rfl
  | cons n ns ih =>
    rw [modifyFirst]
    split
    case isTrue => rw [List.map_cons, List.map_cons, hf]
    case isFalse => rw [List.map_cons, List.map_cons, ih]

theorem countP_modifyFirst (name other : String) {f : Node → Node}
    (hf : ∀ x, (f x).name = x.name) (ns : List Node) :
    (modifyFirst name f ns).countP (·.name == other) = ns.countP (·.name == other) := by
  have hnames (ns : List Node) :
      ns.countP (·.name == other) = (ns.map Node.name).countP (· == other) := by
    rw [List.countP_map]
    rfl
  rw [hnames, hnames, map_name_modifyFirst name hf]

end Node

namespace Master

variable {item : String}

/-- What the destination is before the texts and children come together. -/
def dressed (d s : Node) : Node := { d with attrs := (clearOwn d.attrs).setAll s.attrs }

theorem merge_of_not_replaces {s : Node} (h : replaces s = false) (d : Node) :
    merge item d s =
      if d.isValue then { dressed d s with text := s.text, children := s.children }
      else
        { dressed d s with
          text := s.text.or d.text
          children :=
            mergeChildren item (appends item (dressed d s) s) s.children d.children } := by
  obtain ⟨name, attrs, text, children⟩ := s
  simp only [merge, mergeFrom, h, Bool.false_eq_true, if_false]
  rfl

theorem merge_name (item : String) (d s : Node) : (merge item d s).name = d.name := by
  cases h : replaces s with
  | true => rw [merge_replaces item h]; rfl
  | false =>
    rw [merge_of_not_replaces h]
    split <;> rfl

theorem attr_dressed (d s : Node) {key : String} (ha : key ≠ "Abstract") (hn : key ≠ "Null") :
    (dressed d s).attr key = (s.attr key).or (d.attr key) := by
  simp only [dressed, Node.attr, Attributes.get?_setAll, clearOwn]
  rw [Attributes.get?_erase_ne _ (Ne.symm hn), Attributes.get?_erase_ne _ (Ne.symm ha)]

theorem attr_merge_of_not_replaces {s : Node} (h : replaces s = false) (d : Node) (key : String) :
    (merge item d s).attr key = (dressed d s).attr key := by
  rw [merge_of_not_replaces h]
  split <;> rfl

theorem children_of_isValue {d : Node} (h : d.isValue = true) : d.children = [] := by
  simp only [Node.isValue, Bool.and_eq_true, List.isEmpty_iff] at h
  exact h.1

/-- The children of a merged node. A destination that is a value has none, so it takes the source's
as they are. -/
theorem children_merge (item : String) {s : Node} (hs : replaces s = false) (d : Node) :
    (merge item d s).children =
      if d.isValue ∨ appends item (dressed d s) s = true then d.children ++ s.children
      else mergeChildren item false s.children d.children := by
  rw [merge_of_not_replaces hs]
  cases hv : d.isValue with
  | true => simp [children_of_isValue hv]
  | false =>
    cases ha : appends item (dressed d s) s with
    | true => simp [mergeChildren_append]
    | false => simp

/-! The first child of a name after merging, when the source has at most one of it. -/

/-- What becomes of the first children of a name, that of the source and that of the destination. -/
def mergeFirst (item : String) : Option Node → Option Node → Option Node
  | none, d => d
  | some s, none => some s
  | some s, some d => some (merge item d s)

/-- What one child of the source does to the children of a destination, unless all are appended. -/
def mergeChild (item : String) (c : Node) (ds : List Node) : List Node :=
  if ds.any (·.name == c.name) then Node.modifyFirst c.name (mergeFrom item c) ds else ds ++ [c]

theorem mergeChildren_cons (item : String) (c : Node) (cs ds : List Node) :
    mergeChildren item false (c :: cs) ds = mergeChildren item false cs (mergeChild item c ds) := by
  rw [mergeChildren]
  rfl

theorem find?_mergeChild (item : String) (c : Node) (ds : List Node) (name : String) :
    (mergeChild item c ds).find? (·.name == name) =
      if c.name = name then mergeFirst item (some c) (ds.find? (·.name == name))
      else ds.find? (·.name == name) := by
  have hf : ∀ x, (mergeFrom item c x).name = x.name := fun x => merge_name item x c
  unfold mergeChild
  by_cases hn : c.name = name
  · subst hn
    cases hd : ds.find? (·.name == c.name) with
    | none =>
      have hany : ds.any (·.name == c.name) = false := by simpa using hd
      simp [hany, hd, mergeFirst]
    | some d =>
      have hany : ds.any (·.name == c.name) = true :=
        List.any_eq_true.mpr ⟨d, List.mem_of_find?_eq_some hd, by simpa using List.find?_some hd⟩
      simp [hany, Node.find?_modifyFirst_self c.name hf, hd, merge, mergeFirst]
  · have hbeq : (c.name == name) = false := by simpa using hn
    rw [if_neg hn]
    split
    · exact Node.find?_modifyFirst_ne hf hn ds
    · simp [List.find?_append, hbeq]

/-- The source's children of a name are merged one after the other into the first one of it. -/
theorem find?_mergeChildren_eq_foldl (item : String) (cs ds : List Node) (name : String) :
    (mergeChildren item false cs ds).find? (·.name == name) =
      (cs.filter (·.name == name)).foldl (fun d c => mergeFirst item (some c) d)
        (ds.find? (·.name == name)) := by
  induction cs generalizing ds with
  | nil => simp [mergeChildren]
  | cons c cs ih =>
    rw [mergeChildren_cons, ih, find?_mergeChild]
    by_cases hn : c.name = name <;> simp [hn]

theorem find?_mergeChildren {name : String} {cs : List Node}
    (hc : cs.countP (·.name == name) ≤ 1) (ds : List Node) :
    (mergeChildren item false cs ds).find? (·.name == name) =
      mergeFirst item (cs.find? (·.name == name)) (ds.find? (·.name == name)) := by
  have hhead : cs.find? (·.name == name) = (cs.filter (·.name == name)).head? :=
    List.head?_filter.symm
  rw [find?_mergeChildren_eq_foldl, hhead]
  rw [List.countP_eq_length_filter] at hc
  cases hfilter : cs.filter (·.name == name) with
  | nil => rfl
  | cons c rest =>
    have hrest : rest = [] := by
      rw [hfilter, List.length_cons] at hc
      exact List.eq_nil_of_length_eq_zero (by omega)
    rw [hrest]
    rfl

theorem countP_mergeChildren {name : String} {cs ds : List Node}
    (hc : cs.countP (·.name == name) ≤ 1) (hd : ds.countP (·.name == name) ≤ 1) :
    (mergeChildren item false cs ds).countP (·.name == name) ≤ 1 := by
  induction cs generalizing ds with
  | nil => simpa [mergeChildren] using hd
  | cons c cs ih =>
    have hf : ∀ x, (mergeFrom item c x).name = x.name := fun x => merge_name item x c
    simp only [List.countP_cons] at hc
    rw [mergeChildren_cons]
    apply ih
    · omega
    · unfold mergeChild
      split
      case isTrue => rwa [Node.countP_modifyFirst c.name name hf]
      case isFalse hany =>
        by_cases hn : c.name = name
        · subst hn
          have hzero : ds.countP (·.name == c.name) = 0 := by
            simpa [List.countP_eq_zero] using hany
          simp [List.countP_append, hzero]
        · simpa [List.countP_append, hn] using hd

/-- A merge that appends brings list items only, unless the destination is marked as a list. -/
theorem countChild_of_appends {name : String} {d s : Node} (hl : d.flag "IsList" ≠ some true)
    (hn : name ≠ item) (h : appends item d s = true) : s.countChild name = 0 := by
  have hall : isItemList item s.children = true := by
    unfold appends at h
    cases hd : d.flag "IsList" with
    | none => simpa [hd] using h
    | some b => cases b <;> simp_all
  simp only [isItemList, Bool.and_eq_true, List.all_eq_true, beq_iff_eq] at hall
  simp only [Node.countChild, List.countP_eq_zero, beq_iff_eq]
  intro c hc he
  exact hn (he.symm.trans (hall.2 c hc))

theorem child?_eq_none_of_countChild {n : Node} {name : String} (h : n.countChild name = 0) :
    n.child? name = none := by
  simpa [Node.countChild, Node.child?, List.countP_eq_zero] using h

section

variable {name : String} {d s : Node} (h : replaces s = false)
  (hl : (dressed d s).flag "IsList" ≠ some true) (hn : name ≠ item) (hs : s.countChild name ≤ 1)

include h hl hn hs

theorem child?_merge :
    (merge item d s).child? name = mergeFirst item (s.child? name) (d.child? name) := by
  rw [Node.child?, children_merge item h]
  split
  case isTrue hwhole =>
    rcases hwhole with hvalue | happend
    · have hnone : d.child? name = none := by simp [Node.child?, children_of_isValue hvalue]
      rw [hnone, children_of_isValue hvalue, List.nil_append]
      cases hs : s.child? name <;> exact hs
    · have hnone := child?_eq_none_of_countChild (countChild_of_appends hl hn happend)
      rw [hnone, List.find?_append]
      exact (congrArg _ hnone).trans Option.or_none
  case isFalse => exact find?_mergeChildren hs d.children

theorem countChild_merge (hd : d.countChild name ≤ 1) : (merge item d s).countChild name ≤ 1 := by
  rw [Node.countChild, children_merge item h]
  split
  case isTrue hwhole =>
    rw [List.countP_append]
    rcases hwhole with hvalue | happend
    · rw [children_of_isValue hvalue, List.countP_nil, Nat.zero_add]
      exact hs
    · have hzero := countChild_of_appends hl hn happend
      simp only [Node.countChild] at hzero hd
      omega
  case isFalse => exact countP_mergeChildren hs hd

end

end Master

end DefLoad
