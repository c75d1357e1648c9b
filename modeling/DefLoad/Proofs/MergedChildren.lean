import DefLoad.Proofs.Lineage
import DefLoad.Proofs.Merge
import Mathlib.Data.List.Nodup

/-!
The children of a merged node. What the destination has keeps its place, and of each name only the
first child is touched; a name that is new comes last.
-/

namespace DefLoad

namespace Master

variable {item : String} {c d s : Node} {cs ds : List Node} {i : Nat} {name : String}

theorem firstNamed_cons (n : Node) (ns : List Node) (name : String) :
    firstNamed (n :: ns) name =
      if n.name = name then some 0 else (firstNamed ns name).map (· + 1) := by
  simp [firstNamed, List.findIdx?_cons]

theorem firstNamed_eq_findIdx? (ns : List Node) (name : String) :
    firstNamed ns name = (ns.map Node.name).findIdx? (· == name) := by
  rw [firstNamed, List.findIdx?_map]
  rfl

theorem firstNamed_isSome_iff : (firstNamed ds name).isSome ↔ name ∈ ds.map Node.name := by
  rw [firstNamed_eq_findIdx?, List.findIdx?_isSome, List.any_beq']
  simp

theorem getElem?_modifyFirst (name : String) (f : Node → Node) (ns : List Node) (i : Nat) :
    (Node.modifyFirst name f ns)[i]? =
      if firstNamed ns name = some i then ns[i]?.map f else ns[i]? := by
  induction ns generalizing i with
  | nil => simp [Node.modifyFirst]
  | cons n ns ih =>
    rw [Node.modifyFirst, firstNamed_cons]
    by_cases hn : n.name = name
    · cases i <;> simp [hn]
    · cases i <;> simp [hn, ih]

theorem any_name_iff : ds.any (·.name == name) = true ↔ name ∈ ds.map Node.name := by
  simp

theorem map_name_mergeChild (item : String) (c : Node) (ds : List Node) :
    (mergeChild item c ds).map Node.name =
      if c.name ∈ ds.map Node.name then ds.map Node.name else ds.map Node.name ++ [c.name] := by
  have hname : ∀ x, (mergeFrom item c x).name = x.name := fun x => merge_name item x c
  unfold mergeChild
  by_cases hmem : c.name ∈ ds.map Node.name
  · rw [if_pos (any_name_iff.mpr hmem), if_pos hmem, Node.map_name_modifyFirst c.name hname]
  · rw [if_neg (mt any_name_iff.mp hmem), if_neg hmem, List.map_append]
    rfl

/-- The names of the destination, then those that only the source has, each once. -/
theorem map_name_mergeChildren (item : String) (cs ds : List Node) :
    (mergeChildren item false cs ds).map Node.name =
      ds.map Node.name ++
        ((cs.map Node.name).filter (· ∉ ds.map Node.name)).eraseDups := by
  induction cs generalizing ds with
  | nil => simp [mergeChildren]
  | cons c cs ih =>
    rw [mergeChildren_cons, ih, map_name_mergeChild, List.map_cons]
    by_cases hmem : c.name ∈ ds.map Node.name
    · rw [if_pos hmem, List.filter_cons_of_neg (by simpa using hmem)]
    · rw [if_neg hmem, List.filter_cons_of_pos (by simpa using hmem), List.eraseDups_cons,
        List.filter_filter, List.append_assoc, List.singleton_append]
      congr 3
      apply List.filter_congr
      intro x _
      by_cases hx : x = c.name <;> simp [hx]

theorem nodup_names_mergeChildren (item : String) (cs ds : List Node)
    (hd : (ds.map Node.name).Nodup) : ((mergeChildren item false cs ds).map Node.name).Nodup := by
  induction cs generalizing ds with
  | nil => simpa [mergeChildren] using hd
  | cons c cs ih =>
    rw [mergeChildren_cons]
    apply ih
    rw [map_name_mergeChild]
    split
    case isTrue => exact hd
    case isFalse hnew =>
      rw [List.nodup_append]
      refine ⟨hd, List.nodup_singleton _, fun a ha b hb he => ?_⟩
      rw [List.mem_singleton.mp hb] at he
      exact hnew (he ▸ ha)

/-- Without namesakes nothing is merged. -/
theorem mergeChildren_of_nodup (item : String) {cs ds : List Node}
    (h : ((ds ++ cs).map Node.name).Nodup) : mergeChildren item false cs ds = ds ++ cs := by
  induction cs generalizing ds with
  | nil => simp [mergeChildren]
  | cons c cs ih =>
    have hnew : c.name ∉ ds.map Node.name := by
      rw [List.map_append, List.nodup_append] at h
      exact fun hmem => h.2.2 _ hmem _ List.mem_cons_self rfl
    rw [List.append_cons] at h ⊢
    rw [mergeChildren_cons, mergeChild, if_neg (mt any_name_iff.mp hnew), ih h]

theorem foldl_mergeFirst (item : String) (c : Node) (later : List Node) :
    later.foldl (fun d c => mergeFirst item (some c) d) (some c) =
      some (later.foldl (merge item) c) := by
  induction later generalizing c with
  | nil => rfl
  | cons d later ih => exact ih (merge item c d)

theorem find?_of_mem {ns : List Node} (h : (ns.map Node.name).Nodup) {n : Node} (hn : n ∈ ns) :
    ns.find? (·.name == n.name) = some n := by
  induction ns with
  | nil => cases hn
  | cons m ns ih =>
    obtain ⟨hnew, h⟩ := List.nodup_cons.mp h
    rcases List.mem_cons.mp hn with rfl | hn
    · simp
    · have hne : m.name ≠ n.name := fun he => hnew (he ▸ List.mem_map_of_mem hn)
      simp [hne, ih h hn]

/-- What comes of children without a destination: one node for each name, in the order in which the
names come first, made of all children of the name. -/
theorem mergeChildren_nil (item : String) (cs : List Node) :
    List.Forall₂ (fun name n => ∃ c later, cs.filter (·.name == name) = c :: later ∧
      n = later.foldl (merge item) c)
      (cs.map Node.name).eraseDups (mergeChildren item false cs []) := by
  have hnames := map_name_mergeChildren item cs []
  have hnodup := nodup_names_mergeChildren item cs [] List.nodup_nil
  have hall : (cs.map Node.name).eraseDups =
      (mergeChildren item false cs []).map Node.name := by simpa using hnames.symm
  rw [hall, List.forall₂_map_left_iff, List.forall₂_same]
  intro n hn
  have hfind := find?_of_mem hnodup hn
  rw [find?_mergeChildren_eq_foldl] at hfind
  cases hfilter : cs.filter (·.name == n.name) with
  | nil =>
    rw [hfilter] at hfind
    cases hfind
  | cons c later =>
    rw [hfilter, List.foldl_cons] at hfind
    exact ⟨c, later, rfl, Option.some.inj (hfind.symm.trans (foldl_mergeFirst item c later))⟩

/-- A child of the destination keeps its place; when it is the first one of its name, a source child
of this name is merged into it. -/
theorem getElem?_mergeChild (h : ds[i]? = some d) :
    (mergeChild item c ds)[i]? =
      some (if c.name = d.name ∧ firstNamed ds d.name = some i then merge item d c else d) := by
  have hlt := (List.getElem?_eq_some_iff.mp h).1
  unfold mergeChild
  by_cases hmem : c.name ∈ ds.map Node.name
  · rw [if_pos (any_name_iff.mpr hmem), getElem?_modifyFirst, h]
    by_cases hfirst : firstNamed ds c.name = some i
    · have hname : c.name = d.name := by
        obtain ⟨⟨n, hn, hname⟩, -⟩ := (firstNamed_eq_some_iff ..).mp hfirst
        rw [h] at hn
        cases hn
        exact hname.symm
      rw [if_pos hfirst, if_pos ⟨hname, hname ▸ hfirst⟩]
      rfl
    · have hnot : ¬(c.name = d.name ∧ firstNamed ds d.name = some i) := by
        rintro ⟨hname, hd⟩
        exact hfirst (hname ▸ hd)
      rw [if_neg hfirst, if_neg hnot]
  · have hne : c.name ≠ d.name := fun he =>
      hmem (he ▸ List.mem_map_of_mem (List.mem_of_getElem? h))
    rw [if_neg (mt any_name_iff.mp hmem), if_neg (mt And.left hne),
      List.getElem?_append_left hlt, h]

theorem firstNamed_mergeChild (h : name ∈ ds.map Node.name) :
    firstNamed (mergeChild item c ds) name = firstNamed ds name := by
  rw [firstNamed_eq_findIdx?, firstNamed_eq_findIdx?, map_name_mergeChild]
  split
  case isTrue => rfl
  case isFalse =>
    obtain ⟨j, hj⟩ := Option.isSome_iff_exists.mp (firstNamed_isSome_iff.mpr h)
    rw [firstNamed_eq_findIdx?] at hj
    rw [List.findIdx?_append, hj]
    rfl

/-- All source children of its name are merged into the first child of a name, one after the other;
the other children of the destination stay. -/
theorem getElem?_mergeChildren (cs : List Node) (h : ds[i]? = some d) :
    (mergeChildren item false cs ds)[i]? =
      some (if firstNamed ds d.name = some i then
        (cs.filter (·.name == d.name)).foldl (merge item) d else d) := by
  induction cs generalizing ds d with
  | nil => simp [mergeChildren, h]
  | cons c cs ih =>
    have hmem : d.name ∈ ds.map Node.name := List.mem_map_of_mem (List.mem_of_getElem? h)
    rw [mergeChildren_cons, ih (getElem?_mergeChild h)]
    by_cases hfirst : firstNamed ds d.name = some i
    · by_cases hname : c.name = d.name
      · have hmerged : (merge item d c).name = d.name := merge_name item d c
        simp [hfirst, hname, hmerged, firstNamed_mergeChild hmem]
      · simp [hfirst, hname, firstNamed_mergeChild hmem]
    · simp [hfirst, firstNamed_mergeChild hmem]

/-! A merge whose source does not replace the destination. -/

theorem attr_merge (hs : replaces s = false) (d : Node) {key : String} (ha : key ≠ "Abstract")
    (hn : key ≠ "Null") : (merge item d s).attr key = (s.attr key).or (d.attr key) := by
  rw [attr_merge_of_not_replaces hs, attr_dressed d s ha hn]

theorem prefix_names_merge (hs : replaces s = false) (d : Node) :
    d.children.map Node.name <+: (merge item d s).children.map Node.name := by
  rw [children_merge item hs]
  split
  · exact (List.prefix_append _ _).map Node.name
  · rw [map_name_mergeChildren]
    exact List.prefix_append _ _

theorem mem_names_merge (hs : replaces s = false) (d : Node) :
    name ∈ (merge item d s).children.map Node.name ↔
      name ∈ d.children.map Node.name ∨ name ∈ s.children.map Node.name := by
  rw [children_merge item hs]
  split
  · rw [List.map_append, List.mem_append]
  · rw [map_name_mergeChildren, List.mem_append, List.mem_eraseDups, List.mem_filter]
    by_cases hmem : name ∈ d.children.map Node.name <;> simp [hmem]

theorem getElem?_merge (hs : replaces s = false) (h : d.children[i]? = some c) :
    (merge item d s).children[i]? =
      some (if appends item (dressed d s) s = false ∧ firstNamed d.children c.name = some i then
        (s.children.filter (·.name == c.name)).foldl (merge item) c else c) := by
  have hlt := (List.getElem?_eq_some_iff.mp h).1
  have hvalue : d.isValue = false := by
    rw [← Bool.not_eq_true]
    intro hv
    simp [children_of_isValue hv] at hlt
  rw [children_merge item hs, hvalue]
  cases ha : appends item (dressed d s) s with
  | true => simp [List.getElem?_append_left hlt, h]
  | false => simp [getElem?_mergeChildren s.children h]

/-- Merging neither loses nor moves children of the destination. Their names come first, in order;
a child that is not the first one of its name, or whose name the source does not have, or any child
when the merge appends, stays as it is, and into the others the source's children of their name are
merged in turn. Every name of either side is there, and a merge that appends puts the source's
children behind the destination's. The destination keeps its name and the attributes that the source
does not set, `Abstract` and `Null` apart. -/
theorem merge_keeps (item : String) {d s : Node} (hs : replaces s = false) :
    let merged := merge item d s
    let append := appends item (dressed d s) s
    let names (n : Node) := n.children.map Node.name
    merged.name = d.name ∧
    (∀ key, key ≠ "Abstract" → key ≠ "Null" → s.attr key = none →
      merged.attr key = d.attr key) ∧
    names d <+: names merged ∧
    (∀ i c, d.children[i]? = some c →
      (append = true ∨ c.name ∉ names s ∨ ¬ IsFirst d.children c.name i →
        merged.children[i]? = some c) ∧
      (append = false → IsFirst d.children c.name i →
        merged.children[i]? =
          some ((s.children.filter (·.name == c.name)).foldl (merge item) c))) ∧
    (∀ name, name ∈ names merged ↔ name ∈ names d ∨ name ∈ names s) ∧
    (append = true → merged.children = d.children ++ s.children) := by
  intro merged append names
  refine ⟨merge_name item d s, fun key ha hn hkey => ?_, prefix_names_merge hs d,
    fun i c hc => ⟨fun hkeep => ?_, fun happend hfirst => ?_⟩, fun name => mem_names_merge hs d,
    fun happend => ?_⟩
  · rw [attr_merge hs d ha hn, hkey, Option.none_or]
  · rw [getElem?_merge hs hc]
    split
    case isFalse => rfl
    case isTrue hmerges =>
      obtain ⟨happend, hfirst⟩ := hmerges
      rcases hkeep with hyes | hother | hlater
      · exact absurd (hyes.symm.trans happend) (by decide)
      · -- no source child is merged into it
        have hnone : s.children.filter (·.name == c.name) = [] := by
          rw [List.filter_eq_nil_iff]
          exact fun n hn he => hother (beq_iff_eq.mp he ▸ List.mem_map_of_mem hn)
        rw [hnone]
        rfl
      · exact absurd ((firstNamed_eq_some_iff ..).mp hfirst) hlater
  · rw [getElem?_merge hs hc, if_pos ⟨happend, (firstNamed_eq_some_iff ..).mpr hfirst⟩]
  · rw [children_merge item hs, if_pos (.inr happend)]

section

def price (name amount : String) : Node := ⟨name, .empty, some amount, []⟩

/-- A template of prices, two of which share a name. -/
def prices : Node :=
  { ((Node.named "Costs").setAttr "Abstract" "true").setAttr "Unit" "kg" with
    children := [price "Steel" "5", price "Wood" "2", price "Steel" "7"] }

def newPrices : Node :=
  { Node.named "Changes" with
    children := [price "Iron" "3", price "Steel" "8", price "Iron" "4", price "Steel" "9"] }

theorem prices_kept :
    replaces newPrices = false ∧ (merge "li" prices newPrices).name = "Costs" ∧
      (merge "li" prices newPrices).attr "Unit" = some "kg" ∧
      (merge "li" prices newPrices).children[0]? = some (price "Steel" "9") ∧
      (merge "li" prices newPrices).children[1]? = some (price "Wood" "2") ∧
      (merge "li" prices newPrices).children[2]? = some (price "Steel" "7") ∧
      "Iron" ∈ (merge "li" prices newPrices).children.map Node.name := by
  have hs : replaces newPrices = false := rfl
  obtain ⟨hname, hattr, -, hchild, hmem, -⟩ := merge_keeps "li" (d := prices) hs
  refine ⟨hs, hname, hattr "Unit" (by decide) (by decide) rfl, ?_, ?_, ?_, ?_⟩
  · exact (hchild 0 _ rfl).2 rfl ((firstNamed_eq_some_iff ..).mp rfl)
  · exact (hchild 1 _ rfl).1 (.inr (.inl (by decide)))
  · refine (hchild 2 _ rfl).1 (.inr (.inr fun hfirst => ?_))
    exact absurd ((firstNamed_eq_some_iff ..).mpr hfirst) (by decide)
  · exact (hmem "Iron").mpr (.inr (by decide))

end

/-! A destination without children. -/

/-- A destination without children takes the source's text. It takes the source's children as they
are if it holds a text, if the merge appends, or if no two of them share a name. Otherwise the
children of one name are merged into the first of them. -/
theorem merge_childless (item : String) {d s : Node} (hd : d.children = [])
    (hs : replaces s = false) :
    (merge item d s).text = s.text ∧
    ((merge item d s).children = s.children ↔
      d.text.isSome ∨ appends item (dressed d s) s = true ∨ (s.children.map Node.name).Nodup) ∧
    (d.text = none → appends item (dressed d s) s = false →
      List.Forall₂ (fun name n => ∃ c later, s.children.filter (·.name == name) = c :: later ∧
        n = later.foldl (merge item) c)
        (s.children.map Node.name).eraseDups (merge item d s).children) := by
  have hvalue : d.isValue = d.text.isSome := by simp [Node.isValue, hd]
  have hchildren := children_merge item hs d
  rw [hvalue, hd, List.nil_append] at hchildren
  refine ⟨?_, ?_, fun htext happend => ?_⟩
  · rw [merge_of_not_replaces hs, hvalue]
    cases d.text <;> simp
  · rw [hchildren]
    split
    case isTrue hwhole => exact ⟨fun _ => hwhole.imp id .inl, fun _ => rfl⟩
    case isFalse hmerged =>
      constructor
      · intro he
        have hnodup := nodup_names_mergeChildren item s.children [] List.nodup_nil
        rw [he] at hnodup
        exact .inr (.inr hnodup)
      · rintro (htext | happend | hnodup)
        · exact absurd (.inl htext) hmerged
        · exact absurd (.inr happend) hmerged
        · exact mergeChildren_of_nodup item hnodup
  · rw [hchildren, if_neg (by simp [htext, happend])]
    exact mergeChildren_nil item s.children

section

def noPrices : Node := Node.named "Costs"

def mixedPrices : Node :=
  { Node.named "Costs" with children := [price "Steel" "5", price "Wood" "2"] }

theorem noPrices_takes :
    noPrices.children = [] ∧ replaces mixedPrices = false ∧
      (merge "li" noPrices mixedPrices).children = mixedPrices.children := by
  have hs : replaces mixedPrices = false := rfl
  obtain ⟨-, hwhole, -⟩ := merge_childless "li" (d := noPrices) rfl hs
  exact ⟨rfl, hs, hwhole.mpr (.inr (.inr (by decide)))⟩

def steelPrices : Node :=
  { Node.named "Costs" with children := [price "Steel" "5", price "Steel" "6"] }

/-- Of two children of one name an empty destination keeps one. -/
theorem noPrices_loses :
    noPrices.children = [] ∧ replaces steelPrices = false ∧
      (merge "li" noPrices steelPrices).children = [price "Steel" "6"] ∧
      (merge "li" noPrices steelPrices).children ≠ steelPrices.children := by
  refine ⟨rfl, rfl, rfl, fun he => ?_⟩
  have hlength := congrArg List.length he
  exact absurd hlength (by decide)

end

end Master

end DefLoad
