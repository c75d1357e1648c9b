import DefLoad.Config
import Mathlib.Data.List.Basic

/-!
Properties that are written more than once, and nodes with more than one value. Of the values that
are given to a key the tree keeps the last one that has a content, so `#null` does not take back what
stands before it. A document is refused for the first element that has several values.
-/

namespace DefLoad.Kdl

open Config (arguments)

theorem Value.content_eq_none_iff {v : Value} : v.content = none ↔ v = .null := by
  cases v <;> simp [content]

def Entry.argument? : Entry → Option Value
  | .argument v => some v
  | .property _ _ => none

/-- The value that an entry gives to the key. -/
def Entry.valueFor? (key : String) : Entry → Option Value
  | .argument _ => none
  | .property k v => if k = key then some v else none

namespace Element

/-- The values that the key is given, in their order. -/
def values (e : Element) (key : String) : List Value := e.entries.filterMap (Entry.valueFor? key)

/-- The text of the last value of the key that has one. -/
def lastContent (e : Element) (key : String) : Option String :=
  ((e.values key).filterMap Value.content).getLast?

def isCrowded (e : Element) : Bool := 1 < (arguments e).length

mutual

/-- An element with everything below it, in document order. -/
def listing : Element → List Element
  | ⟨name, entries, children⟩ => ⟨name, entries, children⟩ :: listingAll children

def listingAll : List Element → List Element
  | [] => []
  | e :: es => e.listing ++ listingAll es

end

/-- The first element with several values. -/
def firstCrowded? (es : List Element) : Option Element := (listingAll es).find? isCrowded

/-- Keeping the last content is keeping the last value, unless that is `#null` after another one. -/
theorem lastContent_iff (e : Element) (key : String) :
    e.lastContent key = (e.values key).getLast?.bind Value.content ↔
      ((e.values key).getLast? = some .null → ∀ v ∈ e.values key, v = .null) := by
  unfold lastContent
  generalize e.values key = vs
  obtain rfl | ⟨before, v, rfl⟩ := vs.eq_nil_or_concat
  · simp
  · rw [List.concat_eq_append, List.filterMap_append, List.getLast?_append, List.getLast?_append]
    cases hv : v.content with
    | some s =>
      have hne : v ≠ .null := fun h => by
        rw [Value.content_eq_none_iff.mpr h] at hv
        cases hv
      simp [hv, hne]
    | none =>
      obtain rfl := Value.content_eq_none_iff.mp hv
      simp [hv, Value.content_eq_none_iff, or_imp]

end Element

/-! Entries one after the other. -/

theorem addEntry_name (n : Node) (en : Entry) : (addEntry n en).name = n.name := by
  unfold addEntry
  split
  · rfl
  · split <;> rfl

theorem foldl_addEntry_name (entries : List Entry) (n : Node) :
    (entries.foldl addEntry n).name = n.name := by
  induction entries generalizing n with
  | nil => rfl
  | cons en entries ih => rw [List.foldl_cons, ih, addEntry_name]

theorem foldl_addEntry_attr (entries : List Entry) (n : Node) (key : String) :
    (entries.foldl addEntry n).attr key =
      ((entries.filterMap (Entry.valueFor? key)).filterMap Value.content).getLast?.or
        (n.attr key) := by
  induction entries generalizing n with
  | nil => rfl
  | cons en entries ih =>
    rw [List.foldl_cons, ih]
    cases en with
    | argument v => rfl
    | property k v =>
      by_cases hk : k = key
      · cases hv : v.content with
        | none => simp [addEntry, Entry.valueFor?, hk, hv]
        | some s => simp [addEntry, Entry.valueFor?, hk, hv, List.getLast?_cons]
      · cases hv : v.content <;> simp [addEntry, Entry.valueFor?, hk, hv]

theorem foldl_addEntry_text (entries : List Entry) (n : Node) :
    (entries.foldl addEntry n).text =
      (entries.filterMap Entry.argument?).getLast?.elim n.text Value.content := by
  induction entries generalizing n with
  | nil => rfl
  | cons en entries ih =>
    rw [List.foldl_cons, ih]
    cases en with
    | argument v =>
      rw [List.filterMap_cons_some (f := Entry.argument?) rfl, List.getLast?_cons]
      cases (entries.filterMap Entry.argument?).getLast? <;> rfl
    | property k v =>
      rw [List.filterMap_cons_none (f := Entry.argument?) rfl]
      cases hv : v.content <;> simp [addEntry, hv]

theorem length_arguments (e : Element) :
    (e.entries.filter isArgument).length = (arguments e).length := by
  have hentries (entries : List Entry) :
      (entries.filter isArgument).length = (entries.filterMap Entry.argument?).length := by
    induction entries with
    | nil => rfl
    | cons en entries ih =>
      cases en with
      | argument v => exact congrArg (· + 1) ih
      | property k v => exact ih
  exact hentries e.entries

/-! Elements and their nodes. -/

/-- The node is the one of the element. It has the value of the element as its text, and as the
attribute of a key the last content that the key is given. -/
inductive Mirrors : Element → Node → Prop
  | mk {e : Element} {n : Node} (name : n.name = e.name) (single : (arguments e).length ≤ 1)
    (text : n.text = (arguments e).head?.bind Value.content)
    (attr : ∀ key, n.attr key = e.lastContent key)
    (children : List.Forall₂ Mirrors e.children n.children) : Mirrors e n

/-- The crowded element that is met first is complained about; without one there is a result. -/
inductive Answers {α : Type} (R : α → Prop) : Option Element → Except DocumentError α → Prop
  | refused (e : Element) : Answers R (some e) (.error (.tooManyValues e.name (arguments e).length))
  | built (x : α) (h : R x) : Answers R none (.ok x)

theorem mirrors_of_children {e : Element} (hsingle : (arguments e).length ≤ 1) {cs : List Node}
    (hcs : List.Forall₂ Mirrors e.children cs) :
    Mirrors e { e.entries.foldl addEntry (Node.named e.name) with children := cs } := by
  refine .mk (foldl_addEntry_name _ _) hsingle ?_ (fun key => ?_) hcs
  · have htext := foldl_addEntry_text e.entries (Node.named e.name)
    change (e.entries.foldl addEntry (Node.named e.name)).text = _
    rw [htext]
    change (arguments e).getLast?.elim none Value.content = _
    match arguments e, hsingle with
    | [], _ => rfl
    | [v], _ => rfl
  · have hattr := foldl_addEntry_attr e.entries (Node.named e.name) key
    exact hattr.trans (Option.or_none)

mutual

theorem toNode_answers (e : Element) :
    Answers (Mirrors e) (e.listing.find? Element.isCrowded) (toNode e) := by
  obtain ⟨name, entries, children⟩ := e
  have hbelow := nodesOf_answers children
  rw [Element.firstCrowded?] at hbelow
  have hcount := length_arguments ⟨name, entries, children⟩
  simp only at hcount
  rw [Element.listing, toNode, hcount]
  by_cases hcrowded : 1 < (arguments ⟨name, entries, children⟩).length
  · rw [List.find?_cons_of_pos (by simpa [Element.isCrowded] using hcrowded), if_pos hcrowded]
    exact .refused _
  · rw [List.find?_cons_of_neg (by simpa [Element.isCrowded] using hcrowded), if_neg hcrowded]
    generalize (Element.listingAll children).find? Element.isCrowded = first,
      nodesOf children = result at hbelow
    cases hbelow with
    | refused e => exact .refused e
    | built cs hcs => exact .built _ (mirrors_of_children (Nat.le_of_not_lt hcrowded) hcs)

theorem nodesOf_answers (es : List Element) :
    Answers (List.Forall₂ Mirrors es) (Element.firstCrowded? es) (nodesOf es) := by
  cases es with
  | nil => exact .built [] .nil
  | cons e es =>
    have hfirst := toNode_answers e
    have hrest := nodesOf_answers es
    rw [Element.firstCrowded?, Element.listingAll, List.find?_append, nodesOf]
    rw [Element.firstCrowded?] at hrest
    generalize e.listing.find? Element.isCrowded = first, toNode e = result at hfirst
    cases hfirst with
    | refused c => exact .refused c
    | built n hn =>
      generalize (Element.listingAll es).find? Element.isCrowded = later,
        nodesOf es = result at hrest
      cases hrest with
      | refused c => exact .refused c
      | built ns hns => exact .built (n :: ns) (.cons hn hns)

end

end DefLoad.Kdl

namespace DefLoad

open Config (arguments)
open Kdl (Element Mirrors Answers)

/-- A text that is KDL is refused exactly when an element at some depth has several values, for the
first of them and with their number. Otherwise its tree mirrors its elements: the attribute of a key
is the last content that the key is given. This is the content of the last value of the key, unless
`#null` stands last and not alone. -/
theorem Document.parse_mirrors (s : String) :
    (match Kdl.read? s.toList with
      | none => Document.parse s = .error .malformed
      | some es => Answers (fun d : Document => List.Forall₂ Mirrors es d.nodes)
          (Element.firstCrowded? es) (Document.parse s)) ∧
    (∀ name count, Document.parse s = .error (.tooManyValues name count) ↔
      ∃ es e, Kdl.read? s.toList = some es ∧ Element.firstCrowded? es = some e ∧
        e.name = name ∧ (arguments e).length = count) ∧
    ∀ (e : Element) (key : String),
      e.lastContent key = (e.values key).getLast?.bind Kdl.Value.content ↔
        ((e.values key).getLast? = some .null → ∀ v ∈ e.values key, v = .null) := by
  have hanswers (es : List Element) := Kdl.nodesOf_answers es
  unfold Document.parse
  cases hread : Kdl.read? s.toList with
  | none => exact ⟨rfl, by simp, Element.lastContent_iff⟩
  | some es =>
    have hes := hanswers es
    dsimp only
    generalize hfirst : Element.firstCrowded? es = first, Kdl.nodesOf es = result at hes
    refine ⟨?_, fun name count => ?_, Element.lastContent_iff⟩
    · cases hes with
      | refused e => exact .refused e
      | built ns hns => exact .built _ hns
    · cases hes with
      | refused e => simp [Except.map, hfirst]
      | built ns hns => simp [Except.map, hfirst]

/-- The last value of the key is `#null`, and yet the tree has an attribute. -/
theorem null_keeps_earlier :
    let e : Element := ⟨"A", [.property "k" (.integer 1), .property "k" .null], []⟩
    Kdl.read? "A k=1 k=#null".toList = some [e] ∧ (e.values "k").getLast? = some .null ∧
      (Document.parse "A k=1 k=#null").map (fun d => d.nodes.map (·.attr "k")) =
        .ok [some "1"] := by
  have htokens : Kdl.Token.ofChars? (Kdl.dropMark "A k=1 k=#null".toList) =
      some [.text "A", .blank, .text "k", .equals, .literal (.integer 1), .blank, .text "k", .equals,
        .literal .null] := rfl
  have hread : Kdl.read? "A k=1 k=#null".toList =
      some [⟨"A", [.property "k" (.integer 1), .property "k" .null], []⟩] := by
    rw [Kdl.read?, htokens]
    cbv
  refine ⟨hread, by decide, ?_⟩
  rw [Document.parse, hread]
  rfl

end DefLoad
