import DefLoad.Proofs.Spelling

/-!
Reading back what was written. The tokens that spell a tree are read as its elements, and these give
the tree again; so a written document is read as itself, or not at all.
-/

namespace DefLoad.Kdl

variable {d n : Nat}

def propertyOf (e : String × String) : Entry := .property e.1 (.text e.2)

/-- The entries of a written node. -/
def entriesOf (text : Option String) (attrs : Attributes) : List Entry :=
  text.toList.map (fun s => .argument (.text s)) ++ attrs.entries.map propertyOf

mutual

/-- What a written node is read as. -/
def elementOf : Node → Element
  | ⟨name, attrs, text, children⟩ => ⟨name, entriesOf text attrs, elementsOf children⟩

def elementsOf : List Node → List Element
  | [] => []
  | n :: ns => elementOf n :: elementsOf ns

end

/-! Entries. -/

@[simp] theorem skipBlanks_blank (ts : List Token) :
    skipBlanks (.blank :: ts) = skipBlanks ts := rfl

@[simp] theorem skipBlanks_text (s : String) (ts : List Token) :
    skipBlanks (.text s :: ts) = .text s :: ts := rfl

@[simp] theorem skipBlanks_newline (ts : List Token) :
    skipBlanks (.newline :: ts) = .newline :: ts := rfl

@[simp] theorem skipBlanks_openBrace (ts : List Token) :
    skipBlanks (.openBrace :: ts) = .openBrace :: ts := rfl

/-- The entries of a written node end at its newline or before its block. -/
def EndsEntries (ts : List Token) : Prop :=
  ∃ rest, ts = .newline :: rest ∨ ts = .blank :: .openBrace :: rest

theorem readEntries_stop {ts : List Token} (h : EndsEntries ts) :
    readEntries n 0 ts = some ([], ts) := by
  obtain ⟨rest, rfl | rfl⟩ := h
  · cases n <;> simp [readEntries]
  · cases n <;> simp [readEntries, splitDashes, startsEntry]

theorem readEntries_text {s : String} {rest rest' : List Token} {e : Entry}
    (h : readEntry (.text s :: rest) = some (e, rest')) :
    readEntries (n + 1) 0 (.blank :: .text s :: rest) =
      (readEntries n 0 rest').map fun (es, rest) => (e :: es, rest) := by
  simp [readEntries, splitDashes, startsEntry, h]

theorem readEntry_attribute (key value : String) (rest : List Token) :
    readEntry (.text key :: .equals :: .text value :: rest) =
      some (.property key (.text value), rest) := rfl

theorem readEntry_argument (s : String) {rest : List Token}
    (h : (skipBlanks rest).head? ≠ some .equals) :
    readEntry (.text s :: rest) = some (.argument (.text s), rest) := by
  unfold readEntry
  split
  case h_1 heq =>
    cases heq
    split
    case h_1 heq => simp [heq] at h
    case h_2 => rfl
  case h_2 hne => exact absurd rfl (hne s rest)

theorem readEntries_attributes {tail : List Token} (h : EndsEntries tail)
    (es : List (String × String)) (hn : es.length ≤ n) :
    readEntries n 0 (es.flatMap attributeTokens ++ tail) = some (es.map propertyOf, tail) := by
  induction es generalizing n with
  | nil => exact readEntries_stop h
  | cons e es ih =>
    cases n with
    | zero => simp at hn
    | succ n =>
      have hrest := ih (n := n) (by simpa using hn)
      have hfirst := readEntries_text (n := n)
        (readEntry_attribute e.1 e.2 (es.flatMap attributeTokens ++ tail))
      simpa [attributeTokens, hrest, propertyOf] using hfirst

/-- No equals sign follows the text of a node. -/
theorem head?_skipBlanks_attributes {tail : List Token} (h : EndsEntries tail)
    (es : List (String × String)) :
    (skipBlanks (es.flatMap attributeTokens ++ tail)).head? ≠ some .equals := by
  cases es with
  | nil => obtain ⟨rest, rfl | rfl⟩ := h <;> simp
  | cons e es => simp [attributeTokens]

theorem readEntries_entries {tail : List Token} (h : EndsEntries tail) (text : Option String)
    (attrs : Attributes) (hn : attrs.entries.length < n) :
    readEntries n 0 (textTokens text ++
        (attrs.entries.flatMap attributeTokens ++ tail)) =
      some (entriesOf text attrs, tail) := by
  cases text with
  | none => exact readEntries_attributes h attrs.entries (Nat.le_of_lt hn)
  | some s =>
    obtain ⟨m, rfl⟩ : ∃ m, n = m + 1 := ⟨n - 1, by omega⟩
    have hrest := readEntries_attributes (n := m) h attrs.entries (by omega)
    have hfirst := readEntries_text (n := m)
      (readEntry_argument s (head?_skipBlanks_attributes h attrs.entries))
    simpa [hrest, entriesOf, textTokens] using hfirst

/-- There are fewer attributes than tokens behind the name. -/
theorem entries_length_lt (text : Option String) (attrs : Attributes) {tail : List Token}
    (h : EndsEntries tail) :
    attrs.entries.length < (textTokens text ++
      (attrs.entries.flatMap attributeTokens ++ tail)).length := by
  have hattrs : (attrs.entries.flatMap attributeTokens).length = 4 * attrs.entries.length := by
    induction attrs.entries with
    | nil => rfl
    | cons e es ih =>
      simp only [List.flatMap_cons, attributeTokens, List.length_append, List.length_cons,
        List.length_nil, ih]
      omega
  have htail : 0 < tail.length := by
    obtain ⟨rest, rfl | rfl⟩ := h <;> simp
  simp only [List.length_append, hattrs]
  omega

/-! Nodes. -/

theorem endsEntries_end (isLeaf : Bool) (inner rest : List Token) :
    EndsEntries (endTokens d isLeaf inner ++ rest) := by
  cases isLeaf with
  | true => exact ⟨_, .inl rfl⟩
  | false => exact ⟨_, .inr rfl⟩

@[simp] theorem skipLineSpace_spaces (k : Nat) (ts : List Token) :
    skipLineSpace (spaceTokens k ++ ts) = skipLineSpace ts := by
  cases k <;> rfl

@[simp] theorem skipLineSpace_text (s : String) (ts : List Token) :
    skipLineSpace (.text s :: ts) = .text s :: ts := rfl

@[simp] theorem skipLineSpace_newline (ts : List Token) :
    skipLineSpace (.newline :: ts) = skipLineSpace ts := rfl

/-- Where nodes end: at the end of the document or of a block. -/
def EndsNodes (ts : List Token) : Prop := ts = [] ∨ ts.head? = some .closeBrace

/-- The tokens of a node from its name on. -/
theorem skipLineSpace_tokensOf (m : Node) (rest : List Token) :
    ∃ ts, skipLineSpace (tokensOf d m ++ rest) = .text m.name :: ts := by
  obtain ⟨name, attrs, text, children⟩ := m
  rw [tokensOf, List.append_assoc, List.append_assoc, skipLineSpace_spaces]
  exact ⟨_, rfl⟩

/-- Written nodes start with a string, and what ends them is a brace if it is a token at all. -/
theorem first_tokensOfAll {tail : List Token} (h : EndsNodes (skipLineSpace tail))
    (ns : List Node) {t : Token} {ts : List Token}
    (hfirst : skipLineSpace (tokensOfAll d ns ++ tail) = t :: ts) :
    t = .closeBrace ∨ ∃ s, t = .text s := by
  cases ns with
  | nil =>
    rw [tokensOfAll, List.nil_append] at hfirst
    rw [hfirst] at h
    cases h with
    | inl hnil => cases hnil
    | inr hbrace => exact .inl (Option.some.inj hbrace)
  | cons m ns =>
    rw [tokensOfAll, List.append_assoc] at hfirst
    obtain ⟨ts', hts⟩ := skipLineSpace_tokensOf (d := d) m (tokensOfAll d ns ++ tail)
    rw [hts] at hfirst
    cases hfirst
    exact .inr ⟨m.name, rfl⟩

/-- No node is commented out in a written document. -/
theorem skipToNode_tokens {tail : List Token} (h : EndsNodes (skipLineSpace tail))
    (ns : List Node) :
    skipToNode (n + 1) (tokensOfAll d ns ++ tail) =
      some (skipLineSpace (tokensOfAll d ns ++ tail)) := by
  rw [skipToNode]
  split
  case h_1 heq => obtain hbrace | ⟨s, hs⟩ := first_tokensOfAll h ns heq <;> contradiction
  case h_2 => rfl

/-- The nodes of a block or a document, once it is known how they are read from the first on. -/
theorem readNodes_tokens {tail : List Token} (h : EndsNodes (skipLineSpace tail))
    (ns : List Node) {es : List Element} {rest : List Token}
    (hread : readSiblings (n + 1) (skipLineSpace (tokensOfAll d ns ++ tail)) = some (es, rest)) :
    readNodes (n + 2) (tokensOfAll d ns ++ tail) = some (es, rest) := by
  rw [readNodes, skipToNode_tokens h ns, Option.bind_some]
  split
  case h_1 heq => obtain hbrace | ⟨s, hs⟩ := first_tokensOfAll h ns heq <;> contradiction
  case h_2 => exact hread

theorem endsNodes_block (d : Nat) (rest : List Token) :
    EndsNodes (skipLineSpace (spaceTokens (4 * d) ++ .closeBrace :: rest)) := by
  rw [skipLineSpace_spaces]
  exact .inr rfl

/-- The block of a node, once it is known how its children are read. -/
theorem readChildren_tokens (children : List Node) (rest : List Token)
    (hread : readSiblings (n + 1) (skipLineSpace (tokensOfAll (d + 1) children ++
        (spaceTokens (4 * d) ++ .closeBrace :: .newline :: rest))) =
      some (elementsOf children, .closeBrace :: .newline :: rest)) :
    readChildren (n + 4)
        (endTokens d children.isEmpty (tokensOfAll (d + 1) children) ++ rest) =
      some (elementsOf children, .newline :: rest) := by
  cases hleaf : children.isEmpty with
  | true =>
    obtain rfl := List.isEmpty_iff.mp hleaf
    simp [readChildren, endTokens, elementsOf]
  | false =>
    have hnodes := readNodes_tokens (endsNodes_block d (.newline :: rest)) children hread
    have hopening : readNodes (n + 2) (.newline :: (tokensOfAll (d + 1) children ++
        (spaceTokens (4 * d) ++ .closeBrace :: .newline :: rest))) =
        some (elementsOf children, .closeBrace :: .newline :: rest) := by
      simpa [readNodes, skipToNode] using hnodes
    simp [readChildren, endTokens, skipBlocks, readBlock, hopening]

mutual

/-- A written node is read up to its newline. Each node takes five steps at most. -/
theorem readNode_tokens (m : Node) (d n : Nat) (rest : List Token) (hn : 5 * m.size ≤ n) :
    readNode n (skipLineSpace (tokensOf d m ++ rest)) =
      some (elementOf m, .newline :: rest) := by
  obtain ⟨name, attrs, text, children⟩ := m
  rw [Node.size] at hn
  obtain ⟨k, rfl⟩ : ∃ k, n = k + 5 := ⟨n - 5, by omega⟩
  have hsiblings := readSiblings_tokens children (d + 1) (k + 1)
    (spaceTokens (4 * d) ++ .closeBrace :: .newline :: rest)
    (endsNodes_block d (.newline :: rest)) (by omega)
  rw [skipLineSpace_spaces] at hsiblings
  have hchildren := readChildren_tokens children rest hsiblings
  have hends := endsEntries_end (d := d) children.isEmpty (tokensOfAll (d + 1) children) rest
  have hentries := readEntries_entries hends text attrs (entries_length_lt text attrs hends)
  have hnode : skipLineSpace (tokensOf d ⟨name, attrs, text, children⟩ ++ rest) =
      .text name :: (textTokens text ++
        (attrs.entries.flatMap attributeTokens ++
          (endTokens d children.isEmpty (tokensOfAll (d + 1) children) ++ rest))) := by
    simp [tokensOf]
  rw [hnode]
  simp only [readNode, skipAnnotation, hentries, hchildren, Option.bind_some, Option.map_some,
    elementOf]

/-- Written nodes are read one after the other. -/
theorem readSiblings_tokens (ns : List Node) (d n : Nat) (tail : List Token)
    (htail : EndsNodes (skipLineSpace tail)) (hn : 5 * Node.sizeAll ns < n) :
    readSiblings n (skipLineSpace (tokensOfAll d ns ++ tail)) =
      some (elementsOf ns, skipLineSpace tail) := by
  obtain ⟨k, rfl⟩ : ∃ k, n = k + 1 := ⟨n - 1, by omega⟩
  cases ns with
  | nil =>
    have hstart : startsNode (skipLineSpace tail) = false := by
      cases hrest : skipLineSpace tail with
      | nil => rfl
      | cons t ts =>
        rw [hrest] at htail
        cases htail with
        | inl hnil => cases hnil
        | inr hbrace =>
          obtain rfl : t = .closeBrace := by simpa using hbrace
          rfl
    simp [tokensOfAll, readSiblings, hstart, elementsOf]
  | cons m ns =>
    rw [Node.sizeAll] at hn
    have hsize := m.size_eq
    obtain ⟨j, rfl⟩ : ∃ j, k = j + 1 := ⟨k - 1, by omega⟩
    have hfirst := readNode_tokens m d (j + 1) (tokensOfAll d ns ++ tail) (by omega)
    have hrest := readSiblings_tokens ns d (j + 1) tail htail (by omega)
    obtain ⟨ts, hts⟩ := skipLineSpace_tokensOf (d := d) m (tokensOfAll d ns ++ tail)
    have hstart :
        startsNode (skipLineSpace (tokensOf d m ++ (tokensOfAll d ns ++ tail))) = true := by
      rw [hts]
      rfl
    rw [tokensOfAll, List.append_assoc, readSiblings, if_pos hstart, hfirst, Option.bind_some]
    simp [dropEnd?, skipToNode_tokens htail, hrest, elementsOf]

end

/-! Documents. -/

mutual

theorem size_le_tokensOf (m : Node) (d : Nat) : 2 * m.size ≤ (tokensOf d m).length := by
  obtain ⟨name, attrs, text, children⟩ := m
  have hend : 2 * Node.sizeAll children + 1 ≤
      (endTokens d children.isEmpty (tokensOfAll (d + 1) children)).length := by
    cases hleaf : children.isEmpty with
    | true =>
      obtain rfl := List.isEmpty_iff.mp hleaf
      simp [endTokens, Node.sizeAll]
    | false =>
      have hinner := sizeAll_le_tokensOfAll children (d + 1)
      simp only [endTokens, List.length_append, List.length_cons, Bool.false_eq_true, if_false]
      omega
  simp only [Node.size, tokensOf, List.length_append, List.length_cons]
  omega

/-- A node is spelled by its name and its newline at least. -/
theorem sizeAll_le_tokensOfAll (ns : List Node) (d : Nat) :
    2 * Node.sizeAll ns ≤ (tokensOfAll d ns).length := by
  cases ns with
  | nil => exact Nat.le_refl 0
  | cons m ns =>
    have hfirst := size_le_tokensOf m d
    have hrest := sizeAll_le_tokensOfAll ns d
    simp only [Node.sizeAll, tokensOfAll, List.length_append]
    omega

end

theorem ofTokens?_tokensOfAll (ns : List Node) :
    Element.ofTokens? (tokensOfAll 0 ns) = some (elementsOf ns) := by
  have hlong := sizeAll_le_tokensOfAll ns 0
  have hsiblings := readSiblings_tokens ns 0 (4 * (tokensOfAll 0 ns).length + 3) [] (.inl rfl)
    (by omega)
  have hnodes := readNodes_tokens (.inl rfl) ns hsiblings
  rw [List.append_nil] at hnodes
  rw [Element.ofTokens?, hnodes]
  rfl

theorem count_entriesOf (text : Option String) (attrs : Attributes) :
    ((entriesOf text attrs).filter isArgument).length ≤ 1 := by
  have hproperties : (attrs.entries.map propertyOf).filter isArgument = [] := by
    rw [List.filter_eq_nil_iff]
    intro e he
    obtain ⟨p, -, rfl⟩ := List.mem_map.mp he
    exact Bool.false_ne_true
  rw [entriesOf, List.filter_append, hproperties, List.append_nil]
  refine Nat.le_trans (List.length_filter_le _ _) ?_
  cases text <;> simp

/-- Properties with new keys become attributes in their order. -/
theorem foldl_addEntry (es : List (String × String)) (m : Node) (attrs : Attributes)
    (h : attrs.entries = m.attrs.entries ++ es) :
    (es.map propertyOf).foldl addEntry m = { m with attrs := attrs } := by
  induction es generalizing m with
  | nil =>
    obtain ⟨name, ⟨before, hbefore⟩, text, children⟩ := m
    obtain ⟨entries, hentries⟩ := attrs
    obtain rfl : entries = before := by simpa using h
    rfl
  | cons e es ih =>
    obtain ⟨key, value⟩ := e
    have hfresh : Assoc.contains m.attrs.entries key = false := by
      have hdistinct := attrs.distinct
      have hnone : Assoc.get? m.attrs.entries key = none := by
        rw [Assoc.get?_eq_none_iff]
        intro hmem
        rw [h, Assoc.keys, List.map_append, List.nodup_append] at hdistinct
        exact hdistinct.2.2 key hmem key List.mem_cons_self rfl
      rw [Assoc.contains, hnone]
      rfl
    have hset : (m.setAttr key value).attrs.entries = m.attrs.entries ++ [(key, value)] :=
      Assoc.set_of_not_contains m.attrs.entries key value hfresh
    have hrest := ih (m.setAttr key value) (by rw [hset, h, List.append_assoc]; rfl)
    exact hrest

theorem foldl_entriesOf (name : String) (text : Option String) (attrs : Attributes) :
    (entriesOf text attrs).foldl addEntry (Node.named name) = ⟨name, attrs, text, []⟩ := by
  have htext : (text.toList.map fun s => Entry.argument (.text s)).foldl addEntry
      (Node.named name) = ⟨name, .empty, text, []⟩ := by
    cases text <;> rfl
  have hattrs := foldl_addEntry attrs.entries ⟨name, .empty, text, []⟩ attrs rfl
  rw [entriesOf, List.foldl_append, htext, hattrs]

mutual

theorem toNode_elementOf (m : Node) : toNode (elementOf m) = .ok m := by
  obtain ⟨name, attrs, text, children⟩ := m
  have hcount := count_entriesOf text attrs
  rw [elementOf, toNode, if_neg (by omega), nodesOf_elementsOf children, foldl_entriesOf]
  rfl

theorem nodesOf_elementsOf (ns : List Node) : nodesOf (elementsOf ns) = .ok ns := by
  cases ns with
  | nil => rfl
  | cons m ns =>
    rw [elementsOf, nodesOf, toNode_elementOf m, nodesOf_elementsOf ns]
    rfl

end

/-- No written string starts with a byte order mark. -/
theorem dropMark_writeString (s : String) (rest : List Char) :
    dropMark (writeString s ++ rest) = writeString s ++ rest := by
  have hfirst : (writeString s).head? ≠ some '\ufeff' := by
    unfold writeString
    split
    case isTrue hplain =>
      intro hhead
      obtain ⟨cs, hs⟩ := List.head?_eq_some_iff.mp hhead
      simp only [isPlain, hs, List.all_cons, Bool.and_eq_true] at hplain
      exact absurd hplain.1.1.2.1 (by decide)
    case isFalse => simp
  unfold dropMark
  split
  case h_1 cs heq =>
    cases hs : writeString s with
    | nil => exact absurd hs (writeString_ne_nil s)
    | cons c cs' =>
      rw [hs] at heq hfirst
      cases heq
      exact absurd rfl hfirst
  case h_2 => rfl

theorem dropMark_writeNodes (ns : List Node) : dropMark (writeNodes 0 ns) = writeNodes 0 ns := by
  cases ns with
  | nil => rfl
  | cons m ns =>
    obtain ⟨name, attrs, text, children⟩ := m
    rw [writeNodes, writeNode_eq, List.append_assoc, List.append_assoc]
    exact dropMark_writeString name _

end DefLoad.Kdl

namespace DefLoad.Document

/-- What was written is read as itself, or not at all if a string in it is not read back. -/
theorem parse_render_eq (d : Document) :
    Document.parse d.render =
      if (Node.stringsAll d.nodes).all Kdl.readsBack then .ok d else .error .malformed := by
  have htokens := Kdl.ofChars?_writeNodes d.nodes
  rw [parse, Kdl.read?, render, String.toList_ofList, Kdl.dropMark_writeNodes, htokens]
  cases hsound : (Node.stringsAll d.nodes).all Kdl.readsBack with
  | true => simp [Kdl.ofTokens?_tokensOfAll, Kdl.nodesOf_elementsOf, Except.map]
  | false => rfl

end DefLoad.Document
