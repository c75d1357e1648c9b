import DefLoad.Arsenal.Plain
import DefLoad.Proofs.Lookups
import DefLoad.Proofs.Registration
import Mathlib.Data.List.Permutation
import Mathlib.Data.List.TakeWhile

/-!
References of the form `Full.Name, schema`. A type whose full name has no comma is found by its
reference. A reference is divided at its first comma, so one to a type whose full name has a comma
is searched for as a whole.
-/

namespace DefLoad

namespace Text

theorem isBlank_comma : isBlank ',' = false := rfl

/-- Cuts off the blanks at the end. -/
def trimEnd (cs : List Char) : List Char := (skipBlanks cs.reverse).reverse

theorem trimChars_eq (cs : List Char) : trimChars cs = trimEnd (skipBlanks cs) := rfl

theorem trimEnd_append_cons {c : Char} (hc : isBlank c = false) (a b : List Char) :
    trimEnd (a ++ c :: b) = a ++ c :: trimEnd b := by
  have hstop : skipBlanks (c :: a.reverse) = c :: a.reverse := by simp [skipBlanks, hc]
  have hskip : skipBlanks (b.reverse ++ c :: a.reverse) =
      skipBlanks b.reverse ++ c :: a.reverse := by
    unfold skipBlanks at hstop ⊢
    rw [List.dropWhile_append, hstop]
    split
    case isTrue hnone => rw [List.isEmpty_iff.mp hnone, List.nil_append]
    case isFalse => rfl
  simp [trimEnd, hskip]

/-- What is left of a text that cannot be trimmed, with something behind it. -/
theorem skipBlanks_append_cons {c : Char} (hc : isBlank c = false) {a : List Char}
    (ha : skipBlanks a = a) (b : List Char) : skipBlanks (a ++ c :: b) = a ++ c :: b := by
  unfold skipBlanks at ha ⊢
  rw [List.dropWhile_append, ha]
  split
  case isTrue hnone => simp [List.isEmpty_iff.mp hnone, hc]
  case isFalse => rfl

theorem skipBlanks_of_trimmed {cs : List Char} (h : trimChars cs = cs) : skipBlanks cs = cs := by
  -- nothing can have been cut off at the front, since nothing is added at the end
  have hend := skipBlanks_length (skipBlanks cs).reverse
  have hlength := congrArg List.length h
  simp only [trimChars, List.length_reverse] at hend hlength
  have hsuffix : skipBlanks cs <:+ cs := List.dropWhile_suffix _
  exact hsuffix.eq_of_length (Nat.le_antisymm (skipBlanks_length cs) (by omega))

theorem mem_trimChars {c : Char} {cs : List Char} (hc : isBlank c = false) (h : c ∈ cs) :
    c ∈ trimChars cs := by
  have hskip (cs : List Char) (h : c ∈ cs) : c ∈ skipBlanks cs := by
    rw [← List.takeWhile_append_dropWhile (p := isBlank) (l := cs), List.mem_append] at h
    rcases h with h | h
    · exact absurd ((List.mem_takeWhile_imp h).symm.trans hc) (by decide)
    · exact h
  simp only [trimChars, List.mem_reverse]
  exact hskip _ (List.mem_reverse.mpr (hskip cs h))

/-- Two trimmed texts with a comma between them, as a whole and with the second one trimmed. -/
theorem trimChars_reference {full schema : List Char} (hf : trimChars full = full)
    (hs : trimChars schema = schema) :
    ∃ rest, trimChars (full ++ ',' :: ' ' :: schema) = full ++ ',' :: rest ∧
      trimChars rest = schema := by
  refine ⟨trimEnd (' ' :: schema), ?_, ?_⟩
  · rw [trimChars_eq, skipBlanks_append_cons isBlank_comma (skipBlanks_of_trimmed hf),
      trimEnd_append_cons isBlank_comma]
  · have hskip := skipBlanks_of_trimmed hs
    rw [trimChars_eq, hskip] at hs
    cases schema with
    | nil => rfl
    | cons c cs =>
      have hc : isBlank c = false := by
        cases hb : isBlank c with
        | false => rfl
        | true =>
          have hlength := skipBlanks_length cs
          have hshort : skipBlanks (c :: cs) = skipBlanks cs := by simp [skipBlanks, hb]
          rw [← hshort, hskip, List.length_cons] at hlength
          omega
      have hend : trimEnd (' ' :: c :: cs) = ' ' :: c :: cs := by
        have hcons := trimEnd_append_cons hc [] cs
        rw [List.nil_append, List.nil_append, hs] at hcons
        rw [← List.singleton_append, trimEnd_append_cons hc, ← hcons]
      rw [hend, trimChars_eq]
      show trimEnd (skipBlanks (c :: cs)) = c :: cs
      rw [hskip, hs]

theorem toList_trim (s : String) : (trim s).toList = trimChars s.toList := by simp [trim]

theorem trimChars_of_trim {s : String} (h : trim s = s) : trimChars s.toList = s.toList := by
  rw [← toList_trim, h]

end Text

namespace TypeTable

theorem splitAtComma_append {a : List Char} (ha : ',' ∉ a) (b : List Char) :
    splitAtComma (a ++ ',' :: b) = some (a, b) := by
  induction a with
  | nil => rfl
  | cons c a ih =>
    obtain ⟨hc, ha⟩ := not_or.mp (mt List.mem_cons.mpr ha)
    rw [List.cons_append, splitAtComma, if_neg (Ne.symm hc), ih ha]
    rfl

/-- The first type whose full name is the text, or else the first whose short name is. -/
def named? (r : TypeTable) (text : String) : Option TypeKey :=
  (r.find? r.listed (·.fullName == text)).or (r.find? r.listed (·.name == text))

/-- Among types one of which bears a full name, the search stops at the first that does. -/
theorem find?_fullName {r : TypeTable} {ks : List TypeKey} {k : TypeKey} {t : Descriptor}
    (hk : k ∈ ks) (ht : r.get? k = some t) :
    ∃ before found after, ks = before ++ found :: after ∧
      (∃ d, r.get? found = some d ∧ d.fullName = t.fullName) ∧
      (∀ j ∈ before, ∀ d, r.get? j = some d → d.fullName ≠ t.fullName) ∧
      r.find? ks (·.fullName == t.fullName) = some found := by
  cases hfind : r.find? ks (·.fullName == t.fullName) with
  | none =>
    have hnone := List.find?_eq_none.mp hfind k hk
    simp [ht] at hnone
  | some found =>
    obtain ⟨hfound, before, after, hks, hbefore⟩ := List.find?_eq_some_iff_append.mp hfind
    refine ⟨before, found, after, hks, ?_, ?_, rfl⟩
    · simpa [Option.any_eq_true] using hfound
    · intro j hj d hd
      simpa [hd] using hbefore j hj

theorem schema?_of_distinct {r : TypeTable} (hd : (r.schemas.map Schema.name).Nodup) {i : Nat}
    {s : Schema} (hs : r.schemas[i]? = some s) : r.schema? s.name = some s := by
  unfold schema?
  cases hfind : r.schemas.find? (·.name == s.name) with
  | none =>
    have hnone := List.find?_eq_none.mp hfind s (List.mem_of_getElem? hs)
    simp at hnone
  | some other =>
    have hname : other.name = s.name := by simpa using List.find?_some hfind
    have hsame := List.inj_on_of_nodup_map hd (List.mem_of_find?_eq_some hfind)
      (List.mem_of_getElem? hs) hname
    rw [hsame]

section

variable {r : TypeTable} {full : String} {s : Schema} (hf : Text.trim full = full)
  (hs : Text.trim s.name = s.name)

include hf hs

/-- What a trimmed reference consists of. -/
theorem exists_reference :
    ∃ rest, Text.trim (full ++ ", " ++ s.name) = String.ofList (full.toList ++ ',' :: rest) ∧
      Text.trimChars rest = s.name.toList := by
  obtain ⟨rest, hwhole, hrest⟩ :=
    Text.trimChars_reference (Text.trimChars_of_trim hf) (Text.trimChars_of_trim hs)
  refine ⟨rest, ?_, hrest⟩
  rw [← hwhole]
  simp [Text.trim, String.toList_append]

theorem qualified?_reference (hlookup : r.schema? s.name = some s) (hc : ',' ∉ full.toList) :
    r.qualified? (Text.trim (full ++ ", " ++ s.name)) = r.find? s.types (·.fullName == full) := by
  obtain ⟨rest, hwhole, hrest⟩ := exists_reference hf hs
  rw [hwhole, qualified?, String.toList_ofList, splitAtComma_append hc]
  simp [hrest, Text.trimChars_of_trim hf, hlookup]

/-- No schema has a comma in its name, so a name with two commas is not qualified. -/
theorem qualified?_reference_of_comma (hschemas : ∀ s ∈ r.schemas, ',' ∉ s.name.toList)
    (hc : ',' ∈ full.toList) : r.qualified? (Text.trim (full ++ ", " ++ s.name)) = none := by
  obtain ⟨rest, hwhole, -⟩ := exists_reference hf hs
  obtain ⟨a, b, hcut, ha⟩ := List.eq_append_cons_of_mem hc
  have hsplit : full.toList ++ ',' :: rest = a ++ ',' :: (b ++ ',' :: rest) := by simp [hcut]
  have hcomma : ',' ∈ Text.trimChars (b ++ ',' :: rest) :=
    Text.mem_trimChars Text.isBlank_comma (by simp)
  have hnone : r.schema? (String.ofList (Text.trimChars (b ++ ',' :: rest))) = none := by
    unfold schema?
    rw [List.find?_eq_none]
    intro s' hs' hname
    apply hschemas s' hs'
    rwa [beq_iff_eq.mp hname, String.toList_ofList]
  rw [hwhole, qualified?, String.toList_ofList, hsplit, splitAtComma_append ha]
  simp [hnone]

theorem resolve_eq_search :
    r.resolve (full ++ ", " ++ s.name) = r.search (Text.trim (full ++ ", " ++ s.name)) := by
  obtain ⟨rest, hwhole, -⟩ := exists_reference hf hs
  have hnonempty : (Text.trim (full ++ ", " ++ s.name)).isEmpty = false := by
    rw [hwhole, String.isEmpty_eq_false_iff]
    intro hempty
    have hlist := congrArg String.toList hempty
    simp at hlist
  simp [resolve, hnonempty]

end

end TypeTable

namespace Builder

/-- A reference to a type by its full name and its schema, whatever has been resolved before. When
the full name has no comma, the reference means the first type of that schema with that full name.
When it has one, the reference means the first type that is called like the whole reference, if any
type is. -/
theorem resolve_reference {catalog : Catalog} {b : Builder} (hb : Reachable catalog b)
    (hschemas : ∀ s ∈ b.schemas, ',' ∉ s.name.toList ∧ Text.trim s.name = s.name)
    (earlier : List String) {k : TypeKey} {t : Descriptor} (ht : b.table.get? k = some t)
    (hname : Text.trim t.fullName = t.fullName) :
    ∃ (s : Schema) (before : List TypeKey) (found : TypeKey) (after : List TypeKey),
      b.schemas[t.schema]? = some s ∧ k ∈ s.types ∧ s.types = before ++ found :: after ∧
      (∃ d, b.table.get? found = some d ∧ d.fullName = t.fullName) ∧
      (∀ j ∈ before, ∀ d, b.table.get? j = some d → d.fullName ≠ t.fullName) ∧
      ((NameLookup.after b.table earlier).resolve b.table (t.fullName ++ ", " ++ s.name)).1 =
        if ',' ∈ t.fullName.toList then b.table.named? (Text.trim (t.fullName ++ ", " ++ s.name))
        else some found := by
  have hfiled := hb.filed
  obtain ⟨s, hs, hk⟩ := hfiled.listed k t ht
  have hstrim := (hschemas s (List.mem_of_getElem? hs)).2
  have hlookup : b.table.schema? s.name = some s := TypeTable.schema?_of_distinct hfiled.distinct hs
  obtain ⟨before, found, after, htypes, hfound, hbefore, hfind⟩ := TypeTable.find?_fullName hk ht
  refine ⟨s, before, found, after, hs, hk, htypes, hfound, hbefore, ?_⟩
  rw [(NameLookup.after_sound b.table earlier).answer, TypeTable.resolve_eq_search hname hstrim,
    TypeTable.search, TypeTable.named?]
  split
  case isTrue hc =>
    have hnone := TypeTable.qualified?_reference_of_comma (r := b.table) hname hstrim
      (fun s hs => (hschemas s hs).1) hc
    rw [hnone, Option.none_or]
  case isFalse hc =>
    rw [TypeTable.qualified?_reference hname hstrim hlookup hc, hfind]
    rfl

section

open Arsenal (plainType)

def goodsCatalog : Catalog := [(.string, .scalar "String" none), (.u32, .scalar "u32" none)]

def priceList : TypeKey := .map .sorted .string .u32

def goods : Builder := ((Builder.empty goodsCatalog).register (.list .string)).register priceList

/-- What the table of the goods comes to. -/
def goodsTable : TypeTable :=
  ⟨[(.string, plainType .string .scalar),
      (.list .string, container (.list .string) "Vec<String>" (.list .string)
        (some (.list .string []))),
      (.u32, plainType .u32 .scalar),
      (priceList, container priceList "BTreeMap<String, u32>" (.map .string .u32)
        (some (.map .sorted .string .u32 [])))],
    [⟨"core", [.string, .list .string, .u32, priceList]⟩]⟩

theorem goods_table : goods.table = goodsTable := by cbv

theorem goods_reachable : Reachable goodsCatalog goods := .register _ (.register _ .empty)

theorem goods_schemas : ∀ s ∈ goods.schemas, ',' ∉ s.name.toList ∧ Text.trim s.name = s.name := by
  have hschemas : goods.schemas = goodsTable.schemas := congrArg TypeTable.schemas goods_table
  rw [hschemas]
  decide

theorem list_resolved :
    (∀ s ∈ goods.schemas, ',' ∉ s.name.toList ∧ Text.trim s.name = s.name) ∧
      ((NameLookup.after goods.table ["Vec<String>", "core"]).resolve goods.table
        "Vec<String>, core").1 = some (.list .string) := by
  have hschemas : goods.schemas = goodsTable.schemas := congrArg TypeTable.schemas goods_table
  have ht : goods.table.get? (.list .string) =
      some (container (.list .string) "Vec<String>" (.list .string) (some (.list .string []))) := by
    rw [goods_table]
    rfl
  obtain ⟨s, before, found, after, hs, -, htypes, ⟨d, hd, hname⟩, -, hanswer⟩ :=
    resolve_reference goods_reachable goods_schemas ["Vec<String>", "core"] ht rfl
  rw [hschemas] at hs
  cases hs
  refine ⟨goods_schemas, hanswer.trans (congrArg some ?_)⟩
  -- of the four types of the schema one has the name
  have hmem : found ∈ before ++ found :: after := List.mem_append_right _ List.mem_cons_self
  rw [← htypes] at hmem
  rw [goods_table] at hd
  simp only [List.mem_cons, List.not_mem_nil, or_false] at hmem
  rcases hmem with rfl | rfl | rfl | rfl
  · cases hd; exact absurd hname (by decide)
  · rfl
  · cases hd; exact absurd hname (by decide)
  · cases hd; exact absurd hname (by decide)

/-- The name of a map has a comma, so a reference to it means nothing. -/
theorem priceList_unresolved :
    Reachable goodsCatalog goods ∧
      (∀ s ∈ goods.schemas, ',' ∉ s.name.toList ∧ Text.trim s.name = s.name) ∧
      (∀ k t, goods.table.get? k = some t → Text.trim t.fullName = t.fullName) ∧
      (∃ t s, goods.table.get? priceList = some t ∧ t.fullName = "BTreeMap<String, u32>" ∧
        goods.schemas[t.schema]? = some s ∧ s.name = "core" ∧ priceList ∈ s.types) ∧
      (NameLookup.empty.resolve goods.table "BTreeMap<String, u32>, core").1 = none := by
  have hschemas : goods.schemas = goodsTable.schemas := congrArg TypeTable.schemas goods_table
  refine ⟨goods_reachable, goods_schemas, ?_, ?_, ?_⟩
  · rw [goods_table]
    intro k t ht
    have hall : ∀ e ∈ goodsTable.types, Text.trim e.2.fullName = e.2.fullName := by decide
    exact hall (k, t) (Assoc.mem_of_get? ht)
  · rw [goods_table, hschemas]
    exact ⟨_, _, rfl, rfl, rfl, rfl, by decide⟩
  · rw [goods_table]
    rfl

end

end Builder

end DefLoad
