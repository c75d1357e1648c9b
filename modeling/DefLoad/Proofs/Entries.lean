import DefLoad.Proofs.PlainValues

/-!
What a map holds under its keys. However a map orders its entries, inserting under a key changes
what is held under that key and nothing else. The keys that the built-in parsers give are such that
this makes sense: being the same key is being equal in something.
-/

namespace DefLoad.Value

/-- The value that is stored first under a key. -/
def stored (entries : List (Value × Value)) (k : Value) : Option Value :=
  (entries.find? (sameKey ·.1 k)).map Prod.snd

/-- What a map holds under a key. -/
def lookup (m k : Value) : Option Value :=
  match m with
  | map _ _ _ entries => stored entries k
  | _ => none

/-- Keys of one type: being the same key is an equivalence. -/
structure LawfulKeys (IsKey : Value → Prop) : Prop where
  symm : ∀ a b, IsKey a → IsKey b → sameKey a b = true → sameKey b a = true
  trans : ∀ a b c, IsKey a → IsKey b → IsKey c → sameKey a b = true → sameKey b c = true →
    sameKey a c = true

/-- A map of these types with keys of one type. -/
def MapOf (IsKey : Value → Prop) (kt vt : TypeKey) (m : Value) : Prop :=
  ∃ kind entries, m = .map kind kt vt entries ∧ ∀ e ∈ entries, IsKey e.1

theorem stored_cons (e : Value × Value) (entries : List (Value × Value)) (k : Value) :
    stored (e :: entries) k = if sameKey e.1 k then some e.2 else stored entries k := by
  simp only [stored, List.find?_cons]
  cases sameKey e.1 k <;> simp

theorem stored_isSome (entries : List (Value × Value)) (k : Value) :
    (stored entries k).isSome = entries.any (sameKey ·.1 k) := by
  induction entries with
  | nil => rfl
  | cons e es ih =>
    rw [stored_cons, List.any_cons, ← ih]
    cases sameKey e.1 k <;> simp

section

variable {IsKey : Value → Prop} {k j x : Value} {entries : List (Value × Value)}

namespace LawfulKeys

variable (h : LawfulKeys IsKey) (hk : IsKey k) (hj : IsKey j)

include h hk hj

theorem same_congr {a : Value} (ha : IsKey a) (hak : sameKey a k = true) :
    sameKey a j = sameKey k j := by
  apply Bool.eq_iff_iff.mpr
  constructor
  · intro haj
    have hka := h.symm a k ha hk hak
    exact h.trans k a j hk ha hj hka haj
  · intro hkj
    exact h.trans a k j ha hk hj hak hkj

theorem not_same {a : Value} (ha : IsKey a) (hak : sameKey a k = false)
    (haj : sameKey a j = true) : sameKey k j = false := by
  cases hkj : sameKey k j with
  | false => rfl
  | true =>
    have hjk := h.symm k j hk hj hkj
    have hsame := h.trans a j k ha hj hk haj hjk
    rw [hak] at hsame
    cases hsame

variable (hentries : ∀ e ∈ entries, IsKey e.1)

include hentries

theorem stored_replaceEntry (hany : entries.any (sameKey ·.1 k) = true) :
    stored (replaceEntry k x entries) j = if sameKey k j then some x else stored entries j := by
  induction entries with
  | nil => cases hany
  | cons e es ih =>
    have he : IsKey e.1 := hentries e List.mem_cons_self
    cases hek : sameKey e.1 k with
    | true =>
      simp only [replaceEntry, hek, if_true, stored_cons, h.same_congr hk hj he hek]
      cases sameKey k j <;> simp
    | false =>
      have hrest : es.any (sameKey ·.1 k) = true := by simpa [hek] using hany
      have hstored := ih (fun e' he' => hentries e' (List.mem_cons_of_mem e he')) hrest
      simp only [replaceEntry, hek, Bool.false_eq_true, if_false, stored_cons, hstored]
      cases hej : sameKey e.1 j with
      | true => simp [h.not_same hk hj he hek hej]
      | false => simp

theorem stored_insertSorted (hany : entries.any (sameKey ·.1 k) = false) :
    stored (insertSorted k x entries) j = if sameKey k j then some x else stored entries j := by
  induction entries with
  | nil => simp [insertSorted, stored_cons]
  | cons e es ih =>
    have he : IsKey e.1 := hentries e List.mem_cons_self
    obtain ⟨hek, hrest⟩ : sameKey e.1 k = false ∧ es.any (sameKey ·.1 k) = false := by
      simpa using hany
    have hstored := ih (fun e' he' => hentries e' (List.mem_cons_of_mem e he')) hrest
    by_cases hlt : orderKeys k e.1 = .lt
    · simp only [insertSorted, if_pos hlt, stored_cons]
    · simp only [insertSorted, if_neg hlt, stored_cons, hstored]
      cases hej : sameKey e.1 j with
      | true => simp [h.not_same hk hj he hek hej]
      | false => simp

theorem stored_append (hany : entries.any (sameKey ·.1 k) = false) :
    stored (entries ++ [(k, x)]) j = if sameKey k j then some x else stored entries j := by
  induction entries with
  | nil => simp [stored_cons]
  | cons e es ih =>
    have he : IsKey e.1 := hentries e List.mem_cons_self
    obtain ⟨hek, hrest⟩ : sameKey e.1 k = false ∧ es.any (sameKey ·.1 k) = false := by
      simpa using hany
    have hstored := ih (fun e' he' => hentries e' (List.mem_cons_of_mem e he')) hrest
    simp only [List.cons_append, stored_cons, hstored]
    cases hej : sameKey e.1 j with
    | true => simp [h.not_same hk hj he hek hej]
    | false => simp

end LawfulKeys

/-- A map takes a key and a value of its types. It tells whether the key was there before, and from
then on holds the value under this key and under all other keys what it held. -/
theorem insert_spec (h : LawfulKeys IsKey) (hk : IsKey k) (hentries : ∀ e ∈ entries, IsKey e.1)
    (kind : MapKind) {kt vt : TypeKey} (hkt : k.type = kt) (hvt : x.type = vt) :
    ∃ m, insert (.map kind kt vt) (map kind kt vt entries) k x =
        (if (stored entries k).isSome then .replaced m else .inserted m) ∧
      (∃ entries', m = map kind kt vt entries' ∧ ∀ e ∈ entries', IsKey e.1) ∧
      ∀ j, IsKey j → m.lookup j = if sameKey k j then some x else stored entries j := by
  simp only [insert, hkt, hvt, and_self, if_true, stored_isSome]
  have hnew {es : List (Value × Value)} (hes : ∀ e ∈ es, e = (k, x) ∨ e ∈ entries) :
      ∀ e ∈ es, IsKey e.1 := by
    intro e he
    rcases hes e he with rfl | he
    · exact hk
    · exact hentries e he
  cases hany : entries.any (sameKey ·.1 k) with
  | true =>
    refine ⟨map kind kt vt (replaceEntry k x entries), by simp, ⟨_, rfl, ?_⟩, fun j hj => ?_⟩
    · intro e he
      rcases HasType.mem_replaceEntry he with he | ⟨-, old, hold, hsame⟩
      · exact hentries e he
      · rw [← hsame]
        exact hentries old hold
    · exact h.stored_replaceEntry hk hj hentries hany
  | false =>
    by_cases hkind : kind = .sorted
    · refine ⟨map kind kt vt (insertSorted k x entries), by simp [hkind],
        ⟨_, rfl, hnew fun e he => ?_⟩, fun j hj => ?_⟩
      · exact HasType.mem_insertSorted he
      · exact h.stored_insertSorted hk hj hentries hany
    · refine ⟨map kind kt vt (entries ++ [(k, x)]), by simp [hkind],
        ⟨_, rfl, hnew fun e he => ?_⟩, fun j hj => ?_⟩
      · rcases List.mem_append.mp he with he | he
        · exact .inr he
        · exact .inl (List.mem_singleton.mp he)
      · exact h.stored_append hk hj hentries hany

end

/-! The keys that built-in parsers give. -/

/-- Keys that are the same when something about them is equal. -/
theorem LawfulKeys.of_iff {IsKey : Value → Prop} {α : Type} (mark : Value → α)
    (h : ∀ a b, IsKey a → IsKey b → (sameKey a b = true ↔ mark a = mark b)) : LawfulKeys IsKey where
  symm a b ha hb hab := (h b a hb ha).mpr ((h a b ha hb).mp hab).symm
  trans a b c ha hb hc hab hbc :=
    (h a c ha hc).mpr (((h a b ha hb).mp hab).trans ((h b c hb hc).mp hbc))

/-- What tells atoms of one kind apart as keys. Nodes have no order, so they count as one. -/
def atomMark : Atom → Atom
  | .node _ => .unit
  | a => a

theorem sameAtom_iff {a b : Atom} (h : a.ctorIdx = b.ctorIdx) :
    sameAtom a b = true ↔ atomMark a = atomMark b := by
  cases a with
  | bool x =>
    cases b with
    | bool y => cases x <;> cases y <;> simp [sameAtom, orderAtoms, atomMark]
    | _ => cases h
  | pair x y =>
    cases b with
    | pair x' y' => simp [sameAtom, orderAtoms, atomMark, Ordering.then_eq_eq]
    | _ => cases h
  | _ =>
    cases b <;> first
      | simp [sameAtom, orderAtoms, atomMark]; done
      | cases h

/-- The contents of a plain type are of one kind. -/
theorem ctorIdx_of_plain {k : TypeKey} {a b : Atom} (ha : Plain k a) (hb : Plain k b) :
    a.ctorIdx = b.ctorIdx := by
  let kinds : List (TypeKey × Nat) :=
    [(.bool, (Atom.bool true).ctorIdx), (.string, (Atom.text "").ctorIdx),
      (.node, (Atom.node default).ctorIdx), (.typeKey, (Atom.type default).ctorIdx)] ++
    Core.integers.map (fun e => (e.1, (Atom.int 0).ctorIdx)) ++
    Core.floats.map (fun e => (e.1, (Atom.bits 0).ctorIdx))
  have hkind {a : Atom} (h : Plain k a) : (k, a.ctorIdx) ∈ kinds := by
    cases h with
    | int hk => exact List.mem_append_left _ (List.mem_append_right _ (List.mem_map_of_mem hk))
    | bits hk => exact List.mem_append_right _ (List.mem_map_of_mem hk)
    | _ => simp [kinds, Atom.ctorIdx]
  have hd : (kinds.map Prod.fst).Nodup := by decide
  have hsame := List.inj_on_of_nodup_map hd (hkind ha) (hkind hb) rfl
  exact congrArg Prod.snd hsame

/-- What the built-in parsers read as a key of a type: a reference, a variant or a plain value. -/
inductive KeyOf (t : Descriptor) : Value → Prop
  | ref {target : TypeKey} (h : t.shape = .ref target) (handle : Handle) :
    KeyOf t (.ref target handle)
  | variant {names : List String} (h : t.shape = .enumeration names) (i : Nat) :
    KeyOf t (.scalar t.key (.variant i))
  | plain {a : Atom} (h : ∀ names, t.shape ≠ .enumeration names) (ha : Plain t.key a) :
    KeyOf t (.scalar t.key a)

/-- The cell of a reference, and what tells the contents of other keys apart. -/
def keyMark : Value → Option Nat × Atom
  | .ref _ handle => (some handle.cell, .unit)
  | .scalar _ a => (none, atomMark a)
  | _ => (none, .unit)

theorem keyOf_lawful (t : Descriptor) : LawfulKeys (KeyOf t) := by
  apply LawfulKeys.of_iff keyMark
  intro a b ha hb
  cases ha with
  | ref h handle =>
    cases hb with
    | ref h' handle' => simp [sameKey, keyMark]
    | variant => simp [sameKey, keyMark]
    | plain => simp [sameKey, keyMark]
  | variant h i =>
    cases hb with
    | ref => simp [sameKey, keyMark]
    | variant h' j =>
      simpa [sameKey, keyMark] using sameAtom_iff (a := .variant i) (b := .variant j) rfl
    | plain hnot => exact absurd h (hnot _)
  | plain hnot ha =>
    cases hb with
    | ref => simp [sameKey, keyMark]
    | variant h => exact absurd h (hnot _)
    | plain _ hb => simp [sameKey, keyMark, sameAtom_iff (ctorIdx_of_plain ha hb)]

/-- The parsers that come first read keys and nothing else. -/
theorem keyOf_of_parse {t : Descriptor} {p : Parser} (hp : parserFor Parsers.standard t = some p)
    {e : Env} {c : Context} (ht : e.types.get? c.target = some t) {k : Value}
    (h : p.parse e c = .ok k) : KeyOf t k := by
  cases hshape : t.shape with
  | ref target =>
    obtain rfl : Parsers.defRef = p := by
      simpa [parserFor, Parsers.standard, Parsers.defRef, hshape] using hp
    simp only [Parsers.defRef, Parsers.parseRef, ht, Option.map_some, hshape] at h
    split at h
    · cases h
    · split at h
      · cases h
        exact .ref hshape _
      · cases h
  | enumeration names =>
    obtain rfl : Parsers.enumeration = p := by
      simpa [parserFor, Parsers.standard, Parsers.defRef, Parsers.enumeration, hshape] using hp
    simp only [Parsers.enumeration, Parsers.parseVariant, ht, hshape] at h
    split at h
    · rename_i hvariant
      cases h
      simp only [Descriptor.variant?, hshape] at hvariant
      obtain ⟨i, -, rfl⟩ := Option.map_eq_some_iff.mp hvariant
      exact .variant hshape i
    · cases h
  | _ =>
    obtain ⟨hmem, hh⟩ := parserFor_spec hp
    rcases List.mem_cons.mp hmem with rfl | hmem
    · simp [Parsers.defRef, hshape] at hh
    · rcases List.mem_cons.mp hmem with rfl | hmem
      · simp [Parsers.enumeration, hshape] at hh
      · obtain ⟨a, ha, rfl⟩ := Parsers.standard_plain hmem hh h
        exact .plain (by simp [hshape]) ha

end DefLoad.Value
