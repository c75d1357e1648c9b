import DefLoad.Selector.Reader
import Mathlib.Data.List.TakeWhile

/-!
The grammar of selectors, and the reader against it from names up to predicates: what is read is
what the text spells, and what follows is where the reader stops.
-/

namespace DefLoad.Selector

open Text (isBlank skipBlanks isDecimalDigit)

def Blanks (cs : List Char) : Prop := ∀ c ∈ cs, isBlank c = true

structure IsName (cs : List Char) : Prop where
  ne_nil : cs ≠ []
  chars : ∀ c ∈ cs, isNameChar c = true

/-- The text is empty, or its first character is not of the kind. -/
def Stops (kind : Char → Bool) (cs : List Char) : Prop := ∀ c ∈ cs.head?, kind c = false

/-- A literal does not hold its own quote. -/
inductive LiteralText : List Char → String → Prop
  | quoted {q : Char} {w : List Char} : q = '\x27' ∨ q = '"' → q ∉ w →
      LiteralText (q :: (w ++ [q])) (String.ofList w)

inductive EqualsText : List Char → String → Prop
  | equals {a b l : List Char} {v : String} : Blanks a → Blanks b → LiteralText l v →
      EqualsText (a ++ '=' :: (b ++ l)) v

/-- What stands in the brackets of a predicate, without the blanks at both ends. -/
inductive PredicateText : List Char → Predicate → Prop
  | position {w : List Char} : w ≠ [] → (∀ c ∈ w, isDecimalDigit c = true) →
      1 ≤ Decimal.ofDigits w → Decimal.ofDigits w ≤ greatestPosition →
      PredicateText w (.position (Decimal.ofDigits w))
  | hasAttr {n : List Char} : IsName n → PredicateText ('@' :: n) (.hasAttr (String.ofList n))
  | attrEquals {n e : List Char} {v : String} : IsName n → EqualsText e v →
      PredicateText ('@' :: (n ++ e)) (.attrEquals (String.ofList n) v)
  | hasChild {n : List Char} : IsName n → Stops isDecimalDigit n →
      PredicateText n (.hasChild (String.ofList n))
  | childEquals {n e : List Char} {v : String} : IsName n → Stops isDecimalDigit n →
      EqualsText e v → PredicateText (n ++ e) (.childEquals (String.ofList n) v)
  | textEquals {e : List Char} {v : String} : EqualsText e v →
      PredicateText ("text()".toList ++ e) (.textEquals v)

/-- Predicates in brackets with blanks inside and around. -/
inductive PredicatesText : List Char → List Predicate → Prop
  | nil : PredicatesText [] []
  | cons {a b w c d more : List Char} {p : Predicate} {ps : List Predicate} : Blanks a →
      Blanks b → PredicateText w p → Blanks c → Blanks d → PredicatesText more ps →
      PredicatesText (a ++ '[' :: (b ++ (w ++ (c ++ ']' :: (d ++ more))))) (p :: ps)

inductive StepText (descend : Bool) : List Char → Step → Prop
  | step {n w : List Char} {ps : List Predicate} : IsName n → PredicatesText w ps →
      StepText descend (n ++ w) ⟨descend, nameTest (String.ofList n), ps⟩

def slashes (descend : Bool) : List Char := if descend then ['/', '/'] else ['/']

/-- Steps without the slashes of the first one. What may stand between a step and the slashes of
the next one is given. -/
inductive StepsText (gap : List Char → Prop) : Bool → List Char → List Step → Prop
  | last {d : Bool} {w z : List Char} {s : Step} : StepText d w s → Blanks z →
      StepsText gap d (w ++ z) [s]
  | more {d d' : Bool} {w g b more : List Char} {s : Step} {ss : List Step} : StepText d w s →
      gap g → Blanks b → StepsText gap d' more ss →
      StepsText gap d (w ++ (g ++ (slashes d' ++ (b ++ more)))) (s :: ss)

inductive SelectorText (gap : List Char → Prop) : List Char → Selector → Prop
  | relative {a w : List Char} {ss : List Step} : Blanks a → StepsText gap false w ss →
      SelectorText gap (a ++ w) ⟨false, ss⟩
  | absolute {a b w : List Char} {d : Bool} {ss : List Step} : Blanks a → Blanks b →
      StepsText gap d w ss → SelectorText gap (a ++ (slashes d ++ (b ++ w))) ⟨true, ss⟩

section Characters

theorem Blanks.nil : Blanks [] := by simp [Blanks]

theorem isNameChar_of_isBlank {c : Char} (h : isBlank c = true) : isNameChar c = false := by
  simp [isNameChar, h]

theorem isBlank_of_isNameChar {c : Char} (h : isNameChar c = true) : isBlank c = false := by
  cases hb : isBlank c with
  | false => rfl
  | true => exact absurd (h.symm.trans (isNameChar_of_isBlank hb)) (by decide)

theorem isDecimalDigit_of_isBlank {c : Char} (h : isBlank c = true) : isDecimalDigit c = false := by
  cases hdigit : isDecimalDigit c with
  | false => rfl
  | true => exact absurd (h.symm.trans (Text.isBlank_of_isDecimalDigit hdigit)) (by decide)

theorem beq_eq_false_of_kind {kind : Char → Bool} {c d : Char} (hc : kind c = true)
    (hd : kind d = false) : (c == d) = false := by
  rw [beq_eq_false_iff_ne]
  rintro rfl
  exact Bool.false_ne_true (hd.symm.trans hc)

theorem IsName.head {n : List Char} (hn : IsName n) :
    ∃ c n', n = c :: n' ∧ isNameChar c = true := by
  cases n with
  | nil => exact absurd rfl hn.ne_nil
  | cons c n => exact ⟨c, n, rfl, hn.chars c (by simp)⟩

theorem Stops.cons {kind : Char → Bool} {c : Char} {cs : List Char} (h : kind c = false) :
    Stops kind (c :: cs) := by simpa [Stops] using h

theorem Stops.nil (kind : Char → Bool) : Stops kind [] := by simp [Stops]

theorem Stops.after_blanks {kind : Char → Bool} (hkind : ∀ c, isBlank c = true → kind c = false)
    {a rest : List Char} (ha : Blanks a) (h : Stops kind rest) : Stops kind (a ++ rest) := by
  cases a with
  | nil => exact h
  | cons c a => exact .cons (hkind c (ha c (by simp)))

theorem IsName.stops {kind : Char → Bool} {n : List Char} (hn : IsName n)
    (hkind : ∀ c, isNameChar c = true → kind c = false) (cs : List Char) :
    Stops kind (n ++ cs) := by
  obtain ⟨c, n', rfl, hc⟩ := hn.head
  exact .cons (hkind c hc)

theorem takeWhile_append_of_stops {kind : Char → Bool} {w rest : List Char}
    (hw : ∀ c ∈ w, kind c = true) (hrest : Stops kind rest) :
    (w ++ rest).takeWhile kind = w ∧ (w ++ rest).dropWhile kind = rest := by
  rw [List.takeWhile_append_of_pos hw, List.dropWhile_append_of_pos hw]
  cases rest with
  | nil => simp
  | cons c rest =>
    have hc : kind c = false := hrest c rfl
    simp [hc]

theorem stops_dropWhile (kind : Char → Bool) (cs : List Char) : Stops kind (cs.dropWhile kind) := by
  intro c hc
  have hnot := List.head?_dropWhile_not kind cs
  rw [Option.mem_def.mp hc] at hnot
  exact hnot

theorem skipBlanks_append {a : List Char} (ha : Blanks a) (cs : List Char) :
    skipBlanks (a ++ cs) = skipBlanks cs := List.dropWhile_append_of_pos ha

theorem skipBlanks_of_stops {cs : List Char} (h : Stops isBlank cs) : skipBlanks cs = cs := by
  simpa [skipBlanks] using (takeWhile_append_of_stops (w := []) (by simp) h).2

theorem stops_skipBlanks (cs : List Char) : Stops isBlank (skipBlanks cs) := stops_dropWhile _ cs

/-- A text is blanks and what is left of it without them. -/
theorem exists_blanks (cs : List Char) : ∃ a, Blanks a ∧ cs = a ++ skipBlanks cs :=
  ⟨cs.takeWhile isBlank, fun _ hc => List.mem_takeWhile_imp hc,
    List.takeWhile_append_dropWhile.symm⟩

end Characters

section Parts

theorem bind_eq_ok_iff {α β : Type} {x : Except Fault α} {f : α → Except Fault β} {b : β} :
    (x >>= f) = .ok b ↔ ∃ a, x = .ok a ∧ f a = .ok b := by
  cases x <;> simp [bind, Except.bind]

/-- The value is read, and blanks and the rest are left. -/
def ReadsTo {α : Type} (x : Except Fault (α × List Char)) (a : α) (rest : List Char) : Prop :=
  ∃ left, x = .ok (a, left) ∧ skipBlanks left = rest

theorem readName_iff {cs n rest : List Char} :
    readName cs = .ok (n, rest) ↔ IsName n ∧ Stops isNameChar rest ∧ cs = n ++ rest := by
  constructor
  · intro h
    unfold readName at h
    split at h
    case h_1 => cases h
    case h_2 name hne =>
      cases h
      exact ⟨⟨hne, fun c hc => List.mem_takeWhile_imp hc⟩, stops_dropWhile _ _,
        List.takeWhile_append_dropWhile.symm⟩
  · rintro ⟨hn, hrest, rfl⟩
    obtain ⟨htake, hdrop⟩ := takeWhile_append_of_stops hn.chars hrest
    obtain ⟨c, n', rfl, -⟩ := hn.head
    unfold readName
    rw [htake, hdrop]

theorem readLiteral_iff {q : Char} {cs w rest : List Char} :
    readLiteral q cs = .ok (w, rest) ↔ q ∉ w ∧ cs = w ++ q :: rest := by
  induction cs generalizing w with
  | nil => simp [readLiteral]
  | cons c cs ih =>
    by_cases hc : c = q
    · cases w with
      | nil => simp [readLiteral, hc, eq_comm]
      | cons d w => simp +contextual [readLiteral, hc]
    · have hmap : readLiteral q (c :: cs) = .ok (w, rest) ↔
          ∃ w', readLiteral q cs = .ok (w', rest) ∧ c :: w' = w := by
        rw [readLiteral, if_neg hc]
        cases readLiteral q cs <;> simp [Except.map]
        grind
      rw [hmap]
      cases w with
      | nil => simp [hc]
      | cons d w => simp [ih, eq_comm]; grind

/-- An equals sign with its literal. -/
theorem readEquals_some_iff {cs rest : List Char} {v : String} :
    readEquals cs = .ok (some v, rest) ↔ ∃ e, EqualsText e v ∧ cs = e ++ rest := by
  constructor
  · intro h
    unfold readEquals at h
    split at h
    case h_2 => cases h
    case h_1 cs' hcs =>
      split at h
      case h_2 => cases h
      case h_1 q cs'' hcs' =>
        split at h
        case isFalse => cases h
        case isTrue hq =>
          obtain ⟨a, ha, hcut⟩ := exists_blanks cs
          obtain ⟨b, hb, hcut'⟩ := exists_blanks cs'
          cases hw : readLiteral q cs'' with
          | error f => rw [hw] at h; cases h
          | ok found =>
            obtain ⟨w, left⟩ := found
            rw [hw] at h
            cases h
            obtain ⟨hnot, rfl⟩ := readLiteral_iff.mp hw
            refine ⟨_, .equals ha hb (.quoted (by simpa using hq) hnot), ?_⟩
            rw [hcut, hcs, hcut', hcs']
            simp
  · rintro ⟨e, he, rfl⟩
    cases he with
    | @equals a b l v ha hb hl =>
      cases hl with
      | @quoted q w hq hnot =>
        have hblank : isBlank q = false := by rcases hq with rfl | rfl <;> decide
        have hrest : skipBlanks (b ++ q :: (w ++ q :: rest)) = q :: (w ++ q :: rest) := by
          rw [skipBlanks_append hb, skipBlanks_of_stops (.cons hblank)]
        have hwhole : skipBlanks ((a ++ '=' :: (b ++ q :: (w ++ [q]))) ++ rest) =
            '=' :: (b ++ q :: (w ++ q :: rest)) := by
          rw [List.append_assoc, skipBlanks_append ha, List.cons_append,
            skipBlanks_of_stops (.cons (by decide))]
          simp
        unfold readEquals
        rw [hwhole]
        simp only [hrest]
        rw [if_pos (by simpa using hq), readLiteral_iff.mpr ⟨hnot, rfl⟩]
        rfl

/-- No equals sign comes after the blanks. -/
theorem readEquals_none_iff {cs rest : List Char} :
    readEquals cs = .ok (none, rest) ↔ skipBlanks cs = rest ∧ ∀ cs', rest ≠ '=' :: cs' := by
  unfold readEquals
  split
  case h_1 cs' hcs =>
    have hleft {x : Except Fault (List Char × List Char)}
        {f : List Char × List Char → Option String × List Char} (hf : ∀ found, (f found).1 ≠ none) :
        x.map f ≠ .ok (none, rest) := by
      cases x with
      | error fault => simp [Except.map]
      | ok found =>
        intro h
        exact hf found (congrArg Prod.fst (Except.ok.inj h))
    have hright : ¬(skipBlanks cs = rest ∧ ∀ cs', rest ≠ '=' :: cs') := by
      rintro ⟨rfl, hne⟩
      exact hne cs' hcs
    simp only [hright, iff_false]
    split
    · split
      · exact hleft fun found => Option.some_ne_none _
      · simp
    · simp
  case h_2 left hne =>
    simp only [Except.ok.injEq, Prod.mk.injEq, true_and]
    refine ⟨?_, fun h => h.1⟩
    rintro rfl
    exact ⟨rfl, hne⟩

theorem expect_iff {c : Char} {cs rest : List Char} {u : Unit} :
    expect c cs = .ok (u, rest) ↔ cs = c :: rest := by
  cases cs with
  | nil => simp [expect]
  | cons d cs =>
    by_cases hd : d = c
    · simp [expect, hd]
    · simp [expect, hd]

theorem readPosition_iff {cs rest : List Char} {p : Predicate} :
    readPosition cs = .ok (p, rest) ↔
      ∃ w, (∀ c ∈ w, isDecimalDigit c = true) ∧ Stops isDecimalDigit rest ∧ cs = w ++ rest ∧
        1 ≤ Decimal.ofDigits w ∧ Decimal.ofDigits w ≤ greatestPosition ∧
        p = .position (Decimal.ofDigits w) := by
  have hread : readPosition cs = .ok (p, rest) ↔
      1 ≤ Decimal.ofDigits (cs.takeWhile isDecimalDigit) ∧
        Decimal.ofDigits (cs.takeWhile isDecimalDigit) ≤ greatestPosition ∧
        .position (Decimal.ofDigits (cs.takeWhile isDecimalDigit)) = p ∧
        cs.dropWhile isDecimalDigit = rest := by
    simp only [readPosition]
    split
    case isTrue h =>
      simp only [Bool.or_eq_true, decide_eq_true_eq, reduceCtorEq, false_iff] at h ⊢
      omega
    case isFalse h =>
      simp only [Bool.or_eq_true, decide_eq_true_eq, not_or, Except.ok.injEq, Prod.mk.injEq] at h ⊢
      exact ⟨fun h' => ⟨by omega, by omega, h'⟩, fun h' => h'.2.2⟩
  rw [hread]
  constructor
  · rintro ⟨hleast, hgreatest, rfl, rfl⟩
    exact ⟨_, fun c hc => List.mem_takeWhile_imp hc, stops_dropWhile _ _,
      List.takeWhile_append_dropWhile.symm, hleast, hgreatest, rfl⟩
  · rintro ⟨w, hw, hstop, rfl, hleast, hgreatest, rfl⟩
    obtain ⟨htake, hdrop⟩ := takeWhile_append_of_stops hw hstop
    rw [htake, hdrop]
    exact ⟨hleast, hgreatest, rfl, rfl⟩

end Parts

section Predicates

/-- An equals sign with its literal, or nothing. -/
def MaybeEqualsText (e : List Char) : Option String → Prop
  | some v => EqualsText e v
  | none => e = []

variable {cs rest n e b : List Char} {p : Predicate} {v : Option String}

theorem skipBlanks_eq_bracket_iff :
    skipBlanks cs = ']' :: rest ↔ ∃ b, Blanks b ∧ cs = b ++ ']' :: rest := by
  constructor
  · intro h
    obtain ⟨b, hb, hcut⟩ := exists_blanks cs
    exact ⟨b, hb, h ▸ hcut⟩
  · rintro ⟨b, hb, rfl⟩
    rw [skipBlanks_append hb, skipBlanks_of_stops (.cons (by decide))]

theorem readEquals_readsTo_iff :
    ReadsTo (readEquals cs) v (']' :: rest) ↔
      ∃ e b, MaybeEqualsText e v ∧ Blanks b ∧ cs = e ++ (b ++ ']' :: rest) := by
  cases v with
  | some v =>
    simp only [ReadsTo, readEquals_some_iff, skipBlanks_eq_bracket_iff, MaybeEqualsText]
    constructor
    · rintro ⟨_, ⟨e, he, rfl⟩, b, hb, rfl⟩
      exact ⟨e, b, he, hb, rfl⟩
    · rintro ⟨e, b, he, hb, rfl⟩
      exact ⟨_, ⟨e, he, rfl⟩, b, hb, rfl⟩
  | none =>
    simp only [ReadsTo, readEquals_none_iff, MaybeEqualsText]
    constructor
    · rintro ⟨_, ⟨rfl, -⟩, h⟩
      rw [skipBlanks_of_stops (stops_skipBlanks cs)] at h
      obtain ⟨b, hb, rfl⟩ := skipBlanks_eq_bracket_iff.mp h
      exact ⟨[], b, rfl, hb, rfl⟩
    · rintro ⟨e, b, rfl, hb, rfl⟩
      refine ⟨']' :: rest, ⟨skipBlanks_eq_bracket_iff.mpr ⟨b, hb, rfl⟩, by simp⟩, ?_⟩
      exact skipBlanks_of_stops (.cons (by decide))

theorem MaybeEqualsText.stops {kind : Char → Bool} (hblank : ∀ c, isBlank c = true → kind c = false)
    (hequals : kind '=' = false) (hclose : kind ']' = false) (he : MaybeEqualsText e v)
    (hb : Blanks b) : Stops kind (e ++ (b ++ ']' :: rest)) := by
  have hend : Stops kind (b ++ ']' :: rest) := .after_blanks hblank hb (.cons hclose)
  cases v with
  | none => rwa [show e = [] from he]
  | some v =>
    cases (show EqualsText e v from he) with
    | equals ha _ _ =>
      rw [List.append_assoc]
      exact .after_blanks hblank ha (.cons hequals)

/-- What may follow a name in a predicate ends the name. -/
theorem MaybeEqualsText.ends_name (he : MaybeEqualsText e v) (hb : Blanks b) :
    Stops isNameChar (e ++ (b ++ ']' :: rest)) :=
  he.stops (fun _ => isNameChar_of_isBlank) (by decide) (by decide) hb

/-- What is asked of an attribute. -/
def attrTest (key : String) : Option String → Predicate
  | some v => .attrEquals key v
  | none => .hasAttr key

/-- What is asked of a child. -/
def childTest (name : String) : Option String → Predicate
  | some v => .childEquals name v
  | none => .hasChild name

theorem attrTest_text (hn : IsName n) (he : MaybeEqualsText e v) :
    PredicateText ('@' :: (n ++ e)) (attrTest (String.ofList n) v) := by
  cases v with
  | none =>
    rw [show e = [] from he, List.append_nil]
    exact .hasAttr hn
  | some v => exact .attrEquals hn he

theorem childTest_text (hn : IsName n) (hdigit : Stops isDecimalDigit n)
    (he : MaybeEqualsText e v) : PredicateText (n ++ e) (childTest (String.ofList n) v) := by
  cases v with
  | none =>
    rw [show e = [] from he, List.append_nil]
    exact .hasChild hn hdigit
  | some v => exact .childEquals hn hdigit he

theorem readAttr_sound (h : ReadsTo (readAttrPredicate cs) p (']' :: rest)) :
    ∃ w b, PredicateText ('@' :: w) p ∧ Blanks b ∧ cs = w ++ (b ++ ']' :: rest) := by
  obtain ⟨left, h, hleft⟩ := h
  obtain ⟨⟨n, cs'⟩, hname, h⟩ := bind_eq_ok_iff.mp h
  obtain ⟨⟨v, left'⟩, hv, h⟩ := bind_eq_ok_iff.mp h
  obtain ⟨hn, -, rfl⟩ := readName_iff.mp hname
  have hp : p = attrTest (String.ofList n) v ∧ left = left' := by
    cases v <;> cases h <;> simp [attrTest]
  obtain ⟨rfl, rfl⟩ := hp
  obtain ⟨e, b, he, hb, rfl⟩ := readEquals_readsTo_iff.mp ⟨left, hv, hleft⟩
  exact ⟨n ++ e, b, attrTest_text hn he, hb, (List.append_assoc ..).symm⟩

theorem readAttr_complete (hn : IsName n) (he : MaybeEqualsText e v) (hb : Blanks b) :
    ReadsTo (readAttrPredicate (n ++ (e ++ (b ++ ']' :: rest)))) (attrTest (String.ofList n) v)
      (']' :: rest) := by
  obtain ⟨left, hv, hleft⟩ := readEquals_readsTo_iff.mpr ⟨e, b, he, hb, rfl⟩
  refine ⟨left, ?_, hleft⟩
  unfold readAttrPredicate
  rw [readName_iff.mpr ⟨hn, he.ends_name hb, rfl⟩]
  simp only [bind, Except.bind, hv]
  cases v <;> rfl

theorem readText_sound (h : ReadsTo (readTextPredicate cs) p (']' :: rest)) :
    ∃ w b, PredicateText ("text(".toList ++ w) p ∧ Blanks b ∧ cs = w ++ (b ++ ']' :: rest) := by
  obtain ⟨left, h, hleft⟩ := h
  obtain ⟨⟨⟨⟩, cs'⟩, hclose, h⟩ := bind_eq_ok_iff.mp h
  obtain ⟨⟨v, left'⟩, hv, h⟩ := bind_eq_ok_iff.mp h
  cases v with
  | none => cases h
  | some v =>
    cases h
    obtain ⟨e, b, he, hb, rfl⟩ := readEquals_readsTo_iff.mp ⟨left, hv, hleft⟩
    exact ⟨')' :: e, b, .textEquals he, hb, expect_iff.mp hclose⟩

theorem readText_complete {v : String} (he : EqualsText e v) (hb : Blanks b) :
    ReadsTo (readTextPredicate (')' :: (e ++ (b ++ ']' :: rest)))) (.textEquals v)
      (']' :: rest) := by
  obtain ⟨left, hv, hleft⟩ :=
    readEquals_readsTo_iff.mpr ⟨e, b, (show MaybeEqualsText e (some v) from he), hb, rfl⟩
  refine ⟨left, ?_, hleft⟩
  simp only [readTextPredicate, expect, if_true, bind, Except.bind, hv]
  rfl

theorem readChild_sound (hdigit : Stops isDecimalDigit cs)
    (h : ReadsTo (readChildPredicate cs) p (']' :: rest)) :
    ∃ w b, PredicateText w p ∧ Blanks b ∧ cs = w ++ (b ++ ']' :: rest) := by
  obtain ⟨left, h, hleft⟩ := h
  obtain ⟨⟨n, cs'⟩, hname, hafter⟩ := bind_eq_ok_iff.mp h
  obtain ⟨hn, -, rfl⟩ := readName_iff.mp hname
  have hn_digit : Stops isDecimalDigit n := by
    cases n with
    | nil => exact .nil _
    | cons c n => exact .cons (hdigit c rfl)
  dsimp only at hafter
  split at hafter
  case h_1 cs' htext =>
    obtain ⟨w, b, hw, hb, rfl⟩ := readText_sound ⟨left, hafter, hleft⟩
    have hn' : n = "text".toList := by rw [← htext, String.toList_ofList]
    refine ⟨_, b, hw, hb, ?_⟩
    rw [hn']
    rfl
  case h_2 name cs' hother =>
    obtain ⟨⟨v, left'⟩, hv, hlast⟩ := bind_eq_ok_iff.mp hafter
    have hp : p = childTest (String.ofList n) v ∧ left = left' := by
      cases v <;> cases hlast <;> simp [childTest]
    obtain ⟨rfl, rfl⟩ := hp
    obtain ⟨e, b, he, hb, rfl⟩ := readEquals_readsTo_iff.mp ⟨left, hv, hleft⟩
    exact ⟨n ++ e, b, childTest_text hn hn_digit he, hb, (List.append_assoc ..).symm⟩

theorem readChild_complete (hn : IsName n) (he : MaybeEqualsText e v) (hb : Blanks b) :
    ReadsTo (readChildPredicate (n ++ (e ++ (b ++ ']' :: rest)))) (childTest (String.ofList n) v)
      (']' :: rest) := by
  obtain ⟨left, hv, hleft⟩ := readEquals_readsTo_iff.mpr ⟨e, b, he, hb, rfl⟩
  refine ⟨left, ?_, hleft⟩
  unfold readChildPredicate
  rw [readName_iff.mpr ⟨hn, he.ends_name hb, rfl⟩]
  simp only [bind, Except.bind]
  split
  case h_1 cs' _ hcs =>
    have hstop : Stops (· == '(') (e ++ (b ++ ']' :: rest)) :=
      he.stops (fun c hc => beq_eq_false_of_kind hc (by decide)) (by decide) (by decide) hb
    rw [hcs] at hstop
    exact absurd (hstop '(' rfl) (by decide)
  case h_2 =>
    rw [hv]
    cases v <;> rfl

theorem readChild_text (cs : List Char) :
    readChildPredicate ("text(".toList ++ cs) = readTextPredicate cs := by
  have hname : readName ("text".toList ++ '(' :: cs) = .ok ("text".toList, '(' :: cs) :=
    readName_iff.mpr ⟨⟨by decide, List.all_eq_true.mp rfl⟩, .cons (by decide), rfl⟩
  have hcut : "text(".toList ++ cs = "text".toList ++ '(' :: cs := rfl
  unfold readChildPredicate
  rw [hcut, hname]
  rfl

/-- The inside of a predicate, from its first character that is not blank. -/
def readInside : Reader Predicate
  | [] => .error (.at [])
  | '@' :: cs => readAttrPredicate cs
  | c :: cs => if isDecimalDigit c then readPosition (c :: cs) else readChildPredicate (c :: cs)

theorem readInside_child {c : Char} (hat : c ≠ '@') (hdigit : isDecimalDigit c = false)
    (cs : List Char) : readInside (c :: cs) = readChildPredicate (c :: cs) := by
  unfold readInside
  split
  case h_1 heq => cases heq
  case h_2 heq => exact absurd (List.cons.inj heq).1 hat
  case h_3 heq =>
    cases heq
    rw [hdigit]
    rfl

theorem readInside_position {c : Char} (hdigit : isDecimalDigit c = true) (cs : List Char) :
    readInside (c :: cs) = readPosition (c :: cs) := by
  unfold readInside
  split
  case h_1 heq => cases heq
  case h_2 heq =>
    cases heq
    exact absurd hdigit (by decide)
  case h_3 heq =>
    cases heq
    rw [hdigit]
    rfl

theorem readPredicate_eq (cs : List Char) :
    readPredicate cs = (do
      let (p, cs) ← readInside (skipBlanks cs)
      let ((), cs) ← expect ']' (skipBlanks cs)
      return (p, cs)) := by
  unfold readPredicate
  split
  case h_1 heq => rw [heq]; rfl
  case h_2 heq => rw [heq]; rfl
  case h_3 c cs' hat heq =>
    rw [heq]
    split
    case isTrue hc => rw [readInside_position hc]
    case isFalse hc => rw [readInside_child hat (by simpa using hc)]

theorem readInside_sound (h : ReadsTo (readInside cs) p (']' :: rest)) :
    ∃ w b, PredicateText w p ∧ Blanks b ∧ cs = w ++ (b ++ ']' :: rest) := by
  unfold readInside at h
  split at h
  case h_1 => exact absurd h (by simp [ReadsTo])
  case h_2 cs' =>
    obtain ⟨w, b, hw, hb, rfl⟩ := readAttr_sound h
    exact ⟨_, b, hw, hb, rfl⟩
  case h_3 c cs' hat =>
    split at h
    case isTrue hc =>
      obtain ⟨left, h, hleft⟩ := h
      obtain ⟨w, hw, hstop, hcut, hleast, hgreatest, rfl⟩ := readPosition_iff.mp h
      obtain ⟨b, hb, rfl⟩ := skipBlanks_eq_bracket_iff.mp hleft
      have hne : w ≠ [] := by
        rintro rfl
        exact absurd hleast (by decide)
      exact ⟨w, b, .position hne hw hleast hgreatest, hb, hcut⟩
    case isFalse hc => exact readChild_sound (.cons (by simpa using hc)) h

theorem readInside_childTest (hn : IsName n) (hdigit : Stops isDecimalDigit n)
    (he : MaybeEqualsText e v) (hb : Blanks b) :
    ReadsTo (readInside (n ++ (e ++ (b ++ ']' :: rest)))) (childTest (String.ofList n) v)
      (']' :: rest) := by
  have hread : ReadsTo (readChildPredicate (n ++ (e ++ (b ++ ']' :: rest))))
    (childTest (String.ofList n) v) (']' :: rest) := readChild_complete hn he hb
  obtain ⟨c, n', rfl, hc⟩ := hn.head
  have hat : c ≠ '@' := by
    rintro rfl
    exact absurd hc (by decide)
  rw [List.cons_append] at hread ⊢
  rwa [readInside_child hat (hdigit c rfl)]

theorem readInside_complete {w : List Char} (hw : PredicateText w p) (hb : Blanks b) :
    ReadsTo (readInside (w ++ (b ++ ']' :: rest))) p (']' :: rest) := by
  cases hw with
  | position hne hw hleast hgreatest =>
    have hstop : Stops isDecimalDigit (b ++ ']' :: rest) :=
      .after_blanks (fun _ => isDecimalDigit_of_isBlank) hb (.cons (by decide))
    have hread := readPosition_iff.mpr ⟨w, hw, hstop, rfl, hleast, hgreatest, rfl⟩
    refine ⟨_, ?_, skipBlanks_eq_bracket_iff.mpr ⟨b, hb, rfl⟩⟩
    cases w with
    | nil => exact absurd rfl hne
    | cons c w =>
      rw [List.cons_append] at hread ⊢
      rwa [readInside_position (hw c (by simp))]
  | hasAttr hn =>
    exact readAttr_complete hn (v := none) (e := []) rfl hb
  | attrEquals hn he =>
    rw [List.cons_append, List.append_assoc]
    exact readAttr_complete hn (v := some _) he hb
  | hasChild hn hdigit => exact readInside_childTest hn hdigit (v := none) (e := []) rfl hb
  | childEquals hn hdigit he =>
    rw [List.append_assoc]
    exact readInside_childTest hn hdigit (v := some _) he hb
  | textEquals he =>
    rw [List.append_assoc]
    show ReadsTo (readChildPredicate ("text(".toList ++ ')' :: (_ ++ (b ++ ']' :: rest)))) _ _
    rw [readChild_text]
    exact readText_complete he hb

theorem PredicateText.stops_blank {w : List Char} (hw : PredicateText w p) (cs : List Char) :
    Stops isBlank (w ++ cs) := by
  cases hw with
  | position hne hw hleast hgreatest =>
    cases w with
    | nil => exact absurd rfl hne
    | cons c w =>
      refine .cons (Bool.eq_false_iff.mpr fun hb => ?_)
      exact Bool.false_ne_true ((isDecimalDigit_of_isBlank hb).symm.trans (hw c (by simp)))
  | hasAttr hn => exact .cons (by decide)
  | attrEquals hn he => exact .cons (by decide)
  | hasChild hn hdigit => exact hn.stops (fun _ => isBlank_of_isNameChar) cs
  | childEquals hn hdigit he =>
    rw [List.append_assoc]
    exact hn.stops (fun _ => isBlank_of_isNameChar) _
  | textEquals he => exact .cons (by decide)

theorem readPredicate_iff :
    readPredicate cs = .ok (p, rest) ↔
      ∃ a w b, Blanks a ∧ PredicateText w p ∧ Blanks b ∧
        cs = a ++ (w ++ (b ++ ']' :: rest)) := by
  have hread : readPredicate cs = .ok (p, rest) ↔
      ReadsTo (readInside (skipBlanks cs)) p (']' :: rest) := by
    rw [readPredicate_eq]
    constructor
    · intro h
      obtain ⟨⟨p', left⟩, hinside, h⟩ := bind_eq_ok_iff.mp h
      obtain ⟨⟨⟨⟩, left'⟩, hclose, h⟩ := bind_eq_ok_iff.mp h
      cases h
      exact ⟨left, hinside, expect_iff.mp hclose⟩
    · rintro ⟨left, hinside, hclose⟩
      exact bind_eq_ok_iff.mpr
        ⟨(p, left), hinside, bind_eq_ok_iff.mpr ⟨((), rest), expect_iff.mpr hclose, rfl⟩⟩
  rw [hread]
  constructor
  · intro h
    obtain ⟨a, ha, hcut⟩ := exists_blanks cs
    obtain ⟨w, b, hw, hb, hskip⟩ := readInside_sound h
    exact ⟨a, w, b, ha, hw, hb, hskip ▸ hcut⟩
  · rintro ⟨a, w, b, ha, hw, hb, rfl⟩
    rw [skipBlanks_append ha, skipBlanks_of_stops (hw.stops_blank _)]
    exact readInside_complete hw hb

end Predicates

end DefLoad.Selector
