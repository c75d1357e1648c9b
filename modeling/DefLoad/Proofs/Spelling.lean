import DefLoad.Kdl.Document
import DefLoad.Kdl.Writer

/-!
How the reader sees what the writer has written, word by word. A written string is read as itself or
is no token at all, and it can be told from the string which of the two happens; so a written tree
is read as the tokens that spell it, or not at all.
-/

namespace DefLoad.Kdl

/-- A character that may stand in quotes the way it is written: behind a backslash or as it is. -/
def isSpellable (c : Char) : Bool := (escape? c).isSome || !(isForbidden c || isNewline c)

/-- A string that is read back the way it is written. -/
def readsBack (s : String) : Bool :=
  if isPlain s.toList then !startsLikeFraction s.toList else s.toList.all isSpellable

/-- What a quoted character is read as. -/
def pieceOf (c : Char) : Piece := if (escape? c).isSome then .escaped c else .plain c

theorem char_pieceOf (c : Char) : (pieceOf c).char = c := by
  unfold pieceOf
  split <;> rfl

theorem readBody_escape (c : Char) (cs : List Char) :
    readBody false .body (escape c ++ cs) =
      if isSpellable c then
        (readBody false .body cs).map fun (ps, rest) => (pieceOf c :: ps, rest)
      else none := by
  cases h : escape? c with
  | some e =>
    have hescape : escape c = ['\\', e] := by rw [escape, h]
    have hpiece : pieceOf c = .escaped c := by rw [pieceOf, h]; rfl
    have hspellable : isSpellable c = true := by rw [isSpellable, h]; rfl
    rw [hescape, hpiece, if_pos hspellable]
    have hback := unescape?_escape? h
    have hgap : isGap e = false ∧ e ≠ 'u' := by
      unfold escape? at h
      split at h <;> first | (cases h; decide) | cases h
    show readBody false .body ('\\' :: e :: cs) = _
    rw [readBody.eq_def]
    simp [hback, hgap]
  | none =>
    have hescape : escape c = [c] := by rw [escape, h]
    have hpiece : pieceOf c = .plain c := by rw [pieceOf, h]; rfl
    have hspellable : isSpellable c = !(isForbidden c || isNewline c) := by rw [isSpellable, h]; rfl
    have hquote : c ≠ '"' := by rintro rfl; cases h
    have hslash : c ≠ '\\' := by rintro rfl; cases h
    rw [hescape, hpiece, hspellable]
    show readBody false .body (c :: cs) = _
    rw [readBody.eq_def]
    cases hforbidden : isForbidden c <;> cases hnewline : isNewline c <;>
      simp [hquote, hslash, hforbidden, hnewline]

/-- The body of a quoted string is read back if all its characters may stand in it. -/
theorem readBody_escaped (s rest : List Char) :
    readBody false .body (s.flatMap escape ++ '"' :: rest) =
      if s.all isSpellable then some (s.map pieceOf, rest) else none := by
  induction s with
  | nil =>
    rw [readBody.eq_def]
    simp
  | cons c s ih =>
    rw [List.flatMap_cons, List.append_assoc, readBody_escape, ih]
    cases hc : isSpellable c <;> cases hs : s.all isSpellable <;> simp [hc, hs]

theorem stringOf_pieces (s : String) : stringOf (s.toList.map pieceOf) = s := by
  rw [stringOf, List.map_map]
  have hid : Piece.char ∘ pieceOf = id := funext char_pieceOf
  rw [hid, List.map_id, String.ofList_toList]

/-- A written string is not the start of three quotes. -/
theorem dropExactly_quoted (s rest : List Char) (h : endsWord rest = true) :
    dropExactly '"' 3 ('"' :: s.flatMap escape ++ '"' :: rest) = none := by
  cases s with
  | nil =>
    cases rest with
    | nil => rfl
    | cons c rest =>
      have hc : c ≠ '"' := by
        rintro rfl
        cases h
      simp [dropExactly, hc]
  | cons c s =>
    cases he : escape? c with
    | some e =>
      have hescape : escape c = ['\\', e] := by rw [escape, he]
      simp [dropExactly, hescape]
    | none =>
      have hescape : escape c = [c] := by rw [escape, he]
      have hquote : c ≠ '"' := by rintro rfl; cases he
      simp [dropExactly, hescape, hquote]

theorem next_quoted (s : String) (rest : List Char) (h : endsWord rest = true) :
    Token.next ('"' :: s.toList.flatMap escape ++ '"' :: rest) =
      if s.toList.all isSpellable then some (.text s, rest) else none := by
  have hquoted : readQuoted ('"' :: s.toList.flatMap escape ++ '"' :: rest) =
      if s.toList.all isSpellable then some (s, rest) else none := by
    rw [readQuoted, dropExactly_quoted _ _ h]
    show (readBody false .body (s.toList.flatMap escape ++ '"' :: rest)).bind _ = _
    rw [readBody_escaped]
    split
    · simp [stringOf_pieces]
    · rfl
  show (readQuoted ('"' :: s.toList.flatMap escape ++ '"' :: rest)).bind _ = _
  rw [hquoted]
  split
  · simp [word?, h]
  · rfl

/-- A character that can begin a bare word begins no other token. -/
theorem next_bare {c : Char} (cs : List Char) (h : isBare c = true) :
    Token.next (c :: cs) = readBare (c :: cs) := by
  have hclasses := h
  simp only [isBare, Bool.not_eq_true', Bool.or_eq_false_iff] at hclasses
  obtain ⟨⟨⟨hnewline, hspace⟩, -⟩, -⟩ := hclasses
  unfold Token.next
  split
  case h_1 heq => cases heq
  case h_14 c' cs' _ _ _ _ _ _ _ _ _ _ _ _ heq =>
    cases heq
    rw [hspace, hnewline]
    rfl
  all_goals
    rename_i heq
    cases heq
    exact absurd h (by decide)

/-- What ends a word is not part of a bare one. -/
theorem not_bare_of_endsWord {c : Char} {cs : List Char} (h : endsWord (c :: cs) = true) :
    isBare c = false := by
  rw [endsWord] at h
  split at h
  case isTrue hslash =>
    obtain rfl : c = '/' := by simpa using hslash
    decide
  case isFalse =>
    simp only [Bool.or_eq_true, beq_iff_eq] at h
    rcases h with ((((((hspace | hnewline) | rfl) | rfl) | rfl) | rfl) | rfl) | rfl
    · simp [isBare, hspace]
    · simp [isBare, hnewline]
    all_goals decide

theorem next_plain (s : String) (rest : List Char) (hplain : isPlain s.toList = true)
    (h : endsWord rest = true) :
    Token.next (s.toList ++ rest) =
      if startsLikeFraction s.toList then none else some (.text s, rest) := by
  simp only [isPlain, Bool.and_eq_true, Bool.not_eq_true', List.all_eq_true,
    String.ofList_toList] at hplain
  obtain ⟨⟨⟨hempty, hbare⟩, hnumber⟩, hreserved⟩ := hplain
  have hstop : rest.takeWhile isBare = [] ∧ rest.dropWhile isBare = rest := by
    cases rest with
    | nil => exact ⟨rfl, rfl⟩
    | cons c rest => simp [not_bare_of_endsWord h]
  have hword : (s.toList ++ rest).takeWhile isBare = s.toList := by
    rw [List.takeWhile_append_of_pos hbare, hstop.1, List.append_nil]
  have hrest : (s.toList ++ rest).dropWhile isBare = rest := by
    rw [List.dropWhile_append_of_pos hbare, hstop.2]
  have hnext : Token.next (s.toList ++ rest) = readBare (s.toList ++ rest) := by
    cases hs : s.toList with
    | nil =>
      rw [hs] at hempty
      cases hempty
    | cons c cs =>
      rw [hs] at hbare
      exact next_bare _ (hbare c List.mem_cons_self)
  rw [hnext]
  simp only [readBare, hword, hrest, hnumber, String.ofList_toList, hempty, hreserved, word?, h]
  simp

/-- A written string is read as itself, or it is no token at all. -/
theorem next_writeString (s : String) (rest : List Char) (h : endsWord rest = true) :
    Token.next (writeString s ++ rest) =
      if readsBack s then some (.text s, rest) else none := by
  unfold writeString readsBack
  cases hplain : isPlain s.toList with
  | true =>
    simp only [if_true, next_plain s rest hplain h]
    cases startsLikeFraction s.toList <;> rfl
  | false =>
    have hquoted := next_quoted s rest h
    simpa using hquoted

/-! Texts. -/

/-- The tokens at the start of a text and what stands behind them. -/
inductive Lexes : List Char → List Token → List Char → Prop
  | nil (cs : List Char) : Lexes cs [] cs
  | cons {cs mid rest : List Char} {t : Token} {ts : List Token}
    (hnext : Token.next cs = some (t, mid)) (hshort : mid.length < cs.length)
    (h : Lexes mid ts rest) : Lexes cs (t :: ts) rest

theorem Lexes.trans {cs mid rest : List Char} {ts ts' : List Token} (h : Lexes cs ts mid)
    (h' : Lexes mid ts' rest) : Lexes cs (ts ++ ts') rest := by
  induction h with
  | nil => exact h'
  | cons hnext hshort _ ih => exact .cons hnext hshort (ih h')

theorem Lexes.scan {cs rest : List Char} {ts : List Token} (h : Lexes cs ts rest) {n : Nat}
    (hn : cs.length ≤ n) :
    ∃ m, rest.length ≤ m ∧ Token.scan n cs = (Token.scan m rest).map (ts ++ ·) := by
  induction h generalizing n with
  | nil cs => exact ⟨n, hn, by simp⟩
  | @cons cs mid rest t ts hnext hshort h ih =>
    cases cs with
    | nil => cases hnext
    | cons c cs =>
      cases n with
      | zero => simp at hn
      | succ n =>
        obtain ⟨m, hm, hscan⟩ := ih (n := n) (by omega)
        refine ⟨m, hm, ?_⟩
        rw [Token.scan, hnext]
        · simp [hscan, Function.comp_def]
        · rintro ⟨⟩

/-- The reader comes to a place where no token stands. -/
def Stuck (cs : List Char) : Prop :=
  ∃ ts rest, Lexes cs ts rest ∧ rest ≠ [] ∧ Token.next rest = none

theorem Stuck.scan {cs : List Char} (h : Stuck cs) {n : Nat} (hn : cs.length ≤ n) :
    Token.scan n cs = none := by
  obtain ⟨ts, rest, hlexes, hne, hnext⟩ := h
  obtain ⟨m, -, hscan⟩ := hlexes.scan hn
  have hnone : Token.scan m rest = none := by
    cases rest with
    | nil => exact absurd rfl hne
    | cons c rest =>
      cases m with
      | zero => rfl
      | succ m =>
        rw [Token.scan, hnext]
        · rfl
        · rintro ⟨⟩
  rw [hscan, hnone]
  rfl

/-- A piece of text is read as these tokens when it is sound; else the reader gets stuck in it. -/
def Spells (w : List Char) (sound : Bool) (ts : List Token) (rest : List Char) : Prop :=
  if sound then Lexes (w ++ rest) ts rest else Stuck (w ++ rest)

theorem Spells.append {w w' rest : List Char} {sound sound' : Bool} {ts ts' : List Token}
    (h : Spells w sound ts (w' ++ rest)) (h' : Spells w' sound' ts' rest) :
    Spells (w ++ w') (sound && sound') (ts ++ ts') rest := by
  unfold Spells at *
  rw [List.append_assoc]
  cases sound with
  | false => exact h
  | true =>
    cases sound' with
    | true => exact h.trans h'
    | false =>
      obtain ⟨ts', last, hlexes, hstuck⟩ := h'
      exact ⟨ts ++ ts', last, h.trans hlexes, hstuck⟩

theorem Spells.nil (rest : List Char) : Spells [] true [] rest := Lexes.nil rest

/-- A piece that is one token. -/
theorem Spells.one {w rest : List Char} {t : Token} (hw : w ≠ [])
    (h : Token.next (w ++ rest) = some (t, rest)) : Spells w true [t] rest := by
  refine .cons h ?_ (.nil rest)
  have hlength := List.length_pos_iff.mpr hw
  rw [List.length_append]
  omega

theorem writeString_ne_nil (s : String) : writeString s ≠ [] := by
  unfold writeString
  split
  · intro hnil
    simp_all [isPlain]
  · simp

theorem spells_string (s : String) {rest : List Char} (h : endsWord rest = true) :
    Spells (writeString s) (readsBack s) [.text s] rest := by
  have hnext := next_writeString s rest h
  cases hs : readsBack s with
  | true =>
    rw [hs] at hnext
    exact .one (writeString_ne_nil s) hnext
  | false =>
    rw [hs] at hnext
    exact ⟨[], _, .nil _, by simp [writeString_ne_nil], hnext⟩

/-- No blank stands at the start. -/
def startsDense (cs : List Char) : Prop := cs.dropWhile isSpace = cs

theorem writeString_dense (s : String) (rest : List Char) :
    startsDense (writeString s ++ rest) := by
  unfold startsDense writeString
  split
  case isTrue hplain =>
    cases hs : s.toList with
    | nil => simp [hs, isPlain] at hplain
    | cons c cs =>
      have hc : isSpace c = false := by
        simp only [isPlain, hs, List.all_cons, isBare, Bool.and_eq_true, Bool.not_eq_true',
          Bool.or_eq_false_iff] at hplain
        exact hplain.1.1.2.1.1.1.2
      simp [hc]
  case isFalse =>
    have hquote : isSpace '"' = false := by decide
    simp [hquote]

/-- Blanks in a row are one token. -/
def spaceTokens : Nat → List Token
  | 0 => []
  | _ + 1 => [.blank]

theorem spells_spaces (n : Nat) {rest : List Char} (h : startsDense rest) :
    Spells (List.replicate n ' ') true (spaceTokens n) rest := by
  cases n with
  | zero => exact .nil rest
  | succ n =>
    have hspace : isSpace ' ' = true := by decide
    have hdrop : (List.replicate n ' ' ++ rest).dropWhile isSpace = rest := by
      rw [List.dropWhile_append_of_pos (by simp [hspace]), h]
    refine .one (by simp) ?_
    show some (Token.blank, (List.replicate n ' ' ++ rest).dropWhile isSpace) = _
    rw [hdrop]

/-- A blank and a string. -/
theorem spells_argument (s : String) {rest : List Char} (h : endsWord rest = true) :
    Spells (' ' :: writeString s) (readsBack s) [.blank, .text s] rest := by
  have hblank := spells_spaces 1 (writeString_dense s rest)
  exact hblank.append (spells_string s h)

def textTokens : Option String → List Token
  | none => []
  | some s => [.blank, .text s]

theorem spells_text (text : Option String) {rest : List Char} (h : endsWord rest = true) :
    Spells (writeText text) (text.toList.all readsBack) (textTokens text) rest := by
  cases text with
  | none => exact .nil rest
  | some s =>
    have hs := spells_argument s h
    simpa [writeText, textTokens] using hs

def attributeTokens (e : String × String) : List Token :=
  [.blank, .text e.1, .equals, .text e.2]

theorem spells_attribute (e : String × String) {rest : List Char} (h : endsWord rest = true) :
    Spells (writeAttribute e) (readsBack e.1 && readsBack e.2) (attributeTokens e) rest := by
  have hkey : Spells (' ' :: writeString e.1) (readsBack e.1) [.blank, .text e.1]
      ('=' :: writeString e.2 ++ rest) := spells_argument e.1 rfl
  have hequals : Spells ['='] true [.equals] (writeString e.2 ++ rest) := .one (by simp) rfl
  have hvalue := hequals.append (spells_string e.2 h)
  have hboth := hkey.append hvalue
  simpa [writeAttribute, attributeTokens] using hboth

theorem endsWord_attributes (es : List (String × String)) {rest : List Char}
    (h : endsWord rest = true) : endsWord (es.flatMap writeAttribute ++ rest) = true := by
  cases es with
  | nil => exact h
  | cons e es => rfl

theorem spells_attributes (es : List (String × String)) {rest : List Char}
    (h : endsWord rest = true) :
    Spells (es.flatMap writeAttribute) (es.all fun e => readsBack e.1 && readsBack e.2)
      (es.flatMap attributeTokens) rest := by
  induction es with
  | nil => exact .nil rest
  | cons e es ih =>
    have hfirst := spells_attribute e (endsWord_attributes es h)
    exact hfirst.append ih

/-! Trees. -/

end DefLoad.Kdl

namespace DefLoad.Node

mutual

/-- All strings of a tree: names, texts, and keys and values of attributes. -/
def strings : Node → List String
  | ⟨name, attrs, text, children⟩ =>
    name :: (text.toList ++ (attrs.entries.flatMap (fun e => [e.1, e.2]) ++ stringsAll children))

def stringsAll : List Node → List String
  | [] => []
  | n :: ns => n.strings ++ stringsAll ns

end

end DefLoad.Node

namespace DefLoad.Kdl

/-- The tokens of what stands behind the attributes, around the tokens of the children. -/
def endTokens (depth : Nat) (isLeaf : Bool) (inner : List Token) : List Token :=
  if isLeaf then [.newline]
  else [.blank, .openBrace, .newline] ++
    (inner ++ (spaceTokens (4 * depth) ++ [.closeBrace, .newline]))

mutual

/-- The tokens that spell a node of some depth. -/
def tokensOf (depth : Nat) : Node → List Token
  | ⟨name, attrs, text, children⟩ =>
    (spaceTokens (4 * depth) ++ [.text name]) ++
      (textTokens text ++
        (attrs.entries.flatMap attributeTokens ++
          endTokens depth children.isEmpty (tokensOfAll (depth + 1) children)))

def tokensOfAll (depth : Nat) : List Node → List Token
  | [] => []
  | n :: ns => tokensOf depth n ++ tokensOfAll depth ns

end

/-- What stands behind the attributes of a node: the block of its children, and a newline. -/
def writeEnd (depth : Nat) (children : List Node) : List Char :=
  (if children.isEmpty then []
    else
      " \x7b\n".toList ++ writeNodes (depth + 1) children ++ indentation depth ++ ['\x7d']) ++
    ['\n']

theorem writeNode_eq (depth : Nat) (name : String) (attrs : Attributes) (text : Option String)
    (children : List Node) :
    writeNode depth ⟨name, attrs, text, children⟩ =
      (indentation depth ++ writeString name) ++
        (writeText text ++ (attrs.entries.flatMap writeAttribute ++ writeEnd depth children)) := by
  simp only [writeNode, writeEnd, List.append_assoc]

theorem endsWord_end (depth : Nat) (children : List Node) (rest : List Char) :
    endsWord (writeEnd depth children ++ rest) = true := by
  cases children with
  | nil => rfl
  | cons c cs => rfl

theorem spells_newline (rest : List Char) : Spells ['\n'] true [.newline] rest := .one (by simp) rfl

theorem spells_indented (depth : Nat) (s : String) {rest : List Char} (h : endsWord rest = true) :
    Spells (indentation depth ++ writeString s) (readsBack s)
      (spaceTokens (4 * depth) ++ [.text s]) rest :=
  (spells_spaces (4 * depth) (writeString_dense s rest)).append (spells_string s h)

/-- The end of a node, once it is known how its children are spelled. -/
theorem spells_end (depth : Nat) (children : List Node)
    (hchildren : ∀ rest, Spells (writeNodes (depth + 1) children)
      ((Node.stringsAll children).all readsBack) (tokensOfAll (depth + 1) children) rest)
    (rest : List Char) :
    Spells (writeEnd depth children) ((Node.stringsAll children).all readsBack)
      (endTokens depth children.isEmpty (tokensOfAll (depth + 1) children)) rest := by
  cases children with
  | nil => exact spells_newline rest
  | cons c cs =>
    have hopen (rest : List Char) :
        Spells " \x7b\n".toList true [.blank, .openBrace, .newline] rest := by
      have hblank : Spells [' '] true [.blank] (['\x7b', '\n'] ++ rest) := spells_spaces 1 rfl
      have hbrace : Spells ['\x7b'] true [.openBrace] (['\n'] ++ rest) := .one (by simp) rfl
      exact hblank.append (hbrace.append (spells_newline rest))
    have hclose : Spells (indentation depth ++ ['\x7d', '\n']) true
        (spaceTokens (4 * depth) ++ [.closeBrace, .newline]) rest := by
      have hindent : Spells (indentation depth) true (spaceTokens (4 * depth))
          (['\x7d', '\n'] ++ rest) := spells_spaces (4 * depth) rfl
      have hbrace : Spells ['\x7d'] true [.closeBrace] (['\n'] ++ rest) := .one (by simp) rfl
      exact hindent.append (hbrace.append (spells_newline rest))
    have hall := (hopen _).append ((hchildren _).append hclose)
    simpa [writeEnd, endTokens] using hall

mutual

theorem spells_node (depth : Nat) (n : Node) (rest : List Char) :
    Spells (writeNode depth n) (n.strings.all readsBack) (tokensOf depth n) rest := by
  obtain ⟨name, attrs, text, children⟩ := n
  have hends := endsWord_end depth children rest
  have hend := spells_end depth children (spells_nodes (depth + 1) children) rest
  have hattrs := (spells_attributes attrs.entries hends).append hend
  have hends' : endsWord (attrs.entries.flatMap writeAttribute ++ writeEnd depth children ++
      rest) = true := by
    rw [List.append_assoc]
    exact endsWord_attributes attrs.entries hends
  have htext := (spells_text text hends').append hattrs
  have hends'' : endsWord (writeText text ++
      (attrs.entries.flatMap writeAttribute ++ writeEnd depth children) ++ rest) = true := by
    cases text with
    | none => exact hends'
    | some s => rfl
  have hall := (spells_indented depth name hends'').append htext
  rw [writeNode_eq]
  simpa [Node.strings, tokensOf, List.all_flatMap] using hall

theorem spells_nodes (depth : Nat) (ns : List Node) (rest : List Char) :
    Spells (writeNodes depth ns) ((Node.stringsAll ns).all readsBack) (tokensOfAll depth ns)
      rest := by
  cases ns with
  | nil => exact .nil rest
  | cons n ns =>
    have hfirst := spells_node depth n (writeNodes depth ns ++ rest)
    have hall := hfirst.append (spells_nodes depth ns rest)
    rw [writeNodes, tokensOfAll, Node.stringsAll, List.all_append]
    exact hall

end

/-- A written document is read as the tokens that spell it, unless one of its strings is not read
back; then it is not read at all. -/
theorem ofChars?_writeNodes (ns : List Node) :
    Token.ofChars? (writeNodes 0 ns) =
      if (Node.stringsAll ns).all readsBack then some (tokensOfAll 0 ns) else none := by
  have hspells := spells_nodes 0 ns []
  unfold Spells at hspells
  rw [List.append_nil] at hspells
  split at hspells
  case isTrue hsound =>
    obtain ⟨m, -, hscan⟩ := hspells.scan (Nat.le_refl _)
    rw [Token.ofChars?, hscan, if_pos hsound]
    simp [Token.scan]
  case isFalse hsound =>
    rw [Token.ofChars?, hspells.scan (Nat.le_refl _), if_neg hsound]

end DefLoad.Kdl
