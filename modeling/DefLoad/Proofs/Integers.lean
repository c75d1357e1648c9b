import DefLoad.Proofs.Accumulation
import DefLoad.Proofs.PlainValues
import DefLoad.Proofs.RepeatedProperties
import DefLoad.Proofs.StandardTypes

/-!
Integers on their way from a document to a member. An integer becomes decimal digits in the tree;
they are read back as the same integer when it is in the range of the type, and are refused when it
is not. So a member gets the integer that was written, or it keeps its value.
-/

namespace DefLoad

namespace Text

theorem trimChars_of_not_blank {cs : List Char} (h : ∀ c ∈ cs, isBlank c = false) :
    trimChars cs = cs := by
  have hskip {cs : List Char} (h : ∀ c ∈ cs, isBlank c = false) : skipBlanks cs = cs := by
    cases cs with
    | nil => rfl
    | cons c cs => exact List.dropWhile_cons_of_neg (by simp [h c List.mem_cons_self])
  rw [trimChars, hskip h, hskip fun c hc => h c (List.mem_reverse.mp hc), List.reverse_reverse]

end Text

namespace Decimal

open Text (isDecimalDigit digitValue isBlank trimChars)

/-! Digits. -/

theorem le_ofDigitChars (ds : List Char) (acc : Nat) : acc ≤ Nat.ofDigitChars 10 ds acc := by
  induction ds generalizing acc with
  | nil => exact Nat.le_refl _
  | cons d ds ih =>
    have hnext := ih (10 * acc + (d.toNat - '0'.toNat))
    rw [Nat.ofDigitChars_cons]
    omega

/-- Digits are read to their value, as long as this is not too large. -/
theorem readUp_eq {greatest : Int} {ds : List Char} (hds : ∀ d ∈ ds, isDecimalDigit d = true)
    (acc : Nat) (hacc : (acc : Int) ≤ greatest) :
    readUp greatest acc ds = if (Nat.ofDigitChars 10 ds acc : Int) ≤ greatest
      then .ok (Nat.ofDigitChars 10 ds acc : Int) else .error .tooLarge := by
  induction ds generalizing acc with
  | nil => simp [readUp, Nat.ofDigitChars_nil, hacc]
  | cons d ds ih =>
    have hnext : (acc : Int) * 10 + digitValue d = (10 * acc + (d.toNat - '0'.toNat) : Nat) := by
      simp only [digitValue]
      omega
    have hlater := le_ofDigitChars ds (10 * acc + (d.toNat - '0'.toNat))
    simp only [readUp, hds d List.mem_cons_self, Bool.not_true, Bool.false_eq_true, if_false, hnext,
      Nat.ofDigitChars_cons]
    by_cases hlarge : greatest < (10 * acc + (d.toNat - '0'.toNat) : Nat)
    · rw [if_pos hlarge, if_neg (by omega)]
    · rw [if_neg hlarge, ih (fun d hd => hds d (List.mem_cons_of_mem _ hd)) _ (by omega)]

theorem readDown_eq {least : Int} {ds : List Char} (hds : ∀ d ∈ ds, isDecimalDigit d = true)
    (acc : Nat) (hacc : least ≤ -(acc : Int)) :
    readDown least (-acc) ds = if least ≤ -(Nat.ofDigitChars 10 ds acc : Int)
      then .ok (-(Nat.ofDigitChars 10 ds acc : Int)) else .error .tooSmall := by
  induction ds generalizing acc with
  | nil => simp [readDown, Nat.ofDigitChars_nil, hacc]
  | cons d ds ih =>
    have hnext : -(acc : Int) * 10 - digitValue d =
        -(10 * acc + (d.toNat - '0'.toNat) : Nat) := by
      simp only [digitValue]
      omega
    have hlater := le_ofDigitChars ds (10 * acc + (d.toNat - '0'.toNat))
    simp only [readDown, hds d List.mem_cons_self, Bool.not_true, Bool.false_eq_true, if_false,
      hnext, Nat.ofDigitChars_cons]
    by_cases hsmall : -((10 * acc + (d.toNat - '0'.toNat) : Nat) : Int) < least
    · rw [if_pos hsmall, if_neg (by omega)]
    · rw [if_neg hsmall, ih (fun d hd => hds d (List.mem_cons_of_mem _ hd)) _ (by omega)]

theorem toDigits_decimal (n : Nat) : ∀ d ∈ Nat.toDigits 10 n, isDecimalDigit d = true :=
  fun _ hd => Text.isDecimalDigit_of_isDigit (Nat.isDigit_of_mem_toDigits (by decide) (by decide) hd)

namespace Range

/-- A text of digits alone has no sign. -/
theorem read_digits (r : Range) {ds : List Char} (hne : ds ≠ [])
    (hds : ∀ d ∈ ds, isDecimalDigit d = true) : r.read ds = readUp r.greatest 0 ds := by
  unfold read
  split
  · exact absurd rfl hne
  · rfl
  · exact absurd (hds '+' List.mem_cons_self) (by decide)
  · exact absurd (hds '-' List.mem_cons_self) (by decide)
  · rfl

theorem read_minus (r : Range) {ds : List Char} (hne : ds ≠ []) :
    r.read ('-' :: ds) = if r.least < 0 then readDown r.least 0 ds else .error .invalidDigit := by
  cases ds with
  | nil => exact absurd rfl hne
  | cons d ds => rfl

/-- Why an integer outside the range is refused. Without negative numbers a minus is no digit. -/
def refusal (r : Range) (n : Int) : NumeralError :=
  if 0 ≤ n then .tooLarge else if r.least < 0 then .tooSmall else .invalidDigit

/-- The text of an integer is read as that integer or refused. -/
theorem read_renderInt {r : Range} (hlow : r.least ≤ 0) (hhigh : 0 ≤ r.greatest) (n : Int) :
    r.read (trimChars (Kdl.Value.renderInt n).toList) =
      if r.contains n then .ok n else .error (r.refusal n) := by
  have hdigits := toDigits_decimal n.natAbs
  have hvalue : Nat.ofDigitChars 10 (Nat.toDigits 10 n.natAbs) 0 = n.natAbs :=
    Nat.ofDigitChars_ten_toDigits
  have htrim {cs : List Char} (h : ∀ c ∈ cs, isDecimalDigit c = true ∨ c = '-') :
      trimChars cs = cs := by
    refine Text.trimChars_of_not_blank fun c hc => ?_
    rcases h c hc with hdigit | rfl
    · exact Text.isBlank_of_isDecimalDigit hdigit
    · decide
  rw [Kdl.Value.renderInt, String.toList_ofList]
  by_cases hn : n < 0
  · rw [if_pos hn, htrim (by simpa using fun c hc => .inl (hdigits c hc)),
      read_minus r Nat.toDigits_ne_nil]
    have hread := readDown_eq hdigits 0 (by simpa using hlow)
    rw [hvalue, Int.natCast_zero, Int.neg_zero] at hread
    have habs : -(n.natAbs : Int) = n := by omega
    have hsign : ¬0 ≤ n := by omega
    have hupper : n ≤ r.greatest := by omega
    by_cases hleast : r.least < 0
    · simp only [hread, habs, refusal, if_neg hsign, if_pos hleast, contains, Bool.and_eq_true,
        decide_eq_true_eq, and_iff_left hupper]
    · have hlower : ¬r.least ≤ n := by omega
      simp only [refusal, if_neg hsign, if_neg hleast, contains, Bool.and_eq_true,
        decide_eq_true_eq, hlower, false_and, if_false]
  · rw [if_neg hn, htrim fun c hc => .inl (hdigits c hc),
      read_digits r Nat.toDigits_ne_nil hdigits]
    have hread := readUp_eq hdigits 0 hhigh
    have habs : (n.natAbs : Int) = n := by omega
    have hsign : 0 ≤ n := by omega
    have hlower : r.least ≤ n := by omega
    rw [hvalue, Int.natCast_zero, habs] at hread
    simp only [hread, refusal, if_pos hsign, contains, Bool.and_eq_true, decide_eq_true_eq,
      and_iff_right hlower]

end Range

end Decimal

open Builder (Extends PlainType)

theorem Kdl.toNode_text {e : Kdl.Element} {c : Node} {v : Kdl.Value} (hc : Kdl.toNode e = .ok c)
    (hv : Config.arguments e = [v]) : c.text = v.content := by
  have hanswers := Kdl.toNode_answers e
  rw [hc] at hanswers
  generalize e.listing.find? Kdl.Element.isCrowded = first at hanswers
  cases hanswers with
  | built c hmirrors =>
    cases hmirrors with
    | mk name single text attr children =>
      rw [text, hv]
      rfl

namespace Parsers

theorem parserFor_integer {k : TypeKey} {range : Decimal.Range} (hk : (k, range) ∈ Core.integers)
    {T : Descriptor} (hT : PlainType k T) (more : List Parser) :
    parserFor (standard ++ more) T = some (integer k range) := by
  simp only [Core.integers, List.mem_cons, Prod.mk.injEq, List.not_mem_nil, or_false] at hk
  simp only [parserFor, standard, List.cons_append, List.find?, defRef, enumeration, node, typeName,
    integer, float, simple, hT.shape, hT.key]
  rcases hk with ⟨rfl, rfl⟩ | ⟨rfl, rfl⟩ | ⟨rfl, rfl⟩ | ⟨rfl, rfl⟩ | ⟨rfl, rfl⟩ | ⟨rfl, rfl⟩ <;> rfl

theorem parse_integer {k : TypeKey} {range : Decimal.Range} (hk : (k, range) ∈ Core.integers)
    (e : Env) {c : Context} {n : Int} (hc : c.text = Kdl.Value.renderInt n) :
    (integer k range).parse e c =
      if range.contains n then .ok (.int k n) else .error (range.refusal n).message := by
  obtain ⟨-, hlow, hhigh⟩ := Core.integers_spec hk
  simp only [integer, simple_parse, readInteger, hc, Decimal.Range.read_renderInt hlow hhigh]
  by_cases hin : range.contains n
  · simp only [if_pos hin]
  · simp only [if_neg hin]

end Parsers

namespace Reading

open Decimal (Range)

/-- What is said of an integer that is not in the range of its type. -/
def outOfRange (trail : List String) (k : TypeKey) (range : Range) (n : Int) : Diagnostic :=
  let text := Kdl.Value.renderInt n
  let type := TypeKey.localName k.title
  .error .conversion (pathOf trail)
    s!"cannot parse '{text}' as {type}: {(range.refusal n).message}"

section

variable {s : Setting} {k : TypeKey} {range : Range} {T : Descriptor} {more : List Parser}
  {c : Node} {n : Int}

/-- An integer is read as it is, or nothing is read and the stored value is left. -/
def integerStep (k : TypeKey) (range : Range) (n : Int) (trail : List String)
    (current : Option Value) : Reported Step :=
  if range.contains n then ⟨⟨.value (.int k n), current⟩, []⟩
  else ⟨⟨.noValue, current⟩, [outOfRange trail k range n]⟩

theorem readNode_integer (hk : (k, range) ∈ Core.integers) (hT : s.types.get? k = some T)
    (hplain : PlainType k T) (hs : s.parsers = Parsers.standard ++ more) (hc : c.attrs = .empty)
    (htext : c.text = some (Kdl.Value.renderInt n)) {f : Focus} (hf : f.target = T)
    (current : Option Value) :
    readNode s c f current = integerStep k range n f.trail current := by
  have hflag : c.flag "Null" ≠ some true := by
    rw [Node.flag, Node.attr, hc]
    decide
  have hparser : parserFor s.parsers f.target = some (Parsers.integer k range) := by
    rw [hs, hf]
    exact Parsers.parserFor_integer hk hplain more
  have hparse := Parsers.parse_integer hk s.env (c := f.context c current) (n := n)
    (by simp only [Focus.context, htext, Option.getD_some])
  have hshape : f.target.shape = .scalar := hf ▸ hplain.shape
  have hname : f.target.name = TypeKey.localName k.title := hf ▸ hplain.name
  have hhook : (s.types.get? (Value.int k n).type).bind Descriptor.postConstruct = none := by
    rw [show (Value.int k n).type = k from rfl, hT]
    exact hplain.postConstruct
  have hclosing : closing s f c ⟨.value (.int k n), current⟩ = ⟨.value (.int k n), current⟩ := by
    simp only [closing, afterReading, hhook]
  simp only [readNode_eq, if_neg hflag, throughOptional, hshape, readPlain, hparser, readWith,
    hparse, integerStep]
  by_cases hin : range.contains n
  · simp only [if_pos hin, pure_bind, hclosing]
    rfl
  · simp only [if_neg hin, hname, htext, Option.getD_some]
    rfl

/-! The member. -/

variable {Inst : Value → Prop} {t : Descriptor} {storage : Member → Storage} {m : Member}
  {o : Value}

/-- A child with an integer gives its member that integer, or the member keeps its value. -/
theorem storeMember_integer {p : Storage} (hp : p.Lawful Inst) (hstores : m.access.Stores Inst p)
    (hk : (k, range) ∈ Core.integers) (hT : s.types.get? k = some T) (hplain : PlainType k T)
    (hs : s.parsers = Parsers.standard ++ more) (hm : s.env.config.member? t c.name = some m)
    (hmember : m.type = k) (hkey : p.type = k) (hc : c.attrs = .empty)
    (htext : c.text = some (Kdl.Value.renderInt n)) (ho : Inst o) (trail : List String) :
    storeMember s trail t o c (readNode s c) =
      if range.contains n then ⟨p.put o (.int k n), []⟩
      else ⟨p.put o (p.get o), [outOfRange (trail ++ [c.name]) k range n]⟩ := by
  have hdeclared : s.types.get? m.type = some T := hmember ▸ hT
  obtain ⟨left, hstore⟩ := storeMember_stores hp hstores hdeclared (hplain.key.trans hkey.symm)
    (t := t) trail
  let focus : Focus := ⟨T, T, none, some m, .member, trail ++ [c.name]⟩
  have hread : readNode s c (focus.ownedBy (left o)) (some (p.get o)) =
      integerStep k range n (trail ++ [c.name]) (some (p.get o)) :=
    readNode_integer hk hT hplain hs hc htext rfl _
  have hnext (v : Value) := hstore c o v hm hc ho
  simp only [focus, hread, integerStep] at hnext
  by_cases hin : range.contains n
  · simp only [if_pos hin] at hnext ⊢
    have htype : (Value.int k n).type = T.key := hplain.key.symm
    exact hnext _ (toStore_value rfl htype _) htype
  · simp only [if_neg hin] at hnext ⊢
    have htype : (p.get o).type = T.key := by rw [hp.typed o ho, hkey, hplain.key]
    exact hnext _ rfl htype

/-- Integers arrive exactly or not at all. A child without attributes that is bound to a member of
an integer type, and whose value is an integer of whatever size, gives the member that very integer
if it is in the range of the type. Otherwise the member keeps the value that it has by then, and
there is one complaint. Children of other members that come later change nothing about this. -/
theorem populate_integer {declared : Catalog} {b : Builder} (hb : Extends (Core.builder declared) b)
    (htypes : s.types = b.table) (hs : s.parsers = Parsers.standard ++ more)
    (ht : Separate Inst t storage) (ho : Inst o) (hk : (k, range) ∈ Core.integers)
    {e : Kdl.Element} (he : Kdl.toNode e = .ok c) (hn : Config.arguments e = [.integer n])
    (hc : c.attrs = .empty) (hm : s.env.config.member? t c.name = some m) (hmember : m.type = k)
    {node : Node} {before after : List Node} (hnode : node.children = before ++ c :: after)
    (trail : List String) :
    let prior := readMembers s trail t before o
    let stored := storeMember s trail t prior.value c (readNode s c)
    let later := readMembers s trail t after stored.value
    populate s trail t node o = ⟨later.value, prior.found ++ (stored.found ++ later.found)⟩ ∧
      (if range.contains n then
        m.access.read stored.value = some (.int k n) ∧ stored.found = []
      else m.access.read stored.value = m.access.read prior.value ∧
        stored.found = [outOfRange (trail ++ [c.name]) k range n]) ∧
      ((∀ c' ∈ after, s.env.config.memberIndex? t c'.name ≠ s.env.config.memberIndex? t c.name) →
        m.access.read later.value = m.access.read stored.value) := by
  intro prior stored later
  obtain ⟨T, hT, hplain⟩ := Core.integer_plain hb hk
  rw [← htypes] at hT
  have htext : c.text = some (Kdl.Value.renderInt n) := Kdl.toNode_text he hn
  obtain ⟨j, hj, hjm⟩ := Option.bind_eq_some_iff.mp hm
  have hmem : m ∈ t.members := List.mem_of_getElem? hjm
  have hlawful := ht.lawful m hmem
  have hstores := ht.stores m hmem
  have hkey : (storage m).type = k := (ht.type_eq m hmem).trans hmember
  have hprior : Inst prior.value := by
    simp only [prior, readMembers_eq_fill]
    exact fill_inst ht ho before
  have hinst : Inst stored.value := storeMember_inst ht hprior
  refine ⟨?_, ?_, fun hafter => ?_⟩
  · simp only [populate, hnode, prior, stored, later, readMembers_eq_fill, Filling.fill_append]
    rfl
  · have hstored : stored = _ := storeMember_integer hlawful hstores hk hT hplain hs hm hmember hkey
      hc htext hprior trail
    rw [hstores.read_eq hinst, hstores.read_eq hprior, hstored]
    by_cases hin : range.contains n
    · simp only [if_pos hin]
      exact ⟨congrArg some (hlawful.get_put _ _ hprior hkey.symm), trivial⟩
    · simp only [if_neg hin]
      exact ⟨congrArg some (hlawful.get_put _ _ hprior (hlawful.typed _ hprior)), trivial⟩
  · have hlater : Inst later.value := by
      simp only [later, readMembers_eq_fill]
      exact fill_inst ht hinst after
    rw [hstores.read_eq hlater, hstores.read_eq hinst]
    simp only [later, readMembers_eq_fill]
    exact congrArg some (fill_get_eq ht hjm (fun c' hc' => hj ▸ hafter c' hc') hinst)

end

/-! A ship gets plates. -/

section

def coreSetting : Setting := ⟨⟨(Core.builder []).table, {}, fun _ => none⟩, Parsers.standard⟩

def platesOf (n : Int) : Node := ⟨"Plates", .empty, some (Kdl.Value.renderInt n), []⟩

/-- The greatest number of plates is one that a ship can get, and one more is refused. -/
theorem ship_plates :
    let read (n : Int) :=
      populate coreSetting ["Argo"] shipClass ⟨"Ship", .empty, none, [platesOf n]⟩ oldShip
    let greatest : Int := 2147483647
    platesMember.access.read (read greatest).value = some (.int .i32 greatest) ∧
      (read greatest).found = [] ∧
      platesMember.access.read (read (greatest + 1)).value = some (.int .i32 3) ∧
      (read (greatest + 1)).found =
        [outOfRange ["Argo", "Plates"] .i32 (.signed 32) (greatest + 1)] := by
  intro read greatest
  have hk : (TypeKey.i32, Decimal.Range.signed 32) ∈ Core.integers := List.mem_cons_self
  have harrives (n : Int) :=
    have hchildren : (⟨"Ship", .empty, none, [platesOf n]⟩ : Node).children =
        [] ++ platesOf n :: [] := rfl
    have hnode : Kdl.toNode ⟨"Plates", [.argument (.integer n)], []⟩ = .ok (platesOf n) := rfl
    have hmember : coreSetting.env.config.member? shipClass (platesOf n).name = some platesMember :=
      show coreSetting.env.config.member? shipClass "Plates" = some platesMember from rfl
    populate_integer (s := coreSetting) .refl rfl (List.append_nil _).symm ship_separate
      oldShip_isShip hk hnode rfl rfl hmember rfl hchildren ["Argo"]
  obtain ⟨hfits, hstored, hstays⟩ := harrives greatest
  obtain ⟨hlarge, hkept, hstays'⟩ := harrives (greatest + 1)
  rw [if_pos (by decide)] at hstored
  rw [if_neg (by decide)] at hkept
  refine ⟨?_, ?_, ?_, ?_⟩
  · change platesMember.access.read (populate _ _ _ _ _).value = _
    rw [hfits, hstays nofun, hstored.1]
  · change (populate _ _ _ _ _).found = _
    rw [hfits, hstored.2]
    rfl
  · change platesMember.access.read (populate _ _ _ _ _).value = _
    rw [hlarge, hstays' nofun, hkept.1]
    rfl
  · change (populate _ _ _ _ _).found = _
    rw [hlarge, hkept.2]
    rfl

end

end Reading

end DefLoad
