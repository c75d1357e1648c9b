import DefLoad.Parsers.Standard
import DefLoad.Proofs.Typing

/-!
The standard parsers give values of the type that is asked for: numbers in their range, variants of
their enumeration, references to defs of a subtype.
-/

namespace DefLoad

namespace Decimal

/-! Integers. -/

theorem readUp_mem {greatest acc n : Int} {cs : List Char} (h : readUp greatest acc cs = .ok n)
    (hlow : 0 ≤ acc) (hhigh : acc ≤ greatest) : 0 ≤ n ∧ n ≤ greatest := by
  induction cs generalizing acc with
  | nil =>
    cases h
    exact ⟨hlow, hhigh⟩
  | cons c cs ih =>
    simp only [readUp] at h
    split at h
    · cases h
    · split at h
      · cases h
      · exact ih h (by omega) (by omega)

theorem readDown_mem {least acc n : Int} {cs : List Char} (h : readDown least acc cs = .ok n)
    (hlow : least ≤ acc) (hhigh : acc ≤ 0) : least ≤ n ∧ n ≤ 0 := by
  induction cs generalizing acc with
  | nil =>
    cases h
    exact ⟨hlow, hhigh⟩
  | cons c cs ih =>
    simp only [readDown] at h
    split at h
    · cases h
    · split at h
      · cases h
      · exact ih h (by omega) (by omega)

/-- A number that is read is in the range. -/
theorem Range.contains_of_read {r : Range} {cs : List Char} {n : Int} (h : r.read cs = .ok n)
    (hlow : r.least ≤ 0) (hhigh : 0 ≤ r.greatest) : r.contains n = true := by
  have hup {cs : List Char} (h : readUp r.greatest 0 cs = .ok n) : r.contains n = true := by
    obtain ⟨hl, hg⟩ := readUp_mem h (by omega) hhigh
    simp only [contains, Bool.and_eq_true, decide_eq_true_eq]
    omega
  unfold Range.read at h
  split at h
  · cases h
  · exact hup h
  · exact hup h
  · split at h
    · obtain ⟨hl, hg⟩ := readDown_mem h hlow (by omega)
      simp only [contains, Bool.and_eq_true, decide_eq_true_eq]
      omega
    · cases h
  · exact hup h

/-! Floating-point numbers: sign, exponent and fraction fill their fields and no more. -/

theorem nearestBits_le (f : Format) (num den : Nat) : nearestBits f num den ≤ f.infinityBits := by
  unfold nearestBits
  split
  · exact Nat.zero_le _
  · exact Nat.min_le_right _ _

theorem nearestDecimal_le (f : Format) (digits : Nat) (exponent : Int) :
    nearestDecimal f digits exponent ≤ f.infinityBits := by
  unfold nearestDecimal
  split
  · exact Nat.zero_le _
  · dsimp only
    split
    · exact Nat.le_refl _
    · split
      · exact Nat.zero_le _
      · exact nearestBits_le f _ _

theorem readMagnitude_le {f : Format} {cs : List Char} {m : Nat}
    (h : readMagnitude f cs = some m) : m ≤ f.nanBits := by
  have hinfinity : f.infinityBits ≤ f.nanBits := Nat.le_add_right _ _
  unfold readMagnitude at h
  dsimp only at h
  split at h
  · cases h
    exact hinfinity
  · split at h
    · cases h
      exact Nat.le_refl _
    · unfold readMantissa at h
      dsimp only at h
      split at h
      · split at h
        · cases h
        · obtain ⟨e, -, rfl⟩ := Option.map_eq_some_iff.mp h
          exact (nearestDecimal_le f _ _).trans hinfinity
      · split at h
        · cases h
        · obtain ⟨e, -, rfl⟩ := Option.map_eq_some_iff.mp h
          exact (nearestDecimal_le f _ _).trans hinfinity

theorem nanBits_lt {f : Format} (hf : 0 < f.fraction) : f.nanBits < f.signBit := by
  have hhalf : 2 ^ (f.fraction - 1) < 2 ^ f.fraction :=
    Nat.pow_lt_pow_right (by decide) (by omega)
  have hone : 1 ≤ 2 ^ f.exponent := Nat.one_le_two_pow
  calc f.nanBits
    _ = (2 ^ f.exponent - 1) * 2 ^ f.fraction + 2 ^ (f.fraction - 1) := rfl
    _ < (2 ^ f.exponent - 1) * 2 ^ f.fraction + 2 ^ f.fraction := by omega
    _ = (2 ^ f.exponent - 1 + 1) * 2 ^ f.fraction := by rw [Nat.add_mul, Nat.one_mul]
    _ = 2 ^ f.fraction * 2 ^ f.exponent := by rw [Nat.sub_add_cancel hone, Nat.mul_comm]
    _ = f.signBit := (Nat.pow_add 2 _ _).symm

/-- A number that is read fits the width of its format. -/
theorem Format.lt_of_read {f : Format} (hf : 0 < f.fraction) {cs : List Char} {n : Nat}
    (h : f.read cs = .ok n) : n < 2 * f.signBit := by
  have hnan := nanBits_lt hf
  have hmagnitude {ds : List Char} {m : Nat} (hm : readMagnitude f ds = some m) :
      m < f.signBit := (readMagnitude_le hm).trans_lt hnan
  unfold Format.read at h
  dsimp only at h
  split at h
  case h_1 bits hfound =>
    cases h
    split at hfound
    · obtain ⟨m, hm, rfl⟩ := Option.map_eq_some_iff.mp hfound
      have hlt := hmagnitude hm
      simp only [Format.signed, if_true]
      omega
    · have hlt := hmagnitude hfound
      omega
    · have hlt := hmagnitude hfound
      omega
  case h_2 => cases h

end Decimal

theorem Core.integers_spec {k : TypeKey} {range : Decimal.Range} (h : (k, range) ∈ Core.integers) :
    (∃ name, k = .named name) ∧ range.least ≤ 0 ∧ 0 ≤ range.greatest := by
  simp only [Core.integers, List.mem_cons, Prod.mk.injEq, List.not_mem_nil, or_false] at h
  rcases h with ⟨rfl, rfl⟩ | ⟨rfl, rfl⟩ | ⟨rfl, rfl⟩ | ⟨rfl, rfl⟩ | ⟨rfl, rfl⟩ | ⟨rfl, rfl⟩ <;>
    exact ⟨⟨_, rfl⟩, by decide, by decide⟩

theorem Core.floats_spec {k : TypeKey} {f : Decimal.Format} (h : (k, f) ∈ Core.floats) :
    (∃ name, k = .named name) ∧ 0 < f.fraction := by
  simp only [Core.floats, List.mem_cons, Prod.mk.injEq, List.not_mem_nil, or_false] at h
  rcases h with ⟨rfl, rfl⟩ | ⟨rfl, rfl⟩ <;> exact ⟨⟨_, rfl⟩, by decide⟩

namespace Parsers

theorem simple_parse (name : String) (k : TypeKey) (read : String → Except String Value) (e : Env)
    (c : Context) : (simple name k read).parse e c = read c.text := rfl

/-! What the parsers of plain types give. -/

theorem readBool_plain {s : String} {v : Value} (h : readBool s = .ok v) :
    ∃ a, Plain .bool a ∧ v = .scalar .bool a := by
  unfold readBool at h
  split at h
  · cases h
    exact ⟨_, .bool _, rfl⟩
  · cases h

theorem readInteger_plain {k : TypeKey} {range : Decimal.Range} (hk : (k, range) ∈ Core.integers)
    {s : String} {v : Value} (h : readInteger k range s = .ok v) :
    ∃ a, Plain k a ∧ v = .scalar k a := by
  obtain ⟨-, hlow, hhigh⟩ := Core.integers_spec hk
  unfold readInteger at h
  split at h
  case h_1 n hn =>
    cases h
    exact ⟨_, .int hk (Decimal.Range.contains_of_read hn hlow hhigh), rfl⟩
  case h_2 => cases h

theorem readFloat_plain {k : TypeKey} {f : Decimal.Format} (hk : (k, f) ∈ Core.floats)
    {s : String} {v : Value} (h : readFloat k f s = .ok v) : ∃ a, Plain k a ∧ v = .scalar k a := by
  obtain ⟨-, hf⟩ := Core.floats_spec hk
  unfold readFloat at h
  split at h
  case h_1 n hn =>
    cases h
    exact ⟨_, .bits hk (Decimal.Format.lt_of_read hf hn), rfl⟩
  case h_2 => cases h

/-- All standard parsers but the first two, which are for references and enumerations, give plain
values. -/
theorem standard_plain {p : Parser} (hp : p ∈ standard.drop 2) {t : Descriptor}
    (hh : p.handles t = true) {e : Env} {c : Context} {v : Value} (h : p.parse e c = .ok v) :
    ∃ a, Plain t.key a ∧ v = .scalar t.key a := by
  have hsimple {name : String} {k : TypeKey} {read : String → Except String Value}
      (hread : ∀ s v, read s = .ok v → ∃ a, Plain k a ∧ v = .scalar k a)
      (hh : (simple name k read).handles t = true) (h : (simple name k read).parse e c = .ok v) :
      ∃ a, Plain t.key a ∧ v = .scalar t.key a := by
    have hkey : t.key = k := of_decide_eq_true hh
    rw [simple_parse] at h
    rw [hkey]
    exact hread _ v h
  simp only [standard, List.drop_succ_cons, List.drop_zero, List.mem_cons, List.not_mem_nil,
    or_false] at hp
  rcases hp with rfl | rfl | rfl | rfl | rfl | rfl | rfl | rfl | rfl | rfl | rfl | rfl
  · have hkey : t.key = .node := of_decide_eq_true hh
    simp only [node] at h
    split at h
    · cases h
      rw [hkey]
      exact ⟨_, .node _, rfl⟩
    · cases h
  · have hkey : t.key = .typeKey := of_decide_eq_true hh
    simp only [typeName] at h
    split at h
    · cases h
      rw [hkey]
      exact ⟨_, .type _, rfl⟩
    · cases h
  · refine hsimple (fun s v h => ?_) hh h
    cases h
    exact ⟨_, .text _, rfl⟩
  · exact hsimple (fun _ _ => readBool_plain) hh h
  · exact hsimple (fun _ _ => readInteger_plain (by simp [Core.integers])) hh h
  · exact hsimple (fun _ _ => readInteger_plain (by simp [Core.integers])) hh h
  · exact hsimple (fun _ _ => readInteger_plain (by simp [Core.integers])) hh h
  · exact hsimple (fun _ _ => readInteger_plain (by simp [Core.integers])) hh h
  · exact hsimple (fun _ _ => readFloat_plain (by simp [Core.floats])) hh h
  · exact hsimple (fun _ _ => readFloat_plain (by simp [Core.floats])) hh h
  · exact hsimple (fun _ _ => readInteger_plain (by simp [Core.integers])) hh h
  · exact hsimple (fun _ _ => readInteger_plain (by simp [Core.integers])) hh h

section

variable {r : TypeTable} {T : Content} {v : Value} (hr : r.Sound T)

include hr

theorem plain_typed {k : TypeKey} {a : Atom} (h : Plain k a) : HasType r T (.scalar k a) k := by
  have hnamed : ∃ name, k = .named name := by
    cases h with
    | int hk => exact (Core.integers_spec hk).1
    | bits hk => exact (Core.floats_spec hk).1
    | _ => exact ⟨_, rfl⟩
  obtain ⟨name, rfl⟩ := hnamed
  exact .scalar (hr.plain _ _ h)

variable {e : Env} {c : Context} {t : Descriptor} (ht : e.types.get? t.key = some t)
  (hc : c.target = t.key) (he : e.types = r)

include ht hc he

theorem parseRef_typed (h : parseRef e c = .ok v) : HasType r T v t.key := by
  unfold parseRef at h
  dsimp only at h
  rw [hc, ht] at h
  split at h
  case h_1 target hshape =>
    have hkey : t.key = .ref target :=
      (hr.types t.key t (he ▸ ht)).of_shape (Option.some.inj hshape)
    split at h
    case h_1 => cases h
    case h_2 handle hfound =>
      split at h
      case isTrue hsub =>
        cases h
        rw [hkey]
        exact .ref (he ▸ hsub)
      case isFalse => cases h
  case h_2 => cases h

theorem parseVariant_typed (h : parseVariant e c = .ok v) : HasType r T v t.key := by
  unfold parseVariant at h
  dsimp only at h
  rw [hc, ht] at h
  dsimp only at h
  split at h
  case h_1 names hshape =>
    obtain ⟨⟨name, hkey⟩, hatoms⟩ := (hr.types t.key t (he ▸ ht)).of_shape hshape
    split at h
    case h_1 w hvariant =>
      cases h
      simp only [Descriptor.variant?, hshape] at hvariant
      obtain ⟨i, hi, rfl⟩ := Option.map_eq_some_iff.mp hvariant
      obtain ⟨hlt, -, -⟩ := List.findIdx?_eq_some_iff_getElem.mp hi
      have hatom := hatoms i hlt
      rw [hkey] at hatom ⊢
      exact .scalar hatom
    case h_2 => cases h
  case h_2 => cases h

/-- A standard parser gives a value of the type that it was asked for. -/
theorem standard_typed {p : Parser} (hp : p ∈ standard) (hh : p.handles t = true)
    (h : p.parse e c = .ok v) : HasType r T v t.key := by
  rcases List.mem_cons.mp hp with rfl | hp
  · exact parseRef_typed hr ht hc he h
  · rcases List.mem_cons.mp hp with rfl | hp
    · exact parseVariant_typed hr ht hc he h
    · obtain ⟨a, ha, rfl⟩ := standard_plain hp hh h
      exact plain_typed hr ha

end

end Parsers

end DefLoad
