import DefLoad.Arsenal.Plain
import DefLoad.Proofs.Layers

/-!
Converting a value to a declared type. What fits and what can be converted are found by two walks
along the declared type, which agree wherever types keep their word: an optional type wraps the
values of the type inside it, an abstract type takes the values of its stand-ins.
-/

namespace DefLoad

/-- The value of a type that comes to light when optional and abstract types around it are taken
off. -/
def Value.inside (k : TypeKey) : Value → Option Value
  | .present v => if TypeKey.optional v.type = k then some (.present v) else inside k v
  | .boxed t v => if t = k then some (.boxed t v) else inside k v
  | v => if v.type = k then some v else none

theorem Value.inside_type (v : Value) : v.inside v.type = some v := by
  cases v <;> simp [Value.inside, Value.type]

namespace TypeTable

/-- Values of the first type suit the second one: it is the same, or optional and they suit what is
inside, or abstract and the first type stands in for it. -/
inductive Suits (r : TypeTable) (source : TypeKey) : TypeKey → Prop
  | same : Suits r source source
  | optional {k inner : TypeKey} {t : Descriptor} (ht : r.get? k = some t)
    (hshape : t.shape = .optional inner) (h : Suits r source inner) : Suits r source k
  | standIn {k : TypeKey} {t : Descriptor} {is : List StandIn} {i : StandIn}
    (ht : r.get? k = some t) (hshape : t.shape = .abstract is) (hi : i ∈ is)
    (hkey : i.key = source) : Suits r source k

/-- A table whose types keep their word when they wrap a value or take it in. -/
structure Faithful (r : TypeTable) : Prop where
  wraps : ∀ k t inner, r.get? k = some t → t.shape = .optional inner →
    ∀ v, v.type = inner → ∃ w, Value.wrap k v = some w
  takes : ∀ k t is, r.get? k = some t → t.shape = .abstract is →
    ∀ i ∈ is, ∀ v, v.type = i.key → ∃ w, upcast k i v = .ok w

variable {r : TypeTable} {v w : Value} {k : TypeKey}

/-! What fits. -/

theorem suits_of_fitsWithin {source : TypeKey} {n : Nat} (h : r.fitsWithin source n k = true) :
    r.Suits source k := by
  induction n generalizing k with
  | zero =>
    have heq : source = k := by simpa [fitsWithin] using h
    rw [← heq]
    exact .same
  | succ n ih =>
    by_cases heq : source = k
    · rw [← heq]
      exact .same
    · rcases (fitsWithin_succ heq).mp h with ⟨t, inner, ht, hshape, hin⟩ | ⟨t, is, ht, hshape, hi⟩
      · exact .optional ht hshape (ih hin)
      · obtain ⟨i, hi, hkey⟩ := hi
        exact .standIn ht hshape hi hkey

theorem Suits.fits {source : TypeKey} (h : r.Suits source k) : r.fits source k = true := by
  induction h with
  | same => exact r.fits_self source
  | @optional k inner t ht hshape h ih =>
    by_cases heq : source = k
    · rw [heq]
      exact r.fits_self k
    · have hstep := (fitsWithin_succ heq).mpr (.inl ⟨t, inner, ht, hshape, ih⟩)
      exact fits_of_fitsWithin hstep
  | @standIn k t is i ht hshape hi hkey =>
    by_cases heq : source = k
    · rw [heq]
      exact r.fits_self k
    · have hstep : r.fitsWithin source 1 k = true :=
        (fitsWithin_succ heq).mpr (.inr ⟨t, is, ht, hshape, i, hi, hkey⟩)
      exact fits_of_fitsWithin hstep

theorem fits_iff_suits {source : TypeKey} : r.fits source k = true ↔ r.Suits source k :=
  ⟨suits_of_fitsWithin, Suits.fits⟩

/-- A type that stores its own values only; what is not registered does so too. -/
def IsConcrete (r : TypeTable) (k : TypeKey) : Prop :=
  ∀ t, r.get? k = some t → (∀ inner, t.shape ≠ .optional inner) ∧ ∀ is, t.shape ≠ .abstract is

theorem IsConcrete.eq_of_suits {source target : TypeKey} (ht : r.IsConcrete target)
    (h : r.Suits source target) : source = target := by
  cases h with
  | same => rfl
  | optional ht' hshape => exact absurd hshape ((ht _ ht').1 _)
  | standIn ht' hshape => exact absurd hshape ((ht _ ht').2 _)

/-- No abstract type takes values of optional types or of other abstract types. -/
def Concrete (r : TypeTable) : Prop :=
  ∀ k t is, r.get? k = some t → t.shape = .abstract is → ∀ i ∈ is, r.IsConcrete i.key

/-- Where stand-ins are concrete, what fits a type that fits another fits that one too. -/
theorem Concrete.fits_trans (hr : r.Concrete) {a b c : TypeKey} (hab : r.fits a b = true)
    (hbc : r.fits b c = true) : r.fits a c = true := by
  rw [fits_iff_suits] at hab hbc ⊢
  induction hbc with
  | same => exact hab
  | optional ht hshape _ ih => exact .optional ht hshape ih
  | standIn ht hshape hi hkey =>
    subst hkey
    rw [(hr _ _ _ ht hshape _ hi).eq_of_suits hab]
    exact .standIn ht hshape hi rfl

/-! What can be converted. -/

/-- The result of a conversion: of the wanted type, with the value in it. -/
structure Holds (v w : Value) (k : TypeKey) : Prop where
  type_eq : w.type = k
  inside : w.inside v.type = some v

theorem holds_self (v : Value) : Holds v v v.type := ⟨rfl, Value.inside_type v⟩

/-- Wrapping goes one layer around what holds the value. -/
theorem Holds.wrap {inner : TypeKey} (h : Holds v w inner) (hne : v.type ≠ k) {x : Value}
    (hx : Value.wrap k w = some x) : Holds v x k := by
  have htype := Value.type_wrap hx
  have hpresent : x = .present w := by
    unfold Value.wrap at hx
    split at hx
    · exact (Option.some.inj hx).symm
    · cases hx
  subst hpresent
  have houter : TypeKey.optional w.type ≠ v.type := by
    intro heq
    apply hne
    rw [← heq]
    exact htype
  refine ⟨htype, ?_⟩
  simp only [Value.inside, if_neg houter]
  exact h.inside

theorem Holds.upcast {i : StandIn} (hne : v.type ≠ k) (h : upcast k i v = .ok w) :
    Holds v w k := by
  have hboxed : w = .boxed k v := by
    unfold TypeTable.upcast at h
    split at h
    · exact (Except.ok.inj h).symm
    · cases h
  subst hboxed
  have houter : k ≠ v.type := Ne.symm hne
  refine ⟨rfl, ?_⟩
  simp only [Value.inside, if_neg houter]
  exact Value.inside_type v

/-- Each step of a conversion goes with the same step of the search for what fits. -/
theorem convertWithin_spec (hr : r.Faithful) (v : Value) (n : Nat) (k : TypeKey) :
    if r.fitsWithin v.type n k then ∃ w, r.convertWithin v n k = .ok w ∧ Holds v w k
    else r.convertWithin v n k = .error v := by
  induction n generalizing k with
  | zero =>
    by_cases heq : v.type = k
    · subst heq
      simpa [fitsWithin, convertWithin] using holds_self v
    · simp [fitsWithin, convertWithin, heq]
  | succ n ih =>
    by_cases heq : v.type = k
    · subst heq
      simpa [fitsWithin, convertWithin] using holds_self v
    · simp only [fitsWithin, convertWithin, if_neg heq]
      cases ht : r.get? k with
      | none => simp
      | some t =>
        simp only [Option.map_some]
        cases hshape : t.shape with
        | optional inner =>
          have hinner := ih inner
          dsimp only
          split at hinner
          case isTrue hfits =>
            obtain ⟨w, hw, hholds⟩ := hinner
            obtain ⟨x, hx⟩ := hr.wraps k t inner ht hshape w hholds.type_eq
            have hwrapped : wrapped k w = .ok x := by simp only [wrapped, hx]
            rw [if_pos hfits, hw]
            exact ⟨x, hwrapped, hholds.wrap heq hx⟩
          case isFalse hfits =>
            rw [if_neg hfits, hinner]
            rfl
        | abstract is =>
          dsimp only
          cases hfind : is.find? (·.key = v.type) with
          | none =>
            have hnone : is.any (·.key = v.type) = false := by
              simpa using hfind
            simp [hnone]
          | some i =>
            have hmem := List.mem_of_find?_eq_some hfind
            have hkey : i.key = v.type := by simpa using List.find?_some hfind
            have hany : is.any (·.key = v.type) = true :=
              List.any_eq_true.mpr ⟨i, hmem, by simpa using hkey⟩
            obtain ⟨w, hw⟩ := hr.takes k t is ht hshape i hmem v hkey.symm
            rw [if_pos hany]
            exact ⟨w, hw, Holds.upcast heq hw⟩
        | _ => simp

/-- A value can be converted to a type exactly when its own type fits, and fits exactly when it
suits. The result is of the wanted type and holds the value; a value that does not fit is handed
back. -/
theorem convert_iff_fits (hr : r.Faithful) (v : Value) (k : TypeKey) :
    ((∃ w, r.convert v k = .ok w) ↔ r.fits v.type k = true) ∧
      (r.fits v.type k = true ↔ r.Suits v.type k) ∧
      (∀ w, r.convert v k = .ok w → w.type = k ∧ w.inside v.type = some v) ∧
      ∀ w, r.convert v k = .error w → w = v := by
  have hspec := convertWithin_spec hr v (r.size + 1) k
  change if r.fits v.type k then ∃ w, r.convert v k = .ok w ∧ Holds v w k
    else r.convert v k = .error v at hspec
  refine ⟨?_, fits_iff_suits, ?_⟩
  · constructor
    · intro hconverts
      obtain ⟨w, hw⟩ := hconverts
      by_contra hfits
      rw [if_neg hfits, hw] at hspec
      cases hspec
    · intro hfits
      rw [if_pos hfits] at hspec
      obtain ⟨w, hw, -⟩ := hspec
      exact ⟨w, hw⟩
  · split at hspec
    case isTrue =>
      obtain ⟨x, hx, hholds⟩ := hspec
      constructor
      · intro w hw
        rw [hx] at hw
        cases hw
        exact ⟨hholds.type_eq, hholds.inside⟩
      · intro w hw
        rw [hx] at hw
        cases hw
    case isFalse =>
      constructor
      · intro w hw
        rw [hspec] at hw
        cases hw
      · intro w hw
        rw [hspec] at hw
        exact (Except.error.inj hw).symm

/-! A vial in an optional place for an optional drink. -/

section

open Arsenal (plainType)

def vial : TypeKey := .named "Vial"

def drink : TypeKey := .named "Drink"

def vialRack : TypeTable :=
  ⟨[(vial, plainType vial (.class [])), (drink, plainType drink (.abstract [⟨vial, vial⟩])),
    (.optional drink, plainType (.optional drink) (.optional drink)),
    (.optional (.optional drink),
      plainType (.optional (.optional drink)) (.optional (.optional drink)))], []⟩

theorem vialRack_faithful : vialRack.Faithful := by
  have htype {k : TypeKey} {t : Descriptor} (h : vialRack.get? k = some t) :
      (k, t) ∈ vialRack.types := Assoc.mem_of_get? h
  constructor
  case wraps =>
    intro k t inner h hshape v hv
    have hmem := htype h
    simp only [vialRack, List.mem_cons, Prod.mk.injEq, List.not_mem_nil, or_false] at hmem
    rcases hmem with ⟨rfl, rfl⟩ | ⟨rfl, rfl⟩ | ⟨rfl, rfl⟩ | ⟨rfl, rfl⟩ <;> cases hshape
    · exact ⟨.present v, by simp [Value.wrap, hv]⟩
    · exact ⟨.present v, by simp [Value.wrap, hv]⟩
  case takes =>
    intro k t is h hshape i hi v hv
    have hmem := htype h
    simp only [vialRack, List.mem_cons, Prod.mk.injEq, List.not_mem_nil, or_false] at hmem
    rcases hmem with ⟨rfl, rfl⟩ | ⟨rfl, rfl⟩ | ⟨rfl, rfl⟩ | ⟨rfl, rfl⟩ <;> cases hshape
    rw [List.mem_singleton.mp hi] at hv ⊢
    exact ⟨.boxed drink v, by simp [upcast, hv]⟩

/-- The rack takes a vial, which is found in it again, and hands a number back. -/
theorem vialRack_converts :
    (∃ w, vialRack.convert (.record vial []) (.optional (.optional drink)) = .ok w ∧
      w.type = .optional (.optional drink) ∧ w.inside vial = some (.record vial [])) ∧
    vialRack.convert (.int .i32 5) (.optional (.optional drink)) = .error (.int .i32 5) := by
  obtain ⟨hiff, -, hok, -⟩ := convert_iff_fits vialRack_faithful (.record vial [])
    (.optional (.optional drink))
  obtain ⟨hiff', -, -, herror⟩ := convert_iff_fits vialRack_faithful (.int .i32 5)
    (.optional (.optional drink))
  obtain ⟨w, hw⟩ := hiff.mpr (by decide)
  refine ⟨⟨w, hw, hok w hw⟩, ?_⟩
  cases hresult : vialRack.convert (.int .i32 5) (.optional (.optional drink)) with
  | ok x =>
    have hfits := hiff'.mp ⟨x, hresult⟩
    exact absurd hfits (by decide)
  | error x => rw [herror x hresult]

end

end TypeTable

end DefLoad
