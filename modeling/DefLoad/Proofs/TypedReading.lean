import DefLoad.Proofs.Mismatches
import DefLoad.Proofs.PlainValues

/-!
Reading a node gives a value of the type as which it is read, when filling values keeps their types:
what is stored is filled further only if it is of that type, parsers keep to it, and the layers of
an optional type fit around what is inside.
-/

namespace DefLoad.Reading

/-! Surroundings, values that are filled, and results that are of the types they should be. -/

section

variable (s : Setting) (T : Content)

/-- A focus on a type of the table, on behalf of values that are what their types say. -/
structure Focus.Typed (f : Focus) : Prop where
  target : s.types.get? f.target.key = some f.target
  owner : ∀ v, f.owner = some v → ∃ k, HasType s.types T v k
  slot : ∀ v, f.slot = .entry v → ∃ k, HasType s.types T v k

/-- The stored value, if there is one, is of a type. -/
def Stored (current : Option Value) : Prop := ∀ v, current = some v → ∃ k, HasType s.types T v k

/-- What is left of a stored value is of any type that the stored value is of. -/
def Remains (current left : Option Value) : Prop :=
  ∀ x, left = some x → ∃ c, current = some c ∧ ∀ k, HasType s.types T c k → HasType s.types T x k

/-- What was read is of the type that was asked for. -/
structure StepTyped (f : Focus) (current : Option Value) (step : Step) : Prop where
  outcome : ∀ v, step.outcome = .value v → HasType s.types T v f.target.key
  left : Remains s T current step.left

structure ReadTyped (n : Node) (f : Focus) (current : Option Value) (r : Reported Step) : Prop where
  step : StepTyped s T f current r.value
  clean : Clean s.types n r.found

/-- The type of the value that is filled. -/
def Filling.target : Filling → Descriptor
  | .class _ t => t
  | .list l => l.focus.target
  | .map m => m.focus.target

/-- The types as which the children of a node are read fit the declared types of the parts, and are
these unless the node names others. -/
inductive Filling.Sound (n : Node) : Filling → Prop
  | class {trail : List String} {t : Descriptor} (ht : s.types.get? t.key = some t) :
    Sound n (.class trail t)
  | list {l : ListFocus} (hkey : l.focus.target.key = .list l.declared)
    (helement : s.types.get? l.element.key = some l.element)
    (hfits : s.types.fits l.element.key l.declared = true)
    (hnamed : l.element.key = l.declared ∨ NamedBy s.types n "ElementType" l.element.key) :
    Sound n (.list l)
  | map {m : MapFocus} {kind : MapKind}
    (hkey : m.focus.target.key = .map kind m.declaredKey m.declaredValue)
    (hk : s.types.get? m.key.key = some m.key) (hv : s.types.get? m.value.key = some m.value)
    (hfitsKey : s.types.fits m.key.key m.declaredKey = true)
    (hfitsValue : s.types.fits m.value.key m.declaredValue = true)
    (hnamed : m.value.key = m.declaredValue ∨ NamedBy s.types n "ElementType" m.value.key)
    (hparser : m.keyParser = parserFor s.parsers m.key) : Sound n (.map m)

/-- What is filled from the children of a node stays of its type. -/
structure FillTyped (n : Node) (F : Filling) (r : Reported Value) : Prop where
  value : HasType s.types T r.value F.target.key
  clean : Clean s.types n r.found

end

section

variable {s : Setting} {T : Content} {n : Node} {f : Focus} {F : Filling} {d : Demand}
  {current left : Option Value} {v : Value} {r : Reported Step}

theorem Focus.Typed.context (hf : f.Typed s T) (hcurrent : Stored s T current) (n : Node) :
    (f.context n current).Typed s.types T := ⟨hcurrent, hf.owner, hf.slot⟩

theorem stored_none : Stored s T none := by
  intro v h
  cases h

theorem remains_self : Remains s T current current := by
  intro x hx
  exact ⟨x, hx, fun k hk => hk⟩

theorem remains_none : Remains s T current none := by
  intro x hx
  cases hx

theorem stepTyped_value (hv : HasType s.types T v f.target.key) (hleft : Remains s T current left) :
    StepTyped s T f current ⟨.value v, left⟩ := by
  refine ⟨fun w hw => ?_, hleft⟩
  cases hw
  exact hv

theorem stepTyped_null (hleft : Remains s T current left) :
    StepTyped s T f current ⟨.null, left⟩ := by
  refine ⟨fun w hw => ?_, hleft⟩
  cases hw

theorem stepTyped_noValue (hleft : Remains s T current left) :
    StepTyped s T f current ⟨.noValue, left⟩ := by
  refine ⟨fun w hw => ?_, hleft⟩
  cases hw

theorem Fails.typed (h : Fails f current r) : ReadTyped s T n f current r := by
  have hvalue : r.value = ⟨.noValue, current⟩ := by cases h <;> rfl
  refine ⟨?_, h.clean⟩
  rw [hvalue]
  exact stepTyped_noValue remains_self

/-- A stored value of the type that is read can be filled further. -/
theorem reusable_typed (hcurrent : Stored s T current) (h : reusable f.target current = some v) :
    HasType s.types T v f.target.key := by
  obtain ⟨rfl, htype⟩ := reusable_eq_some.mp h
  obtain ⟨k, hk⟩ := hcurrent v rfl
  rw [← htype, hk.type_eq]
  exact hk

theorem unwrapped_typed {inner : TypeKey} (hkey : f.target.key = .optional inner)
    (hcurrent : Stored s T current) (h : f.unwrapped current = some v) :
    HasType s.types T v inner := by
  obtain ⟨c, hc, hunwrap⟩ := Option.bind_eq_some_iff.mp h
  exact (reusable_typed hcurrent hc).unwrap hunwrap hkey

/-- What is left inside, or nothing, is what was there with its layer around it again. -/
theorem remains_wrapped {inner : TypeKey} (hkey : f.target.key = .optional inner)
    (hcurrent : Stored s T current) (hmatched : f.matched current = true)
    (hleft : Remains s T (f.unwrapped current) left) :
    Remains s T current ((left.bind (Value.wrap f.target.key)).or (Value.none? f.target.key)) := by
  intro x hx
  obtain ⟨c, hc⟩ := Option.isSome_iff_exists.mp hmatched
  obtain ⟨rfl, htype⟩ := reusable_eq_some.mp hc
  refine ⟨c, rfl, fun k hk => ?_⟩
  have hk' : k = .optional inner := by rw [← hk.type_eq, htype, hkey]
  subst hk'
  rcases Option.or_eq_some_iff.mp hx with hwrap | ⟨-, hnone⟩
  · obtain ⟨y, hy, hwrap⟩ := Option.bind_eq_some_iff.mp hwrap
    obtain ⟨z, hz, hyz⟩ := hleft y hy
    have hyt := hyz inner (unwrapped_typed hkey hcurrent hz)
    rw [hkey, hyt.wrap] at hwrap
    cases hwrap
    exact .present hyt
  · rw [hkey] at hnone
    cases hnone
    exact .absent

/-- Putting a layer back keeps types, so what was read inside fits. -/
theorem rewrap_typed {inner : TypeKey} {t : Descriptor} {step : Step}
    (hkey : f.target.key = .optional inner) (ht : t.key = inner) (hcurrent : Stored s T current)
    (hinside : StepTyped s T (f.inner t) (f.unwrapped current) step) :
    ReadTyped s T n f current (rewrap f (f.matched current) step
      (if f.matched current then none else current)) := by
  have hleft : Remains s T current (if f.matched current then none else current) := by
    split
    · exact remains_none
    · exact remains_self
  unfold rewrap
  cases ho : step.outcome with
  | value v =>
    have hv : HasType s.types T v inner := ht ▸ hinside.outcome v ho
    have hwrap : Value.wrap f.target.key v = some (.present v) := by
      rw [hkey]
      exact hv.wrap
    simp only [hwrap]
    refine ⟨stepTyped_value ?_ hleft, clean_nil⟩
    rw [hkey]
    exact .present hv
  | null => exact ⟨stepTyped_null hleft, clean_nil⟩
  | noValue =>
    dsimp only
    split
    case isTrue hmatched =>
      exact ⟨stepTyped_noValue (remains_wrapped hkey hcurrent hmatched hinside.left), clean_nil⟩
    case isFalse => exact ⟨stepTyped_noValue remains_self, clean_nil⟩

section

variable (hr : s.types.Sound T)

include hr

/-! The types as which nodes are read. -/

theorem wantedType_fits {child : Node} {declared target : Descriptor} {trail : List String}
    (hd : s.types.get? declared.key = some declared)
    (h : (wantedType s child declared trail).value = some target) :
    s.types.get? target.key = some target ∧ s.types.fits target.key declared.key = true ∧
      (target.key = declared.key ∨ NamedBy s.types child "Type" target.key) := by
  rcases wantedType_some h with rfl | ⟨k, hk, hfits, hnamed⟩
  · exact ⟨hd, s.types.fits_self _, .inl rfl⟩
  · rw [hr.key k target hk]
    exact ⟨hk, hfits, .inr hnamed⟩

omit hr in
theorem elementType_fits {attr : String} {declared k : TypeKey} {trail : List String}
    (h : (elementType s n attr declared trail).value = some k) :
    s.types.fits k declared = true ∧ (k = declared ∨ NamedBy s.types n attr k) := by
  rcases elementType_cases s n attr declared trail with ⟨message, he⟩ | ⟨j, ds, he, -, hj⟩
  · rw [he] at h
    cases h
  · rw [he] at h
    cases h
    rcases hj with rfl | ⟨hfits, hnamed⟩
    · exact ⟨s.types.fits_self _, .inl rfl⟩
    · exact ⟨hfits, .inr hnamed⟩

theorem Opens.sound (h : Opens s f n F) (hf : f.Typed s T) :
    F.Sound s n ∧ F.target = f.target := by
  have hsound := hr.types _ _ hf.target
  cases h with
  | «class» hshape hparser => exact ⟨.class hf.target, rfl⟩
  | @list declared k element hshape hkey helement =>
    have hk := hr.key k element helement
    obtain ⟨hfits, hnamed⟩ := elementType_fits hkey
    exact ⟨.list (hsound.of_shape hshape) (by rwa [hk]) (by rwa [hk]) (by rwa [hk]), rfl⟩
  | @map declaredKey declaredValue k w key value hshape hkey hvalue hk hv =>
    obtain ⟨kind, hmap⟩ := hsound.of_shape hshape
    have hkk := hr.key k key hk
    have hvk := hr.key w value hv
    obtain ⟨hfits, hnamed⟩ := elementType_fits hvalue
    refine ⟨.map hmap (by rwa [hkk]) (by rwa [hvk]) ?_ (by rwa [hvk]) (by rwa [hvk]) rfl, rfl⟩
    rw [hkk]
    exact (elementType_fits hkey).1

theorem Starts.typed (h : Starts f n current v left) (hf : f.Typed s T)
    (hcurrent : Stored s T current) :
    HasType s.types T v f.target.key ∧ Remains s T current left := by
  cases h with
  | stored hv => exact ⟨reusable_typed hcurrent hv, remains_none⟩
  | fresh hnone hv =>
    refine ⟨(hr.types _ _ hf.target).build _ v ?_ hv, remains_self⟩
    intro context hcontext
    cases hcontext
    exact hf.context hcurrent n

theorem afterReading_typed {c : Context} {k : TypeKey} (hc : c.Typed s.types T)
    (hv : HasType s.types T v k) : HasType s.types T (afterReading s c v) k := by
  unfold afterReading
  rw [hv.type_eq]
  cases ht : s.types.get? k with
  | none => exact hv
  | some t =>
    cases hhook : t.postConstruct with
    | none => simpa [hhook] using hv
    | some hook =>
      have hkey := hr.key k t ht
      have htyped := (hr.types k t ht).hook hook hhook c v hc (by rwa [hkey])
      rw [hkey] at htyped
      simpa [hhook] using htyped

/-! Reading a node, when filling keeps types. -/

theorem ReadsPlain.typed (hp : s.parsers ⊆ Parsers.standard) (h : ReadsPlain s n f current r)
    (hf : f.Typed s T) (hcurrent : Stored s T current)
    (hfill : ∀ F v, F.Sound s n → HasType s.types T v F.target.key →
      FillTyped s T n F (F.fill s n.children v)) : ReadTyped s T n f current r := by
  have hcontext : (f.context n none).Typed s.types T := hf.context stored_none n
  cases h with
  | @filled F v left ds hopens hstarts hds =>
    obtain ⟨hsound, htarget⟩ := hopens.sound hr hf
    obtain ⟨hv, hleft⟩ := hstarts.typed hr hf hcurrent
    have hfilled := hfill F v hsound (by rwa [htarget])
    refine ⟨stepTyped_value ?_ hleft, hds.clean.append hfilled.clean⟩
    have hvalue := hfilled.value
    rw [htarget] at hvalue
    exact afterReading_typed hr hcontext hvalue
  | @parsed p v hparser hv =>
    obtain ⟨hmem, hhandles⟩ := parserFor_spec hparser
    have htyped := Parsers.standard_typed hr hf.target rfl rfl (hp hmem) hhandles hv
    exact ⟨stepTyped_value (afterReading_typed hr hcontext htyped) remains_self, clean_nil⟩
  | failed h => exact h.typed

theorem ReadsThrough.typed (hp : s.parsers ⊆ Parsers.standard) {m : Nat}
    (h : ReadsThrough s n m f current r) (hf : f.Typed s T) (hcurrent : Stored s T current)
    (hfill : ∀ F v, F.Sound s n → HasType s.types T v F.target.key →
      FillTyped s T n F (F.fill s n.children v)) : ReadTyped s T n f current r := by
  induction h with
  | exhausted => exact ⟨stepTyped_noValue remains_self, clean_nil⟩
  | plain hplain h => exact h.typed hr hp hf hcurrent hfill
  | unregistered hshape hinner h => exact h.typed
  | @layer m f current r inner t hshape hinner h ih =>
    have hkey : f.target.key = .optional inner := (hr.types _ _ hf.target).of_shape hshape
    have ht : t.key = inner := hr.key inner t hinner
    have hf' : (f.inner t).Typed s T := ⟨by rwa [Focus.inner, ht], hf.owner, hf.slot⟩
    have hstored : Stored s T (f.unwrapped current) :=
      fun x hx => ⟨inner, unwrapped_typed hkey hcurrent hx⟩
    have hinside := ih hf' hstored
    have hrewrap := rewrap_typed (n := n) hkey ht hcurrent hinside.step
    exact ⟨hrewrap.step, hinside.clean.append hrewrap.clean⟩

end

end

end DefLoad.Reading
