import DefLoad.Parsers.Standard
import DefLoad.Reading.Node

/-!
What a load sees of the owner of a value: only the code that a program brings along can look at it,
and only while a member of that very owner is read.
-/

namespace DefLoad

namespace Parsers

theorem parseRef_congr (e : Env) {c c' : Context} (htarget : c'.target = c.target)
    (htext : c'.text = c.text) : parseRef e c' = parseRef e c := by
  unfold parseRef
  rw [htarget, htext]

theorem parseVariant_congr (e : Env) {c c' : Context} (htarget : c'.target = c.target)
    (htext : c'.text = c.text) : parseVariant e c' = parseVariant e c := by
  unfold parseVariant
  rw [htarget, htext]

/-- Of a context the standard parsers see the node, the text and the target. -/
theorem standard_congr {p : Parser} (hp : p ∈ standard) (e : Env) {c c' : Context}
    (hnode : c'.node = c.node) (htext : c'.text = c.text) (htarget : c'.target = c.target) :
    p.parse e c' = p.parse e c := by
  have hsimple (name : String) (k : TypeKey) (read : String → Except String Value) :
      (simple name k read).parse e c' = (simple name k read).parse e c := by
    unfold simple
    dsimp only
    rw [htext]
  have hinteger (k : TypeKey) (range : Decimal.Range) :
      (integer k range).parse e c' = (integer k range).parse e c := hsimple _ _ _
  have hfloat (k : TypeKey) (f : Decimal.Format) :
      (float k f).parse e c' = (float k f).parse e c := hsimple _ _ _
  simp only [standard, List.mem_cons, List.not_mem_nil, or_false] at hp
  rcases hp with rfl | rfl | rfl | rfl | rfl | rfl | rfl | rfl | rfl | rfl | rfl | rfl | rfl | rfl
  · exact parseRef_congr e htarget htext
  · exact parseVariant_congr e htarget htext
  · unfold node
    dsimp only
    rw [hnode]
  · unfold typeName
    dsimp only
    rw [htext]
  · exact hsimple _ _ _
  · exact hsimple _ _ _
  · exact hinteger _ _
  · exact hinteger _ _
  · exact hinteger _ _
  · exact hinteger _ _
  · exact hfloat _ _
  · exact hfloat _ _
  · exact hinteger _ _
  · exact hinteger _ _

end Parsers

/-- The same context with another owner. -/
def Context.ownedBy (c : Context) (o : Value) : Context := { c with owner := some o }

namespace Reading

def Focus.ownedBy (f : Focus) (o : Value) : Focus := { f with owner := some o }

/-- What a program brings along, parsers and hooks, does not tell related owners apart. -/
structure BlindTo (R : Value → Value → Prop) (s : Setting) : Prop where
  parse : ∀ p ∈ s.parsers, p ∈ Parsers.standard ∨
    ∀ (c : Context) o o', R o o' → p.parse s.env (c.ownedBy o) = p.parse s.env (c.ownedBy o')
  preConstruct : ∀ k d hook, s.types.get? k = some d → d.preConstruct = some hook →
    ∀ (c : Context) o o' v, R o o' → hook (some (c.ownedBy o)) v = hook (some (c.ownedBy o')) v
  postConstruct : ∀ k d hook, s.types.get? k = some d → d.postConstruct = some hook →
    ∀ (c : Context) o o' v, R o o' → hook (c.ownedBy o) v = hook (c.ownedBy o') v

/-- Where related owners are the same, nothing can tell them apart. -/
theorem BlindTo.of_eq {R : Value → Value → Prop} (h : ∀ o o', R o o' → o = o') (s : Setting) :
    BlindTo R s where
  parse _ _ := .inr fun c o o' hr => by rw [h o o' hr]
  preConstruct _ _ _ _ _ c o o' v hr := by rw [h o o' hr]
  postConstruct _ _ _ _ _ c o o' v hr := by rw [h o o' hr]

/-- The standard parsers see no owner at all. -/
theorem BlindTo.of_standard {s : Setting} (hp : s.parsers ⊆ Parsers.standard)
    (hhooks : ∀ k d, s.types.get? k = some d → d.preConstruct = none ∧ d.postConstruct = none)
    (R : Value → Value → Prop) : BlindTo R s where
  parse _ h := .inl (hp h)
  preConstruct k d hook hd h := by
    rw [(hhooks k d hd).1] at h
    cases h
  postConstruct k d hook hd h := by
    rw [(hhooks k d hd).2] at h
    cases h

/-- The types as which values are read come from the table. -/
def Registered (s : Setting) (t : Descriptor) : Prop := ∃ k, s.types.get? k = some t

section

variable {s : Setting} {o o' : Value}

/-! Lists and maps own their parts, so filling them does not depend on who owns them. -/

theorem addItems_ownedBy (f : Focus) (declared : TypeKey) (element : Descriptor) (cs : List Node)
    (xs : Value) :
    addItems s ⟨f.ownedBy o, declared, element⟩ cs xs =
      addItems s ⟨f.ownedBy o', declared, element⟩ cs xs := by
  induction cs generalizing xs with
  | nil => rfl
  | cons c cs ih =>
    have hitem : addItem s ⟨f.ownedBy o, declared, element⟩ xs c (readNode s c) =
        addItem s ⟨f.ownedBy o', declared, element⟩ xs c (readNode s c) := rfl
    simp only [addItems, hitem, ih]

theorem addEntries_ownedBy (f : Focus) (declaredKey declaredValue : TypeKey)
    (key value : Descriptor) (keyParser : Option Parser) (cs : List Node) (xs : Value) :
    addEntries s ⟨f.ownedBy o, declaredKey, declaredValue, key, value, keyParser⟩ cs xs =
      addEntries s ⟨f.ownedBy o', declaredKey, declaredValue, key, value, keyParser⟩ cs xs := by
  induction cs generalizing xs with
  | nil => rfl
  | cons c cs ih =>
    have hentry : addEntry s ⟨f.ownedBy o, declaredKey, declaredValue, key, value, keyParser⟩ xs c
          (readNode s c) =
        addEntry s ⟨f.ownedBy o', declaredKey, declaredValue, key, value, keyParser⟩ xs c
          (readNode s c) := rfl
    simp only [addEntries, hentry, ih]

variable {R : Value → Value → Prop} (hs : BlindTo R s) (h : R o o')

include hs h

theorem parse_ownedBy {p : Parser} (hp : p ∈ s.parsers) (c : Context) :
    p.parse s.env (c.ownedBy o) = p.parse s.env (c.ownedBy o') := by
  rcases hs.parse p hp with hstandard | hblind
  · exact Parsers.standard_congr hstandard s.env rfl rfl rfl
  · exact hblind c o o' h

theorem afterReading_ownedBy (c : Context) (v : Value) :
    afterReading s (c.ownedBy o) v = afterReading s (c.ownedBy o') v := by
  unfold afterReading
  cases ht : s.types.get? v.type with
  | none => rfl
  | some d =>
    cases hh : d.postConstruct with
    | none => simp only [Option.bind_some, hh]
    | some hook =>
      simp only [Option.bind_some, hh]
      exact hs.postConstruct v.type d hook ht hh c o o' v h

theorem build_ownedBy {d : Descriptor} (hd : Registered s d) (c : Context) :
    d.build (some (c.ownedBy o)) = d.build (some (c.ownedBy o')) := by
  obtain ⟨k, hk⟩ := hd
  unfold Descriptor.build
  cases hh : d.preConstruct with
  | none => rfl
  | some hook =>
    have heq (v : Value) := hs.preConstruct k d hook hk hh c o o' v h
    simp only [heq]

theorem resume_ownedBy {f : Focus} (hf : Registered s f.target) (n : Node)
    (current : Option Value) (fill : Value → Reported Value) :
    resume (f.ownedBy o) n current fill = resume (f.ownedBy o') n current fill := by
  have hbuild : f.target.build (some ((f.ownedBy o).context n current)) =
      f.target.build (some ((f.ownedBy o').context n current)) :=
    build_ownedBy hs h hf (f.context n current)
  unfold resume
  simp only [Focus.ownedBy] at hbuild ⊢
  rw [hbuild]

theorem readList_ownedBy {f : Focus} (hf : Registered s f.target) (n : Node)
    (current : Option Value) (declared : TypeKey) (cs : List Node) :
    readList s (f.ownedBy o) n current declared (fun l xs => addItems s l cs xs) =
      readList s (f.ownedBy o') n current declared (fun l xs => addItems s l cs xs) := by
  have hresume (element : Descriptor) :
      resume (f.ownedBy o) n current (addItems s ⟨f.ownedBy o, declared, element⟩ cs) =
        resume (f.ownedBy o') n current (addItems s ⟨f.ownedBy o', declared, element⟩ cs) := by
    rw [resume_ownedBy hs h hf]
    congr 1
    funext xs
    exact addItems_ownedBy f declared element cs xs
  unfold readList
  congr 1
  funext element
  cases element with
  | none => rfl
  | some k =>
    dsimp only
    cases s.types.get? k with
    | none => rfl
    | some element => exact hresume element

theorem readMap_ownedBy {f : Focus} (hf : Registered s f.target) (n : Node)
    (current : Option Value) (declaredKey declaredValue : TypeKey) (cs : List Node) :
    readMap s (f.ownedBy o) n current declaredKey declaredValue (fun m xs => addEntries s m cs xs) =
      readMap s (f.ownedBy o') n current declaredKey declaredValue
        (fun m xs => addEntries s m cs xs) := by
  have hresume (key value : Descriptor) (p : Option Parser) :
      resume (f.ownedBy o) n current
          (addEntries s ⟨f.ownedBy o, declaredKey, declaredValue, key, value, p⟩ cs) =
        resume (f.ownedBy o') n current
          (addEntries s ⟨f.ownedBy o', declaredKey, declaredValue, key, value, p⟩ cs) := by
    rw [resume_ownedBy hs h hf]
    congr 1
    funext xs
    exact addEntries_ownedBy f declaredKey declaredValue key value p cs xs
  unfold readMap
  congr 1
  funext key
  cases key with
  | none => rfl
  | some k =>
    dsimp only
    congr 1
    funext value
    cases value with
    | none => rfl
    | some v =>
      dsimp only
      cases s.types.get? k with
      | none => rfl
      | some key =>
        cases s.types.get? v with
        | none => rfl
        | some value => exact hresume key value _

theorem readWith_ownedBy {p : Parser} (hp : p ∈ s.parsers) (f : Focus) (n : Node)
    (current : Option Value) :
    readWith s (f.ownedBy o) n current p = readWith s (f.ownedBy o') n current p := by
  have hparse : p.parse s.env ((f.ownedBy o).context n current) =
      p.parse s.env ((f.ownedBy o').context n current) :=
    parse_ownedBy hs h hp (f.context n current)
  unfold readWith
  rw [hparse]
  rfl

theorem readClass_ownedBy {f : Focus} (hf : Registered s f.target) (n : Node)
    (current : Option Value) (fill : Value → Reported Value) :
    readClass (f.ownedBy o) n current fill = readClass (f.ownedBy o') n current fill := by
  have hresume := resume_ownedBy hs h hf n current fill
  unfold readClass
  simp only [Focus.ownedBy] at hresume ⊢
  rw [hresume]

theorem closing_ownedBy (f : Focus) (n : Node) (step : Step) :
    closing s (f.ownedBy o) n step = closing s (f.ownedBy o') n step := by
  obtain ⟨outcome, left⟩ := step
  cases outcome with
  | noValue => rfl
  | null => rfl
  | value v =>
    have hhook : afterReading s ((f.ownedBy o).context n none) v =
        afterReading s ((f.ownedBy o').context n none) v :=
      afterReading_ownedBy hs h (f.context n none) v
    simp only [closing, hhook]

end

/-- Stripping optional types hands the owner through. -/
theorem throughOptional_ownedBy {s : Setting} {o o' : Value}
    {inside : Focus → Option Value → Reported Step}
    (hinside : ∀ (f : Focus) current, Registered s f.target →
      inside (f.ownedBy o) current = inside (f.ownedBy o') current)
    (n : Nat) {f : Focus} (hf : Registered s f.target) (current : Option Value) :
    throughOptional s inside n (f.ownedBy o) current =
      throughOptional s inside n (f.ownedBy o') current := by
  induction n generalizing f current with
  | zero => rfl
  | succ n ih =>
    have hi := hinside f current hf
    unfold throughOptional
    simp only [Focus.ownedBy] at ih hi ⊢
    cases hshape : f.target.shape with
    | optional inner =>
      dsimp only
      cases ht : s.types.get? inner with
      | none => rfl
      | some t =>
        dsimp only
        rw [ih (f := { f with target := t, declared := t }) ⟨inner, ht⟩]
        rfl
    | _ => exact hi

/-- A member is read alike for owners that are not told apart. -/
theorem readNode_ownedBy {R : Value → Value → Prop} {s : Setting} {o o' : Value}
    (hs : BlindTo R s) (h : R o o') (n : Node) {f : Focus} (hf : Registered s f.target)
    (current : Option Value) :
    readNode s n (f.ownedBy o) current = readNode s n (f.ownedBy o') current := by
  obtain ⟨name, attrs, text, children⟩ := n
  unfold readNode
  dsimp only
  split
  · rfl
  · apply throughOptional_ownedBy _ _ hf
    intro f current hf
    have htarget (o : Value) : (f.ownedBy o).target = f.target := rfl
    have htrail (o : Value) : (f.ownedBy o).trail = f.trail := rfl
    simp only [htarget, htrail, closing_ownedBy hs h]
    cases f.target.shape with
    | list element =>
      dsimp only
      rw [readList_ownedBy hs h hf]
    | map key value =>
      dsimp only
      rw [readMap_ownedBy hs h hf]
    | _ =>
      cases hp : parserFor s.parsers f.target with
      | none =>
        simp only
        rw [readClass_ownedBy hs h hf]
      | some p =>
        simp only
        rw [readWith_ownedBy hs h (List.mem_of_find?_eq_some hp)]

end Reading

end DefLoad
