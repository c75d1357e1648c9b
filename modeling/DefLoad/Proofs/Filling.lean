import DefLoad.Reading.Node

/-!
Filling a value from the children of a node, one child after the other: a class member by member, a
list item by item, a map entry by entry. What reading a node can come to is said once here.
-/

namespace DefLoad

/-- Induction on trees: a property of all children of a node is a property of the node. -/
theorem Node.induct {P : Node → Prop} (h : ∀ n, (∀ c ∈ n.children, P c) → P n) (n : Node) : P n := by
  obtain ⟨name, attrs, text, children⟩ := n
  refine h ⟨name, attrs, text, children⟩ fun c hc => ?_
  have hlt : sizeOf c < sizeOf children := List.sizeOf_lt_of_mem hc
  exact Node.induct h c
termination_by sizeOf n

namespace Reading

/-- What is filled, with the focus from which its children are read. -/
inductive Filling
  | class (trail : List String) (t : Descriptor)
  | list (l : ListFocus)
  | map (m : MapFocus)

namespace Filling

/-- The names from the def down to a child that is read next. An item goes by its place. -/
def childTrail (F : Filling) (v : Value) (c : Node) : List String :=
  match F with
  | .class trail _ => trail ++ [c.name]
  | .list l =>
    let index := Value.length l.focus.target.key v
    l.focus.trail ++ [s!"{c.name}[{index}]"]
  | .map m => m.focus.trail ++ [c.name]

/-- Reads one child into a value. -/
def add (s : Setting) (F : Filling) (v : Value) (c : Node) : Reported Value :=
  match F with
  | .class trail t => storeMember s trail t v c (readNode s c)
  | .list l => addItem s l v c (readNode s c)
  | .map m => addEntry s m v c (readNode s c)

def fill (s : Setting) (F : Filling) : List Node → Value → Reported Value
  | [], v => return v
  | c :: cs, v => do
    let v ← F.add s v c
    F.fill s cs v

theorem fill_append (s : Setting) (F : Filling) (cs cs' : List Node) (v : Value) :
    F.fill s (cs ++ cs') v = F.fill s cs v >>= F.fill s cs' := by
  induction cs generalizing v with
  | nil => simp [fill]
  | cons c cs ih => simp [fill, ih]

end Filling

theorem readMembers_eq_fill (s : Setting) (trail : List String) (t : Descriptor) (cs : List Node)
    (v : Value) : readMembers s trail t cs v = (Filling.class trail t).fill s cs v := by
  induction cs generalizing v with
  | nil => simp [readMembers, Filling.fill]
  | cons c cs ih => simp [readMembers, Filling.fill, Filling.add, ih]

theorem addItems_eq_fill (s : Setting) (l : ListFocus) (cs : List Node) (v : Value) :
    addItems s l cs v = (Filling.list l).fill s cs v := by
  induction cs generalizing v with
  | nil => simp [addItems, Filling.fill]
  | cons c cs ih => simp [addItems, Filling.fill, Filling.add, ih]

theorem addEntries_eq_fill (s : Setting) (m : MapFocus) (cs : List Node) (v : Value) :
    addEntries s m cs v = (Filling.map m).fill s cs v := by
  induction cs generalizing v with
  | nil => simp [addEntries, Filling.fill]
  | cons c cs ih => simp [addEntries, Filling.fill, Filling.add, ih]

/-- Reads a node, not marked as null, as a type that is not optional. -/
def readPlain (s : Setting) (n : Node) (f : Focus) (current : Option Value) : Reported Step := do
  let step ← match f.target.shape with
    | .list element =>
      readList s f n current element fun l xs => (Filling.list l).fill s n.children xs
    | .map key value =>
      readMap s f n current key value fun m xs => (Filling.map m).fill s n.children xs
    | _ =>
      match parserFor s.parsers f.target with
      | some p => readWith s f n current p
      | none =>
        readClass f n current fun v => (Filling.class f.trail f.target).fill s n.children v
  return closing s f n step

theorem readNode_eq (s : Setting) (n : Node) (f : Focus) (current : Option Value) :
    readNode s n f current =
      if n.flag "Null" = some true then return ⟨.null, current⟩
      else throughOptional s (readPlain s n) (s.types.size + 1) f current := by
  obtain ⟨name, attrs, text, children⟩ := n
  unfold readNode
  simp only [addItems_eq_fill, addEntries_eq_fill, readMembers_eq_fill]
  rfl

/-! Types that a node asks for. -/

/-- Findings about types only. -/
def OfTypes (ds : Diagnostics) : Prop := ∀ d ∈ ds, d.stage = .resolution

theorem ofTypes_nil : OfTypes [] := by simp [OfTypes]

theorem ofTypes_singleton (path message : String) :
    OfTypes [.error .resolution path message] := by
  simp [OfTypes, Diagnostic.error]

/-- The type under a key that a document names, with optional types stripped. -/
def Named (r : TypeTable) (k : TypeKey) : Prop :=
  ∃ name found, r.resolve name = some found ∧ k = r.stripOptional found

/-- The type under a key that an attribute of a node names. -/
def NamedBy (r : TypeTable) (n : Node) (attr : String) (k : TypeKey) : Prop :=
  ∃ name found, n.attr attr = some name ∧ r.resolve name = some found ∧ k = r.stripOptional found

theorem NamedBy.named {r : TypeTable} {n : Node} {attr : String} {k : TypeKey}
    (h : NamedBy r n attr k) : Named r k := by
  obtain ⟨name, found, -, hresolved, hk⟩ := h
  exact ⟨name, found, hresolved, hk⟩

theorem elementType_cases (s : Setting) (n : Node) (attr : String) (declared : TypeKey)
    (trail : List String) :
    (∃ message, elementType s n attr declared trail =
      ⟨none, [.error .resolution (pathOf trail) message]⟩) ∨
    ∃ k ds, elementType s n attr declared trail = ⟨some k, ds⟩ ∧ OfTypes ds ∧
      (k = declared ∨ s.types.fits k declared = true ∧ NamedBy s.types n attr k) := by
  unfold elementType
  cases ha : n.attr attr with
  | none => exact .inr ⟨declared, [], rfl, ofTypes_nil, .inl rfl⟩
  | some name =>
    dsimp only
    cases hr : s.types.resolve name with
    | none => exact .inr ⟨declared, _, rfl, ofTypes_singleton _ _, .inl rfl⟩
    | some found =>
      dsimp only
      split
      case isTrue hfits =>
        exact .inr ⟨_, [], rfl, ofTypes_nil, .inr ⟨hfits, name, found, ha, hr, rfl⟩⟩
      case isFalse => exact .inl ⟨_, rfl⟩

theorem wantedType_cases (s : Setting) (child : Node) (declared : Descriptor)
    (trail : List String) :
    (∃ message, wantedType s child declared trail =
      ⟨none, [.error .resolution (pathOf trail) message]⟩) ∨
    (∃ ds, wantedType s child declared trail = ⟨some declared, ds⟩ ∧ OfTypes ds) ∨
    ∃ k, wantedType s child declared trail = ⟨s.types.get? k, []⟩ ∧
      s.types.fits k declared.key = true ∧ NamedBy s.types child "Type" k := by
  unfold wantedType
  cases ha : child.attr "Type" with
  | none => exact .inr (.inl ⟨[], rfl, ofTypes_nil⟩)
  | some name =>
    dsimp only
    cases hr : s.types.resolve name with
    | none => exact .inr (.inl ⟨_, rfl, ofTypes_singleton _ _⟩)
    | some found =>
      dsimp only
      split
      case isTrue hfits => exact .inr (.inr ⟨_, rfl, hfits, name, found, ha, hr, rfl⟩)
      case isFalse => exact .inl ⟨_, rfl⟩

theorem wantedType_some {s : Setting} {child : Node} {declared target : Descriptor}
    {trail : List String} (h : (wantedType s child declared trail).value = some target) :
    target = declared ∨
      ∃ k, s.types.get? k = some target ∧ s.types.fits k declared.key = true ∧
        NamedBy s.types child "Type" k := by
  rcases wantedType_cases s child declared trail with
    ⟨message, hw⟩ | ⟨ds, hw, -⟩ | ⟨k, hw, hfits, hnamed⟩
  · rw [hw] at h
    cases h
  · rw [hw] at h
    exact .inl (Option.some.inj h).symm
  · rw [hw] at h
    exact .inr ⟨k, h, hfits, hnamed⟩

/-! Reading a node whose type is not optional. -/

/-- A value is read by filling it. -/
inductive Opens (s : Setting) (f : Focus) (n : Node) : Filling → Prop
  | class {ms : List Member} (hshape : f.target.shape = .class ms)
    (hparser : parserFor s.parsers f.target = none) : Opens s f n (.class f.trail f.target)
  | list {declared k : TypeKey} {element : Descriptor} (hshape : f.target.shape = .list declared)
    (hkey : (elementType s n "ElementType" declared f.trail).value = some k)
    (helement : s.types.get? k = some element) : Opens s f n (.list ⟨f, declared, element⟩)
  | map {declaredKey declaredValue k v : TypeKey} {key value : Descriptor}
    (hshape : f.target.shape = .map declaredKey declaredValue)
    (hkey : (elementType s n "KeyType" declaredKey f.trail).value = some k)
    (hvalue : (elementType s n "ElementType" declaredValue f.trail).value = some v)
    (hk : s.types.get? k = some key) (hv : s.types.get? v = some value) :
    Opens s f n (.map ⟨f, declaredKey, declaredValue, key, value, parserFor s.parsers key⟩)

/-- The value that is filled, and what is then left of the stored one. -/
inductive Starts (f : Focus) (n : Node) (current : Option Value) : Value → Option Value → Prop
  | stored {v : Value} (h : reusable f.target current = some v) : Starts f n current v none
  | fresh {v : Value} (hnone : reusable f.target current = none)
    (h : f.target.build (some (f.context n current)) = .ok v) : Starts f n current v current

/-- The words with which a message begins. -/
def BeginsWith (message words : String) : Prop := ∃ rest, message = words ++ rest

theorem BeginsWith.append {message words : String} (h : BeginsWith message words) (more : String) :
    BeginsWith (message ++ more) words := by
  obtain ⟨rest, rfl⟩ := h
  exact ⟨rest ++ more, String.append_assoc ..⟩

theorem beginsWith_append (words more : String) : BeginsWith (words ++ more) words := ⟨more, rfl⟩

/-- Of two beginnings of one message the shorter begins the longer. -/
theorem BeginsWith.clash {m a b : String} (h : BeginsWith m a) (h' : BeginsWith m b) :
    a.toList <+: b.toList ∨ b.toList <+: a.toList := by
  obtain ⟨x, rfl⟩ := h
  obtain ⟨y, hy⟩ := h'
  have hlists : a.toList ++ x.toList = b.toList ++ y.toList := by
    rw [← String.toList_append, hy, String.toList_append]
  have ha : a.toList <+: a.toList ++ x.toList := List.prefix_append _ _
  have hb : b.toList <+: a.toList ++ x.toList := hlists ▸ List.prefix_append _ _
  exact List.prefix_or_prefix_of_prefix ha hb

/-- Reading has failed with one last complaint at the place of the node. It is not about a value
that is of a wrong type. -/
inductive Fails (f : Focus) (current : Option Value) : Reported Step → Prop
  | ofTypes (ds : Diagnostics) (message : String) (h : OfTypes ds) :
    Fails f current ⟨⟨.noValue, current⟩, ds ++ [.error .resolution (pathOf f.trail) message]⟩
  | building (ds : Diagnostics) (message : String) (h : OfTypes ds) :
    Fails f current ⟨⟨.noValue, current⟩, ds ++ [.error .construction (pathOf f.trail) message]⟩
  | parsing (message : String) (h : BeginsWith message "cannot parse '") :
    Fails f current ⟨⟨.noValue, current⟩, [.error .conversion (pathOf f.trail) message]⟩
  | unhandled (message : String) (h : BeginsWith message "no parser handles ") :
    Fails f current ⟨⟨.noValue, current⟩, [.error .conversion (pathOf f.trail) message]⟩

/-- Reading a node as a type that is not optional fills a value, runs a parser, or fails. -/
inductive ReadsPlain (s : Setting) (n : Node) (f : Focus) (current : Option Value) :
    Reported Step → Prop
  | filled {F : Filling} {v : Value} {left : Option Value} {ds : Diagnostics}
    (hopens : Opens s f n F) (hstarts : Starts f n current v left) (hds : OfTypes ds) :
    ReadsPlain s n f current
      ⟨⟨.value (afterReading s (f.context n none) (F.fill s n.children v).value), left⟩,
        ds ++ (F.fill s n.children v).found⟩
  | parsed {p : Parser} {v : Value} (hp : parserFor s.parsers f.target = some p)
    (hv : p.parse s.env (f.context n current) = .ok v) :
    ReadsPlain s n f current ⟨⟨.value (afterReading s (f.context n none) v), current⟩, []⟩
  | failed {r : Reported Step} (h : Fails f current r) : ReadsPlain s n f current r

/-- The value to start from is filled. -/
theorem Starts.resume_eq {f : Focus} {n : Node} {current left : Option Value} {v : Value}
    (h : Starts f n current v left) (fill : Value → Reported Value) :
    resume f n current fill = ⟨⟨.value (fill v).value, left⟩, (fill v).found⟩ := by
  cases h with
  | stored hv =>
    simp only [resume, hv]
    exact Reported.ext rfl (List.append_nil _)
  | fresh hnone hv =>
    simp only [resume, hnone, hv]
    exact Reported.ext rfl (List.append_nil _)

theorem resume_cases (f : Focus) (n : Node) (current : Option Value)
    (fill : Value → Reported Value) :
    (∃ v left, Starts f n current v left ∧
      resume f n current fill = ⟨⟨.value (fill v).value, left⟩, (fill v).found⟩) ∨
    ∃ message, resume f n current fill =
      ⟨⟨.noValue, current⟩, [.error .construction (pathOf f.trail) message]⟩ := by
  cases hr : reusable f.target current with
  | some v =>
    have hstarts : Starts f n current v none := .stored hr
    exact .inl ⟨v, none, hstarts, hstarts.resume_eq fill⟩
  | none =>
    cases hb : f.target.build (some (f.context n current)) with
    | ok v =>
      have hstarts : Starts f n current v current := .fresh hr hb
      exact .inl ⟨v, current, hstarts, hstarts.resume_eq fill⟩
    | error e => exact .inr ⟨_, by simp only [resume, hr, hb]; rfl⟩

section

variable {s : Setting} {n : Node} {f : Focus} {current : Option Value}

/-- Once it is known what is filled, a value is filled or there is none to be filled. -/
theorem ReadsPlain.of_resume {F : Filling} {ds : Diagnostics} (hopens : Opens s f n F)
    (hds : OfTypes ds) :
    let step := resume f n current (F.fill s n.children)
    ReadsPlain s n f current ⟨closing s f n step.value, ds ++ step.found⟩ := by
  rcases resume_cases f n current (F.fill s n.children) with ⟨v, left, hstarts, hr⟩ | ⟨message, hr⟩
  · rw [hr]
    exact .filled hopens hstarts hds
  · rw [hr]
    exact .failed (.building ds message hds)

theorem readList_reads {declared : TypeKey} (hshape : f.target.shape = .list declared) :
    let step := readList s f n current declared fun l xs =>
      (Filling.list l).fill s n.children xs
    ReadsPlain s n f current ⟨closing s f n step.value, step.found⟩ := by
  unfold readList
  rcases elementType_cases s n "ElementType" declared f.trail with ⟨message, he⟩ | ⟨k, ds, he, hds, -⟩
  · rw [he]
    exact .failed (.ofTypes [] message ofTypes_nil)
  · have hkey : (elementType s n "ElementType" declared f.trail).value = some k := by rw [he]
    rw [he]
    simp only [Reported.bind_value, Reported.bind_found]
    cases hk : s.types.get? k with
    | none => exact .failed (.ofTypes ds _ hds)
    | some element => exact .of_resume (.list hshape hkey hk) hds

theorem readMap_reads {declaredKey declaredValue : TypeKey}
    (hshape : f.target.shape = .map declaredKey declaredValue) :
    let step := readMap s f n current declaredKey declaredValue fun m xs =>
      (Filling.map m).fill s n.children xs
    ReadsPlain s n f current ⟨closing s f n step.value, step.found⟩ := by
  unfold readMap
  rcases elementType_cases s n "KeyType" declaredKey f.trail with ⟨message, he⟩ | ⟨k, ds, he, hds, -⟩
  · rw [he]
    exact .failed (.ofTypes [] message ofTypes_nil)
  · have hkey : (elementType s n "KeyType" declaredKey f.trail).value = some k := by rw [he]
    rw [he]
    simp only [Reported.bind_value, Reported.bind_found]
    rcases elementType_cases s n "ElementType" declaredValue f.trail with
      ⟨message, he'⟩ | ⟨v, ds', he', hds', -⟩
    · rw [he']
      exact .failed (.ofTypes ds message hds)
    · have hvalue : (elementType s n "ElementType" declaredValue f.trail).value = some v := by
        rw [he']
      have hall : OfTypes (ds ++ ds') := by
        intro d hd
        rcases List.mem_append.mp hd with hd | hd
        · exact hds d hd
        · exact hds' d hd
      rw [he']
      simp only [← List.append_assoc]
      cases hk : s.types.get? k with
      | none => exact .failed (.ofTypes _ _ hall)
      | some key =>
        cases hv : s.types.get? v with
        | none => exact .failed (.ofTypes _ _ hall)
        | some value => exact .of_resume (.map hshape hkey hvalue hk hv) hall

theorem readWith_reads {p : Parser} (hp : parserFor s.parsers f.target = some p) :
    let step := readWith s f n current p
    ReadsPlain s n f current ⟨closing s f n step.value, step.found⟩ := by
  unfold readWith
  cases hv : p.parse s.env (f.context n current) with
  | ok v => exact .parsed hp hv
  | error e =>
    exact .failed (.parsing _ (((((beginsWith_append _ _).append _).append _).append _).append _))

theorem readClass_reads (hparser : parserFor s.parsers f.target = none) :
    let step := readClass f n current fun v =>
      (Filling.class f.trail f.target).fill s n.children v
    ReadsPlain s n f current ⟨closing s f n step.value, step.found⟩ := by
  unfold readClass
  split
  case h_1 ms hshape => exact .of_resume (.class hshape hparser) ofTypes_nil
  case h_2 => exact .failed (.ofTypes [] _ ofTypes_nil)
  case h_3 => exact .failed (.unhandled _ (beginsWith_append _ _))

theorem readPlain_reads (s : Setting) (n : Node) (f : Focus) (current : Option Value) :
    ReadsPlain s n f current (readPlain s n f current) := by
  have hclose (step : Reported Step) : step >>= (fun step => pure (closing s f n step)) =
      ⟨closing s f n step.value, step.found⟩ := Reported.ext rfl (List.append_nil _)
  unfold readPlain
  simp only [hclose]
  split
  case h_1 hshape => exact readList_reads hshape
  case h_2 hshape => exact readMap_reads hshape
  case h_3 =>
    split
    case h_1 p hp => exact readWith_reads hp
    case h_2 hp => exact readClass_reads hp

/-! Reading a node of any type. -/

/-- The stored value is of the optional type itself. -/
def Focus.matched (f : Focus) (current : Option Value) : Bool := (reusable f.target current).isSome

/-- The stored value of the type inside, and what is left of the stored value meanwhile. -/
def Focus.unwrapped (f : Focus) (current : Option Value) : Option Value :=
  (reusable f.target current).bind (Value.unwrap f.target.key)

/-- The focus on the type inside an optional type. -/
def Focus.inner (f : Focus) (t : Descriptor) : Focus := { f with target := t, declared := t }

/-- Reading through at most so many optional types. -/
inductive ReadsThrough (s : Setting) (n : Node) :
    Nat → Focus → Option Value → Reported Step → Prop
  | exhausted {f : Focus} {current : Option Value} :
    ReadsThrough s n 0 f current ⟨⟨.noValue, current⟩, []⟩
  | plain {k : Nat} {f : Focus} {current : Option Value} {r : Reported Step}
    (hplain : ∀ inner, f.target.shape ≠ .optional inner) (h : ReadsPlain s n f current r) :
    ReadsThrough s n (k + 1) f current r
  | unregistered {k : Nat} {f : Focus} {current : Option Value} {r : Reported Step}
    {inner : TypeKey} (hshape : f.target.shape = .optional inner)
    (hinner : s.types.get? inner = none) (h : Fails f current r) :
    ReadsThrough s n (k + 1) f current r
  | layer {k : Nat} {f : Focus} {current : Option Value} {r : Reported Step}
    {inner : TypeKey} {t : Descriptor} (hshape : f.target.shape = .optional inner)
    (hinner : s.types.get? inner = some t)
    (h : ReadsThrough s n k (f.inner t) (f.unwrapped current) r) :
    ReadsThrough s n (k + 1) f current (r >>= fun step =>
      rewrap f (f.matched current) step (if f.matched current then none else current))

theorem throughOptional_reads (s : Setting) (n : Node) (k : Nat) (f : Focus)
    (current : Option Value) :
    ReadsThrough s n k f current (throughOptional s (readPlain s n) k f current) := by
  induction k generalizing f current with
  | zero => exact .exhausted
  | succ k ih =>
    unfold throughOptional
    split
    case h_1 inner hshape =>
      cases hinner : s.types.get? inner with
      | none => exact .unregistered hshape hinner (.ofTypes [] _ ofTypes_nil)
      | some t => exact .layer hshape hinner (ih (f.inner t) (f.unwrapped current))
    case h_2 hplain => exact .plain hplain (readPlain_reads s n f current)

end

end Reading

end DefLoad
