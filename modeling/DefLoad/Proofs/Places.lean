import DefLoad.Proofs.Accounting

/-!
What is read from a node does not depend on the place under which it is complained about.
-/

namespace DefLoad

theorem Reported.value_bind_congr {α β : Type} {x y : Reported α} {f g : α → Reported β}
    (h : x.value = y.value) (hf : ∀ a, (f a).value = (g a).value) :
    (x >>= f).value = (y >>= g).value := by
  rw [bind_value, bind_value, h, hf]

namespace Reading

/-- The same focus at another place. -/
def Focus.moved (f : Focus) (trail : List String) : Focus := { f with trail := trail }

def Filling.moved (F : Filling) (trail : List String) : Filling :=
  match F with
  | .class _ t => .class trail t
  | .list l => .list { l with focus := l.focus.moved trail }
  | .map m => .map { m with focus := m.focus.moved trail }

variable {s : Setting} {n c : Node} {f : Focus} {current : Option Value}

theorem elementType_moved (s : Setting) (n : Node) (attr : String) (declared : TypeKey)
    (trail trail' : List String) :
    (elementType s n attr declared trail').value = (elementType s n attr declared trail).value := by
  unfold elementType
  cases n.attr attr with
  | none => rfl
  | some name =>
    dsimp only
    cases s.types.resolve name with
    | none => rfl
    | some found =>
      dsimp only
      split <;> rfl

theorem wantedType_moved (s : Setting) (child : Node) (declared : Descriptor)
    (trail trail' : List String) :
    (wantedType s child declared trail').value = (wantedType s child declared trail).value := by
  unfold wantedType
  cases child.attr "Type" with
  | none => rfl
  | some name =>
    dsimp only
    cases s.types.resolve name with
    | none => rfl
    | some found =>
      dsimp only
      split <;> rfl

theorem place_moved (s : Setting) (t : Descriptor) (child : Node) (trail trail' : List String) :
    (place s trail' t child).value = (place s trail t child).value := by
  apply Option.ext
  intro p
  rw [place_eq_some, place_eq_some, wantedType_moved s child p.declared trail trail']

theorem toStore_moved (s : Setting) (p : Place) (step : Step) (trail trail' : List String) :
    (toStore s p trail' step).value = (toStore s p trail step).value := by
  unfold toStore
  cases step.outcome with
  | noValue => rfl
  | null => simp only [Reported.bind_value, toWrite_value]
  | value v =>
    simp only [toWrite, pure_bind]
    cases s.types.convert v p.declared.key <;> rfl

theorem store_moved (m : Member) (owner : Value) (write : Option Value)
    (trail trail' : List String) : (store m trail' owner write).value =
      (store m trail owner write).value := by
  cases write with
  | none => rfl
  | some v =>
    simp only [store]
    cases m.access.assign owner v <;> rfl

theorem storeItem_moved (l : ListFocus) (xs item : Value) (place trail trail' : List String) :
    (storeItem s { l with focus := l.focus.moved place } trail' xs item).value =
      (storeItem s l trail xs item).value := by
  simp only [storeItem]
  cases s.types.convert item l.declared with
  | error e => rfl
  | ok item =>
    simp only [Focus.moved]
    cases Value.push l.focus.target.key xs item <;> rfl

theorem storeEntry_moved (m : MapFocus) (name : String) (xs key entry : Value)
    (place trail trail' : List String) :
    (storeEntry s { m with focus := m.focus.moved place } trail' name xs key entry).value =
      (storeEntry s m trail name xs key entry).value := by
  simp only [storeEntry]
  cases s.types.convert entry m.declaredValue with
  | error e => rfl
  | ok entry =>
    simp only [Focus.moved]
    cases Value.insert m.focus.target.key xs key entry <;> rfl

/-- The same value is read from a node at every place. -/
def Unmoved (s : Setting) (c : Node) : Prop := ∀ (f : Focus) trail current,
  (readNode s c (f.moved trail) current).value = (readNode s c f current).value

theorem Unmoved.read (h : Unmoved s c) {target declared : Descriptor} {owner : Option Value}
    {member : Option Member} {slot : Slot} {trail trail' : List String} :
    (readNode s c ⟨target, declared, owner, member, slot, trail'⟩ current).value =
      (readNode s c ⟨target, declared, owner, member, slot, trail⟩ current).value :=
  h ⟨target, declared, owner, member, slot, trail⟩ trail' current

theorem addItem_moved (hc : Unmoved s c) (l : ListFocus) (trail : List String) (xs : Value) :
    ((Filling.list l).moved trail |>.add s xs c).value = ((Filling.list l).add s xs c).value := by
  refine Reported.value_bind_congr (wantedType_moved s c l.element _ _) fun found => ?_
  cases found with
  | none => rfl
  | some target =>
    refine Reported.value_bind_congr hc.read fun step => ?_
    refine Reported.value_bind_congr (by rw [toWrite_value, toWrite_value]) fun item => ?_
    cases item with
    | none => rfl
    | some item => exact storeItem_moved l xs item _ _ _

theorem addEntry_moved (hc : Unmoved s c) (m : MapFocus) (trail : List String) (xs : Value) :
    ((Filling.map m).moved trail |>.add s xs c).value = ((Filling.map m).add s xs c).value := by
  have hkey : readKey s { m with focus := m.focus.moved trail } xs c.name =
      readKey s m xs c.name := rfl
  simp only [Filling.moved, Filling.add, addEntry, hkey]
  cases readKey s m xs c.name with
  | error message => rfl
  | ok key =>
    refine Reported.value_bind_congr (wantedType_moved s c m.value _ _) fun found => ?_
    cases found with
    | none => rfl
    | some target =>
      refine Reported.value_bind_congr hc.read fun step => ?_
      refine Reported.value_bind_congr (by rw [toWrite_value, toWrite_value]) fun entry => ?_
      cases entry with
      | none => rfl
      | some entry => exact storeEntry_moved m c.name xs key entry _ _ _

theorem storeMember_moved (hc : Unmoved s c) (t : Descriptor) (v : Value)
    (trail trail' : List String) : (storeMember s trail' t v c (readNode s c)).value =
      (storeMember s trail t v c (readNode s c)).value := by
  refine Reported.value_bind_congr (place_moved s t c _ _) fun found => ?_
  cases found with
  | none => rfl
  | some p =>
    refine Reported.value_bind_congr hc.read fun step => ?_
    refine Reported.value_bind_congr (toStore_moved s p step _ _) fun write => ?_
    exact store_moved p.member _ write _ _

theorem add_moved (hc : Unmoved s c) (F : Filling) (trail : List String) (v : Value) :
    ((F.moved trail).add s v c).value = (F.add s v c).value := by
  cases F with
  | «class» trail' t => exact storeMember_moved hc t v trail' trail
  | list l => exact addItem_moved hc l trail v
  | map m => exact addEntry_moved hc m trail v

theorem fill_moved {cs : List Node} (hcs : ∀ c ∈ cs, Unmoved s c) (F : Filling)
    (trail : List String) (v : Value) :
    ((F.moved trail).fill s cs v).value = (F.fill s cs v).value := by
  induction cs generalizing v with
  | nil => rfl
  | cons c cs ih =>
    refine Reported.value_bind_congr (add_moved (hcs c List.mem_cons_self) F trail v) fun w => ?_
    exact ih (fun c' hc' => hcs c' (List.mem_cons_of_mem c hc')) w

theorem resume_moved {fill fill' : Value → Reported Value}
    (hfill : ∀ v, (fill' v).value = (fill v).value) (f : Focus) (n : Node) (current : Option Value)
    (trail : List String) :
    (resume (f.moved trail) n current fill').value = (resume f n current fill).value := by
  have htarget : (f.moved trail).target = f.target := rfl
  have hcontext : (f.moved trail).context n current = f.context n current := rfl
  unfold resume
  rw [htarget, hcontext]
  cases reusable f.target current with
  | some v => exact Reported.value_bind_congr (hfill v) fun _ => rfl
  | none =>
    dsimp only
    cases f.target.build (some (f.context n current)) with
    | ok v => exact Reported.value_bind_congr (hfill v) fun _ => rfl
    | error e => rfl

theorem readList_moved (f : Focus) (n : Node) (current : Option Value) (element : TypeKey)
    (trail : List String) {fill : ListFocus → Value → Reported Value}
    (hfill : ∀ l v, (fill { l with focus := l.focus.moved trail } v).value = (fill l v).value) :
    (readList s (f.moved trail) n current element fill).value =
      (readList s f n current element fill).value := by
  refine Reported.value_bind_congr (elementType_moved s n _ element _ _) fun found => ?_
  cases found with
  | none => rfl
  | some k =>
    dsimp only
    cases s.types.get? k with
    | none => rfl
    | some t => exact resume_moved (hfill ⟨f, element, t⟩) f n current trail

theorem readMap_moved (f : Focus) (n : Node) (current : Option Value) (key value : TypeKey)
    (trail : List String) {fill : MapFocus → Value → Reported Value}
    (hfill : ∀ m v, (fill { m with focus := m.focus.moved trail } v).value = (fill m v).value) :
    (readMap s (f.moved trail) n current key value fill).value =
      (readMap s f n current key value fill).value := by
  refine Reported.value_bind_congr (elementType_moved s n _ key _ _) fun found => ?_
  cases found with
  | none => rfl
  | some k =>
    refine Reported.value_bind_congr (elementType_moved s n _ value _ _) fun found => ?_
    cases found with
    | none => rfl
    | some v =>
      dsimp only
      cases s.types.get? k with
      | none => rfl
      | some kt =>
        cases s.types.get? v with
        | none => rfl
        | some vt => exact resume_moved (hfill ⟨f, key, value, kt, vt, _⟩) f n current trail

theorem readClass_moved (f : Focus) (n : Node) (current : Option Value) (trail : List String)
    {fill fill' : Value → Reported Value} (hfill : ∀ v, (fill' v).value = (fill v).value) :
    (readClass (f.moved trail) n current fill').value = (readClass f n current fill).value := by
  have htarget : (f.moved trail).target = f.target := rfl
  unfold readClass
  rw [htarget]
  cases f.target.shape with
  | «class» ms => exact resume_moved hfill f n current trail
  | abstract ms => rfl
  | _ => rfl

theorem readWith_moved (f : Focus) (n : Node) (current : Option Value) (p : Parser)
    (trail : List String) : (readWith s (f.moved trail) n current p).value =
      (readWith s f n current p).value := by
  have hcontext : (f.moved trail).context n current = f.context n current := rfl
  unfold readWith
  rw [hcontext]
  cases p.parse s.env (f.context n current) <;> rfl

theorem readPlain_moved (hn : ∀ c ∈ n.children, Unmoved s c) (f : Focus) (trail : List String)
    (current : Option Value) :
    (readPlain s n (f.moved trail) current).value = (readPlain s n f current).value := by
  have hfill (F : Filling) (v : Value) := fill_moved hn F trail v
  have htarget : (f.moved trail).target = f.target := rfl
  unfold readPlain
  rw [htarget]
  split
  case h_1 element hshape =>
    exact Reported.value_bind_congr
      (readList_moved f n current element trail fun l => hfill (.list l)) fun _ => rfl
  case h_2 key value hshape =>
    exact Reported.value_bind_congr
      (readMap_moved f n current key value trail fun m => hfill (.map m)) fun _ => rfl
  case h_3 =>
    split
    case h_1 p hp =>
      exact Reported.value_bind_congr (readWith_moved f n current p trail) fun _ => rfl
    case h_2 =>
      exact Reported.value_bind_congr
        (readClass_moved f n current trail (hfill (.class f.trail f.target))) fun _ => rfl

theorem throughOptional_moved {inside : Focus → Option Value → Reported Step}
    (hinside : ∀ (f : Focus) trail current,
      (inside (f.moved trail) current).value = (inside f current).value)
    (k : Nat) (f : Focus) (trail : List String) (current : Option Value) :
    (throughOptional s inside k (f.moved trail) current).value =
      (throughOptional s inside k f current).value := by
  induction k generalizing f current with
  | zero => rfl
  | succ k ih =>
    have htarget : (f.moved trail).target = f.target := rfl
    have hhere := hinside f trail current
    unfold throughOptional
    rw [htarget]
    split
    case h_1 inner hshape =>
      cases s.types.get? inner with
      | none => rfl
      | some t =>
        refine Reported.value_bind_congr (ih (f.inner t) _) fun step => ?_
        unfold rewrap
        rw [htarget]
        cases step.outcome with
        | noValue => rfl
        | null => rfl
        | value v => dsimp only; cases Value.wrap f.target.key v <;> rfl
    case h_2 => exact hhere

/-- What is read from a node is the same at every place. -/
theorem readNode_moved (s : Setting) (n : Node) : Unmoved s n := by
  induction n using Node.induct with
  | h n ih =>
    intro f trail current
    rw [readNode_eq, readNode_eq]
    split
    · rfl
    · exact throughOptional_moved (readPlain_moved ih) _ f trail current

/-- An instance of a class is built alike under every label. -/
theorem buildClass_label (s : Setting) (t : Descriptor) (label label' : String) (n : Node) :
    (buildClass s t label' n).value = (buildClass s t label n).value := by
  have hfill (v : Value) : (readMembers s [label'] t n.children v).value =
      (readMembers s [label] t n.children v).value := by
    rw [readMembers_eq_fill, readMembers_eq_fill]
    exact fill_moved (fun c _ => readNode_moved s c) (.class [label] t) [label'] v
  have hread := readClass_moved (Focus.root t [label]) n none [label'] hfill
  refine Reported.value_bind_congr hread fun step => ?_
  cases step.outcome <;> rfl

end Reading

end DefLoad
