import DefLoad.Proofs.Filling
import DefLoad.Proofs.Reload

/-!
What adding one child to a class, a list or a map can come to: it is refused with a complaint, or it
is read and what was read is stored.
-/

namespace DefLoad.Reading

/-- How a child is read, and what is done with what was read. -/
structure Demand where
  focus : Focus
  current : Option Value
  finish : Step → Reported Value

def Demand.read (s : Setting) (c : Node) (d : Demand) : Reported Step :=
  readNode s c d.focus d.current

def memberDemand (s : Setting) (trail : List String) (v : Value) (p : Place) : Demand where
  focus := ⟨p.target, p.declared, some (taken p.member v).2, some p.member, .member, trail⟩
  current := (taken p.member v).1
  finish step := do store p.member trail (taken p.member v).2 (← toStore s p trail step)

def itemDemand (s : Setting) (l : ListFocus) (xs : Value) (trail : List String)
    (target : Descriptor) : Demand where
  focus := ⟨target, l.element, some xs, l.focus.member,
    .item (Value.length l.focus.target.key xs), trail⟩
  current := none
  finish step := do
    let wanted := s.types.nameOf l.declared
    match ← toWrite s step.outcome l.declared trail s!"item of type {wanted} cannot be null" with
    | none => return xs
    | some item => storeItem s l trail xs item

def entryDemand (s : Setting) (m : MapFocus) (xs key : Value) (trail : List String) (name : String)
    (target : Descriptor) : Demand where
  focus := ⟨target, m.value, some xs, m.focus.member, .entry key, trail⟩
  current := none
  finish step := do
    let wanted := s.types.nameOf m.declaredValue
    match ← toWrite s step.outcome m.declaredValue trail
        s!"value of type {wanted} cannot be null" with
    | none => return xs
    | some entry => storeEntry s m trail name xs key entry

/-- A child is read as the type that it asks for. -/
inductive Demands (s : Setting) : Filling → Value → Node → Demand → Prop
  | member {trail : List String} {t : Descriptor} {v : Value} {c : Node} {p : Place}
    (hp : (place s (trail ++ [c.name]) t c).value = some p) :
    Demands s (.class trail t) v c (memberDemand s (trail ++ [c.name]) v p)
  | item {l : ListFocus} {xs : Value} {c : Node} {target : Descriptor}
    (ht : (wantedType s c l.element ((Filling.list l).childTrail xs c)).value = some target) :
    Demands s (.list l) xs c (itemDemand s l xs ((Filling.list l).childTrail xs c) target)
  | entry {m : MapFocus} {xs key : Value} {c : Node} {target : Descriptor}
    (hkey : readKey s m xs c.name = .ok key)
    (ht : (wantedType s c m.value (m.focus.trail ++ [c.name])).value = some target) :
    Demands s (.map m) xs c (entryDemand s m xs key (m.focus.trail ++ [c.name]) c.name target)

/-- What is filled, and read for its children, are types of the table. -/
def Filling.Known (s : Setting) : Filling → Prop
  | .class _ t => Registered s t
  | .list l => Registered s l.element
  | .map m => Registered s m.value

theorem Opens.known {s : Setting} {f : Focus} {n : Node} {F : Filling} (h : Opens s f n F)
    (hf : Registered s f.target) : F.Known s := by
  cases h with
  | «class» hshape hparser => exact hf
  | list hshape hkey helement => exact ⟨_, helement⟩
  | map hshape hkey hvalue hk hv => exact ⟨_, hv⟩

namespace Demands

variable {s : Setting} {F : Filling} {v : Value} {c : Node} {d : Demand}

theorem registered (h : Demands s F v c d) (hF : F.Known s) : Registered s d.focus.target := by
  cases h with
  | member hp => exact (place_spec hp).2
  | item ht => exact wantedType_registered hF ht
  | entry hkey ht => exact wantedType_registered hF ht

theorem trail_eq (h : Demands s F v c d) : d.focus.trail = F.childTrail v c := by
  cases h <;> rfl

end Demands

/-- What adding a child can come to. -/
inductive Adds (s : Setting) (F : Filling) (v : Value) (c : Node) : Reported Value → Prop
  | refused (message : String) :
    Adds s F v c ⟨v, [.error .resolution (pathOf (F.childTrail v c)) message]⟩
  | keyless {m : MapFocus} {message : String} (hF : F = .map m)
    (hkey : readKey s m v c.name = .error message) :
    Adds s F v c ⟨v, [.error .conversion (pathOf (F.childTrail v c)) (message ++ "; entry skipped")]⟩
  /-- The child names an optional type, and the type inside is not registered. -/
  | lost {k : TypeKey} (hnamed : Named s.types k) (hk : s.types.get? k = none) :
    Adds s F v c ⟨v, []⟩
  | read {d : Demand} {ds : Diagnostics} (hd : Demands s F v c d) (hds : OfTypes ds) :
    Adds s F v c
      ⟨(d.finish (d.read s c).value).value,
        ds ++ ((d.read s c).found ++ (d.finish (d.read s c).value).found)⟩

/-! Where a child goes. -/

/-- A search on behalf of a child: it finds something, or it says why there is nothing. It says
nothing only where a type inside an optional type is not registered. -/
inductive Finds {α : Type} (r : TypeTable) (trail : List String) : Reported (Option α) → Prop
  | found (a : α) {ds : Diagnostics} (hds : OfTypes ds) : Finds r trail ⟨some a, ds⟩
  | refused (message : String) :
    Finds r trail ⟨none, [.error .resolution (pathOf trail) message]⟩
  | lost {k : TypeKey} (hnamed : Named r k) (hk : r.get? k = none) : Finds r trail ⟨none, []⟩

theorem wantedType_finds (s : Setting) (child : Node) (declared : Descriptor)
    (trail : List String) : Finds s.types trail (wantedType s child declared trail) := by
  rcases wantedType_cases s child declared trail with
    ⟨message, hw⟩ | ⟨ds, hw, hds⟩ | ⟨k, hw, -, hnamed⟩
  · rw [hw]
    exact .refused message
  · rw [hw]
    exact .found declared hds
  · rw [hw]
    cases hk : s.types.get? k with
    | none => exact .lost hnamed.named hk
    | some target => exact .found target ofTypes_nil

theorem place_finds (s : Setting) (trail : List String) (t : Descriptor) (child : Node) :
    Finds s.types trail (place s trail t child) := by
  unfold place
  cases s.env.config.member? t child.name with
  | none => exact .refused _
  | some m =>
    dsimp only
    cases s.types.get? m.type with
    | none => exact .refused _
    | some declared =>
      have hfinds := wantedType_finds s child declared trail
      dsimp only
      generalize wantedType s child declared trail = found at hfinds
      cases hfinds with
      | found target hds =>
        rename_i ds
        have hall : OfTypes (ds ++ []) := by rwa [List.append_nil]
        exact .found (⟨m, declared, target⟩ : Place) hall
      | refused message => exact .refused message
      | lost hnamed hk => exact .lost hnamed hk

theorem storeMember_adds (s : Setting) (trail : List String) (t : Descriptor) (v : Value)
    (c : Node) : Adds s (.class trail t) v c (storeMember s trail t v c (readNode s c)) := by
  have hfinds := place_finds s (trail ++ [c.name]) t c
  have hdemand {p : Place} (hp : (place s (trail ++ [c.name]) t c).value = some p) :
      Demands s (.class trail t) v c (memberDemand s (trail ++ [c.name]) v p) := .member hp
  unfold storeMember
  dsimp only
  generalize place s (trail ++ [c.name]) t c = found at hfinds hdemand
  cases hfinds with
  | found p hds => exact .read (hdemand rfl) hds
  | refused message => exact .refused message
  | lost hnamed hk => exact .lost hnamed hk

theorem addItem_adds (s : Setting) (l : ListFocus) (xs : Value) (c : Node) :
    Adds s (.list l) xs c (addItem s l xs c (readNode s c)) := by
  have hfinds := wantedType_finds s c l.element ((Filling.list l).childTrail xs c)
  have hdemand {target : Descriptor}
      (ht : (wantedType s c l.element ((Filling.list l).childTrail xs c)).value = some target) :
      Demands s (.list l) xs c
        (itemDemand s l xs ((Filling.list l).childTrail xs c) target) := .item ht
  unfold addItem
  change Adds s _ xs c (wantedType s c l.element ((Filling.list l).childTrail xs c) >>= _)
  generalize wantedType s c l.element ((Filling.list l).childTrail xs c) = found at hfinds hdemand
  cases hfinds with
  | found target hds => exact .read (hdemand rfl) hds
  | refused message => exact .refused message
  | lost hnamed hk => exact .lost hnamed hk

theorem addEntry_adds (s : Setting) (m : MapFocus) (xs : Value) (c : Node) :
    Adds s (.map m) xs c (addEntry s m xs c (readNode s c)) := by
  unfold addEntry
  dsimp only
  cases hkey : readKey s m xs c.name with
  | error message => exact .keyless rfl hkey
  | ok key =>
    have hfinds := wantedType_finds s c m.value (m.focus.trail ++ [c.name])
    have hdemand {target : Descriptor}
        (ht : (wantedType s c m.value (m.focus.trail ++ [c.name])).value = some target) :
        Demands s (.map m) xs c
          (entryDemand s m xs key (m.focus.trail ++ [c.name]) c.name target) := .entry hkey ht
    dsimp only
    generalize wantedType s c m.value (m.focus.trail ++ [c.name]) = found at hfinds hdemand
    cases hfinds with
    | found target hds => exact .read (hdemand rfl) hds
    | refused message => exact .refused message
    | lost hnamed hk => exact .lost hnamed hk

theorem Filling.add_adds (s : Setting) (F : Filling) (v : Value) (c : Node) :
    Adds s F v c (F.add s v c) := by
  cases F with
  | «class» trail t => exact storeMember_adds s trail t v c
  | list l => exact addItem_adds s l v c
  | map m => exact addEntry_adds s m v c

end DefLoad.Reading
