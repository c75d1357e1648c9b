import DefLoad.Types.Value

/-!
Members of classes: how a value is taken out of its owner and put back, and what the binding of
names to members has to know.
-/

namespace DefLoad

inductive AccessError
  | ownerMismatch (expected : String)
  | valueMismatch (expected : String)
deriving DecidableEq, Repr

def AccessError.message : AccessError → String
  | ownerMismatch expected => s!"owner is not a {expected}"
  | valueMismatch expected => s!"value is not a {expected}"

/-- Moves values in and out of an owner. -/
structure Access where
  /-- The value of the member and the owner after it was taken; nothing for a foreign owner. -/
  take : Value → Option (Value × Value)
  assign : Value → Value → Except AccessError Value

namespace Access

/-- Runs `f` on owners and values of the given types. -/
def checked (owner value : TypeKey) (f : Value → Value → Value) (o v : Value) :
    Except AccessError Value :=
  if o.type ≠ owner then .error (.ownerMismatch owner.title)
  else if v.type ≠ value then .error (.valueMismatch value.title)
  else .ok (f o v)

/-- A stored field. Taking it leaves a default behind. -/
def field (owner value : TypeKey) (name : String) (default : Value) : Access where
  take o :=
    if o.type = owner then (o.field? name).map fun v => (v, o.setField name default) else none
  assign := checked owner value fun o v => o.setField name v

/-- A pair of functions. Taking it copies the value. -/
def property (owner value : TypeKey) (get : Value → Value) (set : Value → Value → Value) :
    Access where
  take o := if o.type = owner then some (get o, o) else none
  assign := checked owner value set

/-- A member of a value that is stored in a field of the owner at hand. -/
def within (owner : TypeKey) (name : String) (inner : Access) : Access where
  take o :=
    if o.type = owner then
      (o.field? name).bind fun b => (inner.take b).map fun (v, b) => (v, o.setField name b)
    else none
  assign o v :=
    if o.type = owner then
      match o.field? name with
      | some b => (inner.assign b v).map fun b => o.setField name b
      | none => .error (.ownerMismatch owner.title)
    else .error (.ownerMismatch owner.title)

/-- Neither taking the value nor writing one makes the owner a value of another type. -/
structure KeepsType (a : Access) : Prop where
  take : ∀ o x w, a.take o = some (x, w) → w.type = o.type
  assign : ∀ o x w, a.assign o x = .ok w → w.type = o.type

theorem checked_type {owner value : TypeKey} {f : Value → Value → Value} {o v w : Value}
    (hf : ∀ o v, (f o v).type = o.type) (h : checked owner value f o v = .ok w) :
    w.type = o.type := by
  unfold checked at h
  split at h
  · cases h
  · split at h
    · cases h
    · cases h; exact hf o v

theorem field_keepsType (owner value : TypeKey) (name : String) (default : Value) :
    (field owner value name default).KeepsType where
  take o x w h := by
    simp only [field] at h
    split at h
    · obtain ⟨y, -, he⟩ := Option.map_eq_some_iff.mp h
      cases he
      exact Value.type_setField o _ _
    · cases h
  assign _ _ _ h := checked_type (fun o v => Value.type_setField o name v) h

theorem property_keepsType (owner value : TypeKey) (get : Value → Value)
    {set : Value → Value → Value} (hset : ∀ o v, (set o v).type = o.type) :
    (property owner value get set).KeepsType where
  take o x w h := by
    simp only [property] at h
    split at h
    · cases h
      rfl
    · cases h
  assign _ _ _ h := checked_type hset h

/-- Only an entry of the owner is written, whatever happens inside. -/
theorem within_keepsType (owner : TypeKey) (name : String) (inner : Access) :
    (within owner name inner).KeepsType where
  take o x w h := by
    simp only [within] at h
    split at h
    · obtain ⟨b, -, hinner⟩ := Option.bind_eq_some_iff.mp h
      obtain ⟨y, -, he⟩ := Option.map_eq_some_iff.mp hinner
      cases he
      exact Value.type_setField o _ _
    · cases h
  assign o x w h := by
    simp only [within] at h
    split at h
    · split at h
      case h_1 b hb =>
        cases hinner : inner.assign b x with
        | error e =>
          rw [hinner] at h
          cases h
        | ok b' =>
          rw [hinner] at h
          cases h
          exact Value.type_setField o _ _
      case h_2 => cases h
    · cases h

end Access

inductive MemberKind
  | field
  | property
deriving DecidableEq, Repr

/-- What a member asks of the binding policy. -/
inductive Inclusion
  | default
  | include
  | exclude
deriving DecidableEq, Repr

structure Member where
  name : String
  aliases : List String
  type : TypeKey
  kind : MemberKind
  isPublic : Bool
  inclusion : Inclusion
  access : Access

def Member.names (m : Member) : List String := m.name :: m.aliases

end DefLoad
