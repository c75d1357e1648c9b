import DefLoad.Node
import DefLoad.Types.Key

/-!
Typed values that describe themselves: every value knows its type, and containers know the types of
their elements even when they are empty.
-/

namespace DefLoad

/-- The content of a value without parts. -/
inductive Atom
  | bool (b : Bool)
  | int (n : Int)
  /-- The bit pattern of a floating-point number. -/
  | bits (n : Nat)
  | text (s : String)
  /-- The index of a variant of an enumeration. -/
  | variant (i : Nat)
  | pair (x y : Int)
  | node (n : Node)
  | type (k : TypeKey)
  | unit

/-- A shared def: the cell that holds it, with the ID and type that it had when handed out. -/
structure Handle where
  id : String
  type : TypeKey
  cell : Nat
deriving DecidableEq, Repr

inductive Value
  | scalar (type : TypeKey) (content : Atom)
  /-- No value of an optional type. -/
  | absent (inner : TypeKey)
  | present (v : Value)
  | list (element : TypeKey) (items : List Value)
  | map (kind : MapKind) (key value : TypeKey) (entries : List (Value × Value))
  | record (type : TypeKey) (fields : List (String × Value))
  /-- A value that stands for an abstract type. -/
  | boxed (type : TypeKey) (v : Value)
  | ref (target : TypeKey) (handle : Handle)

namespace Value

instance : Inhabited Value := ⟨scalar default .unit⟩

/-- The type of a value as it runs. -/
def type : Value → TypeKey
  | scalar t _ => t
  | absent t => .optional t
  | present v => .optional v.type
  | list t _ => .list t
  | map kind k v _ => .map kind k v
  | record t _ => t
  | boxed t _ => t
  | ref t _ => .ref t

def bool (b : Bool) : Value := scalar .bool (.bool b)

def int (t : TypeKey) (n : Int) : Value := scalar t (.int n)

def string (s : String) : Value := scalar .string (.text s)

def node (n : Node) : Value := scalar .node (.node n)

def typeKey (k : TypeKey) : Value := scalar .typeKey (.type k)

/-! Records. -/

def field? (v : Value) (name : String) : Option Value :=
  match v with
  | record _ fields => Assoc.get? fields name
  | _ => none

def setField (v : Value) (name : String) (x : Value) : Value :=
  match v with
  | record t fields => record t (Assoc.set fields name x)
  | v => v

@[simp] theorem type_setField (v : Value) (name : String) (x : Value) :
    (v.setField name x).type = v.type := by
  cases v <;> rfl

def textField (v : Value) (name : String) : String :=
  match v.field? name with
  | some (scalar _ (.text s)) => s
  | _ => ""

def intField (v : Value) (name : String) : Int :=
  match v.field? name with
  | some (scalar _ (.int n)) => n
  | _ => 0

/-- The text of an optional text field. -/
def optionalText (v : Value) (name : String) : Option String :=
  match v.field? name with
  | some (present (scalar _ (.text s))) => some s
  | _ => none

def id (v : Value) : String := v.textField "id"

def withId (v : Value) (id : String) : Value := v.setField "id" (string id)

theorem field?_setField_ne (v : Value) {name other : String} (x : Value) (h : name ≠ other) :
    (v.setField name x).field? other = v.field? other := by
  cases v <;> simp [setField, field?, h]

theorem setField_setField (v : Value) (name : String) (x y : Value) :
    (v.setField name x).setField name y = v.setField name y := by
  cases v <;> simp [setField, Assoc.set_set]

section

variable {v x : Value} {name : String} (h : v.field? name = some x)

include h

theorem field?_setField_of_field? (y : Value) : (v.setField name y).field? name = some y := by
  cases v with
  | record t fields => simp [setField, field?]
  | _ => cases h

theorem setField_of_field? : v.setField name x = v := by
  cases v with
  | record t fields => simp only [setField, Assoc.set_of_get? h]
  | _ => cases h

/-- Setting a field anew undoes what it was set to. -/
theorem setField_setField_of_field? (y : Value) : (v.setField name y).setField name x = v := by
  rw [setField_setField, setField_of_field? h]

theorem setField_comm {other : String} (hne : name ≠ other) (y z : Value) :
    (v.setField name y).setField other z = (v.setField other z).setField name y := by
  cases v with
  | record t fields =>
    have hk : Assoc.contains fields name = true := by
      simp only [field?] at h
      simp [Assoc.contains, h]
    simp only [setField, Assoc.set_comm hne hk]
  | _ => rfl

end

theorem withId_withId (v : Value) (id : String) : (v.withId id).withId id = v.withId id :=
  v.setField_setField "id" _ _

/-! Optional values. -/

/-- Wraps a value of the inner type of an optional type. -/
def wrap (optional : TypeKey) (v : Value) : Option Value :=
  if optional = .optional v.type then some (present v) else none

/-- The value inside an optional value of this very type. -/
def unwrap (optional : TypeKey) (v : Value) : Option Value :=
  match v with
  | present w => if v.type = optional then some w else none
  | _ => none

/-- No value of an optional type. -/
def none? : TypeKey → Option Value
  | .optional t => some (absent t)
  | _ => none

theorem type_wrap {k : TypeKey} {v w : Value} (h : wrap k v = some w) : w.type = k := by
  unfold wrap at h
  split at h
  · cases h; simp_all [type]
  · cases h

theorem unwrap_wrap {k : TypeKey} {v w : Value} (h : wrap k v = some w) : unwrap k w = some v := by
  unfold wrap at h
  split at h
  · cases h; simp_all [unwrap, type]
  · cases h

/-! Lists. -/

/-- Appends an item to a list of this very type. -/
def push (listType : TypeKey) (xs item : Value) : Option Value :=
  match xs with
  | list t items =>
    if listType = .list t ∧ item.type = t then some (list t (items ++ [item])) else none
  | _ => none

def length (listType : TypeKey) (xs : Value) : Nat :=
  match xs with
  | list t items => if listType = .list t then items.length else 0
  | _ => 0

theorem type_push {k : TypeKey} {xs x ys : Value} (h : push k xs x = some ys) : ys.type = k := by
  unfold push at h
  split at h
  · split at h
    · rename_i hk; cases h; exact hk.1.symm
    · cases h
  · cases h

theorem length_push {k : TypeKey} {xs x ys : Value} (h : push k xs x = some ys) :
    length k ys = length k xs + 1 := by
  unfold push at h
  split at h
  · split at h
    · rename_i hk; cases h; simp [length, hk.1]
    · cases h
  · cases h

/-! Maps. Keys are scalars or references; references are equal when they share a cell. -/

def orderAtoms : Atom → Atom → Ordering
  | .bool a, .bool b => compare a.toNat b.toNat
  | .int a, .int b => compare a b
  | .bits a, .bits b => compare a b
  | .text a, .text b => compare a b
  | .variant a, .variant b => compare a b
  | .pair a b, .pair c d => (compare a c).then (compare b d)
  | _, _ => .eq

def sameAtom : Atom → Atom → Bool
  | .type a, .type b => a = b
  | a, b => orderAtoms a b == .eq

def sameKey : Value → Value → Bool
  | scalar _ a, scalar _ b => sameAtom a b
  | ref _ a, ref _ b => a.cell == b.cell
  | _, _ => false

def orderKeys : Value → Value → Ordering
  | scalar _ a, scalar _ b => orderAtoms a b
  | _, _ => .eq

/-- Inserts before the first greater key. -/
def insertSorted (k v : Value) : List (Value × Value) → List (Value × Value)
  | [] => [(k, v)]
  | e :: es => if orderKeys k e.1 = .lt then (k, v) :: e :: es else e :: insertSorted k v es

/-- Replaces the value of a key and keeps the key. -/
def replaceEntry (k v : Value) : List (Value × Value) → List (Value × Value)
  | [] => []
  | e :: es => if sameKey e.1 k then (e.1, v) :: es else e :: replaceEntry k v es

inductive Insertion
  | inserted (m : Value)
  | replaced (m : Value)
  /-- The map, the key or the value is of another type. -/
  | mismatch

def insert (mapType : TypeKey) (m k v : Value) : Insertion :=
  match m with
  | map kind kt vt entries =>
    if mapType = .map kind kt vt ∧ k.type = kt ∧ v.type = vt then
      if entries.any (sameKey ·.1 k) then .replaced (map kind kt vt (replaceEntry k v entries))
      else if kind = .sorted then .inserted (map kind kt vt (insertSorted k v entries))
      else .inserted (map kind kt vt (entries ++ [(k, v)]))
    else .mismatch
  | _ => .mismatch

/-- The map after an insertion that took place. -/
def Insertion.map? : Insertion → Option Value
  | .inserted m => some m
  | .replaced m => some m
  | .mismatch => none

theorem type_insert {t : TypeKey} {m k v m' : Value} (h : (insert t m k v).map? = some m') :
    m'.type = t := by
  unfold insert at h
  split at h
  · split at h
    · rename_i ht
      split at h
      · cases h; exact ht.1.symm
      · split at h <;> cases h <;> exact ht.1.symm
    · cases h
  · cases h

end Value

end DefLoad
