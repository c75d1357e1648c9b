import DefLoad.Arsenal.Plain

/-!
Where the members of a class keep their values: places of an instance that are read and written like
variables. Members whose places are apart are independent, whatever is written into them.
-/

namespace DefLoad

/-- A place in the instances of a class for values of one type. -/
structure Storage where
  type : TypeKey
  get : Value → Value
  put : Value → Value → Value

namespace Storage

variable (Inst : Value → Prop)

/-- In every instance the place holds what was put there last. -/
structure Lawful (p : Storage) : Prop where
  typed : ∀ o, Inst o → (p.get o).type = p.type
  inst : ∀ o x, Inst o → x.type = p.type → Inst (p.put o x)
  get_put : ∀ o x, Inst o → x.type = p.type → p.get (p.put o x) = x
  put_put : ∀ o x y, Inst o → x.type = p.type → y.type = p.type → p.put (p.put o x) y = p.put o y

/-- What is put into one place does not show in the other, and the order does not matter. -/
structure Apart (p q : Storage) : Prop where
  left : ∀ o y, Inst o → y.type = q.type → p.get (q.put o y) = p.get o
  right : ∀ o x, Inst o → x.type = p.type → q.get (p.put o x) = q.get o
  comm : ∀ o x y, Inst o → x.type = p.type → y.type = q.type →
    q.put (p.put o x) y = p.put (q.put o y) x

theorem Apart.symm {Inst : Value → Prop} {p q : Storage} (h : Apart Inst p q) :
    Apart Inst q p where
  left := h.right
  right := h.left
  comm o x y ho hx hy := (h.comm o y x ho hy hx).symm

/-- What a place holds after it was left with a value and then maybe written to. A value of another
type is not taken. -/
def after (p : Storage) (rest : Value) : Option Value → Value
  | some v => if v.type = p.type then v else rest
  | none => rest

theorem after_type {p : Storage} {rest : Value} (h : rest.type = p.type) (write : Option Value) :
    (p.after rest write).type = p.type := by
  cases write with
  | none => exact h
  | some v =>
    by_cases hv : v.type = p.type
    · rw [after, if_pos hv, hv]
    · rw [after, if_neg hv, h]

end Storage

/-- The member moves values between its place and the outside. Taking the value leaves one behind
that depends on nothing else. -/
structure Access.Stores (Inst : Value → Prop) (p : Storage) (a : Access) : Prop where
  take : ∃ rest : Value → Value, ∀ o, Inst o → (rest (p.get o)).type = p.type ∧
    a.take o = some (p.get o, p.put o (rest (p.get o)))
  assign : ∃ e, ∀ o x, Inst o → a.assign o x = if x.type = p.type then .ok (p.put o x) else .error e

/-- A class with a place for each member, all of them apart from each other. -/
structure Separate (Inst : Value → Prop) (t : Descriptor) (storage : Member → Storage) : Prop where
  type_eq : ∀ m ∈ t.members, (storage m).type = m.type
  lawful : ∀ m ∈ t.members, (storage m).Lawful Inst
  stores : ∀ m ∈ t.members, m.access.Stores Inst (storage m)
  apart : t.members.Pairwise fun m m' => (storage m).Apart Inst (storage m')

theorem Separate.apart_of_ne {Inst : Value → Prop} {t : Descriptor} {storage : Member → Storage}
    (h : Separate Inst t storage) {i j : Nat} {m m' : Member} (hm : t.members[i]? = some m)
    (hm' : t.members[j]? = some m') (hne : i ≠ j) : (storage m).Apart Inst (storage m') := by
  have hpairs := List.pairwise_iff_getElem.mp h.apart
  obtain ⟨hi, rfl⟩ := List.getElem?_eq_some_iff.mp hm
  obtain ⟨hj, rfl⟩ := List.getElem?_eq_some_iff.mp hm'
  rcases Nat.lt_or_gt_of_ne hne with hlt | hlt
  · exact hpairs i j hi hj hlt
  · exact (hpairs j i hj hi hlt).symm

/-! The three ways in which a member can be stored. -/

/-- The entry of a record as a place. -/
def Storage.field (name : String) (type : TypeKey) : Storage where
  type := type
  get o := (o.field? name).getD default
  put o x := o.setField name x

/-- A place in the value that an entry of a record holds. -/
def Storage.within (name : String) (p : Storage) : Storage where
  type := p.type
  get o := p.get ((o.field? name).getD default)
  put o x := o.setField name (p.put ((o.field? name).getD default) x)

/-- Every instance holds a part of this kind in the entry, and any other such part can stand
there. -/
structure HasEntry (Inst : Value → Prop) (name : String) (Part : Value → Prop) : Prop where
  holds : ∀ o, Inst o → ∃ b, o.field? name = some b ∧ Part b
  replace : ∀ o b, Inst o → Part b → Inst (o.setField name b)

/-- The place lies in the entry of this name and behaves as a place of what the entry holds. -/
def Storage.LiesIn (Inst : Value → Prop) (name : String) (p : Storage) : Prop :=
  ∃ (Part : Value → Prop) (q : Storage),
    HasEntry Inst name Part ∧ q.Lawful Part ∧ p = q.within name

section

variable {Inst Part : Value → Prop} {p q : Storage} {name other : String}

theorem Storage.Lawful.liesIn (hp : p.Lawful Part) (he : HasEntry Inst name Part) :
    (p.within name).LiesIn Inst name := ⟨Part, p, he, hp, rfl⟩

/-- An entry is a place in itself. -/
theorem HasEntry.field_liesIn {type : TypeKey} (he : HasEntry Inst name fun x => x.type = type) :
    (Storage.field name type).LiesIn Inst name := by
  -- the whole of what the entry holds
  have hwhole : Storage.Lawful (fun x => x.type = type) ⟨type, id, fun _ x => x⟩ :=
    ⟨fun _ h => h, fun _ _ _ h => h, fun _ _ _ _ => rfl, fun _ _ _ _ _ _ => rfl⟩
  exact ⟨_, _, he, hwhole, rfl⟩

theorem HasEntry.field_put_get {type : TypeKey} (he : HasEntry Inst name Part) {o : Value}
    (ho : Inst o) : (Storage.field name type).put o ((Storage.field name type).get o) = o := by
  obtain ⟨b, hb, -⟩ := he.holds o ho
  simp only [Storage.field, hb, Option.getD_some]
  exact Value.setField_of_field? hb

namespace Storage.LiesIn

theorem lawful (hp : p.LiesIn Inst name) : p.Lawful Inst := by
  obtain ⟨Part, q, he, hq, rfl⟩ := hp
  constructor
  case typed =>
    intro o ho
    obtain ⟨b, hb, hpart⟩ := he.holds o ho
    simpa [within, hb] using hq.typed b hpart
  case inst =>
    intro o x ho hx
    obtain ⟨b, hb, hpart⟩ := he.holds o ho
    simpa [within, hb] using he.replace o _ ho (hq.inst b x hpart hx)
  case get_put =>
    intro o x ho hx
    obtain ⟨b, hb, hpart⟩ := he.holds o ho
    simpa [within, hb, Value.field?_setField_of_field? hb] using hq.get_put b x hpart hx
  case put_put =>
    intro o x y ho hx hy
    obtain ⟨b, hb, hpart⟩ := he.holds o ho
    have hinner := hq.put_put b x y hpart hx hy
    simp [within, hb, Value.field?_setField_of_field? hb, Value.setField_setField, hinner]

/-- Places in two entries do not touch each other. -/
theorem apart (hp : p.LiesIn Inst name) (hq : q.LiesIn Inst other) (hne : name ≠ other) :
    p.Apart Inst q := by
  obtain ⟨Part, p, he, -, rfl⟩ := hp
  obtain ⟨Part', q, he', -, rfl⟩ := hq
  constructor
  case left =>
    intro o y ho hy
    simp [within, Value.field?_setField_ne o _ hne.symm]
  case right =>
    intro o x ho hx
    simp [within, Value.field?_setField_ne o _ hne]
  case comm =>
    intro o x y ho hx hy
    obtain ⟨b, hb, -⟩ := he.holds o ho
    simp only [within, Value.field?_setField_ne o _ hne, Value.field?_setField_ne o _ hne.symm]
    exact Value.setField_comm hb hne _ _

end Storage.LiesIn

/-- Members that are stored in entries of their own are separate. -/
theorem Separate.of_entries {t : Descriptor} {storage : Member → Storage} (entry : Member → String)
    (htype : ∀ m ∈ t.members, (storage m).type = m.type)
    (hlies : ∀ m ∈ t.members, (storage m).LiesIn Inst (entry m))
    (hstores : ∀ m ∈ t.members, m.access.Stores Inst (storage m))
    (hd : (t.members.map entry).Nodup) : Separate Inst t storage where
  type_eq := htype
  lawful m hm := (hlies m hm).lawful
  stores := hstores
  apart := by
    have hne : t.members.Pairwise fun m m' => entry m ≠ entry m' := List.pairwise_map.mp hd
    exact hne.imp_of_mem fun hm hm' h => (hlies _ hm).apart (hlies _ hm') h

end

section

variable {Inst Part : Value → Prop} {p : Storage} {owner : TypeKey} {name : String}
  (howner : ∀ o, Inst o → o.type = owner)

include howner

theorem Access.field_stores {type : TypeKey} {rest : Value} (hrest : rest.type = type)
    (he : HasEntry Inst name Part) :
    (Access.field owner type name rest).Stores Inst (.field name type) := by
  constructor
  case take =>
    refine ⟨fun _ => rest, fun o h => ⟨hrest, ?_⟩⟩
    obtain ⟨x, hx, -⟩ := he.holds o h
    simp [Access.field, Storage.field, howner o h, hx]
  case assign =>
    refine ⟨.valueMismatch type.title, fun o x h => ?_⟩
    by_cases hx : x.type = type <;>
      simp [Access.field, Access.checked, Storage.field, howner o h, hx]

/-- A pair of functions of which the second one changes nothing when it is given what the first one
gives. -/
theorem Access.property_stores (hp : p.Lawful Inst)
    (hsame : ∀ o, Inst o → p.put o (p.get o) = o) :
    (Access.property owner p.type p.get p.put).Stores Inst p := by
  constructor
  case take =>
    refine ⟨id, fun o h => ⟨hp.typed o h, ?_⟩⟩
    simp [Access.property, howner o h, hsame o h]
  case assign =>
    refine ⟨.valueMismatch p.type.title, fun o x h => ?_⟩
    by_cases hx : x.type = p.type <;> simp [Access.property, Access.checked, howner o h, hx]

theorem Access.within_stores {a : Access} (ha : a.Stores Part p) (he : HasEntry Inst name Part) :
    (Access.within owner name a).Stores Inst (p.within name) := by
  obtain ⟨rest, htake⟩ := ha.take
  obtain ⟨e, hassign⟩ := ha.assign
  constructor
  case take =>
    refine ⟨rest, fun o h => ?_⟩
    obtain ⟨b, hb, hpart⟩ := he.holds o h
    obtain ⟨hrest, htaken⟩ := htake b hpart
    refine ⟨by simpa [Storage.within, hb] using hrest, ?_⟩
    simp [Access.within, Storage.within, howner o h, hb, htaken]
  case assign =>
    refine ⟨e, fun o x h => ?_⟩
    obtain ⟨b, hb, hpart⟩ := he.holds o h
    have hwrite := hassign b x hpart
    by_cases hx : x.type = p.type
    · rw [if_pos hx] at hwrite
      simp [Access.within, Storage.within, howner o h, hb, hwrite, hx, Except.map]
    · rw [if_neg hx] at hwrite
      simp [Access.within, Storage.within, howner o h, hb, hwrite, hx, Except.map]

end

/-! A ship with a member of each kind: a name of its own, a crew behind a pair of functions, and the
plates of its hull. -/

section

open Arsenal (fieldMember plainType)

def ship : TypeKey := .named "Ship"

def hull : TypeKey := .named "Hull"

def crewType : TypeKey := .optional (.list .string)

def shipStorage (m : Member) : Storage :=
  if m.name = "Plates" then (Storage.field m.name m.type).within "Hull" else .field m.name m.type

def nameMember : Member := fieldMember ship .string "Name" (.string "")

def crewMember : Member :=
  ⟨"Crew", [], crewType, .property, true, .include,
    .property ship crewType (Storage.field "Crew" crewType).get (Storage.field "Crew" crewType).put⟩

def platesMember : Member :=
  ⟨"Plates", [], .i32, .field, true, .default,
    .within ship "Hull" (.field hull .i32 "Plates" (.int .i32 0))⟩

def shipClass : Descriptor :=
  plainType ship (.class [nameMember, crewMember, platesMember])

def hullOf (plates : Value) : Value := .record hull [("Plates", plates)]

def shipOf (name crew plates : Value) : Value :=
  .record ship [("Name", name), ("Crew", crew), ("Hull", hullOf plates)]

def IsHull (o : Value) : Prop := ∃ plates, o = hullOf plates ∧ plates.type = .i32

def IsShip (o : Value) : Prop := ∃ name crew plates, o = shipOf name crew plates ∧
  name.type = .string ∧ crew.type = crewType ∧ plates.type = .i32

theorem mem_shipClass {m : Member} (hm : m ∈ shipClass.members) :
    m = nameMember ∨ m = crewMember ∨ m = platesMember := by
  simpa [shipClass, plainType, Descriptor.members] using hm

/-- Taking or writing a member of a ship leaves a ship. -/
theorem shipClass_keepsType {m : Member} (hm : m ∈ shipClass.members) : m.access.KeepsType := by
  rcases mem_shipClass hm with rfl | rfl | rfl
  · exact Access.field_keepsType _ _ _ _
  · exact Access.property_keepsType _ _ _ fun o x => Value.type_setField o _ x
  · exact Access.within_keepsType _ _ _

theorem hull_plates : HasEntry IsHull "Plates" fun x => x.type = .i32 where
  holds := by
    rintro o ⟨plates, rfl, hplates⟩
    exact ⟨plates, rfl, hplates⟩
  replace := by
    rintro o b ⟨plates, rfl, -⟩ hb
    exact ⟨b, rfl, hb⟩

theorem ship_name : HasEntry IsShip "Name" fun x => x.type = .string where
  holds := by
    rintro o ⟨name, crew, plates, rfl, hname, -⟩
    exact ⟨name, rfl, hname⟩
  replace := by
    rintro o b ⟨name, crew, plates, rfl, -, hrest⟩ hb
    exact ⟨b, crew, plates, rfl, hb, hrest⟩

theorem ship_crew : HasEntry IsShip "Crew" fun x => x.type = crewType where
  holds := by
    rintro o ⟨name, crew, plates, rfl, -, hcrew, -⟩
    exact ⟨crew, rfl, hcrew⟩
  replace := by
    rintro o b ⟨name, crew, plates, rfl, hname, -, hplates⟩ hb
    exact ⟨name, b, plates, rfl, hname, hb, hplates⟩

theorem ship_hull : HasEntry IsShip "Hull" IsHull where
  holds := by
    rintro o ⟨name, crew, plates, rfl, -, -, hplates⟩
    exact ⟨hullOf plates, rfl, plates, rfl, hplates⟩
  replace := by
    rintro o b ⟨name, crew, plates, rfl, hname, hcrew, -⟩ ⟨plates', rfl, hplates⟩
    exact ⟨name, crew, plates', rfl, hname, hcrew, hplates⟩

theorem ship_separate : Separate IsShip shipClass shipStorage := by
  have hship (o : Value) (ho : IsShip o) : o.type = ship := by
    obtain ⟨name, crew, plates, rfl, -⟩ := ho
    rfl
  have hhull (o : Value) (ho : IsHull o) : o.type = hull := by
    obtain ⟨plates, rfl, -⟩ := ho
    rfl
  apply Separate.of_entries fun m => if m.name = "Plates" then "Hull" else m.name
  case htype =>
    intro m hm
    rcases mem_shipClass hm with rfl | rfl | rfl <;> rfl
  case hlies =>
    intro m hm
    rcases mem_shipClass hm with rfl | rfl | rfl
    · exact ship_name.field_liesIn
    · exact ship_crew.field_liesIn
    · exact hull_plates.field_liesIn.lawful.liesIn ship_hull
  case hstores =>
    intro m hm
    rcases mem_shipClass hm with rfl | rfl | rfl
    · exact Access.field_stores hship rfl ship_name
    · exact Access.property_stores hship ship_crew.field_liesIn.lawful
        fun o ho => ship_crew.field_put_get ho
    · exact Access.within_stores hship (Access.field_stores hhull rfl hull_plates) ship_hull
  case hd => decide

end

end DefLoad
