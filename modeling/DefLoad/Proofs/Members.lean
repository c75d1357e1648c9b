import DefLoad.Reading.Node
import Mathlib.Data.List.Pairwise

/-!
When the members of a class are read and written independently of each other.
-/

namespace DefLoad

namespace Access

/-- The value of a member where it is, without what taking it leaves behind. -/
def read (a : Access) (o : Value) : Option Value := (a.take o).map Prod.fst

/-- Two owners with one ID and one value of the member. -/
def Agree (a : Access) (o o' : Value) : Prop := a.read o = a.read o' ∧ o.id = o'.id

/-- A member of the instances of a class whose operations depend on nothing but its own value and
the ID. What it holds in a fresh instance can be put into any other. -/
structure Lawful (Inst : Value → Prop) (fresh : Value) (a : Access) : Prop where
  take : ∀ o, Inst o → ∃ x w, a.take o = some (x, w) ∧ Inst w
  left : ∀ o o' x x' w w', Inst o → Inst o' → a.Agree o o' → a.take o = some (x, w) →
    a.take o' = some (x', w') → a.Agree w w'
  assign : ∀ o o' x, Inst o → Inst o' → a.Agree o o' →
    (∃ e, a.assign o x = .error e ∧ a.assign o' x = .error e) ∨
    ∃ w w', a.assign o x = .ok w ∧ a.assign o' x = .ok w' ∧ Inst w ∧ Inst w' ∧ a.Agree w w'
  restore : ∀ o x, Inst o → a.read fresh = some x →
    ∃ w, a.assign o x = .ok w ∧ a.read w = some x
  withId : ∀ o o' id, Inst o → Inst o' → a.read o = a.read o' →
    a.read (o.withId id) = a.read (o'.withId id)

/-- Operations on the first member leave the second one as it is. -/
structure Keeps (Inst : Value → Prop) (a b : Access) : Prop where
  take : ∀ o x w, Inst o → a.take o = some (x, w) → b.read w = b.read o
  assign : ∀ o x w, Inst o → a.assign o x = .ok w → b.read w = b.read o

def Apart (Inst : Value → Prop) (a b : Access) : Prop := Keeps Inst a b ∧ Keeps Inst b a

theorem Apart.symm {Inst : Value → Prop} {a b : Access} (h : Apart Inst a b) : Apart Inst b a :=
  ⟨h.2, h.1⟩

end Access

/-- The members that a load reads and resets; the ID is none of them. -/
def Descriptor.ownMembers (t : Descriptor) : List Member := t.members.filter (!isIdName ·.name)

/-- A class whose members are read and written independently of each other. `Inst` are the states of
its instances. -/
structure Independent (Inst : Value → Prop) (fresh : Value) (t : Descriptor) : Prop where
  start : Inst fresh
  lawful : ∀ m ∈ t.ownMembers, m.access.Lawful Inst fresh
  apart : t.ownMembers.Pairwise fun m m' => Access.Apart Inst m.access m'.access
  withId : ∀ o id, Inst o → Inst (o.withId id) ∧ (o.withId id).id = id

/-- Two instances with one ID and the same values in all members. -/
structure Alike (Inst : Value → Prop) (t : Descriptor) (o o' : Value) : Prop where
  left : Inst o
  right : Inst o'
  id : o.id = o'.id
  reads : ∀ m ∈ t.ownMembers, m.access.read o = m.access.read o'

theorem Descriptor.mem_ownMembers {t : Descriptor} {m : Member} :
    m ∈ t.ownMembers ↔ m ∈ t.members ∧ isIdName m.name = false := by
  simp [ownMembers]

section

variable {Inst : Value → Prop} {fresh : Value} {t : Descriptor} {m : Member} {o o' : Value}

theorem Alike.agree (h : Alike Inst t o o') (hm : m ∈ t.ownMembers) : m.access.Agree o o' :=
  ⟨h.reads m hm, h.id⟩

namespace Independent

variable (hI : Independent Inst fresh t)

include hI

/-- An operation on one member keeps instances alike when it keeps that member alike. -/
theorem alike_of_keeps (h : Alike Inst t o o') (hm : m ∈ t.ownMembers) {w w' : Value}
    (hw : Inst w) (hw' : Inst w') (ha : m.access.Agree w w')
    (hk : ∀ b, Access.Keeps Inst m.access b → b.read w = b.read o ∧ b.read w' = b.read o') :
    Alike Inst t w w' := by
  refine ⟨hw, hw', ha.2, ?_⟩
  intro m' hm'
  -- a class may list one member twice
  by_cases he : m = m'
  · rw [← he]
    exact ha.1
  · have : Std.Symm fun m m' : Member => Access.Apart Inst m.access m'.access :=
      ⟨fun _ _ => Access.Apart.symm⟩
    obtain ⟨hl, hr⟩ := hk m'.access (hI.apart.forall hm hm' he).1
    rw [hl, hr]
    exact h.reads m' hm'

theorem take_alike (h : Alike Inst t o o') (hm : m ∈ t.ownMembers) :
    (Reading.taken m o).1 = (Reading.taken m o').1 ∧
      Alike Inst t (Reading.taken m o).2 (Reading.taken m o').2 := by
  have hl := hI.lawful m hm
  have ha := h.agree hm
  obtain ⟨x, w, ht, hw⟩ := hl.take o h.left
  obtain ⟨x', w', ht', hw'⟩ := hl.take o' h.right
  have hx : x = x' := by simpa [Access.read, ht, ht'] using ha.1
  have hleft := hl.left o o' x x' w w' h.left h.right ha ht ht'
  simp only [Reading.taken, ht, ht']
  refine ⟨by rw [hx], hI.alike_of_keeps h hm hw hw' hleft ?_⟩
  intro b hb
  exact ⟨hb.take o x w h.left ht, hb.take o' x' w' h.right ht'⟩

theorem assign_alike (h : Alike Inst t o o') (hm : m ∈ t.ownMembers) (x : Value) :
    (∃ e, m.access.assign o x = .error e ∧ m.access.assign o' x = .error e) ∨
    ∃ w w', m.access.assign o x = .ok w ∧ m.access.assign o' x = .ok w' ∧ Alike Inst t w w' := by
  rcases (hI.lawful m hm).assign o o' x h.left h.right (h.agree hm) with he | hok
  · exact .inl he
  · obtain ⟨w, w', ha, ha', hw, hw', hagree⟩ := hok
    refine .inr ⟨w, w', ha, ha', hI.alike_of_keeps h hm hw hw' hagree ?_⟩
    intro b hb
    exact ⟨hb.assign o x w h.left ha, hb.assign o' x w' h.right ha'⟩

/-- Giving both instances one ID makes up for different ones. -/
theorem withId_alike (ho : Inst o) (ho' : Inst o')
    (hr : ∀ m ∈ t.ownMembers, m.access.read o = m.access.read o') (id : String) :
    Alike Inst t (o.withId id) (o'.withId id) := by
  obtain ⟨hw, hid⟩ := hI.withId o id ho
  obtain ⟨hw', hid'⟩ := hI.withId o' id ho'
  refine ⟨hw, hw', hid.trans hid'.symm, ?_⟩
  intro m hm
  exact (hI.lawful m hm).withId o o' id ho ho' (hr m hm)

end Independent

end

end DefLoad
