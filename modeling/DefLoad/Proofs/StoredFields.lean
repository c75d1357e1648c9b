import DefLoad.Proofs.Members
import Mathlib.Data.List.Nodup

/-!
Classes whose members are fields of a record. Their members are independent, and where the record
holds nothing but the members and the ID, these determine an instance.
-/

namespace DefLoad

/-- A field of a record: its name, its type and what is left behind when its value is taken. -/
structure StoredField where
  name : String
  type : TypeKey
  default : Value

def StoredField.access (owner : TypeKey) (f : StoredField) : Access :=
  .field owner f.type f.name f.default

/-- How instances of a class are stored: the names of all entries of the record, the ID among them,
and the entries that are members. -/
structure Layout where
  owner : TypeKey
  names : List String
  fields : List StoredField

namespace Layout

/-- Fields of different names, none of them the ID, that leave values of their own type behind. -/
structure Sound (l : Layout) : Prop where
  distinct : (l.fields.map StoredField.name).Nodup
  noId : ∀ f ∈ l.fields, f.name ≠ "id"
  typed : ∀ f ∈ l.fields, f.default.type = f.type

/-- A record of the layout, with an ID and a value of its type in each field. -/
structure Holds (l : Layout) (o : Value) : Prop where
  record : ∃ entries, o = .record l.owner entries ∧ Assoc.keys entries = l.names
  id : ∃ s, o.field? "id" = some (.string s)
  fields : ∀ f ∈ l.fields, ∃ x, o.field? f.name = some x ∧ x.type = f.type

namespace Holds

variable {l : Layout} {f g : StoredField} {fresh o w x : Value}

theorem type_eq (h : l.Holds o) : o.type = l.owner := by
  obtain ⟨entries, rfl, -⟩ := h.record
  rfl

theorem field?_setField (h : l.Holds o) (name : String) (x : Value) :
    (o.setField name x).field? name = some x := by
  obtain ⟨entries, rfl, -⟩ := h.record
  simp [Value.setField, Value.field?]

/-- An entry that is there can be set to a value that suits it. -/
theorem setField (h : l.Holds o) {name : String} (hn : ∃ y, o.field? name = some y)
    (hid : name = "id" → ∃ s, x = .string s)
    (hx : ∀ f ∈ l.fields, f.name = name → x.type = f.type) : l.Holds (o.setField name x) := by
  have hself := h.field?_setField name x
  constructor
  case record =>
    obtain ⟨entries, rfl, hk⟩ := h.record
    obtain ⟨y, hy⟩ := hn
    have hc : Assoc.contains entries name = true := by
      simp only [Value.field?] at hy
      simp [Assoc.contains, hy]
    exact ⟨_, rfl, by rw [Assoc.keys_set_of_contains entries name x hc, hk]⟩
  case id =>
    by_cases he : name = "id"
    · obtain ⟨s, rfl⟩ := hid he
      exact ⟨s, by rw [← he, hself]⟩
    · rw [Value.field?_setField_ne o x he]
      exact h.id
  case fields =>
    intro f hf
    by_cases he : name = f.name
    · exact ⟨x, by rw [← he, hself], hx f hf he.symm⟩
    · rw [Value.field?_setField_ne o x he]
      exact h.fields f hf

theorem read_access (h : l.Holds o) : (f.access l.owner).read o = o.field? f.name := by
  simp only [StoredField.access, Access.read, Access.field, h.type_eq, if_true, Option.map_map]
  cases o.field? f.name <;> rfl

theorem take_access (h : l.Holds o) (hf : f ∈ l.fields) :
    ∃ x, (f.access l.owner).take o = some (x, o.setField f.name f.default) := by
  obtain ⟨x, hx, -⟩ := h.fields f hf
  refine ⟨x, ?_⟩
  simp [StoredField.access, Access.field, h.type_eq, hx]

theorem assign_access (h : l.Holds o) (x : Value) :
    (f.access l.owner).assign o x =
      if x.type = f.type then .ok (o.setField f.name x)
      else .error (.valueMismatch f.type.title) := by
  simp only [StoredField.access, Access.field, Access.checked, h.type_eq]
  by_cases hx : x.type = f.type <;> simp [hx]

variable (hl : l.Sound)

include hl

theorem withId (h : l.Holds o) (id : String) : l.Holds (o.withId id) := by
  obtain ⟨s, hs⟩ := h.id
  exact h.setField ⟨_, hs⟩ (fun _ => ⟨id, rfl⟩) fun f hf hn => (hl.noId f hf hn).elim

theorem setField_own (h : l.Holds o) (hf : f ∈ l.fields) (hx : x.type = f.type) :
    l.Holds (o.setField f.name x) := by
  obtain ⟨y, hy, -⟩ := h.fields f hf
  refine h.setField ⟨y, hy⟩ (fun hn => (hl.noId f hf hn).elim) ?_
  intro g hg hn
  rw [List.inj_on_of_nodup_map hl.distinct hg hf hn]
  exact hx

/-- A stored field depends on nothing else. -/
theorem access_lawful (hfresh : l.Holds fresh) (hf : f ∈ l.fields) :
    (f.access l.owner).Lawful l.Holds fresh := by
  have hid (o x : Value) : (o.setField f.name x).id = o.id := by
    simp only [Value.id, Value.textField, Value.field?_setField_ne o x (hl.noId f hf)]
  have hagree {o o' : Value} (ho : l.Holds o) (ho' : l.Holds o')
      (h : (f.access l.owner).Agree o o') (x : Value) (hx : x.type = f.type) :
      (f.access l.owner).Agree (o.setField f.name x) (o'.setField f.name x) := by
    refine ⟨?_, by rw [hid, hid, h.2]⟩
    rw [(ho.setField_own hl hf hx).read_access, (ho'.setField_own hl hf hx).read_access,
      ho.field?_setField, ho'.field?_setField]
  constructor
  case take =>
    intro o ho
    obtain ⟨x, ht⟩ := ho.take_access hf
    exact ⟨x, _, ht, ho.setField_own hl hf (hl.typed f hf)⟩
  case left =>
    intro o o' x x' w w' ho ho' h ht ht'
    obtain ⟨y, hy⟩ := ho.take_access hf
    obtain ⟨y', hy'⟩ := ho'.take_access hf
    rw [hy] at ht
    rw [hy'] at ht'
    cases ht
    cases ht'
    exact hagree ho ho' h f.default (hl.typed f hf)
  case assign =>
    intro o o' x ho ho' h
    rw [ho.assign_access, ho'.assign_access]
    by_cases hx : x.type = f.type
    · rw [if_pos hx, if_pos hx]
      exact .inr ⟨_, _, rfl, rfl, ho.setField_own hl hf hx, ho'.setField_own hl hf hx,
        hagree ho ho' h x hx⟩
    · rw [if_neg hx, if_neg hx]
      exact .inl ⟨_, rfl, rfl⟩
  case restore =>
    intro o x ho hx
    rw [hfresh.read_access] at hx
    obtain ⟨y, hy, hty⟩ := hfresh.fields f hf
    have hxy : x = y := Option.some.inj (hx.symm.trans hy)
    subst hxy
    refine ⟨o.setField f.name x, ?_, ?_⟩
    · rw [ho.assign_access, if_pos hty]
    · rw [(ho.setField_own hl hf hty).read_access, ho.field?_setField]
  case withId =>
    intro o o' id ho ho' h
    have hne : "id" ≠ f.name := Ne.symm (hl.noId f hf)
    rw [ho.read_access, ho'.read_access] at h
    rw [(ho.withId hl id).read_access, (ho'.withId hl id).read_access, Value.withId, Value.withId,
      Value.field?_setField_ne _ _ hne, Value.field?_setField_ne _ _ hne, h]

/-- Fields of different names do not touch each other. -/
theorem access_keeps (hf : f ∈ l.fields) (hn : f.name ≠ g.name) :
    Access.Keeps l.Holds (f.access l.owner) (g.access l.owner) := by
  have hread {o : Value} (ho : l.Holds o) (x : Value) (hx : x.type = f.type) :
      (g.access l.owner).read (o.setField f.name x) = (g.access l.owner).read o := by
    rw [(ho.setField_own hl hf hx).read_access, ho.read_access, Value.field?_setField_ne o x hn]
  constructor
  case take =>
    intro o x w ho ht
    obtain ⟨y, hy⟩ := ho.take_access hf
    rw [hy] at ht
    cases ht
    exact hread ho f.default (hl.typed f hf)
  case assign =>
    intro o x w ho ha
    rw [ho.assign_access] at ha
    split at ha
    · rename_i hx
      cases ha
      exact hread ho x hx
    · cases ha

end Holds

/-- The members of the class are the fields of the layout. -/
def Stores (l : Layout) (t : Descriptor) : Prop :=
  t.ownMembers.map Member.access = l.fields.map (StoredField.access l.owner)

variable {l : Layout} {t : Descriptor} {fresh : Value}

theorem Sound.independent (hl : l.Sound) (hfresh : l.Holds fresh) (ht : l.Stores t) :
    Independent l.Holds fresh t := by
  constructor
  case start => exact hfresh
  case lawful =>
    intro m hmem
    have ha : m.access ∈ l.fields.map (StoredField.access l.owner) := by
      rw [← ht]
      exact List.mem_map_of_mem hmem
    obtain ⟨f, hf, he⟩ := List.mem_map.mp ha
    rw [← he]
    exact hfresh.access_lawful hl hf
  case apart =>
    have hne : l.fields.Pairwise fun f g => f.name ≠ g.name := List.pairwise_map.mp hl.distinct
    have hfields : (l.fields.map (StoredField.access l.owner)).Pairwise (Access.Apart l.Holds) := by
      refine List.pairwise_map.mpr (hne.imp_of_mem fun hf hg hn => ?_)
      exact ⟨Holds.access_keeps hl hf hn, Holds.access_keeps hl hg (Ne.symm hn)⟩
    rw [← ht] at hfields
    exact List.pairwise_map.mp hfields
  case withId =>
    intro o id ho
    refine ⟨ho.withId hl id, ?_⟩
    simp [Value.id, Value.textField, Value.withId, ho.field?_setField, Value.string]

/-- Where the record holds nothing besides, instances that are alike are the same. -/
theorem eq_of_alike (ht : l.Stores t) (hd : l.names.Nodup)
    (hn : ∀ name ∈ l.names, name = "id" ∨ ∃ f ∈ l.fields, f.name = name) {o o' : Value}
    (h : Alike l.Holds t o o') : o = o' := by
  have hfield : ∀ name ∈ l.names, o.field? name = o'.field? name := by
    intro name hname
    rcases hn name hname with rfl | ⟨f, hf, rfl⟩
    · obtain ⟨s, hs⟩ := h.left.id
      obtain ⟨s', hs'⟩ := h.right.id
      have hid := h.id
      simp only [Value.id, Value.textField, hs, hs', Value.string] at hid
      rw [hs, hs', hid]
    · have ha : f.access l.owner ∈ t.ownMembers.map Member.access := by
        rw [ht]
        exact List.mem_map_of_mem hf
      obtain ⟨m, hm, he⟩ := List.mem_map.mp ha
      have hread := h.reads m hm
      rwa [he, h.left.read_access, h.right.read_access] at hread
  obtain ⟨entries, rfl, hk⟩ := h.left.record
  obtain ⟨entries', rfl, hk'⟩ := h.right.record
  have heq : entries = entries' := by
    apply Assoc.ext_of_nodup (hk.trans hk'.symm) (hk ▸ hd)
    rw [hk]
    exact hfield
  rw [heq]

end Layout

end DefLoad
