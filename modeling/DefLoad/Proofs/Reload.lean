import DefLoad.Arsenal.Weapons
import DefLoad.Proofs.Filling
import DefLoad.Proofs.Owners
import DefLoad.Proofs.StoredFields

/-!
Filling a def again comes to the same as filling a fresh one, as long as what a program brings along
looks at nothing but the members and the ID of an instance: a reset puts back these and nothing
else.
-/

namespace DefLoad

namespace Reported

variable {α β : Type} {R : α → α → Prop} {S : β → β → Prop}

/-- The same findings, and values that are related. -/
def Rel (R : α → α → Prop) (x y : Reported α) : Prop := x.found = y.found ∧ R x.value y.value

theorem Rel.bind {x y : Reported α} {f g : α → Reported β} (h : Rel R x y)
    (hf : ∀ a b, R a b → Rel S (f a) (g b)) : Rel S (x >>= f) (y >>= g) := by
  obtain ⟨hfound, hvalue⟩ := hf _ _ h.2
  exact ⟨by rw [bind_found, bind_found, h.1, hfound], hvalue⟩

/-- Two runs that begin in the same way. -/
theorem Rel.bind_left (x : Reported α) {f g : α → Reported β}
    (hf : Rel S (f x.value) (g x.value)) : Rel S (x >>= f) (x >>= g) :=
  ⟨by rw [bind_found, bind_found, hf.1], hf.2⟩

end Reported

theorem Config.member?_mem {c : Config} {t : Descriptor} {name : String} {m : Member}
    (h : c.member? t name = some m) : m ∈ t.ownMembers := by
  unfold Config.member? Config.memberIndex? at h
  split at h
  · simp at h
  · obtain ⟨i, hi, hm⟩ := Option.bind_eq_some_iff.mp h
    obtain ⟨hlt, hbound, -⟩ := List.findIdx?_eq_some_iff_getElem.mp hi
    obtain ⟨-, rfl⟩ := List.getElem?_eq_some_iff.mp hm
    simp only [Config.isBound, Bool.and_eq_true, Bool.not_eq_true'] at hbound
    exact Descriptor.mem_ownMembers.mpr ⟨List.getElem_mem hlt, hbound.1.2⟩

namespace Reading

variable {Inst : Value → Prop} {fresh : Value} {t : Descriptor} {s : Setting}

theorem wantedType_registered {child : Node} {declared target : Descriptor} {trail : List String}
    (hd : Registered s declared) (h : (wantedType s child declared trail).value = some target) :
    Registered s target := by
  rcases wantedType_some h with rfl | ⟨k, hk, -⟩
  · exact hd
  · exact ⟨k, hk⟩

theorem place_eq_some {trail : List String} {child : Node} {p : Place} :
    (place s trail t child).value = some p ↔
      s.env.config.member? t child.name = some p.member ∧
        s.types.get? p.member.type = some p.declared ∧
        (wantedType s child p.declared trail).value = some p.target := by
  obtain ⟨member, declared, target⟩ := p
  unfold place
  cases hm : s.env.config.member? t child.name with
  | none =>
    constructor
    · intro h
      cases h
    · rintro ⟨hmember, -⟩
      cases hmember
  | some m =>
    cases hd : s.types.get? m.type with
    | none =>
      simp only [hd, Reported.bind_value, Reported.pure_value, Option.some.injEq]
      constructor
      · intro h
        cases h
      · rintro ⟨rfl, hdeclared, -⟩
        rw [hd] at hdeclared
        cases hdeclared
    | some d =>
      simp only [hd, Reported.bind_value, Reported.pure_value, Option.some.injEq,
        Option.map_eq_some_iff, Place.mk.injEq]
      constructor
      · rintro ⟨target, ht, rfl, rfl, rfl⟩
        exact ⟨rfl, hd, ht⟩
      · rintro ⟨rfl, hdeclared, ht⟩
        rw [hd] at hdeclared
        cases hdeclared
        exact ⟨target, ht, rfl, rfl, rfl⟩

theorem place_spec {trail : List String} {child : Node} {p : Place}
    (h : (place s trail t child).value = some p) :
    p.member ∈ t.ownMembers ∧ Registered s p.target := by
  obtain ⟨hmember, hdeclared, htarget⟩ := place_eq_some.mp h
  exact ⟨Config.member?_mem hmember, wantedType_registered ⟨_, hdeclared⟩ htarget⟩

section

variable {o o' : Value} (hI : Independent Inst fresh t)

include hI

theorem store_alike {m : Member} (hm : m ∈ t.ownMembers) (h : Alike Inst t o o')
    (trail : List String) (write : Option Value) :
    (store m trail o write).Rel (Alike Inst t) (store m trail o' write) := by
  cases write with
  | none => exact ⟨rfl, h⟩
  | some v =>
    simp only [store]
    rcases hI.assign_alike h hm v with ⟨e, he, he'⟩ | ⟨w, w', hw, hw', ha⟩
    · rw [he, he']
      exact ⟨rfl, h⟩
    · rw [hw, hw']
      exact ⟨rfl, ha⟩

variable (hs : BlindTo (Alike Inst t) s)

include hs

/-- Storing one child keeps instances alike, with the same complaints. -/
theorem storeMember_alike (h : Alike Inst t o o') (trail : List String) (child : Node) :
    (storeMember s trail t o child (readNode s child)).Rel (Alike Inst t)
      (storeMember s trail t o' child (readNode s child)) := by
  unfold storeMember
  apply Reported.Rel.bind_left
  cases hp : (place s (trail ++ [child.name]) t child).value with
  | none => exact ⟨rfl, h⟩
  | some p =>
    obtain ⟨hm, htarget⟩ := place_spec hp
    obtain ⟨hcurrent, howner⟩ := hI.take_alike h hm
    dsimp only
    rw [hcurrent]
    -- the owners differ at most in what nobody sees, so both runs read the same
    have hread := readNode_ownedBy hs howner child
      (f := ⟨p.target, p.declared, none, some p.member, .member, trail ++ [child.name]⟩) htarget
      (taken p.member o').1
    simp only [Focus.ownedBy] at hread
    rw [hread]
    apply Reported.Rel.bind_left
    apply Reported.Rel.bind_left
    exact store_alike hI hm howner _ _

theorem readMembers_alike (h : Alike Inst t o o') (trail : List String) (cs : List Node) :
    (readMembers s trail t cs o).Rel (Alike Inst t) (readMembers s trail t cs o') := by
  induction cs generalizing o o' with
  | nil => exact ⟨rfl, h⟩
  | cons c cs ih =>
    unfold readMembers
    exact (storeMember_alike hI hs h trail c).bind fun w w' hw => ih hw

end

/-- What a program brings along sees the instances of a class by their IDs and members: it does not
tell owners apart that agree in these, and the hook of the class keeps such instances alike. -/
structure SeesMembers (Inst : Value → Prop) (t : Descriptor) (s : Setting) : Prop where
  owners : BlindTo (Alike Inst t) s
  hook : ∀ hook, t.postConstruct = some hook →
    ∀ c o o', Alike Inst t o o' → Alike Inst t (hook c o) (hook c o')

/-- Filling instances with the same members keeps them so, whatever their IDs were. -/
theorem readDef_alike {o o' : Value} (hI : Independent Inst fresh t) (hs : SeesMembers Inst t s)
    (ho : Inst o) (ho' : Inst o')
    (hr : ∀ m ∈ t.ownMembers, m.access.read o = m.access.read o') (id : String) (n : Node) :
    (readDef s t id n o).Rel (Alike Inst t) (readDef s t id n o') := by
  have hfilled := readMembers_alike hI hs.owners (hI.withId_alike ho ho' hr id) [id] n.children
  unfold readDef populate
  refine hfilled.bind fun w w' hw => ?_
  have hlast := hI.withId_alike hw.left hw.right hw.reads id
  cases hp : t.postConstruct with
  | none => exact ⟨rfl, hlast⟩
  | some hook => exact ⟨rfl, hs.hook hook hp _ _ _ hlast⟩

theorem readDef_withId (s : Setting) (t : Descriptor) (id : String) (n : Node) (o : Value) :
    readDef s t id n (o.withId id) = readDef s t id n o := by
  simp only [readDef, Value.withId_withId]

/-! Resetting. -/

theorem resetMembers_own (id : String) (fresh : Value) (ms : List Member) (o : Value) :
    resetMembers id fresh (ms.filter (!isIdName ·.name)) o = resetMembers id fresh ms o := by
  induction ms generalizing fresh o with
  | nil => rfl
  | cons m ms ih =>
    cases hm : isIdName m.name with
    | true => simp [resetMembers, hm, ih]
    | false => simp [resetMembers, hm, ih]

/-- Every member gets the value that it has in the fresh instance, from which nothing but that value
is taken; other members stay as they are. -/
theorem resetMembers_spec (id : String) {ms : List Member}
    (hn : ∀ m ∈ ms, isIdName m.name = false)
    (hl : ∀ m ∈ ms, m.access.Lawful Inst fresh)
    (hp : ms.Pairwise fun m m' => Access.Apart Inst m.access m'.access) {left o : Value}
    (hleft : Inst left) (ho : Inst o)
    (hr : ∀ m ∈ ms, m.access.read left = m.access.read fresh) :
    ∃ w, resetMembers id left ms o = pure w ∧ Inst w ∧
      (∀ m ∈ ms, m.access.read w = m.access.read fresh) ∧
      ∀ b, (∀ m ∈ ms, Access.Keeps Inst m.access b) → b.read w = b.read o := by
  induction ms generalizing left o with
  | nil => exact ⟨o, rfl, ho, by simp, fun b _ => rfl⟩
  | cons m ms ih =>
    obtain ⟨hapart, hp⟩ := List.pairwise_cons.mp hp
    have hlm := hl m List.mem_cons_self
    obtain ⟨x, left', htake, hleft'⟩ := hlm.take left hleft
    have hx : m.access.read fresh = some x := by
      rw [← hr m List.mem_cons_self, Access.read, htake]
      rfl
    obtain ⟨o', hassign, hread⟩ := hlm.restore o x ho hx
    have ho' : Inst o' := by
      rcases hlm.assign o o x ho ho ⟨rfl, rfl⟩ with ⟨e, he, -⟩ | ⟨w, -, hw, -, hiw, -⟩
      · simp [hassign] at he
      · rw [hassign] at hw
        cases hw
        exact hiw
    have hr' : ∀ m' ∈ ms, m'.access.read left' = m'.access.read fresh := by
      intro m' hm'
      rw [(hapart m' hm').1.take left x left' hleft htake]
      exact hr m' (List.mem_cons_of_mem m hm')
    obtain ⟨w, hw, hiw, hreads, hkeeps⟩ := ih (fun m' hm' => hn m' (List.mem_cons_of_mem m hm'))
      (fun m' hm' => hl m' (List.mem_cons_of_mem m hm')) hp hleft' ho' hr'
    refine ⟨w, ?_, hiw, ?_, ?_⟩
    · simp [resetMembers, hn m List.mem_cons_self, htake, hassign, hw]
    · intro m' hm'
      rcases List.mem_cons.mp hm' with rfl | hm'
      -- what is written after this member leaves it alone
      · rw [hkeeps m'.access fun m'' hm'' => (hapart m'' hm'').2, hread, hx]
      · exact hreads m' hm'
    · intro b hb
      rw [hkeeps b fun m' hm' => hb m' (List.mem_cons_of_mem m hm')]
      exact (hb m List.mem_cons_self).assign o x o' ho hassign

/-- Resetting an instance gives it the members of a fresh one, without a complaint. -/
theorem reset_spec (hI : Independent Inst fresh t) (hb : t.build none = .ok fresh) {o : Value}
    (ho : Inst o) (id : String) :
    ∃ w, reset t id o = pure (w.withId id) ∧ Inst w ∧
      ∀ m ∈ t.ownMembers, m.access.read w = m.access.read fresh := by
  obtain ⟨w, hw, hiw, hreads, -⟩ := resetMembers_spec id
    (fun m hm => (Descriptor.mem_ownMembers.mp hm).2) hI.lawful hI.apart hI.start ho fun _ _ => rfl
  refine ⟨w, ?_, hiw, hreads⟩
  rw [Descriptor.ownMembers, resetMembers_own] at hw
  simp only [reset, hb, hw, pure_bind]

section

open Arsenal

def swordLayout : Layout where
  owner := swordDef
  names := "id" :: swordFields.map Prod.fst
  fields := swordFields.map fun f => ⟨f.1, f.2, initial f.2⟩

def sword : Descriptor where
  key := swordDef
  name := "SwordDef"
  fullName := swordDef.title
  schema := 0
  shape := .class (swordLayout.fields.map fun f =>
    ⟨f.name, [], f.type, .field, true, .default, f.access swordDef⟩)
  construct := some (.ok newSword)

/-- Counts the runes of the owner. -/
def runeCounter : Parser where
  name := "runes"
  contextFree := false
  handles t := t.key = .u32
  parse _ c :=
    match c.owner.bind (·.field? "Runes") with
    | some (.list _ runes) => .ok (u32Value runes.length)
    | _ => .error "no runes"

def swordSetting : Setting :=
  let words : TypeKey := .list .string
  ⟨⟨⟨[(.u32, plainType .u32 .scalar), (.string, plainType .string .scalar),
      (words, plainType words (.list .string))], []⟩, {}, fun _ => none⟩,
    runeCounter :: Parsers.standard⟩

def wornSword : Value := (newSword.setField "Runes" (.list .string [])).withId "Sting"

def swordNode : Node :=
  { Node.named "Sting" with
    children := [Node.named "Edge",
      { Node.named "Runes" with children := [⟨"li", .empty, some "keen", []⟩] }] }

theorem swordLayout_sound : swordLayout.Sound := ⟨by decide, by decide, by decide⟩

theorem swordLayout_stores : swordLayout.Stores sword := rfl

theorem newSword_holds : swordLayout.Holds newSword := by
  refine ⟨⟨_, rfl, by decide⟩, ⟨"", rfl⟩, ?_⟩
  intro f hf
  simp only [swordLayout, swordFields, List.map_cons, List.map_nil, List.mem_cons,
    List.not_mem_nil, or_false] at hf
  rcases hf with rfl | rfl | rfl | rfl <;> exact ⟨_, rfl, rfl⟩

theorem swordSetting_seesMembers : SeesMembers swordLayout.Holds sword swordSetting where
  owners := .of_eq (fun _ _ => Layout.eq_of_alike swordLayout_stores (by decide) (by decide))
    swordSetting
  hook _ h := by cases h

end

/-! A blade counts its uses in an entry that is no member, so a reset leaves them. A hook or a
parser that looks at them tells a used blade from a new one. -/

section

open Arsenal TypeKey

def bladeDef : TypeKey := game "BladeDef"

def bladeLayout : Layout where
  owner := bladeDef
  names := ["id", "Damage", "uses"]
  fields := [⟨"Damage", i32, i32Value 0⟩]

def damageMember : Member := fieldMember bladeDef i32 "Damage" (i32Value 0)

def bladeOf (uses : Int) : Value := newDef bladeDef [("Damage", i32)] [("uses", i32Value uses)]

def blade : Descriptor :=
  { plainType bladeDef (.class [damageMember]) with construct := some (.ok (bladeOf 0)) }

/-- Adds the uses to the damage and counts one more. -/
def sharpen (_ : Context) (v : Value) : Value :=
  let uses := v.intField "uses"
  let worn := v.setField "uses" (i32Value (uses + 1))
  worn.setField "Damage" (i32Value (v.intField "Damage" + uses))

def honedBlade : Descriptor := { blade with postConstruct := some sharpen }

/-- Gives the uses of the owner for every number. -/
def useCounter : Parser where
  name := "uses"
  contextFree := false
  handles t := t.key = i32
  parse _ c := .ok (i32Value ((c.owner.getD default).intField "uses"))

def bladeSetting (ps : List Parser) : Setting :=
  ⟨⟨⟨[(i32, plainType i32 .scalar)], []⟩, {}, fun _ => none⟩, ps ++ Parsers.standard⟩

def bladeNode : Node :=
  { Node.named "Kris" with children := [⟨"Damage", .empty, some "5", []⟩] }

theorem bladeOf_holds (uses : Int) : bladeLayout.Holds (bladeOf uses) := by
  refine ⟨⟨_, rfl, rfl⟩, ⟨"", rfl⟩, ?_⟩
  intro f hf
  rw [List.mem_singleton.mp hf]
  exact ⟨_, rfl, rfl⟩

end

end Reading

end DefLoad
