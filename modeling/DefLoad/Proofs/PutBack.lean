import DefLoad.Proofs.Accounting

/-!
A member whose child gives nothing to write keeps its value. While the child is read the value is
out of its owner; it is put back, except where an optional type does not take what was read inside
it.
-/

namespace DefLoad

/-- An optional value is one of the two that its type has. -/
inductive Value.Layered : Value → Prop
  | absent (k : TypeKey) : Layered (.absent k)
  | present {v : Value} (h : Layered v) : Layered (.present v)
  | plain {v : Value} (h : ∀ k, v.type ≠ .optional k) : Layered v

theorem Value.push_keeps_type {k : TypeKey} {xs x ys : Value} (h : Value.push k xs x = some ys) :
    ys.type = xs.type := by
  unfold Value.push at h
  split at h
  · split at h
    · cases h
      rfl
    · cases h
  · cases h

theorem Value.insert_keeps_type {k : TypeKey} {m key x m' : Value}
    (h : (Value.insert k m key x).map? = some m') : m'.type = m.type := by
  have htype := Value.type_insert h
  unfold Value.insert at h
  split at h
  · split at h
    · rename_i hk
      rw [htype, hk.1]
      rfl
    · cases h
  · cases h

/-- The value of a member in this owner is of the given type, and putting it back where it was taken
from changes nothing. -/
structure Access.Restores (type : TypeKey) (a : Access) (o : Value) : Prop where
  typed : ∀ x w, a.take o = some (x, w) → x.type = type
  layered : ∀ x w, a.take o = some (x, w) → x.Layered
  assign : ∀ x w, a.take o = some (x, w) → a.assign w x = .ok o

theorem Access.field_restores {owner type : TypeKey} {name : String} {default o x : Value}
    (ho : o.type = owner) (hx : o.field? name = some x) (ht : x.type = type) (hl : x.Layered) :
    (Access.field owner type name default).Restores type o := by
  have htake : (Access.field owner type name default).take o =
      some (x, o.setField name default) := by
    simp [Access.field, ho, hx]
  have hback : (o.setField name default).setField name x = o :=
    Value.setField_setField_of_field? hx default
  constructor
  case typed =>
    intro y w h
    rw [htake] at h
    cases h
    exact ht
  case layered =>
    intro y w h
    rw [htake] at h
    cases h
    exact hl
  case assign =>
    intro y w h
    rw [htake] at h
    cases h
    simp [Access.field, Access.checked, ho, ht, hback]

namespace Reading

/-- What a program brings along works in place: it never makes a value one of another type. -/
structure KeepsTypes (s : Setting) : Prop where
  optional : ∀ k t inner, s.types.get? k = some t → t.shape = .optional inner →
    ∃ j, t.key = .optional j
  take : ∀ k t, s.types.get? k = some t → ∀ m ∈ t.members, ∀ o x w,
    m.access.take o = some (x, w) → w.type = o.type
  assign : ∀ k t, s.types.get? k = some t → ∀ m ∈ t.members, ∀ o x w,
    m.access.assign o x = .ok w → w.type = o.type
  hook : ∀ k t hook, s.types.get? k = some t → t.postConstruct = some hook →
    ∀ c v, (hook c v).type = v.type

/-- The members of all classes work in place, and there are no hooks. -/
theorem KeepsTypes.of_access {s : Setting}
    (hoptional : ∀ k t inner, s.types.get? k = some t → t.shape = .optional inner →
      ∃ j, t.key = .optional j)
    (haccess : ∀ k t, s.types.get? k = some t → ∀ m ∈ t.members, m.access.KeepsType)
    (hhook : ∀ k t, s.types.get? k = some t → t.postConstruct = none) : KeepsTypes s where
  optional := hoptional
  take k t h m hm := (haccess k t h m hm).take
  assign k t h m hm := (haccess k t h m hm).assign
  hook k t hook h hsome := by
    rw [hhook k t h] at hsome
    cases hsome

/-- No complaint at this place that a value does not fit an optional type. -/
def NoMisfit (trail : List String) (ds : Diagnostics) : Prop :=
  ∀ d ∈ ds, d.path = pathOf trail → ¬BeginsWith d.message "value does not fit "

/-- What reading leaves of the stored value: all of it, unless a value of its type was made of it. -/
inductive Settled (f : Focus) (current : Option Value) : Step → Prop
  | nothing : Settled f current ⟨.noValue, current⟩
  | beside (v : Value) : Settled f current ⟨.value v, current⟩
  | made {x v : Value} (hcurrent : current = some x) (hx : x.type = f.target.key)
    (hv : v.type = f.target.key) : Settled f current ⟨.value v, none⟩

section

variable {s : Setting} {n : Node} {f : Focus} {current : Option Value} {r : Reported Step}

theorem Fails.settled (h : Fails f current r) : Settled f current r.value := by
  cases h <;> exact .nothing

theorem unwrapped_layered (hcurrent : ∀ x, current = some x → x.Layered) :
    ∀ x, f.unwrapped current = some x → x.Layered := by
  intro x hx
  obtain ⟨y, hy, hunwrap⟩ := Option.bind_eq_some_iff.mp hx
  obtain ⟨rfl, -⟩ := reusable_eq_some.mp hy
  have hlayered := hcurrent y rfl
  unfold Value.unwrap at hunwrap
  split at hunwrap
  case h_1 w =>
    split at hunwrap
    case isTrue =>
      cases hunwrap
      cases hlayered with
      | present hw => exact hw
      | plain hplain => exact (hplain _ rfl).elim
    case isFalse => cases hunwrap
  case h_2 => cases hunwrap

section

variable (hs : KeepsTypes s)

include hs

theorem afterReading_type (c : Context) (v : Value) : (afterReading s c v).type = v.type := by
  unfold afterReading
  cases ht : s.types.get? v.type with
  | none => rfl
  | some t =>
    cases hh : t.postConstruct with
    | none => simp [hh]
    | some hook => simpa [hh] using hs.hook _ t hook ht hh c v

theorem storeMember_type {trail : List String} {t : Descriptor} (ht : Registered s t) {p : Place}
    {child : Node} (hp : (place s trail t child).value = some p) (v : Value) (step : Step) :
    ((memberDemand s trail v p).finish step).value.type = v.type := by
  obtain ⟨k, hk⟩ := ht
  have hm := (Descriptor.mem_ownMembers.mp (place_spec hp).1).1
  have htaken : (taken p.member v).2.type = v.type := by
    unfold taken
    cases htake : p.member.access.take v with
    | none => rfl
    | some xw => exact hs.take k t hk p.member hm v xw.1 xw.2 htake
  simp only [memberDemand, Reported.bind_value]
  cases (toStore s p trail step).value with
  | none => exact htaken
  | some x =>
    simp only [store]
    cases ha : p.member.access.assign (taken p.member v).2 x with
    | ok w => exact (hs.assign k t hk p.member hm _ x w ha).trans htaken
    | error e => exact htaken

theorem add_type {F : Filling} (hF : F.Known s) (v : Value) (c : Node) :
    (F.add s v c).value.type = v.type := by
  have hadds := Filling.add_adds s F v c
  generalize F.add s v c = r at hadds
  cases hadds with
  | refused message => rfl
  | keyless _ _ => rfl
  | lost hnamed hk => rfl
  | read hd hds =>
    dsimp only
    cases hd with
    | member hp => exact storeMember_type hs hF hp v _
    | item ht =>
      rcases itemDemand_finish _ v _ _ with ⟨g, x, ys, -, -, hys, hvalue⟩ | ⟨hvalue, -⟩
      · rw [hvalue, Value.push_keeps_type hys]
      · rw [hvalue]
    | entry hkey ht =>
      rcases entryDemand_finish _ v _ _ _ _ with ⟨g, x, ys, -, -, hys, hvalue⟩ | ⟨hvalue, -⟩
      · rw [hvalue, Value.insert_keeps_type hys]
      · rw [hvalue]

theorem fill_type {F : Filling} (hF : F.Known s) (cs : List Node) (v : Value) :
    (F.fill s cs v).value.type = v.type := by
  induction cs generalizing v with
  | nil => rfl
  | cons c cs ih =>
    simp only [Filling.fill, Reported.bind_value]
    rw [ih, add_type hs hF]

theorem ReadsPlain.settled (h : ReadsPlain s n f current r) (hf : Registered s f.target) :
    Settled f current r.value := by
  cases h with
  | filled hopens hstarts hds =>
    cases hstarts with
    | stored hv =>
      obtain ⟨hcurrent, htype⟩ := reusable_eq_some.mp hv
      refine .made hcurrent htype ?_
      rw [afterReading_type hs, fill_type hs (hopens.known hf), htype]
    | fresh hnone hv => exact .beside _
  | parsed hp hv => exact .beside _
  | failed h => exact h.settled

/-- A stored optional value that is matched is found again from what is inside it. -/
theorem unwrapped_restores (hf : Registered s f.target) {inner : TypeKey}
    (hshape : f.target.shape = .optional inner) (hcurrent : ∀ x, current = some x → x.Layered)
    (hmatched : f.matched current = true) :
    ((f.unwrapped current).bind (Value.wrap f.target.key)).or (Value.none? f.target.key) =
      current := by
  obtain ⟨k, hk⟩ := hf
  obtain ⟨j, hj⟩ := hs.optional k f.target inner hk hshape
  obtain ⟨x, hx⟩ := Option.isSome_iff_exists.mp hmatched
  obtain ⟨rfl, htype⟩ := reusable_eq_some.mp hx
  simp only [Focus.unwrapped, hx, Option.bind_some]
  cases hcurrent x rfl with
  | absent i =>
    rw [← htype]
    rfl
  | @present v hv =>
    have hwrap : Value.wrap f.target.key v = some (.present v) := if_pos htype.symm
    simp only [Value.unwrap, htype, if_true, Option.bind_some, hwrap, Option.some_or]
  | plain hplain => exact (hplain j (htype.trans hj)).elim

/-- Reading through optional types leaves the stored value as it was, unless a value of its type was
made of it. -/
theorem ReadsThrough.settled {k : Nat} (h : ReadsThrough s n k f current r)
    (hf : Registered s f.target) (hcurrent : ∀ x, current = some x → x.Layered)
    (hfit : NoMisfit f.trail r.found) : Settled f current r.value := by
  induction h with
  | exhausted => exact .nothing
  | plain hplain h => exact h.settled hs hf
  | unregistered hshape hinner h => exact h.settled
  | @layer k f current r inner t hshape hinner h ih =>
    have hinside := ih ⟨inner, hinner⟩ (unwrapped_layered hcurrent)
      fun d hd => hfit d (List.mem_append_left _ hd)
    have hfit' : NoMisfit f.trail (rewrap f (f.matched current) r.value
        (if f.matched current then none else current)).found :=
      fun d hd => hfit d (List.mem_append_right _ hd)
    -- a value inside is wrapped, and takes the place of the stored one
    have hvalue {v : Value} (ho : r.value.outcome = .value v) :
        Settled f current (rewrap f (f.matched current) r.value
          (if f.matched current then none else current)).value := by
      unfold rewrap at hfit' ⊢
      rw [ho] at hfit' ⊢
      dsimp only at hfit' ⊢
      cases hwrap : Value.wrap f.target.key v with
      | none =>
        rw [hwrap] at hfit'
        exact (hfit' _ (List.mem_singleton_self _) rfl (beginsWith_append _ _)).elim
      | some w =>
        cases hmatched : f.matched current with
        | false => exact .beside w
        | true =>
          obtain ⟨x, hx⟩ := Option.isSome_iff_exists.mp hmatched
          obtain ⟨hx, htype⟩ := reusable_eq_some.mp hx
          exact .made hx htype (Value.type_wrap hwrap)
    simp only [Reported.bind_value]
    generalize hstep : r.value = step at hinside hvalue
    cases hinside with
    | nothing =>
      simp only [rewrap]
      cases hmatched : f.matched current with
      | false => exact .nothing
      | true =>
        have hback := unwrapped_restores hs hf hshape hcurrent hmatched
        simp only [if_true, hback]
        exact .nothing
    | beside v => exact hvalue rfl
    | made hx hv hw => exact hvalue rfl

theorem readNode_settled (hf : Registered s f.target)
    (hcurrent : ∀ x, current = some x → x.Layered)
    (hfit : NoMisfit f.trail (readNode s n f current).found) :
    (readNode s n f current).value = ⟨.null, current⟩ ∨
      Settled f current (readNode s n f current).value := by
  rw [readNode_eq] at hfit ⊢
  split
  case isTrue => exact .inl rfl
  case isFalse hnull =>
    rw [if_neg hnull] at hfit
    exact .inr ((throughOptional_reads s n _ f current).settled hs hf hcurrent hfit)

end

/-- Where there is no value to write, what is left of the stored value is written. -/
theorem toStore_left {p : Place} {trail : List String} {step : Step}
    (hnone : ∀ x, ¬Converts s.types p.declared.key step.outcome x) :
    (toStore s p trail step).value = step.left := by
  unfold toStore
  cases ho : step.outcome with
  | noValue => rfl
  | value v =>
    simp only [toWrite, pure_bind]
    cases hx : s.types.convert v p.declared.key with
    | ok x =>
      rw [ho] at hnone
      exact (hnone x (.value hx)).elim
    | error e => rfl
  | null =>
    simp only [toWrite]
    cases hx : s.types.null? p.declared.key with
    | some x =>
      rw [ho] at hnone
      exact (hnone x (.null hx)).elim
    | none => rfl

/-- Where there is no value to write, all of the stored value is left. -/
theorem Settled.left_eq {declared : Descriptor} {step : Step} (h : Settled f current step)
    (htype : ∀ x, current = some x → x.type = declared.key)
    (hnone : ∀ x, ¬Converts s.types declared.key step.outcome x) : step.left = current := by
  cases h with
  | nothing => rfl
  | beside v => rfl
  | made hcurrent hx hv =>
    rename_i v
    -- the value that was made of the stored one is of the declared type
    have hdeclared : v.type = declared.key := by rw [hv, ← hx, htype _ hcurrent]
    have hconverts : s.types.convert v declared.key = .ok v := by
      rw [← hdeclared]
      exact s.types.convert_self v
    exact (hnone v (.value hconverts)).elim

/-- A child that gives nothing to write leaves its member, and with it the whole owner, as it was:
what was read gives no value, or one that the declared type does not take. Only where an optional
type does not take what was read inside it, the stored value may be lost. -/
theorem storeMember_keeps (hs : KeepsTypes s) {trail : List String} {t : Descriptor} {o : Value}
    {c : Node} {p : Place} (hp : (place s (trail ++ [c.name]) t c).value = some p)
    (hlaw : p.member.access.Restores p.declared.key o)
    (hnone : ∀ x, ¬Converts s.types p.declared.key
      ((memberDemand s (trail ++ [c.name]) o p).read s c).value.outcome x)
    (hfit : NoMisfit (trail ++ [c.name])
      ((memberDemand s (trail ++ [c.name]) o p).read s c).found) :
    (storeMember s trail t o c (readNode s c)).value = o := by
  have hvalue : (storeMember s trail t o c (readNode s c)).value =
      (store p.member (trail ++ [c.name]) (taken p.member o).2
        (toStore s p (trail ++ [c.name])
          ((memberDemand s (trail ++ [c.name]) o p).read s c).value).value).value := by
    simp only [storeMember, Reported.bind_value, hp]
    rfl
  have htaken : ∀ x, (taken p.member o).1 = some x →
      p.member.access.take o = some (x, (taken p.member o).2) := by
    intro x hx
    unfold taken at hx ⊢
    cases htake : p.member.access.take o with
    | none =>
      rw [htake] at hx
      cases hx
    | some yw =>
      rw [htake] at hx
      cases hx
      rfl
  have hleft : ((memberDemand s (trail ++ [c.name]) o p).read s c).value.left =
      (taken p.member o).1 := by
    have hsettled := readNode_settled hs (n := c) (f := (memberDemand s (trail ++ [c.name]) o p).focus)
      (place_spec hp).2 (fun x hx => hlaw.layered x _ (htaken x hx)) hfit
    rcases hsettled with hnull | hsettled
    · exact congrArg Step.left hnull
    · exact hsettled.left_eq (fun x hx => hlaw.typed x _ (htaken x hx)) hnone
  rw [hvalue, toStore_left hnone, hleft]
  cases hx : (taken p.member o).1 with
  | none =>
    unfold taken at hx ⊢
    cases htake : p.member.access.take o with
    | none => rfl
    | some yw =>
      rw [htake] at hx
      cases hx
  | some x =>
    simp only [store, hlaw.assign x _ (htaken x hx)]
    rfl

end

/-! A rack with a spare part, and a parser that takes every word for a number. -/

section

open Arsenal (fieldMember plainType)

def rack : TypeKey := .named "Rack"

def spare : Descriptor := plainType (.optional .i32) (.optional .i32)

def spareMember : Member := fieldMember rack spare.key "Spare" (.absent .i32)

def rackClass : Descriptor := plainType rack (.class [spareMember])

def rackSetting (parsers : List Parser) : Setting :=
  ⟨⟨⟨[(.i32, plainType .i32 .scalar), (spare.key, spare), (rack, rackClass)], []⟩, {},
    fun _ => none⟩, parsers⟩

def fullRack : Value := .record rack [("Spare", .present (.int .i32 3))]

def spareNode : Node := ⟨"Spare", .empty, some "four", []⟩

def sparePlace : Place := ⟨spareMember, spare, spare⟩

/-- Reading the node into the rack. -/
def spareRead (parsers : List Parser) : Reported Step :=
  (memberDemand (rackSetting parsers) ["Rack", "Spare"] fullRack sparePlace).read
    (rackSetting parsers) spareNode

/-- Handles integers and gives texts. -/
def wordParser : Parser := Parsers.simple "word" .i32 fun text => .ok (.string text)

theorem rackSetting_keepsTypes (parsers : List Parser) : KeepsTypes (rackSetting parsers) := by
  have htypes {k : TypeKey} {t : Descriptor} (h : (rackSetting parsers).types.get? k = some t) :
      t = plainType .i32 .scalar ∨ t = spare ∨ t = rackClass := by
    have hmem : (k, t) ∈ (rackSetting parsers).types.types := Assoc.mem_of_get? h
    simp only [rackSetting, Setting.types, List.mem_cons, Prod.mk.injEq, List.not_mem_nil,
      or_false] at hmem
    rcases hmem with ⟨-, rfl⟩ | ⟨-, rfl⟩ | ⟨-, rfl⟩ <;> simp
  apply KeepsTypes.of_access
  case hoptional =>
    intro k t inner h hshape
    rcases htypes h with rfl | rfl | rfl
    · cases hshape
    · exact ⟨.i32, rfl⟩
    · cases hshape
  case haccess =>
    intro k t h m hm
    rcases htypes h with rfl | rfl | rfl
    · cases hm
    · cases hm
    · rw [List.mem_singleton.mp hm]
      exact Access.field_keepsType _ _ _ _
  case hhook =>
    intro k t h
    rcases htypes h with rfl | rfl | rfl <;> rfl

theorem fullRack_restores : spareMember.access.Restores spare.key fullRack :=
  Access.field_restores rfl rfl rfl (.present (.plain (by simp [Value.type, Value.int, TypeKey.i32])))

/-- A text that is no number leaves the spare part where it was. -/
theorem fullRack_keeps :
    let s := rackSetting Parsers.standard
    (storeMember s ["Rack"] rackClass fullRack spareNode (readNode s spareNode)).value =
      fullRack := by
  have houtcome : (spareRead Parsers.standard).value.outcome = .noValue := rfl
  have hmessages : (spareRead Parsers.standard).found.map Diagnostic.message =
      ["cannot parse '" ++ "four' as i32: invalid digit found in string"] := rfl
  have hnone : ∀ x, ¬Converts (rackSetting Parsers.standard).types spare.key
      (spareRead Parsers.standard).value.outcome x := by
    intro x hx
    rw [houtcome] at hx
    cases hx
  have hfit : NoMisfit ["Rack", "Spare"] (spareRead Parsers.standard).found := by
    intro d hd _ hbegins
    have hmessage : d.message ∈ (spareRead Parsers.standard).found.map Diagnostic.message :=
      List.mem_map_of_mem hd
    rw [hmessages, List.mem_singleton] at hmessage
    rw [hmessage] at hbegins
    exact absurd (hbegins.clash (beginsWith_append _ _)) (by decide)
  exact storeMember_keeps (rackSetting_keepsTypes _) (p := sparePlace) rfl fullRack_restores hnone
    hfit

/-- Where a parser gives a value of another type there is nothing to write, but the member is
emptied. -/
theorem fullRack_loses :
    let s := rackSetting [wordParser]
    (place s ["Rack", "Spare"] rackClass spareNode).value = some sparePlace ∧ KeepsTypes s ∧
    spareMember.access.Restores spare.key fullRack ∧
    (spareRead [wordParser]).value.outcome = .noValue ∧
    spareMember.access.read fullRack = some (.present (.int .i32 3)) ∧
    spareMember.access.read
      (storeMember s ["Rack"] rackClass fullRack spareNode (readNode s spareNode)).value =
        some (.absent .i32) :=
  ⟨rfl, rackSetting_keepsTypes _, fullRack_restores, rfl, rfl, rfl⟩

end

end Reading

end DefLoad
