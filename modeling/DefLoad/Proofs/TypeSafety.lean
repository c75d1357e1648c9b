import DefLoad.Proofs.Accounting
import DefLoad.Proofs.TypedReading

/-!
Filling an instance keeps it what its type says, and no value turns up where it does not fit: what a
document asks for is checked before it is read, and what is read is of the type that was asked for.
One check is made against the type that a list or a map names for its children and not against the
declared one, which matters where a type stands in for an abstract type and is abstract itself.
-/

namespace DefLoad.Reading

section

variable (s : Setting) (T : Content)

/-- A child is read in typed surroundings, and what was read can be stored. -/
structure Demand.Typed (n : Node) (F : Filling) (d : Demand) : Prop where
  focus : d.focus.Typed s T
  current : Stored s T d.current
  finish : ∀ step, StepTyped s T d.focus d.current step → FillTyped s T n F (d.finish step)

/-- Reading a node keeps types. -/
def ReadsTyped (n : Node) : Prop :=
  ∀ f current, f.Typed s T → Stored s T current →
    ReadTyped s T n f current (readNode s n f current)

end

section

variable {s : Setting} {T : Content} {n : Node} {F : Filling} {d : Demand} {v : Value}

/-! Storing what was read. -/

theorem store_typed {t : Descriptor} {m : Member} (trail : List String)
    (hm : m.access.Typed s.types T t.key m.type) (hv : HasType s.types T v t.key)
    {write : Option Value} (hwrite : ∀ x, write = some x → HasType s.types T x m.type) :
    HasType s.types T (store m trail v write).value t.key ∧
      Clean s.types n (store m trail v write).found := by
  unfold store
  cases write with
  | none => exact ⟨hv, clean_nil⟩
  | some x =>
    obtain ⟨w, hw, hwt⟩ := hm.assign v x hv (hwrite x rfl)
    simp only [hw]
    exact ⟨hwt, clean_nil⟩

theorem taken_typed {t : Descriptor} {m : Member} (hm : m.access.Typed s.types T t.key m.type)
    (hv : HasType s.types T v t.key) :
    (∀ x, (taken m v).1 = some x → HasType s.types T x m.type) ∧
      HasType s.types T (taken m v).2 t.key := by
  unfold taken
  cases htake : m.access.take v with
  | none => exact ⟨by simp, hv⟩
  | some found =>
    obtain ⟨x, w⟩ := found
    obtain ⟨hx, hw⟩ := hm.take v x w hv htake
    refine ⟨fun y hy => ?_, hw⟩
    cases hy
    exact hx

theorem storeItem_typed {l : ListFocus} {trail : List String} {xs g x : Value}
    (hkey : l.focus.target.key = .list l.declared)
    (hxs : HasType s.types T xs l.focus.target.key) (hg : s.types.convert g l.declared = .ok x)
    (hx : HasType s.types T x l.declared) :
    FillTyped s T n (.list l) (storeItem s l trail xs g) := by
  rw [hkey] at hxs
  obtain ⟨ys, hys, hyst⟩ := hxs.push hx
  have hstore : storeItem s l trail xs g = pure ys := by simp only [storeItem, hg, hkey, hys]
  rw [hstore]
  refine ⟨?_, clean_nil⟩
  rw [Filling.target, hkey]
  exact hyst

theorem storeEntry_typed {m : MapFocus} {kind : MapKind} {trail : List String} {name : String}
    {xs key g x : Value} (hkey : m.focus.target.key = .map kind m.declaredKey m.declaredValue)
    (hxs : HasType s.types T xs m.focus.target.key) (hk : HasType s.types T key m.declaredKey)
    (hg : s.types.convert g m.declaredValue = .ok x) (hx : HasType s.types T x m.declaredValue) :
    FillTyped s T n (.map m) (storeEntry s m trail name xs key g) := by
  rw [hkey] at hxs
  obtain ⟨ys, hys, hyst⟩ := hxs.insert hk hx
  rw [← hkey] at hyst
  rcases hys with hys | hys
  · have hstore : storeEntry s m trail name xs key g = pure ys := by
      simp only [storeEntry, hg, hkey, hys]
    rw [hstore]
    exact ⟨hyst, clean_nil⟩
  · have hstore : storeEntry s m trail name xs key g =
        (do
          notice .conversion trail s!"duplicate key '{name}' replaced an earlier entry"
          return ys) := by
      simp only [storeEntry, hg, hkey, hys]
    rw [hstore]
    refine ⟨hyst, ?_⟩
    exact clean_of_words "duplicate key '" (by simp [otherWords])
      ((beginsWith_append _ _).append _)

theorem toWrite_clean {o : Outcome} {declared : TypeKey} {trail : List String} {complaint : String}
    (h : Clean s.types n [.error .conversion (pathOf trail) complaint]) :
    Clean s.types n (toWrite s o declared trail complaint).found := by
  cases o with
  | noValue => exact clean_nil
  | value v => exact clean_nil
  | null =>
    unfold toWrite
    dsimp only
    cases s.types.null? declared with
    | some v => exact clean_nil
    | none => exact h

section

variable (hr : s.types.Sound T)

include hr

/-- What is to be written can be converted, unless it is of a type that does not fit. -/
theorem given_converts {o : Outcome} {declared target : TypeKey} {g : Value}
    (ho : ∀ v, o = .value v → HasType s.types T v target) (hg : given s.types declared o = some g) :
    (∃ x, s.types.convert g declared = .ok x ∧ HasType s.types T x declared) ∨
      s.types.fits target declared = false ∧ s.types.convert g declared = .error g := by
  cases o with
  | noValue => cases hg
  | value v =>
    cases hg
    cases hfits : s.types.fits target declared with
    | true => exact .inl (hr.convert (ho g rfl) hfits)
    | false => exact .inr ⟨rfl, hr.convert_misfit (ho g rfl) hfits⟩
  | null => exact .inl (hr.convert (hr.null hg) (s.types.fits_self declared))

theorem toStore_typed {p : Place} (trail : List String) {step : Step}
    (hfits : s.types.fits p.target.key p.declared.key = true)
    (ho : ∀ v, step.outcome = .value v → HasType s.types T v p.target.key)
    (hleft : ∀ x, step.left = some x → HasType s.types T x p.declared.key) :
    (∀ x, (toStore s p trail step).value = some x → HasType s.types T x p.declared.key) ∧
      Clean s.types n (toStore s p trail step).found := by
  unfold toStore
  cases hstep : step.outcome with
  | noValue => exact ⟨hleft, clean_nil⟩
  | value v =>
    obtain ⟨x, hx, hxt⟩ := hr.convert (ho v hstep) hfits
    simp only [toWrite, pure_bind, hx]
    refine ⟨fun y hy => ?_, clean_nil⟩
    cases hy
    exact hxt
  | null =>
    simp only [toWrite]
    cases hnull : s.types.null? p.declared.key with
    | some x =>
      refine ⟨fun y hy => ?_, clean_nil⟩
      cases hy
      exact hr.null hnull
    | none =>
      refine ⟨hleft, clean_of_words "member '" (by simp [otherWords]) ?_⟩
      exact ((((beginsWith_append _ _).append _).append _).append _)

/-- What is asked to be written into a container is converted and stored in it. -/
theorem FillTyped.of_toWrite {o : Outcome} {declared target : TypeKey} {trail : List String}
    {complaint : String} {store : Value → Reported Value}
    (ho : ∀ v, o = .value v → HasType s.types T v target) (hv : HasType s.types T v F.target.key)
    (hclean : Clean s.types n [.error .conversion (pathOf trail) complaint])
    (hstore : ∀ g x, s.types.convert g declared = .ok x → HasType s.types T x declared →
      FillTyped s T n F (store g))
    (hmisfit : ∀ g, s.types.fits target declared = false → s.types.convert g declared = .error g →
      FillTyped s T n F (store g)) :
    FillTyped s T n F (do
      match ← toWrite s o declared trail complaint with
      | none => return v
      | some g => store g) := by
  have hwrite : Clean s.types n (toWrite s o declared trail complaint).found := toWrite_clean hclean
  cases hg : given s.types declared o with
  | none =>
    have hvalue := (toWrite_value s o declared trail complaint).trans hg
    refine ⟨?_, ?_⟩
    · simp only [Reported.bind_value, hvalue]
      exact hv
    · simp only [Reported.bind_found, hvalue]
      exact hwrite.append clean_nil
  | some g =>
    have hvalue := (toWrite_value s o declared trail complaint).trans hg
    have hstored : FillTyped s T n F (store g) := by
      rcases given_converts hr ho hg with ⟨x, hx, hxt⟩ | ⟨hnot, hback⟩
      · exact hstore g x hx hxt
      · exact hmisfit g hnot hback
    refine ⟨?_, ?_⟩
    · simp only [Reported.bind_value, hvalue]
      exact hstored.value
    · simp only [Reported.bind_found, hvalue]
      exact hwrite.append hstored.clean

/-! Adding a child, when reading it keeps types. -/

theorem memberDemand_typed {trail trail' : List String} {t : Descriptor} {c : Node} {p : Place}
    (ht : s.types.get? t.key = some t) (hv : HasType s.types T v t.key)
    (hp : (place s trail t c).value = some p) :
    (memberDemand s trail v p).Typed s T n (.class trail' t) := by
  obtain ⟨hmember, hdeclared, hwanted⟩ := place_eq_some.mp hp
  have hdkey := hr.key _ _ hdeclared
  obtain ⟨htarget, hfits, -⟩ := wantedType_fits hr (hdkey ▸ hdeclared) hwanted
  have hmem := (Descriptor.mem_ownMembers.mp (Config.member?_mem hmember)).1
  have hm := (hr.types _ _ ht).members p.member hmem
  obtain ⟨htaken, hrest⟩ := taken_typed hm hv
  constructor
  case focus =>
    refine ⟨htarget, fun w hw => ⟨t.key, ?_⟩, fun w hw => ?_⟩
    · cases hw
      exact hrest
    · cases hw
  case current => exact fun w hw => ⟨p.member.type, htaken w hw⟩
  case finish =>
    intro step hstep
    have hleft : ∀ x, step.left = some x → HasType s.types T x p.declared.key := by
      intro x hx
      obtain ⟨w, hw, hwx⟩ := hstep.left x hx
      rw [hdkey]
      exact hwx _ (htaken w hw)
    obtain ⟨hwrite, hclean⟩ := toStore_typed hr trail hfits hstep.outcome hleft
    rw [hdkey] at hwrite
    obtain ⟨hvalue, hclean'⟩ := store_typed trail hm hrest hwrite
    exact ⟨hvalue, hclean.append hclean'⟩

theorem itemDemand_typed {l : ListFocus} {c : Node} {trail : List String} {target : Descriptor}
    (hF : (Filling.list l).Sound s n) (hc : c ∈ n.children)
    (hv : HasType s.types T v l.focus.target.key)
    (ht : (wantedType s c l.element trail).value = some target) :
    (itemDemand s l v trail target).Typed s T n (.list l) := by
  cases hF with
  | list hkey helement hfits hnamed =>
    obtain ⟨htarget, hfits', hnamed'⟩ := wantedType_fits hr helement ht
    constructor
    case focus =>
      refine ⟨htarget, fun w hw => ⟨l.focus.target.key, ?_⟩, fun w hw => ?_⟩
      · cases hw
        exact hv
      · cases hw
    case current => exact stored_none
    case finish =>
      intro step hstep
      refine .of_toWrite hr hstep.outcome hv ?_ (fun g x hg hx => storeItem_typed hkey hv hg hx)
        fun g hnot hg => ?_
      · exact clean_of_words "item of type " (by simp [otherWords])
          ((beginsWith_append _ _).append _)
      · simp only [storeItem, hg]
        exact ⟨hv, clean_of_displaced (.of_misfit hc hnamed hnamed' hfits' hfits hnot (.inl rfl))⟩

theorem entryDemand_typed {m : MapFocus} {key : Value} {c : Node} {trail : List String}
    {name : String} {target : Descriptor} (hF : (Filling.map m).Sound s n) (hc : c ∈ n.children)
    (hv : HasType s.types T v m.focus.target.key) (hk : HasType s.types T key m.declaredKey)
    (ht : (wantedType s c m.value trail).value = some target) :
    (entryDemand s m v key trail name target).Typed s T n (.map m) := by
  cases hF with
  | map hkey _ hvalue _ hfits hnamed _ =>
    obtain ⟨htarget, hfits', hnamed'⟩ := wantedType_fits hr hvalue ht
    constructor
    case focus =>
      refine ⟨htarget, fun w hw => ⟨m.focus.target.key, ?_⟩, fun w hw => ⟨m.declaredKey, ?_⟩⟩
      · cases hw
        exact hv
      · cases hw
        exact hk
    case current => exact stored_none
    case finish =>
      intro step hstep
      refine .of_toWrite hr hstep.outcome hv (clean_noNull _ _)
        (fun g x hg hx => storeEntry_typed hkey hv hk hg hx) fun g hnot hg => ?_
      simp only [storeEntry, hg]
      exact ⟨hv, clean_of_displaced (.of_misfit hc hnamed hnamed' hfits' hfits hnot (.inr rfl))⟩

variable (hp : s.parsers ⊆ Parsers.standard)

include hp

/-- A key is of the declared type, or there is a complaint that is not about its type. -/
theorem readKey_typed {m : MapFocus} {name : String} (hF : (Filling.map m).Sound s n) :
    (∃ key, readKey s m v name = .ok key ∧ HasType s.types T key m.declaredKey) ∨
      ∃ message, readKey s m v name = .error message ∧
        ∃ words ∈ otherWords, BeginsWith message words := by
  cases hF with
  | map _ hkey _ hfits _ _ hparser =>
    unfold readKey
    rw [hparser]
    cases hfound : parserFor s.parsers m.key with
    | none =>
      exact .inr ⟨_, rfl, "no parser handles key type ", by simp [otherWords],
        beginsWith_append _ _⟩
    | some p =>
      obtain ⟨hmem, hhandles⟩ := parserFor_spec hfound
      dsimp only
      split
      case isTrue =>
        exact .inr ⟨_, rfl, "parser '", by simp [otherWords],
          ((((beginsWith_append _ _).append _).append _).append _)⟩
      case isFalse =>
        split
        case h_1 e he =>
          exact .inr ⟨_, rfl, "cannot parse key '", by simp [otherWords],
            (((((beginsWith_append _ _).append _).append _).append _).append _)⟩
        case h_2 key hparse =>
          have hk := Parsers.standard_typed hr hkey rfl rfl (hp hmem) hhandles hparse
          obtain ⟨x, hx, hxt⟩ := hr.convert hk hfits
          rw [hx]
          exact .inl ⟨x, rfl, hxt⟩

theorem Demands.typed {c : Node} (h : Demands s F v c d) (hF : F.Sound s n) (hc : c ∈ n.children)
    (hv : HasType s.types T v F.target.key) : d.Typed s T n F := by
  cases h with
  | member hplace =>
    cases hF with
    | «class» ht => exact memberDemand_typed hr ht hv hplace
  | item ht => exact itemDemand_typed hr hF hc hv ht
  | entry hkey ht =>
    rcases readKey_typed (v := v) hr hp hF with ⟨key, hread, hk⟩ | ⟨message, hread, -⟩
    · rw [hread] at hkey
      cases hkey
      exact entryDemand_typed hr hF hc hv hk ht
    · rw [hread] at hkey
      cases hkey

theorem add_typed {c : Node} (hread : ReadsTyped s T c) (hF : F.Sound s n) (hc : c ∈ n.children)
    (hv : HasType s.types T v F.target.key) : FillTyped s T n F (F.add s v c) := by
  have hadds := Filling.add_adds s F v c
  generalize F.add s v c = r at hadds
  cases hadds with
  | refused message => exact ⟨hv, clean_of_stage (by simp [Diagnostic.error])⟩
  | @keyless m message hmap hkey =>
    subst hmap
    rcases readKey_typed (v := v) hr hp hF with ⟨key, hok, -⟩ | ⟨_, herror, words, hwords, hbegins⟩
    · rw [hok] at hkey
      cases hkey
    · rw [herror] at hkey
      cases hkey
      exact ⟨hv, clean_of_words words hwords (hbegins.append _)⟩
  | lost hnamed hk => exact ⟨hv, clean_nil⟩
  | @read d ds hd hds =>
    have hdemand := hd.typed hr hp hF hc hv
    have hsteps := hread d.focus d.current hdemand.focus hdemand.current
    have hstored := hdemand.finish _ hsteps.step
    exact ⟨hstored.value, hds.clean.append ((hsteps.clean.inside hc).append hstored.clean)⟩

theorem fill_typed {cs : List Node} (hcs : cs ⊆ n.children) (hread : ∀ c ∈ cs, ReadsTyped s T c)
    (hF : F.Sound s n) (hv : HasType s.types T v F.target.key) :
    FillTyped s T n F (F.fill s cs v) := by
  induction cs generalizing v with
  | nil => exact ⟨hv, clean_nil⟩
  | cons c cs ih =>
    obtain ⟨hc, hcs⟩ := List.cons_subset.mp hcs
    have hadd := add_typed hr hp (hread c List.mem_cons_self) hF hc hv
    have hrest := ih hcs (fun c' hc' => hread c' (List.mem_cons_of_mem c hc')) hadd.value
    exact ⟨hrest.value, hadd.clean.append hrest.clean⟩

theorem readNode_typed (n : Node) : ReadsTyped s T n := by
  induction n using Node.induct with
  | h n ih =>
    intro f current hf hcurrent
    rw [readNode_eq]
    split
    case isTrue =>
      exact ⟨stepTyped_null remains_self, clean_nil⟩
    case isFalse =>
      exact (throughOptional_reads s n _ f current).typed hr hp hf hcurrent
        fun F v hF hv => fill_typed hr hp (List.Subset.refl _) ih hF hv

/-- An instance stays of its type however it is filled, and a value turns up where it does not fit
only as an item or an entry for which the document asks so, by a type for a child that fits the one
for all children but not the declared one. Where the values of an abstract type are of concrete
types, it cannot. -/
theorem populate_typed {k : TypeKey} {t : Descriptor} (ht : s.types.get? k = some t)
    (hv : HasType s.types T v k) (trail : List String) (n : Node) :
    HasType s.types T (populate s trail t n v).value k ∧
      (∀ d ∈ (populate s trail t n v).found, Mismatch s.types d → Displaced s.types n d) ∧
      (s.types.Concrete → ∀ d ∈ (populate s trail t n v).found, ¬Mismatch s.types d) := by
  have hkey := hr.key k t ht
  have hF : (Filling.class trail t).Sound s n := .class (by rwa [hkey])
  have hv' : HasType s.types T v (Filling.class trail t).target.key := by
    rwa [Filling.target, hkey]
  have hchildren : ∀ c ∈ n.children, ReadsTyped s T c := fun c _ => readNode_typed hr hp c
  have hfilled := fill_typed hr hp (List.Subset.refl _) hchildren hF hv'
  rw [populate, readMembers_eq_fill, ← hkey]
  refine ⟨hfilled.value, hfilled.clean, fun hconcrete d hd hm => ?_⟩
  exact (hfilled.clean d hd hm).not_concrete hconcrete

end

end

/-! A satchel of brews, and a crate of goods. One brew is a potion, a brew cannot be null, and every
brew can stand in for a good. -/

section

open Arsenal (fieldMember plainType)

def potion : TypeKey := .named "Potion"

def brew : TypeKey := .named "Brew"

def good : TypeKey := .named "Good"

def satchel : TypeKey := .named "Satchel"

def crate : TypeKey := .named "Crate"

def freshPotion : Value := .record potion [("Amount", .int .i32 0)]

def potionClass : Descriptor :=
  { plainType potion (.class [fieldMember potion .i32 "Amount" (.int .i32 0)]) with
    construct := some (.ok freshPotion) }

def listOf (element : TypeKey) : Descriptor := plainType (.list element) (.list element)

/-- A class with one member, a list. -/
def holder (k : TypeKey) (name : String) (element : TypeKey) : Descriptor :=
  plainType k (.class [fieldMember k (.list element) name (.list element [])])

def satchelClass : Descriptor := holder satchel "Brews" brew

def crateClass : Descriptor := holder crate "Goods" good

def satchelTable : TypeTable :=
  ⟨[(.i32, plainType .i32 .scalar), (potion, potionClass),
    (brew, plainType brew (.abstract [⟨potion, potion⟩])), (.list brew, listOf brew),
    (satchel, satchelClass)], [⟨"game", [potion, brew, satchel]⟩]⟩

def crateTable : TypeTable :=
  ⟨satchelTable.types ++ [(good, plainType good (.abstract [⟨brew, brew⟩])),
    (.list good, listOf good), (crate, crateClass)], [⟨"game", [potion, brew, good, crate]⟩]⟩

def stockSetting (r : TypeTable) : Setting := ⟨⟨r, {}, fun _ => none⟩, Parsers.standard⟩

def stockContent : Content where
  atoms := Plain
  fields k :=
    if k = potion then [("Amount", .i32)]
    else if k = satchel then [("Brews", .list brew)]
    else if k = crate then [("Goods", .list good)]
    else []

def satchelNode : Node :=
  let drink : Node := ⟨"li", .empty, none, [⟨"Amount", .empty, some "3", []⟩]⟩
  let empty : Node := (Node.named "li").setAttr "Null" "true"
  let brews : Node := ⟨"Brews", .empty, none, [drink, empty]⟩
  ⟨"Satchel", .empty, none, [brews.setAttr "ElementType" "Potion"]⟩

/-- Goods that are brews, one of them a potion. -/
def crateNode : Node :=
  let drink : Node := (Node.named "li").setAttr "Type" "Potion"
  let goods : Node := ⟨"Goods", .empty, none, [drink]⟩
  ⟨"Crate", .empty, none, [goods.setAttr "ElementType" "Brew"]⟩

section

variable (r : TypeTable)

theorem zero_typed : HasType r stockContent (.int .i32 0) .i32 := by
  have hk : (TypeKey.i32, Decimal.Range.signed 32) ∈ Core.integers := by simp [Core.integers]
  exact .scalar (Plain.int hk (by decide))

theorem freshPotion_typed : HasType r stockContent freshPotion potion := by
  refine .record rfl fun f hf x hx => ?_
  have hf' : f ∈ [("Amount", TypeKey.i32)] := hf
  rw [List.mem_singleton.mp hf'] at hx ⊢
  cases hx
  exact zero_typed r

theorem potionClass_sound : potionClass.Sound r stockContent := by
  refine Descriptor.sound_of_fresh (fun m hm => ?_) rfl rfl fun v hv => ?_
  · rw [List.mem_singleton.mp hm]
    exact Access.field_typed (by decide) (by decide) (zero_typed r)
  · cases hv
    exact freshPotion_typed r

/-- An instance of a class with one member, an empty list. -/
theorem holder_typed {owner name : String} {element : TypeKey}
    (hfields : stockContent.fields (.named owner) = [(name, .list element)]) :
    HasType r stockContent (.record (.named owner) [(name, .list element [])]) (.named owner) := by
  refine .record (by rw [hfields]; rfl) fun f hf x hx => ?_
  rw [hfields] at hf
  rw [List.mem_singleton.mp hf] at hx ⊢
  have hlist : x = .list element [] := by simpa [Assoc.get?] using hx.symm
  rw [hlist]
  exact .list (by simp)

theorem holder_sound {owner name : String} {element : TypeKey}
    (hfields : stockContent.fields (.named owner) = [(name, .list element)]) :
    (holder (.named owner) name element).Sound r stockContent := by
  refine plainType_sound fun m hm => ?_
  rw [List.mem_singleton.mp hm]
  have hmem : (name, TypeKey.list element) ∈ stockContent.fields (.named owner) := by
    rw [hfields]
    exact List.mem_cons_self
  exact Access.field_typed (by simp [hfields]) hmem (.list (by simp))

theorem satchelTypes_sound :
    ∀ e ∈ satchelTable.types, e.2.key = e.1 ∧ e.2.Sound r stockContent := by
  simp only [satchelTable, List.forall_mem_cons]
  exact ⟨⟨rfl, plainType_sound trivial⟩, ⟨rfl, potionClass_sound r⟩,
    ⟨rfl, plainType_sound ⟨⟨_, rfl⟩, by simp⟩⟩, ⟨rfl, plainType_sound rfl⟩,
    ⟨rfl, holder_sound r rfl⟩, List.forall_mem_nil _⟩

end

theorem satchelTable_sound : satchelTable.Sound stockContent :=
  TypeTable.sound_of_mem (fun _ _ h => h) (satchelTypes_sound satchelTable)

theorem crateTable_sound : crateTable.Sound stockContent := by
  refine TypeTable.sound_of_mem (fun _ _ h => h) fun e he => ?_
  rcases List.mem_append.mp he with he | he
  · exact satchelTypes_sound crateTable e he
  · simp only [List.mem_cons, List.not_mem_nil, or_false] at he
    rcases he with rfl | rfl | rfl
    · exact ⟨rfl, plainType_sound ⟨⟨_, rfl⟩, by simp⟩⟩
    · exact ⟨rfl, plainType_sound rfl⟩
    · exact ⟨rfl, holder_sound crateTable rfl⟩

/-- Brews are potions, and a potion is a class. -/
theorem satchelTable_concrete : satchelTable.Concrete := by
  intro k t is ht hshape i hi u hu
  have hmem : (k, t) ∈ satchelTable.types := Assoc.mem_of_get? ht
  simp only [satchelTable, List.mem_cons, Prod.mk.injEq, List.not_mem_nil, or_false] at hmem
  rcases hmem with ⟨-, rfl⟩ | ⟨-, rfl⟩ | ⟨-, rfl⟩ | ⟨-, rfl⟩ | ⟨-, rfl⟩
  · cases hshape
  · cases hshape
  · cases hshape
    rw [List.mem_singleton.mp hi] at hu
    cases hu
    constructor
    · intro inner h
      cases h
    · intro is' h
      cases h
  · cases hshape
  · cases hshape

theorem satchel_typed :
    let emptySatchel : Value := .record satchel [("Brews", .list brew [])]
    let filled :=
      populate (stockSetting satchelTable) ["Satchel"] satchelClass satchelNode emptySatchel
    HasType satchelTable stockContent filled.value satchel ∧
      ∀ d ∈ filled.found, ¬Mismatch satchelTable d := by
  intro emptySatchel filled
  have hempty : HasType satchelTable stockContent emptySatchel satchel :=
    holder_typed satchelTable (by rfl)
  obtain ⟨htyped, -, hclean⟩ := populate_typed (s := stockSetting satchelTable) satchelTable_sound
    (fun _ h => h) (t := satchelClass) rfl hempty ["Satchel"] satchelNode
  exact ⟨htyped, hclean satchelTable_concrete⟩

/-- A potion fits a brew and a brew fits a good, but a potion fits no good: as an item of a list of
goods that asks for brews it is refused only when it is stored. -/
theorem potion_displaced :
    let emptyCrate : Value := .record crate [("Goods", .list good [])]
    let complaint : Diagnostic :=
      .error .conversion "Crate/Goods/li[0]" "item is not assignable to Good"
    crateTable.Sound stockContent ∧ (stockSetting crateTable).parsers ⊆ Parsers.standard ∧
      crateTable.get? crate = some crateClass ∧ HasType crateTable stockContent emptyCrate crate ∧
      (populate (stockSetting crateTable) ["Crate"] crateClass crateNode emptyCrate).found =
        [complaint] ∧ Mismatch crateTable complaint :=
  ⟨crateTable_sound, fun _ h => h, rfl, holder_typed crateTable (by rfl), rfl, rfl,
    .inl ⟨"item is not assignable to ", by simp [mismatchWords], "Good", rfl⟩⟩

end

end DefLoad.Reading
