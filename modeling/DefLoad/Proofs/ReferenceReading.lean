import DefLoad.Proofs.Accounting
import DefLoad.Proofs.References

/-!
Reading makes no references but those that parsers give: whatever is read, filled or reset holds
references that were in sight before, and references from parsers.
-/

namespace DefLoad.Reading

section

variable (S : Refs) (s : Setting)

/-- All that a load works with keeps to a set of references. -/
structure Setting.Keeps : Prop where
  types : s.types.Keeps S
  parsers : ∀ p ∈ s.parsers, ∀ c v, c.RefersIn S → p.parse s.env c = .ok v → v.RefersIn S

/-- The values that a child can see from where it is read. -/
structure Focus.RefersIn (f : Focus) : Prop where
  owner : ∀ v, f.owner = some v → v.RefersIn S
  slot : ∀ v, f.slot = .entry v → v.RefersIn S

def StoredIn (current : Option Value) : Prop := ∀ v, current = some v → v.RefersIn S

structure Step.RefersIn (step : Step) : Prop where
  outcome : ∀ v, step.outcome = .value v → v.RefersIn S
  left : StoredIn S step.left

/-- A map reads its keys with a parser of the load. -/
def Filling.KeyParsers : Filling → Prop
  | .map m => ∀ p, m.keyParser = some p → p ∈ s.parsers
  | _ => True

/-- Filling a value from these nodes makes no references of its own. -/
def FillsIn (cs : List Node) : Prop :=
  ∀ (F : Filling) v, F.Known s → F.KeyParsers s → v.RefersIn S → (F.fill s cs v).value.RefersIn S

def ReadsIn (n : Node) : Prop :=
  ∀ f current, Registered s f.target → f.RefersIn S → StoredIn S current →
    (readNode s n f current).value.RefersIn S

end

section

variable {S : Refs} {s : Setting} {n : Node} {f : Focus} {F : Filling} {d : Demand}
  {current left : Option Value} {v : Value} {r : Reported Step}

theorem Focus.RefersIn.context (hf : f.RefersIn S) (hcurrent : StoredIn S current) (n : Node) :
    (f.context n current).RefersIn S := ⟨hcurrent, hf.owner, hf.slot⟩

theorem storedIn_none : StoredIn S none := by
  intro v h
  cases h

theorem refersIn_value (hv : v.RefersIn S) (hleft : StoredIn S left) :
    Step.RefersIn S ⟨.value v, left⟩ := by
  refine ⟨fun w hw => ?_, hleft⟩
  cases hw
  exact hv

theorem refersIn_null (hleft : StoredIn S left) : Step.RefersIn S ⟨.null, left⟩ :=
  ⟨nofun, hleft⟩

theorem refersIn_noValue (hleft : StoredIn S left) : Step.RefersIn S ⟨.noValue, left⟩ :=
  ⟨nofun, hleft⟩

theorem Fails.refersIn (h : Fails f current r) (hcurrent : StoredIn S current) :
    r.value.RefersIn S := by
  have hvalue : r.value = ⟨.noValue, current⟩ := by cases h <;> rfl
  rw [hvalue]
  exact refersIn_noValue hcurrent

theorem Opens.keyParsers (h : Opens s f n F) : F.KeyParsers s := by
  cases h with
  | «class» => trivial
  | list => trivial
  | map => exact fun p hp => (parserFor_spec hp).1

theorem reusable_refersIn (hcurrent : StoredIn S current) (h : reusable f.target current = some v) :
    v.RefersIn S :=
  hcurrent v (reusable_eq_some.mp h).1

theorem unwrapped_refersIn (hcurrent : StoredIn S current) : StoredIn S (f.unwrapped current) := by
  intro v h
  obtain ⟨c, hc, hunwrap⟩ := Option.bind_eq_some_iff.mp h
  exact (reusable_refersIn hcurrent hc).unwrap hunwrap

theorem rewrap_refersIn {matched : Bool} {step : Step} (hstep : step.RefersIn S)
    (hleft : StoredIn S left) : (rewrap f matched step left).value.RefersIn S := by
  unfold rewrap
  cases ho : step.outcome with
  | value v =>
    have hv := hstep.outcome v ho
    dsimp only
    cases hwrap : Value.wrap f.target.key v with
    | some w => exact refersIn_value (hv.wrap hwrap) hleft
    | none => exact refersIn_noValue hleft
  | null => exact refersIn_null hleft
  | noValue =>
    dsimp only
    split
    · refine refersIn_noValue fun x hx => ?_
      rcases Option.or_eq_some_iff.mp hx with hx | ⟨-, hx⟩
      · obtain ⟨y, hy, hwrap⟩ := Option.bind_eq_some_iff.mp hx
        exact (hstep.left y hy).wrap hwrap
      · exact .of_none? hx
    · exact refersIn_noValue hleft

section

variable (hs : s.Keeps S)

include hs

theorem null?_refersIn {k : TypeKey} (h : s.types.null? k = some v) : v.RefersIn S := by
  unfold TypeTable.null? at h
  obtain ⟨t, ht, h⟩ := Option.bind_eq_some_iff.mp h
  split at h
  · exact .of_none? h
  · cases hbuild : t.build none with
    | error e =>
      rw [hbuild] at h
      cases h
    | ok w =>
      rw [hbuild] at h
      cases h
      exact (hs.types k t ht).build none v (fun _ hc => by cases hc) hbuild

theorem given_refersIn {o : Outcome} {declared : TypeKey}
    (ho : ∀ v, o = .value v → v.RefersIn S) (hg : given s.types declared o = some v) :
    v.RefersIn S := by
  cases o with
  | noValue => cases hg
  | value w =>
    cases hg
    exact ho v rfl
  | null => exact null?_refersIn hs hg

theorem Starts.refersIn (h : Starts f n current v left) (ht : Registered s f.target)
    (hf : f.RefersIn S) (hcurrent : StoredIn S current) : v.RefersIn S ∧ StoredIn S left := by
  cases h with
  | stored hv => exact ⟨reusable_refersIn hcurrent hv, storedIn_none⟩
  | fresh hnone hv =>
    obtain ⟨k, hk⟩ := ht
    refine ⟨(hs.types k _ hk).build _ v ?_ hv, hcurrent⟩
    intro context hcontext
    cases hcontext
    exact hf.context hcurrent n

theorem afterReading_refersIn {c : Context} (hc : c.RefersIn S) (hv : v.RefersIn S) :
    (afterReading s c v).RefersIn S := by
  unfold afterReading
  cases ht : s.types.get? v.type with
  | none => exact hv
  | some t =>
    cases hhook : t.postConstruct with
    | none => simpa [hhook] using hv
    | some hook =>
      have hkept := (hs.types _ t ht).hook hook hhook c v hc hv
      simpa [hhook] using hkept

/-! Reading a node, when filling from its children makes no references. -/

theorem ReadsPlain.refersIn (h : ReadsPlain s n f current r) (ht : Registered s f.target)
    (hf : f.RefersIn S) (hcurrent : StoredIn S current) (hfill : FillsIn S s n.children) :
    r.value.RefersIn S := by
  have hcontext : (f.context n none).RefersIn S := hf.context storedIn_none n
  cases h with
  | filled hopens hstarts hds =>
    obtain ⟨hv, hleft⟩ := hstarts.refersIn hs ht hf hcurrent
    have hfilled := hfill _ _ (hopens.known ht) hopens.keyParsers hv
    exact refersIn_value (afterReading_refersIn hs hcontext hfilled) hleft
  | parsed hparser hv =>
    have hmem := (parserFor_spec hparser).1
    have hparsed := hs.parsers _ hmem _ _ (hf.context hcurrent n) hv
    exact refersIn_value (afterReading_refersIn hs hcontext hparsed) hcurrent
  | failed h => exact h.refersIn hcurrent

theorem ReadsThrough.refersIn {m : Nat} (h : ReadsThrough s n m f current r)
    (ht : Registered s f.target) (hf : f.RefersIn S) (hcurrent : StoredIn S current)
    (hfill : FillsIn S s n.children) : r.value.RefersIn S := by
  induction h with
  | exhausted => exact refersIn_noValue hcurrent
  | plain hplain h => exact h.refersIn hs ht hf hcurrent hfill
  | unregistered hshape hinner h => exact h.refersIn hcurrent
  | layer hshape hinner h ih =>
    have hinside := ih ⟨_, hinner⟩ ⟨hf.owner, hf.slot⟩ (unwrapped_refersIn hcurrent)
    refine rewrap_refersIn hinside ?_
    split
    · exact storedIn_none
    · exact hcurrent

/-! Adding a child, when reading it makes no references. -/

theorem taken_refersIn {t : Descriptor} {m : Member} (ht : Registered s t) (hm : m ∈ t.members)
    (hv : v.RefersIn S) : StoredIn S (taken m v).1 ∧ (taken m v).2.RefersIn S := by
  obtain ⟨k, hk⟩ := ht
  unfold taken
  cases htake : m.access.take v with
  | none => exact ⟨storedIn_none, hv⟩
  | some found =>
    obtain ⟨x, w⟩ := found
    obtain ⟨hx, hw⟩ := (hs.types k t hk).take m hm v x w hv htake
    refine ⟨fun y hy => ?_, hw⟩
    cases hy
    exact hx

theorem toStore_refersIn (p : Place) (trail : List String) {step : Step}
    (hstep : step.RefersIn S) : StoredIn S (toStore s p trail step).value := by
  unfold toStore
  cases ho : step.outcome with
  | noValue => exact hstep.left
  | value v =>
    simp only [toWrite, pure_bind]
    cases hx : s.types.convert v p.declared.key with
    | error e => exact hstep.left
    | ok x =>
      intro y hy
      cases hy
      exact (hstep.outcome v ho).convert hx
  | null =>
    simp only [toWrite]
    cases hnull : s.types.null? p.declared.key with
    | none => exact hstep.left
    | some x =>
      intro y hy
      cases hy
      exact null?_refersIn hs hnull

theorem store_refersIn {t : Descriptor} {m : Member} (ht : Registered s t) (hm : m ∈ t.members)
    (trail : List String) (hv : v.RefersIn S) {write : Option Value} (hwrite : StoredIn S write) :
    (store m trail v write).value.RefersIn S := by
  obtain ⟨k, hk⟩ := ht
  unfold store
  cases write with
  | none => exact hv
  | some x =>
    dsimp only
    cases hassign : m.access.assign v x with
    | ok w => exact (hs.types k t hk).assign m hm v x w hv (hwrite x rfl) hassign
    | error e => exact hv

theorem readKey_refersIn {m : MapFocus} {name : String} {key : Value}
    (hkeys : (Filling.map m).KeyParsers s) (hv : v.RefersIn S)
    (h : readKey s m v name = .ok key) : key.RefersIn S := by
  unfold readKey at h
  split at h
  case h_1 => cases h
  case h_2 p hp =>
    split at h
    case isTrue => cases h
    case isFalse =>
      dsimp only at h
      split at h
      case h_1 => cases h
      case h_2 x hx =>
        have hx' : x.RefersIn S := by
          refine hs.parsers p (hkeys p hp) _ x ⟨?_, ?_, ?_⟩ hx
          · intro w hw
            cases hw
          · intro w hw
            cases hw
            exact hv
          · intro w hw
            cases hw
        split at h
        case h_1 y hy =>
          cases h
          exact hx'.convert hy
        case h_2 => cases h

theorem Demands.refersIn {c : Node} (h : Demands s F v c d) (hF : F.Known s)
    (hkeys : F.KeyParsers s) (hv : v.RefersIn S) :
    d.focus.RefersIn S ∧ StoredIn S d.current ∧
      ∀ step, step.RefersIn S → (d.finish step).value.RefersIn S := by
  cases h with
  | @member trail t v c p hplace =>
    have hmem := (Descriptor.mem_ownMembers.mp (place_spec hplace).1).1
    obtain ⟨htaken, hrest⟩ := taken_refersIn hs hF hmem hv
    refine ⟨⟨fun w hw => ?_, fun w hw => by cases hw⟩, htaken, fun step hstep => ?_⟩
    · cases hw
      exact hrest
    · exact store_refersIn hs hF hmem _ hrest (toStore_refersIn hs p _ hstep)
  | @item l xs c target ht =>
    refine ⟨⟨fun w hw => ?_, fun w hw => by cases hw⟩, storedIn_none, fun step hstep => ?_⟩
    · cases hw
      exact hv
    · rcases itemDemand_finish (s := s) l v target step with
        ⟨g, x, ys, hg, hx, hys, hvalue⟩ | ⟨hvalue, -⟩
      · have hgiven := given_refersIn hs hstep.outcome hg
        rw [hvalue]
        exact hv.push (hgiven.convert hx) hys
      · rw [hvalue]
        exact hv
  | @entry m xs key c target hkey ht =>
    have hk := readKey_refersIn hs hkeys hv hkey
    refine ⟨⟨fun w hw => ?_, fun w hw => ?_⟩, storedIn_none, fun step hstep => ?_⟩
    · cases hw
      exact hv
    · cases hw
      exact hk
    · rcases entryDemand_finish (s := s) m v key c.name target step with
        ⟨g, x, ys, hg, hx, hys, hvalue⟩ | ⟨hvalue, -⟩
      · have hgiven := given_refersIn hs hstep.outcome hg
        rw [hvalue]
        exact hv.insert hk (hgiven.convert hx) hys
      · rw [hvalue]
        exact hv

theorem add_refersIn {c : Node} (hread : ReadsIn S s c) (hF : F.Known s) (hkeys : F.KeyParsers s)
    (hv : v.RefersIn S) : (F.add s v c).value.RefersIn S := by
  have hadds := Filling.add_adds s F v c
  generalize F.add s v c = r at hadds
  cases hadds with
  | read hd hds =>
    obtain ⟨hfocus, hcurrent, hfinish⟩ := hd.refersIn hs hF hkeys hv
    exact hfinish _ (hread _ _ (hd.registered hF) hfocus hcurrent)
  | _ => exact hv

theorem fill_refersIn {cs : List Node} (hread : ∀ c ∈ cs, ReadsIn S s c) : FillsIn S s cs := by
  intro F v hF hkeys hv
  induction cs generalizing v with
  | nil => exact hv
  | cons c cs ih =>
    have hadd := add_refersIn hs (hread c List.mem_cons_self) hF hkeys hv
    exact ih (fun c' hc' => hread c' (List.mem_cons_of_mem c hc')) _ hadd

theorem readNode_refersIn (n : Node) : ReadsIn S s n := by
  induction n using Node.induct with
  | h n ih =>
    intro f current ht hf hcurrent
    rw [readNode_eq]
    split
    case isTrue => exact refersIn_null hcurrent
    case isFalse =>
      exact (throughOptional_reads s n _ f current).refersIn hs ht hf hcurrent
        (fill_refersIn hs ih)

/-! Defs. -/

variable {t : Descriptor}

theorem readDef_refersIn (ht : Registered s t) (id : String) (n : Node) (hv : v.RefersIn S) :
    (readDef s t id n v).value.RefersIn S := by
  have hchildren : FillsIn S s n.children := fill_refersIn hs fun c _ => readNode_refersIn hs c
  have hfilled := hchildren (.class [id] t) (v.withId id) ht trivial (hv.withId id)
  rw [← readMembers_eq_fill] at hfilled
  unfold readDef
  cases hhook : t.postConstruct with
  | none => exact hfilled.withId id
  | some hook =>
    obtain ⟨k, hk⟩ := ht
    refine (hs.types k t hk).hook hook hhook _ _ ⟨?_, ?_, ?_⟩ (hfilled.withId id) <;>
      exact fun w hw => by cases hw

theorem resetMembers_refersIn (ht : Registered s t) (id : String) {fresh : Value}
    {ms : List Member} (hms : ms ⊆ t.members) (hfresh : fresh.RefersIn S) (hv : v.RefersIn S) :
    (resetMembers id fresh ms v).value.RefersIn S := by
  obtain ⟨k, hk⟩ := ht
  have htype := hs.types k t hk
  induction ms generalizing fresh v with
  | nil => exact hv
  | cons m ms ih =>
    have hm := hms List.mem_cons_self
    have hrest : ms ⊆ t.members := fun x hx => hms (List.mem_cons_of_mem m hx)
    unfold resetMembers
    split
    case isTrue => exact ih hrest hfresh hv
    case isFalse =>
      cases htake : m.access.take fresh with
      | none => exact ih hrest hfresh hv
      | some found =>
        obtain ⟨x, fresh'⟩ := found
        obtain ⟨hx, hfresh'⟩ := htype.take m hm fresh x fresh' hfresh htake
        dsimp only
        cases hassign : m.access.assign v x with
        | error e => exact ih hrest hfresh' hv
        | ok w => exact ih hrest hfresh' (htype.assign m hm v x w hv hx hassign)

theorem reset_refersIn (ht : Registered s t) (id : String) (hv : v.RefersIn S) :
    (reset t id v).value.RefersIn S := by
  unfold reset
  cases hbuild : t.build none with
  | error e => exact hv
  | ok fresh =>
    obtain ⟨k, hk⟩ := ht
    have hfresh := (hs.types k t hk).build none fresh (fun _ hc => by cases hc) hbuild
    exact (resetMembers_refersIn hs ⟨k, hk⟩ id (fun _ hm => hm) hfresh hv).withId id

end

end

/-- Besides those that all other parsers and all types keep to, there are the references that the
parser for references gives. -/
theorem Setting.keeps_of {S : Refs} {s : Setting} (htypes : s.types.Keeps S)
    (hparsers : ∀ p ∈ s.parsers, p ∈ Parsers.standard ∨ p.Keeps S)
    (hgiven : ∀ target h, Parsers.Given s.env target h → S target h) : s.Keeps S := by
  refine ⟨htypes, fun p hp c v hc hv => ?_⟩
  rcases hparsers p hp with hstandard | hkeeps
  · rcases Parsers.standard_keeps (S := S) hstandard with rfl | hkeeps
    · change Parsers.parseRef s.env c = .ok v at hv
      obtain ⟨target, handle, rfl, -, -⟩ := Parsers.parseRef_eq_ok hv
      exact Value.refersIn_ref.mpr (hgiven target handle ⟨c, hv⟩)
    · exact hkeeps _ c v hc hv
  · exact hkeeps _ c v hc hv

end DefLoad.Reading
