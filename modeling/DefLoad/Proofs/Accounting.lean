import DefLoad.Arsenal.Plain
import DefLoad.Proofs.Adding
import DefLoad.Proofs.Layers

/-!
Nothing that a document holds is lost in silence. Of every child of a node that is filled, at any
depth, the value is written, or an error is found at the place of the child.
-/

namespace DefLoad

/-- The types of which the values of a type are made. -/
def Descriptor.parts (t : Descriptor) : List TypeKey :=
  match t.shape with
  | .optional inner => [inner]
  | .list element => [element]
  | .map key value => [key, value]
  | .class ms => ms.map Member.type
  | _ => []

/-- All types that are mentioned are registered. -/
def TypeTable.Closed (r : TypeTable) : Prop :=
  ∀ k t, r.get? k = some t → ∀ j ∈ t.parts, ∃ u, r.get? j = some u

namespace TypeTable

variable {r : TypeTable} {k : TypeKey}

theorem find?_registered {ks : List TypeKey} {p : Descriptor → Bool} (h : r.find? ks p = some k) :
    ∃ t, r.get? k = some t := by
  have hk := List.find?_some h
  cases ht : r.get? k with
  | none => simp [ht] at hk
  | some t => exact ⟨t, rfl⟩

theorem search_registered {name : String} (h : r.search name = some k) :
    ∃ t, r.get? k = some t := by
  unfold search at h
  rcases Option.or_eq_some_iff.mp h with h | ⟨-, h⟩
  · rcases Option.or_eq_some_iff.mp h with h | ⟨-, h⟩
    · unfold qualified? at h
      obtain ⟨⟨full, schema⟩, -, h⟩ := Option.bind_eq_some_iff.mp h
      obtain ⟨found, -, h⟩ := Option.bind_eq_some_iff.mp h
      exact find?_registered h
    · exact find?_registered h
  · exact find?_registered h

/-- A type that a document can name is in the table. -/
theorem resolve_registered {name : String} (h : r.resolve name = some k) :
    ∃ t, r.get? k = some t := by
  unfold resolve at h
  dsimp only at h
  split at h
  · cases h
  · exact search_registered h

end TypeTable

namespace Reading

/-- An error at this very place. -/
def Complains (trail : List String) (ds : Diagnostics) : Prop :=
  ∃ d ∈ ds, d.isError = true ∧ d.path = pathOf trail

theorem complains_error (trail : List String) (stage : Stage) (message : String) :
    Complains trail [.error stage (pathOf trail) message] :=
  ⟨_, List.mem_singleton_self _, rfl, rfl⟩

theorem Complains.mono {trail : List String} {ds ds' : Diagnostics} (h : Complains trail ds)
    (hsub : ds ⊆ ds') : Complains trail ds' := by
  obtain ⟨d, hd, herror, hpath⟩ := h
  exact ⟨d, hsub hd, herror, hpath⟩

/-! A node that gives nothing to write. -/

section

variable {s : Setting} {n : Node} {f : Focus} {current : Option Value} {r : Reported Step}

theorem Fails.complains (h : Fails f current r) : Complains f.trail r.found := by
  cases h with
  | ofTypes ds message =>
    exact (complains_error f.trail _ message).mono (List.subset_append_right ds _)
  | building ds message =>
    exact (complains_error f.trail _ message).mono (List.subset_append_right ds _)
  | parsing message => exact complains_error f.trail _ message
  | unhandled message => exact complains_error f.trail _ message

/-- Putting the layers back leaves nothing to write only with a complaint, or when there was
nothing before. -/
theorem rewrap_complains (f : Focus) (matched : Bool) (step : Step) (left : Option Value)
    (h : (rewrap f matched step left).value.outcome = .noValue) :
    step.outcome = .noValue ∨ Complains f.trail (rewrap f matched step left).found := by
  unfold rewrap at h ⊢
  cases ho : step.outcome with
  | noValue => exact .inl rfl
  | null =>
    rw [ho] at h
    cases h
  | value v =>
    rw [ho] at h
    dsimp only at h ⊢
    cases hw : Value.wrap f.target.key v with
    | some w =>
      rw [hw] at h
      cases h
    | none => exact .inr (complains_error f.trail _ _)

theorem ReadsPlain.complains (h : ReadsPlain s n f current r) (ho : r.value.outcome = .noValue) :
    Complains f.trail r.found := by
  cases h with
  | filled hopens hstarts hds => cases ho
  | parsed hp hv => cases ho
  | failed h => exact h.complains

theorem ReadsThrough.complains {k m : Nat} (h : ReadsThrough s n m f current r)
    (hk : s.types.Layers k f.target) (hlt : k < m) (ho : r.value.outcome = .noValue) :
    Complains f.trail r.found := by
  induction h generalizing k with
  | exhausted => omega
  | plain hplain h => exact h.complains ho
  | unregistered hshape hinner h => exact h.complains
  | @layer m f current r inner t hshape hinner h ih =>
    cases hk with
    | plain hplain => exact (hplain inner hshape).elim
    | @optional k _ inner' hshape' hlayers =>
      have heq : inner' = inner := by simpa [hshape] using hshape'.symm
      subst heq
      rcases rewrap_complains f _ _ _ ho with hnone | hlast
      · have hinside := ih (hlayers t hinner) (by omega) hnone
        exact hinside.mono (List.subset_append_left _ _)
      · exact hlast.mono (List.subset_append_right _ _)

/-- A node that gives nothing to write is complained about. -/
theorem readNode_complains (hg : s.types.Grounded) (hf : Registered s f.target)
    (ho : (readNode s n f current).value.outcome = .noValue) :
    Complains f.trail (readNode s n f current).found := by
  obtain ⟨k, hk⟩ := hf
  rw [readNode_eq] at ho ⊢
  split at ho
  case isTrue => cases ho
  case isFalse hnull =>
    rw [if_neg hnull]
    exact (throughOptional_reads s n _ f current).complains (hg.layers hk) (Nat.lt_succ_self _) ho

end

/-! A child whose value is written. -/

/-- The value that a child asks to be written. -/
def given (r : TypeTable) (declared : TypeKey) : Outcome → Option Value
  | .value v => some v
  | .null => r.null? declared
  | .noValue => none

theorem toWrite_value (s : Setting) (o : Outcome) (declared : TypeKey) (trail : List String)
    (complaint : String) : (toWrite s o declared trail complaint).value = given s.types declared o := by
  cases o with
  | noValue => rfl
  | value v => rfl
  | null =>
    unfold toWrite given
    dsimp only
    cases s.types.null? declared <;> rfl

theorem toWrite_complains (s : Setting) {o : Outcome} {declared : TypeKey} {trail : List String}
    {complaint : String} (hnone : given s.types declared o = none) (ho : o ≠ .noValue) :
    Complains trail (toWrite s o declared trail complaint).found := by
  cases o with
  | noValue => exact (ho rfl).elim
  | value v => cases hnone
  | null =>
    unfold toWrite
    dsimp only
    rw [show s.types.null? declared = none from hnone]
    exact complains_error trail _ _

/-- A value that was read is stored as one of the declared type, the null as it is. -/
inductive Converts (r : TypeTable) (declared : TypeKey) : Outcome → Value → Prop
  | value {v w : Value} (h : r.convert v declared = .ok w) : Converts r declared (.value v) w
  | null {w : Value} (h : r.null? declared = some w) : Converts r declared .null w

/-- The second value is the first one with the child's value written into it. -/
inductive Writes (s : Setting) : Filling → Value → Node → Value → Value → Prop
  | member {trail : List String} {t : Descriptor} {v x w : Value} {c : Node} {p : Place}
    (hp : (place s (trail ++ [c.name]) t c).value = some p)
    (hx : Converts s.types p.declared.key
      ((memberDemand s (trail ++ [c.name]) v p).read s c).value.outcome x)
    (hw : p.member.access.assign (taken p.member v).2 x = .ok w) :
    Writes s (.class trail t) v c x w
  | item {l : ListFocus} {xs ys given' x : Value} {c : Node} {d : Demand}
    (hd : Demands s (.list l) xs c d)
    (hgiven : given s.types l.declared (d.read s c).value.outcome = some given')
    (hx : s.types.convert given' l.declared = .ok x)
    (hys : Value.push l.focus.target.key xs x = some ys) : Writes s (.list l) xs c x ys
  | entry {m : MapFocus} {xs ys key given' x : Value} {c : Node} {d : Demand}
    (hkey : readKey s m xs c.name = .ok key) (hd : Demands s (.map m) xs c d)
    (hgiven : given s.types m.declaredValue (d.read s c).value.outcome = some given')
    (hx : s.types.convert given' m.declaredValue = .ok x)
    (hys : (Value.insert m.focus.target.key xs key x).map? = some ys) :
    Writes s (.map m) xs c x ys

/-! What was read is written, or there is a complaint. -/

section

variable {s : Setting} {trail : List String} {step : Step}

theorem store_cases (m : Member) (trail : List String) (owner x : Value) :
    (∃ w, m.access.assign owner x = .ok w ∧ store m trail owner (some x) = pure w) ∨
      Complains trail (store m trail owner (some x)).found := by
  unfold store
  dsimp only
  cases ha : m.access.assign owner x with
  | ok w => exact .inl ⟨w, rfl, rfl⟩
  | error e => exact .inr (complains_error trail _ _)

theorem toStore_cases (p : Place) (trail : List String) (ho : step.outcome ≠ .noValue) :
    (∃ x, Converts s.types p.declared.key step.outcome x ∧
      toStore s p trail step = pure (some x)) ∨ Complains trail (toStore s p trail step).found := by
  unfold toStore
  cases hstep : step.outcome with
  | noValue => exact (ho hstep).elim
  | value v =>
    simp only [toWrite, pure_bind]
    cases hx : s.types.convert v p.declared.key with
    | ok x => exact .inl ⟨x, .value hx, rfl⟩
    | error e => exact .inr (complains_error trail _ _)
  | null =>
    simp only [toWrite]
    cases hx : s.types.null? p.declared.key with
    | some x => exact .inl ⟨x, .null hx, rfl⟩
    | none => exact .inr (complains_error trail _ _)

theorem memberDemand_finish {p : Place} {v : Value} (ho : step.outcome ≠ .noValue) :
    (∃ x w, Converts s.types p.declared.key step.outcome x ∧
      p.member.access.assign (taken p.member v).2 x = .ok w ∧
      ((memberDemand s trail v p).finish step).value = w) ∨
    Complains trail ((memberDemand s trail v p).finish step).found := by
  simp only [memberDemand]
  rcases toStore_cases p trail ho with ⟨x, hx, hstore⟩ | hcomplains
  · rw [hstore, pure_bind]
    rcases store_cases p.member trail (taken p.member v).2 x with ⟨w, hw, hvalue⟩ | hcomplains
    · exact .inl ⟨x, w, hx, hw, by rw [hvalue]; rfl⟩
    · exact .inr hcomplains
  · exact .inr (hcomplains.mono (List.subset_append_left _ _))

theorem itemDemand_finish (l : ListFocus) (xs : Value) (target : Descriptor) (step : Step) :
    (∃ g x ys, given s.types l.declared step.outcome = some g ∧
      s.types.convert g l.declared = .ok x ∧ Value.push l.focus.target.key xs x = some ys ∧
      ((itemDemand s l xs trail target).finish step).value = ys) ∨
    ((itemDemand s l xs trail target).finish step).value = xs ∧
      (step.outcome ≠ .noValue →
        Complains trail ((itemDemand s l xs trail target).finish step).found) := by
  simp only [itemDemand, Reported.bind_value, Reported.bind_found, toWrite_value]
  cases hg : given s.types l.declared step.outcome with
  | none =>
    refine .inr ⟨rfl, fun ho => ?_⟩
    exact (toWrite_complains s hg ho).mono (List.subset_append_left _ _)
  | some g =>
    simp only [storeItem]
    cases hx : s.types.convert g l.declared with
    | error e =>
      refine .inr ⟨rfl, fun _ => ?_⟩
      exact (complains_error trail _ _).mono (List.subset_append_right _ _)
    | ok x =>
      dsimp only
      cases hys : Value.push l.focus.target.key xs x with
      | none =>
        refine .inr ⟨rfl, fun _ => ?_⟩
        exact (complains_error trail _ _).mono (List.subset_append_right _ _)
      | some ys => exact .inl ⟨g, x, ys, rfl, hx, hys, rfl⟩

theorem entryDemand_finish (m : MapFocus) (xs key : Value) (name : String) (target : Descriptor)
    (step : Step) :
    (∃ g x ys, given s.types m.declaredValue step.outcome = some g ∧
      s.types.convert g m.declaredValue = .ok x ∧
      (Value.insert m.focus.target.key xs key x).map? = some ys ∧
      ((entryDemand s m xs key trail name target).finish step).value = ys) ∨
    ((entryDemand s m xs key trail name target).finish step).value = xs ∧
      (step.outcome ≠ .noValue →
        Complains trail ((entryDemand s m xs key trail name target).finish step).found) := by
  simp only [entryDemand, Reported.bind_value, Reported.bind_found, toWrite_value]
  cases hg : given s.types m.declaredValue step.outcome with
  | none =>
    refine .inr ⟨rfl, fun ho => ?_⟩
    exact (toWrite_complains s hg ho).mono (List.subset_append_left _ _)
  | some g =>
    simp only [storeEntry]
    cases hx : s.types.convert g m.declaredValue with
    | error e =>
      refine .inr ⟨rfl, fun _ => ?_⟩
      exact (complains_error trail _ _).mono (List.subset_append_right _ _)
    | ok x =>
      dsimp only
      cases hys : Value.insert m.focus.target.key xs key x with
      | inserted ys => exact .inl ⟨g, x, ys, rfl, hx, by rw [hys]; rfl, rfl⟩
      | replaced ys => exact .inl ⟨g, x, ys, rfl, hx, by rw [hys]; rfl, rfl⟩
      | mismatch =>
        refine .inr ⟨rfl, fun _ => ?_⟩
        exact (complains_error trail _ _).mono (List.subset_append_right _ _)

end

/-! One child, and the children of one node. -/

section

variable {s : Setting} {F : Filling} {v : Value} {c : Node} {d : Demand}

/-- What was read is written, or there is a complaint at the place of the child. -/
theorem Demands.finish_accounts (h : Demands s F v c d)
    (ho : (d.read s c).value.outcome ≠ .noValue) :
    (∃ x, Writes s F v c x (d.finish (d.read s c).value).value) ∨
      Complains (F.childTrail v c) (d.finish (d.read s c).value).found := by
  cases h with
  | member hp =>
    rcases memberDemand_finish ho with ⟨x, w, hx, hw, hvalue⟩ | hcomplains
    · exact .inl ⟨x, by rw [hvalue]; exact .member hp hx hw⟩
    · exact .inr hcomplains
  | item ht =>
    rcases itemDemand_finish _ v _ _ with ⟨g, x, ys, hg, hx, hys, hvalue⟩ | ⟨-, hcomplains⟩
    · exact .inl ⟨x, by rw [hvalue]; exact .item (.item ht) hg hx hys⟩
    · exact .inr (hcomplains ho)
  | entry hkey ht =>
    rcases entryDemand_finish _ v _ _ _ _ with ⟨g, x, ys, hg, hx, hys, hvalue⟩ | ⟨-, hcomplains⟩
    · exact .inl ⟨x, by rw [hvalue]; exact .entry hkey (.entry hkey ht) hg hx hys⟩
    · exact .inr (hcomplains ho)

/-- A key that a document names is registered, also without optional types around it. -/
theorem Named.registered {r : TypeTable} (hc : r.Closed) {k : TypeKey} (h : Named r k) :
    ∃ t, r.get? k = some t := by
  obtain ⟨name, found, hr, rfl⟩ := h
  obtain ⟨t, ht⟩ := TypeTable.resolve_registered hr
  have hstrip : r.stripOptional found ∈ found :: t.parts := by
    unfold TypeTable.stripOptional Descriptor.parts
    rw [ht]
    cases hshape : t.shape <;> simp [hshape]
  rcases List.mem_cons.mp hstrip with he | hpart
  · exact ⟨t, by rw [he]; exact ht⟩
  · exact hc found t ht _ hpart

/-- Every child is accounted for. -/
theorem Filling.add_accounts (hc : s.types.Closed) (hg : s.types.Grounded) (hF : F.Known s) :
    (∃ x, Writes s F v c x (F.add s v c).value) ∨
      Complains (F.childTrail v c) (F.add s v c).found := by
  have hadds := Filling.add_adds s F v c
  generalize F.add s v c = r at hadds
  cases hadds with
  | refused message => exact .inr (complains_error _ _ _)
  | keyless _ _ => exact .inr (complains_error _ _ _)
  | lost hnamed hk =>
    obtain ⟨t, ht⟩ := hnamed.registered hc
    rw [hk] at ht
    cases ht
  | @read d ds hd hds =>
    by_cases ho : (d.read s c).value.outcome = .noValue
    · have hcomplains := readNode_complains hg (hd.registered hF) ho
      rw [hd.trail_eq] at hcomplains
      exact .inr (hcomplains.mono (by simp [Demand.read]))
    · rcases hd.finish_accounts ho with hwrites | hcomplains
      · exact .inl hwrites
      · exact .inr (hcomplains.mono (by simp))

/-! A list keeps what it held, and gets one item for each child that is written. -/

theorem Writes.push {l : ListFocus} {xs x ys : Value} (h : Writes s (.list l) xs c x ys) :
    Value.push l.focus.target.key xs x = some ys := by
  cases h with
  | item hd hgiven hx hys => exact hys

theorem push_eq {k e : TypeKey} {items : List Value} {x ys : Value}
    (h : Value.push k (.list e items) x = some ys) : ys = .list e (items ++ [x]) := by
  simp only [Value.push] at h
  split at h
  · exact (Option.some.inj h).symm
  · cases h

theorem add_item (s : Setting) (l : ListFocus) (xs : Value) (c : Node) :
    (∃ x, Writes s (.list l) xs c x ((Filling.list l).add s xs c).value) ∨
      ((Filling.list l).add s xs c).value = xs := by
  have hadds := Filling.add_adds s (.list l) xs c
  generalize (Filling.list l).add s xs c = r at hadds
  cases hadds with
  | refused message => exact .inr rfl
  | keyless _ _ => exact .inr rfl
  | lost hnamed hk => exact .inr rfl
  | read hd hds =>
    cases hd with
    | item ht =>
      rcases itemDemand_finish _ xs _ _ with ⟨g, x, ys, hg, hx, hys, hvalue⟩ | ⟨hvalue, -⟩
      · exact .inl ⟨x, by rw [hvalue]; exact .item (.item ht) hg hx hys⟩
      · exact .inr hvalue

/-- What each child of a list adds to it. -/
theorem fill_items (s : Setting) (l : ListFocus) (e : TypeKey) (items : List Value)
    (cs : List Node) :
    let F := Filling.list l
    ∃ ws : List (Option Value), ws.length = cs.length ∧
      (F.fill s cs (.list e items)).value = .list e (items ++ ws.filterMap id) ∧
      ∀ before c after, cs = before ++ c :: after → ∀ w,
        ws[before.length]? = some (some w) ↔
          Writes s F (F.fill s before (.list e items)).value c w
            (F.add s (F.fill s before (.list e items)).value c).value := by
  intro F
  induction cs generalizing items with
  | nil =>
    refine ⟨[], rfl, by simp [Filling.fill], ?_⟩
    intro before c after h
    simp at h
  | cons c cs ih =>
    -- the first child adds its value, or nothing
    obtain ⟨w, hvalue, hwrites⟩ : ∃ w : Option Value,
        (F.add s (.list e items) c).value = .list e (items ++ w.toList) ∧
        ∀ x, w = some x ↔ Writes s F (.list e items) c x (F.add s (.list e items) c).value := by
      rcases add_item s l (.list e items) c with ⟨x, hx⟩ | hsame
      · have hpush := push_eq hx.push
        refine ⟨some x, hpush, fun y => ⟨?_, fun hy => ?_⟩⟩
        · intro he
          cases he
          exact hx
        · have hsame := hpush.symm.trans (push_eq hy.push)
          simpa using hsame
      · refine ⟨none, by rw [hsame]; simp, fun y => ⟨by simp, fun hy => ?_⟩⟩
        have hpush := hsame.symm.trans (push_eq hy.push)
        simp at hpush
    obtain ⟨ws, hlength, hrest, hiff⟩ := ih (items ++ w.toList)
    refine ⟨w :: ws, by simp [hlength], ?_, ?_⟩
    · simp only [Filling.fill, Reported.bind_value, hvalue, hrest]
      cases w <;> simp
    · intro before c' after h x
      cases before with
      | nil =>
        obtain ⟨rfl, rfl⟩ := List.cons.inj h
        simpa [Filling.fill] using hwrites x
      | cons b before =>
        obtain ⟨rfl, htail⟩ := List.cons.inj h
        have hx := hiff before c' after htail x
        rw [← hvalue] at hx
        exact hx

/-! Fillings within fillings. -/

/-- Reading a node comes to filling a value of it, within optional types. -/
inductive Begins (s : Setting) (n : Node) : Focus → Option Value → Filling → Value → Prop
  | plain {f : Focus} {current left : Option Value} {F : Filling} {v : Value}
    (hopens : Opens s f n F) (hstarts : Starts f n current v left) : Begins s n f current F v
  | layer {f : Focus} {current : Option Value} {F : Filling} {v : Value} {inner : TypeKey}
    {t : Descriptor} (hshape : f.target.shape = .optional inner)
    (hinner : s.types.get? inner = some t)
    (h : Begins s n (f.inner t) (f.unwrapped current) F v) : Begins s n f current F v

/-- While the first value is filled from the first children, the second one is from the second. -/
inductive Nested (s : Setting) :
    Filling → Value → List Node → Filling → Value → List Node → Prop
  | self {F : Filling} {v : Value} {cs : List Node} : Nested s F v cs F v cs
  | inside {F F₁ F₂ : Filling} {v v₁ v₂ : Value} {before after cs : List Node} {c : Node}
    {d : Demand} (hd : Demands s F (F.fill s before v).value c d)
    (hnull : c.flag "Null" ≠ some true) (hbegins : Begins s c d.focus d.current F₁ v₁)
    (h : Nested s F₁ v₁ c.children F₂ v₂ cs) :
    Nested s F v (before ++ c :: after) F₂ v₂ cs

theorem readPlain_found {f : Focus} {n : Node} {current left : Option Value}
    (hopens : Opens s f n F) (hstarts : Starts f n current v left) :
    (F.fill s n.children v).found ⊆ (readPlain s n f current).found := by
  unfold readPlain
  cases hopens with
  | «class» hshape hparser =>
    simp only [hshape, hparser, readClass, Reported.bind_found, hstarts.resume_eq]
    exact List.subset_append_left _ _
  | list hshape hkey helement =>
    simp only [hshape, readList, Reported.bind_found, hkey, helement, hstarts.resume_eq]
    intro d hd
    simp [hd]
  | map hshape hkey hvalue hk hv =>
    simp only [hshape, readMap, Reported.bind_found, hkey, hvalue, hk, hv, hstarts.resume_eq]
    intro d hd
    simp [hd]

theorem throughOptional_found {f : Focus} {n : Node} {current : Option Value}
    (h : Begins s n f current F v) {k m : Nat} (hk : s.types.Layers k f.target) (hlt : k < m) :
    (F.fill s n.children v).found ⊆ (throughOptional s (readPlain s n) m f current).found := by
  induction h generalizing k m with
  | @plain f current left F v hopens hstarts =>
    obtain ⟨m, rfl⟩ : ∃ m', m = m' + 1 := ⟨m - 1, by omega⟩
    have hplain : throughOptional s (readPlain s n) (m + 1) f current = readPlain s n f current := by
      unfold throughOptional
      cases hopens <;> simp_all
    rw [hplain]
    exact readPlain_found hopens hstarts
  | @layer f current F v inner t hshape hinner h ih =>
    cases hk with
    | plain hplain => exact (hplain inner hshape).elim
    | @optional k _ inner' hshape' hlayers =>
      have heq : inner' = inner := by simpa [hshape] using hshape'.symm
      subst heq
      obtain ⟨m, rfl⟩ : ∃ m', m = m' + 1 := ⟨m - 1, by omega⟩
      have hinside := ih (m := m) (hlayers t hinner) (by omega)
      unfold throughOptional
      simp only [hshape, hinner, Reported.bind_found]
      intro d hd
      exact List.mem_append_left _ (hinside hd)

theorem readNode_found (hg : s.types.Grounded) {f : Focus} {n : Node} {current : Option Value}
    (hf : Registered s f.target) (hnull : n.flag "Null" ≠ some true)
    (h : Begins s n f current F v) :
    (F.fill s n.children v).found ⊆ (readNode s n f current).found := by
  obtain ⟨k, hk⟩ := hf
  rw [readNode_eq, if_neg hnull]
  exact throughOptional_found h (hg.layers hk) (Nat.lt_succ_self _)

theorem add_found (h : Demands s F v c d) : (d.read s c).found ⊆ (F.add s v c).found := by
  cases h with
  | member hp =>
    simp only [Filling.add, storeMember, Reported.bind_found, hp]
    intro e he
    exact List.mem_append_right _ (List.mem_append_left _ he)
  | item ht =>
    simp only [Filling.childTrail] at ht
    simp only [Filling.add, addItem, Reported.bind_found, ht]
    intro e he
    exact List.mem_append_right _ (List.mem_append_left _ he)
  | entry hkey ht =>
    simp only [Filling.add, addEntry, hkey, Reported.bind_found, ht]
    intro e he
    exact List.mem_append_right _ (List.mem_append_left _ he)

theorem Begins.known {f : Focus} {n : Node} {current : Option Value}
    (h : Begins s n f current F v) (hf : Registered s f.target) : F.Known s := by
  induction h with
  | plain hopens hstarts => exact hopens.known hf
  | layer hshape hinner h ih => exact ih ⟨_, hinner⟩

/-- What is found inside is found. -/
theorem Nested.found (hg : s.types.Grounded) {F' : Filling} {v' : Value} {cs cs' : List Node}
    (h : Nested s F v cs F' v' cs') (hF : F.Known s) :
    F'.Known s ∧ (F'.fill s cs' v').found ⊆ (F.fill s cs v).found := by
  induction h with
  | self => exact ⟨hF, List.Subset.refl _⟩
  | inside hd hnull hbegins h ih =>
    obtain ⟨hknown, hsub⟩ := ih (hbegins.known (hd.registered hF))
    refine ⟨hknown, fun e he => ?_⟩
    have hnode := readNode_found hg (hd.registered hF) hnull hbegins (hsub he)
    have hadd := add_found hd hnode
    rw [Filling.fill_append]
    simp only [Filling.fill, Reported.bind_found]
    exact List.mem_append_right _ (List.mem_append_left _ hadd)

end

/-- Every child of a value that is filled is accounted for, among the findings of the whole: its
value is written, or there is an error at its own place. A list gets exactly the written items, in
the order of the children, after those that it had. -/
structure Accounted (s : Setting) (whole : Diagnostics) (F : Filling) (v : Value)
    (cs : List Node) : Prop where
  children : ∀ before c after, cs = before ++ c :: after →
    let x := (F.fill s before v).value
    (F.add s x c).found ⊆ whole ∧
      ((∃ w, Writes s F x c w (F.add s x c).value) ∨
        Complains (F.childTrail x c) (F.add s x c).found)
  items : ∀ l e xs, F = .list l → v = .list e xs →
    ∃ ws : List (Option Value), ws.length = cs.length ∧
      (F.fill s cs v).value = .list e (xs ++ ws.filterMap id) ∧
      ∀ before c after, cs = before ++ c :: after → ∀ w,
        let x := (F.fill s before v).value
        ws[before.length]? = some (some w) ↔ Writes s F x c w (F.add s x c).value

/-- All that is filled, at any depth, is accounted for. All types that are mentioned are registered,
and none is optional without end: reading such a type would not end. -/
theorem fill_accounts {s : Setting} (hc : s.types.Closed) (hg : s.types.Grounded) {F F' : Filling}
    {v v' : Value} {cs cs' : List Node} (hF : F.Known s) (h : Nested s F v cs F' v' cs') :
    Accounted s (F.fill s cs v).found F' v' cs' := by
  obtain ⟨hknown, hfound⟩ := h.found hg hF
  constructor
  case children =>
    rintro before c after rfl x
    refine ⟨fun e he => hfound ?_, Filling.add_accounts hc hg hknown⟩
    rw [Filling.fill_append]
    simp only [Filling.fill, Reported.bind_found]
    exact List.mem_append_right _ (List.mem_append_left _ he)
  case items =>
    rintro l e xs rfl rfl
    exact fill_items s l e xs cs'

/-! A bag of coins, one of which is not a number. -/

section

open Arsenal (fieldMember plainType)

def bag : TypeKey := .named "Bag"

def coins : Descriptor := plainType (.list .i32) (.list .i32)

def coinsMember : Member := fieldMember bag coins.key "Coins" (.list .i32 [])

def bagClass : Descriptor := plainType bag (.class [coinsMember])

def bagSetting : Setting :=
  ⟨⟨⟨[(.i32, plainType .i32 .scalar), (coins.key, coins), (bag, bagClass)], []⟩, {}, fun _ => none⟩,
    Parsers.standard⟩

def emptyBag : Value := .record bag [("Coins", .list .i32 [])]

def coinsNode : Node :=
  ⟨"Coins", .empty, none, [⟨"li", .empty, some "5", []⟩, ⟨"li", .empty, some "five", []⟩]⟩

theorem bagSetting_type {k : TypeKey} {t : Descriptor} (h : bagSetting.types.get? k = some t) :
    t = plainType .i32 .scalar ∨ t = coins ∨ t = bagClass := by
  have hmem : (k, t) ∈ bagSetting.types.types := Assoc.mem_of_get? h
  simp only [bagSetting, Setting.types, List.mem_cons, Prod.mk.injEq, List.not_mem_nil,
    or_false] at hmem
  rcases hmem with ⟨-, rfl⟩ | ⟨-, rfl⟩ | ⟨-, rfl⟩ <;> simp

theorem bag_accounts : ∃ l, Accounted bagSetting
    ((Filling.class ["Purse"] bagClass).fill bagSetting [coinsNode] emptyBag).found
    (.list l) (.list .i32 []) coinsNode.children := by
  have hclosed : bagSetting.types.Closed := by
    intro k t h j hj
    rcases bagSetting_type h with rfl | rfl | rfl
    · cases hj
    · exact ⟨plainType .i32 .scalar, by rw [List.mem_singleton.mp hj]; rfl⟩
    · exact ⟨coins, by rw [List.mem_singleton.mp hj]; rfl⟩
  have hgrounded : bagSetting.types.Grounded := by
    refine ⟨fun _ => 0, fun k t inner h hshape => ?_⟩
    rcases bagSetting_type h with rfl | rfl | rfl <;> cases hshape
  let p : Place := ⟨coinsMember, coins, coins⟩
  let d := memberDemand bagSetting ["Purse", "Coins"] emptyBag p
  have hd : Demands bagSetting (.class ["Purse"] bagClass) emptyBag coinsNode d := .member rfl
  have hopens : Opens bagSetting d.focus coinsNode
      (.list ⟨d.focus, .i32, plainType .i32 .scalar⟩) := .list rfl rfl rfl
  have hstarts : Starts d.focus coinsNode d.current (.list .i32 []) none := .stored rfl
  have hnested : Nested bagSetting (.class ["Purse"] bagClass) emptyBag ([] ++ [coinsNode])
      (.list ⟨d.focus, .i32, plainType .i32 .scalar⟩) (.list .i32 []) coinsNode.children :=
    .inside hd (by decide) (.plain hopens hstarts) .self
  exact ⟨_, fill_accounts hclosed hgrounded ⟨bag, rfl⟩ hnested⟩

end

end Reading

end DefLoad
