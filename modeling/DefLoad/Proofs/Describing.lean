import DefLoad.Proofs.Listing

/-!
Describing a type. Where every type that is mentioned enters the table when it is described, a type
has entered once it has been described, with all that it uses. The types may mention themselves and
one another in any way: a named type enters before what it mentions, so each of them is gone into
once, and everything between two named types is a container, which is larger than its parts.
-/

namespace DefLoad

/-- Whether describing a type with this declaration enters the type itself. -/
def Declaration.entersItself : Declaration → Bool
  | .sameAs _ | .silent => false
  | _ => true

namespace Catalog

/-- Whether a type is made of types that are declared and enter themselves. A reference does not
describe its target. -/
def describes (c : Catalog) : TypeKey → Bool
  | .named name => (Assoc.get? c (.named name)).any Declaration.entersItself
  | .optional inner => c.describes inner
  | .list element => c.describes element
  | .map _ key value => c.describes key && c.describes value
  | .ref _ => true

/-- Whatever a declaration mentions can be described. -/
def Complete (c : Catalog) : Prop := ∀ e ∈ c, ∀ j ∈ e.2.mentions, c.describes j = true

instance (c : Catalog) : Decidable c.Complete :=
  inferInstanceAs (Decidable (∀ e ∈ c, ∀ j ∈ e.2.mentions, c.describes j = true))

theorem size_le_breadth {c : Catalog} {e : TypeKey × Declaration} {j : TypeKey} (he : e ∈ c)
    (hj : j ∈ e.2.mentions) : j.size ≤ c.breadth := by
  have hmem : j.size ∈ (c.flatMap fun e => e.2.mentions).map TypeKey.size :=
    List.mem_map_of_mem (List.mem_flatMap.mpr ⟨e, he, hj⟩)
  rw [breadth, List.foldl_max]
  exact (List.le_max?_getD_of_mem hmem).trans (Nat.le_max_right _ _)

end Catalog

theorem TypeKey.size_pos (k : TypeKey) : 0 < k.size := by
  cases k <;> exact Nat.succ_pos _

namespace Builder

variable {b b' b'' : Builder} {k : TypeKey} {t : Descriptor} {c : Catalog} {n : Nat}

/-- The number of declarations whose types have not entered yet. -/
def pending (c : Catalog) (b : Builder) : Nat := c.countP fun e => !b.contains e.1

/-- Steps that suffice to describe a type. -/
def need (c : Catalog) (b : Builder) (k : TypeKey) : Nat := pending c b * (c.breadth + 1) + k.size

/-- What a builder comes to while types are described. -/
structure Leads (b b' : Builder) : Prop where
  kept : Kept b'
  catalog : b'.catalog = b.catalog
  keeps : ∀ k, b.contains k = true → b'.contains k = true

namespace Leads

theorem refl (h : Kept b) : Leads b b := ⟨h, rfl, fun _ hk => hk⟩

theorem trans (h : Leads b b') (h' : Leads b' b'') : Leads b b'' :=
  ⟨h'.kept, h'.catalog.trans h.catalog, fun k hk => h'.keeps k (h.keeps k hk)⟩

theorem insert (h : Kept (b.insert t)) : Leads b (b.insert t) :=
  ⟨h, insert_catalog b t, fun _ hk => contains_insert_mono t hk⟩

theorem modify {f : Descriptor → Descriptor} (h : Kept (b.modify k f)) :
    Leads b (b.modify k f) := by
  refine ⟨h, ?_, fun j hj => by rwa [contains_modify]⟩
  unfold Builder.modify
  split <;> rfl

theorem pending_le (h : Leads b b') (c : Catalog) : pending c b' ≤ pending c b := by
  apply List.countP_mono_left
  intro e _ he
  rw [Bool.not_eq_true', Bool.eq_false_iff] at he ⊢
  exact fun hb => he (h.keeps e.1 hb)

theorem need_le (h : Leads b b') (c : Catalog) (k : TypeKey) : need c b' k ≤ need c b k :=
  Nat.add_le_add_right (Nat.mul_le_mul_right _ (h.pending_le c)) k.size

/-- A declared type that enters is one less to enter. -/
theorem pending_lt (h : Leads b b') {e : TypeKey × Declaration} (he : e ∈ c)
    (hnew : b.contains e.1 = false) (hthere : b'.contains e.1 = true) :
    pending c b' < pending c b := by
  -- what is still to enter afterwards is a part of what was to enter before
  have hfilter : (c.filter fun e => !b'.contains e.1) =
      (c.filter fun e => !b.contains e.1).filter fun e => !b'.contains e.1 := by
    rw [List.filter_filter]
    refine List.filter_congr fun e _ => ?_
    cases hb : b.contains e.1 with
    | false => simp
    | true => simp [h.keeps e.1 hb]
  rw [pending, pending, List.countP_eq_length_filter, List.countP_eq_length_filter, hfilter]
  exact List.length_filter_lt_length_iff_exists.mpr
    ⟨e, List.mem_filter.mpr ⟨he, by simp [hnew]⟩, by simp [hthere]⟩

end Leads

/-- What describing a type comes to when there are steps enough: the type has entered. -/
structure Enters (b : Builder) (k : TypeKey) (out : Builder × TypeKey) : Prop where
  leads : Leads b out.1
  key : out.2 = k
  there : out.1.contains k = true

/-- So many steps suffice for every type that does not need more. -/
def Suffices (c : Catalog) (n : Nat) : Prop := ∀ b k, Kept b → b.catalog = c →
  c.describes k = true → need c b k ≤ n → Enters b k (describe n b k)

theorem describe_contained (h : b.contains k = true) (n : Nat) : describe (n + 1) b k = (b, k) := by
  cases k <;> rw [describe, if_pos h]

/-- A named type enters the schema at hand before what it uses. -/
theorem Kept.enterNamed (h : Kept b) (hnew : b.contains t.key = false)
    (hnamed : t.key.isNamed = true) (hs : t.schema = b.current)
    (hshape : t.shape.isContainer = false) (huses : t.uses = []) : Leads b (b.insert t) := by
  refine .insert (h.enter hnew (hs ▸ h.current_lt) ⟨rfl, ?_, ?_, ?_⟩)
  · rw [hshape, hnamed]
    rfl
  · rw [hnamed]
    nofun
  · rw [huses]
    nofun

/-- A container enters after its parts. -/
theorem Leads.enclose (h : Leads b b') {name : String} {shape : Shape} {default : Option Value}
    (hk : k.isNamed = false) (hshape : shape.isContainer = true)
    (huses : ∀ j ∈ (container k name shape default).uses, b'.contains j = true) :
    Enters b k (b'.insert (container k name shape default), k) where
  leads := h.trans <| .insert <| h.kept.insertContainer rfl
    ⟨rfl, by rw [container, hshape, hk]; rfl, fun _ => rfl, huses⟩
  key := rfl
  there := contains_insert_self b' _

/-- A container of one part enters after it. -/
theorem Enters.enclose {j : TypeKey} {out : Builder × TypeKey} (h : Enters b j out) {name : String}
    {shape : Shape} {default : Option Value} (hk : k.isNamed = false)
    (hshape : shape.isContainer = true) (huses : (container k name shape default).uses = [out.2]) :
    Enters b k (out.1.insert (container k name shape default), k) := by
  refine h.leads.enclose hk hshape fun i hi => ?_
  rw [huses, h.key] at hi
  rw [List.mem_singleton.mp hi]
  exact h.there

/-! The parts of a class. -/

/-- All members that have been collected are of types that are there. -/
def Draft.Known (b : Builder) (draft : Draft) : Prop :=
  ∀ m ∈ draft.members, b.contains m.type = true

theorem Draft.Known.append {draft : Draft} {ms : List Member} {bases : List TypeKey}
    (h : draft.Known b) (hleads : Leads b b') (hms : ∀ m ∈ ms, b'.contains m.type = true) :
    Draft.Known b' ⟨draft.members ++ ms, bases⟩ := by
  intro m hm
  rcases List.mem_append.mp hm with hm | hm
  · exact hleads.keeps m.type (h m hm)
  · exact hms m hm

/-- The members of a class in the table are of types that are there. -/
theorem Kept.members_known (h : Kept b) (ht : Assoc.get? b.types k = some t) :
    ∀ m ∈ t.members, b.contains m.type = true := by
  intro m hm
  apply (h.belongs k t ht).uses
  unfold Descriptor.members at hm
  split at hm
  case h_1 ms hshape =>
    rw [Descriptor.uses_class hshape]
    exact List.mem_map_of_mem hm
  case h_2 => cases hm

theorem describePart_leads (hn : Suffices c n) (h : Kept b) (hb : b.catalog = c)
    {draft : Draft} {part : Part}
    (hpart : ∀ j, part.type? = some j → c.describes j = true ∧ need c b j ≤ n)
    (hdraft : draft.Known b) :
    Leads b (describe.describePart n b draft part).1 ∧
      (describe.describePart n b draft part).2.Known (describe.describePart n b draft part).1 := by
  cases part with
  | member name type kind aliases isPublic inclusion access =>
    obtain ⟨hdescribes, hneed⟩ := hpart type rfl
    obtain ⟨hleads, hkey, hthere⟩ := hn b type h hb hdescribes hneed
    rw [describe.describePart]
    refine ⟨hleads, hdraft.append hleads fun m hm => ?_⟩
    rw [List.mem_singleton.mp hm, hkey]
    exact hthere
  | embed type within =>
    obtain ⟨hdescribes, hneed⟩ := hpart type rfl
    obtain ⟨hleads, -, -⟩ := hn b type h hb hdescribes hneed
    rw [describe.describePart]
    refine ⟨hleads, hdraft.append hleads fun m hm => ?_⟩
    split at hm
    case h_1 t ht =>
      obtain ⟨inner, hinner, rfl⟩ := List.mem_map.mp hm
      exact hleads.kept.members_known ht inner hinner
    case h_2 => cases hm
  | base type =>
    rw [describe.describePart]
    exact ⟨.refl h, hdraft⟩

/-- Steps that suffice for all that a declaration mentions. -/
def needMentions (c : Catalog) (b : Builder) : Nat := pending c b * (c.breadth + 1) + c.breadth

theorem need_of_size (h : k.size ≤ c.breadth) (hn : needMentions c b ≤ n) : need c b k ≤ n :=
  (Nat.add_le_add_left h _).trans hn

/-- When a type enters, that pays for all that its declaration mentions. -/
theorem Leads.needMentions_lt (h : Leads b b') {e : TypeKey × Declaration} (he : e ∈ c)
    (hnew : b.contains e.1 = false) (hthere : b'.contains e.1 = true) :
    needMentions c b' < need c b e.1 := by
  have hless := Nat.mul_le_mul_right (c.breadth + 1) (h.pending_lt he hnew hthere)
  rw [Nat.succ_mul] at hless
  have hpos := e.1.size_pos
  simp only [need, needMentions]
  omega

theorem Leads.needMentions_le (h : Leads b b') (c : Catalog) :
    needMentions c b' ≤ needMentions c b :=
  Nat.add_le_add_right (Nat.mul_le_mul_right _ (h.pending_le c)) c.breadth

theorem describeParts_leads (hn : Suffices c n) {parts : List Part} (s : Builder × Draft)
    (h : Kept s.1) (hb : s.1.catalog = c)
    (hparts : ∀ j ∈ parts.filterMap Part.type?, c.describes j = true ∧ j.size ≤ c.breadth)
    (hneed : needMentions c s.1 ≤ n) (hdraft : s.2.Known s.1) :
    let out := parts.foldl (fun s part => describe.describePart n s.1 s.2 part) s
    Leads s.1 out.1 ∧ out.2.Known out.1 := by
  induction parts generalizing s with
  | nil => exact ⟨.refl h, hdraft⟩
  | cons part parts ih =>
    have hpart : ∀ j, part.type? = some j → c.describes j = true ∧ need c s.1 j ≤ n := by
      intro j hj
      obtain ⟨hdescribes, hsize⟩ :=
        hparts j (List.mem_filterMap.mpr ⟨part, List.mem_cons_self, hj⟩)
      exact ⟨hdescribes, need_of_size hsize hneed⟩
    obtain ⟨hfirst, hknown⟩ := describePart_leads hn h hb hpart hdraft
    obtain ⟨hrest, hout⟩ := ih (describe.describePart n s.1 s.2 part) hfirst.kept
      (hfirst.catalog.trans hb)
      (fun j hj => hparts j (by
        obtain ⟨p, hp, hj⟩ := List.mem_filterMap.mp hj
        exact List.mem_filterMap.mpr ⟨p, List.mem_cons_of_mem part hp, hj⟩))
      ((hfirst.needMentions_le c).trans hneed) hknown
    exact ⟨hfirst.trans hrest, hout⟩

/-! The types that stand in for an abstract one. -/

theorem describeStandIns_leads (hn : Suffices c n) {ks : List TypeKey}
    (s : Builder × List StandIn) (h : Kept s.1) (hb : s.1.catalog = c)
    (hks : ∀ j ∈ ks, c.describes j = true ∧ j.size ≤ c.breadth)
    (hneed : needMentions c s.1 ≤ n) (hknown : ∀ i ∈ s.2, s.1.contains i.key = true) :
    let out := ks.foldl
      (fun s k => ((describe n s.1 k).1, s.2 ++ [⟨(describe n s.1 k).2, k⟩])) s
    Leads s.1 out.1 ∧ ∀ i ∈ out.2, out.1.contains i.key = true := by
  induction ks generalizing s with
  | nil => exact ⟨.refl h, hknown⟩
  | cons k ks ih =>
    obtain ⟨hdescribes, hsize⟩ := hks k List.mem_cons_self
    obtain ⟨hfirst, hkey, hthere⟩ := hn s.1 k h hb hdescribes (need_of_size hsize hneed)
    have hknown' : ∀ i ∈ s.2 ++ [⟨(describe n s.1 k).2, k⟩],
        (describe n s.1 k).1.contains i.key = true := by
      intro i hi
      rcases List.mem_append.mp hi with hi | hi
      · exact hfirst.keeps i.key (hknown i hi)
      · rw [List.mem_singleton.mp hi, hkey]
        exact hthere
    obtain ⟨hrest, hout⟩ := ih (_, s.2 ++ [⟨(describe n s.1 k).2, k⟩]) hfirst.kept
      (hfirst.catalog.trans hb) (fun j hj => hks j (List.mem_cons_of_mem k hj))
      ((hfirst.needMentions_le c).trans hneed) hknown'
    exact ⟨hfirst.trans hrest, hout⟩

/-- What a type that has entered uses is filled in when all of it is there. -/
theorem Leads.fill (hentered : Leads b (b.insert t)) (h : Leads (b.insert t) b') (hkey : t.key = k)
    (hnamed : k.isNamed = true) {f : Descriptor → Descriptor} (hkeys : ∀ t, (f t).key = t.key)
    (hs : ∀ t, (f t).schema = t.schema) (hshape : ∀ t, (f t).shape.isContainer = false)
    (huses : ∀ t, ∀ j ∈ (f t).uses, b'.contains j = true) :
    Enters b k (b'.modify k f, k) where
  leads := by
    refine (hentered.trans h).trans (.modify (h.kept.modify hs fun t ht => ⟨?_, ?_, ?_, huses t⟩))
    · exact (hkeys t).trans (h.kept.belongs k t ht).key
    · rw [hshape, hnamed]
      rfl
    · rw [hnamed]
      nofun
  key := rfl
  there := by
    rw [contains_modify, ← hkey]
    exact h.keeps t.key (contains_insert_self b t)

theorem class_enters (hn : Suffices c n) (hb : b.catalog = c) {parts : List Part}
    (hentered : Leads b (b.insert t)) (hkey : t.key = k) (hnamed : k.isNamed = true)
    (hparts : ∀ j ∈ parts.filterMap Part.type?, c.describes j = true ∧ j.size ≤ c.breadth)
    (hneed : needMentions c (b.insert t) ≤ n) :
    let out := parts.foldl (fun s part => describe.describePart n s.1 s.2 part)
      (b.insert t, ⟨[], []⟩)
    let fill (t : Descriptor) := { t with shape := .class out.2.members, bases := out.2.bases }
    Enters b k (out.1.modify k fill, k) := by
  obtain ⟨hleads, hknown⟩ := describeParts_leads hn (b.insert t, ⟨[], []⟩) hentered.kept
    (hentered.catalog.trans hb) hparts hneed nofun
  refine hentered.fill hleads hkey hnamed (fun _ => rfl) (fun _ => rfl) (fun _ => rfl)
    fun _ j hj => ?_
  rw [Descriptor.uses_class rfl] at hj
  obtain ⟨m, hm, rfl⟩ := List.mem_map.mp hj
  exact hknown m hm

theorem abstract_enters (hn : Suffices c n) (hb : b.catalog = c) {ks : List TypeKey}
    (hentered : Leads b (b.insert t)) (hkey : t.key = k) (hnamed : k.isNamed = true)
    (hks : ∀ j ∈ ks, c.describes j = true ∧ j.size ≤ c.breadth)
    (hneed : needMentions c (b.insert t) ≤ n) :
    let out := ks.foldl (fun s k => ((describe n s.1 k).1, s.2 ++ [⟨(describe n s.1 k).2, k⟩]))
      (b.insert t, [])
    let fill (t : Descriptor) := { t with shape := .abstract out.2 }
    Enters b k (out.1.modify k fill, k) := by
  obtain ⟨hleads, hknown⟩ := describeStandIns_leads hn (b.insert t, []) hentered.kept
    (hentered.catalog.trans hb) hks hneed nofun
  refine hentered.fill hleads hkey hnamed (fun _ => rfl) (fun _ => rfl) (fun _ => rfl)
    fun _ j hj => ?_
  rw [Descriptor.uses_abstract rfl] at hj
  obtain ⟨i, hi, rfl⟩ := List.mem_map.mp hj
  exact hknown i hi

theorem named_enters (hc : c.Complete) (hn : Suffices c n) (h : Kept b) (hb : b.catalog = c)
    {name : String} (hnew : b.contains (.named name) = false)
    (hk : c.describes (.named name) = true) (hneed : need c b (.named name) ≤ n + 1) :
    Enters b (.named name) (describe (n + 1) b (.named name)) := by
  have hnot : ¬b.contains (.named name) = true := by simp [hnew]
  obtain ⟨d, hd, hown⟩ := (Option.any_eq_true _ _).mp hk
  have hmem := Assoc.mem_of_get? hd
  have hmentions : ∀ j ∈ d.mentions, c.describes j = true ∧ j.size ≤ c.breadth :=
    fun j hj => ⟨hc _ hmem j hj, Catalog.size_le_breadth hmem hj⟩
  -- the type itself enters first, so a circle that comes back to it ends there
  have hpaid {t : Descriptor} (ht : t.key = .named name) (hleads : Leads b (b.insert t)) :
      needMentions c (b.insert t) ≤ n :=
    Nat.le_of_lt_succ <|
      (hleads.needMentions_lt hmem hnew (ht ▸ contains_insert_self b t)).trans_le hneed
  rw [describe, if_neg hnot, hb, hd]
  cases d with
  | sameAs target => cases hown
  | silent => cases hown
  | scalar fullName default =>
    exact ⟨h.enterNamed hnew rfl rfl rfl rfl, rfl, contains_insert_self b _⟩
  | enumeration fullName variants =>
    exact ⟨h.enterNamed hnew rfl rfl rfl rfl, rfl, contains_insert_self b _⟩
  | «class» fullName construct parts roles =>
    refine class_enters hn hb ?classEntered rfl rfl hmentions (hpaid rfl ?classEntered)
    exact h.enterNamed hnew rfl rfl rfl rfl
  | «abstract» fullName standIns =>
    refine abstract_enters hn hb ?abstractEntered rfl rfl hmentions (hpaid rfl ?abstractEntered)
    exact h.enterNamed hnew rfl rfl rfl rfl

theorem suffices_all (hc : c.Complete) (n : Nat) : Suffices c n := by
  induction n with
  | zero =>
    -- every type needs a step
    intro b k _ _ _ hneed
    have hpos := k.size_pos
    unfold need at hneed
    omega
  | succ n ih =>
    intro b k h hb hk hneed
    cases hknown : b.contains k with
    | true =>
      rw [describe_contained hknown]
      exact ⟨.refl h, rfl, hknown⟩
    | false =>
      have hnot : ¬b.contains k = true := by simp [hknown]
      cases k with
      | named name => exact named_enters hc ih h hb hknown hk hneed
      | optional inner =>
        rw [describe, if_neg hnot]
        exact (ih b inner h hb hk (Nat.le_of_succ_le_succ hneed)).enclose rfl rfl rfl
      | list element =>
        rw [describe, if_neg hnot]
        exact (ih b element h hb hk (Nat.le_of_succ_le_succ hneed)).enclose rfl rfl rfl
      | map kind key value =>
        rw [describe, if_neg hnot]
        obtain ⟨hdkey, hdvalue⟩ := Bool.and_eq_true_iff.mp hk
        have hsize : need c b key ≤ n ∧ need c b value ≤ n := by
          simp only [need, TypeKey.size] at hneed ⊢
          omega
        obtain ⟨hfirst, hkey, hthere⟩ := ih b key h hb hdkey hsize.1
        obtain ⟨hsecond, hvalue, hthere'⟩ := ih _ value hfirst.kept (hfirst.catalog.trans hb)
          hdvalue ((hfirst.need_le c value).trans hsize.2)
        refine (hfirst.trans hsecond).enclose rfl rfl fun j hj => ?_
        rcases List.mem_pair.mp hj with rfl | rfl
        · rw [hkey]
          exact hsecond.keeps key hthere
        · rw [hvalue]
          exact hthere'
      | ref target =>
        rw [describe, if_neg hnot]
        exact (Leads.refl h).enclose rfl rfl fun _ hj => absurd hj List.not_mem_nil

end Builder

end DefLoad
