import DefLoad.Proofs.ReferenceReading
import DefLoad.Proofs.Referents

/-!
No reference dangles after a load, but for those with an empty ID. The references in a registered
def are those that the load has written, and those that were in it before.
-/

namespace DefLoad

namespace Session

variable {s : Session}

/-! What the cells hold. -/

variable {S : Refs} {db : Database} {d : Handle}

theorem read_eq_of_cell {db : Database} {h d : Handle} (hc : h.cell = d.cell) :
    db.read h = db.read d := by
  rw [Database.read, hc]
  rfl

theorem write_refersIn {h : Handle} {v : Value} (hv : h.cell = d.cell → v.RefersIn S)
    (hd : (db.read d).RefersIn S) : ((db.write h v).read d).RefersIn S := by
  unfold Database.read Database.write
  rw [List.getElem?_set]
  split
  case isTrue hc =>
    split
    case isTrue => exact hv hc
    case isFalse => exact Value.refersIn_scalar _ _
  case isFalse => exact hd

theorem allocate_refersIn {v : Value} (hv : v.RefersIn S) (hd : (db.read d).RefersIn S) :
    ((db.allocate v).2.read d).RefersIn S := by
  unfold Database.read Database.allocate
  dsimp only
  rw [List.getElem?_append]
  split
  case isTrue => exact hd
  case isFalse =>
    cases hrest : [v][d.cell - db.cells.length]? with
    | none => exact Value.refersIn_scalar _ _
    | some w =>
      rw [List.mem_singleton.mp (List.mem_of_getElem? hrest)]
      exact hv

theorem prepare_refersIn (htypes : s.db.types.Keeps S) {cs : List Candidate}
    (hcs : ∀ c ∈ cs, c.Of s) (hd : (db.read d).RefersIn S) :
    ((prepare db cs).value.2.read d).RefersIn S := by
  induction cs generalizing db with
  | nil => exact hd
  | cons c cs ih =>
    have hrest : ∀ c ∈ cs, c.Of s := fun c' hc' => hcs c' (List.mem_cons_of_mem c hc')
    unfold prepare
    cases c.existing with
    | some h => exact ih hrest hd
    | none =>
      simp only [Reported.bind_value]
      cases hnew : (newDef c).value with
      | none => exact ih hrest hd
      | some v =>
        obtain ⟨w, hw, rfl⟩ := newDef_eq_some hnew
        obtain ⟨k, hk⟩ := (hcs c List.mem_cons_self).type
        have hfresh := (htypes k _ hk).build none w (fun _ hc => by cases hc) hw
        exact ih hrest (allocate_refersIn (hfresh.withId _) hd)

theorem fill_refersIn {set : Reading.Setting} (hset : set.Keeps S) {p : Pending}
    (hp : Reading.Registered set p.type) {v : Value} (hv : v.RefersIn S) :
    (fill set p v).value.RefersIn S := by
  unfold fill
  cases p.reused with
  | true =>
    exact Reading.readDef_refersIn hset hp _ _ (Reading.reset_refersIn hset hp _ hv)
  | false => exact Reading.readDef_refersIn hset hp _ _ hv

theorem fillAll_refersIn {set : Reading.Setting} (hset : set.Keeps S) {ps : List Pending}
    (hps : ∀ p ∈ ps, Reading.Registered set p.type) (hd : (db.read d).RefersIn S) :
    ((fillAll set ps db).value.read d).RefersIn S := by
  induction ps generalizing db with
  | nil => exact hd
  | cons p ps ih =>
    refine ih (fun p' hp' => hps p' (List.mem_cons_of_mem p hp')) (write_refersIn (fun hc => ?_) hd)
    refine fill_refersIn hset (hps p List.mem_cons_self) ?_
    rwa [read_eq_of_cell hc]

theorem role_cases (db : Database) (h : Handle) :
    role db h = {} ∨ ∃ k t, db.types.get? k = some t ∧ t.defRole = some (role db h) := by
  unfold role
  cases hrole : (db.types.get? h.type).bind Descriptor.defRole with
  | none => exact .inl rfl
  | some r =>
    obtain ⟨t, ht, hr⟩ := Option.bind_eq_some_iff.mp hrole
    exact .inr ⟨h.type, t, ht, hr⟩

theorem role_refersIn (htypes : db.types.Keeps S) (h : Handle) {v : Value} (hv : v.RefersIn S) :
    ((role db h).postLoad v).1.RefersIn S ∧ ((role db h).latePostLoad v).1.RefersIn S := by
  rcases role_cases db h with hrole | ⟨k, t, ht, hrole⟩
  · rw [hrole]
    exact ⟨hv, hv⟩
  · have ht := htypes k t ht
    exact ⟨ht.postLoad _ hrole v hv, ht.latePostLoad _ hrole v hv⟩

theorem runPass_refersIn {run : DefRole → Value → Value × Option String}
    (hrun : ∀ db : Database, db.types.Keeps S → ∀ h v, v.RefersIn S →
      (run (role db h) v).1.RefersIn S) (htypes : db.types.Keeps S) (callback : String)
    (hs : List Handle) (hd : (db.read d).RefersIn S) :
    ((runPass callback run hs db).value.read d).RefersIn S := by
  induction hs generalizing db with
  | nil => exact hd
  | cons h hs ih =>
    have hwritten : ((db.write h (run (role db h) (db.read h)).1).read d).RefersIn S := by
      refine write_refersIn (fun hc => hrun db htypes h _ ?_) hd
      rwa [read_eq_of_cell hc]
    exact ih htypes hwritten

theorem announce_refersIn (htypes : db.types.Keeps S) (hs : List Handle)
    (hd : (db.read d).RefersIn S) : ((announce hs db).value.read d).RefersIn S := by
  have hfirst := runPass_refersIn (fun _ ht h _ hv => (role_refersIn ht h hv).1) htypes
    "post_load" hs hd
  refine runPass_refersIn (fun _ ht h _ hv => (role_refersIn ht h hv).2) ?_
    "late_post_load" hs hfirst
  rwa [(runPass_sameIndex "post_load" DefRole.postLoad hs db).types]

theorem registerAll_same (db : Database) (hs : List Handle) :
    (hs.foldl Database.register db).cells = db.cells ∧
      (hs.foldl Database.register db).types = db.types := by
  induction hs generalizing db with
  | nil => exact ⟨rfl, rfl⟩
  | cons h hs ih =>
    have hone : (db.register h).cells = db.cells ∧ (db.register h).types = db.types := by
      unfold Database.register
      split <;> exact ⟨rfl, rfl⟩
    rw [List.foldl_cons, (ih _).1, (ih _).2]
    exact hone

/-- A load hands on the references of a set when all that it works with does. -/
theorem conclude_refersIn (hset : (filling s).Keeps S) (hd : (s.db.read d).RefersIn S) :
    (s.conclude.2.read d).RefersIn S := by
  have htypes : s.db.types.Keeps S := hset.types
  have hprepared : ((prepared s).read d).RefersIn S :=
    prepare_refersIn htypes (fun _ hc => mem_chosen hc) hd
  have hfilled : ((filled s).read d).RefersIn S :=
    fillAll_refersIn hset (fun p hp => (mem_pendings hp).2) hprepared
  have hfilledTypes : (filled s).types = s.db.types :=
    (fillAll_sameIndex _ _ _).types.trans (prepare_grows s.db (chosen s)).types
  obtain ⟨hcells, hregisteredTypes⟩ := registerAll_same (filled s) (made (pendings s))
  obtain ⟨hs, heq⟩ := conclude_eq s
  rw [heq]
  refine announce_refersIn ?_ hs ?_
  · rw [registered, hregisteredTypes, hfilledTypes]
    exact htypes
  · rw [Database.read, registered, hcells]
    exact hfilled

/-- The references that a load writes: its parser for references gives them. -/
def Writes (s : Session) : Refs := Parsers.Given (filling s).env

/-- A reference in a cell was there before or has been written. -/
theorem conclude_mentions (htypes : ∀ S, s.db.types.Keeps S)
    (hparsers : ∀ p ∈ s.parsers, p ∈ Parsers.standard ∨ ∀ S, p.Keeps S) {target : TypeKey}
    {h : Handle} (hm : (s.conclude.2.read d).Mentions target h) :
    s.Writes target h ∨ (s.db.read d).Mentions target h := by
  let S : Refs := fun target h => s.Writes target h ∨ (s.db.read d).Mentions target h
  have hset : (filling s).Keeps S :=
    Reading.Setting.keeps_of (htypes S) (fun p hp => (hparsers p hp).imp_right fun hp => hp S)
      fun _ _ hw => .inl hw
  exact conclude_refersIn hset (fun _ _ hm => .inr hm) target h hm

/-- A reference that was written is of a fitting type, and it means a registered def unless its ID
is empty. -/
theorem Begins.writes (hs : s.Begins) {target : TypeKey} {h : Handle} (hw : s.Writes target h) :
    s.db.types.isSubtype h.type target = true ∧
      (h.id ≠ "" → s.conclude.2.get? h.id = some h) := by
  obtain ⟨c, hc⟩ := hw
  obtain ⟨target', handle, heq, hfound, hsub⟩ := Parsers.parseRef_eq_ok hc
  cases heq
  exact ⟨hsub, conclude_registers hs hfound⟩

/-! The session of a load. -/

theorem mem_parsers_run {p : Parser} {cs : List Command} (h : p ∈ (s.run cs).parsers) :
    p ∈ s.parsers ∨ .addParser p ∈ cs := by
  induction cs generalizing s with
  | nil => exact .inl h
  | cons c cs ih =>
    rcases ih h with h | h
    · rcases perform_cases s c with ⟨-, ha⟩ | ⟨-, hp⟩ | ⟨q, rfl⟩
      · rw [ha.reads.parsers] at h
        exact .inl h
      · rw [((ReadsAs.close s).trans hp.reads).parsers] at h
        exact .inl h
      · rcases List.mem_append.mp h with h | h
        · exact .inl h
        · rw [List.mem_singleton.mp h]
          exact .inr List.mem_cons_self
    · exact .inr (List.mem_cons_of_mem c h)

theorem run_mode (s : Session) (cs : List Command) : (s.run cs).mode = s.mode := by
  induction cs generalizing s with
  | nil => rfl
  | cons c cs ih =>
    refine (ih (s.perform c)).trans ?_
    rcases perform_cases s c with ⟨-, ha⟩ | ⟨-, hp⟩ | ⟨p, rfl⟩
    · exact ha.reads.mode
    · exact ((ReadsAs.close s).trans hp.reads).mode
    · rfl

theorem settle_reads (s : Session) : ReadsAs s s.settle := by
  unfold settle
  split
  · exact .refl s
  · exact ⟨rfl, rfl, rfl, rfl⟩

end Session

open Session (made pendings)

namespace Store

variable {types : TypeTable} {st : Store} {mode : LoadMode} {config : Config}
  {calls : List Session.Command}

/-- The session of a load once inheritance is resolved. -/
def settled (st : Store) (mode : LoadMode) (config : Config) (calls : List Session.Command) :
    Session := (st.session mode config calls).settle

theorem settled_db : (st.settled mode config calls).db = (Session.start st.db config mode).db := by
  rw [settled, Session.settle_db, session, Session.run_db]

theorem settled_mode : (st.settled mode config calls).mode = mode := by
  rw [settled, (Session.settle_reads _).mode, session, Session.run_mode]
  rfl

theorem settled_parsers {p : Parser} (h : p ∈ (st.settled mode config calls).parsers) :
    p ∈ Parsers.standard ∨ .addParser p ∈ calls := by
  rw [settled, (Session.settle_reads _).parsers] at h
  exact Session.mem_parsers_run h

theorem Consistent.begins (hs : st.Consistent types) :
    (st.settled mode config calls).Begins := by
  have hbegun := hs.begin config mode
  refine ⟨?_, fun hfresh => ?_⟩
  · rw [settled_db]
    exact hbegun.indexed
  · rw [settled_mode] at hfresh
    rw [settled_db, hfresh]
    rfl

theorem mem_all_registerAll {db : Database} {hs : List Handle} {x : Handle}
    (hx : x ∈ (hs.foldl Database.register db).all) : x ∈ db.all ∨ x ∈ hs := by
  induction hs generalizing db with
  | nil => exact .inl hx
  | cons h hs ih =>
    rcases ih hx with hx | hx
    · rcases mem_all_register hx with hx | rfl
      · exact .inl hx
      · exact .inr List.mem_cons_self
    · exact .inr (List.mem_cons_of_mem h hx)

/-- A def that is registered in the end is a new one, with a cell that was not there, or it was
registered before a reload. -/
theorem registered_cases {d : Handle}
    (hd : d ∈ (st.settled mode config calls).conclude.2.all) :
    mode = .reload ∧ d ∈ st.db.all ∨ st.db.cells.length ≤ d.cell := by
  rw [Database.all, Session.conclude_byId] at hd
  rcases mem_all_registerAll hd with hd | hd
  · rw [Database.all, Session.filled_byId, settled_db] at hd
    cases mode with
    | fresh => cases hd
    | reload => exact .inl ⟨rfl, hd⟩
  · obtain ⟨i, hi⟩ := List.mem_iff_getElem?.mp hd
    have hcell := (Session.prepare_grows _ _).numbered i d hi
    have hcells : (st.settled mode config calls).db.cells = st.db.cells := by
      rw [settled_db]
      cases mode <;> rfl
    rw [hcells] at hcell
    exact .inr (by omega)

theorem perform_load_db :
    (st.perform (.load mode config calls)).db = (st.settled mode config calls).conclude.2 := rfl

theorem settled_read (d : Handle) : (st.settled mode config calls).db.read d = st.db.read d := by
  rw [settled_db]
  cases mode <;> rfl

namespace Consistent

variable (hs : st.Consistent types)

include hs

theorem settled_types : (st.settled mode config calls).db.types = types := by
  rw [settled_db]
  exact (hs.begin config mode).table

/-- A reference that a load has written means the def that is registered under its ID; no def is
registered under the empty ID. -/
theorem writes {target : TypeKey} {h : Handle}
    (hw : (st.settled mode config calls).Writes target h) :
    types.isSubtype h.type target = true ∧
      ((st.settled mode config calls).conclude.2.get? h.id = some h ↔ h.id ≠ "") := by
  have hbegins : (st.settled mode config calls).Begins := hs.begins
  obtain ⟨hsub, hget⟩ := hbegins.writes hw
  rw [hs.settled_types] at hsub
  refine ⟨hsub, fun hfound => ?_, hget⟩
  have hindexed := (hs.perform (.load mode config calls)).indexed
  rw [perform_load_db] at hindexed
  obtain ⟨e, he, rfl⟩ := List.mem_map.mp (hindexed.get?_iff.mp hfound).1
  exact (hindexed.named e he).2

/-- A reference in a def that is registered after a load was written by it or stood there before. -/
theorem mentions (htypes : ∀ S, types.Keeps S)
    (hparsers : ∀ p, .addParser p ∈ calls → ∀ S, p.Keeps S) {d : Handle}
    (hd : d ∈ (st.settled mode config calls).conclude.2.all) {target : TypeKey} {h : Handle}
    (hm : ((st.settled mode config calls).conclude.2.read d).Mentions target h) :
    (st.settled mode config calls).Writes target h ∨
      mode = .reload ∧ d ∈ st.db.all ∧ (st.db.read d).Mentions target h := by
  have hkept := Session.conclude_mentions (by rwa [hs.settled_types])
    (fun p hp => (settled_parsers hp).imp_right (hparsers p)) hm
  rw [settled_read] at hkept
  rcases registered_cases hd with ⟨hmode, hold⟩ | hnew
  · exact hkept.imp_right fun hm => ⟨hmode, hold, hm⟩
  · refine hkept.imp_right fun hm => ?_
    -- a new cell held nothing before
    rw [Database.read, List.getElem?_eq_none hnew] at hm
    cases hm

end Consistent

/-- After a load no reference dangles that the load has written with an ID: it means the very def
that is registered under that ID, whose type is a subtype of the one that the reference was declared
for. A reference with an empty ID is the only one that means no registered def. All other references
in registered defs stood in them before a reload. -/
theorem load_references (htypes : ∀ S, types.Keeps S) (cs : List Command) (mode : LoadMode)
    (config : Config) (calls : List Session.Command)
    (hparsers : ∀ p, .addParser p ∈ calls → ∀ S, p.Keeps S) :
    let st := (start types).run cs
    let s := st.settled mode config calls
    let db := (st.perform (.load mode config calls)).db
    (∀ target h, s.Writes target h →
      types.isSubtype h.type target = true ∧ (db.get? h.id = some h ↔ h.id ≠ "")) ∧
    ∀ d ∈ db.all, ∀ target h, (db.read d).Mentions target h →
      s.Writes target h ∨
        mode = .reload ∧ d ∈ st.db.all ∧ (st.db.read d).Mentions target h := by
  intro st s db
  have hs : st.Consistent types := (Consistent.start types).run cs
  have hdb : db = s.conclude.2 := perform_load_db
  rw [hdb]
  exact ⟨fun target h hw => hs.writes hw, fun d hd target h hm => hs.mentions htypes hparsers hd hm⟩

/-! A carbine and its rounds, one of which has no name. -/

section

open Arsenal (fieldMember plainType)

def slug : TypeKey := .named "Slug"

def rifle : TypeKey := .named "Rifle"

def slugRef : Descriptor := plainType (.ref slug) (.ref slug)

def slugRefs : Descriptor := plainType (.list slugRef.key) (.list slugRef.key)

def roundsMember : Member := fieldMember rifle slugRefs.key "Rounds" (.list slugRef.key [])

def newSlug : Value := .record slug [("id", .string "")]

def newRifle : Value := .record rifle [("id", .string ""), ("Rounds", .list slugRef.key [])]

def slugClass : Descriptor :=
  { plainType slug (.class []) with construct := some (.ok newSlug), defRole := some {} }

def rifleClass : Descriptor :=
  { plainType rifle (.class [roundsMember]) with
    construct := some (.ok newRifle), defRole := some {} }

def armory : TypeTable :=
  ⟨[(slug, slugClass), (slugRef.key, slugRef), (slugRefs.key, slugRefs), (rifle, rifleClass)],
    [⟨"game", [slug, rifle]⟩]⟩

/-- The carbine comes first and refers to both rounds. -/
def armoryDocument : Document :=
  let rounds : Node := ⟨"Rounds", .empty, none,
    [⟨"li", .empty, some "Buck", []⟩, ⟨"li", .empty, some "", []⟩]⟩
  let carbine : Node := ⟨"Carbine", .empty, none, [rounds]⟩
  ⟨[⟨"Defs", .empty, none,
    [carbine.setAttr "Type" "Rifle", (Node.named "Buck").setAttr "Type" "Slug",
      (Node.named "").setAttr "Type" "Slug"]⟩]⟩

def armoryLoad : Command := .load .fresh {} [.addDocument armoryDocument ""]

def carbine : Handle := ⟨"Carbine", rifle, 0⟩

def buck : Handle := ⟨"Buck", slug, 1⟩

def nameless : Handle := ⟨"", slug, 2⟩

theorem armory_keeps (S : Refs) : armory.Keeps S := by
  intro k t h
  have hmem : (k, t) ∈ armory.types := Assoc.mem_of_get? h
  simp only [armory, List.mem_cons, Prod.mk.injEq, List.not_mem_nil, or_false] at hmem
  rcases hmem with ⟨-, rfl⟩ | ⟨-, rfl⟩ | ⟨-, rfl⟩ | ⟨-, rfl⟩
  · refine Descriptor.keeps_of_fields rfl rfl (fun role h => (Option.some.inj h).symm) ?_
      fun m hm => by cases hm
    intro v hv
    cases hv
    exact Value.refersIn_record.mpr (by simp [Value.string, Value.refersIn_scalar])
  · exact Descriptor.keeps_of_fields rfl rfl (fun _ h => by cases h) (fun _ h => by cases h)
      fun _ h => by cases h
  · exact Descriptor.keeps_of_fields rfl rfl (fun _ h => by cases h) (fun _ h => by cases h)
      fun _ h => by cases h
  · refine Descriptor.keeps_of_fields rfl rfl (fun role h => (Option.some.inj h).symm) ?_ ?_
    · intro v hv
      cases hv
      refine Value.refersIn_record.mpr ?_
      simp [Value.string, Value.refersIn_scalar, Value.refersIn_list]
    · intro m hm
      rw [List.mem_singleton.mp hm]
      exact ⟨_, _, _, _, rfl, Value.refersIn_list.mpr (by simp)⟩

/-- What the carbine holds after the load. -/
theorem read_carbine : ((start armory).perform armoryLoad).db.read carbine =
    .record rifle [("id", .string "Carbine"),
      ("Rounds", .list slugRef.key [.ref slug buck, .ref slug nameless])] := rfl

theorem carbine_mentions {h : Handle} (hh : h = buck ∨ h = nameless) :
    (((start armory).perform armoryLoad).db.read carbine).Mentions slug h := by
  have hround : Value.ref slug h ∈ [Value.ref slug buck, .ref slug nameless] := by
    rcases hh with rfl | rfl <;> simp
  rw [read_carbine]
  exact .field (List.mem_cons_of_mem _ List.mem_cons_self) (.item hround .ref)

theorem carbine_references :
    let db := ((start armory).perform armoryLoad).db
    carbine ∈ db.all ∧ (db.read carbine).Mentions slug buck ∧
      armory.isSubtype buck.type slug = true ∧ db.get? buck.id = some buck := by
  intro db
  have hmem : carbine ∈ db.all := List.mem_cons_self
  have hmentions : (db.read carbine).Mentions slug buck := carbine_mentions (.inl rfl)
  obtain ⟨hwritten, hkept⟩ := load_references armory_keeps [] .fresh {}
    [.addDocument armoryDocument ""] (by simp)
  rcases hkept carbine hmem slug buck hmentions with hwrites | ⟨hmode, -⟩
  · obtain ⟨hsub, hget⟩ := hwritten slug buck hwrites
    exact ⟨hmem, hmentions, hsub, hget.mpr (by decide)⟩
  · cases hmode

/-- The reference to the nameless round dangles: nothing is registered under its ID. -/
theorem carbine_dangles :
    let db := ((start armory).perform armoryLoad).db
    (∀ S, armory.Keeps S) ∧ carbine ∈ db.all ∧ (db.read carbine).Mentions slug nameless ∧
      db.get? nameless.id = none :=
  ⟨armory_keeps, List.mem_cons_self, carbine_mentions (.inr rfl), rfl⟩

end

end Store

end DefLoad
