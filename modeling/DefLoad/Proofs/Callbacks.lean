import DefLoad.Proofs.ReloadFrame

/-!
Who is told that a load is over, and how often. A load calls back the defs that it has created and,
if callbacks are run again, those that it has filled again, in three rounds and in the order of their
nodes; a callback that fails holds no other up. So the callbacks that a def has got in a run are as
many as the loads that had a reason to call it back.
-/

namespace DefLoad

namespace Session

/-! The rounds of callbacks. -/

inductive Callback
  | postLoad
  | latePostLoad
  | configErrors
deriving DecidableEq

/-- A callback and the def that gets it. -/
abbrev Notice := Callback × Handle

namespace Callback

/-- The round that a callback belongs to. -/
def round : Callback → Nat
  | postLoad => 0
  | latePostLoad => 1
  | configErrors => 2

end Callback

/-- A callback changes its def also when it fails. -/
def change (callback : String) (run : DefRole → Value → Value × Option String) (h : Handle)
    (db : Database) : Reported Database := do
  let (v, reason) := run (role db h) (db.read h)
  .reportAll (failure h callback reason)
  return db.write h v

def Callback.run (h : Handle) (db : Database) : Callback → Reported Database
  | postLoad => change "post_load" DefRole.postLoad h db
  | latePostLoad => change "late_post_load" DefRole.latePostLoad h db
  | configErrors => do
    .reportAll (configDiagnostics db h)
    return db

/-- Calls back one def after the other, whatever has failed before. -/
def deliver : List Notice → Database → Reported Database
  | [], db => return db
  | (k, h) :: ns, db => do
    let db ← k.run h db
    deliver ns db

/-- The first callback of all defs, then the second one, then the third. -/
def rounds (hs : List Handle) : List Notice :=
  [.postLoad, .latePostLoad, .configErrors].flatMap fun k => hs.map (k, ·)

/-- The defs that get a callback, in their order. -/
def receivers (k : Callback) (ns : List Notice) : List Handle :=
  (ns.filter (·.1 == k)).map Prod.snd

theorem deliver_append (ns ns' : List Notice) (db : Database) :
    deliver (ns ++ ns') db = deliver ns db >>= deliver ns' := by
  induction ns generalizing db with
  | nil => exact (pure_bind db _).symm
  | cons n ns ih =>
    rw [List.cons_append, deliver, deliver, bind_assoc]
    exact congrArg _ (funext fun db => ih db)

theorem deliver_pass {k : Callback} (callback : String)
    (run : DefRole → Value → Value × Option String)
    (hk : ∀ h db, k.run h db = change callback run h db) (hs : List Handle) (db : Database) :
    deliver (hs.map (k, ·)) db = runPass callback run hs db := by
  induction hs generalizing db with
  | nil => rfl
  | cons h hs ih =>
    rw [List.map_cons, deliver, hk, runPass, change]
    simp only [bind_assoc, pure_bind, ih]

theorem deliver_configErrors (hs : List Handle) (db : Database) :
    deliver (hs.map (.configErrors, ·)) db = ⟨db, hs.flatMap (configDiagnostics db)⟩ := by
  induction hs with
  | nil => rfl
  | cons h hs ih =>
    rw [List.map_cons, deliver, Callback.run, bind_assoc, pure_bind, ih]
    rfl

/-- The end of a load is one callback after the other. -/
theorem announce_eq_deliver (hs : List Handle) (db : Database) :
    announce hs db = deliver (rounds hs) db := by
  have hsplit : rounds hs =
      hs.map (.postLoad, ·) ++ (hs.map (.latePostLoad, ·) ++ hs.map (.configErrors, ·)) := by
    simp [rounds]
  rw [hsplit, deliver_append, deliver_pass "post_load" DefRole.postLoad fun _ _ => rfl, announce]
  refine congrArg _ (funext fun db => ?_)
  rw [deliver_append, deliver_pass "late_post_load" DefRole.latePostLoad fun _ _ => rfl]
  refine congrArg _ (funext fun db => ?_)
  rw [deliver_configErrors]
  exact Reported.ext rfl (List.append_nil _)

theorem rounds_pairwise (hs : List Handle) :
    (rounds hs).Pairwise fun n n' => n.1.round ≤ n'.1.round := by
  have hpass (k : Callback) : (hs.map (k, ·)).Pairwise fun n n' => n.1.round ≤ n'.1.round := by
    rw [List.pairwise_map]
    exact List.pairwise_of_forall fun _ _ => Nat.le_refl _
  simp only [rounds, List.pairwise_flatMap, hpass, implies_true, true_and]
  simp [Callback.round]

theorem receivers_rounds (k : Callback) (hs : List Handle) : receivers k (rounds hs) = hs := by
  have hpass (k' : Callback) : receivers k (hs.map (k', ·)) = if k' = k then hs else [] := by
    unfold receivers
    rw [List.filter_map, List.map_map]
    by_cases hk : k' = k
    · rw [if_pos hk, List.filter_eq_self.mpr fun h _ => by simp [hk]]
      exact List.map_id _
    · rw [if_neg hk, List.filter_eq_nil_iff.mpr fun h _ => by simp [hk]]
      rfl
  unfold receivers at hpass ⊢
  simp only [rounds, List.flatMap_cons, List.flatMap_nil, List.append_nil, List.filter_append,
    List.map_append, hpass]
  cases k <;> simp

theorem count_notice (k : Callback) (h : Handle) (ns : List Notice) :
    ns.count (k, h) = (receivers k ns).count h := by
  induction ns with
  | nil => rfl
  | cons n ns ih =>
    obtain ⟨k', h'⟩ := n
    rw [List.count_cons, ih]
    by_cases hk : k' = k
    · simp [hk, receivers, List.count_cons]
    · simp [hk, receivers]

/-- How a load ends: the callbacks of its defs are made one after the other on the registered defs,
round by round, and each round goes to all defs that are called back. -/
structure Announces (s : Session) (ns : List Notice) : Prop where
  db : s.conclude.2 = (deliver ns (registered s)).value
  found : ∃ found, s.conclude.1.diagnostics = found ++ (deliver ns (registered s)).found
  ordered : ns.Pairwise fun n n' => n.1.round ≤ n'.1.round
  received : ∀ k, receivers k ns = called s

theorem announces_rounds (s : Session) : s.Announces (rounds (called s)) := by
  obtain ⟨hdb, hfound⟩ := conclude_called s
  rw [announce_eq_deliver] at hdb hfound
  exact ⟨hdb, hfound, rounds_pairwise _, fun k => receivers_rounds k _⟩

/-! Who is called back. -/

section

variable {s : Session} {h : Handle}

/-- The defs that a load registers. -/
def created (s : Session) : List Handle := s.conclude.2.all.filter fun h => !s.db.all.contains h

/-- The registered defs that a load fills again: a node that becomes a def has their ID. -/
def reused (s : Session) : List Handle :=
  s.db.all.filter fun h => (selected s).any (·.name == h.id)

theorem selected_sublist (s : Session) : (selected s).Sublist s.master.root.children := by
  have hnodes : (selected s).Sublist (s.master.root.children.zipIdx.map Prod.fst) :=
    List.filter_sublist.map Prod.fst
  rwa [List.zipIdx_map_fst] at hnodes

theorem nodup_selected (s : Session) : ((selected s).map (·.name)).Nodup := by
  rw [← chosen_names]
  exact nodup_chosen s

theorem created_eq (hs : s.Begins) : created s = named (pendings s) := by
  have hnew : ∀ h ∈ named (pendings s), h ∉ s.db.all := by
    intro h hh hall
    have hfree := (registrable hs).free h hh
    rw [Database.get?, filled_byId] at hfree
    have hget := hs.indexed.get?_iff.mpr ⟨hall, rfl⟩
    rw [Database.get?, hfree] at hget
    cases hget
  have hall : s.conclude.2.all = s.db.all ++ named (pendings s) := by
    rw [Database.all, (conclude_spec hs).1, List.map_append, List.map_map]
    exact congrArg _ (List.map_id'' (fun _ => rfl) _)
  rw [created, hall, List.filter_append, List.filter_eq_nil_iff.mpr fun h hh => by simp [hh],
    List.filter_eq_self.mpr fun h hh => by simpa using hnew h hh, List.nil_append]

theorem mem_reused (hs : s.Begins) :
    h ∈ reused s ↔ h ∈ ((pendings s).filter (·.reused)).map Pending.handle := by
  rw [mem_reused_iff hs, reused, List.mem_filter, List.any_eq_true]
  simp only [beq_iff_eq]

/-- The called defs stand as their nodes do. -/
theorem called_ids (hs : s.Begins) :
    ((called s).map Handle.id).Sublist ((selected s).map (·.name)) := by
  have hids : (called s).map Handle.id =
      ((pendings s).filter fun p => if p.reused then s.reruns else !p.handle.id.isEmpty).map
        (·.node.name) := by
    rw [called_eq hs, announced, List.map_map]
    refine List.map_congr_left fun p hp => ?_
    obtain ⟨hmem, hp⟩ := List.mem_filter.mp hp
    cases hreused : p.reused with
    | true =>
      have hagain := (mem_reused_iff hs).mp
        (List.mem_map_of_mem (List.mem_filter.mpr ⟨hmem, hreused⟩))
      obtain ⟨e, he, heq⟩ := List.mem_map.mp hagain.1
      exact (mem_pendings hmem).1.id_eq hs (heq ▸ (hs.indexed.named e he).2)
    | false =>
      rw [hreused] at hp
      exact (mem_pendings hmem).1.id_eq hs (by simpa using hp)
  rw [hids, ← chosen_names]
  exact (List.filter_sublist.map _).trans (prepare_names s.db (chosen s))

theorem nodup_called (hs : s.Begins) : (called s).Nodup :=
  ((nodup_selected s).sublist (called_ids hs)).of_map

theorem mem_called (hs : s.Begins) :
    h ∈ called s ↔ h ∈ created s ∨ s.config.rerunCallbacks = true ∧ h ∈ reused s := by
  -- a fresh load runs callbacks again, but fills nothing again
  have hreruns (hr : h ∈ reused s) : s.reruns = s.config.rerunCallbacks := by
    unfold reruns
    cases hmode : s.mode with
    | reload => rfl
    | fresh =>
      rw [reused, Database.all, hs.fresh hmode] at hr
      cases hr
  rw [called_eq hs, created_eq hs, announced, List.mem_map, mem_named]
  constructor
  · rintro ⟨p, hp, rfl⟩
    obtain ⟨hmem, hp⟩ := List.mem_filter.mp hp
    cases hr : p.reused with
    | false =>
      rw [hr] at hp
      exact .inl ⟨by simpa using hp, p, hmem, hr, rfl⟩
    | true =>
      have hagain : p.handle ∈ reused s :=
        (mem_reused hs).mpr (List.mem_map_of_mem (List.mem_filter.mpr ⟨hmem, hr⟩))
      rw [hr] at hp
      exact .inr ⟨(hreruns hagain).symm.trans hp, hagain⟩
  · rintro (⟨hid, p, hp, hr, rfl⟩ | ⟨hrerun, hagain⟩)
    · exact ⟨p, List.mem_filter.mpr ⟨hp, by simpa [hr] using hid⟩, rfl⟩
    · obtain ⟨p, hp, rfl⟩ := List.mem_map.mp ((mem_reused hs).mp hagain)
      obtain ⟨hmem, hr⟩ := List.mem_filter.mp hp
      exact ⟨p, List.mem_filter.mpr ⟨hmem, by rw [hr, if_pos rfl, hreruns hagain, hrerun]⟩, rfl⟩

end

end Session

open Session (Callback Notice deliver rounds receivers registered selected called created reused
  made pendings)

namespace Store

variable {types : TypeTable} {st : Store} {config : Config} {calls : List Session.Command}

/-- The callbacks that a command makes. -/
def notices (st : Store) : Command → List Notice
  | .load mode config calls => rounds (called (st.settled mode config calls))
  | _ => []

/-- All callbacks of a run. -/
def history (st : Store) : List Command → List Notice
  | [] => []
  | c :: cs => st.notices c ++ history (st.perform c) cs

/-- Whether a command ends a load that has created the def, or has filled it again and runs
callbacks again. -/
def concerns (st : Store) (h : Handle) : Command → Bool
  | .load mode config calls =>
    let s := st.settled mode config calls
    (created s).contains h || config.rerunCallbacks && (reused s).contains h
  | _ => false

/-- The number of such loads in a run. -/
def loadsOf (h : Handle) (st : Store) : List Command → Nat
  | [] => 0
  | c :: cs => (st.concerns h c).toNat + loadsOf h (st.perform c) cs

theorem settled_config (mode : LoadMode) :
    (st.settled mode config calls).config = config := by
  rw [settled, (Session.settle_reads _).config, session, Session.run_config]
  rfl

namespace Consistent

variable (hs : st.Consistent types)

include hs

/-- A def gets each callback once from a load that concerns it. -/
theorem count_notices (k : Callback) (h : Handle) (c : Command) :
    (st.notices c).count (k, h) = (st.concerns h c).toNat := by
  cases c with
  | load mode config calls =>
    have hbegins : (st.settled mode config calls).Begins := hs.begins
    have hmem := Session.mem_called (h := h) hbegins
    rw [settled_config] at hmem
    rw [notices, Session.count_notice, Session.receivers_rounds,
      (Session.nodup_called hbegins).count]
    have hconcerns : h ∈ called (st.settled mode config calls) ↔
        st.concerns h (.load mode config calls) = true := by
      rw [hmem, concerns]
      simp
    by_cases hcalled : h ∈ called (st.settled mode config calls)
    · rw [if_pos hcalled, hconcerns.mp hcalled]
      rfl
    · rw [if_neg hcalled, Bool.eq_false_iff.mpr fun ht => hcalled (hconcerns.mpr ht)]
      rfl
  | _ => rfl

/-- Only defs that the program has made are called back. -/
theorem notices_subset (c : Command) : (st.notices c).map Prod.snd ⊆ (st.perform c).handles := by
  cases c with
  | load mode config calls =>
    have hbegins : (st.settled mode config calls).Begins := hs.begins
    intro h hh
    obtain ⟨n, hn, rfl⟩ := List.mem_map.mp hh
    have hcalled : n.2 ∈ called (st.settled mode config calls) := by
      have hreceived : n.2 ∈ receivers n.1 (st.notices (.load mode config calls)) :=
        List.mem_map_of_mem (List.mem_filter.mpr ⟨hn, beq_self_eq_true n.1⟩)
      rwa [notices, Session.receivers_rounds] at hreceived
    rcases (Session.mem_called hbegins).mp hcalled with hnew | ⟨-, hagain⟩
    · rw [Session.created_eq hbegins] at hnew
      exact List.mem_append_right _ (List.mem_of_mem_filter hnew)
    · have hall := (List.mem_filter.mp hagain).1
      refine List.mem_append_left _ (hs.known _ ?_)
      rw [settled_db] at hall
      cases mode with
      | fresh => cases hall
      | reload => exact hall
  | _ => exact List.nil_subset _

end Consistent

/-- No command forgets a handle. -/
theorem handles_subset_perform (st : Store) (c : Command) :
    st.handles ⊆ (st.perform c).handles := by
  cases c with
  | make v => exact List.subset_append_left _ _
  | write n v =>
    simp only [perform]
    split <;> exact List.Subset.refl _
  | register n =>
    simp only [perform]
    split <;> exact List.Subset.refl _
  | load mode config calls => exact List.subset_append_left _ _
  | _ => exact List.Subset.refl _

theorem handles_subset_run (st : Store) (cs : List Command) :
    st.handles ⊆ (st.run cs).handles := by
  induction cs generalizing st with
  | nil => exact List.Subset.refl _
  | cons c cs ih => exact List.Subset.trans (handles_subset_perform st c) (ih (st.perform c))

namespace Consistent

theorem history_subset (hs : st.Consistent types) (cs : List Command) :
    (st.history cs).map Prod.snd ⊆ (st.run cs).handles := by
  induction cs generalizing st with
  | nil => exact List.nil_subset _
  | cons c cs ih =>
    rw [history, List.map_append, List.append_subset]
    exact ⟨List.Subset.trans (hs.notices_subset c) (handles_subset_run _ cs), ih (hs.perform c)⟩

/-- Over a run a def gets each callback as often as a load concerns it. -/
theorem count_history (hs : st.Consistent types) (k : Callback) (h : Handle) (cs : List Command) :
    (st.history cs).count (k, h) = loadsOf h st cs := by
  induction cs generalizing st with
  | nil => rfl
  | cons c cs ih => rw [history, List.count_append, hs.count_notices, ih (hs.perform c), loadsOf]

end Consistent

/-- Every load ends with three rounds of callbacks, each to the same defs and none repeated: those
that it has created and, if callbacks are run again, those that it has filled again, in the order of
their nodes. So over a run a def gets every callback as often as a load has created it or has filled
it again and runs callbacks again. -/
theorem run_callbacks (types : TypeTable) (cs : List Command) :
    let st := (start types).run cs
    let history := (start types).history cs
    (∀ mode config calls,
      let s := st.settled mode config calls
      s.Announces (st.notices (.load mode config calls)) ∧
        (called s).Nodup ∧
        (∀ h, h ∈ called s ↔ h ∈ created s ∨ config.rerunCallbacks = true ∧ h ∈ reused s) ∧
        ((called s).map Handle.id).Sublist ((selected s).map (·.name)) ∧
        (selected s).Sublist s.master.root.children ∧ ((selected s).map (·.name)).Nodup ∧
        s.conclude.1.created = (created s).length ∧ s.conclude.1.reused = (reused s).length) ∧
    (∀ k h, history.count (k, h) = loadsOf h (start types) cs) ∧
    history.map Prod.snd ⊆ st.handles ∧ (st.handles.map Handle.cell).Nodup := by
  intro st history
  have hstart := Consistent.start types
  have hs : st.Consistent types := hstart.run cs
  refine ⟨fun mode config calls => ?_, fun k h => hstart.count_history k h cs,
    hstart.history_subset cs, hs.numbered.nodup⟩
  intro s
  have hbegins : s.Begins := hs.begins
  have hconfig : s.config = config := settled_config mode
  obtain ⟨-, hcreated, hreused, -⟩ := Session.conclude_spec hbegins
  refine ⟨Session.announces_rounds s, Session.nodup_called hbegins, fun h => ?_,
    Session.called_ids hbegins, Session.selected_sublist s, Session.nodup_selected s, ?_, ?_⟩
  · rw [Session.mem_called hbegins, hconfig]
  · rw [hcreated, Session.created_eq hbegins]
  · exact hreused.trans (Session.length_reused hbegins)

/-- A round that is filled again gets its callbacks again, unless the reload does without. -/
example :
    let restocked (rerun : Bool) : Command :=
      .load .reload { rerunCallbacks := rerun } [.addDocument restock ""]
    let history := (start armory).history [armoryLoad, restocked true, restocked false]
    history.count (.postLoad, buck) = 2 ∧ history.count (.postLoad, carbine) = 1 := by
  decide +kernel

end Store

end DefLoad
