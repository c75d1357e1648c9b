import DefLoad.Session.Finish

/-!
Whole runs of a session. Whatever calls are made in whatever order, the tree of which `finish` makes
defs holds the documents that were taken, resolved once, under the patches that were built.
-/

namespace DefLoad.Session

/-- A call on a session before the last one. A call that reads files says what is on the disk. -/
inductive Command
  | addDocument (d : Document) (source : String)
  | addText (text source : String)
  | addFile (disk : Disk) (path : String)
  | addFolder (disk : Disk) (path : String)
  | close
  | patch (d : Document) (source : String)
  | patchText (text source : String)
  | patchFile (disk : Disk) (path : String)
  | addParser (p : Parser)

def perform (s : Session) : Command → Session
  | .addDocument d source => (s.addDocument d source).2
  | .addText text source => (s.addText text source).2
  | .addFile disk path => (addFile disk s path).2
  | .addFolder disk path => (addFolder disk s path).2
  | .close => s.close
  | .patch d source => (s.patch d source).2
  | .patchText text source => (s.patchText text source).2
  | .patchFile disk path => (patchFile disk s path).2
  | .addParser p => s.addParser p

def Command.isClose : Command → Bool
  | .close => true
  | _ => false

def run (s : Session) (cs : List Command) : Session := cs.foldl perform s

/-- What the calls of a run have given, one after the other. -/
def trace {α : Type} (f : Session → Command → List α) : Session → List Command → List α
  | _, [] => []
  | s, c :: cs => f s c ++ trace f (perform s c) cs

/-! The documents that a call adds: those of the appends in it that succeed. -/

def parsed (text source : String) : List (Document × String) :=
  match Document.parse text with
  | .error _ => []
  | .ok d => [(d, source)]

def parsedFile (disk : Disk) (path : String) : List (Document × String) :=
  (disk.readText path).toList.flatMap (parsed · path)

def addedFile (disk : Disk) (s : Session) (path : String) : List (Document × String) :=
  if (addFile disk s path).1.isOk then parsedFile disk path else []

def addedFiles (disk : Disk) (s : Session) : List String → List (Document × String)
  | [] => []
  | path :: paths =>
    addedFile disk s path ++
      if (addFile disk s path).1.isOk then addedFiles disk (addFile disk s path).2 paths else []

def addedFolder (disk : Disk) (s : Session) (path : String) : List (Document × String) :=
  match disk.sources path with
  | none => []
  | some files => addedFiles disk s files

def added (s : Session) : Command → List (Document × String)
  | .addDocument d source => if (s.addDocument d source).1.isOk then [(d, source)] else []
  | .addText text source => if (s.addText text source).1.isOk then parsed text source else []
  | .addFile disk path => addedFile disk s path
  | .addFolder disk path => addedFolder disk s path
  | _ => []

/-! The patches that a call builds. -/

def builtFrom (s : Session) (d : Document × String) : List BuiltPatch :=
  match d.1.root? with
  | none => []
  | some root =>
    (buildPatches (s.setting s.db.get?) (patchNodes s.db.types d.2 0 root.children).value).value

def built (s : Session) : Command → List BuiltPatch
  | .patch d source => builtFrom s (d, source)
  | .patchText text source => (parsed text source).flatMap (builtFrom s)
  | .patchFile disk path => (parsedFile disk path).flatMap (builtFrom s)
  | _ => []

/-- The tree after a patch; one that cannot be executed changes nothing. -/
def BuiltPatch.apply (p : BuiltPatch) (root : Node) : Node :=
  match p.role? with
  | none => root
  | some execute => (execute root).2

def executed (ps : List BuiltPatch) (root : Node) : Node :=
  ps.foldl (fun root p => p.apply root) root

/-- All documents under one root, with their stamps. -/
def gathered (item : String) (docs : List (Document × String)) : Master where
  root :=
    { Node.named Master.rootName with
      children := docs.flatMap fun d => Master.contribution d.1 d.2 }
  item := item
  resolved := false

/-- The documents resolved, and then patched. -/
def settled (item : String) (docs : List (Document × String)) (ps : List BuiltPatch) : Master :=
  let m := (gathered item docs).resolve
  { m with root := executed ps m.root }

theorem executePatches_tree (ps : List BuiltPatch) (n : Nat) (root : Node) :
    (executePatches ps n root).value.2 = executed ps root := by
  induction ps generalizing n root with
  | nil => rfl
  | cons p ps ih =>
    have happly : executed (p :: ps) root = executed ps (p.apply root) := rfl
    rw [happly, BuiltPatch.apply, executePatches]
    cases p.role? with
    | none => simp [ih]
    | some execute =>
      dsimp only
      split
      · exact ih _ _
      · simp [ih]

theorem executed_append (ps qs : List BuiltPatch) (root : Node) :
    executed (ps ++ qs) root = executed qs (executed ps root) := List.foldl_append

/-- Adding documents one by one. -/
def addAll (m : Master) (docs : List (Document × String)) : Master :=
  docs.foldl (fun m d => m.add d.1 d.2) m

theorem addAll_append (m : Master) (docs more : List (Document × String)) :
    addAll m (docs ++ more) = addAll (addAll m docs) more := List.foldl_append

theorem gathered_append (item : String) (docs more : List (Document × String)) :
    gathered item (docs ++ more) = addAll (gathered item docs) more := by
  induction more generalizing docs with
  | nil => simp [addAll]
  | cons d more ih =>
    have hadd : (gathered item docs).add d.1 d.2 = gathered item (docs ++ [d]) := by
      simp [gathered, Master.add]
    calc gathered item (docs ++ d :: more)
      _ = gathered item ((docs ++ [d]) ++ more) := by simp
      _ = addAll (gathered item (docs ++ [d])) more := ih _
      _ = addAll (gathered item docs) (d :: more) := by rw [← hadd]; rfl

/-! Sessions that read alike build the same patches. -/

/-- Two sessions differ at most in the tree, the stage and what was found. -/
structure ReadsAs (s t : Session) : Prop where
  db : t.db = s.db
  config : t.config = s.config
  parsers : t.parsers = s.parsers
  mode : t.mode = s.mode

namespace ReadsAs

variable {s t u : Session}

theorem refl (s : Session) : ReadsAs s s := ⟨rfl, rfl, rfl, rfl⟩

theorem symm (h : ReadsAs s t) : ReadsAs t s :=
  ⟨h.db.symm, h.config.symm, h.parsers.symm, h.mode.symm⟩

theorem trans (h : ReadsAs s t) (h' : ReadsAs t u) : ReadsAs s u :=
  ⟨h'.db.trans h.db, h'.config.trans h.config, h'.parsers.trans h.parsers,
    h'.mode.trans h.mode⟩

theorem close (s : Session) : ReadsAs s s.close := by
  unfold Session.close
  split
  · exact .refl s
  · exact ⟨rfl, rfl, rfl, rfl⟩

theorem builtFrom_eq (h : ReadsAs s t) (d : Document × String) :
    builtFrom t d = builtFrom s d := by
  simp only [builtFrom, setting, h.db, h.config, h.parsers]

theorem built_eq (h : ReadsAs s t) (c : Command) : built t c = built s c := by
  have hb : builtFrom t = builtFrom s := funext h.builtFrom_eq
  cases c <;> simp only [built, hb]

end ReadsAs

/-! What one call does. -/

/-- The second session is the first one with documents added, none if it was closed. -/
structure Adds (docs : List (Document × String)) (s t : Session) : Prop where
  closed : t.closed = s.closed
  none_of_closed : s.closed = true → docs = []
  master : t.master = addAll s.master docs
  reads : ReadsAs s t

namespace Adds

variable {s t u : Session} {docs more : List (Document × String)}

theorem refl (s : Session) : Adds [] s s := ⟨rfl, fun _ => rfl, rfl, .refl s⟩

theorem trans (h : Adds docs s t) (h' : Adds more t u) : Adds (docs ++ more) s u where
  closed := h'.closed.trans h.closed
  none_of_closed hs := by
    rw [h.none_of_closed hs, h'.none_of_closed (h.closed.trans hs)]
    rfl
  master := by rw [h'.master, h.master, addAll_append]
  reads := h.reads.trans h'.reads

end Adds

theorem addDocument_adds (s : Session) (d : Document) (source : String) :
    Adds (if (s.addDocument d source).1.isOk then [(d, source)] else []) s
      (s.addDocument d source).2 := by
  unfold addDocument
  cases hc : s.closed with
  | true => exact .refl s
  | false => exact ⟨hc.symm, fun h => by simp [hc] at h, rfl, rfl, rfl, rfl, rfl⟩

theorem addText_adds (s : Session) (text source : String) :
    Adds (if (s.addText text source).1.isOk then parsed text source else []) s
      (s.addText text source).2 := by
  unfold addText parsed
  cases Document.parse text with
  | error e => exact .refl s
  | ok d => exact addDocument_adds s d source

theorem addFile_adds (disk : Disk) (s : Session) (path : String) :
    Adds (addedFile disk s path) s (addFile disk s path).2 := by
  unfold addedFile addFile parsedFile
  cases hc : s.closed with
  | true => exact .refl s
  | false =>
    cases disk.readText path with
    | none => exact .refl s
    | some text => simpa using addText_adds s text path

theorem addFiles_adds (disk : Disk) (s : Session) (paths : List String) :
    Adds (addedFiles disk s paths) s (addFiles disk s paths).2 := by
  induction paths generalizing s with
  | nil => exact .refl s
  | cons path paths ih =>
    have hfile := addFile_adds disk s path
    unfold addedFiles addFiles
    cases hr : addFile disk s path with
    | mk result t =>
      rw [hr] at hfile
      cases result with
      | error e => simpa [Except.isOk, Except.toBool] using hfile
      | ok n => exact hfile.trans (ih t)

theorem addFolder_adds (disk : Disk) (s : Session) (path : String) :
    Adds (addedFolder disk s path) s (addFolder disk s path).2 := by
  unfold addedFolder addFolder
  cases disk.sources path with
  | none => cases s.closed <;> exact .refl s
  | some files =>
    have hfiles := addFiles_adds disk s files
    dsimp only
    cases hc : s.closed with
    | true =>
      rw [hfiles.none_of_closed hc]
      exact .refl s
    | false =>
      cases hr : addFiles disk s files with
      | mk result t =>
        rw [hr] at hfiles
        cases result <;> exact hfiles

/-- The second session is the first one with patches executed. -/
structure Patches (ps : List BuiltPatch) (s t : Session) : Prop where
  closed : t.closed = s.closed
  root : t.master.root = executed ps s.master.root
  item : t.master.item = s.master.item
  resolved : t.master.resolved = s.master.resolved
  reads : ReadsAs s t

theorem patch_patches (s : Session) (d : Document) (source : String) :
    Patches (builtFrom s (d, source)) s.close (s.patch d source).2 := by
  rw [← (ReadsAs.close s).builtFrom_eq]
  unfold patch builtFrom
  cases d.root? with
  | none => exact ⟨rfl, rfl, rfl, rfl, rfl, rfl, rfl, rfl⟩
  | some root => exact ⟨rfl, executePatches_tree _ 0 _, rfl, rfl, rfl, rfl, rfl, rfl⟩

/-- A call adds documents and builds no patch, or it builds patches for the closed session and adds
no document, or it adds a parser. A call that fails adds none. -/
theorem perform_cases (s : Session) (c : Command) :
    (built s c = [] ∧ Adds (added s c) s (perform s c)) ∨
    (added s c = [] ∧ Patches (built s c) s.close (perform s c)) ∨
    ∃ p, c = .addParser p := by
  have htext (text source : String) :
      ((parsed text source).flatMap (builtFrom s) = [] ∧ Adds [] s (s.patchText text source).2) ∨
      Patches ((parsed text source).flatMap (builtFrom s)) s.close
        (s.patchText text source).2 := by
    unfold parsed patchText
    cases Document.parse text with
    -- a text that cannot be read does not even close the stage of sources
    | error e => exact .inl ⟨rfl, .refl s⟩
    | ok d => exact .inr (by simpa using patch_patches s d source)
  cases c with
  | addDocument d source => exact .inl ⟨rfl, addDocument_adds s d source⟩
  | addText text source => exact .inl ⟨rfl, addText_adds s text source⟩
  | addFile disk path => exact .inl ⟨rfl, addFile_adds disk s path⟩
  | addFolder disk path => exact .inl ⟨rfl, addFolder_adds disk s path⟩
  | close => exact .inr (.inl ⟨rfl, rfl, rfl, rfl, rfl, .refl _⟩)
  | patch d source => exact .inr (.inl ⟨rfl, patch_patches s d source⟩)
  | patchText text source =>
    rcases htext text source with h | h
    · exact .inl h
    · exact .inr (.inl ⟨rfl, h⟩)
  | patchFile disk path =>
    simp only [added, built, perform, parsedFile, patchFile]
    cases disk.readText path with
    | none => exact .inl ⟨rfl, .refl s⟩
    | some text =>
      simp only [Option.toList_some, List.flatMap_cons, List.flatMap_nil, List.append_nil]
      rcases htext text path with h | h
      · exact .inl h
      · exact .inr (.inl ⟨trivial, h⟩)
  | addParser p => exact .inr (.inr ⟨p, rfl⟩)

theorem perform_closed {s : Session} (h : s.closed = true) (c : Command) :
    (perform s c).closed = true := by
  rcases perform_cases s c with ⟨-, ha⟩ | ⟨-, hp⟩ | ⟨p, rfl⟩
  · exact ha.closed.trans h
  · exact hp.closed.trans (close_closed s)
  · exact h

theorem added_of_closed {s : Session} (h : s.closed = true) (c : Command) : added s c = [] := by
  rcases perform_cases s c with ⟨-, ha⟩ | ⟨ha, -⟩ | ⟨p, rfl⟩
  · exact ha.none_of_closed h
  · exact ha
  · rfl

theorem ReadsAs.perform {s t : Session} (h : ReadsAs s t) (c : Command) :
    ReadsAs (perform s c) (perform t c) := by
  by_cases hp : ∃ p, c = .addParser p
  · obtain ⟨p, rfl⟩ := hp
    exact ⟨h.db, h.config, by simp only [Session.perform, addParser, h.parsers], h.mode⟩
  · have hreads (u : Session) : ReadsAs u (Session.perform u c) := by
      rcases perform_cases u c with ⟨-, ha⟩ | ⟨-, hp⟩ | hc
      · exact ha.reads
      · exact (ReadsAs.close u).trans hp.reads
      · exact (hp hc).elim
    exact (hreads s).symm.trans (h.trans (hreads t))

theorem ReadsAs.trace_built {s t : Session} (h : ReadsAs s t) (cs : List Command) :
    trace built t cs = trace built s cs := by
  induction cs generalizing s t with
  | nil => rfl
  | cons c cs ih => rw [trace, trace, h.built_eq, ih (h.perform c)]

/-- Closing the stage of sources builds nothing and changes nothing that is built after it. -/
theorem trace_built_filter (s : Session) (cs : List Command) :
    trace built s (cs.filter (!·.isClose)) = trace built s cs := by
  induction cs generalizing s with
  | nil => rfl
  | cons c cs ih =>
    cases hc : c.isClose with
    | false => simp only [List.filter_cons, hc, Bool.not_false, if_true, trace, ih]
    | true =>
      have hclose : c = .close := by cases c <;> simp_all [Command.isClose]
      subst hclose
      rw [List.filter_cons_of_neg (by decide), ih]
      exact ((ReadsAs.close s).trace_built cs).symm

theorem trace_append {α : Type} (f : Session → Command → List α) (s : Session)
    (cs cs' : List Command) : trace f s (cs ++ cs') = trace f s cs ++ trace f (run s cs) cs' := by
  induction cs generalizing s with
  | nil => rfl
  | cons c cs ih =>
    simp only [List.cons_append, trace, ih, List.append_assoc]
    rfl

theorem trace_added_of_closed {s : Session} (h : s.closed = true) (cs : List Command) :
    trace added s cs = [] := by
  induction cs generalizing s with
  | nil => rfl
  | cons c cs ih => rw [trace, added_of_closed h, ih (perform_closed h c), List.append_nil]

/-! The invariant of a run, and what it says at the end. -/

/-- A session holds its documents until it is closed, and from then on the resolved and patched
tree. -/
structure Holds (item : String) (docs : List (Document × String)) (ps : List BuiltPatch)
    (s : Session) : Prop where
  stage : s.closed = s.master.resolved
  taking : s.closed = false → ps = [] ∧ s.master = gathered item docs
  closed : s.closed = true → s.master = settled item docs ps

namespace Holds

variable {item : String} {docs more : List (Document × String)} {ps : List BuiltPatch}
  {s t : Session}

theorem start (db : Database) (config : Config) (mode : LoadMode) :
    Holds config.listItem [] [] (start db config mode) :=
  ⟨rfl, fun _ => ⟨rfl, rfl⟩, fun h => by simp [Session.start] at h⟩

theorem adds (h : Holds item docs ps s) (ha : Adds more s t) : Holds item (docs ++ more) ps t := by
  cases hc : s.closed with
  | true =>
    have hmore := ha.none_of_closed hc
    subst hmore
    have hm : t.master = s.master := ha.master
    refine ⟨?_, fun ht => ?_, fun _ => ?_⟩
    · rw [ha.closed, hm, h.stage]
    · simp [ha.closed, hc] at ht
    · rw [hm, List.append_nil, h.closed hc]
  | false =>
    obtain ⟨hps, hm⟩ := h.taking hc
    have ht : t.master = gathered item (docs ++ more) := by
      rw [ha.master, hm, gathered_append]
    refine ⟨?_, fun _ => ⟨hps, ht⟩, fun hct => ?_⟩
    · rw [ha.closed, hc, ht]
      rfl
    · simp [ha.closed, hc] at hct

theorem close (h : Holds item docs ps s) : Holds item docs ps s.close := by
  cases hc : s.closed with
  | true =>
    rw [Session.close, if_pos hc]
    exact h
  | false =>
    obtain ⟨hps, hm⟩ := h.taking hc
    have hclosed := close_closed s
    have hmaster : s.close.master = settled item docs ps := by
      rw [Session.close, if_neg (by simp [hc]), hps]
      show s.master.resolve = _
      rw [hm]
      rfl
    refine ⟨?_, fun ht => ?_, fun _ => hmaster⟩
    · rw [hclosed, hmaster]
      rfl
    · simp [hclosed] at ht

theorem patches (h : Holds item docs ps s) (hc : s.closed = true) {qs : List BuiltPatch}
    (hp : Patches qs s t) : Holds item docs (ps ++ qs) t := by
  have hm := h.closed hc
  have ht : t.closed = true := hp.closed.trans hc
  refine ⟨?_, fun hf => ?_, fun _ => ?_⟩
  · rw [hp.closed, hp.resolved, h.stage]
  · simp [ht] at hf
  · -- a tree is compared part by part
    have hroot := hp.root
    have hitem := hp.item
    have hres := hp.resolved
    rw [hm] at hroot hitem hres
    cases htm : t.master with
    | mk root item resolved =>
      rw [htm] at hroot hitem hres
      simp only at hroot hitem hres
      rw [hroot, hitem, hres]
      simp [settled, executed_append]

theorem perform (h : Holds item docs ps s) (c : Command) :
    Holds item (docs ++ added s c) (ps ++ built s c) (s.perform c) := by
  rcases perform_cases s c with ⟨hb, ha⟩ | ⟨ha, hp⟩ | ⟨p, rfl⟩
  · rw [hb, List.append_nil]
    exact h.adds ha
  · rw [ha, List.append_nil]
    exact h.close.patches (close_closed s) hp
  · simp only [added, built, List.append_nil]
    exact ⟨h.stage, h.taking, h.closed⟩

theorem run (h : Holds item docs ps s) (cs : List Command) :
    Holds item (docs ++ trace added s cs) (ps ++ trace built s cs) (s.run cs) := by
  induction cs generalizing s docs ps with
  | nil =>
    simp only [trace, List.append_nil]
    exact h
  | cons c cs ih =>
    have hrest := ih (h.perform c)
    rw [List.append_assoc, List.append_assoc] at hrest
    exact hrest

theorem settle (h : Holds item docs ps s) : s.settle.master = settled item docs ps := by
  unfold Session.settle
  rw [← h.stage]
  cases hc : s.closed with
  | true => exact h.closed hc
  | false =>
    obtain ⟨rfl, hm⟩ := h.taking hc
    show s.master.resolve = _
    rw [hm]
    rfl

end Holds


/-- A load ends with the documents that were taken, resolved once, and then the patches that were
built, in the order of the calls. Sources are taken and patches wait just as long as the tree is
unresolved. Where, how often and whether the stage of sources is closed does not matter, as long as
the same documents are taken; they are the same when no source comes after. -/
theorem finish_run (db : Database) (config : Config) (mode : LoadMode) (cs : List Command) :
    let s := run (start db config mode) cs
    let docs := trace added (start db config mode) cs
    let ps := trace built (start db config mode) cs
    s.settle.master = settled config.listItem docs ps ∧
    s.finish = conclude
      { s with master := settled config.listItem docs ps, diagnostics := s.settle.diagnostics } ∧
    s.closed = s.master.resolved ∧
    (s.closed = false → ps = [] ∧ s.master = gathered config.listItem docs) ∧
    (s.closed = true → s.master = settled config.listItem docs ps ∧
      ∀ more, trace added s more = []) ∧
    (∀ cs', cs'.filter (!·.isClose) = cs.filter (!·.isClose) →
      trace added (start db config mode) cs' = docs →
      (run (start db config mode) cs').settle.master = s.settle.master) ∧
    ∀ before after, cs = before ++ after →
      trace added (run (start db config mode) before) after = [] →
      trace added (start db config mode) (before ++ .close :: after) = docs := by
  have hrun (cs : List Command) := (Holds.start db config mode).run cs
  have hsettle (cs : List Command) :
      (run (start db config mode) cs).settle.master =
        settled config.listItem (trace added (start db config mode) cs)
          (trace built (start db config mode) cs) := (hrun cs).settle
  refine ⟨hsettle cs, ?_, (hrun cs).stage, (hrun cs).taking, ?_, ?_, ?_⟩
  · rw [← hsettle cs]
    show conclude (settle _) = _
    congr 1
    generalize run (start db config mode) cs = s
    unfold settle
    split <;> rfl
  · intro hc
    exact ⟨(hrun cs).closed hc, trace_added_of_closed hc⟩
  · intro cs' hcs hdocs
    rw [hsettle, hsettle, hdocs, ← trace_built_filter, hcs, trace_built_filter]
  · rintro before after rfl hnone
    have hclosed := trace_added_of_closed (close_closed (run (start db config mode) before)) after
    rw [trace_append, trace_append, hnone]
    show _ ++ ([] ++ trace added (run (start db config mode) before).close after) = _
    rw [hclosed]
    rfl

end DefLoad.Session
