import DefLoad.Proofs.SessionRun
import Mathlib.Data.List.Basic

/-!
Sources that come too late. Once a call has closed the stage of sources, every further source is
refused and the session stays as it is. Being late is what is complained about, except for a text
that cannot be read.
-/

namespace DefLoad.Session

/-- A source in one of the forms in which a session takes it. -/
inductive Source
  | document (d : Document) (label : String)
  | text (content label : String)
  | file (disk : Disk) (path : String)
  | folder (disk : Disk) (path : String)

namespace Source

def add (s : Session) : Source → Call Nat
  | document d label => s.addDocument d label
  | text content label => s.addText content label
  | file disk path => addFile disk s path
  | folder disk path => addFolder disk s path

def command : Source → Command
  | document d label => .addDocument d label
  | text content label => .addText content label
  | file disk path => .addFile disk path
  | folder disk path => .addFolder disk path

/-- What a text is complained about before anyone asks whether it comes in time. -/
def fault? : Source → Option LoadError
  | text content label =>
    match Document.parse content with
    | .error e => some (.badDocument label e)
    | .ok _ => none
  | _ => none

/-- What is said to a source that comes too late. -/
def lateness : Source → String
  | document _ _ => "documents must be appended before finish_adding_defs"
  | text _ _ => "documents must be appended before finish_adding_defs"
  | file _ _ => "files must be appended before finish_adding_defs"
  | folder _ _ => "directories must be appended before finish_adding_defs"

theorem not_outOfOrder_of_fault {src : Source} {e : LoadError} (h : src.fault? = some e)
    (reason : String) : e ≠ .outOfOrder reason := by
  cases src with
  | text content label =>
    unfold fault? at h
    cases hparse : Document.parse content with
    | error fault =>
      simp only [hparse, Option.some.injEq] at h
      simp [← h]
    | ok d => simp [hparse] at h
  | _ => cases h

theorem perform_command (s : Session) (src : Source) :
    perform s src.command = (src.add s).2 := by
  cases src <;> rfl

/-- A closed session refuses a source and stays as it is, whatever the source holds. -/
theorem add_of_closed {s : Session} (h : s.closed = true) (src : Source) :
    src.add s = (.error (src.fault?.getD (.outOfOrder src.lateness)), s) := by
  cases src with
  | document d label => exact if_pos h
  | text content label =>
    simp only [add, addText, fault?]
    cases Document.parse content with
    | error e => rfl
    | ok d => exact if_pos h
  | file disk path => exact if_pos h
  | folder disk path => exact if_pos h

end Source

/-! While the stage is open no source is late. -/

/-- The call does not fail for being made too late. -/
def InTime {α : Type} (r : Except LoadError α) : Prop := ∀ reason, r ≠ .error (.outOfOrder reason)

theorem addDocument_inTime {s : Session} (h : s.closed = false) (d : Document) (label : String) :
    InTime (s.addDocument d label).1 := by
  intro reason
  simp [addDocument, h]

theorem addText_inTime {s : Session} (h : s.closed = false) (text label : String) :
    InTime (s.addText text label).1 := by
  unfold addText
  cases Document.parse text with
  | error e => intro reason; simp
  | ok d => exact addDocument_inTime h d label

theorem addFile_inTime {s : Session} (h : s.closed = false) (disk : Disk) (path : String) :
    InTime (addFile disk s path).1 := by
  unfold addFile
  rw [if_neg (by simp [h])]
  cases disk.readText path with
  | none => intro reason; simp
  | some text => exact addText_inTime h text path

/-- Files are added one after the other, and none of them closes the stage. -/
theorem addFiles_inTime {s : Session} (h : s.closed = false) (disk : Disk) (paths : List String) :
    InTime (addFiles disk s paths).1 := by
  induction paths generalizing s with
  | nil => intro reason; simp [addFiles]
  | cons path paths ih =>
    have hfile := addFile_inTime h disk path
    have hopen := (addFile_adds disk s path).closed.trans h
    unfold addFiles
    cases hr : addFile disk s path with
    | mk result t =>
      rw [hr] at hfile hopen
      cases result with
      | error e => intro reason he; exact hfile reason (congrArg _ (Except.error.inj he))
      | ok n => exact ih hopen

theorem addFolder_inTime {s : Session} (h : s.closed = false) (disk : Disk) (path : String) :
    InTime (addFolder disk s path).1 := by
  unfold addFolder
  rw [if_neg (by simp [h])]
  cases disk.sources path with
  | none => intro reason; simp
  | some files =>
    have hfiles := addFiles_inTime h disk files
    dsimp only
    cases hr : addFiles disk s files with
    | mk result t =>
      rw [hr] at hfiles
      cases result with
      | error e => intro reason he; exact hfiles reason (congrArg _ (Except.error.inj he))
      | ok n => intro reason; simp

theorem Source.add_inTime {s : Session} (h : s.closed = false) (src : Source) :
    InTime (src.add s).1 := by
  cases src with
  | document d label => exact addDocument_inTime h d label
  | text content label => exact addText_inTime h content label
  | file disk path => exact addFile_inTime h disk path
  | folder disk path => exact addFolder_inTime h disk path

/-! What closes the stage. -/

def isDocument (text : String) : Bool := (Document.parse text).isOk

/-- A call that closes the stage of sources: a patch document does, if it can be read. -/
def Command.closes : Command → Bool
  | .close => true
  | .patch _ _ => true
  | .patchText text _ => isDocument text
  | .patchFile disk path => (disk.readText path).any isDocument
  | _ => false

theorem patchText_closed (s : Session) (text label : String) :
    (s.patchText text label).2.closed = (s.closed || isDocument text) := by
  unfold patchText isDocument
  cases Document.parse text with
  | error e => exact (Bool.or_false _).symm
  | ok d =>
    have hclosed := (patch_patches s d label).closed.trans (close_closed s)
    exact hclosed.trans (Bool.or_true _).symm

/-- One call closes the stage or leaves it as it is. -/
theorem perform_closed_eq (s : Session) (c : Command) :
    (perform s c).closed = (s.closed || c.closes) := by
  cases c with
  | addDocument d label => exact (addDocument_adds s d label).closed.trans (Bool.or_false _).symm
  | addText text label => exact (addText_adds s text label).closed.trans (Bool.or_false _).symm
  | addFile disk path => exact (addFile_adds disk s path).closed.trans (Bool.or_false _).symm
  | addFolder disk path => exact (addFolder_adds disk s path).closed.trans (Bool.or_false _).symm
  | close => exact (close_closed s).trans (Bool.or_true _).symm
  | patch d label =>
    have hclosed := (patch_patches s d label).closed.trans (close_closed s)
    exact hclosed.trans (Bool.or_true _).symm
  | patchText text label => exact patchText_closed s text label
  | patchFile disk path =>
    simp only [perform, patchFile, Command.closes]
    cases disk.readText path with
    | none => exact (Bool.or_false _).symm
    | some text => exact patchText_closed s text path
  | addParser p => exact (Bool.or_false _).symm

theorem run_closed_eq (s : Session) (cs : List Command) :
    (run s cs).closed = (s.closed || cs.any Command.closes) := by
  induction cs generalizing s with
  | nil => exact (Bool.or_false _).symm
  | cons c cs ih => rw [List.any_cons, ← Bool.or_assoc, ← perform_closed_eq, ← ih]; rfl

/-- After a run that has closed the stage of sources, a source of any form is refused and the whole
session stays as it is. A source that can be read is refused for being late, and only such a one
is, only then. -/
theorem late_source_refused (db : Database) (config : Config) (mode : LoadMode) (cs : List Command)
    (src : Source) :
    let s := run (start db config mode) cs
    s.closed = cs.any Command.closes ∧
    (s.closed = true → perform s src.command = s ∧
      src.add s = (.error (src.fault?.getD (.outOfOrder src.lateness)), s)) ∧
    ∀ reason, (src.add s).1 = .error (.outOfOrder reason) ↔
      s.closed = true ∧ src.fault? = none ∧ reason = src.lateness := by
  intro s
  refine ⟨(run_closed_eq _ cs).trans (Bool.false_or _), fun h => ?_, fun reason => ?_⟩
  · have hadd := src.add_of_closed h
    exact ⟨by rw [Source.perform_command, hadd], hadd⟩
  · cases h : s.closed with
    | false => simpa using src.add_inTime h reason
    | true =>
      rw [src.add_of_closed h]
      cases hfault : src.fault? with
      | none => simp [eq_comm]
      | some e =>
        have hbad : e ≠ .outOfOrder reason := Source.not_outOfOrder_of_fault hfault reason
        simp [hbad]

def emptyFolder : Disk := ⟨fun _ => none, fun _ => false, fun _ => none⟩

/-- A session whose stage of sources a patch document has closed. -/
def patchedSession : Session := run (start (.empty ⟨[], []⟩) {} .fresh) [.patchText "Patches" ""]

theorem patchedSession_closed : patchedSession.closed = true := by
  have hcloses : [Command.patchText "Patches" ""].any Command.closes = true := by cbv
  rw [patchedSession, run_closed_eq, hcloses, Bool.or_true]

/-- The file is not even looked for. -/
theorem lateFile_refused :
    patchedSession.closed = true ∧ addFile emptyFolder patchedSession "late.kdl" =
      (.error (.outOfOrder "files must be appended before finish_adding_defs"), patchedSession) := by
  obtain ⟨-, hrefused, -⟩ := late_source_refused (.empty ⟨[], []⟩) {} .fresh
    [.patchText "Patches" ""] (.file emptyFolder "late.kdl")
  exact ⟨patchedSession_closed, (hrefused patchedSession_closed).2⟩

/-- A text that cannot be read is late as well, but it is its fault that is reported. -/
theorem lateText_unreadable :
    patchedSession.closed = true ∧ patchedSession.addText "Defs \x7b" "late.kdl" =
      (.error (.badDocument "late.kdl" .malformed), patchedSession) := by
  have hparse : Document.parse "Defs \x7b" = .error .malformed := by cbv
  refine ⟨patchedSession_closed, ?_⟩
  simp [addText, hparse]

end DefLoad.Session
