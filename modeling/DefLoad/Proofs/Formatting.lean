import DefLoad.CommandLine
import DefLoad.Proofs.WriteRead
import Mathlib.Data.List.Basic

/-!
What a tree keeps when it is written and read again. Ordinary strings are kept, and so is every tree
that is made of them. A text may also bring strings that cannot be written; a document with such a
string is written as a text that cannot be read.
-/

namespace DefLoad.Kdl

/-- Characters that no document may hold as they are, and the newlines without an escape. -/
def isBarred (c : Char) : Bool :=
  let n := c.toNat
  n ≤ 7 || (0xE ≤ n && n ≤ 0x1F) || n = 0x7F || n = 0x200E || n = 0x200F ||
    (0x202A ≤ n && n ≤ 0x202E) || (0x2066 ≤ n && n ≤ 0x2069) || n = 0xFEFF ||
    n = 0xB || n = 0x85 || n = 0x2028 || n = 0x2029

/-- A string without such characters that does not start like a signed fraction. -/
def isOrdinary (s : String) : Bool :=
  !s.toList.any isBarred && !startsLikeFraction s.toList

/-- Of the characters that may not stand in quotes, those that are not barred have an escape. -/
theorem isSpellable_of_not_barred {c : Char} (h : isBarred c = false) : isSpellable c = true := by
  have hescape (e : Char) (he : (escape? e).isSome = true) (hc : c.toNat = e.toNat) :
      isSpellable c = true := by
    obtain rfl : c = e := Char.toNat_inj.mp hc
    rw [isSpellable, he]
    rfl
  cases hlegal : isForbidden c || isNewline c with
  | false =>
    rw [isSpellable, hlegal]
    exact Bool.or_true _
  | true =>
    simp only [isBarred, Bool.or_eq_false_iff, Bool.and_eq_false_iff, decide_eq_false_iff_not] at h
    simp only [isForbidden, isNewline, Bool.or_eq_true, Bool.and_eq_true, decide_eq_true_eq]
      at hlegal
    have hcode : c.toNat = 8 ∨ c.toNat = 10 ∨ c.toNat = 12 ∨ c.toNat = 13 := by omega
    rcases hcode with hc | hc | hc | hc
    · exact hescape '\x08' rfl hc
    · exact hescape '\n' rfl hc
    · exact hescape '\x0c' rfl hc
    · exact hescape '\r' rfl hc

theorem readsBack_of_ordinary {s : String} (h : isOrdinary s = true) : readsBack s = true := by
  rw [isOrdinary, Bool.and_eq_true, Bool.not_eq_true', Bool.not_eq_true', List.any_eq_false] at h
  obtain ⟨hchars, hfraction⟩ := h
  have hspellable : s.toList.all isSpellable = true := by
    rw [List.all_eq_true]
    intro c hc
    exact isSpellable_of_not_barred (Bool.eq_false_iff.mpr (hchars c hc))
  rw [readsBack, hfraction, hspellable]
  split <;> rfl

end DefLoad.Kdl

namespace DefLoad.Document

/-- Trees of ordinary strings are read as they were written. -/
theorem parse_render (ns : List Node) (h : ∀ s ∈ Node.stringsAll ns, Kdl.isOrdinary s = true) :
    Document.parse (render ⟨ns⟩) = .ok ⟨ns⟩ := by
  have hsound : (Node.stringsAll ns).all Kdl.readsBack = true := by
    rw [List.all_eq_true]
    intro s hs
    exact Kdl.readsBack_of_ordinary (h s hs)
  rw [parse_render_eq]
  exact if_pos hsound

/-- Trees whose strings look like keywords, numbers and marks. -/
def oddNodes : List Node :=
  [⟨"true", (Attributes.empty.set "1.5" "say \"no\"\\\n").set "" "x = \x7b", some "", [
      Node.named "-", ⟨"a b", .empty, some "\t\x08 é", [Node.named "-.x"]⟩]⟩,
    ⟨"", .empty, some "-inf", []⟩]

theorem oddNodes_parse_render :
    (∀ s ∈ Node.stringsAll oddNodes, Kdl.isOrdinary s = true) ∧
      Document.parse (render ⟨oddNodes⟩) = .ok ⟨oddNodes⟩ := by
  have hall : (Node.stringsAll oddNodes).all Kdl.isOrdinary = true := by decide
  have hordinary := List.all_eq_true.mp hall
  exact ⟨hordinary, parse_render oddNodes hordinary⟩

/-! Formatting. -/

/-- Reading a text and writing it anew. -/
def format (text : String) : Except DocumentError String := (Document.parse text).map render

/-- Every string of the document is read back when it is written. -/
def Writable (d : Document) : Prop := ∀ s ∈ Node.stringsAll d.nodes, Kdl.readsBack s = true

/-- A text says what the document says, and formatting leaves it alone. -/
def Restores (text : String) (d : Document) : Prop :=
  Document.parse text = .ok d ∧ format text = .ok text

theorem restores_render {d : Document} (h : Writable d) : Restores d.render d := by
  have hsound : (Node.stringsAll d.nodes).all Kdl.readsBack = true := List.all_eq_true.mpr h
  have hparse : Document.parse d.render = .ok d := by
    rw [parse_render_eq]
    exact if_pos hsound
  refine ⟨hparse, ?_⟩
  rw [format, hparse]
  rfl

theorem malformed_render {d : Document} (h : ¬Writable d) :
    Document.parse d.render = .error .malformed := by
  have hunsound : ¬(Node.stringsAll d.nodes).all Kdl.readsBack = true :=
    fun hall => h (List.all_eq_true.mp hall)
  rw [parse_render_eq]
  exact if_neg hunsound

theorem render_singleton (n : Node) : render ⟨[n]⟩ = n.render := by
  simp [render, Node.render, Kdl.writeNodes]

/-- What the command line prints besides its version is the master tree of its session. -/
theorem run_master {types : TypeTable} {disk : Disk} {args : List String} {text : String}
    {found : Diagnostics} (h : CommandLine.run types disk args = .ok (.master text found)) :
    ∃ r s, CommandLine.parse args = some (.resolve r) ∧ CommandLine.load types disk r = .ok s ∧
      text = s.master.root.render := by
  unfold CommandLine.run at h
  split at h
  case h_1 => cases h
  case h_2 => cases h
  case h_3 r hargs =>
    unfold CommandLine.resolve at h
    cases hload : CommandLine.load types disk r with
    | error e =>
      rw [hload] at h
      cases h
    | ok s =>
      rw [hload] at h
      cases h
      exact ⟨r, s, hargs, hload, rfl⟩

/-- An accepted text is formatted as a text of the same document, and so is a master tree when it is
printed. The strings of a document alone decide whether that is so; where it is not, the new text
cannot be read. -/
theorem format_exact (types : TypeTable) (disk : Disk) (args : List String) (text : String) :
    (∀ d, Document.parse text = .ok d →
      format text = .ok d.render ∧ (Writable d → Restores d.render d) ∧
        (¬Writable d → Document.parse d.render = .error .malformed)) ∧
    (∀ printed found,
      CommandLine.run types disk args = .ok (.master printed found) →
        ∃ r s, CommandLine.parse args = some (.resolve r) ∧
          CommandLine.load types disk r = .ok s ∧
          (Writable ⟨[s.master.root]⟩ → Restores printed ⟨[s.master.root]⟩) ∧
          (¬Writable ⟨[s.master.root]⟩ → Document.parse printed = .error .malformed)) := by
  constructor
  · intro d hparse
    refine ⟨?_, restores_render, malformed_render⟩
    rw [format, hparse]
    rfl
  · intro printed found hrun
    obtain ⟨r, s, hargs, hload, htext⟩ := run_master hrun
    have hrender : printed = render ⟨[s.master.root]⟩ := htext.trans (render_singleton _).symm
    rw [hrender]
    exact ⟨r, s, hargs, hload, restores_render, malformed_render⟩

/-- A quoted name, a raw string, and blanks that formatting changes. -/
def rackText : String := "Rack \x7b \"-1\" #\"\\\"# \x7d"

def rack : Document := ⟨[⟨"Rack", .empty, none, [⟨"-1", .empty, some "\\", []⟩]⟩]⟩

def rackDisk : Disk where
  readText path := if path = "rack.kdl" then some rackText else none
  isFolder _ := false
  sources _ := none

def rackMaster : Node :=
  ⟨"Defs", .empty, none, [⟨"-1", Attributes.empty.set "Source" "rack.kdl", some "\\", []⟩]⟩

/-- The session of the command line after its only source. -/
def rackSession : Session :=
  ((Session.start (Database.empty ⟨[], []⟩) {} .fresh).addDocument rack "rack.kdl").2

theorem rackText_formatted :
    Restores rack.render rack ∧
      ∃ r s, CommandLine.load ⟨[], []⟩ rackDisk r = .ok s ∧ s.master.root = rackMaster ∧
        Restores rackMaster.render ⟨[rackMaster]⟩ := by
  have hparse : Document.parse rackText = .ok rack := by cbv
  have hargs : CommandLine.parse ["resolve", "rack.kdl"] =
      some (.resolve { paths := ["rack.kdl"] }) := rfl
  have hread : rackDisk.readText "rack.kdl" = some rackText := rfl
  have hroot : rackSession.close.master.root = rackMaster := by
    show (Master.resolve ⟨rackMaster, "li", false⟩).root = rackMaster
    cbv
  have hfound : rackSession.close.diagnostics = [] := by
    show [] ++ (Master.resolveDiagnostics ⟨rackMaster, "li", false⟩) = []
    cbv
  have hfile : rackDisk.isFolder "rack.kdl" = false := rfl
  have hload : CommandLine.load ⟨[], []⟩ rackDisk { paths := ["rack.kdl"] } =
      .ok rackSession.close := by
    simp [CommandLine.load, CommandLine.readConfig, CommandLine.runCalls, CommandLine.appendPath,
      Session.addFile, hread, Session.addText, hparse, hfile]
    rfl
  have hrun : CommandLine.run ⟨[], []⟩ rackDisk ["resolve", "rack.kdl"] =
      .ok (.master rackMaster.render []) := by
    rw [CommandLine.run, hargs]
    simp [CommandLine.resolve, hload, Except.map, hroot, hfound]
  have hsound : (Node.stringsAll rack.nodes).all Kdl.readsBack = true := by decide
  have hwritable : Writable rack := List.all_eq_true.mp hsound
  have hsoundMaster : (Node.stringsAll [rackMaster]).all Kdl.readsBack = true := by decide
  have hmaster : Writable ⟨[rackMaster]⟩ := List.all_eq_true.mp hsoundMaster
  obtain ⟨hformat, hprint⟩ := format_exact ⟨[], []⟩ rackDisk ["resolve", "rack.kdl"] rackText
  refine ⟨(hformat rack hparse).2.1 hwritable, ?_⟩
  obtain ⟨r, s, hargs', hload', hrestores, -⟩ := hprint _ _ hrun
  obtain rfl : { paths := ["rack.kdl"] } = r := by simpa [hargs] using hargs'
  obtain rfl : rackSession.close = s := by simpa [hload] using hload'
  rw [hroot] at hrestores
  exact ⟨_, _, hload, hroot, hrestores hmaster⟩

/-- A name in quotes may start like a signed fraction; written without them it cannot be read. -/
theorem quotedFraction_unreadable :
    ∃ d, Document.parse "\"-.5\"" = .ok d ∧ format "\"-.5\"" = .ok "-.5\n" ∧
      d.render = "-.5\n" ∧ Document.parse d.render = .error .malformed := by
  have hparse : Document.parse "\"-.5\"" = .ok ⟨[Node.named "-.5"]⟩ := by cbv
  have hrender : render ⟨[Node.named "-.5"]⟩ = "-.5\n" := by cbv
  refine ⟨⟨[Node.named "-.5"]⟩, hparse, ?_, hrender, by rw [hrender]; cbv⟩
  rw [format, hparse, ← hrender]
  rfl

end DefLoad.Document
