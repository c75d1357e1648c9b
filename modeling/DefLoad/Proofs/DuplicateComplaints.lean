import DefLoad.Proofs.Claimants
import DefLoad.Proofs.Filling

/-!
Complaints about duplicate IDs, told apart from all others by their words. Only the selection of
defs makes them.
-/

namespace DefLoad

/-- An error in the words of a duplicate ID. They stand at both ends, as other messages may begin
with the name of any type. -/
def Diagnostic.isDuplicate (d : Diagnostic) : Bool :=
  d.isError && d.stage = .resolution && "duplicate def ID '".toList.isPrefixOf d.message.toList &&
    " skipped".toList.isSuffixOf d.message.toList

/-- No complaint about a duplicate ID is among what is found. -/
def Reported.Quiet {α : Type} (x : Reported α) : Prop := ∀ d ∈ x.found, d.isDuplicate = false

section

variable {α β : Type} {d : Diagnostic}

theorem isDuplicate_of_stage (h : d.stage ≠ .resolution) : d.isDuplicate = false := by
  simp [Diagnostic.isDuplicate, h]

/-- A message that begins in other words. -/
theorem isDuplicate_of_beginning {words : String} (hbegins : Reading.BeginsWith d.message words)
    (h : ¬("duplicate def ID '".toList <+: words.toList ∨
      words.toList <+: "duplicate def ID '".toList)) : d.isDuplicate = false := by
  cases hd : d.isDuplicate with
  | false => rfl
  | true =>
    simp only [Diagnostic.isDuplicate, Bool.and_eq_true, List.isPrefixOf_iff_prefix] at hd
    obtain ⟨rest, hrest⟩ := hbegins
    have hwords : words.toList <+: d.message.toList := by
      rw [hrest, String.toList_append]
      exact List.prefix_append _ _
    exact (h (List.prefix_or_prefix_of_prefix hd.1.2 hwords)).elim

/-- A message that ends in other words. -/
theorem isDuplicate_of_ending {message : String} (words : String)
    (hends : d.message = message ++ words)
    (h : ¬(" skipped".toList <:+ words.toList ∨ words.toList <:+ " skipped".toList)) :
    d.isDuplicate = false := by
  cases hd : d.isDuplicate with
  | false => rfl
  | true =>
    simp only [Diagnostic.isDuplicate, Bool.and_eq_true, List.isSuffixOf_iff_suffix] at hd
    have hwords : words.toList <:+ d.message.toList := by
      rw [hends, String.toList_append]
      exact List.suffix_append _ _
    exact (h (List.suffix_or_suffix_of_suffix hd.2 hwords)).elim

theorem isDuplicate_duplicate (n : Node) : (Session.duplicate n).isDuplicate = true := by
  obtain ⟨before, hbefore⟩ : Reading.BeginsWith (Session.duplicate n).message
      "duplicate def ID '" := (((Reading.beginsWith_append _ _).append _).append _).append _
  obtain ⟨after, hafter⟩ : ∃ after, (Session.duplicate n).message = after ++ " skipped" := ⟨_, rfl⟩
  have hprefix : "duplicate def ID '".toList <+: (Session.duplicate n).message.toList := by
    rw [hbefore, String.toList_append]
    exact List.prefix_append _ _
  have hsuffix : " skipped".toList <:+ (Session.duplicate n).message.toList := by
    rw [hafter, String.toList_append]
    exact List.suffix_append _ _
  rw [Diagnostic.isDuplicate, List.isPrefixOf_iff_prefix.mpr hprefix,
    List.isSuffixOf_iff_suffix.mpr hsuffix]
  rfl

namespace Reported

theorem quiet_pure (a : α) : (pure a : Reported α).Quiet := nofun

theorem Quiet.bind {x : Reported α} {f : α → Reported β} (hx : x.Quiet) (hf : ∀ a, (f a).Quiet) :
    (x >>= f).Quiet := by
  intro d hd
  rcases List.mem_append.mp hd with hd | hd
  · exact hx d hd
  · exact hf x.value d hd

theorem quiet_report (h : d.isDuplicate = false) : (report d).Quiet := by
  intro e he
  rw [List.mem_singleton.mp he]
  exact h

end Reported

end

open Reported (quiet_pure quiet_report)

namespace Reading

variable {s : Setting} {n c : Node} {f : Focus} {current : Option Value}

theorem problem_quiet {stage : Stage} (trail : List String) (message : String)
    (h : stage ≠ .resolution) : (problem stage trail message).Quiet :=
  quiet_report (isDuplicate_of_stage h)

/-- The words with which complaints about types begin. -/
def typeWords : List String :=
  ["cannot resolve ", "cannot resolve type '", "type '", "type of member '", "element type of ",
    "key or value type of ", "inner type of ", "ElementType", "KeyType"]

theorem quiet_of_words {stage : Stage} {path message : String} (words : String)
    (hwords : words ∈ typeWords) (hbegins : BeginsWith message words) :
    (Diagnostic.error stage path message).isDuplicate = false := by
  have hapart : ∀ a ∈ typeWords, ¬("duplicate def ID '".toList <+: a.toList ∨
      a.toList <+: "duplicate def ID '".toList) := by decide
  exact isDuplicate_of_beginning hbegins (hapart words hwords)

/-! Reading one node. -/

theorem elementType_quiet (s : Setting) (n : Node) {attr : String}
    (hattr : attr ∈ ["ElementType", "KeyType"]) (declared : TypeKey) (trail : List String) :
    (elementType s n attr declared trail).Quiet := by
  have hwords : attr ∈ typeWords := by
    have hsub : ["ElementType", "KeyType"] ⊆ typeWords := by decide
    exact hsub hattr
  unfold elementType
  cases n.attr attr with
  | none => exact quiet_pure _
  | some name =>
    dsimp only
    cases s.types.resolve name with
    | none =>
      refine .bind (quiet_report (quiet_of_words "cannot resolve " (by decide) ?_))
        fun _ => quiet_pure _
      exact ((((beginsWith_append _ _).append _).append _).append _).append _
    | some found =>
      dsimp only
      split
      · exact quiet_pure _
      · refine .bind (quiet_report (quiet_of_words attr hwords ?_)) fun _ => quiet_pure _
        exact ((((beginsWith_append _ _).append _).append _).append _)

theorem wantedType_quiet (s : Setting) (child : Node) (declared : Descriptor)
    (trail : List String) : (wantedType s child declared trail).Quiet := by
  unfold wantedType
  cases child.attr "Type" with
  | none => exact quiet_pure _
  | some name =>
    dsimp only
    cases s.types.resolve name with
    | none =>
      refine .bind (quiet_report (quiet_of_words "cannot resolve type '" (by decide) ?_))
        fun _ => quiet_pure _
      exact ((beginsWith_append _ _).append _).append _
    | some found =>
      dsimp only
      split
      · exact quiet_pure _
      · refine .bind (quiet_report (quiet_of_words "type '" (by decide) ?_)) fun _ => quiet_pure _
        exact ((beginsWith_append _ _).append _).append _

theorem fail_quiet {stage : Stage} (trail : List String) (message : String) (left : Option Value)
    (h : stage ≠ .resolution) : (fail stage trail message left).Quiet :=
  .bind (problem_quiet trail message h) fun _ => quiet_pure _

theorem toWrite_quiet (s : Setting) (o : Outcome) (declared : TypeKey) (trail : List String)
    (complaint : String) : (toWrite s o declared trail complaint).Quiet := by
  unfold toWrite
  cases o with
  | noValue => exact quiet_pure _
  | value v => exact quiet_pure _
  | null =>
    dsimp only
    cases s.types.null? declared with
    | some v => exact quiet_pure _
    | none => exact .bind (problem_quiet _ _ (by decide)) fun _ => quiet_pure _

theorem resume_quiet {fill : Value → Reported Value} (hfill : ∀ v, (fill v).Quiet) (f : Focus)
    (n : Node) (current : Option Value) : (resume f n current fill).Quiet := by
  unfold resume
  split
  · exact .bind (hfill _) fun _ => quiet_pure _
  · split
    · exact .bind (hfill _) fun _ => quiet_pure _
    · exact fail_quiet _ _ _ (by decide)

theorem storeItem_quiet (l : ListFocus) (trail : List String) (xs item : Value) :
    (storeItem s l trail xs item).Quiet := by
  unfold storeItem
  split
  · exact .bind (problem_quiet _ _ (by decide)) fun _ => quiet_pure _
  · split
    · exact quiet_pure _
    · exact .bind (problem_quiet _ _ (by decide)) fun _ => quiet_pure _

theorem storeEntry_quiet (m : MapFocus) (trail : List String) (name : String)
    (xs key entry : Value) : (storeEntry s m trail name xs key entry).Quiet := by
  unfold storeEntry
  split
  · exact .bind (problem_quiet _ _ (by decide)) fun _ => quiet_pure _
  · split
    · exact quiet_pure _
    · exact .bind (quiet_report (isDuplicate_of_stage (by simp [Diagnostic.warning])))
        fun _ => quiet_pure _
    · exact .bind (problem_quiet _ _ (by decide)) fun _ => quiet_pure _

theorem place_quiet (s : Setting) (trail : List String) (t : Descriptor) (child : Node) :
    (place s trail t child).Quiet := by
  unfold place
  split
  · refine .bind (quiet_report (isDuplicate_of_ending "'" rfl (by decide)))
      fun _ => quiet_pure _
  · split
    · refine .bind (quiet_report (quiet_of_words "type of member '" (by decide) ?_))
        fun _ => quiet_pure _
      exact (beginsWith_append _ _).append _
    · exact .bind (wantedType_quiet _ _ _ _) fun _ => quiet_pure _

theorem toStore_quiet (s : Setting) (p : Place) (trail : List String) (step : Step) :
    (toStore s p trail step).Quiet := by
  unfold toStore
  refine .bind (toWrite_quiet _ _ _ _ _) fun write => ?_
  split
  · split
    · exact .bind (quiet_pure _) fun _ => quiet_pure _
    · exact .bind (.bind (problem_quiet _ _ (by decide)) fun _ => quiet_pure _)
        fun _ => quiet_pure _
  · exact .bind (quiet_pure _) fun _ => quiet_pure _

theorem store_quiet (m : Member) (trail : List String) (owner : Value) (write : Option Value) :
    (store m trail owner write).Quiet := by
  unfold store
  split
  · exact quiet_pure _
  · split
    · exact quiet_pure _
    · exact .bind (problem_quiet _ _ (by decide)) fun _ => quiet_pure _

/-- Nothing about duplicates is found when a node is read. -/
def ReadsQuiet (s : Setting) (c : Node) : Prop := ∀ f current, (readNode s c f current).Quiet

theorem add_quiet (hc : ReadsQuiet s c) (F : Filling) (v : Value) : (F.add s v c).Quiet := by
  cases F with
  | «class» trail t =>
    refine .bind (place_quiet _ _ _ _) fun found => ?_
    cases found with
    | none => exact quiet_pure _
    | some p =>
      exact .bind (hc _ _) fun step => .bind (toStore_quiet _ _ _ _) fun _ => store_quiet _ _ _ _
  | list l =>
    refine .bind (wantedType_quiet _ _ _ _) fun found => ?_
    cases found with
    | none => exact quiet_pure _
    | some target =>
      refine .bind (hc _ _) fun step => .bind (toWrite_quiet _ _ _ _ _) fun item => ?_
      cases item with
      | none => exact quiet_pure _
      | some item => exact storeItem_quiet _ _ _ _
  | map m =>
    simp only [Filling.add, addEntry]
    split
    · exact .bind (problem_quiet _ _ (by decide)) fun _ => quiet_pure _
    · refine .bind (wantedType_quiet _ _ _ _) fun found => ?_
      cases found with
      | none => exact quiet_pure _
      | some target =>
        refine .bind (hc _ _) fun step => .bind (toWrite_quiet _ _ _ _ _) fun entry => ?_
        cases entry with
        | none => exact quiet_pure _
        | some entry => exact storeEntry_quiet _ _ _ _ _ _

theorem fill_quiet {cs : List Node} (hcs : ∀ c ∈ cs, ReadsQuiet s c) (F : Filling) (v : Value) :
    (F.fill s cs v).Quiet := by
  induction cs generalizing v with
  | nil => exact quiet_pure _
  | cons c cs ih =>
    exact .bind (add_quiet (hcs c List.mem_cons_self) F v) fun w =>
      ih (fun c' hc' => hcs c' (List.mem_cons_of_mem c hc')) w

theorem readList_quiet {fill : ListFocus → Value → Reported Value} (hfill : ∀ l v, (fill l v).Quiet)
    (f : Focus) (n : Node) (current : Option Value) (element : TypeKey) :
    (readList s f n current element fill).Quiet := by
  refine .bind (elementType_quiet _ _ (by decide) _ _) fun found => ?_
  cases found with
  | none => exact quiet_pure _
  | some k =>
    dsimp only
    cases s.types.get? k with
    | none =>
      refine .bind (quiet_report (quiet_of_words "element type of " (by decide) ?_))
        fun _ => quiet_pure _
      exact (beginsWith_append _ _).append _
    | some t => exact resume_quiet (hfill _) f n current

theorem readMap_quiet {fill : MapFocus → Value → Reported Value} (hfill : ∀ m v, (fill m v).Quiet)
    (f : Focus) (n : Node) (current : Option Value) (key value : TypeKey) :
    (readMap s f n current key value fill).Quiet := by
  refine .bind (elementType_quiet _ _ (by decide) _ _) fun found => ?_
  cases found with
  | none => exact quiet_pure _
  | some k =>
    refine .bind (elementType_quiet _ _ (by decide) _ _) fun found => ?_
    cases found with
    | none => exact quiet_pure _
    | some v =>
      dsimp only
      split
      · exact resume_quiet (hfill _) f n current
      · refine .bind (quiet_report (quiet_of_words "key or value type of " (by decide) ?_))
          fun _ => quiet_pure _
        exact (beginsWith_append _ _).append _

theorem readWith_quiet (f : Focus) (n : Node) (current : Option Value) (p : Parser) :
    (readWith s f n current p).Quiet := by
  unfold readWith
  split
  · exact quiet_pure _
  · exact fail_quiet _ _ _ (by decide)

theorem readClass_quiet {fill : Value → Reported Value} (hfill : ∀ v, (fill v).Quiet) (f : Focus)
    (n : Node) (current : Option Value) : (readClass f n current fill).Quiet := by
  unfold readClass
  split
  · exact resume_quiet hfill f n current
  · refine .bind (quiet_report (isDuplicate_of_ending
      " is abstract; name a concrete type with Type=\"...\"" rfl (by decide))) fun _ => quiet_pure _
  · exact fail_quiet _ _ _ (by decide)

theorem readPlain_quiet (hn : ∀ c ∈ n.children, ReadsQuiet s c) (f : Focus)
    (current : Option Value) : (readPlain s n f current).Quiet := by
  unfold readPlain
  split
  · exact .bind (readList_quiet (fun l => fill_quiet hn (.list l)) _ _ _ _) fun _ => quiet_pure _
  · exact .bind (readMap_quiet (fun m => fill_quiet hn (.map m)) _ _ _ _ _) fun _ => quiet_pure _
  · split
    · exact .bind (readWith_quiet _ _ _ _) fun _ => quiet_pure _
    · exact .bind (readClass_quiet (fill_quiet hn (.class f.trail f.target)) _ _ _)
        fun _ => quiet_pure _

theorem rewrap_quiet (f : Focus) (matched : Bool) (step : Step) (left : Option Value) :
    (rewrap f matched step left).Quiet := by
  unfold rewrap
  split
  · split
    · exact quiet_pure _
    · exact fail_quiet _ _ _ (by decide)
  · exact quiet_pure _
  · split <;> exact quiet_pure _

theorem throughOptional_quiet {inside : Focus → Option Value → Reported Step}
    (hinside : ∀ f current, (inside f current).Quiet) (k : Nat) (f : Focus)
    (current : Option Value) : (throughOptional s inside k f current).Quiet := by
  induction k generalizing f current with
  | zero => exact quiet_pure _
  | succ k ih =>
    unfold throughOptional
    split
    · split
      · refine .bind (quiet_report (quiet_of_words "inner type of " (by decide) ?_))
          fun _ => quiet_pure _
        exact (beginsWith_append _ _).append _
      · exact .bind (ih _ _) fun _ => rewrap_quiet _ _ _ _
    · exact hinside f current

theorem readNode_quiet (s : Setting) (n : Node) : ReadsQuiet s n := by
  induction n using Node.induct with
  | h n ih =>
    intro f current
    rw [readNode_eq]
    split
    · exact quiet_pure _
    · exact throughOptional_quiet (readPlain_quiet ih) _ f current

/-! Reading a patch or a def. -/

theorem readMembers_quiet (s : Setting) (trail : List String) (t : Descriptor) (cs : List Node)
    (v : Value) : (readMembers s trail t cs v).Quiet := by
  rw [readMembers_eq_fill]
  exact fill_quiet (fun c _ => readNode_quiet s c) _ v

theorem buildClass_quiet (s : Setting) (t : Descriptor) (label : String) (n : Node) :
    (buildClass s t label n).Quiet := by
  refine .bind (readClass_quiet (readMembers_quiet s _ t n.children) _ _ _) fun step => ?_
  cases step.outcome <;> exact quiet_pure _

theorem readDef_quiet (s : Setting) (t : Descriptor) (id : String) (n : Node) (v : Value) :
    (readDef s t id n v).Quiet := by
  refine .bind (readMembers_quiet s _ t n.children _) fun v => ?_
  split <;> exact quiet_pure _

theorem resetMembers_quiet (id : String) (fresh : Value) (ms : List Member) (v : Value) :
    (resetMembers id fresh ms v).Quiet := by
  induction ms generalizing fresh v with
  | nil => exact quiet_pure _
  | cons m ms ih =>
    unfold resetMembers
    split
    · exact ih _ _
    · split
      · exact ih _ _
      · split
        · exact ih _ _
        · exact .bind (quiet_report (isDuplicate_of_stage (by simp [Diagnostic.error])))
            fun _ => ih _ _

theorem reset_quiet (t : Descriptor) (id : String) (v : Value) : (reset t id v).Quiet := by
  unfold reset
  split
  · exact .bind (quiet_report (isDuplicate_of_stage (by simp [Diagnostic.error])))
      fun _ => quiet_pure _
  · exact .bind (resetMembers_quiet _ _ _ _) fun _ => quiet_pure _

end Reading

namespace Session

open Reading (BeginsWith beginsWith_append)

/-! Looking up the types that nodes name. -/

/-- The words with which complaints about the types of whole nodes begin. -/
def nodeWords : List String :=
  ["patch", "def", "cannot resolve ", "def type '", "type '",
    "type of the existing def is not registered", "a def with this ID is already registered",
    "cyclic inheritance (", "failed to find parent '"]

theorem quiet_of_nodeWords {stage : Stage} {path message : String} (words : String)
    (hwords : words ∈ nodeWords) (hbegins : BeginsWith message words) :
    (Diagnostic.error stage path message).isDuplicate = false := by
  have hapart : ∀ a ∈ nodeWords, ¬("duplicate def ID '".toList <+: a.toList ∨
      a.toList <+: "duplicate def ID '".toList) := by decide
  exact isDuplicate_of_beginning hbegins (hapart words hwords)

theorem namedType_words {types : TypeTable} {role message : String} {n : Node}
    (h : namedType types role n = .error message) :
    BeginsWith message role ∨ BeginsWith message "cannot resolve " := by
  unfold namedType at h
  split at h
  · cases h
    exact .inl (beginsWith_append _ _)
  · split at h
    · cases h
      exact .inr ((((beginsWith_append _ _).append _).append _).append _)
    · cases h

theorem namedPatchType_quiet {types : TypeTable} {message : String} {n : Node}
    (h : namedPatchType types n = .error message) (path : String) :
    (Diagnostic.error .resolution path message).isDuplicate = false := by
  unfold namedPatchType at h
  cases ht : namedType types "patch" n with
  | error e =>
    rw [ht] at h
    cases h
    rcases namedType_words ht with hbegins | hbegins
    · exact quiet_of_nodeWords "patch" (by decide) hbegins
    · exact quiet_of_nodeWords "cannot resolve " (by decide) hbegins
  | ok t =>
    rw [ht] at h
    simp only [bind, Except.bind] at h
    split at h
    · cases h
    · cases h
      exact quiet_of_nodeWords "type '" (by decide) ((beginsWith_append _ _).append _)

theorem namedDefType_quiet {types : TypeTable} {message : String} {n : Node}
    (h : namedDefType types n = .error message) (path : String) :
    (Diagnostic.error .resolution path message).isDuplicate = false := by
  unfold namedDefType at h
  cases ht : namedType types "def" n with
  | error e =>
    rw [ht] at h
    cases h
    rcases namedType_words ht with hbegins | hbegins
    · exact quiet_of_nodeWords "def" (by decide) hbegins
    · exact quiet_of_nodeWords "cannot resolve " (by decide) hbegins
  | ok t =>
    rw [ht] at h
    simp only [bind, Except.bind] at h
    split at h
    · cases h
      exact quiet_of_nodeWords "def type '" (by decide) ((beginsWith_append _ _).append _)
    · split at h
      · cases h
      · cases h
        exact quiet_of_nodeWords "type '" (by decide) ((beginsWith_append _ _).append _)

/-! Patches. -/

theorem patchNodes_quiet (types : TypeTable) (source : String) (i : Nat) (ns : List Node) :
    (patchNodes types source i ns).Quiet := by
  induction ns generalizing i with
  | nil => exact quiet_pure _
  | cons n ns ih =>
    unfold patchNodes
    dsimp only
    split
    · exact .bind (quiet_pure _) fun _ => .bind (ih _) fun _ => quiet_pure _
    · exact .bind (quiet_report (namedPatchType_quiet ‹_› _)) fun _ =>
        .bind (quiet_pure _) fun _ => .bind (ih _) fun _ => quiet_pure _

theorem buildPatches_quiet (s : Reading.Setting) (ps : List PatchNode) :
    (buildPatches s ps).Quiet := by
  induction ps with
  | nil => exact quiet_pure _
  | cons p ps ih =>
    exact .bind (Reading.buildClass_quiet _ _ _ _) fun _ => .bind ih fun _ => quiet_pure _

theorem executePatches_quiet (ps : List BuiltPatch) (k : Nat) (root : Node) :
    (executePatches ps k root).Quiet := by
  induction ps generalizing k root with
  | nil => exact quiet_pure _
  | cons p ps ih =>
    unfold executePatches
    split
    · exact .bind (quiet_report (isDuplicate_of_stage (by simp [Diagnostic.error])))
        fun _ => ih _ _
    · dsimp only
      split
      · exact ih _ _
      · exact .bind (quiet_report (isDuplicate_of_stage
          (by simp [patchFailure, Diagnostic.warning]))) fun _ => ih _ _

theorem runPatches_quiet (s : Session) (ns : List Node) (source : String) :
    (s.runPatches ns source).Quiet :=
  .bind (patchNodes_quiet _ _ _ _) fun _ => .bind (buildPatches_quiet _ _) fun _ =>
    executePatches_quiet _ _ _

/-! The calls of a session. -/

/-- No complaint about a duplicate ID has been found so far. -/
def IsQuiet (s : Session) : Prop := ∀ d ∈ s.diagnostics, d.isDuplicate = false

theorem IsQuiet.found {s t : Session} {ds : Diagnostics} (h : IsQuiet s)
    (ht : t.diagnostics = s.diagnostics ++ ds) (hds : ∀ d ∈ ds, d.isDuplicate = false) :
    IsQuiet t := by
  intro d hd
  rw [ht] at hd
  rcases List.mem_append.mp hd with hd | hd
  · exact h d hd
  · exact hds d hd

theorem resolveDiagnostics_quiet (m : Master) :
    ∀ d ∈ m.resolveDiagnostics, d.isDuplicate = false := by
  intro d hd
  unfold Master.resolveDiagnostics at hd
  split at hd
  · cases hd
  · obtain ⟨⟨i, n, v⟩, -, hv⟩ := List.mem_filterMap.mp hd
    cases v with
    | broken l =>
      obtain ⟨message, hmessage, rfl⟩ := Option.map_eq_some_iff.mp hv
      unfold Master.lineageMessage at hmessage
      split at hmessage
      · cases hmessage
      · cases hmessage
        exact quiet_of_nodeWords "cyclic inheritance (" (by decide)
          ((beginsWith_append _ _).append _)
      · cases hmessage
        exact quiet_of_nodeWords "failed to find parent '" (by decide)
          ((((beginsWith_append _ _).append _).append _).append _)
    | _ => cases hv

theorem IsQuiet.close {s : Session} (h : IsQuiet s) : IsQuiet s.close := by
  unfold Session.close
  split
  · exact h
  · exact IsQuiet.found h rfl (resolveDiagnostics_quiet s.master)

theorem IsQuiet.settle {s : Session} (h : IsQuiet s) : IsQuiet s.settle := by
  unfold Session.settle
  split
  · exact h
  · exact h.found rfl (resolveDiagnostics_quiet _)

theorem IsQuiet.addDocument {s : Session} (h : IsQuiet s) (d : Document) (source : String) :
    IsQuiet (s.addDocument d source).2 := by
  unfold Session.addDocument
  split
  · exact h
  · refine h.found rfl fun e he => isDuplicate_of_stage ?_
    unfold Master.addDiagnostics at he
    split at he
    · rw [List.mem_singleton.mp he]
      simp [Master.missingRoot, Diagnostic.warning]
    · cases he

theorem IsQuiet.addText {s : Session} (h : IsQuiet s) (text source : String) :
    IsQuiet (s.addText text source).2 := by
  unfold Session.addText
  split
  · exact h
  · exact h.addDocument _ source

theorem IsQuiet.addFile {s : Session} (h : IsQuiet s) (disk : Disk) (path : String) :
    IsQuiet (Session.addFile disk s path).2 := by
  unfold Session.addFile
  split
  · exact h
  · split
    · exact h
    · exact h.addText _ path

theorem IsQuiet.addFiles {s : Session} (h : IsQuiet s) (disk : Disk) (paths : List String) :
    IsQuiet (Session.addFiles disk s paths).2 := by
  induction paths generalizing s with
  | nil => exact h
  | cons path paths ih =>
    have hfile := h.addFile disk path
    unfold Session.addFiles
    split
    case h_1 hr => rw [hr] at hfile; exact hfile
    case h_2 hr => rw [hr] at hfile; exact ih hfile

theorem IsQuiet.addFolder {s : Session} (h : IsQuiet s) (disk : Disk) (path : String) :
    IsQuiet (Session.addFolder disk s path).2 := by
  unfold Session.addFolder
  split
  · exact h
  · split
    · exact h
    · rename_i files hfiles
      have hall := h.addFiles disk files
      split
      case h_1 hr => rw [hr] at hall; exact hall
      case h_2 hr => rw [hr] at hall; exact hall

theorem IsQuiet.patch {s : Session} (h : IsQuiet s) (d : Document) (source : String) :
    IsQuiet (s.patch d source).2 := by
  unfold Session.patch
  dsimp only
  split
  · refine h.close.found rfl fun e he => isDuplicate_of_stage ?_
    rw [List.mem_singleton.mp he]
    simp [Diagnostic.warning]
  · exact h.close.found rfl (runPatches_quiet _ _ _)

theorem IsQuiet.patchText {s : Session} (h : IsQuiet s) (text source : String) :
    IsQuiet (s.patchText text source).2 := by
  unfold Session.patchText
  split
  · exact h
  · exact h.patch _ source

theorem IsQuiet.perform {s : Session} (h : IsQuiet s) (c : Command) : IsQuiet (s.perform c) := by
  cases c with
  | addDocument d source => exact h.addDocument d source
  | addText text source => exact h.addText text source
  | addFile disk path => exact h.addFile disk path
  | addFolder disk path => exact h.addFolder disk path
  | close => exact h.close
  | patch d source => exact h.patch d source
  | patchText text source => exact h.patchText text source
  | patchFile disk path =>
    simp only [Session.perform, patchFile]
    split
    · exact h
    · exact h.patchText _ path
  | addParser p => exact h

theorem IsQuiet.run {s : Session} (h : IsQuiet s) (cs : List Command) : IsQuiet (s.run cs) := by
  induction cs generalizing s with
  | nil => exact h
  | cons c cs ih => exact ih (h.perform c)

/-! The end of a load. -/

theorem candidate_quiet (s : Session) (i : Nat) (n : Node) : (candidate s i n).Quiet := by
  unfold candidate
  split
  · exact quiet_pure _
  · split
    · split
      · exact quiet_pure _
      · refine .bind (quiet_report (quiet_of_nodeWords
          "type of the existing def is not registered" (by decide) ⟨"", rfl⟩)) fun _ => quiet_pure _
    · split
      · exact quiet_pure _
      · exact .bind (quiet_report (namedDefType_quiet ‹_› _)) fun _ => quiet_pure _

theorem candidates_quiet (s : Session) (i : Nat) (ns : List Node) : (candidates s i ns).Quiet := by
  induction ns generalizing i with
  | nil => exact quiet_pure _
  | cons n ns ih =>
    exact .bind (candidate_quiet s i n) fun _ => .bind (ih _) fun _ => quiet_pure _

theorem newDef_quiet (c : Candidate) : (newDef c).Quiet := by
  unfold newDef
  split
  · exact .bind (quiet_report (isDuplicate_of_stage (by simp [Diagnostic.error])))
      fun _ => quiet_pure _
  · split
    · exact quiet_pure _
    · exact .bind (quiet_report (isDuplicate_of_stage (by simp [Diagnostic.error])))
        fun _ => quiet_pure _

theorem prepare_quiet (db : Database) (cs : List Candidate) : (prepare db cs).Quiet := by
  induction cs generalizing db with
  | nil => exact quiet_pure _
  | cons c cs ih =>
    unfold prepare
    split
    · exact .bind (ih _) fun _ => quiet_pure _
    · refine .bind (newDef_quiet c) fun v => ?_
      split
      · exact ih _
      · exact .bind (ih _) fun _ => quiet_pure _

theorem fillAll_quiet (s : Reading.Setting) (ps : List Pending) (db : Database) :
    (fillAll s ps db).Quiet := by
  induction ps generalizing db with
  | nil => exact quiet_pure _
  | cons p ps ih =>
    refine .bind ?_ fun v => ih _
    unfold fill
    split
    · exact .bind (Reading.reset_quiet _ _ _) fun _ => Reading.readDef_quiet _ _ _ _ _
    · exact .bind (quiet_pure _) fun _ => Reading.readDef_quiet _ _ _ _ _

theorem registerAll_quiet (rerun : Bool) (ps : List Pending) (db : Database) :
    (registerAll rerun ps db).Quiet := by
  induction ps generalizing db with
  | nil => exact quiet_pure _
  | cons p ps ih =>
    unfold registerAll
    split
    · exact .bind (ih _) fun _ => quiet_pure _
    · split
      · exact .bind (ih _) fun _ => quiet_pure _
      · exact .bind (quiet_report (quiet_of_nodeWords
          "a def with this ID is already registered" (by decide) ⟨"", rfl⟩)) fun _ => ih _

theorem failure_quiet (h : Handle) (callback : String) (reason : Option String) :
    ∀ d ∈ failure h callback reason, d.isDuplicate = false := by
  intro d hd
  cases reason with
  | none => cases hd
  | some reason =>
    rw [List.mem_singleton.mp hd]
    exact isDuplicate_of_stage (by simp [Diagnostic.error])

theorem runPass_quiet (callback : String) (run : DefRole → Value → Value × Option String)
    (hs : List Handle) (db : Database) : (runPass callback run hs db).Quiet := by
  induction hs generalizing db with
  | nil => exact quiet_pure _
  | cons h hs ih => exact .bind (failure_quiet h callback _) fun _ => ih _

theorem configDiagnostics_quiet (db : Database) (h : Handle) :
    ∀ d ∈ configDiagnostics db h, d.isDuplicate = false := by
  intro d hd
  rcases List.mem_append.mp hd with hd | hd
  · obtain ⟨x, -, rfl⟩ := List.mem_map.mp hd
    exact isDuplicate_of_stage (by simp)
  · exact failure_quiet h _ _ d hd

theorem announce_quiet (hs : List Handle) (db : Database) : (announce hs db).Quiet := by
  refine .bind (runPass_quiet _ _ _ _) fun _ => .bind (runPass_quiet _ _ _ _) fun db => .bind ?_
    fun _ => quiet_pure _
  intro d hd
  obtain ⟨h, -, hd⟩ := List.mem_flatMap.mp hd
  exact configDiagnostics_quiet db h d hd

/-- What is found after the selection is about other things. -/
theorem load_found (s : Session) : ∃ rest, (∀ d ∈ rest, d.isDuplicate = false) ∧
    let cs := candidates s 0 s.master.root.children
    s.load.found = cs.found ++ ((select s.config.duplicates cs.value).found ++ rest) := by
  refine ⟨_, ?_, rfl⟩
  exact Reported.Quiet.bind (prepare_quiet _ _) fun _ => .bind (fillAll_quiet _ _ _) fun _ =>
    .bind (registerAll_quiet _ _ _) fun _ => .bind (announce_quiet _ _) fun _ => quiet_pure _

/-- The complaints about duplicate IDs in a report are those about the losers, no matter what else
was found. -/
theorem conclude_duplicates {s : Session} (hs : IsQuiet s) :
    (s.conclude.1.diagnostics.filter Diagnostic.isDuplicate).Perm
      ((losers (claims s) s.config.duplicates s.master.root.children).map duplicate) := by
  obtain ⟨rest, hrest, hfound⟩ := load_found s
  have hselect := select_found s
  dsimp only at hselect
  have hdiagnostics : s.conclude.1.diagnostics = s.diagnostics ++ s.load.found := rfl
  rw [hdiagnostics, hfound]
  generalize select s.config.duplicates (candidates s 0 s.master.root.children).value = sel
    at hselect ⊢
  have hnone {ds : Diagnostics} (h : ∀ d ∈ ds, d.isDuplicate = false) :
      ds.filter Diagnostic.isDuplicate = [] :=
    List.filter_eq_nil_iff.mpr fun d hd => by rw [h d hd]; exact Bool.false_ne_true
  have hall : sel.found.filter Diagnostic.isDuplicate = sel.found := by
    refine List.filter_eq_self.mpr fun d hd => ?_
    obtain ⟨n, -, rfl⟩ := List.mem_map.mp (hselect.subset hd)
    exact isDuplicate_duplicate n
  simp only [List.filter_append, hnone hs, hnone (candidates_quiet _ _ _), hnone hrest, hall,
    List.nil_append, List.append_nil]
  exact hselect

end Session

end DefLoad
