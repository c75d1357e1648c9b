import DefLoad.Proofs.Places
import DefLoad.Proofs.SessionRun

/-!
A patch document is its patches one by one. What is built from a node does not depend on the other
nodes, and a node of which nothing comes leaves the tree alone and is complained about under its
label.
-/

namespace DefLoad

namespace TreeEdit

theorem removeAll_unchanged {ps : List (List Nat)} {root : Node} (h : (removeAll ps root).1 = 0) :
    (removeAll ps root).2 = root := by
  induction ps with
  | nil => rfl
  | cons p ps ih =>
    rw [removeAll] at h ⊢
    dsimp only at h ⊢
    split at h
    case isTrue => cases h
    case isFalse hp =>
      rw [if_neg hp]
      exact ih h

theorem editAll_unchanged {op : Operation} {fragment : Node} {ps replaced : List (List Nat)}
    {root : Node} (h : (editAll op fragment ps replaced root).1 = 0) :
    (editAll op fragment ps replaced root).2 = root := by
  induction ps generalizing replaced root with
  | nil => rfl
  | cons p ps ih =>
    unfold editAll at h ⊢
    split at h
    case isTrue hp =>
      rw [if_pos hp]
      exact ih h
    case isFalse hp =>
      rw [if_neg hp]
      cases he : (root.at? p).bind (edit op fragment) with
      | none =>
        rw [he] at h
        exact ih h
      | some changed =>
        rw [he] at h
        cases h

/-- An edit succeeds when it modifies a node. -/
theorem execute_success (e : TreeEdit) (root : Node) :
    (e.execute root).1.success = decide (0 < (e.execute root).1.modifications) := by
  unfold execute
  cases Selector.parse e.path with
  | error error => rfl
  | ok selector =>
    dsimp only
    split
    · rfl
    · cases e.fragment? <;> rfl

/-- An edit that modifies no node leaves the tree as it was. -/
theorem execute_unchanged {e : TreeEdit} {root : Node}
    (h : (e.execute root).1.modifications = 0) : (e.execute root).2 = root := by
  unfold execute at h ⊢
  cases hpath : Selector.parse e.path with
  | error error => rfl
  | ok selector =>
    rw [hpath] at h
    dsimp only at h ⊢
    split at h
    case isTrue hop =>
      rw [if_pos hop]
      exact removeAll_unchanged h
    case isFalse hop =>
      rw [if_neg hop]
      cases hfragment : e.fragment? with
      | none => rfl
      | some fragment =>
        rw [hfragment] at h
        exact editAll_unchanged h

end TreeEdit

/-- A patch of this type edits the tree as its fields say. -/
def Descriptor.EditsTree (t : Descriptor) : Prop :=
  t.patchRole = some fun v root => (Core.patchOf v).execute root

namespace Reading

/-- A class is read into a fresh instance, or there is a reason why not. -/
theorem readClass_fresh (f : Focus) (n : Node) (fill : Value → Reported Value) :
    (∃ v, (readClass f n none fill).value.outcome = .value v) ∨
      ∃ stage message, readClass f n none fill = fail stage f.trail message none := by
  unfold readClass
  split
  case h_1 =>
    have hfresh : reusable f.target none = none := rfl
    unfold resume
    rw [hfresh]
    dsimp only
    split
    case h_1 v hv => exact .inl ⟨(fill v).value, rfl⟩
    case h_2 e he => exact .inr ⟨_, _, rfl⟩
  case h_2 => exact .inr ⟨_, _, rfl⟩
  case h_3 => exact .inr ⟨_, _, rfl⟩

/-- A class of which nothing can be built is complained about under the label. -/
theorem buildClass_complains {s : Setting} {t : Descriptor} {label : String} {n : Node}
    (h : (buildClass s t label n).value = none) :
    ∃ d ∈ (buildClass s t label n).found, d.path = label := by
  rcases readClass_fresh (Focus.root t [label]) n (readMembers s [label] t n.children) with
    ⟨v, hv⟩ | ⟨stage, message, hfail⟩
  · have hsome : (buildClass s t label n).value ≠ none := by
      unfold buildClass
      rw [Reported.bind_value]
      dsimp only [Focus.root] at hv ⊢
      rw [hv]
      simp
    exact (hsome h).elim
  · refine ⟨.error stage (pathOf [label]) message, ?_, by simp [Diagnostic.error, pathOf]⟩
    unfold buildClass
    rw [Reported.bind_found]
    apply List.mem_append_left
    dsimp only [Focus.root] at hfail ⊢
    rw [hfail]
    exact List.mem_singleton_self _

end Reading

namespace Session

open Reading (Setting buildClass buildClass_label buildClass_complains)

/-- The nodes of a patch document. -/
def patchesOf (d : Document) : List Node := (d.root?.map (·.children)).getD []

/-! What a node comes to. -/

section

variable (s : Setting)

/-- The edit that a node describes, if an instance of the type that it names can be built. -/
def edit? (n : Node) : Option TreeEdit :=
  match namedPatchType s.types n with
  | .error _ => none
  | .ok t => ((buildClass s t "" n).value.filter (·.type = t.key)).map Core.patchOf

/-- If an instance can be built from the node, it is a patch that edits the tree. -/
def EditsOrFails (n : Node) : Prop := ∀ t v, namedPatchType s.types n = .ok t →
  (buildClass s t "" n).value = some v → t.EditsTree

/-- The tree after the edits that can be built from nodes, executed one after the other. -/
def edited (ns : List Node) (root : Node) : Node :=
  (ns.filterMap (edit? s)).foldl (fun root e => (e.execute root).2) root

/-- How many nodes of a tree the edit that a node describes modifies. -/
def modifications (n root : Node) : Nat :=
  ((edit? s n).map fun e => (e.execute root).1.modifications).getD 0

/-- A node succeeds at a place when its edit modifies the tree that the nodes before it leave. -/
def Succeeds (ns : List Node) (root n : Node) (k : Nat) : Bool :=
  0 < modifications s n (edited s (ns.take k) root)

def successes (ns : List Node) (root : Node) : Nat :=
  ns.zipIdx.countP fun (n, k) => Succeeds s ns root n k

end

section

variable {s : Setting} {n root : Node} {ms ns : List Node}

theorem edited_append : edited s (ms ++ ns) root = edited s ns (edited s ms root) := by
  unfold edited
  rw [List.filterMap_append, List.foldl_append]

theorem edited_singleton :
    edited s [n] root = ((edit? s n).map fun e => (e.execute root).2).getD root := by
  unfold edited
  cases h : edit? s n <;> simp [h]

theorem successes_append :
    successes s (ms ++ ns) root = successes s ms root + successes s ns (edited s ms root) := by
  have hbefore (n : Node) {k : Nat} (hk : k < ms.length) :
      Succeeds s (ms ++ ns) root n k = Succeeds s ms root n k := by
    unfold Succeeds
    rw [List.take_append_of_le_length (Nat.le_of_lt hk)]
  have hafter (n : Node) (k : Nat) : Succeeds s (ms ++ ns) root n (ms.length + k) =
      Succeeds s ns (edited s ms root) n k := by
    unfold Succeeds
    rw [List.take_length_add_append, edited_append]
  unfold successes
  rw [List.zipIdx_append, List.countP_append]
  congr 1
  · refine List.countP_congr fun ⟨n, k⟩ hk => ?_
    have hlt : k < ms.length := by simpa using (List.mem_zipIdx hk).2.1
    simp [hbefore n hlt]
  · rw [List.zipIdx_eq_map_add, List.countP_map]
    exact List.countP_congr fun ⟨n, k⟩ _ => by simp [hafter]

end

/-! The three passes over a batch, cut in two. -/

theorem patchNodes_append (types : TypeTable) (source : String) (i : Nat) (ms ns : List Node) :
    patchNodes types source i (ms ++ ns) = do
      let here ← patchNodes types source i ms
      let rest ← patchNodes types source (i + ms.length) ns
      return here ++ rest := by
  induction ms generalizing i with
  | nil => simp [patchNodes]
  | cons m ms ih =>
    have hi : i + 1 + ms.length = i + (m :: ms).length := by
      simp only [List.length_cons]
      omega
    simp only [List.cons_append, patchNodes, ih, hi]
    cases namedPatchType types m <;> simp

theorem buildPatches_append (s : Setting) (ps qs : List PatchNode) :
    buildPatches s (ps ++ qs) = do
      let here ← buildPatches s ps
      let rest ← buildPatches s qs
      return here ++ rest := by
  induction ps with
  | nil => simp [buildPatches]
  | cons p ps ih =>
    simp only [List.cons_append, buildPatches, ih, bind_assoc, pure_bind, List.append_assoc]

theorem executePatches_append (ps qs : List BuiltPatch) (k : Nat) (root : Node) :
    executePatches (ps ++ qs) k root =
      executePatches ps k root >>= fun r => executePatches qs r.1 r.2 := by
  induction ps generalizing k root with
  | nil => simp [executePatches]
  | cons p ps ih =>
    simp only [List.cons_append, executePatches, ih]
    cases p.role? with
    | none => simp
    | some execute =>
      dsimp only
      split
      · rfl
      · simp

/-- Successes are counted on from where the count stands, and nothing else depends on it. -/
theorem executePatches_from (ps : List BuiltPatch) (k : Nat) (root : Node) :
    let run := executePatches ps 0 root
    (executePatches ps k root).value = (k + run.value.1, run.value.2) ∧
      (executePatches ps k root).found = run.found := by
  induction ps generalizing k root with
  | nil => exact ⟨rfl, rfl⟩
  | cons p ps ih =>
    simp only [executePatches]
    cases p.role? with
    | none => simp [ih k]
    | some execute =>
      dsimp only
      split
      · simp [ih (k + 1), ih 1, Nat.add_assoc]
      · simp [ih k]

/-- A batch of nodes from a place of the document on, applied to a tree. -/
def batch (s : Setting) (source : String) (i : Nat) (ns : List Node) (root : Node) :
    Reported (Nat × Node) := do
  let typed ← patchNodes s.types source i ns
  let built ← buildPatches s typed
  executePatches built 0 root

/-- The second part of a batch goes on with the tree of the first one. All types are looked up
before anything is built, and all patches are built before any is executed, yet nothing is found
that the parts do not find on their own, and all of that is found. -/
theorem batch_append (s : Setting) (source : String) (i : Nat) (ms ns : List Node) (root : Node) :
    let here := batch s source i ms root
    let rest := batch s source (i + ms.length) ns here.value.2
    (batch s source i (ms ++ ns) root).value = (here.value.1 + rest.value.1, rest.value.2) ∧
      here.found ⊆ (batch s source i (ms ++ ns) root).found ∧
      rest.found ⊆ (batch s source i (ms ++ ns) root).found := by
  unfold batch
  simp only [patchNodes_append, buildPatches_append, executePatches_append, Reported.bind_value,
    Reported.bind_found, Reported.pure_value]
  refine ⟨(executePatches_from _ _ _).1, ?_, ?_⟩
  · grind
  · rw [(executePatches_from _ (executePatches _ _ _).value.1 _).2]
    grind

/-- A node that edits nothing. -/
theorem edited_of_none (root : Node) (h : edit? s n = none) :
    modifications s n root = 0 ∧ edited s [n] root = root := by
  rw [edited_singleton, modifications, h]
  exact ⟨rfl, rfl⟩

theorem edited_of_some {e : TreeEdit} (root : Node) (h : edit? s n = some e) :
    modifications s n root = (e.execute root).1.modifications ∧
      edited s [n] root = (e.execute root).2 := by
  rw [edited_singleton, modifications, h]
  exact ⟨rfl, rfl⟩

/-- What one node of a batch comes to: it succeeds, or it leaves the tree alone and is complained
about. -/
structure Isolated (s : Setting) (n root : Node) (label : String) (r : Reported (Nat × Node)) :
    Prop where
  count : r.value.1 = if 0 < modifications s n root then 1 else 0
  tree : r.value.2 = edited s [n] root
  failure : modifications s n root = 0 →
    edited s [n] root = root ∧ ∃ d ∈ r.found, d.path = label

theorem Isolated.of_none {label : String} {r : Reported (Nat × Node)} (he : edit? s n = none)
    (hr : r.value = (0, root)) (hd : ∃ d ∈ r.found, d.path = label) :
    Isolated s n root label r := by
  obtain ⟨hnone, htree⟩ := edited_of_none root he
  refine ⟨?_, ?_, fun _ => ⟨htree, hd⟩⟩
  · rw [hr, hnone]
    rfl
  · rw [hr, htree]

/-- A failing edit is warned of, a successful one is counted. -/
theorem executePatches_edit {p : BuiltPatch} {e : TreeEdit} (hp : p.role? = some e.execute)
    (root : Node) :
    let run := executePatches [p] 0 root
    run.value = (if 0 < (e.execute root).1.modifications then 1 else 0, (e.execute root).2) ∧
      ((e.execute root).1.modifications = 0 → ∃ d ∈ run.found, d.path = p.label) := by
  simp only [executePatches, hp, e.execute_success root]
  split
  case isTrue hpos =>
    rw [decide_eq_true_eq] at hpos
    rw [if_pos hpos]
    exact ⟨rfl, fun hzero => absurd hzero (Nat.ne_of_gt hpos)⟩
  case isFalse hzero =>
    rw [decide_eq_true_eq] at hzero
    rw [if_neg hzero]
    exact ⟨rfl, fun _ => ⟨_, List.mem_singleton_self _, rfl⟩⟩

/-- Each node of a batch stands for itself. -/
theorem batch_singleton (h : EditsOrFails s n) (source : String) (i : Nat) (root : Node) :
    Isolated s n root (patchLabel source i n) (batch s source i [n] root) := by
  cases htype : namedPatchType s.types n with
  | error message =>
    refine .of_none (by rw [edit?, htype]) ?_ ?_
    · simp [batch, patchNodes, htype, buildPatches, executePatches]
      rfl
    · exact ⟨_, by simp [batch, patchNodes, htype]; exact .inl rfl, rfl⟩
  | ok t =>
    have hlabel := buildClass_label s t "" (patchLabel source i n) n
    have hfound : (buildClass s t (patchLabel source i n) n).found ⊆
        (batch s source i [n] root).found := by
      intro d hd
      simp [batch, patchNodes, htype, buildPatches, hd]
    cases hbuilt : (buildClass s t (patchLabel source i n) n).value with
    | none =>
      have he : edit? s n = none := by
        rw [edit?, htype]
        dsimp only
        rw [← hlabel, hbuilt]
        rfl
      obtain ⟨d, hd, hpath⟩ := buildClass_complains hbuilt
      refine .of_none he ?_ ⟨d, hfound hd, hpath⟩
      simp [batch, patchNodes, htype, buildPatches, hbuilt, executePatches]
    | some v =>
      have hrole : t.patchRole = _ := h t v htype (by rw [← hlabel, hbuilt])
      have hedit : edit? s n = ((some v).filter (·.type = t.key)).map Core.patchOf := by
        rw [edit?, htype]
        dsimp only
        rw [← hlabel, hbuilt]
      let p : BuiltPatch := ⟨patchLabel source i n, t, v⟩
      have hrun : (batch s source i [n] root).value = (executePatches [p] 0 root).value ∧
          (executePatches [p] 0 root).found ⊆ (batch s source i [n] root).found := by
        simp [batch, patchNodes, htype, buildPatches, hbuilt, p]
      by_cases hkey : v.type = t.key
      · have he : edit? s n = some (Core.patchOf v) := by simp [hedit, hkey]
        have hp : p.role? = some (Core.patchOf v).execute := by
          rw [BuiltPatch.role?, if_pos hkey, hrole]
          rfl
        obtain ⟨hcount, htree⟩ := edited_of_some root he
        obtain ⟨hvalue, hwarned⟩ := executePatches_edit hp root
        refine ⟨?_, ?_, fun hzero => ?_⟩
        · rw [hrun.1, hvalue, hcount]
        · rw [hrun.1, hvalue, htree]
        · rw [hcount] at hzero
          obtain ⟨d, hd, hpath⟩ := hwarned hzero
          exact ⟨htree.trans (TreeEdit.execute_unchanged hzero), d, hrun.2 hd, hpath⟩
      · have hp : p.role? = none := if_neg hkey
        have hfailed : executePatches [p] 0 root = ⟨(0, root), [.error .construction p.label
            s!"cannot use {p.type.name} as a patch"]⟩ := by
          rw [executePatches, hp]
          rfl
        rw [hfailed] at hrun
        exact .of_none (by simp [hedit, hkey]) hrun.1
          ⟨_, hrun.2 (List.mem_singleton_self _), rfl⟩

/-- A batch executes just the edits that can be built, in order. -/
theorem batch_value (h : ∀ n ∈ ns, EditsOrFails s n) (source : String) (i : Nat) (root : Node) :
    (batch s source i ns root).value = (successes s ns root, edited s ns root) := by
  induction ns generalizing i root with
  | nil => rfl
  | cons n ns ih =>
    have hn := batch_singleton (h n List.mem_cons_self) source i root
    have hns := ih (fun m hm => h m (List.mem_cons_of_mem n hm)) (i + 1) (edited s [n] root)
    have hone : successes s [n] root = if 0 < modifications s n root then 1 else 0 := by
      by_cases hpos : 0 < modifications s n root <;> simp [successes, Succeeds, edited, hpos]
    obtain ⟨happend, -⟩ := batch_append s source i [n] ns root
    rw [hn.count, hn.tree] at happend
    show (batch s source i ([n] ++ ns) root).value = (successes s ([n] ++ ns) root,
      edited s ([n] ++ ns) root)
    rw [happend, successes_append, edited_append, hone]
    simp only [List.length_singleton, hns]

/-- Every node of a batch succeeds on the tree that the ones before it leave, or it leaves that tree
alone and is complained about under its label. -/
theorem batch_accounts (h : ∀ n ∈ ns, EditsOrFails s n) (source : String) (root : Node) {k : Nat}
    (hk : ns[k]? = some n) : Succeeds s ns root n k = true ∨
      edited s (ns.take (k + 1)) root = edited s (ns.take k) root ∧
        ∃ d ∈ (batch s source 0 ns root).found, d.path = patchLabel source k n := by
  have hlt : k < ns.length := (List.getElem?_eq_some_iff.mp hk).1
  have hmem : n ∈ ns := List.mem_of_getElem? hk
  have hlength : (ns.take k).length = k := List.length_take_of_le (Nat.le_of_lt hlt)
  have hnext : ns.take (k + 1) = ns.take k ++ [n] := by
    rw [List.take_add_one, hk]
    rfl
  have hsplit : ns = ns.take k ++ ([n] ++ ns.drop (k + 1)) := by
    rw [← List.append_assoc, ← hnext, List.take_append_drop]
  have hbefore := batch_value (fun m (hm : m ∈ ns.take k) => h m (List.mem_of_mem_take hm))
    source 0 root
  have hn := batch_singleton (h n hmem) source k (edited s (ns.take k) root)
  -- what is found at the node alone, in the part from it on, and in the whole
  have hpart := (batch_append s source k [n] (ns.drop (k + 1)) (edited s (ns.take k) root)).2.1
  have hwhole := (batch_append s source 0 (ns.take k) ([n] ++ ns.drop (k + 1)) root).2.2
  rw [← hsplit, hbefore, hlength, Nat.zero_add] at hwhole
  cases hmodified : modifications s n (edited s (ns.take k) root) with
  | zero =>
    obtain ⟨hsame, d, hd, hpath⟩ := hn.failure hmodified
    rw [hnext, edited_append]
    exact .inr ⟨hsame, d, hwhole (hpart hd), hpath⟩
  | succ m => exact .inl (decide_eq_true (by omega))

/-! Documents. -/

theorem close_master {s : Session} (h : s.closed = s.master.resolved) :
    s.close.master = s.master.resolve := by
  unfold close Master.resolve
  rw [← h]
  cases s.closed <;> rfl

/-- What a session reads patches with. -/
def reading (s : Session) : Setting := s.setting s.db.get?

theorem ReadsAs.reading_eq {s t : Session} (h : ReadsAs s t) : reading t = reading s := by
  unfold reading setting
  rw [h.db, h.config, h.parsers]

theorem patch_eq (s : Session) (d : Document) (source : String) :
    let run := batch (reading s) source 0 (patchesOf d) s.close.master.root
    (s.patch d source).1 = run.value.1 ∧
      (s.patch d source).2.master = { s.close.master with root := run.value.2 } ∧
      ∃ found, (s.patch d source).2.diagnostics = s.close.diagnostics ++ found ∧
        run.found ⊆ found := by
  rw [← (ReadsAs.close s).reading_eq]
  unfold patch patchesOf
  cases d.root? with
  | none => exact ⟨rfl, rfl, _, rfl, List.nil_subset _⟩
  | some root => exact ⟨rfl, rfl, _, rfl, List.Subset.refl _⟩

theorem patch_value {s : Session} (hs : s.closed = s.master.resolved) {d : Document}
    (h : ∀ n ∈ patchesOf d, EditsOrFails (reading s) n) (source : String) :
    (s.patch d source).1 = successes (reading s) (patchesOf d) s.master.resolve.root ∧
      (s.patch d source).2.master =
        { s.master.resolve with
          root := edited (reading s) (patchesOf d) s.master.resolve.root } := by
  obtain ⟨hcount, hmaster, -⟩ := patch_eq s d source
  rw [batch_value h, close_master hs] at hcount hmaster
  exact ⟨hcount, hmaster⟩

/-- A patch document executes, on the resolved tree and in order, just the edits that can be built
from its nodes. Each node succeeds or leaves the tree alone and is complained about under its
label; the successes are counted. Two documents that share the nodes of one come to the same. -/
theorem patch_isolates (db : Database) (config : Config) (mode : LoadMode) (calls : List Command)
    (d : Document) (source : String)
    (h : ∀ n ∈ patchesOf d, EditsOrFails (reading (run (start db config mode) calls)) n) :
    let s := run (start db config mode) calls
    let nodes := patchesOf d
    let resolved := s.master.resolve
    let tree (k : Nat) := edited (reading s) (nodes.take k) resolved.root
    (s.patch d source).2.master = { resolved with root := tree nodes.length } ∧
    (s.patch d source).1 = successes (reading s) nodes resolved.root ∧
    (∃ found, (s.patch d source).2.diagnostics = s.close.diagnostics ++ found ∧
      ∀ k n, nodes[k]? = some n → 0 < modifications (reading s) n (tree k) ∨
        tree (k + 1) = tree k ∧ ∃ f ∈ found, f.path = patchLabel source k n) ∧
    ∀ k first second source₁ source₂,
      patchesOf first = nodes.take k → patchesOf second = nodes.drop k →
      let before := s.patch first source₁
      let after := before.2.patch second source₂
      after.2.master = (s.patch d source).2.master ∧ before.1 + after.1 = (s.patch d source).1 := by
  intro s nodes resolved tree
  have hs : s.closed = s.master.resolved := ((Holds.start db config mode).run calls).stage
  obtain ⟨hcount, hmaster⟩ := patch_value hs h source
  refine ⟨?_, hcount, ?_, ?_⟩
  · rw [hmaster]
    simp [tree, nodes, resolved]
  · obtain ⟨-, -, found, hdiagnostics, hsub⟩ := patch_eq s d source
    refine ⟨found, hdiagnostics, fun k n hk => ?_⟩
    rw [close_master hs] at hsub
    rcases batch_accounts h source resolved.root hk with hsucceeds | ⟨hsame, f, hf, hpath⟩
    · exact .inl (of_decide_eq_true hsucceeds)
    · exact .inr ⟨hsame, f, hsub hf, hpath⟩
  · intro k first second source₁ source₂ hfirst hsecond before after
    have hb : ∀ n ∈ patchesOf first, EditsOrFails (reading s) n := fun n hn =>
      h n (List.mem_of_mem_take (hfirst ▸ hn))
    have hreads : reading before.2 = reading s :=
      ((ReadsAs.close s).trans (patch_patches s first source₁).reads).reading_eq
    have ha : ∀ n ∈ patchesOf second, EditsOrFails (reading before.2) n := fun n hn => by
      rw [hreads]
      exact h n (List.mem_of_mem_drop (hsecond ▸ hn))
    have hs' : before.2.closed = before.2.master.resolved :=
      (((Holds.start db config mode).run calls).perform (.patch first source₁)).stage
    obtain ⟨hcount₁, hmaster₁⟩ := patch_value hs hb source₁
    obtain ⟨hcount₂, hmaster₂⟩ := patch_value hs' ha source₂
    have hsettled : before.2.master.resolve = before.2.master := by
      refine if_pos ?_
      rw [hmaster₁]
      exact s.master.resolve_resolved
    have hnodes : patchesOf d = patchesOf first ++ patchesOf second := by
      rw [hfirst, hsecond, List.take_append_drop]
    rw [hsettled, hmaster₁, hreads] at hcount₂ hmaster₂
    rw [hmaster, hcount, hnodes, edited_append, successes_append]
    exact ⟨hmaster₂, by rw [hcount₁, hcount₂]⟩

/-! A document with a patch that works, one without a type, one of a type that has no constructor,
and one that matches nothing. -/

section

open Arsenal (fieldMember plainType)

def edit : TypeKey := .named "Edit"

def broken : TypeKey := .named "Broken"

def pathMember : Member := fieldMember edit .string "Path" (.string "")

def valueMember : Member := fieldMember edit (.optional .node) "Value" (.absent .node)

def editClass : Descriptor :=
  { plainType edit (.class [pathMember, valueMember]) with
    construct := some (.ok (.record edit [("Path", .string ""), ("Value", .absent .node)]))
    patchRole := some fun v root => (Core.patchOf v).execute root }

/-- Patches of this type would empty the tree, but there are none. -/
def brokenClass : Descriptor :=
  { plainType broken (.class []) with
    patchRole := some fun _ root => (.ofCount 1, { root with children := [] }) }

def workshop : TypeTable :=
  ⟨[(.string, plainType .string .scalar), (.node, plainType .node .scalar),
      (.optional .node, plainType (.optional .node) (.optional .node)), (edit, editClass),
      (broken, brokenClass)], [⟨"game", [edit, broken]⟩]⟩

def patchTo (path : String) : Node :=
  let value : Node := ⟨"Value", .empty, none, [.named "Crate"]⟩
  let patch : Node := ⟨"Patch", .empty, none, [⟨"Path", .empty, some path, []⟩, value]⟩
  patch.setAttr "Type" "Edit"

def patchesUnder (ns : List Node) : Document := ⟨[⟨"Patches", .empty, none, ns⟩]⟩

theorem patchesOf_patchesUnder (ns : List Node) : patchesOf (patchesUnder ns) = ns := rfl

def fixes : List Node :=
  [patchTo "/Defs", .named "Patch", (Node.named "Patch").setAttr "Type" "Broken", patchTo "/Shop"]

def fresh : Session := start (.empty workshop) {} .fresh

def crateAt (path : String) : TreeEdit :=
  ⟨path, .modifyOrAdd, some ⟨"Value", .empty, none, [.named "Crate"]⟩⟩

theorem fixes_edit {n : Node} (hn : n ∈ fixes) : EditsOrFails (reading fresh) n := by
  intro t v ht hv
  simp only [fixes, List.mem_cons, List.not_mem_nil, or_false] at hn
  rcases hn with rfl | rfl | rfl | rfl
  · cases (show namedPatchType workshop _ = .ok editClass from rfl).symm.trans ht
    rfl
  · cases ht
  · cases (show namedPatchType workshop _ = .ok brokenClass from rfl).symm.trans ht
    cases hv
  · cases (show namedPatchType workshop _ = .ok editClass from rfl).symm.trans ht
    rfl

theorem edited_fixes : edited (reading fresh) fixes (Node.named "Defs") =
    (Node.named "Defs").addChild (.named "Crate") := by
  have hbuilt : fixes.filterMap (edit? (reading fresh)) = [crateAt "/Defs", crateAt "/Shop"] := rfl
  have hadded : (crateAt "/Defs").execute (Node.named "Defs") =
      (.ofCount 1, (Node.named "Defs").addChild (.named "Crate")) := by cbv
  have hmissed : (crateAt "/Shop").execute ((Node.named "Defs").addChild (.named "Crate")) =
      (.ofCount 0, (Node.named "Defs").addChild (.named "Crate")) := by cbv
  rw [edited, hbuilt, List.foldl_cons, hadded, List.foldl_cons, hmissed, List.foldl_nil]

/-- The one crate is added, whether the document is cut or not. -/
theorem fixes_isolated :
    let s := run (start (.empty workshop) {} .fresh) []
    let whole := s.patch (patchesUnder fixes) "fixes"
    let before := s.patch (patchesUnder (fixes.take 1)) "first"
    let after := before.2.patch (patchesUnder (fixes.drop 1)) "second"
    (∀ n ∈ patchesOf (patchesUnder fixes), EditsOrFails (reading s) n) ∧
      whole.2.master.root = (Node.named "Defs").addChild (.named "Crate") ∧
      after.2.master = whole.2.master ∧ before.1 + after.1 = whole.1 := by
  have hedits : ∀ n ∈ patchesOf (patchesUnder fixes),
      EditsOrFails (reading (run (start (.empty workshop) {} .fresh) [])) n :=
    fun n hn => fixes_edit hn
  obtain ⟨hmaster, -, -, hcut⟩ :=
    patch_isolates (.empty workshop) {} .fresh [] (patchesUnder fixes) "fixes" hedits
  have hnodes := patchesOf_patchesUnder
  have hsplit := hcut 1 (patchesUnder (fixes.take 1)) (patchesUnder (fixes.drop 1)) "first"
    "second" (by rw [hnodes, hnodes]) (by rw [hnodes, hnodes])
  dsimp only at hsplit hmaster ⊢
  refine ⟨hedits, ?_, hsplit⟩
  rw [hmaster, hnodes, List.take_length]
  exact edited_fixes

end

end Session

end DefLoad
