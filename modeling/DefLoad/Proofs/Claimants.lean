import DefLoad.Proofs.Referents

/-!
Which nodes become defs. A node claims its name when it is not abstract and has a type; of the
claims on one name the policy lets at most one prevail, and the others are complained about.
-/

namespace DefLoad.Session

/-- The concrete def type that a node names. -/
def defType? (types : TypeTable) (n : Node) : Option Descriptor :=
  (((n.attr "Type").bind types.resolve).bind types.get?).filter fun t => !t.isAbstract && t.isDef

/-- The type as which a node claims to become a def. A def that is filled again keeps its own. -/
def claim? (s : Session) (n : Node) : Option Descriptor :=
  if n.flag "Abstract" = some true then none
  else
    match s.existing? n.name with
    | some h => s.db.types.get? h.type
    | none => defType? s.db.types n

def claims (s : Session) (n : Node) : Bool := (claim? s n).isSome

/-! Prevailing claims. -/

section

variable (p : Node → Bool) (policy : DuplicatePolicy)

/-- Some of the nodes claims the name. -/
def claimed (name : String) (ns : List Node) : Bool := ns.any fun m => p m && m.name == name

/-- A claim prevails as the first on its name, as the last, or as the only one. -/
def prevails (ns : List Node) (n : Node) (i : Nat) : Bool :=
  p n &&
    match policy with
    | .firstWins => !claimed p n.name (ns.take i)
    | .lastWins => !claimed p n.name (ns.drop (i + 1))
    | .rejectAll => !claimed p n.name (ns.take i) && !claimed p n.name (ns.drop (i + 1))

/-- The nodes whose claims prevail, in their order. -/
def winners (ns : List Node) : List Node :=
  (ns.zipIdx.filter fun (n, i) => prevails p policy ns n i).map Prod.fst

/-- The nodes whose claims do not. -/
def losers (ns : List Node) : List Node :=
  (ns.zipIdx.filter fun (n, i) => p n && !prevails p policy ns n i).map Prod.fst

end

/-- The complaint about a claim that does not prevail. -/
def duplicate (n : Node) : Diagnostic :=
  let source := (n.attr "Source").getD "<unknown source>"
  .error .resolution n.name s!"duplicate def ID '{n.name}'; node from {source} skipped"

section

variable {p : Node → Bool} {policy : DuplicatePolicy} {ns : List Node} {n : Node}

/-- Only claims prevail or are lost. -/
theorem claims_of_mem (h : n ∈ winners p policy ns ++ losers p policy ns) : p n = true := by
  rcases List.mem_append.mp h with h | h
  all_goals
    obtain ⟨⟨m, i⟩, hm, rfl⟩ := List.mem_map.mp h
    exact (Bool.and_eq_true_iff.mp (List.mem_filter.mp hm).2).1

/-- Every claim prevails or does not. -/
theorem length_winners_add_losers (p : Node → Bool) (policy : DuplicatePolicy) (ns : List Node) :
    (winners p policy ns).length + (losers p policy ns).length = (ns.filter p).length := by
  have hsplit (xs : List (Node × Nat)) :
      (xs.filter fun (n, i) => prevails p policy ns n i).length +
        (xs.filter fun (n, i) => p n && !prevails p policy ns n i).length =
        ((xs.map Prod.fst).filter p).length := by
    induction xs with
    | nil => rfl
    | cons x xs ih =>
      obtain ⟨n, i⟩ := x
      have hp : prevails p policy ns n i = true → p n = true := fun h =>
        (Bool.and_eq_true_iff.mp h).1
      cases hn : p n <;> cases hw : prevails p policy ns n i <;> simp_all <;> omega
  have hall := hsplit ns.zipIdx
  rw [List.zipIdx_map_fst] at hall
  simpa [winners, losers] using hall

end

/-! Candidates are claims. -/

section

variable {s : Session} {ns : List Node} {n : Node} {i : Nat}

/-- The claim of the node at an index. -/
def toCandidate (s : Session) (x : Node × Nat) : Option Candidate :=
  (claim? s x.1).map fun t => ⟨x.2, x.1, t, s.existing? x.1.name⟩

theorem namedDefType_toOption (types : TypeTable) (n : Node) :
    (namedDefType types n).toOption = defType? types n := by
  unfold namedDefType namedType defType?
  cases n.attr "Type" with
  | none => rfl
  | some name =>
    simp only [Option.bind_some, bind, Except.bind, pure, Except.pure]
    cases (types.resolve name).bind types.get? with
    | none => rfl
    | some t =>
      dsimp only
      cases habstract : t.isAbstract with
      | true => simp [habstract, Except.toOption, Option.filter]
      | false =>
        cases hdef : t.isDef with
        | true => simp [habstract, hdef, Except.toOption, Option.filter]
        | false => simp [habstract, hdef, Except.toOption, Option.filter]

theorem candidate_value (s : Session) (i : Nat) (n : Node) :
    (candidate s i n).value = toCandidate s (n, i) := by
  unfold candidate toCandidate claim?
  split
  · rfl
  · cases hex : s.existing? n.name with
    | some h =>
      dsimp only
      cases s.db.types.get? h.type <;> rfl
    | none =>
      dsimp only
      rw [← namedDefType_toOption]
      cases namedDefType s.db.types n <;> rfl

theorem candidates_value (s : Session) (i : Nat) (ns : List Node) :
    (candidates s i ns).value = (ns.zipIdx i).filterMap (toCandidate s) := by
  induction ns generalizing i with
  | nil => rfl
  | cons n ns ih =>
    rw [candidates_cons, candidate_value, ih, List.zipIdx_cons, List.filterMap_cons]
    cases toCandidate s (n, i) <;> rfl

theorem toCandidate_eq_some {x : Node × Nat} {c : Candidate} (h : toCandidate s x = some c) :
    c.index = x.2 ∧ c.node = x.1 ∧ claim? s x.1 = some c.type ∧ claims s x.1 = true := by
  obtain ⟨t, ht, rfl⟩ := Option.map_eq_some_iff.mp h
  exact ⟨rfl, rfl, ht, by rw [claims, ht]; rfl⟩

theorem toCandidate_eq_none {x : Node × Nat} (h : toCandidate s x = none) :
    claims s x.1 = false := by
  rw [claims, Option.map_eq_none_iff.mp h]
  rfl

/-! What the policy keeps. -/

/-- Of candidates of one name, a policy keeps the one that none comes before, or after. -/
theorem kept_split {policy : DuplicatePolicy} {xs ys : List Candidate} {c : Candidate}
    (hxs : ∀ x ∈ xs, x.index ≠ c.index) (hys : ∀ y ∈ ys, y.index ≠ c.index) :
    (some c.index == kept policy (xs ++ c :: ys)) =
      match policy with
      | .firstWins => xs.isEmpty
      | .lastWins => ys.isEmpty
      | .rejectAll => xs.isEmpty && ys.isEmpty := by
  cases policy with
  | firstWins =>
    cases xs with
    | nil => simp [kept]
    | cons x xs => simpa [kept] using (hxs x List.mem_cons_self).symm
  | lastWins =>
    rcases List.eq_nil_or_concat ys with rfl | ⟨ys, y, rfl⟩
    · simp [kept]
    · have hlast : (xs ++ c :: (ys ++ [y])).getLast? = some y := by
        rw [← List.cons_append, ← List.append_assoc, List.getLast?_concat]
      have hne : c.index ≠ y.index := (hys y (by simp)).symm
      have hnot : (some c.index == some y.index) = false := by simpa using hne
      rw [List.concat_eq_append, kept, hlast, Option.map_some, hnot]
      cases ys <;> rfl
  | rejectAll =>
    cases xs with
    | cons x xs => cases xs <;> simp [kept]
    | nil => cases ys <;> simp [kept]

theorem ofName_isEmpty (s : Session) (name : String) (xs : List (Node × Nat)) :
    (ofName (xs.filterMap (toCandidate s)) name).isEmpty =
      !claimed (claims s) name (xs.map Prod.fst) := by
  induction xs with
  | nil => rfl
  | cons x xs ih =>
    cases hx : toCandidate s x with
    | none =>
      have hnot := toCandidate_eq_none hx
      rw [List.filterMap_cons_none hx, ih]
      simp [claimed, hnot]
    | some c =>
      obtain ⟨-, hnode, -, hclaims⟩ := toCandidate_eq_some hx
      rw [List.filterMap_cons_some hx]
      by_cases hname : x.1.name = name
      · simp [ofName, claimed, hnode, hclaims, hname]
      · have hrest : ofName (c :: xs.filterMap (toCandidate s)) name =
            ofName (xs.filterMap (toCandidate s)) name := by
          simp [ofName, hnode, hname]
        rw [hrest, ih]
        simp [claimed, hname]

/-- The nodes before and after a node, with their indices. -/
theorem zipIdx_split (hx : (n, i) ∈ ns.zipIdx) :
    ns.zipIdx = (ns.take i).zipIdx ++ (n, i) :: (ns.drop (i + 1)).zipIdx (i + 1) := by
  obtain ⟨-, hlt, hn⟩ := List.mem_zipIdx hx
  have hlt' : i < ns.length := by omega
  have hget : ns[i] = n := by simpa using hn.symm
  have hsplit : ns = ns.take i ++ n :: ns.drop (i + 1) := by
    rw [← hget, ← List.drop_eq_getElem_cons hlt', List.take_append_drop]
  have hlength : (ns.take i).length = i := List.length_take_of_le (Nat.le_of_lt hlt')
  conv_lhs => rw [hsplit, List.zipIdx_append, hlength, Nat.zero_add, List.zipIdx_cons]

/-- A candidate is kept when its claim prevails. -/
theorem kept_iff_prevails {c : Candidate} (hx : (n, i) ∈ ns.zipIdx)
    (hc : toCandidate s (n, i) = some c) (policy : DuplicatePolicy) :
    (some c.index == kept policy (ofName (candidates s 0 ns).value c.node.name)) =
      prevails (claims s) policy ns n i := by
  obtain ⟨hindex, hnode, -, hclaims⟩ := toCandidate_eq_some hc
  have hindices {xs : List (Node × Nat)} (hxs : ∀ x ∈ xs, x.2 ≠ i) :
      ∀ c' ∈ ofName (xs.filterMap (toCandidate s)) n.name, c'.index ≠ c.index := by
    intro c' hc'
    obtain ⟨x, hx, hxc⟩ := List.mem_filterMap.mp (List.mem_of_mem_filter hc')
    rw [(toCandidate_eq_some hxc).1, hindex]
    exact hxs x hx
  have hcut : ofName (candidates s 0 ns).value c.node.name =
      ofName ((ns.take i).zipIdx.filterMap (toCandidate s)) n.name ++
        c :: ofName (((ns.drop (i + 1)).zipIdx (i + 1)).filterMap (toCandidate s)) n.name := by
    rw [candidates_value, zipIdx_split hx, hnode, List.filterMap_append,
      List.filterMap_cons_some hc]
    simp [ofName, hnode]
  rw [hcut, kept_split, ofName_isEmpty, ofName_isEmpty, List.zipIdx_map_fst, List.zipIdx_map_fst]
  · unfold prevails
    rw [show claims s n = true from hclaims, Bool.true_and]
  · exact hindices fun x hx => by
      have := List.mem_zipIdx hx
      simp at this
      omega
  · exact hindices fun x hx => by
      have := List.mem_zipIdx hx
      omega

/-- Filtering claims by what is known of their nodes. -/
theorem filter_toCandidate {xs : List (Node × Nat)} {q : Candidate → Bool}
    {r : Node × Nat → Bool} (h : ∀ x ∈ xs, ∀ c, toCandidate s x = some c → q c = r x) :
    (xs.filterMap (toCandidate s)).filter q = (xs.filter r).filterMap (toCandidate s) := by
  rw [List.filter_filterMap, List.filterMap_filter]
  refine List.filterMap_congr fun x hx => ?_
  cases hc : toCandidate s x with
  | none => simp
  | some c =>
    have hq := h x hx c hc
    cases hr : r x <;> simp [Option.filter, hq, hr]

/-- The nodes that become defs are those whose claims prevail. -/
theorem chosen_eq (s : Session) : chosen s =
    (s.master.root.children.zipIdx.filter fun (n, i) =>
      prevails (claims s) s.config.duplicates s.master.root.children n i).filterMap
        (toCandidate s) := by
  have hkept (x : Node × Nat) (hx : x ∈ s.master.root.children.zipIdx) (c : Candidate)
      (hc : toCandidate s x = some c) := kept_iff_prevails hx hc s.config.duplicates
  have hall := candidates_value s 0 s.master.root.children
  unfold chosen select
  generalize (candidates s 0 s.master.root.children).value = cs at hkept hall ⊢
  subst hall
  exact filter_toCandidate hkept

theorem map_node_toCandidate {xs : List (Node × Nat)} (h : ∀ x ∈ xs, claims s x.1 = true) :
    (xs.filterMap (toCandidate s)).map (·.node) = xs.map Prod.fst := by
  induction xs with
  | nil => rfl
  | cons x xs ih =>
    have hrest := ih fun y hy => h y (List.mem_cons_of_mem x hy)
    cases hx : toCandidate s x with
    | none =>
      have hnot := toCandidate_eq_none hx
      rw [h x List.mem_cons_self] at hnot
      cases hnot
    | some c =>
      rw [List.filterMap_cons_some hx, List.map_cons, List.map_cons, hrest,
        (toCandidate_eq_some hx).2.1]

/-- The chosen nodes are the winners. -/
theorem chosen_nodes (s : Session) : (chosen s).map (·.node) =
    winners (claims s) s.config.duplicates s.master.root.children := by
  rw [chosen_eq, map_node_toCandidate]
  · rfl
  · intro x hx
    exact (Bool.and_eq_true_iff.mp (List.mem_filter.mp hx).2).1

theorem chosen_claim {c : Candidate} (h : c ∈ chosen s) :
    claim? s c.node = some c.type ∧ c.existing = s.existing? c.node.name := by
  rw [chosen_eq] at h
  obtain ⟨x, -, hx⟩ := List.mem_filterMap.mp h
  obtain ⟨t, ht, rfl⟩ := Option.map_eq_some_iff.mp hx
  exact ⟨ht, rfl⟩

/-! What is said of the others. -/

theorem distinctNames_spec (cs : List Candidate) :
    (distinctNames cs).Nodup ∧ ∀ c ∈ cs, c.node.name ∈ distinctNames cs := by
  induction cs with
  | nil => exact ⟨List.nodup_nil, fun c hc => by cases hc⟩
  | cons c cs ih =>
    refine ⟨List.nodup_cons.mpr ⟨by simp, ih.1.filter _⟩, fun c' hc' => ?_⟩
    by_cases hname : c'.node.name = c.node.name
    · rw [hname]
      exact List.mem_cons_self
    · rcases List.mem_cons.mp hc' with rfl | hc'
      · exact absurd rfl hname
      · exact List.mem_cons_of_mem _ (List.mem_filter.mpr ⟨ih.2 c' hc', by simpa using hname⟩)

open scoped List in
/-- Candidates listed name by name. -/
theorem flatMap_ofName_perm {names : List String} (hnames : names.Nodup) {cs : List Candidate}
    (hcs : ∀ c ∈ cs, c.node.name ∈ names) : (names.flatMap (ofName cs)).Perm cs := by
  induction names generalizing cs with
  | nil =>
    rw [List.eq_nil_iff_forall_not_mem.mpr fun c hc => List.not_mem_nil (hcs c hc)]
    exact .nil
  | cons name names ih =>
    obtain ⟨hnot, hnames⟩ := List.nodup_cons.mp hnames
    let others := cs.filter fun c => !(c.node.name == name)
    have hsame : names.flatMap (ofName cs) = names.flatMap (ofName others) := by
      refine List.flatMap_congr fun other hother => ?_
      have hne : other ≠ name := fun he => hnot (he ▸ hother)
      simp only [ofName, others, List.filter_filter]
      refine List.filter_congr fun c _ => ?_
      by_cases hc : c.node.name = other <;> simp [hc, hne]
    have hothers : ∀ c ∈ others, c.node.name ∈ names := by
      intro c hc
      obtain ⟨hmem, hne⟩ := List.mem_filter.mp hc
      exact (List.mem_cons.mp (hcs c hmem)).resolve_left (by simpa using hne)
    calc (name :: names).flatMap (ofName cs)
      _ = ofName cs name ++ names.flatMap (ofName others) := by rw [List.flatMap_cons, hsame]
      _ ~ ofName cs name ++ others := (ih hnames hothers).append_left _
      _ ~ cs := List.filter_append_perm _ _

/-- The complaints of the selection are those about the losers. -/
theorem select_found (s : Session) :
    let ns := s.master.root.children
    ((select s.config.duplicates (candidates s 0 ns).value).found).Perm
      ((losers (claims s) s.config.duplicates ns).map duplicate) := by
  intro ns
  let policy := s.config.duplicates
  have hkept (x : Node × Nat) (hx : x ∈ ns.zipIdx) (c : Candidate)
      (hc : toCandidate s x = some c) := kept_iff_prevails hx hc policy
  have hall := candidates_value s 0 ns
  generalize (candidates s 0 ns).value = cs at hkept hall ⊢
  let lost (c : Candidate) : Bool := some c.index != kept policy (ofName cs c.node.name)
  let loses (x : Node × Nat) : Bool := claims s x.1 && !prevails (claims s) policy ns x.1 x.2
  have hlost : cs.filter lost = (ns.zipIdx.filter loses).filterMap (toCandidate s) := by
    rw [hall]
    refine filter_toCandidate fun x hx c hc => ?_
    simp only [lost, loses, bne, hkept x hx c hc, (toCandidate_eq_some hc).2.2.2, Bool.true_and]
  have hbyName (name : String) : (ofName cs name).filter (fun c =>
      some c.index != kept policy (ofName cs name)) = ofName (cs.filter lost) name := by
    simp only [ofName, List.filter_filter]
    refine List.filter_congr fun c _ => ?_
    by_cases hc : c.node.name = name
    · subst hc
      exact Bool.and_comm _ _
    · have hf : (c.node.name == name) = false := by simpa using hc
      simp only [hf, Bool.and_false, Bool.false_and]
  have hfound : (select policy cs).found =
      ((distinctNames cs).flatMap (ofName (cs.filter lost))).map skipped := by
    have hflat : (select policy cs).found = (distinctNames cs).flatMap fun name =>
        ((ofName cs name).filter fun c =>
          some c.index != kept policy (ofName cs name)).map skipped := List.append_nil _
    rw [hflat, List.map_flatMap]
    exact List.flatMap_congr fun name _ => by rw [hbyName]
  have hnodes : (cs.filter lost).map skipped = (losers (claims s) policy ns).map duplicate := by
    have hmap : (cs.filter lost).map (·.node) = losers (claims s) policy ns := by
      rw [hlost, map_node_toCandidate fun x hx =>
        (Bool.and_eq_true_iff.mp (List.mem_filter.mp hx).2).1]
      rfl
    rw [← hmap, List.map_map]
    rfl
  rw [hfound, ← hnodes]
  refine (flatMap_ofName_perm (distinctNames_spec cs).1 fun c hc => ?_).map skipped
  exact (distinctNames_spec cs).2 c (List.mem_of_mem_filter hc)

end

end DefLoad.Session
