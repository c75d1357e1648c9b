import DefLoad.Proofs.SelectorGrammar

/-!
Steps and whole selectors against the grammar: a text is read as a selector exactly when it spells
that selector.
-/

namespace DefLoad.Selector

open Text (isBlank skipBlanks)

section Steps

variable {cs rest : List Char}

/-- Nothing is left, or a slash comes next. -/
def AtSlash (cs : List Char) : Prop := ∀ c ∈ cs.head?, c = '/'

theorem AtSlash.stops {kind : Char → Bool} (h : AtSlash rest) (hslash : kind '/' = false) :
    Stops kind rest := by
  intro c hc
  rw [h c hc]
  exact hslash

theorem readPredicates_sound {n : Nat} {ps : List Predicate} (hn : cs.length < n)
    (h : ReadsTo (readPredicates n cs) ps rest) :
    ∃ w b, PredicatesText w ps ∧ Blanks b ∧ cs = w ++ (b ++ rest) := by
  induction n generalizing cs ps with
  | zero => omega
  | succ n ih =>
    obtain ⟨left, h, hleft⟩ := h
    obtain ⟨a, ha, hcut⟩ := exists_blanks cs
    unfold readPredicates at h
    split at h
    case h_1 inside hskip =>
      obtain ⟨⟨p, cs'⟩, hp, h⟩ := bind_eq_ok_iff.mp h
      obtain ⟨⟨ps', left'⟩, hps, h⟩ := bind_eq_ok_iff.mp h
      cases h
      obtain ⟨b, w, c, hb, hw, hc, rfl⟩ := readPredicate_iff.mp hp
      rw [hskip] at hcut
      have hshorter : cs'.length < n := by
        have := congrArg List.length hcut
        simp only [List.length_append, List.length_cons] at this
        omega
      obtain ⟨more, z, hmore, hz, rfl⟩ := ih hshorter ⟨left, hps, hleft⟩
      refine ⟨_, z, .cons ha hb hw hc .nil hmore, hz, ?_⟩
      rw [hcut]
      simp
    case h_2 =>
      cases h
      rw [skipBlanks_of_stops (stops_skipBlanks cs)] at hleft
      exact ⟨[], a, .nil, ha, hleft ▸ hcut⟩

theorem readPredicates_blanks {n : Nat} {ps : List Predicate} {a : List Char} (ha : Blanks a)
    (h : ReadsTo (readPredicates n cs) ps rest) : ReadsTo (readPredicates n (a ++ cs)) ps rest := by
  cases n with
  | zero =>
    obtain ⟨left, h, hleft⟩ := h
    cases h
    exact ⟨_, rfl, (skipBlanks_append ha cs).trans hleft⟩
  | succ n =>
    unfold readPredicates at h ⊢
    rwa [skipBlanks_append ha]

theorem readPredicates_complete {n : Nat} {ps : List Predicate} {w b : List Char}
    (hw : PredicatesText w ps) (hb : Blanks b) (hrest : AtSlash rest)
    (hn : (w ++ (b ++ rest)).length < n) :
    ReadsTo (readPredicates n (w ++ (b ++ rest))) ps rest := by
  induction hw generalizing n with
  | nil =>
    cases n with
    | zero => omega
    | succ n =>
      have hskip : skipBlanks (b ++ rest) = rest := by
        rw [skipBlanks_append hb, skipBlanks_of_stops (hrest.stops (by decide))]
      unfold readPredicates
      rw [List.nil_append, hskip]
      split
      case h_1 inside => exact absurd (hrest '[' rfl) (by decide)
      case h_2 => exact ⟨_, rfl, skipBlanks_of_stops (hrest.stops (by decide))⟩
  | @cons a c w d e more p ps ha hc hw hd he _ ih =>
    cases n with
    | zero => omega
    | succ n =>
      have hshorter : (more ++ (b ++ rest)).length < n := by
        simp only [List.length_append, List.length_cons] at hn ⊢
        omega
      obtain ⟨left, hmore, hleft⟩ := readPredicates_blanks he (ih hshorter)
      have hp : readPredicate (c ++ (w ++ (d ++ ']' :: (e ++ (more ++ (b ++ rest)))))) =
          .ok (p, e ++ (more ++ (b ++ rest))) :=
        readPredicate_iff.mpr ⟨c, w, d, hc, hw, hd, rfl⟩
      have hskip : skipBlanks
          ((a ++ '[' :: (c ++ (w ++ (d ++ ']' :: (e ++ more))))) ++ (b ++ rest)) =
          '[' :: (c ++ (w ++ (d ++ ']' :: (e ++ (more ++ (b ++ rest)))))) := by
        rw [List.append_assoc, skipBlanks_append ha, List.cons_append,
          skipBlanks_of_stops (.cons (by decide))]
        simp
      refine ⟨left, ?_, hleft⟩
      unfold readPredicates
      rw [hskip]
      simp only [hp, hmore, bind, Except.bind]
      rfl

theorem readStep_sound {d : Bool} {s : Step} (h : ReadsTo (readStep d cs) s rest) :
    ∃ a w b, Blanks a ∧ StepText d w s ∧ Blanks b ∧ cs = a ++ (w ++ (b ++ rest)) := by
  obtain ⟨left, h, hleft⟩ := h
  obtain ⟨⟨n, cs'⟩, hname, h⟩ := bind_eq_ok_iff.mp h
  obtain ⟨⟨ps, left'⟩, hps, h⟩ := bind_eq_ok_iff.mp h
  cases h
  obtain ⟨hn, -, hskip⟩ := readName_iff.mp hname
  obtain ⟨a, ha, hcut⟩ := exists_blanks cs
  obtain ⟨w, b, hw, hb, rfl⟩ := readPredicates_sound (Nat.lt_succ_self _) ⟨left, hps, hleft⟩
  refine ⟨a, n ++ w, b, ha, .step hn hw, hb, ?_⟩
  rw [hcut, hskip, List.append_assoc]

theorem readStep_complete {d : Bool} {s : Step} {a w b : List Char} (ha : Blanks a)
    (hw : StepText d w s) (hb : Blanks b) (hrest : AtSlash rest) :
    ReadsTo (readStep d (a ++ (w ++ (b ++ rest)))) s rest := by
  cases hw with
  | @step n w ps hn hps =>
    have hstop : Stops isNameChar (w ++ (b ++ rest)) := by
      cases hps with
      | nil =>
        have hend : Stops isNameChar rest := hrest.stops (by decide)
        rw [List.nil_append]
        exact .after_blanks (fun _ => isNameChar_of_isBlank) hb hend
      | cons ha _ _ _ _ _ =>
        rw [List.append_assoc]
        exact .after_blanks (fun _ => isNameChar_of_isBlank) ha (.cons (by decide))
    have hname : readName (n ++ (w ++ (b ++ rest))) = .ok (n, w ++ (b ++ rest)) :=
      readName_iff.mpr ⟨hn, hstop, rfl⟩
    obtain ⟨left, hread, hleft⟩ := readPredicates_complete hps hb hrest (Nat.lt_succ_self _)
    refine ⟨left, ?_, hleft⟩
    unfold readStep
    rw [skipBlanks_append ha, List.append_assoc,
      skipBlanks_of_stops (hn.stops (fun _ => isBlank_of_isNameChar) _)]
    simp only [hname, hread, bind, Except.bind]
    rfl

/-- The steps after one, from the slashes on. -/
def TailText (cs : List Char) (ss : List Step) : Prop :=
  cs = [] ∧ ss = [] ∨
    ∃ d b w, Blanks b ∧ StepsText Blanks d w ss ∧ cs = slashes d ++ (b ++ w)

theorem exists_slashes (d : Bool) (cs : List Char) : ∃ cs', slashes d ++ cs = '/' :: cs' := by
  cases d <;> exact ⟨_, rfl⟩

theorem TailText.atSlash {ss : List Step} (h : TailText cs ss) : AtSlash cs := by
  obtain ⟨rfl, -⟩ | ⟨d, b, w, -, -, rfl⟩ := h
  · simp [AtSlash]
  · obtain ⟨cs, hcs⟩ := exists_slashes d (b ++ w)
    simp [AtSlash, hcs]

theorem step_tail_sound {d : Bool} {s : Step} {ss : List Step}
    (h : ReadsTo (readStep d cs) s rest) (hrest : TailText rest ss) :
    ∃ a w, Blanks a ∧ StepsText Blanks d w (s :: ss) ∧ cs = a ++ w := by
  obtain ⟨a, w, b, ha, hw, hb, rfl⟩ := readStep_sound h
  obtain ⟨rfl, rfl⟩ | ⟨d', b', more, hb', hmore, rfl⟩ := hrest
  · refine ⟨a, w ++ b, ha, .last hw hb, by simp⟩
  · exact ⟨a, _, ha, .more hw hb hb' hmore, rfl⟩

theorem step_tail_complete {d : Bool} {ss : List Step} {a w : List Char} (ha : Blanks a)
    (hw : StepsText Blanks d w ss) :
    ∃ s ss' rest, ss = s :: ss' ∧ ReadsTo (readStep d (a ++ w)) s rest ∧ TailText rest ss' := by
  cases hw with
  | @last _ w z s hw hz =>
    have hread : ReadsTo (readStep d (a ++ (w ++ (z ++ [])))) s [] :=
      readStep_complete ha hw hz (by simp [AtSlash])
    rw [List.append_nil] at hread
    exact ⟨s, [], [], rfl, hread, .inl ⟨rfl, rfl⟩⟩
  | @more _ d' w g b more s ss' hw hg hb hmore =>
    have htail : TailText (slashes d' ++ (b ++ more)) ss' := .inr ⟨d', b, more, hb, hmore, rfl⟩
    exact ⟨s, ss', _, rfl, readStep_complete ha hw hg htail.atSlash, htail⟩

theorem StepText.head {d : Bool} {w : List Char} {s : Step} (hs : StepText d w s) :
    ∃ c w', w = c :: w' ∧ isNameChar c = true := by
  cases hs with
  | @step n w ps hn _ =>
    obtain ⟨c, n', rfl, hc⟩ := hn.head
    exact ⟨c, n' ++ w, rfl, hc⟩

theorem StepsText.head {gap : List Char → Prop} {d : Bool} {w : List Char} {ss : List Step}
    (hw : StepsText gap d w ss) : ∃ c w', w = c :: w' ∧ isNameChar c = true := by
  cases hw with
  | last hs _ =>
    obtain ⟨c, w', rfl, hc⟩ := hs.head
    exact ⟨c, _, rfl, hc⟩
  | more hs _ _ _ =>
    obtain ⟨c, w', rfl, hc⟩ := hs.head
    exact ⟨c, _, rfl, hc⟩

theorem StepsText.stops {gap : List Char → Prop} {kind : Char → Bool} {d : Bool} {w : List Char}
    {ss : List Step} (hw : StepsText gap d w ss)
    (hkind : ∀ c, isNameChar c = true → kind c = false) : Stops kind w := by
  obtain ⟨c, w', rfl, hc⟩ := hw.head
  exact .cons (hkind c hc)

theorem StepsText.stops_slash {gap : List Char → Prop} {d : Bool} {w b : List Char}
    {ss : List Step} (hw : StepsText gap d w ss) (hb : Blanks b) : Stops (· == '/') (b ++ w) :=
  .after_blanks (fun _ hc => beq_eq_false_of_kind hc (by decide)) hb
    (hw.stops fun _ hc => beq_eq_false_of_kind hc (by decide))

theorem readMoreSteps_slashes {n : Nat} {d : Bool} (h : d = false → Stops (· == '/') cs) :
    readMoreSteps (n + 1) (slashes d ++ cs) = readMoreSteps.follow n d cs := by
  cases d with
  | true => simp [slashes, readMoreSteps]
  | false =>
    cases cs with
    | nil => simp [slashes, readMoreSteps]
    | cons c cs =>
      have hc : c ≠ '/' := by simpa using h rfl c rfl
      simp [slashes, readMoreSteps, hc]

theorem readMoreSteps_sound {n : Nat} {ss : List Step} {left : List Char}
    (h : readMoreSteps n cs = .ok (ss, left)) : TailText cs ss := by
  induction n generalizing cs ss left with
  | zero => simp [readMoreSteps] at h
  | succ n ih =>
    have hfollow {d : Bool} {cs : List Char} (h : readMoreSteps.follow n d cs = .ok (ss, left)) :
        ∃ b w, Blanks b ∧ StepsText Blanks d w ss ∧ cs = b ++ w := by
      unfold readMoreSteps.follow at h
      obtain ⟨⟨s, rest⟩, hs, h⟩ := bind_eq_ok_iff.mp h
      obtain ⟨⟨ss', left'⟩, hss, h⟩ := bind_eq_ok_iff.mp h
      cases h
      exact step_tail_sound ⟨rest, hs, rfl⟩ (ih hss)
    unfold readMoreSteps at h
    split at h
    case h_1 =>
      cases h
      exact .inl ⟨rfl, rfl⟩
    case h_2 =>
      obtain ⟨b, w, hb, hw, rfl⟩ := hfollow h
      exact .inr ⟨true, b, w, hb, hw, rfl⟩
    case h_3 =>
      obtain ⟨b, w, hb, hw, rfl⟩ := hfollow h
      exact .inr ⟨false, b, w, hb, hw, rfl⟩
    case h_4 => cases h

theorem readMoreSteps_complete {n : Nat} {ss : List Step} (h : TailText cs ss)
    (hn : cs.length < n) : ∃ left, readMoreSteps n cs = .ok (ss, left) := by
  induction n generalizing cs ss with
  | zero => omega
  | succ n ih =>
    obtain ⟨rfl, rfl⟩ | ⟨d, b, w, hb, hw, rfl⟩ := h
    · exact ⟨[], by simp [readMoreSteps]⟩
    · obtain ⟨s, ss', rest, rfl, hstep, htail⟩ := step_tail_complete hb hw
      have hshorter : rest.length < n := by
        obtain ⟨a, w', b', -, -, -, hcut⟩ := readStep_sound hstep
        rw [hcut] at hn
        have hslash : 1 ≤ (slashes d).length := by cases d <;> decide
        simp only [List.length_append] at hn
        omega
      obtain ⟨left, hmore⟩ := ih htail hshorter
      obtain ⟨mid, hread, hmid⟩ := hstep
      refine ⟨left, ?_⟩
      rw [readMoreSteps_slashes fun _ => hw.stops_slash hb]
      simp only [readMoreSteps.follow, hread, hmid, hmore, bind, Except.bind]
      rfl

/-- A text without blanks in front is steps, with or without slashes in front of them. -/
theorem readSteps_iff {ss : List Step} (hne : cs ≠ []) (hstart : Stops isBlank cs) :
    readSteps cs = .ok ss ↔
      (∃ d b w, Blanks b ∧ StepsText Blanks d w ss ∧ cs = slashes d ++ (b ++ w)) ∨
        StepsText Blanks false cs ss := by
  constructor
  · intro h
    unfold readSteps at h
    split at h
    case h_1 cs =>
      left
      cases hmore : readMoreSteps (('/' :: cs).length + 1) ('/' :: cs) with
      | error f => rw [hmore] at h; cases h
      | ok found =>
        rw [hmore] at h
        cases h
        exact (readMoreSteps_sound hmore).resolve_left fun h => hne h.1
    case h_2 =>
      right
      obtain ⟨⟨s, rest⟩, hs, h⟩ := bind_eq_ok_iff.mp h
      obtain ⟨⟨ss', left⟩, hss, h⟩ := bind_eq_ok_iff.mp h
      cases h
      obtain ⟨a, w, ha, hw, rfl⟩ := step_tail_sound ⟨rest, hs, rfl⟩ (readMoreSteps_sound hss)
      cases a with
      | nil => exact hw
      | cons c a => exact absurd ((ha c (by simp)).symm.trans (hstart c rfl)) (by decide)
  · rintro (⟨d, b, w, hb, hw, rfl⟩ | hw)
    · have htail : TailText (slashes d ++ (b ++ w)) ss := .inr ⟨d, b, w, hb, hw, rfl⟩
      obtain ⟨left, hmore⟩ := readMoreSteps_complete htail (Nat.lt_succ_self _)
      obtain ⟨cs, hcs⟩ := exists_slashes d (b ++ w)
      rw [hcs] at hmore ⊢
      simp only [readSteps, hmore]
      rfl
    · obtain ⟨s, ss', rest, rfl, ⟨mid, hread, hmid⟩, htail⟩ := step_tail_complete .nil hw
      subst hmid
      obtain ⟨left, hmore⟩ := readMoreSteps_complete (n := mid.length + 1) htail
        (Nat.lt_succ_of_le (Text.skipBlanks_length mid))
      rw [List.nil_append] at hread
      have hslash (cs' : List Char) : cs ≠ '/' :: cs' := by
        rintro rfl
        exact absurd (hw.stops_slash .nil '/' rfl) (by decide)
      unfold readSteps
      split
      case h_1 cs' => exact absurd rfl (hslash cs')
      case h_2 =>
        simp only [hread, hmore, bind, Except.bind]
        rfl

end Steps

theorem parse_of_skipBlanks {source : String} {a : Selector} {c : Char} {cs : List Char}
    (hskip : skipBlanks source.toList = c :: cs) :
    parse source = .ok a ↔ a.absolute = (c == '/') ∧ readSteps (c :: cs) = .ok a.steps := by
  unfold parse
  simp only [hskip]
  cases a with
  | mk absolute steps =>
    cases readSteps (c :: cs) with
    | error f => simp
    | ok ss => simp [eq_comm]

/-- What is read is what the text spells. Blanks may stand in front of every slash. -/
theorem parse_eq_ok_iff (source : String) (a : Selector) :
    parse source = .ok a ↔ SelectorText Blanks source.toList a := by
  constructor
  · intro h
    obtain ⟨blank, hblank, hcut⟩ := exists_blanks source.toList
    have hstop := stops_skipBlanks source.toList
    cases hskip : skipBlanks source.toList with
    | nil => simp [parse, hskip] at h
    | cons c cs =>
      rw [hskip] at hcut hstop
      rw [hcut]
      obtain ⟨habsolute, hsteps⟩ := (parse_of_skipBlanks hskip).mp h
      obtain ⟨absolute, ss⟩ := a
      obtain ⟨d, b, w, hb, hw, hcs⟩ | hw := (readSteps_iff (by simp) hstop).mp hsteps
      · have hc : c = '/' := by cases d <;> exact (List.cons.inj hcs).1
        obtain rfl : absolute = true := by simpa [hc] using habsolute
        rw [hcs]
        exact .absolute hblank hb hw
      · have hc : (c == '/') = false := hw.stops_slash .nil c rfl
        obtain rfl : absolute = false := habsolute.trans hc
        exact .relative hblank hw
  · intro h
    generalize hsource : source.toList = text at h
    cases h with
    | @relative blank w ss hblank hw =>
      have hstop : Stops isBlank w := hw.stops fun _ => isBlank_of_isNameChar
      obtain ⟨c, w, rfl, -⟩ := hw.head
      have hskip : skipBlanks source.toList = c :: w := by
        rw [hsource, skipBlanks_append hblank, skipBlanks_of_stops hstop]
      refine (parse_of_skipBlanks hskip).mpr ⟨(hw.stops_slash .nil c rfl).symm, ?_⟩
      exact (readSteps_iff (by simp) hstop).mpr (.inr hw)
    | @absolute blank b w d ss hblank hb hw =>
      obtain ⟨cs, hcs⟩ := exists_slashes d (b ++ w)
      have hstop : Stops isBlank ('/' :: cs) := .cons (by decide)
      have hskip : skipBlanks source.toList = '/' :: cs := by
        rw [hsource, hcs, skipBlanks_append hblank, skipBlanks_of_stops hstop]
      refine (parse_of_skipBlanks hskip).mpr ⟨rfl, ?_⟩
      exact (readSteps_iff (by simp) hstop).mpr (.inl ⟨d, b, w, hb, hw, hcs.symm⟩)

/-- A grammar without blanks between a step and the next slash misses a text that is read. -/
theorem parse_blank_before_slash :
    ∃ a, parse "a /b" = .ok a ∧ ¬SelectorText (· = []) "a /b".toList a := by
  refine ⟨⟨false, [⟨false, .named "a", []⟩, ⟨false, .named "b", []⟩]⟩, by cbv, ?_⟩
  intro h
  generalize htext : "a /b".toList = text at h
  have hchars : text = ['a', ' ', '/', 'b'] := htext.symm
  cases h with
  | @relative blank _ _ hblank hsteps =>
    cases hsteps with
    | @more _ d' _ g b more _ _ hstep hgap _ _ =>
      subst hgap
      obtain ⟨cs, hcs⟩ := exists_slashes d' (b ++ more)
      generalize hs : (⟨false, .named "a", []⟩ : Step) = s at hstep
      cases hstep with
      | @step n w ps hn hps =>
        obtain rfl : ps = [] := by simpa using (congrArg Step.predicates hs).symm
        cases hps
        simp only [List.append_nil, List.nil_append, hcs] at hchars
        -- the name has to end at the blank, where no slash stands
        cases blank with
        | cons c _ =>
          have hc : isBlank c = true := hblank c (by simp)
          rw [(List.cons.inj hchars).1] at hc
          exact absurd hc (by decide)
        | nil =>
          obtain ⟨c, n, rfl, -⟩ := hn.head
          have hrest : n ++ '/' :: cs = [' ', '/', 'b'] := (List.cons.inj hchars).2
          cases n with
          | nil => exact absurd (List.cons.inj hrest).1 (by decide)
          | cons c' n =>
            have hc' : isNameChar c' = true := hn.chars c' (by simp)
            rw [(List.cons.inj hrest).1] at hc'
            exact absurd hc' (by decide)

end DefLoad.Selector
