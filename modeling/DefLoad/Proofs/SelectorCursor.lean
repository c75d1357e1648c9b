import DefLoad.Proofs.SelectorReading

/-!
The reader of selectors on byte offsets. Every look at the text cuts it at an offset, which fails
inside of a character, and every loop has a bound. No run ends in either way: the cursor comes to
what the reader on characters comes to.
-/

namespace DefLoad.Selector

open Text (isBlank skipBlanks isDecimalDigit)

namespace Cursor

/-- Why a run ends without a selector. -/
inductive Halt
  /-- The text is cut inside of a character or behind its end. -/
  | cut
  /-- A loop has not come to its end within the bound. -/
  | bound
  | refused (error : SelectorError)
deriving DecidableEq, Repr

/-- The text before and from a byte offset. -/
def cutAt : List Char → Nat → Option (List Char × List Char)
  | cs, 0 => some ([], cs)
  | [], _ + 1 => none
  | c :: cs, n + 1 =>
    if c.utf8Size ≤ n + 1 then
      (cutAt cs (n + 1 - c.utf8Size)).map fun (before, rest) => (c :: before, rest)
    else none

section

variable (source : String)

def size : Nat := utf8Length source.toList

/-- A loop takes a character each time, so it comes round at most once more than there are
characters. -/
def bound : Nat := source.toList.length + 1

def sliceFrom (start : Nat) : Except Halt (List Char) :=
  match cutAt source.toList start with
  | some (_, rest) => .ok rest
  | none => .error .cut

def slice (start stop : Nat) : Except Halt (List Char) := do
  let rest ← sliceFrom source start
  match cutAt rest (stop - start) with
  | some (w, _) => if start ≤ stop then return w else .error .cut
  | none => .error .cut

def peek (pos : Nat) : Except Halt (Option Char) := do
  let rest ← sliceFrom source pos
  return rest.head?

def unexpected {α : Type} (pos : Nat) : Except Halt α := do
  match ← peek source pos with
  | some c => .error (.refused (.unexpected source pos c))
  | none => .error (.refused (.unexpectedEnd source))

def eat (c : Char) (pos : Nat) : Except Halt (Bool × Nat) := do
  let found ← peek source pos
  if found = some c then return (true, pos + c.utf8Size) else return (false, pos)

def eatIf (allowed : Bool) (c : Char) (pos : Nat) : Except Halt (Bool × Nat) :=
  if allowed then eat source c pos else .ok (false, pos)

def expect (c : Char) (pos : Nat) : Except Halt (Unit × Nat) := do
  let (found, pos) ← eat source c pos
  if found then return ((), pos) else unexpected source pos

/-- Goes on by a width for every character of a kind. -/
def goWhile (kind : Char → Bool) (width : Char → Nat) : Nat → Nat → Except Halt Nat
  | 0, _ => .error .bound
  | n + 1, pos => do
    match ← peek source pos with
    | some c => if kind c then goWhile kind width n (pos + width c) else return pos
    | none => return pos

def skip (pos : Nat) : Except Halt Nat :=
  goWhile source isBlank Char.utf8Size (bound source) pos

def name (pos : Nat) : Except Halt (List Char × Nat) := do
  let stop ← goWhile source isNameChar Char.utf8Size (bound source) pos
  if stop = pos then unexpected source pos
  else
    let w ← slice source pos stop
    return (w, stop)

/-- The offset of a character in a text. -/
def find (q : Char) : List Char → Option Nat
  | [] => none
  | c :: cs => if c = q then some 0 else (find q cs).map (· + c.utf8Size)

/-- A literal after its opening quote. -/
def literal (q : Char) (start : Nat) : Except Halt (List Char × Nat) := do
  let rest ← sliceFrom source start
  match find q rest with
  | none => .error (.refused (.unexpectedEnd source))
  | some length =>
    let w ← slice source start (start + length)
    return (w, start + length + 1)

def equals (pos : Nat) : Except Halt (Option String × Nat) := do
  let pos ← skip source pos
  let (found, pos) ← eat source '=' pos
  if found then
    let pos ← skip source pos
    match ← peek source pos with
    | some q =>
      if q = '\x27' || q = '"' then
        let (w, pos) ← literal source q (pos + 1)
        return (some (String.ofList w), pos)
      else unexpected source pos
    | none => .error (.refused (.unexpectedEnd source))
  else return (none, pos)

def position (pos : Nat) : Except Halt (Predicate × Nat) := do
  let stop ← goWhile source isDecimalDigit (fun _ => 1) (bound source) pos
  let w ← slice source pos stop
  let n := Decimal.ofDigits w
  if n = 0 || greatestPosition < n then .error (.refused (.zeroPosition source))
  else return (.position n, stop)

def attr (pos : Nat) : Except Halt (Predicate × Nat) := do
  let (key, pos) ← name source pos
  let (value, pos) ← equals source pos
  return (attrTest (String.ofList key) value, pos)

def text (pos : Nat) : Except Halt (Predicate × Nat) := do
  let ((), pos) ← expect source ')' pos
  let (value, pos) ← equals source pos
  match value with
  | some v => return (.textEquals v, pos)
  | none => unexpected source pos

def child (pos : Nat) : Except Halt (Predicate × Nat) := do
  let (w, pos) ← name source pos
  let (called, pos) ← eatIf source (String.ofList w == "text") '(' pos
  if called then text source pos
  else
    let (value, pos) ← equals source pos
    return (childTest (String.ofList w) value, pos)

def inside (pos : Nat) : Except Halt (Predicate × Nat) := do
  match ← peek source pos with
  | none => .error (.refused (.unexpectedEnd source))
  | some c =>
    if isDecimalDigit c then position source pos
    else if c = '@' then attr source (pos + 1)
    else child source pos

def predicate (pos : Nat) : Except Halt (Predicate × Nat) := do
  let pos ← skip source pos
  let (p, pos) ← inside source pos
  let pos ← skip source pos
  let ((), pos) ← expect source ']' pos
  return (p, pos)

def predicates : Nat → Nat → Except Halt (List Predicate × Nat)
  | 0, _ => .error .bound
  | n + 1, pos => do
    let pos ← skip source pos
    let (found, pos) ← eat source '[' pos
    if found then
      let (p, pos) ← predicate source pos
      let (ps, pos) ← predicates n pos
      return (p :: ps, pos)
    else return ([], pos)

def step (descend : Bool) (pos : Nat) : Except Halt (Step × Nat) := do
  let pos ← skip source pos
  let (w, pos) ← name source pos
  let (ps, pos) ← predicates source (bound source) pos
  return (⟨descend, nameTest (String.ofList w), ps⟩, pos)

/-- A step, and unless the text is over what the rest of the loop gives. -/
def stepAnd (next : Nat → Except Halt (List Step × Nat)) (descend : Bool) (pos : Nat) :
    Except Halt (List Step × Nat) := do
  let (s, pos) ← step source descend pos
  let pos ← skip source pos
  if size source ≤ pos then return ([s], pos)
  else
    let (ss, pos) ← next pos
    return (s :: ss, pos)

/-- Only the first step may be without a slash. -/
def steps : Nat → Bool → Nat → Except Halt (List Step × Nat)
  | 0, _, _ => .error .bound
  | n + 1, first, pos => do
    let (slash, pos) ← eat source '/' pos
    if slash then
      let (descend, pos) ← eat source '/' pos
      stepAnd source (steps n false) descend pos
    else if first then stepAnd source (steps n false) false pos
    else return ([], pos)

/-- Steps are all of the text. -/
def finish (found : List Step × Nat) : Except Halt (List Step × Nat) := do
  match ← peek source found.2 with
  | some _ => unexpected source found.2
  | none => return found

def parse : Except Halt Selector := do
  let pos ← skip source 0
  if size source ≤ pos then .error (.refused .empty)
  else
    let first ← peek source pos
    let (ss, _) ← steps source (bound source) true pos >>= finish source
    return ⟨first == some '/', ss⟩

end

/-! ### Offsets of characters -/

/-- An offset cuts the text exactly where a character begins or the text ends. -/
theorem cutAt_eq_some_iff {cs before rest : List Char} {n : Nat} :
    cutAt cs n = some (before, rest) ↔ cs = before ++ rest ∧ utf8Length before = n := by
  induction cs generalizing before n with
  | nil =>
    cases n with
    | zero => cases before <;> simp [cutAt, eq_comm]
    | succ n => cases before <;> simp [cutAt]
  | cons c cs ih =>
    have hpos := c.utf8Size_pos
    cases n with
    | zero =>
      cases before with
      | nil => simp [cutAt, eq_comm]
      | cons d before =>
        simp only [cutAt, Option.some.injEq, Prod.mk.injEq, reduceCtorEq, false_and, false_iff]
        rintro ⟨hcs, hsize⟩
        cases hcs
        rw [utf8Length_cons] at hsize
        omega
    | succ n =>
      cases before with
      | nil => simp [cutAt]
      | cons d before =>
        have hsize : c.utf8Size ≤ n + 1 ∧ utf8Length before = n + 1 - c.utf8Size ↔
            c.utf8Size + utf8Length before = n + 1 := by omega
        by_cases hle : c.utf8Size ≤ n + 1
        · simp only [hle, true_and] at hsize
          simp [cutAt, hle, ih, hsize]
          grind
        · simp only [hle, false_and, false_iff] at hsize
          simp only [cutAt, hle, if_false, reduceCtorEq, false_iff]
          rintro ⟨hcs, hlength⟩
          cases hcs
          exact hsize ((utf8Length_cons ..).symm.trans hlength)

/-- The offset has these characters behind it. -/
def At (source : String) (pos : Nat) (rest : List Char) : Prop :=
  ∃ before, source.toList = before ++ rest ∧ utf8Length before = pos

section

variable {source : String} {pos : Nat} {rest : List Char}

theorem At.start (source : String) : At source 0 source.toList := ⟨[], rfl, rfl⟩

theorem At.forward {w : List Char} (h : At source pos (w ++ rest)) :
    At source (pos + utf8Length w) rest := by
  obtain ⟨before, hcut, rfl⟩ := h
  exact ⟨before ++ w, by rw [hcut, List.append_assoc], utf8Length_append ..⟩

theorem At.next {c : Char} (h : At source pos (c :: rest)) : At source (pos + c.utf8Size) rest := by
  simpa using h.forward (w := [c])

theorem At.sliceFrom (h : At source pos rest) : sliceFrom source pos = .ok rest := by
  obtain ⟨before, hcut, hsize⟩ := h
  rw [Cursor.sliceFrom, cutAt_eq_some_iff.mpr ⟨hcut, hsize⟩]

theorem At.peek (h : At source pos rest) : peek source pos = .ok rest.head? := by
  rw [Cursor.peek, h.sliceFrom]
  rfl

theorem At.slice {w : List Char} (h : At source pos (w ++ rest)) :
    slice source pos (pos + utf8Length w) = .ok w := by
  have hcut : cutAt (w ++ rest) (utf8Length w) = some (w, rest) :=
    cutAt_eq_some_iff.mpr ⟨rfl, rfl⟩
  simp [Cursor.slice, h.sliceFrom, hcut, bind, Except.bind, pure, Except.pure]

theorem At.atEnd_iff (h : At source pos rest) : size source ≤ pos ↔ rest = [] := by
  obtain ⟨before, hcut, rfl⟩ := h
  rw [size, hcut, utf8Length_append]
  cases rest with
  | nil => simp
  | cons c rest =>
    have hpos := c.utf8Size_pos
    simp only [utf8Length_cons, reduceCtorEq, iff_false]
    omega

theorem At.length_lt_bound (h : At source pos rest) : rest.length < bound source := by
  obtain ⟨before, hcut, -⟩ := h
  rw [bound, hcut, List.length_append]
  omega

theorem At.goWhile {kind : Char → Bool} {width : Char → Nat}
    (hwidth : ∀ c, kind c = true → width c = c.utf8Size) {n : Nat} (h : At source pos rest)
    (hn : rest.length < n) :
    goWhile source kind width n pos = .ok (pos + utf8Length (rest.takeWhile kind)) := by
  induction n generalizing pos rest with
  | zero => omega
  | succ n ih =>
    cases rest with
    | nil => simp [Cursor.goWhile, h.peek, bind, Except.bind, pure, Except.pure]
    | cons c rest =>
      simp only [Cursor.goWhile, h.peek, List.head?_cons, bind, Except.bind]
      cases hc : kind c with
      | false => simp [hc, pure, Except.pure]
      | true =>
        rw [List.length_cons] at hn
        rw [if_pos rfl, hwidth c hc, ih h.next (by omega), List.takeWhile_cons, hc, if_pos rfl,
          utf8Length_cons, Nat.add_assoc]

/-- The place of a fault is a place of the text. -/
def Located (source : String) : Fault → Prop
  | .at rest => ∃ pos, At source pos rest
  | .zeroPosition => True

/-- Both runs come to the same end, at the same place of the text. -/
inductive Follows (source : String) {α : Type} :
    Except Halt (α × Nat) → Except Fault (α × List Char) → Prop
  | ok {a : α} {pos : Nat} {rest : List Char} : At source pos rest →
      Follows source (.ok (a, pos)) (.ok (a, rest))
  | fault {f : Fault} : Located source f →
      Follows source (.error (.refused (f.toError source))) (.error f)

section

variable {α β : Type} {x : Except Halt (α × Nat)} {y : Except Fault (α × List Char)}
  {f : α × Nat → Except Halt (β × Nat)} {g : α × List Char → Except Fault (β × List Char)}

theorem Follows.bind_eq (h : Follows source x y)
    (hnext : ∀ a pos rest, At source pos rest → y = .ok (a, rest) →
      Follows source (f (a, pos)) (g (a, rest))) : Follows source (x >>= f) (y >>= g) := by
  cases h with
  | ok hat => exact hnext _ _ _ hat rfl
  | fault hlocated => exact .fault hlocated

theorem Follows.bind (h : Follows source x y)
    (hnext : ∀ a pos rest, At source pos rest → Follows source (f (a, pos)) (g (a, rest))) :
    Follows source (x >>= f) (y >>= g) := h.bind_eq fun a pos rest hat _ => hnext a pos rest hat

theorem Follows.map (h : Follows source x y) (f : α → β) :
    Follows source (do let (a, pos) ← x; return (f a, pos))
      (y.map fun (a, rest) => (f a, rest)) := by
  cases h with
  | ok hat => exact .ok hat
  | fault hlocated => exact .fault hlocated

end

theorem At.unexpected {α : Type} (h : At source pos rest) :
    Follows (α := α) source (Cursor.unexpected source pos) (.error (.at rest)) := by
  have hend : Cursor.unexpected (α := α × Nat) source pos =
      .error (.refused ((Fault.at rest).toError source)) := by
    simp only [Cursor.unexpected, h.peek, bind, Except.bind]
    cases rest with
    | nil => rfl
    | cons c rest =>
      obtain ⟨before, hcut, rfl⟩ := h
      have hoffset : utf8Length source.toList - utf8Length (c :: rest) = utf8Length before := by
        rw [hcut, utf8Length_append]
        omega
      simp only [List.head?_cons, Fault.toError, hoffset]
  rw [hend]
  exact .fault ⟨pos, h⟩

theorem At.unexpectedEnd {α : Type} (h : At source pos rest) :
    Follows (α := α) source (.error (.refused (.unexpectedEnd source))) (.error (.at [])) := by
  have hend : At source (pos + utf8Length rest) [] := by
    rw [← List.append_nil rest] at h
    exact h.forward
  exact .fault (f := .at []) ⟨_, hend⟩

theorem At.skip (h : At source pos rest) :
    ∃ stop, skip source pos = .ok stop ∧ At source stop (skipBlanks rest) := by
  refine ⟨_, h.goWhile (fun _ _ => rfl) h.length_lt_bound, ?_⟩
  rw [← List.takeWhile_append_dropWhile (p := isBlank) (l := rest)] at h
  exact h.forward

theorem At.skip_bind {α : Type} {f : Nat → Except Halt (α × Nat)}
    {y : Except Fault (α × List Char)} (h : At source pos rest)
    (hnext : ∀ stop, At source stop (skipBlanks rest) → Follows source (f stop) y) :
    Follows source (Cursor.skip source pos >>= f) y := by
  obtain ⟨stop, hskip, hstop⟩ := h.skip
  rw [hskip]
  exact hnext stop hstop

theorem At.eat_cons {c : Char} (h : At source pos (c :: rest)) :
    eat source c pos = .ok (true, pos + c.utf8Size) := by
  simp [eat, h.peek, bind, Except.bind, pure, Except.pure]

theorem At.eat_other {c : Char} (h : At source pos rest) (hc : ∀ cs, rest ≠ c :: cs) :
    eat source c pos = .ok (false, pos) := by
  have hhead : rest.head? ≠ some c := by
    cases rest with
    | nil => simp
    | cons d rest => simpa using fun hd => hc rest (by rw [hd])
  simp [eat, h.peek, hhead, bind, Except.bind, pure, Except.pure]

theorem At.expect (c : Char) (h : At source pos rest) :
    Follows source (Cursor.expect source c pos) (Selector.expect c rest) := by
  unfold Cursor.expect
  cases rest with
  | nil =>
    rw [h.eat_other (by simp)]
    exact h.unexpected
  | cons d rest =>
    by_cases hd : d = c
    · subst hd
      rw [h.eat_cons, Selector.expect, if_pos rfl]
      exact .ok h.next
    · rw [h.eat_other (by simp [hd]), Selector.expect, if_neg hd]
      exact h.unexpected

theorem At.name (h : At source pos rest) :
    Follows source (Cursor.name source pos) (readName rest) := by
  have hstop : Cursor.goWhile source isNameChar Char.utf8Size (bound source) pos =
      .ok (pos + utf8Length (rest.takeWhile isNameChar)) :=
    h.goWhile (fun _ _ => rfl) h.length_lt_bound
  have hcut := List.takeWhile_append_dropWhile (p := isNameChar) (l := rest)
  unfold Cursor.name readName
  rw [hstop]
  generalize rest.takeWhile isNameChar = w at hcut
  generalize rest.dropWhile isNameChar = left at hcut
  subst hcut
  cases w with
  | nil =>
    simp only [bind, Except.bind, utf8Length_nil, Nat.add_zero, if_true]
    exact h.unexpected
  | cons c w =>
    have hmoved : pos + utf8Length (c :: w) ≠ pos := by
      have hpos := c.utf8Size_pos
      rw [utf8Length_cons]
      omega
    simp only [bind, Except.bind, if_neg hmoved, h.slice]
    exact .ok h.forward

theorem find_of_notMem {q : Char} {cs : List Char} (hq : q ∉ cs) :
    find q cs = none ∧ readLiteral q cs = .error (.at []) := by
  induction cs with
  | nil => exact ⟨rfl, rfl⟩
  | cons c cs ih =>
    rw [List.mem_cons, not_or] at hq
    obtain ⟨hfind, hread⟩ := ih hq.2
    simp [find, readLiteral, Ne.symm hq.1, hfind, hread, Except.map]

theorem find_append {q : Char} {w : List Char} (hq : q ∉ w) (cs : List Char) :
    find q (w ++ q :: cs) = some (utf8Length w) := by
  induction w with
  | nil => simp [find]
  | cons c w ih =>
    rw [List.mem_cons, not_or] at hq
    rw [List.cons_append, find, if_neg (Ne.symm hq.1), ih hq.2, Option.map_some, utf8Length_cons,
      Nat.add_comm]

theorem At.literal {q : Char} (hq : q.utf8Size = 1) (h : At source pos rest) :
    Follows source (Cursor.literal source q pos) (readLiteral q rest) := by
  unfold Cursor.literal
  rw [h.sliceFrom]
  by_cases hmem : q ∈ rest
  · obtain ⟨w, cs, rfl, hw⟩ := List.eq_append_cons_of_mem hmem
    have hclosed := h.forward.next
    rw [hq] at hclosed
    rw [readLiteral_iff.mpr ⟨hw, rfl⟩]
    simp only [bind, Except.bind, find_append hw, h.slice]
    exact .ok hclosed
  · obtain ⟨hfind, hread⟩ := find_of_notMem hmem
    rw [hread]
    simp only [hfind, bind, Except.bind]
    exact h.unexpectedEnd

theorem At.equals (h : At source pos rest) :
    Follows source (Cursor.equals source pos) (readEquals rest) := by
  obtain ⟨start, hskip, hstart⟩ := h.skip
  unfold Cursor.equals
  rw [hskip]
  by_cases hsign : ∃ cs, skipBlanks rest = '=' :: cs
  · obtain ⟨cs, hcs⟩ := hsign
    rw [hcs] at hstart
    obtain ⟨stop, hskip', hstop⟩ := hstart.next.skip
    unfold readEquals
    rw [hcs]
    simp only [bind, Except.bind, hstart.eat_cons, if_true, hskip', hstop.peek]
    generalize skipBlanks cs = left at hstop
    cases left with
    | nil => exact hstop.unexpectedEnd
    | cons q left =>
      by_cases hq : (decide (q = '\x27') || decide (q = '"')) = true
      · have hwidth : q.utf8Size = 1 := by
          simp only [Bool.or_eq_true, decide_eq_true_eq] at hq
          rcases hq with rfl | rfl <;> rfl
        have hnext := hstop.next
        rw [hwidth] at hnext
        simp only [List.head?_cons, hq, if_true]
        exact (hnext.literal hwidth).map fun w => some (String.ofList w)
      · simp only [List.head?_cons, hq]
        exact hstop.unexpected
  · have hne : ∀ cs, skipBlanks rest ≠ '=' :: cs := fun cs hcs => hsign ⟨cs, hcs⟩
    rw [readEquals_none_iff.mpr ⟨rfl, hne⟩]
    simp only [bind, Except.bind, hstart.eat_other hne]
    exact .ok hstart

theorem utf8Size_of_isDecimalDigit {c : Char} (h : isDecimalDigit c = true) : c.utf8Size = 1 := by
  simp only [isDecimalDigit, Bool.and_eq_true, decide_eq_true_eq] at h
  rw [Char.utf8Size_eq_one_iff]
  exact UInt32.le_trans (Char.le_def.mp h.2) (by decide)

theorem At.position (h : At source pos rest) :
    Follows source (Cursor.position source pos) (readPosition rest) := by
  have hstop : Cursor.goWhile source isDecimalDigit (fun _ => 1) (bound source) pos =
      .ok (pos + utf8Length (rest.takeWhile isDecimalDigit)) :=
    h.goWhile (fun _ hc => (utf8Size_of_isDecimalDigit hc).symm) h.length_lt_bound
  have hcut := List.takeWhile_append_dropWhile (p := isDecimalDigit) (l := rest)
  unfold Cursor.position readPosition
  rw [hstop]
  generalize rest.takeWhile isDecimalDigit = w at hcut
  generalize rest.dropWhile isDecimalDigit = left at hcut
  subst hcut
  simp only [bind, Except.bind, h.slice]
  split
  case isTrue => exact .fault (f := .zeroPosition) trivial
  case isFalse => exact .ok h.forward

theorem At.attr (h : At source pos rest) :
    Follows source (Cursor.attr source pos) (readAttrPredicate rest) := by
  refine h.name.bind fun key pos rest h => ?_
  refine h.equals.bind fun value pos rest h => ?_
  cases value <;> exact .ok h

theorem At.text (h : At source pos rest) :
    Follows source (Cursor.text source pos) (readTextPredicate rest) := by
  refine (h.expect ')').bind fun _ pos rest h => ?_
  refine h.equals.bind fun value pos rest h => ?_
  cases value with
  | none => exact h.unexpected
  | some v => exact .ok h

theorem At.child (h : At source pos rest) :
    Follows source (Cursor.child source pos) (readChildPredicate rest) := by
  refine h.name.bind fun w pos rest h => ?_
  dsimp only
  split
  case h_1 cs hw =>
    have hcalled : eatIf source (String.ofList w == "text") '(' pos = .ok (true, pos + 1) := by
      rw [eatIf, hw, beq_self_eq_true, if_pos rfl, h.eat_cons]
      rfl
    rw [hcalled]
    exact h.next.text
  case h_2 cs hother =>
    have hcalled : eatIf source (String.ofList w == "text") '(' pos = .ok (false, pos) := by
      by_cases hw : String.ofList w = "text"
      · rw [eatIf, hw, beq_self_eq_true, if_pos rfl]
        exact h.eat_other fun cs hcs => hother cs hw hcs
      · rw [eatIf, beq_eq_false_iff_ne.mpr hw]
        rfl
    rw [hcalled]
    refine h.equals.bind fun value pos rest h => ?_
    cases value <;> exact .ok h

theorem At.inside (h : At source pos rest) :
    Follows source (Cursor.inside source pos) (readInside rest) := by
  unfold Cursor.inside
  rw [h.peek]
  cases rest with
  | nil => exact h.unexpectedEnd
  | cons c rest =>
    show Follows source (if isDecimalDigit c then Cursor.position source pos else
      if c = '@' then Cursor.attr source (pos + 1) else Cursor.child source pos) _
    by_cases hdigit : isDecimalDigit c = true
    · rw [if_pos hdigit, readInside_position hdigit]
      exact h.position
    · rw [if_neg hdigit]
      by_cases hat : c = '@'
      · subst hat
        rw [if_pos rfl]
        exact h.next.attr
      · rw [if_neg hat, readInside_child hat (by simpa using hdigit)]
        exact h.child

theorem At.predicate (h : At source pos rest) :
    Follows source (Cursor.predicate source pos) (readPredicate rest) := by
  rw [readPredicate_eq]
  refine h.skip_bind fun pos h => ?_
  refine h.inside.bind fun p pos rest h => ?_
  refine h.skip_bind fun pos h => ?_
  exact (h.expect ']').bind fun _ pos rest h => .ok h

theorem At.predicates {n m : Nat} (h : At source pos rest) (hn : rest.length < n)
    (hm : rest.length < m) :
    Follows source (Cursor.predicates source n pos) (readPredicates m rest) := by
  induction n generalizing m pos rest with
  | zero => omega
  | succ n ih =>
    cases m with
    | zero => omega
    | succ m =>
      have hskip := Text.skipBlanks_length rest
      refine h.skip_bind fun pos h => ?_
      unfold readPredicates
      split
      case h_1 inside hinside =>
        rw [hinside] at h hskip
        rw [h.eat_cons]
        refine h.next.predicate.bind_eq fun p pos rest h hp => ?_
        have hshorter : rest.length < n ∧ rest.length < m := by
          obtain ⟨a, w, b, -, -, -, rfl⟩ := readPredicate_iff.mp hp
          simp only [List.length_cons, List.length_append] at hskip
          omega
        refine (ih h hshorter.1 hshorter.2).bind fun ps pos rest h => ?_
        exact .ok h
      case h_2 hne =>
        rw [h.eat_other hne]
        exact .ok h

theorem At.step {d : Bool} (h : At source pos rest) :
    Follows source (Cursor.step source d pos) (readStep d rest) := by
  refine h.skip_bind fun pos h => ?_
  refine h.name.bind fun w pos rest h => ?_
  refine (h.predicates h.length_lt_bound (Nat.lt_succ_self _)).bind fun ps pos rest h => ?_
  exact .ok h

theorem At.finish_nil {ss : List Step} (h : At source pos []) :
    finish source (ss, pos) = .ok (ss, pos) := by
  rw [finish, h.peek]
  rfl

theorem At.finish_cons {ss : List Step} {c : Char} (h : At source pos (c :: rest)) :
    Follows source (finish source (ss, pos)) (.error (.at (c :: rest))) := by
  rw [finish, h.peek]
  exact h.unexpected

/-- What is collected does not matter to the end. -/
theorem collect_finish (s : Step) (x : Except Halt (List Step × Nat)) :
    (do let (ss, pos) ← x; return (s :: ss, pos)) >>= finish source =
      (do let (ss, pos) ← x >>= finish source; return (s :: ss, pos)) := by
  cases x with
  | error halt => rfl
  | ok found =>
    obtain ⟨ss, pos⟩ := found
    show finish source (s :: ss, pos) =
      (do let (ss, pos) ← finish source (ss, pos); return (s :: ss, pos))
    simp only [finish, unexpected]
    cases peek source pos with
    | error halt => rfl
    | ok found => cases found <;> rfl

/-- One turn of the loop, when all turns that are left follow the reader. -/
theorem At.stepAnd {next : Nat → Except Halt (List Step × Nat)} {d : Bool}
    (bounded : List Char → Nat) (h : At source pos rest)
    (hbounded : ∀ left, (skipBlanks left).length < rest.length →
      (skipBlanks left).length < bounded left)
    (hnext : ∀ pos left n, At source pos left → left.length < rest.length → left.length < n →
      Follows source (next pos >>= finish source) (readMoreSteps n left)) :
    Follows source (Cursor.stepAnd source next d pos >>= finish source) (do
      let (s, left) ← readStep d rest
      let (ss, left) ← readMoreSteps (bounded left) (skipBlanks left)
      return (s :: ss, left)) := by
  unfold Cursor.stepAnd
  rw [bind_assoc]
  refine h.step.bind_eq fun s pos left h hstep => ?_
  have hleft : (skipBlanks left).length < rest.length := by
    obtain ⟨a, w, b, -, hw, -, hcut⟩ := readStep_sound ⟨left, hstep, rfl⟩
    obtain ⟨c, w, rfl, -⟩ := hw.head
    have hlength := congrArg List.length hcut
    simp only [List.length_append, List.length_cons] at hlength
    omega
  have hn := hbounded left hleft
  dsimp only
  rw [bind_assoc]
  refine h.skip_bind fun pos h => ?_
  by_cases hend : size source ≤ pos
  · have hnil := h.atEnd_iff.mp hend
    rw [hnil] at h hn ⊢
    obtain ⟨n, hn⟩ : ∃ n, bounded left = n + 1 := ⟨bounded left - 1, by omega⟩
    rw [if_pos hend, hn, readMoreSteps]
    show Follows source (finish source ([s], pos)) (.ok ([s], []))
    rw [h.finish_nil]
    exact .ok h
  · rw [if_neg hend, collect_finish]
    exact (hnext pos _ _ h hleft hn).bind fun ss pos left h => .ok h

theorem At.steps_slashes {d : Bool} (h : At source pos (slashes d ++ rest))
    (hstop : d = false → Stops (· == '/') rest) (n : Nat) (first : Bool) :
    ∃ start, At source start rest ∧
      Cursor.steps source (n + 1) first pos =
        Cursor.stepAnd source (Cursor.steps source n false) d start := by
  cases d with
  | true =>
    have h : At source pos ('/' :: '/' :: rest) := h
    refine ⟨_, h.next.next, ?_⟩
    rw [Cursor.steps, h.eat_cons]
    show (eat source '/' (pos + '/'.utf8Size) >>= _) = _
    rw [h.next.eat_cons]
    rfl
  | false =>
    have h : At source pos ('/' :: rest) := h
    have hother (cs : List Char) : rest ≠ '/' :: cs := by
      rintro rfl
      exact absurd (hstop rfl '/' rfl) (by decide)
    refine ⟨_, h.next, ?_⟩
    rw [Cursor.steps, h.eat_cons]
    show (eat source '/' (pos + '/'.utf8Size) >>= _) = _
    rw [h.next.eat_other hother]
    rfl

theorem slashes_cases (rest : List Char) :
    (∀ cs, rest ≠ '/' :: cs) ∨
      ∃ d left, rest = slashes d ++ left ∧ (d = false → Stops (· == '/') left) := by
  cases rest with
  | nil => exact .inl (by simp)
  | cons c left =>
    by_cases hc : c = '/'
    · subst hc
      by_cases hdouble : ∃ cs, left = '/' :: cs
      · obtain ⟨cs, rfl⟩ := hdouble
        exact .inr ⟨true, cs, rfl, by simp⟩
      · refine .inr ⟨false, left, rfl, fun _ c hc => ?_⟩
        rw [beq_eq_false_iff_ne]
        rintro rfl
        obtain ⟨cs, rfl⟩ := List.head?_eq_some_iff.mp hc
        exact hdouble ⟨cs, rfl⟩
    · exact .inl (by simp [hc])

theorem At.steps {n m : Nat} (h : At source pos rest) (hn : rest.length < n)
    (hm : rest.length < m) {first : Bool} (hfirst : first = true → ∃ cs, rest = '/' :: cs) :
    Follows source (Cursor.steps source n first pos >>= finish source) (readMoreSteps m rest) := by
  induction n generalizing m pos rest first with
  | zero => omega
  | succ n ih =>
    obtain ⟨m, rfl⟩ : ∃ m', m = m' + 1 := ⟨m - 1, by omega⟩
    rcases slashes_cases rest with hother | ⟨d, left, rfl, hstop⟩
    · obtain rfl : first = false := by
        by_contra hnot
        obtain ⟨cs, rfl⟩ := hfirst (by simpa using hnot)
        exact hother cs rfl
      rw [Cursor.steps, h.eat_other hother]
      show Follows source (finish source ([], pos)) _
      unfold readMoreSteps
      split
      case h_1 =>
        rw [h.finish_nil]
        exact .ok h
      case h_2 => exact absurd rfl (hother _)
      case h_3 => exact absurd rfl (hother _)
      case h_4 => exact h.finish_cons
    · obtain ⟨start, hstart, hsteps⟩ := h.steps_slashes hstop n first
      have hslash : 1 ≤ (slashes d).length := by cases d <;> decide
      rw [List.length_append] at hn hm
      rw [hsteps, readMoreSteps_slashes hstop]
      unfold readMoreSteps.follow
      refine hstart.stepAnd (fun _ => m) (fun _ _ => by omega) ?_
      intro pos left k h hleft hk
      exact ih h (by omega) hk (by simp)

/-- All steps, where the first one may be without a slash. -/
theorem At.readSteps (hat : At source pos rest) :
    ∃ found, Follows source
        (Cursor.steps source (bound source) true pos >>= finish source) found ∧
      readSteps rest = found.map Prod.fst := by
  by_cases hslash : ∃ cs, rest = '/' :: cs
  · refine ⟨_, hat.steps hat.length_lt_bound (Nat.lt_succ_self _) fun _ => hslash, ?_⟩
    obtain ⟨cs, rfl⟩ := hslash
    rfl
  · have hother : ∀ cs, rest ≠ '/' :: cs := fun cs hcs => hslash ⟨cs, hcs⟩
    have hturn : Cursor.steps source (bound source) true pos =
        Cursor.stepAnd source (Cursor.steps source source.toList.length false) false pos := by
      rw [bound, Cursor.steps, hat.eat_other hother]
      rfl
    rw [hturn]
    refine ⟨_, hat.stepAnd (fun left => left.length + 1) ?_ ?_, ?_⟩
    · intro left _
      exact Nat.lt_succ_of_le (Text.skipBlanks_length left)
    · intro pos left n h hleft hn
      have hrest : rest.length ≤ source.toList.length := by
        obtain ⟨before, hcut, -⟩ := hat
        rw [hcut, List.length_append]
        omega
      exact h.steps (by omega) hn (by simp)
    · unfold Selector.readSteps
      split
      case h_1 cs => exact absurd rfl (hother cs)
      case h_2 =>
        cases readStep false rest with
        | error f => rfl
        | ok found =>
          obtain ⟨s, left⟩ := found
          cases hmore : readMoreSteps (left.length + 1) (skipBlanks left) with
          | error f => simp [bind, Except.bind, hmore, Except.map]
          | ok found => simp [bind, Except.bind, hmore, Except.map, pure, Except.pure]

/-- The ways in which both runs end. -/
inductive Agree (source : String) : Except Halt Selector → Except SelectorError Selector → Prop
  | empty : Agree source (.error (.refused .empty)) (.error .empty)
  | ok (a : Selector) : Agree source (.ok a) (.ok a)
  | fault {f : Fault} : Located source f →
      Agree source (.error (.refused (f.toError source))) (.error (f.toError source))

theorem parse_agree (source : String) : Agree source (parse source) (Selector.parse source) := by
  obtain ⟨pos, hskip, hat⟩ := (At.start source).skip
  unfold parse Selector.parse
  rw [hskip]
  generalize skipBlanks source.toList = left at hat
  cases left with
  | nil =>
    show Agree source (if size source ≤ pos then _ else _) _
    rw [if_pos (hat.atEnd_iff.mpr rfl)]
    exact .empty
  | cons c left =>
    have hmore : ¬size source ≤ pos := fun hend => List.cons_ne_nil c left (hat.atEnd_iff.mp hend)
    obtain ⟨found, hfollows, hread⟩ := hat.readSteps
    show Agree source (if size source ≤ pos then _ else _) _
    rw [if_neg hmore, hat.peek]
    simp only [hread]
    show Agree source ((Cursor.steps source (bound source) true pos >>= finish source) >>= _) _
    generalize Cursor.steps source (bound source) true pos >>= finish source = x at hfollows ⊢
    cases hfollows with
    | ok h => exact .ok _
    | fault hlocated => exact .fault hlocated

/-- The cursor comes to what the reader comes to. So it never cuts the text inside of a character,
and all of its loops end within their bound. -/
theorem parse_eq (source : String) :
    parse source = (Selector.parse source).mapError Halt.refused := by
  have hagree := parse_agree source
  generalize parse source = x at hagree
  generalize Selector.parse source = y at hagree
  cases hagree <;> rfl

end

end Cursor

/-- A character that is reported begins at the offset that is reported. -/
theorem located_of_parse {source selector : String} {offset : Nat} {c : Char}
    (h : parse source = .error (.unexpected selector offset c)) :
    selector = source ∧ ∃ before after,
      source.toList = before ++ c :: after ∧ utf8Length before = offset := by
  have hagree := Cursor.parse_agree source
  rw [h] at hagree
  generalize hx : Cursor.parse source = x at hagree
  generalize hy : Except.error (SelectorError.unexpected selector offset c) = y at hagree
  cases hagree with
  | empty => cases hy
  | ok a => cases hy
  | @fault f hlocated =>
    rw [Except.error.injEq] at hy
    cases f with
    | zeroPosition => cases hy
    | «at» rest =>
      cases rest with
      | nil => cases hy
      | cons d rest =>
        cases hy
        obtain ⟨pos, before, hcut, -⟩ := hlocated
        refine ⟨rfl, before, rest, hcut, ?_⟩
        rw [hcut, utf8Length_append, Nat.add_sub_cancel]

/-- Exactly the texts of the grammar are read, each as the selector that it spells. The selector is
absolute when the first character that is not blank is a slash. On byte offsets the reader comes to
the same end, so it cuts the text only where characters begin, and its loops end within their bound.
A character that is reported begins at the offset that is reported. -/
theorem parse_exact (source : String) :
    (∀ a, parse source = .ok a ↔ SelectorText Blanks source.toList a) ∧
      (∀ a, parse source = .ok a →
        (a.absolute = true ↔ source.toList.find? (fun c => !isBlank c) = some '/')) ∧
      Cursor.parse source = (parse source).mapError Cursor.Halt.refused ∧
      ∀ selector offset c, parse source = .error (.unexpected selector offset c) →
        selector = source ∧ ∃ before after,
          source.toList = before ++ c :: after ∧ utf8Length before = offset := by
  refine ⟨parse_eq_ok_iff source, ?_, Cursor.parse_eq source, fun _ _ _ => located_of_parse⟩
  intro a h
  rw [List.find?_not_eq_head?_dropWhile]
  cases hskip : skipBlanks source.toList with
  | nil => simp [parse, hskip] at h
  | cons c cs =>
    have hdrop : source.toList.dropWhile isBlank = c :: cs := hskip
    rw [((parse_of_skipBlanks hskip).mp h).1, hdrop]
    simp

example : parse "é]" = .error (.unexpected "é]" 2 ']') := by cbv

end DefLoad.Selector
