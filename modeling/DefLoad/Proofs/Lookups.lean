import DefLoad.Arsenal.Plain
import DefLoad.Bindings
import DefLoad.Parsers

/-!
The lookups of a load remember their answers, and it never shows: whatever was asked before, an
answer is the one that a search gives.
-/

namespace DefLoad

namespace TypeTable

theorem resolve_of_named {r : TypeTable}
    (h : ∀ k t, r.get? k = some t → t.fullName ≠ "" ∧ t.name ≠ "") (name : String) :
    r.resolve name = r.search (Text.trim name) := by
  have hnone (ks : List TypeKey) (p : Descriptor → Bool)
      (hp : ∀ k t, r.get? k = some t → p t = false) : r.find? ks p = none := by
    rw [find?, List.find?_eq_none]
    intro k _
    cases hk : r.get? k with
    | none => simp
    | some t => simp [hp k t hk]
  unfold resolve
  by_cases hempty : Text.trim name = ""
  · -- an empty name has no comma, and no type bears it
    have hfull := hnone r.listed (·.fullName == "") fun k t hk => by simpa using (h k t hk).1
    have hshort := hnone r.listed (·.name == "") fun k t hk => by simpa using (h k t hk).2
    have hqualified : r.qualified? "" = none := rfl
    simp [hempty, search, hqualified, hfull, hshort]
  · simp [hempty]

end TypeTable

namespace NameLookup

variable {s : NameLookup} {r : TypeTable}

theorem Sound.answer (h : s.Sound r) (name : String) : (s.resolve r name).1 = r.resolve name := by
  unfold NameLookup.resolve TypeTable.resolve
  cases hempty : (Text.trim name).isEmpty with
  | true => simp [hempty]
  | false =>
    cases ha : s.answers.get? (Text.trim name) with
    | none => simp [hempty, ha]
    | some answer => simp [hempty, ha, h _ answer ha]

theorem Sound.resolve (h : s.Sound r) (name : String) : (s.resolve r name).2.Sound r := by
  unfold NameLookup.resolve
  cases hempty : (Text.trim name).isEmpty with
  | true => simpa [hempty] using h
  | false =>
    cases ha : s.answers.get? (Text.trim name) with
    | some answer => simpa [hempty, ha] using h
    | none =>
      intro other answer hother
      simp only [hempty, ha, Assoc.get?_set, Bool.false_eq_true, if_false] at hother
      split at hother
      case isTrue hsame => rw [← beq_iff_eq.mp hsame, ← Option.some.inj hother]
      case isFalse => exact h other answer hother

/-- What is remembered after some names have been resolved. -/
def after (r : TypeTable) (names : List String) : NameLookup :=
  names.foldl (fun s name => (s.resolve r name).2) empty

theorem after_sound (r : TypeTable) (names : List String) : (after r names).Sound r := by
  have hrun (s : NameLookup) (h : s.Sound r) :
      (names.foldl (fun s name => (s.resolve r name).2) s).Sound r := by
    induction names generalizing s with
    | nil => exact h
    | cons name names ih => exact ih _ (h.resolve name)
  exact hrun empty (empty_sound r)

end NameLookup

namespace ParserTable

/-- Everything remembered for a type of the table is the first parser that handles it. -/
def Sound (t : ParserTable) (r : TypeTable) : Prop :=
  ∀ d answer, r.get? d.key = some d → Assoc.get? t.answers d.key = some answer →
    answer = parserFor t.parsers d

variable {t : ParserTable} {r : TypeTable}

theorem sound_of_forgotten (h : t.answers = []) : t.Sound r := by
  intro d answer _ ha
  simp [h, Assoc.get?] at ha

theorem Sound.addNumbered (h : t.Sound r) (e : Nat × Parser) : (t.addNumbered e).Sound r := by
  unfold ParserTable.addNumbered
  split
  · exact h
  · exact sound_of_forgotten rfl

theorem addNumbered_congr {t t' : ParserTable} (hentries : t.entries = t'.entries)
    (hnext : t.next = t'.next) (e : Nat × Parser) :
    (t.addNumbered e).entries = (t'.addNumbered e).entries ∧
      (t.addNumbered e).next = (t'.addNumbered e).next := by
  unfold addNumbered
  rw [hentries]
  split
  · exact ⟨hentries, hnext⟩
  · exact ⟨rfl, hnext⟩

theorem Sound.answer (h : t.Sound r) {d : Descriptor} (hd : r.get? d.key = some d) :
    (t.find d).1 = parserFor t.parsers d := by
  unfold ParserTable.find
  split
  case h_1 answer ha => exact h d answer hd ha
  case h_2 => rfl

theorem entries_find (t : ParserTable) (d : Descriptor) : (t.find d).2.entries = t.entries := by
  unfold ParserTable.find
  split <;> rfl

theorem next_find (t : ParserTable) (d : Descriptor) : (t.find d).2.next = t.next := by
  unfold ParserTable.find
  split <;> rfl

theorem Sound.find (h : t.Sound r) {d : Descriptor} (hd : r.get? d.key = some d) :
    (t.find d).2.Sound r := by
  unfold ParserTable.find
  split
  case h_1 => exact h
  case h_2 =>
    intro d' answer hd' ha
    simp only [Assoc.get?_set] at ha
    split at ha
    case isTrue hsame =>
      -- one table has one descriptor under a key
      rw [← beq_iff_eq.mp hsame, hd] at hd'
      rw [← Option.some.inj ha, Option.some.inj hd']
      rfl
    case isFalse => exact h d' answer hd' ha

end ParserTable

namespace Config

theorem isIdName_congr {a b : String} (h : Text.lower a = Text.lower b) :
    isIdName a = isIdName b := by
  simp [isIdName, Text.sameIgnoringCase, h]

theorem matchesName_congr {c : Config} {a b : String} (h : c.normalized a = c.normalized b)
    (candidate : String) : c.matchesName candidate a = c.matchesName candidate b := by
  unfold normalized at h
  unfold matchesName
  split at h
  case isTrue hc => simp [hc, h]
  case isFalse hc => simp [hc, Text.sameIgnoringCase, h]

/-- Names that are remembered as one are bound to the same member. -/
theorem memberIndex?_congr {c : Config} {a b : String} (h : c.normalized a = c.normalized b)
    (t : Descriptor) : c.memberIndex? t a = c.memberIndex? t b := by
  have hid : isIdName a = isIdName b := by
    unfold normalized at h
    split at h
    case isTrue => rw [h]
    case isFalse => exact isIdName_congr h
  simp only [memberIndex?, hid, matchesName_congr h]

/-- The member bound to a name is the first one in the order of the declaration that the policy
admits, that is not named like the ID, and that bears the name or an alias of it. No member is bound
to the name of the ID. -/
theorem memberIndex?_eq_some_iff (c : Config) (t : Descriptor) (name : String) (i : Nat) :
    c.memberIndex? t name = some i ↔
      isIdName name = false ∧
      (∃ m, t.members[i]? = some m ∧ c.admits m = true ∧ isIdName m.name = false ∧
        ∃ candidate ∈ m.names, c.matchesName candidate name = true) ∧
      ∀ j < i, ∀ m, t.members[j]? = some m → c.admits m = true → isIdName m.name = false →
        ∀ candidate ∈ m.names, c.matchesName candidate name = false := by
  unfold memberIndex?
  cases hid : isIdName name with
  | true => simp
  | false =>
    simp only [Bool.false_eq_true, if_false, true_and, List.findIdx?_eq_some_iff_getElem, isBound,
      Bool.and_eq_true, Bool.not_eq_true', List.any_eq_true]
    constructor
    · rintro ⟨hi, ⟨⟨hadmits, hnot⟩, hbears⟩, hbefore⟩
      refine ⟨⟨_, List.getElem?_eq_getElem hi, hadmits, hnot, hbears⟩, ?_⟩
      intro j hj m hm hm' hn candidate hcandidate
      obtain ⟨hlt, rfl⟩ := List.getElem?_eq_some_iff.mp hm
      have hnone := hbefore j hj
      simp only [hm', hn, and_self, true_and, not_exists, not_and, Bool.not_eq_true] at hnone
      exact hnone candidate hcandidate
    · rintro ⟨⟨m, hm, hadmits, hnot, hbears⟩, hbefore⟩
      obtain ⟨hi, rfl⟩ := List.getElem?_eq_some_iff.mp hm
      refine ⟨hi, ⟨⟨hadmits, hnot⟩, hbears⟩, ?_⟩
      rintro j hj ⟨⟨hm', hn⟩, candidate, hcandidate, hmatches⟩
      have hj' := List.getElem?_eq_getElem (show j < t.members.length by omega)
      have hfalse := hbefore j hj _ hj' hm' hn candidate hcandidate
      exact Bool.false_ne_true (hfalse.symm.trans hmatches)

end Config

namespace Bindings

/-- Everything remembered for a type of the table is the first member that is bound to the name. -/
def Sound (b : Bindings) (r : TypeTable) : Prop :=
  ∀ d name answer, r.get? d.key = some d →
    Assoc.get? b.answers (d.key, b.config.normalized name) = some answer →
    answer = b.config.memberIndex? d name

variable {b : Bindings} {r : TypeTable} {d : Descriptor}

theorem sound_ofConfig (c : Config) (r : TypeTable) : (ofConfig c).Sound r := by
  intro d name answer _ ha
  simp [ofConfig, Assoc.get?] at ha

theorem config_find (b : Bindings) (d : Descriptor) (name : String) :
    (b.find d name).2.config = b.config := by
  unfold Bindings.find
  split
  · dsimp only
    split <;> rfl
  · rfl

theorem Sound.answer (h : b.Sound r) (hd : r.get? d.key = some d) (name : String) :
    (b.find d name).1 = b.config.memberIndex? d name := by
  unfold Bindings.find
  split
  case h_1 =>
    dsimp only
    split
    case h_1 answer ha => exact h d name answer hd ha
    case h_2 => rfl
  case h_2 hshape =>
    -- only classes have members
    have hmembers : d.members = [] := by
      unfold Descriptor.members
      split
      case h_1 ms hms => exact (hshape ms hms).elim
      case h_2 => rfl
    simp [Config.memberIndex?, hmembers]

theorem Sound.find (h : b.Sound r) (hd : r.get? d.key = some d) (name : String) :
    (b.find d name).2.Sound r := by
  unfold Bindings.find
  split
  case h_2 => exact h
  case h_1 =>
    dsimp only
    split
    case h_1 => exact h
    case h_2 =>
      intro d' other answer hd' ha
      simp only [Assoc.get?_set] at ha
      split at ha
      case isFalse => exact h d' other answer hd' ha
      case isTrue hsame =>
        obtain ⟨hkey, hname⟩ := Prod.mk.inj (beq_iff_eq.mp hsame)
        rw [← hkey, hd] at hd'
        rw [← Option.some.inj ha, ← Option.some.inj hd', Config.memberIndex?_congr hname]

end Bindings

/-- What the lookups of a load remember. -/
structure Lookups where
  names : NameLookup
  parsers : ParserTable
  bindings : Bindings

namespace Lookups

/-- A question, or a change to what is known. -/
inductive Call
  | type (name : String)
  | forgetTypes
  | addParser (p : Parser)
  /-- Adds a parser that has a number already. -/
  | shareParser (e : Nat × Parser)
  | parser (t : Descriptor)
  | member (t : Descriptor) (name : String)

inductive Answer
  | done
  | type (key : Option TypeKey)
  | parser (p : Option Parser)
  | member (index : Option Nat)

def start (c : Config) : Lookups := ⟨.empty, .empty, .ofConfig c⟩

def perform (r : TypeTable) (s : Lookups) : Call → Answer × Lookups
  | .type name =>
    (.type (s.names.resolve r name).1, { s with names := (s.names.resolve r name).2 })
  | .forgetTypes => (.done, { s with names := s.names.forget })
  | .addParser p => (.done, { s with parsers := s.parsers.add p })
  | .shareParser e => (.done, { s with parsers := s.parsers.addNumbered e })
  | .parser t => (.parser (s.parsers.find t).1, { s with parsers := (s.parsers.find t).2 })
  | .member t name =>
    (.member (s.bindings.find t name).1, { s with bindings := (s.bindings.find t name).2 })

/-- The answers to calls that are made one after the other. -/
def run (r : TypeTable) : Lookups → List Call → List Answer
  | _, [] => []
  | s, call :: calls => (s.perform r call).1 :: run r (s.perform r call).2 calls

/-- The parsers after a call. -/
def Call.register (t : ParserTable) : Call → ParserTable
  | .addParser p => t.add p
  | .shareParser e => t.addNumbered e
  | _ => t

/-- What a search answers. -/
def Call.search (r : TypeTable) (c : Config) (parsers : List Parser) : Call → Answer
  | .type name => .type (r.resolve name)
  | .parser t => .parser (parserFor parsers t)
  | .member t name => .member (c.memberIndex? t name)
  | _ => .done

/-- The answers to calls when each one is searched for. -/
def searchAll (r : TypeTable) (c : Config) : ParserTable → List Call → List Answer
  | _, [] => []
  | t, call :: calls => call.search r c t.parsers :: searchAll r c (call.register t) calls

/-- A type that is asked about is the one that the table has under its key. -/
def Call.Within (r : TypeTable) : Call → Prop
  | .parser t => r.get? t.key = some t
  | .member t _ => r.get? t.key = some t
  | _ => True

/-- All memories are right, and the parsers are those of `t`. -/
structure Sound (r : TypeTable) (c : Config) (t : ParserTable) (s : Lookups) : Prop where
  names : s.names.Sound r
  parsers : s.parsers.Sound r
  bindings : s.bindings.Sound r
  entries : s.parsers.entries = t.entries
  next : s.parsers.next = t.next
  config : s.bindings.config = c

variable {r : TypeTable} {c : Config} {t : ParserTable} {s : Lookups}

theorem start_sound (r : TypeTable) (c : Config) : Sound r c .empty (start c) where
  names := NameLookup.empty_sound r
  parsers := ParserTable.sound_of_forgotten rfl
  bindings := Bindings.sound_ofConfig c r
  entries := rfl
  next := rfl
  config := rfl

namespace Sound

theorem answer (h : Sound r c t s) {call : Call} (hc : call.Within r) :
    (s.perform r call).1 = call.search r c t.parsers := by
  have hparsers : s.parsers.parsers = t.parsers := congrArg (·.map Prod.snd) h.entries
  cases call with
  | type name => exact congrArg Answer.type (h.names.answer name)
  | forgetTypes => rfl
  | addParser p => rfl
  | shareParser e => rfl
  | parser d => exact congrArg Answer.parser ((h.parsers.answer hc).trans (hparsers ▸ rfl))
  | member d name =>
    exact congrArg Answer.member ((h.bindings.answer hc name).trans (h.config ▸ rfl))

theorem perform (h : Sound r c t s) {call : Call} (hc : call.Within r) :
    Sound r c (call.register t) (s.perform r call).2 := by
  cases call with
  | type name =>
    show Sound r c t { s with names := (s.names.resolve r name).2 }
    exact { h with names := h.names.resolve name }
  | forgetTypes =>
    show Sound r c t { s with names := s.names.forget }
    exact { h with names := NameLookup.empty_sound r }
  | addParser p =>
    show Sound r c (t.add p) { s with parsers := s.parsers.add p }
    refine { h with parsers := ParserTable.sound_of_forgotten rfl, entries := ?_, next := ?_ }
    · show s.parsers.entries ++ [(s.parsers.next, p)] = t.entries ++ [(t.next, p)]
      rw [h.entries, h.next]
    · exact congrArg (· + 1) h.next
  | shareParser e =>
    obtain ⟨hentries, hnext⟩ := ParserTable.addNumbered_congr h.entries h.next e
    show Sound r c (t.addNumbered e) { s with parsers := s.parsers.addNumbered e }
    exact { h with parsers := h.parsers.addNumbered e, entries := hentries, next := hnext }
  | parser d =>
    show Sound r c t { s with parsers := (s.parsers.find d).2 }
    exact { h with
      parsers := h.parsers.find hc
      entries := (ParserTable.entries_find s.parsers d).trans h.entries
      next := (ParserTable.next_find s.parsers d).trans h.next }
  | member d name =>
    show Sound r c t { s with bindings := (s.bindings.find d name).2 }
    exact { h with
      bindings := h.bindings.find hc name
      config := (Bindings.config_find s.bindings d name).trans h.config }

theorem run (h : Sound r c t s) {calls : List Call} (hc : ∀ call ∈ calls, call.Within r) :
    Lookups.run r s calls = searchAll r c t calls := by
  induction calls generalizing s t with
  | nil => rfl
  | cons call calls ih =>
    have hcall := hc call List.mem_cons_self
    rw [Lookups.run, searchAll, h.answer hcall,
      ih (h.perform hcall) fun other ho => hc other (List.mem_cons_of_mem call ho)]

end Sound

/-- Nothing that is remembered ever shows. Whatever is asked of one table of types, in whatever
order, a name means the type that a search for it finds, a type is read by the first parser so far
that handles it, and a member is bound as the policy says. -/
theorem run_transparent (r : TypeTable) (c : Config) {calls : List Call}
    (h : ∀ call ∈ calls, call.Within r) :
    run r (start c) calls = searchAll r c .empty calls ∧
    ((∀ k t, r.get? k = some t → t.fullName ≠ "" ∧ t.name ≠ "") →
      ∀ name, r.resolve name = r.search (Text.trim name)) ∧
    ∀ t name i, c.memberIndex? t name = some i ↔
      isIdName name = false ∧
      (∃ m, t.members[i]? = some m ∧ c.admits m = true ∧ isIdName m.name = false ∧
        ∃ candidate ∈ m.names, c.matchesName candidate name = true) ∧
      ∀ j < i, ∀ m, t.members[j]? = some m → c.admits m = true → isIdName m.name = false →
        ∀ candidate ∈ m.names, c.matchesName candidate name = false :=
  ⟨(start_sound r c).run h, TypeTable.resolve_of_named, c.memberIndex?_eq_some_iff⟩

section

def turret : TypeKey := .named "Game.Turret"

def turretMember (name : String) (aliases : List String) : Member :=
  ⟨name, aliases, .f32, .field, true, .default, .field turret .f32 name (.scalar .f32 (.bits 0))⟩

def turretClass : Descriptor :=
  { Arsenal.plainType turret
      (.class [turretMember "ID" ["Serial"], turretMember "Range" ["Reach", "Id"]]) with
    name := "Turret" }

def turretTable : TypeTable := ⟨[(turret, turretClass)], [⟨"game", [turret]⟩]⟩

def turretParser : Parser :=
  { name := "turret", contextFree := false, handles := (·.key == turret),
    parse := fun _ _ => .error "no turret" }

def turretCalls : List Call :=
  [.type "Turret", .type " Turret ", .type "Game.Turret, game", .type "turret", .parser turretClass,
    .addParser turretParser, .parser turretClass, .member turretClass "Reach",
    .member turretClass "REACH", .member turretClass "iD", .member turretClass "serial"]

theorem turret_answers :
    (∀ call ∈ turretCalls, call.Within turretTable) ∧
      run turretTable (start { caseSensitive := false }) turretCalls =
        [.type (some turret), .type (some turret), .type (some turret), .type none, .parser none,
          .done, .parser (some turretParser), .member (some 1), .member (some 1), .member none,
          .member none] := by
  have h : ∀ call ∈ turretCalls, call.Within turretTable := by
    simp only [turretCalls, List.forall_mem_cons, Call.Within, true_and]
    exact ⟨rfl, rfl, rfl, rfl, rfl, rfl, List.forall_mem_nil _⟩
  exact ⟨h, (run_transparent turretTable { caseSensitive := false } h).1.trans rfl⟩

end

end Lookups

end DefLoad
