import DefLoad.Proofs.Accounting
import DefLoad.Proofs.Entries

/-!
A map is filled child by child, and the last child that gives a value under a key wins. A child that
gives nothing leaves the map as it was.
-/

namespace DefLoad.Reading

/-- The name of a child is read as the key, and its content is written as the value. -/
def Gives (s : Setting) (m : MapFocus) (xs : Value) (c : Node) (key x : Value) : Prop :=
  readKey s m xs c.name = .ok key ∧ ∃ ys, Writes s (.map m) xs c x ys

/-- The warning about a child whose key was there before. -/
def duplicateKey (m : MapFocus) (c : Node) : Diagnostic :=
  .warning .conversion (pathOf (m.focus.trail ++ [c.name]))
    s!"duplicate key '{c.name}' replaced an earlier entry"

def OnlyErrors (ds : Diagnostics) : Prop := ∀ d ∈ ds, d.isError = true

section

variable {s : Setting} {F : Filling} {m : MapFocus} {xs v key x : Value} {c : Node} {d d' : Demand}

theorem onlyErrors_nil : OnlyErrors [] := by
  intro d hd
  cases hd

theorem onlyErrors_error (stage : Stage) (path message : String) :
    OnlyErrors [.error stage path message] := by
  intro d hd
  rw [List.mem_singleton.mp hd]
  rfl

theorem OnlyErrors.append {ds ds' : Diagnostics} (h : OnlyErrors ds) (h' : OnlyErrors ds') :
    OnlyErrors (ds ++ ds') := by
  intro d hd
  rcases List.mem_append.mp hd with hd | hd
  · exact h d hd
  · exact h' d hd

theorem wantedType_errors (s : Setting) (child : Node) (declared : Descriptor)
    (trail : List String) : OnlyErrors (wantedType s child declared trail).found := by
  unfold wantedType
  cases child.attr "Type" with
  | none => exact onlyErrors_nil
  | some name =>
    dsimp only
    cases s.types.resolve name with
    | none => exact onlyErrors_error _ _ _
    | some found =>
      dsimp only
      split
      · exact onlyErrors_nil
      · exact onlyErrors_error _ _ _

theorem toWrite_errors (s : Setting) (o : Outcome) (declared : TypeKey) (trail : List String)
    (complaint : String) : OnlyErrors (toWrite s o declared trail complaint).found := by
  cases o with
  | noValue => exact onlyErrors_nil
  | value v => exact onlyErrors_nil
  | null =>
    simp only [toWrite]
    cases s.types.null? declared with
    | none => exact onlyErrors_error _ _ _
    | some v => exact onlyErrors_nil

theorem toWrite_given {o : Outcome} {declared : TypeKey} {trail : List String} {complaint : String}
    {g : Value} (h : given s.types declared o = some g) :
    toWrite s o declared trail complaint = pure (some g) := by
  cases o with
  | noValue => cases h
  | value v =>
    cases h
    rfl
  | null =>
    simp only [toWrite, show s.types.null? declared = some g from h]

/-- There is one way to read a child. -/
theorem Demands.unique (h : Demands s F v c d) (h' : Demands s F v c d') : d = d' := by
  cases h with
  | member hp =>
    cases h' with
    | member hp' =>
      rw [hp] at hp'
      cases hp'
      rfl
  | item ht =>
    cases h' with
    | item ht' =>
      rw [ht] at ht'
      cases ht'
      rfl
  | entry hkey ht =>
    cases h' with
    | entry hkey' ht' =>
      rw [hkey] at hkey'
      cases hkey'
      rw [ht] at ht'
      cases ht'
      rfl

/-- What there is when a child gives a value. -/
theorem gives_iff : Gives s m xs c key x ↔ readKey s m xs c.name = .ok key ∧ ∃ d g ys,
    Demands s (.map m) xs c d ∧
      given s.types m.declaredValue (d.read s c).value.outcome = some g ∧
      s.types.convert g m.declaredValue = .ok x ∧
      (Value.insert m.focus.target.key xs key x).map? = some ys := by
  constructor
  · intro h
    obtain ⟨hkey, ys, hwrites⟩ := h
    cases hwrites with
    | entry hkey' hd hgiven hx hys =>
      rw [hkey] at hkey'
      cases hkey'
      exact ⟨hkey, _, _, ys, hd, hgiven, hx, hys⟩
  · intro h
    obtain ⟨hkey, d, g, ys, hd, hgiven, hx, hys⟩ := h
    exact ⟨hkey, ys, .entry hkey hd hgiven hx hys⟩

/-- The same, once it is known how the child is read. -/
theorem Demands.gives_iff {k : Value} (hd : Demands s (.map m) xs c d)
    (hkey : readKey s m xs c.name = .ok key) : Gives s m xs c k x ↔ k = key ∧ ∃ g ys,
      given s.types m.declaredValue (d.read s c).value.outcome = some g ∧
        s.types.convert g m.declaredValue = .ok x ∧
        (Value.insert m.focus.target.key xs key x).map? = some ys := by
  constructor
  · intro h
    obtain ⟨hkey', d', g, ys, hd', hgiven, hx, hys⟩ := Reading.gives_iff.mp h
    rw [hkey] at hkey'
    cases hkey'
    rw [hd'.unique hd] at hgiven
    exact ⟨rfl, g, ys, hgiven, hx, hys⟩
  · intro h
    obtain ⟨rfl, g, ys, hgiven, hx, hys⟩ := h
    exact Reading.gives_iff.mpr ⟨hkey, d, g, ys, hd, hgiven, hx, hys⟩

/-- A child gives one value under one key. -/
theorem Gives.unique {key' x' : Value} (h : Gives s m xs c key x) (h' : Gives s m xs c key' x') :
    key' = key ∧ x' = x := by
  obtain ⟨hkey, d, g, ys, hd, hgiven, hx, -⟩ := gives_iff.mp h
  obtain ⟨rfl, g', ys', hgiven', hx', -⟩ := (hd.gives_iff hkey).mp h'
  rw [hgiven] at hgiven'
  cases hgiven'
  rw [hx] at hx'
  cases hx'
  exact ⟨rfl, rfl⟩

/-- What adding a child to a map can come to: the value that it gives is inserted, with a warning if
the key was there, or nothing is given and every warning comes from the content of the child. -/
inductive AddsEntry (s : Setting) (m : MapFocus) (xs : Value) (c : Node) : Reported Value → Prop
  | inserted {key x ys : Value} {d : Demand} {ds : Diagnostics} (hgives : Gives s m xs c key x)
    (hd : Demands s (.map m) xs c d) (hds : OnlyErrors ds)
    (hys : Value.insert m.focus.target.key xs key x = .inserted ys) :
    AddsEntry s m xs c ⟨ys, ds ++ (d.read s c).found⟩
  | replaced {key x ys : Value} {d : Demand} {ds : Diagnostics} (hgives : Gives s m xs c key x)
    (hd : Demands s (.map m) xs c d) (hds : OnlyErrors ds)
    (hys : Value.insert m.focus.target.key xs key x = .replaced ys) :
    AddsEntry s m xs c ⟨ys, ds ++ ((d.read s c).found ++ [duplicateKey m c])⟩
  | failed {ds : Diagnostics} (hgives : ∀ key x, ¬Gives s m xs c key x)
    (hds : ∀ e ∈ ds, e.isError = false → ∃ d, Demands s (.map m) xs c d ∧ e ∈ (d.read s c).found) :
    AddsEntry s m xs c ⟨xs, ds⟩

theorem AddsEntry.of_errors {ds : Diagnostics} (hgives : ∀ key x, ¬Gives s m xs c key x)
    (hds : OnlyErrors ds) : AddsEntry s m xs c ⟨xs, ds⟩ := by
  refine .failed hgives fun e he herror => ?_
  rw [hds e he] at herror
  cases herror

theorem AddsEntry.of_content {ds ds' : Diagnostics} (hgives : ∀ key x, ¬Gives s m xs c key x)
    (hd : Demands s (.map m) xs c d) (hds : OnlyErrors ds) (hds' : OnlyErrors ds') :
    AddsEntry s m xs c ⟨xs, ds ++ ((d.read s c).found ++ ds')⟩ := by
  refine .failed hgives fun e he herror => ?_
  rcases List.mem_append.mp he with he | he
  · rw [hds e he] at herror
    cases herror
  rcases List.mem_append.mp he with he | he
  · exact ⟨d, hd, he⟩
  · rw [hds' e he] at herror
    cases herror

theorem entryDemand_finish_none (xs key : Value) (trail : List String) (name : String)
    (target : Descriptor) {step : Step}
    (h : given s.types m.declaredValue step.outcome = none) :
    ∃ errors, OnlyErrors errors ∧
      (entryDemand s m xs key trail name target).finish step = ⟨xs, errors⟩ := by
  let wanted := s.types.nameOf m.declaredValue
  let complaint := s!"value of type {wanted} cannot be null"
  let write := toWrite s step.outcome m.declaredValue trail complaint
  have hvalue : write.value = none := by rw [← h, ← toWrite_value]
  refine ⟨write.found, toWrite_errors s _ _ _ _, ?_⟩
  change (write >>= fun entry => _) = _
  apply Reported.ext
  · rw [Reported.bind_value, hvalue]
    rfl
  · rw [Reported.bind_found, hvalue]
    exact List.append_nil _

/-- What is done with what was read for an entry. -/
theorem addsEntry_finish {target : Descriptor} {ds : Diagnostics}
    (hkey : readKey s m xs c.name = .ok key)
    (ht : (wantedType s c m.value (m.focus.trail ++ [c.name])).value = some target)
    (hds : OnlyErrors ds) :
    let d := entryDemand s m xs key (m.focus.trail ++ [c.name]) c.name target
    AddsEntry s m xs c ⟨(d.finish (d.read s c).value).value,
      ds ++ ((d.read s c).found ++ (d.finish (d.read s c).value).found)⟩ := by
  intro d
  have hd : Demands s (.map m) xs c d := .entry hkey ht
  cases hgiven : given s.types m.declaredValue (d.read s c).value.outcome with
  | none =>
    have hfails (k x : Value) : ¬Gives s m xs c k x := by
      simp [hd.gives_iff hkey, hgiven]
    obtain ⟨errors, herrors, hfinish⟩ := entryDemand_finish_none xs key
      (m.focus.trail ++ [c.name]) c.name target hgiven
    rw [hfinish]
    exact .of_content hfails hd hds herrors
  | some g =>
    have hfinish : d.finish (d.read s c).value =
        storeEntry s m (m.focus.trail ++ [c.name]) c.name xs key g := by
      simp only [d, entryDemand] at hgiven ⊢
      rw [toWrite_given hgiven, pure_bind]
    rw [hfinish]
    simp only [storeEntry]
    cases hx : s.types.convert g m.declaredValue with
    | error e =>
      have hfails (k x : Value) : ¬Gives s m xs c k x := by
        simp [hd.gives_iff hkey, hgiven, hx]
      exact .of_content hfails hd hds (onlyErrors_error _ _ _)
    | ok x =>
      have hgives {ys : Value} (hys : (Value.insert m.focus.target.key xs key x).map? = some ys) :
          Gives s m xs c key x := (hd.gives_iff hkey).mpr ⟨rfl, g, ys, hgiven, hx, hys⟩
      dsimp only
      cases hys : Value.insert m.focus.target.key xs key x with
      | inserted ys =>
        have hadds := AddsEntry.inserted (hgives (by rw [hys]; rfl)) hd hds hys
        simpa using hadds
      | replaced ys => exact .replaced (hgives (by rw [hys]; rfl)) hd hds hys
      | mismatch =>
        have hfails (k x' : Value) : ¬Gives s m xs c k x' := by
          intro h
          obtain ⟨-, g', ys, hg, hx', hys'⟩ := (hd.gives_iff hkey).mp h
          obtain rfl : g = g' := Option.some.inj (hgiven.symm.trans hg)
          obtain rfl : x = x' := Except.ok.inj (hx.symm.trans hx')
          rw [hys] at hys'
          cases hys'
        exact .of_content hfails hd hds (onlyErrors_error _ _ _)

theorem addEntry_addsEntry (s : Setting) (m : MapFocus) (xs : Value) (c : Node) :
    AddsEntry s m xs c ((Filling.map m).add s xs c) := by
  simp only [Filling.add, addEntry]
  cases hkey : readKey s m xs c.name with
  | error message =>
    have hfails (key x : Value) : ¬Gives s m xs c key x := by
      intro h
      rw [(gives_iff.mp h).1] at hkey
      cases hkey
    exact .of_errors hfails (onlyErrors_error _ _ _)
  | ok key =>
    have herrors := wantedType_errors s c m.value (m.focus.trail ++ [c.name])
    have hfinish {target : Descriptor} {ds : Diagnostics}
        (ht : (wantedType s c m.value (m.focus.trail ++ [c.name])).value = some target)
        (hds : OnlyErrors ds) := addsEntry_finish hkey ht hds
    have hfails (hw : (wantedType s c m.value (m.focus.trail ++ [c.name])).value = none)
        (key x : Value) : ¬Gives s m xs c key x := by
      intro h
      obtain ⟨-, d, g, ys, hd, -⟩ := gives_iff.mp h
      cases hd with
      | entry hkey' ht =>
        rw [hw] at ht
        cases ht
    dsimp only
    generalize wantedType s c m.value (m.focus.trail ++ [c.name]) = found at *
    obtain ⟨target, ds⟩ := found
    cases target with
    | none =>
      exact .of_errors (hfails rfl) (herrors.append onlyErrors_nil)
    | some target => exact hfinish rfl herrors

end

/-! What the map holds afterwards. -/

/-- A map of the type that is filled, with keys of one type. -/
def MapFocus.Holds (m : MapFocus) (IsKey : Value → Prop) (xs : Value) : Prop :=
  ∃ kind entries, m.focus.target.key = .map kind m.declaredKey m.declaredValue ∧
    xs = .map kind m.declaredKey m.declaredValue entries ∧ ∀ e ∈ entries, IsKey e.1

section

variable {s : Setting} {m : MapFocus} {IsKey : Value → Prop} {xs key x j : Value} {c : Node}
  {cs : List Node}

/-- A child that gives nothing leaves the map as it was, and every warning is about its content. -/
theorem add_of_not_gives (h : ∀ key x, ¬Gives s m xs c key x) :
    let r := (Filling.map m).add s xs c
    r.value = xs ∧ ∀ e ∈ r.found, e.isError = false →
      ∃ d, Demands s (.map m) xs c d ∧ e ∈ (d.read s c).found := by
  intro r
  have hadds : AddsEntry s m xs c r := addEntry_addsEntry s m xs c
  generalize r = r at hadds
  cases hadds with
  | inserted hgives => exact (h _ _ hgives).elim
  | replaced hgives => exact (h _ _ hgives).elim
  | failed hgives hds => exact ⟨rfl, hds⟩

section

/-- The map takes only what is of its types. -/
theorem Gives.types (hxs : m.Holds IsKey xs) (h : Gives s m xs c key x) :
    key.type = m.declaredKey ∧ x.type = m.declaredValue := by
  obtain ⟨hkey, d, g, ys, -, -, -, hys⟩ := gives_iff.mp h
  obtain ⟨kind, entries, htarget, rfl, hentries⟩ := hxs
  simp only [Value.insert, htarget, true_and] at hys
  by_contra hne
  rw [if_neg hne] at hys
  cases hys

theorem MapFocus.Holds.takes (hxs : m.Holds IsKey xs) (hkt : key.type = m.declaredKey)
    (hvt : x.type = m.declaredValue) :
    ∃ ys, (Value.insert m.focus.target.key xs key x).map? = some ys := by
  obtain ⟨kind, entries, htarget, rfl, -⟩ := hxs
  simp only [Value.insert, htarget, hkt, hvt, and_self, if_true]
  split
  · exact ⟨_, rfl⟩
  · split
    · exact ⟨_, rfl⟩
    · exact ⟨_, rfl⟩

variable (hlaw : Value.LawfulKeys IsKey)
  (hkeys : ∀ xs name key, readKey s m xs name = .ok key → IsKey key)

include hlaw hkeys

/-- The map takes what is given, and knows whether it held the key. -/
theorem Gives.insert (hxs : m.Holds IsKey xs) (h : Gives s m xs c key x) :
    ∃ ys, Value.insert m.focus.target.key xs key x =
        (if (xs.lookup key).isSome then .replaced ys else .inserted ys) ∧ m.Holds IsKey ys ∧
      ∀ j, IsKey j → ys.lookup j = if key.sameKey j then some x else xs.lookup j := by
  obtain ⟨hkt, hvt⟩ := h.types hxs
  obtain ⟨kind, entries, htarget, rfl, hentries⟩ := hxs
  obtain ⟨zs, hinsert, ⟨entries', rfl, hentries'⟩, hlookup⟩ :=
    Value.insert_spec hlaw (hkeys _ _ _ h.1) hentries kind hkt hvt
  rw [htarget]
  exact ⟨_, hinsert, ⟨kind, entries', htarget, rfl, hentries'⟩, hlookup⟩

/-- A child that gives a value changes what is held under its key, with one warning if there was
something before. -/
theorem Gives.add (hxs : m.Holds IsKey xs) (h : Gives s m xs c key x) :
    let r := (Filling.map m).add s xs c
    m.Holds IsKey r.value ∧
      (∀ j, IsKey j → r.value.lookup j = if key.sameKey j then some x else xs.lookup j) ∧
      ∃ d ds, Demands s (.map m) xs c d ∧ OnlyErrors ds ∧ r.found = ds ++ ((d.read s c).found ++
        if (xs.lookup key).isSome then [duplicateKey m c] else []) := by
  intro r
  obtain ⟨ys, hinsert, hholds, hlookup⟩ := h.insert hlaw hkeys hxs
  have hadds : AddsEntry s m xs c r := addEntry_addsEntry s m xs c
  generalize r = r at hadds
  cases hadds with
  | inserted hgives hd hds hys =>
    obtain ⟨rfl, rfl⟩ := h.unique hgives
    rw [hinsert] at hys
    split at hys
    · cases hys
    · rename_i hnew
      cases hys
      refine ⟨hholds, hlookup, _, _, hd, hds, ?_⟩
      rw [if_neg hnew, List.append_nil]
  | replaced hgives hd hds hys =>
    obtain ⟨rfl, rfl⟩ := h.unique hgives
    rw [hinsert] at hys
    split at hys
    · rename_i hold
      cases hys
      refine ⟨hholds, hlookup, _, _, hd, hds, ?_⟩
      rw [if_pos hold]
    · cases hys
  | failed hgives hds => exact (hgives _ _ h).elim

theorem add_holds (hxs : m.Holds IsKey xs) (c : Node) :
    m.Holds IsKey ((Filling.map m).add s xs c).value := by
  by_cases h : ∃ key x, Gives s m xs c key x
  · obtain ⟨key, x, h⟩ := h
    exact (h.add hlaw hkeys hxs).1
  · simp only [not_exists] at h
    rw [(add_of_not_gives h).1]
    exact hxs

theorem add_lookup (hxs : m.Holds IsKey xs) (hj : IsKey j)
    (h : ∀ key x, Gives s m xs c key x → key.sameKey j = false) :
    ((Filling.map m).add s xs c).value.lookup j = xs.lookup j := by
  by_cases hgives : ∃ key x, Gives s m xs c key x
  · obtain ⟨key, x, hgives⟩ := hgives
    have hlookup := (hgives.add hlaw hkeys hxs).2.1 j hj
    simpa [h key x hgives] using hlookup
  · simp only [not_exists] at hgives
    rw [(add_of_not_gives hgives).1]

theorem fill_holds (hxs : m.Holds IsKey xs) (cs : List Node) :
    m.Holds IsKey ((Filling.map m).fill s cs xs).value := by
  induction cs generalizing xs with
  | nil => exact hxs
  | cons c cs ih => exact ih (add_holds hlaw hkeys hxs c)

/-- A key that no child gives keeps its value. -/
theorem fill_lookup (hxs : m.Holds IsKey xs) (hj : IsKey j)
    (h : ∀ before c after key x, cs = before ++ c :: after →
      Gives s m ((Filling.map m).fill s before xs).value c key x → key.sameKey j = false) :
    ((Filling.map m).fill s cs xs).value.lookup j = xs.lookup j := by
  induction cs generalizing xs with
  | nil => rfl
  | cons c cs ih =>
    have hfirst := add_lookup hlaw hkeys hxs hj fun key x hgives => h [] c cs key x rfl hgives
    have hrest := ih (add_holds hlaw hkeys hxs c) fun before c' after key x hcs hgives =>
      h (c :: before) c' after key x (by rw [hcs]; rfl) hgives
    exact hrest.trans hfirst

/-- The last child that gives a key determines its value. -/
theorem fill_lookup_last (hxs : m.Holds IsKey xs) (hj : IsKey j) {before after : List Node}
    (hgives : Gives s m ((Filling.map m).fill s before xs).value c key x)
    (hsame : key.sameKey j = true)
    (hlast : ∀ before' c' after' key' x', after = before' ++ c' :: after' →
      Gives s m ((Filling.map m).fill s (before ++ c :: before') xs).value c' key' x' →
        key'.sameKey j = false) :
    ((Filling.map m).fill s (before ++ c :: after) xs).value.lookup j = some x := by
  have hbefore := fill_holds hlaw hkeys hxs before
  have hadd := (hgives.add hlaw hkeys hbefore).2.1 j hj
  rw [hsame, if_pos rfl] at hadd
  have hrest := fill_lookup hlaw hkeys (add_holds hlaw hkeys hbefore c) hj
    fun before' c' after' key' x' (hafter : after = _) hgives' => by
      apply hlast before' c' after' key' x' hafter
      rw [Filling.fill_append]
      exact hgives'
  rw [Filling.fill_append]
  exact hrest.trans hadd

end

end

/-! Without a parser for the keys. -/

/-- Keys that cannot be read: there is one complaint for each child, and the map stays. -/
theorem fill_keyless {s : Setting} {m : MapFocus}
    (h : ∀ p, m.keyParser = some p → p.contextFree = false) (cs : List Node) :
    ∃ message, ∀ xs, (Filling.map m).fill s cs xs =
      ⟨xs, cs.map fun c => .error .conversion (pathOf (m.focus.trail ++ [c.name])) message⟩ := by
  obtain ⟨complaint, hcomplaint⟩ :
      ∃ message, ∀ xs name, readKey s m xs name = .error message := by
    unfold readKey
    cases hp : m.keyParser with
    | none => exact ⟨_, fun xs name => rfl⟩
    | some p => exact ⟨_, fun xs name => by simp only [h p hp]; rfl⟩
  refine ⟨s!"{complaint}; entry skipped", fun xs => ?_⟩
  induction cs with
  | nil => rfl
  | cons c cs ih =>
    have hadd : (Filling.map m).add s xs c = ⟨xs, [.error .conversion
        (pathOf (m.focus.trail ++ [c.name])) s!"{complaint}; entry skipped"]⟩ := by
      simp only [Filling.add, addEntry, hcomplaint]
      rfl
    simp only [Filling.fill, hadd]
    exact Reported.ext (by simp [ih]) (by simp [ih])

/-! Maps of different kinds. -/

/-- Two maps of the same types, of whatever kinds, that hold the same. -/
def SameEntries (IsKey : Value → Prop) (xs ys : Value) : Prop :=
  ∃ kt vt, Value.MapOf IsKey kt vt xs ∧ Value.MapOf IsKey kt vt ys ∧
    ∀ j, IsKey j → ys.lookup j = xs.lookup j

/-- The same focus for another type of map. -/
def MapFocus.as (m : MapFocus) (t : Descriptor) : MapFocus :=
  { m with focus := { m.focus with target := t } }

section

variable {s : Setting} {m : MapFocus} {t : Descriptor} {IsKey : Value → Prop}
  {xs ys key x j : Value} {c : Node}

theorem MapFocus.Holds.mapOf (h : m.Holds IsKey xs) :
    Value.MapOf IsKey m.declaredKey m.declaredValue xs := by
  obtain ⟨kind, entries, -, rfl, hentries⟩ := h
  exact ⟨kind, entries, rfl, hentries⟩

variable (hs : BlindTo (SameEntries IsKey) s) (hparser : ∀ p, m.keyParser = some p → p ∈ s.parsers)
  (hvalue : Registered s m.value)

include hs hparser

theorem readKey_same (h : SameEntries IsKey xs ys) (name : String) :
    readKey s (m.as t) ys name = readKey s m xs name := by
  unfold readKey
  simp only [MapFocus.as]
  cases hp : m.keyParser with
  | none => rfl
  | some p =>
    let c : Context := ⟨none, name, m.key.key, m.key.key, none, none, m.focus.member, .root⟩
    have hparse : p.parse s.env (c.ownedBy xs) = p.parse s.env (c.ownedBy ys) :=
      parse_ownedBy hs h (hparser p hp) c
    simp only [Context.ownedBy, c] at hparse
    simp only [hparse]

include hvalue

/-- What a child gives does not depend on the kind of the map. -/
theorem Gives.same (hxs : m.Holds IsKey xs) (hys : (m.as t).Holds IsKey ys)
    (h : SameEntries IsKey xs ys) (hgives : Gives s m xs c key x) :
    Gives s (m.as t) ys c key x := by
  obtain ⟨hkt, hvt⟩ := hgives.types hxs
  obtain ⟨hkey, d, g, zs, hd, hgiven, hx, -⟩ := gives_iff.mp hgives
  have hkey' : readKey s (m.as t) ys c.name = .ok key := by
    rw [readKey_same hs hparser h, hkey]
  obtain ⟨zs, hzs⟩ := hys.takes hkt hvt
  have hregistered : Registered s d.focus.target := hd.registered hvalue
  cases hd with
  | @entry _ _ _ _ target hkey'' ht =>
    rw [hkey] at hkey''
    cases hkey''
    let focus : Focus := ⟨target, m.value, none, m.focus.member, .entry key,
      m.focus.trail ++ [c.name]⟩
    have hread : readNode s c (focus.ownedBy xs) none = readNode s c (focus.ownedBy ys) none :=
      readNode_ownedBy hs h c (f := focus) hregistered none
    have hgiven' : given s.types m.declaredValue
        (readNode s c (focus.ownedBy ys) none).value.outcome = some g := by
      rw [← hread]
      exact hgiven
    exact gives_iff.mpr ⟨hkey', _, g, zs, .entry hkey' ht, hgiven', hx, hzs⟩

end

/-- What is held does not depend on the kind of the map. -/
theorem fill_same {s : Setting} {m : MapFocus} {t : Descriptor} {IsKey : Value → Prop}
    {xs ys : Value} (hlaw : Value.LawfulKeys IsKey)
    (hkeys : ∀ xs name key, readKey s m xs name = .ok key → IsKey key)
    (hs : BlindTo (SameEntries IsKey) s) (hparser : ∀ p, m.keyParser = some p → p ∈ s.parsers)
    (hvalue : Registered s m.value) (hxs : m.Holds IsKey xs) (hys : (m.as t).Holds IsKey ys)
    (h : ∀ j, IsKey j → ys.lookup j = xs.lookup j) (cs : List Node) {j : Value} (hj : IsKey j) :
    ((Filling.map (m.as t)).fill s cs ys).value.lookup j =
      ((Filling.map m).fill s cs xs).value.lookup j := by
  have hkeys' : ∀ xs name key, readKey s (m.as t) xs name = .ok key → IsKey key := hkeys
  induction cs generalizing xs ys with
  | nil => exact h j hj
  | cons c cs ih =>
    apply ih (add_holds hlaw hkeys hxs c) (add_holds hlaw hkeys' hys c)
    intro i hi
    have hsame : SameEntries IsKey xs ys := ⟨_, _, hxs.mapOf, hys.mapOf, h⟩
    have hsame' : SameEntries IsKey ys xs :=
      ⟨_, _, hys.mapOf, hxs.mapOf, fun i hi => (h i hi).symm⟩
    by_cases hgives : ∃ key x, Gives s m xs c key x
    · obtain ⟨key, x, hgives⟩ := hgives
      have hgives' := hgives.same hs hparser hvalue hxs hys hsame
      rw [(hgives.add hlaw hkeys hxs).2.1 i hi, (hgives'.add hlaw hkeys' hys).2.1 i hi, h i hi]
    · simp only [not_exists] at hgives
      have hnone (key x : Value) : ¬Gives s (m.as t) ys c key x := by
        intro h'
        exact hgives key x
          (h'.same (m := m.as t) (t := m.focus.target) hs hparser hvalue hys hxs hsame')
      rw [(add_of_not_gives hgives).1, (add_of_not_gives hnone).1, h i hi]

/-! All of it. -/

/-- Filling a map from children: the last child that gives a key wins. -/
structure LastWins (s : Setting) (IsKey : Value → Prop) (m : MapFocus) (cs : List Node)
    (v : Value) : Prop where
  /-- A key holds what the last child gives that gives this key. -/
  last : ∀ j, IsKey j → ∀ before c after key x, cs = before ++ c :: after →
    Gives s m ((Filling.map m).fill s before v).value c key x → key.sameKey j = true →
    (∀ before' c' after' key' x', after = before' ++ c' :: after' →
      Gives s m ((Filling.map m).fill s (before ++ c :: before') v).value c' key' x' →
        key'.sameKey j = false) →
    ((Filling.map m).fill s cs v).value.lookup j = some x
  /-- A key that no child gives holds what it held before. -/
  kept : ∀ j, IsKey j →
    (∀ before c after key x, cs = before ++ c :: after →
      Gives s m ((Filling.map m).fill s before v).value c key x → key.sameKey j = false) →
    ((Filling.map m).fill s cs v).value.lookup j = v.lookup j
  /-- The findings are those about the children, one after the other. -/
  found : ∀ before c after, cs = before ++ c :: after →
    let xs := ((Filling.map m).fill s before v).value
    let r := (Filling.map m).add s xs c
    ((Filling.map m).fill s cs v).found = ((Filling.map m).fill s before v).found ++
      (r.found ++ ((Filling.map m).fill s after r.value).found)
  /-- Besides errors and what is found in its content, a child that gives a value leads to one
  warning if its key was there, and to none if it was not. -/
  accepted : ∀ before c after, cs = before ++ c :: after →
    let xs := ((Filling.map m).fill s before v).value
    ∀ key x, Gives s m xs c key x → ∃ d ds, Demands s (.map m) xs c d ∧ OnlyErrors ds ∧
      ((Filling.map m).add s xs c).found = ds ++ ((d.read s c).found ++
        if (xs.lookup key).isSome then [duplicateKey m c] else [])
  /-- A child that gives nothing changes nothing, and leads to no warning of its own. -/
  failed : ∀ before c after, cs = before ++ c :: after →
    let xs := ((Filling.map m).fill s before v).value
    let r := (Filling.map m).add s xs c
    (∀ key x, ¬Gives s m xs c key x) → r.value = xs ∧ ∀ e ∈ r.found, e.isError = false →
      ∃ d, Demands s (.map m) xs c d ∧ e ∈ (d.read s c).found
  /-- Where keys cannot be read, nothing changes, and there is one error for each child. -/
  keyless : (∀ p, m.keyParser = some p → p.contextFree = false) → ∃ message,
    (Filling.map m).fill s cs v =
      ⟨v, cs.map fun c => .error .conversion (pathOf (m.focus.trail ++ [c.name])) message⟩
  /-- A map of another kind that held the same holds the same afterwards. -/
  agree : BlindTo (SameEntries IsKey) s → ∀ t w, (m.as t).Holds IsKey w →
    (∀ j, IsKey j → w.lookup j = v.lookup j) → ∀ j, IsKey j →
      ((Filling.map (m.as t)).fill s cs w).value.lookup j =
        ((Filling.map m).fill s cs v).value.lookup j

theorem fill_lastWins {s : Setting} {IsKey : Value → Prop} {m : MapFocus} {v : Value}
    (hlaw : Value.LawfulKeys IsKey)
    (hkeys : ∀ xs name key, readKey s m xs name = .ok key → IsKey key)
    (hparser : ∀ p, m.keyParser = some p → p ∈ s.parsers) (hvalue : Registered s m.value)
    (hv : m.Holds IsKey v) (cs : List Node) : LastWins s IsKey m cs v := by
  constructor
  case last =>
    intro j hj before c after key x hcs hgives hsame hlast
    rw [hcs]
    exact fill_lookup_last hlaw hkeys hv hj hgives hsame hlast
  case kept =>
    intro j hj hnone
    exact fill_lookup hlaw hkeys hv hj hnone
  case found =>
    intro before c after hcs xs r
    rw [hcs, Filling.fill_append]
    rfl
  case accepted =>
    intro before c after hcs xs key x hgives
    exact (hgives.add hlaw hkeys (fill_holds hlaw hkeys hv before)).2.2
  case failed =>
    intro before c after hcs xs r hnone
    exact add_of_not_gives hnone
  case keyless =>
    intro hkeyless
    obtain ⟨message, hfill⟩ := fill_keyless hkeyless cs
    exact ⟨message, hfill v⟩
  case agree =>
    intro hs t w hw hsame j hj
    exact fill_same hlaw hkeys hs hparser hvalue hv hw hsame cs hj

/-- Without a type override, the keys that the parsers give which come with every load are keys of
the declared type, if its descriptor says truly which references it is for. -/
theorem readKey_keyOf {s : Setting} {m : MapFocus}
    (hk : s.types.get? m.declaredKey = some m.key) (hself : m.key.key = m.declaredKey)
    (href : ∀ target, m.key.shape = .ref target → m.declaredKey = .ref target)
    (hparser : m.keyParser = parserFor Parsers.standard m.key) {xs key : Value} {name : String}
    (h : readKey s m xs name = .ok key) : Value.KeyOf m.key key := by
  unfold readKey at h
  rw [hparser] at h
  dsimp only at h
  split at h
  · cases h
  · rename_i p hp
    split at h
    · cases h
    · split at h
      · cases h
      · rename_i k hparse
        have hkey : Value.KeyOf m.key k := Value.keyOf_of_parse hp (hself ▸ hk) hparse
        have htype : k.type = m.declaredKey := by
          cases hkey with
          | ref hshape => exact (href _ hshape).symm
          | variant => exact hself
          | plain => exact hself
        rw [← htype, s.types.convert_self] at h
        cases h
        exact hkey

/-! Prices by number, in a sorted and in a hashed map. -/

section

open Arsenal (plainType)

def priceMap (kind : MapKind) : Descriptor :=
  plainType (.map kind .i32 .i32) (.map .i32 .i32)

def priceSetting : Setting :=
  ⟨⟨⟨[(.i32, plainType .i32 .scalar), ((priceMap .sorted).key, priceMap .sorted),
    ((priceMap .hashed).key, priceMap .hashed)], []⟩, {}, fun _ => none⟩, Parsers.standard⟩

def whole (n : Int) : Value := .int .i32 n

def oldPrices (kind : MapKind) : Value :=
  .map kind .i32 .i32 [(whole 2, whole 20), (whole 1, whole 10)]

def priceNode : Node :=
  ⟨"Prices", .empty, none, [⟨"01", .empty, some "11", []⟩, ⟨"3", .empty, some "dear", []⟩,
    ⟨"1", .empty, some "12", []⟩]⟩

def priceFocus (kind : MapKind) : Focus := .root (priceMap kind) ["Shop"]

def prices (kind : MapKind) : MapFocus :=
  ⟨priceFocus kind, .i32, .i32, plainType .i32 .scalar, plainType .i32 .scalar,
    parserFor Parsers.standard (plainType .i32 .scalar)⟩

theorem whole_keyOf {n : Int} (h : (Decimal.Range.signed 32).contains n = true) :
    Value.KeyOf (plainType .i32 .scalar) (whole n) := by
  have hk : (TypeKey.i32, Decimal.Range.signed 32) ∈ Core.integers := by simp [Core.integers]
  exact .plain (fun _ hshape => by cases hshape) (Plain.int hk h)

end

end DefLoad.Reading
