import DefLoad.Proofs.Conversion
import DefLoad.Proofs.Filling

/-!
Complaints about values that turn up where they do not fit, told apart from all others by their
words. A document can bring about one kind of them: with a type for a child of a list or a map that
fits the type which the document puts there for all children, but not the declared one.
-/

namespace DefLoad.Reading

/-- The words with which these complaints begin. -/
def mismatchWords : List String :=
  ["value does not fit ", "item is not assignable to ", "cannot add item to ",
    "key is not assignable to ", "value is not assignable to ", "cannot insert into ",
    "cannot assign member '"]

/-- The words with which other complaints about values begin. -/
def otherWords : List String :=
  ["cannot parse '", "cannot parse key '", "no parser handles ", "no parser handles key type ",
    "parser '", "member '", "item of type ", "duplicate key '"]

section

variable (r : TypeTable)

/-- A value has turned up where it does not fit. A value of a type that cannot be stored in a member
is complained about in the same words as a null, which is another matter. -/
def Mismatch (d : Diagnostic) : Prop :=
  d.stage = .conversion ∧
    ((∃ words ∈ mismatchWords, BeginsWith d.message words) ∨
      BeginsWith d.message "value of type " ∧
        ∀ k, d.message ≠ s!"value of type {r.nameOf k} cannot be null")

/-- A child in the tree of a node asks for a type that fits the one that its parent names for its
children, and that one fits the declared type, but the type asked for does not: what is read as that
type cannot be stored. -/
inductive Displaced : Node → Diagnostic → Prop
  | here {n c : Node} {source element declared : TypeKey} {path message : String}
    (hc : c ∈ n.children) (helement : NamedBy r n "ElementType" element)
    (hsource : NamedBy r c "Type" source) (hfits : r.fits source element = true)
    (hfits' : r.fits element declared = true) (hnot : r.fits source declared = false)
    (hmessage : message = s!"item is not assignable to {r.nameOf declared}" ∨
      message = s!"value is not assignable to {r.nameOf declared}") :
    Displaced n (.error .conversion path message)
  | inside {n c : Node} {d : Diagnostic} (hc : c ∈ n.children) (h : Displaced c d) : Displaced n d

/-- Values turn up where they do not fit only when the tree of the node asks for it. -/
def Clean (n : Node) (ds : Diagnostics) : Prop := ∀ d ∈ ds, Mismatch r d → Displaced r n d

end

section

variable {r : TypeTable} {n c : Node} {d : Diagnostic} {ds ds' : Diagnostics}

/-- A type that is asked for fits the declared one unless both the parent and the child name types
of their own. -/
theorem Displaced.of_misfit {source element declared : TypeKey} {path message : String}
    (hc : c ∈ n.children) (helement : element = declared ∨ NamedBy r n "ElementType" element)
    (hsource : source = element ∨ NamedBy r c "Type" source) (hfits : r.fits source element = true)
    (hfits' : r.fits element declared = true) (hnot : r.fits source declared = false)
    (hmessage : message = s!"item is not assignable to {r.nameOf declared}" ∨
      message = s!"value is not assignable to {r.nameOf declared}") :
    Displaced r n (.error .conversion path message) := by
  rcases helement with rfl | helement
  · rw [hfits] at hnot
    cases hnot
  · rcases hsource with rfl | hsource
    · rw [hfits'] at hnot
      cases hnot
    · exact .here hc helement hsource hfits hfits' hnot hmessage

/-- Where all stand-ins are concrete, nothing is displaced. -/
theorem Displaced.not_concrete (h : Displaced r n d) : ¬r.Concrete := by
  intro hr
  induction h with
  | here _ _ _ hfits hfits' hnot =>
    rw [hr.fits_trans hfits hfits'] at hnot
    cases hnot
  | inside _ _ ih => exact ih

theorem clean_nil : Clean r n [] := by simp [Clean]

theorem Clean.append (h : Clean r n ds) (h' : Clean r n ds') : Clean r n (ds ++ ds') := by
  intro d hd
  rcases List.mem_append.mp hd with hd | hd
  · exact h d hd
  · exact h' d hd

theorem Clean.inside (h : Clean r c ds) (hc : c ∈ n.children) : Clean r n ds :=
  fun d hd hm => .inside hc (h d hd hm)

theorem clean_of_displaced (h : Displaced r n d) : Clean r n [d] := by
  intro e he _
  rw [List.mem_singleton.mp he]
  exact h

theorem clean_singleton (h : ¬Mismatch r d) : Clean r n [d] := by
  intro e he hm
  rw [List.mem_singleton.mp he] at hm
  exact absurd hm h

theorem clean_of_stage (h : d.stage ≠ .conversion) : Clean r n [d] :=
  clean_singleton fun hm => h hm.1

theorem clean_of_words (words : String) (hwords : words ∈ otherWords)
    (h : BeginsWith d.message words) : Clean r n [d] := by
  have hapart : ∀ a ∈ otherWords, ∀ b ∈ "value of type " :: mismatchWords,
      ¬(a.toList <+: b.toList ∨ b.toList <+: a.toList) := by decide
  apply clean_singleton
  rintro ⟨-, ⟨other, hother, hbegins⟩ | ⟨hbegins, -⟩⟩
  · exact hapart words hwords other (List.mem_cons_of_mem _ hother) (h.clash hbegins)
  · exact hapart words hwords _ List.mem_cons_self (h.clash hbegins)

theorem clean_noNull (trail : List String) (k : TypeKey) :
    Clean r n [.error .conversion (pathOf trail)
      s!"value of type {r.nameOf k} cannot be null"] := by
  have hbegins : BeginsWith s!"value of type {r.nameOf k} cannot be null" "value of type " :=
    (beginsWith_append _ _).append _
  have hapart : ∀ b ∈ mismatchWords,
      ¬("value of type ".toList <+: b.toList ∨ b.toList <+: "value of type ".toList) := by decide
  apply clean_singleton
  rintro ⟨-, ⟨other, hother, hother'⟩ | ⟨-, hnot⟩⟩
  · exact hapart other hother (hbegins.clash hother')
  · exact hnot k rfl

theorem OfTypes.clean (h : OfTypes ds) : Clean r n ds := by
  intro d hd hm
  have hstage := hm.1
  rw [h d hd] at hstage
  cases hstage

theorem Fails.clean {f : Focus} {current : Option Value} {step : Reported Step}
    (h : Fails f current step) : Clean r n step.found := by
  cases h with
  | ofTypes ds message hds => exact hds.clean.append (clean_of_stage (by simp [Diagnostic.error]))
  | building ds message hds => exact hds.clean.append (clean_of_stage (by simp [Diagnostic.error]))
  | parsing message hwords => exact clean_of_words _ (by simp [otherWords]) hwords
  | unhandled message hwords => exact clean_of_words _ (by simp [otherWords]) hwords

end

end DefLoad.Reading
