/-!
Association lists that keep the order of first insertion: replacing a value keeps its position,
erasing a key closes the gap.
-/

namespace DefLoad

abbrev Assoc (κ ν : Type) := List (κ × ν)

namespace Assoc

variable {κ ν : Type} [BEq κ]

def get? : Assoc κ ν → κ → Option ν
  | [], _ => none
  | (a, v) :: m, k => if a == k then some v else get? m k

def set : Assoc κ ν → κ → ν → Assoc κ ν
  | [], k, v => [(k, v)]
  | (a, w) :: m, k, v => if a == k then (a, v) :: m else (a, w) :: set m k v

def erase : Assoc κ ν → κ → Assoc κ ν
  | [], _ => []
  | (a, w) :: m, k => if a == k then m else (a, w) :: erase m k

def contains (m : Assoc κ ν) (k : κ) : Bool := (get? m k).isSome

def keys (m : Assoc κ ν) : List κ := m.map Prod.fst

@[simp] theorem get?_set [LawfulBEq κ] (m : Assoc κ ν) (k j : κ) (v : ν) :
    get? (set m k v) j = if k == j then some v else get? m j := by
  induction m with
  | nil => simp [set, get?]
  | cons e m ih =>
    obtain ⟨a, w⟩ := e
    by_cases ha : a = k
    · subst ha; by_cases hj : a = j <;> simp [set, get?, hj]
    · by_cases hj : a = j
      · subst hj; simp [set, get?, ha, Ne.symm ha]
      · simp [set, get?, ha, hj, ih]

theorem set_set [LawfulBEq κ] (m : Assoc κ ν) (k : κ) (v w : ν) :
    set (set m k v) k w = set m k w := by
  induction m with
  | nil => simp [set]
  | cons e m ih =>
    obtain ⟨a, x⟩ := e
    by_cases ha : a == k <;> simp [set, ha, ih]

/-- Two keys can be set in either order when one of them is there already. -/
theorem set_comm [LawfulBEq κ] {m : Assoc κ ν} {k j : κ} (hne : k ≠ j) (hk : contains m k)
    (v w : ν) : set (set m k v) j w = set (set m j w) k v := by
  induction m with
  | nil => simp [contains, get?] at hk
  | cons e m ih =>
    obtain ⟨a, x⟩ := e
    by_cases hak : a = k
    · subst hak
      simp [set, hne]
    · by_cases haj : a = j
      · subst haj
        simp [set, hak]
      · have hk' : contains m k := by simpa [contains, get?, hak] using hk
        simp [set, hak, haj, ih hk']

theorem set_of_get? {m : Assoc κ ν} {k : κ} {v : ν} (h : get? m k = some v) : set m k v = m := by
  induction m with
  | nil => simp [get?] at h
  | cons e m ih =>
    obtain ⟨a, w⟩ := e
    by_cases ha : a == k
    · have hw : w = v := by simpa [get?, ha] using h
      simp [set, ha, hw]
    · have h' : get? m k = some v := by simpa [get?, ha] using h
      simp [set, ha, ih h']

theorem keys_set_of_contains (m : Assoc κ ν) (k : κ) (v : ν) (h : contains m k) :
    keys (set m k v) = keys m := by
  induction m with
  | nil => simp [contains, get?] at h
  | cons e m ih =>
    obtain ⟨a, w⟩ := e
    by_cases ha : a == k
    · simp [set, keys, ha]
    · have h' : contains m k := by simpa [contains, get?, ha] using h
      simpa [set, keys, ha] using ih h'

theorem set_of_not_contains (m : Assoc κ ν) (k : κ) (v : ν) (h : contains m k = false) :
    set m k v = m ++ [(k, v)] := by
  induction m with
  | nil => rfl
  | cons e m ih =>
    obtain ⟨a, w⟩ := e
    by_cases ha : a == k
    · simp [contains, get?, ha] at h
    · have h' : contains m k = false := by simpa [contains, get?, ha] using h
      simp [set, ha, ih h']

theorem get?_eq_none_iff [LawfulBEq κ] (m : Assoc κ ν) (k : κ) : get? m k = none ↔ k ∉ keys m := by
  induction m with
  | nil => simp [get?, keys]
  | cons e m ih =>
    obtain ⟨a, w⟩ := e
    by_cases ha : a = k
    · simp [get?, keys, ha]
    · simpa [get?, keys, ha, Ne.symm ha] using ih

theorem get?_erase_ne [LawfulBEq κ] (m : Assoc κ ν) {k j : κ} (h : k ≠ j) :
    get? (erase m k) j = get? m j := by
  induction m with
  | nil => rfl
  | cons e m ih =>
    obtain ⟨a, w⟩ := e
    by_cases ha : a = k
    · subst ha; simp [erase, get?, h]
    · have hk : (a == k) = false := by simpa using ha
      simp [erase, get?, hk, ih]

theorem mem_of_get? [LawfulBEq κ] {m : Assoc κ ν} {k : κ} {v : ν} (h : get? m k = some v) :
    (k, v) ∈ m := by
  induction m with
  | nil => simp [get?] at h
  | cons e m ih =>
    obtain ⟨a, w⟩ := e
    by_cases ha : a = k
    · subst ha
      simp only [get?, beq_self_eq_true, if_true, Option.some.injEq] at h
      simp [h]
    · exact List.mem_cons_of_mem _ (ih (by simpa [get?, ha] using h))

theorem get?_append {m : Assoc κ ν} {k : κ} {v : ν} (h : get? m k = some v) (m' : Assoc κ ν) :
    get? (m ++ m') k = some v := by
  induction m with
  | nil => cases h
  | cons e m ih =>
    obtain ⟨a, w⟩ := e
    by_cases ha : a == k
    · simpa [get?, ha] using h
    · have h' : get? m k = some v := by simpa [get?, ha] using h
      simpa [get?, ha] using ih h'

theorem get?_of_mem [LawfulBEq κ] {m : Assoc κ ν} (hd : (keys m).Nodup) {k : κ} {v : ν}
    (h : (k, v) ∈ m) : get? m k = some v := by
  induction m with
  | nil => cases h
  | cons e m ih =>
    obtain ⟨hnot, hd⟩ := List.nodup_cons.mp hd
    rcases List.mem_cons.mp h with rfl | h
    · simp [get?]
    · have hk : k ∈ keys m := List.mem_map_of_mem h
      have hne : e.1 ≠ k := fun he => hnot (he ▸ hk)
      simp [get?, hne, ih hd h]

theorem get?_erase_self [LawfulBEq κ] {m : Assoc κ ν} (hd : (keys m).Nodup) (k : κ) :
    get? (erase m k) k = none := by
  induction m with
  | nil => rfl
  | cons e m ih =>
    obtain ⟨a, w⟩ := e
    obtain ⟨hnot, hd⟩ := List.nodup_cons.mp hd
    by_cases ha : a = k
    · subst ha
      simpa [erase] using (get?_eq_none_iff m a).mpr hnot
    · simp [erase, get?, ha, ih hd]

theorem erase_sublist (m : Assoc κ ν) (k : κ) : (erase m k).Sublist m := by
  induction m with
  | nil => exact List.Sublist.slnil
  | cons e m ih =>
    obtain ⟨a, w⟩ := e
    by_cases ha : a == k
    · simp [erase, ha]
    · simpa [erase, ha] using ih

theorem keys_erase_sublist (m : Assoc κ ν) (k : κ) : (keys (erase m k)).Sublist (keys m) :=
  (erase_sublist m k).map Prod.fst

theorem nodup_keys_erase {m : Assoc κ ν} (h : (keys m).Nodup) (k : κ) : (keys (erase m k)).Nodup :=
  h.sublist (keys_erase_sublist m k)

theorem nodup_keys_set [LawfulBEq κ] {m : Assoc κ ν} (h : (keys m).Nodup) (k : κ) (v : ν) :
    (keys (set m k v)).Nodup := by
  cases hc : contains m k with
  | true => rwa [keys_set_of_contains m k v hc]
  | false =>
    have hk : k ∉ keys m := by
      rw [← get?_eq_none_iff]
      simpa [contains] using hc
    rw [set_of_not_contains m k v hc]
    simp only [keys, List.map_append, List.map_cons, List.map_nil, List.nodup_append] at hk h ⊢
    refine ⟨h, by simp, ?_⟩
    intro a ha b hb he
    simp only [List.mem_singleton] at hb
    exact hk (hb ▸ he ▸ ha)

/-- The values under the keys, each of which stands once, are all there is. -/
theorem ext_of_nodup [LawfulBEq κ] {a b : Assoc κ ν} (hk : keys a = keys b) (hd : (keys a).Nodup)
    (h : ∀ k ∈ keys a, get? a k = get? b k) : a = b := by
  induction a generalizing b with
  | nil => cases b with
    | nil => rfl
    | cons e b => simp [keys] at hk
  | cons e a ih =>
    cases b with
    | nil => simp [keys] at hk
    | cons e' b =>
      obtain ⟨k, v⟩ := e
      obtain ⟨k', v'⟩ := e'
      simp only [keys, List.map_cons, List.cons.injEq] at hk
      obtain ⟨rfl, hk⟩ := hk
      obtain ⟨hnot, hd⟩ := List.nodup_cons.mp hd
      have hv : v = v' := by simpa [get?] using h k List.mem_cons_self
      have hrest : a = b := by
        apply ih hk hd
        intro j hj
        have hne : k ≠ j := fun he => hnot (he ▸ hj)
        simpa [get?, hne] using h j (List.mem_cons_of_mem k hj)
      rw [hv, hrest]

end Assoc

end DefLoad
