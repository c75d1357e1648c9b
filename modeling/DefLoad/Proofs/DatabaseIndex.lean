import DefLoad.Proofs.SessionRun
import DefLoad.Proofs.Subtypes

/-!
The two indices of a database agree after every run: under each type stand exactly the registered
defs of that type and of its subtypes. A run may make defs, register and unregister them, and hold
any number of loads, finished or given up.
-/

namespace DefLoad

namespace Database

theorem mem_indexTypes {db : Database} {k j : TypeKey} :
    j ∈ db.indexTypes k ↔ db.types.isSubtype k j = true := by
  rw [indexTypes, List.mem_cons, TypeTable.isSubtype_iff_eq_or_mem]

theorem nodup_indexTypes (db : Database) (k : TypeKey) : (db.indexTypes k).Nodup := by
  obtain ⟨hend, -⟩ := TypeTable.supertypes_spec db.types k
  exact List.nodup_cons.mpr ⟨hend.other, hend.nodup⟩

/-! The index by type, under one key. -/

def under (m : Assoc TypeKey (List Handle)) (k : TypeKey) : List Handle := (m.get? k).getD []

theorem under_addTo (m : Assoc TypeKey (List Handle)) (h : Handle) (j k : TypeKey) :
    under (addTo m h j) k = if k = j then under m k ++ [h] else under m k := by
  unfold under addTo
  rw [Assoc.get?_set]
  by_cases hk : k = j
  · simp [hk]
  · have hj : ¬j = k := fun he => hk he.symm
    simp [hk, hj]

theorem under_addAll {ks : List TypeKey} (hd : ks.Nodup) (m : Assoc TypeKey (List Handle))
    (h : Handle) (k : TypeKey) :
    under (ks.foldl (addTo · h) m) k = if k ∈ ks then under m k ++ [h] else under m k := by
  induction ks generalizing m with
  | nil => simp
  | cons j ks ih =>
    obtain ⟨hnot, hd⟩ := List.nodup_cons.mp hd
    rw [List.foldl_cons, ih hd, under_addTo]
    by_cases hk : k = j
    · subst hk
      simp [hnot]
    · simp [hk]

theorem nodup_addAll {m : Assoc TypeKey (List Handle)} (hm : (Assoc.keys m).Nodup) (h : Handle)
    (ks : List TypeKey) : (Assoc.keys (ks.foldl (addTo · h) m)).Nodup := by
  induction ks generalizing m with
  | nil => exact hm
  | cons j ks ih => exact ih (Assoc.nodup_keys_set hm j _)

theorem nodup_removeFrom {m : Assoc TypeKey (List Handle)} (hm : (Assoc.keys m).Nodup) (h : Handle)
    (j : TypeKey) : (Assoc.keys (removeFrom m h j)).Nodup := by
  unfold removeFrom
  split
  case h_1 => exact hm
  case h_2 =>
    split
    case h_1 => exact Assoc.nodup_keys_erase hm j
    case h_2 => exact Assoc.nodup_keys_set hm j _

theorem under_removeFrom {m : Assoc TypeKey (List Handle)} (hm : (Assoc.keys m).Nodup) (h : Handle)
    (j k : TypeKey) :
    under (removeFrom m h j) k =
      if k = j then (under m k).filter (·.cell != h.cell) else under m k := by
  unfold removeFrom
  cases hg : m.get? j with
  | none =>
    by_cases hk : k = j
    · simp [hk, under, hg]
    · simp [hk]
  | some hs =>
    dsimp only
    by_cases hk : k = j
    · subst hk
      have hold : under m k = hs := by simp [under, hg]
      split
      -- a list that becomes empty is taken out
      · rename_i hrest
        simp [under, Assoc.get?_erase_self hm, hg, hrest]
      · simp [under, hg]
    · have hj : j ≠ k := fun he => hk he.symm
      rw [if_neg hk]
      split
      · simp [under, Assoc.get?_erase_ne m hj]
      · simp [under, hj]

theorem nodup_removeAll {m : Assoc TypeKey (List Handle)} (hm : (Assoc.keys m).Nodup) (h : Handle)
    (ks : List TypeKey) : (Assoc.keys (ks.foldl (removeFrom · h) m)).Nodup := by
  induction ks generalizing m with
  | nil => exact hm
  | cons j ks ih => exact ih (nodup_removeFrom hm h j)

theorem under_removeAll {m : Assoc TypeKey (List Handle)} (hm : (Assoc.keys m).Nodup) (h : Handle)
    (ks : List TypeKey) (k : TypeKey) :
    under (ks.foldl (removeFrom · h) m) k =
      if k ∈ ks then (under m k).filter (·.cell != h.cell) else under m k := by
  induction ks generalizing m with
  | nil => simp
  | cons j ks ih =>
    rw [List.foldl_cons, ih (nodup_removeFrom hm h j), under_removeFrom hm]
    by_cases hk : k = j
    · subst hk
      simp
    · simp [hk]

/-! The index by ID. -/

theorem all_register {db : Database} {h : Handle} (hc : db.canRegister h = true) :
    (db.register h).all = db.all ++ [h] := by
  simp only [canRegister, Bool.and_eq_true, Bool.not_eq_true'] at hc
  simp [register, canRegister, hc.1, hc.2, all, Assoc.set_of_not_contains _ _ _ hc.2]

/-- What a registered def that is the only one of its cell leaves behind. -/
theorem map_snd_erase {m : Assoc String Handle} {id : String} {h : Handle}
    (hd : (Assoc.keys m).Nodup) (hg : Assoc.get? m id = some h)
    (hcell : ∀ e ∈ m, e.2.cell = h.cell → e.1 = id) :
    (Assoc.erase m id).map Prod.snd = (m.map Prod.snd).filter (·.cell != h.cell) := by
  induction m with
  | nil => rfl
  | cons e m ih =>
    obtain ⟨a, w⟩ := e
    obtain ⟨hnot, hd⟩ := List.nodup_cons.mp hd
    by_cases ha : a = id
    · subst ha
      have hw : w = h := by simpa [Assoc.get?] using hg
      subst hw
      have hrest : ∀ x ∈ m.map Prod.snd, (x.cell != w.cell) = true := by
        intro x hx
        obtain ⟨e, he, rfl⟩ := List.mem_map.mp hx
        rw [bne_iff_ne]
        intro hc
        have hea : e.1 = a := hcell e (List.mem_cons_of_mem _ he) hc
        have hkey : e.1 ∈ Assoc.keys m := List.mem_map_of_mem he
        exact hnot (hea ▸ hkey)
      simp [Assoc.erase, List.filter_eq_self.mpr hrest]
    · have hw : w.cell ≠ h.cell := fun hc => ha (hcell (a, w) List.mem_cons_self hc)
      have hg' : Assoc.get? m id = some h := by simpa [Assoc.get?, ha] using hg
      have hrest := ih hd hg' fun e he => hcell e (List.mem_cons_of_mem _ he)
      simp [Assoc.erase, ha, hw, hrest]

/-- The link between the two indices. -/
structure Indexed (db : Database) : Prop where
  ids : (Assoc.keys db.byId).Nodup
  types : (Assoc.keys db.byType).Nodup
  named : ∀ e ∈ db.byId, e.1 = e.2.id ∧ e.2.id ≠ ""
  lists : ∀ k, db.ofType k = db.all.filter (db.types.isSubtype ·.type k)

namespace Indexed

variable {db db' : Database} {h h' : Handle} {id : String}

theorem empty (types : TypeTable) : (Database.empty types).Indexed :=
  ⟨List.nodup_nil, List.nodup_nil, by simp [Database.empty], fun k => rfl⟩

theorem clear (db : Database) : db.clear.Indexed :=
  ⟨List.nodup_nil, List.nodup_nil, by simp [Database.clear], fun k => rfl⟩

/-- What is in the cells does not matter. -/
theorem of_same (hi : db.Indexed) (htypes : db'.types = db.types) (hid : db'.byId = db.byId)
    (htype : db'.byType = db.byType) : db'.Indexed := by
  have hall : db'.all = db.all := by rw [all, all, hid]
  constructor
  case ids => rw [hid]; exact hi.ids
  case types => rw [htype]; exact hi.types
  case named => rw [hid]; exact hi.named
  case lists =>
    intro k
    rw [hall, htypes, ← hi.lists k, ofType, ofType, htype]

theorem register (hi : db.Indexed) (h : Handle) : (db.register h).Indexed := by
  cases hc : db.canRegister h with
  | false =>
    rw [register_of_not_canRegister hc]
    exact hi
  | true =>
    have hall := all_register hc
    have hc' := hc
    simp only [canRegister, Bool.and_eq_true, Bool.not_eq_true'] at hc'
    obtain ⟨hne, hnew⟩ := hc'
    have hid : (db.register h).byId = db.byId ++ [(h.id, h)] := by
      simp [Database.register, hc, Assoc.set_of_not_contains _ _ _ hnew]
    have htype : (db.register h).byType =
        (db.indexTypes h.type).foldl (addTo · h) db.byType := by
      simp [Database.register, hc]
    have htypes : (db.register h).types = db.types := by simp [Database.register, hc]
    constructor
    case ids =>
      have hset := Assoc.nodup_keys_set hi.ids h.id h
      rwa [Assoc.set_of_not_contains _ _ _ hnew, ← hid] at hset
    case types =>
      rw [htype]
      exact nodup_addAll hi.types h _
    case named =>
      intro e he
      rw [hid] at he
      rcases List.mem_append.mp he with he | he
      · exact hi.named e he
      · rw [List.mem_singleton.mp he]
        exact ⟨rfl, by simpa using hne⟩
    case lists =>
      intro k
      have hlist := under_addAll (db.nodup_indexTypes h.type) db.byType h k
      have hold : under db.byType k = db.all.filter (db.types.isSubtype ·.type k) := hi.lists k
      rw [ofType, htype, hall, htypes, List.filter_append]
      change under _ k = _
      rw [hlist, hold]
      by_cases hk : k ∈ db.indexTypes h.type
      · simp [hk, mem_indexTypes.mp hk]
      · have hsub : db.types.isSubtype h.type k = false := by
          rwa [mem_indexTypes, Bool.not_eq_true] at hk
        simp [hk, hsub]

theorem get?_iff (hi : db.Indexed) : db.get? id = some h ↔ h ∈ db.all ∧ h.id = id := by
  constructor
  · intro hg
    have hmem := Assoc.mem_of_get? hg
    exact ⟨List.mem_map.mpr ⟨_, hmem, rfl⟩, (hi.named _ hmem).1.symm⟩
  · rintro ⟨hmem, rfl⟩
    obtain ⟨⟨a, w⟩, he, rfl⟩ := List.mem_map.mp hmem
    have ha : a = w.id := (hi.named _ he).1
    exact Assoc.get?_of_mem hi.ids (ha ▸ he)

/-- A def is taken out of exactly the lists that it is in. No other def may share its cell. -/
theorem unregister (hi : db.Indexed)
    (hcell : ∀ h ∈ db.all, ∀ h' ∈ db.all, h.cell = h'.cell → h = h') (id : String) :
    (db.unregister id).2.Indexed := by
  unfold Database.unregister
  cases hg : db.get? id with
  | none => exact hi
  | some h =>
    obtain ⟨hmem, hid⟩ := hi.get?_iff.mp hg
    have hall : (Assoc.erase db.byId id).map Prod.snd =
        db.all.filter (·.cell != h.cell) := by
      apply map_snd_erase hi.ids hg
      intro e he hc
      have heq : e.2 = h := hcell e.2 (List.mem_map_of_mem he) h hmem hc
      rw [(hi.named e he).1, heq, hid]
    constructor
    case ids => exact Assoc.nodup_keys_erase hi.ids id
    case types => exact nodup_removeAll hi.types h _
    case named =>
      intro e he
      exact hi.named e ((Assoc.erase_sublist db.byId id).subset he)
    case lists =>
      intro k
      have hlist := under_removeAll hi.types h (db.indexTypes h.type) k
      have hold : under db.byType k = db.all.filter (db.types.isSubtype ·.type k) := hi.lists k
      change under _ k = ((Assoc.erase db.byId id).map Prod.snd).filter _
      rw [hlist, hold, hall, List.filter_filter, List.filter_filter]
      by_cases hk : k ∈ db.indexTypes h.type
      · rw [if_pos hk]
        exact List.filter_congr fun x _ => Bool.and_comm _ _
      · have hsub : db.types.isSubtype h.type k = false := by
          rwa [mem_indexTypes, Bool.not_eq_true] at hk
        rw [if_neg hk]
        apply List.filter_congr
        intro x hx
        by_cases hc : x.cell = h.cell
        · rw [hcell x hx h hmem hc, hsub, Bool.false_and]
        · simp [hc]

end Indexed

end Database

end DefLoad
