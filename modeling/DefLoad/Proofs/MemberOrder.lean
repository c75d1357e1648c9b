import DefLoad.Proofs.Adding
import DefLoad.Proofs.Storage

/-!
The members of a class are filled independently of each other. A child touches the place of its own
member only, so children of different members can be exchanged, and a member that no child names
keeps its value.
-/

namespace DefLoad

namespace Reported

variable {α β : Type} {x y : Reported α}

/-- The same value, and the same findings in some order. -/
structure Equivalent (x y : Reported α) : Prop where
  value : x.value = y.value
  found : x.found.Perm y.found

theorem Equivalent.bind_right (h : Equivalent x y) (f : α → Reported β) :
    Equivalent (x >>= f) (y >>= f) := by
  constructor
  · rw [bind_value, bind_value, h.value]
  · rw [bind_found, bind_found, h.value]
    exact h.found.append_right _

theorem Equivalent.bind_left (x : Reported α) {f g : α → Reported β}
    (h : Equivalent (f x.value) (g x.value)) : Equivalent (x >>= f) (x >>= g) := by
  constructor
  · rw [bind_value, bind_value, h.value]
  · rw [bind_found, bind_found]
    exact h.found.append_left _

end Reported

theorem Access.Stores.read_eq {Inst : Value → Prop} {p : Storage} {a : Access} {o : Value}
    (ha : a.Stores Inst p) (ho : Inst o) : a.read o = some (p.get o) := by
  obtain ⟨rest, htake⟩ := ha.take
  rw [Access.read, (htake o ho).2]
  rfl

namespace Reading

/-- What a child does to an instance: the value of one place is replaced by one that depends on
nothing else, as do the findings. -/
def Updates (Inst : Value → Prop) (p : Storage) (f : Value → Reported Value) : Prop :=
  ∃ (next : Value → Value) (found : Value → Diagnostics), ∀ o, Inst o →
    (next (p.get o)).type = p.type ∧ f o = ⟨p.put o (next (p.get o)), found (p.get o)⟩

section

variable {s : Setting} {Inst : Value → Prop} {p : Storage} {m : Member}

theorem taken_of_take {o x w : Value} (h : m.access.take o = some (x, w)) :
    taken m o = (some x, w) := by
  simp only [taken, h]

section

variable (hp : p.Lawful Inst) (hm : m.access.Stores Inst p)

include hp hm

/-- A value that suits the place is put there, over whatever was left in it. -/
theorem store_fits {o rest v : Value} (ho : Inst o) (hrest : rest.type = p.type)
    (hv : v.type = p.type) (trail : List String) :
    store m trail (p.put o rest) (some v) = pure (p.put o v) := by
  obtain ⟨e, hassign⟩ := hm.assign
  have hleft : Inst (p.put o rest) := hp.inst o rest ho hrest
  simp only [store, hassign _ v hleft, if_pos hv, hp.put_put o rest v ho hrest hv]

/-- What is written replaces what was left, if it suits the place. The findings depend on what is
written alone. -/
theorem store_eq (trail : List String) : ∃ found : Option Value → Diagnostics,
    ∀ o rest write, Inst o → rest.type = p.type →
      store m trail (p.put o rest) write = ⟨p.put o (p.after rest write), found write⟩ := by
  obtain ⟨e, hassign⟩ := hm.assign
  let complaint := Diagnostic.error .conversion (pathOf trail)
    s!"cannot assign member '{m.name}': {e.message}"
  refine ⟨fun write => if write.all (·.type = p.type) then [] else [complaint], ?_⟩
  intro o rest write ho hrest
  cases write with
  | none => rfl
  | some v =>
    by_cases hv : v.type = p.type
    · rw [store_fits hp hm ho hrest hv]
      simp [Storage.after, hv, pure]
    · have hleft : Inst (p.put o rest) := hp.inst o rest ho hrest
      simp only [store, hassign _ v hleft, if_neg hv]
      simp [Storage.after, hv, problem, complaint, Reported.report]
      rfl

end

end

/-! One child. -/

section

variable {s : Setting} {Inst : Value → Prop} {t : Descriptor} {storage : Member → Storage}
  {trail : List String} {c : Node} {o : Value} {p : Place}

theorem storeMember_of_none (hp : (place s (trail ++ [c.name]) t c).value = none) (o : Value) :
    storeMember s trail t o c (readNode s c) = ⟨o, (place s (trail ++ [c.name]) t c).found⟩ := by
  simp only [storeMember]
  exact Reported.ext (by simp [hp]) (by simp [hp])

theorem storeMember_of_some (hp : (place s (trail ++ [c.name]) t c).value = some p) (o : Value) :
    let d := memberDemand s (trail ++ [c.name]) o p
    storeMember s trail t o c (readNode s c) =
      ⟨(d.finish (d.read s c).value).value, (place s (trail ++ [c.name]) t c).found ++
        ((d.read s c).found ++ (d.finish (d.read s c).value).found)⟩ := by
  simp only [storeMember]
  exact Reported.ext (by simp only [Reported.bind_value, hp]; rfl)
    (by simp only [Reported.bind_found, hp]; rfl)

theorem place_member (hp : (place s (trail ++ [c.name]) t c).value = some p) :
    ∃ j, s.env.config.memberIndex? t c.name = some j ∧ t.members[j]? = some p.member := by
  obtain ⟨hmember, -, -⟩ := place_eq_some.mp hp
  exact Option.bind_eq_some_iff.mp hmember

variable (ht : Separate Inst t storage)

include ht

/-- A child that has a place puts some value of the type there. -/
theorem storeMember_puts (ho : Inst o)
    (hp : (place s (trail ++ [c.name]) t c).value = some p) :
    ∃ x, x.type = (storage p.member).type ∧
      (storeMember s trail t o c (readNode s c)).value = (storage p.member).put o x := by
  have hm : p.member ∈ t.members := (Descriptor.mem_ownMembers.mp (place_spec hp).1).1
  obtain ⟨rest, htake⟩ := (ht.stores _ hm).take
  obtain ⟨found, hstore⟩ := store_eq (ht.lawful _ hm) (ht.stores _ hm) (trail ++ [c.name])
  obtain ⟨hrest, htaken⟩ := htake o ho
  rw [storeMember_of_some hp]
  simp only [memberDemand, Reported.bind_value, taken_of_take htaken, hstore o _ _ ho hrest]
  exact ⟨_, Storage.after_type hrest _, rfl⟩

theorem storeMember_inst (ho : Inst o) : Inst (storeMember s trail t o c (readNode s c)).value := by
  cases hp : (place s (trail ++ [c.name]) t c).value with
  | none =>
    rw [storeMember_of_none hp]
    exact ho
  | some p =>
    have hm : p.member ∈ t.members := (Descriptor.mem_ownMembers.mp (place_spec hp).1).1
    obtain ⟨x, hx, hstored⟩ := storeMember_puts ht ho hp
    rw [hstored]
    exact (ht.lawful _ hm).inst o x ho hx

/-- A child of another member does not show in the place of this one. -/
theorem storeMember_get_eq {k : Nat} {m : Member} (hm : t.members[k]? = some m)
    (hc : s.env.config.memberIndex? t c.name ≠ some k) (ho : Inst o) :
    (storage m).get (storeMember s trail t o c (readNode s c)).value = (storage m).get o := by
  cases hp : (place s (trail ++ [c.name]) t c).value with
  | none => rw [storeMember_of_none hp]
  | some p =>
    obtain ⟨j, hj, hmember⟩ := place_member hp
    have hne : k ≠ j := fun he => hc (he ▸ hj)
    obtain ⟨x, hx, hstored⟩ := storeMember_puts ht ho hp
    rw [hstored]
    exact (ht.apart_of_ne hm hmember hne).left o x ho hx

/-- A child that has a place updates the place of its member. -/
theorem storeMember_updates (hs : BlindTo (fun _ _ => True) s)
    (hp : (place s (trail ++ [c.name]) t c).value = some p) :
    Updates Inst (storage p.member) fun o => storeMember s trail t o c (readNode s c) := by
  have hspec := place_spec hp
  have hm : p.member ∈ t.members := (Descriptor.mem_ownMembers.mp hspec.1).1
  have hlawful := ht.lawful _ hm
  obtain ⟨rest, htake⟩ := (ht.stores _ hm).take
  obtain ⟨complaint, hstore⟩ := store_eq hlawful (ht.stores _ hm) (trail ++ [c.name])
  let focus : Focus := ⟨p.target, p.declared, none, some p.member, .member, trail ++ [c.name]⟩
  -- what is read and written for a stored value, whoever owns it
  let step (x : Value) : Reported Step := readNode s c (focus.ownedBy default) (some x)
  let write (x : Value) : Reported (Option Value) :=
    toStore s p (trail ++ [c.name]) (step x).value
  refine ⟨fun x => (storage p.member).after (rest x) (write x).value,
    fun x => (place s (trail ++ [c.name]) t c).found ++
      ((step x).found ++ ((write x).found ++ complaint (write x).value)), ?_⟩
  intro o ho
  obtain ⟨hrest, htaken⟩ := htake o ho
  refine ⟨Storage.after_type hrest _, ?_⟩
  have hread : (memberDemand s (trail ++ [c.name]) o p).read s c =
      step ((storage p.member).get o) := by
    simp only [Demand.read, memberDemand, taken_of_take htaken]
    exact readNode_ownedBy hs trivial c (f := focus) hspec.2 _
  change storeMember s trail t o c (readNode s c) = _
  rw [storeMember_of_some hp]
  simp only [hread]
  simp only [memberDemand, taken_of_take htaken, Reported.bind_value, Reported.bind_found,
    hstore o _ _ ho hrest, write]

end

/-! Children of different members. -/

/-- What a child does that is bound to a member: nothing, or it updates the place of that very
member. -/
inductive Touches (Inst : Value → Prop) (t : Descriptor) (storage : Member → Storage) :
    Option Nat → (Value → Reported Value) → Prop
  | nothing {i : Option Nat} {f : Value → Reported Value} (found : Diagnostics)
    (h : ∀ o, f o = ⟨o, found⟩) : Touches Inst t storage i f
  | place {j : Nat} {m : Member} {f : Value → Reported Value} (hm : t.members[j]? = some m)
    (h : Updates Inst (storage m) f) : Touches Inst t storage (some j) f

section

variable {s : Setting} {Inst : Value → Prop} {t : Descriptor} {storage : Member → Storage}
  {trail : List String} {c : Node} {o : Value} {i j : Option Nat} {f g : Value → Reported Value}

theorem Updates.exchange {p q : Storage} (hf : Updates Inst p f) (hg : Updates Inst q g)
    (hp : p.Lawful Inst) (hq : q.Lawful Inst) (hpq : p.Apart Inst q) (ho : Inst o) :
    (g o >>= f).Equivalent (f o >>= g) := by
  obtain ⟨next, found, hf⟩ := hf
  obtain ⟨next', found', hg⟩ := hg
  obtain ⟨hx, hfo⟩ := hf o ho
  obtain ⟨hy, hgo⟩ := hg o ho
  -- either step finds in its own place what was there at first
  have hleft := (hf _ (hq.inst o _ ho hy)).2
  have hright := (hg _ (hp.inst o _ ho hx)).2
  rw [hpq.left o _ ho hy] at hleft
  rw [hpq.right o _ ho hx] at hright
  constructor
  · simp only [Reported.bind_value, hfo, hgo, hleft, hright]
    exact (hpq.comm o _ _ ho hx hy).symm
  · simp only [Reported.bind_found, hfo, hgo, hleft, hright]
    exact List.perm_append_comm

variable (ht : Separate Inst t storage)

include ht

theorem storeMember_touches (hs : BlindTo (fun _ _ => True) s) (trail : List String) (c : Node) :
    Touches Inst t storage (s.env.config.memberIndex? t c.name) fun o =>
      storeMember s trail t o c (readNode s c) := by
  cases hp : (place s (trail ++ [c.name]) t c).value with
  | none => exact .nothing _ (storeMember_of_none hp)
  | some p =>
    obtain ⟨j, hj, hm⟩ := place_member hp
    rw [hj]
    exact .place hm (storeMember_updates ht hs hp)

theorem Touches.exchange (hf : Touches Inst t storage i f) (hg : Touches Inst t storage j g)
    (hne : ∀ k, i = some k → j ≠ some k) (ho : Inst o) :
    (g o >>= f).Equivalent (f o >>= g) := by
  cases hf with
  | nothing found hf =>
    constructor
    · simp only [Reported.bind_value, hf]
    · simp only [Reported.bind_found, hf]
      exact List.perm_append_comm
  | @place k m _ hm hf =>
    cases hg with
    | nothing found hg =>
      constructor
      · simp only [Reported.bind_value, hg]
      · simp only [Reported.bind_found, hg]
        exact List.perm_append_comm
    | @place k' m' _ hm' hg =>
      have hkk : k ≠ k' := fun he => hne k rfl (congrArg some he.symm)
      have hmem := List.mem_of_getElem? hm
      have hmem' := List.mem_of_getElem? hm'
      exact hf.exchange hg (ht.lawful m hmem) (ht.lawful m' hmem') (ht.apart_of_ne hm hm' hkk) ho

/-! All children of a node. -/

theorem fill_inst (ho : Inst o) (cs : List Node) :
    Inst ((Filling.class trail t).fill s cs o).value := by
  induction cs generalizing o with
  | nil => exact ho
  | cons c cs ih => exact ih (storeMember_inst ht ho)

theorem fill_get_eq {k : Nat} {m : Member} (hm : t.members[k]? = some m) {cs : List Node}
    (hcs : ∀ c ∈ cs, s.env.config.memberIndex? t c.name ≠ some k) (ho : Inst o) :
    (storage m).get ((Filling.class trail t).fill s cs o).value = (storage m).get o := by
  induction cs generalizing o with
  | nil => rfl
  | cons c cs ih =>
    have hfirst : (storage m).get (storeMember s trail t o c (readNode s c)).value =
        (storage m).get o := storeMember_get_eq ht hm (hcs c List.mem_cons_self) ho
    have hstep : Inst (storeMember s trail t o c (readNode s c)).value := storeMember_inst ht ho
    have hrest := ih (fun c' hc' => hcs c' (List.mem_cons_of_mem c hc')) hstep
    exact hrest.trans hfirst

theorem fill_exchange (hs : BlindTo (fun _ _ => True) s) {c c' : Node}
    (hne : ∀ k, s.env.config.memberIndex? t c.name = some k →
      s.env.config.memberIndex? t c'.name ≠ some k) (before after : List Node) (ho : Inst o) :
    let F := Filling.class trail t
    (F.fill s (before ++ c' :: c :: after) o).Equivalent
      (F.fill s (before ++ c :: c' :: after) o) := by
  intro F
  have hpair (a b : Node) : F.fill s (before ++ a :: b :: after) o =
      F.fill s before o >>= fun v => (F.add s v a >>= (F.add s · b)) >>= F.fill s after := by
    simp only [Filling.fill_append, Filling.fill, bind_assoc]
  have hinst : Inst (F.fill s before o).value := fill_inst ht ho before
  have hswap := (storeMember_touches ht hs trail c).exchange ht
    (storeMember_touches ht hs trail c') hne hinst
  rw [hpair c' c, hpair c c']
  exact .bind_left _ (hswap.bind_right _)

/-- The members of a class are filled independently. A member that no child is bound to keeps its
value. Two children next to each other that are not bound to one member can be exchanged: the
instance is the same, and so are the findings up to their order. -/
theorem populate_independent (hs : BlindTo (fun _ _ => True) s) (ho : Inst o) (trail : List String)
    (n : Node) :
    (∀ k m, t.members[k]? = some m →
      (∀ c ∈ n.children, s.env.config.memberIndex? t c.name ≠ some k) →
      m.access.read (populate s trail t n o).value = m.access.read o) ∧
    ∀ before c c' after, n.children = before ++ c :: c' :: after →
      (∀ k, s.env.config.memberIndex? t c.name = some k →
        s.env.config.memberIndex? t c'.name ≠ some k) →
      (populate s trail t { n with children := before ++ c' :: c :: after } o).Equivalent
        (populate s trail t n o) := by
  constructor
  · intro k m hm hunnamed
    have hstores := ht.stores m (List.mem_of_getElem? hm)
    have hinst : Inst ((Filling.class trail t).fill s n.children o).value :=
      fill_inst ht ho n.children
    simp only [populate, readMembers_eq_fill]
    rw [hstores.read_eq hinst, hstores.read_eq ho, fill_get_eq ht hm hunnamed ho]
  · intro before c c' after hn hne
    simp only [populate, readMembers_eq_fill, hn]
    exact fill_exchange ht hs hne before after ho

end

/-! A ship gets a name and plates, and keeps its crew. -/

section

open Arsenal (plainType)

def shipTable : TypeTable :=
  ⟨[(.string, plainType .string .scalar), (.i32, plainType .i32 .scalar),
    (.list .string, plainType (.list .string) (.list .string)),
    (crewType, plainType crewType (.optional (.list .string))), (ship, shipClass)], []⟩

def shipSetting : Setting := ⟨⟨shipTable, {}, fun _ => none⟩, Parsers.standard⟩

def oldShip : Value :=
  shipOf (.string "") (.present (.list .string [.string "Tiphys"])) (.int .i32 3)

def nameNode : Node := ⟨"Name", .empty, some "Argo", []⟩

def platesNode : Node := ⟨"Plates", .empty, some "many", []⟩

theorem shipSetting_blind (R : Value → Value → Prop) : BlindTo R shipSetting := by
  apply BlindTo.of_standard (List.Subset.refl _)
  intro k d h
  have hmem : (k, d) ∈ shipTable.types := Assoc.mem_of_get? h
  simp only [shipTable, List.mem_cons, Prod.mk.injEq, List.not_mem_nil, or_false] at hmem
  rcases hmem with ⟨-, rfl⟩ | ⟨-, rfl⟩ | ⟨-, rfl⟩ | ⟨-, rfl⟩ | ⟨-, rfl⟩ <;> exact ⟨rfl, rfl⟩

theorem oldShip_isShip : IsShip oldShip := ⟨_, _, _, rfl, rfl, rfl, rfl⟩

theorem ship_independent :
    let read (cs : List Node) :=
      populate shipSetting ["Argo"] shipClass ⟨"Ship", .empty, none, cs⟩ oldShip
    crewMember.access.read (read [nameNode, platesNode]).value =
        some (.present (.list .string [.string "Tiphys"])) ∧
      nameMember.access.read (read [nameNode, platesNode]).value = some (.string "Argo") ∧
      (read [platesNode, nameNode]).Equivalent (read [nameNode, platesNode]) := by
  intro read
  obtain ⟨hkeeps, hswap⟩ := populate_independent ship_separate (shipSetting_blind _) oldShip_isShip
    ["Argo"] ⟨"Ship", .empty, none, [nameNode, platesNode]⟩
  refine ⟨?_, rfl, ?_⟩
  · have hcrew := hkeeps 1 crewMember rfl (by decide)
    exact hcrew
  · exact hswap [] nameNode platesNode [] rfl (by decide)

end

end Reading

end DefLoad
