import DefLoad.Proofs.MemberOrder
import DefLoad.Proofs.PutBack

/-!
Containers accumulate. A list, a map or a class, maybe within optional types, is read on from what
the member holds, so two nodes for one member come to the same as one node with the children of
both.
-/

namespace DefLoad.Reading

/-- A type of which there are fresh values, and that has no hooks. -/
structure Ready (s : Setting) (t : Descriptor) : Prop where
  registered : s.types.get? t.key = some t
  fresh : ∃ v, t.construct = some (.ok v) ∧ v.type = t.key
  preConstruct : t.preConstruct = none
  postConstruct : t.postConstruct = none

/-- Lists, maps and classes of registered types. A class is one that no parser handles. -/
inductive Container (s : Setting) (t : Descriptor) : Prop
  | list {k : TypeKey} {element : Descriptor} (hshape : t.shape = .list k)
    (helement : s.types.get? k = some element)
  | map {k v : TypeKey} {key value : Descriptor} (hshape : t.shape = .map k v)
    (hkey : s.types.get? k = some key) (hvalue : s.types.get? v = some value)
  | class {ms : List Member} (hshape : t.shape = .class ms)
    (hparser : parserFor s.parsers t = none)

/-- Containers, and optional types around them. -/
inductive Accumulates (s : Setting) : Descriptor → Prop
  | plain {t : Descriptor} (ht : Ready s t) (hcontainer : Container s t) : Accumulates s t
  | optional {t u : Descriptor} {inner : TypeKey} (hshape : t.shape = .optional inner)
    (hinner : s.types.get? inner = some u) (hkey : t.key = .optional u.key)
    (h : Accumulates s u) : Accumulates s t

/-- A first node is read, then a second one from what came of the first. Both give a value of the
type, and the second value and all findings are those of reading both nodes together. -/
def Joins (k : TypeKey) (first : Reported Step) (second : Option Value → Reported Step)
    (both : Reported Step) : Prop :=
  ∃ v w, first.value.outcome = .value v ∧ v.type = k ∧
    (second (some v)).value.outcome = .value w ∧ w.type = k ∧
    both.value.outcome = .value w ∧ both.found = first.found ++ (second (some v)).found

section

variable {s : Setting} {t : Descriptor} {f : Focus} {n n' both : Node} {current : Option Value}
  {o o' : Value}

/-! One type that is not optional. -/

theorem Ready.build (ht : Ready s t) (hshape : t.isAbstract = false) :
    ∃ v, v.type = t.key ∧ ∀ c, t.build c = .ok v := by
  obtain ⟨v, hv, htype⟩ := ht.fresh
  refine ⟨v, htype, fun c => ?_⟩
  simp [Descriptor.build, hshape, hv, ht.preConstruct]

theorem Container.not_abstract (h : Container s t) : t.isAbstract = false := by
  cases h with
  | list hshape helement => simp [Descriptor.isAbstract, hshape]
  | map hshape hkey hvalue => simp [Descriptor.isAbstract, hshape]
  | «class» hshape hparser => simp [Descriptor.isAbstract, hshape]

/-- The value to start from is the same for all nodes: a stored value of the type, else a fresh
one. -/
theorem Ready.starts (ht : Ready s t) (hshape : t.isAbstract = false) (hf : f.target = t)
    (current : Option Value) : ∃ v left, v.type = t.key ∧
      (∀ x, current = some x → x.type = t.key → v = x) ∧ ∀ n, Starts f n current v left := by
  obtain ⟨fresh, hfresh, hbuild⟩ := ht.build hshape
  subst hf
  cases hr : reusable f.target current with
  | some v =>
    obtain ⟨hcurrent, htype⟩ := reusable_eq_some.mp hr
    refine ⟨v, none, htype, fun x hx _ => ?_, fun n => .stored hr⟩
    exact Option.some.inj (hcurrent.symm.trans hx)
  | none =>
    refine ⟨fresh, current, hfresh, fun x hx htype => ?_, fun n => .fresh hr (hbuild _)⟩
    have hreusable := reusable_eq_some.mpr ⟨hx, htype⟩
    rw [hr] at hreusable
    cases hreusable

theorem elementType_declared (s : Setting) (hn : n.attrs = .empty) (attr : String) (k : TypeKey)
    (trail : List String) : elementType s n attr k trail = pure (some k) := by
  have hattr : n.attr attr = none := by
    rw [Node.attr, hn]
    rfl
  simp only [elementType, hattr]

/-- A container is read by filling in the children, one after the other. -/
theorem Container.fills (hs : KeepsTypes s) (ht : Ready s t) (h : Container s t)
    (hf : f.target = t) : ∃ fill : List Node → Value → Reported Value,
      (∀ cs cs' v, fill (cs ++ cs') v = fill cs v >>= fill cs') ∧
      (∀ cs v, (fill cs v).value.type = v.type) ∧
      ∀ o n current, n.attrs = .empty → readPlain s n (f.ownedBy o) current = (do
        let step ← resume (f.ownedBy o) n current (fill n.children)
        return closing s (f.ownedBy o) n step) := by
  have htarget (o : Value) : (f.ownedBy o).target = t := hf
  cases h with
  | @list k element hshape helement =>
    let F (o : Value) := Filling.list ⟨f.ownedBy o, k, element⟩
    have howner (o : Value) (cs : List Node) (xs : Value) :
        (F o).fill s cs xs = (F default).fill s cs xs := by
      rw [← addItems_eq_fill, ← addItems_eq_fill]
      exact addItems_ownedBy f k element cs xs
    refine ⟨(F default).fill s, (F default).fill_append s, fill_type hs ⟨k, helement⟩, ?_⟩
    intro o n current hn
    have hread : readList s (f.ownedBy o) n current k
          (fun l xs => (Filling.list l).fill s n.children xs) =
        resume (f.ownedBy o) n current ((F default).fill s n.children) := by
      simp only [readList, elementType_declared s hn, pure_bind, helement]
      exact congrArg _ (funext fun xs => howner o n.children xs)
    simp only [readPlain, htarget, hshape, hread]
  | @map k v key value hshape hkey hvalue =>
    let F (o : Value) := Filling.map ⟨f.ownedBy o, k, v, key, value, parserFor s.parsers key⟩
    have howner (o : Value) (cs : List Node) (xs : Value) :
        (F o).fill s cs xs = (F default).fill s cs xs := by
      rw [← addEntries_eq_fill, ← addEntries_eq_fill]
      exact addEntries_ownedBy f k v key value _ cs xs
    refine ⟨(F default).fill s, (F default).fill_append s, fill_type hs ⟨v, hvalue⟩, ?_⟩
    intro o n current hn
    have hread : readMap s (f.ownedBy o) n current k v
          (fun m xs => (Filling.map m).fill s n.children xs) =
        resume (f.ownedBy o) n current ((F default).fill s n.children) := by
      simp only [readMap, elementType_declared s hn, pure_bind, hkey, hvalue]
      exact congrArg _ (funext fun xs => howner o n.children xs)
    simp only [readPlain, htarget, hshape, hread]
  | @«class» ms hshape hparser =>
    let F := Filling.class f.trail t
    have hregistered : Registered s t := ⟨t.key, ht.registered⟩
    refine ⟨F.fill s, F.fill_append s, fill_type hs hregistered, ?_⟩
    intro o n current hn
    simp only [readPlain, readClass, htarget, hshape, hparser]
    rfl

/-- The two nodes and the one node that has the children of both. -/
structure Merged (n n' both : Node) : Prop where
  first : n.attrs = .empty
  second : n'.attrs = .empty
  attrs : both.attrs = .empty
  children : both.children = n.children ++ n'.children

/-- Without a hook a value is handed on as it was read. -/
theorem closing_ready (ht : Ready s t) (f : Focus) (n : Node) {v : Value} (hv : v.type = t.key)
    (left : Option Value) : closing s f n ⟨.value v, left⟩ = ⟨.value v, left⟩ := by
  have hhook : (s.types.get? v.type).bind Descriptor.postConstruct = none := by
    rw [hv, ht.registered]
    exact ht.postConstruct
  simp only [closing, afterReading, hhook]

/-- What is read is the value to start from, with the children filled in. -/
theorem Container.continues (hs : KeepsTypes s) (ht : Ready s t) (hc : Container s t)
    (hf : f.target = t) : ∃ fill : List Node → Value → Reported Value,
      (∀ cs cs' v, fill (cs ++ cs') v = fill cs v >>= fill cs') ∧
      (∀ cs v, (fill cs v).value.type = v.type) ∧
      ∀ o current, ∃ v left, v.type = t.key ∧ (∀ x, current = some x → x.type = t.key → v = x) ∧
        ∀ n, n.attrs = .empty → readPlain s n (f.ownedBy o) current =
          ⟨⟨.value (fill n.children v).value, left⟩, (fill n.children v).found⟩ := by
  obtain ⟨fill, happend, htype, hread⟩ := hc.fills hs ht hf
  refine ⟨fill, happend, htype, fun o current => ?_⟩
  obtain ⟨v, left, hv, hstored, hstarts⟩ :=
    ht.starts (f := f.ownedBy o) hc.not_abstract hf current
  refine ⟨v, left, hv, hstored, fun n hn => ?_⟩
  have hfilled : (fill n.children v).value.type = t.key := (htype _ _).trans hv
  rw [hread o n current hn, (hstarts n).resume_eq]
  apply Reported.ext
  · simp only [Reported.bind_value, Reported.pure_value, closing_ready ht _ _ hfilled]
  · simp only [Reported.bind_found, Reported.pure_found, List.append_nil]

theorem readPlain_joins (hs : KeepsTypes s) (ht : Ready s t) (hc : Container s t)
    (hn : Merged n n' both) (hf : f.target = t) (o o' : Value) (current : Option Value) :
    Joins t.key (readPlain s n (f.ownedBy o) current)
      (fun current => readPlain s n' (f.ownedBy o') current)
      (readPlain s both (f.ownedBy o) current) := by
  obtain ⟨fill, happend, htype, hread⟩ := hc.continues hs ht hf
  obtain ⟨start, left, hstart, -, hfirst⟩ := hread o current
  let v := (fill n.children start).value
  have hv : v.type = t.key := (htype _ _).trans hstart
  -- the second node starts from what came of the first
  obtain ⟨again, left', -, hstored, hsecond⟩ := hread o' (some v)
  have hagain : again = v := hstored v rfl hv
  rw [hagain] at hsecond
  let w := (fill n'.children v).value
  have hw : w.type = t.key := (htype _ _).trans hv
  have hboth := hfirst both hn.attrs
  rw [hn.children, happend] at hboth
  refine ⟨v, w, ?_, hv, ?_, hw, ?_, ?_⟩
  · rw [hfirst n hn.first]
  · dsimp only
    rw [hsecond n' hn.second]
  · rw [hboth]
    rfl
  · dsimp only
    rw [hboth, hfirst n hn.first, hsecond n' hn.second]
    rfl

/-! Optional types around it. -/

/-- A layer is put around each of the values, and taken off the first one again. -/
theorem Joins.rewrap {u : Descriptor} {first both : Reported Step}
    {second : Option Value → Reported Step} (hkey : t.key = .optional u.key)
    (h : Joins u.key first second both) {f g : Focus} (hf : f.target = t) (hg : g.target = t)
    (matched : Bool) (left : Option Value) :
    Joins t.key (first >>= fun step => rewrap f matched step left)
      (fun current => second (g.unwrapped current) >>= fun step =>
        rewrap g (g.matched current) step (if g.matched current then none else current))
      (both >>= fun step => rewrap f matched step left) := by
  obtain ⟨v, w, hfirst, hv, hsecond, hw, hboth, hfound⟩ := h
  have hwrap {x : Value} (hx : x.type = u.key) : Value.wrap t.key x = some (.present x) := by
    simp only [Value.wrap, hkey, hx, if_true]
  have hlayer {e : Focus} (he : e.target = t) {step : Step} {x : Value} (hx : x.type = u.key)
      (ho : step.outcome = .value x) (matched : Bool) (left : Option Value) :
      Reading.rewrap e matched step left = ⟨⟨.value (.present x), left⟩, []⟩ := by
    simp only [Reading.rewrap, ho, he, hwrap hx]
    rfl
  have hpresent {x : Value} (hx : x.type = u.key) : (Value.present x).type = t.key := by
    rw [hkey, ← hx]
    rfl
  have hunwrapped : g.unwrapped (some (.present v)) = some v := by
    have hreusable := reusable_eq_some.mpr ⟨rfl, hpresent hv⟩
    have hunwrap : Value.unwrap t.key (.present v) = some v := if_pos (hpresent hv)
    simp only [Focus.unwrapped, hg, hreusable, Option.bind_some, hunwrap]
  refine ⟨.present v, .present w, ?_, hpresent hv, ?_, hpresent hw, ?_, ?_⟩
  · simp only [Reported.bind_value, hlayer hf hv hfirst]
  · simp only [Reported.bind_value, hunwrapped, hlayer hg hw hsecond]
  · simp only [Reported.bind_value, hlayer hf hw hboth]
  · simp only [Reported.bind_found, hunwrapped, hlayer hf hv hfirst, hlayer hg hw hsecond,
      hlayer hf hw hboth, List.append_nil, hfound]

theorem throughOptional_joins (hs : KeepsTypes s) (ha : Accumulates s t)
    (hn : Merged n n' both) (hf : f.target = t) (o o' : Value) (current : Option Value)
    {k m : Nat} (hk : s.types.Layers k t) (hlt : k < m) :
    Joins t.key (throughOptional s (readPlain s n) m (f.ownedBy o) current)
      (fun current => throughOptional s (readPlain s n') m (f.ownedBy o') current)
      (throughOptional s (readPlain s both) m (f.ownedBy o) current) := by
  induction ha generalizing f current k m with
  | @plain t ht hc =>
    obtain ⟨m, rfl⟩ : ∃ m', m = m' + 1 := ⟨m - 1, by omega⟩
    have hplain (n : Node) (o : Value) (current : Option Value) :
        throughOptional s (readPlain s n) (m + 1) (f.ownedBy o) current =
          readPlain s n (f.ownedBy o) current := by
      have htarget : (f.ownedBy o).target = t := hf
      cases hc with
      | list hshape helement => simp only [throughOptional, htarget, hshape]
      | map hshape hkey hvalue => simp only [throughOptional, htarget, hshape]
      | «class» hshape hparser => simp only [throughOptional, htarget, hshape]
    simp only [hplain]
    exact readPlain_joins hs ht hc hn hf o o' current
  | @optional t u inner hshape hinner hkey ha ih =>
    cases hk with
    | plain hplain => exact (hplain inner hshape).elim
    | @optional k _ inner' hshape' hlayers =>
      have heq : inner' = inner := by simpa [hshape] using hshape'.symm
      subst heq
      obtain ⟨m, rfl⟩ : ∃ m', m = m' + 1 := ⟨m - 1, by omega⟩
      have hlayer (n : Node) (o : Value) (current : Option Value) :
          throughOptional s (readPlain s n) (m + 1) (f.ownedBy o) current =
            throughOptional s (readPlain s n) m ((f.inner u).ownedBy o)
                ((f.ownedBy o).unwrapped current) >>= fun step =>
              rewrap (f.ownedBy o) ((f.ownedBy o).matched current) step
                (if (f.ownedBy o).matched current then none else current) := by
        have hshape' : (f.ownedBy o).target.shape = .optional inner' := by
          rw [← hshape, ← hf]
          rfl
        conv => lhs; unfold throughOptional
        simp only [hshape', hinner]
        rfl
      simp only [hlayer]
      have hinside := ih (f := f.inner u) rfl ((f.ownedBy o).unwrapped current)
        (hlayers u hinner) (by omega : k < m)
      exact hinside.rewrap hkey (f := f.ownedBy o) (g := f.ownedBy o') hf hf _ _

theorem readNode_joins (hs : KeepsTypes s) (hg : s.types.Grounded) {k : TypeKey}
    (hk : s.types.get? k = some t) (ha : Accumulates s t) (hn : Merged n n' both)
    (hf : f.target = t) (o o' : Value) (current : Option Value) :
    Joins t.key (readNode s n (f.ownedBy o) current)
      (fun current => readNode s n' (f.ownedBy o') current)
      (readNode s both (f.ownedBy o) current) := by
  have hflag {n : Node} (h : n.attrs = .empty) : n.flag "Null" ≠ some true := by
    rw [Node.flag, Node.attr, h]
    decide
  simp only [readNode_eq, if_neg (hflag hn.first), if_neg (hflag hn.second),
    if_neg (hflag hn.attrs)]
  exact throughOptional_joins hs ha hn hf o o' current (hg.layers hk) (Nat.lt_succ_self _)

end

/-! The member of a class. -/

section

variable {s : Setting} {Inst : Value → Prop} {t T : Descriptor} {storage : Member → Storage}
  {m : Member} {c c' : Node} {o : Value}

/-- A child without attributes is read as the declared type of its member. -/
theorem place_declared (hm : s.env.config.member? t c.name = some m)
    (hT : s.types.get? m.type = some T) (hc : c.attrs = .empty) (trail : List String) :
    place s trail t c = pure (some ⟨m, T, T⟩) := by
  have hattr : c.attr "Type" = none := by
    rw [Node.attr, hc]
    rfl
  simp only [place, hm, hT, wantedType, hattr, pure_bind, Option.map_some]

theorem toStore_value {p : Place} {step : Step} {v : Value} (hstep : step.outcome = .value v)
    (hv : v.type = p.declared.key) (trail : List String) :
    toStore s p trail step = pure (some v) := by
  have hself : s.types.convert v p.declared.key = .ok v := by
    rw [← hv]
    exact s.types.convert_self v
  simp only [toStore, hstep, toWrite, pure_bind, hself, Option.some_or]

/-- A value of the declared type that is to be stored becomes the value of the member. -/
theorem storeMember_stores {p : Storage} (hp : p.Lawful Inst) (hstores : m.access.Stores Inst p)
    (hT : s.types.get? m.type = some T) (hkey : T.key = p.type) (trail : List String) :
    ∃ left : Value → Value, ∀ (c : Node) o v, s.env.config.member? t c.name = some m →
      c.attrs = .empty → Inst o →
      let focus : Focus := ⟨T, T, none, some m, .member, trail ++ [c.name]⟩
      let step := readNode s c (focus.ownedBy (left o)) (some (p.get o))
      toStore s ⟨m, T, T⟩ (trail ++ [c.name]) step.value = pure (some v) → v.type = T.key →
        storeMember s trail t o c (readNode s c) = ⟨p.put o v, step.found⟩ := by
  obtain ⟨rest, htake⟩ := hstores.take
  refine ⟨fun o => p.put o (rest (p.get o)), ?_⟩
  intro c o v hm hc ho focus step hstep hv
  obtain ⟨hrest, htaken⟩ := htake o ho
  have hplace := place_declared hm hT hc (trail ++ [c.name])
  have hgiven : (place s (trail ++ [c.name]) t c).value = some ⟨m, T, T⟩ :=
    congrArg Reported.value hplace
  have hdemand := storeMember_of_some hgiven o
  have hread : (memberDemand s (trail ++ [c.name]) o ⟨m, T, T⟩).read s c = step := by
    simp only [Demand.read, memberDemand, taken_of_take htaken]
    rfl
  rw [hplace] at hdemand
  simp only [hread] at hdemand
  rw [hdemand]
  simp only [memberDemand, taken_of_take htaken, hstep, pure_bind,
    store_fits hp hstores ho hrest (hv.trans hkey)]
  exact Reported.ext rfl (by simp)

/-- Two children for one member come to the same as one child that has the children of both. -/
theorem storeMember_joins {p : Storage} (hs : KeepsTypes s) (hg : s.types.Grounded)
    (hp : p.Lawful Inst) (hstores : m.access.Stores Inst p) (hT : s.types.get? m.type = some T)
    (hkey : T.key = p.type) (ha : Accumulates s T) {both : Node} (hn : Merged c c' both)
    (hm : s.env.config.member? t c.name = some m) (hname : c'.name = c.name)
    (hboth : both.name = c.name) (ho : Inst o) (trail : List String) :
    (storeMember s trail t o c (readNode s c) >>= fun o =>
      storeMember s trail t o c' (readNode s c')) =
      storeMember s trail t o both (readNode s both) := by
  obtain ⟨left, hreads⟩ := storeMember_stores hp hstores hT hkey (t := t) trail
  have hstored {step : Step} {x : Value} (h : step.outcome = .value x) (hx : x.type = T.key)
      (trail : List String) : toStore s ⟨m, T, T⟩ trail step = pure (some x) :=
    toStore_value h hx trail
  let focus : Focus := ⟨T, T, none, some m, .member, trail ++ [c.name]⟩
  have hjoins (o' : Value) := readNode_joins hs hg hT ha hn (f := focus) rfl (left o) o'
    (some (p.get o))
  obtain ⟨v, -, hfirst, hv, -⟩ := hjoins default
  -- the second child finds what came of the first
  have hput : v.type = p.type := hv.trans hkey
  have hinst : Inst (p.put o v) := hp.inst o v ho hput
  have hget : p.get (p.put o v) = v := hp.get_put o v ho hput
  obtain ⟨v', w, hfirst', -, hsecond, hw, hjoined, hfound⟩ := hjoins (left (p.put o v))
  have hsame : v' = v := by
    rw [hfirst] at hfirst'
    cases hfirst'
    rfl
  subst hsame
  have hread := hreads c o v' hm hn.first ho (hstored hfirst hv _) hv
  have hread' := hreads c' (p.put o v') w (by rw [hname, hm]) hn.second hinst
  have hread'' := hreads both o w (by rw [hboth, hm]) hn.attrs ho
  rw [hname, hget] at hread'
  rw [hboth] at hread''
  rw [hread'' (hstored hjoined hw _) hw, hread]
  apply Reported.ext
  · rw [Reported.bind_value, hread' (hstored hsecond hw _) hw]
    exact hp.put_put o v' w ho hput (hw.trans hkey)
  · rw [Reported.bind_found, hread' (hstored hsecond hw _) hw]
    exact hfound.symm

/-- Containers accumulate. Two children next to each other, of one name and without attributes, that
are bound to a member of a list, a map, a class or an optional type of these come to the same as one
child with the children of both: the same instance and the same findings. -/
theorem populate_accumulates (hs : KeepsTypes s) (hg : s.types.Grounded)
    (ht : Separate Inst t storage) (ho : Inst o) (hT : s.types.get? m.type = some T)
    (hkey : T.key = m.type) (ha : Accumulates s T) {n : Node} {before after : List Node}
    (hn : n.children = before ++ c :: c' :: after)
    (hm : s.env.config.member? t c.name = some m) (hname : c'.name = c.name)
    (hc : c.attrs = .empty) (hc' : c'.attrs = .empty) (text : Option String)
    (trail : List String) :
    let both : Node := ⟨c.name, .empty, text, c.children ++ c'.children⟩
    populate s trail t { n with children := before ++ both :: after } o =
      populate s trail t n o := by
  intro both
  have hmember : m ∈ t.members := (Descriptor.mem_ownMembers.mp (Config.member?_mem hm)).1
  have htype : T.key = (storage m).type := hkey.trans (ht.type_eq m hmember).symm
  have hmerged : Merged c c' both := ⟨hc, hc', rfl, rfl⟩
  have hinst : Inst ((Filling.class trail t).fill s before o).value := fill_inst ht ho before
  have hjoins := storeMember_joins hs hg (ht.lawful m hmember) (ht.stores m hmember) hT htype ha
    hmerged hm hname rfl hinst trail
  have hrest : (Filling.class trail t).fill s (both :: after)
        ((Filling.class trail t).fill s before o).value =
      (Filling.class trail t).fill s (c :: c' :: after)
        ((Filling.class trail t).fill s before o).value := by
    simp only [Filling.fill, ← bind_assoc]
    exact congrArg (· >>= (Filling.class trail t).fill s after) hjoins.symm
  simp only [populate, readMembers_eq_fill, hn, Filling.fill_append]
  apply Reported.ext
  · rw [Reported.bind_value, Reported.bind_value, hrest]
  · rw [Reported.bind_found, Reported.bind_found, hrest]

end

/-! The crew of a ship comes aboard in two groups. -/

section

open Arsenal (plainType)

def readyType (k : TypeKey) (shape : Shape) (fresh : Value) : Descriptor :=
  { plainType k shape with construct := some (.ok fresh) }

def crewList : Descriptor := readyType (.list .string) (.list .string) (.list .string [])

def crewOption : Descriptor :=
  readyType crewType (.optional (.list .string)) (.absent (.list .string))

def crewTable : TypeTable :=
  ⟨[(.string, readyType .string .scalar (.string "")), (.list .string, crewList),
    (crewType, crewOption), (ship, shipClass)], []⟩

def crewSetting : Setting := ⟨⟨crewTable, {}, fun _ => none⟩, Parsers.standard⟩

def crewNode (names : List String) : Node :=
  ⟨"Crew", .empty, none, names.map fun name => ⟨"li", .empty, some name, []⟩⟩

theorem crewSetting_type {k : TypeKey} {t : Descriptor} (h : crewSetting.types.get? k = some t) :
    k = .string ∧ t = readyType .string .scalar (.string "") ∨ k = .list .string ∧ t = crewList ∨
      k = crewType ∧ t = crewOption ∨ k = ship ∧ t = shipClass := by
  have hmem : (k, t) ∈ crewSetting.types.types := Assoc.mem_of_get? h
  simpa [crewSetting, crewTable, Setting.types] using hmem

theorem crewSetting_keepsTypes : KeepsTypes crewSetting := by
  apply KeepsTypes.of_access
  case hoptional =>
    intro k t inner h hshape
    rcases crewSetting_type h with ⟨-, rfl⟩ | ⟨-, rfl⟩ | ⟨-, rfl⟩ | ⟨-, rfl⟩
    · cases hshape
    · cases hshape
    · exact ⟨.list .string, rfl⟩
    · cases hshape
  case haccess =>
    intro k t h m hm
    rcases crewSetting_type h with ⟨-, rfl⟩ | ⟨-, rfl⟩ | ⟨-, rfl⟩ | ⟨-, rfl⟩
    · cases hm
    · cases hm
    · cases hm
    · exact shipClass_keepsType hm
  case hhook =>
    intro k t h
    rcases crewSetting_type h with ⟨-, rfl⟩ | ⟨-, rfl⟩ | ⟨-, rfl⟩ | ⟨-, rfl⟩ <;> rfl

theorem crewOption_accumulates : Accumulates crewSetting crewOption := by
  have hready : Ready crewSetting crewList := ⟨rfl, ⟨_, rfl, rfl⟩, rfl, rfl⟩
  have hlist : Container crewSetting crewList := .list rfl rfl
  exact .optional rfl rfl rfl (.plain hready hlist)

/-- The second group joins the first one. -/
theorem ship_accumulates :
    let read (cs : List Node) :=
      populate crewSetting ["Argo"] shipClass ⟨"Ship", .empty, none, cs⟩ oldShip
    crewMember.access.read (read [crewNode ["Jason", "Lynceus"], crewNode ["Orpheus"]]).value =
        some (.present (.list .string
          [.string "Tiphys", .string "Jason", .string "Lynceus", .string "Orpheus"])) ∧
      read [crewNode ["Jason", "Lynceus", "Orpheus"]] =
        read [crewNode ["Jason", "Lynceus"], crewNode ["Orpheus"]] := by
  have hgrounded : crewSetting.types.Grounded := by
    refine ⟨TypeKey.size, fun k t inner h hshape => ?_⟩
    rcases crewSetting_type h with ⟨rfl, rfl⟩ | ⟨rfl, rfl⟩ | ⟨rfl, rfl⟩ | ⟨rfl, rfl⟩
    · cases hshape
    · cases hshape
    · cases hshape
      decide
    · cases hshape
  intro read
  let first := crewNode ["Jason", "Lynceus"]
  let second := crewNode ["Orpheus"]
  have hchildren : (⟨"Ship", .empty, none, [first, second]⟩ : Node).children =
      [] ++ first :: second :: [] := rfl
  have hmember : crewSetting.env.config.member? shipClass first.name = some crewMember :=
    show crewSetting.env.config.member? shipClass "Crew" = some crewMember from rfl
  refine ⟨rfl, ?_⟩
  exact populate_accumulates crewSetting_keepsTypes hgrounded ship_separate oldShip_isShip
    rfl rfl crewOption_accumulates hchildren hmember rfl rfl rfl none ["Argo"]

end

end DefLoad.Reading
