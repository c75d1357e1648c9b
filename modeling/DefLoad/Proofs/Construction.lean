import DefLoad.Arsenal.Curios
import DefLoad.Proofs.Describing

/-!
However a program selects schemas and registers its types, the table comes out consistent, holds all
that was registered, and does not change when a type is registered again.
-/

namespace DefLoad

namespace Builder

variable {b : Builder} {k : TypeKey}

/-! Registrations and selections of schemas. -/

theorem need_le_budget (c : Catalog) (b : Builder) (k : TypeKey) : need c b k ≤ budget c k :=
  Nat.add_le_add_right (Nat.mul_le_mul_right _ (List.countP_le_length.trans (Nat.le_succ _))) k.size

theorem register_enters (h : Kept b) (hc : b.catalog.Complete)
    (hk : b.catalog.describes k = true) :
    Leads b (b.register k) ∧ (b.register k).contains k = true := by
  have henters := suffices_all hc (budget b.catalog k) b k h rfl hk (need_le_budget b.catalog b k)
  exact ⟨henters.leads, henters.there⟩

theorem register_of_contains (h : b.contains k = true) : b.register k = b := by
  have hbudget : budget b.catalog k = (budget b.catalog k - 1) + 1 := by
    have hpos := k.size_pos
    unfold budget
    omega
  rw [register, hbudget, describe_contained h]

theorem schema_leads (h : Kept b) (name : String) : Leads b (b.schema name) := by
  refine ⟨h.schema name, ?_, fun k hk => ?_⟩
  · unfold schema
    split <;> rfl
  · unfold schema
    split <;> exact hk

/-- What a program asks of a builder. -/
inductive Command
  | schema (name : String)
  | register (k : TypeKey)

def perform (b : Builder) : Command → Builder
  | .schema name => b.schema name
  | .register k => b.register k

def run (b : Builder) (cs : List Command) : Builder := cs.foldl perform b

theorem run_append (b : Builder) (cs cs' : List Command) :
    run b (cs ++ cs') = run (run b cs) cs' :=
  List.foldl_append

theorem run_leads (h : Kept b) (hc : b.catalog.Complete) {cs : List Command}
    (hcs : ∀ k, .register k ∈ cs → b.catalog.describes k = true) :
    Leads b (run b cs) ∧ ∀ k, .register k ∈ cs → (run b cs).contains k = true := by
  induction cs generalizing b with
  | nil => exact ⟨.refl h, nofun⟩
  | cons first cs ih =>
    have hfirst : Leads b (perform b first) ∧
        ∀ k, first = .register k → (perform b first).contains k = true := by
      cases first with
      | schema name => exact ⟨schema_leads h name, nofun⟩
      | register k =>
        obtain ⟨hleads, hthere⟩ := register_enters h hc (hcs k List.mem_cons_self)
        exact ⟨hleads, fun _ hk => Command.register.inj hk ▸ hthere⟩
    obtain ⟨hleads, hthere⟩ := hfirst
    have hsame := hleads.catalog
    obtain ⟨hrest, hall⟩ := ih hleads.kept (hsame ▸ hc)
      (fun k hk => hsame ▸ hcs k (List.mem_cons_of_mem first hk))
    refine ⟨hleads.trans hrest, fun k hk => ?_⟩
    rcases List.mem_cons.mp hk with hk | hk
    · exact hrest.keeps k (hthere k hk.symm)
    · exact hall k hk

end Builder

/-! The types that every program has. -/

namespace Catalog

theorem describes_append {c : Catalog} {k : TypeKey} (h : c.describes k = true) (c' : Catalog) :
    describes (c ++ c') k = true := by
  induction k with
  | named name =>
    obtain ⟨d, hd, hown⟩ := (Option.any_eq_true _ _).mp h
    exact (Option.any_eq_true _ _).mpr ⟨d, Assoc.get?_append hd c', hown⟩
  | optional inner ih => exact ih h
  | list element ih => exact ih h
  | map kind key value ihKey ihValue =>
    obtain ⟨hkey, hvalue⟩ := Bool.and_eq_true_iff.mp h
    exact Bool.and_eq_true_iff.mpr ⟨ihKey hkey, ihValue hvalue⟩
  | ref target => rfl

end Catalog

namespace Core

theorem catalog_complete : catalog.Complete := by decide

theorem order_described : ∀ k ∈ order, catalog.describes k = true := by decide

theorem catalog_append_complete {declared : Catalog}
    (h : ∀ e ∈ declared, ∀ j ∈ e.2.mentions, (catalog ++ declared).describes j = true) :
    (catalog ++ declared).Complete := by
  intro e he j hj
  rcases List.mem_append.mp he with he | he
  · exact Catalog.describes_append (catalog_complete e he j hj) declared
  · exact h e he j hj

theorem builder_eq_run (declared : Catalog) :
    builder declared =
      Builder.run (Builder.empty (catalog ++ declared)) (order.map Builder.Command.register) := by
  rw [builder, Builder.registerAll, Builder.run, List.foldl_map]
  rfl

end Core

namespace Builder

/-- However a program selects schemas and registers types, its own ones among them: the table is
consistent, holds whatever was registered, and stays as it is when a type that it holds is
registered. Each type that is registered or mentioned enters the table when it is described. -/
theorem build_consistent {declared : Catalog}
    (hdeclared : ∀ e ∈ declared, ∀ j ∈ e.2.mentions,
      (Core.catalog ++ declared).describes j = true)
    (cs : List Command)
    (hcs : ∀ k, .register k ∈ cs → (Core.catalog ++ declared).describes k = true) :
    let b := run (Core.builder declared) cs
    b.table.Consistent ∧ (∀ k, .register k ∈ cs → ∃ t, b.table.get? k = some t) ∧
      ∀ k t, b.table.get? k = some t → b.register k = b := by
  intro b
  -- the types of every program are registrations too, the first ones
  let start := Builder.empty (Core.catalog ++ declared)
  have hb : b = run start (Core.order.map Command.register ++ cs) := by
    rw [run_append, ← Core.builder_eq_run]
  have hall : ∀ k, .register k ∈ Core.order.map Command.register ++ cs →
      start.catalog.describes k = true := by
    intro k hk
    rcases List.mem_append.mp hk with hk | hk
    · obtain ⟨j, hj, hsame⟩ := List.mem_map.mp hk
      rw [← Command.register.inj hsame]
      exact Catalog.describes_append (Core.order_described j hj) declared
    · exact hcs k hk
  have hcomplete : start.catalog.Complete := Core.catalog_append_complete hdeclared
  obtain ⟨hleads, hthere⟩ := run_leads (Kept.empty _) hcomplete hall
  rw [← hb] at hleads hthere
  refine ⟨hleads.kept.consistent, fun k hk => ?_, fun k t ht => ?_⟩
  · exact contains_iff.mp (hthere k (List.mem_append_right _ hk))
  · exact register_of_contains (contains_iff.mpr ⟨t, ht⟩)

/-! Effects, some of which are lists of effects, and trees under three schemas. -/

section

open Arsenal

def tangle : Catalog := effectCatalog ++ [plainClass treeNode treeFields {}]

def tangled : List Command :=
  [.schema "game", .register (.list effect), .schema "mod", .register combo, .register treeNode,
    .schema "core", .register (.optional (sorted .string treeNode)), .schema "mod",
    .register effect]

theorem tangled_consistent :
    (∀ e ∈ tangle, ∀ j ∈ e.2.mentions, (Core.catalog ++ tangle).describes j = true) ∧
      (∀ k, .register k ∈ tangled → (Core.catalog ++ tangle).describes k = true) ∧
      let b := run (Core.builder tangle) tangled
      b.table.Consistent ∧ (∃ t, b.table.get? combo = some t) ∧ b.register combo = b := by
  have hdeclared : ∀ e ∈ tangle, ∀ j ∈ e.2.mentions,
      (Core.catalog ++ tangle).describes j = true := by decide
  have hcs : ∀ k, .register k ∈ tangled → (Core.catalog ++ tangle).describes k = true := by
    intro k hk
    simp only [tangled, List.mem_cons, Command.register.injEq, reduceCtorEq, List.not_mem_nil,
      or_false, false_or] at hk
    rcases hk with rfl | rfl | rfl | rfl | rfl <;> decide
  obtain ⟨hconsistent, hthere, hagain⟩ := build_consistent hdeclared tangled hcs
  obtain ⟨t, ht⟩ := hthere combo (by simp [tangled])
  exact ⟨hdeclared, hcs, hconsistent, ⟨t, ht⟩, hagain combo t ht⟩

end

end Builder

end DefLoad
