import Mathlib.Logic.Relation
import Wiring.World
import Wiring.Proofs.Registry.Freeze

/-!
What a frozen registry asks of resolution.

Every key that is bound has an entry of its type, and the direct dependencies of the entry have to be
resolved first. A key is grounded if this comes to an end: it is bound, and so are, on all ways down,
the keys it depends on.
-/

set_option autoImplicit false

namespace Wiring

open Relation

def Place.key : Place → Ident
  | binding a => a
  | element a _ => a

/-- The keys that have to be resolved first: those of direct dependencies, but not the injector's. -/
def Demands (ds : List Dependency) (b : Ident) : Prop :=
  ∃ d ∈ ds, d.kind = .direct ∧ d.key.isInjector = false ∧ d.key.ident = b

/-- What is known of a place: the type of its instance, what this depends on, its scope, and the source
of the strategy that makes it; an aggregate is put together without one. -/
structure Spot where
  type : TypeId
  dependencies : List Dependency
  scope : Scope
  source? : Option Source

namespace Entry

def source? : Entry → Option Source
  | binding c => some c.source
  | aggregate _ => none

def strategies : Entry → List Strategy
  | binding c => [c.binding.strategy]
  | aggregate g => g.contributions.map fun c => c.binding.strategy

theorem dependencies_subset {e : Entry} {s : Strategy} (hs : s ∈ e.strategies) :
    s.dependencies ⊆ e.dependencies := by
  cases e with
  | binding c =>
    rw [List.mem_singleton.mp hs]
    exact List.Subset.refl _
  | aggregate g =>
    obtain ⟨c, hc, rfl⟩ := List.mem_map.mp hs
    exact fun d hd => List.mem_flatMap.mpr ⟨c, hc, hd⟩

end Entry

def Aggregate.From (g : Aggregate) (index : Nat) (cs : List Contribution) : Prop :=
  ∀ m c, cs[m]? = some c → g.contributions[index + m]? = some c

theorem Aggregate.from_zero (g : Aggregate) : g.From 0 g.contributions := by
  intro m c hc
  rwa [Nat.zero_add]

theorem Aggregate.From.head {g : Aggregate} {index : Nat} {c : Contribution}
    {rest : List Contribution} (h : g.From index (c :: rest)) :
    g.contributions[index]? = some c := h 0 c rfl

theorem Aggregate.From.tail {g : Aggregate} {index : Nat} {c : Contribution}
    {rest : List Contribution} (h : g.From index (c :: rest)) : g.From (index + 1) rest := by
  intro m c' hc'
  rw [Nat.add_right_comm]
  exact h (m + 1) c' hc'

namespace Registry

def spot? (r : Registry) : Place → Option Spot
  | .binding a => (r.at? a).map fun e => ⟨a.type, e.dependencies, e.scope, e.source?⟩
  | .element a n =>
    match r.at? a with
    | some (.aggregate g) => g.contributions[n]?.map fun c =>
        ⟨.value g.shape.element, c.binding.dependencies, c.binding.effectiveScope, some c.source⟩
    | _ => none

def Singleton (r : Registry) (p : Place) : Prop :=
  ∃ s, r.spot? p = some s ∧ s.scope.isCached = true

def Unscoped (r : Registry) : Prop := ∀ p, ¬ r.Singleton p

def Edge (r : Registry) (a b : Ident) : Prop := ∃ e, r.at? a = some e ∧ Demands e.dependencies b

inductive Grounded (r : Registry) : Ident → Prop where
  | intro {a : Ident} {e : Entry} : r.at? a = some e →
      (∀ b, Demands e.dependencies b → Grounded r b) → Grounded r a

/-- No chain of dependencies from the key has more than `m` keys. -/
def Within (r : Registry) : Nat → Ident → Prop
  | 0, _ => False
  | m + 1, a => ∀ b, r.Edge a b → r.Within m b

def Sustains (r : Registry) (p : Place) (x : Instance) : Prop :=
  ∃ s, r.spot? p = some s ∧ x.type = s.type ∧ ∀ b, Demands s.dependencies b → r.Grounded b

structure WellTyped (r : Registry) : Prop where
  binding : ∀ {a c}, r.at? a = some (.binding c) → c.binding.provides.id = a.type
  aggregate : ∀ {a g}, r.at? a = some (.aggregate g) → a.type = .collection g.shape ∧
    ∀ c ∈ g.contributions, c.binding.provides.id = .value g.shape.element
  keyed : ∀ {a g}, r.at? a = some (.aggregate g) → g.Keyed

/-- The registry was frozen after some run of operations. -/
def Frozen (r : Registry) : Prop :=
  ∃ config ops, (∀ op ∈ ops, op.Typed) ∧
    (Operation.runAll (.withConfig config) ops).2.finalized = some r

variable {r : Registry} {a b : Ident}

theorem at?_empty (a : Ident) : ({} : Registry).at? a = none := rfl

theorem wellTyped_empty : ({} : Registry).WellTyped :=
  ⟨fun h => by simp [at?_empty] at h, fun h => by simp [at?_empty] at h, fun h => by simp [at?_empty] at h⟩

theorem spot?_binding {key : Key} {e : Entry} (h : r.at? key.ident = some e) :
    r.spot? (.binding key.ident) = some ⟨key.type.id, e.dependencies, e.scope, e.source?⟩ := by
  simp only [spot?, h, Option.map_some]
  rfl

theorem spot?_element {a : Ident} {g : Aggregate} {n : Nat} {c : Contribution}
    (hg : r.at? a = some (.aggregate g)) (hc : g.contributions[n]? = some c) :
    r.spot? (.element a n) = some ⟨.value g.shape.element, c.binding.dependencies,
      c.binding.effectiveScope, some c.source⟩ := by
  simp [spot?, hg, hc]

theorem bound_of_spot {p : Place} {s : Spot} (h : r.spot? p = some s) :
    ∃ e, r.at? p.key = some e := by
  cases p with
  | binding a =>
    obtain ⟨e, he, _⟩ := Option.map_eq_some_iff.mp h
    exact ⟨e, he⟩
  | element a n =>
    simp only [spot?] at h
    split at h
    · rename_i g hg
      exact ⟨_, hg⟩
    · contradiction

theorem wellTyped_view {b : Builder} (hf : b.Fits) (hv : r.at? = b.view) : r.WellTyped := by
  have fits : ∀ {a e}, r.at? a = some e →
      ∃ p : Pending, p.Fits a ∧ p.frozen? b.overrides = some e := by
    intro a e h
    rw [hv] at h
    obtain ⟨p, hp, he⟩ := Option.bind_eq_some_iff.mp h
    exact ⟨p, hf a p hp, he⟩
  have aggregate : ∀ {a g}, r.at? a = some (.aggregate g) → (Pending.aggregate g).Fits a := by
    intro a g h
    obtain ⟨p, hp, he⟩ := fits h
    cases p with
    | aggregate g' =>
      cases he
      exact hp
    | candidates cs =>
      obtain ⟨d, _, hc⟩ := Option.map_eq_some_iff.mp he
      contradiction
  refine ⟨fun {a c} h => ?_, fun h => ⟨(aggregate h).1, (aggregate h).2.2⟩, fun h => (aggregate h).2.1⟩
  obtain ⟨p, hp, he⟩ := fits h
  cases p with
  | aggregate g => simp [Pending.frozen?] at he
  | candidates cs =>
    obtain ⟨d, hd, hc⟩ := Option.map_eq_some_iff.mp he
    cases hc
    obtain ⟨rest, hperm, _⟩ := Builder.effective?_eq_some.mp hd
    exact hp c (hperm.mem_iff.mpr List.mem_cons_self)

theorem Frozen.wellTyped (h : r.Frozen) : r.WellTyped := by
  obtain ⟨config, ops, ht, hr⟩ := h
  exact wellTyped_view (Operation.fits_runAll (Builder.fits_withConfig config) ht)
    (Operation.at?_of_finalized hr)

theorem frozen_of_freeze {config : Config} {ops : List Operation} (ht : ∀ op ∈ ops, op.Typed)
    (hopen : (Operation.runAll (.withConfig config) ops).2.finalized = none)
    (h : (Operation.runAll (.withConfig config) ops).2.freeze = .ok r) : r.Frozen := by
  refine ⟨config, ops ++ [.finalize], fun op ho => ?_, ?_⟩
  · rcases List.mem_append.mp ho with ho | ho
    · exact ht op ho
    · rw [List.mem_singleton.mp ho]
      trivial
  · rw [Operation.runAll_append]
    simp [Operation.runAll, Operation.apply, Builder.finalize, hopen, h]

theorem Grounded.edge (h : r.Grounded a) (hab : r.Edge a b) : r.Grounded b := by
  obtain ⟨e, he, hb⟩ := hab
  cases h with
  | intro he' hd =>
    cases he.symm.trans he'
    exact hd b hb

/-- All that a grounded key leads to is bound, and nothing there depends on itself. -/
theorem Grounded.bound_acyclic (h : r.Grounded a) (hab : ReflTransGen r.Edge a b) :
    (∃ e, r.at? b = some e) ∧ ¬ TransGen r.Edge b b := by
  have hb : r.Grounded b := by
    induction hab with
    | refl => exact h
    | tail _ hbc ih => exact ih.edge hbc
  refine ⟨by cases hb with | intro he _ => exact ⟨_, he⟩, ?_⟩
  clear hab h
  induction hb with
  | @intro b e he _ ih =>
    intro hbb
    obtain ⟨c, ⟨e', he', hc⟩, hcb⟩ := TransGen.head'_iff.mp hbb
    cases he.symm.trans he'
    exact ih c hc (TransGen.tail' hcb ⟨e, he, hc⟩)

theorem Within.mono {m n : Nat} (h : r.Within m a) (hmn : m ≤ n) : r.Within n a := by
  induction m generalizing a n with
  | zero => exact h.elim
  | succ m ih =>
    obtain ⟨k, rfl⟩ : ∃ k, n = k + 1 := ⟨n - 1, by omega⟩
    exact fun b hb => ih (h b hb) (by omega)

theorem within_iff {m : Nat} : r.Within m a ↔
    ∀ path : List Ident, List.IsChain r.Edge (a :: path) → (a :: path).length ≤ m := by
  induction m generalizing a with
  | zero =>
    refine iff_of_false id fun h => ?_
    have := h [] (.singleton a)
    simp at this
  | succ m ih =>
    constructor
    · intro h path hc
      cases path with
      | nil => simp
      | cons b rest =>
        obtain ⟨hab, hrest⟩ := List.isChain_cons_cons.mp hc
        have := ih.mp (h b hab) rest hrest
        simp only [List.length_cons] at this ⊢
        omega
    · intro h b hab
      refine ih.mpr fun path hc => ?_
      have := h (b :: path) (List.isChain_cons_cons.mpr ⟨hab, hc⟩)
      simp only [List.length_cons] at this ⊢
      omega

theorem Within.irrefl {m : Nat} (h : r.Within m a) : ¬ TransGen r.Edge a a := by
  induction m generalizing a with
  | zero => exact h.elim
  | succ m ih =>
    intro haa
    obtain ⟨c, hac, hca⟩ := TransGen.head'_iff.mp haa
    exact ih (h c hac) (TransGen.tail' hca hac)

end Registry

end Wiring
