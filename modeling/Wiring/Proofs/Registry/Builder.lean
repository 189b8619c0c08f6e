import Mathlib.Data.List.Forall2
import Wiring.Proofs.Registry.Operation

set_option autoImplicit false

namespace Wiring

open OverrideGraph

theorem OverrideGraph.Above.declare {g : OverrideGraph} {s t : Source} (h : g.Above s t)
    (x y : ModuleId) : (g.declare x y).Above s t := by
  obtain ⟨a, b, rfl, rfl, hab⟩ := above_iff.mp h
  have hle : g.Overrides ≤ (g.declare x y).Overrides :=
    fun _ _ h => overrides_declare.mpr (.inl h)
  exact above_iff.mpr ⟨a, b, rfl, rfl, Relation.TransGen.mono hle _ _ hab⟩

theorem Builder.Related.snoc {g : OverrideGraph} {cs : List Candidate} {new : Candidate}
    (h : Builder.Related g cs)
    (hn : ∀ c ∈ cs, g.Above new.source c.source ∨ g.Above c.source new.source) :
    Builder.Related g (cs ++ [new]) := by
  refine List.pairwise_append.mpr ⟨h, List.pairwise_singleton _ _, fun c hc d hd => ?_⟩
  rw [List.mem_singleton.mp hd]
  exact (hn c hc).symm

/-- An aggregate is declared under a key of its own type, and a contribution comes with a map key of the type of
the collection's keys, or with none if there are none. -/
def Operation.Typed : Operation → Prop
  | .declareAggregate key shape => key.type.id = .collection shape
  | .contribute key _ _ mapKey => ∀ shape, key.type.id = .collection shape →
      mapKey.map MapKey.type = shape.keyType?
  | _ => True

def Aggregate.Keyed (g : Aggregate) : Prop :=
  ∀ c ∈ g.contributions, c.mapKey.map MapKey.type = g.shape.keyType?

namespace Pending

def Coherent (g : OverrideGraph) : Pending → Prop
  | candidates cs => cs ≠ [] ∧ Builder.Related g cs
  | aggregate _ => True

def Fits (a : Ident) : Pending → Prop
  | candidates cs => ∀ c ∈ cs, c.binding.provides.id = a.type
  | aggregate g => a.type = .collection g.shape ∧ g.Keyed ∧
      ∀ c ∈ g.contributions, c.binding.provides.id = .value g.shape.element

def candidatesOf : Option Pending → List Candidate
  | some (candidates cs) => cs
  | _ => []

theorem Coherent.settle {g : OverrideGraph} {s : Scope} {op : Operation} {p : Option Pending}
    {q : Pending} (hp : ∀ o, p = some o → o.Coherent g) (h : op.settle g s p = some q) :
    q.Coherent g := by
  rcases Operation.settle_cases h with ⟨_, _, _, old, _, _, hold, hrel, rfl⟩ |
    ⟨_, _, _, _, _, rfl⟩ | ⟨_, _, _, _, _, _, _, _, _, rfl⟩ | ⟨_, _, _, _, _, rfl⟩
  · refine ⟨by simp, Builder.Related.snoc ?_ hrel⟩
    rcases hold with ⟨_, rfl⟩ | hold
    · exact List.Pairwise.nil
    · exact (hp _ hold).2
  all_goals trivial

end Pending

namespace Aggregate

theorem mem_place {ov : Source → Source → Bool} {new : Contribution} {k : MapKey}
    {cs placed : List Contribution} (h : place ov new k cs = .ok placed) {c : Contribution}
    (hc : c ∈ placed) : c = new ∨ c ∈ cs := by
  induction cs generalizing placed with
  | nil =>
    cases h
    exact .inl (List.mem_singleton.mp hc)
  | cons d rest ih =>
    simp only [place] at h
    split at h
    · split at h
      · cases h
        exact (List.mem_cons.mp hc).imp_right (List.mem_cons_of_mem _)
      · split at h
        · cases h
          exact .inr hc
        · contradiction
    · cases hr : place ov new k rest with
      | error e =>
        rw [hr] at h
        contradiction
      | ok r =>
        rw [hr] at h
        cases h
        rcases List.mem_cons.mp hc with rfl | hc
        · exact .inr List.mem_cons_self
        · exact (ih hr hc).imp_right (List.mem_cons_of_mem _)

/-- A grown aggregate has one more contribution, of its element type, or the new one in place of
another, and is otherwise as before. -/
theorem insert_cases {ov : Source → Source → Bool} {key : Key} {new : Contribution}
    {a grown : Aggregate} (h : a.insert ov key new = .ok grown) :
    new.binding.provides.id = .value a.shape.element ∧ grown.shape = a.shape ∧
      grown.scope = a.scope ∧ ∀ c ∈ grown.contributions, c = new ∨ c ∈ a.contributions := by
  simp only [insert] at h
  split at h
  · contradiction
  · rename_i ht
    refine ⟨not_not.mp ht, ?_⟩
    split at h
    · cases h
      refine ⟨rfl, rfl, fun c hc => ?_⟩
      simpa [or_comm] using hc
    · split at h
      · rename_i placed hp
        cases h
        exact ⟨rfl, rfl, fun c hc => mem_place hp hc⟩
      · contradiction

end Aggregate

theorem Pending.Fits.settle {g : OverrideGraph} {s : Scope} {op : Operation} {key : Key}
    {p : Option Pending} {q : Pending} (ht : op.Typed) (hk : op.subject? = some key)
    (hp : ∀ o, p = some o → o.Fits key.ident) (h : op.settle g s p = some q) :
    q.Fits key.ident := by
  rcases Operation.settle_cases h with ⟨k, binding, source, old, rfl, hb, hold, _, rfl⟩ |
    ⟨k, shape, a, rfl, hold, rfl⟩ | ⟨k, binding, source, mapKey, a, grown, rfl, hold, hg, rfl⟩ |
    ⟨k, scope, a, rfl, hold, rfl⟩
  · cases hk
    intro c hc
    rcases List.mem_append.mp hc with hc | hc
    · rcases hold with ⟨_, rfl⟩ | hold
      · contradiction
      · exact hp _ hold c hc
    · rw [List.mem_singleton.mp hc]
      exact hb
  · cases hk
    rcases hold with ⟨_, rfl⟩ | hold
    · exact ⟨ht, by simp [Aggregate.Keyed], by simp⟩
    · exact hp _ hold
  · cases hk
    obtain ⟨hshape, hkeyed, hcs⟩ := hp _ hold
    obtain ⟨hnew, hs, _, hmem⟩ := Aggregate.insert_cases hg
    refine ⟨by rw [hs]; exact hshape, fun c hc => ?_, fun c hc => ?_⟩ <;> rw [hs] <;>
      rcases hmem c hc with rfl | hc
    · exact ht _ hshape
    · exact hkeyed c hc
    · exact hnew
    · exact hcs c hc
  · cases hk
    have hfits := hp _ hold
    exact hfits

namespace Builder

structure Coherent (b : Builder) : Prop where
  sorted : b.entries.Sorted
  entries : ∀ a p, b.at? a = some p → p.Coherent b.overrides

theorem coherent_withConfig (config : Config) : (withConfig config).Coherent :=
  ⟨KeyMap.sorted_nil, fun _ _ h => by simp at h⟩

theorem Coherent.apply {b : Builder} (h : b.Coherent) (op : Operation) :
    (op.apply b).2.Coherent := by
  rcases Operation.apply_cases b op with ⟨e, ha⟩ | ⟨key, p, left, hk, _, hs, ha, hw⟩ |
    ⟨x, y, rfl, ha⟩ | ⟨rfl, r, _, ha⟩ <;> rw [ha]
  · exact h
  · refine ⟨hw.sorted h.sorted, fun a q hq => ?_⟩
    rw [hw.at?] at hq
    rw [hw.overrides]
    split at hq
    · cases hq
      exact Pending.Coherent.settle (fun o ho => h.entries _ o ho) hs
    · exact h.entries a q hq
  · refine ⟨h.sorted, fun a q hq => ?_⟩
    have hold := h.entries a q hq
    cases q with
    | candidates cs => exact ⟨hold.1, hold.2.imp fun hab => hab.imp (·.declare x y) (·.declare x y)⟩
    | aggregate a => trivial
  · exact ⟨h.sorted, h.entries⟩

def Fits (b : Builder) : Prop := ∀ a p, b.at? a = some p → p.Fits a

theorem fits_withConfig (config : Config) : (withConfig config).Fits := by
  intro a p h
  simp at h

end Builder

namespace Operation

def candidate? (s : Scope) (a : Ident) : Operation → Option Candidate
  | register key binding source =>
    if key.ident = a then some ⟨binding.withDefaultScope s, source⟩ else none
  | _ => none

/-- The candidates for a key whose registration is accepted in a run, in the order of registration. -/
def accepted (a : Ident) (b : Builder) : List Operation → List Candidate
  | [] => []
  | op :: rest =>
    match op.apply b with
    | (.ok _, left) => (op.candidate? b.config.defaultScope a).toList ++ accepted a left rest
    | (.error _, left) => accepted a left rest

theorem candidatesOf_apply (b : Builder) (op : Operation) (a : Ident) :
    Pending.candidatesOf ((op.apply b).2.at? a) = Pending.candidatesOf (b.at? a) ++
      match (op.apply b).1 with
      | .ok _ => (op.candidate? b.config.defaultScope a).toList
      | .error _ => [] := by
  rcases apply_cases b op with ⟨e, ha⟩ | ⟨key, p, left, hk, _, hs, ha, hw⟩ |
    ⟨x, y, rfl, ha⟩ | ⟨rfl, r, _, ha⟩ <;> rw [ha]
  · simp
  · dsimp only
    rw [hw.at?]
    rcases settle_cases hs with ⟨k, binding, source, old, rfl, _, hold, _, rfl⟩ |
      ⟨k, shape, g, rfl, hold, rfl⟩ | ⟨k, _, _, _, g, _, rfl, hold, _, rfl⟩ |
      ⟨k, _, g, rfl, hold, rfl⟩ <;> cases hk
    · by_cases hka : key.ident = a
      · subst hka
        rcases hold with ⟨hn, rfl⟩ | hold
        · simp [candidate?, Pending.candidatesOf, hn]
        · simp [candidate?, Pending.candidatesOf, hold]
      · simp [candidate?, hka]
    · by_cases hka : key.ident = a
      · subst hka
        rcases hold with ⟨hn, _⟩ | hold
        · simp [candidate?, Pending.candidatesOf, hn]
        · simp [candidate?, Pending.candidatesOf, hold]
      · simp [candidate?, hka]
    all_goals
      by_cases hka : key.ident = a
      · subst hka
        simp [candidate?, Pending.candidatesOf, hold]
      · simp [candidate?, hka]
  · simp [candidate?, Builder.at?]
  · simp [candidate?, Builder.at?]

theorem candidatesOf_runAll (b : Builder) (ops : List Operation) (a : Ident) :
    Pending.candidatesOf ((runAll b ops).2.at? a) =
      Pending.candidatesOf (b.at? a) ++ accepted a b ops := by
  induction ops generalizing b with
  | nil => simp [runAll, accepted]
  | cons op rest ih =>
    have hop := candidatesOf_apply b op a
    simp only [runAll, accepted]
    rw [ih, hop]
    generalize op.apply b = r
    obtain ⟨outcome, left⟩ := r
    cases outcome <;> simp

theorem coherent_runAll {b : Builder} (h : b.Coherent) (ops : List Operation) :
    (runAll b ops).2.Coherent :=
  runAll_induction ops (fun _ op _ hb => hb.apply op) h

theorem fits_runAll {b : Builder} (h : b.Fits) {ops : List Operation}
    (ht : ∀ op ∈ ops, op.Typed) : (runAll b ops).2.Fits := fun _ _ =>
  entries_runAll (P := fun a p => p.Fits a)
    (fun op ho _ _ _ _ _ hk hp hs => Pending.Fits.settle (ht op ho) hk hp hs) h

end Operation

end Wiring
