import Wiring.Proofs.Registry.Validation

set_option autoImplicit false

namespace Wiring

def Pending.Runs (P : Strategy → Prop) : Pending → Prop
  | candidates cs => ∀ c ∈ cs, P c.binding.strategy
  | aggregate g => ∀ c ∈ g.contributions, P c.binding.strategy

variable {P : Strategy → Prop} {ops : List Operation}

theorem Pending.Runs.settle {g : OverrideGraph} {s : Scope} {op : Operation} {p : Option Pending}
    {q : Pending} (hop : ∀ b, op.binding? = some b → P b.strategy) (hp : ∀ o, p = some o → o.Runs P)
    (h : op.settle g s p = some q) : q.Runs P := by
  rcases Operation.settle_cases h with ⟨_, binding, _, old, rfl, _, hold, _, rfl⟩ |
    ⟨_, _, a, rfl, hold, rfl⟩ | ⟨_, binding, _, _, a, _, rfl, hold, hgrown, rfl⟩ |
    ⟨_, _, a, rfl, hold, rfl⟩
  · intro c hc
    rcases List.mem_append.mp hc with hc | hc
    · rcases hold with ⟨_, rfl⟩ | hold
      · contradiction
      · exact hp _ hold c hc
    · rw [List.mem_singleton.mp hc]
      exact hop binding rfl
  · rcases hold with ⟨_, rfl⟩ | hold
    · simp [Runs]
    · exact hp _ hold
  · obtain ⟨_, _, _, hmem⟩ := Aggregate.insert_cases hgrown
    intro c hc
    rcases hmem c hc with rfl | hc
    · exact hop binding rfl
    · exact hp _ hold c hc
  · intro c hc
    exact hp _ hold c hc

theorem Operation.runs_runAll {config : Config}
    (hops : ∀ op ∈ ops, ∀ b, op.binding? = some b → P b.strategy) {a : Ident} {p : Pending}
    (h : (runAll (.withConfig config) ops).2.at? a = some p) : p.Runs P := by
  refine entries_runAll (P := fun _ p => p.Runs P)
    (fun op ho _ _ _ _ _ _ hp hs => Pending.Runs.settle (hops op ho) hp hs) (fun a p h => ?_) h
  simp at h

/-- Each strategy that a registry runs is that of a binding that was handed in. -/
theorem Operation.handed_in {config : Config} {r : Registry}
    (hr : (runAll (.withConfig config) ops).2.finalized = some r) {a : Ident} {e : Entry}
    (he : r.at? a = some e) {s : Strategy} (hs : s ∈ e.strategies) :
    ∃ op ∈ ops, ∃ b, op.binding? = some b ∧ b.strategy = s := by
  have hruns : ∀ {p}, (runAll (.withConfig config) ops).2.at? a = some p →
      p.Runs fun s => ∃ op ∈ ops, ∃ b, op.binding? = some b ∧ b.strategy = s :=
    runs_runAll fun op ho b hb => ⟨op, ho, b, hb, rfl⟩
  rw [at?_of_finalized hr] at he
  cases e with
  | binding c =>
    obtain ⟨cs, hcs, hc⟩ := Builder.view_eq_binding.mp he
    obtain ⟨rest, hperm, _⟩ := Builder.effective?_eq_some.mp hc
    rw [List.mem_singleton.mp hs]
    exact hruns hcs c (hperm.mem_iff.mpr List.mem_cons_self)
  | aggregate g =>
    obtain ⟨c, hc, rfl⟩ := List.mem_map.mp hs
    exact hruns (Builder.view_eq_aggregate.mp he) c hc

def Registry.Runs (P : Strategy → Prop) (r : Registry) : Prop :=
  ∀ a e, r.at? a = some e → ∀ s ∈ e.strategies, P s

structure Builder.Runs (P : Strategy → Prop) (b : Builder) : Prop where
  pending : ∀ a p, b.at? a = some p → p.Runs P
  frozen : ∀ r, b.finalized = some r → r.Runs P

theorem Pending.Runs.frozen {g : OverrideGraph} {p : Pending} {e : Entry} (h : p.Runs P)
    (he : p.frozen? g = some e) : ∀ s ∈ e.strategies, P s := by
  intro s hs
  cases p with
  | aggregate a =>
    cases he
    obtain ⟨c, hc, rfl⟩ := List.mem_map.mp hs
    exact h c hc
  | candidates cs =>
    obtain ⟨c, hc, rfl⟩ := Option.map_eq_some_iff.mp he
    obtain ⟨rest, hperm, _⟩ := Builder.effective?_eq_some.mp hc
    rw [List.mem_singleton.mp hs]
    exact h c (hperm.mem_iff.mpr List.mem_cons_self)

namespace Builder

variable {b : Builder} {r : Registry}

theorem at?_of_freeze (h : b.freeze = .ok r) : r.at? = b.view := by
  unfold freeze at h
  cases hf : freezeEntries b.overrides b.entries.entries with
  | error e =>
    rw [hf] at h
    contradiction
  | ok entries =>
    have hentries : r.entries = ⟨entries⟩ := by
      simp only [hf] at h
      split at h
      · split at h <;> cases h
        rfl
      · cases h
        rfl
    funext a
    rw [Registry.at?, hentries]
    exact at?_frozen (freezeEntries_eq_ok.mp hf) a

theorem Runs.freeze (hb : b.Runs P) (h : b.freeze = .ok r) : r.Runs P := by
  intro a e he
  rw [at?_of_freeze h] at he
  obtain ⟨p, hp, hfrozen⟩ := Option.bind_eq_some_iff.mp he
  exact (hb.pending a p hp).frozen hfrozen

theorem Runs.apply {op : Operation} (hb : b.Runs P) (hop : ∀ c, op.binding? = some c → P c.strategy) :
    (op.apply b).2.Runs P := by
  rcases Operation.apply_cases b op with ⟨e, ha⟩ | ⟨key, p, left, _, _, hsettle, ha, hw⟩ |
    ⟨x, y, _, ha⟩ | ⟨_, r, hr, ha⟩ <;> rw [ha]
  · exact hb
  · refine ⟨fun a q hq => ?_, fun r hr => hb.frozen r (hw.finalized ▸ hr)⟩
    rw [hw.at?] at hq
    split at hq
    · cases hq
      exact Pending.Runs.settle hop (fun o ho => hb.pending _ o ho) hsettle
    · exact hb.pending a q hq
  · exact ⟨hb.pending, hb.frozen⟩
  · refine ⟨hb.pending, fun s hs => ?_⟩
    cases hs
    exact hr.elim (hb.frozen r) hb.freeze

end Builder

end Wiring
