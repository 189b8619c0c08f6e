import Mathlib.Data.List.Nodup
import Wiring.Proofs.Registry.Aggregate
import Wiring.Proofs.Registry.Validation

set_option autoImplicit false

namespace Wiring

namespace Aggregate

def Distinct (g : Aggregate) : Prop := (g.contributions.filterMap Contribution.mapKey).Nodup

theorem mapKeys_place {ov : Source → Source → Bool} {new : Contribution} {k : MapKey}
    {cs placed : List Contribution} (hk : new.mapKey = some k) (h : place ov new k cs = .ok placed) :
    k ∈ cs.filterMap Contribution.mapKey ∧
        placed.filterMap Contribution.mapKey = cs.filterMap Contribution.mapKey ∨
      k ∉ cs.filterMap Contribution.mapKey ∧
        placed.filterMap Contribution.mapKey = cs.filterMap Contribution.mapKey ++ [k] := by
  induction cs generalizing placed with
  | nil =>
    cases h
    simp [hk]
  | cons c rest ih =>
    simp only [place] at h
    by_cases hc : c.mapKey = some k
    · left
      rw [if_pos hc] at h
      refine ⟨List.mem_filterMap.mpr ⟨c, List.mem_cons_self, hc⟩, ?_⟩
      split at h
      · cases h
        simp [hk, hc]
      · split at h
        · cases h
          rfl
        · contradiction
    · rw [if_neg hc] at h
      cases hr : place ov new k rest with
      | error s =>
        rw [hr] at h
        contradiction
      | ok r =>
        rw [hr] at h
        cases h
        rcases ih hr with ⟨hold, heq⟩ | ⟨hnew, heq⟩
        · left
          cases hm : c.mapKey with
          | none => simpa [List.filterMap_cons, hm, heq] using hold
          | some k' => simpa [hm, heq] using Or.inr hold
        · right
          cases hm : c.mapKey with
          | none => simpa [List.filterMap_cons, hm, heq] using hnew
          | some k' =>
            have hne : k ≠ k' := fun hkk => hc (by rw [hm, hkk])
            simpa [hm, heq, hne] using hnew

theorem Distinct.insert {ov : Source → Source → Bool} {key : Key} {new : Contribution}
    {g grown : Aggregate} (hg : g.Distinct) (h : g.insert ov key new = .ok grown) :
    grown.Distinct := by
  unfold Aggregate.insert at h
  split at h
  · contradiction
  · split at h
    · rename_i hnone
      cases h
      simpa [Distinct, hnone] using hg
    · rename_i k hk
      split at h
      · rename_i placed hplaced
        cases h
        rcases mapKeys_place hk hplaced with ⟨_, heq⟩ | ⟨hnew, heq⟩
        · simpa [Distinct, heq] using hg
        · simp only [Distinct, heq]
          refine List.nodup_append.mpr ⟨hg, List.nodup_singleton k, fun a ha b hb => ?_⟩
          rw [List.mem_singleton.mp hb]
          exact fun hak => hnew (hak ▸ ha)
      · contradiction

theorem Distinct.at?_of_mem {g : Aggregate} (hg : g.Distinct) {c : Contribution}
    (hc : c ∈ g.contributions) {k : MapKey} (hk : c.mapKey = some k) : g.at? k = some c := by
  unfold Distinct at hg
  unfold Aggregate.at?
  generalize g.contributions = cs at hg hc
  induction cs with
  | nil => contradiction
  | cons d rest ih =>
    rcases List.mem_cons.mp hc with rfl | hc
    · simp [hk]
    · have hmem : k ∈ rest.filterMap Contribution.mapKey := List.mem_filterMap.mpr ⟨c, hc, hk⟩
      cases hd : d.mapKey with
      | none =>
        rw [List.filterMap_cons_none hd] at hg
        simpa [hd] using ih hg hc
      | some k' =>
        rw [List.filterMap_cons_some hd, List.nodup_cons] at hg
        have hne : k' ≠ k := fun h => hg.1 (h ▸ hmem)
        simpa [hd, hne] using ih hg.2 hc

end Aggregate

namespace Builder

variable {config : Config} {ops : List Operation}

/-- What holds of an aggregate when it is declared, and still after whatever is done to it, holds of those
that a run has led to. -/
theorem aggregate_runAll {P : Ident → Aggregate → Prop}
    (hdeclare : ∀ key shape s, .declareAggregate key shape ∈ ops → P key.ident { shape, scope := s })
    (hinsert : ∀ key binding source mapKey ov s g grown,
      .contribute key binding source mapKey ∈ ops → P key.ident g →
      g.insert ov key ⟨binding.withDefaultScope s, source, mapKey⟩ = .ok grown → P key.ident grown)
    (hscope : ∀ a g s, P a g → P a { g with scope := s }) (a : Ident) (g : Aggregate)
    (h : (Operation.runAll (withConfig config) ops).2.at? a = some (.aggregate g)) : P a g := by
  refine Operation.entries_runAll (P := fun a p => ∀ g, p = .aggregate g → P a g)
    (fun op ho key _ s p q hk hp hs g hq => ?_) (fun a p h => ?_) h g rfl
  · rcases Operation.settle_cases hs with ⟨_, _, _, _, rfl, _, _, _, rfl⟩ |
      ⟨k, shape, g', rfl, hold, rfl⟩ | ⟨k, _, _, _, g', _, rfl, hold, hg, rfl⟩ |
      ⟨k, _, g', rfl, hold, rfl⟩ <;> cases hk <;> cases hq
    · rcases hold with ⟨_, rfl⟩ | hold
      · exact hdeclare _ _ _ ho
      · exact hp _ hold _ rfl
    · exact hinsert _ _ _ _ _ _ _ _ ho (hp _ hold _ rfl) hg
    · exact hscope _ _ _ (hp _ hold _ rfl)
  · simp at h

theorem distinct_runAll {a : Ident} {g : Aggregate}
    (h : (Operation.runAll (withConfig config) ops).2.at? a = some (.aggregate g)) : g.Distinct :=
  aggregate_runAll (P := fun _ g => g.Distinct) (fun _ _ _ _ => List.nodup_nil)
    (fun _ _ _ _ _ _ _ _ _ hg h => hg.insert h) (fun _ _ _ hg => hg) a g h

end Builder

end Wiring
