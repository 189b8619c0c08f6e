import Mathlib.Data.List.Perm.Basic
import Wiring.Registry.Builder
import Wiring.Proofs.Override

set_option autoImplicit false

namespace Wiring.Builder

open OverrideGraph

variable {g : OverrideGraph}

theorem precedes_iff {c d : Candidate} :
    precedes g c d = true ↔ g.Above c.source d.source ∧ ¬ g.Above d.source c.source := by
  simp [precedes, Above]

theorem effectiveAmong_eq_some {before cs : List Candidate} {c : Candidate} :
    effectiveAmong g before cs = some c ↔
      ∃ pre post, cs = pre ++ c :: post ∧ ∀ d ∈ before ++ pre ++ post, precedes g c d := by
  induction cs generalizing before with
  | nil => simp [effectiveAmong]
  | cons x after ih =>
    by_cases hx : (before ++ after).all (precedes g x)
    · simp only [effectiveAmong, hx, if_true, Option.some.injEq]
      rw [List.all_eq_true] at hx
      constructor
      · rintro rfl
        exact ⟨[], after, rfl, by simpa using hx⟩
      · rintro ⟨pre, post, he, hc⟩
        cases pre with
        | nil =>
          cases he
          rfl
        | cons y pre =>
          -- Two candidates would each take precedence over the other.
          obtain ⟨rfl, rfl⟩ := List.cons.inj he
          have hxc := precedes_iff.mp (hx c (by simp))
          have hcx := precedes_iff.mp (hc x (by simp))
          exact absurd hxc.1 hcx.2
    · simp only [effectiveAmong, hx, Bool.false_eq_true, if_false, ih]
      constructor
      · rintro ⟨pre, post, rfl, hc⟩
        exact ⟨x :: pre, post, rfl, by simpa using hc⟩
      · rintro ⟨pre, post, he, hc⟩
        cases pre with
        | nil =>
          cases he
          refine absurd (List.all_eq_true.mpr fun d hd => ?_) hx
          exact hc d (by simpa using hd)
        | cons y pre =>
          obtain ⟨rfl, rfl⟩ := List.cons.inj he
          exact ⟨pre, post, rfl, by simpa using hc⟩

theorem effective?_eq_some {cs : List Candidate} {c : Candidate} :
    effective? g cs = some c ↔ ∃ rest, cs.Perm (c :: rest) ∧ ∀ d ∈ rest, precedes g c d := by
  unfold effective?
  rw [effectiveAmong_eq_some]
  constructor
  · rintro ⟨pre, post, rfl, hc⟩
    exact ⟨pre ++ post, List.perm_middle, by simpa using hc⟩
  · rintro ⟨rest, hp, hc⟩
    obtain ⟨pre, post, rfl⟩ := List.append_of_mem (hp.mem_iff.mpr List.mem_cons_self)
    have hrest : (pre ++ post).Perm rest := (List.perm_middle.symm.trans hp).cons_inv
    exact ⟨pre, post, rfl, fun d hd => hc d (hrest.mem_iff.mp (by simpa using hd))⟩

theorem effective?_perm {cs ds : List Candidate} (h : cs.Perm ds) :
    effective? g cs = effective? g ds := by
  have hiff : ∀ c, effective? g cs = some c ↔ effective? g ds = some c := by
    intro c
    rw [effective?_eq_some, effective?_eq_some]
    exact ⟨fun ⟨rest, hp, hc⟩ => ⟨rest, h.symm.trans hp, hc⟩,
      fun ⟨rest, hp, hc⟩ => ⟨rest, h.trans hp, hc⟩⟩
  exact Option.ext hiff

def Related (g : OverrideGraph) (cs : List Candidate) : Prop :=
  cs.Pairwise fun c d => g.Above c.source d.source ∨ g.Above d.source c.source

theorem Related.exists_effective (hg : g.Acyclic) {cs : List Candidate} (h : Related g cs)
    (hn : cs ≠ []) : ∃ c, effective? g cs = some c := by
  induction cs with
  | nil => contradiction
  | cons c cs ih =>
    obtain ⟨hc, hcs⟩ := List.pairwise_cons.mp h
    by_cases he : cs = []
    · subst he
      exact ⟨c, effective?_eq_some.mpr ⟨[], List.Perm.refl _, by simp⟩⟩
    obtain ⟨t, ht⟩ := ih hcs he
    obtain ⟨rest, hp, htop⟩ := effective?_eq_some.mp ht
    have htm : t ∈ cs := hp.mem_iff.mpr List.mem_cons_self
    rcases hc t htm with hct | htc
    · -- The new candidate takes precedence over the top of the others, and so over all.
      refine ⟨c, effective?_eq_some.mpr ⟨cs, List.Perm.refl _, fun d hd => ?_⟩⟩
      have hcd : g.Above c.source d.source := by
        rcases List.mem_cons.mp (hp.mem_iff.mp hd) with rfl | hd
        · exact hct
        · exact hct.trans (precedes_iff.mp (htop d hd)).1
      exact precedes_iff.mpr ⟨hcd, hg.asymm hcd⟩
    · refine ⟨t, effective?_eq_some.mpr ⟨c :: rest, ?_, fun d hd => ?_⟩⟩
      · exact (hp.cons c).trans (List.Perm.swap t c rest)
      · rcases List.mem_cons.mp hd with rfl | hd
        · exact precedes_iff.mpr ⟨htc, hg.asymm htc⟩
        · exact htop d hd

end Wiring.Builder
