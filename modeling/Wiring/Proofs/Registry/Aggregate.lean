import Mathlib.Data.List.Perm.Basic
import Wiring.Registry.Aggregate
import Wiring.Proofs.Override

set_option autoImplicit false

namespace Wiring

open OverrideGraph

/-- Of two orders of things that come from sources, where each thing of the first one takes precedence
over those before it and none of the second over one behind it, both are the same. -/
theorem OverrideGraph.eq_of_perm {g : OverrideGraph} (hg : g.Acyclic) {α : Type} (source : α → Source)
    {xs ys : List α} (hp : xs.Perm ys) (hx : xs.Pairwise fun a b => g.Above (source b) (source a))
    (hy : ys.Pairwise fun a b => ¬ g.Above (source a) (source b)) : xs = ys := by
  have hrel : ys.Pairwise fun a b =>
      g.Above (source a) (source b) ∨ g.Above (source b) (source a) :=
    (hp.pairwise_iff fun h => h.symm).mp (hx.imp fun h => .inr h)
  have habove : ys.Pairwise fun a b => g.Above (source b) (source a) :=
    (hrel.and hy).imp fun h => h.1.resolve_left h.2
  exact List.Perm.eq_of_pairwise (fun a b _ _ hab hba => absurd hab (hg.asymm hba)) hx habove hp

theorem perm_of_classes {α γ : Type} [DecidableEq γ] (f : α → γ) {xs ys : List α}
    (h : ∀ x, (xs.filter fun a => f a = x).Perm (ys.filter fun a => f a = x)) : xs.Perm ys := by
  classical
  refine List.perm_iff_count.mpr fun a => ?_
  have hx : (xs.filter fun b => f b = f a).count a = xs.count a := List.count_filter (by simp)
  have hy : (ys.filter fun b => f b = f a).count a = ys.count a := List.count_filter (by simp)
  rw [← hx, ← hy, (h (f a)).count_eq]

namespace Aggregate

def at? (a : Aggregate) (k : MapKey) : Option Contribution :=
  a.contributions.find? fun c => c.mapKey = some k

def under (x : Option MapKey) (cs : List Contribution) : List Contribution :=
  cs.filter fun c => c.mapKey = x

theorem at?_eq_head (a : Aggregate) (k : MapKey) :
    a.at? k = (under (some k) a.contributions).head? := by
  rw [at?, under, List.head?_filter]

def rival (ov : Source → Source → Bool) (new : Contribution) :
    List Contribution → Option (List Contribution)
  | [] => some [new]
  | c :: rest =>
    if ov new.source c.source then some (new :: rest)
    else if ov c.source new.source then some (c :: rest)
    else none

def rivals (ov : Source → Source → Bool) :
    List Contribution → List Contribution → Option (List Contribution)
  | [], cs => some cs
  | new :: rest, cs =>
    match rival ov new cs with
    | none => none
    | some ds => rivals ov rest ds

/-- The contributions after one more, of a type `e`; nothing if it is refused. -/
def add (ov : Source → Source → Bool) (e : Base) (new : Contribution) (cs : List Contribution) :
    Option (List Contribution) :=
  if new.binding.provides.id ≠ .value e then none
  else
    match new.mapKey with
    | none => some (cs ++ [new])
    | some k => (place ov new k cs).toOption

def grow (ov : Source → Source → Bool) (e : Base) :
    List Contribution → List Contribution → Option (List Contribution)
  | [], cs => some cs
  | new :: rest, cs =>
    match add ov e new cs with
    | none => none
    | some ds => grow ov e rest ds

theorem insert_eq_add (ov : Source → Source → Bool) (key : Key) (new : Contribution)
    (a : Aggregate) :
    (a.insert ov key new).toOption =
      (add ov a.shape.element new a.contributions).map fun cs => { a with contributions := cs } := by
  unfold insert add
  split
  · rfl
  · cases new.mapKey with
    | none => rfl
    | some k =>
      dsimp only
      cases place ov new k a.contributions <;> rfl

variable {ov : Source → Source → Bool} {e : Base} {new : Contribution} {k : MapKey}

theorem place_spec (ov : Source → Source → Bool) (hk : new.mapKey = some k) (cs : List Contribution) :
    match place ov new k cs with
    | .ok placed => rival ov new (under (some k) cs) = some (under (some k) placed) ∧
        ∀ x, x ≠ some k → under x placed = under x cs
    | .error _ => rival ov new (under (some k) cs) = none := by
  induction cs with
  | nil =>
    simp only [place]
    refine ⟨by simp [under, rival, hk], fun x hx => ?_⟩
    simp [under, hk, hx.symm]
  | cons c rest ih =>
    by_cases hc : c.mapKey = some k
    · have hunder : under (some k) (c :: rest) = c :: under (some k) rest := by
        simp [under, hc]
      simp only [place, hc, if_true, hunder, rival]
      by_cases hnew : ov new.source c.source = true
      · simp only [hnew, if_true]
        refine ⟨by simp [under, hk], fun x hx => ?_⟩
        simp [under, hk, hc, hx.symm]
      · by_cases hold : ov c.source new.source = true
        · simp only [hnew, hold, if_true, Bool.false_eq_true, if_false]
          exact ⟨by simp [under, hc], fun _ _ => trivial⟩
        · simp [hnew, hold]
    · have hunder : under (some k) (c :: rest) = under (some k) rest := by simp [under, hc]
      simp only [place, hc, if_false, hunder]
      cases hp : place ov new k rest with
      | error s =>
        rw [hp] at ih
        exact ih
      | ok placed =>
        rw [hp] at ih
        obtain ⟨hr, hx⟩ := ih
        refine ⟨?_, fun x hne => ?_⟩
        · rw [hr]
          simp [under, hc]
        · have := hx x hne
          simp only [under] at this ⊢
          by_cases hcx : c.mapKey = x <;> simp [hcx, this]

theorem add_spec (ov : Source → Source → Bool) (e : Base) (new : Contribution)
    (cs : List Contribution) :
    match add ov e new cs with
    | some ds => new.binding.provides.id = .value e ∧
        (∀ k, rivals ov (under (some k) [new]) (under (some k) cs) = some (under (some k) ds)) ∧
        under none ds = under none cs ++ under none [new]
    | none => new.binding.provides.id ≠ .value e ∨
        ∃ k, new.mapKey = some k ∧ rival ov new (under (some k) cs) = none := by
  unfold add
  by_cases ht : new.binding.provides.id = .value e
  · simp only [ht, ne_eq, not_true_eq_false, if_false, true_and]
    cases hk : new.mapKey with
    | none =>
      dsimp only
      refine ⟨fun k => ?_, by simp [under]⟩
      simp [under, hk, rivals]
    | some k =>
      dsimp only
      have hp := place_spec ov hk cs
      cases hplace : place ov new k cs with
      | error s =>
        rw [hplace] at hp
        exact .inr ⟨k, rfl, hp⟩
      | ok placed =>
        rw [hplace] at hp
        obtain ⟨hr, hother⟩ := hp
        refine ⟨fun k' => ?_, ?_⟩
        · by_cases hkk : k = k'
          · subst hkk
            have hone : under (some k) [new] = [new] := by simp [under, hk]
            simp only [hone, rivals, hr]
          · have hone : under (some k') [new] = [] := by simp [under, hk, hkk]
            rw [hone, rivals, hother _ fun h => hkk (Option.some.inj h).symm]
        · have hone : under none [new] = [] := by simp [under, hk]
          rw [hone, List.append_nil, hother _ (by simp)]
  · simp only [ht, ne_eq, not_false_eq_true, if_true, true_or]

theorem rivals_append (new later cs : List Contribution) :
    rivals ov (new ++ later) cs = (rivals ov new cs).bind (rivals ov later) := by
  induction new generalizing cs with
  | nil => rfl
  | cons c rest ih =>
    simp only [List.cons_append, rivals]
    cases rival ov c cs with
    | none => rfl
    | some ds => exact ih ds

theorem under_cons (x : Option MapKey) (c : Contribution) (cs : List Contribution) :
    under x (c :: cs) = under x [c] ++ under x cs := List.filter_append [c] cs

/-- Contributions come together exactly if they are of the type and the rivals under each map key do. -/
theorem grow_spec (ov : Source → Source → Bool) (e : Base) (news cs : List Contribution) :
    match grow ov e news cs with
    | some ds => (∀ c ∈ news, c.binding.provides.id = .value e) ∧
        (∀ k, rivals ov (under (some k) news) (under (some k) cs) = some (under (some k) ds)) ∧
        under none ds = under none cs ++ under none news
    | none => (∃ c ∈ news, c.binding.provides.id ≠ .value e) ∨
        ∃ k, rivals ov (under (some k) news) (under (some k) cs) = none := by
  induction news generalizing cs with
  | nil => exact ⟨by simp, fun _ => rfl, by simp [under]⟩
  | cons c rest ih =>
    have hadd := add_spec ov e c cs
    simp only [grow]
    cases ha : add ov e c cs with
    | none =>
      rw [ha] at hadd
      rcases hadd with ht | ⟨k, hk, hr⟩
      · exact .inl ⟨c, List.mem_cons_self, ht⟩
      · refine .inr ⟨k, ?_⟩
        have hone : under (some k) [c] = [c] := by simp [under, hk]
        rw [under_cons, hone]
        simp only [List.singleton_append, rivals, hr]
    | some ds =>
      rw [ha] at hadd
      obtain ⟨ht, hk, hnone⟩ := hadd
      have hcons : ∀ k, rivals ov (under (some k) (c :: rest)) (under (some k) cs) =
          rivals ov (under (some k) rest) (under (some k) ds) := by
        intro k
        rw [under_cons, rivals_append, hk]
        rfl
      have hrest := ih ds
      simp only [hcons]
      cases hg : grow ov e rest ds with
      | none =>
        rw [hg] at hrest
        rcases hrest with ⟨d, hd, htd⟩ | hr
        · exact .inl ⟨d, List.mem_cons_of_mem _ hd, htd⟩
        · exact .inr hr
      | some final =>
        rw [hg] at hrest
        obtain ⟨htypes, hclasses, hlast⟩ := hrest
        refine ⟨?_, hclasses, ?_⟩
        · rintro d hd
          rcases List.mem_cons.mp hd with rfl | hd
          · exact ht
          · exact htypes d hd
        · rw [hlast, hnone, List.append_assoc, ← under_cons]

/-- Rivals that come together, none of them overriding a later one, come in the order of overrides. -/
theorem rivals_chain {g : OverrideGraph} {news : List Contribution} {result : List Contribution}
    (ho : news.Pairwise fun c d => ¬ g.Above c.source d.source)
    (h : rivals g.isOverriding news [] = some result) :
    news.Pairwise fun c d => g.Above d.source c.source := by
  -- What stands is always the one that came last.
  have chain : ∀ (news : List Contribution) (c : Contribution),
      ((c :: news).Pairwise fun c d => ¬ g.Above c.source d.source) →
      rivals g.isOverriding news [c] = some result →
      (c :: news).Pairwise fun c d => g.Above d.source c.source := by
    intro news
    induction news with
    | nil => exact fun c _ _ => List.pairwise_singleton _ c
    | cons n rest ih =>
      intro c ho h
      obtain ⟨hc, hrest⟩ := List.pairwise_cons.mp ho
      have hcn : ¬ g.isOverriding c.source n.source = true := hc n List.mem_cons_self
      by_cases hn : g.isOverriding n.source c.source = true
      · simp only [rivals, rival, hn, if_true] at h
        have hlater := ih n hrest h
        refine List.pairwise_cons.mpr ⟨fun d hd => ?_, hlater⟩
        rcases List.mem_cons.mp hd with rfl | hd
        · exact hn
        · exact ((List.pairwise_cons.mp hlater).1 d hd).trans hn
      · simp [rivals, rival, hn, hcn] at h
  cases news with
  | nil => exact List.Pairwise.nil
  | cons c rest => exact chain rest c ho (by simpa [rivals, rival] using h)

/-- Whether contributions come together, and what stands in the end, does not depend on their order,
as long as none overrides a later one. -/
theorem grow_perm {g : OverrideGraph} (hg : g.Acyclic) {xs ys result : List Contribution}
    (hp : xs.Perm ys) (hx : xs.Pairwise fun c d => ¬ g.Above c.source d.source)
    (hy : ys.Pairwise fun c d => ¬ g.Above c.source d.source)
    (h : grow g.isOverriding e xs [] = some result) :
    ∃ other, grow g.isOverriding e ys [] = some other ∧ result.Perm other ∧
      ∀ k, under (some k) result = under (some k) other := by
  have hxs := grow_spec g.isOverriding e xs []
  rw [h] at hxs
  obtain ⟨htypes, hclasses, hnone⟩ := hxs
  -- Rivals are in the same order on both sides.
  have hsame : ∀ k, under (some k) xs = under (some k) ys := fun k =>
    eq_of_perm hg Contribution.source (hp.filter _)
      (rivals_chain (hx.filter _) (hclasses k)) (hy.filter _)
  have hys := grow_spec g.isOverriding e ys []
  cases hgrow : grow g.isOverriding e ys [] with
  | none =>
    rw [hgrow] at hys
    rcases hys with ⟨c, hc, ht⟩ | ⟨k, hk⟩
    · exact absurd (htypes c (hp.mem_iff.mpr hc)) ht
    · rw [← hsame, hclasses] at hk
      contradiction
  | some other =>
    rw [hgrow] at hys
    obtain ⟨_, hclasses', hnone'⟩ := hys
    have hunder : ∀ k, under (some k) result = under (some k) other := by
      intro k
      have := hclasses k
      rw [hsame, hclasses' k] at this
      exact (Option.some.inj this).symm
    refine ⟨other, rfl, perm_of_classes Contribution.mapKey fun x => ?_, hunder⟩
    cases x with
    | none =>
      have := hp.filter fun c => c.mapKey = none
      simp only [under, List.filter_nil, List.nil_append] at hnone hnone'
      rw [hnone, hnone']
      exact this
    | some k => exact List.Perm.of_eq (hunder k)

end Aggregate

end Wiring
