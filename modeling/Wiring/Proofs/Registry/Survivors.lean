import Wiring.Proofs.Registry.Contributions
import Wiring.Proofs.Registry.Reorder
import Wiring.Proofs.Registry.Rivalry

/-!
Which contributions stand in the end.

The contributions of an aggregate are what the accepted ones have come to, one after another. If no overrides
are declared in between, the one that stands under a map key is above all others that were accepted under
it, whether they were replaced or gave way, and it stands where the first of them was put.
-/

set_option autoImplicit false

namespace Wiring

open OverrideGraph

namespace Aggregate

variable {g : OverrideGraph} {ov : Source → Source → Bool} {e : Base} {k : MapKey}

/-- Of the contributions that are handed in, the one under the map key whose source is above those of all
others under it. -/
structure Prevails (g : OverrideGraph) (k : MapKey) (news : List Contribution) (c : Contribution) :
    Prop where
  mem : c ∈ under (some k) news
  tops : g.Tops c.source (sources k news)

theorem Prevails.unique (hg : g.Acyclic) {news : List Contribution} {c d : Contribution}
    (hc : Prevails g k news c) (hd : Prevails g k news d) : c = d := by
  obtain ⟨before, after, hsplit⟩ := List.append_of_mem hc.mem
  obtain ⟨rest, hp, hrest⟩ := hc.tops
  obtain ⟨others, hq, hothers⟩ := hd.tops
  have hperm : ((before ++ after).map Contribution.source).Perm rest := by
    rw [sources, hsplit] at hp
    exact ((List.perm_middle.map Contribution.source).symm.trans hp).cons_inv
  by_contra hne
  have hmem : d ∈ before ++ after := by
    have := hd.mem
    rw [hsplit] at this
    simpa [Ne.symm hne] using this
  -- Each of the two would be above the other.
  have hcd : g.Above c.source d.source := hrest _ (hperm.mem_iff.mp (List.mem_map_of_mem hmem))
  rcases List.mem_cons.mp (hq.mem_iff.mp (hp.mem_iff.mpr List.mem_cons_self)) with heq | hc'
  · exact hg.irrefl _ (heq ▸ hcd)
  · exact hg.asymm hcd (hothers _ hc')

/-- What stands beside rivals that come one after another is above all that were there. -/
theorem tops_rivals {seen news ds : List Contribution} {c : Contribution} (hc : c ∈ seen)
    (ht : g.Tops c.source (seen.map Contribution.source)) (h : rivals g.isOverriding news [c] = some ds) :
    ∃ d, ds = [d] ∧ d ∈ seen ++ news ∧ g.Tops d.source ((seen ++ news).map Contribution.source) := by
  induction news generalizing seen c with
  | nil =>
    cases h
    exact ⟨c, rfl, by simpa using hc, by simpa using ht⟩
  | cons n rest ih =>
    rw [List.append_cons]
    simp only [rivals, rival] at h
    by_cases hn : g.isOverriding n.source c.source = true
    · simp only [hn, if_true] at h
      exact ih (by simp) (by simpa using ht.snoc_above hn) h
    · by_cases ho : g.isOverriding c.source n.source = true
      · simp only [hn, ho, if_true] at h
        exact ih (by simp [hc]) (by simpa using ht.snoc_below ho) h
      · simp [hn, ho] at h

theorem prevails_grow {news ds : List Contribution} (h : grow g.isOverriding e news [] = some ds)
    {c : Contribution} (hc : c ∈ ds) (hk : c.mapKey = some k) : Prevails g k news c := by
  have hspec := grow_spec g.isOverriding e news []
  rw [h] at hspec
  have hrivals := hspec.2.1 k
  have hmem : c ∈ under (some k) ds := List.mem_filter.mpr ⟨hc, by simp [hk]⟩
  cases hnews : under (some k) news with
  | nil =>
    rw [hnews] at hrivals
    rw [← Option.some.inj hrivals] at hmem
    contradiction
  | cons n rest =>
    rw [hnews] at hrivals
    have hn : g.Tops n.source ([n].map Contribution.source) := g.tops_singleton n.source
    obtain ⟨d, hd, hin, htop⟩ := tops_rivals List.mem_cons_self hn hrivals
    rw [hd, List.mem_singleton] at hmem
    subst hmem
    exact ⟨hnews ▸ hin, by rw [sources, hnews]; exact htop⟩

theorem grow_append (news later cs : List Contribution) :
    grow ov e (news ++ later) cs = (grow ov e news cs).bind (grow ov e later) := by
  induction news generalizing cs with
  | nil => rfl
  | cons c rest ih =>
    simp only [List.cons_append, grow]
    cases add ov e c cs with
    | none => rfl
    | some ds => exact ih ds

theorem mapKeys_add {new : Contribution} {cs ds : List Contribution} (h : add ov e new cs = some ds) :
    ds.filterMap Contribution.mapKey = cs.filterMap Contribution.mapKey ++
      new.mapKey.toList.filter (· ∉ cs.filterMap Contribution.mapKey) := by
  unfold add at h
  split at h
  · contradiction
  · split at h
    · rename_i hnone
      rw [← Option.some.inj h]
      simp [hnone]
    · rename_i k hk
      cases hp : place ov new k cs with
      | error s => simp [hp, Except.toOption] at h
      | ok placed =>
        rw [hp] at h
        rw [← Option.some.inj h]
        rcases mapKeys_place hk hp with ⟨hold, heq⟩ | ⟨hnew, heq⟩
        · rw [heq, hk, Option.toList_some, List.filter_cons_of_neg (by simpa using hold)]
          simp
        · rw [heq, hk, Option.toList_some, List.filter_cons_of_pos (by simpa using hnew)]
          simp

theorem eraseDups_snoc (ks : List MapKey) (k : MapKey) :
    (ks ++ [k]).eraseDups = ks.eraseDups ++ [k].filter (· ∉ ks) := by
  rw [List.eraseDups_append]
  by_cases hk : k ∈ ks <;> simp [List.removeAll, hk, List.eraseDups_cons]

theorem mapKeys_grow {news ds : List Contribution} (h : grow ov e news [] = some ds) :
    ds.filterMap Contribution.mapKey = (news.filterMap Contribution.mapKey).eraseDups := by
  induction news using List.reverseRecOn generalizing ds with
  | nil =>
    rw [← Option.some.inj h]
    rfl
  | append_singleton news c ih =>
    rw [grow_append] at h
    obtain ⟨placed, hplaced, hadd⟩ := Option.bind_eq_some_iff.mp h
    simp only [grow] at hadd
    cases ha : add ov e c placed with
    | none => simp [ha] at hadd
    | some grown =>
      rw [ha] at hadd
      rw [← Option.some.inj hadd, mapKeys_add ha, ih hplaced, List.filterMap_append]
      cases hk : c.mapKey with
      | none => simp [hk]
      | some k =>
        rw [List.filterMap_cons_some hk, List.filterMap_nil, eraseDups_snoc]
        simp only [Option.toList_some, List.mem_eraseDups]

theorem at?_grow (hg : g.Acyclic) {a : Aggregate} (ha : a.Distinct) {news : List Contribution}
    (h : grow g.isOverriding e news [] = some a.contributions) (k : MapKey) (c : Contribution) :
    a.at? k = some c ↔ Prevails g k news c := by
  have hprevails : ∀ d, a.at? k = some d → Prevails g k news d := by
    intro d hd
    exact prevails_grow h (List.mem_of_find?_eq_some hd) (by simpa using List.find?_some hd)
  refine ⟨hprevails c, fun hc => ?_⟩
  obtain ⟨hmem, hk⟩ := List.mem_filter.mp hc.mem
  have hkey : k ∈ a.contributions.filterMap Contribution.mapKey := by
    rw [mapKeys_grow h, List.mem_eraseDups]
    exact List.mem_filterMap.mpr ⟨c, hmem, by simpa using hk⟩
  obtain ⟨d, hd, hdk⟩ := List.mem_filterMap.mp hkey
  have hat := ha.at?_of_mem hd hdk
  rw [hat, (hprevails d hat).unique hg hc]

end Aggregate

namespace Pending

def contributionsOf : Option Pending → List Contribution
  | some (aggregate g) => g.contributions
  | _ => []

end Pending

namespace Operation

variable {a : Ident} {b : Builder} {e : Base} {ops : List Operation}

def contributionTo? (s : Scope) (a : Ident) (op : Operation) : Option Contribution :=
  if isAbout a op then op.contribution? s else none

/-- The contributions to a key that are accepted in a run, in the order in which they are handed in. -/
def contributed (a : Ident) (b : Builder) : List Operation → List Contribution
  | [] => []
  | op :: rest =>
    match op.apply b with
    | (.ok _, left) => (op.contributionTo? b.config.defaultScope a).toList ++ contributed a left rest
    | (.error _, left) => contributed a left rest

theorem contributed_append (ops more : List Operation) :
    contributed a b (ops ++ more) = contributed a b ops ++ contributed a (runAll b ops).2 more := by
  induction ops generalizing b with
  | nil => rfl
  | cons op rest ih =>
    simp only [List.cons_append, contributed, runAll]
    generalize op.apply b = r
    obtain ⟨outcome, left⟩ := r
    cases outcome <;> simp [ih]

theorem shape_runAll {g : Aggregate} (h : b.at? a = some (.aggregate g)) (ops : List Operation) :
    ∃ left, (runAll b ops).2.at? a = some (.aggregate left) ∧ left.shape = g.shape := by
  refine runAll_induction (P := fun b => ∃ left, b.at? a = some (.aggregate left) ∧
    left.shape = g.shape) ops (fun b op _ ⟨old, hold, hshape⟩ => ?_) ⟨g, h, rfl⟩
  rcases apply_cases b op with ⟨e, ha⟩ | ⟨key, p, left, hk, _, hs, ha, hw⟩ | ⟨x, y, rfl, ha⟩ |
    ⟨rfl, r, _, ha⟩ <;> rw [ha]
  · exact ⟨old, hold, hshape⟩
  · rw [hw.at?]
    by_cases hka : key.ident = a
    · subst hka
      rw [if_pos rfl]
      rw [hold] at hs
      rcases settle_cases hs with ⟨_, _, _, _, _, _, hno, _⟩ | ⟨_, _, x, _, hx, rfl⟩ |
        ⟨_, _, _, _, x, grown, _, hx, hg, rfl⟩ | ⟨_, _, x, _, hx, rfl⟩
      · simp at hno
      · rcases hx with ⟨hx, _⟩ | hx <;> cases hx
        exact ⟨old, rfl, hshape⟩
      · cases hx
        exact ⟨grown, rfl, (Aggregate.insert_cases hg).2.1.trans hshape⟩
      · cases hx
        exact ⟨_, rfl, hshape⟩
    · rw [if_neg hka]
      exact ⟨old, hold, hshape⟩
  · exact ⟨old, hold, hshape⟩
  · exact ⟨old, hold, hshape⟩

theorem grow_apply (op : Operation)
    (he : ∀ g, (op.apply b).2.at? a = some (.aggregate g) → g.shape.element = e) :
    Aggregate.grow b.overrides.isOverriding e (contributed a b [op])
      (Pending.contributionsOf (b.at? a)) = some (Pending.contributionsOf ((op.apply b).2.at? a)) := by
  rcases apply_cases b op with ⟨_, ha⟩ | ⟨key, p, left, hk, _, hs, ha, hw⟩ | ⟨x, y, rfl, ha⟩ |
    ⟨rfl, r, _, ha⟩ <;> simp only [contributed, ha] at he ⊢
  · rfl
  · rw [hw.at?] at he ⊢
    have habout : isAbout a op = decide (key.ident = a) := by simp [isAbout, hk]
    by_cases hka : key.ident = a
    · subst hka
      simp only [if_true, contributionTo?, habout, decide_true] at he ⊢
      rcases settle_cases hs with ⟨_, _, _, _, rfl, _, hold, _, rfl⟩ | ⟨_, _, x, rfl, hold, rfl⟩ |
        ⟨key, binding, source, mapKey, x, grown, rfl, hold, hg, rfl⟩ | ⟨_, _, x, rfl, hold, rfl⟩
      · rcases hold with ⟨hold, _⟩ | hold <;> rw [hold] <;> rfl
      · rcases hold with ⟨hold, rfl⟩ | hold <;> rw [hold] <;> rfl
      · have hadd := Aggregate.insert_eq_add b.overrides.isOverriding key
          ⟨binding.withDefaultScope b.config.defaultScope, source, mapKey⟩ x
        rw [hg] at hadd
        obtain ⟨cs, hcs, rfl⟩ := Option.map_eq_some_iff.mp hadd.symm
        have helement : x.shape.element = e := he { x with contributions := cs } rfl
        rw [hold, ← helement]
        simp only [contribution?, Option.toList_some, List.append_nil, Aggregate.grow,
          Pending.contributionsOf, hcs]
      · rw [hold]
        rfl
    · simp [contributionTo?, habout, hka, Aggregate.grow]
  · rfl
  · rfl

theorem grow_runAll (hops : ∀ op ∈ ops, ∀ x y, op ≠ .declareOverride x y)
    (he : ∀ g, (runAll b ops).2.at? a = some (.aggregate g) → g.shape.element = e) :
    Aggregate.grow b.overrides.isOverriding e (contributed a b ops)
      (Pending.contributionsOf (b.at? a)) =
        some (Pending.contributionsOf ((runAll b ops).2.at? a)) := by
  induction ops generalizing b with
  | nil => rfl
  | cons op rest ih =>
    have hop := grow_apply (a := a) (b := b) (e := e) op fun g hg => by
      obtain ⟨left, hleft, hshape⟩ := shape_runAll hg rest
      rw [← hshape]
      exact he left hleft
    have hrest := ih (b := (op.apply b).2) (fun o ho => hops o (List.mem_cons_of_mem _ ho)) he
    rw [overrides_apply b (hops op List.mem_cons_self)] at hrest
    rw [← List.singleton_append, contributed_append, Aggregate.grow_append, hop]
    exact hrest

theorem contributionsOf_runAll (h : contributed a b ops = []) :
    Pending.contributionsOf ((runAll b ops).2.at? a) = Pending.contributionsOf (b.at? a) := by
  induction ops generalizing b with
  | nil => rfl
  | cons op rest ih =>
    rw [← List.singleton_append, contributed_append, List.append_eq_nil_iff] at h
    obtain ⟨e, he⟩ : ∃ e, ∀ g, (op.apply b).2.at? a = some (.aggregate g) → g.shape.element = e := by
      cases (op.apply b).2.at? a with
      | none => exact ⟨.str, by simp⟩
      | some p =>
        cases p with
        | candidates cs => exact ⟨.str, by simp⟩
        | aggregate g => exact ⟨g.shape.element, by simp⟩
    have hop := grow_apply op he
    rw [h.1] at hop
    exact (ih h.2).trans (Option.some.inj hop).symm

/-- The contributions of an aggregate come together from all that were accepted, if none was accepted before
the last override was declared. -/
theorem grow_contributed {config : Config} {first rest : List Operation} {g : Aggregate}
    (hg : (runAll (.withConfig config) (first ++ rest)).2.at? a = some (.aggregate g))
    (hfirst : contributed a (.withConfig config) first = [])
    (hrest : ∀ op ∈ rest, ∀ x y, op ≠ .declareOverride x y) :
    Aggregate.grow (runAll (.withConfig config) (first ++ rest)).2.overrides.isOverriding
      g.shape.element (contributed a (.withConfig config) (first ++ rest)) [] =
        some g.contributions := by
  rw [runAll_append] at hg ⊢
  have hgrow := grow_runAll (e := g.shape.element) hrest fun x hx => by
    cases hg.symm.trans hx
    rfl
  rw [contributionsOf_runAll hfirst, hg] at hgrow
  rw [overrides_runAll _ hrest, contributed_append, hfirst]
  exact hgrow

end Operation

end Wiring
