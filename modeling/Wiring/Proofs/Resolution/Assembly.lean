import Wiring.Proofs.Resolution.Making
import Wiring.Proofs.Resolution.Reference

/-!
How an aggregate is put together.

The elements of an aggregate are made one after another, those that are kept already excepted. Making one of
them leaves what is kept of the others as it is, since the key stays under construction. So it is settled
beforehand which contributions are run, and an element that does not come about leaves the ones before it
kept, and those after it as they were.
-/

set_option autoImplicit false

namespace Wiring

def Event.run? (i : InjectorId) (a : Ident) : Event → Option Nat
  | produced j (.element b n) _ => if j = i ∧ b = a then some n else none
  | _ => none

def runs (i : InjectorId) (a : Ident) (events : List Event) : List Nat :=
  (events.filterMap (Event.run? i a)).reverse

theorem runs_append (i : InjectorId) (a : Ident) (new old : List Event) :
    runs i a (new ++ old) = runs i a old ++ runs i a new := by
  simp [runs]

theorem runs_of_respects {g : Guard} {i : InjectorId} {a : Ident} {events : List Event}
    (ha : ¬ Absent g.made i a) (h : ∀ e ∈ events, e.Respects g) : runs i a events = [] := by
  refine List.reverse_eq_nil_iff.mpr (List.filterMap_eq_nil_iff.mpr fun e he => ?_)
  have hrespects := h e he
  cases e with
  | produced j p s =>
    cases p with
    | binding b => rfl
    | element b n =>
      refine if_neg ?_
      rintro ⟨rfl, rfl⟩
      exact ha hrespects
  | _ => rfl

/-- What a collection is to hold of the values that were contributed to it: a list all of them, a set of those
that are equal the first. -/
def Collection.Holds : Collection → List (Option MapKey × Object) → List (Option MapKey × Object) → Prop
  | .list _, os, items => items = os.map fun o => (none, o.2)
  | .set _, os, items =>
    items.map (·.2.datum) = (os.map (·.2.datum)).eraseDups ∧
      ∀ x ∈ items, x.1 = none ∧ (os.map (·.2)).find? (fun o => o.datum = x.2.datum) = some x.2
  | .map _ _, os, items => items = os.foldl Aggregate.enter []

theorem Aggregate.holds_gather (shape : Collection) (os : List (Option MapKey × Object)) :
    shape.Holds os (gather shape os) := by
  cases shape with
  | list t => rfl
  | set t =>
    constructor
    · have hdatum := datum_distinct [] (os.map (·.2))
      simp only [List.map_nil, List.removeAll, List.nil_append] at hdatum
      simpa [gather, Function.comp_def] using hdatum
    · intro x hx
      obtain ⟨o, ho, rfl⟩ := List.mem_map.mp hx
      exact ⟨rfl, ((find?_of_mem_distinct ho).resolve_left (by simp)).2⟩
  | map k t => rfl

namespace World

open Resolution

variable {m w v u : World} {i : InjectorId} {a : Ident} {key : Key} {c : Contribution × Nat}
  {cs : List (Contribution × Nat)} {ns ms : List Nat} {x : Instance} {xs : List Instance} {stop : Stop}

/-- A contribution is to be run, unless it is one that keeps its element and the element is kept already. -/
def due (w : World) (i : InjectorId) (a : Ident) (c : Contribution × Nat) : Bool :=
  !(c.1.binding.effectiveScope.isCached && ((w.cache i).ready? (.element a c.2)).isSome)

theorem due_congr (h : v.slot i (.element a c.2) = w.slot i (.element a c.2)) :
    v.due i a c = w.due i a c := by
  simp only [due, cache_ready?, h]

theorem due_of_ready (hc : c.1.binding.effectiveScope.isCached = true)
    (h : w.slot i (.element a c.2) = some (.ready x)) : w.due i a c = false := by
  simp [due, hc, cache_ready?, h]

theorem due_of_vacant (h : w.slot i (.element a c.2) = none) : w.due i a c = true := by
  simp [due, cache_ready?, h]

/-- In between, the contributions of the indices to an aggregate were run, in this order, and the elements of
all others were left as they were. -/
structure Runs (i : InjectorId) (a : Ident) (ns : List Nat) (w v : World) : Prop where
  events : ∃ new, v.events = new ++ w.events ∧ runs i a new = ns
  slots : ∀ n ∉ ns, v.slot i (.element a n) = w.slot i (.element a n)

theorem Runs.refl (i : InjectorId) (a : Ident) (w : World) : w.Runs i a [] w :=
  ⟨⟨[], rfl, rfl⟩, fun _ _ => rfl⟩

theorem Runs.trans (h : w.Runs i a ns u) (h' : u.Runs i a ms v) : w.Runs i a (ns ++ ms) v := by
  obtain ⟨old, hold, hns⟩ := h.events
  obtain ⟨new, hnew, hms⟩ := h'.events
  refine ⟨⟨new ++ old, by rw [hnew, hold, List.append_assoc], by rw [runs_append, hns, hms]⟩, ?_⟩
  intro n hn
  obtain ⟨hns', hms'⟩ := not_or.mp (mt List.mem_append.mpr hn)
  rw [h'.slots n hms', h.slots n hns']

theorem runs_began (hi : i < w.injectors.length) (cached : Bool) (s : Source) (n : Nat) :
    w.Runs i a [n] (w.began i (.element a n) cached (some s)) := by
  refine ⟨⟨_, events_began .., ?_⟩, fun k hk => ?_⟩
  · cases cached <;> simp [runs, Event.run?]
  · rw [slot_began hi, if_neg]
    rintro ⟨_, _, heq⟩
    exact hk (List.mem_singleton.mpr (Place.element.inj heq).2.symm)

theorem Runs.congr (h : w.Runs i a ns u) (he : v.events = u.events)
    (hs : ∀ p, v.slot i p = u.slot i p) : w.Runs i a ns v :=
  ⟨he ▸ h.events, fun n hn => (hs _).trans (h.slots n hn)⟩

theorem Runs.noted {e : Event} (h : w.Runs i a ns u) (he : e.run? i a = none) :
    w.Runs i a ns (u.record e) := by
  obtain ⟨new, hnew, hns⟩ := h.events
  refine ⟨⟨e :: new, by rw [World.record, hnew, List.cons_append], ?_⟩, h.slots⟩
  rwa [runs, List.filterMap_cons_none he]

theorem Runs.filled {p : Place} {cached : Bool} (h : w.Runs i a ns u)
    (hp : cached = true → u.slot i p = some .pending) (hne : ∀ n ∉ ns, p ≠ .element a n) :
    w.Runs i a ns (u.filled i p cached x) := by
  obtain ⟨new, hnew, hns⟩ := h.events
  refine ⟨⟨(if cached then [.stored i p x] else []) ++ new, ?_, ?_⟩, fun n hn => ?_⟩
  · rw [events_filled, hnew, List.append_assoc]
  · rw [runs_append, hns]
    cases cached <;> simp [runs, Event.run?]
  · rw [slot_filled hp, if_neg fun heq => hne n hn heq.2.2, h.slots n hn]

theorem Runs.unfilled {p : Place} {cached : Bool} (h : w.Runs i a ns u)
    (hp : cached = true → u.slot i p = some .pending) (hne : ∀ n ∉ ns, p ≠ .element a n) :
    w.Runs i a ns (u.unfilled i p cached) := by
  refine ⟨by simpa only [events_unfilled] using h.events, fun n hn => ?_⟩
  rw [slot_unfilled hp, if_neg fun heq => hne n hn heq.2.2, h.slots n hn]

/-- The elements of an aggregate come about one after another, each for its contribution. -/
inductive Gathers (i : InjectorId) (key : Key) :
    List (Contribution × Nat) → World → List Instance → World → Prop where
  | nil (w : World) : Gathers i key [] w [] w
  | cons {c : Contribution × Nat} {cs : List (Contribution × Nat)} {w u v : World} {x : Instance}
      {xs : List Instance} : element resolve i key c.2 c.1 w = .ok x u → Gathers i key cs u xs v →
      Gathers i key (c :: cs) w (x :: xs) v

end World

namespace Resolution

open World Act

variable {m w v u : World} {d n : Nat} {i : InjectorId} {r : Registry} {key : Key} {g : Aggregate}
  {c : Contribution × Nat} {cs : List (Contribution × Nat)} {x : Instance} {xs : List Instance}
  {stop : Stop}

theorem produce_aside (htop : ⟨i, key⟩ ∈ w.frames) {s : Strategy}
    (hfixed : ∀ o, s = .fixed o → (w.registry i).Fixes o) :
    w.Runs i key.ident [] (w.after (produce resolve i key s)) := by
  let g : Guard := ⟨w.registry, w.frames, [], False⟩
  have hguarded : w.Guarded g := ⟨rfl, List.Subset.refl _, List.nil_subset _, False.elim⟩
  have hentered : Absent g.entered i key.ident := fun f hf => absurd hf (by simp [g])
  have hconduct :=
    (conducts_produce (discreet_resolve w.registry) hentered hfixed w hguarded).left_behind
  obtain ⟨new, hnew, hall⟩ := hconduct.events
  refine ⟨⟨new, hnew, ?_⟩, fun n _ => hconduct.slots i _ (not_absent htop)⟩
  exact runs_of_respects (g := g) (not_absent htop) fun e he => (hall e he).1

section Element

variable (hm : w.Moment) (hin : Inside d i key r n w) (hg : r.at? key.ident = some (.aggregate g))
  (hc : g.contributions[c.2]? = some c.1)

include hm hin hg hc

theorem element_slot_cases : w.slot i (.element key.ident c.2) = none ∨
    c.1.binding.effectiveScope.isCached = true ∧
      ∃ y, w.slot i (.element key.ident c.2) = some (.ready y) := by
  have hspot := Registry.spot?_element hg hc
  rw [← hin.site.registry] at hspot
  cases hslot : w.slot i (.element key.ident c.2) with
  | none => exact .inl rfl
  | some s =>
    cases s with
    | pending => exact absurd hslot (hin.free c.2)
    | ready y =>
      obtain ⟨spot, hspot', hcached⟩ := hm.recorded.singleton hslot
      cases hspot.symm.trans hspot'
      exact .inr ⟨hcached, y, rfl⟩

omit hm in
theorem produce_runs :
    w.Runs i key.ident [c.2] ((w.began i (.element key.ident c.2)
      c.1.binding.effectiveScope.isCached (some c.1.source)).after
        (produce resolve i key c.1.binding.strategy)) ∧
    ((w.began i (.element key.ident c.2) c.1.binding.effectiveScope.isCached (some c.1.source)).after
      (produce resolve i key c.1.binding.strategy)).slot i (.element key.ident c.2) =
        if c.1.binding.effectiveScope.isCached = true then some .pending
        else w.slot i (.element key.ident c.2) := by
  have hr := hin.site.registry
  subst hr
  have hi := lt_of_bound hg
  obtain ⟨rest, htop⟩ := hin.top
  have hframe : ⟨i, key⟩ ∈ (w.began i (.element key.ident c.2)
      c.1.binding.effectiveScope.isCached (some c.1.source)).frames := by simp [htop]
  have haside := produce_aside hframe fun o ho => by
    simpa using Registry.fixes_of_contribution hg hc o ho
  refine ⟨(runs_began hi _ _ _).trans haside, ?_⟩
  rw [haside.slots c.2 (by simp), slot_began hi]
  simp

/-- The element of a contribution is kept already, or the contribution is run for it. -/
theorem element_ok (h : element resolve i key c.2 c.1 w = .ok x v) :
    w.Runs i key.ident (if w.due i key.ident c then [c.2] else []) v ∧
      (c.1.binding.effectiveScope.isCached = true →
        v.slot i (.element key.ident c.2) = some (.ready x)) := by
  rcases element_slot_cases hm hin hg hc with hnone | ⟨hcached, y, hready⟩
  · obtain ⟨hruns, hown⟩ := produce_runs hin hg hc
    rw [due_of_vacant hnone]
    rw [element_of_vacant fun _ => hnone] at h
    unfold World.after at hruns hown
    split at h
    · rename_i y u hproduce
      cases h
      simp only [hproduce] at hruns hown
      have hpending : c.1.binding.effectiveScope.isCached = true →
          u.slot i (.element key.ident c.2) = some .pending := fun hc => hown.trans (if_pos hc)
      refine ⟨(hruns.filled hpending (by simp [eq_comm])).noted rfl, fun hc => ?_⟩
      rw [slot_record, slot_filled hpending, if_pos ⟨hc, rfl, rfl⟩]
    · cases h
  · rw [due_of_ready hcached hready]
    rw [element_of_ready hcached hready] at h
    cases h
    exact ⟨⟨⟨[_, _], rfl, rfl⟩, fun _ _ => rfl⟩, fun _ => hready⟩

theorem element_error (h : element resolve i key c.2 c.1 w = .error stop v) :
    w.due i key.ident c = true ∧
      (∃ t, produce resolve i key c.1.binding.strategy (w.began i (.element key.ident c.2)
        c.1.binding.effectiveScope.isCached (some c.1.source)) = .error stop t) ∧
      w.Runs i key.ident [c.2] v ∧
      v.slot i (.element key.ident c.2) = w.slot i (.element key.ident c.2) := by
  rcases element_slot_cases hm hin hg hc with hnone | ⟨hcached, y, hready⟩
  · obtain ⟨hruns, hown⟩ := produce_runs hin hg hc
    rw [element_of_vacant fun _ => hnone] at h
    unfold World.after at hruns hown
    split at h
    · cases h
    · rename_i failure t hproduce
      cases h
      simp only [hproduce] at hruns hown
      have hpending : c.1.binding.effectiveScope.isCached = true →
          t.slot i (.element key.ident c.2) = some .pending := fun hc => hown.trans (if_pos hc)
      refine ⟨due_of_vacant hnone, ⟨t, hproduce⟩, hruns.unfilled hpending (by simp [eq_comm]), ?_⟩
      rw [slot_unfilled hpending, hown]
      by_cases hcached : c.1.binding.effectiveScope.isCached = true
      · rw [if_pos ⟨hcached, rfl, rfl⟩, hnone]
      · rw [if_neg fun h => hcached h.1, if_neg hcached]
  · rw [element_of_ready hcached hready] at h
    cases h

end Element

/-- What is the case once elements are gathered: those that were due were run, and those that are kept are
kept. -/
structure Gathered (d : Nat) (i : InjectorId) (key : Key) (r : Registry) (n : Nat) (g : Aggregate)
    (cs : List (Contribution × Nat)) (w : World) (xs : List Instance) (v : World) : Prop where
  path : Path w v
  made : w.made ≤ v.made
  inside : Inside d i key r n v
  runs : w.Runs i key.ident ((cs.filter (w.due i key.ident)).map Prod.snd) v
  kept : List.Forall₂ (fun c x => c.1.binding.effectiveScope.isCached = true →
    v.slot i (.element key.ident c.2) = some (.ready x)) cs xs
  types : ∀ x ∈ xs, x.type = .value g.shape.element

structure Picks (g : Aggregate) (cs : List (Contribution × Nat)) : Prop where
  at_index : ∀ c ∈ cs, g.contributions[c.2]? = some c.1
  distinct : (cs.map Prod.snd).Nodup

theorem picks_zipIdx (g : Aggregate) : Picks g g.contributions.zipIdx :=
  ⟨fun _ hc => List.mem_zipIdx_iff_getElem?.mp hc, by
    rw [List.zipIdx_map_snd]
    exact List.nodup_range'⟩

theorem Picks.take (h : Picks g cs) (j : Nat) : Picks g (cs.take j) :=
  ⟨fun c hc => h.at_index c (List.mem_of_mem_take hc), by
    rw [List.map_take]
    exact h.distinct.sublist (List.take_sublist ..)⟩

theorem gathered_of_gathers (hg : r.at? key.ident = some (.aggregate g)) (hcs : Picks g cs)
    (hm : w.Moment) (hin : Inside d i key r n w) (h : Gathers i key cs w xs v) :
    Gathered d i key r n g cs w xs v := by
  induction h with
  | nil w => exact ⟨.refl, Nat.le_refl _, hin, .refl i key.ident w, .nil, by simp⟩
  | @cons c cs w u v x xs helement _ ih =>
    have hc := hcs.at_index c List.mem_cons_self
    obtain ⟨hfresh, hdistinct⟩ := List.nodup_cons.mp hcs.distinct
    have hgood := sound_element (serves_resolve d) hg hc w hm.inv hin
    rw [helement] at hgood
    obtain ⟨hsettles, hsuits, _⟩ := hgood
    obtain ⟨hruns, hready⟩ := element_ok hm hin hg hc helement
    have hmade : w.made ≤ u.made := by
      obtain ⟨habsent, hentered⟩ := w.absent_unguarded i key.ident
      have hfixed := Registry.fixes_of_contribution hg hc
      rw [← hin.site.registry] at hfixed
      exact made_le_of_conducts (conducts_element (discreet_resolve _) habsent hentered hfixed c.2)
        helement
    obtain ⟨hpath, hlater, hin', hothers, hkept, htypes⟩ :=
      ih ⟨fun c hc => hcs.at_index c (List.mem_cons_of_mem _ hc), hdistinct⟩
        (hm.path hsettles.path) (stable_inside _ _ hsettles hin)
    -- What is due of the others is not settled by the first, whose place is its own.
    have hdue : cs.filter (u.due i key.ident) = cs.filter (w.due i key.ident) := by
      refine List.filter_congr fun c' hc' => due_congr (hruns.slots _ fun hmem => ?_)
      split at hmem
      · exact hfresh (List.mem_map.mpr ⟨c', hc', List.mem_singleton.mp hmem⟩)
      · exact List.not_mem_nil hmem
    refine ⟨hsettles.path.trans hpath, hmade.trans hlater, hin', ?_,
      .cons (fun h => hpath.ready (hready h)) hkept, List.forall_mem_cons.mpr ⟨hsuits.type, htypes⟩⟩
    have hall := hruns.trans hothers
    rw [hdue] at hall
    cases hfirst : w.due i key.ident c with
    | true => simpa [List.filter_cons, hfirst] using hall
    | false => simpa [List.filter_cons, hfirst] using hall

theorem lt_of_mem_take {cs : List Contribution} {j : Nat} {c : Contribution × Nat}
    (h : c ∈ cs.zipIdx.take j) : c.2 < j := by
  obtain ⟨n, hn, rfl⟩ := List.mem_iff_getElem.mp h
  rw [List.length_take] at hn
  simp only [List.getElem_take, List.getElem_zipIdx]
  omega

/-- Where gathering breaks off, the contribution that fails is the last that was run, and the elements from
its on are as they were. -/
theorem Gathered.broken {j : Nat} {c : Contribution} {left : World} (hm : w.Moment)
    (hg : r.at? key.ident = some (.aggregate g)) (hc : g.contributions[j]? = some c)
    (h : Gathered d i key r n g (g.contributions.zipIdx.take j) w xs u)
    (helement : element resolve i key j c u = .error stop left) :
    (w.due i key.ident (c, j) = true ∧ ∃ t, produce resolve i key c.binding.strategy
      (u.began i (.element key.ident j) c.binding.effectiveScope.isCached (some c.source)) =
        .error stop t) ∧
    Path u left ∧ Inside d i key r n left ∧
    w.Runs i key.ident
      (((g.contributions.zipIdx.take (j + 1)).filter (w.due i key.ident)).map Prod.snd) left ∧
    ∀ k ≥ j, left.slot i (.element key.ident k) = w.slot i (.element key.ident k) := by
  have hu := hm.path h.path
  obtain ⟨hdue, hproduce, hruns, hslot⟩ := element_error (c := (c, j)) hu h.inside hg hc helement
  have hgood := sound_element (serves_resolve d) hg hc u hu.inv h.inside
  rw [helement] at hgood
  have hlater : ∀ k ≥ j,
      k ∉ ((g.contributions.zipIdx.take j).filter (w.due i key.ident)).map Prod.snd := by
    rintro k hk hmem
    obtain ⟨c', hc', rfl⟩ := List.mem_map.mp hmem
    exact Nat.not_lt.mpr hk (lt_of_mem_take (List.mem_of_mem_filter hc'))
  rw [due_congr (h.runs.slots j (hlater j (Nat.le_refl j)))] at hdue
  refine ⟨⟨hdue, hproduce⟩, hgood.1.path, stable_inside _ _ hgood.1 h.inside, ?_, fun k hk => ?_⟩
  · have hlast : g.contributions.zipIdx[j]? = some (c, j) := by simp [hc]
    rw [List.take_add_one, hlast]
    simpa [List.filter_append, hdue] using h.runs.trans hruns
  · rw [← h.runs.slots k (hlater k hk)]
    by_cases heq : k = j
    · rw [heq]
      exact hslot
    · exact hruns.slots k (by simpa using heq)

theorem elements_cons (self : Resolver) (i : InjectorId) (key : Key) (index : Nat) (c : Contribution)
    (rest : List Contribution) (w : World) :
    elements self i key index (c :: rest) w = match element self i key index c w with
      | .ok x u => match elements self i key (index + 1) rest u with
        | .ok es v => .ok ((c.mapKey, x) :: es) v
        | .error stop v => .error stop v
      | .error stop u => .error stop u := by
  change EStateM.bind (element self i key index c) _ w = _
  simp only [EStateM.bind]
  cases element self i key index c w with
  | error stop u => rfl
  | ok x u =>
    change EStateM.bind (elements self i key (index + 1) rest) _ u = _
    simp only [EStateM.bind]
    cases elements self i key (index + 1) rest u <;> rfl

theorem elements_cases (i : InjectorId) (key : Key) (index : Nat) (cs : List Contribution) (w : World) :
    (∃ xs v, Gathers i key (cs.zipIdx index) w xs v ∧
      elements resolve i key index cs w = .ok ((cs.map Contribution.mapKey).zip xs) v) ∨
    ∃ j c xs u stop v, cs[j]? = some c ∧ Gathers i key ((cs.zipIdx index).take j) w xs u ∧
      element resolve i key (index + j) c u = .error stop v ∧
      elements resolve i key index cs w = .error stop v := by
  induction cs generalizing index w with
  | nil => exact .inl ⟨[], w, .nil w, rfl⟩
  | cons c rest ih =>
    rw [elements_cons]
    cases helement : element resolve i key index c w with
    | error stop v => exact .inr ⟨0, c, [], w, stop, v, rfl, .nil w, helement, rfl⟩
    | ok x u =>
      rcases ih (index + 1) u with ⟨xs, v, hxs, helements⟩ |
        ⟨j, c', xs, t, stop, v, hc', hxs, hstop, helements⟩
      · exact .inl ⟨x :: xs, v, .cons helement hxs, by simp only [helements]; rfl⟩
      · refine .inr ⟨j + 1, c', x :: xs, t, stop, v, hc', .cons helement hxs, ?_, by simp only [helements]⟩
        rwa [show index + (j + 1) = index + 1 + j by omega]

theorem Gathered.assemble (hkeyed : g.Keyed) (h : Gathered d i key r n g g.contributions.zipIdx w xs u) :
    ∃ os, xs = os.map (fun o => .object o.2) ∧
      os.map Prod.fst = g.contributions.map Contribution.mapKey ∧
      g.assemble key ((g.contributions.map Contribution.mapKey).zip xs) =
        .ok (Aggregate.gather g.shape os) := by
  have hlength : (g.contributions.map Contribution.mapKey).length = xs.length := by
    simpa using h.kept.length_eq
  have hsuits : ∀ e ∈ (g.contributions.map Contribution.mapKey).zip xs, Aggregate.Suits g.shape e := by
    intro e he
    obtain ⟨hkey, hvalue⟩ := List.of_mem_zip he
    obtain ⟨c, hc, hck⟩ := List.mem_map.mp hkey
    exact ⟨h.types _ hvalue, hck ▸ hkeyed c hc⟩
  obtain ⟨items, hitems⟩ := Aggregate.exists_assemble key g hsuits
  obtain ⟨os, hos, rfl⟩ := Aggregate.assemble_eq_ok.mp hitems
  obtain ⟨hkeys, hvalues⟩ := Aggregate.map_of_carries (Aggregate.objects_eq_ok.mp hos).2
  rw [List.map_fst_zip (Nat.le_of_eq hlength)] at hkeys
  rw [List.map_snd_zip (Nat.le_of_eq hlength.symm)] at hvalues
  exact ⟨os, hvalues, hkeys.symm, hitems⟩

theorem construct_aggregate_eq (self : Resolver) (i : InjectorId) (key : Key) (g : Aggregate)
    (w : World) : construct self i key (.aggregate g) w =
      match elements self i key 0 g.contributions w with
      | .ok es u => match g.assemble key es with
        | .ok items => .ok (.collection (.made u.made) g.shape items)
            { u.record (.assembled i key.ident) with made := u.made + 1 }
        | .error e => .error (.error e) u
      | .error stop u => .error stop u := by
  change EStateM.bind (elements self i key 0 g.contributions) _ w = _
  simp only [EStateM.bind]
  cases elements self i key 0 g.contributions w with
  | error stop u => rfl
  | ok es u =>
    change EStateM.bind (Act.ofExcept (g.assemble key es)) _ u = _
    dsimp only
    cases g.assemble key es <;> rfl

/-- An aggregate is put together once all its elements are gathered, or breaks off as an element does not come
about. -/
theorem construct_cases (hm : w.Moment) (hin : Inside d i key r n w)
    (hg : r.at? key.ident = some (.aggregate g)) :
    (∃ os u, Gathers i key g.contributions.zipIdx w (os.map fun o => .object o.2) u ∧
      Gathered d i key r n g g.contributions.zipIdx w (os.map fun o => .object o.2) u ∧
      os.map Prod.fst = g.contributions.map Contribution.mapKey ∧
      construct resolve i key (.aggregate g) w =
        .ok (.collection (.made u.made) g.shape (Aggregate.gather g.shape os))
          { u.record (.assembled i key.ident) with made := u.made + 1 }) ∨
    ∃ j c xs u stop left, g.contributions[j]? = some c ∧
      Gathers i key (g.contributions.zipIdx.take j) w xs u ∧
      Gathered d i key r n g (g.contributions.zipIdx.take j) w xs u ∧
      element resolve i key j c u = .error stop left ∧
      construct resolve i key (.aggregate g) w = .error stop left := by
  rw [construct_aggregate_eq]
  rcases elements_cases i key 0 g.contributions w with
    ⟨xs, u, hxs, helements⟩ | ⟨j, c, xs, u, stop, left, hc, hxs, helement, helements⟩
  · have hgathered := gathered_of_gathers hg (picks_zipIdx g) hm hin hxs
    have htyped := hm.inv.typed i
    rw [hin.site.registry] at htyped
    obtain ⟨os, rfl, hkeys, hitems⟩ := hgathered.assemble (htyped.keyed hg)
    exact .inl ⟨os, u, hxs, hgathered, hkeys, by simp only [helements, hitems]⟩
  · rw [Nat.zero_add] at helement
    have hgathered := gathered_of_gathers hg ((picks_zipIdx g).take j) hm hin hxs
    exact .inr ⟨j, c, xs, u, stop, left, hc, hxs, hgathered, helement, by simp only [helements]⟩

end Resolution

namespace World

open Resolution

variable {m w v u : World} {i : InjectorId} {key : Key} {g : Aggregate}

/-- What is kept of the elements of contributions is kept from now on, and is not made again. -/
def Retains (v : World) (i : InjectorId) (a : Ident) (cs : List (Contribution × Nat))
    (xs : List Instance) : Prop :=
  List.Forall₂ (fun c x => c.1.binding.effectiveScope.isCached = true →
    v.Keeps i (.element a c.2) x) cs xs

theorem runs_assembled {cached : Bool} (x : Instance)
    (hp : cached = true → w.slot i (.binding key.ident) = some .pending) :
    w.Runs i key.ident [] ((({ w.record (.assembled i key.ident) with made := w.made + 1 } : World).filled i
      (.binding key.ident) cached x).popped.record (.yielded i (.binding key.ident) x)) := by
  have hmade : w.Runs i key.ident [] { w.record (.assembled i key.ident) with made := w.made + 1 } :=
    ((Runs.refl i key.ident w).noted rfl).congr rfl fun _ => rfl
  exact ((hmade.filled hp (by simp)).congr (v := World.popped _) rfl fun _ => rfl).noted rfl

theorem Moment.vacant_of_unscoped {e : Entry} (hm : m.Moment)
    (he : (m.registry i).at? key.ident = some e) (hc : e.scope.isCached = false) :
    m.slot i (.binding key.ident) = none := by
  cases hslot : m.slot i (.binding key.ident) with
  | none => rfl
  | some s =>
    obtain ⟨spot, hspot, hcached⟩ := hm.recorded.singleton hslot
    cases (Registry.spot?_binding he).symm.trans hspot
    exact absurd hcached (by simp [hc])

theorem Inside.pending {d n : Nat} {r : Registry} {e : Entry} (hin : w.Inside d i key r n)
    (he : r.at? key.ident = some e) (hc : e.scope.isCached = true) :
    w.slot i (.binding key.ident) = some .pending := by
  have hspot := Registry.spot?_binding he
  rw [← hin.site.registry] at hspot
  exact hin.own ⟨_, hspot, hc⟩

theorem runs_opened (hg : (m.registry i).find? key = some (.aggregate g)) :
    m.Runs i key.ident [] (m.opened i key (.aggregate g)) := by
  refine ⟨⟨_, (events_began ..).trans (List.append_cons ..), ?_⟩, fun n _ => ?_⟩
  · cases (Entry.aggregate g).scope.isCached <;> rfl
  · have hi : i < ((m.requested i key).under i key).injectors.length := lt_of_bound hg
    rw [opened, slot_began hi, if_neg (by simp)]
    rfl

/-- An aggregate is put together from all its contributions, or fails as the first of them that fails. At every
moment at which its key can be put on the stack and no collection is kept for it, the elements are made one
after another, in the order of the contributions. Those that were due before are run, each once, and the others
are kept already. If all of them come about, a new collection is handed out, and holds all of them if it is a
list, and of those that are equal the first if it is a set. If one does not come about, this is also how the
resolution ends: no contribution is run after it, no collection is kept, and the elements from its on are as
they were. Whatever is kept of the elements before is kept from then on and never made again. -/
theorem resolve_aggregate (hm : m.Moment) (hg : (m.registry i).find? key = some (.aggregate g))
    (habsent : Absent m.frames i key.ident)
    (hroom : (m.underConstruction i).length < (m.registry i).config.maxDepth)
    (hunkept : ∀ x, m.slot i (.binding key.ident) ≠ some (.ready x)) :
    (∃ os items n u v,
      Gathers i key g.contributions.zipIdx (m.opened i key (.aggregate g))
        (os.map fun o => .object o.2) u ∧
      os.map Prod.fst = g.contributions.map Contribution.mapKey ∧ g.shape.Holds os items ∧
      resolve i key m = .ok (.collection (.made n) g.shape items) v ∧
      m.Runs i key.ident ((g.contributions.zipIdx.filter (m.due i key.ident)).map Prod.snd) v ∧
      v.Retains i key.ident g.contributions.zipIdx (os.map fun o => .object o.2)) ∨
    ∃ j c xs u stop t v, g.contributions[j]? = some c ∧
      Gathers i key (g.contributions.zipIdx.take j) (m.opened i key (.aggregate g)) xs u ∧
      m.due i key.ident (c, j) = true ∧
      produce resolve i key c.binding.strategy (u.began i (.element key.ident j)
        c.binding.effectiveScope.isCached (some c.source)) = .error stop t ∧
      resolve i key m = .error stop v ∧
      m.Runs i key.ident
        (((g.contributions.zipIdx.take (j + 1)).filter (m.due i key.ident)).map Prod.snd) v ∧
      v.Retains i key.ident (g.contributions.zipIdx.take j) xs ∧
      v.slot i (.binding key.ident) = none ∧
      ∀ n ≥ j, v.slot i (.element key.ident n) = m.slot i (.element key.ident n) := by
  have hinj : key.isInjector = false := by
    have htype : key.type.id = .collection g.shape := ((hm.inv.typed i).aggregate hg).1
    simp [Key.isInjector, htype]
  have hvacant : m.slot i (.binding key.ident) = none :=
    (hm.slot_cases hg habsent).resolve_right fun hready => hready.2.elim hunkept
  obtain ⟨hopened, hinside⟩ := hm.opened hinj hg habsent hroom hvacant
  have hresolve : request resolve i key m = _ := request_of_vacant hinj hg habsent hroom hvacant
  rw [← hm.inv.resolve_eq_request, fill] at hresolve
  have hbegin := runs_opened hg
  have hdue : ∀ cs : List (Contribution × Nat),
      cs.filter ((m.opened i key (.aggregate g)).due i key.ident) = cs.filter (m.due i key.ident) :=
    fun cs => List.filter_congr fun c _ => due_congr (hbegin.slots c.2 (by simp))
  rcases construct_cases hopened hinside hg with
    ⟨os, u, hxs, hgathered, hkeys, hconstruct⟩ |
      ⟨j, c, xs, u, stop, left, hc, hxs, hgathered, helement, hconstruct⟩
  · simp only [hconstruct] at hresolve
    have hv := hm.after_resolve hresolve
    have hlast := runs_assembled
      (.collection (.made u.made) g.shape (Aggregate.gather g.shape os)) (hgathered.inside.pending hg)
    refine .inl ⟨os, _, u.made, u, _, hxs, hkeys, Aggregate.holds_gather g.shape os, hresolve, ?_, ?_⟩
    · have hruns := (hbegin.trans hgathered.runs).trans hlast
      simpa only [hdue, List.nil_append, List.append_nil] using hruns
    · exact hgathered.kept.imp fun c x hready hc =>
        hv.keeps ((hlast.slots c.2 (by simp)).trans (hready hc))
  · have hu := hopened.path hgathered.path
    obtain ⟨⟨hduej, t, hproduce⟩, hpath, hinside', hruns, hslots⟩ :=
      hgathered.broken hopened hg hc helement
    have hpending := hinside'.pending hg
    simp only [hconstruct] at hresolve
    have hv := hm.path (hm.path_of_error hresolve)
    have hend := ((Runs.refl i key.ident left).unfilled hpending (by simp)).congr
      (v := World.popped _) rfl fun _ => rfl
    rw [due_congr (hbegin.slots j (by simp))] at hduej
    refine .inr ⟨j, c, xs, u, stop, t, _, hc, hxs, hduej, hproduce, hresolve, ?_, ?_, ?_, fun n hn => ?_⟩
    · simpa only [hdue, List.nil_append, List.append_nil] using (hbegin.trans hruns).trans hend
    · exact hgathered.kept.imp fun c' x hready hc' =>
        hv.keeps ((hend.slots c'.2 (by simp)).trans (hpath.ready (hready hc')))
    · refine (slot_unfilled hpending i (.binding key.ident)).trans ?_
      split
      · rfl
      · rename_i hne
        have hbound : (left.registry i).at? key.ident = some (.aggregate g) := by
          rw [hinside'.site.registry]
          exact hg
        exact (hu.path hpath).vacant_of_unscoped hbound (by simpa using hne)
    · rw [hend.slots n (by simp), hslots n hn, hbegin.slots n (by simp)]

def crewKey : Key := ⟨⟨"Crew", .collection (.list .alpha)⟩, none⟩

def hand (strategy : Strategy) (scope : Scope) : Operation :=
  .contribute crewKey ⟨strategy, some scope⟩ .direct none

def crewOperations : List Operation :=
  [.declareAggregate crewKey (.list .alpha),
    hand (.construct (.value .alpha) [] fun _ => .done ⟨.alpha "mate", []⟩ rfl) .singleton,
    hand (.construct (.value .alpha) [] fun _ => .fail (.message "ill")) .singleton,
    hand (.construct (.value .alpha) [] fun _ => .done ⟨.alpha "cook", []⟩ rfl) .singleton,
    .finalize]

def crewWorld : World := ({} : World).addInjector "main"
  { registry := (Operation.runAll {} crewOperations).2.finalized.getD {} }

/-- The second fails, so its error is the error, and the third is not run. The first is kept. -/
theorem resolve_aggregate_crew : ∃ v,
    resolve 0 crewKey crewWorld = .error (.error (.instantiate crewKey (.message "ill"))) v ∧
      crewWorld.Runs 0 crewKey.ident [0, 1] v ∧ v.slot 0 (.binding crewKey.ident) = none ∧
      v.Keeps 0 (.element crewKey.ident 0) (.object ⟨.made 0, .alpha "mate", []⟩) := by
  have hfrozen : Registry.Frozen ((Operation.runAll {} crewOperations).2.finalized.getD {}) :=
    ⟨{}, crewOperations, by simp [crewOperations, hand, Operation.Typed, crewKey, Collection.keyType?], rfl⟩
  have hmoment : crewWorld.Moment :=
    Reachable.moment (Relation.ReflTransGen.single (.inject "main" hfrozen rfl))
  have hfails : ∃ v, resolve 0 crewKey crewWorld =
      .error (.error (.instantiate crewKey (.message "ill"))) v ∧
      runs 0 crewKey.ident v.events = [0, 1] ∧
      v.slot 0 (.element crewKey.ident 0) = some (.ready (.object ⟨.made 0, .alpha "mate", []⟩)) :=
    ⟨_, rfl, rfl, rfl⟩
  obtain ⟨v, hv, hrun, hmate⟩ := hfails
  obtain ⟨g, hg⟩ : ∃ g, (crewWorld.registry 0).find? crewKey = some (.aggregate g) := ⟨_, rfl⟩
  rcases resolve_aggregate hmoment hg (by intro f hf; cases hf) (by decide) (by intro x hx; cases hx)
    with ⟨os, items, n, u, v', _, _, _, hok, _⟩ |
      ⟨j, c, xs, u, stop, t, v', _, _, _, _, herror, hruns, _, hvacant, _⟩
  · cases hv.symm.trans hok
  · cases hv.symm.trans herror
    obtain ⟨new, hnew, hns⟩ := hruns.events
    have hall : v.events = new := hnew.trans (List.append_nil new)
    rw [← hns, ← hall, hrun] at hruns
    exact ⟨v, hv, hruns, hvacant, (hmoment.path (hmoment.path_of_error hv)).keeps hmate⟩

end World

end Wiring
