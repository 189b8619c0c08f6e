import Mathlib.Data.List.Induction
import Wiring.Proofs.Registry.Freeze
import Wiring.Proofs.Registry.Aggregate

/-!
Conflicts, and the order in which registrations come.

A binding is compared with all those that are there, so whether bindings of one key conflict does not
depend on their order. A contribution under a map key is compared with the one that stands there, and
those that it replaced or that gave way to it are gone. So a conflict with one of these goes unnoticed:
contributions are accepted exactly if each initial part of those under one map key has a source above
all its others, which depends on their order.
-/

set_option autoImplicit false

namespace Wiring

open OverrideGraph

namespace OverrideGraph

variable {g : OverrideGraph} {s t u : Source} {ss : List Source}

def Related (g : OverrideGraph) (s t : Source) : Prop := g.Above s t ∨ g.Above t s

def Tops (g : OverrideGraph) (s : Source) (ss : List Source) : Prop :=
  ∃ rest, ss.Perm (s :: rest) ∧ ∀ t ∈ rest, g.Above s t

theorem tops_singleton (g : OverrideGraph) (s : Source) : g.Tops s [s] := ⟨[], .refl _, by simp⟩

theorem Tops.snoc_above (h : g.Tops s ss) (ht : g.Above t s) : g.Tops t (ss ++ [t]) := by
  obtain ⟨rest, hp, hs⟩ := h
  refine ⟨ss, List.perm_append_singleton t ss, fun u hu => ?_⟩
  rcases List.mem_cons.mp (hp.mem_iff.mp hu) with rfl | hu
  · exact ht
  · exact ht.trans (hs u hu)

theorem Tops.snoc_below (h : g.Tops s ss) (ht : g.Above s t) : g.Tops s (ss ++ [t]) := by
  obtain ⟨rest, hp, hs⟩ := h
  refine ⟨rest ++ [t], by simpa using hp.append_right [t], fun u hu => ?_⟩
  rcases List.mem_append.mp hu with hu | hu
  · exact hs u hu
  · rwa [List.mem_singleton.mp hu]

theorem Tops.not_snoc (hg : g.Acyclic) (h : g.Tops s ss) (hst : ¬ g.Related s t) :
    ¬ g.Tops u (ss ++ [t]) := by
  rintro ⟨others, hq, hu⟩
  obtain ⟨rest, hp, hs⟩ := h
  have hsplit : (s :: t :: rest).Perm (u :: others) :=
    ((List.Perm.swap t s rest).trans ((hp.symm.cons t).trans
      (List.perm_append_singleton t ss).symm)).trans hq
  by_cases hus : u = s
  · subst hus
    have ht : t ∈ others := hsplit.cons_inv.mem_iff.mp List.mem_cons_self
    exact hst (.inl (hu t ht))
  have hso : s ∈ others :=
    (List.mem_cons.mp (hsplit.mem_iff.mp List.mem_cons_self)).resolve_left (Ne.symm hus)
  by_cases hut : u = t
  · exact hst (.inr (hut ▸ hu s hso))
  have hur : u ∈ rest := by simpa [hus, hut] using hsplit.mem_iff.mpr List.mem_cons_self
  exact hg.asymm (hu s hso) (hs u hur)

theorem exists_tops (h : ss.Pairwise g.Related) (hn : ss ≠ []) : ∃ s, g.Tops s ss := by
  induction ss using List.reverseRecOn with
  | nil => contradiction
  | append_singleton ss t ih =>
    obtain ⟨hss, _, hrel⟩ := List.pairwise_append.mp h
    by_cases he : ss = []
    · subst he
      exact ⟨t, g.tops_singleton t⟩
    obtain ⟨s, hs⟩ := ih hss he
    have hmem : s ∈ ss := by
      obtain ⟨rest, hp, _⟩ := hs
      exact hp.mem_iff.mpr List.mem_cons_self
    rcases hrel s hmem t (List.mem_singleton.mpr rfl) with hst | hts
    · exact ⟨s, hs.snoc_below hst⟩
    · exact ⟨t, hs.snoc_above hts⟩

/-- Each initial part of the list has a source above all its others. -/
def AlwaysTopped (g : OverrideGraph) (ss : List Source) : Prop :=
  ∀ first, first <+: ss → first ≠ [] → ∃ s, g.Tops s first

theorem alwaysTopped_nil (g : OverrideGraph) : g.AlwaysTopped [] :=
  fun _ hf hn => absurd (List.prefix_nil.mp hf) hn

theorem alwaysTopped_snoc :
    g.AlwaysTopped (ss ++ [t]) ↔ g.AlwaysTopped ss ∧ ∃ s, g.Tops s (ss ++ [t]) := by
  constructor
  · intro h
    exact ⟨fun first hf hn => h first (hf.trans (List.prefix_append ss [t])) hn,
      h _ (List.prefix_refl _) (by simp)⟩
  · rintro ⟨h, hs⟩ first hf hn
    rcases List.prefix_concat_iff.mp hf with rfl | hf
    · exact hs
    · exact h first hf hn

theorem alwaysTopped_of_related (h : ss.Pairwise g.Related) : g.AlwaysTopped ss :=
  fun _ hf hn => exists_tops (h.sublist hf.sublist) hn

theorem AlwaysTopped.related (h : g.AlwaysTopped ss) (ho : ss.Pairwise fun s t => ¬ g.Above s t) :
    ss.Pairwise g.Related := by
  induction ss using List.reverseRecOn with
  | nil => exact .nil
  | append_singleton ss t ih =>
    obtain ⟨hss, _, hst⟩ := List.pairwise_append.mp ho
    obtain ⟨hfirst, u, rest, hp, hu⟩ := alwaysTopped_snoc.mp h
    refine List.pairwise_append.mpr ⟨ih hfirst hss, List.pairwise_singleton _ _, fun s hs x hx => ?_⟩
    rw [List.mem_singleton.mp hx]
    -- Nothing before the last source is above it, so it is itself above all others.
    have hsplit : (t :: ss).Perm (u :: rest) := (List.perm_append_singleton t ss).symm.trans hp
    by_cases hut : u = t
    · subst hut
      exact .inr (hu s (hsplit.cons_inv.mem_iff.mp hs))
    · have hmem : u ∈ ss := by simpa [hut] using hsplit.mem_iff.mpr List.mem_cons_self
      have ht : t ∈ rest := by simpa [Ne.symm hut] using hsplit.mem_iff.mp List.mem_cons_self
      exact absurd (hu t ht) (hst u hmem t (List.mem_singleton.mpr rfl))

end OverrideGraph

namespace Aggregate

variable {g : OverrideGraph}

/-- Rivals come together exactly if at no time one comes that is not related to the top of those before. -/
theorem rivals_snoc (hg : g.Acyclic) {seen : List Source} {c : Contribution} (hc : g.Tops c.source seen)
    (news : List Contribution) : (∃ ds, rivals g.isOverriding news [c] = some ds) ↔
      ∀ first, first <+: news.map Contribution.source → ∃ s, g.Tops s (seen ++ first) := by
  induction news generalizing c seen with
  | nil =>
    refine iff_of_true ⟨_, rfl⟩ fun first hf => ?_
    rw [List.prefix_nil.mp hf, List.append_nil]
    exact ⟨_, hc⟩
  | cons n rest ih =>
    have hstep : (∀ first, first <+: (n :: rest).map Contribution.source →
          ∃ s, g.Tops s (seen ++ first)) ↔
        ∀ first, first <+: rest.map Contribution.source →
          ∃ s, g.Tops s (seen ++ [n.source] ++ first) := by
      constructor
      · intro h first hf
        simpa using h (n.source :: first) ((List.prefix_cons_inj _).mpr hf)
      · intro h first hf
        rcases List.prefix_cons_iff.mp hf with rfl | ⟨later, rfl, hl⟩
        · exact ⟨_, by simpa using hc⟩
        · simpa using h later hl
    rw [hstep]
    by_cases hn : g.isOverriding n.source c.source = true
    · simp only [rivals, rival, hn, if_true]
      exact ih (hc.snoc_above hn)
    · by_cases ho : g.isOverriding c.source n.source = true
      · simp only [rivals, rival, hn, ho, if_true]
        exact ih (hc.snoc_below ho)
      · simp only [rivals, rival, hn, ho]
        refine iff_of_false (by simp) fun h => ?_
        obtain ⟨s, hs⟩ := h [] (List.nil_prefix)
        rw [List.append_nil] at hs
        exact hc.not_snoc hg (fun hr => hr.elim ho hn) hs

theorem rivals_iff (hg : g.Acyclic) (news : List Contribution) :
    (∃ ds, rivals g.isOverriding news [] = some ds) ↔ g.AlwaysTopped (news.map Contribution.source) := by
  cases news with
  | nil =>
    refine iff_of_true ⟨_, rfl⟩ fun first hf hne => absurd (List.prefix_nil.mp hf) hne
  | cons c rest =>
    refine (rivals_snoc hg (g.tops_singleton c.source) rest).trans
      ⟨fun h first hf hne => ?_, fun h first hf => ?_⟩
    · obtain ⟨later, rfl, hl⟩ := (List.prefix_cons_iff.mp hf).resolve_left hne
      exact h later hl
    · exact h (c.source :: first) ((List.prefix_cons_inj _).mpr hf) (by simp)

/-- Two contributions with equal map keys, of which neither source is above the other. -/
def Clash (g : OverrideGraph) (c d : Contribution) : Prop :=
  (∃ k, c.mapKey = some k ∧ d.mapKey = some k) ∧ ¬ g.Related c.source d.source

def Conflicting (g : OverrideGraph) (cs : List Contribution) : Prop :=
  ∃ c d, [c, d].Sublist cs ∧ Clash g c d

theorem not_conflicting_iff {cs : List Contribution} :
    ¬ Conflicting g cs ↔ cs.Pairwise fun c d => ¬ Clash g c d := by
  simp [Conflicting, List.pairwise_iff_forall_sublist]

theorem Conflicting.perm {cs ds : List Contribution} (h : Conflicting g cs) (hp : cs.Perm ds) :
    Conflicting g ds := by
  by_contra hd
  have hsymm : ∀ {c d : Contribution}, ¬ Clash g c d → ¬ Clash g d c :=
    fun h ⟨⟨k, hc, hd⟩, hrel⟩ => h ⟨⟨k, hd, hc⟩, fun hcd => hrel hcd.symm⟩
  exact not_conflicting_iff.mpr ((hp.pairwise_iff hsymm).mpr (not_conflicting_iff.mp hd)) h

def sources (k : MapKey) (cs : List Contribution) : List Source :=
  (under (some k) cs).map Contribution.source

theorem not_conflicting_iff_sources {cs : List Contribution} :
    ¬ Conflicting g cs ↔ ∀ k, (sources k cs).Pairwise g.Related := by
  rw [not_conflicting_iff]
  simp only [sources, List.pairwise_map, under, List.pairwise_filter, decide_eq_true_eq]
  constructor
  · intro h k
    exact h.imp fun hcd hc hd => by_contra fun hrel => hcd ⟨⟨k, hc, hd⟩, hrel⟩
  · intro h
    refine List.pairwise_iff_forall_sublist.mpr fun {c d} hsub => ?_
    rintro ⟨⟨k, hc, hd⟩, hrel⟩
    exact hrel (List.pairwise_iff_forall_sublist.mp (h k) hsub hc hd)

def suited (e : Base) (news : List Contribution) : List Contribution :=
  news.filter fun c => c.binding.provides.id = .value e

theorem suited_cons (e : Base) (c : Contribution) (rest : List Contribution) :
    suited e (c :: rest) =
      if c.binding.provides.id = .value e then c :: suited e rest else suited e rest := by
  simp [suited, List.filter_cons]

theorem insert_add (ov : Source → Source → Bool) (key : Key) (new : Contribution) (a : Aggregate)
    (ht : new.binding.provides.id = .value a.shape.element) :
    match add ov a.shape.element new a.contributions with
    | some ds => a.insert ov key new = .ok { a with contributions := ds }
    | none => ∃ text x y, a.insert ov key new = .error (.duplicateMapKey key text x y) := by
  simp only [add, insert, ht, ne_eq, not_true_eq_false, if_false]
  cases new.mapKey with
  | none => rfl
  | some k =>
    dsimp only
    cases place ov new k a.contributions with
    | ok placed => rfl
    | error x => exact ⟨_, _, _, rfl⟩

end Aggregate

def Contribution.withDefaultScope (c : Contribution) (s : Scope) : Contribution :=
  { c with binding := c.binding.withDefaultScope s }

def Contribution.operation (key : Key) (c : Contribution) : Operation :=
  .contribute key c.binding c.source c.mapKey

def Candidate.operation (key : Key) (c : Candidate) : Operation := .register key c.binding c.source

namespace Aggregate

variable {g : OverrideGraph} {e : Base}

/-- Contributions to an empty aggregate come together exactly if under each map key there is always one
above the others. -/
theorem grow_eq_none_iff (hg : g.Acyclic) (s : Scope) {news : List Contribution}
    (ht : ∀ c ∈ news, c.binding.provides.id = .value e) :
    grow g.isOverriding e (news.map (·.withDefaultScope s)) [] = none ↔
      ∃ k, ¬ g.AlwaysTopped (sources k news) := by
  have hsources : ∀ k, (under (some k) (news.map (·.withDefaultScope s))).map Contribution.source =
      sources k news := by
    intro k
    simp [under, sources, List.filter_map, Contribution.withDefaultScope, Function.comp_def]
  have hspec := grow_spec g.isOverriding e (news.map (·.withDefaultScope s)) []
  have hrivals := fun k => rivals_iff hg (under (some k) (news.map (·.withDefaultScope s)))
  simp only [hsources] at hrivals
  cases hgrow : grow g.isOverriding e (news.map (·.withDefaultScope s)) [] with
  | some ds =>
    rw [hgrow] at hspec
    refine iff_of_false (by simp) fun h => ?_
    obtain ⟨k, hk⟩ := h
    exact hk ((hrivals k).mp ⟨_, hspec.2.1 k⟩)
  | none =>
    rw [hgrow] at hspec
    refine iff_of_true rfl ?_
    rcases hspec with ⟨c, hc, hne⟩ | ⟨k, hk⟩
    · obtain ⟨d, hd, rfl⟩ := List.mem_map.mp hc
      exact absurd (ht d hd) hne
    · refine ⟨k, fun htop => ?_⟩
      obtain ⟨ds, hds⟩ := (hrivals k).mpr htop
      exact absurd (hds.symm.trans hk) (by simp)

end Aggregate

namespace Builder

def contributeAll (b : Builder) (key : Key) (news : List Contribution) :
    List (Except BindError Unit) :=
  (Operation.runAll b (news.map (Contribution.operation key))).1

def registerAll (b : Builder) (key : Key) (news : List Candidate) : List (Except BindError Unit) :=
  (Operation.runAll b (news.map (Candidate.operation key))).1

def MapKeyRefused (outcomes : List (Except BindError Unit)) : Prop :=
  ∃ key text x y, .error (.duplicateMapKey key text x y) ∈ outcomes

def BindingRefused (outcomes : List (Except BindError Unit)) : Prop :=
  ∃ key x y, .error (.duplicateBinding key x y) ∈ outcomes

def fitting (key : Key) (news : List Candidate) : List Source :=
  (news.filter fun c => c.binding.provides.id = key.type.id).map Candidate.source

variable {b : Builder} {key : Key} {a : Aggregate}

theorem apply_contribution (hopen : b.finalized = none) (hat : b.at? key.ident = some (.aggregate a))
    (c : Contribution) : (c.operation key).apply b =
      match a.insert b.overrides.isOverriding key (c.withDefaultScope b.config.defaultScope) with
      | .ok grown => (.ok (), b.write key (.aggregate grown))
      | .error e => (.error e, b) := by
  have hfin : b.isFinalized = false := by simp [isFinalized, hopen]
  have hfind : b.entries.find? key = some (.aggregate a) := hat
  simp only [Contribution.operation, Operation.apply, contribute, hfin, hfind,
    Contribution.withDefaultScope]
  rfl

theorem apply_candidate (hopen : b.finalized = none) {cs : List Candidate}
    (hat : b.at? key.ident = none ∧ cs = [] ∨ b.at? key.ident = some (.candidates cs)) {c : Candidate}
    (ht : c.binding.provides.id = key.type.id) : (c.operation key).apply b =
      match cs.find? fun d => unrelated b.overrides c.source d.source with
      | some d => (.error (.duplicateBinding key d.source c.source), b)
      | none => (.ok (), b.write key (.candidates
          (cs ++ [⟨c.binding.withDefaultScope b.config.defaultScope, c.source⟩]))) := by
  have hfin : b.isFinalized = false := by simp [isFinalized, hopen]
  have hfind : b.entries.find? key = b.at? key.ident := rfl
  simp only [Candidate.operation, Operation.apply, register, hfin, hfind, ht, Bool.false_eq_true,
    if_false, ne_eq, not_true_eq_false]
  rcases hat with ⟨hat, rfl⟩ | hat
  · simp [hat]
  · cases hfound : cs.find? fun d => unrelated b.overrides c.source d.source <;> simp [hat, hfound]

theorem mapKeyRefused_iff_grow (hopen : b.finalized = none)
    (hat : b.at? key.ident = some (.aggregate a)) (news : List Contribution) :
    MapKeyRefused (b.contributeAll key news) ↔
      Aggregate.grow b.overrides.isOverriding a.shape.element
        ((Aggregate.suited a.shape.element news).map (·.withDefaultScope b.config.defaultScope))
        a.contributions = none := by
  induction news generalizing b a with
  | nil => simp [MapKeyRefused, contributeAll, Operation.runAll, Aggregate.suited, Aggregate.grow]
  | cons c rest ih =>
    have happly := apply_contribution hopen hat c
    by_cases ht : c.binding.provides.id = .value a.shape.element
    · have hadd := Aggregate.insert_add b.overrides.isOverriding key
        (c.withDefaultScope b.config.defaultScope) a ht
      simp only [Aggregate.suited_cons, ht, if_true, contributeAll, List.map_cons, Operation.runAll,
        Aggregate.grow]
      cases hds : Aggregate.add b.overrides.isOverriding a.shape.element
          (c.withDefaultScope b.config.defaultScope) a.contributions with
      | none =>
        rw [hds] at hadd
        obtain ⟨text, x, y, hins⟩ := hadd
        rw [hins] at happly
        rw [happly]
        exact iff_of_true ⟨key, text, x, y, List.mem_cons_self⟩ rfl
      | some ds =>
        rw [hds] at hadd
        dsimp only at hadd
        rw [hadd] at happly
        have hw := b.writes_write key (.aggregate { a with contributions := ds })
        have hrest := ih (by rw [hw.finalized, hopen]) (by rw [hw.at?, if_pos rfl])
        rw [hw.overrides, hw.config] at hrest
        simpa [MapKeyRefused, contributeAll, happly] using hrest
    · have hins : a.insert b.overrides.isOverriding key (c.withDefaultScope b.config.defaultScope) =
          .error (.incorrectType key c.binding.provides) := if_pos ht
      rw [hins] at happly
      have hrest := ih hopen hat
      simpa [MapKeyRefused, contributeAll, Operation.runAll, happly, Aggregate.suited_cons, ht]
        using hrest

theorem mapKeyRefused_iff (hopen : b.finalized = none) (hg : b.overrides.Acyclic)
    (hat : b.at? key.ident = some (.aggregate a)) (hempty : a.contributions = [])
    (news : List Contribution) : MapKeyRefused (b.contributeAll key news) ↔
      ∃ k, ¬ b.overrides.AlwaysTopped (Aggregate.sources k (Aggregate.suited a.shape.element news)) := by
  rw [mapKeyRefused_iff_grow hopen hat, hempty]
  exact Aggregate.grow_eq_none_iff hg _ fun c hc => by simpa using (List.mem_filter.mp hc).2

/-- Beside candidates that are related, one binding is refused for another exactly if not each two of
them all are related. -/
theorem bindingRefused_iff (hopen : b.finalized = none) {cs : List Candidate}
    (hat : b.at? key.ident = none ∧ cs = [] ∨ b.at? key.ident = some (.candidates cs))
    (hcs : (cs.map Candidate.source).Pairwise b.overrides.Related) (news : List Candidate) :
    BindingRefused (b.registerAll key news) ↔
      ¬ (cs.map Candidate.source ++ fitting key news).Pairwise b.overrides.Related := by
  induction news generalizing b cs with
  | nil => simp [BindingRefused, registerAll, Operation.runAll, fitting, hcs]
  | cons c rest ih =>
    by_cases ht : c.binding.provides.id = key.type.id
    · have happly := apply_candidate hopen hat ht
      have hrelated : (cs.find? fun d => unrelated b.overrides c.source d.source) = none ↔
          ∀ s ∈ cs.map Candidate.source, b.overrides.Related s c.source := by
        rw [Operation.find?_unrelated_eq_none]
        simp [OverrideGraph.Related, or_comm]
      have hfit : fitting key (c :: rest) = c.source :: fitting key rest := by simp [fitting, ht]
      simp only [registerAll, List.map_cons, Operation.runAll, hfit]
      cases hfound : cs.find? fun d => unrelated b.overrides c.source d.source with
      | some d =>
        rw [hfound] at happly hrelated
        rw [happly]
        refine iff_of_true ⟨key, _, _, List.mem_cons_self⟩ fun h => ?_
        have hsome := hrelated.mpr fun s hs =>
          (List.pairwise_append.mp h).2.2 s hs _ List.mem_cons_self
        contradiction
      | none =>
        have hrel := hrelated.mp hfound
        rw [hfound] at happly
        have hw := b.writes_write key (.candidates
          (cs ++ [⟨c.binding.withDefaultScope b.config.defaultScope, c.source⟩]))
        have hrest := ih (by rw [hw.finalized, hopen]) (.inr (by rw [hw.at?, if_pos rfl])) (by
          rw [hw.overrides, List.map_append, List.pairwise_append]
          exact ⟨hcs, List.pairwise_singleton _ _, by simpa using hrel⟩)
        rw [hw.overrides] at hrest
        simpa [BindingRefused, registerAll, happly] using hrest
    · have happly : (c.operation key).apply b =
          (.error (.incorrectType key c.binding.provides), b) := by
        simp [Candidate.operation, Operation.apply, register, isFinalized, hopen, ht]
      have hrest := ih hopen hat hcs
      simpa [BindingRefused, registerAll, Operation.runAll, happly, fitting, ht] using hrest

/-- When contributions to an empty map are refused for their map keys. There is no refusal without a
conflict, and of conflicting contributions some order is refused, so the order does not matter where no
contribution overrides a later one; but in general only a conflict with the one that is above all before
it is noticed. Of bindings of one key every conflict is. -/
theorem refused_conflicts (hopen : b.finalized = none) (hg : b.overrides.Acyclic)
    (hat : b.at? key.ident = some (.aggregate a)) (hempty : a.contributions = [])
    (news : List Contribution) :
    (MapKeyRefused (b.contributeAll key news) ↔ ∃ k, ¬ b.overrides.AlwaysTopped
      (Aggregate.sources k (Aggregate.suited a.shape.element news))) ∧
    (Aggregate.Conflicting b.overrides (Aggregate.suited a.shape.element news) ↔
      ∃ other, other.Perm news ∧ MapKeyRefused (b.contributeAll key other)) ∧
    ((news.Pairwise fun c d => ¬ b.overrides.Above c.source d.source) →
      (MapKeyRefused (b.contributeAll key news) ↔
        Aggregate.Conflicting b.overrides (Aggregate.suited a.shape.element news))) ∧
    ∀ plain, b.at? plain.ident = none → ∀ bindings, BindingRefused (b.registerAll plain bindings) ↔
      ¬ (fitting plain bindings).Pairwise b.overrides.Related := by
  have hconflict : ∀ ds, MapKeyRefused (b.contributeAll key ds) →
      Aggregate.Conflicting b.overrides (Aggregate.suited a.shape.element ds) := by
    intro ds hr
    obtain ⟨k, hk⟩ := (mapKeyRefused_iff hopen hg hat hempty ds).mp hr
    by_contra hnone
    exact hk (alwaysTopped_of_related (Aggregate.not_conflicting_iff_sources.mp hnone k))
  refine ⟨mapKeyRefused_iff hopen hg hat hempty news, ⟨fun h => ?_, fun ⟨ds, hp, hr⟩ => ?_⟩,
    fun ho => ⟨hconflict news, fun h => ?_⟩, fun plain hplain bindings => ?_⟩
  · obtain ⟨c, d, hsub, ⟨k, hc, hd⟩, hrel⟩ := h
    have hmem : ∀ x ∈ [c, d], x ∈ Aggregate.suited a.shape.element news := hsub.subset
    obtain ⟨others, hp⟩ := (hsub.trans List.filter_sublist).exists_perm_append
    refine ⟨[c, d] ++ others, hp.symm, ?_⟩
    refine (mapKeyRefused_iff hopen hg hat hempty _).mpr ⟨k, fun htop => ?_⟩
    have hsources : Aggregate.sources k (Aggregate.suited a.shape.element ([c, d] ++ others)) =
        [c.source, d.source] ++ Aggregate.sources k (Aggregate.suited a.shape.element others) := by
      simp_all [Aggregate.sources, Aggregate.suited, Aggregate.under]
    obtain ⟨s, hs⟩ := htop [c.source, d.source] (hsources ▸ List.prefix_append _ _) (by simp)
    exact (tops_singleton _ c.source).not_snoc hg hrel hs
  · exact (hconflict ds hr).perm (hp.filter _)
  · by_contra hnone
    rw [mapKeyRefused_iff hopen hg hat hempty, not_exists] at hnone
    refine Aggregate.not_conflicting_iff_sources.mpr (fun k => ?_) h
    refine (not_not.mp (hnone k)).related (List.pairwise_map.mpr ?_)
    exact (ho.filter _).filter _
  · simpa using bindingRefused_iff hopen (.inl ⟨hplain, rfl⟩) List.Pairwise.nil bindings

def plainModule (type : ModuleType) : ModuleId := ⟨.module type, .number 0⟩

def textMapKey : Key := .of (.collection (.map .str .str))

def contestedBuilder : Builder :=
  (Operation.runAll {} [.declareOverride (plainModule .b) (plainModule .a),
    .declareOverride (plainModule .b) (plainModule .c),
    .declareAggregate textMapKey (.map .str .str)]).2

def contestedMap : Aggregate := { shape := .map .str .str, scope := ({} : Config).defaultScope }

def contestedBy (type : ModuleType) : Contribution :=
  ⟨⟨.fixed ⟨.fixed 0, .str "x", []⟩, none⟩, .module (plainModule type), some (.str "x")⟩

theorem above_contested {s t : Source} : contestedBuilder.overrides.Above s t ↔
    s = .module (plainModule .b) ∧
      (t = .module (plainModule .a) ∨ t = .module (plainModule .c)) := by
  have hdeclared : ∀ {x y}, contestedBuilder.overrides.Overrides x y ↔
      x = plainModule .b ∧ (y = plainModule .a ∨ y = plainModule .c) := by
    intro x y
    have hcontested : contestedBuilder.overrides =
        OverrideGraph.declare (OverrideGraph.declare [] (plainModule .b) (plainModule .a))
          (plainModule .b) (plainModule .c) := rfl
    rw [hcontested, overrides_declare, overrides_declare]
    simp [Overrides, targets, Table.get?, and_or_left]
  rw [above_iff]
  constructor
  · rintro ⟨x, y, rfl, rfl, h⟩
    obtain ⟨z, hxz, hzy⟩ := Relation.TransGen.head'_iff.mp h
    obtain ⟨rfl, hz⟩ := hdeclared.mp hxz
    rcases Relation.ReflTransGen.cases_head hzy with rfl | ⟨u, hzu, _⟩
    · simpa using hz
    · obtain ⟨rfl, _⟩ := hdeclared.mp hzu
      rcases hz with h | h <;> exact absurd h (by decide)
  · rintro ⟨rfl, rfl | rfl⟩
    · exact ⟨_, _, rfl, rfl, .single (hdeclared.mpr ⟨rfl, .inl rfl⟩)⟩
    · exact ⟨_, _, rfl, rfl, .single (hdeclared.mpr ⟨rfl, .inr rfl⟩)⟩

theorem acyclic_contested : contestedBuilder.overrides.Acyclic := by
  intro m h
  have hm := above_contested.mp (above_iff.mpr ⟨m, m, rfl, rfl, h⟩)
  simp only [Source.module.injEq] at hm
  obtain ⟨rfl, hm⟩ := hm
  revert hm
  decide

theorem at?_contested :
    contestedBuilder.at? textMapKey.ident = some (.aggregate contestedMap) := rfl

theorem clash_contested :
    Aggregate.Clash contestedBuilder.overrides (contestedBy .a) (contestedBy .c) :=
  ⟨⟨.str "x", rfl, rfl⟩, by simp [OverrideGraph.Related, contestedBy, above_contested, plainModule]⟩

/-- Of the three modules the one that overrides the others is handed in last. -/
theorem refused_conflicts_contested : contestedBuilder.overrides.Acyclic ∧
    MapKeyRefused (contestedBuilder.contributeAll textMapKey
      [contestedBy .a, contestedBy .c, contestedBy .b]) := by
  obtain ⟨_, _, hordered, _⟩ := refused_conflicts rfl acyclic_contested at?_contested rfl
    [contestedBy .a, contestedBy .c, contestedBy .b]
  refine ⟨acyclic_contested, (hordered ?_).mpr ⟨_, _, ?_, clash_contested⟩⟩
  · simp [contestedBy, above_contested, plainModule]
  · exact (List.prefix_append [_, _] [_]).sublist

/-- A conflict with a contribution that was replaced is not noticed, but is refused in another order. -/
theorem replaced_conflict_unnoticed :
    contestedBuilder.overrides.Acyclic ∧
    contestedBuilder.at? textMapKey.ident = some (.aggregate contestedMap) ∧
    Aggregate.Conflicting contestedBuilder.overrides [contestedBy .a, contestedBy .b, contestedBy .c] ∧
    ¬ MapKeyRefused (contestedBuilder.contributeAll textMapKey
      [contestedBy .a, contestedBy .b, contestedBy .c]) ∧
    MapKeyRefused (contestedBuilder.contributeAll textMapKey
      [contestedBy .a, contestedBy .c, contestedBy .b]) := by
  have hab : contestedBuilder.overrides.Above (contestedBy .b).source (contestedBy .a).source :=
    above_contested.mpr ⟨rfl, .inl rfl⟩
  have hcb : contestedBuilder.overrides.Above (contestedBy .b).source (contestedBy .c).source :=
    above_contested.mpr ⟨rfl, .inr rfl⟩
  have ha := tops_singleton contestedBuilder.overrides (contestedBy .a).source
  have hrefused := mapKeyRefused_iff rfl acyclic_contested at?_contested rfl
  refine ⟨acyclic_contested, at?_contested, ⟨_, _, ?_, clash_contested⟩, ?_, ?_⟩
  · exact .cons_cons _ (.cons _ (.refl _))
  · rw [hrefused]
    rintro ⟨k, hk⟩
    by_cases hx : MapKey.str "x" = k
    · subst hx
      have hb := ha.snoc_above hab
      exact hk (alwaysTopped_snoc.mpr ⟨alwaysTopped_snoc.mpr ⟨alwaysTopped_snoc.mpr
        ⟨alwaysTopped_nil _, _, ha⟩, _, hb⟩, _, hb.snoc_below hcb⟩)
    · have hnone : Aggregate.sources k [contestedBy .a, contestedBy .b, contestedBy .c] = [] := by
        simp [Aggregate.sources, Aggregate.under, contestedBy, hx]
      exact hk (hnone ▸ alwaysTopped_nil _)
  · rw [hrefused]
    refine ⟨.str "x", fun htop => ?_⟩
    obtain ⟨s, hs⟩ := htop [(contestedBy .a).source, (contestedBy .c).source]
      (List.prefix_append _ [_]) (by simp)
    exact ha.not_snoc acyclic_contested clash_contested.2 hs

end Builder

end Wiring
