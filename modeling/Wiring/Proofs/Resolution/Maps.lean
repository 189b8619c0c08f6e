import Mathlib.Data.List.Permutation
import Wiring.Proofs.Registry.Survivors
import Wiring.Proofs.Resolution.Composition
import Wiring.Proofs.Resolution.Typing
import Wiring.Proofs.Resolution.Values

set_option autoImplicit false

namespace Wiring

/-- The instance is a map with one entry for each contribution, in their order. Each entry has the map key of
its contribution, which is that of no other entry, and a value that was yielded for it. -/
def MapOf (i : InjectorId) (a : Ident) (g : Aggregate) (events : List Event) (x : Instance) : Prop :=
  ∃ id items, x = .collection id g.shape items ∧
    List.Forall₂ (Drawn i a events) g.contributions.zipIdx items ∧
    (items.map Prod.fst).Nodup ∧ ∀ item ∈ items, item.1 ≠ none

namespace Aggregate

variable {g : Aggregate}

theorem Keyed.mapKey_ne_none {k : MapKeyType} {e : Base} (hg : g.Keyed) (hshape : g.shape = .map k e)
    {c : Contribution} (hc : c ∈ g.contributions) : c.mapKey ≠ none := by
  intro hnone
  have hkey := hg c hc
  rw [hnone, hshape] at hkey
  contradiction

theorem Distinct.nodup (hg : g.Distinct) (hsome : ∀ c ∈ g.contributions, c.mapKey ≠ none) :
    (g.contributions.map Contribution.mapKey).Nodup := by
  have hkeys : (g.contributions.filterMap Contribution.mapKey).map some =
      g.contributions.map Contribution.mapKey := by
    rw [List.map_filterMap]
    refine List.filterMap_eq_map_iff_forall_eq_some.mpr fun c hc => ?_
    obtain ⟨k, hk⟩ := Option.ne_none_iff_exists'.mp (hsome c hc)
    rw [hk]
    rfl
  rw [← hkeys]
  exact List.Nodup.map (fun _ _ => Option.some.inj) hg

end Aggregate

section Entries

variable {i : InjectorId} {a : Ident} {g : Aggregate} {events : List Event} {x : Instance}

theorem mapKeys_of_drawn {cs : List (Contribution × Nat)} {os : List (Option MapKey × Object)}
    (h : List.Forall₂ (Drawn i a events) cs os) :
    os.map Prod.fst = cs.map fun c => c.1.mapKey := by
  induction h with
  | nil => rfl
  | cons hdrawn _ ih => rw [List.map_cons, List.map_cons, hdrawn.mapKey, ih]

/-- Nothing that was yielded for a contribution to a map is lost or overwritten. -/
theorem Composed.mapOf {k : MapKeyType} {e : Base} (hshape : g.shape = .map k e) (hkeyed : g.Keyed)
    (hdistinct : g.Distinct) (h : Composed i a g events x) : MapOf i a g events x := by
  obtain ⟨id, os, hos, rfl⟩ := h
  have hkeys : os.map Prod.fst = g.contributions.map Contribution.mapKey :=
    calc os.map Prod.fst
      _ = g.contributions.zipIdx.map fun c => c.1.mapKey := mapKeys_of_drawn hos
      _ = (g.contributions.zipIdx.map Prod.fst).map Contribution.mapKey := List.map_map.symm
      _ = g.contributions.map Contribution.mapKey := by rw [List.zipIdx_map_fst]
  have hsome : ∀ o ∈ os, o.1 ≠ none := by
    intro o ho
    have hmem : o.1 ∈ g.contributions.map Contribution.mapKey := hkeys ▸ List.mem_map_of_mem ho
    obtain ⟨c, hc, hck⟩ := List.mem_map.mp hmem
    exact hck ▸ hkeyed.mapKey_ne_none hshape hc
  have hnodup : (os.map Prod.fst).Nodup := by
    rw [hkeys]
    exact hdistinct.nodup fun c => hkeyed.mapKey_ne_none hshape
  have hgather : Aggregate.gather g.shape os = os := by
    rw [hshape]
    exact Aggregate.foldl_enter_fresh hsome hnodup
  exact ⟨id, os, by rw [hgather], hos, hnodup, hsome⟩

end Entries

namespace World

/-- In whatever state a builder is, under no map key of an aggregate there are two contributions. If none is
accepted before the last override is declared, the one that stands under a map key is the one that overrides
all others that were accepted under it, at the place of the first of them. So what is resolved for a map,
nested or not, has one entry for each contribution that stands, with its map key and the value that is
yielded for it on the way; or it was kept, and has had such entries from when it was put together. -/
theorem map_entries_kept (config : Config) (ops : List Operation) :
    let b := (Operation.runAll (.withConfig config) ops).2
    let news := fun a => Operation.contributed a (.withConfig config) ops
    (∀ a g, b.at? a = some (.aggregate g) → g.Distinct) ∧
    (∀ a g first rest, b.at? a = some (.aggregate g) → ops = first ++ rest →
      Operation.contributed a (.withConfig config) first = [] →
      (∀ op ∈ rest, ∀ x y, op ≠ .declareOverride x y) →
        g.contributions.filterMap Contribution.mapKey =
          ((news a).filterMap Contribution.mapKey).eraseDups ∧
        (b.overrides.Acyclic →
          ∀ k c, g.at? k = some c ↔ Aggregate.Prevails b.overrides k (news a) c)) ∧
    ∀ key g k e r i w, (∀ op ∈ ops, op.Typed) →
      b.at? key.ident = some (.aggregate g) → g.shape = .map k e → b.finalized = some r →
      w.Reachable → w.registry i = r →
        (∀ x, .yielded i (.binding key.ident) x ∈ w.events → MapOf i key.ident g w.events x) ∧
        ∀ x v, resolve i key w = .ok x v →
          w.slot i (.binding key.ident) = some (.ready x) ∧ MapOf i key.ident g w.events x ∨
            ∃ new, v.events = new ++ w.events ∧ MapOf i key.ident g new x := by
  intro b news
  have hdistinct : ∀ a g, b.at? a = some (.aggregate g) → g.Distinct :=
    fun a g hg => Builder.distinct_runAll hg
  refine ⟨hdistinct, fun a g first rest hg hops hfirst hrest => ?_,
    fun key g k e r i w hwell hg hshape hr hw hi => ?_⟩
  · subst hops
    have hgrow := Operation.grow_contributed hg hfirst hrest
    exact ⟨Aggregate.mapKeys_grow hgrow,
      fun hacyclic => Aggregate.at?_grow hacyclic (hdistinct a g hg) hgrow⟩
  · have htyped : r.WellTyped := Registry.Frozen.wellTyped ⟨config, ops, hwell, hr⟩
    have hbound : (w.registry i).at? key.ident = some (.aggregate g) := by
      rw [hi, Operation.at?_of_finalized hr]
      exact Builder.view_eq_aggregate.mpr hg
    have hkey : key.ident.type ≠ .injector := by
      rw [(htyped.aggregate (hi ▸ hbound)).1]
      simp
    have hmap : ∀ {events x}, Composed i key.ident g events x → MapOf i key.ident g events x :=
      fun h => h.mapOf hshape (htyped.keyed (hi ▸ hbound)) (hdistinct _ g hg)
    refine ⟨fun x hx => hmap (hw.composed_of_yielded hkey hbound hx), fun x v hx => ?_⟩
    exact (hw.composed_of_resolve hkey hbound hx).imp (.imp_right hmap)
      fun ⟨new, hnew, h⟩ => ⟨new, hnew, hmap h⟩

def voteKey : Key := ⟨⟨"Votes", .collection (.map .str .alpha)⟩, none⟩

def voteOf (type : ModuleType) (k text : String) : Contribution :=
  ⟨⟨.fixed ⟨.fixed 0, .alpha text, []⟩, none⟩, .module (Builder.plainModule type), some (.str k)⟩

/-- One module overrides two others, which contribute before it and after it. -/
def voteOperations : List Operation :=
  [.declareOverride (Builder.plainModule .b) (Builder.plainModule .a),
    .declareOverride (Builder.plainModule .b) (Builder.plainModule .c),
    .declareAggregate voteKey (.map .str .alpha)] ++
  ([voteOf .a "x" "replaced", voteOf .a "y" "alone", voteOf .b "x" "kept", voteOf .c "x" "ignored"].map
    (Contribution.operation voteKey) ++ [.finalize])

def voteMap : Aggregate where
  shape := .map .str .alpha
  scope := ({} : Config).defaultScope
  contributions := [voteOf .b "x" "kept", voteOf .a "y" "alone"].map
    (·.withDefaultScope ({} : Config).defaultScope)

def voteInjector : Injector where
  registry := { entries := { entries := [(voteKey, .aggregate voteMap)] } }

/-- The value of the overriding module is the first entry, where that of the overridden one was put. -/
theorem map_entries_kept_vote :
    let b := (Operation.runAll (.withConfig {}) voteOperations).2
    let w := ({} : World).addInjector "main" voteInjector
    b.at? voteKey.ident = some (.aggregate voteMap) ∧
      (∃ c, c.source = .module (Builder.plainModule .b) ∧ Aggregate.Prevails b.overrides (.str "x")
        (Operation.contributed voteKey.ident (.withConfig {}) voteOperations) c) ∧
      ∃ x v, resolve 0 voteKey w = .ok x v ∧
        x.content = .collection (.map .str .alpha)
          [(some (.str "x"), .alpha "kept"), (some (.str "y"), .alpha "alone")] ∧
        ∃ new, v.events = new ++ w.events ∧ MapOf 0 voteKey.ident voteMap new x := by
  intro b w
  have hwell : ∀ op ∈ voteOperations, op.Typed := by
    simp [voteOperations, voteOf, Contribution.operation, Operation.Typed, voteKey, Collection.keyType?,
      MapKey.type]
  have hfinal : (Operation.runAll (.withConfig {}) voteOperations).2.finalized =
      some voteInjector.registry := by cbv
  have hat : (Operation.runAll (.withConfig {}) voteOperations).2.at? voteKey.ident =
      some (.aggregate voteMap) := by cbv
  have hgraph : (Operation.runAll (.withConfig {}) voteOperations).2.overrides =
      OverrideGraph.declare (OverrideGraph.declare [] (Builder.plainModule .b) (Builder.plainModule .a))
        (Builder.plainModule .b) (Builder.plainModule .c) := by cbv
  have hacyclic : b.overrides.Acyclic := hgraph.symm ▸ Builder.acyclic_contested
  obtain ⟨_, hprevails, hentries⟩ := map_entries_kept {} voteOperations
  obtain ⟨_, hstands⟩ := hprevails voteKey.ident voteMap _ _ hat rfl (by cbv)
    (by simp [voteOf, Contribution.operation])
  have hreachable : w.Reachable := Relation.ReflTransGen.single
    (.inject "main" ⟨{}, voteOperations, hwell, hfinal⟩ rfl)
  obtain ⟨_, hresolved⟩ := hentries voteKey voteMap .str .alpha _ 0 w hwell hat rfl hfinal hreachable rfl
  have hanswer : answer? (resolve 0 voteKey (({} : World).addInjector "main" voteInjector)) =
      some (.collection (.map .str .alpha)
        [(some (.str "x"), .alpha "kept"), (some (.str "y"), .alpha "alone")]) := by decide +kernel
  obtain ⟨x, v, hx, hcontent⟩ := answer?_eq_some.mp hanswer
  refine ⟨hat, ⟨_, ?_, (hstands hacyclic _ _).mp rfl⟩, x, v, hx, hcontent, ?_⟩
  · rfl
  · exact (hresolved x v hx).resolve_left fun hkept => by cases hkept.1

end World

end Wiring
