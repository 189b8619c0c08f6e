import Mathlib.Data.List.Induction
import Wiring.Proofs.Module.Build

/-!
The order in which modules are configured.

Of the modules that are added the first of each identity is kept. Each of these is configured once, after
all those that it overrides. Among the orders in which this is so, the one that is taken is the least by the
positions at which the modules were added, so without overrides it is the order of addition.
-/

set_option autoImplicit false

namespace Wiring

open Relation

namespace Module

/-- The modules at positions before which none of the same identity was added. -/
def firstAdded (ms : List Module) : List Module :=
  (ms.zipIdx.filter fun e => (ms.take e.2).all fun x => x.id ≠ e.1.id).map Prod.fst

theorem firstAdded_snoc (ms : List Module) (m : Module) : firstAdded (ms ++ [m]) =
    firstAdded ms ++ if ms.all fun x => x.id ≠ m.id then [m] else [] := by
  have hold : (ms.zipIdx.filter fun e => ((ms ++ [m]).take e.2).all fun x => x.id ≠ e.1.id) =
      ms.zipIdx.filter fun e => (ms.take e.2).all fun x => x.id ≠ e.1.id := by
    refine List.filter_congr fun e he => ?_
    have hlt : e.2 < ms.length := by simpa using (List.mem_zipIdx' he).1
    rw [List.take_append_of_le_length (Nat.le_of_lt hlt)]
  rw [firstAdded, List.zipIdx_append, List.filter_append, hold, List.map_append, ← firstAdded]
  simp only [List.zipIdx_singleton, List.filter_singleton, Nat.zero_add, List.take_left']
  cases ms.all fun x => decide (x.id ≠ m.id) <;> rfl

theorem any_kept (ms : List Module) (id : ModuleId) :
    (kept ms).any (fun x => x.id = id) = ms.any (fun x => x.id = id) := by
  induction ms using List.reverseRecOn with
  | nil => rfl
  | append_singleton ms m ih =>
    rw [kept, List.foldl_append, ← kept, List.any_append, ← ih]
    simp only [List.foldl_cons, List.foldl_nil, add]
    split
    · rename_i hm
      by_cases hid : m.id = id
      · subst hid
        rw [hm, Bool.true_or]
      · simp [hid]
    · simp

theorem kept_eq_firstAdded (ms : List Module) : kept ms = firstAdded ms := by
  induction ms using List.reverseRecOn with
  | nil => rfl
  | append_singleton ms m ih =>
    rw [firstAdded_snoc, ← ih, kept, List.foldl_append, ← kept]
    simp only [List.foldl_cons, List.foldl_nil, add, any_kept]
    by_cases hm : ms.any (fun x => x.id = m.id)
    · have hall : ¬ ms.all (fun x => x.id ≠ m.id) := by simpa using hm
      rw [if_pos hm, if_neg hall, List.append_nil]
    · have hall : ms.all (fun x => x.id ≠ m.id) := by simpa using hm
      rw [if_neg hm, if_pos hall]

def configureAll : List Module → Builder → Configured
  | [], b => ⟨.ok (), [], [], b⟩
  | m :: rest, b =>
    let c := m.configure b
    match c.outcome with
    | .error _ => c
    | .ok _ =>
      let r := configureAll rest c.builder
      { r with notes := c.notes ++ r.notes, tried := c.tried ++ r.tried }

end Module

namespace Assembly

variable {ms : List Module} {order : List Nat}

def infoAmong (ms : List Module) (m : Module) : ModuleInfo :=
  { id := m.id
    name := m.name.getD m.id.text
    description := m.description
    overrides := (ms.filter fun y => m.overrides.contains y.id.type).map Module.id }

theorem idsOf_eq_pick (ms : List Module) (indexes : List Nat) :
    idsOf ms indexes = (pick ms indexes).map Module.id := by
  simp only [idsOf, pick, List.map_filterMap]

theorem pick_filter {p : Nat → Bool} {q : Module → Bool} (h : ∀ i y, ms[i]? = some y → p i = q y)
    (indexes : List Nat) : pick ms (indexes.filter p) = (pick ms indexes).filter q := by
  simp only [pick, List.filterMap_filter, List.filter_filterMap]
  refine List.filterMap_congr fun i _ => ?_
  cases hi : ms[i]? with
  | none => simp
  | some y => simp [h i y hi, Option.filter]

theorem infoOf_eq {index : Nat} {m : Module} (h : ms[index]? = some m) :
    infoOf ms index m = infoAmong ms m := by
  have hnames : ∀ i y, ms[i]? = some y →
      overriddenBy ms i index = m.overrides.contains y.id.type := by
    intro i y hi
    simp [overriddenBy, hi, h]
  simp only [infoOf, infoAmong, idsOf_eq_pick, pick_filter hnames, pick_range]

theorem applyInOrder_eq (ms : List Module) (b : Builder) (order : List Nat) :
    let r := applyInOrder ms b order
    let c := Module.configureAll (pick ms order) b
    r.notes = c.notes ∧ r.tried = c.tried ∧ r.builder = c.builder ∧
      match c.outcome with
      | .ok _ => r.outcome = .ok ((pick ms order).map (infoAmong ms))
      | .error e => ∃ m ∈ pick ms order, r.outcome = .error (.configure m.id e) := by
  induction order generalizing b with
  | nil => exact ⟨rfl, rfl, rfl, rfl⟩
  | cons index rest ih =>
    cases hm : ms[index]? with
    | none =>
      have hpick : pick ms (index :: rest) = pick ms rest := by simp [pick, hm]
      simp only [applyInOrder, hm, hpick]
      exact ih b
    | some m =>
      have hpick : pick ms (index :: rest) = m :: pick ms rest := by simp [pick, hm]
      simp only [applyInOrder, hm, hpick, Module.configureAll]
      cases ho : (m.configure b).outcome with
      | error e => exact ⟨rfl, rfl, rfl, by simp [ho]⟩
      | ok _ =>
        obtain ⟨hnotes, htried, hbuilder, houtcome⟩ := ih (m.configure b).builder
        dsimp only
        refine ⟨by rw [hnotes], by rw [htried], hbuilder, ?_⟩
        cases hc : (Module.configureAll (pick ms rest) (m.configure b).builder).outcome with
        | ok _ =>
          rw [hc] at houtcome
          dsimp only at houtcome ⊢
          rw [houtcome, infoOf_eq hm]
          rfl
        | error e =>
          rw [hc] at houtcome
          obtain ⟨x, hx, he⟩ := houtcome
          exact ⟨x, List.mem_cons_of_mem _ hx, by rw [he]; rfl⟩

/-- An order of all modules in which each one comes after those that it overrides, directly or through
others. -/
structure Admissible (ms : List Module) (order : List Nat) : Prop where
  perm : order.Perm (List.range ms.length)
  behind : ∀ before x after, pick ms order = before ++ x :: after →
    ∀ y ∈ ms, TransGen (Overrides ms) x.id y.id → y ∈ before

/-- The least of the orders in which modules can be configured, by the positions of addition. -/
structure Stable (ms : List Module) (order : List Nat) : Prop extends Admissible ms order where
  least : ∀ other, Admissible ms other → Sorting.NoLater order other

theorem mem_pick {x : Module} : x ∈ pick ms order ↔ ∃ i ∈ order, ms[i]? = some x := List.mem_filterMap

theorem Admissible.topological (hn : (ms.map Module.id).Nodup) (h : Admissible ms order) :
    Sorting.Topological (overriders ms) order := by
  intro before j after he i hj
  obtain ⟨x, y, hx, hy, ho⟩ := overrides_of_overriders hj
  have hpick : pick ms order = pick ms before ++ x :: pick ms after := by
    rw [he, pick, List.filterMap_append, List.filterMap_cons_some hx]
    rfl
  obtain ⟨i', hi', hy'⟩ := mem_pick.mp
    (h.behind _ _ _ hpick y (List.mem_of_getElem? hy) (.single ho))
  rwa [index_unique hn hy hy' rfl]

theorem admissible_of_topological (hn : (ms.map Module.id).Nodup)
    (hp : order.Perm (List.range ms.length)) (ht : Sorting.Topological (overriders ms) order) :
    Admissible ms order := by
  refine ⟨hp, fun before x after he y hy hxy => ?_⟩
  obtain ⟨front, rest, rfl, rfl, hrest⟩ := List.filterMap_eq_append_iff.mp he
  obtain ⟨skipped, j, back, rfl, hskipped, hj, rfl⟩ := List.filterMap_eq_cons_iff.mp hrest
  obtain ⟨i, hi⟩ := List.mem_iff_getElem?.mp hy
  have hij := transGen_numbers hn hxy hj rfl hi rfl
  have hmem : i ∈ front ++ skipped := ht.transGen hij (front ++ skipped) back (by simp)
  rcases List.mem_append.mp hmem with hm | hm
  · exact mem_pick.mpr ⟨i, hm, hi⟩
  · rw [hskipped i hm] at hi
    contradiction

theorem stable_of_sort (hn : (ms.map Module.id).Nodup)
    (h : Sorting.sort ms.length (overriders ms) = .ordered order) : Stable ms order := by
  have hb := bounded_overriders ms
  obtain ⟨hp, ht⟩ := Sorting.sort_eq_ordered hb h
  exact ⟨admissible_of_topological hn hp ht, fun other ho =>
    (Sorting.least_of_sort hb h).noLater hp ho.perm (ho.topological hn)⟩

theorem Stable.eq_range (h : Stable ms order) (hnone : ∀ m n, ¬ Overrides ms m n) :
    order = List.range ms.length := by
  have hnever : ∀ i j, j ∉ overriders ms i := by
    intro i j hj
    obtain ⟨x, y, _, _, ho⟩ := overrides_of_overriders hj
    exact hnone _ _ ho
  have hadmissible : Admissible ms (List.range ms.length) :=
    ⟨.refl _, fun _ _ _ _ _ _ hxy => absurd (TransGen.head'_iff.mp hxy) (by simp [hnone])⟩
  have hleast : Sorting.Least ms.length (overriders ms) (List.range ms.length) := by
    intro before i after he k hk hkb _
    have hmem : k ∈ List.range ms.length := List.mem_range.mpr hk
    have hsorted := List.pairwise_lt_range (n := ms.length)
    rw [he] at hmem hsorted
    rcases List.mem_cons.mp ((List.mem_append.mp hmem).resolve_left hkb) with rfl | hka
    · exact Nat.le_refl _
    · exact Nat.le_of_lt ((List.pairwise_cons.mp (List.pairwise_append.mp hsorted).2.1).1 k hka)
  exact (h.least _ hadmissible).antisymm
    (hleast.noLater (.refl _) h.perm fun _ _ _ _ i hi => absurd hi (hnever i _))

def declared (config : Config) (ms : List Module) : Builder :=
  (Operation.runAll (.withConfig config) (overrideOperations ms)).2

/-- Building was to declare all overrides and then to configure these modules one after another, which
none of them failed, and no others. -/
structure ConfiguredAs (config : Config) (ms xs : List Module) (built : Built) : Prop where
  outcome : (Module.configureAll xs (declared config ms)).outcome = .ok ()
  notes : built.notes = (Module.configureAll xs (declared config ms)).notes
  tried : built.tried = overrideOperations ms ++ (Module.configureAll xs (declared config ms)).tried

/-- Each of the modules is listed in turn, with the modules whose type it names, which are listed before. -/
structure Listed (ms xs : List Module) (infos : List ModuleInfo) : Prop where
  ids : infos.map ModuleInfo.id = xs.map Module.id
  overrides : ∀ before info after, infos = before ++ info :: after → ∃ x ∈ ms, x.id = info.id ∧
    (∀ n, n ∈ info.overrides ↔ ∃ y ∈ ms, y.id = n ∧ y.id.type ∈ x.overrides) ∧
    ∀ n ∈ info.overrides, n ∈ before.map ModuleInfo.id

theorem apply_of_sort (config : Config)
    (h : Sorting.sort ms.length (overriders ms) = .ordered order) :
    let r := applyInOrder ms (declared config ms) order
    (Assembly.mk config ms).apply = { r with tried := overrideOperations ms ++ r.tried } := by
  obtain ⟨left, ha, _⟩ := declare_overrides config ms
  have hleft : left = declared config ms := by
    have := Operation.applyAll_eq_runAll (.withConfig config) (overrideOperations ms)
    rwa [ha] at this
  simp only [apply, h, ha, hleft]

theorem build_of_sort (config : Config)
    (h : Sorting.sort ms.length (overriders ms) = .ordered order) :
    let built := (Assembly.mk config ms).build
    let c := Module.configureAll (pick ms order) (declared config ms)
    built.notes = c.notes ∧ built.tried = overrideOperations ms ++ c.tried ∧
      match c.outcome with
      | .error e => ∃ m ∈ pick ms order, built.outcome = .error (.configure m.id e)
      | .ok _ => built.outcome = match c.builder.finalize.1 with
        | .error e => .error (.bind e)
        | .ok registry => .ok { registry, modules := (pick ms order).map (infoAmong ms) } := by
  intro built c
  have happly := apply_of_sort config h
  obtain ⟨hnotes, htried, hbuilder, houtcome⟩ := applyInOrder_eq ms (declared config ms) order
  obtain ⟨hn, ht⟩ := build_notes (Assembly.mk config ms)
  refine ⟨?_, ?_, ?_⟩
  · rw [hn, happly]
    exact hnotes
  · rw [ht, happly]
    exact congrArg _ htried
  · cases hc : c.outcome with
    | error e =>
      rw [hc] at houtcome
      obtain ⟨m, hm, he⟩ := houtcome
      exact ⟨m, hm, by simp only [built, build, happly, he]⟩
    | ok _ =>
      rw [hc] at houtcome
      dsimp only at houtcome ⊢
      simp only [built, build, happly, houtcome, hbuilder]
      cases c.builder.finalize.1 <;> rfl

theorem listed_infoAmong (hp : (pick ms order).Perm ms) (h : Admissible ms order) :
    Listed ms (pick ms order) ((pick ms order).map (infoAmong ms)) := by
  refine ⟨by rw [List.map_map]; rfl, fun before info after he => ?_⟩
  obtain ⟨front, rest, hpick, rfl, hrest⟩ := List.map_eq_append_iff.mp he
  obtain ⟨x, back, rfl, rfl, rfl⟩ := List.map_eq_cons_iff.mp hrest
  have hx : x ∈ ms := hp.mem_iff.mp (by rw [hpick]; simp)
  have hover : ∀ n, n ∈ (infoAmong ms x).overrides ↔
      ∃ y ∈ ms, y.id = n ∧ y.id.type ∈ x.overrides := by
    intro n
    simp only [infoAmong, List.mem_map, List.mem_filter, List.contains_iff_mem]
    exact ⟨fun ⟨y, ⟨hy, ht⟩, hid⟩ => ⟨y, hy, hid, ht⟩, fun ⟨y, hy, hid, ht⟩ => ⟨y, ⟨hy, ht⟩, hid⟩⟩
  refine ⟨x, hx, rfl, hover, fun n hn => ?_⟩
  obtain ⟨y, hy, rfl, ht⟩ := (hover n).mp hn
  have hbefore := h.behind front x back hpick y hy (.single ⟨x, hx, y, hy, rfl, rfl, ht⟩)
  rw [List.map_map]
  exact List.mem_map_of_mem hbefore

/-- Modules are configured in the stable order. If none of those that are kept overrides itself and none
fails, exactly the first of each identity are configured, once each and each after all that it overrides, in
the least order for which this is so. A built injector lists them in this order. -/
theorem configured_in_stable_order (config : Config) (ms : List Module)
    (hacyclic : ∀ m, ¬ TransGen (Overrides (Module.kept ms)) m m)
    (hfine : ∀ m e, (ofModules config ms).build.outcome ≠ .error (.configure m e)) :
    Module.kept ms = Module.firstAdded ms ∧ ∃ order, Stable (Module.kept ms) order ∧
      (pick (Module.kept ms) order).Perm (Module.kept ms) ∧
      ((pick (Module.kept ms) order).map Module.id).Nodup ∧
      ConfiguredAs config (Module.kept ms) (pick (Module.kept ms) order) (ofModules config ms).build ∧
      ((∀ m n, ¬ Overrides (Module.kept ms) m n) → pick (Module.kept ms) order = Module.kept ms) ∧
      ∀ j, (ofModules config ms).build.outcome = .ok j →
        Listed (Module.kept ms) (pick (Module.kept ms) order) j.modules := by
  have hn := Module.nodup_kept ms
  obtain ⟨order, horder⟩ := (sort_ordered_iff hn).mpr hacyclic
  have hstable := stable_of_sort hn horder
  have hperm : (pick (Module.kept ms) order).Perm (Module.kept ms) := (pick_ordered hn horder).1
  obtain ⟨hnotes, htried, houtcome⟩ := build_of_sort config horder
  -- No module failed, for the error would have been that of building.
  have hok : (Module.configureAll (pick (Module.kept ms) order)
      (declared config (Module.kept ms))).outcome = .ok () := by
    cases hc : (Module.configureAll (pick (Module.kept ms) order)
        (declared config (Module.kept ms))).outcome with
    | ok _ => rfl
    | error e =>
      rw [hc] at houtcome
      obtain ⟨m, _, he⟩ := houtcome
      exact absurd he (hfine m.id e)
  rw [hok] at houtcome
  dsimp only at houtcome
  refine ⟨Module.kept_eq_firstAdded ms, order, hstable, hperm, (hperm.map _).nodup_iff.mpr hn,
    ⟨hok, hnotes, htried⟩, fun hnone => ?_, fun j hj => ?_⟩
  · rw [hstable.eq_range hnone, pick_range]
  · rw [ofModules, houtcome] at hj
    split at hj
    · contradiction
    · cases hj
      exact listed_infoAmong hperm hstable.toAdmissible

def layer (type : ModuleType) (overrides : List TypeId) : Module where
  id := ⟨.module type, .number 0⟩
  overrides := overrides

def layers : List Module := [layer .b [.module .a], layer .c [], layer .a [], layer .b []]

theorem sort_layers : Sorting.sort (Module.kept layers).length (overriders (Module.kept layers)) =
    .ordered [1, 2, 0] := by
  have hdrain : Sorting.drain (overriders (Module.kept layers))
      (Sorting.start 3 (overriders (Module.kept layers))) = some ([1, 2, 0], [0, 0, 0]) := by
    rw [Sorting.drain_cons rfl rfl, Sorting.drain_cons rfl rfl, Sorting.drain_cons rfl rfl,
      Sorting.drain_nil rfl]
    rfl
  rw [Sorting.sort, show (Module.kept layers).length = 3 from rfl, hdrain]
  rfl

/-- The overriding module is configured last, and the others in the order in which they were added. -/
theorem configured_in_stable_order_layers :
    (∀ m, ¬ TransGen (Overrides (Module.kept layers)) m m) ∧
    (∀ m e, (ofModules {} layers).build.outcome ≠ .error (.configure m e)) ∧
    Stable (Module.kept layers) [1, 2, 0] ∧
    ∃ j, (ofModules {} layers).build.outcome = .ok j ∧
      j.modules.map ModuleInfo.id = [(layer .c []).id, (layer .a []).id, (layer .b []).id] := by
  have hn := Module.nodup_kept layers
  have hacyclic := (sort_ordered_iff hn).mp ⟨_, sort_layers⟩
  have hstable := stable_of_sort hn sort_layers
  have hbuild : ∃ j, (ofModules {} layers).build.outcome = .ok j := by
    simp only [build, ofModules, apply_of_sort {} sort_layers]
    exact ⟨_, rfl⟩
  obtain ⟨j, hj⟩ := hbuild
  have hfine : ∀ m e, (ofModules {} layers).build.outcome ≠ .error (.configure m e) := by
    simp [hj]
  obtain ⟨_, order, horder, _, _, _, _, hlisted⟩ :=
    configured_in_stable_order {} layers hacyclic hfine
  have hsame : order = [1, 2, 0] :=
    (horder.least _ hstable.toAdmissible).antisymm (hstable.least _ horder.toAdmissible)
  subst hsame
  exact ⟨hacyclic, hfine, hstable, j, hj, (hlisted j hj).ids⟩

end Assembly

end Wiring
