import Wiring.Module.Build
import Wiring.Proofs.Sorting
import Wiring.Proofs.Registry.Freeze

set_option autoImplicit false

namespace Wiring

open Relation OverrideGraph

namespace Module

theorem nodup_add {ms : List Module} (h : (ms.map Module.id).Nodup) (m : Module) :
    ((add ms m).map Module.id).Nodup := by
  unfold add
  split
  · exact h
  · rename_i hm
    rw [List.map_append, List.nodup_append]
    refine ⟨h, by simp, fun a ha b hb hab => hm ?_⟩
    obtain ⟨x, hx, rfl⟩ := List.mem_map.mp ha
    rw [List.map_singleton, List.mem_singleton] at hb
    exact List.any_eq_true.mpr ⟨x, hx, by simp [hab, hb]⟩

theorem nodup_kept (ms : List Module) : ((kept ms).map Module.id).Nodup := by
  have general : ∀ ms done : List Module, (done.map Module.id).Nodup →
      ((ms.foldl add done).map Module.id).Nodup := by
    intro ms
    induction ms with
    | nil => exact fun _ h => h
    | cons m rest ih => exact fun done h => ih _ (nodup_add h m)
  exact general ms [] List.nodup_nil

theorem kept_eq_self {ms : List Module} (h : (ms.map Module.id).Nodup) : kept ms = ms := by
  have general : ∀ ms done : List Module, ((done ++ ms).map Module.id).Nodup →
      ms.foldl add done = done ++ ms := by
    intro ms
    induction ms with
    | nil => simp
    | cons m rest ih =>
      intro done h
      have hfresh : ¬ done.any (fun x => x.id = m.id) = true := by
        intro hm
        obtain ⟨x, hx, hid⟩ := List.any_eq_true.mp hm
        rw [List.map_append, List.nodup_append] at h
        exact h.2.2 _ (List.mem_map_of_mem hx) _ (List.mem_map_of_mem List.mem_cons_self)
          (by simpa using hid)
      have happ : done ++ m :: rest = (done ++ [m]) ++ rest := by simp
      rw [happ] at h ⊢
      rw [List.foldl_cons, add, if_neg hfresh]
      exact ih _ h
  simpa [kept] using general ms [] h

end Module

namespace Assembly

variable {ms : List Module}

/-- Of two modules in a list, the first names the type of the second. -/
def Overrides (ms : List Module) (m n : ModuleId) : Prop :=
  ∃ x ∈ ms, ∃ y ∈ ms, x.id = m ∧ y.id = n ∧ y.id.type ∈ x.overrides

def Supersedes (ms : List Module) (s t : Source) : Prop :=
  ∃ m n, s = .module m ∧ t = .module n ∧ TransGen (Overrides ms) m n

theorem overrides_perm {ns : List Module} (h : ms.Perm ns) : Overrides ms = Overrides ns := by
  funext m n
  simp only [Overrides, h.mem_iff]

theorem mem_overriders {i j : Nat} : j ∈ overriders ms i ↔
    ∃ x y, ms[j]? = some x ∧ ms[i]? = some y ∧ y.id.type ∈ x.overrides := by
  simp only [overriders, List.mem_filter, List.mem_range, overriddenBy]
  constructor
  · rintro ⟨_, h⟩
    cases hi : ms[i]? with
    | none => simp [hi] at h
    | some y =>
      cases hj : ms[j]? with
      | none => simp [hi, hj] at h
      | some x => exact ⟨x, y, rfl, rfl, by simpa [hi, hj] using h⟩
  · rintro ⟨x, y, hj, hi, ht⟩
    refine ⟨(List.getElem?_eq_some_iff.mp hj).1, ?_⟩
    simpa [hi, hj] using ht

theorem bounded_overriders (ms : List Module) : Sorting.Bounded ms.length (overriders ms) where
  nodup _ := List.nodup_range.filter _
  lt := by
    intro i j h
    obtain ⟨x, y, hj, hi, _⟩ := mem_overriders.mp h
    exact ⟨(List.getElem?_eq_some_iff.mp hi).1, (List.getElem?_eq_some_iff.mp hj).1⟩

theorem overrides_of_overriders {i j : Nat} (h : j ∈ overriders ms i) :
    ∃ x y, ms[j]? = some x ∧ ms[i]? = some y ∧ Overrides ms x.id y.id := by
  obtain ⟨x, y, hj, hi, ht⟩ := mem_overriders.mp h
  exact ⟨x, y, hj, hi, x, List.mem_of_getElem? hj, y, List.mem_of_getElem? hi, rfl, rfl, ht⟩

theorem transGen_ids {i j : Nat} (h : TransGen (fun a b => b ∈ overriders ms a) i j) :
    ∃ x y, ms[j]? = some x ∧ ms[i]? = some y ∧ TransGen (Overrides ms) x.id y.id := by
  induction h with
  | single h =>
    obtain ⟨x, y, hj, hi, ho⟩ := overrides_of_overriders h
    exact ⟨x, y, hj, hi, .single ho⟩
  | tail _ h ih =>
    obtain ⟨x, y, hb, hi, hxy⟩ := ih
    obtain ⟨z, x', hc, hb', ho⟩ := overrides_of_overriders h
    rw [hb] at hb'
    cases hb'
    exact ⟨z, y, hc, hi, .head ho hxy⟩

theorem index_unique (hn : (ms.map Module.id).Nodup) {i j : Nat} {x y : Module}
    (hi : ms[i]? = some x) (hj : ms[j]? = some y) (h : x.id = y.id) : i = j := by
  have hil : i < (ms.map Module.id).length := by
    simpa using (List.getElem?_eq_some_iff.mp hi).1
  refine (List.getElem?_inj hil hn).mp ?_
  rw [List.getElem?_map, List.getElem?_map, hi, hj, Option.map_some, Option.map_some, h]

theorem transGen_numbers (hn : (ms.map Module.id).Nodup) {m n : ModuleId}
    (h : TransGen (Overrides ms) m n) {i j : Nat} {x y : Module} (hj : ms[j]? = some x)
    (hx : x.id = m) (hi : ms[i]? = some y) (hy : y.id = n) :
    TransGen (fun a b => b ∈ overriders ms a) i j := by
  have number : ∀ {m n}, Overrides ms m n → ∃ i j, (∃ x, ms[j]? = some x ∧ x.id = m) ∧
      (∃ y, ms[i]? = some y ∧ y.id = n) ∧ j ∈ overriders ms i := by
    rintro m n ⟨x, hx, y, hy, hxm, hyn, ht⟩
    obtain ⟨j, hj⟩ := List.mem_iff_getElem?.mp hx
    obtain ⟨i, hi⟩ := List.mem_iff_getElem?.mp hy
    exact ⟨i, j, ⟨x, hj, hxm⟩, ⟨y, hi, hyn⟩, mem_overriders.mpr ⟨x, y, hj, hi, ht⟩⟩
  induction h generalizing i y with
  | single h =>
    obtain ⟨i', j', ⟨x', hj', hx'⟩, ⟨y', hi', hy'⟩, ho⟩ := number h
    cases index_unique hn hj hj' (hx.trans hx'.symm)
    cases index_unique hn hi hi' (hy.trans hy'.symm)
    exact .single ho
  | tail _ h ih =>
    obtain ⟨i', j', ⟨x', hj', hx'⟩, ⟨y', hi', hy'⟩, ho⟩ := number h
    cases index_unique hn hi hi' (hy.trans hy'.symm)
    exact .head ho (ih hj' hx')

/-- Modules can be sorted exactly if none overrides itself. -/
theorem sort_ordered_iff (hn : (ms.map Module.id).Nodup) :
    (∃ order, Sorting.sort ms.length (overriders ms) = .ordered order) ↔
      ∀ m, ¬ TransGen (Overrides ms) m m := by
  constructor
  · rintro ⟨order, ho⟩ m hm
    obtain ⟨hp, ht⟩ := Sorting.sort_eq_ordered (bounded_overriders ms) ho
    have hmem : ∃ x ∈ ms, x.id = m := by
      obtain ⟨_, ⟨x, hx, _, _, hxm, _⟩, _⟩ := TransGen.head'_iff.mp hm
      exact ⟨x, hx, hxm⟩
    obtain ⟨x, hx, hxm⟩ := hmem
    obtain ⟨i, hi⟩ := List.mem_iff_getElem?.mp hx
    have hin : i ∈ order :=
      hp.mem_iff.mpr (List.mem_range.mpr (List.getElem?_eq_some_iff.mp hi).1)
    exact ht.irrefl (hp.nodup_iff.mpr List.nodup_range) hin (transGen_numbers hn hm hi hxm hi hxm)
  · intro ha
    refine Sorting.sort_ordered (bounded_overriders ms) fun i hi => ?_
    obtain ⟨x, y, hx, hy, hxy⟩ := transGen_ids hi
    rw [hx] at hy
    cases hy
    exact ha _ hxy

def pick (ms : List Module) (order : List Nat) : List Module := order.filterMap fun i => ms[i]?

theorem pick_range (ms : List Module) : pick ms (List.range ms.length) = ms := by
  induction ms with
  | nil => rfl
  | cons m rest ih =>
    rw [pick, List.length_cons, List.range_succ_eq_map, List.filterMap_cons, List.filterMap_map]
    simpa [pick, Function.comp_def] using ih

theorem pick_ordered (hn : (ms.map Module.id).Nodup) {order : List Nat}
    (ho : Sorting.sort ms.length (overriders ms) = .ordered order) :
    (pick ms order).Perm ms ∧
      (pick ms order).Pairwise fun x y => ¬ TransGen (Overrides ms) x.id y.id := by
  obtain ⟨hp, ht⟩ := Sorting.sort_eq_ordered (bounded_overriders ms) ho
  refine ⟨?_, ?_⟩
  · have hall := hp.filterMap fun i => ms[i]?
    rwa [← pick, ← pick, pick_range] at hall
  · refine List.Pairwise.filterMap _ (fun i j hij x hx y hy hxy => ?_)
      (ht.pairwise (hp.nodup_iff.mpr List.nodup_range))
    exact hij (transGen_numbers hn hxy hx rfl hy rfl)

theorem mem_overrideOperations {op : Operation} : op ∈ overrideOperations ms ↔
    ∃ m n, op = .declareOverride m n ∧ Overrides ms m n := by
  simp only [overrideOperations, List.mem_flatMap, List.mem_range]
  constructor
  · rintro ⟨i, _, hop⟩
    cases hi : ms[i]? with
    | none => simp [hi] at hop
    | some y =>
      simp only [hi, List.mem_map, idsOf, List.mem_filterMap, Option.map_eq_some_iff] at hop
      obtain ⟨_, ⟨j, hj, x, hx, rfl⟩, rfl⟩ := hop
      obtain ⟨x', y', hx', hy', ho⟩ := overrides_of_overriders hj
      rw [hx] at hx'
      rw [hi] at hy'
      cases hx'
      cases hy'
      exact ⟨_, _, rfl, ho⟩
  · rintro ⟨m, n, rfl, x, hx, y, hy, rfl, rfl, ht⟩
    obtain ⟨j, hj⟩ := List.mem_iff_getElem?.mp hx
    obtain ⟨i, hi⟩ := List.mem_iff_getElem?.mp hy
    refine ⟨i, (List.getElem?_eq_some_iff.mp hi).1, ?_⟩
    simp only [hi, List.mem_map, idsOf, List.mem_filterMap, Option.map_eq_some_iff]
    exact ⟨x.id, ⟨j, mem_overriders.mpr ⟨x, y, hj, hi, ht⟩, x, hj, rfl⟩, rfl⟩

end Assembly

theorem Operation.applyAll_declarations {b : Builder} (hf : b.finalized = none)
    {ops : List Operation} (h : ∀ op ∈ ops, ∃ m n, op = .declareOverride m n) :
    ∃ left, applyAll b ops = (.ok (), ops, left) ∧ left.config = b.config ∧
      left.entries = b.entries ∧ left.finalized = none ∧
      ∀ m n, left.overrides.Overrides m n ↔
        b.overrides.Overrides m n ∨ .declareOverride m n ∈ ops := by
  induction ops generalizing b with
  | nil => exact ⟨b, rfl, rfl, rfl, hf, by simp⟩
  | cons op rest ih =>
    obtain ⟨x, y, rfl⟩ := h op List.mem_cons_self
    have hop : (declareOverride x y).apply b =
        (.ok (), { b with overrides := b.overrides.declare x y }) := by
      simp [apply, Builder.declareOverride, Builder.isFinalized, hf]
    obtain ⟨left, ha, hc, he, hl, ho⟩ := ih (b := { b with overrides := b.overrides.declare x y }) hf
      fun op hm => h op (List.mem_cons_of_mem _ hm)
    refine ⟨left, by simp only [applyAll, hop, ha], hc, he, hl, fun m n => ?_⟩
    rw [ho, overrides_declare]
    simp only [List.mem_cons, declareOverride.injEq]
    tauto

namespace Assembly

structure Declared (config : Config) (ms : List Module) (b : Builder) : Prop where
  config : b.config = config
  unfrozen : b.finalized = none
  overrides : b.overrides.Overrides = Overrides ms

theorem Declared.above_iff {config : Config} {ms : List Module} {b : Builder}
    (h : Declared config ms b) {s t : Source} : b.overrides.Above s t ↔ Supersedes ms s t := by
  rw [OverrideGraph.above_iff, h.overrides]
  rfl

theorem declare_overrides (config : Config) (ms : List Module) :
    ∃ left, Operation.applyAll (Builder.withConfig config) (overrideOperations ms) =
      (.ok (), overrideOperations ms, left) ∧ Declared config ms left ∧ left.entries = {} := by
  have hall : ∀ op ∈ overrideOperations ms, ∃ m n, op = .declareOverride m n := by
    intro op hm
    obtain ⟨m, n, hop, _⟩ := mem_overrideOperations.mp hm
    exact ⟨m, n, hop⟩
  obtain ⟨left, ha, hc, he, hl, ho⟩ :=
    Operation.applyAll_declarations (b := .withConfig config) rfl hall
  refine ⟨left, ha, ⟨hc, hl, ?_⟩, he⟩
  funext m n
  rw [ho, mem_overrideOperations]
  have hempty : ¬ (Builder.withConfig config).overrides.Overrides m n := by
    simp [Builder.withConfig, OverrideGraph.Overrides, targets, Table.get?]
  simp [hempty]

end Assembly

end Wiring
