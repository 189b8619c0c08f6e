import Mathlib.Data.List.Chain
import Mathlib.Data.List.Nodup
import Wiring.Proofs.Module.Build

/-!
Cycles among the modules of an assembly.

What sorting leaves over has a predecessor that is left over as well, so walking back from one to the next
comes to something that was visited before. The part of the walk from there on, turned round, is a cycle. It
is reported exactly if there is one, and before any module is configured.
-/

set_option autoImplicit false

namespace Wiring

open Relation

/-- A way along `r` that ends where it began and otherwise comes to nothing twice. -/
structure Ring {α : Type} (r : α → α → Prop) (path : List α) : Prop where
  two_le : 2 ≤ path.length
  closed : path.head? = path.getLast?
  nodup : path.dropLast.Nodup
  chain : path.IsChain r

namespace Ring

variable {α β : Type} {r : α → α → Prop} {s : β → β → Prop} {path : List α}

theorem of_chain {a : α} {rest : List α} (hn : (a :: rest).Nodup)
    (hc : (a :: rest ++ [a]).IsChain r) : Ring r (a :: rest ++ [a]) where
  two_le := by simp
  closed := by rw [List.getLast?_concat]; rfl
  nodup := by rwa [List.dropLast_concat]
  chain := hc

theorem imp {t : α → α → Prop} (h : Ring r path) (ht : ∀ {a b}, r a b → t a b) : Ring t path :=
  { h with chain := h.chain.imp fun _ _ => ht }

theorem map {f : α → β} (h : Ring r path) (hf : ∀ a ∈ path, ∀ b ∈ path, f a = f b → a = b)
    (hs : ∀ a ∈ path, ∀ b ∈ path, r a b → s (f a) (f b)) : Ring s (path.map f) where
  two_le := by simpa using h.two_le
  closed := by rw [List.head?_map, List.getLast?_map, h.closed]
  nodup := by
    rw [← List.map_dropLast]
    refine List.Nodup.map_on (fun a ha b hb => ?_) h.nodup
    exact hf a ((List.dropLast_sublist _).subset ha) b ((List.dropLast_sublist _).subset hb)
  chain := by
    rw [List.isChain_map]
    exact h.chain.imp_of_mem_imp fun a b ha hb => hs a ha b hb

end Ring

namespace Sorting

variable {n : Nat} {successors : Nat → List Nat} {predecessor : Nat → Option Nat}
  {left unvisited path : List Nat} {current p : Nat}

def previous (successors : Nat → List Nat) (left : List Nat) (i : Nat) : Option Nat :=
  left.find? fun j => i ∈ successors j

def turned (path : List Nat) (p : Nat) : List Nat :=
  let cycle := (path.dropWhile fun i => i ≠ p).reverse
  cycle ++ [cycle.headD p]

/-- A walk back that ends of itself: on the path it took, or where there is nothing to go on to. -/
inductive Walks (predecessor : Nat → Option Nat) : List Nat → Nat → Trail → Prop where
  | loose {path : List Nat} {current : Nat} :
      predecessor current = none → Walks predecessor path current (.loose path)
  | closed {path : List Nat} {current p : Nat} :
      predecessor current = some p → p ∈ path →
      Walks predecessor path current (.closed (turned path p))
  | on {path : List Nat} {current p : Nat} {trail : Trail} :
      predecessor current = some p → p ∉ path → Walks predecessor (path ++ [p]) p trail →
      Walks predecessor path current trail

structure Walking (predecessor : Nat → Option Nat) (left unvisited path : List Nat)
    (current : Nat) : Prop where
  subset : ∀ i ∈ path, i ∈ left
  covered : ∀ i ∈ left, i ∈ path ∨ i ∈ unvisited
  nodup : path.Nodup
  chain : path.IsChain fun a b => predecessor a = some b
  last : path.getLast? = some current

theorem Walking.mem (h : Walking predecessor left unvisited path current) : current ∈ left :=
  h.subset current (List.mem_of_getLast? h.last)

theorem walking_start {start : Nat} {rest : List Nat} :
    Walking predecessor (start :: rest) rest [start] start where
  subset := by simp
  covered := by simp
  nodup := List.nodup_singleton _
  chain := List.isChain_singleton _
  last := rfl

theorem Walking.on (h : Walking predecessor left unvisited path current)
    (hp : predecessor current = some p) (hpath : p ∉ path) (hl : p ∈ left) :
    Walking predecessor left (unvisited.erase p) (path ++ [p]) p where
  subset i hi := by
    rcases List.mem_append.mp hi with hi | hi
    · exact h.subset i hi
    · rwa [List.mem_singleton.mp hi]
  covered i hi := by
    by_cases hip : i = p
    · exact .inl (by simp [hip])
    · exact (h.covered i hi).imp (List.mem_append_left _) (List.mem_erase_of_ne hip).mpr
  nodup := List.nodup_append.mpr ⟨h.nodup, List.nodup_singleton _, by
    rintro a ha _ hb rfl
    exact hpath (List.mem_singleton.mp hb ▸ ha)⟩
  chain := by
    refine h.chain.append (List.isChain_singleton _) fun a ha b hb => ?_
    rw [h.last, Option.mem_some_iff] at ha
    rw [List.head?_singleton, Option.mem_some_iff] at hb
    rw [← ha, ← hb, hp]
  last := by simp

theorem mem_turned {i : Nat} (hp : p ∈ path) (hi : i ∈ turned path p) : i ∈ path := by
  rcases List.mem_append.mp hi with hi | hi
  · exact (List.dropWhile_suffix _).subset (List.mem_reverse.mp hi)
  · rw [List.mem_singleton.mp hi, List.headD_eq_head?_getD]
    cases hc : (path.dropWhile fun i => i ≠ p).reverse.head? with
    | none => exact hp
    | some j =>
      exact (List.dropWhile_suffix _).subset (List.mem_reverse.mp (List.mem_of_head? hc))

/-- A walk that comes back to its path has gone round a cycle, against the direction of the precedence. -/
theorem Walking.turned_ring (h : Walking predecessor left unvisited path current)
    (hp : predecessor current = some p) (hpath : p ∈ path) :
    Ring (fun a b => predecessor b = some a) (turned path p) := by
  obtain ⟨front, back, rfl⟩ := List.append_of_mem hpath
  have hfront : ∀ i ∈ front, i ≠ p := by
    rintro i hi rfl
    exact (List.nodup_append.mp h.nodup).2.2 i hi i List.mem_cons_self rfl
  have hdrop : (front ++ p :: back).dropWhile (fun i => i ≠ p) = p :: back := by
    rw [List.dropWhile_append_of_pos (by simpa using hfront)]
    simp
  obtain ⟨init, hinit⟩ : ∃ init, p :: back = init ++ [current] := by
    have hlast := h.last
    rw [List.getLast?_append_of_ne_nil _ (List.cons_ne_nil _ _)] at hlast
    exact List.getLast?_eq_some_iff.mp hlast
  have hturned : turned (front ++ p :: back) p = current :: init.reverse ++ [current] := by
    rw [turned, hdrop, hinit]
    simp
  rw [hturned]
  have hsuffix : (init ++ [current]).Sublist (front ++ p :: back) :=
    hinit ▸ List.sublist_append_right _ _
  refine .of_chain ?_ ?_
  · have := List.nodup_reverse.mpr (hsuffix.nodup h.nodup)
    simpa using this
  · have hchain : (current :: p :: back).IsChain fun a b => predecessor a = some b := by
      refine List.isChain_cons.mpr ⟨by simpa using hp, h.chain.right_of_append⟩
    rw [hinit] at hchain
    have := List.isChain_reverse.mpr hchain
    simpa using this

/-- A walk back over things that all have a predecessor among them closes. It is not cut short by the
count of what was not visited yet. -/
theorem walkBack_closed (hp : ∀ k ∈ left, ∃ p ∈ left, predecessor k = some p)
    (h : Walking predecessor left unvisited path current) :
    ∃ cycle, walkBack predecessor unvisited path current = .closed cycle ∧
      Walks predecessor path current (.closed cycle) ∧
      Ring (fun a b => predecessor b = some a) cycle ∧ ∀ i ∈ cycle, i ∈ left := by
  fun_induction walkBack predecessor unvisited path current with
  | case1 unvisited path current hnone =>
    obtain ⟨p, _, hsome⟩ := hp current h.mem
    rw [hnone] at hsome
    contradiction
  | case2 unvisited path current p hsome hpath =>
    exact ⟨_, rfl, .closed hsome hpath, h.turned_ring hsome hpath,
      fun i hi => h.subset i (mem_turned hpath hi)⟩
  | case3 unvisited path current p hsome hpath _ ih =>
    obtain ⟨q, hq, hcq⟩ := hp current h.mem
    cases hsome.symm.trans hcq
    obtain ⟨cycle, hw, hwalks, hring⟩ := ih (h.on hsome hpath hq)
    exact ⟨cycle, hw, .on hsome hpath hwalks, hring⟩
  | case4 unvisited path current p hsome hpath hun =>
    obtain ⟨q, hq, hcq⟩ := hp current h.mem
    cases hsome.symm.trans hcq
    exact absurd (h.covered p hq) (by simp [hpath, hun])

structure Found (n : Nat) (successors : Nat → List Nat) (trail : Trail) (cycle : List Nat) :
    Prop where
  closed : trail = .closed cycle
  walks : ∃ start rest, leftOver n successors = start :: rest ∧
    Walks (previous successors (leftOver n successors)) [start] start trail
  ring : Ring (fun a b => b ∈ successors a) cycle

theorem found_of_sort (hb : Bounded n successors) {trail : Trail}
    (h : sort n successors = .cyclic trail) :
    ∃ cycle, Found n successors trail cycle ∧ ∀ i ∈ cycle, i < n := by
  rcases sort_cases hb with ⟨order, ho, _⟩ | ⟨hc, hne, hpre⟩
  · rw [h] at ho
    contradiction
  · rw [h, Result.cyclic.injEq] at hc
    have hprevious : ∀ k ∈ leftOver n successors, ∃ p ∈ leftOver n successors,
        previous successors (leftOver n successors) k = some p := by
      intro k hk
      obtain ⟨q, hq, hkq⟩ := hpre k hk
      have hsome : (previous successors (leftOver n successors) k).isSome :=
        List.find?_isSome.mpr ⟨q, hq, by simpa using hkq⟩
      obtain ⟨p, hp⟩ := Option.isSome_iff_exists.mp hsome
      exact ⟨p, List.mem_of_find?_eq_some hp, hp⟩
    obtain ⟨first, rest, hleft⟩ := List.exists_cons_of_ne_nil hne
    have hwalking : Walking (previous successors (leftOver n successors)) (leftOver n successors)
        rest [first] first := by
      rw [hleft]
      exact walking_start
    obtain ⟨cycle, hw, hwalks, hring, hsub⟩ := walkBack_closed hprevious hwalking
    have hfind : findCycle successors (leftOver n successors) =
        walkBack (previous successors (leftOver n successors)) rest [first] first := by
      rw [hleft]
      rfl
    have htrail : trail = .closed cycle := hc.trans (hfind.trans hw)
    refine ⟨cycle, ⟨htrail, ⟨first, rest, hleft, htrail ▸ hwalks⟩, hring.imp fun ha => ?_⟩,
      fun i hi => ?_⟩
    · simpa using List.find?_some ha
    · obtain ⟨q, _, hiq⟩ := hpre i (hsub i hi)
      exact (hb.lt hiq).2

end Sorting

namespace Module

def head (m : Module) : ModuleId × List TypeId := (m.id, m.overrides)

end Module

namespace Assembly

variable {ms ns : List Module} {a : Assembly}

theorem overriddenBy_congr (h : ms.map Module.head = ns.map Module.head) :
    overriddenBy ms = overriddenBy ns := by
  have hover : ∀ (ms : List Module) (i j : Nat), overriddenBy ms i j =
      ((ms.map Module.head)[i]?.bind fun x => (ms.map Module.head)[j]?.map fun y =>
        y.2.contains x.1.type).getD false := by
    intro ms i j
    rw [overriddenBy, List.getElem?_map, List.getElem?_map]
    cases ms[i]? <;> cases ms[j]? <;> rfl
  funext i j
  rw [hover, hover, h]

theorem overriders_congr (h : ms.map Module.head = ns.map Module.head) :
    overriders ms = overriders ns := by
  funext i
  have hlen : ms.length = ns.length := by simpa using congrArg List.length h
  rw [overriders, overriders, overriddenBy_congr h, hlen]

theorem idsOf_congr (h : ms.map Module.head = ns.map Module.head) (indexes : List Nat) :
    idsOf ms indexes = idsOf ns indexes := by
  have hids : ∀ ms : List Module,
      idsOf ms indexes = indexes.filterMap fun i => (ms.map Module.head)[i]?.map Prod.fst := by
    intro ms
    simp only [idsOf, List.getElem?_map, Option.map_map]
    rfl
  rw [hids, hids, h]

theorem ring_idsOf (hn : (ms.map Module.id).Nodup) {path : List Nat}
    (h : Ring (fun i j => j ∈ overriders ms i) path) (hlt : ∀ i ∈ path, i < ms.length) :
    Ring (fun m n => Overrides ms n m) (idsOf ms path) := by
  obtain ⟨d, hd⟩ : ∃ d : Module, d ∈ ms := by
    obtain ⟨i, hi⟩ := List.exists_mem_of_length_pos (Nat.lt_of_lt_of_le Nat.zero_lt_two h.two_le)
    exact ⟨ms.get ⟨i, hlt i hi⟩, List.get_mem _ _⟩
  have hget : ∀ i ∈ path, ms[i]? = some (ms[i]?.getD d) := by
    intro i hi
    rw [List.getElem?_eq_getElem (hlt i hi)]
    rfl
  have hids : idsOf ms path = path.map fun i => (ms[i]?.getD d).id := by
    rw [idsOf, ← List.filterMap_eq_map]
    refine List.filterMap_congr fun i hi => ?_
    rw [hget i hi]
    rfl
  rw [hids]
  refine h.map (fun i hi j hj hij => index_unique hn (hget i hi) (hget j hj) hij)
    fun i hi j hj hij => ?_
  obtain ⟨x, y, hx, hy, ho⟩ := overrides_of_overriders hij
  cases (hget j hj).symm.trans hx
  cases (hget i hi).symm.trans hy
  exact ho

theorem build_of_cyclic {trail : Sorting.Trail}
    (h : Sorting.sort a.modules.length (overriders a.modules) = .cyclic trail) :
    a.build = ⟨.error (.cycle (idsOf a.modules trail.path)), [], []⟩ := by
  simp only [build, apply, h]

theorem cyclic_of_build {path : List ModuleId} (h : a.build.outcome = .error (.cycle path)) :
    ∃ trail, Sorting.sort a.modules.length (overriders a.modules) = .cyclic trail := by
  cases hs : Sorting.sort a.modules.length (overriders a.modules) with
  | cyclic trail => exact ⟨trail, rfl⟩
  | overdrawn => exact absurd hs (Sorting.sort_ne_overdrawn (bounded_overriders a.modules))
  | ordered order =>
    obtain ⟨left, ha, _⟩ := declare_overrides a.config a.modules
    obtain ⟨_, _, herror⟩ := applyInOrder_spec a.modules left order
    simp only [build, apply, hs, ha] at h
    cases ho : (applyInOrder a.modules left order).outcome with
    | error e =>
      obtain ⟨m, cause, rfl⟩ := herror e ho
      simp [ho] at h
    | ok infos =>
      simp only [ho] at h
      split at h <;> simp at h

/-- Building fails with a cycle exactly if a kept module overrides itself, directly or through others. What
is reported is a cycle along which each module is overridden by the next, and it comes to that whatever the
modules would do when configured. Sorting takes nothing off a degree of zero, and its search for a cycle
always closes. -/
theorem cycle_iff_reported (config : Config) (ms : List Module) :
    ((∃ path, (ofModules config ms).build.outcome = .error (.cycle path)) ↔
      ∃ m, TransGen (Overrides (Module.kept ms)) m m) ∧
    (∀ path, (ofModules config ms).build.outcome = .error (.cycle path) →
      Ring (fun m n => Overrides (Module.kept ms) n m) path ∧
      ∀ a : Assembly, a.modules.map Module.head = (Module.kept ms).map Module.head →
        a.build = ⟨.error (.cycle path), [], []⟩) ∧
    Sorting.sort (Module.kept ms).length (overriders (Module.kept ms)) ≠ .overdrawn ∧
    ∀ trail, Sorting.sort (Module.kept ms).length (overriders (Module.kept ms)) = .cyclic trail →
      ∃ cycle, Sorting.Found (Module.kept ms).length (overriders (Module.kept ms)) trail cycle := by
  have hn := Module.nodup_kept ms
  have hb := bounded_overriders (Module.kept ms)
  have hsort := Sorting.sort_ne_overdrawn hb
  refine ⟨⟨fun ⟨path, h⟩ => ?_, fun ⟨m, hm⟩ => ?_⟩, fun path h => ?_, hsort, fun trail h => ?_⟩
  · obtain ⟨trail, ht⟩ := cyclic_of_build h
    by_contra hnone
    obtain ⟨order, ho⟩ := (sort_ordered_iff hn).mpr fun m hm => hnone ⟨m, hm⟩
    cases ht.symm.trans ho
  · cases hs : Sorting.sort (Module.kept ms).length (overriders (Module.kept ms)) with
    | ordered order => exact absurd hm ((sort_ordered_iff hn).mp ⟨order, hs⟩ m)
    | overdrawn => exact absurd hs hsort
    | cyclic trail =>
      have hbuild := build_of_cyclic (a := ofModules config ms) hs
      exact ⟨_, by rw [hbuild]⟩
  · obtain ⟨trail, ht⟩ := cyclic_of_build h
    have hbuild := build_of_cyclic ht
    rw [hbuild] at h
    cases h
    obtain ⟨cycle, hfound, hlt⟩ := Sorting.found_of_sort hb ht
    refine ⟨?_, fun a ha => ?_⟩
    · rw [hfound.closed]
      exact ring_idsOf hn hfound.ring hlt
    · have hlen : a.modules.length = (Module.kept ms).length := by
        simpa using congrArg List.length ha
      have hsame : Sorting.sort a.modules.length (overriders a.modules) = .cyclic trail := by
        rw [hlen, overriders_congr ha]
        exact ht
      rw [build_of_cyclic hsame, idsOf_congr ha]
      rfl
  · obtain ⟨cycle, hfound, _⟩ := Sorting.found_of_sort hb h
    exact ⟨cycle, hfound⟩

def link (type : ModuleType) (overrides : List TypeId) : Module where
  id := ⟨.module type, .number 0⟩
  overrides := overrides

def knot : List Module :=
  [link .c [.module .a], link .a [.module .b], link .b [.module .a, .module .b]]

/-- The walk back sets out from the module that leads to the cycle, which is not reported with it. -/
theorem cycle_iff_reported_knot :
    (ofModules {} knot).build.outcome =
      .error (.cycle [(link .b []).id, (link .a []).id, (link .b []).id]) ∧
    (∃ m, TransGen (Overrides (Module.kept knot)) m m) ∧
    Ring (fun m n => Overrides (Module.kept knot) n m)
      [(link .b []).id, (link .a []).id, (link .b []).id] := by
  have hbuild : (ofModules {} knot).build.outcome =
      .error (.cycle [(link .b []).id, (link .a []).id, (link .b []).id]) := by cbv
  obtain ⟨hiff, hreport, _⟩ := cycle_iff_reported {} knot
  exact ⟨hbuild, hiff.mp ⟨_, hbuild⟩, (hreport _ hbuild).1⟩

end Assembly

end Wiring
