import Mathlib.Data.List.Perm.Subperm
import Mathlib.Logic.Relation
import Wiring.Module.Order

/-!
Sorting finds an order exactly if there is one.

While things are taken, each one that is left has as its degree the number of things left that it has
to come after. So nothing is taken off a degree of zero, whatever is taken has all its predecessors
before it, and if something is left over in the end, there is a cycle. What is taken is always the smallest
thing that could be, so of all orders that respect the precedence this is the least.
-/

set_option autoImplicit false

namespace Wiring.Sorting

open Relation

/-- Successors are given for the first `n` numbers, are such numbers, and are listed once each. -/
structure Bounded (n : Nat) (successors : Nat → List Nat) : Prop where
  nodup : ∀ i, (successors i).Nodup
  lt : ∀ {i j}, j ∈ successors i → i < n ∧ j < n

/-- Each thing stands behind all that has to precede it. -/
def Topological (successors : Nat → List Nat) (order : List Nat) : Prop :=
  ∀ before a after, order = before ++ a :: after → ∀ p, a ∈ successors p → p ∈ before

/-- Of the things that could stand at a place, since all that precede them are before it, the least does. -/
def Least (n : Nat) (successors : Nat → List Nat) (order : List Nat) : Prop :=
  ∀ before a after, order = before ++ a :: after → ∀ k, k < n → k ∉ before →
    (∀ p, k ∈ successors p → p ∈ before) → a ≤ k

/-- Where two orders first differ, this one has the smaller thing. -/
def NoLater (order other : List Nat) : Prop := order = other ∨ List.Lex (· < ·) order other

def waits (n : Nat) (successors : Nat → List Nat) (done : List Nat) (k : Nat) : Nat :=
  (List.range n).countP fun i => i ∉ done ∧ k ∈ successors i

/-- The state after taking `done`, when the degrees of `lowering` still count the thing taken last. -/
structure Invariant (n : Nat) (successors : Nat → List Nat) (done lowering : List Nat)
    (s : State) : Prop where
  length : s.degrees.length = n
  degree : ∀ k, k < n →
    s.degrees[k]? = some (waits n successors done k + if k ∈ lowering then 1 else 0)
  ready : ∀ k, k ∈ s.ready ↔ k < n ∧ k ∉ done ∧ s.degrees[k]? = some 0
  ascending : s.ready.Pairwise (· < ·)

structure Taken (n : Nat) (successors : Nat → List Nat) (done : List Nat) : Prop where
  nodup : done.Nodup
  lt : ∀ i ∈ done, i < n
  topological : Topological successors done
  least : Least n successors done

variable {n : Nat} {successors : Nat → List Nat} {done : List Nat} {s : State}

theorem mem_insertAscending {j k : Nat} {l : List Nat} :
    k ∈ insertAscending j l ↔ k = j ∨ k ∈ l := by
  induction l with
  | nil => simp [insertAscending]
  | cons i rest ih =>
    by_cases h : j < i
    · simp [insertAscending, h]
    · simp only [insertAscending, h, if_false, List.mem_cons, ih]
      tauto

theorem pairwise_insertAscending {j : Nat} {l : List Nat} (hj : j ∉ l) (hl : l.Pairwise (· < ·)) :
    (insertAscending j l).Pairwise (· < ·) := by
  induction l with
  | nil => simp [insertAscending]
  | cons i rest ih =>
    obtain ⟨hi, hrest⟩ := List.pairwise_cons.mp hl
    by_cases h : j < i
    · simp only [insertAscending, h, if_true]
      refine List.pairwise_cons.mpr ⟨fun k hk => ?_, hl⟩
      rcases List.mem_cons.mp hk with rfl | hk
      · exact h
      · exact Nat.lt_trans h (hi k hk)
    · simp only [insertAscending, h, if_false]
      refine List.pairwise_cons.mpr ⟨fun k hk => ?_,
        ih (fun hm => hj (List.mem_cons_of_mem _ hm)) hrest⟩
      rcases mem_insertAscending.mp hk with rfl | hk
      · have hne : k ≠ i := fun e => hj (e ▸ List.mem_cons_self)
        omega
      · exact hi k hk

/-- One thing that is counted in a degree is taken off it, so no degree runs below zero. -/
theorem Invariant.lower {j : Nat} {js : List Nat} (h : Invariant n successors done (j :: js) s)
    (hj : j ∉ js) (hn : j < n) (hdone : j ∉ done) :
    ∃ t, s.lower j = some t ∧ Invariant n successors done js t := by
  have hd : s.degrees[j]? = some (waits n successors done j + 1) := by
    simpa using h.degree j hn
  have hjn : j < s.degrees.length := by rw [h.length]; exact hn
  have hnr : j ∉ s.ready := fun hm => by
    have := ((h.ready j).mp hm).2.2
    rw [hd] at this
    simp at this
  have hl : s.lower j = some
      { degrees := s.degrees.set j (waits n successors done j)
        ready := if waits n successors done j = 0 then insertAscending j s.ready else s.ready } := by
    simp only [State.lower, hd]
  refine ⟨_, hl, by simp [h.length], ?_, ?_, ?_⟩
  · intro k hk
    by_cases hkj : j = k
    · subst hkj
      simp [hjn, hj]
    · have hkj' : k ≠ j := fun e => hkj e.symm
      simp only [List.getElem?_set_ne hkj, h.degree k hk, List.mem_cons, hkj', false_or]
  · intro k
    by_cases hkj : j = k
    · subst hkj
      by_cases hw : waits n successors done j = 0 <;>
        simp [hw, hjn, hn, hdone, hnr, mem_insertAscending]
    · have hkj' : k ≠ j := fun e => hkj e.symm
      simp only [List.getElem?_set_ne hkj]
      split
      · rw [mem_insertAscending, h.ready k]
        simp [hkj']
      · exact h.ready k
  · dsimp only
    split
    · exact pairwise_insertAscending hnr h.ascending
    · exact h.ascending

theorem Invariant.lowerAll {js : List Nat} (h : Invariant n successors done js s) (hn : js.Nodup)
    (hlt : ∀ j ∈ js, j < n) (hdone : ∀ j ∈ js, j ∉ done) :
    ∃ t, s.lowerAll js = some t ∧ Invariant n successors done [] t := by
  induction js generalizing s with
  | nil => exact ⟨s, rfl, h⟩
  | cons j js ih =>
    obtain ⟨hj, hjs⟩ := List.nodup_cons.mp hn
    obtain ⟨t, ht, hi⟩ := h.lower hj (hlt j List.mem_cons_self) (hdone j List.mem_cons_self)
    obtain ⟨u, hu, hi⟩ := ih hi hjs (fun i hm => hlt i (List.mem_cons_of_mem _ hm))
      fun i hm => hdone i (List.mem_cons_of_mem _ hm)
    exact ⟨u, by simp only [State.lowerAll, ht, hu], hi⟩

theorem waits_eq_zero {k : Nat} :
    waits n successors done k = 0 ↔ ∀ p, p < n → k ∈ successors p → p ∈ done := by
  simp only [waits, List.countP_eq_zero, List.mem_range, decide_eq_true_eq, not_and]
  exact ⟨fun h p hp hk => by_contra fun hd => h p hp hd hk, fun h p hp hd hk => hd (h p hp hk)⟩

theorem waits_snoc {i : Nat} (hi : i < n) (hd : i ∉ done) (k : Nat) :
    waits n successors done k =
      waits n successors (done ++ [i]) k + if k ∈ successors i then 1 else 0 := by
  have count : ∀ l : List Nat, l.Nodup →
      l.countP (fun j => j ∉ done ∧ k ∈ successors j) =
        l.countP (fun j => j ∉ done ++ [i] ∧ k ∈ successors j) +
          if i ∈ l ∧ k ∈ successors i then 1 else 0 := by
    intro l hl
    induction l with
    | nil => simp
    | cons j rest ih =>
      obtain ⟨hj, hrest⟩ := List.nodup_cons.mp hl
      rw [List.countP_cons, List.countP_cons, ih hrest]
      by_cases hji : j = i
      · subst hji
        by_cases hk : k ∈ successors j <;> simp [hd, hj, hk]
      · have hij : i ≠ j := fun e => hji e.symm
        by_cases hp : j ∉ done ∧ k ∈ successors j <;> simp [hp, hji, hij]
        omega
  simpa [waits, hi] using count (List.range n) List.nodup_range

theorem invariant_start : Invariant n successors [] [] (start n successors) := by
  have hd : ∀ k, k < n → (degrees n successors)[k]? = some (waits n successors [] k) := by
    intro k hk
    simp [degrees, waits, hk, List.countP_eq_length_filter]
  refine ⟨by simp [start, degrees], ?_, ?_, List.pairwise_lt_range.filter _⟩
  · intro k hk
    simp [start, hd k hk]
  · intro k
    simp [start]

theorem Topological.snoc {order : List Nat} {i : Nat} (h : Topological successors order)
    (hi : ∀ p, i ∈ successors p → p ∈ order) : Topological successors (order ++ [i]) := by
  intro before a after he p hp
  rcases List.eq_nil_or_concat after with rfl | ⟨after, z, rfl⟩
  · obtain ⟨hb, ha⟩ := List.append_inj' he rfl
    subst hb
    cases ha
    exact hi p hp
  · have he : order ++ [i] = (before ++ a :: after) ++ [z] := by simpa using he
    obtain ⟨hb, _⟩ := List.append_inj' he rfl
    exact h before a after hb p hp

theorem Least.snoc {order : List Nat} {i : Nat} (h : Least n successors order)
    (hi : ∀ k, k < n → k ∉ order → (∀ p, k ∈ successors p → p ∈ order) → i ≤ k) :
    Least n successors (order ++ [i]) := by
  intro before a after he
  rcases List.eq_nil_or_concat after with rfl | ⟨after, z, rfl⟩
  · obtain ⟨hb, ha⟩ := List.append_inj' he rfl
    subst hb
    cases ha
    exact hi
  · have he : order ++ [i] = (before ++ a :: after) ++ [z] := by simpa using he
    obtain ⟨hb, _⟩ := List.append_inj' he rfl
    exact h before a after hb

/-- Taking a ready thing: it waits for nothing, so all that has to precede it has been taken. -/
theorem Invariant.take {i : Nat} {rest : List Nat} (hb : Bounded n successors)
    (h : Invariant n successors done [] s) (ht : Taken n successors done)
    (hr : s.ready = i :: rest) :
    Invariant n successors (done ++ [i]) (successors i) { s with ready := rest } ∧
      Taken n successors (done ++ [i]) := by
  obtain ⟨hin, hid, hdeg⟩ := (h.ready i).mp (by rw [hr]; exact List.mem_cons_self)
  have hw : waits n successors done i = 0 := by
    have := h.degree i hin
    rw [hdeg] at this
    simpa using this.symm
  have hasc := h.ascending
  rw [hr] at hasc
  obtain ⟨hirest, hrest⟩ := List.pairwise_cons.mp hasc
  have hir : i ∉ rest := fun hm => Nat.lt_irrefl i (hirest i hm)
  refine ⟨⟨h.length, ?_, ?_, hrest⟩, ?_, ?_, ?_, ?_⟩
  · intro k hk
    have := h.degree k hk
    rw [waits_snoc hin hid] at this
    simpa using this
  · intro k
    have hk := h.ready k
    rw [hr, List.mem_cons] at hk
    simp only [List.mem_append, List.mem_singleton]
    by_cases hki : k = i
    · subst hki
      simp [hir]
    · simpa [hki] using hk
  · exact List.nodup_append.mpr ⟨ht.nodup, by simp, fun a ha b hb he =>
      hid (by rw [List.mem_singleton] at hb; rwa [← hb, ← he])⟩
  · intro k hk
    rcases List.mem_append.mp hk with hk | hk
    · exact ht.lt k hk
    · rw [List.mem_singleton] at hk
      rwa [hk]
  · exact ht.topological.snoc fun p hp => waits_eq_zero.mp hw p (hb.lt hp).1 hp
  · refine ht.least.snoc fun k hk hkd hpre => ?_
    have hkw : waits n successors done k = 0 := waits_eq_zero.mpr fun p _ hp => hpre p hp
    have hkr : k ∈ s.ready := (h.ready k).mpr ⟨hk, hkd, by rw [h.degree k hk, hkw]; simp⟩
    rw [hr] at hkr
    rcases List.mem_cons.mp hkr with rfl | hkr
    · exact Nat.le_refl _
    · exact Nat.le_of_lt (hirest k hkr)

theorem drain_nil {s : State} (hr : s.ready = []) :
    drain successors s = some ([], s.degrees) := by
  rw [drain]
  split
  · rfl
  · rename_i heq
    rw [hr] at heq
    contradiction

theorem drain_cons {s t : State} {i : Nat} {rest : List Nat} (hr : s.ready = i :: rest)
    (hl : State.lowerAll { s with ready := rest } (successors i) = some t) :
    drain successors s = (drain successors t).map fun (order, degrees) => (i :: order, degrees) := by
  rw [drain]
  split
  · rename_i heq
    rw [hr] at heq
    contradiction
  · rename_i j later heq
    cases hr.symm.trans heq
    split
    · rename_i hn
      rw [hl] at hn
      contradiction
    · rename_i u hu
      cases hl.symm.trans hu
      rfl

theorem drain_spec (hb : Bounded n successors) (s : State) (done : List Nat)
    (h : Invariant n successors done [] s) (ht : Taken n successors done) :
    ∃ order ds, drain successors s = some (order, ds) ∧
      Invariant n successors (done ++ order) [] { degrees := ds, ready := [] } ∧
      Taken n successors (done ++ order) := by
  -- A thing that is taken has no successor among those taken before, nor is it one of its own.
  have fresh : ∀ {done i}, Taken n successors (done ++ [i]) →
      ∀ j ∈ successors i, j ∉ done ++ [i] := by
    intro done i hi j hj hm
    obtain ⟨before, after, he⟩ := List.append_of_mem hm
    have hib := hi.topological before j after he i hj
    have hnd := hi.nodup
    rcases List.eq_nil_or_concat after with rfl | ⟨after, z, rfl⟩
    · obtain ⟨hbe, hj⟩ := List.append_inj' he rfl
      subst hbe
      exact (List.nodup_append.mp hnd).2.2 i hib i List.mem_cons_self rfl
    · have he : done ++ [i] = (before ++ j :: after) ++ [z] := by simpa using he
      obtain ⟨hbe, _⟩ := List.append_inj' he rfl
      subst hbe
      exact (List.nodup_append.mp hnd).2.2 i (List.mem_append_left _ hib) i List.mem_cons_self rfl
  fun_induction drain successors s generalizing done with
  | case1 s hr =>
    refine ⟨[], s.degrees, rfl, ?_, by simpa using ht⟩
    obtain ⟨degrees, ready⟩ := s
    cases hr
    simpa using h
  | case2 s i rest hr hl =>
    obtain ⟨hi, ht⟩ := h.take hb ht hr
    obtain ⟨t, hs, _⟩ := hi.lowerAll (hb.nodup i) (fun j hj => (hb.lt hj).2) (fresh ht)
    rw [hl] at hs
    contradiction
  | case3 s i rest hr t hl ih =>
    obtain ⟨hi, ht⟩ := h.take hb ht hr
    obtain ⟨u, hs, hu⟩ := hi.lowerAll (hb.nodup i) (fun j hj => (hb.lt hj).2) (fresh ht)
    rw [hl] at hs
    cases hs
    obtain ⟨order, ds, hd, hi, ht⟩ := ih (done ++ [i]) hu ht
    refine ⟨i :: order, ds, by rw [hd]; rfl, ?_, ?_⟩
    · simpa using hi
    · simpa using ht

def leftOver (n : Nat) (successors : Nat → List Nat) : List Nat :=
  match drain successors (start n successors) with
  | none => []
  | some (_, ds) => (List.range n).filter fun i => ds[i]? ≠ some 0

/-- What sorting comes to: an order of all, or a search for a cycle among those left over, which all have
to come after some of them. -/
theorem sort_cases (hb : Bounded n successors) :
    (∃ order, sort n successors = .ordered order ∧ order.Perm (List.range n) ∧
      Topological successors order ∧ Least n successors order) ∨
    sort n successors = .cyclic (findCycle successors (leftOver n successors)) ∧
      leftOver n successors ≠ [] ∧
      ∀ k ∈ leftOver n successors, ∃ p ∈ leftOver n successors, k ∈ successors p := by
  have ht : Taken n successors [] := by
    refine ⟨List.nodup_nil, by simp, fun before a after he => ?_, fun before a after he => ?_⟩ <;>
      simp at he
  obtain ⟨order, ds, hd, hi, ht⟩ := drain_spec hb _ [] invariant_start ht
  simp only [List.nil_append] at hi ht
  have hsub : order ⊆ List.range n := fun i hm => List.mem_range.mpr (ht.lt i hm)
  have hle : order.Subperm (List.range n) := List.subperm_of_subset ht.nodup hsub
  have hleft : leftOver n successors = (List.range n).filter fun i => ds[i]? ≠ some 0 := by
    rw [leftOver, hd]
  rw [sort, hd, hleft]
  by_cases hlen : order.length = n
  · left
    exact ⟨order, by simp [hlen], hle.perm_of_length_le (by simp [hlen]), ht.topological, ht.least⟩
  · right
    -- What is not taken has a degree, so it waits for something that is not taken either.
    have waiting : ∀ k, k < n → k ∉ order → ds[k]? ≠ some 0 := by
      intro k hk hm hz
      have := (hi.ready k).mpr ⟨hk, hm, hz⟩
      simp at this
    refine ⟨by simp [hlen], ?_, ?_⟩
    · intro hnil
      have hall : List.range n ⊆ order := by
        intro k hk
        by_contra hm
        have hmem : k ∈ (List.range n).filter fun i => ds[i]? ≠ some 0 :=
          List.mem_filter.mpr ⟨hk, by simpa using waiting k (List.mem_range.mp hk) hm⟩
        rw [hnil] at hmem
        simp at hmem
      have hge := (List.subperm_of_subset List.nodup_range hall).length_le
      have hle := hle.length_le
      rw [List.length_range] at hge hle
      omega
    · intro k hk
      obtain ⟨hkn, hne⟩ := List.mem_filter.mp hk
      have hkn := List.mem_range.mp hkn
      have hdeg := hi.degree k hkn
      have hw : waits n successors order k ≠ 0 := by
        intro hw
        simp [hw] at hdeg
        simp [hdeg] at hne
      have : ¬ ∀ p, p < n → k ∈ successors p → p ∈ order := fun h => hw (waits_eq_zero.mpr h)
      push Not at this
      obtain ⟨p, hp, hkp, hpo⟩ := this
      refine ⟨p, List.mem_filter.mpr ⟨List.mem_range.mpr hp, ?_⟩, hkp⟩
      simpa using waiting p hp hpo

theorem sort_ne_overdrawn (hb : Bounded n successors) : sort n successors ≠ .overdrawn := by
  rcases sort_cases hb with ⟨order, ho, _⟩ | ⟨hc, _⟩
  · simp [ho]
  · simp [hc]

theorem Topological.transGen {order : List Nat} (h : Topological successors order) {i j : Nat}
    (hij : TransGen (fun a b => b ∈ successors a) i j) :
    ∀ before after, order = before ++ j :: after → i ∈ before := by
  induction hij with
  | single hj => exact fun before after he => h before _ after he i hj
  | tail _ hj ih =>
    intro before after he
    have hb := h before _ after he _ hj
    obtain ⟨front, middle, hbm⟩ := List.append_of_mem hb
    subst hbm
    exact List.mem_append_left _ (ih front (middle ++ _ :: after) (by simpa using he))

theorem Topological.pairwise {order : List Nat} (h : Topological successors order)
    (hn : order.Nodup) :
    order.Pairwise fun a b => ¬ TransGen (fun a b => b ∈ successors a) b a := by
  have suffix : ∀ rest before, order = before ++ rest →
      rest.Pairwise fun a b => ¬ TransGen (fun a b => b ∈ successors a) b a := by
    intro rest
    induction rest with
    | nil => exact fun _ _ => List.Pairwise.nil
    | cons a after ih =>
      intro before he
      refine List.pairwise_cons.mpr ⟨fun b hb hba => ?_, ih (before ++ [a]) (by simpa using he)⟩
      rw [he] at hn
      have hbb := h.transGen hba before after he
      exact (List.nodup_append.mp hn).2.2 b hbb b (List.mem_cons_of_mem _ hb) rfl
  exact suffix order [] rfl

theorem Topological.irrefl {order : List Nat} (h : Topological successors order)
    (hn : order.Nodup) {i : Nat} (hi : i ∈ order) :
    ¬ TransGen (fun a b => b ∈ successors a) i i := by
  intro hii
  obtain ⟨before, after, rfl⟩ := List.append_of_mem hi
  have hb := h.transGen hii before after rfl
  exact (List.nodup_append.mp hn).2.2 i hb i List.mem_cons_self rfl

theorem exists_cycle {α : Type} {r : α → α → Prop} (l : List α) (hl : l ≠ [])
    (h : ∀ k ∈ l, ∃ p ∈ l, TransGen r p k) : ∃ k ∈ l, TransGen r k k := by
  induction l with
  | nil => contradiction
  | cons a rest ih =>
    by_cases ha : TransGen r a a
    · exact ⟨a, List.mem_cons_self, ha⟩
    obtain ⟨q, hq, hqa⟩ := h a List.mem_cons_self
    have hqr : q ∈ rest := (List.mem_cons.mp hq).resolve_left (by rintro rfl; exact ha hqa)
    have hrest : ∀ k ∈ rest, ∃ p ∈ rest, TransGen r p k := by
      intro k hk
      obtain ⟨p, hp, hpk⟩ := h k (List.mem_cons_of_mem _ hk)
      rcases List.mem_cons.mp hp with rfl | hp
      · exact ⟨q, hqr, hqa.trans hpk⟩
      · exact ⟨p, hp, hpk⟩
    obtain ⟨k, hk, hkk⟩ := ih (List.ne_nil_of_mem hqr) hrest
    exact ⟨k, List.mem_cons_of_mem _ hk, hkk⟩

theorem sort_ordered (hb : Bounded n successors)
    (ha : ∀ i, ¬ TransGen (fun a b => b ∈ successors a) i i) :
    ∃ order, sort n successors = .ordered order := by
  rcases sort_cases hb with ⟨order, ho, _⟩ | ⟨_, hl, hw⟩
  · exact ⟨order, ho⟩
  · obtain ⟨k, _, hk⟩ := exists_cycle _ hl fun k hk => by
      obtain ⟨p, hp, hkp⟩ := hw k hk
      exact ⟨p, hp, .single hkp⟩
    exact absurd hk (ha k)

theorem sort_eq_ordered (hb : Bounded n successors) {order : List Nat}
    (h : sort n successors = .ordered order) :
    order.Perm (List.range n) ∧ Topological successors order := by
  rcases sort_cases hb with ⟨o, ho, hp, ht, _⟩ | ⟨hc, _⟩
  · rw [h] at ho
    cases ho
    exact ⟨hp, ht⟩
  · rw [h] at hc
    contradiction

theorem least_of_sort (hb : Bounded n successors) {order : List Nat}
    (h : sort n successors = .ordered order) : Least n successors order := by
  rcases sort_cases hb with ⟨o, ho, _, _, hl⟩ | ⟨hc, _⟩
  · rw [h] at ho
    cases ho
    exact hl
  · rw [h] at hc
    contradiction

theorem NoLater.antisymm {order other : List Nat} (h : NoLater order other)
    (ho : NoLater other order) : order = other := by
  rcases h with h | h
  · exact h
  · rcases ho with ho | ho
    · exact ho.symm
    · exact absurd ho (List.lex_asymm Nat.lt_asymm h)

/-- No order that respects the precedence is before one that takes the least thing at each place. -/
theorem Least.noLater {order other : List Nat} (hl : Least n successors order)
    (ho : order.Perm (List.range n)) (hp : other.Perm (List.range n))
    (ht : Topological successors other) : NoLater order other := by
  have general : ∀ rest before rest', order = before ++ rest → other = before ++ rest' →
      NoLater rest rest' := by
    intro rest
    induction rest with
    | nil =>
      intro before rest' _ _
      cases rest' with
      | nil => exact .inl rfl
      | cons j rest' => exact .inr .nil
    | cons i rest ih =>
      intro before rest' he he'
      cases rest' with
      | nil =>
        have hlen := (ho.trans hp.symm).length_eq
        rw [he, he'] at hlen
        simp at hlen
      | cons j rest' =>
        have hmem : j ∈ other := by simp [he']
        have hj : j ∉ before := by
          have hn := hp.nodup_iff.mpr List.nodup_range
          rw [he'] at hn
          exact fun hm => (List.nodup_append.mp hn).2.2 j hm j List.mem_cons_self rfl
        have hij : i ≤ j := hl before i rest he j (List.mem_range.mp (hp.mem_iff.mp hmem)) hj
          (ht before j rest' he')
        rcases Nat.lt_or_eq_of_le hij with hlt | rfl
        · exact .inr (.rel hlt)
        · have hrest : NoLater rest rest' :=
            ih (before ++ [i]) rest' (by simpa using he) (by simpa using he')
          exact hrest.imp (fun heq => by rw [heq]) List.Lex.cons
  exact general order [] other rfl rfl

end Wiring.Sorting
