import Wiring.Proofs.Registry.Builder

/-!
The search for a chain of overrides, round by round.

One round takes a module off those that are pending. A module that was followed before is dropped; of any
other one the targets become pending, unless the goal is among them. Each round uses up a pending module or
makes pending what is declared for one module, so the number of rounds is bounded by what is declared.
-/

set_option autoImplicit false

namespace Wiring.OverrideGraph

open Relation

variable {g : OverrideGraph} {goal start m x y : ModuleId} {followed pending : List ModuleId}

/-- What the search has come to within a number of rounds, if it has ended. -/
def searchRounds (g : OverrideGraph) (goal : ModuleId) :
    Nat → List ModuleId → List ModuleId → Option Bool
  | 0, _, _ => none
  | _ + 1, _, [] => some false
  | n + 1, followed, m :: rest =>
    if m ∈ followed then searchRounds g goal n followed rest
    else if goal ∈ g.targets m then some true
    else searchRounds g goal n (m :: followed) (g.targets m ++ rest)

def remaining (g : OverrideGraph) (followed : List ModuleId) : Nat :=
  g.foldr (fun e n => if e.1 ∈ followed then n else e.2.length + n) 0

theorem remaining_cons_le (g : OverrideGraph) (m : ModuleId) (followed : List ModuleId) :
    g.remaining (m :: followed) ≤ g.remaining followed := by
  induction g with
  | nil => exact Nat.le_refl _
  | cons e rest ih =>
    simp only [remaining, List.foldr_cons, List.mem_cons] at ih ⊢
    by_cases he : e.1 ∈ followed
    · simpa only [he, or_true, if_true] using ih
    · rw [if_neg he]
      split <;> omega

theorem remaining_follow (hm : m ∉ followed) :
    (g.targets m).length + g.remaining (m :: followed) ≤ g.remaining followed := by
  induction g with
  | nil => exact Nat.le_refl _
  | cons e rest ih =>
    by_cases he : e.1 = m
    · have htargets : targets (e :: rest) m = e.2 := by simp [targets, Table.get?, he]
      have hle := remaining_cons_le rest m followed
      rw [htargets]
      simp only [remaining, List.foldr_cons, he, List.mem_cons_self, hm, if_true, if_false] at hle ⊢
      omega
    · have htargets : targets (e :: rest) m = targets rest m := by simp [targets, Table.get?, he]
      rw [htargets]
      by_cases hf : e.1 ∈ followed
      · simpa only [remaining, List.foldr_cons, List.mem_cons, he, hf, or_true, if_true] using ih
      · simp only [remaining, List.foldr_cons, List.mem_cons, he, hf, or_self, if_false] at ih ⊢
        omega

/-- The search ends: each round takes one module off those that are pending and were counted. -/
theorem searchRounds_isSome {n : Nat} (h : pending.length + g.remaining followed < n) :
    (g.searchRounds goal n followed pending).isSome := by
  induction n generalizing followed pending with
  | zero => omega
  | succ n ih =>
    cases pending with
    | nil => rfl
    | cons m rest =>
      rw [List.length_cons] at h
      simp only [searchRounds]
      split
      · exact ih (by omega)
      · rename_i hm
        split
        · rfl
        · have hfollow := remaining_follow (g := g) hm
          refine ih ?_
          rw [List.length_append]
          omega

/-- Where a search stands that has not found its goal. All it has come to is reached from the start, and every
chain of overrides that it has not followed to its end leads over a pending module. -/
structure Searching (g : OverrideGraph) (start goal : ModuleId) (followed pending : List ModuleId) :
    Prop where
  begun : start ∈ followed ∨ start ∈ pending
  missed : ∀ m ∈ followed, ¬ g.Overrides m goal
  onward : ∀ m ∈ followed, ∀ x, g.Overrides m x → x ∈ followed ∨ x ∈ pending
  reached : ∀ m, m ∈ followed ∨ m ∈ pending → ReflTransGen g.Overrides start m

theorem searching_start (g : OverrideGraph) (start goal : ModuleId) :
    g.Searching start goal [] [start] :=
  ⟨.inr List.mem_cons_self, by simp, by simp, by simp [ReflTransGen.refl]⟩

theorem Searching.drop {rest : List ModuleId} (h : g.Searching start goal followed (m :: rest))
    (hm : m ∈ followed) : g.Searching start goal followed rest := by
  have hleft : ∀ x, x ∈ followed ∨ x ∈ m :: rest → x ∈ followed ∨ x ∈ rest := by
    rintro x (hx | hx)
    · exact .inl hx
    · rcases List.mem_cons.mp hx with rfl | hx
      · exact .inl hm
      · exact .inr hx
  exact ⟨hleft _ h.begun, h.missed, fun x hx y hy => hleft y (h.onward x hx y hy),
    fun x hx => h.reached x (hx.imp_right (List.mem_cons_of_mem _))⟩

theorem Searching.follow {rest : List ModuleId} (h : g.Searching start goal followed (m :: rest))
    (hgoal : ¬ g.Overrides m goal) :
    g.Searching start goal (m :: followed) (g.targets m ++ rest) := by
  have hkept : ∀ x, x ∈ followed ∨ x ∈ m :: rest → x ∈ m :: followed ∨ x ∈ g.targets m ++ rest := by
    rintro x (hx | hx)
    · exact .inl (List.mem_cons_of_mem _ hx)
    · rcases List.mem_cons.mp hx with rfl | hx
      · exact .inl List.mem_cons_self
      · exact .inr (List.mem_append_right _ hx)
  have hm : ReflTransGen g.Overrides start m := h.reached m (.inr List.mem_cons_self)
  refine ⟨hkept _ h.begun, ?_, ?_, ?_⟩
  · exact List.forall_mem_cons.mpr ⟨hgoal, h.missed⟩
  · intro x hx y hy
    rcases List.mem_cons.mp hx with rfl | hx
    · exact .inr (List.mem_append_left _ hy)
    · exact hkept y (h.onward x hx y hy)
  · rintro x (hx | hx)
    · rcases List.mem_cons.mp hx with rfl | hx
      · exact hm
      · exact h.reached x (.inl hx)
    · rcases List.mem_append.mp hx with hx | hx
      · exact hm.tail hx
      · exact h.reached x (.inr (List.mem_cons_of_mem _ hx))

theorem Searching.followed_of_reached (h : g.Searching start goal followed [])
    (hx : ReflTransGen g.Overrides start x) : x ∈ followed := by
  induction hx with
  | refl => exact h.begun.resolve_right List.not_mem_nil
  | tail _ hover ih => exact (h.onward _ ih _ hover).resolve_right List.not_mem_nil

theorem Searching.ends {n : Nat} {found : Bool} (h : g.Searching start goal followed pending)
    (hn : g.searchRounds goal n followed pending = some found) :
    found = true ↔ TransGen g.Overrides start goal := by
  induction n generalizing followed pending with
  | zero => simp [searchRounds] at hn
  | succ n ih =>
    cases pending with
    | nil =>
      cases hn
      refine iff_of_false (by simp) fun hchain => ?_
      obtain ⟨x, hx, hgoal⟩ := TransGen.tail'_iff.mp hchain
      exact h.missed x (h.followed_of_reached hx) hgoal
    | cons m rest =>
      simp only [searchRounds] at hn
      split at hn
      · rename_i hm
        exact ih (h.drop hm) hn
      · split at hn
        · rename_i hgoal
          cases hn
          exact iff_of_true rfl (TransGen.tail'_iff.mpr ⟨m, h.reached m (.inr List.mem_cons_self), hgoal⟩)
        · rename_i hgoal
          exact ih (h.follow hgoal) hn

/-- Within one round more than there are overrides and modules to start from, the search has its answer. -/
theorem searchRounds_eq_reaches {n : Nat} (a b : ModuleId) (hn : 1 + g.remaining [] < n) :
    g.searchRounds b n [] [a] = some (g.reaches a b) := by
  have hends : (g.searchRounds b n [] [a]).isSome := searchRounds_isSome hn
  obtain ⟨found, hfound⟩ := Option.isSome_iff_exists.mp hends
  have hsame : found = true ↔ g.reaches a b = true :=
    ((searching_start g a b).ends hfound).trans reaches_iff.symm
  rw [hfound, Bool.eq_iff_iff.mpr hsame]

def declareAll (g : OverrideGraph) (ds : List (ModuleId × ModuleId)) : OverrideGraph :=
  ds.foldl (fun g d => g.declare d.1 d.2) g

theorem overrides_declareAll {ds : List (ModuleId × ModuleId)} :
    (g.declareAll ds).Overrides x y ↔ g.Overrides x y ∨ (x, y) ∈ ds := by
  induction ds generalizing g with
  | nil => simp [declareAll]
  | cons d rest ih =>
    obtain ⟨a, b⟩ := d
    have hrest := ih (g := g.declare a b)
    simp only [declareAll, List.foldl_cons] at hrest ⊢
    rw [hrest, overrides_declare, List.mem_cons, Prod.mk.injEq, or_assoc]

theorem Above.declareAll {s t : Source} (h : g.Above s t) (ds : List (ModuleId × ModuleId)) :
    (g.declareAll ds).Above s t := by
  induction ds generalizing g with
  | nil => exact h
  | cons d rest ih => exact ih (h.declare d.1 d.2)

end OverrideGraph

theorem OverrideGraph.Above.runAll {b : Builder} {s t : Source} (h : b.overrides.Above s t)
    (ops : List Operation) : (Operation.runAll b ops).2.overrides.Above s t := by
  refine Operation.runAll_induction (P := fun b => b.overrides.Above s t) ops (fun b op _ hb => ?_) h
  rcases Operation.apply_cases b op with ⟨_, ha⟩ | ⟨_, _, _, _, _, _, ha, hw⟩ | ⟨x, y, _, ha⟩ |
    ⟨_, _, _, ha⟩ <;> rw [ha]
  · exact hb
  · exact hw.overrides ▸ hb
  · exact hb.declare x y
  · exact hb

namespace OverrideGraph

open Relation

/-- One source is found to take precedence over another exactly if both are modules and a chain of one or more
declared overrides leads from the one to the other, whatever the graph. The search for it ends. So a module
takes precedence over itself exactly if it lies on a cycle, and a direct registration is never related. Precedence
is transitive, and more declared overrides only add to it. -/
theorem precedence_decided (g : OverrideGraph) (s t : Source) :
    (g.isOverriding s t = true ↔
      ∃ a b, s = .module a ∧ t = .module b ∧ TransGen g.Overrides a b) ∧
    (∀ a b n, 1 + g.remaining [] < n →
      g.searchRounds b n [] [a] = some (g.isOverriding (.module a) (.module b))) ∧
    (∀ m, g.isOverriding (.module m) (.module m) = true ↔
      ∃ x, g.Overrides m x ∧ ReflTransGen g.Overrides x m) ∧
    (g.isOverriding .direct t = false ∧ g.isOverriding s .direct = false) ∧
    (∀ u, g.isOverriding s t = true → g.isOverriding t u = true → g.isOverriding s u = true) ∧
    (∀ ds, (∀ a b, (g.declareAll ds).Overrides a b ↔ g.Overrides a b ∨ (a, b) ∈ ds) ∧
      (g.isOverriding s t = true → (g.declareAll ds).isOverriding s t = true)) ∧
    ∀ b ops, b.overrides = g → g.isOverriding s t = true →
      (Operation.runAll b ops).2.overrides.isOverriding s t = true := by
  refine ⟨above_iff, fun a b n hn => searchRounds_eq_reaches a b hn, fun m => ?_,
    ⟨rfl, by cases s <;> rfl⟩, fun u hst htu => Above.trans hst htu,
    fun ds => ⟨fun a b => overrides_declareAll, fun h => Above.declareAll h ds⟩, ?_⟩
  · exact reaches_iff.trans TransGen.head'_iff
  · rintro b ops rfl h
    exact Above.runAll h ops

end OverrideGraph

end Wiring
