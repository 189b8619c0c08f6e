import Mathlib.Logic.Relation
import Wiring.Override

set_option autoImplicit false

namespace Wiring.OverrideGraph

open Relation

variable {g : OverrideGraph} {goal a b : ModuleId}

def Overrides (g : OverrideGraph) (a b : ModuleId) : Prop := b ∈ g.targets a

/-- A chain of overrides from a module to the goal that leads over modules of the domain only. -/
inductive Leads (g : OverrideGraph) (goal : ModuleId) (domain : List ModuleId) : ModuleId → Prop where
  | last {a : ModuleId} : a ∈ domain → g.Overrides a goal → Leads g goal domain a
  | step {a b : ModuleId} : a ∈ domain → g.Overrides a b → Leads g goal domain b →
      Leads g goal domain a

theorem Leads.inside {domain : List ModuleId} (h : Leads g goal domain a) : a ∈ domain := by
  cases h with
  | last inside _ => exact inside
  | step inside _ _ => exact inside

theorem Leads.mono {small large : List ModuleId} (hs : ∀ m ∈ small, m ∈ large)
    (h : Leads g goal small a) : Leads g goal large a := by
  induction h with
  | last inside hgoal => exact .last (hs _ inside) hgoal
  | step inside hover _ ih => exact .step (hs _ inside) hover ih

/-- A chain either avoids a module, or goes on from it by a chain that does. -/
theorem Leads.erase {domain : List ModuleId} (m : ModuleId) (hm : ¬ g.Overrides m goal)
    (h : Leads g goal domain a) : (a ≠ m ∧ Leads g goal (domain.erase m) a) ∨
      ∃ x, g.Overrides m x ∧ Leads g goal (domain.erase m) x := by
  induction h with
  | @last a inside hgoal =>
    have hne : a ≠ m := by rintro rfl; exact hm hgoal
    exact .inl ⟨hne, .last ((List.mem_erase_of_ne hne).mpr inside) hgoal⟩
  | @step a b inside hover _ ih =>
    rcases ih with ⟨_, hb⟩ | later
    · by_cases ha : a = m
      · subst ha
        exact .inr ⟨b, hover, hb⟩
      · exact .inl ⟨ha, .step ((List.mem_erase_of_ne ha).mpr inside) hover hb⟩
    · exact .inr later

theorem search_iff (g : OverrideGraph) (goal : ModuleId) (unvisited pending : List ModuleId) :
    g.search goal unvisited pending = true ↔ ∃ m ∈ pending, Leads g goal unvisited m := by
  fun_induction search g goal unvisited pending with
  | case1 unvisited => simp
  | case2 unvisited m rest inside hgoal =>
    exact iff_of_true rfl ⟨m, List.mem_cons_self, .last inside hgoal⟩
  | case3 unvisited m rest inside hgoal ih =>
    rw [ih]
    constructor
    · rintro ⟨x, hx, hl⟩
      have hl := hl.mono (fun _ => List.mem_of_mem_erase)
      rcases List.mem_append.mp hx with target | old
      · exact ⟨m, List.mem_cons_self, .step inside target hl⟩
      · exact ⟨x, List.mem_cons_of_mem _ old, hl⟩
    · rintro ⟨x, hx, hl⟩
      rcases hl.erase m hgoal with ⟨hne, hl⟩ | ⟨y, hy, hl⟩
      · have old : x ∈ rest := (List.mem_cons.mp hx).resolve_left hne
        exact ⟨x, List.mem_append_right _ old, hl⟩
      · exact ⟨y, List.mem_append_left _ hy, hl⟩
  | case4 unvisited m rest outside ih =>
    rw [ih]
    constructor
    · rintro ⟨x, hx, hl⟩
      exact ⟨x, List.mem_cons_of_mem _ hx, hl⟩
    · rintro ⟨x, hx, hl⟩
      have hne : x ≠ m := by rintro rfl; exact outside hl.inside
      exact ⟨x, (List.mem_cons.mp hx).resolve_left hne, hl⟩

theorem Overrides.mem (h : g.Overrides a b) : a ∈ g.map (·.1) := by
  unfold Overrides targets at h
  induction g with
  | nil => simp [Table.get?] at h
  | cons e rest ih =>
    by_cases he : e.1 = a
    · simp [he]
    · simp only [Table.get?, he, if_false] at h
      exact List.mem_cons_of_mem _ (ih h)

theorem leads_iff : Leads g goal (g.map (·.1)) a ↔ TransGen g.Overrides a goal := by
  constructor
  · intro h
    induction h with
    | last _ hgoal => exact .single hgoal
    | step _ hover _ ih => exact .head hover ih
  · intro h
    induction h using TransGen.head_induction_on with
    | single hgoal => exact .last hgoal.mem hgoal
    | head hover _ ih => exact .step hover.mem hover ih

theorem reaches_iff : g.reaches a b = true ↔ TransGen g.Overrides a b := by
  simp [reaches, search_iff, leads_iff]

def Above (g : OverrideGraph) (s t : Source) : Prop := g.isOverriding s t = true

instance (g : OverrideGraph) (s t : Source) : Decidable (g.Above s t) :=
  inferInstanceAs (Decidable (_ = true))

theorem above_iff {s t : Source} :
    g.Above s t ↔ ∃ a b, s = .module a ∧ t = .module b ∧ TransGen g.Overrides a b := by
  unfold Above
  cases s <;> cases t <;> simp [isOverriding, reaches_iff]

theorem Above.trans {s t u : Source} (hst : g.Above s t) (htu : g.Above t u) : g.Above s u := by
  obtain ⟨a, b, rfl, rfl, hab⟩ := above_iff.mp hst
  obtain ⟨b', c, hb, rfl, hbc⟩ := above_iff.mp htu
  cases hb
  exact above_iff.mpr ⟨a, c, rfl, rfl, hab.trans hbc⟩

def Acyclic (g : OverrideGraph) : Prop := ∀ m, ¬ TransGen g.Overrides m m

theorem Acyclic.irrefl (hg : g.Acyclic) (s : Source) : ¬ g.Above s s := by
  intro h
  obtain ⟨a, b, rfl, hb, hab⟩ := above_iff.mp h
  cases hb
  exact hg a hab

theorem Acyclic.asymm (hg : g.Acyclic) {s t : Source} (hst : g.Above s t) : ¬ g.Above t s :=
  fun hts => hg.irrefl s (hst.trans hts)

theorem targets_declare (g : OverrideGraph) (a b x : ModuleId) :
    (g.declare a b).targets x = if a = x then
        if b ∈ g.targets a then g.targets a else g.targets a ++ [b]
      else g.targets x := by
  unfold declare
  by_cases hx : a = x
  · subst hx
    simp [targets, Table.get?_put_self]
  · simp [targets, Table.get?_put_ne _ _ hx, hx]

theorem overrides_declare {x y : ModuleId} :
    (g.declare a b).Overrides x y ↔ g.Overrides x y ∨ (x = a ∧ y = b) := by
  unfold Overrides
  rw [targets_declare]
  by_cases hx : a = x
  · subst hx
    by_cases hb : b ∈ g.targets a
    · simp only [if_true, hb, true_and]
      exact ⟨.inl, fun h => h.elim id fun h => h ▸ hb⟩
    · simp [hb]
  · simp only [hx, if_false]
    exact ⟨.inl, fun h => h.elim id fun h => absurd h.1.symm hx⟩

end Wiring.OverrideGraph
