import Wiring.Module.Id
import Wiring.Table

/-!
Overrides between modules.

A declared override puts one module over another. `isOverriding` decides whether a chain of one or
more declared overrides leads from the first source to the second; a direct registration stands in
no chain.
-/

set_option autoImplicit false

namespace Wiring

/-- For each overriding module, the modules it is declared to override. -/
abbrev OverrideGraph := Table ModuleId (List ModuleId)

namespace OverrideGraph

def targets (g : OverrideGraph) (m : ModuleId) : List ModuleId := (g.get? m).getD []

def declare (g : OverrideGraph) (overriding overridden : ModuleId) : OverrideGraph :=
  let old := g.targets overriding
  g.put overriding (if overridden ∈ old then old else old ++ [overridden])

/-- Follows overrides from the pending modules until one of them overrides `goal`. A module is taken
out of `unvisited` when it is followed, so none is followed twice, and modules that override nothing
were never in it. -/
def search (g : OverrideGraph) (goal : ModuleId) (unvisited pending : List ModuleId) : Bool :=
  match pending with
  | [] => false
  | m :: rest =>
    if m ∈ unvisited then
      if goal ∈ g.targets m then true
      else search g goal (unvisited.erase m) (g.targets m ++ rest)
    else search g goal unvisited rest
termination_by (unvisited.length, pending.length)
decreasing_by
  · rename_i inside _
    have := List.length_erase_of_mem inside
    have := List.length_pos_of_mem inside
    exact Prod.Lex.left _ _ (by omega)
  · exact Prod.Lex.right _ (by simp)

def reaches (g : OverrideGraph) (overriding overridden : ModuleId) : Bool :=
  search g overridden (g.map (·.1)) [overriding]

def isOverriding (g : OverrideGraph) : Source → Source → Bool
  | .module a, .module b => g.reaches a b
  | _, _ => false

/-- Order in which modules are listed: by type, then by number where they are told apart by one. -/
def listedBefore (a b : ModuleId) : Bool :=
  match a.type.order b.type with
  | .lt => true
  | .gt => false
  | .eq =>
    match a.fingerprint, b.fingerprint with
    | .number m, .number n => m ≤ n
    | _, _ => true

def describe (g : OverrideGraph) : String :=
  let entries := g.mergeSort fun a b => listedBefore a.1 b.1
  Outline.braces <| entries.map fun (m, targets) =>
    Outline.field m.describe (Outline.braces ((targets.mergeSort listedBefore).map ModuleId.describe))

end OverrideGraph

end Wiring
