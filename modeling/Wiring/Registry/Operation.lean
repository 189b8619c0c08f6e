import Wiring.Registry.Builder

set_option autoImplicit false

namespace Wiring

inductive Operation where
  | register (key : Key) (binding : Binding) (source : Source)
  | declareAggregate (key : Key) (shape : Collection)
  | contribute (key : Key) (binding : Binding) (source : Source) (mapKey : Option MapKey)
  | setAggregateScope (key : Key) (scope : Scope)
  | declareOverride (overriding overridden : ModuleId)
  | finalize

namespace Operation

def apply (b : Builder) : Operation → Except BindError Unit × Builder
  | register key binding source => b.register key binding source
  | declareAggregate key shape => b.declareAggregate key shape
  | contribute key binding source mapKey => b.contribute key binding source mapKey
  | setAggregateScope key scope => b.setAggregateScope key scope
  | declareOverride overriding overridden => b.declareOverride overriding overridden
  | finalize => (b.finalize.1.map fun _ => (), b.finalize.2)

def binding? : Operation → Option Binding
  | register _ b _ => some b
  | contribute _ b _ _ => some b
  | _ => none

/-- Applies the operations in turn and stops at the first that is refused; what was done stays.
The operations that were tried are given along, the refused one included. -/
def applyAll (b : Builder) : List Operation → Except BindError Unit × List Operation × Builder
  | [] => (.ok (), [], b)
  | op :: rest =>
    match op.apply b with
    | (.error e, left) => (.error e, [op], left)
    | (.ok _, left) =>
      let (outcome, tried, final) := applyAll left rest
      (outcome, op :: tried, final)

def runAll (b : Builder) : List Operation → List (Except BindError Unit) × Builder
  | [] => ([], b)
  | op :: rest =>
    let (outcome, left) := op.apply b
    let (outcomes, final) := runAll left rest
    (outcome :: outcomes, final)

end Operation

end Wiring
