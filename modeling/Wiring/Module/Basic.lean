import Wiring.Module.Directive
import Wiring.Module.Info

set_option autoImplicit false

namespace Wiring

/-- What a module does when it is configured. It goes on as the outcome of a directive decides. -/
inductive Plan where
  | done
  | fail (error : BindError)
  | note (note : Note) (next : Plan)
  | direct (directive : Directive) (next : Except BindError Unit → Plan)

/-- A directive, and whether its failure is passed over. -/
structure ModuleStep where
  directive : Directive
  ignore : Bool := false

def Plan.ofSteps : List ModuleStep → Plan
  | [] => done
  | step :: rest => direct step.directive fun
    | .ok _ => ofSteps rest
    | .error e => if step.ignore then note (.ignored e) (ofSteps rest) else fail e

instance : Coe (List ModuleStep) Plan := ⟨Plan.ofSteps⟩

structure Module where
  id : ModuleId
  name : Option String := none
  description : Option String := none
  /-- Types of the modules that this one takes precedence over. -/
  overrides : List TypeId := []
  steps : Plan := .done

structure Configured where
  outcome : Except BindError Unit
  notes : List Note
  tried : List Operation
  builder : Builder

def Plan.run (source : Source) : Plan → Builder → Configured
  | done, b => ⟨.ok (), [], [], b⟩
  | fail e, b => ⟨.error e, [], [], b⟩
  | note n next, b =>
    let r := run source next b
    { r with notes := n :: r.notes }
  | direct d next, b =>
    let (outcome, tried, left) := Operation.applyAll b (d.operations source)
    let r := run source (next outcome) left
    { r with tried := tried ++ r.tried }

namespace Module

def configure (m : Module) (b : Builder) : Configured :=
  let r := m.steps.run (.module m.id) b
  { r with notes := .configure m.id.type (.module m.id) :: r.notes }

def add (ms : List Module) (m : Module) : List Module :=
  if ms.any (fun x => x.id = m.id) then ms else ms ++ [m]

def kept (ms : List Module) : List Module := ms.foldl add []

end Module

end Wiring
