import Wiring.Instance
import Wiring.Error

/-!
Routines: what a constructor or provider does once its injection points are resolved.

A routine is a finite exchange with its surroundings. It counts its calls, notes things down, asks
for injectors by name, resolves keys and handles, and ends with a value, a failure or a panic. The
answer to a request decides how the routine goes on, so any deterministic use of the surroundings
that ends can be written down. A routine for a type hands over a value of that type only; there is
none that hands over a collection or an injector.
-/

set_option autoImplicit false

namespace Wiring

inductive Note where
  | call (label : String) (count : Nat)
  | got (label text : String)
  | failed (label : String) (error : ResolveError)
  | inject (label : String)
  | configure (module : TypeId) (source : Source)
  | ignored (error : BindError)
  deriving DecidableEq

structure Request where
  key : Key
  expected : TypeId
  deriving DecidableEq

namespace Request

def of (key : Key) : Request := ⟨key, key.type.id⟩

end Request

inductive Routine (type : TypeId) where
  | done (draft : Draft) (fits : .value draft.datum.type = type)
  | fail (cause : Cause)
  | panic (text : String)
  | count (tally : Nat) (next : Nat → Routine type)
  | note (note : Note) (next : Routine type)
  | find (name : String) (next : Option InjectorId → Routine type)
  | get (injector : InjectorId) (request : Request)
      (next : Except ResolveError Instance → Routine type)
  | pull (handle : Lazy) (next : Except ResolveError Instance → Routine type)

end Wiring
