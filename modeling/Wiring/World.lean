import Wiring.Registry.Operation
import Wiring.Cache.Basic
import Wiring.Module.Info

/-!
The state that resolution works on.

One thread of execution has one stack of keys under construction; the frames of all injectors stand
on it, the innermost first. Notes are what routines wrote down, events what the engine did; both
are kept newest first.
-/

set_option autoImplicit false

namespace Wiring

structure Injector where
  registry : Registry := {}
  modules : List ModuleInfo := []
  cache : Cache := []

structure Frame where
  injector : InjectorId
  key : Key
  deriving DecidableEq

/-- What the engine did: a key was requested at a moment of which the stack and the caches are kept,
the strategy of a binding was run to fill a place, the routine of a key was entered with its points
resolved, or a collection was put together. Of a place that keeps its instance: it was asked for, and
this was found; an instance was made for it and kept. An instance was handed out for a place. -/
inductive Event where
  | requested (injector : InjectorId) (key : Key) (frames : List Frame) (caches : List Cache)
  | produced (injector : InjectorId) (place : Place) (source : Source)
  | entered (injector : InjectorId) (key : Key)
  | assembled (injector : InjectorId) (key : Ident)
  | acquired (injector : InjectorId) (place : Place) (found : Cache.Found)
  | stored (injector : InjectorId) (place : Place) (value : Instance)
  | yielded (injector : InjectorId) (place : Place) (value : Instance)
  deriving DecidableEq

structure World where
  injectors : List Injector := []
  directory : Table String InjectorId := []
  holdings : Table String Instance := []
  /-- Values offered for sharing, by type and name. -/
  offers : Table (Base × String) Datum := []
  tallies : Table Nat Nat := []
  frames : List Frame := []
  made : Nat := 0
  notes : List Note := []
  events : List Event := []

namespace World

/-- The injector of a number; one that was never made binds nothing. -/
def injector (w : World) (i : InjectorId) : Injector := w.injectors.getD i {}

def registry (w : World) (i : InjectorId) : Registry := (w.injector i).registry

def cache (w : World) (i : InjectorId) : Cache := (w.injector i).cache

def caches (w : World) : List Cache := w.injectors.map (·.cache)

def withCache (w : World) (i : InjectorId) (f : Cache → Cache) : World :=
  { w with injectors := w.injectors.modify i fun j => { j with cache := f j.cache } }

def underConstruction (w : World) (i : InjectorId) : List Key :=
  ((w.frames.filter fun f => f.injector = i).map (·.key)).reverse

def requester (w : World) (i : InjectorId) : Option Key :=
  (w.frames.find? fun f => f.injector = i).map (·.key)

/-- An injector lives as long as it is kept under a name, itself or as an instance. -/
def isLive (w : World) (i : InjectorId) : Bool :=
  w.directory.any (fun e => e.2 = i) || w.holdings.any (fun e => e.2 = .injector i)

def addInjector (w : World) (name : String) (j : Injector) : World :=
  { w with
    injectors := w.injectors ++ [j]
    directory := w.directory.put name w.injectors.length }

def note (w : World) (n : Note) : World := { w with notes := n :: w.notes }

def record (w : World) (e : Event) : World := { w with events := e :: w.events }

def offer (w : World) (b : Binding) : World :=
  match b.strategy with
  | .shared name d => { w with offers := w.offers.offer (d.type, name) d }
  | _ => w

def offerAll (w : World) (ops : List Operation) : World :=
  (ops.filterMap Operation.binding?).foldl offer w

/-- More requests than can be nested: every key of every injector under construction, and one more. -/
def capacity (w : World) : Nat := (w.injectors.map fun j => j.registry.size).foldr (· + ·) 0 + 1

end World

end Wiring
