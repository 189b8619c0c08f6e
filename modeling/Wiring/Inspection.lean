import Wiring.Dependency
import Wiring.Config
import Wiring.Module.Id

set_option autoImplicit false

namespace Wiring

structure NameReport where
  short : String
  whole : String
  qualifier : String
  module : String
  deriving DecidableEq

def NameReport.of (name : String) : NameReport :=
  let t := TypeInfo.named name
  { short := t.shortName
    whole := t.name
    qualifier := (Qualifier.marker t).text
    module := (ModuleId.mk t.id (.number 0)).text }

/-- Whether the order of two keys says something: keys of one type, not under different markers. -/
def Key.isComparable (a b : Key) : Bool :=
  a.type.id = b.type.id &&
    match a.qualifier, b.qualifier with
    | some (.marker s), some (.marker t) => s.id = t.id
    | _, _ => true

structure KeyReport where
  text : String
  qualifier : Option String
  /-- Those of the given types that the key is a key of. -/
  types : List TypeId
  /-- Positions of the keys equal to this one. -/
  equal : List Nat
  /-- Whether the order finds exactly the equal keys equal. -/
  consistent : Bool
  order : List (Option Ordering)
  requalified : Bool
  unqualified : String
  description : String

def KeyReport.of (keys : List Key) (types : List TypeId) (k : Key) : KeyReport :=
  { text := k.text
    qualifier := k.qualifier.map Qualifier.text
    types := types.filter fun t => k.type.id = t
    equal := (keys.zipIdx.filter fun e => e.1.ident = k.ident).map (·.2)
    consistent := keys.all fun x => decide (k.order x = .eq) = decide (k.ident = x.ident)
    order := keys.map fun x => if k.isComparable x then some (k.order x) else none
    requalified := (k.withQualifier k.qualifier).ident = k.ident
    unqualified := (k.withQualifier none).text
    description := k.describe }

structure DependencyReport where
  lazy : Bool
  description : String
  /-- For each of a list: whether it is the same, and the order if the keys are. -/
  others : List (Bool × Option Ordering)

def DependencyReport.of (all : List Dependency) (d : Dependency) : DependencyReport :=
  { lazy := d.kind = .lazy
    description := d.describe
    others := all.map fun x =>
      (d.same x, if d.key.ident = x.key.ident then some (d.order x) else none) }

def Scope.all : List Scope := [.unscoped, .singleton]

end Wiring
