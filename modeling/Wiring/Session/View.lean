import Wiring.World

set_option autoImplicit false

namespace Wiring

inductive MarkView where
  | number (n : Nat)
  | lazy (keyText : String)
  | injector
  deriving DecidableEq

structure ObjectView where
  number : Nat
  datum : Datum
  marks : List MarkView
  deriving DecidableEq

inductive InstanceView where
  | object (view : ObjectView)
  | collection (number : Nat) (shape : Collection) (items : List (Option MapKey × ObjectView))
  | injector (keyCount : Nat)
  deriving DecidableEq

abbrev Shown := List InstanceId

namespace Shown

def number (s : Shown) (id : InstanceId) : Nat × Shown :=
  match s.idxOf? id with
  | some n => (n, s)
  | none => (s.length, s ++ [id])

def mark (s : Shown) : Mark → MarkView × Shown
  | .resolved id => let (n, t) := s.number id; (.number n, t)
  | .lazy l => (.lazy l.key.text, s)
  | .injector => (.injector, s)

def marks (s : Shown) : List Mark → List MarkView × Shown
  | [] => ([], s)
  | m :: rest =>
    let (v, t) := s.mark m
    let (vs, u) := marks t rest
    (v :: vs, u)

def object (s : Shown) (o : Object) : ObjectView × Shown :=
  let (n, t) := s.number o.id
  let (ms, u) := t.marks o.marks
  (⟨n, o.datum, ms⟩, u)

def items (s : Shown) : List (Option MapKey × Object) → List (Option MapKey × ObjectView) × Shown
  | [] => ([], s)
  | (k, o) :: rest =>
    let (v, t) := s.object o
    let (vs, u) := items t rest
    ((k, v) :: vs, u)

def view (s : Shown) (w : World) : Instance → InstanceView × Shown
  | .object o => let (v, t) := s.object o; (.object v, t)
  | .collection id shape is =>
    let (n, t) := s.number id
    let (vs, u) := t.items is
    (.collection n shape vs, u)
  | .injector i => (.injector (w.registry i).size, s)

end Shown

def Injector.describe (j : Injector) : String :=
  Outline.record "Injector"
    [("registry", j.registry.describe), ("cached", toString j.cache.readyCount),
     ("modules", Outline.brackets (j.modules.map ModuleInfo.describe))]

namespace World

def describe (w : World) : Instance → String
  | .injector i => (w.injector i).describe
  | a => a.describe

def refersTo (w : World) (a : Instance) : Bool :=
  w.injectors.any (fun j => j.cache.any fun e => e.2 = .ready a) ||
    w.holdings.any (fun e => e.2 = a)

end World

structure PointView where
  text : String
  shown : Option InstanceView

namespace PointView

def ofHeld (s : Shown) (w : World) (p : Point) (h : Held) : PointView × Shown :=
  match h with
  | .injector _ => (⟨"Injector", none⟩, s)
  | .lazy l =>
    match p with
    | .lazy _ true => (⟨Outline.tagged "LazyQualified" l.describe, none⟩, s)
    | _ => (⟨l.describe, none⟩, s)
  | .resolved a =>
    let (v, t) := s.view w a
    match a, p with
    | .injector _, _ => (⟨"Injector", some v⟩, t)
    | _, .inject _ true => (⟨Outline.tagged "InjectQualified" a.describe ++ " " ++ a.text, some v⟩, t)
    | _, _ => (⟨Outline.tagged "Inject" a.describe ++ " " ++ a.text, some v⟩, t)

def ofAll (s : Shown) (w : World) : List (Point × Held) → List PointView × Shown
  | [] => ([], s)
  | (p, h) :: rest =>
    let (v, t) := ofHeld s w p h
    let (vs, u) := ofAll t w rest
    (v :: vs, u)

end PointView

end Wiring
