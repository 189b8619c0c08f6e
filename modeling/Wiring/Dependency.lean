import Wiring.Key

set_option autoImplicit false

namespace Wiring

/-- A direct dependency is resolved before construction; a lazy one on demand, through a handle. -/
inductive DependencyKind where
  | direct
  | lazy
  deriving DecidableEq

namespace DependencyKind

def name : DependencyKind → String
  | direct => "direct"
  | lazy => "lazy"

def describe : DependencyKind → String
  | direct => "Direct"
  | lazy => "Lazy"

def order : DependencyKind → DependencyKind → Ordering
  | direct, lazy => .lt
  | lazy, direct => .gt
  | _, _ => .eq

end DependencyKind

structure Dependency where
  key : Key
  kind : DependencyKind
  deriving DecidableEq

namespace Dependency

def direct (key : Key) : Dependency := ⟨key, .direct⟩

def lazy (key : Key) : Dependency := ⟨key, .lazy⟩

/-- Equal dependencies are of one kind and of the same key, whatever names the keys display. -/
def same (a b : Dependency) : Bool := a.key.ident = b.key.ident && a.kind = b.kind

def order (a b : Dependency) : Ordering := (a.key.order b.key).then (a.kind.order b.kind)

def describe (d : Dependency) : String :=
  Outline.record "Dependency" [("key", d.key.describe), ("kind", d.kind.describe)]

end Dependency

end Wiring
