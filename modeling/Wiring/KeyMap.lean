import Wiring.Key

set_option autoImplicit false

namespace Wiring

structure KeyMap (β : Type) where
  entries : List (Key × β) := []

namespace KeyMap

variable {β : Type}

def empty : KeyMap β := {}

def find? (m : KeyMap β) (k : Key) : Option β :=
  (m.entries.find? fun e => e.1.ident = k.ident).map (·.2)

def contains (m : KeyMap β) (k : Key) : Bool := m.entries.any fun e => e.1.ident = k.ident

/-- Writes an entry at its place in the order; an entry of the same identity keeps its key. -/
def insertEntry (k : Key) (v : β) : List (Key × β) → List (Key × β)
  | [] => [(k, v)]
  | (x, u) :: rest =>
    match k.order x with
    | .lt => (k, v) :: (x, u) :: rest
    | .eq => (x, v) :: rest
    | .gt => (x, u) :: insertEntry k v rest

def insert (m : KeyMap β) (k : Key) (v : β) : KeyMap β := ⟨insertEntry k v m.entries⟩

def keys (m : KeyMap β) : List Key := m.entries.map (·.1)

def size (m : KeyMap β) : Nat := m.entries.length

end KeyMap

end Wiring
