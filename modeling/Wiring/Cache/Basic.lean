import Wiring.Instance
import Wiring.Table

/-!
Caches of singletons.

A place is reserved while its instance is under construction, by one constructor at a time. A
reservation that is fulfilled leaves the instance behind; one that is given up leaves nothing.
-/

set_option autoImplicit false

namespace Wiring

/-- Where an instance is kept: under its key, or as one contribution to an aggregate. -/
inductive Place where
  | binding (key : Ident)
  | element (key : Ident) (index : Nat)
  deriving DecidableEq

inductive Slot where
  | pending
  | ready (value : Instance)
  deriving DecidableEq

abbrev Cache := Table Place Slot

namespace Cache

def ready? (c : Cache) (p : Place) : Option Instance :=
  match c.get? p with
  | some (.ready i) => some i
  | _ => none

inductive Found where
  | ready (value : Instance)
  | busy
  | vacant
  deriving DecidableEq

def find (c : Cache) (p : Place) : Found :=
  match c.get? p with
  | some (.ready i) => .ready i
  | some .pending => .busy
  | none => .vacant

def reserve (c : Cache) (p : Place) : Cache := c.put p .pending

def fulfill (c : Cache) (p : Place) (i : Instance) : Cache := c.put p (.ready i)

/-- Ends a reservation. The place is vacant again unless the reservation was fulfilled. -/
def release (c : Cache) (p : Place) : Cache :=
  match c.get? p with
  | some .pending => c.erase p
  | _ => c

def readyCount (c : Cache) : Nat := (c.filter fun e => match e.2 with
  | .ready _ => true
  | .pending => false).length

section Slots

variable (c : Cache) (p q : Place)

theorem get?_reserve : (c.reserve p).get? q = if p = q then some .pending else c.get? q := by
  by_cases h : p = q
  · subst h
    simp [reserve]
  · simp [reserve, h, Table.get?_put_ne]

theorem get?_fulfill (a : Instance) :
    (c.fulfill p a).get? q = if p = q then some (.ready a) else c.get? q := by
  by_cases h : p = q
  · subst h
    simp [fulfill]
  · simp [fulfill, h, Table.get?_put_ne]

theorem get?_release : (c.release p).get? q =
    if p = q ∧ c.get? p = some .pending then none else c.get? q := by
  unfold release
  split
  · rename_i hp
    by_cases h : p = q
    · subst h
      simp [hp]
    · simp [h, Table.get?_erase_ne]
  · rename_i hp
    rw [if_neg fun h => hp h.2]

end Slots

section Ready

variable {c : Cache} {p q : Place} {a b : Instance}

theorem ready_of_reserve (h : (c.reserve p).get? q = some (.ready b)) : c.get? q = some (.ready b) := by
  rw [get?_reserve] at h
  split at h
  · cases h
  · exact h

theorem ready_of_release (h : (c.release p).get? q = some (.ready b)) : c.get? q = some (.ready b) := by
  rw [get?_release] at h
  split at h
  · cases h
  · exact h

theorem ready_of_fulfill (h : ((c.fulfill p a).release p).get? q = some (.ready b)) :
    p = q ∧ a = b ∨ c.get? q = some (.ready b) := by
  have hfulfilled := ready_of_release h
  rw [get?_fulfill] at hfulfilled
  split at hfulfilled
  · rename_i hpq
    cases hfulfilled
    exact .inl ⟨hpq, rfl⟩
  · exact .inr hfulfilled

end Ready

end Cache

end Wiring
