set_option autoImplicit false

namespace Wiring

abbrev Table (α β : Type) := List (α × β)

namespace Table

variable {α β : Type} [DecidableEq α]

def get? (t : Table α β) (a : α) : Option β :=
  match t with
  | [] => none
  | (x, b) :: rest => if x = a then some b else get? rest a

def put (t : Table α β) (a : α) (b : β) : Table α β :=
  match t with
  | [] => [(a, b)]
  | (x, c) :: rest => if x = a then (x, b) :: rest else (x, c) :: put rest a b

def erase (t : Table α β) (a : α) : Table α β :=
  match t with
  | [] => []
  | (x, b) :: rest => if x = a then erase rest a else (x, b) :: erase rest a

/-- Keeps the value that is there already. -/
def offer (t : Table α β) (a : α) (b : β) : Table α β :=
  match get? t a with
  | some _ => t
  | none => put t a b

@[simp] theorem get?_put_self (t : Table α β) (a : α) (b : β) : get? (put t a b) a = some b := by
  induction t with
  | nil => simp [put, get?]
  | cons e rest ih => by_cases h : e.1 = a <;> simp [put, get?, h, ih]

theorem get?_put_ne (t : Table α β) {a x : α} (b : β) (h : a ≠ x) :
    get? (put t a b) x = get? t x := by
  induction t with
  | nil => simp [put, get?, h]
  | cons e rest ih =>
    by_cases ha : e.1 = a
    · simp [put, get?, ha, h]
    · simp [put, get?, ha, ih]

@[simp] theorem get?_erase_self (t : Table α β) (a : α) : get? (erase t a) a = none := by
  induction t with
  | nil => rfl
  | cons e rest ih => by_cases h : e.1 = a <;> simp [erase, get?, h, ih]

theorem get?_erase_ne (t : Table α β) {a x : α} (h : a ≠ x) : get? (erase t a) x = get? t x := by
  induction t with
  | nil => rfl
  | cons e rest ih => by_cases ha : e.1 = a <;> simp [erase, get?, ha, h, ih]

end Table

end Wiring
