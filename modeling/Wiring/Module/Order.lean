/-!
The stable topological order of numbered things.

`successors i` lists, in ascending order, the things that have to come after `i`. Of the things that
wait for nothing, the smallest goes next. If some are left over, a cycle among them is found by
walking back from one to the next.
-/

set_option autoImplicit false

namespace Wiring.Sorting

/-- How many things each one still waits for, and, ascending, those that wait for nothing. -/
structure State where
  degrees : List Nat
  ready : List Nat

def State.measure (s : State) : Nat := s.degrees.foldr (· + ·) 0 + s.ready.length

def insertAscending (j : Nat) : List Nat → List Nat
  | [] => [j]
  | i :: rest => if j < i then j :: i :: rest else i :: insertAscending j rest

theorem length_insertAscending (j : Nat) (l : List Nat) :
    (insertAscending j l).length = l.length + 1 := by
  induction l with
  | nil => rfl
  | cons i rest ih => by_cases h : j < i <;> simp [insertAscending, h, ih]

/-- One thing less to wait for. There is no result if `j` waited for nothing already. -/
def State.lower (s : State) (j : Nat) : Option State :=
  match s.degrees[j]? with
  | some (d + 1) =>
    some { degrees := s.degrees.set j d
           ready := if d = 0 then insertAscending j s.ready else s.ready }
  | _ => none

def State.lowerAll (s : State) : List Nat → Option State
  | [] => some s
  | j :: rest =>
    match s.lower j with
    | some t => t.lowerAll rest
    | none => none

theorem foldr_set_succ {l : List Nat} {j d : Nat} (h : l[j]? = some (d + 1)) :
    (l.set j d).foldr (· + ·) 0 + 1 = l.foldr (· + ·) 0 := by
  induction l generalizing j with
  | nil => simp at h
  | cons a l ih =>
    cases j with
    | zero => simp at h; simp [h]; omega
    | succ j => simp at h; have := ih h; simp; omega

theorem State.measure_lower {s t : State} {j : Nat} (h : s.lower j = some t) :
    t.measure ≤ s.measure := by
  unfold State.lower at h
  split at h
  · rename_i d hd
    have := foldr_set_succ hd
    simp only [Option.some.injEq] at h
    subst h
    simp only [State.measure]
    split
    · rw [length_insertAscending]; omega
    · omega
  · simp at h

theorem State.measure_lowerAll {s t : State} {js : List Nat} (h : s.lowerAll js = some t) :
    t.measure ≤ s.measure := by
  induction js generalizing s with
  | nil => simp only [State.lowerAll, Option.some.injEq] at h; exact h ▸ Nat.le_refl _
  | cons j rest ih =>
    simp only [State.lowerAll] at h
    split at h
    · rename_i u hu
      exact Nat.le_trans (ih h) (measure_lower hu)
    · simp at h

/-- Takes the smallest ready thing until none is ready. Gives the order of taking, and what the
others still wait for. -/
def drain (successors : Nat → List Nat) (s : State) : Option (List Nat × List Nat) :=
  match _hr : s.ready with
  | [] => some ([], s.degrees)
  | i :: rest =>
    match _hl : State.lowerAll { s with ready := rest } (successors i) with
    | none => none
    | some t => (drain successors t).map fun (order, degrees) => (i :: order, degrees)
termination_by s.measure
decreasing_by
  have := State.measure_lowerAll _hl
  simp only [State.measure, _hr, List.length_cons] at *
  omega

inductive Trail where
  | closed (path : List Nat)
  | loose (path : List Nat)

def Trail.path : Trail → List Nat
  | closed p | loose p => p

/-- Walks back from `current` over things that were not visited yet. The walk is turned round once it
is closed, and ends where it began. -/
def walkBack (predecessor : Nat → Option Nat) (unvisited path : List Nat) (current : Nat) : Trail :=
  match predecessor current with
  | none => .loose path
  | some p =>
    if p ∈ path then
      let cycle := (path.dropWhile fun i => i ≠ p).reverse
      .closed (cycle ++ [cycle.headD p])
    else if p ∈ unvisited then walkBack predecessor (unvisited.erase p) (path ++ [p]) p
    else .loose path
termination_by unvisited.length
decreasing_by
  rename_i inside
  have := List.length_erase_of_mem inside
  have := List.length_pos_of_mem inside
  omega

def findCycle (successors : Nat → List Nat) (left : List Nat) : Trail :=
  match left with
  | [] => .loose []
  | start :: rest =>
    walkBack (fun i => left.find? fun j => i ∈ successors j) rest [start] start

inductive Result where
  | ordered (order : List Nat)
  | cyclic (trail : Trail)
  /-- Something was taken off a thing that waited for nothing. -/
  | overdrawn

/-- Degrees at the start: how many of the `n` things each one has to come after. -/
def degrees (n : Nat) (successors : Nat → List Nat) : List Nat :=
  (List.range n).map fun j => ((List.range n).filter fun i => j ∈ successors i).length

def start (n : Nat) (successors : Nat → List Nat) : State :=
  let ds := degrees n successors
  { degrees := ds, ready := (List.range n).filter fun i => ds[i]? = some 0 }

def sort (n : Nat) (successors : Nat → List Nat) : Result :=
  match drain successors (start n successors) with
  | none => .overdrawn
  | some (order, ds) =>
    if order.length = n then .ordered order
    else .cyclic (findCycle successors ((List.range n).filter fun i => ds[i]? ≠ some 0))

end Wiring.Sorting
