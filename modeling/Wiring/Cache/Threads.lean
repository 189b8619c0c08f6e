import Wiring.Cache.Basic

/-!
Threads that share a cache.

Each move is one section under the lock of the cache, or the wake-up that follows the end of a
reservation. A thread that finds a place reserved goes to sleep, and every wake-up wakes all sleepers,
whatever place they wait for; they ask again. A sequence of moves of any threads is an interleaving.
-/

set_option autoImplicit false

namespace Wiring

abbrev ThreadId := Nat

namespace Cache

structure Shared where
  cache : Cache := []
  /-- Reservations that are not fulfilled, and who holds them. -/
  building : List (ThreadId × Place) := []
  /-- Reservations that are fulfilled and not ended yet. -/
  built : List (ThreadId × Place) := []
  asleep : List (ThreadId × Place) := []
  /-- Threads that ended a reservation and have not woken the sleepers since. -/
  owing : List ThreadId := []

inductive Move where
  /-- Looks for an instance without asking for a reservation. -/
  | look (thread : ThreadId) (place : Place)
  /-- Asks for the instance or else for the reservation. -/
  | acquire (thread : ThreadId) (place : Place)
  | fulfill (thread : ThreadId) (place : Place) (value : Instance)
  /-- Ends a reservation, fulfilled or not. -/
  | drop (thread : ThreadId) (place : Place)
  | wake (thread : ThreadId)
  deriving DecidableEq

namespace Move

def thread : Move → ThreadId
  | look t _ | acquire t _ | fulfill t _ _ | drop t _ | wake t => t

end Move

inductive Effect where
  | seen (value : Option Instance)
  | answered (value : Instance)
  | slept
  | reserved
  | done
  deriving DecidableEq

namespace Shared

def isAsleep (s : Shared) (t : ThreadId) : Bool := s.asleep.any fun e => e.1 = t

/-- Makes a move, if the thread is awake and has what the move takes. -/
def move (s : Shared) (m : Move) : Option (Effect × Shared) :=
  if s.isAsleep m.thread then none
  else
    match m with
    | .look _ p => some (.seen (s.cache.ready? p), s)
    | .acquire t p =>
      match s.cache.find p with
      | .ready a => some (.answered a, s)
      | .busy => some (.slept, { s with asleep := (t, p) :: s.asleep })
      | .vacant =>
        some (.reserved, { s with cache := s.cache.reserve p, building := (t, p) :: s.building })
    | .fulfill t p a =>
      if (t, p) ∈ s.building then
        some (.done,
          { s with
            cache := s.cache.fulfill p a
            building := s.building.erase (t, p)
            built := (t, p) :: s.built })
      else none
    | .drop t p =>
      if (t, p) ∈ s.built then
        some (.done,
          { s with
            cache := s.cache.release p, built := s.built.erase (t, p), owing := t :: s.owing })
      else if (t, p) ∈ s.building then
        some (.done,
          { s with
            cache := s.cache.release p, building := s.building.erase (t, p), owing := t :: s.owing })
      else none
    | .wake t =>
      if t ∈ s.owing then some (.done, { s with asleep := [], owing := s.owing.erase t })
      else none

def run (s : Shared) : List Move → Option (List Effect × Shared)
  | [] => some ([], s)
  | m :: rest =>
    match s.move m with
    | none => none
    | some (e, t) => (t.run rest).map fun (es, u) => (e :: es, u)

end Shared

end Cache

end Wiring
