import Wiring.Proofs.Cache.Threads

/-!
No wake-up of a thread that sleeps in front of a cache is lost.

A sleeper is owed a wake-up: as long as the place it waits for is reserved, by the thread that holds the
reservation, and from then on by any thread that is finishing a reservation. All places share one
wake-up, so whoever finishes wakes the sleepers of every place, and the debt may be paid by a thread that
never touched the place.
-/

set_option autoImplicit false

namespace Wiring

namespace Cache

namespace Shared

/-- A thread that fulfilled or gave up a reservation and has not woken the sleepers since. -/
def Finishing (s : Shared) (u : ThreadId) : Prop := (∃ p, (u, p) ∈ s.built) ∨ u ∈ s.owing

/-- Whoever sleeps for a place will be woken: by the end of the reservation of this place, or by the end
of any reservation that is on its way. -/
def Awaited (s : Shared) (p : Place) : Prop :=
  (s.cache.get? p = some .pending ∧ ∃ u, (u, p) ∈ s.building) ∨ ∃ u, s.Finishing u

def Attended (s : Shared) : Prop := ∀ x ∈ s.asleep, s.Awaited x.2

variable {s t : Shared} {m : Move} {e : Effect} {u v : ThreadId} {p q : Place} {a : Instance}
  {moves : List Move} {effects : List Effect}

theorem reservations_pos_iff : 0 < s.reservations p ↔ ∃ u, (u, p) ∈ s.building := by
  constructor
  · intro h
    obtain ⟨⟨u, q⟩, hmem, heq⟩ := List.countP_pos_iff.mp h
    exact ⟨u, by simpa [← of_decide_eq_true heq] using hmem⟩
  · rintro ⟨u, hmem⟩
    exact reservations_pos hmem

theorem Sane.awaited (hs : s.Sane) (hp : s.cache.get? p = some .pending) : s.Awaited p := by
  have hone : s.reservations p = 1 := (hs.pending p).mp hp
  exact .inl ⟨hp, reservations_pos_iff.mp (by omega)⟩

theorem attended_empty : ({} : Shared).Attended := fun _ hx => absurd hx List.not_mem_nil

/-- A fulfilled reservation, and one that is given up, hands the debt of its place on to the thread that
finishes; nobody else can free the place. -/
theorem Step.attended (hs : s.Sane) (ha : s.Attended) (h : s.Step m e t) : t.Attended := by
  intro x hx
  cases h with
  | look => exact ha x hx
  | answered => exact ha x hx
  | slept hp =>
    rcases List.mem_cons.mp hx with rfl | hx
    · exact hs.awaited hp
    · exact ha x hx
  | @reserved u q hq =>
    rcases ha x hx with ⟨hp, v, hv⟩ | hfin
    · refine .inl ⟨?_, v, List.mem_cons_of_mem _ hv⟩
      rw [get?_reserve, hp, ite_self]
    · exact .inr hfin
  | @fulfilled u q => exact .inr ⟨u, .inl ⟨q, List.mem_cons_self⟩⟩
  | @ended u => exact .inr ⟨u, .inr List.mem_cons_self⟩
  | @abandoned u => exact .inr ⟨u, .inr List.mem_cons_self⟩
  | woken => exact absurd hx List.not_mem_nil

theorem run_attended (hs : s.Sane) (ha : s.Attended) (h : s.run moves = some (effects, t)) :
    t.Attended := by
  induction moves generalizing s effects with
  | nil =>
    cases h
    exact ha
  | cons m rest ih =>
    obtain ⟨e, v, es, hm, hrest, rfl⟩ := run_cons h
    have hstep := (move_eq_some.mp hm).2
    exact ih (hstep.sane hs) (hstep.attended hs ha) hrest

/-- A thread that is finishing a reservation makes no other move than to end it and to wake the sleepers.
Whoever ends a reservation does it so: nothing is asked for between the end and the wake-up. -/
def Prompt : Shared → List Move → Prop
  | _, [] => True
  | s, m :: rest =>
    (s.Finishing m.thread → (∃ p, m = .drop m.thread p) ∨ m = .wake m.thread) ∧
      match s.move m with
      | none => True
      | some (_, t) => Prompt t rest

theorem not_finishing {P : Prop} (hbuilt : s.built = []) (howing : s.owing = []) :
    s.Finishing u → P := by
  rintro (⟨q, hq⟩ | hu)
  · simp [hbuilt] at hq
  · simp [howing] at hu

def Alert (s : Shared) : Prop := ∀ u, s.Finishing u → s.isAsleep u = false

theorem alert_empty : ({} : Shared).Alert := fun _ _ => rfl

theorem Step.finishing (h : s.Step m e t) (ht : t.Finishing u) :
    s.Finishing u ∨ u = m.thread := by
  cases h with
  | look => exact .inl ht
  | answered => exact .inl ht
  | slept => exact .inl ht
  | reserved => exact .inl ht
  | fulfilled =>
    rcases ht with ⟨q, hq⟩ | hmem
    · rcases List.mem_cons.mp hq with heq | hq
      · cases heq
        exact .inr rfl
      · exact .inl (.inl ⟨q, hq⟩)
    · exact .inl (.inr hmem)
  | ended =>
    rcases ht with ⟨q, hq⟩ | hmem
    · exact .inl (.inl ⟨q, List.mem_of_mem_erase hq⟩)
    · rcases List.mem_cons.mp hmem with rfl | hmem
      · exact .inr rfl
      · exact .inl (.inr hmem)
  | abandoned =>
    rcases ht with hbuilt | hmem
    · exact .inl (.inl hbuilt)
    · rcases List.mem_cons.mp hmem with rfl | hmem
      · exact .inr rfl
      · exact .inl (.inr hmem)
  | woken =>
    rcases ht with hbuilt | hmem
    · exact .inl (.inl hbuilt)
    · exact .inl (.inr (List.mem_of_mem_erase hmem))

theorem isAsleep_cons (x : ThreadId × Place) :
    isAsleep { s with asleep := x :: s.asleep } u = (decide (x.1 = u) || s.isAsleep u) := rfl

theorem Step.isAsleep (h : s.Step m e t) (ht : t.isAsleep u = true) :
    s.isAsleep u = true ∨ ∃ p, m = .acquire u p := by
  cases h with
  | @slept v p =>
    rw [isAsleep_cons, Bool.or_eq_true, decide_eq_true_eq] at ht
    rcases ht with rfl | ht
    · exact .inr ⟨p, rfl⟩
    · exact .inl ht
  | woken => contradiction
  | _ => exact .inl ht

theorem Step.alert (hs : s.Alert) (hawake : s.isAsleep m.thread = false) (h : s.Step m e t)
    (hprompt : s.Finishing m.thread → (∃ p, m = .drop m.thread p) ∨ m = .wake m.thread) :
    t.Alert := by
  intro u hfin
  have hbefore : s.isAsleep u = false := by
    rcases h.finishing hfin with hu | rfl
    · exact hs u hu
    · exact hawake
  refine Bool.eq_false_iff.mpr fun hasleep => ?_
  rcases h.isAsleep hasleep with hslept | ⟨p, rfl⟩
  · simp [hbefore] at hslept
  · -- a step of asking puts no thread among those that finish
    have hfin : s.Finishing u := by cases h <;> exact hfin
    rcases hprompt hfin with ⟨q, hq⟩ | hq <;> cases hq

theorem run_alert (hs : s.Alert) (hp : s.Prompt moves) (h : s.run moves = some (effects, t)) :
    t.Alert := by
  induction moves generalizing s effects with
  | nil =>
    cases h
    exact hs
  | cons m rest ih =>
    obtain ⟨e, v, es, hm, hrest, rfl⟩ := run_cons h
    obtain ⟨hawake, hstep⟩ := move_eq_some.mp hm
    simp only [Prompt, hm] at hp
    exact ih (hstep.alert hs hawake hp.1) hp.2 hrest

theorem wake_owing (hawake : s.isAsleep u = false) (h : u ∈ s.owing) :
    ∃ t, s.move (.wake u) = some (.done, t) ∧ t.asleep = [] :=
  ⟨_, move_eq_some.mpr ⟨hawake, .woken h⟩, rfl⟩

/-- A finishing thread needs nobody else to bring everybody back: it ends its reservation, if it has not
yet, and wakes the sleepers. -/
theorem Finishing.wakes (h : s.Finishing u) (hawake : s.isAsleep u = false) :
    ∃ moves effects t, (∀ m ∈ moves, m.thread = u) ∧ s.run moves = some (effects, t) ∧
      t.asleep = [] := by
  rcases h with ⟨p, hp⟩ | howing
  · have hdrop := move_eq_some.mpr ⟨hawake, Step.ended hp⟩
    obtain ⟨t, hwake, ht⟩ := wake_owing (s := { s with
      cache := s.cache.release p, built := s.built.erase (u, p), owing := u :: s.owing })
      hawake List.mem_cons_self
    refine ⟨[.drop u p, .wake u], [.done, .done], t, by simp [Move.thread], ?_, ht⟩
    simp only [run, hdrop, hwake, Option.map_some]
  · obtain ⟨t, hwake, ht⟩ := wake_owing hawake howing
    refine ⟨[.wake u], [.done], t, by simp [Move.thread], ?_, ht⟩
    simp only [run, hwake, Option.map_some]

/-- However the moves of any threads interleave, whoever sleeps for a place finds it reserved, by a
reservation that is not fulfilled, or some thread that fulfilled or gave up a reservation has not woken
the sleepers since. So nobody sleeps where there is no reservation and no wake-up is owed. And if no
finishing thread asks for anything before it has woken the sleepers, then a wake-up that is owed is not
owed by a sleeper: the finishing thread can make all its moves at once, and everybody is awake. -/
theorem run_no_lost_wakeup (h : Shared.run {} moves = some (effects, s)) :
    (∀ v p, (v, p) ∈ s.asleep →
      (s.cache.get? p = some .pending ∧ ∃ u, (u, p) ∈ s.building) ∨
      (∃ u q, (u, q) ∈ s.built) ∨ ∃ u, u ∈ s.owing) ∧
    (s.building = [] → s.built = [] → s.owing = [] → s.asleep = []) ∧
    (Prompt {} moves → ∀ u, s.Finishing u → s.isAsleep u = false ∧
      ∃ more es t, (∀ m ∈ more, m.thread = u) ∧ s.run more = some (es, t) ∧ t.asleep = []) := by
  have hattended := run_attended sane_empty attended_empty h
  have hsleep : ∀ v p, (v, p) ∈ s.asleep →
      (s.cache.get? p = some .pending ∧ ∃ u, (u, p) ∈ s.building) ∨
      (∃ u q, (u, q) ∈ s.built) ∨ ∃ u, u ∈ s.owing := by
    intro v p hmem
    rcases hattended _ hmem with hres | ⟨u, ⟨q, hq⟩ | howing⟩
    · exact .inl hres
    · exact .inr (.inl ⟨u, q, hq⟩)
    · exact .inr (.inr ⟨u, howing⟩)
  refine ⟨hsleep, fun hbuilding hbuilt howing => ?_, fun hprompt u hfin => ?_⟩
  · refine List.eq_nil_iff_forall_not_mem.mpr fun ⟨v, p⟩ hmem => ?_
    have hv := hsleep v p hmem
    simp [hbuilding, hbuilt, howing] at hv
  · have hawake := run_alert alert_empty hprompt h u hfin
    exact ⟨hawake, hfin.wakes hawake⟩

def otherPlace : Place := .element ⟨.value .beta, none⟩ 0

def crossedMoves : List Move :=
  [.acquire 0 contestedPlace, .acquire 1 otherPlace, .acquire 2 contestedPlace,
    .acquire 3 otherPlace, .drop 0 contestedPlace]

/-- The sleeper of the place that is free now is owed a wake-up by the thread that gave it up; the other
one waits for a reservation. One wake-up brings both back. -/
theorem run_no_lost_wakeup_crossed :
    ∃ s, Shared.run {} crossedMoves = some ([.reserved, .reserved, .slept, .slept, .done], s) ∧
      s.asleep = [(3, otherPlace), (2, contestedPlace)] ∧
      (∃ u, u ∈ s.owing) ∧ (∃ u, (u, otherPlace) ∈ s.building) ∧
      ∃ more es t, (∀ m ∈ more, m.thread = 0) ∧ s.run more = some (es, t) ∧ t.asleep = [] := by
  have hrun : Shared.run {} crossedMoves =
      some ([.reserved, .reserved, .slept, .slept, .done], _) := rfl
  refine ⟨_, hrun, rfl, ?_⟩
  obtain ⟨hsleep, _, hwakes⟩ := run_no_lost_wakeup hrun
  have hprompt : Prompt {} crossedMoves :=
    ⟨not_finishing rfl rfl, not_finishing rfl rfl, not_finishing rfl rfl, not_finishing rfl rfl,
      fun _ => .inl ⟨contestedPlace, rfl⟩, trivial⟩
  refine ⟨?_, ⟨1, List.mem_cons_self⟩, (hwakes hprompt 0 (.inr List.mem_cons_self)).2⟩
  rcases hsleep 2 contestedPlace (List.mem_cons_of_mem _ List.mem_cons_self) with
    ⟨hpending, _⟩ | ⟨u, q, hmem⟩ | howing
  · cases hpending
  · cases hmem
  · exact howing

end Shared

end Cache

end Wiring
