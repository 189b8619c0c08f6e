import Wiring.Cache.Threads

/-!
Threads that share a cache never make two instances for one place.

A place is reserved exactly while one reservation of it is not fulfilled; what is kept at a place stays
there. Both hold after every move, so they hold after every interleaving of any threads, whoever fulfills,
fails or is slow.
-/

set_option autoImplicit false

namespace Wiring

namespace Cache

namespace Shared

/-- What a thread that is awake does by a move, by what it finds. -/
inductive Step (s : Shared) : Move → Effect → Shared → Prop where
  | look (u : ThreadId) (p : Place) : Step s (.look u p) (.seen (s.cache.ready? p)) s
  | answered {u : ThreadId} {p : Place} {a : Instance} : s.cache.get? p = some (.ready a) →
      Step s (.acquire u p) (.answered a) s
  | slept {u : ThreadId} {p : Place} : s.cache.get? p = some .pending →
      Step s (.acquire u p) .slept { s with asleep := (u, p) :: s.asleep }
  | reserved {u : ThreadId} {p : Place} : s.cache.get? p = none →
      Step s (.acquire u p) .reserved
        { s with cache := s.cache.reserve p, building := (u, p) :: s.building }
  | fulfilled {u : ThreadId} {p : Place} {a : Instance} : (u, p) ∈ s.building →
      Step s (.fulfill u p a) .done
        { s with
          cache := s.cache.fulfill p a
          building := s.building.erase (u, p)
          built := (u, p) :: s.built }
  | ended {u : ThreadId} {p : Place} : (u, p) ∈ s.built →
      Step s (.drop u p) .done
        { s with cache := s.cache.release p, built := s.built.erase (u, p), owing := u :: s.owing }
  | abandoned {u : ThreadId} {p : Place} : (u, p) ∉ s.built → (u, p) ∈ s.building →
      Step s (.drop u p) .done
        { s with
          cache := s.cache.release p
          building := s.building.erase (u, p)
          owing := u :: s.owing }
  | woken {u : ThreadId} : u ∈ s.owing →
      Step s (.wake u) .done { s with asleep := [], owing := s.owing.erase u }

variable {s t : Shared} {m : Move} {e : Effect} {u : ThreadId} {p q : Place} {a b : Instance}

theorem move_eq_some :
    s.move m = some (e, t) ↔ s.isAsleep m.thread = false ∧ s.Step m e t := by
  constructor
  · intro h
    unfold move at h
    split at h
    · contradiction
    · rename_i hawake
      refine ⟨by simpa using hawake, ?_⟩
      cases m with
      | look u p =>
        cases h
        exact .look u p
      | acquire u p =>
        cases hp : s.cache.get? p with
        | none =>
          simp only [find, hp] at h
          cases h
          exact .reserved hp
        | some x =>
          cases x with
          | pending =>
            simp only [find, hp] at h
            cases h
            exact .slept hp
          | ready a =>
            simp only [find, hp] at h
            cases h
            exact .answered hp
      | fulfill u p a =>
        simp only [Option.ite_none_right_eq_some] at h
        obtain ⟨hmem, heq⟩ := h
        cases heq
        exact .fulfilled hmem
      | drop u p =>
        dsimp only at h
        split at h
        · cases h
          exact .ended (by assumption)
        · simp only [Option.ite_none_right_eq_some] at h
          obtain ⟨hmem, heq⟩ := h
          cases heq
          exact .abandoned (by assumption) hmem
      | wake u =>
        simp only [Option.ite_none_right_eq_some] at h
        obtain ⟨hmem, heq⟩ := h
        cases heq
        exact .woken hmem
  · rintro ⟨hawake, h⟩
    unfold move
    rw [if_neg (by simp [hawake])]
    cases h <;> simp_all [find]

def reservations (s : Shared) (p : Place) : Nat := s.building.countP fun r => r.2 = p

theorem reservations_pos (h : (u, p) ∈ s.building) : 0 < s.reservations p :=
  List.countP_pos_iff.mpr ⟨_, h, by simp⟩

structure Sane (s : Shared) : Prop where
  pending : ∀ p, s.cache.get? p = some .pending ↔ s.reservations p = 1
  single : ∀ p, s.reservations p ≤ 1
  built : ∀ u p, (u, p) ∈ s.built → ∃ a, s.cache.get? p = some (.ready a)

theorem sane_empty : ({} : Shared).Sane :=
  ⟨fun p => by simp [Table.get?, reservations], fun p => by simp [reservations],
    fun u p h => by simp at h⟩

theorem Sane.reserved (hs : s.Sane) (h : (u, p) ∈ s.building) :
    s.reservations p = 1 ∧ s.cache.get? p = some .pending := by
  have hone : s.reservations p = 1 := Nat.le_antisymm (hs.single p) (reservations_pos h)
  exact ⟨hone, (hs.pending p).mpr hone⟩

theorem Sane.reservations_eq_zero (hs : s.Sane) (h : s.cache.get? p ≠ some .pending) :
    s.reservations p = 0 := by
  have hne : s.reservations p ≠ 1 := fun hone => h ((hs.pending p).mpr hone)
  have := hs.single p
  omega

theorem countP_erase_reservation (h : (u, p) ∈ s.building) (q : Place) :
    (s.building.erase (u, p)).countP (fun r => r.2 = q) =
      s.reservations q - if p = q then 1 else 0 := by
  have hperm := (List.perm_cons_erase h).countP_eq fun r : ThreadId × Place => r.2 = q
  rw [List.countP_cons] at hperm
  simp only [decide_eq_true_eq] at hperm
  unfold reservations
  omega

theorem Step.ready (hs : s.Sane) (h : s.Step m e t) (hp : s.cache.get? p = some (.ready a)) :
    t.cache.get? p = some (.ready a) := by
  cases h with
  | look => exact hp
  | answered => exact hp
  | slept => exact hp
  | @reserved u q hnone =>
    rw [get?_reserve, if_neg]
    · exact hp
    · rintro rfl
      simp [hp] at hnone
  | @fulfilled u q b hmem =>
    have hmem' := (hs.reserved hmem).2
    rw [get?_fulfill, if_neg]
    · exact hp
    · rintro rfl
      simp [hp] at hmem'
  | ended => rw [get?_release, if_neg (by rintro ⟨rfl, hq⟩; simp [hp] at hq), hp]
  | abandoned => rw [get?_release, if_neg (by rintro ⟨rfl, hq⟩; simp [hp] at hq), hp]
  | woken => exact hp

theorem Sane.erase (hs : s.Sane) (hmem : (u, p) ∈ s.building)
    (ht : t.building = s.building.erase (u, p)) (q : Place) :
    t.reservations q = if p = q then 0 else s.reservations q := by
  rw [reservations, ht, countP_erase_reservation hmem]
  split
  · rename_i heq
    rw [← heq, (hs.reserved hmem).1]
  · rfl

theorem Sane.reserve (hs : s.Sane) (hnone : s.cache.get? p = none) (u : ThreadId) :
    Sane { s with cache := s.cache.reserve p, building := (u, p) :: s.building } := by
  have hzero : s.reservations p = 0 := hs.reservations_eq_zero (by simp [hnone])
  have hcount : ∀ q, reservations { s with
      cache := s.cache.reserve p, building := (u, p) :: s.building } q =
        if p = q then 1 else s.reservations q := by
    intro q
    simp only [reservations, List.countP_cons, decide_eq_true_eq]
    split
    · rename_i heq
      rw [← heq]
      simpa [reservations] using hzero
    · rfl
  refine ⟨fun q => ?_, fun q => ?_, fun v q hq => ?_⟩
  · rw [get?_reserve, hcount]
    split
    · simp
    · exact hs.pending q
  · rw [hcount]
    split
    · exact Nat.le_refl 1
    · exact hs.single q
  · obtain ⟨a, ha⟩ := hs.built v q hq
    exact ⟨a, Step.ready hs (.reserved hnone) ha⟩

theorem Sane.fulfill (hs : s.Sane) (hmem : (u, p) ∈ s.building) (a : Instance) :
    Sane { s with
      cache := s.cache.fulfill p a
      building := s.building.erase (u, p)
      built := (u, p) :: s.built } := by
  refine ⟨fun q => ?_, fun q => ?_, fun v q hq => ?_⟩
  · rw [get?_fulfill, hs.erase hmem rfl]
    split
    · simp
    · exact hs.pending q
  · rw [hs.erase hmem rfl]
    split
    · exact Nat.zero_le 1
    · exact hs.single q
  · rcases List.mem_cons.mp hq with heq | hq
    · cases heq
      exact ⟨a, by rw [get?_fulfill, if_pos rfl]⟩
    · obtain ⟨b, hb⟩ := hs.built v q hq
      exact ⟨b, Step.ready hs (.fulfilled hmem) hb⟩

theorem Sane.finish (hs : s.Sane) (hmem : (u, p) ∈ s.built) :
    Sane { s with
      cache := s.cache.release p, built := s.built.erase (u, p), owing := u :: s.owing } := by
  obtain ⟨a, ha⟩ := hs.built u p hmem
  have hsame : ∀ q, (s.cache.release p).get? q = s.cache.get? q := by
    intro q
    rw [get?_release, if_neg (by simp [ha])]
  refine ⟨fun q => by rw [hsame]; exact hs.pending q, hs.single, fun v q hq => ?_⟩
  obtain ⟨b, hb⟩ := hs.built v q (List.mem_of_mem_erase hq)
  exact ⟨b, (hsame q).trans hb⟩

theorem Sane.abandon (hs : s.Sane) (hbuilt : (u, p) ∉ s.built) (hmem : (u, p) ∈ s.building) :
    Sane { s with
      cache := s.cache.release p
      building := s.building.erase (u, p)
      owing := u :: s.owing } := by
  refine ⟨fun q => ?_, fun q => ?_, fun v q hq => ?_⟩
  · rw [get?_release, hs.erase hmem rfl, (hs.reserved hmem).2]
    by_cases heq : p = q
    · simp [heq]
    · simp only [heq, false_and, if_false]
      exact hs.pending q
  · rw [hs.erase hmem rfl]
    split
    · exact Nat.zero_le 1
    · exact hs.single q
  · obtain ⟨b, hb⟩ := hs.built v q hq
    exact ⟨b, Step.ready hs (.abandoned hbuilt hmem) hb⟩

theorem Step.sane (hs : s.Sane) (h : s.Step m e t) : t.Sane := by
  cases h with
  | look => exact hs
  | answered => exact hs
  | slept => exact ⟨hs.pending, hs.single, hs.built⟩
  | reserved hnone => exact hs.reserve hnone _
  | fulfilled hmem => exact hs.fulfill hmem _
  | ended hmem => exact hs.finish hmem
  | abandoned hbuilt hmem => exact hs.abandon hbuilt hmem
  | woken => exact ⟨hs.pending, hs.single, hs.built⟩

def Tells (p : Place) (a : Instance) : Move × Effect → Prop
  | (.look _ q, .seen found) => q = p ∧ found = some a
  | (.acquire _ q, .answered b) => q = p ∧ b = a
  | (.fulfill _ q b, _) => q = p ∧ b = a
  | _ => False

theorem Step.told (h : s.Step m e t) (ht : Tells p a (m, e)) :
    t.cache.get? p = some (.ready a) := by
  cases h with
  | look u q =>
    obtain ⟨rfl, hseen⟩ := ht
    unfold ready? at hseen
    split at hseen
    · rename_i hq
      cases hseen
      exact hq
    · contradiction
  | answered hq =>
    obtain ⟨rfl, rfl⟩ := ht
    exact hq
  | fulfilled =>
    obtain ⟨rfl, rfl⟩ := ht
    rw [get?_fulfill, if_pos rfl]
  | _ => exact ht.elim

variable {moves more : List Move} {effects : List Effect}

theorem run_cons {es : List Effect} (h : s.run (m :: moves) = some (es, t)) :
    ∃ e v effects, s.move m = some (e, v) ∧ v.run moves = some (effects, t) ∧
      es = e :: effects := by
  rw [run] at h
  split at h
  · contradiction
  · rename_i e v hm
    obtain ⟨⟨effects, u⟩, hrest, heq⟩ := Option.map_eq_some_iff.mp h
    cases heq
    exact ⟨e, v, effects, hm, hrest, rfl⟩

theorem run_sane (hs : s.Sane) (h : s.run moves = some (effects, t)) : t.Sane := by
  induction moves generalizing s effects with
  | nil =>
    cases h
    exact hs
  | cons m rest ih =>
    obtain ⟨e, v, es, hm, hrest, rfl⟩ := run_cons h
    exact ih ((move_eq_some.mp hm).2.sane hs) hrest

theorem run_ready (hs : s.Sane) (h : s.run moves = some (effects, t))
    (hp : s.cache.get? p = some (.ready a)) : t.cache.get? p = some (.ready a) := by
  induction moves generalizing s effects with
  | nil =>
    cases h
    exact hp
  | cons m rest ih =>
    obtain ⟨e, v, es, hm, hrest, rfl⟩ := run_cons h
    have hstep := (move_eq_some.mp hm).2
    exact ih (hstep.sane hs) hrest (hstep.ready hs hp)

/-- Whatever instance a thread was told of in a run is kept at its end. -/
theorem run_told (hs : s.Sane) (h : s.run moves = some (effects, t)) :
    ∀ x ∈ moves.zip effects, Tells p a x → t.cache.get? p = some (.ready a) := by
  induction moves generalizing s effects with
  | nil => simp
  | cons m rest ih =>
    obtain ⟨e, v, es, hm, hrest, rfl⟩ := run_cons h
    have hstep := (move_eq_some.mp hm).2
    have hv := hstep.sane hs
    intro x hx hp
    rcases List.mem_cons.mp hx with rfl | hx
    · exact run_ready hv hrest (hstep.told hp)
    · exact ih hv hrest x hx hp

/-- An unfulfilled reservation can be given up, and then its place, and no other, is as if it had never
been reserved. -/
theorem drop_unfulfilled (hs : s.Sane) (hmem : (u, p) ∈ s.building)
    (hawake : s.isAsleep u = false) :
    ∃ t, s.move (.drop u p) = some (.done, t) ∧ t.cache.get? p = none ∧ t.reservations p = 0 ∧
      (∀ q, q ≠ p → t.cache.get? q = s.cache.get? q ∧ t.reservations q = s.reservations q) ∧
      ∀ v, t.isAsleep v = false → ∃ t', t.move (.acquire v p) = some (.reserved, t') := by
  have hpending := (hs.reserved hmem).2
  have hbuilt : (u, p) ∉ s.built := by
    intro hb
    obtain ⟨a, ha⟩ := hs.built u p hb
    simp [hpending] at ha
  have hvacant : (s.cache.release p).get? p = none := by
    rw [get?_release, if_pos ⟨rfl, hpending⟩]
  refine ⟨_, move_eq_some.mpr ⟨hawake, .abandoned hbuilt hmem⟩, hvacant, ?_, fun q hq => ⟨?_, ?_⟩,
    fun v hv => ⟨_, move_eq_some.mpr ⟨hv, .reserved hvacant⟩⟩⟩
  · rw [hs.erase hmem rfl, if_pos rfl]
  · rw [get?_release, if_neg fun h => hq h.1.symm]
  · rw [hs.erase hmem rfl, if_neg (Ne.symm hq)]

/-- However the moves of any threads interleave, a place is reserved exactly while one reservation of it
is not fulfilled. A reservation is granted only while there is no other and before anyone was told of an
instance. An instance that is kept stays, and all threads are told of the same. A reservation that is given
up leaves its place to be reserved again, and other places alone. -/
theorem run_single_instance (h : Shared.run {} moves = some (effects, s)) :
    (∀ p, s.reservations p ≤ 1 ∧
      (s.cache.get? p = some .pending ↔ s.reservations p = 1)) ∧
    (∀ u p t, s.move (.acquire u p) = some (.reserved, t) →
      s.reservations p = 0 ∧ ∀ a, ∀ x ∈ moves.zip effects, ¬ Tells p a x) ∧
    (∀ p a more es t, s.cache.get? p = some (.ready a) → s.run more = some (es, t) →
      t.cache.get? p = some (.ready a)) ∧
    (∀ p a b, ∀ x ∈ moves.zip effects, ∀ y ∈ moves.zip effects,
      Tells p a x → Tells p b y → a = b) ∧
    (∀ u p, (u, p) ∈ s.building → s.isAsleep u = false →
      ∃ t, s.move (.drop u p) = some (.done, t) ∧ t.cache.get? p = none ∧ t.reservations p = 0 ∧
        (∀ q, q ≠ p →
          t.cache.get? q = s.cache.get? q ∧ t.reservations q = s.reservations q) ∧
        ∀ v, t.isAsleep v = false → ∃ t', t.move (.acquire v p) = some (.reserved, t')) := by
  have hs := run_sane sane_empty h
  have htold := fun {p a} => run_told (p := p) (a := a) sane_empty h
  refine ⟨fun p => ⟨hs.single p, hs.pending p⟩, fun u p t hm => ?_,
    fun p a more es t hp hmore => run_ready hs hmore hp, fun p a b x hx y hy ha hb => ?_,
    fun u p hmem hawake => drop_unfulfilled hs hmem hawake⟩
  · cases (move_eq_some.mp hm).2 with
    | reserved hnone =>
      refine ⟨hs.reservations_eq_zero (by simp [hnone]), fun a x hx ht => ?_⟩
      simp [htold x hx ht] at hnone
  · have hab := (htold x hx ha).symm.trans (htold y hy hb)
    simpa using hab

def contestedPlace : Place := .element ⟨.value .alpha, none⟩ 0

def contestedMoves : List Move := [.acquire 0 contestedPlace, .acquire 1 contestedPlace]

/-- A place that another thread waits for is reserved, and is free again once it is given up. -/
theorem run_single_instance_contested :
    ∃ s, Shared.run {} contestedMoves = some ([.reserved, .slept], s) ∧
      s.cache.get? contestedPlace = some .pending ∧
      ∃ t, s.move (.drop 0 contestedPlace) = some (.done, t) ∧
        t.cache.get? contestedPlace = none ∧ t.isAsleep 1 = true := by
  have hrun : Shared.run {} contestedMoves = some ([.reserved, .slept], _) := rfl
  refine ⟨_, hrun, ?_⟩
  obtain ⟨hpending, _, _, _, hdrop⟩ := run_single_instance hrun
  obtain ⟨t, ht, hnone, _⟩ := hdrop 0 contestedPlace List.mem_cons_self rfl
  refine ⟨(hpending contestedPlace).2.mpr rfl, t, ht, hnone, ?_⟩
  cases ht
  rfl

end Shared

end Cache

end Wiring
