import Wiring.Proofs.Resolution.Sound
import Wiring.Proofs.Resolution.Traversal

set_option autoImplicit false

namespace Wiring

namespace Act

variable {α β : Type} {x y z : Act α}

/-- The one action comes to what the other comes to, unless it is stopped by the bound. -/
def Refines (x y : Act α) : Prop := ∀ w : World, x w = y w ∨ ∃ v, x w = .error .exhausted v

theorem Refines.refl (x : Act α) : x.Refines x := fun _ => .inl rfl

theorem Refines.trans (h : x.Refines y) (h' : y.Refines z) : x.Refines z := by
  intro w
  rcases h w with hxy | hx
  · rw [hxy]
    exact h' w
  · exact .inr hx

theorem Refines.bind {f g : α → Act β} {Q : α → Prop} (h : x.Refines y) (hq : y.Ensures Q)
    (hf : ∀ a, Q a → (f a).Refines (g a)) : (x >>= f).Refines (y >>= g) := by
  intro w
  change EStateM.bind x f w = EStateM.bind y g w ∨ ∃ v, EStateM.bind x f w = _
  simp only [EStateM.bind]
  rcases h w with hxy | ⟨v, hx⟩
  · rw [hxy]
    cases hy : y w with
    | ok a v => exact hf a (hq w a v hy) v
    | error stop v => exact .inl rfl
  · rw [hx]
    exact .inr ⟨v, rfl⟩

theorem Refines.attempt (h : x.Refines y) : (attempt x).Refines (attempt y) := by
  intro w
  simp only [Act.attempt]
  rcases h w with hxy | ⟨v, hx⟩
  · exact .inl (by rw [hxy])
  · exact .inr ⟨v, by rw [hx]⟩

theorem Refines.withFrame (h : x.Refines y) (f : Frame) :
    (withFrame f x).Refines (withFrame f y) := by
  intro w
  simp only [Act.withFrame]
  rcases h { w with frames := f :: w.frames } with hxy | ⟨v, hx⟩
  · exact .inl (by rw [hxy])
  · exact .inr ⟨_, by rw [hx]⟩

end Act

namespace Resolution

open Act

def Bounded (self other : Resolver) : Prop := ∀ i key, (self i key).Refines (other i key)

variable {self other : Resolver} {i : InjectorId} {key : Key} {x y : Act Instance}

theorem refines_kept (h : x.Refines y) (i : InjectorId) (p : Place) :
    (kept i p x).Refines (kept i p y) := by
  intro w
  simp only [kept]
  cases (w.cache i).find p with
  | ready a => exact .inl rfl
  | busy => exact .inl rfl
  | vacant =>
    rcases h ((w.record (.acquired i p .vacant)).withCache i fun c => c.reserve p) with
      hxy | ⟨v, hx⟩
    · exact .inl (by rw [hxy])
    · exact .inr ⟨_, by rw [hx]⟩

theorem refines_underConstruction (h : x.Refines y) (i : InjectorId) (key : Key) (limit : Nat) :
    (underConstruction i key limit x).Refines (underConstruction i key limit y) := by
  intro w
  simp only [underConstruction]
  split
  · exact .inl rfl
  · split
    · exact .inl rfl
    · exact h.withFrame _ w

def refinement : Judgement where
  Asks _ := True
  Law _ _ _ := True
  Shares _ _ := True
  Offers _ _ _ := True
  Notes _ := True
  Holds x y Q := x.Refines y ∧ y.Ensures Q
  holds_pure h := ⟨.refl _, ensures_pure h⟩
  holds_refuse _ := ⟨.refl _, ensures_throw _⟩
  holds_panic _ := ⟨.refl _, ensures_throw _⟩
  holds_bind h hf := ⟨h.1.bind h.2 fun a ha => (hf a ha).1, h.2.bind fun a ha => (hf a ha).2⟩
  holds_attempt h := ⟨h.1.attempt, ensures_trivial _⟩
  holds_live _ := ⟨.refl _, ensures_trivial _⟩
  holds_named _ := ⟨.refl _, ensures_trivial _⟩
  holds_shared _ := ⟨.refl _, ensures_trivial _⟩
  holds_count _ := ⟨.refl _, ensures_trivial _⟩
  holds_note _ := ⟨.refl _, ensures_trivial _⟩
  holds_fresh := ⟨.refl _, ensures_trivial _⟩
  holds_record _ := ⟨.refl _, ensures_trivial _⟩

theorem surrounds_refinement (i : InjectorId) : refinement.Surrounds i where
  notes _ _ := trivial
  kept h := ⟨refines_kept h.1 _ _, ensures_trivial _⟩
  underConstruction h := ⟨refines_underConstruction h.1 _ _ _, ensures_trivial _⟩

theorem Bounded.request (h : Bounded self other) : Bounded (request self) (request other) := by
  intro i key w
  have hs : refinement.Resolves self other := fun i key _ => ⟨h i key, ensures_trivial _⟩
  rw [request_eq_respond, request_eq_respond]
  exact (Judgement.holds_respond (surrounds_refinement i) hs trivial key
    (fun _ _ s _ => ⟨s.confined_univ, fun _ _ _ => trivial⟩) _ _ _).1 _

theorem bounded_succ (d : Nat) : Bounded (resolveWithin d) (resolveWithin (d + 1)) := by
  induction d with
  | zero => exact fun _ _ w => .inr ⟨w, rfl⟩
  | succ d ih => exact ih.request

theorem bounded_of_le {d n : Nat} (h : d ≤ n) : Bounded (resolveWithin d) (resolveWithin n) := by
  induction h with
  | refl => exact fun _ _ => .refl _
  | step _ ih => exact fun i key => (ih i key).trans (bounded_succ _ i key)

end Resolution

namespace World

open Resolution

variable {w : World} {d : Nat}

theorem resolveWithin_of_le {n : Nat} (hw : w.Inv) (hd : w.capacity ≤ d + w.frames.length)
    (hn : d ≤ n) (i : InjectorId) (key : Key) :
    resolveWithin d i key w = resolveWithin n i key w := by
  rcases bounded_of_le hn i key w with h | ⟨v, hv⟩
  · exact h
  · have hgood := serves_resolveWithin d i key _ _ w hw ⟨rfl, rfl, hd⟩
    rw [hv] at hgood
    exact hgood.2.elim

/-- Any bound that leaves room for what is not under construction yet is as good as another. -/
theorem resolveWithin_eq_resolve (hw : w.Inv) (hd : w.capacity ≤ d + w.frames.length)
    (i : InjectorId) (key : Key) : resolveWithin d i key w = resolve i key w :=
  (resolveWithin_of_le hw hd (Nat.le_max_left d w.capacity) i key).trans
    (resolveWithin_of_le hw (Nat.le_add_right _ _) (Nat.le_max_right d w.capacity) i key).symm

end World

end Wiring
