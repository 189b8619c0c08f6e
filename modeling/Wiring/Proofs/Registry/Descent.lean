import Wiring.Proofs.Registry.Graph

set_option autoImplicit false

namespace Wiring

open Relation

namespace Registry

def Draws (r : Registry) (ds : List Dependency) (q : Place) : Prop :=
  ∃ b, Demands ds b ∧ ReflTransGen r.Edge b q.key

/-- What is at the one place is made of what is at the other: an element of its collection, or something that
its dependencies lead to. -/
def MadeOf (r : Registry) (p q : Place) : Prop :=
  (∃ a n, p = .binding a ∧ q = .element a n) ∨ ∃ s, r.spot? p = some s ∧ r.Draws s.dependencies q

def Spans (r : Registry) (p q : Place) : Prop := q = p ∨ r.MadeOf p q

variable {r : Registry} {ds es : List Dependency} {p q : Place} {s : Spot}

theorem not_draws_nil : ¬ r.Draws [] q := by
  rintro ⟨b, ⟨d, hd, _⟩, _⟩
  contradiction

theorem not_draws_lazy (key : Key) : ¬ r.Draws [.lazy key] q := by
  rintro ⟨b, ⟨d, hd, hkind, _⟩, _⟩
  rw [List.mem_singleton.mp hd] at hkind
  contradiction

theorem draws_append : r.Draws (ds ++ es) q ↔ r.Draws ds q ∨ r.Draws es q := by
  constructor
  · rintro ⟨b, ⟨d, hd, hb⟩, hq⟩
    exact (List.mem_append.mp hd).imp (fun hd => ⟨b, ⟨d, hd, hb⟩, hq⟩)
      fun hd => ⟨b, ⟨d, hd, hb⟩, hq⟩
  · rintro (⟨b, ⟨d, hd, hb⟩, hq⟩ | ⟨b, ⟨d, hd, hb⟩, hq⟩)
    · exact ⟨b, ⟨d, List.mem_append_left _ hd, hb⟩, hq⟩
    · exact ⟨b, ⟨d, List.mem_append_right _ hd, hb⟩, hq⟩

theorem draws_flatMap {α : Type} {l : List α} {f : α → List Dependency} :
    r.Draws (l.flatMap f) q ↔ ∃ x ∈ l, r.Draws (f x) q := by
  constructor
  · rintro ⟨b, ⟨d, hd, hb⟩, hq⟩
    obtain ⟨x, hx, hd⟩ := List.mem_flatMap.mp hd
    exact ⟨x, hx, b, ⟨d, hd, hb⟩, hq⟩
  · rintro ⟨x, hx, b, ⟨d, hd, hb⟩, hq⟩
    exact ⟨b, ⟨d, List.mem_flatMap.mpr ⟨x, hx, hd⟩, hb⟩, hq⟩

theorem madeOf_element {a : Ident} {n : Nat} (h : r.spot? (.element a n) = some s) :
    r.MadeOf (.element a n) q ↔ r.Draws s.dependencies q := by
  constructor
  · rintro (⟨_, _, hp, _⟩ | ⟨s', hs', hq⟩)
    · contradiction
    · cases h.symm.trans hs'
      exact hq
  · exact fun hq => .inr ⟨s, h, hq⟩

theorem draws_direct {key : Key} {e : Entry} (hinj : key.isInjector = false)
    (he : r.at? key.ident = some e) :
    r.Draws [.direct key] q ↔ r.Spans (.binding key.ident) q := by
  have hspot := spot?_binding he
  constructor
  · rintro ⟨b, ⟨d, hd, _, _, rfl⟩, hq⟩
    rw [List.mem_singleton.mp hd] at hq
    rcases hq.cases_head with heq | ⟨c, ⟨e', he', hc⟩, hcq⟩
    · cases q with
      | binding a => exact .inl (congrArg Place.binding heq.symm)
      | element a n => exact .inr (.inl ⟨a, n, congrArg Place.binding heq, rfl⟩)
    · cases he.symm.trans he'
      exact .inr (.inr ⟨_, hspot, c, hc, hcq⟩)
  · have hkey : Demands [.direct key] key.ident := ⟨_, List.mem_singleton_self _, rfl, hinj, rfl⟩
    rintro (rfl | ⟨a, n, ha, rfl⟩ | ⟨s, hs, b, hb, hq⟩)
    · exact ⟨_, hkey, .refl⟩
    · cases ha
      exact ⟨_, hkey, .refl⟩
    · cases hspot.symm.trans hs
      exact ⟨_, hkey, .head ⟨e, he, hb⟩ hq⟩

theorem Singleton.contribution {a : Ident} {n : Nat} (h : r.Singleton (.element a n)) :
    ∃ g c, r.at? a = some (.aggregate g) ∧ g.contributions[n]? = some c := by
  obtain ⟨s, hs, _⟩ := h
  simp only [spot?] at hs
  split at hs
  · rename_i g hg
    obtain ⟨c, hc, _⟩ := Option.map_eq_some_iff.mp hs
    exact ⟨g, c, hg, hc⟩
  · contradiction

end Registry

end Wiring
