import Wiring.Proofs.Resolution.Alike
import Wiring.Proofs.Resolution.Reachable

set_option autoImplicit false

namespace Wiring

/-- Something was requested of an injector other than certain ones. -/
def Event.Strays (S : InjectorId → Prop) : Event → Prop
  | .requested i .. => ¬ S i
  | _ => False

instance {S : InjectorId → Prop} [DecidablePred S] : (e : Event) → Decidable (e.Strays S)
  | .requested i .. => inferInstanceAs (Decidable (¬ S i))
  | .produced .. | .entered .. | .assembled .. | .acquired .. | .stored .. | .yielded .. =>
    inferInstanceAs (Decidable False)

namespace World

structure Abstained (S : InjectorId → Prop) (r : InjectorId → Registry) (w v : World) : Prop where
  registry : v.registry = r
  events : ∃ new, v.events = new ++ w.events ∧ ∀ e ∈ new, ¬ e.Strays S

variable {S : InjectorId → Prop} {r : InjectorId → Registry} {w v t : World}

theorem Abstained.refl (h : w.registry = r) : Abstained S r w w := ⟨h, [], rfl, by simp⟩

theorem Abstained.trans (h : Abstained S r w v) (h' : Abstained S r v t) : Abstained S r w t := by
  obtain ⟨new, hnew, hkeeps⟩ := h.events
  obtain ⟨more, hmore, hkeeps'⟩ := h'.events
  refine ⟨h'.registry, more ++ new, by rw [hmore, hnew, List.append_assoc], fun e he => ?_⟩
  exact (List.mem_append.mp he).elim (hkeeps' e) (hkeeps e)

theorem Abstained.record (h : Abstained S r w v) {e : Event} (he : ¬ e.Strays S) :
    Abstained S r w (v.record e) :=
  h.trans ⟨h.registry, [e], rfl, by simpa using he⟩

theorem Abstained.congr (h : Abstained S r w v) (hr : t.registry = v.registry) (he : t.events = v.events) :
    Abstained S r w t := ⟨hr.trans h.registry, he ▸ h.events⟩

theorem Abstained.withCache (h : Abstained S r w v) (i : InjectorId) (f : Cache → Cache) :
    Abstained S r w (v.withCache i f) := h.congr (funext fun j => v.registry_withCache i f j) rfl

end World

namespace Act

open World

variable {α β : Type} {S : InjectorId → Prop} {r : InjectorId → Registry} {Q : α → Prop} {R : β → Prop}

def Abstains (S : InjectorId → Prop) (r : InjectorId → Registry) (x : Act α) (Q : α → Prop) : Prop :=
  ∀ w : World, w.registry = r → (∃ a v, x w = .ok a v ∧ Q a ∧ Abstained S r w v) ∨
    ∃ stop v, x w = .error stop v ∧ Abstained S r w v

variable {x : Act α}

theorem abstains_pure {a : α} (h : Q a) : Abstains S r (pure a) Q :=
  fun w hw => .inl ⟨a, w, rfl, h, .refl hw⟩

theorem abstains_throw (stop : Stop) : Abstains S r (throw stop : Act α) Q :=
  fun w hw => .inr ⟨stop, w, rfl, .refl hw⟩

theorem Abstains.bind {f : α → Act β} (hx : Abstains S r x Q) (hf : ∀ a, Q a → Abstains S r (f a) R) :
    Abstains S r (x >>= f) R := by
  intro w hw
  change (∃ b t, EStateM.bind x f w = _ ∧ _) ∨ ∃ stop t, EStateM.bind x f w = _ ∧ _
  simp only [EStateM.bind]
  rcases hx w hw with ⟨a, v, hv, ha, hwv⟩ | ⟨stop, v, hv, hwv⟩ <;> rw [hv]
  · rcases hf a ha v hwv.registry with ⟨b, t, ht, hb, hvt⟩ | ⟨stop, t, ht, hvt⟩
    · exact .inl ⟨b, t, ht, hb, hwv.trans hvt⟩
    · exact .inr ⟨stop, t, ht, hwv.trans hvt⟩
  · exact .inr ⟨stop, v, rfl, hwv⟩

theorem abstains_look (f : World → α) : Abstains S r (look f) fun _ => True :=
  fun w hw => .inl ⟨f w, w, rfl, trivial, .refl hw⟩

theorem abstains_record {e : Event} (he : ¬ e.Strays S) : Abstains S r (record e) fun _ => True :=
  fun w hw => .inl ⟨(), w.record e, rfl, trivial, (Abstained.refl hw).record he⟩

theorem abstains_note (n : Note) : Abstains S r (modify fun w => w.note n) fun _ => True :=
  fun w hw => .inl ⟨(), w.note n, rfl, trivial, (Abstained.refl hw).congr rfl rfl⟩

theorem abstains_count (tally : Nat) : Abstains S r (count tally) fun _ => True :=
  fun _ hw => .inl ⟨_, _, rfl, trivial, (Abstained.refl hw).congr rfl rfl⟩

theorem abstains_fresh : Abstains S r fresh fun _ => True :=
  fun _ hw => .inl ⟨_, _, rfl, trivial, (Abstained.refl hw).congr rfl rfl⟩

theorem Abstains.attempt (h : Abstains S r x Q) : Abstains S r (attempt x) fun _ => True := by
  intro w hw
  simp only [Act.attempt]
  rcases h w hw with ⟨a, v, hv, _, hwv⟩ | ⟨stop, v, hv, hwv⟩ <;> rw [hv]
  · exact .inl ⟨_, v, rfl, trivial, hwv⟩
  · cases stop with
    | error e => exact .inl ⟨_, v, rfl, trivial, hwv⟩
    | _ => exact .inr ⟨_, v, rfl, hwv⟩

end Act

namespace Resolution

open World Act

variable {S : InjectorId → Prop} {r : InjectorId → Registry} {self : Resolver} {i : InjectorId}
  {key : Key} {x : Act Instance}

def abstinence (S : InjectorId → Prop) (r : InjectorId → Registry) : Judgement where
  Asks := S
  Law _ _ _ := True
  Shares _ _ := True
  Offers _ _ _ := True
  Notes e := ¬ e.Strays S
  Holds x _ Q := Abstains S r x Q
  holds_pure := abstains_pure
  holds_refuse _ := abstains_throw _
  holds_panic _ := abstains_throw _
  holds_bind := Abstains.bind
  holds_attempt := Abstains.attempt
  holds_live _ := abstains_look _
  holds_named _ := abstains_look _
  holds_shared _ := abstains_look _
  holds_count := abstains_count
  holds_note := abstains_note
  holds_fresh := abstains_fresh
  holds_record := abstains_record

theorem abstains_kept (hx : Abstains S r x fun _ => True) (i : InjectorId) (p : Place) :
    Abstains S r (kept i p x) fun _ => True := by
  intro w hw
  simp only [kept]
  have hacquired : ∀ found, Abstained S r w (w.record (.acquired i p found)) :=
    fun found => (Abstained.refl hw).record id
  cases (w.cache i).find p with
  | ready a => exact .inl ⟨a, _, rfl, trivial, hacquired _⟩
  | busy => exact .inr ⟨_, _, rfl, hacquired _⟩
  | vacant =>
    have hreserved := (hacquired .vacant).withCache i fun c => c.reserve p
    dsimp only
    rcases hx _ hreserved.registry with ⟨a, v, hv, _, hwv⟩ | ⟨stop, v, hv, hwv⟩ <;> rw [hv]
    · exact .inl ⟨a, _, rfl, trivial, ((hreserved.trans hwv).withCache i _).record id⟩
    · exact .inr ⟨stop, _, rfl, (hreserved.trans hwv).withCache i _⟩

theorem abstains_underConstruction (hx : Abstains S r x fun _ => True) (i : InjectorId) (key : Key)
    (limit : Nat) : Abstains S r (underConstruction i key limit x) fun _ => True := by
  intro w hw
  simp only [underConstruction]
  split
  · exact .inr ⟨_, w, rfl, .refl hw⟩
  · split
    · exact .inr ⟨_, w, rfl, .refl hw⟩
    · simp only [withFrame]
      rcases hx { w with frames := ⟨i, key⟩ :: w.frames } hw with ⟨a, v, hv, _, hwv⟩ | ⟨stop, v, hv, hwv⟩ <;>
        rw [hv]
      · exact .inl ⟨a, _, rfl, trivial, hwv.registry, hwv.events⟩
      · exact .inr ⟨stop, _, rfl, hwv.registry, hwv.events⟩

theorem surrounds_abstinence (i : InjectorId) : (abstinence S r).Surrounds i where
  notes e he := by
    cases e with
    | requested i key frames caches => exact absurd rfl (he i key frames caches)
    | _ => exact id
  kept h := abstains_kept h _ _
  underConstruction h := abstains_underConstruction h _ _ _

theorem abstinence_request (hc : SelfContained S r) (hs : (abstinence S r).Resolves self self) :
    (abstinence S r).Resolves (request self) (request self) := by
  intro i key hi w hw
  have hrequested : Abstained S r w (w.requested i key) := (Abstained.refl hw).record (not_not.mpr hi)
  have hadmits : ∀ e, (w.registry i).find? key = some e → ∀ s ∈ e.strategies, (abstinence S r).Admits s :=
    fun e he s hse => ⟨hc i hi _ _ (hw ▸ he) s hse, fun _ _ _ => trivial⟩
  rw [request_eq_respond]
  rcases Judgement.holds_respond (surrounds_abstinence i) hs hi key hadmits _ _ _ _ hrequested.registry with
    ⟨a, v, hv, ha, h⟩ | ⟨stop, v, hv, h⟩
  · exact .inl ⟨a, v, hv, ha, hrequested.trans h⟩
  · exact .inr ⟨stop, v, hv, hrequested.trans h⟩

/-- If the routines of certain injectors keep to these, nothing is requested of others. -/
theorem resolveWithin_abstains {a : InjectorId} {w : World} (hc : SelfContained (· = a) w.registry) (d : Nat)
    (key : Key) : ∃ new, (w.after (resolveWithin d a key)).events = new ++ w.events ∧
      ∀ e ∈ new, ¬ e.Strays (· = a) := by
  simp only [World.after]
  rcases Judgement.resolves_resolveWithin (fun _ _ => abstains_throw _) (fun _ => abstinence_request hc) d a key
    rfl w rfl with ⟨_, v, hv, _, h⟩ | ⟨_, v, hv, h⟩ <;> rw [hv] <;>
    exact h.events

end Resolution

end Wiring
