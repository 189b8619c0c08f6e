import Wiring.Proofs.Resolution.Account

/-!
Which keys resolve.

If constructors and providers do nothing but make their values, whether a key resolves is a matter of the
graph of direct dependencies alone, whatever is kept already: everything below the key has to be bound,
nothing there may depend on itself, and no chain may be longer than the limit.
-/

set_option autoImplicit false

namespace Wiring

open Relation

namespace Registry

/-- The key is bound, all that it depends on is supplied, and no chain has more than `m` keys. -/
def Supplied (r : Registry) : Nat → Ident → Prop
  | 0, _ => False
  | m + 1, a => ∃ e, r.at? a = some e ∧ ∀ b, Demands e.dependencies b → r.Supplied m b

variable {r : Registry} {m : Nat} {a b : Ident}

theorem Supplied.edge (h : r.Supplied (m + 1) a) (hab : r.Edge a b) : r.Supplied m b := by
  obtain ⟨e, he, hd⟩ := h
  obtain ⟨e', he', hb⟩ := hab
  cases he.symm.trans he'
  exact hd b hb

theorem Supplied.within (h : r.Supplied m a) : r.Within m a := by
  induction m generalizing a with
  | zero => exact h.elim
  | succ m ih => exact fun b hb => ih (h.edge hb)

theorem supplied_of_within (h : r.Within m a)
    (hbound : ∀ b, ReflTransGen r.Edge a b → ∃ e, r.at? b = some e) : r.Supplied m a := by
  induction m generalizing a with
  | zero => exact h.elim
  | succ m ih =>
    obtain ⟨e, he⟩ := hbound a .refl
    refine ⟨e, he, fun b hb => ?_⟩
    have hab : r.Edge a b := ⟨e, he, hb⟩
    exact ih (h b hab) fun c hc => hbound c (.head hab hc)

/-- The key can be requested: it is supplied as far as the limit allows, and leads to no key of the path. -/
def Clear (r : Registry) (path : List Key) (key : Key) : Prop := key.isInjector = false →
  ∃ m, path.length + m ≤ r.config.maxDepth ∧ r.Supplied m key.ident ∧
    ∀ k ∈ path, ¬ ReflTransGen r.Edge key.ident k.ident

variable {path : List Key} {key target : Key} {e : Entry}

theorem Supplied.pos (h : r.Supplied m a) : 0 < m := by
  cases m with
  | zero => exact h.elim
  | succ m => exact Nat.succ_pos m

theorem Clear.next (h : r.Clear path key) (hinj : key.isInjector = false) (he : r.find? key = some e)
    (hd : Dependency.direct target ∈ e.dependencies) : r.Clear (path ++ [key]) target := by
  intro htarget
  obtain ⟨m, hroom, hsupplied, hfree⟩ := h hinj
  obtain ⟨n, rfl⟩ : ∃ n, m = n + 1 := ⟨m - 1, by have := hsupplied.pos; omega⟩
  have hedge : r.Edge key.ident target.ident := ⟨e, he, _, hd, rfl, htarget, rfl⟩
  refine ⟨n, by simp only [List.length_append, List.length_singleton]; omega, hsupplied.edge hedge, ?_⟩
  intro k hk hreach
  rcases List.mem_append.mp hk with hk | hk
  · exact hfree k hk (.head hedge hreach)
  · rw [List.mem_singleton.mp hk] at hreach
    exact hsupplied.within.irrefl (TransGen.head' hedge hreach)

theorem Clear.not_lacks (h : r.Clear path key) : ¬ r.Lacks key := by
  rintro ⟨hinj, hlacks⟩
  obtain ⟨m, _, hsupplied, _⟩ := h hinj
  obtain ⟨n, rfl⟩ : ∃ n, m = n + 1 := ⟨m - 1, by have := hsupplied.pos; omega⟩
  obtain ⟨e, he, _⟩ := hsupplied
  rw [find?_eq_at, he] at hlacks
  contradiction

theorem Clear.dropWhile_eq_nil (h : r.Clear path key) (hinj : key.isInjector = false) :
    path.dropWhile (fun k => k.ident ≠ key.ident) = [] := by
  obtain ⟨_, _, _, hfree⟩ := h hinj
  refine List.dropWhile_eq_nil_iff.mpr fun k hk => decide_eq_true fun heq => hfree k hk ?_
  rw [heq]

theorem Clear.length_lt (h : r.Clear path key) (hinj : key.isInjector = false) :
    path.length < r.config.maxDepth := by
  obtain ⟨m, hroom, hsupplied, _⟩ := h hinj
  have := hsupplied.pos
  omega

/-- The account that there is nothing to tell of, if entries are docile and the keys can be requested. -/
def silence (r : Registry) (i : InjectorId) (before : List Event) (hd : r.Docile) : Account r i before where
  leads := r.Clear
  tells _ _ := False
  panics := False
  next h hinj he _ hdep := h.next hinj he hdep
  unsatisfied h hlacks := h.not_lacks hlacks
  circular h hinj _ hcycle := hcycle (h.dropWhile_eq_nil hinj)
  depthExceeded h hinj _ hlimit := absurd (h.length_lt hinj) (Nat.not_lt_of_le hlimit)
  reports _ he hs hr _ := (Entry.docile_iff.mp (hd _ _ he) _ hs).not_reports hr
  panicked _ he hs hnot := hnot (Entry.docile_iff.mp (hd _ _ he) _ hs)

end Registry

/-- Everything below the key is bound, and nothing there depends on itself. -/
def Registry.Founded (r : Registry) (a : Ident) : Prop :=
  ∀ b, ReflTransGen r.Edge a b → (∃ e, r.at? b = some e) ∧ ¬ TransGen r.Edge b b

/-- No chain of direct dependencies that begins with the key has more keys than may be under
construction. -/
def Registry.Shallow (r : Registry) (a : Ident) : Prop :=
  ∀ path, List.IsChain r.Edge (a :: path) → (a :: path).length ≤ r.config.maxDepth

namespace World

variable {w : World} {i : InjectorId} {key : Key}

theorem Quiet.responds (hw : w.Quiet) (hd : (w.registry i).Docile)
    (hf : (w.registry i).Founded key.ident) (hs : (w.registry i).Shallow key.ident) :
    (fetch i (.of key)).Answers w := by
  have hunder : w.underConstruction i = [] := underConstruction_of_idle hw.idle
  have hclear : ((w.registry i).silence i w.events hd).leads [] key := by
    refine fun _ => ⟨(w.registry i).config.maxDepth, by simp, ?_, by simp⟩
    exact Registry.supplied_of_within (Registry.within_iff.mpr hs) fun b hb => (hf b hb).1
  have hsite := w.site_self i
  cases h : fetch i (.of key) w with
  | ok a v => exact ⟨a, v, h⟩
  | error stop v =>
    have hgood := Resolution.sound_serve (serves_resolve w.capacity) i (.of key) w hw.inv hsite
    have hends := Resolution.fails_serve (serves_resolve w.capacity) (accounts_resolve w.capacity) hclear w
      hw.inv ⟨hsite, hunder, List.suffix_refl _⟩ stop v h
    change w.Good _ (fetch i (.of key) w) at hgood
    rw [h] at hgood
    cases stop with
    | error e => exact hends.elim
    | panic text => exact hends.elim
    | _ => exact hgood.2.elim

/-- Exactly the well-founded graphs resolve. If a key resolves, everything below it is bound and nothing
there depends on itself, and if no instance is kept no chain is longer than the limit. Conversely a key
resolves if all this holds and constructors and providers do nothing but make their values. Lazy
dependencies do not count, and neither does what is kept already. -/
theorem founded_resolve (hw : w.Reachable) (hinj : key.isInjector = false) :
    ((fetch i (.of key)).Answers w → (w.registry i).Founded key.ident) ∧
    ((w.registry i).Docile → (w.registry i).Founded key.ident → (w.registry i).Shallow key.ident →
      (fetch i (.of key)).Answers w) ∧
    ((w.registry i).Unscoped → (fetch i (.of key)).Answers w →
      (w.registry i).Shallow key.ident) := by
  have hq := hw.quiet
  have reached : (fetch i (.of key)).Answers w → (w.registry i).Reached 0 key.ident := by
    rintro ⟨a, v, ha⟩
    have hunder : (w.underConstruction i).length = 0 := by
      rw [underConstruction_of_idle hq.idle, List.length_nil]
    have hgood := Resolution.sound_serve (serves_resolve w.capacity) i (.of key) w hq.inv
      ⟨rfl, hunder, Nat.le_add_right _ _⟩
    change w.Good _ (fetch i (.of key) w) at hgood
    rw [ha] at hgood
    exact (hgood.2.2 rfl).2 hinj
  refine ⟨fun h b hb => (reached h).1.bound_acyclic hb, hq.responds, fun hu h => ?_⟩
  exact Registry.within_iff.mp ((reached h).2 hu)

def topKey : Key := .of (.value .alpha)

def baseKey : Key := .of (.value .beta)

def topBinding : Binding where
  strategy := .construct (.value .alpha) [.inject baseKey false] fun _ =>
    .done ⟨.alpha "top", []⟩ rfl

def baseBinding : Binding where
  strategy := .construct (.value .beta) [.lazy topKey false] fun _ =>
    .done ⟨.beta "base", []⟩ rfl
  scope := some .singleton

def loopOperations : List Operation :=
  [.register topKey topBinding .direct, .register baseKey baseBinding .direct, .finalize]

def loopInjector : Injector where
  registry := (Operation.runAll {} loopOperations).2.finalized.getD {}

/-- A cycle that is closed by a lazy dependency does not keep a key from being resolved. -/
theorem founded_resolve_loop :
    (fetch 0 (.of topKey)).Answers (({} : World).addInjector "main" loopInjector) := by
  have hfrozen : loopInjector.registry.Frozen :=
    ⟨{}, loopOperations, by simp [loopOperations, Operation.Typed], rfl⟩
  have hreachable : (({} : World).addInjector "main" loopInjector).Reachable :=
    ReflTransGen.single (.inject "main" hfrozen rfl)
  have htop : loopInjector.registry.at? topKey.ident =
      some (.binding ⟨topBinding.withDefaultScope .unscoped, .direct⟩) := rfl
  have hbase : loopInjector.registry.at? baseKey.ident =
      some (.binding ⟨baseBinding.withDefaultScope .unscoped, .direct⟩) := rfl
  have hdemands : ∀ b, ¬ Demands [.lazy topKey] b := by
    rintro b ⟨d, hd, hkind, _⟩
    rw [List.mem_singleton.mp hd] at hkind
    contradiction
  have hgrounded : loopInjector.registry.Grounded topKey.ident := by
    refine .intro htop fun b hb => ?_
    obtain ⟨d, hd, _, _, rfl⟩ := hb
    rw [List.mem_singleton.mp hd]
    exact .intro hbase fun b hb => absurd hb (hdemands b)
  have hwithin : loopInjector.registry.Within 2 topKey.ident := by
    rintro b ⟨e, he, d, hd, _, _, rfl⟩
    cases htop.symm.trans he
    rw [List.mem_singleton.mp hd]
    rintro c ⟨e', he', hc⟩
    cases hbase.symm.trans he'
    exact absurd hc (hdemands c)
  have hdocile : loopInjector.registry.Docile := by
    intro a e he
    obtain ⟨k, hk, _⟩ := KeyMap.exists_mem_of_at? he
    change (k, e) ∈ [(topKey, _), (baseKey, _)] at hk
    rcases List.mem_pair.mp hk with heq | heq <;> cases heq <;> exact fun _ _ _ => trivial
  obtain ⟨_, hanswers, _⟩ := founded_resolve (i := 0) hreachable (by rfl : topKey.isInjector = false)
  exact hanswers hdocile (fun b hb => hgrounded.bound_acyclic hb)
    (Registry.within_iff.mp (hwithin.mono (by decide)))

end World

end Wiring
