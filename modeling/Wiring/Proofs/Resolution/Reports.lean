import Mathlib.Data.List.Chain
import Wiring.Proofs.Resolution.Account

set_option autoImplicit false

namespace Wiring

open Relation

namespace Registry

variable {r : Registry} {i : InjectorId} {root key : Key} {path : List Key} {e : Entry}
  {before after : List Event}

/-- What is in force for the one key depends on the other directly. -/
def Declares (r : Registry) (a b : Key) : Prop :=
  ∃ e, r.find? a = some e ∧ Dependency.direct b ∈ e.dependencies

abbrev Below (r : Registry) : Key → Key → Prop := ReflTransGen r.Declares

/-- A way along direct dependencies that ends where it begins, and comes to no other key twice. -/
structure Cycle (r : Registry) (root : Key) (path : List Key) : Prop where
  two_le : 2 ≤ path.length
  closed : path.head?.map Key.ident = path.getLast?.map Key.ident
  distinct : (path.dropLast.map Key.ident).Nodup
  chain : List.IsChain r.Declares path
  below : ∀ k ∈ path, r.Below root k

/-- A way along direct dependencies between two keys, over distinct keys, `n` of them in all. -/
def Descends (r : Registry) (root key : Key) (n : Nat) : Prop :=
  ∃ path : List Key, path.length = n ∧ path.head? = some root ∧ path.getLast? = some key ∧
    (path.map Key.ident).Nodup ∧ List.IsChain r.Declares path

/-- A strategy of a key below the root is the one that failed, and its routine was entered in between. -/
structure Fails (r : Registry) (i : InjectorId) (root : Key) (before after : List Event) (key : Key)
    (error : ResolveError) : Prop where
  below : r.Below root key
  reports : ∃ e, r.find? key = some e ∧ ∃ s ∈ e.strategies, s.Reports i key error
  entered : ∃ new, after = new ++ before ∧ .entered i key ∈ new

/-- What an error says is true, if a request of the root ended with it, and this was noted before and
after. An instance of another type than that of its key is never reported, nor an injector that is gone. -/
def Explains (r : Registry) (i : InjectorId) (root : Key) (before : List Event) :
    ResolveError → List Event → Prop
  | .unsatisfied key none, _ => key = root ∧ r.Lacks key
  | .unsatisfied key (some asker), _ => r.Lacks key ∧ r.Below root asker ∧ r.Declares asker key
  | .circular path, _ => r.Cycle root path
  | .depthExceeded key limit, _ => limit = r.config.maxDepth ∧ r.Descends root key (limit + 1)
  | .instantiate key cause, after => r.Fails i root before after key (.instantiate key cause)
  | .provider key name cause, after => r.Fails i root before after key (.provider key name cause)
  | .incorrectType .., _ => False
  | .injectorDropped .., _ => False

/-- The keys that are under construction when a key is requested, each of which declares the next. -/
inductive Leads (r : Registry) (root : Key) : List Key → Key → Prop where
  | here : Leads r root [] root
  | step {path : List Key} {key next : Key} : Leads r root path key → r.Declares key next →
      path.length < r.config.maxDepth → Leads r root (path ++ [key]) next

theorem Leads.reach (h : r.Leads root path key) : ∀ k ∈ path ++ [key], r.Below root k := by
  induction h with
  | here =>
    intro k hk
    rw [List.mem_singleton.mp hk]
  | step _ hdeclares _ ih =>
    intro k hk
    rcases List.mem_append.mp hk with hk | hk
    · exact ih k hk
    · rw [List.mem_singleton.mp hk]
      exact (ih _ (by simp)).tail hdeclares

theorem Leads.chain (h : r.Leads root path key) : List.IsChain r.Declares (path ++ [key]) := by
  induction h with
  | here => exact .singleton root
  | step _ hdeclares _ ih =>
    refine List.isChain_append.mpr ⟨ih, .singleton _, ?_⟩
    simpa using hdeclares

theorem Leads.head? (h : r.Leads root path key) : (path ++ [key]).head? = some root := by
  induction h with
  | here => rfl
  | step _ _ _ ih => rw [List.head?_append, ih, Option.some_or]

theorem Leads.length_le (h : r.Leads root path key) : path.length ≤ r.config.maxDepth := by
  cases h with
  | here => exact Nat.zero_le _
  | step _ _ hroom =>
    rw [List.length_append, List.length_singleton]
    exact hroom

theorem Leads.unsatisfied (h : r.Leads root path key) (hlacks : r.Lacks key) :
    r.Explains i root before (.unsatisfied key path.getLast?) after := by
  cases h with
  | here => exact ⟨rfl, hlacks⟩
  | @step path asker _ hleads hdeclares _ =>
    rw [List.getLast?_append, List.getLast?_singleton, Option.some_or]
    exact ⟨hlacks, hleads.reach asker (by simp), hdeclares⟩

/-- What is left of the stack from the key on is a cycle once the key is requested again. -/
theorem Leads.circular (h : r.Leads root path key) (hdistinct : (path.map Key.ident).Nodup)
    (hcycle : path.dropWhile (fun k => k.ident ≠ key.ident) ≠ []) :
    r.Cycle root (path.dropWhile (fun k => k.ident ≠ key.ident) ++ [key]) := by
  have hsuffix := List.dropWhile_suffix (fun k : Key => decide (k.ident ≠ key.ident)) (l := path)
  have hhead := List.head_dropWhile_not (fun k : Key => decide (k.ident ≠ key.ident)) hcycle
  generalize path.dropWhile (fun k => k.ident ≠ key.ident) = cycle at *
  obtain ⟨before, rfl⟩ := hsuffix
  have hchain := h.chain
  rw [List.append_assoc] at hchain
  cases cycle with
  | nil => contradiction
  | cons first rest =>
    refine ⟨by simp, ?_, ?_, (List.isChain_append.mp hchain).2.1,
      fun k hk => h.reach k ?_⟩
    · have hfirst : first.ident = key.ident := of_not_not (of_decide_eq_false hhead)
      rw [List.getLast?_concat]
      exact congrArg some hfirst
    · rw [List.dropLast_concat]
      exact hdistinct.sublist (List.Sublist.map _ (List.sublist_append_right _ _))
    · rw [List.append_assoc]
      exact List.mem_append_right _ hk

theorem Leads.depthExceeded (h : r.Leads root path key)
    (hdistinct : ((path ++ [key]).map Key.ident).Nodup) (hlimit : r.config.maxDepth ≤ path.length) :
    r.Explains i root before (.depthExceeded key r.config.maxDepth) after := by
  refine ⟨rfl, path ++ [key], ?_, h.head?, by simp, hdistinct, h.chain⟩
  rw [List.length_append, List.length_singleton, Nat.le_antisymm h.length_le hlimit]

theorem Leads.reports {s : Strategy} {error : ResolveError} (h : r.Leads root path key)
    (he : r.find? key = some e) (hs : s ∈ e.strategies) (hr : s.Reports i key error)
    (hnew : ∃ new, after = new ++ before ∧ .entered i key ∈ new) :
    r.Explains i root before error after := by
  have hfails : r.Fails i root before after key error :=
    ⟨h.reach key (by simp), ⟨e, he, s, hs, hr⟩, hnew⟩
  -- A strategy reports nothing but failures of the key that it is run for.
  cases error with
  | instantiate k cause =>
    cases s with
    | construct t ps body =>
      obtain ⟨rfl, _⟩ := hr
      exact hfails
    | _ => exact hr.elim
  | provider k name cause =>
    cases s with
    | providerType t n ps body =>
      obtain ⟨rfl, _⟩ := hr
      exact hfails
    | provider t n body =>
      obtain ⟨rfl, _⟩ := hr
      exact hfails
    | _ => exact hr.elim
  | _ => cases s <;> exact hr.elim

def explanation (r : Registry) (i : InjectorId) (root : Key) (before : List Event) :
    Account r i before where
  leads := r.Leads root
  tells := r.Explains i root before
  panics := True
  next h _ he hroom hd := .step h ⟨_, he, hd⟩ hroom
  unsatisfied := Leads.unsatisfied
  circular h _ := h.circular
  depthExceeded h _ := h.depthExceeded
  reports := Leads.reports
  panicked _ _ _ _ := trivial

end Registry

namespace World

variable {w v : World} {i : InjectorId} {key : Key} {error : ResolveError}

/-- Errors tell the truth. Whatever is kept already, and whatever constructors and providers do, the error
that a request ends with is true of the graph of direct dependencies below its key. -/
theorem fetch_error_explained (hw : w.Reachable)
    (h : fetch i (.of key) w = .error (.error error) v) :
    (w.registry i).Explains i key w.events error v.events := by
  have hq := hw.quiet
  have hleads : ((w.registry i).explanation i key w.events).leads [] key := .here
  exact Resolution.fails_serve (serves_resolve w.capacity) (accounts_resolve w.capacity) hleads w hq.inv
    ⟨w.site_self i, underConstruction_of_idle hq.idle, List.suffix_refl _⟩ (.error error) v h

def outerKey : Key := .of (.value .alpha)

def ringKey : Key := .of (.value .beta)

def innerKey : Key := .named (.value .beta) "inner"

/-- A key outside of a ring of two, one of which is another name of the other. -/
def ringOperations : List Operation :=
  [.register outerKey ⟨.construct (.value .alpha) [.inject ringKey false] fun _ =>
      .done ⟨.alpha "outer", []⟩ rfl, none⟩ .direct,
    .register ringKey ⟨.alias innerKey, some .singleton⟩ .direct,
    .register innerKey ⟨.construct (.value .beta) [.inject ringKey false] fun _ =>
      .done ⟨.beta "inner", []⟩ rfl, none⟩ .direct,
    .finalize]

def ringInjector : Injector where
  registry := (Operation.runAll {} ringOperations).2.finalized.getD {}

/-- The cycle that is reported leaves out the key through which it was entered. -/
theorem fetch_error_explained_ring :
    let w := ({} : World).addInjector "main" ringInjector
    (∃ v, fetch 0 (.of outerKey) w = .error (.error (.circular [ringKey, innerKey, ringKey])) v) ∧
      (w.registry 0).Cycle outerKey [ringKey, innerKey, ringKey] := by
  have hfrozen : ringInjector.registry.Frozen :=
    ⟨{}, ringOperations, by simp [ringOperations, Operation.Typed], rfl⟩
  have hreachable : (({} : World).addInjector "main" ringInjector).Reachable :=
    ReflTransGen.single (.inject "main" hfrozen rfl)
  have herror : ∃ v, fetch 0 (.of outerKey) (({} : World).addInjector "main" ringInjector) =
      .error (.error (.circular [ringKey, innerKey, ringKey])) v := ⟨_, rfl⟩
  obtain ⟨v, hv⟩ := herror
  exact ⟨⟨v, hv⟩, fetch_error_explained hreachable hv⟩

end World

end Wiring
