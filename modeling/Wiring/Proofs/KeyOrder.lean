import Wiring.Key

/-!
The order of keys is a total order of their identities.

Each order is read as a lexicographic one over numbers and texts, from which the laws follow: two
keys compare equal exactly if they have one identity, and the order is transitive.
-/

set_option autoImplicit false

namespace Wiring

open Std

theorem Base.index_lt (b : Base) : b.index < 6 := by cases b <;> decide

theorem Base.index_injective {a b : Base} (h : a.index = b.index) : a = b := by
  cases a <;> cases b <;> first | rfl | exact absurd h (by decide)

theorem Marker.index_lt (m : Marker) : m.index < 5 := by cases m <;> decide

theorem Marker.index_injective {a b : Marker} (h : a.index = b.index) : a = b := by
  cases a <;> cases b <;> first | rfl | exact absurd h (by decide)

theorem ModuleType.index_lt (m : ModuleType) : m.index < 10 := by cases m <;> decide

theorem ModuleType.index_injective {m n : ModuleType} (h : m.index = n.index) : m = n := by
  cases m <;> cases n <;> first | rfl | exact absurd h (by decide)

theorem MapKeyType.index_lt (k : MapKeyType) : k.index < 3 := by cases k <;> decide

theorem MapKeyType.index_injective {k l : MapKeyType} (h : k.index = l.index) : k = l := by
  cases k <;> cases l <;> first | rfl | exact absurd h (by decide)

theorem Collection.index_pos (c : Collection) : 0 < c.index := by
  cases c <;> simp only [index] <;> omega

theorem Collection.index_lt (c : Collection) : c.index < 6 := by
  cases c with
  | set _ | list _ => simp only [index]; omega
  | map k _ => have := k.index_lt; simp only [index]; omega

theorem Collection.eq_of_index {c d : Collection} (he : c.element = d.element)
    (hi : c.index = d.index) : c = d := by
  cases c <;> cases d <;> simp only [element] at he <;> simp only [index] at hi
  case set.set => rw [he]
  case list.list => rw [he]
  case map.map k _ l _ =>
    have hk : k = l := MapKeyType.index_injective (by omega)
    rw [hk, he]
  all_goals omega

namespace TypeId

/-- The name of a type of which only the name is known. -/
def label : TypeId → String
  | named n => n
  | _ => ""

theorem eq_of_rank {s t : TypeId} (hr : s.rank = t.rank) (hl : s.label = t.label) : s = t := by
  have hb := Base.index_lt
  have hm := Marker.index_lt
  have hd := ModuleType.index_lt
  have hc := Collection.index_lt
  have hp := Collection.index_pos
  cases s <;> cases t <;> simp only [rank] at hr <;>
    grind [label, Base.index_injective, Marker.index_injective, ModuleType.index_injective,
      Collection.eq_of_index]

theorem label_eq_of_rank {s t : TypeId} (hr : s.rank = t.rank)
    (hn : ∀ m n, s = named m → t = named n → False) : s.label = t.label := by
  have hb := Base.index_lt
  have hm := Marker.index_lt
  have hd := ModuleType.index_lt
  have hc := Collection.index_lt
  cases s <;> cases t <;> simp only [rank] at hr <;> grind [label]

/-- The order of types goes by rank, then by label. -/
theorem order_eq : order = compareLex (compareOn rank) (compareOn label) := by
  funext s t
  unfold order
  split
  · simp [compareLex, compareOn, rank, label]
  · rename_i hne
    simp only [compareLex, compareOn]
    cases hr : compare s.rank t.rank with
    | lt => rfl
    | gt => rfl
    | eq =>
      have hl := label_eq_of_rank (Std.compare_eq_iff_eq.mp hr) hne
      rw [hl, compare_self, Ordering.eq_then]

instance : TransCmp TypeId.order := by rw [order_eq]; infer_instance

instance : LawfulEqCmp TypeId.order where
  eq_of_compare {s t} h := by
    simp only [order_eq, compareLex, compareOn, Ordering.then_eq_eq, Std.compare_eq_iff_eq] at h
    exact eq_of_rank h.1 h.2

end TypeId

namespace QualifierId

instance : TransCmp order where
  eq_swap {a b} := by
    cases a <;> cases b <;> simp only [order, Ordering.swap_lt, Ordering.swap_gt]
    case named.named => exact OrientedCmp.eq_swap
    case marker.marker => exact OrientedCmp.eq_swap
  isLE_trans {a b c} hab hbc := by
    cases a <;> cases b <;> cases c <;>
      simp only [order, Ordering.isLE, Bool.false_eq_true] at hab hbc ⊢
    case named.named.named => exact @TransCmp.isLE_trans _ compare _ _ _ _ hab hbc
    case marker.marker.marker => exact @TransCmp.isLE_trans _ TypeId.order _ _ _ _ hab hbc

instance : LawfulEqCmp order where
  compare_self {a} := by
    cases a with
    | named s => exact compare_self
    | marker t => exact @ReflCmp.compare_self _ TypeId.order _ _
  eq_of_compare {a b} h := by
    cases a <;> cases b <;> simp only [order, reduceCtorEq] at h
    case named.named => rw [Std.compare_eq_iff_eq.mp h]
    case marker.marker => rw [@LawfulEqCmp.eq_of_compare _ TypeId.order _ _ _ h]

instance : TransCmp orderOption where
  eq_swap {a b} := by
    cases a <;> cases b <;> simp only [orderOption, Ordering.swap_lt, Ordering.swap_gt, Ordering.swap_eq]
    case some.some => exact OrientedCmp.eq_swap
  isLE_trans {a b c} hab hbc := by
    cases a <;> cases b <;> cases c <;>
      simp only [orderOption, Ordering.isLE, Bool.false_eq_true] at hab hbc ⊢
    case some.some.some => exact @TransCmp.isLE_trans _ order _ _ _ _ hab hbc

instance : LawfulEqCmp orderOption where
  compare_self {a} := by
    cases a with
    | none => rfl
    | some q => exact @ReflCmp.compare_self _ order _ _
  eq_of_compare {a b} h := by
    cases a <;> cases b <;> simp only [orderOption, reduceCtorEq] at h
    case none.none => rfl
    case some.some => rw [@LawfulEqCmp.eq_of_compare _ order _ _ _ h]

end QualifierId

namespace Ident

theorem order_eq :
    order = compareLex (fun a b => a.type.order b.type)
      fun a b => QualifierId.orderOption a.qualifier b.qualifier := rfl

instance : TransCmp order := by
  have ht : TransCmp fun a b : Ident => a.type.order b.type :=
    { eq_swap := fun {_ _} => @OrientedCmp.eq_swap _ TypeId.order _ _ _
      isLE_trans := fun {_ _ _} => @TransCmp.isLE_trans _ TypeId.order _ _ _ _ }
  have hq : TransCmp fun a b : Ident => QualifierId.orderOption a.qualifier b.qualifier :=
    { eq_swap := fun {_ _} => @OrientedCmp.eq_swap _ QualifierId.orderOption _ _ _
      isLE_trans := fun {_ _ _} => @TransCmp.isLE_trans _ QualifierId.orderOption _ _ _ _ }
  rw [order_eq]
  infer_instance

instance : LawfulEqCmp order where
  eq_of_compare {a b} h := by
    obtain ⟨ht, hq⟩ := Ordering.then_eq_eq.mp h
    cases a
    cases b
    cases @LawfulEqCmp.eq_of_compare _ TypeId.order _ _ _ ht
    cases @LawfulEqCmp.eq_of_compare _ QualifierId.orderOption _ _ _ hq
    rfl

end Ident

namespace Key

@[simp] theorem order_eq_iff {a b : Key} : a.order b = .eq ↔ a.ident = b.ident :=
  @LawfulEqCmp.compare_eq_iff_eq _ Ident.order _ _ _

theorem order_lt_trans {a b c : Key} (hab : a.order b = .lt) (hbc : b.order c = .lt) :
    a.order c = .lt :=
  @TransCmp.lt_trans _ Ident.order _ _ _ _ hab hbc

theorem order_lt_of_gt {a b : Key} (h : a.order b = .gt) : b.order a = .lt :=
  (@OrientedCmp.gt_iff_lt _ Ident.order _ _ _).mp h

theorem ident_ne_of_lt {a b : Key} (h : a.order b = .lt) : a.ident ≠ b.ident := by
  intro he
  rw [order_eq_iff.mpr he] at h
  contradiction

end Key

end Wiring
