import Mathlib.Data.List.Infix
import Wiring.Name

/-!
What a short name leaves out.

A short name is the name without its longest path: the longest of the prefixes that are empty or end
with `::` and have no `<` in them. The type arguments, which begin at the first `<`, stay as they are.
-/

set_option autoImplicit false

namespace Wiring.Name

/-- What names open with that have no outermost path. -/
def openings : List String := ["(", "&", "[", "*", "dyn "]

def IsPath (p : List Char) : Prop := (p = [] ∨ [':', ':'] <:+ p) ∧ '<' ∉ p

structure LongestPath (cs p : List Char) : Prop where
  starts : p <+: cs
  path : IsPath p
  longest : ∀ q, q <+: cs → IsPath q → q.length ≤ p.length

variable {cs p s q : List Char} {c : Char}

theorem isWhole_iff : isWhole cs = true ↔ ∃ o ∈ openings, o.toList <+: cs := by
  have hdyn : "dyn ".toList.isPrefixOf cs = true ↔ "dyn ".toList <+: cs := List.isPrefixOf_iff_prefix
  have hhead : ∀ d, (cs.head? == some d) = true ↔ [d] <+: cs := by
    intro d
    cases cs <;> simp [List.cons_prefix_cons, @eq_comm _ d]
  simp only [isWhole, openings, Bool.or_eq_true, hdyn, List.any_eq_true, hhead]
  simp [or_assoc]

theorem isPath_nil : IsPath [] := ⟨.inl rfl, List.not_mem_nil⟩

theorem isPath_cons (hc : c ≠ '<') :
    IsPath (c :: q) ↔ (IsPath q ∧ q ≠ []) ∨ (c = ':' ∧ q = [':']) := by
  have hmem : '<' ∉ c :: q ↔ '<' ∉ q := by simp [hc.symm]
  simp only [IsPath, hmem, List.suffix_cons_iff, List.cons.injEq, reduceCtorEq, false_or]
  constructor
  · rintro ⟨⟨rfl, rfl⟩ | hq, hout⟩
    · exact .inr ⟨rfl, rfl⟩
    · refine .inl ⟨⟨.inr hq, hout⟩, ?_⟩
      rintro rfl
      simp at hq
  · rintro (⟨⟨hq, hout⟩, hne⟩ | ⟨rfl, rfl⟩)
    · exact ⟨.inr (hq.resolve_left hne), hout⟩
    · exact ⟨.inl ⟨rfl, rfl⟩, by decide⟩

theorem IsPath.append (hp : IsPath p) (hq : IsPath q) : IsPath (p ++ q) := by
  refine ⟨?_, by simp [hp.2, hq.2]⟩
  rcases hq.1 with rfl | h
  · simpa using hp.1
  · exact .inr (h.trans (List.suffix_append p q))

theorem longestPath_nil (h : ∀ q, q <+: cs → IsPath q → q = []) : LongestPath cs [] :=
  ⟨List.nil_prefix, isPath_nil, fun q hq hpath => by simp [h q hq hpath]⟩

theorem LongestPath.cons {rest : List Char} (hc : c ≠ '<') (h : LongestPath rest p) (hp : p ≠ []) :
    LongestPath (c :: rest) (c :: p) := by
  refine ⟨List.prefix_cons_inj c |>.mpr h.starts, (isPath_cons hc).mpr (.inl ⟨h.path, hp⟩), ?_⟩
  intro q hq hpath
  cases q with
  | nil => simp
  | cons d q =>
    obtain ⟨rfl, hrest⟩ := List.cons_prefix_cons.mp hq
    rcases (isPath_cons hc).mp hpath with ⟨hpath, _⟩ | ⟨_, rfl⟩
    · simpa using h.longest q hrest hpath
    · have := List.length_pos_iff.mpr hp
      simp only [List.length_cons, List.length_nil]
      omega

theorem afterPath_angle (rest : List Char) : afterPath ('<' :: rest) = none := by
  simp [afterPath]

theorem afterPath_of_some {rest : List Char} (hc : c ≠ '<') (h : afterPath rest = some s) :
    afterPath (c :: rest) = some s := by
  simp [afterPath, hc, h]

theorem afterPath_colons (h : afterPath (':' :: s) = none) : afterPath (':' :: ':' :: s) = some s := by
  rw [afterPath, h]
  rfl

theorem afterPath_of_none {rest : List Char} (hc : c ≠ '<') (h : afterPath rest = none)
    (hcolons : ¬ (c = ':' ∧ ∃ s, rest = ':' :: s)) : afterPath (c :: rest) = none := by
  simp only [afterPath, hc, if_false, h]
  split
  · rename_i hcolon
    split
    · rename_i s
      exact absurd ⟨hcolon, s, rfl⟩ hcolons
    · rfl
  · rfl

theorem afterPath_spec (cs : List Char) : match afterPath cs with
    | some s => ∃ p, p ≠ [] ∧ cs = p ++ s ∧ LongestPath cs p
    | none => LongestPath cs [] := by
  induction cs with
  | nil => exact longestPath_nil fun q hq _ => List.prefix_nil.mp hq
  | cons c rest ih =>
    by_cases hc : c = '<'
    · subst hc
      rw [afterPath_angle]
      refine longestPath_nil fun q hq hpath => ?_
      cases q with
      | nil => rfl
      | cons d q => exact absurd (by simp [(List.cons_prefix_cons.mp hq).1]) hpath.2
    cases hrest : afterPath rest with
    | some s =>
      rw [hrest] at ih
      obtain ⟨p, hp, rfl, hlongest⟩ := ih
      rw [afterPath_of_some hc hrest]
      exact ⟨c :: p, by simp, rfl, hlongest.cons hc hp⟩
    | none =>
      rw [hrest] at ih
      -- Nothing longer than a single `::` can stand here.
      have hshort : ∀ q, q <+: c :: rest → IsPath q → q = [] ∨ (c = ':' ∧ q = [':', ':']) := by
        intro q hq hpath
        cases q with
        | nil => exact .inl rfl
        | cons d q =>
          obtain ⟨rfl, hstarts⟩ := List.cons_prefix_cons.mp hq
          rcases (isPath_cons hc).mp hpath with ⟨hpath, hne⟩ | ⟨rfl, rfl⟩
          · exact absurd (List.length_eq_zero_iff.mp (Nat.le_zero.mp (ih.longest q hstarts hpath))) hne
          · exact .inr ⟨rfl, rfl⟩
      by_cases hcolons : c = ':' ∧ ∃ s, rest = ':' :: s
      · obtain ⟨rfl, s, rfl⟩ := hcolons
        rw [afterPath_colons hrest]
        refine ⟨[':', ':'], by simp, rfl, ⟨s, rfl⟩, ⟨.inr List.suffix_rfl, by decide⟩, ?_⟩
        intro q hq hpath
        rcases hshort q hq hpath with rfl | ⟨_, rfl⟩ <;> simp
      · rw [afterPath_of_none hc hrest hcolons]
        refine longestPath_nil fun q hq hpath => (hshort q hq hpath).resolve_right ?_
        rintro ⟨rfl, rfl⟩
        obtain ⟨s, hs⟩ := (List.cons_prefix_cons.mp hq).2
        exact hcolons ⟨rfl, s, hs.symm⟩

theorem shorten_spec (h : isWhole cs = false) : ∃ p, LongestPath cs p ∧ cs = p ++ shorten cs := by
  have hspec := afterPath_spec cs
  simp only [shorten, h, Bool.false_eq_true, if_false]
  cases hafter : afterPath cs with
  | some s =>
    rw [hafter] at hspec
    obtain ⟨p, _, hcs, hlongest⟩ := hspec
    exact ⟨p, hlongest, hcs⟩
  | none =>
    rw [hafter] at hspec
    exact ⟨[], hspec, rfl⟩

theorem shorten_of_isWhole (h : isWhole cs = true) : shorten cs = cs := by
  simp [shorten, h]

theorem LongestPath.rest (h : LongestPath cs p) (hcs : cs = p ++ s) (hq : q <+: s) (hpath : IsPath q) :
    q = [] := by
  have hle := h.longest (p ++ q) (hcs ▸ (List.prefix_append_right_inj p).mpr hq) (h.path.append hpath)
  rw [List.length_append] at hle
  exact List.length_eq_zero_iff.mp (by omega)

theorem LongestPath.no_colons (h : LongestPath cs p) (hcs : cs = p ++ s) :
    ¬ [':', ':'] <:+: s.takeWhile (· ≠ '<') := by
  rintro ⟨u, v, huv⟩
  have hout : '<' ∉ u ++ [':', ':'] := by
    intro hmem
    have hbefore := List.all_eq_true.mp List.all_takeWhile '<' (huv ▸ List.mem_append_left v hmem)
    simp at hbefore
  have hstarts : u ++ [':', ':'] <+: s :=
    List.IsPrefix.trans ⟨v, huv⟩ (List.takeWhile_prefix _)
  have hnil := h.rest hcs hstarts ⟨.inr (List.suffix_append _ _), hout⟩
  simp at hnil

theorem shorten_shorten (cs : List Char) : shorten (shorten cs) = shorten cs := by
  by_cases hw : isWhole cs = true
  · rw [shorten_of_isWhole hw, shorten_of_isWhole hw]
  by_cases hs : isWhole (shorten cs) = true
  · exact shorten_of_isWhole hs
  obtain ⟨p, hp, hcs⟩ := shorten_spec (Bool.not_eq_true _ ▸ hw)
  obtain ⟨q, hq, hshort⟩ := shorten_spec (Bool.not_eq_true _ ▸ hs)
  have hnil := hp.rest hcs ⟨_, hshort.symm⟩ hq.path
  rw [hnil, List.nil_append] at hshort
  exact hshort.symm

theorem dropWhile_shorten (cs : List Char) :
    (shorten cs).dropWhile (· ≠ '<') = cs.dropWhile (· ≠ '<') := by
  by_cases hw : isWhole cs = true
  · rw [shorten_of_isWhole hw]
  obtain ⟨p, hp, hcs⟩ := shorten_spec (Bool.not_eq_true _ ▸ hw)
  conv_rhs => rw [hcs]
  rw [List.dropWhile_append_of_pos]
  intro c hc
  simpa using fun h : c = '<' => hp.path.2 (h ▸ hc)

@[simp] theorem toList_short (name : String) : (short name).toList = shorten name.toList := by
  simp [short]

/-- A name is shown whole if it opens as it must; any other is its longest path followed by its short name,
with no `::` left before the first `<`. A short name is the end of its name, has all that begins at the first
`<`, and is its own short name. -/
theorem short_drops_path (name : String) :
    ((∃ o ∈ openings, o.toList <+: name.toList) ∧ short name = name ∨
      (∀ o ∈ openings, ¬ o.toList <+: name.toList) ∧
        ∃ p, LongestPath name.toList p ∧ name.toList = p ++ (short name).toList ∧
          ¬ [':', ':'] <:+: (short name).toList.takeWhile (· ≠ '<')) ∧
    (short name).toList <:+ name.toList ∧
    (short name).toList.dropWhile (· ≠ '<') = name.toList.dropWhile (· ≠ '<') ∧
    short (short name) = short name := by
  have hkept := dropWhile_shorten name.toList
  have htwice : short (short name) = short name := by
    rw [← String.toList_inj]
    simp [shorten_shorten]
  by_cases hw : isWhole name.toList = true
  · have hsame : short name = name := by
      rw [← String.toList_inj, toList_short, shorten_of_isWhole hw]
    exact ⟨.inl ⟨isWhole_iff.mp hw, hsame⟩, by rw [hsame], by rw [toList_short, hkept], htwice⟩
  · obtain ⟨p, hp, hcs⟩ := shorten_spec (Bool.not_eq_true _ ▸ hw)
    rw [toList_short]
    refine ⟨.inr ⟨fun o ho hs => hw (isWhole_iff.mpr ⟨o, ho, hs⟩), p, hp, hcs, hp.no_colons hcs⟩,
      ⟨p, hcs.symm⟩, hkept, htwice⟩

example : short "a::b::Vec<c::D>" = "Vec<c::D>" := by cbv

example : short ":::" = "" ∧ short "&a::b" = "&a::b" := by cbv

end Wiring.Name
