import Mathlib.Data.List.Basic
import Mathlib.Data.List.Induction
import RegionFlow.Expression
set_option autoImplicit false

namespace RegionFlow

section

variable {α : Type} [BEq α] [LawfulBEq α]

theorem eraseDups_concat (xs : List α) (x : α) :
    (xs ++ [x]).eraseDups = if xs.contains x then xs.eraseDups else xs.eraseDups ++ [x] := by
  rw [List.eraseDups_append, List.removeAll]
  split
  · rename_i hx
    rw [List.filter_cons_of_neg (by simpa using hx), List.filter_nil, List.eraseDups_nil,
      List.append_nil]
  · rename_i hx
    rw [List.filter_cons_of_pos (by simpa using hx), List.filter_nil, List.eraseDups_cons,
      List.filter_nil, List.eraseDups_nil]

theorem eraseDups_sublist (xs : List α) : xs.eraseDups.Sublist xs := by
  induction xs using List.reverseRecOn with
  | nil => exact List.Sublist.refl _
  | append_singleton xs x ih =>
    rw [eraseDups_concat]
    split
    · exact ih.trans (List.sublist_append_left _ _)
    · exact ih.append_right _

/-- The names that are left stand in the order in which they first occur. -/
theorem eraseDups_pairwise (xs : List α) :
    xs.eraseDups.Pairwise fun x y => xs.idxOf x < xs.idxOf y := by
  induction xs using List.reverseRecOn with
  | nil => exact .nil
  | append_singleton xs z ih =>
    -- A further name changes no index of a name that is there already.
    have hkept : xs.eraseDups.Pairwise fun x y => (xs ++ [z]).idxOf x < (xs ++ [z]).idxOf y := by
      refine ih.imp_of_mem fun hx hy hlt => ?_
      rw [List.mem_eraseDups] at hx hy
      rwa [List.idxOf_append_of_mem hx, List.idxOf_append_of_mem hy]
    rw [eraseDups_concat]
    split
    · exact hkept
    · rename_i hz
      rw [List.contains_iff_mem] at hz
      refine List.pairwise_append.mpr ⟨hkept, List.pairwise_singleton _ _, ?_⟩
      intro x hx y hy
      rw [List.mem_eraseDups] at hx
      rw [List.mem_singleton.mp hy, List.idxOf_append_of_mem hx, List.idxOf_append_of_notMem hz]
      exact Nat.lt_of_lt_of_le (List.idxOf_lt_length_iff.mpr hx) (Nat.le_add_right _ _)

theorem eraseDups_nodup (xs : List α) : xs.eraseDups.Nodup :=
  (eraseDups_pairwise xs).imp fun {x y} hlt (heq : x = y) => Nat.lt_irrefl _ (heq ▸ hlt)

theorem eraseDups_filter (q : α → Bool) (xs : List α) :
    (xs.filter q).eraseDups = xs.eraseDups.filter q := by
  induction xs using List.reverseRecOn with
  | nil => rfl
  | append_singleton xs x ih =>
    rw [List.filter_append, eraseDups_concat]
    cases hq : q x with
    | false =>
      rw [List.filter_cons_of_neg (by simp [hq]), List.filter_nil, List.append_nil, ih]
      split
      · rfl
      · rw [List.filter_append, List.filter_cons_of_neg (by simp [hq]), List.filter_nil,
          List.append_nil]
    | true =>
      have hmem : (xs.filter q).contains x = xs.contains x := by
        rw [Bool.eq_iff_iff, List.contains_iff_mem, List.contains_iff_mem, List.mem_filter]
        exact and_iff_left hq
      rw [List.filter_cons_of_pos hq, List.filter_nil, eraseDups_concat, hmem, ih]
      split
      · rfl
      · rw [List.filter_append, List.filter_cons_of_pos hq, List.filter_nil]

theorem eraseDups_append_filter (xs ys : List α) : (xs ++ ys).eraseDups =
    xs.eraseDups ++ ys.eraseDups.filter fun x => !xs.eraseDups.contains x := by
  have hmem : ∀ x, xs.eraseDups.contains x = xs.contains x := by
    intro x
    rw [Bool.eq_iff_iff, List.contains_iff_mem, List.contains_iff_mem, List.mem_eraseDups]
  rw [List.eraseDups_append, List.removeAll, eraseDups_filter]
  simp only [hmem, List.elem_eq_contains]

end

namespace Expression

inductive Within (part : Expression) : Expression → Prop where
  | self : Within part part
  | arithmetic_left {k : ArithmeticKind} {l r : Expression} (h : Within part l) :
      Within part (.arithmetic k l r)
  | arithmetic_right {k : ArithmeticKind} {l r : Expression} (h : Within part r) :
      Within part (.arithmetic k l r)
  | relational_left {p : Predicate} {l r : Expression} (h : Within part l) :
      Within part (.relational p l r)
  | relational_right {p : Predicate} {l r : Expression} (h : Within part r) :
      Within part (.relational p l r)

theorem mem_reads_iff {e : Expression} {x : String} :
    x ∈ e.reads ↔ (Expression.read ⟨x⟩).Within e := by
  constructor
  · intro hx
    induction e with
    | constant v => simp [reads] at hx
    | read y =>
      obtain rfl := List.mem_singleton.mp hx
      exact .self
    | arithmetic k l r ihl ihr =>
      rcases List.mem_append.mp hx with hx | hx
      · exact .arithmetic_left (ihl hx)
      · exact .arithmetic_right (ihr hx)
    | relational p l r ihl ihr =>
      rcases List.mem_append.mp hx with hx | hx
      · exact .relational_left (ihl hx)
      · exact .relational_right (ihr hx)
  · intro h
    induction h with
    | self => exact List.mem_singleton.mpr rfl
    | arithmetic_left _ ih => exact List.mem_append_left _ ih
    | arithmetic_right _ ih => exact List.mem_append_right _ ih
    | relational_left _ ih => exact List.mem_append_left _ ih
    | relational_right _ ih => exact List.mem_append_right _ ih

/-- The names found are always the first occurrences among the reads that have been met, and the
reads of the pending operands are still to come. -/
theorem collect_eq (pending : List Expression) (names met : List String)
    (h : names = met.eraseDups) :
    collect pending names = (met ++ pending.flatMap reads).eraseDups := by
  fun_induction collect pending names generalizing met with
  | case1 names => rw [h, List.flatMap_nil, List.append_nil]
  | case2 v rest names ih => rw [ih met h, List.flatMap_cons, reads, List.nil_append]
  | case3 x rest names ih =>
    have hnext : (if names.contains x.name then names else names ++ [x.name]) =
        (met ++ [x.name]).eraseDups := by
      have hmem : names.contains x.name = met.contains x.name := by
        rw [Bool.eq_iff_iff, List.contains_iff_mem, List.contains_iff_mem, h, List.mem_eraseDups]
      rw [eraseDups_concat, hmem, h]
    simp only [dite_eq_ite] at ih
    rw [ih _ hnext, List.flatMap_cons, reads, List.append_assoc]
  | case4 k l r rest names ih => rw [ih met h]; simp [reads]
  | case5 p l r rest names ih => rw [ih met h]; simp [reads]

theorem variableNames_eq (e : Expression) : e.variableNames = e.reads.eraseDups := by
  rw [variableNames, collect_eq [e] [] [] rfl, List.nil_append, List.flatMap_singleton]

/-- The variables of an expression are its reads from left to right, each named where it first
occurs and nowhere else: no name is repeated, the names are those of the variables that stand in the
expression, and they come in the order of their first reads.  So an operator, whichever it is, has
the variables of its left operand followed by those of its right operand that are new. -/
theorem variableNames_first_reads (e : Expression) :
    e.variableNames = e.reads.eraseDups ∧
    e.variableNames.Sublist e.reads ∧
    e.variableNames.Nodup ∧
    (∀ x, x ∈ e.variableNames ↔ (Expression.read ⟨x⟩).Within e) ∧
    (e.variableNames.Pairwise fun x y => e.reads.idxOf x < e.reads.idxOf y) ∧
    (∀ k r, (Expression.arithmetic k e r).variableNames =
      e.variableNames ++ r.variableNames.filter fun x => !e.variableNames.contains x) ∧
    ∀ p r, (Expression.relational p e r).variableNames =
      e.variableNames ++ r.variableNames.filter fun x => !e.variableNames.contains x := by
  have hbinary : ∀ r : Expression, (e.reads ++ r.reads).eraseDups =
      e.variableNames ++ r.variableNames.filter fun x => !e.variableNames.contains x := by
    intro r
    rw [eraseDups_append_filter, ← variableNames_eq, ← variableNames_eq]
  refine ⟨e.variableNames_eq, ?_, ?_, ?_, ?_, ?_, ?_⟩
  · rw [variableNames_eq]
    exact eraseDups_sublist _
  · rw [variableNames_eq]
    exact eraseDups_nodup _
  · intro x
    rw [variableNames_eq, List.mem_eraseDups, mem_reads_iff]
  · rw [variableNames_eq]
    exact eraseDups_pairwise _
  · intro k r
    rw [variableNames_eq, reads, hbinary]
  · intro p r
    rw [variableNames_eq, reads, hbinary]

end Expression

end RegionFlow
