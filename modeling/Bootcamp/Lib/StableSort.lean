import Mathlib.Data.List.Sort

/-! Stable sorts of a list under a total preorder, and how they merge. -/

section

variable {α : Type} {le : α → α → Bool}

/-- Of the same rank. -/
def sameRank (le : α → α → Bool) (x y : α) : Bool := le x y && le y x

/-- `sorted` holds the elements of `input` in order, and those of one rank as `input` has them. -/
structure IsStableSort (le : α → α → Bool) (input sorted : List α) : Prop where
  ordered : sorted.Pairwise (fun x y => le x y)
  perm : sorted.Perm input
  stable : ∀ x, sorted.filter (sameRank le x) = input.filter (sameRank le x)

/-- A total preorder, as a comparison that computes. -/
structure IsRanking (le : α → α → Bool) : Prop where
  trans : ∀ x y z, le x y → le y z → le x z
  total : ∀ x y, le x y || le y x

namespace IsRanking

theorem refl (h : IsRanking le) (x : α) : le x x := by
  simpa using h.total x x

end IsRanking

theorem sameRank_self (h : IsRanking le) (x : α) : sameRank le x x := by
  simp [sameRank, h.refl x]

namespace IsStableSort

/-- Merging a sorted list keeps every rank in order, the first list's elements first. -/
theorem filter_merge (h : IsRanking le) (x : α) {xs : List α} (ys : List α)
    (hxs : xs.Pairwise (fun x y => le x y)) :
    (List.merge xs ys le).filter (sameRank le x) = (xs ++ ys).filter (sameRank le x) := by
  induction xs generalizing ys with
  | nil => simp
  | cons a xs ihx =>
    induction ys with
    | nil => simp
    | cons b ys ihy =>
      cases hab : le a b with
      | true =>
        rw [List.cons_merge_cons_pos _ _ _ hab, List.cons_append, List.filter_cons,
          List.filter_cons, ihx _ hxs.of_cons]
      | false =>
        rw [List.cons_merge_cons_neg _ _ _ (by simp [hab]), List.filter_cons, ihy,
          List.filter_append, List.filter_append, List.filter_cons (x := b)]
        cases hb : sameRank le x b with
        | false => simp
        | true =>
          -- an element of `b`'s rank in front of it would put `a` at or below `b`
          have hnone : (a :: xs).filter (sameRank le x) = [] := by
            rw [List.filter_eq_nil_iff]
            intro z hz hrank
            simp only [sameRank, Bool.and_eq_true] at hb hrank
            have haz : le a z := by
              cases hz with
              | head => exact h.refl a
              | tail _ hz => exact (List.pairwise_cons.mp hxs).1 z hz
            have := h.trans a x b (h.trans a z x haz hrank.2) hb.1
            simp [hab] at this
          simp [hnone]

variable {xs ys xs' ys' : List α}

theorem merge (h : IsRanking le) (hx : IsStableSort le xs xs') (hy : IsStableSort le ys ys') :
    IsStableSort le (xs ++ ys) (List.merge xs' ys' le) where
  ordered := List.pairwise_merge h.trans h.total _ _ hx.ordered hy.ordered
  perm := (List.merge_perm_append le).trans (hx.perm.append hy.perm)
  stable x := by
    rw [filter_merge h x _ hx.ordered, List.filter_append, List.filter_append, hx.stable,
      hy.stable]

theorem nil : IsStableSort le ([] : List α) [] := ⟨by simp, .nil, by simp⟩

theorem singleton (x : α) : IsStableSort le [x] [x] := ⟨by simp, .refl _, by simp⟩

theorem length_eq (hx : IsStableSort le xs xs') : xs'.length = xs.length := hx.perm.length_eq

/-- Sorted lists that agree in every rank are equal. -/
theorem eq_of_ranks (h : IsRanking le) (hx : xs.Pairwise (fun x y => le x y))
    (hy : ys.Pairwise (fun x y => le x y)) (hperm : xs.Perm ys)
    (hranks : ∀ x, xs.filter (sameRank le x) = ys.filter (sameRank le x)) : xs = ys := by
  induction xs generalizing ys with
  | nil => exact hperm.nil_eq
  | cons a xs ih =>
    cases ys with
    | nil => exact absurd hperm.symm.nil_eq (by simp)
    | cons b ys =>
      have hba : le b a := by
        have ha : a ∈ b :: ys := hperm.mem_iff.mp (by simp)
        cases ha with
        | head => exact h.refl _
        | tail _ ha => exact (List.pairwise_cons.mp hy).1 a ha
      have hab : le a b := by
        have hb : b ∈ a :: xs := hperm.mem_iff.mpr (by simp)
        cases hb with
        | head => exact h.refl _
        | tail _ hb => exact (List.pairwise_cons.mp hx).1 b hb
      have hheads := hranks a
      rw [List.filter_cons_of_pos (sameRank_self h a),
        List.filter_cons_of_pos (by simp [sameRank, hab, hba])] at hheads
      obtain rfl := (List.cons.inj hheads).1
      congr 1
      apply ih hx.of_cons hy.of_cons hperm.cons_inv
      intro x
      have hrank := hranks x
      rw [List.filter_cons, List.filter_cons] at hrank
      split at hrank
      · exact (List.cons.inj hrank).2
      · exact hrank

/-- There is one stable sort of a list. -/
theorem unique (h : IsRanking le) (hx : IsStableSort le xs xs') (hy : IsStableSort le xs ys') :
    xs' = ys' :=
  eq_of_ranks h hx.ordered hy.ordered (hx.perm.trans hy.perm.symm)
    fun x => (hx.stable x).trans (hy.stable x).symm

end IsStableSort

end
