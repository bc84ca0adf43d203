import Mathlib.Order.Lattice
import Mathlib.Data.List.Basic

/-! The greatest element of a list and the first place where it stands. -/

/-- `m` is the greatest element of `xs`, first met at index `i`. -/
structure IsFirstMax {K : Type} [LinearOrder K] (xs : List K) (m : K) (i : Nat) : Prop where
  at_index : xs[i]? = some m
  upper : ∀ x ∈ xs, x ≤ m
  first : ∀ j x, j < i → xs[j]? = some x → x < m

namespace IsFirstMax

variable {K : Type} [LinearOrder K] {xs ys : List K} {m m' : K} {i i' : Nat}

theorem singleton (m : K) : IsFirstMax [m] m 0 := ⟨rfl, by simp, by omega⟩

/-- What follows and is no greater changes nothing. -/
theorem append_of_le (h : IsFirstMax xs m i) (hys : ∀ y ∈ ys, y ≤ m) :
    IsFirstMax (xs ++ ys) m i where
  at_index := by
    obtain ⟨hi, -⟩ := List.getElem?_eq_some_iff.mp h.at_index
    rw [List.getElem?_append_left hi, h.at_index]
  upper x hx := by
    rcases List.mem_append.mp hx with hx | hx
    · exact h.upper x hx
    · exact hys x hx
  first j x hj hx := by
    obtain ⟨hi, -⟩ := List.getElem?_eq_some_iff.mp h.at_index
    rw [List.getElem?_append_left (by omega)] at hx
    exact h.first j x hj hx

/-- A greater maximum behind it takes over. -/
theorem append_of_lt (h : IsFirstMax xs m i) (h' : IsFirstMax ys m' i') (hlt : m < m') :
    IsFirstMax (xs ++ ys) m' (xs.length + i') where
  at_index := by
    rw [List.getElem?_append_right (by omega), Nat.add_sub_cancel_left, h'.at_index]
  upper x hx := by
    rcases List.mem_append.mp hx with hx | hx
    · exact le_trans (h.upper x hx) (le_of_lt hlt)
    · exact h'.upper x hx
  first j x hj hx := by
    by_cases hjx : j < xs.length
    · rw [List.getElem?_append_left hjx] at hx
      exact lt_of_le_of_lt (h.upper x (List.mem_of_getElem? hx)) hlt
    · rw [List.getElem?_append_right (by omega)] at hx
      exact h'.first _ x (by omega) hx

theorem index_le (h : IsFirstMax xs m i) (h' : xs[i']? = some m) : i ≤ i' := by
  by_contra hlt
  exact lt_irrefl m (h.first i' m (by omega) h')

theorem unique (h : IsFirstMax xs m i) (h' : IsFirstMax xs m' i') : m = m' ∧ i = i' := by
  have hm : m = m' := le_antisymm (h'.upper m (List.mem_of_getElem? h.at_index))
    (h.upper m' (List.mem_of_getElem? h'.at_index))
  subst hm
  exact ⟨rfl, Nat.le_antisymm (h.index_le h'.at_index) (h'.index_le h.at_index)⟩

end IsFirstMax
