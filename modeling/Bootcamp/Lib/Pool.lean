import Mathlib.Algebra.Order.Ring.Nat
import Mathlib.Data.List.Count
import Mathlib.Tactic.Common

/-! A pool of parties, as a list of where each of them is. One moves, and the others stay. -/
namespace Pool

variable {α : Type} {before after : List α} {x y : α}

theorem sum_split (f : α → Nat) (before after : List α) (x : α) :
    ((before ++ x :: after).map f).sum = ((before ++ after).map f).sum + f x := by
  simp only [List.map_append, List.map_cons, List.sum_append, List.sum_cons]
  omega

/-- Less is left when one party comes closer to its end. -/
theorem sum_lt {f : α → Nat} (h : f y < f x) :
    ((before ++ y :: after).map f).sum < ((before ++ x :: after).map f).sum := by
  rw [sum_split, sum_split]
  exact Nat.add_lt_add_left h _

theorem mem_split {z : α} : z ∈ before ++ x :: after ↔ z = x ∨ z ∈ before ++ after := by
  simp only [List.mem_append, List.mem_cons]
  tauto

/-- A party unlike all others is in one place only. -/
theorem split_unique {P : α → Prop} {before' after' : List α}
    (h : before ++ x :: after = before' ++ y :: after') (hothers : ∀ z ∈ before ++ after, P z)
    (hy : ¬ P y) : before = before' ∧ x = y ∧ after = after' := by
  induction before generalizing before' with
  | nil =>
    cases before' with
    | nil => simpa using h
    | cons z before' =>
      obtain ⟨rfl, rfl⟩ := List.cons.inj h
      exact absurd (hothers y (by simp)) hy
  | cons z before ih =>
    obtain ⟨hz, hothers⟩ := List.forall_mem_cons.mp hothers
    cases before' with
    | nil =>
      obtain ⟨rfl, -⟩ := List.cons.inj h
      exact absurd hz hy
    | cons z' before' =>
      obtain ⟨rfl, hrest⟩ := List.cons.inj h
      obtain ⟨rfl, hxy, hafter⟩ := ih hrest hothers
      exact ⟨rfl, hxy, hafter⟩

variable [DecidableEq α]

theorem count_split (before after : List α) (x y : α) :
    (before ++ x :: after).count y = (before ++ after).count y + if x = y then 1 else 0 := by
  rw [List.count_append, List.count_append, List.count_cons, Nat.add_assoc]
  simp only [beq_iff_eq]

theorem count_concat (l : List α) (x y : α) :
    (l ++ [x]).count y = l.count y + if x = y then 1 else 0 := by
  rw [count_split, List.append_nil]

end Pool
