import Bootcamp.Lib.Fallible
import Mathlib.Logic.Function.Basic

/-! Programs that replace one cell after another by a function of its own
content. What a cell holds in the end depends on the updates aimed at it,
in their order, and on no others. -/

structure Update (κ α : Type) where
  cell : κ
  apply : α → α

namespace Update

variable {κ α : Type} [DecidableEq κ]

def run (us : List (Update κ α)) (f : κ → α) : κ → α :=
  us.foldl (fun f u => Function.update f u.cell (u.apply (f u.cell))) f

/-- The updates of the cell `c`. -/
def aimed (c : κ) (us : List (Update κ α)) : List (Update κ α) := us.filter (·.cell = c)

theorem run_append (us vs : List (Update κ α)) (f : κ → α) : run (us ++ vs) f = run vs (run us f) :=
  List.foldl_append

theorem run_apply (us : List (Update κ α)) (f : κ → α) (c : κ) :
    run us f c = (aimed c us).foldl (fun x u => u.apply x) (f c) := by
  induction us generalizing f with
  | nil => rfl
  | cons u us ih =>
    change run us (Function.update f u.cell (u.apply (f u.cell))) c = _
    rw [ih, aimed, aimed, List.filter_cons]
    by_cases hc : u.cell = c
    · subst hc
      simp
    · simp [hc, Function.update_of_ne (Ne.symm hc)]

theorem aimed_append (c : κ) (us vs : List (Update κ α)) :
    aimed c (us ++ vs) = aimed c us ++ aimed c vs := List.filter_append us vs

theorem aimed_eq_nil {c : κ} {us : List (Update κ α)} (h : ∀ u ∈ us, u.cell ≠ c) :
    aimed c us = [] := by
  simpa [aimed] using h

theorem aimed_eq_self {c : κ} {us : List (Update κ α)} (h : ∀ u ∈ us, u.cell = c) :
    aimed c us = us := by
  simpa [aimed] using h

theorem aimed_flatMap {β : Type} (c : κ) (xs : List β) (g : β → List (Update κ α)) :
    aimed c (xs.flatMap g) = xs.flatMap fun x => aimed c (g x) := by
  simp [aimed, List.filter_flatMap]

/-- Of a loop one turn counts when the others aim elsewhere. -/
theorem aimed_range {c : κ} {n x : Nat} {g : Nat → List (Update κ α)} (hx : x < n)
    (h : ∀ y, y ≠ x → ∀ u ∈ g y, u.cell ≠ c) :
    aimed c ((List.range n).flatMap g) = aimed c (g x) := by
  induction n with
  | zero => omega
  | succ n ih =>
    rw [List.range_succ, List.flatMap_append, aimed_append, List.flatMap_singleton]
    by_cases hxn : x = n
    · subst hxn
      rw [aimed_eq_nil, List.nil_append]
      intro u hu
      obtain ⟨y, hy, hu⟩ := List.mem_flatMap.mp hu
      exact h y (by have := List.mem_range.mp hy; omega) u hu
    · rw [ih (by omega), aimed_eq_nil (h n (Ne.symm hxn)), List.append_nil]

/-- Of two nested loops one turn counts when only it aims at the cell. -/
theorem aimed_grid {c : κ} {n m i j : Nat} {g : Nat → Nat → List (Update κ α)} (hi : i < n)
    (hj : j < m) (h : ∀ i' j', ∀ u ∈ g i' j', u.cell = c → i' = i ∧ j' = j) :
    aimed c ((List.range n).flatMap fun i => (List.range m).flatMap (g i)) = aimed c (g i j) := by
  rw [aimed_range hi, aimed_range hj]
  · intro j' hne u hu hc
    exact hne (h i j' u hu hc).2
  · intro i' hne u hu hc
    obtain ⟨j', -, hu⟩ := List.mem_flatMap.mp hu
    exact hne (h i' j' u hu hc).1

/-- Two nested loops over `n` tiles of width `t` are one over `n * t` indices. -/
theorem range_tiles {β : Type} (n t : Nat) (g : Nat → List β) :
    ((List.range n).flatMap fun a => (List.range t).flatMap fun k => g (a * t + k)) =
      (List.range (n * t)).flatMap g := by
  induction n with
  | zero => simp
  | succ n ih =>
    rw [List.range_succ, List.flatMap_append, ih, List.flatMap_singleton, Nat.succ_mul,
      List.range_add, List.flatMap_append, List.flatMap_map]

/-- A loop whose turns perform updates on a state that represents the cells. -/
theorem range_delivers {σ ε : Type} {E : ε → Prop} {R : σ → (κ → α) → Prop}
    {body : σ → Nat → Except ε σ} {g : Nat → List (Update κ α)} {n : Nat}
    (step : ∀ k s f, k < n → R s f → Except.Delivers E (body s k) (R · (run (g k) f)))
    {s : σ} {f : κ → α} (h : R s f) :
    Except.Delivers E ((List.range n).foldlM body s) (R · (run ((List.range n).flatMap g) f)) := by
  apply Except.Delivers.range (I := fun k s => R s (run ((List.range k).flatMap g) f))
  · exact h
  · intro k s hk hs
    rw [List.range_succ, List.flatMap_append, run_append, List.flatMap_singleton]
    exact step k s _ hk hs

end Update
