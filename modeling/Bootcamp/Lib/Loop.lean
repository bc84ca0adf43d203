import Mathlib.Logic.Relation
import Mathlib.Tactic.Common

/-! Loops whose body may abort. A body takes a state to an error, to `none`
when the loop is left, or to the state of the next turn. `run` executes a
loop with a bound on its turns; `Reaches` forgets the bound. -/
namespace Loop

variable {σ ε : Type} (body : σ → Except ε (Option σ))

def Turn (s t : σ) : Prop := body s = .ok (some t)

/-- `t` is a state in which the body starts a turn, or would, after any
number of turns from `s`. Turns before a later abort count. -/
abbrev Reaches : σ → σ → Prop := Relation.ReflTransGen (Turn body)

/-- At most `n` turns. The result is `none` when the loop is still running. -/
def run : Nat → σ → Except ε (Option σ)
  | 0, _ => .ok none
  | n + 1, s =>
    match body s with
    | .error e => .error e
    | .ok none => .ok (some s)
    | .ok (some t) => run n t

variable {body}

/-- What holds at the start and survives every turn holds wherever the loop gets. -/
theorem Reaches.invariant {I : σ → Prop} {s t : σ} (h : Reaches body s t) (start : I s)
    (step : ∀ a b, Reaches body s a → I a → Turn body a b → I b) : I t := by
  induction h with
  | refl => exact start
  | tail hab hbc ih => exact step _ _ hab ih hbc

theorem turn_rightUnique : Relator.RightUnique (Turn body) :=
  fun _ _ _ h h' => Option.some.inj (Except.ok.inj (h.symm.trans h'))

/-- Where a number grows by one at every turn, it tells the states apart that are reached from
one start. -/
theorem Reaches.eq_of_count {s t u : σ} (μ : σ → Nat)
    (hμ : ∀ a b, Reaches body s a → Turn body a b → μ b = μ a + 1) (ht : Reaches body s t)
    (hu : Reaches body s u) (heq : μ t = μ u) : t = u := by
  have grows {a b : σ} (ha : Reaches body s a) (hab : Reaches body a b) : μ a ≤ μ b :=
    Reaches.invariant (I := fun x => μ a ≤ μ x) hab (Nat.le_refl _) fun x y hx hle hturn => by
      rw [hμ x y (ha.trans hx) hturn]
      exact Nat.le_succ_of_le hle
  have same {a b : σ} (ha : Reaches body s a) (hab : Reaches body a b) (heq : μ a = μ b) : a = b := by
    rcases hab.cases_head with rfl | ⟨x, hturn, hx⟩
    · rfl
    · have hstep := hμ a x ha hturn
      have hle := grows (ha.tail hturn) hx
      omega
  rcases ht.total_of_right_unique turn_rightUnique hu with h | h
  · exact same ht h heq
  · exact (same hu h heq.symm).symm

theorem run_reaches {n : Nat} {s t : σ} (h : run body n s = .ok (some t)) :
    Reaches body s t ∧ body t = .ok none := by
  induction n generalizing s with
  | zero => simp [run] at h
  | succ n ih =>
    unfold run at h
    split at h
    · cases h
    · rename_i left
      obtain rfl : s = t := by simpa using h
      exact ⟨.refl, left⟩
    · rename_i u turn
      obtain ⟨hr, hl⟩ := ih h
      exact ⟨.head turn hr, hl⟩

/-- A measure that every turn decreases bounds the number of turns. -/
theorem run_leaves (μ : σ → Nat) (hμ : ∀ a b, Turn body a b → μ b < μ a) {n : Nat} {s : σ}
    (hn : μ s < n) : run body n s ≠ .ok none := by
  induction n generalizing s with
  | zero => omega
  | succ n ih =>
    unfold run
    split
    · simp
    · simp
    · rename_i t turn
      have := hμ s t turn
      exact ih (by omega)

/-- Beyond that bound it does not matter how many turns are allowed. -/
theorem run_fuel (μ : σ → Nat) (hμ : ∀ a b, Turn body a b → μ b < μ a) {n m : Nat} {s : σ}
    (hn : μ s < n) (hm : μ s < m) : run body n s = run body m s := by
  induction n generalizing m s with
  | zero => omega
  | succ n ih =>
    cases m with
    | zero => omega
    | succ m =>
      unfold run
      split
      · rfl
      · rfl
      · rename_i t turn
        have := hμ s t turn
        exact ih (by omega) (by omega)

theorem run_turn {n : Nat} {s t : σ} (h : Turn body s t) : run body (n + 1) s = run body n t := by
  simp only [run, show body s = .ok (some t) from h]

theorem run_error {n : Nat} {s : σ} {e : ε} (h : body s = .error e) :
    run body (n + 1) s = .error e := by
  simp only [run, h]

end Loop
