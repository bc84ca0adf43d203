import Mathlib.Tactic.Common

/-! Sequencing computations that may abort: how a bind runs, and what a bind
that came back says about its parts. -/
namespace Except

variable {ε α β : Type}

@[simp] theorem ok_bind (a : α) (f : α → Except ε β) : (Except.ok a >>= f) = f a := rfl

@[simp] theorem error_bind (e : ε) (f : α → Except ε β) :
    (Except.error e >>= f) = Except.error e := rfl

@[simp] theorem pure_eq_ok (a : α) : (pure a : Except ε α) = .ok a := rfl

@[simp] theorem throw_eq_error (e : ε) : (throw e : Except ε α) = .error e := rfl

theorem bind_eq_ok {x : Except ε α} {f : α → Except ε β} {b : β} :
    (x >>= f) = .ok b ↔ ∃ a, x = .ok a ∧ f a = .ok b := by
  cases x with
  | error e => simp
  | ok a => simp

/-- Two computations abort alike, or come back with related results. -/
inductive Related (R : α → β → Prop) : Except ε α → Except ε β → Prop
  | error (e : ε) : Related R (.error e) (.error e)
  | ok {a : α} {b : β} : R a b → Related R (.ok a) (.ok b)

/-- Steps that keep two states related take any list of inputs alike. -/
theorem foldlM_related {γ : Type} {R : α → β → Prop} {f : α → γ → Except ε α}
    {g : β → γ → Except ε β} (step : ∀ a b x, R a b → Related R (f a x) (g b x)) (xs : List γ)
    {a : α} {b : β} (start : R a b) : Related R (xs.foldlM f a) (xs.foldlM g b) := by
  induction xs generalizing a b with
  | nil => exact .ok start
  | cons x xs ih =>
    rw [List.foldlM_cons, List.foldlM_cons]
    have hstep := step a b x start
    generalize f a x = r, g b x = r' at hstep ⊢
    cases hstep with
    | error e => exact .error e
    | ok h => exact ih h

/-- What holds at the start and survives every step holds behind a fold that comes back. -/
theorem foldlM_invariant {f : α → β → Except ε α} {I : α → Prop}
    (step : ∀ a x b, I a → f a x = .ok b → I b) (xs : List β) {a b : α} (start : I a)
    (h : xs.foldlM f a = .ok b) : I b := by
  induction xs generalizing a with
  | nil =>
    cases h
    exact start
  | cons x xs ih =>
    rw [List.foldlM_cons, bind_eq_ok] at h
    obtain ⟨c, hc, h⟩ := h
    exact ih (step a x c start hc) h

/-- A fold that comes back came back at every input. -/
theorem foldlM_ok_of_mem {f : α → β → Except ε α} {xs : List β} {a b : α}
    (h : xs.foldlM f a = .ok b) {x : β} (hx : x ∈ xs) : ∃ c d, f c x = .ok d := by
  induction xs generalizing a with
  | nil => cases hx
  | cons y xs ih =>
    rw [List.foldlM_cons, bind_eq_ok] at h
    obtain ⟨c, hc, h⟩ := h
    cases hx with
    | head => exact ⟨a, c, hc⟩
    | tail _ hx => exact ih h hx

/-- Where `g` is what `f` does when it comes back, a fold of `f` comes back when none of its
inputs makes `f` abort, and then it is the fold of `g`. -/
theorem foldlM_eq_ok_iff {f : α → β → Except ε α} {g : α → β → α}
    (comes_back : ∀ a x b, f a x = .ok b → b = g a x) (xs : List β) {a b : α} :
    xs.foldlM f a = .ok b ↔
      (∀ pre x post, xs = pre ++ x :: post → ∃ c, f (pre.foldl g a) x = .ok c) ∧
        b = xs.foldl g a := by
  induction xs generalizing a with
  | nil => simp [eq_comm]
  | cons x xs ih =>
    rw [List.foldlM_cons, bind_eq_ok]
    constructor
    · rintro ⟨c, hc, h⟩
      obtain rfl := comes_back _ _ _ hc
      obtain ⟨hall, rfl⟩ := ih.mp h
      refine ⟨fun pre y post hsplit => ?_, rfl⟩
      cases pre with
      | nil =>
        obtain ⟨rfl, -⟩ := List.cons.inj hsplit
        exact ⟨_, hc⟩
      | cons z pre =>
        obtain ⟨rfl, htail⟩ := List.cons.inj hsplit
        exact hall pre y post htail
    · rintro ⟨hall, rfl⟩
      obtain ⟨c, hc⟩ := hall [] x xs rfl
      obtain rfl := comes_back _ _ _ hc
      refine ⟨_, hc, ih.mpr ⟨fun pre y post hsplit => ?_, rfl⟩⟩
      exact hall (x :: pre) y post (by rw [hsplit]; rfl)

/-- Comes back with a result of `P`, or aborts in a way that `E` tolerates. -/
inductive Delivers (E : ε → Prop) : Except ε α → (α → Prop) → Prop
  | ok {a : α} {P : α → Prop} : P a → Delivers E (.ok a) P
  | error {e : ε} {P : α → Prop} : E e → Delivers E (.error e) P

namespace Delivers

variable {E : ε → Prop} {x : Except ε α} {P : α → Prop} {Q : β → Prop}

theorem bind {f : α → Except ε β} (hx : Delivers E x P) (hf : ∀ a, P a → Delivers E (f a) Q) :
    Delivers E (x >>= f) Q := by
  cases hx with
  | error he => exact .error he
  | ok ha => exact hf _ ha

theorem mono {P' : α → Prop} (hx : Delivers E x P) (weaker : ∀ a, P a → P' a) :
    Delivers E x P' := by
  cases hx with
  | error he => exact .error he
  | ok ha => exact .ok (weaker _ ha)

/-- A fold whose `k`-th turn takes `I k` to `I (k + 1)`. -/
theorem range {f : α → Nat → Except ε α} {I : Nat → α → Prop} (n : Nat) {a : α} (start : I 0 a)
    (step : ∀ k a, k < n → I k a → Delivers E (f a k) (I (k + 1))) :
    Delivers E ((List.range n).foldlM f a) (I n) := by
  induction n with
  | zero => exact .ok start
  | succ n ih =>
    rw [List.range_succ, List.foldlM_append]
    apply bind (ih fun k a hk => step k a (by omega))
    intro b hb
    apply bind (step n b (by omega) hb)
    intro c hc
    exact .ok hc

/-- Where no abort is tolerated there is a result. -/
theorem result (hx : Delivers (fun _ => False) x P) : ∃ a, x = .ok a ∧ P a := by
  cases hx with
  | error he => cases he
  | ok ha => exact ⟨_, rfl, ha⟩

end Delivers

end Except
