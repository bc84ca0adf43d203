import Mathlib.Data.Finsupp.Weight
import Mathlib.Tactic.Ring

/-! Ledgers over any kind of address, with amounts that never overflow. A
payment empties its source: the amount goes to one address and what is left
to another, and both may be the source itself, whose account is closed last. -/
namespace Ledger

variable {α : Type}

structure Payment (α : Type) where
  source : α
  dest : α
  change : α
  amount : ℕ

def Covered (l : α →₀ ℕ) (p : Payment α) : Prop := p.amount ≤ l p.source

/-- The destination has been credited. -/
noncomputable def paid (l : α →₀ ℕ) (p : Payment α) : α →₀ ℕ := l + Finsupp.single p.dest p.amount

/-- Both credits are made and the source still stands. -/
noncomputable def credited (l : α →₀ ℕ) (p : Payment α) : α →₀ ℕ :=
  paid l p + Finsupp.single p.change (l p.source - p.amount)

noncomputable def pay (l : α →₀ ℕ) (p : Payment α) : α →₀ ℕ := (credited l p).erase p.source

noncomputable def reward (l : α →₀ ℕ) (a : α) (v : ℕ) : α →₀ ℕ := l + Finsupp.single a v

theorem pay_apply [DecidableEq α] (l : α →₀ ℕ) (p : Payment α) (a : α) :
    pay l p a = if a = p.source then 0
      else l a + (if a = p.dest then p.amount else 0) +
        (if a = p.change then l p.source - p.amount else 0) := by
  simp only [pay, credited, paid, Finsupp.erase_apply, Finsupp.add_apply, Finsupp.single_apply,
    eq_comm (a := p.dest), eq_comm (a := p.change)]

theorem reward_apply [DecidableEq α] (l : α →₀ ℕ) (a b : α) (v : ℕ) :
    reward l a v b = l b + if b = a then v else 0 := by
  simp only [reward, Finsupp.add_apply, Finsupp.single_apply, eq_comm (a := a)]

/-! ## Supply -/

/-- While the source still stands its money is counted twice. -/
theorem degree_credited {l : α →₀ ℕ} {p : Payment α} (h : Covered l p) :
    (credited l p).degree = l.degree + l p.source := by
  have hsplit : p.amount + (l p.source - p.amount) = l p.source := Nat.add_sub_of_le h
  simp only [credited, paid, map_add, Finsupp.degree_single, add_assoc, hsplit]

theorem degree_erase (l : α →₀ ℕ) (a : α) : (l.erase a).degree + l a = l.degree := by
  conv_rhs => rw [← Finsupp.erase_add_single a l]
  rw [map_add, Finsupp.degree_single]

/-- What a payment sends back to its own source. -/
def returned [DecidableEq α] (l : α →₀ ℕ) (p : Payment α) : ℕ :=
  (if p.dest = p.source then p.amount else 0) +
    if p.change = p.source then l p.source - p.amount else 0

/-- A payment burns what goes back to its source, and nothing else. -/
theorem degree_pay [DecidableEq α] {l : α →₀ ℕ} {p : Payment α} (h : Covered l p) :
    (pay l p).degree + returned l p = l.degree := by
  have hsum := degree_erase (credited l p) p.source
  have hstand : credited l p p.source = l p.source + returned l p := by
    simp only [credited, paid, returned, Finsupp.add_apply, Finsupp.single_apply, add_assoc]
  rw [degree_credited h, hstand] at hsum
  rw [pay]
  omega

theorem degree_pay_le {l : α →₀ ℕ} {p : Payment α} (h : Covered l p) :
    (pay l p).degree ≤ l.degree := by
  classical
  have hsum := degree_pay h
  omega

/-- No account exceeds twice the supply, not even between the two credits. -/
theorem credited_le {l : α →₀ ℕ} {p : Payment α} (h : Covered l p) (a : α) :
    credited l p a ≤ 2 * l.degree := by
  have hle := Finsupp.le_degree a (credited l p)
  have hsrc := Finsupp.le_degree p.source l
  rw [degree_credited h] at hle
  omega

theorem paid_le_credited (l : α →₀ ℕ) (p : Payment α) (a : α) : paid l p a ≤ credited l p a := by
  simp only [credited, Finsupp.add_apply]
  exact Nat.le_add_right _ _

/-! ## Who can lose -/

/-- Only the source of a payment can come out of it with less. -/
theorem le_pay {l : α →₀ ℕ} {p : Payment α} {a : α} (h : a ≠ p.source) : l a ≤ pay l p a := by
  classical
  rw [pay_apply, if_neg h, add_assoc]
  exact Nat.le_add_right _ _

theorem dest_le_pay {l : α →₀ ℕ} {p : Payment α} (h : p.dest ≠ p.source) :
    l p.dest + p.amount ≤ pay l p p.dest := by
  classical
  rw [pay_apply, if_neg h, if_pos rfl]
  exact Nat.le_add_right _ _

theorem change_le_pay {l : α →₀ ℕ} {p : Payment α} (h : p.change ≠ p.source) :
    l p.source - p.amount ≤ pay l p p.change := by
  classical
  rw [pay_apply, if_neg h, if_pos rfl]
  exact Nat.le_add_left _ _

theorem le_reward (l : α →₀ ℕ) (a b : α) (v : ℕ) : l b ≤ reward l a v b := by
  classical
  rw [reward_apply]
  exact Nat.le_add_right _ _

/-! ## Runs of payments -/

/-- Payments made one after the other, each covered when its turn comes. -/
inductive Run : (α →₀ ℕ) → List (Payment α) → (α →₀ ℕ) → Prop
  | nil {l : α →₀ ℕ} : Run l [] l
  | cons {l l' : α →₀ ℕ} {p : Payment α} {ps : List (Payment α)} :
      Covered l p → Run (pay l p) ps l' → Run l (p :: ps) l'

theorem Run.degree_le {l l' : α →₀ ℕ} {ps : List (Payment α)} (h : Run l ps l') :
    l'.degree ≤ l.degree := by
  induction h with
  | nil => exact le_refl _
  | cons hc _ ih => exact ih.trans (degree_pay_le hc)

/-- An address that has less after a run made one of its payments. -/
theorem Run.exists_source {l l' : α →₀ ℕ} {ps : List (Payment α)} (h : Run l ps l') {a : α}
    (hlt : l' a < l a) : ∃ p ∈ ps, p.source = a := by
  induction h with
  | nil => exact absurd hlt (lt_irrefl _)
  | @cons l l' p ps _ _ ih =>
    by_cases ha : a = p.source
    · exact ⟨p, List.mem_cons_self, ha.symm⟩
    · obtain ⟨q, hq, hqa⟩ := ih (hlt.trans_le (le_pay ha))
      exact ⟨q, List.mem_cons_of_mem _ hq, hqa⟩

end Ledger
