import Mathlib.Data.List.Basic
import Mathlib.Tactic.Common

/-! Pieces of a range of positions, taken off its front one after another. -/

/-- The positions from `start` on, `size` of them. -/
structure Piece where
  start : Int
  size : Int
  deriving DecidableEq, Repr

namespace Piece

def stop (p : Piece) : Int := p.start + p.size

/-- The pieces stand one behind the other from `a` to `b`, and none is empty. -/
inductive Consecutive (a : Int) : List Piece → Int → Prop
  | nil : Consecutive a [] a
  | snoc {ps : List Piece} {b size : Int} : Consecutive a ps b → 0 < size →
      Consecutive a (ps ++ [⟨b, size⟩]) (b + size)

namespace Consecutive

variable {a b : Int} {ps : List Piece}

theorem le (h : Consecutive a ps b) : a ≤ b := by
  induction h with
  | nil => exact Int.le_refl a
  | snoc _ hsize ih => omega

theorem inside (h : Consecutive a ps b) : ∀ p ∈ ps, a ≤ p.start ∧ p.stop ≤ b := by
  induction h with
  | nil => simp
  | @snoc ps b size hps hsize ih =>
    intro p hp
    rcases List.mem_append.mp hp with hp | hp
    · have := ih p hp
      omega
    · obtain rfl := List.mem_singleton.mp hp
      exact ⟨hps.le, Int.le_refl _⟩

theorem disjoint (h : Consecutive a ps b) : ps.Pairwise fun p q => p.stop ≤ q.start := by
  induction h with
  | nil => exact .nil
  | @snoc ps b size hps hsize ih =>
    refine List.pairwise_append.mpr ⟨ih, List.pairwise_singleton _ _, fun p hp q hq => ?_⟩
    obtain rfl := List.mem_singleton.mp hq
    exact (hps.inside p hp).2

/-- Together they are the whole range. -/
theorem covers (h : Consecutive a ps b) (x : Int) :
    (∃ p ∈ ps, p.start ≤ x ∧ x < p.stop) ↔ a ≤ x ∧ x < b := by
  induction h with
  | nil => simp
  | @snoc ps b size hps hsize ih =>
    have hle := hps.le
    constructor
    · rintro ⟨p, hp, hx⟩
      have := (hps.snoc hsize).inside p hp
      omega
    · rintro ⟨hax, hxb⟩
      by_cases hxp : x < b
      · obtain ⟨p, hp, hx⟩ := ih.mpr ⟨hax, hxp⟩
        exact ⟨p, by simp [hp], hx⟩
      · exact ⟨⟨b, size⟩, by simp, by simp only; omega, hxb⟩

end Consecutive

end Piece
