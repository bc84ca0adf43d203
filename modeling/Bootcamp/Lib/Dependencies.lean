import Mathlib.Data.List.Induction
import Mathlib.Data.List.Perm.Basic
import Mathlib.Tactic.Common

/-! Tables that are built item by item. An item reads one entry at most and writes one at most.
Where no item reads what a later one writes, the table does not depend on the order. -/
namespace Dependencies

/-- The entry that an item writes, the one that it reads, and what it makes of what it reads. -/
structure Rules (ν κ β : Type) where
  key : ν → Option κ
  dep : ν → Option κ
  value : ν → Option β → Option β

namespace Rules

variable {ν κ β : Type} [DecidableEq κ] (R : Rules ν κ β)

def read (t : κ → Option β) (x : ν) : Option β := (R.dep x).bind t

def enter (t : κ → Option β) (x : ν) : κ → Option β := fun k =>
  if R.key x = some k then (R.value x (R.read t x)).or (t k) else t k

def build (xs : List ν) : κ → Option β := xs.foldl R.enter fun _ => none

/-- No item reads what a later one writes, and only copies of an item write the same entry. -/
def Ordered (xs : List ν) : Prop :=
  xs.Pairwise fun x y => ∀ k, R.key y = some k → (R.key x = some k → x = y) ∧ R.dep x ≠ some k

/-- What an item has read, seen from the end. No item reads what it writes itself. -/
def seen (t : κ → Option β) (x : ν) : Option β := if R.dep x = R.key x then none else R.read t x

variable {R} {xs ys : List ν} {x : ν} {k : κ}

theorem enter_apply (t : κ → Option β) (x : ν) (k : κ) :
    R.enter t x k = if R.key x = some k then (R.value x (R.read t x)).or (t k) else t k := rfl

theorem build_concat : R.build (xs ++ [x]) = R.enter (R.build xs) x := by
  rw [build, List.foldl_append]
  rfl

/-- What nobody writes stays. -/
theorem build_append (h : ∀ y ∈ ys, R.key y ≠ some k) : R.build (xs ++ ys) k = R.build xs k := by
  induction ys using List.reverseRecOn with
  | nil => rw [List.append_nil]
  | append_singleton ys y ih =>
    obtain ⟨hys, hy⟩ := List.forall_mem_append.mp h
    rw [← List.append_assoc, build_concat, enter_apply, if_neg (hy y (by simp)), ih hys]

theorem build_eq_none (h : ∀ y ∈ xs, R.key y ≠ some k) : R.build xs k = none := by
  have hnone : R.build ([] ++ xs) k = R.build [] k := build_append h
  rwa [List.nil_append] at hnone

/-- At its turn every item reads what the whole table has for it. -/
theorem Ordered.read_eq {pre post : List ν} (h : R.Ordered (pre ++ x :: post)) :
    R.read (R.build pre) x = R.seen (R.build (pre ++ x :: post)) x := by
  obtain ⟨-, hlater, hbefore⟩ := List.pairwise_append.mp h
  obtain ⟨hpost, -⟩ := List.pairwise_cons.mp hlater
  cases hdep : R.dep x with
  | none => simp [read, seen, hdep]
  | some k =>
    by_cases hself : R.dep x = R.key x
    · rw [seen, if_pos hself, read, hdep]
      apply build_eq_none
      intro y hy hkey
      have hxk : R.key x = some k := hself.symm.trans hdep
      have hpair := hbefore y hy x (by simp) k hxk
      exact hpair.2 (by rw [hpair.1 hkey, hdep])
    · rw [seen, if_neg hself, read, read, hdep]
      refine (build_append ?_).symm
      intro y hy hkey
      rcases List.mem_cons.mp hy with rfl | hy
      · exact hself (hdep.trans hkey.symm)
      · exact (hpost y hy k hkey).2 hdep

omit [DecidableEq κ] in
theorem Ordered.of_append (h : R.Ordered (xs ++ ys)) : R.Ordered xs :=
  (List.pairwise_append.mp h).1

/-- Later items do not change what was read. -/
theorem Ordered.seen_append (h : R.Ordered (xs ++ ys)) (hx : x ∈ xs) :
    R.seen (R.build (xs ++ ys)) x = R.seen (R.build xs) x := by
  rw [seen, seen]
  split
  · rfl
  · cases hdep : R.dep x with
    | none => simp [read, hdep]
    | some k =>
      rw [read, read, hdep]
      refine build_append fun y hy hkey => ?_
      exact ((List.pairwise_append.mp h).2.2 x hx y hy k hkey).2 hdep

/-- Every entry is what its item makes of the table. -/
theorem Ordered.build_eq (h : R.Ordered xs) (hx : x ∈ xs) (hk : R.key x = some k) :
    R.build xs k = R.value x (R.seen (R.build xs) x) := by
  induction xs using List.reverseRecOn with
  | nil => cases hx
  | append_singleton xs y ih =>
    have hxs := h.of_append
    by_cases hmem : x ∈ xs
    · have hold := ih hxs hmem
      rw [h.seen_append hmem, build_concat, enter_apply]
      split
      · rename_i hy
        obtain ⟨hsame, hdep⟩ := (List.pairwise_append.mp h).2.2 x hmem y (by simp) k hy
        obtain rfl := hsame hk
        have hread : R.read (R.build xs) x = R.seen (R.build xs) x := by
          rw [seen, if_neg (hk ▸ hdep)]
        rw [hread, hold]
        cases R.value x (R.seen (R.build xs) x) <;> rfl
      · exact hold
    · obtain rfl : x = y := by simpa [hmem] using hx
      rw [← h.read_eq, build_concat, enter_apply, if_pos hk, build_eq_none, Option.or_none]
      intro y hy hkey
      have hsame := ((List.pairwise_append.mp h).2.2 y hy x (by simp) k hk).1 hkey
      exact hmem (hsame ▸ hy)

/-- What an item has read is the same in every order, as it is for the items before it. -/
theorem Ordered.seen_front {pre post : List ν} (h : R.Ordered (pre ++ post)) (h' : R.Ordered ys)
    (hperm : (pre ++ post).Perm ys) :
    ∀ x ∈ pre, R.seen (R.build (pre ++ post)) x = R.seen (R.build ys) x := by
  induction pre using List.reverseRecOn generalizing post with
  | nil => nofun
  | append_singleton pre y ih =>
    have hfront : pre ++ [y] ++ post = pre ++ y :: post := by simp
    intro x hx
    rcases List.mem_append.mp hx with hx | hx
    · rw [hfront] at h hperm ⊢
      exact ih h hperm x hx
    · obtain rfl := List.mem_singleton.mp hx
      rw [seen, seen]
      split
      · rfl
      · rename_i hself
        cases hdep : R.dep x with
        | none => simp [read, hdep]
        | some k =>
          rw [read, read, hdep, Option.bind_some, Option.bind_some]
          by_cases hwritten : ∃ z ∈ pre ++ [x] ++ post, R.key z = some k
          · obtain ⟨z, hz, hkey⟩ := hwritten
            -- who writes it stands before
            have hbefore : z ∈ pre := by
              rcases List.mem_append.mp hz with hz | hz
              · refine (List.mem_append.mp hz).resolve_right fun hlast => hself ?_
                rw [hdep, ← hkey, List.mem_singleton.mp hlast]
              · exact absurd hdep ((List.pairwise_append.mp h).2.2 x (by simp) z hz k hkey).2
            have hsame : R.seen (R.build (pre ++ [x] ++ post)) z = R.seen (R.build ys) z := by
              rw [hfront] at h hperm ⊢
              exact ih h hperm z hbefore
            rw [h.build_eq hz hkey, h'.build_eq (hperm.mem_iff.mp hz) hkey, hsame]
          · have hnone (y : ν) (hy : y ∈ pre ++ [x] ++ post) : R.key y ≠ some k :=
              fun hkey => hwritten ⟨y, hy, hkey⟩
            rw [build_eq_none hnone, build_eq_none fun y hy => hnone y (hperm.mem_iff.mpr hy)]

theorem Ordered.seen_perm (h : R.Ordered xs) (h' : R.Ordered ys) (hperm : xs.Perm ys)
    (hx : x ∈ xs) : R.seen (R.build xs) x = R.seen (R.build ys) x := by
  rw [← List.append_nil xs] at h hperm ⊢
  exact h.seen_front h' hperm x hx

/-- The same items in another order give the same table. -/
theorem Ordered.build_perm (h : R.Ordered xs) (h' : R.Ordered ys) (hperm : xs.Perm ys) :
    R.build xs = R.build ys := by
  funext k
  by_cases hwritten : ∃ x ∈ xs, R.key x = some k
  · obtain ⟨x, hx, hkey⟩ := hwritten
    rw [h.build_eq hx hkey, h'.build_eq (hperm.mem_iff.mp hx) hkey, h.seen_perm h' hperm hx]
  · have hnone (y : ν) (hy : y ∈ xs) : R.key y ≠ some k := fun hkey => hwritten ⟨y, hy, hkey⟩
    rw [build_eq_none hnone, build_eq_none fun y hy => hnone y (hperm.mem_iff.mpr hy)]

end Rules

end Dependencies
