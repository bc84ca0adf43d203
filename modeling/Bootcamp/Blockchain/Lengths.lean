import Bootcamp.Blockchain.Linking

/-! What the loop over the tails makes of a whole heap, whatever the lengths were before. -/
namespace Bootcamp

open Chains (Chain Reaches)

namespace Heap

/-- Finitely many blocks have a predecessor, and no block is behind itself. -/
structure Acyclic (heap : Heap) : Prop where
  finite : {p | heap.prev p ≠ none}.Finite
  no_cycle : ∀ p, ¬Relation.TransGen (fun p q => heap.prev p = some q) p p

theorem acyclic_of_rank {heap : Heap} (finite : {p | heap.prev p ≠ none}.Finite)
    (rank : Ptr → Nat) (down : ∀ p q, heap.prev p = some q → rank q < rank p) : heap.Acyclic :=
  ⟨finite, (Chains.acyclic_iff finite).mp (Chains.acyclic_of_rank rank down)⟩

theorem Acyclic.exists_chain {heap : Heap} (h : heap.Acyclic) (p : Ptr) :
    ∃ l, Chain heap.prev p l :=
  ((Chains.acyclic_iff h.finite).mpr h.no_cycle).exists_chain p

/-- The blocks that can be reached from `ps`. -/
def reachable (heap : Heap) (ps : List Ptr) : Set Ptr := {x | ∃ p ∈ ps, Reaches heap.prev p x}

end Heap

/-- The loop repairs what the tails reach, in whatever order it comes to them. -/
theorem pickTip_repaired {objects : Nat} {ps : List (HashResult × Ptr)} {heap heap' : Heap}
    {length : UInt32} {tip tip' : Option Ptr}
    (h : pickTip objects ps heap length tip = .ok (heap', tip')) :
    heap.Repaired (heap.reachable (ps.map Prod.snd)) heap' := by
  induction ps generalizing heap length tip with
  | nil =>
    obtain ⟨rfl, -⟩ := Prod.mk.inj (Except.ok.inj h)
    have hreach : heap.reachable [] = ∅ := by
      ext x
      simp [Heap.reachable]
    rw [List.map_nil, hreach]
    exact .refl heap
  | cons e ps ih =>
    obtain ⟨hash, p⟩ := e
    unfold pickTip at h
    obtain ⟨heap₁, h₁, h⟩ := Except.bind_eq_ok.mp h
    have hcall := recomputeLength_repaired h₁
    have hrest : heap₁.Repaired (heap.reachable (ps.map Prod.snd)) heap' := by
      have hreach : heap.reachable (ps.map Prod.snd) = heap₁.reachable (ps.map Prod.snd) := by
        rw [Heap.reachable, Heap.reachable, hcall.prev]
      rw [hreach]
      split at h
      · exact ih h
      · exact ih h
    have hreach : heap.reachable (((hash, p) :: ps).map Prod.snd) =
        {x | Reaches heap.prev p x} ∪ heap.reachable (ps.map Prod.snd) := by
      ext x
      simp only [Heap.reachable, List.map_cons, List.mem_cons, Set.mem_union, Set.mem_ofPred_eq,
        exists_eq_or_imp]
    rw [hreach]
    exact hcall.trans hrest

/-- With enough objects for the longest chain behind a tail the loop comes to its end. -/
theorem pickTip_repairs {heap : Heap} (hacyclic : heap.Acyclic)
    (tails : List (HashResult × Ptr)) :
    ∃ objects, ∀ n, objects ≤ n → ∃ heap' tip length,
      pickTip n tails heap 0 none = .ok (heap', tip) ∧ SameShape heap heap' ∧
        Longest heap' (tails.map Prod.snd) length tip := by
  obtain ⟨objects, hobjects⟩ : ∃ objects, ∀ e ∈ tails, ∃ l, Chain heap.prev e.2 l ∧
      l.length ≤ objects := by
    induction tails with
    | nil => exact ⟨0, by simp⟩
    | cons e es ih =>
      obtain ⟨objects, hes⟩ := ih
      obtain ⟨l, hl⟩ := hacyclic.exists_chain e.2
      refine ⟨max objects l.length, List.forall_mem_cons.mpr ⟨⟨l, hl, le_max_right _ _⟩, ?_⟩⟩
      intro e' he'
      obtain ⟨l', hl', hle⟩ := hes e' he'
      exact ⟨l', hl', hle.trans (le_max_left _ _)⟩
  refine ⟨objects, fun n hn => ?_⟩
  have henough : ∀ e ∈ tails, ∃ l, Chain heap.prev e.2 l ∧ l.length ≤ n := by
    intro e he
    obtain ⟨l, hl, hle⟩ := hobjects e he
    exact ⟨l, hl, hle.trans hn⟩
  obtain ⟨heap', tip, hpick⟩ := pickTip_returns 0 none henough
  have hstart : Longest heap [] 0 none := ⟨by simp, by simp, by simp, by simp, by simp⟩
  obtain ⟨hshape, length, hlongest⟩ := pickTip_spec hpick hstart
  exact ⟨heap', tip, length, hpick, hshape, hlongest⟩

/-- The tip is a tail of the greatest length, and where no chain has `2 ^ 32` blocks there is one
and no tail's chain is longer. -/
structure TipLongest (heap heap' : Heap) (ends : List Ptr) (tip : Option Ptr) : Prop where
  length : ∀ t, tip = some t → t ∈ ends ∧ ∀ x ∈ ends, (heap' x).length ≤ (heap' t).length
  chain : (∀ x ∈ ends, ∀ l, Chain heap.prev x l → l.length < 2 ^ 32) →
    (tip = none ↔ ends = []) ∧ ∀ t, tip = some t → ∀ x ∈ ends, ∀ l l', Chain heap.prev t l →
      Chain heap.prev x l' → l'.length ≤ l.length

theorem Longest.tipLongest {heap heap' : Heap} {ends : List Ptr} {length : UInt32}
    {tip : Option Ptr} (hshape : SameShape heap heap') (h : Longest heap' ends length tip) :
    TipLongest heap heap' ends tip where
  length t ht := by
    obtain ⟨hmem, hlen⟩ := h.some t ht
    exact ⟨hmem, fun x hx => hlen ▸ h.bound x hx⟩
  chain hshort := by
    have hcount (x : Ptr) (hx : x ∈ ends) (l : List Ptr) (hl : Chain heap.prev x l) :
        (heap' x).length.toNat = l.length := by
      obtain ⟨l', hl', hlen⟩ := h.counted x hx
      obtain rfl := (hshape.chain.mp hl').unique hl
      rw [hlen, UInt32.toNat_ofNat_of_lt' (hshort x hx l' hl)]
    constructor
    · constructor
      · intro hnone
        cases ends with
        | nil => rfl
        | cons x xs =>
          -- a block has a length of one at least, and the greatest one is zero
          obtain ⟨l, hl, -⟩ := h.counted x (by simp)
          have hl := hshape.chain.mp hl
          have hpos := List.length_pos_iff.mpr hl.ne_nil
          have hle := UInt32.le_iff_toNat_le.mp (h.bound x (by simp))
          rw [h.none.mp hnone, hcount x (by simp) l hl] at hle
          simp only [UInt32.toNat_zero] at hle
          omega
      · rintro rfl
        cases tip with
        | none => rfl
        | some t => cases (h.some t rfl).1
    · intro t ht x hx l l' hl hl'
      obtain ⟨hmem, hlen⟩ := h.some t ht
      have hle := UInt32.le_iff_toNat_le.mp (h.bound x hx)
      rwa [← hlen, hcount x hx l' hl', hcount t hmem l hl] at hle

/-- `n` blocks, each but the first behind another, all with the length of a new block. -/
def deepHeap (n : Nat) : Heap := fun p =>
  { Block.new with
    prevBlock :=
      if p.thread = 0 ∧ 0 < p.serial ∧ p.serial < n then some ⟨0, p.serial - 1⟩ else none }

theorem deepHeap_prev {n : Nat} {p q : Ptr} :
    (deepHeap n).prev p = some q ↔
      (p.thread = 0 ∧ 0 < p.serial ∧ p.serial < n) ∧ q = ⟨0, p.serial - 1⟩ := by
  simp only [deepHeap, Heap.prev, Option.ite_none_right_eq_some, Option.some.injEq,
    eq_comm (b := q)]

theorem acyclic_deepHeap (n : Nat) : (deepHeap n).Acyclic := by
  apply Heap.acyclic_of_rank _ Ptr.serial
  · intro p q hq
    obtain ⟨⟨-, hpos, -⟩, rfl⟩ := deepHeap_prev.mp hq
    exact Nat.sub_one_lt (by omega)
  · apply ((Set.finite_lt_nat n).image (Ptr.mk 0)).subset
    intro p hp
    obtain ⟨q, hq⟩ := Option.ne_none_iff_exists'.mp hp
    obtain ⟨⟨hthread, -, hlt⟩, -⟩ := deepHeap_prev.mp hq
    exact ⟨p.serial, hlt, by rw [← hthread]⟩

theorem length_deepHeap {n k : Nat} (hk : k < n) {l : List Ptr}
    (hl : Chain (deepHeap n).prev ⟨0, k⟩ l) : l.length = k + 1 := by
  have hdown (p q : Ptr) (hp : p.thread = 0 ∧ p.serial < n) (hq : (deepHeap n).prev p = some q) :
      (q.thread = 0 ∧ q.serial < n) ∧ q.serial + 1 + 1 = p.serial + 1 := by
    obtain ⟨⟨-, hpos, hlt⟩, rfl⟩ := deepHeap_prev.mp hq
    exact ⟨⟨rfl, by simp only; omega⟩, by simp only; omega⟩
  have hroot (p : Ptr) (hp : p.thread = 0 ∧ p.serial < n) (hnone : (deepHeap n).prev p = none) :
      p.serial + 1 = 1 := by
    by_contra hpos
    have hprev : (deepHeap n).prev p = some ⟨0, p.serial - 1⟩ :=
      deepHeap_prev.mpr ⟨⟨hp.1, by omega, hp.2⟩, rfl⟩
    rw [hnone] at hprev
    cases hprev
  exact hl.length_eq_rank hdown hroot ⟨rfl, hk⟩

/-- Whatever the lengths were, and in whatever order the tails come, afterwards every block that
a tail reaches counts its chain, up to 32 bits; nothing else is written; and the tip is longest. -/
theorem recompute_repairs_lengths {heap : Heap} (hacyclic : heap.Acyclic)
    (tails : List (HashResult × Ptr)) :
    ∃ objects, ∀ n, objects ≤ n → ∃ heap' tip,
      pickTip n tails heap 0 none = .ok (heap', tip) ∧
        heap.Repaired (heap.reachable (tails.map Prod.snd)) heap' ∧
        TipLongest heap heap' (tails.map Prod.snd) tip := by
  obtain ⟨objects, hloop⟩ := pickTip_repairs hacyclic tails
  refine ⟨objects, fun n hn => ?_⟩
  obtain ⟨heap', tip, length, hpick, hshape, hlongest⟩ := hloop n hn
  exact ⟨heap', tip, hpick, pickTip_repaired hpick, hlongest.tipLongest hshape⟩

/-- Three blocks behind one another, the last two of them tails. -/
theorem recompute_repairs_lengths_three :
    ∃ objects, ∀ n, objects ≤ n → ∃ heap' tip,
      pickTip n [(.ofNat 1, ⟨0, 1⟩), (.ofNat 2, ⟨0, 2⟩)] (deepHeap 3) 0 none = .ok (heap', tip) ∧
        (deepHeap 3).Repaired ((deepHeap 3).reachable [⟨0, 1⟩, ⟨0, 2⟩]) heap' ∧
        TipLongest (deepHeap 3) heap' [⟨0, 1⟩, ⟨0, 2⟩] tip :=
  recompute_repairs_lengths (acyclic_deepHeap 3) _

/-- A chain of `2 ^ 32` blocks has the length 0, and with it as its only tail no tip is chosen. -/
theorem recompute_length_wraps :
    (deepHeap 4294967296).Acyclic ∧ ∃ objects, ∀ n, objects ≤ n → ∃ heap' l,
      pickTip n [(.zero, ⟨0, 4294967295⟩)] (deepHeap 4294967296) 0 none = .ok (heap', none) ∧
        Chain (deepHeap 4294967296).prev ⟨0, 4294967295⟩ l ∧ l.length = 4294967296 ∧
        (heap' ⟨0, 4294967295⟩).length = 0 := by
  refine ⟨acyclic_deepHeap _, ?_⟩
  obtain ⟨objects, hloop⟩ := pickTip_repairs (acyclic_deepHeap 4294967296)
    [(.zero, ⟨0, 4294967295⟩)]
  refine ⟨objects, fun n hn => ?_⟩
  obtain ⟨heap', tip, length, hpick, hshape, hlongest⟩ := hloop n hn
  obtain ⟨l, hl, hlen⟩ := hlongest.counted ⟨0, 4294967295⟩ (by simp)
  have hl := hshape.chain.mp hl
  have hcount : l.length = 4294967295 + 1 := length_deepHeap (by omega) hl
  have hzero : UInt32.ofNat (4294967295 + 1) = 0 := by decide
  rw [hcount, hzero] at hlen
  have hnone : tip = none := by
    cases htip : tip with
    | none => rfl
    | some t =>
      obtain ⟨hmem, hlength⟩ := hlongest.some t htip
      obtain rfl := List.mem_singleton.mp hmem
      rw [← htip]
      exact hlongest.none.mpr (hlength.symm.trans hlen)
  rw [hnone] at hpick
  exact ⟨heap', l, hpick, hl, hcount, hlen⟩

end Bootcamp
