import Bootcamp.Blockchain.Readindexed
import Bootcamp.Lib.Reaching

/-! What the main thread of a parallel reader makes of the threads' blocks: the
pointers behind the linking, the lengths behind the recomputation, and the tip. -/
namespace Bootcamp

open Chains (Chain Reaches)

/-! ## The shared containers -/

namespace Shared

theorem mem_heads {ops : List SharedOp} {s : Shared} {p : Ptr} :
    p ∈ (ops.foldl apply s).heads ↔ .insertHead p ∈ ops ∨ p ∈ s.heads := by
  induction ops generalizing s with
  | nil => simp
  | cons op ops ih =>
    rw [List.foldl_cons, ih]
    cases op with
    | insertHead q =>
      by_cases hq : q ∈ s.heads
      · simp only [apply, if_pos hq, List.mem_cons, SharedOp.insertHead.injEq]
        constructor
        · tauto
        · rintro ((rfl | h) | h)
          · exact .inr hq
          · exact .inl h
          · exact .inr h
      · simp only [apply, if_neg hq, List.mem_cons, SharedOp.insertHead.injEq]
        tauto
    | setTail h q => simp [apply]

theorem op_of_find {ops : List SharedOp} {s : Shared} {h : HashResult} {p : Ptr}
    (hf : (ops.foldl apply s).tails.find? h = some p) :
    .setTail h p ∈ ops ∨ s.tails.find? h = some p := by
  induction ops generalizing s with
  | nil => exact .inr hf
  | cons op ops ih =>
    rcases ih hf with hmem | hold
    · exact .inl (List.mem_cons_of_mem _ hmem)
    · cases op with
      | insertHead q => exact .inr hold
      | setTail k q =>
        rw [apply, OrderedMap.find_insert] at hold
        split_ifs at hold with hk
        · obtain rfl := Option.some.inj hold
          exact .inl (by rw [hk]; exact List.mem_cons_self)
        · exact .inr hold

/-- An entry is never removed, only overwritten. -/
theorem find_of_op {ops : List SharedOp} {s : Shared} {h : HashResult}
    (hop : (∃ p, .setTail h p ∈ ops) ∨ s.tails.find? h ≠ none) :
    (ops.foldl apply s).tails.find? h ≠ none := by
  induction ops generalizing s with
  | nil => exact hop.resolve_left (by simp)
  | cons op ops ih =>
    apply ih
    cases op with
    | insertHead q =>
      rcases hop with ⟨p, hp⟩ | hold
      · exact .inl ⟨p, by simpa using hp⟩
      · exact .inr hold
    | setTail k q =>
      by_cases hk : h = k
      · right
        simp [apply, hk]
      · rcases hop with ⟨p, hp⟩ | hold
        · left
          exact ⟨p, by simpa [hk] using hp⟩
        · right
          rwa [apply, OrderedMap.find_insert_of_ne _ _ hk]

end Shared

/-! ## Linking -/

/-- The heads point to the tails they name, nothing else has moved. -/
structure Linked (tails : BlockMap) (heads : List Ptr) (heap heap' : Heap) : Prop where
  found : ∀ x ∈ heads, tails.find? (heap x).prevHash ≠ none
  body : ∀ x, (heap' x).toBody = (heap x).toBody
  head : ∀ x ∈ heads, heap'.prev x = tails.find? (heap x).prevHash
  other : ∀ x, x ∉ heads → heap'.prev x = heap.prev x

theorem setPrevBlock_body (heap : Heap) (p q x : Ptr) :
    (heap.set p ((heap p).setPrevBlock heap q) x).toBody = (heap x).toBody := by
  by_cases hx : x = p
  · rw [hx, Heap.set_self]
    rfl
  · rw [Heap.set_of_ne _ _ hx]

theorem setPrevBlock_prev (heap : Heap) (p q x : Ptr) :
    (heap.set p ((heap p).setPrevBlock heap q)).prev x = if x = p then some q else heap.prev x := by
  by_cases hx : x = p
  · rw [if_pos hx, Heap.prev, hx, Heap.set_self]
    rfl
  · rw [if_neg hx, Heap.prev, Heap.set_of_ne _ _ hx]

theorem linkHeads_iff {tails : BlockMap} {heads : List Ptr} {heap : Heap} :
    (linkHeads tails heads heap).1 = true ↔
      ∀ p ∈ heads, tails.find? (heap p).prevHash ≠ none := by
  induction heads generalizing heap with
  | nil => simp [linkHeads]
  | cons p ps ih =>
    cases hf : tails.find? (heap p).prevHash with
    | none => simp [linkHeads, hf]
    | some q =>
      simp only [linkHeads, hf, ih, setPrevBlock_body, List.forall_mem_cons, ne_eq, reduceCtorEq,
        not_false_eq_true, true_and]

/-- However far the loop comes, a block points to where it did or to the tail it names. -/
theorem linkHeads_prev (tails : BlockMap) (heads : List Ptr) (heap : Heap) (x : Ptr) :
    ((linkHeads tails heads heap).2 x).toBody = (heap x).toBody ∧
      ((linkHeads tails heads heap).2.prev x = heap.prev x ∨
        x ∈ heads ∧ ∃ q, tails.find? (heap x).prevHash = some q ∧
          (linkHeads tails heads heap).2.prev x = some q) := by
  induction heads generalizing heap with
  | nil => exact ⟨rfl, .inl rfl⟩
  | cons p ps ih =>
    cases hf : tails.find? (heap p).prevHash with
    | none => simp [linkHeads, hf]
    | some q =>
      simp only [linkHeads, hf]
      obtain ⟨hbody, hprev⟩ := ih (heap.set p ((heap p).setPrevBlock heap q))
      rw [setPrevBlock_body] at hbody hprev
      refine ⟨hbody, ?_⟩
      rcases hprev with hprev | ⟨hmem, hlink⟩
      · rw [hprev, setPrevBlock_prev]
        by_cases hx : x = p
        · right
          rw [hx]
          exact ⟨List.mem_cons_self, q, hf, if_pos rfl⟩
        · exact .inl (if_neg hx)
      · exact .inr ⟨List.mem_cons_of_mem _ hmem, hlink⟩

theorem linkHeads_linked {tails : BlockMap} {heads : List Ptr} {heap : Heap}
    (h : (linkHeads tails heads heap).1 = true) :
    Linked tails heads heap (linkHeads tails heads heap).2 := by
  refine ⟨linkHeads_iff.mp h, fun x => (linkHeads_prev tails heads heap x).1, ?_, ?_⟩
  · induction heads generalizing heap with
    | nil => simp
    | cons p ps ih =>
      cases hf : tails.find? (heap p).prevHash with
      | none => simp [linkHeads, hf] at h
      | some q =>
        simp only [linkHeads, hf] at h ⊢
        intro x hx
        by_cases hps : x ∈ ps
        · rw [ih h x hps, setPrevBlock_body]
        · obtain rfl := (List.mem_cons.mp hx).resolve_right hps
          rw [(linkHeads_prev tails ps _ x).2.resolve_right fun hlink => hps hlink.1,
            setPrevBlock_prev, if_pos rfl, hf]
  · intro x hx
    exact (linkHeads_prev tails heads heap x).2.resolve_right fun hlink => hx hlink.1

/-! ## Lengths -/

/-- Only lengths may have changed. -/
structure SameShape (heap heap' : Heap) : Prop where
  body : ∀ x, (heap' x).toBody = (heap x).toBody
  prev : ∀ x, heap'.prev x = heap.prev x

theorem SameShape.refl (heap : Heap) : SameShape heap heap := ⟨fun _ => rfl, fun _ => rfl⟩

theorem SameShape.trans {heap₁ heap₂ heap₃ : Heap} (h : SameShape heap₁ heap₂)
    (h' : SameShape heap₂ heap₃) : SameShape heap₁ heap₃ :=
  ⟨fun x => (h'.body x).trans (h.body x), fun x => (h'.prev x).trans (h.prev x)⟩

theorem SameShape.chain {heap heap' : Heap} (h : SameShape heap heap') {x : Ptr} {l : List Ptr} :
    Chain heap'.prev x l ↔ Chain heap.prev x l :=
  ⟨fun hl => hl.congr fun q _ => (h.prev q).symm, fun hl => hl.congr fun q _ => h.prev q⟩

/-- The length of the block at `x` counts its chain. -/
def Counted (heap : Heap) (x : Ptr) : Prop :=
  ∃ l, Chain heap.prev x l ∧ (heap x).length = UInt32.ofNat l.length

/-- The blocks of `S` count their chains, and nothing else in the heap has changed. -/
structure Heap.Repaired (heap : Heap) (S : Set Ptr) (heap' : Heap) : Prop where
  inside : ∀ x ∈ S, ∃ l, Chain heap.prev x l ∧
    heap' x = { heap x with length := UInt32.ofNat l.length }
  outside : ∀ x ∉ S, heap' x = heap x

namespace Heap.Repaired

variable {heap heap₁ heap₂ : Heap} {S T : Set Ptr}

theorem refl (heap : Heap) : heap.Repaired ∅ heap := ⟨fun _ hx => absurd hx id, fun _ _ => rfl⟩

/-- Up to their lengths the blocks are what they were. -/
theorem setLength (h : heap.Repaired S heap₁) (x : Ptr) (n : UInt32) :
    { heap₁ x with length := n } = { heap x with length := n } := by
  by_cases hx : x ∈ S
  · obtain ⟨l, -, hl⟩ := h.inside x hx
    rw [hl]
  · rw [h.outside x hx]

theorem prev (h : heap.Repaired S heap₁) : heap₁.prev = heap.prev := by
  funext x
  change { heap₁ x with length := 0 }.prevBlock = _
  rw [h.setLength]

/-- Lengths that are right already stay so when more are repaired. -/
theorem trans (h : heap.Repaired S heap₁) (h' : heap₁.Repaired T heap₂) :
    heap.Repaired (S ∪ T) heap₂ where
  inside x hx := by
    by_cases hT : x ∈ T
    · obtain ⟨l, hl, hx'⟩ := h'.inside x hT
      rw [h.prev] at hl
      rw [h.setLength] at hx'
      exact ⟨l, hl, hx'⟩
    · rw [h'.outside x hT]
      exact h.inside x (hx.resolve_right hT)
  outside x hx := by
    rw [h'.outside x fun hT => hx (.inr hT), h.outside x fun hS => hx (.inl hS)]

theorem set {p : Ptr} {l : List Ptr} (hl : Chain heap.prev p l) :
    heap.Repaired {p} (heap.set p { heap p with length := UInt32.ofNat l.length }) where
  inside x hx := by
    obtain rfl := Set.mem_singleton_iff.mp hx
    exact ⟨l, hl, Heap.set_self _ _ _⟩
  outside x hx := Heap.set_of_ne _ _ hx

theorem sameShape (h : heap.Repaired S heap₁) : SameShape heap heap₁ where
  body x := by
    change { heap₁ x with length := 0 }.toBody = _
    rw [h.setLength]
  prev x := congrFun h.prev x

theorem counted (h : heap.Repaired S heap₁) {x : Ptr} (hx : x ∈ S) : Counted heap₁ x := by
  obtain ⟨l, hl, hlen⟩ := h.inside x hx
  exact ⟨l, h.sameShape.chain.mpr hl, by rw [hlen]⟩

/-- A length that was right already stays. -/
theorem keeps (h : heap.Repaired S heap₁) {x : Ptr} (hx : Counted heap x) : Counted heap₁ x := by
  by_cases hS : x ∈ S
  · exact h.counted hS
  · obtain ⟨l, hl, hlen⟩ := hx
    exact ⟨l, h.sameShape.chain.mpr hl, by rw [h.outside x hS, hlen]⟩

end Heap.Repaired

theorem recomputeLength_none {heap : Heap} {p : Ptr} (hp : heap.prev p = none) (k : Nat) :
    recomputeLength (k + 1) heap p = .ok (heap.set p { heap p with length := 1 }) := by
  rw [recomputeLength]
  split
  · rename_i q hq
    exact absurd (hp.symm.trans hq) (by simp)
  · rfl

theorem recomputeLength_some {heap : Heap} {p q : Ptr} (hp : heap.prev p = some q) (k : Nat) :
    recomputeLength (k + 1) heap p = recomputeLength k heap q >>= fun heap =>
      .ok (heap.set p { heap p with length := (heap q).length + 1 }) := by
  rw [recomputeLength]
  split
  · rename_i q' hq
    obtain rfl : q = q' := Option.some.inj (hp.symm.trans hq)
    rfl
  · rename_i hq
    exact absurd (hp.symm.trans hq) (by simp)

/-- A call repairs what its block reaches. -/
theorem recomputeLength_repaired {k : Nat} {heap heap' : Heap} {p : Ptr}
    (h : recomputeLength k heap p = .ok heap') :
    heap.Repaired {x | Reaches heap.prev p x} heap' := by
  induction k generalizing heap' p with
  | zero => cases h
  | succ k ih =>
    cases hq : heap.prev p with
    | none =>
      rw [recomputeLength_none hq] at h
      obtain rfl := Except.ok.inj h
      have hreach : {x | Reaches heap.prev p x} = {p} := by
        ext x
        exact Chains.reaches_of_none hq
      rw [hreach]
      exact .set (.last hq)
    | some q =>
      rw [recomputeLength_some hq] at h
      obtain ⟨heap₁, h₁, h⟩ := Except.bind_eq_ok.mp h
      obtain rfl := Except.ok.inj h
      have hcall := ih h₁
      obtain ⟨l, hl, hlen⟩ := hcall.inside q .refl
      have hchain : Chain heap₁.prev p (p :: l) := by
        rw [hcall.prev]
        exact .link hq hl
      have hlast : (heap₁ q).length + 1 = UInt32.ofNat (p :: l).length := by
        rw [hlen, List.length_cons, UInt32.ofNat_add]
        rfl
      have hreach : {x | Reaches heap.prev p x} = {x | Reaches heap.prev q x} ∪ {p} := by
        ext x
        exact (Chains.reaches_of_some hq).trans Or.comm
      rw [hreach, hlast]
      exact hcall.trans (.set hchain)

/-- A chain that ends is followed to its end. -/
theorem recomputeLength_returns {k : Nat} {heap : Heap} {p : Ptr} {l : List Ptr}
    (hl : Chain heap.prev p l) (hk : l.length ≤ k) :
    ∃ heap', recomputeLength k heap p = .ok heap' := by
  induction hl generalizing k with
  | @last p hp =>
    obtain ⟨k, rfl⟩ : ∃ k', k = k' + 1 := ⟨k - 1, by simp at hk; omega⟩
    exact ⟨_, recomputeLength_none hp k⟩
  | @link p q l hp _ ih =>
    obtain ⟨k, rfl⟩ : ∃ k', k = k' + 1 := ⟨k - 1, by simp at hk; omega⟩
    obtain ⟨heap', h'⟩ := ih (k := k) (by simpa using hk)
    exact ⟨_, by rw [recomputeLength_some hp, h', Except.ok_bind]⟩

/-! ## The tip -/

/-- What the loop over the tails has found so far. -/
structure Longest (heap : Heap) (seen : List Ptr) (length : UInt32) (tip : Option Ptr) : Prop where
  counted : ∀ x ∈ seen, Counted heap x
  bound : ∀ x ∈ seen, (heap x).length ≤ length
  none : tip = none ↔ length = 0
  some : ∀ t, tip = some t → t ∈ seen ∧ (heap t).length = length
  first : ∀ t, tip = Option.some t → ∃ before after, seen = before ++ t :: after ∧
    ∀ x ∈ before, (heap x).length < length

theorem Counted.length_eq {heap heap' : Heap} {x : Ptr} (hshape : SameShape heap heap')
    (h : Counted heap x) (h' : Counted heap' x) : (heap' x).length = (heap x).length := by
  obtain ⟨l, hl, hlen⟩ := h
  obtain ⟨l', hl', hlen'⟩ := h'
  rw [hlen, hlen', (hshape.chain.mp hl').unique hl]

namespace Longest

variable {heap heap₁ : Heap} {seen : List Ptr} {p : Ptr} {length : UInt32} {tip : Option Ptr}

theorem counted_append (h : Longest heap seen length tip)
    (hcall : heap.Repaired {x | Reaches heap.prev p x} heap₁) :
    ∀ x ∈ seen ++ [p], Counted heap₁ x := by
  intro x hx
  rcases List.mem_append.mp hx with hx | hx
  · exact hcall.keeps (h.counted x hx)
  · obtain rfl := List.mem_singleton.mp hx
    exact hcall.counted .refl

/-- The lengths that the loop has compared are not written again. -/
theorem length_eq (h : Longest heap seen length tip)
    (hcall : heap.Repaired {x | Reaches heap.prev p x} heap₁) {x : Ptr} (hx : x ∈ seen) :
    (heap₁ x).length = (heap x).length :=
  (h.counted x hx).length_eq hcall.sameShape (hcall.keeps (h.counted x hx))

/-- A tail that is longer than those before it becomes the tip. -/
theorem raise (h : Longest heap seen length tip)
    (hcall : heap.Repaired {x | Reaches heap.prev p x} heap₁)
    (hlt : length < (heap₁ p).length) :
    Longest heap₁ (seen ++ [p]) (heap₁ p).length (Option.some p) where
  counted := h.counted_append hcall
  bound x hx := by
    rcases List.mem_append.mp hx with hx | hx
    · rw [h.length_eq hcall hx]
      exact UInt32.le_of_lt (UInt32.lt_of_le_of_lt (h.bound x hx) hlt)
    · rw [List.mem_singleton.mp hx]
      exact UInt32.le_refl _
  none := by
    have hpos : (heap₁ p).length ≠ 0 := by
      intro hzero
      rw [hzero] at hlt
      exact UInt32.not_lt_zero hlt
    simp [hpos]
  some t ht := by
    obtain rfl := Option.some.inj ht
    exact ⟨by simp, rfl⟩
  first t ht := by
    obtain rfl := Option.some.inj ht
    refine ⟨seen, [], rfl, fun x hx => ?_⟩
    rw [h.length_eq hcall hx]
    exact UInt32.lt_of_le_of_lt (h.bound x hx) hlt

theorem keep (h : Longest heap seen length tip)
    (hcall : heap.Repaired {x | Reaches heap.prev p x} heap₁)
    (hle : (heap₁ p).length ≤ length) : Longest heap₁ (seen ++ [p]) length tip where
  counted := h.counted_append hcall
  bound x hx := by
    rcases List.mem_append.mp hx with hx | hx
    · rw [h.length_eq hcall hx]
      exact h.bound x hx
    · rwa [List.mem_singleton.mp hx]
  none := h.none
  some t ht := by
    obtain ⟨hmem, heq⟩ := h.some t ht
    exact ⟨List.mem_append_left _ hmem, by rw [h.length_eq hcall hmem, heq]⟩
  first t ht := by
    obtain ⟨before, after, rfl, hlt⟩ := h.first t ht
    refine ⟨before, after ++ [p], by rw [List.append_assoc, List.cons_append], fun x hx => ?_⟩
    rw [h.length_eq hcall (List.mem_append_left _ hx)]
    exact hlt x hx

end Longest

theorem pickTip_spec {objects : Nat} {ps : List (HashResult × Ptr)} {heap heap' : Heap}
    {length : UInt32} {tip tip' : Option Ptr} {seen : List Ptr}
    (h : pickTip objects ps heap length tip = .ok (heap', tip'))
    (hseen : Longest heap seen length tip) :
    SameShape heap heap' ∧ ∃ length', Longest heap' (seen ++ ps.map Prod.snd) length' tip' := by
  induction ps generalizing heap length tip seen with
  | nil =>
    simp only [pickTip, Except.ok.injEq, Prod.mk.injEq] at h
    obtain ⟨rfl, rfl⟩ := h
    exact ⟨.refl heap, length, by simpa using hseen⟩
  | cons e ps ih =>
    obtain ⟨hash, p⟩ := e
    unfold pickTip at h
    obtain ⟨heap₁, h₁, h⟩ := Except.bind_eq_ok.mp h
    have hcall := recomputeLength_repaired h₁
    by_cases hlt : length < (heap₁ p).length
    · rw [if_pos hlt] at h
      obtain ⟨hshape, length', hlongest⟩ := ih h (hseen.raise hcall hlt)
      rw [List.append_assoc] at hlongest
      exact ⟨hcall.sameShape.trans hshape, length', hlongest⟩
    · rw [if_neg hlt] at h
      obtain ⟨hshape, length', hlongest⟩ := ih h (hseen.keep hcall (UInt32.not_lt.mp hlt))
      rw [List.append_assoc] at hlongest
      exact ⟨hcall.sameShape.trans hshape, length', hlongest⟩

/-- Where every tail's chain ends the loop comes back. -/
theorem pickTip_returns {objects : Nat} {ps : List (HashResult × Ptr)} {heap : Heap}
    (length : UInt32) (tip : Option Ptr)
    (hps : ∀ e ∈ ps, ∃ l, Chain heap.prev e.2 l ∧ l.length ≤ objects) :
    ∃ heap' tip', pickTip objects ps heap length tip = .ok (heap', tip') := by
  induction ps generalizing heap length tip with
  | nil => exact ⟨heap, tip, rfl⟩
  | cons e ps ih =>
    obtain ⟨h, p⟩ := e
    obtain ⟨⟨l, hl, hk⟩, hps⟩ := List.forall_mem_cons.mp hps
    obtain ⟨heap₁, h₁⟩ := recomputeLength_returns hl hk
    have hshape := (recomputeLength_repaired h₁).sameShape
    have hps₁ : ∀ e ∈ ps, ∃ l, Chain heap₁.prev e.2 l ∧ l.length ≤ objects := by
      intro e he
      obtain ⟨l, hl, hk⟩ := hps e he
      exact ⟨l, hshape.chain.mpr hl, hk⟩
    simp only [pickTip, h₁, Except.ok_bind]
    split
    · exact ih _ _ hps₁
    · exact ih _ _ hps₁

/-- Everything that `main` prints from, when all heads found their tails. -/
structure Finished (tails : BlockMap) (heads : List Ptr) (ends : List Ptr) (heap : Heap)
    (f : Final) : Prop where
  linked : Linked tails heads heap f.heap
  counted : ∀ x ∈ ends, Counted f.heap x
  tip : ∀ t, f.tip = some t → t ∈ ends ∧ ∀ x ∈ ends, (f.heap x).length ≤ (f.heap t).length
  first : ∀ t, f.tip = some t → ∃ before after, ends = before ++ t :: after ∧
    ∀ x ∈ before, (f.heap x).length < (f.heap t).length
  none : f.tip = none ↔ ∀ x ∈ ends, (f.heap x).length = 0

theorem finish_spec {objects : Nat} {tails : BlockMap} {heads : List Ptr}
    {ends : List (HashResult × Ptr)} {heap : Heap} {f : Final}
    (h : finish objects tails heads ends heap = .ok f) :
    (f.valid = true ↔ ∀ p ∈ heads, tails.find? (heap p).prevHash ≠ none) ∧
      (f.valid = true → Finished tails heads (ends.map Prod.snd) heap f) := by
  unfold finish at h
  obtain ⟨⟨heap', tip⟩, hpick, h⟩ := Except.bind_eq_ok.mp h
  obtain rfl := Except.ok.inj h
  have hstart : Longest (linkHeads tails heads heap).2 [] 0 none :=
    ⟨by simp, by simp, by simp, by simp, by simp⟩
  obtain ⟨hshape, length, hlongest⟩ := pickTip_spec hpick hstart
  rw [List.nil_append] at hlongest
  refine ⟨linkHeads_iff, fun hvalid => ?_⟩
  have hlinked := linkHeads_linked hvalid
  refine ⟨?_, hlongest.counted, ?_, ?_, ?_, ?_⟩
  · exact ⟨hlinked.found, fun x => (hshape.body x).trans (hlinked.body x),
      fun x hx => (hshape.prev x).trans (hlinked.head x hx),
      fun x hx => (hshape.prev x).trans (hlinked.other x hx)⟩
  · intro t ht
    obtain ⟨hmem, hlen⟩ := hlongest.some t ht
    exact ⟨hmem, fun x hx => hlen ▸ hlongest.bound x hx⟩
  · intro t ht
    rw [(hlongest.some t ht).2]
    exact hlongest.first t ht
  · intro hnone x hx
    have hle := hlongest.bound x hx
    rw [hlongest.none.mp hnone] at hle
    exact UInt32.le_antisymm hle UInt32.zero_le
  · intro hzero
    cases htip : tip with
    | none => rfl
    | some t =>
      obtain ⟨hmem, hlen⟩ := hlongest.some t htip
      rw [← htip]
      exact hlongest.none.mpr (hlen.symm.trans (hzero t hmem))

theorem finish_returns {objects : Nat} {tails : BlockMap} {heads : List Ptr}
    {ends : List (HashResult × Ptr)} {heap : Heap}
    (hends : ∀ e ∈ ends, ∃ l, Chain (linkHeads tails heads heap).2.prev e.2 l ∧
      l.length ≤ objects) : ∃ f, finish objects tails heads ends heap = .ok f := by
  obtain ⟨heap', tip, hpick⟩ := pickTip_returns 0 none hends
  exact ⟨_, by simp only [finish, hpick, Except.ok_bind]; rfl⟩

end Bootcamp
