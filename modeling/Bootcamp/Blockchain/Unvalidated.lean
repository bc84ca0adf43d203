import Bootcamp.Blockchain.Written

/-! `rewritechain` makes a block the tip and enters it into the map before it is validated,
and leaves it there whatever comes out. What it indexes is validated where the chain of the
tip is. -/
namespace Bootcamp

open Chains (Chain)

theorem Block.resetBalances_congr {heap heap' : Heap} {blk : Block}
    (h : ∀ q, blk.prevBlock = some q → heap' q = heap q) :
    blk.resetBalances heap' = blk.resetBalances heap := by
  unfold resetBalances
  split
  · rename_i q hq
    rw [h q hq]
  · rfl

namespace Rewritechain

/-! ## What validation said of the loaded blocks -/

/-- On this block `validate` has returned true, and left the balances that are there. -/
def Validated (c : Crypto) (heap : Heap) (x : Ptr) : Prop :=
  (heap x).toBody.validate c ((heap x).resetBalances heap) = .ok (true, (heap x).balances)

/-- Every loaded block has been through `validate`, whatever it returned. -/
def Judged (c : Crypto) (st : LoadState) : Prop :=
  ∀ x, Allocated st x → ∃ valid,
    (st.heap x).toBody.validate c ((st.heap x).resetBalances st.heap) =
      .ok (valid, (st.heap x).balances)

theorem Judged.visit {c : Crypto} {st st' : LoadState} {n : Nat} {b : Body} (hi : Loaded st)
    (hj : Judged c st) (h : visit c st n (Block.attached st.heap st.bmap b) = .ok st') :
    Judged c st' := by
  obtain ⟨valid, m, hm, hheap, -⟩ := visit_eq_ok h
  intro x hx
  cases (visit_allocated h).mp hx with
  | inl hnew =>
    subst hnew
    have hself : st'.heap ⟨0, st.i⟩ = { Block.attached st.heap st.bmap b with balances := m } := by
      rw [hheap, Heap.set_self]
    have hreset : Block.resetBalances st'.heap
        { Block.attached st.heap st.bmap b with balances := m } =
          (Block.attached st.heap st.bmap b).resetBalances st.heap := by
      apply Block.resetBalances_congr
      intro q hq
      rcases Block.attached_cases st.heap st.bmap b with ⟨hnone, -⟩ | ⟨q', hsome, -, hf, -⟩
      · exact absurd (hnone.symm.trans hq) (by simp)
      · obtain rfl := Option.some.inj (hsome.symm.trans hq)
        exact visit_old h (hi.keyed _ _ hf)
    rw [hself, hreset]
    exact ⟨valid, hm⟩
  | inr hold =>
    have hreset : (st.heap x).resetBalances st'.heap = (st.heap x).resetBalances st.heap := by
      apply Block.resetBalances_congr
      intro q hq
      exact visit_old h (hi.linked x q hold hq).1
    rw [visit_old h hold, hreset]
    exact hj x hold

theorem judged_of_load {c : Crypto} {data : Bytes} {st : LoadState} (h : load c data = .ok st) :
    Judged c st := by
  obtain ⟨s, rfl, hreach, -⟩ := Reader.run_eq_ok h
  have hboth : Loaded s.state ∧ Judged c s.state := by
    refine Loop.Reaches.invariant (I := fun s => Loaded s.state ∧ Judged c s.state) hreach
      ⟨.start, fun x hx => absurd hx.2 (Nat.not_lt_zero _)⟩ ?_
    rintro a b _ ⟨hi, hj⟩ hturn
    obtain ⟨n, body, -, -, hv, -, -⟩ := Reader.turn_iff.mp hturn
    exact ⟨hi.visit (n := n) hv, hj.visit (n := n) hi hv⟩
  exact hboth.2

/-- The bodies on a chain, the oldest first. -/
def bodies (heap : Heap) (xs : List Ptr) : List Body := xs.map fun x => (heap x).toBody

/-- A chain that begins without balances validates block by block exactly when every block
of it has been validated. -/
theorem acceptAll_chain {c : Crypto} {st : LoadState} (hi : Loaded st) (hj : Judged c st) {x : Ptr}
    {l : List Ptr} (hl : Chain st.heap.prev x l) (hx : Allocated st x) {m : BalanceMap} :
    Body.acceptAll c ∅ (bodies st.heap l.reverse) = some m ↔
      (∀ y ∈ l, Validated c st.heap y) ∧ m = (st.heap x).balances := by
  induction hl generalizing m with
  | @last x hnone =>
    have hreset : (st.heap x).resetBalances st.heap = ∅ := Block.resetBalances_none hnone
    obtain ⟨valid, hv⟩ := hj x hx
    rw [List.reverse_singleton, bodies, List.map_singleton, List.forall_mem_singleton, Validated,
      hv, Body.acceptAll_cons_eq_some]
    rw [hreset] at hv
    simp only [Body.acceptAll_nil, Body.accept_eq_some, hv, Except.ok.injEq, Prod.mk.injEq,
      Option.some.injEq, and_true]
    constructor
    · rintro ⟨_, ⟨rfl, rfl⟩, rfl⟩
      exact ⟨rfl, rfl⟩
    · rintro ⟨rfl, rfl⟩
      exact ⟨_, ⟨rfl, rfl⟩, rfl⟩
  | @link x q l hsome _ ih =>
    have hreset : (st.heap x).resetBalances st.heap = (st.heap q).balances :=
      Block.resetBalances_some hsome
    have hq := (hi.linked x q hx hsome).1
    obtain ⟨valid, hv⟩ := hj x hx
    rw [List.reverse_cons, bodies, List.map_append, Body.acceptAll_append, List.forall_mem_cons,
      Validated, hv, Option.bind_eq_some_iff]
    rw [hreset] at hv
    constructor
    · rintro ⟨m₁, hm₁, hm⟩
      obtain ⟨hall, rfl⟩ := (ih hq).mp hm₁
      obtain ⟨m₂, hm₂, hm⟩ := Body.acceptAll_cons_eq_some.mp hm
      rw [Body.accept_eq_some, hv] at hm₂
      obtain ⟨rfl, rfl⟩ := Prod.mk.inj (Except.ok.inj hm₂)
      exact ⟨⟨rfl, hall⟩, (Option.some.inj hm).symm⟩
    · rintro ⟨⟨hvalid, hall⟩, rfl⟩
      obtain ⟨rfl, -⟩ := Prod.mk.inj (Except.ok.inj hvalid)
      refine ⟨_, (ih hq).mpr ⟨hall, rfl⟩, ?_⟩
      exact Body.acceptAll_cons_eq_some.mpr ⟨_, Body.accept_eq_some.mpr hv, rfl⟩

/-! ## What is indexed -/

/-- Every block that `rewrite_chain` puts out has been validated, and all balances it puts out
are those with which the chain from a coinbase down to their block validates. -/
structure IndexesValidated (c : Crypto) (st : LoadState) (chunks : UInt32) : Prop where
  blocks : ∀ x, .block x ∈ written st.heap st.i st.tip chunks → Validated c st.heap x
  maps : ∀ x, .map x ∈ written st.heap st.i st.tip chunks →
    ∃ l root, Chain st.heap.prev x (l ++ [root]) ∧ (st.heap root).prevHash = .zero ∧
      Body.acceptAll c ∅ (bodies st.heap (l ++ [root]).reverse) = some (st.heap x).balances

/-- How many of `n` blocks the second pass comes to: where the 32 bits of `3 * chunks`
overflow it ends behind the first chunk. -/
def reached (n : Nat) (chunks : UInt32) : Nat :=
  if 3 * chunks.toNat < 2 ^ 32 then n else n / chunks.toNat

/-- Those of them that come before the first that `write` cannot encode. -/
def encodable (chunks : UInt32) (bs : List Body) : List Body :=
  (bs.take (reached bs.length chunks)).takeWhile fun b => decide b.Writable

/-- The encodable blocks validate one after the other, and if the first chunk is among them
the first block is a coinbase. -/
structure ValidFront (c : Crypto) (chunks : UInt32) (bs : List Body) : Prop where
  valid : (Body.acceptAll c ∅ (encodable chunks bs)).isSome
  coinbase : 3 * chunks.toNat < 2 ^ 32 → bs.length / chunks.toNat ≤ (encodable chunks bs).length →
    ∀ b ∈ bs.head?, b.prevHash = .zero

section

variable {heap : Heap} {objects : Nat} {t : Ptr} {l : List Ptr} {chunks : UInt32}

theorem encodable_bodies (heap : Heap) (xs : List Ptr) (chunks : UInt32) :
    encodable chunks (bodies heap xs) = bodies heap
      ((xs.take (reached xs.length chunks)).takeWhile fun x => decide (heap x).Writable) := by
  rw [encodable, bodies, bodies, List.length_map, ← List.map_take, List.takeWhile_map]
  rfl

theorem block_mem_written (hl : Chain heap.prev t l) (hobj : l.length ≤ objects)
    (hlen : (heap t).length.toNat = l.length) (h2 : 2 ≤ chunks.toNat)
    (hk : chunks.toNat ≤ l.length) (x : Ptr) :
    .block x ∈ written heap objects (some t) chunks ↔
      x ∈ (l.reverse.take (reached l.reverse.length chunks)).takeWhile
        fun x => decide (heap x).Writable := by
  by_cases h3 : 3 * chunks.toNat < 2 ^ 32
  · rw [written_eq hl hobj hlen h2 hk h3, block_mem_traced, reached, if_pos h3, List.take_length]
  · rw [written_wrapped hl hobj hlen h2 hk h3, reached, if_neg h3, List.length_reverse]
    simp

/-- The blocks whose balances are put out stand among the encodable ones. -/
theorem map_mem_written (hl : Chain heap.prev t l) (hobj : l.length ≤ objects)
    (hlen : (heap t).length.toNat = l.length) (h2 : 2 ≤ chunks.toNat)
    (hk : chunks.toNat ≤ l.length) {x : Ptr} (h : .map x ∈ written heap objects (some t) chunks) :
    3 * chunks.toNat < 2 ^ 32 ∧ ∃ pre post,
      (l.reverse.takeWhile fun x => decide (heap x).Writable) = pre ++ x :: post ∧
        l.length / chunks.toNat ≤ pre.length + 1 := by
  by_cases h3 : 3 * chunks.toNat < 2 ^ 32
  · rw [written_eq hl hobj hlen h2 hk h3] at h
    obtain ⟨pre, post, hsplit, hend⟩ := map_mem_traced.mp h
    refine ⟨h3, pre, post, hsplit, ?_⟩
    have hn : l.length < 2 ^ 32 := by
      rw [← hlen]
      exact (heap t).length.toNat_lt
    have hlt : pre.length < l.length := by
      have hle := (List.takeWhile_prefix (l := l.reverse) fun x => decide (heap x).Writable).length_le
      rw [hsplit, List.length_append, List.length_cons, List.length_reverse] at hle
      omega
    rw [Nat.zero_add] at hend
    obtain ⟨j, hj, hend⟩ := (mem_chunkEnds h2 hk hn hlt).mp hend
    have hfirst : endOf l.length chunks.toNat 0 = l.length / chunks.toNat - 1 := by
      rw [endOf, if_neg (by omega), Nat.zero_add, Nat.mul_one]
    cases j with
    | zero => omega
    | succ j =>
      have hlater := endOf_strictMono h2 hk (show 0 < j + 1 by omega) hj
      omega
  · rw [written_wrapped hl hobj hlen h2 hk h3] at h
    simp at h

/-- With the whole first chunk encodable there are such blocks. -/
theorem exists_map_mem_written (hl : Chain heap.prev t l) (hobj : l.length ≤ objects)
    (hlen : (heap t).length.toNat = l.length) (h2 : 2 ≤ chunks.toNat)
    (hk : chunks.toNat ≤ l.length) (h3 : 3 * chunks.toNat < 2 ^ 32)
    (hfirst : l.length / chunks.toNat ≤
      (l.reverse.takeWhile fun x => decide (heap x).Writable).length) :
    ∃ x, .map x ∈ written heap objects (some t) chunks := by
  have hn : l.length < 2 ^ 32 := by
    rw [← hlen]
    exact (heap t).length.toNat_lt
  have hq : 1 ≤ l.length / chunks.toNat := (Nat.one_le_div_iff (by omega)).mpr hk
  have hend : endOf l.length chunks.toNat 0 = l.length / chunks.toNat - 1 := by
    rw [endOf, if_neg (by omega), Nat.zero_add, Nat.mul_one]
  have hlt : endOf l.length chunks.toNat 0 < l.length := endOf_lt h2 hk (by omega)
  have hin : l.length / chunks.toNat - 1 <
      (l.reverse.takeWhile fun x => decide (heap x).Writable).length := by omega
  refine ⟨(l.reverse.takeWhile fun x => decide (heap x).Writable)[l.length / chunks.toNat - 1], ?_⟩
  rw [written_eq hl hobj hlen h2 hk h3, map_mem_traced]
  refine ⟨(l.reverse.takeWhile fun x => decide (heap x).Writable).take (l.length / chunks.toNat - 1),
    (l.reverse.takeWhile fun x => decide (heap x).Writable).drop (l.length / chunks.toNat - 1 + 1),
    ?_, ?_⟩
  · rw [← List.drop_eq_getElem_cons hin, List.take_append_drop]
  · rw [List.length_take, Nat.min_eq_left (by omega), Nat.zero_add, ← hend]
    exact (mem_chunkEnds h2 hk hn hlt).mpr ⟨0, by omega, rfl⟩

end

section

variable {c : Crypto} {st : LoadState} {t : Ptr} {l : List Ptr}

/-- The blocks in front of one on a chain are its own chain. -/
theorem chain_of_split (hl : Chain st.heap.prev t l) {pre post : List Ptr} {x : Ptr}
    (hsplit : l.reverse = pre ++ x :: post) : Chain st.heap.prev x (pre ++ [x]).reverse := by
  have hlist : l = post.reverse ++ x :: pre.reverse := by
    rw [← List.reverse_reverse l, hsplit]
    simp
  rw [hlist] at hl
  simpa using hl.of_append

/-- The blocks at the front of a chain validate one after the other when each has been
validated, and then with the balances of the last of them. -/
theorem acceptAll_front (hi : Loaded st) (hj : Judged c st) (hl : Chain st.heap.prev t l)
    (ht : Allocated st t) {pre post : List Ptr} {x : Ptr} (hsplit : l.reverse = pre ++ x :: post)
    {m : BalanceMap} : Body.acceptAll c ∅ (bodies st.heap (pre ++ [x])) = some m ↔
      (∀ y ∈ pre ++ [x], Validated c st.heap y) ∧ m = (st.heap x).balances := by
  have hall := hl.forall_mem (fun y q hy hq => (hi.linked y q hy hq).1) ht
  have hx : x ∈ l := by
    rw [← List.mem_reverse, hsplit]
    simp
  have hchain := acceptAll_chain hi hj (chain_of_split hl hsplit) (hall x hx) (m := m)
  rw [List.reverse_reverse] at hchain
  rw [hchain]
  simp only [List.mem_reverse]

/-- So any number of them validate when each has been validated. -/
theorem acceptAll_isSome_iff (hi : Loaded st) (hj : Judged c st) (hl : Chain st.heap.prev t l)
    (ht : Allocated st t) {front : List Ptr} (hfront : front <+: l.reverse) :
    (Body.acceptAll c ∅ (bodies st.heap front)).isSome ↔ ∀ y ∈ front, Validated c st.heap y := by
  cases List.eq_nil_or_concat' front with
  | inl hnil =>
    subst hnil
    simp [bodies]
  | inr hconcat =>
    obtain ⟨pre, x, rfl⟩ := hconcat
    obtain ⟨post, hsplit⟩ := hfront
    rw [List.append_assoc, List.singleton_append] at hsplit
    rw [Option.isSome_iff_exists]
    simp only [acceptAll_front hi hj hl ht hsplit.symm, exists_and_left, exists_eq, and_true]

/-- The encodable blocks as they lie on the heap. -/
theorem encodable_front (heap : Heap) (xs : List Ptr) (chunks : UInt32) :
    ((xs.take (reached xs.length chunks)).takeWhile fun x => decide (heap x).Writable) <+: xs :=
  (List.takeWhile_prefix _).trans (List.take_prefix _ _)

theorem head_of_split {pre post xs : List Ptr} {x : Ptr} (hsplit : xs = pre ++ x :: post) :
    ∃ root l, (pre ++ [x]).reverse = l ++ [root] ∧ xs.head? = some root := by
  cases pre with
  | nil => exact ⟨x, [], by simp, by rw [hsplit]; rfl⟩
  | cons root pre => exact ⟨root, (pre ++ [x]).reverse, by simp, by rw [hsplit]; rfl⟩

variable {chunks : UInt32}

theorem IndexesValidated.validFront (hi : Loaded st) (hj : Judged c st) (htip : st.tip = some t)
    (hl : Chain st.heap.prev t l) (hobj : l.length ≤ st.i)
    (hlen : (st.heap t).length.toNat = l.length) (h2 : 2 ≤ chunks.toNat)
    (hk : chunks.toNat ≤ l.length) (h : IndexesValidated c st chunks) :
    ValidFront c chunks (bodies st.heap l.reverse) := by
  obtain ⟨hblocks, hmaps⟩ := h
  rw [htip] at hblocks hmaps
  refine ⟨?_, ?_⟩
  · rw [encodable_bodies,
      acceptAll_isSome_iff hi hj hl (hi.tip t htip) (encodable_front _ _ _)]
    intro y hy
    exact hblocks y ((block_mem_written hl hobj hlen h2 hk y).mpr hy)
  · intro h3 hfirst
    rw [encodable_bodies, bodies, bodies, List.length_map, List.length_map, reached, if_pos h3,
      List.take_length, List.length_reverse] at hfirst
    obtain ⟨x, hx⟩ := exists_map_mem_written hl hobj hlen h2 hk h3 hfirst
    obtain ⟨-, pre, post, hsplit, -⟩ := map_mem_written hl hobj hlen h2 hk hx
    obtain ⟨rest, hrest⟩ := List.takeWhile_prefix (l := l.reverse) fun x => decide (st.heap x).Writable
    rw [hsplit, List.append_assoc, List.cons_append] at hrest
    obtain ⟨l', root, hchain, hzero, -⟩ := hmaps x hx
    obtain ⟨root', l'', hlist, hhead⟩ := head_of_split hrest.symm
    have hown := chain_of_split hl hrest.symm
    rw [hlist] at hown
    obtain ⟨-, hroot⟩ := List.append_inj' (hchain.unique hown) rfl
    obtain rfl : root = root' := by simpa using hroot
    rw [bodies, List.head?_map, hhead]
    simpa using hzero

theorem ValidFront.indexesValidated (hi : Loaded st) (hj : Judged c st) (htip : st.tip = some t)
    (hl : Chain st.heap.prev t l) (hobj : l.length ≤ st.i)
    (hlen : (st.heap t).length.toNat = l.length) (h2 : 2 ≤ chunks.toNat)
    (hk : chunks.toNat ≤ l.length) (h : ValidFront c chunks (bodies st.heap l.reverse)) :
    IndexesValidated c st chunks := by
  obtain ⟨hvalid, hcoinbase⟩ := h
  have ht := hi.tip t htip
  rw [encodable_bodies, acceptAll_isSome_iff hi hj hl ht (encodable_front _ _ _)] at hvalid
  refine ⟨?_, ?_⟩
  · intro x hx
    rw [htip, block_mem_written hl hobj hlen h2 hk] at hx
    exact hvalid x hx
  · intro x hx
    rw [htip] at hx
    obtain ⟨h3, pre, post, hsplit, hfirst⟩ := map_mem_written hl hobj hlen h2 hk hx
    rw [encodable_bodies, bodies, bodies, List.length_map, List.length_map, reached, if_pos h3,
      List.take_length, List.length_reverse, hsplit] at hcoinbase
    rw [reached, if_pos h3, List.take_length, hsplit] at hvalid
    obtain ⟨rest, hrest⟩ := List.takeWhile_prefix (l := l.reverse) fun x => decide (st.heap x).Writable
    rw [hsplit, List.append_assoc, List.cons_append] at hrest
    obtain ⟨root, l', hlist, hhead⟩ := head_of_split hrest.symm
    refine ⟨l', root, hlist ▸ chain_of_split hl hrest.symm, ?_, ?_⟩
    · apply hcoinbase h3
      · rw [List.length_append, List.length_cons]
        omega
      · rw [List.head?_map, hhead]
        rfl
    · rw [← hlist, List.reverse_reverse]
      refine (acceptAll_front hi hj hl ht hrest.symm).mpr ⟨fun y hy => hvalid y ?_, rfl⟩
      rw [List.mem_append, List.mem_singleton] at hy
      rw [List.mem_append, List.mem_cons]
      exact hy.imp_right .inl

end

end Rewritechain

open Rewritechain (IndexesValidated ValidFront bodies encodable reached)

/-- Wherever `rewritechain` gets with a tip and a number of chunks from 2 up to the length it
knows, it indexes validated blocks and their balances alone exactly when the front of the
tip's chain is valid, or the chain has outgrown its length. -/
theorem rewritechain_indexes_validated_iff {c : Crypto} {data : Bytes} {st : LoadState} {t : Ptr}
    {l : List Ptr} {chunks : UInt32} (hload : Rewritechain.load c data = .ok st)
    (htip : st.tip = some t) (hl : Chain st.heap.prev t l) (h2 : 2 ≤ chunks.toNat)
    (hk : chunks.toNat ≤ (st.heap t).length.toNat) :
    IndexesValidated c st chunks ↔
      (l.length < 2 ^ 32 → ValidFront c chunks (bodies st.heap l.reverse)) := by
  have hi := Rewritechain.load_loaded hload
  have hj := Rewritechain.judged_of_load hload
  have ht := hi.tip t htip
  have hobj : l.length ≤ st.i := by
    obtain ⟨l', hl', hle⟩ := hi.exists_chain ht
    obtain rfl := hl.unique hl'
    have := ht.2
    omega
  by_cases hn : l.length < 2 ^ 32
  · have hlen : (st.heap t).length.toNat = l.length := by
      rw [hi.length_eq hl ht]
      exact UInt32.toNat_ofNat_of_lt' hn
    rw [hlen] at hk
    constructor
    · intro h _
      exact h.validFront hi hj htip hl hobj hlen h2 hk
    · intro h
      exact (h hn).indexesValidated hi hj htip hl hobj hlen h2 hk
  · -- the assertion on the length fails before the file is opened
    have hlen : (st.heap t).length.toNat ≠ l.length := by
      have := (st.heap t).length.toNat_lt
      omega
    have hnone : Rewritechain.written st.heap st.i st.tip chunks = [] := by
      rw [htip]
      exact Rewritechain.written_overgrown hl hobj hlen
    refine ⟨fun _ h => absurd h hn, fun _ => ⟨fun x hx => ?_, fun x hx => ?_⟩⟩
    · rw [hnone] at hx
      cases hx
    · rw [hnone] at hx
      cases hx

theorem two_empties_validated : ∃ st,
    Rewritechain.load .toy ((Rewritechain.empties 2).flatMap Body.encoding) = .ok st ∧
      (IndexesValidated .toy st 2 ↔ ((Rewritechain.addresses 2).reverse.length < 2 ^ 32 →
        ValidFront .toy 2 (bodies st.heap (Rewritechain.addresses 2).reverse.reverse))) := by
  obtain ⟨st, hload, hst⟩ := Rewritechain.load_empties (show 2 < 2 ^ 256 by decide)
  have hchain := hst.chain (show 1 < 2 by decide)
  have hlen : (st.heap ⟨0, 1⟩).length.toNat = 2 := by
    rw [(Rewritechain.load_loaded hload).length_eq hchain
      ((Rewritechain.load_loaded hload).tip _ (hst.tip (by decide)))]
    rfl
  exact ⟨st, hload, rewritechain_indexes_validated_iff hload (hst.tip (by decide)) hchain
    (by decide) (by rw [hlen]; decide)⟩

/-- A coinbase and a block on it that carries a wrong hash. -/
def spoiledChain : List Body :=
  [emptyBlock (.ofNat 0) 0, { emptyBlock (.ofNat 1) 1 with blkHash := .ofNat 99 }]

theorem load_spoiledChain : ∃ st,
    Rewritechain.load .toy (spoiledChain.flatMap Body.encoding) = .ok st ∧
      st.tip = some ⟨0, 1⟩ ∧ (st.heap ⟨0, 1⟩).prevBlock = some ⟨0, 0⟩ ∧
      (st.heap ⟨0, 0⟩).prevBlock = none ∧
      bodies st.heap [⟨0, 0⟩, ⟨0, 1⟩] = spoiledChain := by
  have hw : ∀ b ∈ spoiledChain, b.Writable := by decide
  have hrun := Reader.run_encodings (r := Rewritechain.loader .toy) hw [] 0 .start
  rw [List.append_nil, Nat.add_zero, ← Body.length_encodings] at hrun
  exact ⟨_, hrun, rfl, rfl, rfl, rfl⟩

/-- Both blocks are indexed, in two chunks. -/
theorem spoiled_chain_indexed : ¬ ∀ (c : Crypto) (data : Bytes) (st : LoadState)
    (t : Ptr) (chunks : UInt32), Rewritechain.load c data = .ok st → st.tip = some t →
      2 ≤ chunks.toNat → chunks.toNat ≤ (st.heap t).length.toNat → IndexesValidated c st chunks := by
  intro h
  obtain ⟨st, hload, htip, hprev, hroot, hbodies⟩ := load_spoiledChain
  have hi := Rewritechain.load_loaded hload
  have hl : Chain st.heap.prev ⟨0, 1⟩ [⟨0, 1⟩, ⟨0, 0⟩] := .link hprev (.last hroot)
  have hlen : (st.heap ⟨0, 1⟩).length.toNat = 2 := by
    rw [hi.length_eq hl (hi.tip _ htip)]
    rfl
  have hindexes := h .toy _ st ⟨0, 1⟩ 2 hload htip (by decide) (by rw [hlen]; decide)
  have hfront := hindexes.validFront hi (Rewritechain.judged_of_load hload) htip hl
    (hi.tip _ htip).2 hlen (by decide) (by decide)
  rw [show [(⟨0, 1⟩ : Ptr), ⟨0, 0⟩].reverse = [⟨0, 0⟩, ⟨0, 1⟩] from rfl, hbodies] at hfront
  exact absurd hfront.valid (by decide)

end Bootcamp
