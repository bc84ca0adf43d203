import Bootcamp.Blockchain.Rewritechain

/-! From the file that `rewritechain` reads to the file that it writes. -/
namespace Bootcamp

open Chains (Chain)

namespace Rewritechain

/-! ## What is loaded -/

/-- The address of a block that the loop has allocated. -/
def Allocated (st : LoadState) (x : Ptr) : Prop := x.thread = 0 ∧ x.serial < st.i

/-- Every loaded block leads to an older one and is one longer, or starts a chain. -/
structure Loaded (st : LoadState) : Prop where
  keyed : ∀ h x, st.bmap.find? h = some x → Allocated st x
  tip : ∀ x, st.tip = some x → Allocated st x
  first : ∀ x, Allocated st x → st.heap.prev x = none → (st.heap x).length = 1
  linked : ∀ x q, Allocated st x → st.heap.prev x = some q →
    Allocated st q ∧ q.serial < x.serial ∧ (st.heap x).length = (st.heap q).length + 1

/-- All that a visit does. -/
theorem visit_eq_ok {c : Crypto} {st st' : LoadState} {n : Nat} {blk : Block}
    (h : visit c st n blk = .ok st') : ∃ valid m,
      blk.toBody.validate c (blk.resetBalances st.heap) = .ok (valid, m) ∧
      st'.heap = st.heap.set ⟨0, st.i⟩ { blk with balances := m } ∧
      (∀ k, st'.bmap.find? k = if k = blk.blkHash then some ⟨0, st.i⟩ else st.bmap.find? k) ∧
      st'.tip = some ⟨0, st.i⟩ ∧ st'.i = st.i + 1 := by
  obtain ⟨⟨valid, blk'⟩, hv, h⟩ := Except.bind_eq_ok.mp h
  obtain ⟨m, hm, rfl⟩ := Block.validateBy_eq_ok.mp hv
  by_cases hassert : st.i = 0 ∨ blk.prevBlock ≠ none
  · simp only [hassert, not_true_eq_false, if_false, Except.pure_eq_ok, Except.ok.injEq] at h
    subst h
    refine ⟨valid, m, hm, rfl, ?_, rfl, rfl⟩
    intro k
    simp only
    split
    · rw [OrderedMap.find_insert, OrderedMap.find_insert]
      split <;> rfl
    · rw [OrderedMap.find_insert]
      split <;> rfl
  · simp only [hassert, not_false_eq_true] at h
    cases h

theorem visit_ok {c : Crypto} {st : LoadState} {blk : Block} {valid : Bool} {m : BalanceMap}
    (n : Nat) (hm : blk.toBody.validate c (blk.resetBalances st.heap) = .ok (valid, m))
    (hassert : st.i = 0 ∨ blk.prevBlock ≠ none) : ∃ st', visit c st n blk = .ok st' := by
  have hv := Block.validateBy_eq_ok.mpr ⟨m, hm, rfl⟩
  rw [visit, Block.validate, hv, Except.ok_bind]
  simp only [hassert, not_true_eq_false, if_false]
  exact ⟨_, rfl⟩

theorem visit_allocated {c : Crypto} {st st' : LoadState} {n : Nat} {blk : Block}
    (h : visit c st n blk = .ok st') {x : Ptr} :
    Allocated st' x ↔ x = ⟨0, st.i⟩ ∨ Allocated st x := by
  obtain ⟨_, _, -, -, -, -, hcount⟩ := visit_eq_ok h
  rw [Allocated, Allocated, hcount]
  constructor
  · obtain ⟨thread, serial⟩ := x
    rintro ⟨rfl, hlt⟩
    rcases Nat.lt_succ_iff_lt_or_eq.mp hlt with hlt | rfl
    · exact .inr ⟨rfl, hlt⟩
    · exact .inl rfl
  · rintro (rfl | hx)
    · exact ⟨rfl, Nat.lt_succ_self _⟩
    · exact ⟨hx.1, Nat.lt_succ_of_lt hx.2⟩

/-- A loaded block stays as it is. -/
theorem visit_old {c : Crypto} {st st' : LoadState} {n : Nat} {blk : Block}
    (h : visit c st n blk = .ok st') {x : Ptr} (hx : Allocated st x) : st'.heap x = st.heap x := by
  obtain ⟨_, _, -, hheap, -⟩ := visit_eq_ok h
  rw [hheap]
  apply Heap.set_of_ne
  rintro rfl
  exact absurd hx.2 (lt_irrefl _)

theorem Loaded.start : Loaded .start where
  keyed := by
    intro h x hx
    cases hx
  tip := by
    intro x hx
    cases hx
  first := by
    intro x hx
    exact absurd hx.2 (Nat.not_lt_zero _)
  linked := by
    intro x q hx
    exact absurd hx.2 (Nat.not_lt_zero _)

theorem Loaded.visit {c : Crypto} {st st' : LoadState} {n : Nat} {b : Body} (hi : Loaded st)
    (h : visit c st n (Block.attached st.heap st.bmap b) = .ok st') : Loaded st' := by
  obtain ⟨valid, m, -, hheap, hbmap, htip, -⟩ := visit_eq_ok h
  have hgrow (x : Ptr) (hx : Allocated st x) : Allocated st' x := (visit_allocated h).mpr (.inr hx)
  have hnew : Allocated st' ⟨0, st.i⟩ := (visit_allocated h).mpr (.inl rfl)
  have hself : st'.heap ⟨0, st.i⟩ = { Block.attached st.heap st.bmap b with balances := m } := by
    rw [hheap, Heap.set_self]
  have hold (x : Ptr) (hx : Allocated st x) : st'.heap x = st.heap x := visit_old h hx
  have hcases (x : Ptr) (hx : Allocated st' x) : x = ⟨0, st.i⟩ ∨ Allocated st x :=
    (visit_allocated h).mp hx
  refine ⟨?_, ?_, ?_, ?_⟩
  · intro k x hx
    rw [hbmap] at hx
    split_ifs at hx
    · exact Option.some.inj hx ▸ hnew
    · exact hgrow x (hi.keyed k x hx)
  · intro x hx
    rw [htip] at hx
    exact Option.some.inj hx ▸ hnew
  · intro x hx hnone
    rcases hcases x hx with rfl | hx
    · rw [Heap.prev, hself] at hnone
      rw [hself]
      rcases Block.attached_cases st.heap st.bmap b with ⟨-, hlen, -⟩ | ⟨q, hsome, -⟩
      · exact hlen
      · exact absurd hnone (by simp [hsome])
    · rw [Heap.prev, hold x hx] at hnone
      rw [hold x hx]
      exact hi.first x hx hnone
  · intro x q hx hsome
    rcases hcases x hx with rfl | hx
    · rw [Heap.prev, hself] at hsome
      rcases Block.attached_cases st.heap st.bmap b with ⟨hnone, -⟩ | ⟨q', hsome', -, hf, hlen⟩
      · exact absurd hsome (by simp [hnone])
      · obtain rfl : q' = q := Option.some.inj (hsome'.symm.trans hsome)
        have hq := hi.keyed _ _ hf
        rw [hself, hold q' hq]
        exact ⟨hgrow q' hq, hq.2, hlen⟩
    · rw [Heap.prev, hold x hx] at hsome
      obtain ⟨hq, hlt, hlen⟩ := hi.linked x q hx hsome
      rw [hold x hx, hold q hq]
      exact ⟨hgrow q hq, hlt, hlen⟩

theorem load_loaded {c : Crypto} {data : Bytes} {st : LoadState} (h : load c data = .ok st) :
    Loaded st := by
  obtain ⟨s, rfl, hreach, -⟩ := Reader.run_eq_ok h
  refine Loop.Reaches.invariant (I := fun s => Loaded s.state) hreach .start ?_
  intro a b _ hi hturn
  obtain ⟨n, body, -, -, hv, -, -⟩ := Reader.turn_iff.mp hturn
  exact hi.visit (n := n) hv

theorem Loaded.exists_chain {st : LoadState} (hi : Loaded st) {x : Ptr} (hx : Allocated st x) :
    ∃ l, Chain st.heap.prev x l ∧ l.length ≤ x.serial + 1 :=
  Chains.exists_chain (S := Allocated st) Ptr.serial
    (fun y q hy hq => ⟨(hi.linked y q hy hq).1, (hi.linked y q hy hq).2.1⟩) hx

theorem Loaded.length_eq {st : LoadState} (hi : Loaded st) {x : Ptr} {l : List Ptr}
    (hl : Chain st.heap.prev x l) (hx : Allocated st x) :
    (st.heap x).length = UInt32.ofNat l.length :=
  Heap.length_of_chain hi.first (fun y q hy hq => ⟨(hi.linked y q hy hq).1, (hi.linked y q hy hq).2.2⟩)
    hl hx

/-! ## A long chain of empty blocks -/

/-- The first `n` blocks, each with its own reward address. -/
def empties (n : Nat) : List Body := (List.range n).map fun k => emptyBlock (.ofNat k) k

/-- What is loaded behind them. -/
structure HoldsEmpties (st : LoadState) (n : Nat) : Prop where
  count : st.i = n
  tip : 0 < n → st.tip = some ⟨0, n - 1⟩
  last : 0 < n → st.bmap.find? (.ofNat n) = some ⟨0, n - 1⟩
  body : ∀ k < n, (st.heap ⟨0, k⟩).toBody = emptyBlock (.ofNat k) k
  balances : ∀ k < n, (st.heap ⟨0, k⟩).balances = emptyBalances .ofNat (k + 1)
  prev : ∀ k < n, (st.heap ⟨0, k⟩).prevBlock = if k = 0 then none else some ⟨0, k - 1⟩

/-- The next block finds the last one, if there is one. -/
theorem HoldsEmpties.prevBlock_next {st : LoadState} {n : Nat} (hst : HoldsEmpties st n)
    (hn : n < 2 ^ 256) : (Block.attached st.heap st.bmap (emptyBlock (.ofNat n) n)).prevBlock =
      if n = 0 then none else some ⟨0, n - 1⟩ := by
  by_cases h0 : n = 0
  · subst h0
    rfl
  · have hz : (emptyBlock (.ofNat n) n).prevHash ≠ .zero := HashResult.ofNat_ne_zero hn h0
    have hf : st.bmap.find? (emptyBlock (.ofNat n) n).prevHash = some ⟨0, n - 1⟩ :=
      hst.last (by omega)
    simp [Block.attached, hz, hf, Block.setPrevBlock, h0]

theorem HoldsEmpties.validate_next {st : LoadState} {n : Nat} (hst : HoldsEmpties st n)
    (hn : n + 1 < 2 ^ 256) :
    (Block.attached st.heap st.bmap (emptyBlock (.ofNat n) n)).toBody.validate .toy
        ((Block.attached st.heap st.bmap (emptyBlock (.ofNat n) n)).resetBalances st.heap) =
      .ok (true, emptyBalances .ofNat (n + 1)) := by
  have hprev := hst.prevBlock_next (by omega)
  have hreset : (Block.attached st.heap st.bmap (emptyBlock (.ofNat n) n)).resetBalances st.heap =
      emptyBalances .ofNat n := by
    by_cases h0 : n = 0
    · subst h0
      exact Block.resetBalances_none hprev
    · rw [if_neg h0] at hprev
      rw [Block.resetBalances_some hprev, hst.balances (n - 1) (by omega),
        Nat.sub_add_cancel (by omega)]
  rw [Block.attached_toBody, hreset]
  exact validate_emptyBlock _ (by omega) _

theorem HoldsEmpties.step {st : LoadState} {n : Nat} (hst : HoldsEmpties st n)
    (hn : n + 1 < 2 ^ 256) :
    ∃ st', (loader .toy).step st (emptyBlock (.ofNat n) n) = .ok st' ∧ HoldsEmpties st' (n + 1) := by
  have hprev := hst.prevBlock_next (by omega)
  have hm := hst.validate_next hn
  have hassert : st.i = 0 ∨
      (Block.attached st.heap st.bmap (emptyBlock (.ofNat n) n)).prevBlock ≠ none := by
    rw [hprev, hst.count]
    by_cases h0 : n = 0
    · exact .inl h0
    · exact .inr (by simp [h0])
  obtain ⟨st', hvisit⟩ := visit_ok (emptyBlock (.ofNat n) n).size hm hassert
  obtain ⟨valid, m, hm', hheap, hbmap, htip, hcount⟩ := visit_eq_ok hvisit
  obtain rfl : emptyBalances .ofNat (n + 1) = m := by
    rw [hm] at hm'
    exact (Prod.mk.inj (Except.ok.inj hm')).2
  rw [hst.count] at hheap hbmap htip hcount
  have hself : st'.heap ⟨0, n⟩ = { Block.attached st.heap st.bmap (emptyBlock (.ofNat n) n) with
      balances := emptyBalances .ofNat (n + 1) } := by
    rw [hheap, Heap.set_self]
  have hold (k : Nat) (hk : k < n) : st'.heap ⟨0, k⟩ = st.heap ⟨0, k⟩ := by
    rw [hheap]
    apply Heap.set_of_ne
    intro heq
    exact absurd (congrArg Ptr.serial heq) (Nat.ne_of_lt hk)
  refine ⟨st', ?_, hcount, fun _ => htip, fun _ => ?_, ?_, ?_, ?_⟩
  · simp only [Reader.step, Block.attach_eq, Except.ok_bind]
    exact hvisit
  · rw [hbmap, if_pos (by simp [emptyBlock])]
    rfl
  · intro k hk
    rcases Nat.lt_succ_iff_lt_or_eq.mp hk with hk | rfl
    · rw [hold k hk]
      exact hst.body k hk
    · rw [hself]
      exact Block.attached_toBody _ _ _
  · intro k hk
    rcases Nat.lt_succ_iff_lt_or_eq.mp hk with hk | rfl
    · rw [hold k hk]
      exact hst.balances k hk
    · rw [hself]
  · intro k hk
    rcases Nat.lt_succ_iff_lt_or_eq.mp hk with hk | rfl
    · rw [hold k hk]
      exact hst.prev k hk
    · rw [hself]
      exact hprev

theorem steps_empties {n : Nat} (hn : n < 2 ^ 256) :
    ∃ st, (empties n).foldlM (loader .toy).step .start = .ok st ∧ HoldsEmpties st n := by
  induction n with
  | zero =>
    exact ⟨.start, rfl, rfl, by omega, by omega, by simp, by simp, by simp⟩
  | succ n ih =>
    obtain ⟨st, hsteps, hst⟩ := ih (by omega)
    obtain ⟨st', hstep, hst'⟩ := hst.step hn
    refine ⟨st', ?_, hst'⟩
    have happend : empties (n + 1) = empties n ++ [emptyBlock (.ofNat n) n] := by
      simp [empties, List.range_succ]
    rw [happend, List.foldlM_append, hsteps, Except.ok_bind, List.foldlM_cons, hstep]
    rfl

theorem load_empties {n : Nat} (hn : n < 2 ^ 256) :
    ∃ st, load .toy ((empties n).flatMap Body.encoding) = .ok st ∧ HoldsEmpties st n := by
  obtain ⟨st, hsteps, hst⟩ := steps_empties hn
  have hw : ∀ b ∈ empties n, b.Writable := by
    intro b hb
    obtain ⟨k, -, rfl⟩ := List.mem_map.mp hb
    exact Body.writable_emptyBlock _ k
  have hrun := Reader.run_encodings (r := loader .toy) hw [] 0 .start
  rw [List.append_nil, Nat.add_zero, ← Body.length_encodings, hsteps] at hrun
  exact ⟨st, hrun, hst⟩

/-- The first `n` addresses of the loading loop. -/
def addresses (n : Nat) : List Ptr := (List.range n).map fun k => ⟨0, k⟩

theorem addresses_succ (n : Nat) : addresses (n + 1) = addresses n ++ [⟨0, n⟩] := by
  simp [addresses, List.range_succ]

@[simp] theorem length_addresses (n : Nat) : (addresses n).length = n := by simp [addresses]

theorem mem_addresses {n : Nat} {x : Ptr} : x ∈ addresses n ↔ ∃ k < n, x = ⟨0, k⟩ := by
  simp [addresses, eq_comm]

namespace HoldsEmpties

variable {st : LoadState} {n : Nat}

theorem chain (h : HoldsEmpties st n) {k : Nat} (hk : k < n) :
    Chain st.heap.prev ⟨0, k⟩ (addresses (k + 1)).reverse := by
  induction k with
  | zero => exact .last (h.prev 0 hk)
  | succ k ih =>
    rw [addresses_succ, List.reverse_append]
    exact .link (h.prev (k + 1) hk) (ih (by omega))

theorem writable (h : HoldsEmpties st n) : ∀ x ∈ (addresses n).reverse, (st.heap x).Writable := by
  intro x hx
  obtain ⟨k, hk, rfl⟩ := mem_addresses.mp (List.mem_reverse.mp hx)
  rw [h.body k hk]
  exact Body.writable_emptyBlock _ k

/-- One block a chunk: how long the chunks of the first `m` blocks are. -/
theorem length_chunks (h : HoldsEmpties st n) (hn : n < 2 ^ 256) {m : Nat} (hm : m ≤ n) :
    (((addresses m).map fun x => chunkOf st.heap [x]).flatMap Chunk.bytes).length =
      104 * m + 20 * (m * (m + 1)) := by
  induction m with
  | zero => rfl
  | succ m ih =>
    have hchunk : (chunkOf st.heap [⟨0, m⟩]).bytes.length = 104 + 40 * (m + 1) := by
      have hmap : (chunkOf st.heap [⟨0, m⟩]).map = emptyBalances .ofNat (m + 1) :=
        h.balances m (by omega)
      have hblocks : (chunkOf st.heap [⟨0, m⟩]).blocks = [emptyBlock (.ofNat m) m] := by
        simp [chunkOf, h.body m (by omega)]
      rw [Chunk.bytes, Chunk.blockBytes, Chunk.mapBytes, hmap, hblocks, List.length_append,
        Body.length_encodings, length_writeBalanceMap, balanceMapSize, size_emptyBalances (by omega)]
      simp [emptyBlock, Body.size]
      omega
    rw [addresses_succ, List.map_append, List.flatMap_append, List.length_append, ih (by omega),
      List.map_singleton, List.flatMap_singleton, hchunk]
    ring

/-- If the maps add up to more than 2^64 bytes the header cannot be exact. -/
theorem not_exact (h : HoldsEmpties st n) (hpos : 0 < n) (hn : n < 2 ^ 30)
    (hbig : 2 ^ 64 + 2 ^ 40 ≤ 20 * (n * (n + 1))) {gs : List (List Ptr)} (hgs : gs.length = n)
    (hne : ∀ g ∈ gs, g ≠ []) (hflat : gs.flatten = addresses n) (hd : Header) :
    ¬ hd.Exact (indexedFile (gs.map (chunkOf st.heap))) (gs.map (chunkOf st.heap)) := by
  intro hexact
  have hsingle := Layout.singletons_of_length_eq hne (by rw [hflat, length_addresses, hgs])
  rw [hflat] at hsingle
  have hchunks : gs.map (chunkOf st.heap) = (addresses n).map fun x => chunkOf st.heap [x] := by
    rw [hsingle, List.map_map]
    rfl
  rw [hchunks] at hexact
  have hcount : ((addresses n).map fun x => chunkOf st.heap [x]).length = n := by simp
  have hlast : ((addresses n).map fun x => chunkOf st.heap [x])[n - 1]? =
      some (chunkOf st.heap [⟨0, n - 1⟩]) := by
    simp [addresses, List.getElem?_range (show n - 1 < n by omega)]
  have hmap : (chunkOf st.heap [⟨0, n - 1⟩]).map = emptyBalances .ofNat n := by
    have := h.balances (n - 1) (by omega)
    rwa [Nat.sub_add_cancel (by omega)] at this
  have hsize : hd.mapSize (n - 1) = 4 + n * 40 := by
    rw [(hexact.maps _ _ hlast).2, Chunk.mapBytes, hmap, length_writeBalanceMap, balanceMapSize,
      size_emptyBalances (by omega)]
  have hend := hexact.last
  have hstart : hd.mapStart (n - 1) < 2 ^ 64 := UInt64.toNat_lt _
  rw [hcount, hsize, indexedFile, List.length_append, h.length_chunks (by omega) le_rfl] at hend
  omega

end HoldsEmpties

end Rewritechain

open Rewritechain (empties addresses load_empties chunkOf)

/-- From any file: if the chain of the loaded tip can be written and is cut into
as many chunks as asked for, then `rewritechain` writes the header and the
chunks, every block once and in order; below 2^64 bytes the header is exact. -/
theorem rewritechain_layout {c : Crypto} {data : Bytes} {st : LoadState} {t : Ptr} {l : List Ptr}
    {chunks : UInt32} (hload : Rewritechain.load c data = .ok st) (htip : st.tip = some t)
    (hl : Chain st.heap.prev t l) (hw : ∀ x ∈ l, (st.heap x).Writable) (h2 : 2 ≤ chunks.toNat)
    (hk : chunks.toNat ≤ l.length) (hn : l.length < 2 ^ 30) :
    ∃ gs : List (List Ptr), gs.length = chunks.toNat ∧ (∀ g ∈ gs, g ≠ []) ∧
      gs.flatten = l.reverse ∧
      Rewritechain.main c data chunks = .ok (indexedFile (gs.map (chunkOf st.heap))) ∧
      ((indexedFile (gs.map (chunkOf st.heap))).length < 2 ^ 64 →
        ∃ hd, extractHeader .granted (indexedFile (gs.map (chunkOf st.heap))) = .ok (some hd) ∧
          hd.Exact (indexedFile (gs.map (chunkOf st.heap))) (gs.map (chunkOf st.heap))) := by
  have hi := Rewritechain.load_loaded hload
  have ht := hi.tip t htip
  obtain ⟨l', hl', hle⟩ := hi.exists_chain ht
  obtain rfl := hl.unique hl'
  have hlen : (st.heap t).length.toNat = l.length := by
    rw [hi.length_eq hl ht]
    exact UInt32.toNat_ofNat_of_lt' (by simp only [UInt32.size]; omega)
  have hobj : l.length ≤ st.i := by
    have := ht.2
    omega
  obtain ⟨gs, hgs, hne, hflat, hfile⟩ := Rewritechain.rewriteChain_eq hl hobj hlen hw h2 hk hn
  refine ⟨gs, hgs, hne, hflat, ?_, ?_⟩
  · rw [Rewritechain.main, hload, Except.ok_bind, htip]
    exact hfile
  · intro hsize
    apply indexedFile_exact
    · intro hnil
      have hzero : gs.length = 0 := by simpa using congrArg List.length hnil
      omega
    · rw [List.length_map, hgs]
      exact chunks.toNat_lt
    · exact hsize

theorem layout_two_empties : ∃ st, Rewritechain.load .toy ((empties 2).flatMap Body.encoding) = .ok st ∧
    ∃ gs : List (List Ptr), gs.length = (2 : UInt32).toNat ∧ (∀ g ∈ gs, g ≠ []) ∧
      gs.flatten = (addresses 2).reverse.reverse ∧
      Rewritechain.main .toy ((empties 2).flatMap Body.encoding) 2 =
        .ok (indexedFile (gs.map (chunkOf st.heap))) ∧
      ((indexedFile (gs.map (chunkOf st.heap))).length < 2 ^ 64 →
        ∃ hd, extractHeader .granted (indexedFile (gs.map (chunkOf st.heap))) = .ok (some hd) ∧
          hd.Exact (indexedFile (gs.map (chunkOf st.heap))) (gs.map (chunkOf st.heap))) := by
  obtain ⟨st, hload, hst⟩ := load_empties (show 2 < 2 ^ 256 by decide)
  exact ⟨st, hload, rewritechain_layout hload (hst.tip (by decide)) (hst.chain (by decide))
    hst.writable (by decide) (by simp) (by simp)⟩

/-- Nothing else bounds the maps: 2^30 - 1 empty blocks with as many reward
addresses, one block a chunk, fill more than 2^64 bytes, and the offsets wrap. -/
theorem rewritechain_offsets_wrap : ∃ st t l,
    Rewritechain.load .toy ((empties (2 ^ 30 - 1)).flatMap Body.encoding) = .ok st ∧
      st.tip = some t ∧ Chain st.heap.prev t l ∧
      (∀ x ∈ l, (st.heap x).Writable ∧ (st.heap x).balances.size < 2 ^ 32) ∧
      l.length = 2 ^ 30 - 1 ∧
      ¬ ∃ (gs : List (List Ptr)) (resize : Resize) (hd : Header), gs.length = 2 ^ 30 - 1 ∧ (∀ g ∈ gs, g ≠ []) ∧
        gs.flatten = l.reverse ∧
        Rewritechain.main .toy ((empties (2 ^ 30 - 1)).flatMap Body.encoding)
          (.ofNat (2 ^ 30 - 1)) = .ok (indexedFile (gs.map (chunkOf st.heap))) ∧
        extractHeader resize (indexedFile (gs.map (chunkOf st.heap))) = .ok (some hd) ∧
        hd.Exact (indexedFile (gs.map (chunkOf st.heap))) (gs.map (chunkOf st.heap)) := by
  have hpos : 0 < 2 ^ 30 - 1 := by decide
  have hbig : 2 ^ 64 + 2 ^ 40 ≤ 20 * ((2 ^ 30 - 1) * (2 ^ 30 - 1 + 1)) := by decide
  have hlt : 2 ^ 30 - 1 < 2 ^ 30 := by decide
  generalize 2 ^ 30 - 1 = n at hpos hbig hlt ⊢
  obtain ⟨st, hload, hst⟩ := load_empties (show n < 2 ^ 256 by omega)
  have hchain := hst.chain (show n - 1 < n by omega)
  rw [Nat.sub_add_cancel hpos] at hchain
  refine ⟨st, _, _, hload, hst.tip hpos, hchain, ?_, by simp, ?_⟩
  · intro x hx
    refine ⟨hst.writable x hx, ?_⟩
    obtain ⟨k, hk, rfl⟩ := Rewritechain.mem_addresses.mp (List.mem_reverse.mp hx)
    rw [hst.balances k hk, size_emptyBalances (by omega)]
    omega
  · rintro ⟨gs, -, hd, hgs, hne, hflat, -, -, hexact⟩
    rw [List.reverse_reverse] at hflat
    exact hst.not_exact hpos hlt hbig hgs hne hflat hd hexact

end Bootcamp
