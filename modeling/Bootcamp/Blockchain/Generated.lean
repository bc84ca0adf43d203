import Bootcamp.Blockchain.Spending
import Bootcamp.Blockchain.Growth

/-! The generator from its first block to the file: no assertion fails, every payment is
accepted, and the reader finds the chain that was written. -/
namespace Bootcamp

open BalanceMap (total)

namespace Genchain

variable {c : Crypto} {w : World} {K numTxns : Nat}

/-! ## A block -/

/-- A block finished on the balances `m`, behind the hash `h`, before its reward is entered
in the wallet. -/
structure Made (c : Crypto) (w : World) (numTxns : Nat) (h : HashResult) (m : BalanceMap)
    (rewardAddr : HashResult) (st : GenState) (block : Block) : Prop where
  linked : block.prevHash = h
  accepted : block.toBody.accept c m = some block.balances
  writable : block.toBody.Writable
  size : st.utxos.length = numTxns
  reward : rewardAddr ∈ st.utxos.map Utxo.addr
  paid : ∃ m₁, Backed c w st.keys m₁ st.utxos ∧ 2 * total m₁ + 100 < 2 ^ 64 ∧
    block.balances = m₁.credit rewardAddr blockReward

/-- Hashing and validating what the loop has built. -/
theorem Spending.validate {m : BalanceMap} {rewardAddr : HashResult} {st : GenState} {block : Block}
    (hs : Spending c w numTxns m rewardAddr st block) (hr : block.rewardAddr = rewardAddr)
    (hm : block.resetBalances st.heap = m) (hcount : block.transactions.length ≤ maxTransactions) :
    ∃ block', (block.setHash c).validate c st.heap = .ok (true, block') ∧
      Made c w numTxns block.prevHash m rewardAddr st block' := by
  refine ⟨_, hs.built.validate hm, rfl, ?_, ⟨hcount, hs.built.each⟩, hs.size, hs.reward,
    block.balances, hs.backed, hs.supply, by rw [hr]⟩
  rw [Body.accept_eq_some, Body.validate_eq_true]
  exact ⟨block.balances, hs.built.applied, rfl, rfl⟩

theorem Spending.start {m : BalanceMap} {rewardAddr : HashResult} {st : GenState} {block : Block}
    (hb : Backed c w st.keys m st.utxos) (hsize : st.utxos.length = numTxns)
    (hreward : rewardAddr ∈ st.utxos.map Utxo.addr) (hsupply : 2 * total m + 100 < 2 ^ 64)
    (hm : block.balances = m) (htxs : block.transactions = []) :
    Spending c w numTxns m rewardAddr st block where
  backed := by rwa [hm]
  size := hsize
  built := .empty htxs hm
  reward := hreward
  supply := by rwa [hm]

theorem createCoinbase_spec (st : GenState) {rewardAddr : HashResult}
    (hb : Backed c w st.keys ∅ st.utxos) (hsize : st.utxos.length = numTxns)
    (hreward : rewardAddr ∈ st.utxos.map Utxo.addr) :
    ∃ block, createCoinbase c st.heap rewardAddr = .ok block ∧
      Made c w numTxns .zero ∅ rewardAddr st block := by
  have hs : Spending c w numTxns ∅ rewardAddr st { Block.new with rewardAddr } :=
    .start hb hsize hreward (by decide) rfl rfl
  obtain ⟨block, hvalid, hmade⟩ := hs.validate rfl (Block.resetBalances_none rfl) (Nat.zero_le _)
  refine ⟨block, ?_, hmade⟩
  simp only [createCoinbase, hvalid, Except.ok_bind]
  rfl

/-- The loop on a block without transactions, and what follows it. -/
theorem spendLoop_validate (hw : w.Sound c K) (hnum : 3 ≤ numTxns) (hnum' : numTxns ≤ maxTransactions)
    {m : BalanceMap} {rewardAddr : HashResult} {st : GenState} {block : Block}
    (hs : Spending c w numTxns m rewardAddr st block) (hr : block.rewardAddr = rewardAddr)
    (htxs : block.transactions = []) (hm : block.resetBalances st.heap = m)
    (hkeys : st.keys + numTxns ≤ K) :
    ∃ utxos k rands traversals block₁ block', k ≤ numTxns ∧
      spendLoop c w numTxns rewardAddr numTxns st block =
        .ok ({ st with utxos, added := st.added ++ List.replicate k true, rands,
                       keys := st.keys + k, traversals }, block₁) ∧
      block₁.prevHash = block.prevHash ∧
      (block₁.setHash c).validate c st.heap = .ok (true, block') ∧
      Made c w numTxns block.prevHash m rewardAddr
        { st with utxos, added := st.added ++ List.replicate k true, rands,
                  keys := st.keys + k, traversals } block' := by
  obtain ⟨utxos, rands, traversals, txs, balances, hlen, hloop, hs'⟩ := spendLoop_spec hw hnum hs hkeys
  have hcount : (block.transactions ++ txs).length ≤ maxTransactions := by
    rw [htxs, List.nil_append]
    omega
  obtain ⟨block', hvalid, hmade⟩ := hs'.validate hr hm hcount
  exact ⟨utxos, txs.length, rands, traversals, _, block', hlen, hloop, rfl, hvalid, hmade⟩

theorem createBlock_spec (hw : w.Sound c K) (hnum : 3 ≤ numTxns) (hnum' : numTxns ≤ maxTransactions)
    (st : GenState) {rewardAddr : HashResult} {p : Ptr} {m : BalanceMap}
    (hm : (st.heap p).balances = m) (hz : (st.heap p).blkHash ≠ .zero)
    (hb : Backed c w st.keys m st.utxos) (hsize : st.utxos.length = numTxns)
    (hreward : rewardAddr ∈ st.utxos.map Utxo.addr) (hsupply : 2 * total m + 100 < 2 ^ 64)
    (hkeys : st.keys + numTxns ≤ K) :
    ∃ utxos k rands traversals block, k ≤ numTxns ∧
      createBlock c w numTxns rewardAddr p st =
        .ok ({ st with utxos, added := st.added ++ List.replicate k true, rands,
                       keys := st.keys + k, traversals }, block) ∧
      Made c w numTxns (st.heap p).blkHash m rewardAddr
        { st with utxos, added := st.added ++ List.replicate k true, rands,
                  keys := st.keys + k, traversals } block := by
  have hs : Spending c w numTxns m rewardAddr st { Block.ofPrev st.heap p with rewardAddr } :=
    .start hb hsize hreward hsupply hm rfl
  obtain ⟨utxos, k, rands, traversals, block₁, block, hk, hloop, hprev, hvalid, hmade⟩ :=
    spendLoop_validate hw hnum hnum' hs rfl rfl ((Block.resetBalances_some rfl).trans hm) hkeys
  refine ⟨utxos, k, rands, traversals, block, hk, ?_, hmade⟩
  have hcoinbase : (block₁.setHash c).isCoinbase = .ok false :=
    Block.isCoinbase_of_ne (by rw [Block.setHash, hprev]; exact hz)
  simp only [createBlock, hloop, Except.ok_bind, hcoinbase, hvalid]
  rfl

/-! ## The chain -/

/-- The blocks written so far are a valid chain with the balances `m` at its end. -/
structure ChainOut (c : Crypto) (n : Nat) (m : BalanceMap) (chain : List Body) (out : Bytes) :
    Prop where
  count : chain.length = n
  linked : Body.Linked .zero chain
  accepted : Body.acceptAll c ∅ chain = some m
  writable : ∀ b ∈ chain, b.Writable
  out : out = chain.flatMap Body.encoding
  supply : total m ≤ 100 * n

/-- In front of block `n`. -/
structure Generated (c : Crypto) (w : World) (numTxns n : Nat) (m : BalanceMap) (st : GenState) :
    Prop extends ChainOut c n m st.chain st.out where
  backed : Backed c w st.keys m st.utxos
  size : st.utxos.length = if n = 0 then 0 else numTxns
  keys : st.keys ≤ numTxns * n
  prev : n ≠ 0 → ∃ p, st.prevBlock = some p ∧ (st.heap p).balances = m ∧
    (st.heap p).blkHash = Body.endHash .zero st.chain
  added : ∀ r ∈ st.added, r = true

theorem Generated.start : Generated c w numTxns 0 ∅ .start where
  count := rfl
  linked := trivial
  accepted := rfl
  writable := by simp [GenState.start]
  out := rfl
  supply := Nat.zero_le _
  backed := ⟨.nil, by simp [GenState.start]⟩
  size := rfl
  keys := Nat.zero_le _
  prev h := absurd rfl h
  added := by simp [GenState.start]

/-- The reward is entered in the wallet as it is in the ledger. -/
theorem Backed.reward {n : Nat} {m : BalanceMap} {utxos : List Utxo} (hb : Backed c w n m utxos)
    {u : Utxo} (hu : u ∈ utxos) (hm : 2 * total m + 100 < 2 ^ 64) :
    Backed c w n (m.credit u.addr blockReward)
      (assign utxos { u with amount := u.amount + blockReward }) where
  toOwned := hb.toOwned.assign hu rfl rfl
  covered v hv := by
    cases mem_assign hv with
    | inl hnew =>
      subst hnew
      have hexact : (m.amount u.addr + blockReward).toNat =
          (m.amount u.addr).toNat + blockReward.toNat := Body.reward_exact (by omega) u.addr
      have hle := UInt64.le_iff_toNat_le.mp (hb.covered u hu)
      have hlt := (m.amount u.addr + blockReward).toNat_lt
      have hadd := UInt64.toNat_add u.amount blockReward
      rw [UInt64.le_iff_toNat_le, BalanceMap.amount_credit, if_pos rfl, hexact, hadd]
      omega
    | inr hold =>
      obtain ⟨hv, hne⟩ := hold
      rw [BalanceMap.amount_credit, if_neg hne]
      exact hb.covered v hv

theorem finishBlock_eq {n : Nat} {rewardAddr : HashResult} {st : GenState} {block : Block} {u : Utxo}
    (hw : block.toBody.Writable) (hu : st.utxos.find? (fun u => u.addr = rewardAddr) = some u) :
    finishBlock n rewardAddr st block =
      .ok { st with utxos := assign st.utxos { u with amount := u.amount + blockReward },
                    heap := st.heap.set ⟨0, n⟩ block, prevBlock := some ⟨0, n⟩,
                    out := st.out ++ block.toBody.encoding, chain := st.chain ++ [block.toBody] } := by
  simp only [finishBlock, Body.write_eq_ok.mpr ⟨hw, rfl⟩, Except.ok_bind, hu]
  rfl

theorem finishBlock_spec {n : Nat} {m : BalanceMap} {rewardAddr : HashResult} {st : GenState}
    {block : Block} {h : HashResult} (hmade : Made c w numTxns h m rewardAddr st block)
    (hout : ChainOut c n m st.chain st.out) (hh : h = Body.endHash .zero st.chain)
    (hn : n < 2 ^ 32) (hkeys : st.keys ≤ numTxns * (n + 1)) (hadded : ∀ r ∈ st.added, r = true) :
    ∃ st', finishBlock n rewardAddr st block = .ok st' ∧
      Generated c w numTxns (n + 1) block.balances st' := by
  obtain ⟨m₁, hb, hm₁, hbalances⟩ := hmade.paid
  have hsome : (st.utxos.find? fun u => u.addr = rewardAddr).isSome := by
    obtain ⟨u, hu, haddr⟩ := List.mem_map.mp hmade.reward
    rw [List.find?_isSome]
    exact ⟨u, hu, decide_eq_true haddr⟩
  obtain ⟨u, hfind⟩ := Option.isSome_iff_exists.mp hsome
  have hu := List.mem_of_find?_eq_some hfind
  have haddr : u.addr = rewardAddr := by simpa using List.find?_some hfind
  subst haddr
  refine ⟨_, finishBlock_eq hmade.writable hfind, ⟨?_, ?_, ?_, ?_, ?_, ?_⟩, ?_, ?_, hkeys, ?_, hadded⟩
  · rw [List.length_append, hout.count]
    rfl
  · exact Body.linked_append.mpr ⟨hout.linked, hmade.linked.trans hh, trivial⟩
  · rw [Body.acceptAll_append, hout.accepted, Option.bind_some, Body.acceptAll_cons, hmade.accepted]
    rfl
  · intro b hmem
    cases List.mem_append.mp hmem with
    | inl hold => exact hout.writable b hold
    | inr hnew =>
      rw [List.mem_singleton.mp hnew]
      exact hmade.writable
  · rw [hout.out, List.flatMap_append, List.flatMap_singleton]
  · have hsupply := hout.supply
    have hle := Body.total_accept_le (by omega) (Body.accept_eq_some.mp hmade.accepted)
    omega
  · rw [hbalances]
    exact hb.reward hu hm₁
  · have haddrs := addrs_assign (u := { u with amount := u.amount + blockReward }) hu rfl
    have hlen := congrArg List.length haddrs
    rw [List.length_map, List.length_map, hmade.size] at hlen
    rw [if_neg (Nat.succ_ne_zero n)]
    exact hlen
  · intro _
    have hheap : st.heap.set ⟨0, n⟩ block ⟨0, n⟩ = block := Heap.set_self _ _ _
    exact ⟨⟨0, n⟩, rfl, congrArg Block.balances hheap,
      (congrArg (fun blk : Block => blk.blkHash) hheap).trans
        (Body.endHash_append .zero st.chain [block.toBody]).symm⟩

/-- The reward goes to some address of the wallet. -/
theorem exists_rewardPos (w : World) (draw traversals : Nat) {utxos : List Utxo}
    (h : 0 < utxos.length) : ∃ u, (w.order traversals utxos)[draw % utxos.length]? = some u ∧
      u.addr ∈ utxos.map Utxo.addr := by
  have hcnt : draw % utxos.length < (w.order traversals utxos).length := by
    rw [(w.order_perm _ _).length_eq]
    exact Nat.mod_lt _ h
  exact ⟨_, List.getElem?_eq_getElem hcnt,
    List.mem_map_of_mem ((w.order_perm _ _).mem_iff.mp (List.getElem_mem hcnt))⟩

theorem blockTurn_spec (hw : w.Sound c K) (hnum : 3 ≤ numTxns) (hnum' : numTxns ≤ maxTransactions)
    {n : Nat} {m : BalanceMap} {st : GenState} (hg : Generated c w numTxns n m st)
    (hz : ∀ b ∈ st.chain, b.blkHash ≠ .zero) (hK : numTxns * (n + 1) ≤ K) (hn : n < 2 ^ 32) :
    ∃ st' m', blockTurn c w numTxns st n = .ok st' ∧ Generated c w numTxns (n + 1) m' st' := by
  have hkeys := hg.keys
  have hsize := hg.size
  have hsupply := hg.supply
  have hmul : numTxns * (n + 1) = numTxns * n + numTxns := Nat.mul_succ _ _
  have hle : st.utxos.length ≤ numTxns := by split_ifs at hsize <;> omega
  have hfilled : st.keys + (numTxns - st.utxos.length) ≤ numTxns * (n + 1) := by omega
  obtain ⟨utxos, hfill, hb, hlen, -⟩ :=
    ensureMinUtxos_spec hw numTxns st hg.backed hle (hfilled.trans hK)
  obtain ⟨rewardPos, hpick, hreward⟩ :=
    exists_rewardPos w (w.rand st.rands).val st.traversals (show 0 < utxos.length by omega)
  simp only [blockTurn, hfill, Except.ok_bind, hpick]
  by_cases hzero : n = 0
  · subst hzero
    have hnil : st.chain = [] := List.length_eq_zero_iff.mp hg.count
    have hempty : ∅ = m := by
      have hacc := hg.accepted
      rw [hnil] at hacc
      exact Option.some.inj hacc
    subst hempty
    obtain ⟨block, hcoinbase, hmade⟩ := createCoinbase_spec
      { st with utxos, keys := st.keys + (numTxns - st.utxos.length), rands := st.rands + 1,
                traversals := st.traversals + 1 } hb hlen hreward
    obtain ⟨st', hfinish, hgen⟩ := finishBlock_spec hmade hg.toChainOut
      (by simp only [hnil]; rfl) hn hfilled hg.added
    refine ⟨st', block.balances, ?_, hgen⟩
    rw [if_pos rfl, hcoinbase, Except.ok_bind]
    exact hfinish
  · obtain ⟨p, hp, hm, hhash⟩ := hg.prev hzero
    have hne : st.chain ≠ [] := by
      intro hnil
      have hcount := hg.count
      rw [hnil] at hcount
      exact hzero hcount.symm
    have hnamed : (st.heap p).blkHash ≠ .zero := by
      obtain ⟨b, hb, heq⟩ := List.mem_map.mp (Body.endHash_mem hne .zero)
      rw [hhash, ← heq]
      exact hz b hb
    rw [if_neg hzero] at hsize
    obtain ⟨utxos', k, rands, traversals, block, hk, hcreate, hmade⟩ := createBlock_spec hw hnum hnum'
      { st with utxos, keys := st.keys + (numTxns - st.utxos.length), rands := st.rands + 1,
                traversals := st.traversals + 1 } hm hnamed hb hlen hreward (by omega)
      (by simp only; omega)
    have hadded : ∀ r ∈ st.added ++ List.replicate k true, r = true := by
      intro r hr
      cases List.mem_append.mp hr with
      | inl hold => exact hg.added r hold
      | inr hnew => exact List.eq_of_mem_replicate hnew
    obtain ⟨st', hfinish, hgen⟩ := finishBlock_spec hmade hg.toChainOut hhash hn
      (by simp only; omega) hadded
    refine ⟨st', block.balances, ?_, hgen⟩
    rw [if_neg hzero]
    split
    · rename_i hnone
      cases hp.symm.trans hnone
    · rename_i p' hp'
      obtain rfl : p = p' := Option.some.inj (hp.symm.trans hp')
      rw [hcreate, Except.ok_bind]
      exact hfinish

/-- The blocks of every run up to `len` blocks have a name that is not zero. -/
def NamesBlocks (c : Crypto) (w : World) (len numTxns : Nat) : Prop :=
  ∀ n ≤ len, ∀ st, createChainAndWrite c w n numTxns = .ok st → ∀ b ∈ st.chain, b.blkHash ≠ .zero

/-- Block after block, as far as the names go. -/
theorem createChainAndWrite_spec {len : Nat} (hw : w.Sound c (numTxns * len)) (hnum : 3 ≤ numTxns)
    (hnum' : numTxns ≤ maxTransactions) (hlen : len < 2 ^ 32) {n : Nat} (hn : n ≤ len)
    (hz : ∀ k < n, ∀ st m, createChainAndWrite c w k numTxns = .ok st →
      Generated c w numTxns k m st → ∀ b ∈ st.chain, b.blkHash ≠ .zero) :
    ∃ st m, createChainAndWrite c w n numTxns = .ok st ∧ Generated c w numTxns n m st := by
  induction n with
  | zero => exact ⟨.start, ∅, rfl, .start⟩
  | succ n ih =>
    obtain ⟨st, m, hrun, hgen⟩ := ih (by omega) fun k hk => hz k (by omega)
    have hK : numTxns * (n + 1) ≤ numTxns * len := Nat.mul_le_mul_left _ hn
    obtain ⟨st', m', hturn, hgen'⟩ := blockTurn_spec hw hnum hnum' hgen
      (hz n (Nat.lt_succ_self n) st m hrun hgen) hK (by omega)
    refine ⟨st', m', ?_, hgen'⟩
    rw [createChainAndWrite] at hrun ⊢
    rw [List.range_succ, List.foldlM_append, hrun, Except.ok_bind, List.foldlM_cons, hturn]
    rfl

/-- A hash that is never zero names every block. -/
theorem namesBlocks_of_ne_zero (hc : ∀ bs, c.sha256 bs ≠ .zero) {len : Nat}
    (hw : w.Sound c (numTxns * len)) (hnum : 3 ≤ numTxns) (hnum' : numTxns ≤ maxTransactions)
    (hlen : len < 2 ^ 32) : NamesBlocks c w len numTxns := by
  have hnamed {n : Nat} {m : BalanceMap} {st : GenState} (hgen : Generated c w numTxns n m st) :
      ∀ b ∈ st.chain, b.blkHash ≠ .zero := by
    intro b hb
    rw [← Body.hash_of_acceptAll hgen.accepted b hb]
    exact hc _
  intro n hn st hrun
  obtain ⟨st', m, hrun', hgen⟩ := createChainAndWrite_spec hw hnum hnum' hlen hn
    fun _ _ _ _ _ hgen => hnamed hgen
  obtain rfl := Except.ok.inj (hrun.symm.trans hrun')
  exact hnamed hgen

end Genchain

open Genchain

/-- The generator writes a chain of `len` blocks, and day 4 reads it to its end. -/
theorem genchain_readchain_agree (c : Crypto) (w : World) (len : UInt32) (numTxns : Nat)
    (hlen : 1 ≤ len) (hnum : 3 ≤ numTxns) (hnum' : numTxns ≤ 64)
    (hw : w.Sound c (numTxns * len.toNat)) (hz : NamesBlocks c w len.toNat numTxns) :
    ∃ st last, createChainAndWrite c w len.toNat numTxns = .ok st ∧
      (∀ added ∈ st.added, added = true) ∧ (Body.acceptAll c ∅ st.chain).isSome ∧
      st.chain.getLast? = some last ∧
      (Day4.readchain c).main st.out = .ok (.blk last.blkHash len) := by
  obtain ⟨st, m, hrun, hgen⟩ := createChainAndWrite_spec hw hnum hnum' len.toNat_lt le_rfl
    fun k hk st _ hrun _ => hz k hk.le st hrun
  have hpos : 0 < st.chain.length := by
    rw [hgen.count]
    exact UInt32.le_iff_toNat_le.mp hlen
  have hne : st.chain ≠ [] := List.length_pos_iff.mp hpos
  have hlast : st.chain.getLast? = some (st.chain.getLast hne) := List.getLast?_eq_some_getLast hne
  have hread := Day4.main_linear (fun b hb => (hgen.writable b hb).readable) hgen.linked
    (hz _ le_rfl st hrun) hgen.accepted hne
  refine ⟨st, _, hrun, hgen.added, by rw [hgen.accepted]; rfl, hlast, ?_⟩
  rw [hgen.out, hread, Body.endHash_of_getLast hlast, hgen.count, UInt32.ofNat_toNat]

/-- A hash of the first 31 bytes, and keys that are numbers. -/
def Crypto.numbered : Crypto where
  sha256 bs := .ofNat (LittleEndian.decode (bs.take 31) + 1)
  d2i_RSA_PUBKEY _ := true
  EVP_DigestVerifyFinal _ _ _ := 1

def World.numbered : World where
  rand n := Fin.ofNat _ n
  keys n := ⟨LittleEndian.encode 31 n, fun _ => [1]⟩
  order _ utxos := utxos
  order_perm _ _ := .refl _

theorem World.numbered_sound {n : Nat} (hn : n < 256 ^ 31) : numbered.Sound .numbered n := by
  have haddr (i : Nat) (hi : i < n) :
      Crypto.numbered.sha256 (numbered.keys i).keyDER = .ofNat (i + 1) := by
    have hlen : (LittleEndian.encode 31 i).length ≤ 31 := (LittleEndian.length_encode 31 i).le
    simp only [Crypto.numbered, numbered, List.take_of_length_le hlen,
      LittleEndian.decode_encode_of_lt (hi.trans hn)]
  have hsign : 0 < [(1 : UInt8)].length ∧ [(1 : UInt8)].length < 1024 := by decide
  refine ⟨fun i hi j hj heq => ?_, fun i _ => ?_, fun _ _ _ => hsign, fun _ _ _ => rfl⟩
  · rw [haddr i hi, haddr j hj] at heq
    have hinj := HashResult.ofNat_inj (by omega) (by omega) heq
    omega
  · simp only [numbered, LittleEndian.length_encode]
    omega

theorem Crypto.numbered_ne_zero (bs : Bytes) : numbered.sha256 bs ≠ .zero := by
  have hlt := LittleEndian.decode_lt (bs.take 31)
  have hle : (bs.take 31).length ≤ 31 := List.length_take_le 31 bs
  have hpow : 256 ^ (bs.take 31).length ≤ 256 ^ 31 := Nat.pow_le_pow_right (by decide) hle
  exact HashResult.ofNat_ne_zero (by omega) (Nat.succ_ne_zero _)

theorem genchain_readchain_agree_thousand :
    (1 ≤ (1000 : UInt32) ∧ World.numbered.Sound .numbered (64 * (1000 : UInt32).toNat) ∧
      NamesBlocks .numbered .numbered (1000 : UInt32).toNat 64) ∧
    ∃ st last, createChainAndWrite .numbered .numbered (1000 : UInt32).toNat 64 = .ok st ∧
      (∀ added ∈ st.added, added = true) ∧ (Body.acceptAll .numbered ∅ st.chain).isSome ∧
      st.chain.getLast? = some last ∧
      (Day4.readchain .numbered).main st.out = .ok (.blk last.blkHash 1000) := by
  have hlen : 1 ≤ (1000 : UInt32) := by decide
  have hw : World.numbered.Sound .numbered (64 * (1000 : UInt32).toNat) :=
    World.numbered_sound (by decide)
  have hz := namesBlocks_of_ne_zero Crypto.numbered_ne_zero hw (by decide) le_rfl (by decide)
  exact ⟨⟨hlen, hw, hz⟩, genchain_readchain_agree _ _ 1000 64 hlen (by decide) le_rfl hw hz⟩

end Bootcamp
