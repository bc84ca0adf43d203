import Bootcamp.Blockchain.Generated

/-! The generator's wallet against the ledger it builds. Both enter every payment, each with
a rule of its own: the ledger adds the change to what is there, the wallet overwrites it. -/
namespace Bootcamp

/-- The wallet believes of each address what the ledger `m` says. -/
def Mirrors (m : BalanceMap) (utxos : List Utxo) : Prop :=
  ∀ u ∈ utxos, u.amount = m.amount u.addr

instance (m : BalanceMap) (utxos : List Utxo) : Decidable (Mirrors m utxos) :=
  inferInstanceAs (Decidable (∀ u ∈ utxos, u.amount = m.amount u.addr))

/-- The balances of the last block. -/
def GenState.ledger (st : GenState) : BalanceMap :=
  match st.prevBlock with
  | none => ∅
  | some p => (st.heap p).balances

theorem GenState.ledger_some {st : GenState} {p : Ptr} (h : st.prevBlock = some p) :
    st.ledger = (st.heap p).balances := by
  simp only [ledger, h]

/-- Every signature of a generated key is good. -/
def World.Verifies (c : Crypto) (w : World) : Prop :=
  ∀ k blk, c.verify (w.keys k).keyDER blk ((w.keys k).sign blk) = .ok true

namespace Genchain

variable {c : Crypto} {w : World} {numTxns : Nat}

/-- Whoever has something in the ledger `m` is in the wallet of the first `n` keys. -/
structure AllOwned (c : Crypto) (w : World) (n : Nat) (m : BalanceMap) (utxos : List Utxo) : Prop
    extends Owned c w n utxos where
  known : ∀ a, m.amount a ≠ 0 → a ∈ utxos.map Utxo.addr

namespace AllOwned

variable {n : Nat} {m : BalanceMap} {utxos : List Utxo}

theorem nil : AllOwned c w n ∅ [] where
  toOwned := .nil
  known a ha := absurd (BalanceMap.amount_empty a) ha

theorem cons (h : AllOwned c w n m utxos)
    (hfresh : (Utxo.make c (w.keys n)).addr ∉ utxos.map Utxo.addr) :
    AllOwned c w (n + 1) m (Utxo.make c (w.keys n) :: utxos) where
  toOwned := h.toOwned.cons hfresh
  known a ha := List.mem_cons_of_mem _ (h.known a ha)

/-- A new key has nothing, and nothing is what the ledger says of an address that the wallet
does not have. -/
theorem mirrors_cons (h : AllOwned c w n m utxos)
    (hfresh : (Utxo.make c (w.keys n)).addr ∉ utxos.map Utxo.addr) :
    Mirrors m (Utxo.make c (w.keys n) :: utxos) ↔ Mirrors m utxos := by
  have hnothing : m.amount (Utxo.make c (w.keys n)).addr = 0 := by
    by_contra hsome
    exact hfresh (h.known _ hsome)
  constructor
  · intro hm u hu
    exact hm u (List.mem_cons_of_mem _ hu)
  · intro hm u hu
    cases List.mem_cons.mp hu with
    | inl hnew =>
      rw [hnew, hnothing]
      rfl
    | inr hold => exact hm u hold

/-- Nobody comes into the ledger but the receiver and the change, and nobody leaves the wallet
but the source. -/
theorem settle (h : AllOwned c w n m utxos) {ch : Choice} (hch : ch.Sensible utxos) {tx : Txn}
    (hsource : tx.sourceAddr = ch.spend.addr) (hdest : tx.destAddr = ch.recv.addr)
    (hchng : tx.changeAddr = ch.change.addr) :
    AllOwned c w n (tx.applied m) (ch.settle utxos) where
  toOwned := h.toOwned.settle hch
  known a ha := by
    rw [Txn.amount_applied, hsource, hdest, hchng] at ha
    rw [hch.addrs_settle h.nodup]
    by_cases hs : a = ch.spend.addr
    · rw [if_pos hs] at ha
      exact absurd rfl ha
    rw [List.mem_erase_of_ne hs]
    by_cases hr : a = ch.recv.addr
    · exact hr ▸ List.mem_map_of_mem hch.recv
    by_cases hg : a = ch.change.addr
    · exact hg ▸ List.mem_map_of_mem hch.change
    rw [if_neg hs, if_neg hr, if_neg hg, UInt64.add_zero, UInt64.add_zero] at ha
    exact h.known a ha

end AllOwned

/-- What a payment does to both: only the change address can come to differ, and it does
where it had something. -/
theorem mirrors_settle {m : BalanceMap} {utxos : List Utxo} (hm : Mirrors m utxos) {ch : Choice}
    (hch : ch.Sensible utxos) {tx : Txn} (hsource : tx.sourceAddr = ch.spend.addr)
    (hdest : tx.destAddr = ch.recv.addr) (hchng : tx.changeAddr = ch.change.addr)
    (hamount : tx.amount = ch.amount) :
    Mirrors (tx.applied m) (ch.settle utxos) ↔ ch.change.amount = 0 := by
  have happlied (a : HashResult) : BalanceMap.amount (tx.applied m) a =
      if a = ch.spend.addr then 0
      else m.amount a + (if a = ch.recv.addr then ch.amount else 0) +
        (if a = ch.change.addr then m.amount ch.spend.addr - ch.amount else 0) := by
    rw [Txn.amount_applied, hsource, hdest, hchng, hamount]
  have hledger : BalanceMap.amount (tx.applied m) ch.change.addr =
      ch.change.amount + (ch.spend.amount - ch.amount) := by
    rw [happlied, if_neg hch.change_ne, if_neg hch.change_ne_recv, if_pos rfl,
      ← hm _ hch.change, ← hm _ hch.spend, UInt64.add_zero]
  constructor
  · intro hafter
    have hmem : { ch.change with amount := ch.spend.amount - ch.amount } ∈ ch.settle utxos :=
      mem_erase.mpr ⟨mem_assign_self, hch.change_ne⟩
    have heq : ch.spend.amount - ch.amount = ch.change.amount + (ch.spend.amount - ch.amount) :=
      (hafter _ hmem).trans hledger
    simpa using heq
  · intro hzero v hv
    obtain ⟨hvs, hv⟩ := Choice.mem_settle hv
    cases hv with
    | inl hchange =>
      subst hchange
      rw [hledger, hzero, UInt64.zero_add]
    | inr hv =>
      obtain ⟨hvg, hv⟩ := hv
      rw [happlied, if_neg hvs, if_neg hvg, UInt64.add_zero]
      cases hv with
      | inl hrecv =>
        subst hrecv
        rw [if_pos rfl, ← hm _ hch.recv]
      | inr hold =>
        rw [if_neg hold.2, UInt64.add_zero]
        exact hm v hold.1

/-! ## What a turn does when it comes to its end -/

theorem addUtxos_mirrors {minUtxos k : Nat} {st st' : GenState} {m : BalanceMap}
    (h : addUtxos c w minUtxos k st = .ok st') (ho : AllOwned c w st.keys m st.utxos) :
    ∃ utxos keys, st' = { st with utxos, keys } ∧ AllOwned c w keys m utxos ∧
      (Mirrors m utxos ↔ Mirrors m st.utxos) := by
  induction k generalizing st with
  | zero => cases h
  | succ k ih =>
    unfold addUtxos at h
    by_cases hlt : st.utxos.length < minUtxos
    · simp only [if_pos hlt] at h
      split_ifs at h with hany
      have hfresh : (Utxo.make c (w.keys st.keys)).addr ∉ st.utxos.map Utxo.addr :=
        fun hmem => hany (any_addr_iff.mpr hmem)
      rw [assign_new hfresh] at h
      obtain ⟨utxos, keys, rfl, howned, hmirrors⟩ := ih h (ho.cons hfresh)
      exact ⟨utxos, keys, rfl, howned, hmirrors.trans (ho.mirrors_cons hfresh)⟩
    · rw [if_neg hlt] at h
      obtain rfl := Except.ok.inj h
      exact ⟨st.utxos, st.keys, rfl, ho, Iff.rfl⟩

/-- The block under construction and the wallet beside it. -/
structure Accounted (c : Crypto) (w : World) (rewardAddr : HashResult) (st : GenState)
    (block : Block) : Prop where
  owned : AllOwned c w st.keys block.balances st.utxos
  applied : Body.applyTransactions c block.transactions (block.resetBalances st.heap) =
    .ok (true, block.balances)
  reward : block.rewardAddr = rewardAddr

theorem spendTurn_break {rewardAddr : HashResult} {st st' : GenState} {block : Block}
    (h : spendTurn c w numTxns rewardAddr st block = .ok (none, st')) :
    ∃ rands traversals, st' = { st with rands, traversals } := by
  obtain ⟨⟨choice, st₁⟩, hchoose, h⟩ := Except.bind_eq_ok.mp h
  cases choice with
  | none =>
    obtain ⟨-, rfl⟩ := Prod.mk.inj (Except.ok.inj h)
    exact (choose_ok hchoose).1
  | some ch =>
    obtain ⟨valid, -, h⟩ := Except.bind_eq_ok.mp h
    obtain ⟨⟨added, block'⟩, -, h⟩ := Except.bind_eq_ok.mp h
    obtain ⟨st₂, -, h⟩ := Except.bind_eq_ok.mp h
    cases Except.ok.inj h

/-- A turn that pays leaves the wallet the mirror of the ledger exactly where the change
address had nothing. -/
theorem spendTurn_mirrors (hv : World.Verifies c w) {rewardAddr : HashResult} {st st' : GenState}
    {block block' : Block} (ha : Accounted c w rewardAddr st block)
    (hm : Mirrors block.balances st.utxos)
    (h : spendTurn c w numTxns rewardAddr st block = .ok (some block', st')) :
    Accounted c w rewardAddr st' block' ∧
      ∃ ch st₁, choose w rewardAddr st = .ok (some ch, st₁) ∧
        (Mirrors block'.balances st'.utxos ↔ ch.change.amount = 0) := by
  obtain ⟨⟨choice, st₁⟩, hchoose, h⟩ := Except.bind_eq_ok.mp h
  obtain ⟨⟨rands, traversals, rfl⟩, hsensible⟩ := choose_ok hchoose
  cases choice with
  | none => cases Except.ok.inj h
  | some ch =>
    obtain ⟨hch, -⟩ := hsensible ch rfl
    obtain ⟨k, -, hkey, haddr⟩ := ha.owned.own ch.spend hch.spend
    have hverify := hv k
    rw [← hkey] at hverify
    have hauth : (createTxn c ch.spend ch.recv ch.change ch.amount).Authorised c :=
      Txn.authorised_make hch.positive haddr.symm hverify _ _
    have hcovered : ch.amount ≤ block.balances.amount ch.spend.addr := by
      rw [← hm _ hch.spend]
      exact hch.held
    have havail : (createTxn c ch.spend ch.recv ch.change ch.amount).balanceAvailable
        block.balances = true := (Txn.balanceAvailable_iff_amount hauth.positive).mpr hcovered
    simp only [Txn.validate_eq_true.mpr hauth, Except.ok_bind,
      Block.addTransaction_accept hauth havail] at h
    obtain ⟨st₂, hfill, h⟩ := Except.bind_eq_ok.mp h
    obtain ⟨hblock, rfl⟩ := Prod.mk.inj (Except.ok.inj h)
    obtain rfl := Option.some.inj hblock
    have howned : AllOwned c w st.keys
        ((createTxn c ch.spend ch.recv ch.change ch.amount).applied block.balances)
        (ch.settle st.utxos) := ha.owned.settle hch rfl rfl rfl
    have hsettled : Mirrors
        ((createTxn c ch.spend ch.recv ch.change ch.amount).applied block.balances)
        (ch.settle st.utxos) ↔ ch.change.amount = 0 := mirrors_settle hm hch rfl rfl rfl rfl
    obtain ⟨utxos, keys, rfl, hfilled, hmirrors⟩ := addUtxos_mirrors hfill howned
    refine ⟨⟨hfilled, ?_, ha.reward⟩, ch, _, hchoose, hmirrors.trans hsettled⟩
    exact Body.applyTransactions_concat ha.applied hauth havail

/-! ## Runs -/

/-- The start of a turn of the main loop: the wallet is filled up and the reward address is
drawn. -/
def startBlock (c : Crypto) (w : World) (numTxns : Nat) (st : GenState) :
    Except Abort (HashResult × GenState) := do
  let st ← ensureMinUtxos c w numTxns st
  let cnt := (w.rand st.rands).val % st.utxos.length
  match (w.order st.traversals st.utxos)[cnt]? with
  | none => throw .outOfBounds
  | some rewardPos =>
    return (rewardPos.addr, { st with rands := st.rands + 1, traversals := st.traversals + 1 })

/-- The loop that adds transactions to one of the first `len` blocks has made `k` turns. -/
inductive Building (c : Crypto) (w : World) (len numTxns : Nat) (rewardAddr : HashResult) :
    Nat → GenState → Block → Prop
  | start {n : Nat} {st st' : GenState} {p : Ptr} (later : n ≠ 0) (inside : n < len)
      (run : createChainAndWrite c w n numTxns = .ok st)
      (reward : startBlock c w numTxns st = .ok (rewardAddr, st')) (prev : st'.prevBlock = some p) :
      Building c w len numTxns rewardAddr 0 st' { Block.ofPrev st'.heap p with rewardAddr }
  | turn {k : Nat} {st st' : GenState} {block block' : Block}
      (built : Building c w len numTxns rewardAddr k st block) (left : k < numTxns)
      (paid : spendTurn c w numTxns rewardAddr st block = .ok (some block', st')) :
      Building c w len numTxns rewardAddr (k + 1) st' block'

theorem startBlock_mirrors {st st' : GenState} {rewardAddr : HashResult}
    (h : startBlock c w numTxns st = .ok (rewardAddr, st'))
    (ho : AllOwned c w st.keys st.ledger st.utxos) :
    st'.ledger = st.ledger ∧ AllOwned c w st'.keys st'.ledger st'.utxos ∧
      (Mirrors st'.ledger st'.utxos ↔ Mirrors st.ledger st.utxos) := by
  obtain ⟨st₁, hfill, h⟩ := Except.bind_eq_ok.mp h
  obtain ⟨utxos, keys, hst₁, howned, hmirrors⟩ := addUtxos_mirrors hfill ho
  cases hpick : (w.order st₁.traversals st₁.utxos)[(w.rand st₁.rands).val % st₁.utxos.length]? with
  | none =>
    simp only [hpick] at h
    cases h
  | some rewardPos =>
    simp only [hpick] at h
    obtain ⟨-, rfl⟩ := Prod.mk.inj (Except.ok.inj h)
    subst hst₁
    exact ⟨rfl, howned, hmirrors⟩

theorem blockTurn_ok {n : Nat} {st st' : GenState} (h : blockTurn c w numTxns st n = .ok st') :
    ∃ rewardAddr st₁ block, startBlock c w numTxns st = .ok (rewardAddr, st₁) ∧
      ((n = 0 ∧ createCoinbase c st₁.heap rewardAddr = .ok block ∧
          finishBlock n rewardAddr st₁ block = .ok st') ∨
        (n ≠ 0 ∧ ∃ p st₂, st₁.prevBlock = some p ∧
          createBlock c w numTxns rewardAddr p st₁ = .ok (st₂, block) ∧
          finishBlock n rewardAddr st₂ block = .ok st')) := by
  obtain ⟨st₁, hfill, h⟩ := Except.bind_eq_ok.mp h
  cases hpick : (w.order st₁.traversals st₁.utxos)[(w.rand st₁.rands).val % st₁.utxos.length]? with
  | none =>
    simp only [hpick] at h
    cases h
  | some rewardPos =>
    simp only [hpick] at h
    have hstart : startBlock c w numTxns st = .ok (rewardPos.addr,
        { st₁ with rands := st₁.rands + 1, traversals := st₁.traversals + 1 }) := by
      simp only [startBlock, hfill, Except.ok_bind, hpick, Except.pure_eq_ok]
    by_cases hzero : n = 0
    · rw [if_pos hzero] at h
      obtain ⟨block, hcoinbase, hfinish⟩ := Except.bind_eq_ok.mp h
      exact ⟨_, _, block, hstart, .inl ⟨hzero, hcoinbase, hfinish⟩⟩
    · rw [if_neg hzero] at h
      split at h
      · cases h
      · rename_i p hp
        obtain ⟨⟨st₂, block⟩, hcreate, hfinish⟩ := Except.bind_eq_ok.mp h
        exact ⟨_, _, block, hstart, .inr ⟨hzero, p, st₂, hp, hcreate, hfinish⟩⟩

/-- The reward is entered on both sides. -/
theorem AllOwned.reward {n : Nat} {m : BalanceMap} {utxos : List Utxo}
    (h : AllOwned c w n m utxos) (hm : Mirrors m utxos) {u : Utxo} (hu : u ∈ utxos) :
    AllOwned c w n (m.credit u.addr blockReward)
        (assign utxos { u with amount := u.amount + blockReward }) ∧
      Mirrors (m.credit u.addr blockReward)
        (assign utxos { u with amount := u.amount + blockReward }) := by
  refine ⟨⟨h.toOwned.assign hu rfl rfl, fun a ha => ?_⟩, fun v hv => ?_⟩
  · rw [addrs_assign (u := { u with amount := u.amount + blockReward }) hu rfl]
    by_cases haddr : a = u.addr
    · exact haddr ▸ List.mem_map_of_mem hu
    · rw [BalanceMap.amount_credit, if_neg haddr] at ha
      exact h.known a ha
  · rw [BalanceMap.amount_credit]
    cases mem_assign hv with
    | inl hnew =>
      subst hnew
      rw [if_pos rfl, ← hm u hu]
    | inr hold =>
      rw [if_neg hold.2]
      exact hm v hold.1

theorem finishBlock_mirrors {n : Nat} {rewardAddr : HashResult} {st st' : GenState} {block : Block}
    {m : BalanceMap} (h : finishBlock n rewardAddr st block = .ok st')
    (ho : AllOwned c w st.keys m st.utxos) (hm : Mirrors m st.utxos)
    (hb : block.balances = m.credit rewardAddr blockReward) :
    AllOwned c w st'.keys st'.ledger st'.utxos ∧ Mirrors st'.ledger st'.utxos := by
  obtain ⟨bytes, -, h⟩ := Except.bind_eq_ok.mp h
  cases hfind : st.utxos.find? fun u => u.addr = rewardAddr with
  | none =>
    simp only [hfind] at h
    cases h
  | some u =>
    simp only [hfind] at h
    obtain rfl := Except.ok.inj h
    have haddr : u.addr = rewardAddr := by simpa using List.find?_some hfind
    have hledger : (st.heap.set ⟨0, n⟩ block ⟨0, n⟩).balances = m.credit u.addr blockReward := by
      rw [Heap.set_self, hb, haddr]
    simp only [GenState.ledger, hledger]
    exact ho.reward hm (List.mem_of_find?_eq_some hfind)

theorem createCoinbase_balances {heap : Heap} {rewardAddr : HashResult} {block : Block}
    (h : createCoinbase c heap rewardAddr = .ok block) :
    block.balances = BalanceMap.credit ∅ rewardAddr blockReward := by
  have hvalid : ({ Block.new with rewardAddr }.setHash c).validate c heap = .ok (true, _) :=
    Block.validate_setHash { Block.new with rewardAddr } rfl (Block.resetBalances_none rfl)
  simp only [createCoinbase, hvalid, Except.ok_bind] at h
  obtain rfl := Except.ok.inj h
  rfl

theorem createBlock_balances {rewardAddr : HashResult} {p : Ptr} {st st' : GenState} {block : Block}
    (h : createBlock c w numTxns rewardAddr p st = .ok (st', block)) :
    ∃ block₁, spendLoop c w numTxns rewardAddr numTxns st
        { Block.ofPrev st.heap p with rewardAddr } = .ok (st', block₁) ∧
      (Accounted c w rewardAddr st' block₁ →
        block.balances = block₁.balances.credit rewardAddr blockReward) := by
  obtain ⟨⟨st₁, block₁⟩, hloop, h⟩ := Except.bind_eq_ok.mp h
  obtain ⟨coinbase, -, h⟩ := Except.bind_eq_ok.mp h
  cases coinbase with
  | true => cases h
  | false =>
    obtain ⟨⟨valid, block'⟩, hvalid, h⟩ := Except.bind_eq_ok.mp h
    cases valid with
    | false => cases h
    | true =>
      obtain ⟨rfl, rfl⟩ := Prod.mk.inj (Except.ok.inj h)
      refine ⟨block₁, hloop, fun ha => ?_⟩
      rw [Block.validate_setHash block₁ ha.applied rfl] at hvalid
      obtain ⟨-, rfl⟩ := Prod.mk.inj (Except.ok.inj hvalid)
      rw [← ha.reward]

theorem Accounted.start {rewardAddr : HashResult} {p : Ptr} {st : GenState}
    (ho : AllOwned c w st.keys (st.heap p).balances st.utxos) :
    Accounted c w rewardAddr st { Block.ofPrev st.heap p with rewardAddr } where
  owned := ho
  applied := rfl
  reward := rfl

theorem createChainAndWrite_succ (n : Nat) : createChainAndWrite c w (n + 1) numTxns =
    createChainAndWrite c w n numTxns >>= fun st => blockTurn c w numTxns st n := by
  simp only [createChainAndWrite, List.range_succ, List.foldlM_append, List.foldlM_cons,
    List.foldlM_nil, bind_pure]

section Runs

variable {len : Nat} (hv : World.Verifies c w)
  (hturn : ∀ {rewardAddr k st block block' st'}, Building c w len numTxns rewardAddr k st block →
    k < numTxns → spendTurn c w numTxns rewardAddr st block = .ok (some block', st') →
    Accounted c w rewardAddr st block → Mirrors block.balances st.utxos →
    Mirrors block'.balances st'.utxos)

include hv hturn

/-- The rest of the loop keeps what every turn keeps. -/
theorem Building.spendLoop {rewardAddr : HashResult} {k j : Nat} {st st' : GenState}
    {block block' : Block} (hb : Building c w len numTxns rewardAddr k st block)
    (ha : Accounted c w rewardAddr st block) (hm : Mirrors block.balances st.utxos)
    (hj : k + j ≤ numTxns) (h : spendLoop c w numTxns rewardAddr j st block = .ok (st', block')) :
    Accounted c w rewardAddr st' block' ∧ Mirrors block'.balances st'.utxos := by
  induction j generalizing k st block with
  | zero =>
    obtain ⟨rfl, rfl⟩ := Prod.mk.inj (Except.ok.inj h)
    exact ⟨ha, hm⟩
  | succ j ih =>
    obtain ⟨⟨paid, st₁⟩, hpaid, h⟩ := Except.bind_eq_ok.mp h
    cases paid with
    | none =>
      obtain ⟨rfl, rfl⟩ := Prod.mk.inj (Except.ok.inj h)
      obtain ⟨rands, traversals, rfl⟩ := spendTurn_break hpaid
      exact ⟨⟨ha.owned, ha.applied, ha.reward⟩, hm⟩
    | some block₁ =>
      obtain ⟨ha', -⟩ := spendTurn_mirrors hv ha hm hpaid
      exact ih (hb.turn (by omega) hpaid) ha' (hturn hb (by omega) hpaid ha hm) (by omega) h

theorem run_mirrors {n : Nat} (hn : n ≤ len) {st : GenState}
    (h : createChainAndWrite c w n numTxns = .ok st) :
    AllOwned c w st.keys st.ledger st.utxos ∧ Mirrors st.ledger st.utxos := by
  induction n generalizing st with
  | zero =>
    obtain rfl := Except.ok.inj h
    exact ⟨.nil, fun u hu => absurd hu List.not_mem_nil⟩
  | succ n ih =>
    rw [createChainAndWrite_succ] at h
    obtain ⟨st₀, hrun, h⟩ := Except.bind_eq_ok.mp h
    obtain ⟨ho, hm⟩ := ih (by omega) hrun
    obtain ⟨rewardAddr, st₁, block, hstart, hblock⟩ := blockTurn_ok h
    obtain ⟨hsame, ho₁, hm₁⟩ := startBlock_mirrors hstart ho
    cases hblock with
    | inl hfirst =>
      obtain ⟨rfl, hcoinbase, hfinish⟩ := hfirst
      obtain rfl := Except.ok.inj hrun
      rw [hsame] at ho₁ hm₁
      exact finishBlock_mirrors hfinish ho₁ (hm₁.mpr hm) (createCoinbase_balances hcoinbase)
    | inr hlater =>
      obtain ⟨hne, p, st₂, hp, hcreate, hfinish⟩ := hlater
      obtain ⟨block₁, hloop, hbalances⟩ := createBlock_balances hcreate
      have hledger := GenState.ledger_some hp
      rw [hledger] at ho₁ hm₁
      obtain ⟨ha, hmirrors⟩ := Building.spendLoop hv hturn (.start hne (by omega) hrun hstart hp)
        (Accounted.start ho₁) (hm₁.mpr hm) (by omega) hloop
      exact finishBlock_mirrors hfinish ha.owned hmirrors (hbalances ha)

theorem Building.mirrors {rewardAddr : HashResult} {k : Nat} {st : GenState} {block : Block}
    (hb : Building c w len numTxns rewardAddr k st block) :
    Accounted c w rewardAddr st block ∧ Mirrors block.balances st.utxos := by
  induction hb with
  | start later inside run reward prev =>
    obtain ⟨ho, hm⟩ := run_mirrors hv hturn inside.le run
    obtain ⟨-, ho₁, hm₁⟩ := startBlock_mirrors reward ho
    have hledger := GenState.ledger_some prev
    rw [hledger] at ho₁ hm₁
    exact ⟨.start ho₁, hm₁.mpr hm⟩
  | turn built left paid ih =>
    obtain ⟨ha, hm⟩ := ih
    exact ⟨(spendTurn_mirrors hv ha hm paid).1, hturn built left paid ha hm⟩

end Runs

end Genchain

open Genchain

/-- The wallet mirrors the ledger behind every block and between the transactions of every
block, exactly in the runs where no payment finds something at its change address. -/
theorem wallet_mirrors_ledger {c : Crypto} {w : World} (hv : World.Verifies c w)
    (len numTxns : Nat) :
    ((∀ n ≤ len, ∀ st, createChainAndWrite c w n numTxns = .ok st → Mirrors st.ledger st.utxos) ∧
      ∀ rewardAddr k st block, Building c w len numTxns rewardAddr k st block →
        Mirrors block.balances st.utxos) ↔
    ∀ rewardAddr k st block ch st₁ block' st', Building c w len numTxns rewardAddr k st block →
      k < numTxns → choose w rewardAddr st = .ok (some ch, st₁) →
      spendTurn c w numTxns rewardAddr st block = .ok (some block', st') →
      ch.change.amount = 0 := by
  constructor
  · rintro ⟨-, hall⟩ rewardAddr k st block ch st₁ block' st' hb hk hchoose hpaid
    obtain ⟨ha, hm⟩ := Building.mirrors hv
      (fun hb hk hpaid _ _ => hall _ _ _ _ (hb.turn hk hpaid)) hb
    obtain ⟨-, ch', st₁', hchoose', hiff⟩ := spendTurn_mirrors hv ha hm hpaid
    obtain ⟨hch, -⟩ := Prod.mk.inj (Except.ok.inj (hchoose.symm.trans hchoose'))
    obtain rfl := Option.some.inj hch
    exact hiff.mp (hall _ _ _ _ (hb.turn hk hpaid))
  · intro hzero
    have hturn {rewardAddr : HashResult} {k : Nat} {st st' : GenState} {block block' : Block}
        (hb : Building c w len numTxns rewardAddr k st block) (hk : k < numTxns)
        (hpaid : spendTurn c w numTxns rewardAddr st block = .ok (some block', st'))
        (ha : Accounted c w rewardAddr st block) (hm : Mirrors block.balances st.utxos) :
        Mirrors block'.balances st'.utxos := by
      obtain ⟨-, ch, st₁, hchoose, hiff⟩ := spendTurn_mirrors hv ha hm hpaid
      exact hiff.mpr (hzero _ _ _ _ _ _ _ _ hb hk hchoose hpaid)
    exact ⟨fun n hn st hrun => (run_mirrors hv hturn hn hrun).2,
      fun _ _ _ _ hb => (Building.mirrors hv hturn hb).2⟩

/-- Two blocks, each with three addresses at least. -/
theorem wallet_mirrors_ledger_two : World.Verifies .numbered .numbered ∧
    (((∀ n ≤ 2, ∀ st, createChainAndWrite .numbered .numbered n 3 = .ok st →
        Mirrors st.ledger st.utxos) ∧
      ∀ rewardAddr k st block, Building .numbered .numbered 2 3 rewardAddr k st block →
        Mirrors block.balances st.utxos) ↔
    ∀ rewardAddr k st block ch st₁ block' st',
      Building .numbered .numbered 2 3 rewardAddr k st block → k < 3 →
      choose .numbered rewardAddr st = .ok (some ch, st₁) →
      spendTurn .numbered .numbered 3 rewardAddr st block = .ok (some block', st') →
      ch.change.amount = 0) := by
  have hv : World.Verifies .numbered .numbered := fun _ _ => rfl
  exact ⟨hv, wallet_mirrors_ledger hv 2 3⟩

/-- Behind the second block the wallet has 103 where the ledger has 199. -/
theorem change_overwrites_balance : ¬ ∀ (c : Crypto) (w : World), World.Verifies c w →
    ∀ len numTxns, 3 ≤ numTxns → numTxns ≤ 64 →
      (∀ n ≤ len, ∀ st, createChainAndWrite c w n numTxns = .ok st →
        Mirrors st.ledger st.utxos) ∧
      ∀ rewardAddr k st block, Building c w len numTxns rewardAddr k st block →
        Mirrors block.balances st.utxos := by
  intro h
  have hrun : (createChainAndWrite .numbered .numbered 2 3).toOption.map
      (fun st => decide (Mirrors st.ledger st.utxos)) = some false := by decide +kernel
  obtain ⟨st, hst, hdiffers⟩ := Option.map_eq_some_iff.mp hrun
  have hok : createChainAndWrite .numbered .numbered 2 3 = .ok st := by
    cases hexcept : createChainAndWrite .numbered .numbered 2 3 with
    | error _ =>
      rw [hexcept] at hst
      cases hst
    | ok st' =>
      rw [hexcept] at hst
      rw [Option.some.inj hst]
  have hv : World.Verifies .numbered .numbered := fun _ _ => rfl
  exact of_decide_eq_false hdiffers ((h _ _ hv 2 3 le_rfl (by decide)).1 2 le_rfl st hok)

end Bootcamp
