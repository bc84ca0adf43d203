import Bootcamp.Blockchain.Codec

/-! Blocks under construction: signing a transaction, adding it to a block behind another
one, and what makes the finished block valid. -/
namespace Bootcamp

/-- What `generate_rsa_keys` returns: the encoding of the public key, and the signatures of
the private one. -/
structure KeyPair where
  keyDER : Bytes
  sign : Bytes → Bytes

/-- The constructor of `txn_t` that hashes and signs. -/
def Txn.make (c : Crypto) (key : KeyPair) (pubkey : Bytes) (srcAddr dstAddr chngAddr : HashResult)
    (amt : UInt64) : Txn :=
  let tx : Txn := { publicKey := pubkey, sourceAddr := srcAddr, destAddr := dstAddr,
                    changeAddr := chngAddr, amount := amt, txHash := .zero, txSign := [] }
  let txHash := c.sha256 tx.preimage
  { tx with txHash, txSign := key.sign txHash.bytes }

theorem Txn.authorised_make {c : Crypto} {key : KeyPair} {srcAddr : HashResult} {amt : UInt64}
    (hpos : 0 < amt) (howner : c.sha256 key.keyDER = srcAddr)
    (hverify : ∀ blk, c.verify key.keyDER blk (key.sign blk) = .ok true)
    (dstAddr chngAddr : HashResult) :
    (Txn.make c key key.keyDER srcAddr dstAddr chngAddr amt).Authorised c where
  positive := hpos
  owner := howner
  hashed := rfl
  signed := hverify _

namespace Block

/-- The constructor of `block_t` that takes a predecessor. -/
def ofPrev (heap : Heap) (p : Ptr) : Block :=
  { Block.new with length := (heap p).length + 1, prevHash := (heap p).blkHash,
                   prevBlock := some p, balances := (heap p).balances }

def setHash (c : Crypto) (blk : Block) : Block := { blk with blkHash := c.sha256 blk.preimage }

def addTransaction (c : Crypto) (blk : Block) (tx : Txn) (checkTx : Bool) :
    Except Abort (Bool × Block) := do
  if checkTx then
    if !(← tx.validate c) then return (false, blk)
    if !tx.balanceAvailable blk.balances then return (false, blk)
  let blk := { blk with transactions := blk.transactions ++ [tx] }
  if checkTx then
    let balances ← tx.updateBalances blk.balances
    return (true, { blk with balances })
  return (true, blk)

theorem addTransaction_accept {c : Crypto} {blk : Block} {tx : Txn} (hv : tx.Authorised c)
    (ha : tx.balanceAvailable blk.balances = true) :
    blk.addTransaction c tx true = .ok (true, { blk with
      transactions := blk.transactions ++ [tx], balances := tx.applied blk.balances }) := by
  simp only [addTransaction, if_true, Txn.validate_eq_true.mpr hv, Except.ok_bind, Bool.not_true,
    Bool.false_eq_true, if_false, ha, Txn.updateBalances_eq ha, Except.pure_eq_ok]

/-- What `add_transaction` does when it comes back: a transaction is added and applied, or
nothing happens. -/
theorem addTransaction_cases {c : Crypto} {blk blk' : Block} {tx : Txn} {added : Bool}
    (h : blk.addTransaction c tx true = .ok (added, blk')) :
    (added = true ∧ tx.Authorised c ∧ tx.balanceAvailable blk.balances = true ∧
      blk' = { blk with
        transactions := blk.transactions ++ [tx], balances := tx.applied blk.balances }) ∨
    (added = false ∧ blk' = blk) := by
  simp only [addTransaction, if_true] at h
  obtain ⟨valid, hv, h⟩ := Except.bind_eq_ok.mp h
  cases valid with
  | false =>
    obtain ⟨rfl, rfl⟩ := Prod.mk.inj (Except.ok.inj h)
    exact .inr ⟨rfl, rfl⟩
  | true =>
    cases ha : tx.balanceAvailable blk.balances with
    | false =>
      simp only [ha] at h
      obtain ⟨rfl, rfl⟩ := Prod.mk.inj (Except.ok.inj h)
      exact .inr ⟨rfl, rfl⟩
    | true =>
      simp only [Bool.not_true, Bool.false_eq_true, if_false, ha, Txn.updateBalances_eq ha,
        Except.ok_bind, Except.pure_eq_ok] at h
      obtain ⟨rfl, rfl⟩ := Prod.mk.inj (Except.ok.inj h)
      exact .inl ⟨rfl, Txn.validate_eq_true.mp hv, rfl, rfl⟩

/-- One call of `add_transaction` after the other, and what they return. -/
def addTransactions (c : Crypto) : Block → List Txn → Except Abort (List Bool × Block)
  | blk, [] => .ok ([], blk)
  | blk, tx :: txs => do
    let (added, blk) ← blk.addTransaction c tx true
    let (rest, blk) ← addTransactions c blk txs
    return (added :: rest, blk)

end Block

/-- A transaction behind a list that is accepted. -/
theorem Body.applyTransactions_concat {c : Crypto} {txs : List Txn} {tx : Txn} {m m' : BalanceMap}
    (h : applyTransactions c txs m = .ok (true, m')) (hv : tx.Authorised c)
    (ha : tx.balanceAvailable m' = true) :
    applyTransactions c (txs ++ [tx]) m = .ok (true, tx.applied m') := by
  induction txs generalizing m with
  | nil =>
    obtain rfl : m = m' := by simpa [applyTransactions] using h
    exact applyTransactions_cons.mpr ⟨hv, ha, rfl⟩
  | cons t txs ih =>
    obtain ⟨ht, hat, h⟩ := applyTransactions_cons.mp h
    exact applyTransactions_cons.mpr ⟨ht, hat, ih h⟩

/-- A block whose balances are those behind its transactions is valid once it is hashed. -/
theorem Block.validate_setHash (blk : Block) {c : Crypto} {m : BalanceMap} {heap : Heap}
    (h : Body.applyTransactions c blk.transactions m = .ok (true, blk.balances))
    (hm : blk.resetBalances heap = m) :
    Block.validate c heap (blk.setHash c) = .ok (true, { blk.setHash c with
      balances := blk.balances.credit blk.rewardAddr blockReward }) := by
  have hcheck : (blk.setHash c).toBody.validate c m =
      .ok (true, blk.balances.credit blk.rewardAddr blockReward) :=
    Body.validate_eq_true.mpr ⟨blk.balances, h, rfl, rfl⟩
  have hreset : (blk.setHash c).resetBalances heap = m := hm
  simp only [Block.validate, validateBy, hreset, hcheck, Except.ok_bind, Except.pure_eq_ok]

/-- The balances of a block under construction are those behind its transactions, and it
can be written. -/
structure Block.Built (c : Crypto) (m : BalanceMap) (blk : Block) : Prop where
  applied : Body.applyTransactions c blk.transactions m = .ok (true, blk.balances)
  each : ∀ tx ∈ blk.transactions, tx.Writable

namespace Block.Built

variable {c : Crypto} {m : BalanceMap} {blk : Block}

theorem empty (h : blk.transactions = []) (hm : blk.balances = m) : blk.Built c m := by
  refine ⟨?_, ?_⟩
  · rw [h, hm]
    rfl
  · rw [h]
    exact fun _ hmem => absurd hmem List.not_mem_nil

theorem concat (h : blk.Built c m) {tx : Txn} (hv : tx.Authorised c) (hw : tx.Writable)
    (ha : tx.balanceAvailable blk.balances = true) :
    Built c m { blk with
      transactions := blk.transactions ++ [tx], balances := tx.applied blk.balances } where
  applied := Body.applyTransactions_concat h.applied hv ha
  each t ht := by
    cases List.mem_append.mp ht with
    | inl hold => exact h.each t hold
    | inr hnew =>
      rw [List.mem_singleton.mp hnew]
      exact hw

/-- Hashed, the block is valid with its reward. -/
theorem validate (h : blk.Built c m) {heap : Heap} (hm : blk.resetBalances heap = m) :
    Block.validate c heap (blk.setHash c) = .ok (true, { blk.setHash c with
      balances := blk.balances.credit blk.rewardAddr blockReward }) :=
  blk.validate_setHash h.applied hm

end Block.Built

/-! ## The builder and the validator -/

/-- Through any calls the balances stay those behind the transactions, and nothing else of
the block changes. -/
theorem Block.addTransactions_applied {c : Crypto} {m : BalanceMap} {txs : List Txn}
    {blk blk' : Block} {added : List Bool} (h : blk.addTransactions c txs = .ok (added, blk'))
    (happly : Body.applyTransactions c blk.transactions m = .ok (true, blk.balances)) :
    Body.applyTransactions c blk'.transactions m = .ok (true, blk'.balances) ∧
      blk'.prevBlock = blk.prevBlock := by
  induction txs generalizing blk added with
  | nil =>
    obtain ⟨-, rfl⟩ := Prod.mk.inj (Except.ok.inj h)
    exact ⟨happly, rfl⟩
  | cons tx txs ih =>
    obtain ⟨⟨a, blk₁⟩, hcall, h⟩ := Except.bind_eq_ok.mp h
    obtain ⟨⟨rest, blk₂⟩, hrest, h⟩ := Except.bind_eq_ok.mp h
    obtain ⟨-, rfl⟩ := Prod.mk.inj (Except.ok.inj h)
    cases addTransaction_cases hcall with
    | inl hadded =>
      obtain ⟨-, hv, ha, rfl⟩ := hadded
      have hbehind := ih hrest (Body.applyTransactions_concat happly hv ha)
      exact hbehind
    | inr hrejected =>
      obtain ⟨-, rfl⟩ := hrejected
      exact ih hrest happly

/-- However many calls are made on a block behind `p`, a rejected one changes nothing, and
the finished block validates, once and once more, with the balances that were built. -/
theorem builder_validator_agree {c : Crypto} {heap : Heap} {p : Ptr} {txs : List Txn}
    {added : List Bool} {blk : Block}
    (h : (Block.ofPrev heap p).addTransactions c txs = .ok (added, blk)) (reward : HashResult) :
    (∀ (tx : Txn) (before behind : Block),
      before.addTransaction c tx true = .ok (false, behind) → behind = before) ∧
    ∃ blk', Block.validate c heap ({ blk with rewardAddr := reward }.setHash c) = .ok (true, blk') ∧
      blk'.balances = blk.balances.credit reward blockReward ∧
      Block.validate c heap blk' = .ok (true, blk') := by
  have hstart : Body.applyTransactions c (Block.ofPrev heap p).transactions (heap p).balances =
      .ok (true, (Block.ofPrev heap p).balances) := rfl
  obtain ⟨happly, hprev⟩ := Block.addTransactions_applied h hstart
  have hm : { blk with rewardAddr := reward }.resetBalances heap = (heap p).balances :=
    Block.resetBalances_some hprev
  have hvalid := Block.validate_setHash { blk with rewardAddr := reward } happly hm
  refine ⟨fun tx before behind hcall => ?_, _, hvalid, rfl, hvalid⟩
  cases Block.addTransaction_cases hcall with
  | inl hadded => cases hadded.1
  | inr hrejected => exact hrejected.2

/-- A heap that holds a first block, and its balances, at `⟨0, 0⟩`. -/
def firstHeap : Heap := Heap.empty.set ⟨0, 0⟩
  { Block.new with toBody := firstBlock, balances := BalanceMap.credit ∅ (.ofNat 5) 100 }

/-- A payment that is offered twice is added once. -/
theorem payment_offered_twice : ∃ blk,
    (Block.ofPrev firstHeap ⟨0, 0⟩).addTransactions .toy [spend, spend] = .ok ([true, false], blk) ∧
    (∀ (tx : Txn) (before behind : Block),
      before.addTransaction .toy tx true = .ok (false, behind) → behind = before) ∧
    ∃ blk', Block.validate .toy firstHeap ({ blk with rewardAddr := .ofNat 8 }.setHash .toy) =
        .ok (true, blk') ∧
      blk'.balances = blk.balances.credit (.ofNat 8) blockReward ∧
      Block.validate .toy firstHeap blk' = .ok (true, blk') := by
  have hrun : (Block.ofPrev firstHeap ⟨0, 0⟩).addTransactions .toy [spend, spend] =
      .ok ([true, false], { Block.ofPrev firstHeap ⟨0, 0⟩ with
        transactions := [spend], balances := spend.applied (firstHeap ⟨0, 0⟩).balances }) := by decide
  exact ⟨_, hrun, builder_validator_agree hrun (.ofNat 8)⟩

end Bootcamp
