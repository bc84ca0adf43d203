import Bootcamp.Blockchain.Transaction
import Bootcamp.Lib.Chains
import Mathlib.Data.Prod.Lex

/-! Blocks, on file and in memory. `Body` has the fields that are written and
hashed; `Block` adds what a program computes about a block. Objects live on a
heap and `shared_ptr`s are addresses, since blocks share their predecessors
and the indexed readers relink them. -/
namespace Bootcamp

def blockReward : UInt64 := 100

def maxTransactions : Nat := 64

structure Body where
  rewardAddr : HashResult
  transactions : List Txn
  prevHash : HashResult
  blkHash : HashResult
  deriving DecidableEq

/-- The allocating thread and a serial number within it. -/
structure Ptr where
  thread : Nat
  serial : Nat
  deriving DecidableEq, Repr

/-- Some order of addresses, for the sets and maps that are keyed by them. -/
instance : LinearOrder Ptr :=
  LinearOrder.lift' (fun p => toLex (p.thread, p.serial)) fun p q h => by
    cases p
    cases q
    simpa using h

structure Block extends Body where
  balances : BalanceMap
  length : UInt32
  prevBlock : Option Ptr
  deriving DecidableEq

/-- `block_t()`: no transactions, every hash zero. -/
def Block.new : Block where
  rewardAddr := .zero
  transactions := []
  prevHash := .zero
  blkHash := .zero
  balances := ∅
  length := 1
  prevBlock := none

/-- An address that holds no object reads as a new block. -/
abbrev Heap := Ptr → Block

def Heap.empty : Heap := fun _ => .new

def Heap.set (heap : Heap) (p : Ptr) (blk : Block) : Heap :=
  fun q => if q = p then blk else heap q

@[simp] theorem Heap.set_self (heap : Heap) (p : Ptr) (blk : Block) : heap.set p blk p = blk := by
  simp [Heap.set]

theorem Heap.set_of_ne (heap : Heap) {p q : Ptr} (blk : Block) (h : q ≠ p) :
    heap.set p blk q = heap q := by
  simp [Heap.set, h]

/-- The `prev_block` pointers. -/
abbrev Heap.prev (heap : Heap) (p : Ptr) : Option Ptr := (heap p).prevBlock

/-- Where every block is one longer than its predecessor, a length counts a
chain, up to its 32 bits. -/
theorem Heap.length_of_chain {heap : Heap} {S : Ptr → Prop}
    (first : ∀ x, S x → heap.prev x = none → (heap x).length = 1)
    (linked : ∀ x q, S x → heap.prev x = some q → S q ∧ (heap x).length = (heap q).length + 1)
    {x : Ptr} {l : List Ptr} (hl : Chains.Chain heap.prev x l) (hx : S x) :
    (heap x).length = UInt32.ofNat l.length := by
  induction hl with
  | last hnone => exact first _ hx hnone
  | link hsome _ ih =>
    obtain ⟨hq, hlen⟩ := linked _ _ hx hsome
    rw [hlen, ih hq, List.length_cons, UInt32.ofNat_add]
    rfl

abbrev BlockMap := OrderedMap HashResult Ptr

/-! ## Validation -/

namespace Body

/-- `compute_block_hash` hashes the transaction hashes, the reward address
and the previous hash, one behind the other. -/
def preimage (b : Body) : Bytes :=
  b.transactions.flatMap (fun tx => tx.txHash.bytes) ++ b.rewardAddr.bytes ++ b.prevHash.bytes

/-- The transaction loop of `block_t::validate`. A rejected transaction leaves
the balances as the ones before it made them. -/
def applyTransactions (c : Crypto) : List Txn → BalanceMap → Except Abort (Bool × BalanceMap)
  | [], balances => .ok (true, balances)
  | tx :: txs, balances => do
    let valid ← tx.validate c
    if !valid then return (false, balances)
    if !tx.balanceAvailable balances then return (false, balances)
    let balances ← tx.updateBalances balances
    applyTransactions c txs balances

/-- The checks of `block_t::validate` from the balances of the predecessor. -/
def validate (c : Crypto) (b : Body) (balances : BalanceMap) : Except Abort (Bool × BalanceMap) := do
  let (valid, balances) ← applyTransactions c b.transactions balances
  if !valid then return (false, balances)
  let balances := BalanceMap.credit balances b.rewardAddr blockReward
  return (c.sha256 b.preimage = b.blkHash, balances)

end Body

namespace Block

def resetBalances (heap : Heap) (blk : Block) : BalanceMap :=
  match blk.prevBlock with
  | some p => (heap p).balances
  | none => ∅

theorem resetBalances_none {heap : Heap} {blk : Block} (h : blk.prevBlock = none) :
    blk.resetBalances heap = ∅ := by
  simp only [resetBalances, h]

theorem resetBalances_some {heap : Heap} {blk : Block} {p : Ptr} (h : blk.prevBlock = some p) :
    blk.resetBalances heap = (heap p).balances := by
  simp only [resetBalances, h]

/-- A validation as a method: it takes over the balances of the predecessor and
leaves in the block what it made of them, whatever the verdict. -/
def validateBy (check : Body → BalanceMap → Except Abort (Bool × BalanceMap)) (heap : Heap)
    (blk : Block) : Except Abort (Bool × Block) := do
  let (valid, balances) ← check blk.toBody (blk.resetBalances heap)
  return (valid, { blk with balances })

/-- `block_t::validate`. -/
def validate (c : Crypto) (heap : Heap) (blk : Block) : Except Abort (Bool × Block) :=
  blk.validateBy (Body.validate c) heap

/-- The loop over the bytes of `prev_hash`, then two assertions. -/
def isCoinbase (blk : Block) : Except Abort Bool :=
  if blk.prevHash ≠ .zero then .ok false
  else if blk.prevBlock ≠ none then .error .assertion
  else if blk.length ≠ 1 then .error .assertion
  else .ok true

theorem isCoinbase_of_ne {blk : Block} (hz : blk.prevHash ≠ .zero) :
    blk.isCoinbase = .ok false := by
  simp [isCoinbase, hz]

/-- `set_prev_block` with a pointer that is not NULL. -/
def setPrevBlock (heap : Heap) (blk : Block) (p : Ptr) : Block :=
  { blk with prevBlock := some p, length := (heap p).length + 1, balances := (heap p).balances }

end Block

/-! ## Encoding -/

namespace Body

def size (b : Body) : Nat :=
  4 + 32 + 32 + 32 + (b.transactions.map Txn.size).sum

/-- The transactions one after the other, as the loop of `write` puts them out. -/
def writeTransactions : List Txn → Except Abort Bytes
  | [] => .ok []
  | tx :: txs => do return (← tx.write) ++ (← writeTransactions txs)

def write (b : Body) : Except Abort Bytes := do
  let txCount := b.transactions.length
  if ¬ txCount ≤ maxTransactions then throw .assertion
  return bytes32 txCount ++ b.rewardAddr.bytes ++ b.prevHash.bytes ++ b.blkHash.bytes ++
    (← writeTransactions b.transactions)

/-- The transaction loop of `read`: `k` iterations remain, `blkSz` bytes are left. -/
def readTransactions : Nat → Bytes → Nat → Except Abort (Option (List Txn × Bytes × Nat))
  | 0, data, blkSz => .ok (some ([], data, blkSz))
  | k + 1, data, blkSz => do
    match ← Txn.read data blkSz with
    | none => return none
    | some (txSz, tx) =>
      match ← readTransactions k (data.drop txSz) (blkSz - txSz) with
      | none => return none
      | some (txs, data, blkSz) => return some (tx :: txs, data, blkSz)

/-- `block_t::read` from memory, up to the search for the predecessor. The
loop compares a counter with `tx_count` for inequality, so it makes `tx_count`
iterations modulo 2^32: a negative count runs until a transaction does not
parse. `none` is the return of 0. -/
def read (data : Bytes) (blkSz : Nat) : Except Abort (Option (Nat × Body)) := do
  let dataStart := data
  let blkSzStart := blkSz
  let headerSz := 4 + 32 + 32 + 32
  if blkSz < headerSz then return none
  let (txCount, data) ← loadUInt32 data
  let (rewardAddr, data) ← loadHash data
  let (prevHash, data) ← loadHash data
  let (blkHash, data) ← loadHash data
  let blkSz := blkSz - headerSz
  match ← readTransactions txCount.toNat data blkSz with
  | none => return none
  | some (transactions, data, blkSz) =>
    let s1 := dataStart.length - data.length
    let s2 := blkSzStart - blkSz
    if s1 ≠ s2 then throw .assertion
    return some (s1, { rewardAddr, transactions, prevHash, blkHash })

end Body

namespace Block

/-- The end of `block_t::read`: a new block with the fields just read looks
for its predecessor. -/
def attach (heap : Heap) (bmap : BlockMap) (b : Body) : Except Abort Block := do
  let blk : Block := { Block.new with toBody := b }
  if ← blk.isCoinbase then return blk
  match bmap.find? b.prevHash with
  | some p => return blk.setPrevBlock heap p
  | none => return { blk with prevBlock := none, balances := ∅ }

/-- `block_t::read` on a block fresh from `new block_t()`. -/
def read (data : Bytes) (blkSz : Nat) (heap : Heap) (bmap : BlockMap) :
    Except Abort (Option (Nat × Block)) := do
  match ← Body.read data blkSz with
  | none => return none
  | some (n, b) => return some (n, ← attach heap bmap b)

end Block

end Bootcamp
