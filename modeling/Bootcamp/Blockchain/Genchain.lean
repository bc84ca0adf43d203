import Bootcamp.Blockchain.Builder

/-! The generator of chains. It keeps a wallet of keys with the amounts that it believes to
be theirs, makes transactions out of it at random and writes block after block. -/
namespace Bootcamp

/-- An object of the wallet; its key pair belongs to `addr`. -/
structure Utxo where
  key : KeyPair
  addr : HashResult
  amount : UInt64

/-- The constructor of `utxo_t`. -/
def Utxo.make (c : Crypto) (key : KeyPair) : Utxo := ⟨key, c.sha256 key.keyDER, 0⟩

/-- What the generator does not decide: the results of `rand`, the keys that are generated,
and the order in which each traversal of the wallet goes. -/
structure World where
  rand : Nat → Fin (2 ^ 31)
  keys : Nat → KeyPair
  order : Nat → List Utxo → List Utxo
  order_perm : ∀ n utxos, (order n utxos).Perm utxos

/-- The variables of `create_chain_and_write`, and how far the world has been used. A
wallet has each object under its own address, and is traversed in the order of the world.
Nothing reads `chain` and `added`, the blocks written and the results of
`add_transaction`. -/
structure GenState where
  utxos : List Utxo
  heap : Heap
  prevBlock : Option Ptr
  out : Bytes
  chain : List Body
  added : List Bool
  rands : Nat
  keys : Nat
  traversals : Nat

def GenState.start : GenState := ⟨[], .empty, none, [], [], [], 0, 0, 0⟩

namespace Genchain

/-- `utxos[u.addr] = u`. -/
def assign (utxos : List Utxo) (u : Utxo) : List Utxo :=
  if utxos.any (fun v => v.addr = u.addr) then utxos.map fun v => if v.addr = u.addr then u else v
  else u :: utxos

def erase (utxos : List Utxo) (addr : HashResult) : List Utxo :=
  utxos.filter fun v => v.addr ≠ addr

/-- The first object from `begin()` that satisfies `p`. -/
def search (w : World) (st : GenState) (p : Utxo → Bool) : Option Utxo × GenState :=
  ((w.order st.traversals st.utxos).find? p, { st with traversals := st.traversals + 1 })

/-- `create_coinbase`. -/
def createCoinbase (c : Crypto) (heap : Heap) (addr : HashResult) : Except Abort Block := do
  let coinbase : Block := { Block.new with rewardAddr := addr }
  let coinbase := coinbase.setHash c
  let (valid, coinbase) ← coinbase.validate c heap
  if !valid then throw .assertion
  return coinbase

def findSpendable (w : World) (st : GenState) (rewardAddr : HashResult) : Option Utxo × GenState :=
  search w st fun u => 0 < u.amount && u.addr ≠ rewardAddr

def createTxn (c : Crypto) (snd rcv chng : Utxo) (amt : UInt64) : Txn :=
  .make c snd.key snd.key.keyDER snd.addr rcv.addr chng.addr amt

/-- The loop of `ensure_min_utxos`, with the turns it has left. -/
def addUtxos (c : Crypto) (w : World) (minUtxos : Nat) : Nat → GenState → Except Abort GenState
  | 0, _ => .error .diverges
  | k + 1, st =>
    if st.utxos.length < minUtxos then
      let utxo := Utxo.make c (w.keys st.keys)
      if st.utxos.any (fun v => v.addr = utxo.addr) then .error .assertion
      else addUtxos c w minUtxos k
        { st with utxos := assign st.utxos utxo, keys := st.keys + 1 }
    else .ok st

def ensureMinUtxos (c : Crypto) (w : World) (minUtxos : Nat) (st : GenState) :
    Except Abort GenState :=
  addUtxos c w minUtxos (minUtxos + 1) st

/-- The random amount, with the draws that are left. The loop that draws again starts for
no `int`: only a `rand` of 2^64 - 1 would make the sum zero. -/
def drawAmount (w : World) (held : UInt64) : Nat → GenState → Except Abort (UInt64 × GenState)
  | 0, _ => .error .diverges
  | k + 1, st =>
    let amount := UInt64.ofNat (w.rand st.rands) % held + 1
    let st := { st with rands := st.rands + 1 }
    if amount = 0 then drawAmount w held k st else .ok (amount, st)

/-- What a transaction is made of. -/
structure Choice where
  spend : Utxo
  recv : Utxo
  change : Utxo
  amount : UInt64

/-- The choices at the beginning of a turn of the loop that adds transactions; none of them
is its `break`. -/
def choose (w : World) (rewardAddr : HashResult) (st : GenState) :
    Except Abort (Option Choice × GenState) := do
  let (spendPos, st) := findSpendable w st rewardAddr
  match spendPos with
  | none => return (none, st)
  | some spend =>
    let (recv, st) := search w st fun u => u.addr ≠ spend.addr
    match recv with
    | none => throw .assertion
    | some recv =>
      let (change, st) := search w st fun u => u.addr ≠ spend.addr && u.addr ≠ recv.addr
      match change with
      | none => throw .assertion
      | some change =>
        let (amount, st) ← drawAmount w spend.amount 2 st
        return (some { spend, recv, change, amount }, st)

/-- The wallet behind a payment. -/
def Choice.settle (ch : Choice) (utxos : List Utxo) : List Utxo :=
  let recv := { ch.recv with amount := ch.recv.amount + ch.amount }
  let change := { ch.change with amount := ch.spend.amount - ch.amount }
  erase (assign (assign utxos recv) change) ch.spend.addr

/-- One turn, for `block`. What `validate` and `add_transaction` return is not looked at. -/
def spendTurn (c : Crypto) (w : World) (numTxns : Nat) (rewardAddr : HashResult)
    (st : GenState) (block : Block) : Except Abort (Option Block × GenState) := do
  let (choice, st) ← choose w rewardAddr st
  match choice with
  | none => return (none, st)
  | some ch =>
    let txn := createTxn c ch.spend ch.recv ch.change ch.amount
    let _ ← txn.validate c
    let (added, block) ← block.addTransaction c txn true
    let st ← ensureMinUtxos c w numTxns
      { st with utxos := ch.settle st.utxos, added := st.added ++ [added] }
    return (some block, st)

/-- The loop, with the turns it has left. -/
def spendLoop (c : Crypto) (w : World) (numTxns : Nat) (rewardAddr : HashResult) :
    Nat → GenState → Block → Except Abort (GenState × Block)
  | 0, st, block => .ok (st, block)
  | k + 1, st, block => do
    match ← spendTurn c w numTxns rewardAddr st block with
    | (none, st) => return (st, block)
    | (some block, st) => spendLoop c w numTxns rewardAddr k st block

/-- A block behind `p`. -/
def createBlock (c : Crypto) (w : World) (numTxns : Nat) (rewardAddr : HashResult) (p : Ptr)
    (st : GenState) : Except Abort (GenState × Block) := do
  let block := { Block.ofPrev st.heap p with rewardAddr }
  let (st, block) ← spendLoop c w numTxns rewardAddr numTxns st block
  let block := block.setHash c
  if ← block.isCoinbase then throw .assertion
  let (valid, block) ← block.validate c st.heap
  if !valid then throw .assertion
  return (st, block)

/-- The end of a turn: the block is written and its reward entered in the wallet. -/
def finishBlock (blockIndex : Nat) (rewardAddr : HashResult) (st : GenState) (block : Block) :
    Except Abort GenState := do
  let bytes ← block.toBody.write
  let it : Ptr := ⟨0, blockIndex⟩
  match st.utxos.find? fun u => u.addr = rewardAddr with
  | none => throw .nullPointer
  | some u =>
    let u := { u with amount := u.amount + blockReward }
    return { st with utxos := assign st.utxos u, heap := st.heap.set it block, prevBlock := some it,
                     out := st.out ++ bytes, chain := st.chain ++ [block.toBody] }

/-- One turn of the main loop. Block `i` of the chain lives at `⟨0, i⟩`. -/
def blockTurn (c : Crypto) (w : World) (numTxns : Nat) (st : GenState) (blockIndex : Nat) :
    Except Abort GenState := do
  let st ← ensureMinUtxos c w numTxns st
  let cnt := (w.rand st.rands).val % st.utxos.length
  let utxos := w.order st.traversals st.utxos
  let st := { st with rands := st.rands + 1, traversals := st.traversals + 1 }
  match utxos[cnt]? with
  | none => throw .outOfBounds
  | some rewardPos =>
    let rewardAddr := rewardPos.addr
    if blockIndex = 0 then
      let block ← createCoinbase c st.heap rewardAddr
      finishBlock blockIndex rewardAddr st block
    else
      match st.prevBlock with
      | none => throw .nullPointer
      | some p =>
        let (st, block) ← createBlock c w numTxns rewardAddr p st
        finishBlock blockIndex rewardAddr st block

def createChainAndWrite (c : Crypto) (w : World) (len numTxns : Nat) : Except Abort GenState :=
  (List.range len).foldlM (blockTurn c w numTxns) .start

end Genchain

end Bootcamp
