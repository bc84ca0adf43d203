import Bootcamp.Blockchain.Block
import Bootcamp.Blockchain.Validation

/-! Blocks and balance maps on file: what the writers produce, and that the
buffer readers get it back whatever bytes follow. -/
namespace Bootcamp

namespace Body

/-- What `write` asserts, with what the `write` of each transaction asserts. -/
structure Writable (b : Body) : Prop where
  count : b.transactions.length ≤ maxTransactions
  each : ∀ tx ∈ b.transactions, tx.Writable

instance (b : Body) : Decidable b.Writable :=
  decidable_of_iff (b.transactions.length ≤ maxTransactions ∧ ∀ tx ∈ b.transactions, tx.Writable)
    ⟨fun h => ⟨h.1, h.2⟩, fun h => ⟨h.count, h.each⟩⟩

/-- The encoding of a block `write` accepts. -/
def encoding (b : Body) : Bytes :=
  bytes32 b.transactions.length ++ b.rewardAddr.bytes ++ b.prevHash.bytes ++ b.blkHash.bytes ++
    b.transactions.flatMap Txn.encoding

theorem writeTransactions_eq_ok {txs : List Txn} {bs : Bytes} :
    writeTransactions txs = .ok bs ↔ (∀ tx ∈ txs, tx.Writable) ∧ bs = txs.flatMap Txn.encoding := by
  induction txs generalizing bs with
  | nil =>
    simp only [writeTransactions, Except.ok.injEq, List.flatMap_nil, List.not_mem_nil,
      false_implies, implies_true, true_and]
    exact eq_comm
  | cons tx txs ih =>
    simp only [writeTransactions, Except.pure_eq_ok]
    constructor
    · intro h
      obtain ⟨bs₁, htx, h⟩ := Except.bind_eq_ok.mp h
      obtain ⟨bs₂, htxs, h⟩ := Except.bind_eq_ok.mp h
      obtain ⟨hw, rfl⟩ := Txn.write_eq_ok.mp htx
      obtain ⟨hws, rfl⟩ := ih.mp htxs
      exact ⟨List.forall_mem_cons.mpr ⟨hw, hws⟩, (Except.ok.inj h).symm⟩
    · rintro ⟨hw, rfl⟩
      obtain ⟨htx, htxs⟩ := List.forall_mem_cons.mp hw
      rw [Txn.write_eq_ok.mpr ⟨htx, rfl⟩, Except.ok_bind, ih.mpr ⟨htxs, rfl⟩]
      rfl

theorem write_eq_ok {b : Body} {bs : Bytes} :
    b.write = .ok bs ↔ b.Writable ∧ bs = b.encoding := by
  simp only [write, encoding]
  constructor
  · intro h
    split_ifs at h with hcount
    · obtain ⟨bs', hw, h⟩ := Except.bind_eq_ok.mp h
      obtain ⟨hall, rfl⟩ := writeTransactions_eq_ok.mp hw
      exact ⟨⟨hcount, hall⟩, (Except.ok.inj h).symm⟩
    · cases h
  · rintro ⟨⟨hcount, hall⟩, rfl⟩
    rw [if_neg (not_not.mpr hcount), writeTransactions_eq_ok.mpr ⟨hall, rfl⟩]
    rfl

@[simp] theorem length_encoding (b : Body) : b.encoding.length = b.size := by
  simp only [encoding, size, List.length_append, length_bytes32, HashResult.size_eq,
    List.length_flatMap, Txn.length_encoding]

theorem size_pos (b : Body) : 0 < b.size := by simp [size]

/-- What the buffer reader checks: the count is whatever four bytes hold. -/
structure Readable (b : Body) : Prop where
  count : b.transactions.length < 2 ^ 32
  each : ∀ tx ∈ b.transactions, tx.Readable

theorem Writable.readable {b : Body} (h : b.Writable) : b.Readable where
  count := by
    have := h.count
    rw [maxTransactions] at this
    omega
  each tx htx := (h.each tx htx).readable

theorem readTransactions_encoding {txs : List Txn} (h : ∀ tx ∈ txs, tx.Readable) (rest : Bytes)
    (k : Nat) : readTransactions txs.length (txs.flatMap Txn.encoding ++ rest)
      ((txs.map Txn.size).sum + k) = .ok (some (txs, rest, k)) := by
  induction txs with
  | nil => simp [readTransactions]
  | cons tx txs ih =>
    obtain ⟨htx, htxs⟩ := List.forall_mem_cons.mp h
    have hread := htx.read_encoding (txs.flatMap Txn.encoding ++ rest)
      (show tx.size ≤ tx.size + ((txs.map Txn.size).sum + k) by omega)
    have hdrop : (tx.encoding ++ (txs.flatMap Txn.encoding ++ rest)).drop tx.size =
        txs.flatMap Txn.encoding ++ rest := List.drop_left' tx.length_encoding
    simp only [List.length_cons, List.flatMap_cons, List.append_assoc, List.map_cons,
      List.sum_cons, Nat.add_assoc, readTransactions, hread, Except.ok_bind, hdrop,
      Nat.add_sub_cancel_left, ih htxs, Except.pure_eq_ok]

/-- Reading behind the encoding of a block gives it back, with its `size`. -/
theorem Readable.read_encoding {b : Body} (h : b.Readable) (rest : Bytes) (k : Nat) :
    read (b.encoding ++ rest) (b.size + k) = .ok (some (b.size, b)) := by
  have hhdr : ¬ b.size + k < 4 + 32 + 32 + 32 := by simp only [size]; omega
  have hn : (UInt32.ofNat b.transactions.length).toNat = b.transactions.length :=
    UInt32.toNat_ofNat_of_lt' h.count
  have hleft : b.size + k - (4 + 32 + 32 + 32) = (b.transactions.map Txn.size).sum + k := by
    simp only [size]; omega
  have hread : (b.encoding ++ rest).length - rest.length = b.size := by
    rw [List.length_append, length_encoding]; omega
  simp only [encoding, List.append_assoc] at hread
  simp only [read, if_neg hhdr, encoding, List.append_assoc, loadUInt32_append, Except.ok_bind,
    loadHash_append, hn, hleft, readTransactions_encoding h.each, hread, Nat.add_sub_cancel,
    ne_eq, not_true_eq_false, if_false, Except.pure_eq_ok]

theorem writable_emptyBlock (reward : HashResult) (k : Nat) : (emptyBlock reward k).Writable :=
  ⟨Nat.zero_le _, by simp [emptyBlock]⟩

/-! What a parse consumes lies inside what it was given. -/

theorem readTransactions_left {k n n' : Nat} {data data' : Bytes} {txs : List Txn}
    (h : readTransactions k data n = .ok (some (txs, data', n'))) : n' ≤ n := by
  induction k generalizing data n txs with
  | zero =>
    simp only [readTransactions, Except.ok.injEq, Option.some.injEq, Prod.mk.injEq] at h
    exact h.2.2.ge
  | succ k ih =>
    obtain ⟨r, -, h⟩ := Except.bind_eq_ok.mp h
    cases r with
    | none => cases h
    | some p =>
      obtain ⟨r', hr', h⟩ := Except.bind_eq_ok.mp h
      cases r' with
      | none => cases h
      | some q =>
        obtain ⟨txs', data'', left⟩ := q
        simp only [Except.pure_eq_ok, Except.ok.injEq, Option.some.injEq, Prod.mk.injEq] at h
        obtain ⟨-, rfl, rfl⟩ := h
        have hle := ih hr'
        omega

theorem read_consumes {data : Bytes} {blkSz n : Nat} {b : Body}
    (h : read data blkSz = .ok (some (n, b))) : 0 < n ∧ n ≤ blkSz := by
  simp only [read] at h
  split_ifs at h with hhdr
  · cases h
  · obtain ⟨⟨count, d₁⟩, -, h⟩ := Except.bind_eq_ok.mp h
    obtain ⟨⟨reward, d₂⟩, -, h⟩ := Except.bind_eq_ok.mp h
    obtain ⟨⟨prev, d₃⟩, -, h⟩ := Except.bind_eq_ok.mp h
    obtain ⟨⟨blk, d₄⟩, -, h⟩ := Except.bind_eq_ok.mp h
    obtain ⟨r, hr, h⟩ := Except.bind_eq_ok.mp h
    cases r with
    | none => cases h
    | some p =>
      obtain ⟨txs, d₅, left⟩ := p
      have hleft := readTransactions_left hr
      simp only [ne_eq, ite_not] at h
      split_ifs at h with hsz
      · simp only [Except.pure_eq_ok, Except.ok.injEq, Option.some.injEq, Prod.mk.injEq] at h
        omega
      · cases h

end Body

/-! ## Balance maps -/

/-- `balance_map_size`. -/
def balanceMapSize (bals : BalanceMap) : Nat := 4 + bals.size * (32 + 8)

def writeEntry (e : HashResult × UInt64) : Bytes := e.1.bytes ++ bytes64 e.2

/-- `write_balance_map`; the count goes through a `uint32_t`. -/
def writeBalanceMap (bals : BalanceMap) : Bytes :=
  bytes32 bals.size ++ bals.entries.flatMap writeEntry

/-- The loop of `read_balance_map`, `k` entries to go. -/
def readEntries : Nat → Bytes → BalanceMap → Except Abort BalanceMap
  | 0, _, bals => .ok bals
  | k + 1, data, bals => do
    let (addr, data) ← loadHash data
    let (amt, data) ← loadUInt64 data
    readEntries k data (bals.insert addr amt)

def readBalanceMap (data : Bytes) : Except Abort BalanceMap := do
  let (size, data) ← loadUInt32 data
  readEntries size.toNat data ∅

theorem length_writeEntry (e : HashResult × UInt64) : (writeEntry e).length = 32 + 8 := by
  simp [writeEntry]

theorem length_writeBalanceMap (bals : BalanceMap) :
    (writeBalanceMap bals).length = balanceMapSize bals := by
  have hsum : (bals.entries.map fun e => (writeEntry e).length).sum =
      bals.entries.length * (32 + 8) := by
    rw [List.map_congr_left fun e _ => length_writeEntry e, List.map_const', List.sum_replicate,
      smul_eq_mul]
  rw [writeBalanceMap, List.length_append, length_bytes32, List.length_flatMap, hsum]
  rfl

theorem readEntries_writeEntry (es : List (HashResult × UInt64)) (rest : Bytes)
    (bals : BalanceMap) :
    readEntries es.length (es.flatMap writeEntry ++ rest) bals = .ok (bals.store es) := by
  induction es generalizing bals with
  | nil => rfl
  | cons e es ih =>
    simp only [List.length_cons, List.flatMap_cons, writeEntry, List.append_assoc, readEntries,
      loadHash_append, Except.ok_bind, loadUInt64_append]
    exact ih (bals.insert e.1 e.2)

/-- Reading behind a written map gives it back, zero entries included. -/
theorem readBalanceMap_write {bals : BalanceMap} (h : bals.size < 2 ^ 32) (rest : Bytes) :
    readBalanceMap (writeBalanceMap bals ++ rest) = .ok bals := by
  have hn : (UInt32.ofNat bals.size).toNat = bals.entries.length := UInt32.toNat_ofNat_of_lt' h
  simp only [readBalanceMap, writeBalanceMap, List.append_assoc, loadUInt32_append,
    Except.ok_bind, hn, readEntries_writeEntry, OrderedMap.store_entries]

end Bootcamp
