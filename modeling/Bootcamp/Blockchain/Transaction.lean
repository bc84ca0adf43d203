import Bootcamp.Blockchain.Types
import Bootcamp.Lib.OrderedMap

/-! Transactions: their checks, their effect on a balance map, their encoding.
The `valid` flag is what `validate` returns and nothing else reads it, so it is
not a field. -/
namespace Bootcamp

abbrev BalanceMap := OrderedMap HashResult UInt64

namespace BalanceMap

/-- What an address owns; an absent one owns nothing. -/
def amount (m : BalanceMap) (a : HashResult) : UInt64 := (m.find? a).getD 0

/-- `balances[a] += v`; `operator[]` makes a missing entry 0 first. -/
def credit (m : BalanceMap) (a : HashResult) (v : UInt64) : BalanceMap :=
  m.insert a (m.amount a + v)

@[simp] theorem amount_empty (a : HashResult) : amount ∅ a = 0 := rfl

theorem amount_credit (m : BalanceMap) (a b : HashResult) (v : UInt64) :
    (m.credit a v).amount b = if b = a then m.amount a + v else m.amount b := by
  simp only [amount, credit, OrderedMap.find_insert]
  split <;> rfl

theorem amount_erase (m : BalanceMap) (a b : HashResult) :
    amount (m.erase a) b = if b = a then 0 else m.amount b := by
  simp only [amount, OrderedMap.find_erase]
  split <;> rfl

end BalanceMap

structure Txn where
  publicKey : Bytes
  sourceAddr : HashResult
  destAddr : HashResult
  changeAddr : HashResult
  amount : UInt64
  txHash : HashResult
  txSign : Bytes
  deriving DecidableEq

namespace Txn

/-- The bytes whose SHA-256 is the transaction's hash. -/
def preimage (tx : Txn) : Bytes :=
  tx.publicKey ++ tx.sourceAddr.bytes ++ tx.destAddr.bytes ++ tx.changeAddr.bytes ++
    bytes64 tx.amount

/-- `txn_t::validate`. The size checks of the addresses and of the hash
compare `SIZE` with itself. -/
def validate (c : Crypto) (tx : Txn) : Except Abort Bool :=
  if tx.amount ≤ 0 then .ok false
  else if c.sha256 tx.publicKey ≠ tx.sourceAddr then .ok false
  else
    let hash := c.sha256 tx.preimage
    if tx.txHash ≠ hash then .ok false
    else c.verify tx.publicKey hash.bytes tx.txSign

def balanceAvailable (tx : Txn) (balances : BalanceMap) : Bool :=
  match balances.find? tx.sourceAddr with
  | none => false
  | some held => tx.amount ≤ held

def updateBalances (tx : Txn) (balances : BalanceMap) : Except Abort BalanceMap :=
  match balances.find? tx.sourceAddr with
  | none => .error .assertion
  | some held =>
    if held < tx.amount then .error .assertion
    else
      let change := held - tx.amount
      let balances := BalanceMap.credit balances tx.destAddr tx.amount
      let balances := BalanceMap.credit balances tx.changeAddr change
      .ok (balances.erase tx.sourceAddr)

/-- What a transaction that passed `validate` has proved about itself. -/
structure Authorised (c : Crypto) (tx : Txn) : Prop where
  positive : 0 < tx.amount
  owner : c.sha256 tx.publicKey = tx.sourceAddr
  hashed : tx.txHash = c.sha256 tx.preimage
  signed : c.verify tx.publicKey tx.txHash.bytes tx.txSign = .ok true

theorem validate_eq_true {c : Crypto} {tx : Txn} :
    tx.validate c = .ok true ↔ tx.Authorised c := by
  unfold validate
  constructor
  · intro h
    by_cases hpos : tx.amount ≤ 0
    · rw [if_pos hpos] at h; cases h
    · rw [if_neg hpos] at h
      by_cases howner : c.sha256 tx.publicKey = tx.sourceAddr
      · by_cases hhash : tx.txHash = c.sha256 tx.preimage
        · rw [if_neg (not_not.mpr howner), if_neg (not_not.mpr hhash), ← hhash] at h
          exact ⟨UInt64.not_le.mp hpos, howner, hhash, h⟩
        · simp [howner, hhash] at h
      · simp [howner] at h
  · rintro ⟨hpos, howner, hhash, hsign⟩
    rw [if_neg (UInt64.not_le.mpr hpos), if_neg (not_not.mpr howner), if_neg (not_not.mpr hhash),
      ← hhash]
    exact hsign

theorem balanceAvailable_iff {tx : Txn} {m : BalanceMap} :
    tx.balanceAvailable m = true ↔ ∃ v, m.find? tx.sourceAddr = some v ∧ tx.amount ≤ v := by
  unfold balanceAvailable
  cases m.find? tx.sourceAddr <;> simp

/-- A positive amount cannot tell an absent source from an empty one. -/
theorem balanceAvailable_iff_amount {tx : Txn} {m : BalanceMap} (hpos : 0 < tx.amount) :
    tx.balanceAvailable m = true ↔ tx.amount ≤ m.amount tx.sourceAddr := by
  simp only [balanceAvailable, BalanceMap.amount]
  cases m.find? tx.sourceAddr with
  | none => simpa using UInt64.ne_of_lt hpos |>.symm
  | some v => simp

/-- The map after a covered transaction. -/
def applied (tx : Txn) (m : BalanceMap) : BalanceMap :=
  ((m.credit tx.destAddr tx.amount).credit tx.changeAddr
    (m.amount tx.sourceAddr - tx.amount)).erase tx.sourceAddr

theorem updateBalances_eq {tx : Txn} {m : BalanceMap} (h : tx.balanceAvailable m = true) :
    tx.updateBalances m = .ok (tx.applied m) := by
  obtain ⟨v, hv, hle⟩ := balanceAvailable_iff.mp h
  have hlt : ¬ v < tx.amount := UInt64.not_lt.mpr hle
  have hamount : m.amount tx.sourceAddr = v := by simp [BalanceMap.amount, hv]
  simp only [updateBalances, hv, if_neg hlt, applied, hamount]

/-- Who owns what after a covered transaction: the source nothing, whichever
of the other two addresses it is. -/
theorem amount_applied (tx : Txn) (m : BalanceMap) (a : HashResult) :
    BalanceMap.amount (tx.applied m) a =
      if a = tx.sourceAddr then 0
      else m.amount a + (if a = tx.destAddr then tx.amount else 0) +
        (if a = tx.changeAddr then m.amount tx.sourceAddr - tx.amount else 0) := by
  simp only [applied, BalanceMap.amount_erase, BalanceMap.amount_credit]
  by_cases hsrc : a = tx.sourceAddr
  · simp [hsrc]
  · by_cases hd : a = tx.destAddr <;> by_cases hc : a = tx.changeAddr <;> grind

/-! ## Encoding -/

def size (tx : Txn) : Nat :=
  4 + 4 + 8 + tx.publicKey.length + 32 + 32 + 32 + 32 + tx.txSign.length

/-- `txn_t::write`: what goes to the stream, after its two assertions. -/
def write (tx : Txn) : Except Abort Bytes :=
  let pubkeySz := tx.publicKey.length
  if ¬ (0 < pubkeySz ∧ pubkeySz < 1024) then .error .assertion
  else
    let signSz := tx.txSign.length
    if ¬ (0 < signSz ∧ signSz < 1024) then .error .assertion
    else .ok (bytes32 pubkeySz ++ bytes32 signSz ++ bytes64 tx.amount ++ tx.publicKey ++
      tx.sourceAddr.bytes ++ tx.destAddr.bytes ++ tx.changeAddr.bytes ++ tx.txHash.bytes ++
      tx.txSign)

/-- `txn_t::read` from memory; `none` is its return of 0. -/
def read (buffer : Bytes) (bufsz : Nat) : Except Abort (Option (Nat × Txn)) := do
  let bufferStart := buffer
  let hdrSz := 4 + 4 + 8
  if bufsz < hdrSz then return none
  let (pubkeySz, buffer) ← loadInt buffer
  let (signSz, buffer) ← loadInt buffer
  let (amount, buffer) ← loadUInt64 buffer
  if pubkeySz < 0 ∨ pubkeySz ≥ 1024 then return none
  if signSz < 0 ∨ signSz > 1024 then return none
  let bodySz := pubkeySz.toNat + 32 + 32 + 32 + 32 + signSz.toNat
  let txSz := hdrSz + bodySz
  if bufsz < txSz then return none
  let (publicKey, buffer) ← load pubkeySz.toNat buffer
  let (sourceAddr, buffer) ← loadHash buffer
  let (destAddr, buffer) ← loadHash buffer
  let (changeAddr, buffer) ← loadHash buffer
  let (txHash, buffer) ← loadHash buffer
  let (txSign, buffer) ← load signSz.toNat buffer
  if bufferStart.length - buffer.length ≠ txSz then throw .assertion
  return some (txSz, { publicKey, sourceAddr, destAddr, changeAddr, amount, txHash, txSign })

/-- The encoding of a transaction `write` accepts. -/
def encoding (tx : Txn) : Bytes :=
  bytes32 tx.publicKey.length ++ bytes32 tx.txSign.length ++ bytes64 tx.amount ++ tx.publicKey ++
    tx.sourceAddr.bytes ++ tx.destAddr.bytes ++ tx.changeAddr.bytes ++ tx.txHash.bytes ++ tx.txSign

/-- What `write` asserts. -/
structure Writable (tx : Txn) : Prop where
  key_pos : 0 < tx.publicKey.length
  key_lt : tx.publicKey.length < 1024
  sign_pos : 0 < tx.txSign.length
  sign_lt : tx.txSign.length < 1024

instance (tx : Txn) : Decidable tx.Writable :=
  decidable_of_iff ((0 < tx.publicKey.length ∧ tx.publicKey.length < 1024) ∧
      0 < tx.txSign.length ∧ tx.txSign.length < 1024)
    ⟨fun h => ⟨h.1.1, h.1.2, h.2.1, h.2.2⟩,
      fun h => ⟨⟨h.key_pos, h.key_lt⟩, h.sign_pos, h.sign_lt⟩⟩

theorem write_eq_ok {tx : Txn} {bs : Bytes} :
    tx.write = .ok bs ↔ tx.Writable ∧ bs = tx.encoding := by
  simp only [write, encoding]
  constructor
  · intro h
    split_ifs at h with hkey hsign
    exact ⟨⟨hkey.1, hkey.2, hsign.1, hsign.2⟩, (Except.ok.inj h).symm⟩
  · rintro ⟨⟨hk, hk', hs, hs'⟩, rfl⟩
    rw [if_neg (not_not.mpr ⟨hk, hk'⟩), if_neg (not_not.mpr ⟨hs, hs'⟩)]

@[simp] theorem length_encoding (tx : Txn) : tx.encoding.length = tx.size := by
  simp only [encoding, size, List.length_append, length_bytes32, length_bytes64,
    HashResult.size_eq]

/-- What `read` checks: an empty key or signature passes, and so does a signature of
1024 bytes. -/
structure Readable (tx : Txn) : Prop where
  key_lt : tx.publicKey.length < 1024
  sign_le : tx.txSign.length ≤ 1024

theorem Writable.readable {tx : Txn} (h : tx.Writable) : tx.Readable := ⟨h.key_lt, h.sign_lt.le⟩

/-- Reading behind the encoding of a transaction gives it back, whatever follows and
however much is claimed to follow. -/
theorem Readable.read_encoding {tx : Txn} (h : tx.Readable) (rest : Bytes) {bufsz : Nat}
    (hsz : tx.size ≤ bufsz) : read (tx.encoding ++ rest) bufsz = .ok (some (tx.size, tx)) := by
  obtain ⟨hk, hs⟩ := h
  have hhdr : ¬ bufsz < 4 + 4 + 8 := by simp only [size] at hsz; omega
  have hkey : ¬ ((tx.publicKey.length : Int) < 0 ∨ (tx.publicKey.length : Int) ≥ 1024) := by omega
  have hsign : ¬ ((tx.txSign.length : Int) < 0 ∨ (tx.txSign.length : Int) > 1024) := by omega
  have hbody : ¬ bufsz <
      4 + 4 + 8 + (tx.publicKey.length + 32 + 32 + 32 + 32 + tx.txSign.length) := by
    simp only [size] at hsz; omega
  have hread : (tx.encoding ++ rest).length - rest.length =
      4 + 4 + 8 + (tx.publicKey.length + 32 + 32 + 32 + 32 + tx.txSign.length) := by
    rw [List.length_append, length_encoding, size]; omega
  have hsize : tx.size =
      4 + 4 + 8 + (tx.publicKey.length + 32 + 32 + 32 + 32 + tx.txSign.length) := by
    rw [size]; omega
  simp only [encoding, List.append_assoc] at hread
  rw [hsize]
  simp only [read, if_neg hhdr, encoding, List.append_assoc,
    loadInt_append _ (show tx.publicKey.length < 2 ^ 31 by omega),
    loadInt_append _ (show tx.txSign.length < 2 ^ 31 by omega), Except.ok_bind, loadUInt64_append,
    if_neg hkey, if_neg hsign, Int.toNat_natCast, if_neg hbody, load_append _ rfl, loadHash_append,
    Except.pure_eq_ok]
  rw [if_neg (not_not.mpr hread)]

end Txn

end Bootcamp
