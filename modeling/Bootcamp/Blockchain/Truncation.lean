import Bootcamp.Blockchain.Stream

/-! Balance maps from a stream, and what the stream readers say of transactions and maps that
are cut short. -/
namespace Bootcamp

/-! ## Balance maps -/

/-- The loop of `read_balance_map`, `k` entries to go; `amt` is what stands in the local
variable of each turn. -/
def readEntriesStream (amt : Nat → UInt64) :
    Nat → IStream → BalanceMap → Bool × BalanceMap × IStream
  | 0, s, bals => (true, bals, s)
  | k + 1, s, bals =>
    let (addr, s) := s.readHash
    let (a, s) := s.readUInt64 (amt k)
    if s.bad then (false, bals, s) else readEntriesStream amt k s (bals.insert addr a)

/-- `read_balance_map` from a stream. Its size is unsigned, so the test for a negative one
never holds. -/
def readBalanceMapStream (amt : Nat → UInt64) (s : IStream) : Bool × BalanceMap × IStream :=
  let (size, s) := s.readUInt32 0
  if s.bad then (false, ∅, s) else readEntriesStream amt size.toNat s ∅

theorem readEntriesStream_writeEntry (amt : Nat → UInt64) (es : List (HashResult × UInt64))
    (rest : Bytes) (bals : BalanceMap) :
    readEntriesStream amt es.length ⟨es.flatMap writeEntry ++ rest, false⟩ bals =
      (true, bals.store es, ⟨rest, false⟩) := by
  induction es generalizing bals with
  | nil => rfl
  | cons e es ih =>
    simp only [List.length_cons, List.flatMap_cons, writeEntry, List.append_assoc,
      readEntriesStream, IStream.readHash_append, IStream.readUInt64_append, IStream.bad,
      Bool.false_eq_true, if_false]
    exact ih (bals.insert e.1 e.2)

theorem readBalanceMapStream_write (amt : Nat → UInt64) {bals : BalanceMap}
    (h : bals.size < 2 ^ 32) (rest : Bytes) :
    readBalanceMapStream amt ⟨writeBalanceMap bals ++ rest, false⟩ =
      (true, bals, ⟨rest, false⟩) := by
  have hn : (UInt32.ofNat bals.size).toNat = bals.entries.length := UInt32.toNat_ofNat_of_lt' h
  have hsize : (⟨writeBalanceMap bals ++ rest, false⟩ : IStream).readUInt32 0 =
      (UInt32.ofNat bals.size, ⟨bals.entries.flatMap writeEntry ++ rest, false⟩) := by
    rw [writeBalanceMap, List.append_assoc]
    exact IStream.read_append (loadUInt32_append _ _) _ _
  simp only [readBalanceMapStream, hsize, IStream.bad, Bool.false_eq_true, if_false, hn,
    readEntriesStream_writeEntry, OrderedMap.store_entries]

/-- A map of less than 2^32 entries takes `balance_map_size` bytes. From these bytes alone both
readers give it back, and so they do whatever follows; the stream stands behind the map then. -/
theorem balance_map_round_trip {bals : BalanceMap} (h : bals.size < 2 ^ 32) (amt : Nat → UInt64)
    (rest : Bytes) :
    (writeBalanceMap bals).length = balanceMapSize bals ∧
      readBalanceMap (writeBalanceMap bals) = .ok bals ∧
      readBalanceMap (writeBalanceMap bals ++ rest) = .ok bals ∧
      readBalanceMapStream amt ⟨writeBalanceMap bals ++ rest, false⟩ =
        (true, bals, ⟨rest, false⟩) := by
  have halone := readBalanceMap_write h []
  rw [List.append_nil] at halone
  exact ⟨length_writeBalanceMap bals, halone, readBalanceMap_write h rest,
    readBalanceMapStream_write amt h rest⟩

/-- Two addresses, one of them with 0. -/
def twoEntries : BalanceMap := BalanceMap.credit (BalanceMap.credit ∅ (.ofNat 1) 0) (.ofNat 2) 100

theorem balance_map_round_trip_two : twoEntries.size < 2 ^ 32 ∧
    (writeBalanceMap twoEntries).length = balanceMapSize twoEntries ∧
      readBalanceMap (writeBalanceMap twoEntries) = .ok twoEntries ∧
      readBalanceMap (writeBalanceMap twoEntries ++ [7]) = .ok twoEntries ∧
      readBalanceMapStream (fun _ => 0) ⟨writeBalanceMap twoEntries ++ [7], false⟩ =
        (true, twoEntries, ⟨[7], false⟩) := by
  have hsize : twoEntries.size < 2 ^ 32 := by decide
  exact ⟨hsize, balance_map_round_trip hsize _ _⟩

/-- No bytes make the stream reader of maps return false. -/
theorem readBalanceMapStream_true (amt : Nat → UInt64) (s : IStream) :
    (readBalanceMapStream amt s).1 = true := by
  have hloop (k : Nat) (s : IStream) (bals : BalanceMap) :
      (readEntriesStream amt k s bals).1 = true := by
    induction k generalizing s bals with
    | zero => rfl
    | succ k ih =>
      simp only [readEntriesStream, IStream.bad, Bool.false_eq_true, if_false]
      exact ih _ _
  simp only [readBalanceMapStream, IStream.bad, Bool.false_eq_true, if_false]
  exact hloop _ _ _

/-! ## Transactions -/

/-- What stands in `pubkey_sz` behind its read: the bytes that came, in front of those that
were there. -/
def keyLeft (old : Indeterminate) (data : Bytes) : Int :=
  asInt (overwriteUInt32 (data.take 4) old.pubkeySz)

/-- What stands in `sign_sz`. -/
def signLeft (old : Indeterminate) (data : Bytes) : Int :=
  asInt (overwriteUInt32 ((data.drop 4).take 4) old.signSz)

/-- The sizes that are left pass the checks. -/
def SizesPass (old : Indeterminate) (data : Bytes) : Prop :=
  (0 ≤ keyLeft old data ∧ keyLeft old data < 1024) ∧
    0 ≤ signLeft old data ∧ signLeft old data ≤ 1024

instance (old : Indeterminate) (data : Bytes) : Decidable (SizesPass old data) :=
  inferInstanceAs (Decidable ((0 ≤ keyLeft old data ∧ keyLeft old data < 1024) ∧
    0 ≤ signLeft old data ∧ signLeft old data ≤ 1024))

theorem overwriteUInt32_nil (old : UInt32) : overwriteUInt32 [] old = old := by
  have hdecode : LittleEndian.decode (bytes32 old.toNat) = old.toNat :=
    LittleEndian.decode_encode_of_lt (w := 4) old.toNat_lt
  simp [overwriteUInt32, overwrite, hdecode]

theorem IStream.readInt_fst (old : UInt32) (data : Bytes) :
    ((⟨data, false⟩ : IStream).readInt old).1 = asInt (overwriteUInt32 (data.take 4) old) := by
  by_cases h4 : 4 ≤ data.length
  · have hload : loadInt data =
        .ok (asInt (.ofNat (LittleEndian.decode (data.take 4))), data.drop 4) := by
      simp only [loadInt, loadUInt32, load_drop h4, Except.ok_bind, Except.pure_eq_ok]
    have hall : overwrite (data.take 4) (bytes32 old.toNat) = data.take 4 := by
      simp [overwrite, h4]
    rw [readInt, read_append hload, overwriteUInt32, hall]
  · have hload : loadInt data = .error .outOfBounds := by
      simp only [loadInt, loadUInt32, load_short (Nat.lt_of_not_le h4), Except.error_bind]
    rw [List.take_of_length_le (by omega)]
    simp [readInt, read, hload]

namespace Txn

/-- The sizes decide what `read` returns, and nothing else does. -/
theorem readStream_fst (old : Indeterminate) (data : Bytes) :
    (readStream old ⟨data, false⟩).1 = true ↔ SizesPass old data := by
  have hkey : ((⟨data, false⟩ : IStream).readInt old.pubkeySz).1 = keyLeft old data := by
    rw [keyLeft, IStream.readInt_fst]
  have hsign : ((⟨data, false⟩ : IStream).skip 4 |>.readInt old.signSz).1 = signLeft old data := by
    rw [IStream.skip_good, signLeft]
    split_ifs with h4
    · exact IStream.readInt_fst _ _
    · rw [List.drop_of_length_le (by omega), List.take_nil, overwriteUInt32_nil]
      simp only [IStream.readInt, IStream.read, if_true]
  rw [← IStream.readInt_snd old.pubkeySz] at hsign
  unfold readStream
  rcases hr : (⟨data, false⟩ : IStream).readInt old.pubkeySz with ⟨pubkeySz, s₁⟩
  rw [hr] at hkey hsign
  rcases hr' : s₁.readInt old.signSz with ⟨signSz, s₂⟩
  rw [hr'] at hsign
  simp only at hkey hsign
  simp only [hr', SizesPass, hkey, hsign]
  by_cases hk : keyLeft old data < 0 ∨ keyLeft old data ≥ 1024
  · rw [if_pos hk]
    simp only [Bool.false_eq_true, false_iff]
    omega
  · rw [if_neg hk]
    by_cases hs : signLeft old data < 0 ∨ signLeft old data > 1024
    · rw [if_pos hs]
      simp only [Bool.false_eq_true, false_iff]
      omega
    · rw [if_neg hs]
      simp only [IStream.bad, Bool.not_false, true_iff]
      omega

/-- With eight bytes of a transaction that was written the sizes are its own. -/
theorem Writable.sizesPass {tx : Txn} (h : tx.Writable) {p : Bytes} (hp : p <+: tx.encoding)
    (h8 : 8 ≤ p.length) (old : Indeterminate) : SizesPass old p := by
  have hk := h.key_lt
  have hs := h.sign_lt
  have htake (n : Nat) (hn : n ≤ 8) : p.take n = tx.encoding.take n := by
    obtain ⟨rest, hrest⟩ := hp
    rw [← hrest, List.take_append_of_le_length (by omega)]
  obtain ⟨tail, htail⟩ : ∃ tail, tx.encoding =
      bytes32 tx.publicKey.length ++ (bytes32 tx.txSign.length ++ tail) :=
    ⟨bytes64 tx.amount ++ (tx.publicKey ++ (tx.sourceAddr.bytes ++ (tx.destAddr.bytes ++
      (tx.changeAddr.bytes ++ (tx.txHash.bytes ++ tx.txSign))))),
      by simp only [encoding, List.append_assoc]⟩
  have hkey : keyLeft old p = tx.publicKey.length := by
    rw [keyLeft, htake 4 (by omega), ← IStream.readInt_fst, htail,
      IStream.readInt_append (by omega)]
  have hsign : signLeft old p = tx.txSign.length := by
    have hdrop : (p.drop 4).take 4 = (tx.encoding.drop 4).take 4 := by
      rw [List.take_drop, List.take_drop, htake 8 (by omega)]
    rw [signLeft, hdrop, ← IStream.readInt_fst, htail, List.drop_left' (length_bytes32 _),
      IStream.readInt_append (by omega)]
  rw [SizesPass, hkey, hsign]
  omega

end Txn

/-- The front of a transaction is refused exactly where it does not reach the end of the sizes
and what was in the variables makes one of them bad; the front of a map never is. -/
theorem truncated_rejected_iff {tx : Txn} {bs p : Bytes} (hwrite : tx.write = .ok bs)
    (hp : p <+: bs) (old : Indeterminate) :
    ((Txn.readStream old ⟨p, false⟩).1 = false ↔ p.length < 8 ∧ ¬ SizesPass old p) ∧
      ∀ (bals : BalanceMap) (q : Bytes), q <+: writeBalanceMap bals →
        ∀ amt, (readBalanceMapStream amt ⟨q, false⟩).1 ≠ false := by
  obtain ⟨hw, rfl⟩ := Txn.write_eq_ok.mp hwrite
  constructor
  · rw [← Bool.not_eq_true, Txn.readStream_fst]
    constructor
    · intro hbad
      refine ⟨?_, hbad⟩
      by_contra h8
      exact hbad (hw.sizesPass hp (by omega) old)
    · exact And.right
  · intro bals q _ amt
    rw [readBalanceMapStream_true]
    decide

/-- Garbage in the sign bit, and three bytes of the signature's size. -/
theorem truncated_rejected_iff_seven : ∃ bs, spend.write = .ok bs ∧ bs.take 7 <+: bs ∧
    ((Txn.readStream ⟨0, 0x80000000, 0⟩ ⟨bs.take 7, false⟩).1 = false ↔
      (bs.take 7).length < 8 ∧ ¬ SizesPass ⟨0, 0x80000000, 0⟩ (bs.take 7)) ∧
    ∀ (bals : BalanceMap) (q : Bytes), q <+: writeBalanceMap bals →
      ∀ amt, (readBalanceMapStream amt ⟨q, false⟩).1 ≠ false := by
  have hwrite : spend.write = .ok spend.encoding := Txn.write_eq_ok.mpr ⟨by decide, rfl⟩
  have hp : spend.encoding.take 7 <+: spend.encoding := List.take_prefix _ _
  exact ⟨_, hwrite, hp, truncated_rejected_iff hwrite hp _⟩

/-- The sizes and the amount alone pass for a transaction, and the count alone for a map. -/
theorem truncated_accepted :
    (¬ ∀ (tx : Txn) (bs p : Bytes) (old : Indeterminate), tx.write = .ok bs → p <+: bs → p ≠ bs →
      (Txn.readStream old ⟨p, false⟩).1 = false) ∧
    ¬ ∀ (bals : BalanceMap) (q : Bytes) (amt : Nat → UInt64), bals ≠ ∅ →
      q <+: writeBalanceMap bals → q ≠ writeBalanceMap bals →
      (readBalanceMapStream amt ⟨q, false⟩).1 = false := by
  constructor
  · intro h
    have hwrite : spend.write = .ok spend.encoding := Txn.write_eq_ok.mpr ⟨by decide, rfl⟩
    have hfalse := h spend _ (spend.encoding.take 16) ⟨0, 0, 0⟩ hwrite (List.take_prefix _ _)
      (by decide)
    revert hfalse
    decide
  · intro h
    have hfalse := h twoEntries ((writeBalanceMap twoEntries).take 4) (fun _ => 0) (by decide)
      (List.take_prefix _ _) (by decide)
    revert hfalse
    decide

end Bootcamp
