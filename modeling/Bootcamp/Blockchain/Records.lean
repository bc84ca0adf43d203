import Bootcamp.Blockchain.Parsing

/-! The size fields of blocks as they stand in the bytes, before anything is parsed, and
which of them the buffer reader and the writer take. -/
namespace Bootcamp

open LittleEndian (decode)

/-- The four bytes at `pos` as a number; a negative `int` is one of 2^31 at least. -/
def fieldAt (pos : Nat) (data : Bytes) : Nat := decode ((data.drop pos).take 4)

theorem fieldAt_append (pre : Bytes) {n : Nat} (hn : n < 2 ^ 32) (rest : Bytes) :
    fieldAt pre.length (pre ++ (bytes32 n ++ rest)) = n := by
  rw [fieldAt, List.drop_left, List.take_left' (length_bytes32 n), bytes32]
  exact LittleEndian.decode_encode_of_lt (w := 4) (by omega)

theorem fieldAt_bytes32 (n : UInt32) (rest : Bytes) : fieldAt 0 (bytes32 n.toNat ++ rest) = n.toNat :=
  fieldAt_append [] n.toNat_lt rest

theorem fieldAt_drop (m n : Nat) (data : Bytes) : fieldAt m (data.drop n) = fieldAt (n + m) data := by
  rw [fieldAt, fieldAt, List.drop_drop]

/-! ## Transactions -/

/-- The sizes at the front of a transaction pass the checks of both readers. -/
def SaneSizes (data : Bytes) : Prop := fieldAt 0 data < 1024 ∧ fieldAt 4 data ≤ 1024

instance (data : Bytes) : Decidable (SaneSizes data) :=
  inferInstanceAs (Decidable (fieldAt 0 data < 1024 ∧ fieldAt 4 data ≤ 1024))

namespace Txn

theorem keyField_encoding {tx : Txn} (h : tx.Readable) (rest : Bytes) :
    fieldAt 0 (tx.encoding ++ rest) = tx.publicKey.length := by
  have hlt : tx.publicKey.length < 2 ^ 32 := by have := h.key_lt; omega
  simp only [encoding, List.append_assoc]
  exact fieldAt_append [] hlt _

theorem signField_encoding {tx : Txn} (h : tx.Readable) (rest : Bytes) :
    fieldAt 4 (tx.encoding ++ rest) = tx.txSign.length := by
  have hlt : tx.txSign.length < 2 ^ 32 := by have := h.sign_le; omega
  simp only [encoding, List.append_assoc]
  exact fieldAt_append (bytes32 tx.publicKey.length) hlt _

/-- Sane sizes with as many bytes as they ask for are the front of a transaction. -/
theorem exists_encoding_iff {data : Bytes} :
    (∃ tx rest, Readable tx ∧ data = tx.encoding ++ rest) ↔
      16 ≤ data.length ∧ SaneSizes data ∧ 144 + fieldAt 0 data + fieldAt 4 data ≤ data.length := by
  constructor
  · rintro ⟨tx, rest, hr, rfl⟩
    rw [SaneSizes, keyField_encoding hr, signField_encoding hr, List.length_append,
      length_encoding, size]
    exact ⟨by omega, ⟨hr.key_lt, hr.sign_le⟩, by omega⟩
  · rintro ⟨h16, ⟨hkey, hsign⟩, hlen⟩
    obtain ⟨u, d₁, rfl, -⟩ := exists_loadUInt32 (show 4 ≤ data.length by omega)
    rw [List.length_append, length_bytes32] at h16 hlen
    obtain ⟨v, d₂, rfl, -⟩ := exists_loadUInt32 (show 4 ≤ d₁.length by omega)
    rw [List.length_append, length_bytes32] at h16 hlen
    obtain ⟨amount, d₃, rfl, -⟩ := exists_loadUInt64 (show 8 ≤ d₂.length by omega)
    rw [List.length_append, length_bytes64] at hlen
    have hu := fieldAt_bytes32 u (bytes32 v.toNat ++ (bytes64 amount ++ d₃))
    have hv : fieldAt 4 (bytes32 u.toNat ++ (bytes32 v.toNat ++ (bytes64 amount ++ d₃))) = v.toNat :=
      fieldAt_append (bytes32 u.toNat) v.toNat_lt _
    rw [hu] at hkey hlen
    rw [hv] at hsign hlen
    obtain ⟨publicKey, d₄, hk, rfl, -⟩ := exists_load (show u.toNat ≤ d₃.length by omega)
    rw [List.length_append, hk] at hlen
    obtain ⟨sourceAddr, d₅, rfl, -⟩ := exists_loadHash (show 32 ≤ d₄.length by omega)
    rw [List.length_append, HashResult.size_eq] at hlen
    obtain ⟨destAddr, d₆, rfl, -⟩ := exists_loadHash (show 32 ≤ d₅.length by omega)
    rw [List.length_append, HashResult.size_eq] at hlen
    obtain ⟨changeAddr, d₇, rfl, -⟩ := exists_loadHash (show 32 ≤ d₆.length by omega)
    rw [List.length_append, HashResult.size_eq] at hlen
    obtain ⟨txHash, d₈, rfl, -⟩ := exists_loadHash (show 32 ≤ d₇.length by omega)
    rw [List.length_append, HashResult.size_eq] at hlen
    obtain ⟨txSign, d₉, hs, rfl, -⟩ := exists_load (show v.toNat ≤ d₈.length by omega)
    refine ⟨⟨publicKey, sourceAddr, destAddr, changeAddr, amount, txHash, txSign⟩, d₉,
      ⟨hk.trans_lt hkey, hs.trans_le hsign⟩, ?_⟩
    simp only [encoding, hk, hs, List.append_assoc]

end Txn

/-! ## Blocks -/

/-- The sizes of key and signature in the headers of `k` transactions that lie one
behind the other. -/
def sizeFields : Nat → Bytes → List (Nat × Nat)
  | 0, _ => []
  | k + 1, data =>
    (fieldAt 0 data, fieldAt 4 data) ::
      sizeFields k (data.drop (144 + fieldAt 0 data + fieldAt 4 data))

theorem sizeFields_encodings {txs : List Txn} (h : ∀ tx ∈ txs, tx.Readable) (rest : Bytes) :
    sizeFields txs.length (txs.flatMap Txn.encoding ++ rest) =
      txs.map fun tx => (tx.publicKey.length, tx.txSign.length) := by
  induction txs with
  | nil => rfl
  | cons tx txs ih =>
    obtain ⟨htx, htxs⟩ := List.forall_mem_cons.mp h
    have hsize : 144 + tx.publicKey.length + tx.txSign.length = tx.encoding.length := by
      rw [Txn.length_encoding, Txn.size]
      omega
    rw [List.length_cons, sizeFields, List.flatMap_cons, List.append_assoc,
      Txn.keyField_encoding htx, Txn.signField_encoding htx, hsize, List.drop_left, ih htxs,
      List.map_cons]

/-- The size fields of the block at the front of `data` are what the writer asserts of
them: 64 transactions at most, and from 1 to 1023 bytes for each key and signature. -/
def WithinLimits (data : Bytes) : Prop :=
  fieldAt 0 data ≤ maxTransactions ∧ ∀ p ∈ sizeFields (fieldAt 0 data) (data.drop 100),
    (0 < p.1 ∧ p.1 < 1024) ∧ 0 < p.2 ∧ p.2 < 1024

namespace Body

theorem countField_encoding {b : Body} (h : b.Readable) (rest : Bytes) :
    fieldAt 0 (b.encoding ++ rest) = b.transactions.length := by
  simp only [encoding, List.append_assoc]
  exact fieldAt_append [] h.count _

theorem drop_encoding (b : Body) (rest : Bytes) :
    (b.encoding ++ rest).drop 100 = b.transactions.flatMap Txn.encoding ++ rest := by
  rw [encoding, List.append_assoc]
  exact List.drop_left' (by simp only [List.length_append, length_bytes32, HashResult.size_eq])

theorem withinLimits_encoding {b : Body} (h : b.Readable) (rest : Bytes) :
    WithinLimits (b.encoding ++ rest) ↔ b.Writable := by
  rw [WithinLimits, countField_encoding h, drop_encoding, sizeFields_encodings h.each]
  constructor
  · rintro ⟨hcount, hsizes⟩
    refine ⟨hcount, fun tx htx => ?_⟩
    obtain ⟨hkey, hsign⟩ := hsizes _ (List.mem_map_of_mem htx)
    exact ⟨hkey.1, hkey.2, hsign.1, hsign.2⟩
  · rintro ⟨hcount, hall⟩
    refine ⟨hcount, fun p hp => ?_⟩
    obtain ⟨tx, htx, rfl⟩ := List.mem_map.mp hp
    have := hall tx htx
    exact ⟨⟨this.key_pos, this.key_lt⟩, this.sign_pos, this.sign_lt⟩

end Body

/-- What the buffer reader accepts is written back, byte for byte, exactly when its size
fields keep to the limits of the writer. -/
theorem read_written_back_iff {d : Bytes} {heap : Heap} {bmap : BlockMap} {n : Nat} {blk : Block}
    (h : Block.read d d.length heap bmap = .ok (some (n, blk))) :
    blk.write = .ok (d.take n) ↔ WithinLimits d := by
  obtain ⟨b, hb, rfl⟩ := Block.read_eq_some.mp h
  obtain ⟨hr, rfl, -, rest, rfl⟩ := Body.read_eq_some.mp hb
  rw [Block.attached_toBody, List.take_left' b.length_encoding, Body.write_eq_ok,
    Body.withinLimits_encoding hr]
  simp

theorem second_block_written_back :
    (Block.attached .empty ∅ secondBlock).write =
        .ok ((secondBlock.encoding ++ [0]).take secondBlock.size) ↔
      WithinLimits (secondBlock.encoding ++ [0]) := by
  have hw : secondBlock.Writable := by decide
  have hread := hw.readable.read_encoding [0] 1
  have hlen : (secondBlock.encoding ++ [0]).length = secondBlock.size + 1 := by
    rw [List.length_append, Body.length_encoding]
    rfl
  rw [← hlen] at hread
  exact read_written_back_iff (Block.read_eq_some.mpr ⟨secondBlock, hread, rfl⟩)

/-- A block whose transaction has neither a key nor a signature. -/
def bareBlock : Body :=
  { secondBlock with transactions := [{ spend with publicKey := [], txSign := [] }] }

/-- The reader takes it and the writer does not. -/
theorem bare_block_not_written : ¬ ∀ (d : Bytes) (heap : Heap) (bmap : BlockMap) (n : Nat)
    (blk : Block), Block.read d d.length heap bmap = .ok (some (n, blk)) →
      blk.write = .ok (d.take n) := by
  intro h
  have hr : bareBlock.Readable := ⟨by decide, by
    simp only [bareBlock, List.forall_mem_singleton]
    exact ⟨by decide, by decide⟩⟩
  have hread := hr.read_encoding [] 0
  rw [List.append_nil, Nat.add_zero, ← Body.length_encoding] at hread
  have hwrite := h _ .empty ∅ _ _ (Block.read_eq_some.mpr ⟨bareBlock, hread, rfl⟩)
  rw [Block.attached_toBody] at hwrite
  have hkey := ((Body.write_eq_ok.mp hwrite).1.each _ List.mem_cons_self).key_pos
  exact absurd hkey (by decide)

end Bootcamp
