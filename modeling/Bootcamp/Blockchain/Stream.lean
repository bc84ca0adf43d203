import Bootcamp.Blockchain.Records

/-! The readers of blocks and transactions from an `istream`, the bytes on which they do
what the buffer readers do, and those on which they do not. -/
namespace Bootcamp

open LittleEndian (decode)

/-! ## Streams -/

/-- An `istream` over bytes. A read that falls short takes what there is and sets `fail`,
after which no read does anything. -/
structure IStream where
  rest : Bytes
  fail : Bool
  deriving DecidableEq

/-- `badbit`: no read sets it. -/
def IStream.bad (_ : IStream) : Bool := false

/-- What stands in the local variables of `txn_t::read` until something is read into them. -/
structure Indeterminate where
  pubkeySz : UInt32
  signSz : UInt32
  amount : UInt64

/-! What a variable holds behind a read that got only the bytes `got`: they are in front of
the bytes that it held. -/

def overwrite (got old : Bytes) : Bytes := got ++ old.drop got.length

def overwriteHash (got : Bytes) (old : HashResult) : HashResult :=
  ⟨(overwrite got old.bytes).take 32, by simp [overwrite]; omega⟩

def overwriteUInt32 (got : Bytes) (old : UInt32) : UInt32 :=
  .ofNat (decode (overwrite got (bytes32 old.toNat)))

def overwriteUInt64 (got : Bytes) (old : UInt64) : UInt64 :=
  .ofNat (decode (overwrite got (bytes64 old)))

namespace IStream

/-- `in.read` into a variable that holds `old`. -/
def read {α : Type} (load : Bytes → Except Abort (α × Bytes)) (overwrite : Bytes → α → α) (old : α)
    (s : IStream) : α × IStream :=
  if s.fail then (old, s)
  else
    match load s.rest with
    | .ok (a, rest) => (a, ⟨rest, false⟩)
    | .error _ => (overwrite s.rest old, ⟨[], true⟩)

/-- Into a vector just resized, which is zero. -/
def readBytes (n : Nat) : IStream → Bytes × IStream :=
  read (load n) overwrite (List.replicate n 0)

def readHash : IStream → HashResult × IStream := read loadHash overwriteHash .zero

def readUInt32 (old : UInt32) : IStream → UInt32 × IStream := read loadUInt32 overwriteUInt32 old

/-- Into an `int` with the bits of `old`. -/
def readInt (old : UInt32) : IStream → Int × IStream :=
  read loadInt (fun got _ => asInt (overwriteUInt32 got old)) (asInt old)

def readUInt64 (old : UInt64) : IStream → UInt64 × IStream := read loadUInt64 overwriteUInt64 old

/-- The stream behind a read of `n` bytes. -/
def skip (n : Nat) (s : IStream) : IStream :=
  if s.fail then s else if n ≤ s.rest.length then ⟨s.rest.drop n, false⟩ else ⟨[], true⟩

theorem skip_skip (m n : Nat) (s : IStream) : (s.skip m).skip n = s.skip (m + n) := by
  obtain ⟨rest, fail⟩ := s
  cases fail with
  | true => rfl
  | false =>
    by_cases hm : m ≤ rest.length
    · by_cases hn : m + n ≤ rest.length
      · simp [skip, hm, hn, show n ≤ rest.length - m by omega, List.drop_drop]
      · simp [skip, hm, hn, show ¬ n ≤ rest.length - m by omega]
    · simp [skip, hm, show ¬ m + n ≤ rest.length by omega]

theorem read_append {α : Type} {load : Bytes → Except Abort (α × Bytes)} {data rest : Bytes} {a : α}
    (h : load data = .ok (a, rest)) (overwrite : Bytes → α → α) (old : α) :
    read load overwrite old ⟨data, false⟩ = (a, ⟨rest, false⟩) := by
  simp [read, h]

/-- A load that takes the first `n` bytes moves the stream by `n`. -/
theorem read_snd {α : Type} {load : Bytes → Except Abort (α × Bytes)} {n : Nat}
    (hok : ∀ data, n ≤ data.length → ∃ a, load data = .ok (a, data.drop n))
    (hshort : ∀ data, data.length < n → ∃ e, load data = .error e)
    (overwrite : Bytes → α → α) (old : α) (s : IStream) :
    (read load overwrite old s).2 = s.skip n := by
  obtain ⟨rest, fail⟩ := s
  cases fail with
  | true => rfl
  | false =>
    by_cases hn : n ≤ rest.length
    · obtain ⟨a, ha⟩ := hok rest hn
      simp [read, skip, ha, hn]
    · obtain ⟨e, he⟩ := hshort rest (by omega)
      simp [read, skip, he, hn]

end IStream

theorem load_short {n : Nat} {data : Bytes} (h : data.length < n) :
    load n data = .error .outOfBounds := by
  rw [load, if_neg (by omega)]

theorem load_drop {n : Nat} {data : Bytes} (h : n ≤ data.length) :
    load n data = .ok (data.take n, data.drop n) := by
  rw [load, if_pos h]

namespace IStream

@[simp] theorem readBytes_snd (n : Nat) (s : IStream) : (s.readBytes n).2 = s.skip n :=
  read_snd (fun _ h => ⟨_, load_drop h⟩) (fun _ h => ⟨_, load_short h⟩) _ _ s

@[simp] theorem readHash_snd (s : IStream) : s.readHash.2 = s.skip 32 :=
  read_snd (fun _ h => ⟨_, dif_pos h⟩) (fun _ h => ⟨_, dif_neg (by omega)⟩) _ _ s

@[simp] theorem readUInt32_snd (old : UInt32) (s : IStream) : (s.readUInt32 old).2 = s.skip 4 :=
  read_snd (fun _ h => ⟨_, by rw [loadUInt32, load_drop h]; rfl⟩)
    (fun _ h => ⟨_, by rw [loadUInt32, load_short h]; rfl⟩) _ _ s

@[simp] theorem readInt_snd (old : UInt32) (s : IStream) : (s.readInt old).2 = s.skip 4 :=
  read_snd (fun _ h => ⟨_, by rw [loadInt, loadUInt32, load_drop h]; rfl⟩)
    (fun _ h => ⟨_, by rw [loadInt, loadUInt32, load_short h]; rfl⟩) _ _ s

@[simp] theorem readUInt64_snd (old : UInt64) (s : IStream) : (s.readUInt64 old).2 = s.skip 8 :=
  read_snd (fun _ h => ⟨_, by rw [loadUInt64, load_drop h]; rfl⟩)
    (fun _ h => ⟨_, by rw [loadUInt64, load_short h]; rfl⟩) _ _ s

end IStream

namespace Txn

/-- `txn_t::read` from a stream into a new transaction. -/
def readStream (old : Indeterminate) (s : IStream) : Bool × Txn × IStream :=
  let (pubkeySz, s) := s.readInt old.pubkeySz
  let (signSz, s) := s.readInt old.signSz
  let (amount, s) := s.readUInt64 old.amount
  let tx : Txn := { publicKey := [], sourceAddr := .zero, destAddr := .zero, changeAddr := .zero,
                    amount, txHash := .zero, txSign := [] }
  if pubkeySz < 0 ∨ pubkeySz ≥ 1024 then (false, tx, s)
  else if signSz < 0 ∨ signSz > 1024 then (false, tx, s)
  else
    let (publicKey, s) := s.readBytes pubkeySz.toNat
    let (sourceAddr, s) := s.readHash
    let (destAddr, s) := s.readHash
    let (changeAddr, s) := s.readHash
    let (txHash, s) := s.readHash
    let (txSign, s) := s.readBytes signSz.toNat
    (!s.bad, { publicKey, sourceAddr, destAddr, changeAddr, amount, txHash, txSign }, s)

/-- The constructor `txn_t(std::istream&)` drops what `read` returns. -/
def ofStream (old : Indeterminate) (s : IStream) : Txn × IStream := (readStream old s).2

end Txn

namespace Body

/-- The transaction loop of the stream reader: only the state of the stream ends it early. -/
def readTransactionsStream (old : Indeterminate) : Nat → IStream → Option (List Txn) × IStream
  | 0, s => (some [], s)
  | k + 1, s =>
    let (tx, s) := Txn.ofStream old s
    if s.fail then (none, s)
    else
      let (txs, s) := readTransactionsStream old k s
      (txs.map (tx :: ·), s)

/-- `block_t::read` from a stream, up to the search for the predecessor; `none` is `false`. -/
def readStream (old : Indeterminate) (s : IStream) : Option Body × IStream :=
  let (txCount, s) := s.readInt old.pubkeySz
  if s.fail then (none, s)
  else if txCount < 0 ∨ txCount > maxTransactions then (none, s)
  else
    let (rewardAddr, s) := s.readHash
    let (prevHash, s) := s.readHash
    let (blkHash, s) := s.readHash
    if s.fail then (none, s)
    else
      let (transactions, s) := readTransactionsStream old txCount.toNat s
      (transactions.map fun transactions => { rewardAddr, transactions, prevHash, blkHash }, s)

end Body

/-- `block_t::read` from a stream on a block fresh from `new block_t()`. -/
def Block.readStream (old : Indeterminate) (s : IStream) (heap : Heap) (bmap : BlockMap) :
    Except Abort (Option Block × IStream) := do
  let (b, s) := Body.readStream old s
  match b with
  | none => return (none, s)
  | some b => return (some (← attach heap bmap b), s)

/-! ## What the stream reader takes -/

/-- The value of an `int` field: small enough it is the number in the bytes. -/
theorem loadInt_field {data : Bytes} (h : 4 ≤ data.length) :
    ∃ n, loadInt data = .ok (n, data.drop 4) ∧ (n < 0 ↔ 2 ^ 31 ≤ fieldAt 0 data) ∧
      (0 ≤ n → n = fieldAt 0 data) := by
  refine ⟨asInt (UInt32.ofNat (LittleEndian.decode (data.take 4))),
    by rw [loadInt, loadUInt32, load_drop h]; rfl, ?_⟩
  have hlt : LittleEndian.decode (data.take 4) < 2 ^ 32 := by
    simpa [h] using LittleEndian.decode_lt (data.take 4)
  unfold asInt
  rw [UInt32.toNat_ofNat_of_lt' hlt, fieldAt, List.drop_zero, Int.bmod_def]
  constructor <;> split <;> omega

/-- How far a transaction takes the stream: a bad size ends its read behind the header. -/
def span (data : Bytes) : Nat :=
  if SaneSizes data then 144 + fieldAt 0 data + fieldAt 4 data else 16

theorem IStream.skip_good (data : Bytes) (n : Nat) :
    (⟨data, false⟩ : IStream).skip n = if n ≤ data.length then ⟨data.drop n, false⟩ else ⟨[], true⟩ :=
  rfl

theorem Txn.ofStream_snd (old : Indeterminate) (data : Bytes) :
    (ofStream old ⟨data, false⟩).2 =
      if 16 ≤ data.length ∧ span data ≤ data.length then ⟨data.drop (span data), false⟩
      else ⟨[], true⟩ := by
  unfold ofStream readStream
  rcases hkey : (⟨data, false⟩ : IStream).readInt old.pubkeySz with ⟨pubkeySz, s₁⟩
  rcases hsign : s₁.readInt old.signSz with ⟨signSz, s₂⟩
  rcases hamount : s₂.readUInt64 old.amount with ⟨amount, s₃⟩
  simp only [hsign, hamount]
  have hs₁ : s₁ = (⟨data, false⟩ : IStream).skip 4 := by
    rw [← IStream.readInt_snd old.pubkeySz, hkey]
  have hs₂ : s₂ = s₁.skip 4 := by rw [← IStream.readInt_snd old.signSz, hsign]
  have hs₃ : s₃ = (⟨data, false⟩ : IStream).skip 16 := by
    rw [show 16 = 4 + 4 + 8 from rfl, ← IStream.skip_skip, ← IStream.skip_skip, ← hs₁, ← hs₂,
      ← IStream.readUInt64_snd old.amount, hamount]
  by_cases h16 : 16 ≤ data.length
  · -- the sizes are what stands in the bytes
    rw [IStream.skip_good, if_pos (by omega)] at hs₁
    obtain ⟨u, hu, hneg, hval⟩ := loadInt_field (show 4 ≤ data.length by omega)
    have h4 : 4 ≤ (data.drop 4).length := by rw [List.length_drop]; omega
    obtain ⟨v, hv, hneg', hval'⟩ := loadInt_field h4
    rw [fieldAt_drop, Nat.add_zero] at hneg' hval'
    rw [IStream.readInt, IStream.read_append hu] at hkey
    rw [hs₁, IStream.readInt, IStream.read_append hv] at hsign
    obtain rfl : u = pubkeySz := congrArg Prod.fst hkey
    obtain rfl : v = signSz := congrArg Prod.fst hsign
    by_cases hsane : SaneSizes data
    · have hku : ¬ (u < 0 ∨ u ≥ 1024) := by have := hsane.1; omega
      have hsv : ¬ (v < 0 ∨ v > 1024) := by have := hsane.2; omega
      have hlen : 16 + (u.toNat + 32 + 32 + 32 + 32 + v.toNat) = span data := by
        rw [span, if_pos hsane]
        omega
      rw [if_neg hku, if_neg hsv]
      simp only [IStream.readBytes_snd, IStream.readHash_snd, IStream.skip_skip]
      rw [hs₃, IStream.skip_skip, hlen, IStream.skip_good]
      simp only [h16, true_and]
    · have hspan : span data = 16 := if_neg hsane
      simp only [hspan, h16, and_self, if_true]
      rw [IStream.skip_good, if_pos h16] at hs₃
      by_cases hku : u < 0 ∨ u ≥ 1024
      · rw [if_pos hku, hs₃]
      · have hsv : v < 0 ∨ v > 1024 := by
          rw [SaneSizes] at hsane
          omega
        rw [if_neg hku, if_pos hsv, hs₃]
  · have hfail : s₃ = ⟨[], true⟩ := by rw [hs₃, IStream.skip_good, if_neg h16]
    simp only [h16, false_and, if_false]
    split_ifs
    · exact hfail
    · exact hfail
    · simp only [IStream.readBytes_snd, IStream.readHash_snd, hfail]
      rfl

namespace IStream

theorem readInt_append {n : Nat} (h : n < 2 ^ 31) (old : UInt32) (rest : Bytes) :
    readInt old ⟨bytes32 n ++ rest, false⟩ = ((n : Int), ⟨rest, false⟩) :=
  read_append (loadInt_append rest h) _ _

theorem readUInt64_append (n old : UInt64) (rest : Bytes) :
    readUInt64 old ⟨bytes64 n ++ rest, false⟩ = (n, ⟨rest, false⟩) :=
  read_append (loadUInt64_append n rest) _ old

theorem readHash_append (h : HashResult) (rest : Bytes) :
    readHash ⟨h.bytes ++ rest, false⟩ = (h, ⟨rest, false⟩) :=
  read_append (loadHash_append h rest) _ .zero

theorem readBytes_append (bs rest : Bytes) :
    readBytes bs.length ⟨bs ++ rest, false⟩ = (bs, ⟨rest, false⟩) :=
  read_append (load_append rest rfl) _ _

end IStream

/-- The reads of `readStream` in order, when the sizes are sane. -/
theorem Txn.ofStream_eq {old : Indeterminate} {tx : Txn} (h : tx.Readable)
    {s s₁ s₂ s₃ s₄ s₅ s₆ s₇ s₈ s₉ : IStream}
    (h₁ : s.readInt old.pubkeySz = ((tx.publicKey.length : Int), s₁))
    (h₂ : s₁.readInt old.signSz = ((tx.txSign.length : Int), s₂))
    (h₃ : s₂.readUInt64 old.amount = (tx.amount, s₃))
    (h₄ : s₃.readBytes tx.publicKey.length = (tx.publicKey, s₄))
    (h₅ : s₄.readHash = (tx.sourceAddr, s₅)) (h₆ : s₅.readHash = (tx.destAddr, s₆))
    (h₇ : s₆.readHash = (tx.changeAddr, s₇)) (h₈ : s₇.readHash = (tx.txHash, s₈))
    (h₉ : s₈.readBytes tx.txSign.length = (tx.txSign, s₉)) : ofStream old s = (tx, s₉) := by
  have hk := h.key_lt
  have hs := h.sign_le
  have hkey : ¬ ((tx.publicKey.length : Int) < 0 ∨ (tx.publicKey.length : Int) ≥ 1024) := by omega
  have hsign : ¬ ((tx.txSign.length : Int) < 0 ∨ (tx.txSign.length : Int) > 1024) := by omega
  simp only [ofStream, readStream, h₁, h₂, h₃, if_neg hkey, if_neg hsign, Int.toNat_natCast, h₄, h₅,
    h₆, h₇, h₈, h₉]

/-- Behind the encoding of a readable transaction the stream reader has read it. -/
theorem Txn.ofStream_encoding {tx : Txn} (h : tx.Readable) (old : Indeterminate) (rest : Bytes) :
    ofStream old ⟨tx.encoding ++ rest, false⟩ = (tx, ⟨rest, false⟩) := by
  have hk : tx.publicKey.length < 2 ^ 31 := by have := h.key_lt; omega
  have hs : tx.txSign.length < 2 ^ 31 := by have := h.sign_le; omega
  rw [encoding]
  simp only [List.append_assoc]
  exact ofStream_eq h (IStream.readInt_append hk _ _) (IStream.readInt_append hs _ _)
    (IStream.readUInt64_append _ _ _) (IStream.readBytes_append _ _) (IStream.readHash_append _ _)
    (IStream.readHash_append _ _) (IStream.readHash_append _ _) (IStream.readHash_append _ _)
    (IStream.readBytes_append _ _)

/-- `k` records lie in the bytes one behind the other: whole transactions, or headers with
a bad size. -/
def HoldsRecords : Nat → Bytes → Prop
  | 0, _ => True
  | k + 1, data =>
    (16 ≤ data.length ∧ span data ≤ data.length) ∧ HoldsRecords k (data.drop (span data))

/-- None of the `k` records has a bad size. -/
def AllSane : Nat → Bytes → Prop
  | 0, _ => True
  | k + 1, data => SaneSizes data ∧ AllSane k (data.drop (span data))

namespace Body

theorem readTransactionsStream_isSome (old : Indeterminate) (k : Nat) (data : Bytes) :
    (readTransactionsStream old k ⟨data, false⟩).1.isSome ↔ HoldsRecords k data := by
  induction k generalizing data with
  | zero => simp [readTransactionsStream, HoldsRecords]
  | succ k ih =>
    have hsnd := Txn.ofStream_snd old data
    rcases htx : Txn.ofStream old ⟨data, false⟩ with ⟨tx, s⟩
    rw [htx] at hsnd
    simp only [readTransactionsStream, htx, HoldsRecords]
    by_cases hfit : 16 ≤ data.length ∧ span data ≤ data.length
    · rw [if_pos hfit] at hsnd
      obtain rfl : s = ⟨data.drop (span data), false⟩ := hsnd
      simp [hfit, ih]
    · rw [if_neg hfit] at hsnd
      obtain rfl : s = ⟨[], true⟩ := hsnd
      simp [hfit]

theorem readTransactionsStream_cons {old : Indeterminate} {k : Nat} {tx : Txn} {txs : List Txn}
    {s s₁ s₂ : IStream} (htx : Txn.ofStream old s = (tx, s₁)) (hgood : s₁.fail = false)
    (htxs : readTransactionsStream old k s₁ = (some txs, s₂)) :
    readTransactionsStream old (k + 1) s = (some (tx :: txs), s₂) := by
  simp [readTransactionsStream, htx, hgood, htxs]

theorem readTransactionsStream_encodings {txs : List Txn} (h : ∀ tx ∈ txs, tx.Readable)
    (old : Indeterminate) (rest : Bytes) :
    readTransactionsStream old txs.length ⟨txs.flatMap Txn.encoding ++ rest, false⟩ =
      (some txs, ⟨rest, false⟩) := by
  induction txs with
  | nil => rfl
  | cons tx txs ih =>
    obtain ⟨htx, htxs⟩ := List.forall_mem_cons.mp h
    rw [List.flatMap_cons, List.append_assoc]
    exact readTransactionsStream_cons (Txn.ofStream_encoding htx old _) rfl (ih htxs)

/-- Whole transactions are sane records. -/
theorem exists_encodings_iff {k : Nat} {data : Bytes} :
    (∃ (txs : List Txn) (rest : Bytes), txs.length = k ∧ (∀ tx ∈ txs, tx.Readable) ∧
      data = txs.flatMap Txn.encoding ++ rest) ↔ HoldsRecords k data ∧ AllSane k data := by
  induction k generalizing data with
  | zero => simp [HoldsRecords, AllSane]
  | succ k ih =>
    rw [HoldsRecords, AllSane]
    constructor
    · rintro ⟨txs, rest, hlen, hall, rfl⟩
      obtain ⟨tx, txs, rfl⟩ := List.exists_cons_of_length_eq_add_one hlen
      obtain ⟨htx, htxs⟩ := List.forall_mem_cons.mp hall
      rw [List.flatMap_cons, List.append_assoc]
      obtain ⟨h16, hsane, hle⟩ := Txn.exists_encoding_iff.mp
        ⟨tx, txs.flatMap Txn.encoding ++ rest, htx, rfl⟩
      have hspan : span (tx.encoding ++ (txs.flatMap Txn.encoding ++ rest)) = tx.encoding.length := by
        rw [span, if_pos hsane, Txn.keyField_encoding htx, Txn.signField_encoding htx,
          Txn.length_encoding, Txn.size]
        omega
      have hrest := ih.mp ⟨txs, rest, by simpa using hlen, htxs, rfl⟩
      rw [hspan, List.drop_left]
      exact ⟨⟨⟨h16, by simp⟩, hrest.1⟩, hsane, hrest.2⟩
    · rintro ⟨⟨⟨h16, hle⟩, hholds⟩, hsane, hall⟩
      have hspan : span data = 144 + fieldAt 0 data + fieldAt 4 data := if_pos hsane
      obtain ⟨tx, rest, htx, rfl⟩ := Txn.exists_encoding_iff.mpr ⟨h16, hsane, by omega⟩
      rw [Txn.keyField_encoding htx, Txn.signField_encoding htx] at hspan
      have hlen : span (tx.encoding ++ rest) = tx.encoding.length := by
        rw [hspan, Txn.length_encoding, Txn.size]
        omega
      rw [hlen, List.drop_left] at hholds hall
      obtain ⟨txs, rest', rfl, htxs, rfl⟩ := ih.mpr ⟨hholds, hall⟩
      refine ⟨tx :: txs, rest', rfl, List.forall_mem_cons.mpr ⟨htx, htxs⟩, ?_⟩
      rw [List.flatMap_cons, List.append_assoc]

/-- What the buffer reader accepts, in the bytes. -/
theorem exists_read_iff {d : Bytes} : (∃ n b, read d d.length = .ok (some (n, b))) ↔
    100 ≤ d.length ∧ HoldsRecords (fieldAt 0 d) (d.drop 100) ∧ AllSane (fieldAt 0 d) (d.drop 100) := by
  rw [← exists_encodings_iff]
  constructor
  · rintro ⟨n, b, h⟩
    obtain ⟨hr, rfl, hle, rest, rfl⟩ := read_eq_some.mp h
    rw [countField_encoding hr, drop_encoding]
    exact ⟨b.size_ge.trans hle, b.transactions, rest, rfl, hr.each, rfl⟩
  · rintro ⟨h100, txs, rest, hlen, hall, hdrop⟩
    obtain ⟨u, d₁, rfl, -⟩ := exists_loadUInt32 (show 4 ≤ d.length by omega)
    rw [List.length_append, length_bytes32] at h100
    have hu := fieldAt_bytes32 u d₁
    obtain ⟨reward, d₂, rfl, -⟩ := exists_loadHash (show 32 ≤ d₁.length by omega)
    rw [List.length_append, HashResult.size_eq] at h100
    obtain ⟨prev, d₃, rfl, -⟩ := exists_loadHash (show 32 ≤ d₂.length by omega)
    rw [List.length_append, HashResult.size_eq] at h100
    obtain ⟨blk, d₄, rfl, -⟩ := exists_loadHash (show 32 ≤ d₃.length by omega)
    rw [hu] at hlen
    have hfront : d₄ = txs.flatMap Txn.encoding ++ rest := by
      rw [← hdrop, ← List.append_assoc, ← List.append_assoc, ← List.append_assoc]
      exact (List.drop_left' (by
        simp only [List.length_append, length_bytes32, HashResult.size_eq])).symm
    have hr : (⟨reward, txs, prev, blk⟩ : Body).Readable := ⟨by rw [hlen]; exact u.toNat_lt, hall⟩
    refine ⟨_, _, read_eq_some.mpr ⟨hr, rfl, ?_, rest, ?_⟩⟩
    · rw [← length_encoding]
      simp only [encoding, hlen, hfront, List.length_append]
      omega
    · simp only [encoding, hlen, hfront, List.append_assoc]

/-- The reads of `readStream` in order, when the count is in range. -/
theorem readStream_eq {old : Indeterminate} {b : Body} (hcount : b.transactions.length ≤ maxTransactions)
    {s s₁ s₂ s₃ s₄ s₅ : IStream}
    (h₁ : s.readInt old.pubkeySz = ((b.transactions.length : Int), s₁)) (hgood₁ : s₁.fail = false)
    (h₂ : s₁.readHash = (b.rewardAddr, s₂)) (h₃ : s₂.readHash = (b.prevHash, s₃))
    (h₄ : s₃.readHash = (b.blkHash, s₄)) (hgood₄ : s₄.fail = false)
    (h₅ : readTransactionsStream old b.transactions.length s₄ = (some b.transactions, s₅)) :
    readStream old s = (some b, s₅) := by
  have hc : ¬ ((b.transactions.length : Int) < 0 ∨
      (b.transactions.length : Int) > (maxTransactions : Nat)) := by omega
  simp only [readStream, h₁, hgood₁, if_neg hc, h₂, h₃, h₄, hgood₄, Int.toNat_natCast, h₅,
    Option.map_some, Bool.false_eq_true, if_false]

/-- Behind the encoding of a block of 64 transactions at most the stream reader has read it. -/
theorem readStream_encoding {b : Body} (h : b.Readable)
    (hcount : b.transactions.length ≤ maxTransactions) (old : Indeterminate) (rest : Bytes) :
    readStream old ⟨b.encoding ++ rest, false⟩ = (some b, ⟨rest, false⟩) := by
  have hc : b.transactions.length < 2 ^ 31 := by rw [maxTransactions] at hcount; omega
  rw [encoding]
  simp only [List.append_assoc]
  exact readStream_eq hcount (IStream.readInt_append hc _ _) rfl (IStream.readHash_append _ _)
    (IStream.readHash_append _ _) (IStream.readHash_append _ _) rfl
    (readTransactionsStream_encodings h.each old rest)

/-- What the stream reader accepts, in the bytes. -/
theorem readStream_isSome (old : Indeterminate) (d : Bytes) :
    (readStream old ⟨d, false⟩).1.isSome ↔
      100 ≤ d.length ∧ fieldAt 0 d ≤ maxTransactions ∧ HoldsRecords (fieldAt 0 d) (d.drop 100) := by
  unfold readStream
  rcases hcount : (⟨d, false⟩ : IStream).readInt old.pubkeySz with ⟨txCount, s₁⟩
  rcases hreward : s₁.readHash with ⟨rewardAddr, s₂⟩
  rcases hprev : s₂.readHash with ⟨prevHash, s₃⟩
  rcases hblk : s₃.readHash with ⟨blkHash, s₄⟩
  simp only [hreward, hprev, hblk]
  have hs₁ : s₁ = (⟨d, false⟩ : IStream).skip 4 := by
    rw [← IStream.readInt_snd old.pubkeySz, hcount]
  have hs₂ : s₂ = s₁.skip 32 := by rw [← IStream.readHash_snd, hreward]
  have hs₃ : s₃ = s₂.skip 32 := by rw [← IStream.readHash_snd, hprev]
  have hs₄ : s₄ = s₃.skip 32 := by rw [← IStream.readHash_snd, hblk]
  rw [hs₃, hs₂, hs₁, IStream.skip_skip, IStream.skip_skip, IStream.skip_skip] at hs₄
  rw [IStream.skip_good] at hs₁ hs₄
  by_cases h4 : 4 ≤ d.length
  · rw [if_pos h4] at hs₁
    obtain ⟨n, hn, hneg, hval⟩ := loadInt_field h4
    rw [IStream.readInt, IStream.read_append hn] at hcount
    obtain rfl : n = txCount := congrArg Prod.fst hcount
    simp only [hs₁, Bool.false_eq_true, if_false]
    by_cases hc : n < 0 ∨ n > (maxTransactions : Nat)
    · have hbad : ¬ fieldAt 0 d ≤ maxTransactions := by rw [maxTransactions] at hc ⊢; omega
      simp [hc, hbad]
    · have hn : n.toNat = fieldAt 0 d := by omega
      have hle : fieldAt 0 d ≤ maxTransactions := by omega
      rw [if_neg hc, hn]
      by_cases h100 : 100 ≤ d.length
      · rw [if_pos h100] at hs₄
        simp [hs₄, h100, hle, readTransactionsStream_isSome]
      · rw [if_neg h100] at hs₄
        simp [hs₄, h100]
  · rw [if_neg h4] at hs₁
    simp [hs₁, show ¬ 100 ≤ d.length by omega]

end Body

/-! ## Where the two readers agree -/

/-- On a new block the two readers accept the same bytes of `d`, take the same block from
them and stop at the same place. -/
structure ReadersAgree (old : Indeterminate) (d : Bytes) (heap : Heap) (bmap : BlockMap) : Prop where
  accept : (∃ n blk, Block.read d d.length heap bmap = .ok (some (n, blk))) ↔
    ∃ blk s, Block.readStream old ⟨d, false⟩ heap bmap = .ok (some blk, s)
  same : ∀ n blk blk' s, Block.read d d.length heap bmap = .ok (some (n, blk)) →
    Block.readStream old ⟨d, false⟩ heap bmap = .ok (some blk', s) →
      blk' = blk ∧ s = ⟨d.drop n, false⟩

/-- As many records lie in the bytes as the count field says, and either they are whole but
more than 64, or they are 64 at most and one of them is a header with a bad size. -/
def Misread (d : Bytes) : Prop :=
  100 ≤ d.length ∧ HoldsRecords (fieldAt 0 d) (d.drop 100) ∧
    (maxTransactions < fieldAt 0 d ∧ AllSane (fieldAt 0 d) (d.drop 100) ∨
      fieldAt 0 d ≤ maxTransactions ∧ ¬ AllSane (fieldAt 0 d) (d.drop 100))

theorem Block.exists_read_iff {d : Bytes} {heap : Heap} {bmap : BlockMap} :
    (∃ n blk, Block.read d d.length heap bmap = .ok (some (n, blk))) ↔
      ∃ n b, Body.read d d.length = .ok (some (n, b)) := by
  constructor
  · rintro ⟨n, blk, h⟩
    obtain ⟨b, hb, -⟩ := Block.read_eq_some.mp h
    exact ⟨n, b, hb⟩
  · rintro ⟨n, b, h⟩
    exact ⟨n, _, Block.read_eq_some.mpr ⟨b, h, rfl⟩⟩

theorem Block.readStream_eq_some {old : Indeterminate} {s s' : IStream} {heap : Heap}
    {bmap : BlockMap} {blk : Block} :
    Block.readStream old s heap bmap = .ok (some blk, s') ↔
      ∃ b, Body.readStream old s = (some b, s') ∧ blk = attached heap bmap b := by
  unfold Block.readStream
  rcases Body.readStream old s with ⟨r, s₁⟩
  cases r with
  | none => simp
  | some b =>
    simp only [attach_eq, Except.ok_bind, Except.pure_eq_ok, Except.ok.injEq, Prod.mk.injEq,
      Option.some.injEq]
    constructor
    · rintro ⟨rfl, rfl⟩
      exact ⟨b, ⟨rfl, rfl⟩, rfl⟩
    · rintro ⟨_, ⟨rfl, rfl⟩, rfl⟩
      exact ⟨rfl, rfl⟩

theorem Block.exists_readStream_iff {old : Indeterminate} {d : Bytes} {heap : Heap}
    {bmap : BlockMap} :
    (∃ blk s, Block.readStream old ⟨d, false⟩ heap bmap = .ok (some blk, s)) ↔
      (Body.readStream old ⟨d, false⟩).1.isSome := by
  constructor
  · rintro ⟨blk, s, h⟩
    obtain ⟨b, hb, -⟩ := Block.readStream_eq_some.mp h
    rw [hb]
    rfl
  · intro h
    obtain ⟨b, hb⟩ := Option.isSome_iff_exists.mp h
    exact ⟨_, _, Block.readStream_eq_some.mpr ⟨b, Prod.ext hb rfl, rfl⟩⟩

/-- On such bytes one reader accepts and the other does not. -/
theorem Misread.not_agree {old : Indeterminate} {d : Bytes} {heap : Heap} {bmap : BlockMap}
    (h : Misread d) : ¬ ReadersAgree old d heap bmap := by
  obtain ⟨h100, hholds, hcase⟩ := h
  rintro ⟨haccept, -⟩
  rw [Block.exists_read_iff, Block.exists_readStream_iff, Body.exists_read_iff,
    Body.readStream_isSome] at haccept
  cases hcase with
  | inl h => exact absurd (haccept.mp ⟨h100, hholds, h.2⟩).2.1 (by omega)
  | inr h => exact h.2 (haccept.mpr ⟨h100, h.1, hholds⟩).2.2

/-- The stream reader and the buffer reader agree on exactly the bytes that are not misread. -/
theorem readers_agree_iff (old : Indeterminate) (d : Bytes) (heap : Heap) (bmap : BlockMap) :
    ReadersAgree old d heap bmap ↔ ¬ Misread d := by
  constructor
  · intro hagree hmisread
    exact hmisread.not_agree hagree
  · intro hgood
    refine ⟨?_, ?_⟩
    · rw [Block.exists_read_iff, Block.exists_readStream_iff, Body.exists_read_iff,
        Body.readStream_isSome]
      constructor
      · rintro ⟨h100, hholds, hsane⟩
        have hle : fieldAt 0 d ≤ maxTransactions := by
          by_contra hgt
          exact hgood ⟨h100, hholds, .inl ⟨by omega, hsane⟩⟩
        exact ⟨h100, hle, hholds⟩
      · rintro ⟨h100, hle, hholds⟩
        have hsane : AllSane (fieldAt 0 d) (d.drop 100) := by
          by_contra hbad
          exact hgood ⟨h100, hholds, .inr ⟨hle, hbad⟩⟩
        exact ⟨h100, hholds, hsane⟩
    · intro n blk blk' s hread hstream
      have hsome := Body.readStream_isSome old d
      have hlimit := (hsome.mp (Block.exists_readStream_iff.mp ⟨_, _, hstream⟩)).2.1
      obtain ⟨b, hb, rfl⟩ := Block.read_eq_some.mp hread
      obtain ⟨hr, rfl, -, rest, rfl⟩ := Body.read_eq_some.mp hb
      rw [Body.countField_encoding hr] at hlimit
      obtain ⟨b', hb', rfl⟩ := Block.readStream_eq_some.mp hstream
      rw [Body.readStream_encoding hr hlimit] at hb'
      obtain ⟨rfl, rfl⟩ : b = b' ∧ (⟨rest, false⟩ : IStream) = s := by simpa using hb'
      rw [List.drop_left' b.length_encoding]
      exact ⟨rfl, rfl⟩

/-- A first block with one transaction of which there is only the front, and its key too long. -/
def bareHeader : Bytes := bytes32 1 ++ List.replicate 96 0 ++ bytes32 1024 ++ List.replicate 12 0

/-- The stream reader takes it and the buffer reader does not. -/
theorem bare_header_misread : ¬ ∀ (old : Indeterminate) (d : Bytes) (heap : Heap) (bmap : BlockMap),
    ReadersAgree old d heap bmap := by
  intro h
  have hmisread : Misread bareHeader := by
    refine ⟨by decide, ?_, .inr ?_⟩
    · rw [show fieldAt 0 bareHeader = 1 by decide]
      exact ⟨by decide, trivial⟩
    · rw [show fieldAt 0 bareHeader = 1 by decide]
      exact ⟨by decide, fun hsane => absurd hsane.1 (by decide)⟩
  exact hmisread.not_agree (h ⟨0, 0, 0⟩ bareHeader .empty ∅)

end Bootcamp
