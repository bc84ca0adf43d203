import Bootcamp.Blockchain.Records
import Bootcamp.Blockchain.Threads

/-! Which files the parallel readers read without leaving them. Headers and blocks are
parsed with the number of bytes that are left; maps are not, and a chunk is as long as the
header says. -/
namespace Bootcamp

open LittleEndian

/-! ## Computations that stay inside -/

/-- It may abort, but not by an access outside the buffer. -/
def InBounds {α : Type} (x : Except Abort α) : Prop := x ≠ .error .outOfBounds

namespace InBounds

variable {α β : Type}

theorem ok (a : α) : InBounds (.ok a) := by
  intro h
  cases h

theorem error {e : Abort} (h : e ≠ .outOfBounds) : InBounds (.error e : Except Abort α) := by
  intro heq
  exact h (Except.error.inj heq)

theorem bind {x : Except Abort α} {f : α → Except Abort β} (hx : InBounds x)
    (hf : ∀ a, x = .ok a → InBounds (f a)) : InBounds (x >>= f) := by
  cases x with
  | error e => exact error fun he => hx (congrArg Except.error he)
  | ok a => exact hf a rfl

theorem foldlM {f : β → α → Except Abort β} (hf : ∀ b a, InBounds (f b a)) (xs : List α) (b : β) :
    InBounds (xs.foldlM f b) := by
  induction xs generalizing b with
  | nil => exact ok b
  | cons x xs ih => exact bind (hf b x) fun c _ => ih c

end InBounds

theorem Crypto.inBounds_verify (c : Crypto) (der blk sign : Bytes) :
    InBounds (c.verify der blk sign) := by
  unfold verify
  split_ifs
  · simp only
    split_ifs
    · exact .ok _
    · exact .error (by decide)
  · exact .error (by decide)

theorem Txn.inBounds_validate (c : Crypto) (tx : Txn) : InBounds (tx.validate c) := by
  unfold validate
  split_ifs
  · exact .ok _
  · exact .ok _
  · simp only
    split_ifs
    · exact .ok _
    · exact c.inBounds_verify _ _ _

theorem Txn.inBounds_updateBalances (tx : Txn) (m : BalanceMap) : InBounds (tx.updateBalances m) := by
  unfold updateBalances
  cases m.find? tx.sourceAddr with
  | none => exact .error (by decide)
  | some held =>
    simp only
    split_ifs
    · exact .error (by decide)
    · exact .ok _

theorem Body.inBounds_applyTransactions (c : Crypto) (txs : List Txn) (m : BalanceMap) :
    InBounds (applyTransactions c txs m) := by
  induction txs generalizing m with
  | nil => exact .ok _
  | cons tx txs ih =>
    refine .bind (tx.inBounds_validate c) fun valid _ => ?_
    split_ifs
    · exact .ok _
    · exact .ok _
    · exact .bind (tx.inBounds_updateBalances m) fun m' _ => ih m'

theorem Body.inBounds_validate (c : Crypto) (b : Body) (m : BalanceMap) :
    InBounds (b.validate c m) := by
  refine .bind (inBounds_applyTransactions c b.transactions m) fun r _ => ?_
  simp only
  split_ifs <;> exact .ok _

theorem Block.inBounds_validate (c : Crypto) (heap : Heap) (blk : Block) :
    InBounds (blk.validate c heap) :=
  .bind (Body.inBounds_validate c _ _) fun _ _ => .ok _

theorem Block.inBounds_isCoinbase (blk : Block) : InBounds blk.isCoinbase := by
  unfold isCoinbase
  split_ifs
  · exact .ok _
  · exact .error (by decide)
  · exact .error (by decide)
  · exact .ok _

theorem Day4.inBounds_visit (c : Crypto) (k : Nat) (off : UInt64) (init : BalanceMap)
    (st : ChunkState) (n : Nat) (blk : Block) : InBounds (visit c k off init st n blk) := by
  refine .bind (Block.inBounds_validate c _ _) fun r _ => ?_
  obtain ⟨valid, blk'⟩ := r
  cases valid with
  | false => exact .ok _
  | true =>
    refine .bind ?_ fun _ _ => .ok _
    split_ifs
    · exact blk'.inBounds_isCoinbase
    · exact .ok _

theorem Day3.inBounds_visit (c : Crypto) (k : Nat) (init : BalanceMap) (st : ChunkState) (n : Nat)
    (blk : Block) : InBounds (visit c k init st n blk) := by
  refine .bind ?_ fun p _ => .bind (Block.inBounds_validate c _ _) fun r _ => ?_
  · unfold prepare
    split_ifs
    · refine .bind blk.inBounds_isCoinbase fun coinbase _ => ?_
      cases coinbase <;> exact .ok _
    · exact .ok _
  · obtain ⟨valid, blk'⟩ := r
    cases valid with
    | false => exact .error (by decide)
    | true => exact .ok _

/-- The loop over blocks stays in the bytes that it is given, if they are there. -/
theorem Reader.inBounds_run {σ : Type} {r : Reader σ}
    (hvisit : ∀ st n blk, InBounds (r.visit st n blk)) {data : Bytes} {left : Nat}
    (h : left ≤ data.length) (st : σ) : InBounds (r.run data left st) := by
  rw [run_eq_foldlM (Nat.lt_succ_self left) h]
  refine .foldlM (fun st b => ?_) _ _
  rw [step, Block.attach_eq]
  exact hvisit _ _ _

/-! ## Headers and maps -/

theorem exists_loadUInt64s {k : Nat} {data : Bytes} (h : 8 * k ≤ data.length) :
    ∃ vs rest, vs.length = k ∧ data = bytes64s vs ++ rest ∧ loadUInt64s k data = .ok (vs, rest) := by
  induction k generalizing data with
  | zero => exact ⟨[], data, rfl, rfl, rfl⟩
  | succ k ih =>
    obtain ⟨v, d, rfl, hv⟩ := exists_loadUInt64 (show 8 ≤ data.length by omega)
    rw [List.length_append, length_bytes64] at h
    obtain ⟨vs, rest, hlen, rfl, hvs⟩ := ih (show 8 * k ≤ d.length by omega)
    refine ⟨v :: vs, rest, by rw [List.length_cons, hlen], ?_, ?_⟩
    · rw [bytes64s, bytes64s, List.flatMap_cons, List.append_assoc]
    · rw [loadUInt64s, hv, Except.ok_bind]
      simp only [hvs, Except.ok_bind, Except.pure_eq_ok]

/-- The eight-byte number at `pos`. -/
def wordAt (pos : Nat) (data : Bytes) : Nat := decode ((data.drop pos).take 8)

theorem wordAt_append (pre : Bytes) (v : UInt64) (rest : Bytes) :
    wordAt pre.length (pre ++ (bytes64 v ++ rest)) = v.toNat := by
  rw [wordAt, List.drop_left, List.take_left' (length_bytes64 v), bytes64]
  exact decode_encode_of_lt v.toNat_lt

theorem wordAt_table (pre : Bytes) (vs : List UInt64) (rest : Bytes) {k : Nat}
    (hk : k < vs.length) :
    wordAt (pre.length + 8 * k) (pre ++ (bytes64s vs ++ rest)) = (vs.getD k 0).toNat := by
  induction vs generalizing pre k with
  | nil => simp at hk
  | cons v vs ih =>
    rw [bytes64s, List.flatMap_cons, List.append_assoc, ← bytes64s]
    cases k with
    | zero => exact wordAt_append pre v _
    | succ k =>
      have hstep := ih (pre ++ bytes64 v) (Nat.lt_of_succ_lt_succ hk)
      rw [List.length_append, length_bytes64, List.append_assoc] at hstep
      rw [List.getD_cons_succ, ← hstep, Nat.mul_succ, Nat.add_comm (8 * k), Nat.add_assoc]

/-- The entries of the header's first two tables, as they stand in the file. -/
def chunkOffAt (data : Bytes) (k : Nat) : Nat := wordAt (4 + 8 * k) data

def mapOffAt (data : Bytes) (k : Nat) : Nat := wordAt (4 + 8 * (fieldAt 0 data + k)) data

/-- What `extractHeader` fills in is what stands there. -/
structure Header.Shows (hd : Header) (data : Bytes) : Prop where
  chunks : hd.chunks.toNat = fieldAt 0 data
  chunkOff : ∀ k < fieldAt 0 data, (hd.chunkOff.getD k 0).toNat = chunkOffAt data k
  mapOff : ∀ k < fieldAt 0 data, (hd.mapOff.getD k 0).toNat = mapOffAt data k

/-- Where there is memory for the tables, the header is extracted, or there is not enough
of it. -/
theorem extractHeader_cases (data : Bytes) :
    (data.length < 4 + 24 * fieldAt 0 data ∧ extractHeader .granted data = .ok none) ∨
    (4 + 24 * fieldAt 0 data ≤ data.length ∧
      ∃ hd, extractHeader .granted data = .ok (some hd) ∧ hd.Shows data) := by
  by_cases h4 : data.length < 4
  · refine .inl ⟨by omega, ?_⟩
    exact extractHeader_short (Nat.not_le.mp (by omega))
  obtain ⟨chunks, d, rfl, hchunks⟩ := exists_loadUInt32 (show 4 ≤ data.length by omega)
  have hcount := fieldAt_bytes32 chunks d
  rw [hcount, List.length_append, length_bytes32]
  by_cases htables : d.length < 24 * chunks.toNat
  · refine .inl ⟨by omega, ?_⟩
    unfold extractHeader
    simp only [if_neg h4, hchunks, Except.ok_bind, (Resize.granted_grants chunks).tables]
    rw [if_pos (by rw [List.length_append, length_bytes32]; omega)]
    rfl
  obtain ⟨chunkOff, d₁, h₁, rfl, -⟩ := exists_loadUInt64s
    (show 8 * chunks.toNat ≤ d.length by omega)
  rw [List.length_append, length_bytes64s, h₁] at htables
  obtain ⟨mapOff, d₂, h₂, rfl, -⟩ := exists_loadUInt64s
    (show 8 * chunks.toNat ≤ d₁.length by omega)
  rw [List.length_append, length_bytes64s, h₂] at htables
  obtain ⟨mapSz, rest, h₃, rfl, -⟩ := exists_loadUInt64s
    (show 8 * chunks.toNat ≤ d₂.length by omega)
  have hextract := extractHeader_write h₁ h₂ h₃ rest
  simp only [writeHeader, List.append_assoc] at hextract
  refine .inr ⟨?_, _, hextract, ?_⟩
  · simp only [List.length_append, length_bytes64s, h₁, h₂, h₃]
    omega
  refine ⟨hcount.symm, fun k hk => ?_, fun k hk => ?_⟩
  · rw [hcount] at hk
    have hword := wordAt_table (bytes32 chunks.toNat) chunkOff
      (bytes64s mapOff ++ (bytes64s mapSz ++ rest)) (hk.trans_eq h₁.symm)
    rw [length_bytes32] at hword
    exact hword.symm
  · rw [hcount] at hk
    have hword := wordAt_table (bytes32 chunks.toNat ++ bytes64s chunkOff) mapOff
      (bytes64s mapSz ++ rest) (hk.trans_eq h₂.symm)
    rw [List.length_append, length_bytes32, length_bytes64s, h₁, List.append_assoc] at hword
    rw [mapOffAt, hcount, ← hword]
    congr 1
    omega

/-- The number of entries for which the tables are resized. -/
def countAt (data : Bytes) : UInt32 := .ofNat (fieldAt 0 data)

theorem exists_countAt {data : Bytes} (h : 4 ≤ data.length) :
    ∃ rest, loadUInt32 data = .ok (countAt data, rest) := by
  obtain ⟨chunks, rest, rfl, hload⟩ := exists_loadUInt32 h
  refine ⟨rest, ?_⟩
  rw [countAt, fieldAt_bytes32, UInt32.ofNat_toNat]
  exact hload

section

variable {resize : Resize} {data : Bytes} {hd : Header}

theorem extractHeader_eq_some (h : extractHeader resize data = .ok (some hd)) :
    4 + 24 * fieldAt 0 data ≤ data.length ∧ hd.Shows data := by
  have hgranted := extractHeader_granted_of_some h
  cases extractHeader_cases data with
  | inl hnone =>
    rw [hnone.2] at hgranted
    cases hgranted
  | inr hread =>
    obtain ⟨hlen, hd', hextract, hshows⟩ := hread
    rw [extractHeader_unique h hextract]
    exact ⟨hlen, hshows⟩

/-- A header is reported as unreadable where it is cut short, unless the program dies of the
number of entries in it. -/
theorem extractHeader_eq_none_iff : extractHeader resize data = .ok none ↔
    data.length < 4 + 24 * fieldAt 0 data ∧ (4 ≤ data.length → resize.Grants (countAt data)) := by
  by_cases h4 : 4 ≤ data.length
  · obtain ⟨rest, hload⟩ := exists_countAt h4
    by_cases hg : resize.Grants (countAt data)
    · rw [extractHeader_granted hload hg]
      cases extractHeader_cases data with
      | inl hnone => exact ⟨fun _ => ⟨hnone.1, fun _ => hg⟩, fun _ => hnone.2⟩
      | inr hread =>
        obtain ⟨hlen, hd, hextract, -⟩ := hread
        rw [hextract]
        exact iff_of_false (by simp) fun h => absurd h.1 (Nat.not_lt.mpr hlen)
    · rw [extractHeader_refused hload h4 hg]
      exact iff_of_false (by simp) fun h => absurd (h.2 h4) hg
  · have hshort : data.length < 4 := Nat.not_le.mp h4
    rw [extractHeader_short hshort]
    exact ⟨fun _ => ⟨by omega, fun h => absurd h h4⟩, fun _ => rfl⟩

theorem inBounds_extractHeader (resize : Resize) (data : Bytes) :
    InBounds (extractHeader resize data) := by
  by_cases h4 : 4 ≤ data.length
  · obtain ⟨rest, hload⟩ := exists_countAt h4
    by_cases hg : resize.Grants (countAt data)
    · rw [extractHeader_granted hload hg]
      cases extractHeader_cases data with
      | inl hnone => rw [hnone.2]; exact .ok none
      | inr hread =>
        obtain ⟨-, hd, hextract, -⟩ := hread
        rw [hextract]
        exact .ok _
    · rw [extractHeader_refused hload h4 hg]
      exact .error (by decide)
  · rw [extractHeader_short (Nat.not_le.mp h4)]
    exact .ok none

end

theorem exists_readEntries {k : Nat} {data : Bytes} (h : 40 * k ≤ data.length) (m : BalanceMap) :
    ∃ m', readEntries k data m = .ok m' := by
  induction k generalizing data m with
  | zero => exact ⟨m, rfl⟩
  | succ k ih =>
    obtain ⟨addr, d, rfl, haddr⟩ := exists_loadHash (show 32 ≤ data.length by omega)
    rw [List.length_append, HashResult.size_eq] at h
    obtain ⟨amt, d', rfl, hamt⟩ := exists_loadUInt64 (show 8 ≤ d.length by omega)
    rw [List.length_append, length_bytes64] at h
    simp only [readEntries, haddr, hamt, Except.ok_bind]
    exact ih (by omega) _

theorem readEntries_short {k : Nat} {data : Bytes} (h : data.length < 40 * k) (m : BalanceMap) :
    readEntries k data m = .error .outOfBounds := by
  induction k generalizing data m with
  | zero => omega
  | succ k ih =>
    by_cases h32 : 32 ≤ data.length
    · obtain ⟨addr, d, rfl, haddr⟩ := exists_loadHash h32
      rw [List.length_append, HashResult.size_eq] at h
      simp only [readEntries, haddr, Except.ok_bind]
      by_cases h8 : 8 ≤ d.length
      · obtain ⟨amt, d', rfl, hamt⟩ := exists_loadUInt64 h8
        rw [List.length_append, length_bytes64] at h
        simp only [hamt, Except.ok_bind]
        exact ih (by omega) _
      · rw [loadUInt64, load, if_neg h8]
        rfl
    · rw [readEntries, loadHash, dif_neg h32]
      rfl

/-- The map at `off` lies in the file, with as many entries as it counts. -/
def MapFits (data : Bytes) (off : Nat) : Prop := off + 4 + 40 * fieldAt off data ≤ data.length

/-- What is read of a map whose number of entries stands in the file. -/
theorem readBalanceMap_drop {data : Bytes} {off : Nat} (h : off + 4 ≤ data.length) :
    ∃ rest, readBalanceMap (data.drop off) = readEntries (fieldAt off data) rest ∅ ∧
      rest.length = data.length - (off + 4) := by
  have hlen : (data.drop off).length = data.length - off := List.length_drop
  have hcount : fieldAt 0 (data.drop off) = fieldAt off data := fieldAt_drop 0 off data
  obtain ⟨size, rest, hdata, hsize⟩ := exists_loadUInt32 (show 4 ≤ (data.drop off).length by omega)
  rw [hdata, fieldAt_bytes32] at hcount
  rw [hdata, List.length_append, length_bytes32] at hlen
  refine ⟨rest, ?_, by omega⟩
  simp only [readBalanceMap, hsize, Except.ok_bind, hcount]

theorem readBalanceMap_fits {data : Bytes} {off : Nat} (h : MapFits data off) :
    ∃ m, readBalanceMap (data.drop off) = .ok m := by
  rw [MapFits] at h
  obtain ⟨rest, hread, hrest⟩ := readBalanceMap_drop (show off + 4 ≤ data.length by omega)
  rw [hread]
  exact exists_readEntries (by omega) ∅

theorem readBalanceMap_outOfBounds {data : Bytes} {off : Nat} (h : ¬ MapFits data off) :
    readBalanceMap (data.drop off) = .error .outOfBounds := by
  rw [MapFits] at h
  by_cases h4 : off + 4 ≤ data.length
  · obtain ⟨rest, hread, hrest⟩ := readBalanceMap_drop h4
    rw [hread]
    exact readEntries_short (by omega) ∅
  · have hshort : ¬ 4 ≤ (data.drop off).length := by
      rw [List.length_drop]
      omega
    rw [readBalanceMap, loadUInt32, load, if_neg hshort]
    rfl

/-! ## Chunks -/

/-- The map behind chunk `k` lies in the file, and the chunk does not begin behind it. -/
structure ChunkFits (data : Bytes) (k : Nat) : Prop where
  map : MapFits data (mapOffAt data k)
  ordered : chunkOffAt data k ≤ mapOffAt data k

/-- The header's tables lie in the file, and every chunk that they list fits. -/
structure FileFits (data : Bytes) : Prop where
  tables : 4 + 24 * fieldAt 0 data ≤ data.length
  chunks : ∀ k < fieldAt 0 data, ChunkFits data k

namespace ChunkDay

variable {c : Crypto} {data : Bytes} {k : Nat} {prevMapOff chunkStart mapStart : UInt64}

theorem inBounds_readInitBal (h : prevMapOff ≠ 0 → MapFits data prevMapOff.toNat) :
    InBounds (readInitBal data prevMapOff) := by
  unfold readInitBal
  split_ifs with hoff
  · obtain ⟨m, hm⟩ := readBalanceMap_fits (h hoff)
    rw [hm]
    exact .ok m
  · exact .ok _

theorem readInitBal_error {e : Abort} (h : readInitBal data prevMapOff = .error e) :
    e = .outOfBounds := by
  unfold readInitBal at h
  split_ifs at h with hoff
  by_cases hfits : MapFits data prevMapOff.toNat
  · cases readBalanceMap_fits hfits with
    | intro m hm => rw [hm] at h; cases h
  · rw [readBalanceMap_outOfBounds hfits] at h
    exact (Except.error.inj h).symm

theorem inBounds_readChunk (day : ChunkDay) (hinit : prevMapOff ≠ 0 → MapFits data prevMapOff.toNat)
    (hmap : MapFits data mapStart.toNat) (hordered : chunkStart ≤ mapStart) :
    InBounds (day.readChunk c data k prevMapOff chunkStart mapStart) := by
  have hsize : (mapStart - chunkStart).toNat ≤ (data.drop chunkStart.toNat).length := by
    rw [MapFits] at hmap
    rw [UInt64.toNat_sub_of_le _ _ hordered, List.length_drop]
    omega
  obtain ⟨finalBal, hfinal⟩ := readBalanceMap_fits hmap
  cases day with
  | four =>
    refine .bind (inBounds_readInitBal hinit) fun initBal _ => ?_
    rw [hfinal, Except.ok_bind]
    have hvisit (st : ChunkState) (n : Nat) (blk : Block) :
        InBounds ((Day4.reader c k prevMapOff initBal).visit st n blk) :=
      Day4.inBounds_visit c k prevMapOff initBal st n blk
    refine .bind (Reader.inBounds_run hvisit hsize .start) fun st _ => ?_
    cases st.tip with
    | none => exact .ok _
    | some tip =>
      simp only
      split_ifs <;> exact .ok _
  | three =>
    refine .bind (inBounds_readInitBal hinit) fun initBal _ => ?_
    rw [hfinal, Except.ok_bind]
    have hvisit (st : ChunkState) (n : Nat) (blk : Block) :
        InBounds ((Day3.reader c k initBal).visit st n blk) :=
      Day3.inBounds_visit c k initBal st n blk
    have hrun := Reader.inBounds_run hvisit hsize .start
    simp only
    split
    · exact .ok _
    · rename_i e _ he
      rw [he] at hrun
      exact .error fun heq => hrun (congrArg Except.error heq)
    · rename_i st _
      split
      · split_ifs
        · exact .bind (Block.inBounds_isCoinbase _) fun _ _ => .ok _
        · exact .ok _
      · exact .error (by decide)

/-- A map outside the file is read before anything else can end the thread. -/
theorem readChunk_outOfBounds (day : ChunkDay) (hmap : ¬ MapFits data mapStart.toNat) :
    ¬ InBounds (day.readChunk c data k prevMapOff chunkStart mapStart) := by
  have hread := readBalanceMap_outOfBounds hmap
  intro h
  refine h ?_
  cases hinit : readInitBal data prevMapOff with
  | error e =>
    have he : e = .outOfBounds := readInitBal_error hinit
    cases day <;> simp only [readChunk, Day3.readChunk, Day4.readChunk, hinit, Except.error_bind, he]
  | ok initBal =>
    cases day <;>
      simp only [readChunk, Day3.readChunk, Day4.readChunk, hinit, hread, Except.ok_bind, Except.error_bind]

end ChunkDay

/-! ## The whole file -/

/-- The reader leaves the file nowhere, no chunk ends before it begins, and a file in which
something does not fit is refused. More than 32 threads the thread manager does not take. -/
structure StaysInside (day : ChunkDay) (c : Crypto) (resize : Resize) (data : Bytes) : Prop where
  header : InBounds (extractHeader resize data)
  chunk : ∀ hd, extractHeader resize data = .ok (some hd) → hd.chunks.toNat ≤ 32 →
    ∀ k < hd.chunks.toNat, InBounds
      (day.readChunk c data k (hd.prevMapOff k) (hd.chunkOff.getD k 0) (hd.mapOff.getD k 0))
  ordered : ∀ hd, extractHeader resize data = .ok (some hd) → hd.chunks.toNat ≤ 32 →
    ∀ k < hd.chunks.toNat, hd.chunkOff.getD k 0 ≤ hd.mapOff.getD k 0
  refused : ¬ FileFits data → extractHeader resize data = .ok none ∨
    ((∃ run : Run day.readChunk c data, run.resize = resize) ∧
      ∀ run : Run day.readChunk c data, run.resize = resize → run.line = .ok .invalid)

/-- The balances in front of a chunk are the map behind the one before it. -/
theorem Header.Shows.prevMapOff_fits {hd : Header} {data : Bytes} {k : Nat} (hd' : hd.Shows data)
    (hk : k < fieldAt 0 data) (h : ∀ k < fieldAt 0 data, ChunkFits data k) :
    hd.prevMapOff k ≠ 0 → MapFits data (hd.prevMapOff k).toNat := by
  intro hoff
  cases k with
  | zero => exact absurd rfl hoff
  | succ k =>
    have hmap := hd'.mapOff k (by omega)
    rw [Header.prevMapOff, if_neg (Nat.succ_ne_zero k), Nat.add_sub_cancel, hmap]
    exact (h k (by omega)).map

/-- A run comes out of threads that all stay inside. -/
theorem Run.mapFits {day : ChunkDay} {c : Crypto} {data : Bytes} (run : Run day.readChunk c data)
    {k : Nat} (hk : k < run.header.chunks.toNat) :
    MapFits data (run.header.mapOff.getD k 0).toNat := by
  by_contra hmap
  have hthread : day.readChunk c data k (run.header.prevMapOff k) (run.header.chunkOff.getD k 0)
      (run.header.mapOff.getD k 0) ∈ run.results.map .ok := by
    rw [← run.joined, threads]
    exact List.mem_map.mpr ⟨k, List.mem_range.mpr hk, rfl⟩
  obtain ⟨r, -, hr⟩ := List.mem_map.mp hthread
  have hin : InBounds (.ok r) := .ok r
  rw [hr] at hin
  exact ChunkDay.readChunk_outOfBounds day hmap hin

/-- A chunk that stays inside and does not end before it begins fits. -/
theorem StaysInside.chunkFits {day : ChunkDay} {c : Crypto} {data : Bytes}
    {run : Run day.readChunk c data} (h : StaysInside day c run.resize data) {k : Nat}
    (hk : k < fieldAt 0 data) : ChunkFits data k := by
  obtain ⟨-, hshows⟩ := extractHeader_eq_some run.extracted
  have hlt : k < run.header.chunks.toNat := by rw [hshows.chunks]; exact hk
  have hmap := run.mapFits hlt
  have hordered := h.ordered _ run.extracted run.count.2 k hlt
  rw [hshows.mapOff k hk] at hmap
  rw [UInt64.le_iff_toNat_le, hshows.mapOff k hk, hshows.chunkOff k hk] at hordered
  exact ⟨hmap, hordered⟩

namespace FileFits

variable {resize : Resize} {data : Bytes} {hd : Header}

theorem ordered (h : FileFits data) (hextract : extractHeader resize data = .ok (some hd)) {k : Nat}
    (hk : k < hd.chunks.toNat) : hd.chunkOff.getD k 0 ≤ hd.mapOff.getD k 0 := by
  obtain ⟨-, hshows⟩ := extractHeader_eq_some hextract
  rw [hshows.chunks] at hk
  rw [UInt64.le_iff_toNat_le, hshows.mapOff k hk, hshows.chunkOff k hk]
  exact (h.chunks k hk).ordered

theorem inBounds_readChunk (h : FileFits data)
    (hextract : extractHeader resize data = .ok (some hd)) (day : ChunkDay) (c : Crypto) {k : Nat}
    (hk : k < hd.chunks.toNat) :
    InBounds (day.readChunk c data k (hd.prevMapOff k) (hd.chunkOff.getD k 0) (hd.mapOff.getD k 0)) := by
  obtain ⟨-, hshows⟩ := extractHeader_eq_some hextract
  have hle := h.ordered hextract hk
  rw [hshows.chunks] at hk
  refine ChunkDay.inBounds_readChunk day (hshows.prevMapOff_fits hk h.chunks) ?_ hle
  rw [hshows.mapOff k hk]
  exact (h.chunks k hk).map

end FileFits

/-- Nothing on the way compares an offset with the file, so the reader stays in the files
whose header tells the truth. Of the others it refuses those whose tables are cut short, and
these only where it gets the memory for tables of the size that the file asks for. -/
theorem readindexed_stays_inside_iff (day : ChunkDay) (c : Crypto) (resize : Resize)
    (data : Bytes) : StaysInside day c resize data ↔ FileFits data ∨
      data.length < 4 + 24 * fieldAt 0 data ∧
        (4 ≤ data.length → resize.Grants (countAt data)) := by
  rw [← extractHeader_eq_none_iff]
  constructor
  · intro h
    by_contra hnot
    obtain ⟨hfits, hsome⟩ := not_or.mp hnot
    obtain ⟨⟨run, rfl⟩, -⟩ := (h.refused hfits).resolve_left hsome
    exact hfits ⟨(extractHeader_eq_some run.extracted).1, fun k hk => h.chunkFits hk⟩
  · rintro (h | hnone)
    · exact ⟨inBounds_extractHeader resize data,
        fun hd hextract _ k hk => h.inBounds_readChunk hextract day c hk,
        fun hd hextract _ k hk => h.ordered hextract hk, fun hnot => absurd h hnot⟩
    · have hno (hd : Header) : extractHeader resize data ≠ .ok (some hd) := by
        rw [hnone]
        intro h
        cases h
      exact ⟨inBounds_extractHeader resize data, fun hd hextract => absurd hextract (hno hd),
        fun hd hextract => absurd hextract (hno hd), fun _ => .inl hnone⟩

/-- A header of one chunk whose map would begin where the file ends; and four bytes ff, which
a program that gets at most 2 GiB for a table dies of. -/
theorem readindexed_leaves_truncated :
    ¬ StaysInside .four .toy .granted (writeHeader 1 [28] [28] [0]) ∧
    ¬ StaysInside .four .toy (fun _ n => n ≤ 268435456) [0xff, 0xff, 0xff, 0xff] := by
  constructor
  · intro h
    have hextract : extractHeader .granted (writeHeader 1 [28] [28] [0]) =
        .ok (some ⟨28, 1, [28], [28], [0]⟩) := by
      rw [← List.append_nil (writeHeader 1 [28] [28] [0])]
      exact extractHeader_write rfl rfl rfl []
    have hlen : (writeHeader 1 [28] [28] [0]).length = 28 := length_writeHeader rfl rfl rfl
    refine ChunkDay.readChunk_outOfBounds .four ?_ (h.chunk _ hextract (by decide) 0 (by decide))
    intro hfits
    have hshort : 28 + 4 + 40 * fieldAt 28 (writeHeader 1 [28] [28] [0]) ≤
        (writeHeader 1 [28] [28] [0]).length := hfits
    omega
  · intro h
    have hcount : fieldAt 0 [0xff, 0xff, 0xff, 0xff] = 2 ^ 32 - 1 := by decide
    have hcut : ¬ 4 + 24 * fieldAt 0 [0xff, 0xff, 0xff, 0xff] ≤
        ([0xff, 0xff, 0xff, 0xff] : Bytes).length := by
      rw [hcount]
      decide
    rcases h.refused fun hfits => hcut hfits.tables with hnone | ⟨⟨run, -⟩, -⟩
    · have hgrants := (extractHeader_eq_none_iff.mp hnone).2 (by decide)
      exact absurd hgrants.1 (by decide)
    · exact hcut (extractHeader_eq_some run.extracted).1

end Bootcamp
