import Bootcamp.Blockchain.Codec
import Bootcamp.Lib.Layout

/-! The indexed file: a header with three tables of offsets, then chunks of
blocks, each followed by the balances behind its last block. -/
namespace Bootcamp

open Layout (At at_append)

/-! ## The header -/

/-- What `extractHeader` returns and fills in. -/
structure Header where
  size : Nat
  chunks : UInt32
  chunkOff : List UInt64
  mapOff : List UInt64
  mapSz : List UInt64
  deriving DecidableEq

def loadUInt64s : Nat → Bytes → Except Abort (List UInt64 × Bytes)
  | 0, data => .ok ([], data)
  | k + 1, data => do
    let (v, data) ← loadUInt64 data
    let (vs, data) ← loadUInt64s k data
    return (v :: vs, data)

/-- Whether there is memory to resize the `i`-th table to so many entries. The
count is the file's word, and nothing has compared it with the file yet. -/
abbrev Resize := Fin 3 → UInt32 → Bool

namespace Resize

def granted : Resize := fun _ _ => true

/-- `vector.resize(n)`. -/
def table (resize : Resize) (i : Fin 3) (n : UInt32) : Except Abort Unit :=
  if resize i n then .ok () else .error .badAlloc

/-- The three tables get their entries. -/
def Grants (resize : Resize) (n : UInt32) : Prop := resize 0 n ∧ resize 1 n ∧ resize 2 n

theorem granted_grants (n : UInt32) : granted.Grants n := ⟨rfl, rfl, rfl⟩

variable {resize : Resize} {n : UInt32}

theorem Grants.tables (h : resize.Grants n) : resize.table 0 n = .ok () ∧
    resize.table 1 n = .ok () ∧ resize.table 2 n = .ok () :=
  ⟨if_pos h.1, if_pos h.2.1, if_pos h.2.2⟩

end Resize

/-- `none` is the return of 0. -/
def extractHeader (resize : Resize) (data : Bytes) : Except Abort (Option Header) := do
  let dataStart := data
  let dataSz := data.length
  if dataSz < 4 then return none
  let (chunks, data) ← loadUInt32 data
  let dataSz := dataSz - 4
  resize.table 0 chunks
  resize.table 1 chunks
  resize.table 2 chunks
  let offsetSz := 8 * chunks.toNat
  if dataSz < offsetSz * 3 then return none
  let (chunkOff, data) ← loadUInt64s chunks.toNat data
  let (mapOff, data) ← loadUInt64s chunks.toNat data
  let (mapSz, data) ← loadUInt64s chunks.toNat data
  let totalSz := 3 * offsetSz + 4
  let ptrSz := dataStart.length - data.length
  if totalSz ≠ ptrSz then throw .assertion
  return some { size := totalSz, chunks, chunkOff, mapOff, mapSz }

/-- The bytes of a vector of `uint64_t`. -/
def bytes64s (vs : List UInt64) : Bytes := vs.flatMap bytes64

/-- The header as `rewrite_chain` puts it out. -/
def writeHeader (chunks : UInt32) (chunkOff mapOff mapSz : List UInt64) : Bytes :=
  bytes32 chunks.toNat ++ bytes64s chunkOff ++ bytes64s mapOff ++ bytes64s mapSz

theorem length_bytes64s (vs : List UInt64) : (bytes64s vs).length = 8 * vs.length := by
  induction vs with
  | nil => rfl
  | cons v vs ih =>
    rw [bytes64s, List.flatMap_cons, List.length_append, length_bytes64, List.length_cons]
    rw [bytes64s] at ih
    omega

theorem loadUInt64s_append {vs : List UInt64} {k : Nat} (h : vs.length = k) (rest : Bytes) :
    loadUInt64s k (bytes64s vs ++ rest) = .ok (vs, rest) := by
  subst h
  induction vs with
  | nil => rfl
  | cons v vs ih =>
    rw [bytes64s] at ih ⊢
    simp only [List.length_cons, loadUInt64s, List.flatMap_cons, List.append_assoc,
      loadUInt64_append, Except.ok_bind, ih, Except.pure_eq_ok]

theorem length_writeHeader {chunks : UInt32} {chunkOff mapOff mapSz : List UInt64}
    (h₁ : chunkOff.length = chunks.toNat) (h₂ : mapOff.length = chunks.toNat)
    (h₃ : mapSz.length = chunks.toNat) :
    (writeHeader chunks chunkOff mapOff mapSz).length = 4 + 24 * chunks.toNat := by
  simp only [writeHeader, List.length_append, length_bytes32, length_bytes64s, h₁, h₂, h₃]
  omega

section Resize

variable {resize : Resize} {data rest : Bytes} {chunks : UInt32}

theorem extractHeader_short (h : data.length < 4) : extractHeader resize data = .ok none := by
  rw [extractHeader, if_pos h, Except.pure_eq_ok]

/-- Where the memory is there, it makes no difference. -/
theorem extractHeader_granted (hload : loadUInt32 data = .ok (chunks, rest))
    (h : resize.Grants chunks) : extractHeader resize data = extractHeader .granted data := by
  simp only [extractHeader, hload, Except.ok_bind, h.tables,
    (Resize.granted_grants chunks).tables]

/-- A resize that fails ends the program. -/
theorem extractHeader_refused (hload : loadUInt32 data = .ok (chunks, rest))
    (h4 : 4 ≤ data.length) (h : ¬ resize.Grants chunks) :
    extractHeader resize data = .error .badAlloc := by
  unfold extractHeader
  rw [if_neg (Nat.not_lt.mpr h4), hload, Except.ok_bind]
  simp only [Resize.table]
  by_cases h₀ : resize 0 chunks
  · by_cases h₁ : resize 1 chunks
    · have h₂ : ¬ resize 2 chunks := fun h₂ => h ⟨h₀, h₁, h₂⟩
      rw [if_pos h₀, if_pos h₁, if_neg h₂]
      rfl
    · rw [if_pos h₀, if_neg h₁]
      rfl
  · rw [if_neg h₀]
    rfl

/-- What has been extracted does not depend on the memory. -/
theorem extractHeader_granted_of_some {hd : Header}
    (h : extractHeader resize data = .ok (some hd)) :
    extractHeader .granted data = .ok (some hd) := by
  have h4 : 4 ≤ data.length := by
    by_contra hshort
    rw [extractHeader_short (Nat.not_le.mp hshort)] at h
    cases h
  obtain ⟨⟨chunks, rest⟩, hload⟩ : ∃ r, loadUInt32 data = .ok r := by
    rw [loadUInt32, load, if_pos h4]
    exact ⟨_, rfl⟩
  by_cases hg : resize.Grants chunks
  · rw [← h, extractHeader_granted hload hg]
  · rw [extractHeader_refused hload h4 hg] at h
    cases h

theorem extractHeader_unique {resize' : Resize} {hd hd' : Header}
    (h : extractHeader resize data = .ok (some hd))
    (h' : extractHeader resize' data = .ok (some hd')) : hd = hd' :=
  Option.some.inj (Except.ok.inj
    ((extractHeader_granted_of_some h).symm.trans (extractHeader_granted_of_some h')))

end Resize

/-- The header comes back whatever follows it. -/
theorem extractHeader_write {chunks : UInt32} {chunkOff mapOff mapSz : List UInt64}
    (h₁ : chunkOff.length = chunks.toNat) (h₂ : mapOff.length = chunks.toNat)
    (h₃ : mapSz.length = chunks.toNat) (rest : Bytes) :
    extractHeader .granted (writeHeader chunks chunkOff mapOff mapSz ++ rest) =
      .ok (some ⟨4 + 24 * chunks.toNat, chunks, chunkOff, mapOff, mapSz⟩) := by
  have hlen : (writeHeader chunks chunkOff mapOff mapSz ++ rest).length =
      4 + 24 * chunks.toNat + rest.length := by
    rw [List.length_append, length_writeHeader h₁ h₂ h₃]
  have hcount : ¬ (writeHeader chunks chunkOff mapOff mapSz ++ rest).length < 4 := by omega
  have htables : ¬ (writeHeader chunks chunkOff mapOff mapSz ++ rest).length - 4 <
      8 * chunks.toNat * 3 := by omega
  have htotal : ¬ 3 * (8 * chunks.toNat) + 4 ≠
      (writeHeader chunks chunkOff mapOff mapSz ++ rest).length - rest.length := by omega
  have hsize : 3 * (8 * chunks.toNat) + 4 = 4 + 24 * chunks.toNat := by omega
  unfold extractHeader
  simp only [hcount, if_false]
  simp only [writeHeader, List.append_assoc] at htables htotal ⊢
  simp only [loadUInt32_append, UInt32.ofNat_toNat, Except.ok_bind, htables, if_false,
    (Resize.granted_grants chunks).tables,
    loadUInt64s_append h₁, loadUInt64s_append h₂, loadUInt64s_append h₃]
  rw [if_neg htotal, hsize]
  rfl

/-! ## Chunks -/

/-- Consecutive blocks and the balance map stored behind them. -/
structure Chunk where
  blocks : List Body
  map : BalanceMap

namespace Chunk

def blockBytes (ch : Chunk) : Bytes := ch.blocks.flatMap Body.encoding

def mapBytes (ch : Chunk) : Bytes := writeBalanceMap ch.map

def bytes (ch : Chunk) : Bytes := ch.blockBytes ++ ch.mapBytes

theorem length_bytes (ch : Chunk) :
    ch.bytes.length = ch.blockBytes.length + ch.mapBytes.length := List.length_append

end Chunk

/-- Where a chunk stands in the file. -/
structure Entry where
  chunkStart : Nat
  mapStart : Nat
  mapSize : Nat

/-- The entries of chunks laid out one behind the other from `pos` on. -/
def entries : Nat → List Chunk → List Entry
  | _, [] => []
  | pos, ch :: cs =>
    let mapStart := pos + ch.blockBytes.length
    ⟨pos, mapStart, ch.mapBytes.length⟩ :: entries (mapStart + ch.mapBytes.length) cs

@[simp] theorem length_entries (pos : Nat) (cs : List Chunk) :
    (entries pos cs).length = cs.length := by
  induction cs generalizing pos with
  | nil => rfl
  | cons ch cs ih => simp [entries, ih]

/-- The header that indexes these entries. -/
def indexHeader (es : List Entry) : Bytes :=
  writeHeader (.ofNat es.length) (es.map fun e => .ofNat e.chunkStart)
    (es.map fun e => .ofNat e.mapStart) (es.map fun e => .ofNat e.mapSize)

/-- The indexed file of some chunks: the header and then nothing but the chunks. -/
def indexedFile (cs : List Chunk) : Bytes :=
  indexHeader (entries (4 + 24 * cs.length) cs) ++ cs.flatMap Chunk.bytes

/-- One behind the other: each entry points to its chunk's blocks and map, the
first chunk is at `pos`, each next one behind the map before it. -/
theorem entries_spec (pre : Bytes) (cs : List Chunk) (rest : Bytes) {i : Nat} {e : Entry}
    (he : (entries pre.length cs)[i]? = some e) : ∃ ch, cs[i]? = some ch ∧
      At (pre ++ (cs.flatMap Chunk.bytes ++ rest)) e.chunkStart ch.blockBytes ∧
      e.mapStart = e.chunkStart + ch.blockBytes.length ∧
      At (pre ++ (cs.flatMap Chunk.bytes ++ rest)) e.mapStart ch.mapBytes ∧
      e.mapSize = ch.mapBytes.length ∧
      e.mapStart + e.mapSize ≤ pre.length + (cs.flatMap Chunk.bytes).length ∧
      (i = 0 → e.chunkStart = pre.length) ∧
      (∀ e', (entries pre.length cs)[i + 1]? = some e' → e'.chunkStart = e.mapStart + e.mapSize) ∧
      (i + 1 = cs.length → e.mapStart + e.mapSize = pre.length + (cs.flatMap Chunk.bytes).length) := by
  induction cs generalizing pre i with
  | nil => cases he
  | cons ch cs ih =>
    have hfile : pre ++ ((ch :: cs).flatMap Chunk.bytes ++ rest) =
        (pre ++ ch.bytes) ++ (cs.flatMap Chunk.bytes ++ rest) := by
      simp only [List.flatMap_cons, List.append_assoc]
    have hnext : pre.length + ch.blockBytes.length + ch.mapBytes.length =
        (pre ++ ch.bytes).length := by
      rw [List.length_append, Chunk.length_bytes, Nat.add_assoc]
    have htotal : (pre ++ ch.bytes).length + (cs.flatMap Chunk.bytes).length =
        pre.length + ((ch :: cs).flatMap Chunk.bytes).length := by
      rw [List.flatMap_cons, List.length_append, List.length_append, Nat.add_assoc]
    simp only [entries, hnext] at he ⊢
    cases i with
    | zero =>
      obtain rfl := Option.some.inj he
      refine ⟨ch, rfl, ?_, rfl, ?_, rfl, ?_, fun _ => rfl, ?_, ?_⟩
      · simp only [List.flatMap_cons, Chunk.bytes, List.append_assoc]
        exact at_append pre ch.blockBytes _
      · have hmap := at_append (pre ++ ch.blockBytes) ch.mapBytes (cs.flatMap Chunk.bytes ++ rest)
        rw [List.length_append] at hmap
        simpa only [List.flatMap_cons, Chunk.bytes, List.append_assoc] using hmap
      · simp only
        omega
      · intro e' he'
        cases cs with
        | nil => cases he'
        | cons ch' cs =>
          obtain rfl := Option.some.inj he'
          exact hnext.symm
      · intro hone
        obtain rfl : cs = [] := by simpa using hone
        simp only [List.flatMap_nil, List.length_nil] at htotal
        simp only
        omega
    | succ i =>
      rw [List.getElem?_cons_succ] at he
      obtain ⟨ch', hch', hat, hmapStart, hmapAt, hmapSize, hle, -, hsucc, hlast⟩ := ih (pre ++ ch.bytes) he
      rw [hfile]
      refine ⟨ch', by simpa using hch', hat, hmapStart, hmapAt, hmapSize, by omega, by simp, ?_, ?_⟩
      · intro e' he'
        rw [List.getElem?_cons_succ] at he'
        exact hsucc e' he'
      · intro hi
        rw [hlast (by simpa using hi)]
        exact htotal

/-! ## What a header says about a file -/

namespace Header

def chunkStart (hd : Header) (i : Nat) : Nat := (hd.chunkOff.getD i 0).toNat

def mapStart (hd : Header) (i : Nat) : Nat := (hd.mapOff.getD i 0).toNat

def mapSize (hd : Header) (i : Nat) : Nat := (hd.mapSz.getD i 0).toNat

/-- The header is right about where the chunks and their maps stand, in
whatever order and with whatever between them. -/
structure Indexes (hd : Header) (file : Bytes) (cs : List Chunk) : Prop where
  chunks : hd.chunks.toNat = cs.length
  blocks : ∀ i ch, cs[i]? = some ch → At file (hd.chunkStart i) ch.blockBytes ∧
    hd.mapStart i = hd.chunkStart i + ch.blockBytes.length
  maps : ∀ i ch, cs[i]? = some ch → At file (hd.mapStart i) ch.mapBytes ∧
    hd.mapSize i = ch.mapBytes.length

/-- Besides, the chunks fill the file from the end of the header to its own. -/
structure Exact (hd : Header) (file : Bytes) (cs : List Chunk) : Prop extends
    hd.Indexes file cs where
  size : hd.size = 4 + 24 * cs.length
  first : hd.chunkStart 0 = hd.size
  next : ∀ i, i + 1 < cs.length → hd.chunkStart (i + 1) = hd.mapStart i + hd.mapSize i
  last : hd.mapStart (cs.length - 1) + hd.mapSize (cs.length - 1) = file.length

end Header

theorem length_indexHeader {es : List Entry} (h : es.length < 2 ^ 32) :
    (indexHeader es).length = 4 + 24 * es.length := by
  have hn : (UInt32.ofNat es.length).toNat = es.length := UInt32.toNat_ofNat_of_lt' h
  rw [indexHeader, length_writeHeader (by simp [hn]) (by simp [hn]) (by simp [hn]), hn]

theorem length_indexedFile {cs : List Chunk} (hcs : cs.length < 2 ^ 32) :
    (indexedFile cs).length = 4 + 24 * cs.length + (cs.flatMap Chunk.bytes).length := by
  rw [indexedFile, List.length_append, length_indexHeader (by simpa using hcs), length_entries]

/-- Below 2^64 bytes the offsets in the header of an indexed file are the real ones. -/
theorem indexedFile_exact {cs : List Chunk} (hne : cs ≠ []) (hcs : cs.length < 2 ^ 32)
    (hlen : (indexedFile cs).length < 2 ^ 64) :
    ∃ hd, extractHeader .granted (indexedFile cs) = .ok (some hd) ∧ hd.Exact (indexedFile cs) cs := by
  have hn : (UInt32.ofNat cs.length).toNat = cs.length := UInt32.toNat_ofNat_of_lt' hcs
  have hpre : (indexHeader (entries (4 + 24 * cs.length) cs)).length = 4 + 24 * cs.length := by
    rw [length_indexHeader (by simpa using hcs), length_entries]
  have hspec (i : Nat) (e : Entry) (he : (entries (4 + 24 * cs.length) cs)[i]? = some e) :=
    entries_spec (indexHeader (entries (4 + 24 * cs.length) cs)) cs [] (i := i) (e := e)
      (by rw [hpre]; exact he)
  simp only [List.append_nil, hpre] at hspec
  have hfile := length_indexedFile hcs
  rw [hfile] at hlen
  let es := entries (4 + 24 * cs.length) cs
  have hes : es.length = cs.length := length_entries _ cs
  let hd : Header := ⟨4 + 24 * cs.length, .ofNat cs.length, es.map fun e => .ofNat e.chunkStart,
    es.map fun e => .ofNat e.mapStart, es.map fun e => .ofNat e.mapSize⟩
  -- no offset is truncated
  have hentry (i : Nat) (hi : i < cs.length) : ∃ e ch, es[i]? = some e ∧ cs[i]? = some ch ∧
      hd.chunkStart i = e.chunkStart ∧ hd.mapStart i = e.mapStart ∧ hd.mapSize i = e.mapSize := by
    have he : es[i]? = some es[i] := List.getElem?_eq_getElem (by omega)
    obtain ⟨ch, hch, -, hstart, -, -, hle, -⟩ := hspec i _ he
    refine ⟨es[i], ch, he, hch, ?_, ?_, ?_⟩
    · simp only [Header.chunkStart, hd, List.getD_eq_getElem?_getD, List.getElem?_map, he,
        Option.map_some, Option.getD_some]
      exact UInt64.toNat_ofNat_of_lt' (by simp only [UInt64.size]; omega)
    · simp only [Header.mapStart, hd, List.getD_eq_getElem?_getD, List.getElem?_map, he,
        Option.map_some, Option.getD_some]
      exact UInt64.toNat_ofNat_of_lt' (by simp only [UInt64.size]; omega)
    · simp only [Header.mapSize, hd, List.getD_eq_getElem?_getD, List.getElem?_map, he,
        Option.map_some, Option.getD_some]
      exact UInt64.toNat_ofNat_of_lt' (by simp only [UInt64.size]; omega)
  have hpos := List.length_pos_iff.mpr hne
  have hchunk (i : Nat) (ch : Chunk) (hch : cs[i]? = some ch) :
      (At (indexedFile cs) (hd.chunkStart i) ch.blockBytes ∧
        hd.mapStart i = hd.chunkStart i + ch.blockBytes.length) ∧
      At (indexedFile cs) (hd.mapStart i) ch.mapBytes ∧ hd.mapSize i = ch.mapBytes.length := by
    obtain ⟨e, ch', he, hch', hs, hm, hz⟩ := hentry i (List.getElem?_eq_some_iff.mp hch).1
    obtain rfl : ch' = ch := Option.some.inj (hch'.symm.trans hch)
    obtain ⟨ch'', hch'', hat, hstart, hmap, hsize, -⟩ := hspec i e he
    obtain rfl : ch'' = ch' := Option.some.inj (hch''.symm.trans hch')
    rw [hs, hm, hz]
    exact ⟨⟨hat, hstart⟩, hmap, hsize⟩
  refine ⟨hd, ?_, ⟨⟨hn, fun i ch h => (hchunk i ch h).1, fun i ch h => (hchunk i ch h).2⟩,
    rfl, ?_, ?_, ?_⟩⟩
  · have htable (f : Entry → UInt64) : (es.map f).length = (UInt32.ofNat cs.length).toNat := by
      rw [List.length_map, hes, hn]
    have hread := extractHeader_write (htable fun e => .ofNat e.chunkStart)
      (htable fun e => .ofNat e.mapStart) (htable fun e => .ofNat e.mapSize)
      (cs.flatMap Chunk.bytes)
    rw [hn] at hread
    rw [indexedFile, indexHeader, hes]
    exact hread
  · obtain ⟨e, ch, he, -, hs, -, -⟩ := hentry 0 hpos
    obtain ⟨-, -, -, -, -, -, -, hfirst, -⟩ := hspec 0 e he
    rw [hs, hfirst rfl]
  · intro i hi
    obtain ⟨e, ch, he, -, -, hm, hz⟩ := hentry i (by omega)
    obtain ⟨e', ch', he', -, hs', -, -⟩ := hentry (i + 1) hi
    obtain ⟨-, -, -, -, -, -, -, -, hnext, -⟩ := hspec i e he
    rw [hs', hm, hz, hnext e' he']
  · obtain ⟨e, ch, he, -, -, hm, hz⟩ := hentry (cs.length - 1) (by omega)
    obtain ⟨-, -, -, -, -, -, -, -, -, hlast⟩ := hspec _ e he
    rw [hm, hz, hfile, hlast (by omega)]

end Bootcamp
