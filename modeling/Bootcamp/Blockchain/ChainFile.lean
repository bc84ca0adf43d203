import Bootcamp.Blockchain.Linear
import Bootcamp.Blockchain.Parallel
import Bootcamp.Lib.Segments

/-! An indexed file of one linear chain. Where every chunk verifies, the tails
hang together as the chunks do, and every run prints the end of the chain. -/
namespace Bootcamp

open Chains (Chain)

/-- A chain that `block_t::write` can encode, from a coinbase to its last block. -/
structure LinearChain (bs : List Body) : Prop where
  writable : ∀ b ∈ bs, b.Writable
  linked : Body.Linked .zero bs
  named : ∀ b ∈ bs, b.blkHash ≠ .zero
  distinct : (bs.map Body.blkHash).Nodup

/-- The file has a correct header of such a chain, cut into chunks with any maps. -/
structure ChainFile (data : Bytes) (cs : List Chunk) : Prop where
  header : ∃ hd, extractHeader .granted data = .ok (some hd) ∧ hd.Indexes data cs
  count : 1 ≤ cs.length ∧ cs.length ≤ 32
  blocks : ∀ ch ∈ cs, ch.blocks ≠ []
  maps : ∀ ch ∈ cs, ch.map.size < 2 ^ 32
  chain : LinearChain (cs.flatMap Chunk.blocks)

/-- Blocks to run through and balances to end with. -/
def Chunk.segment (ch : Chunk) : List Body × BalanceMap := (ch.blocks, ch.map)

/-- The balances that the file has in front of a chunk. -/
def initAt (cs : List Chunk) (k : Nat) : BalanceMap := Segments.stored ∅ (cs.map Chunk.segment) k

/-- The hash that the first block of a chunk names. -/
def hashAt (cs : List Chunk) (k : Nat) : HashResult :=
  Segments.stored .zero (cs.map fun ch => (ch.blocks, Body.endHash .zero ch.blocks)) k

/-- The number of blocks in front of a chunk. -/
def startAt (cs : List Chunk) (k : Nat) : Nat := ((cs.take k).map fun ch => ch.blocks.length).sum

section

variable {cs : List Chunk} {k : Nat} {ch : Chunk}

@[simp] theorem initAt_zero : initAt cs 0 = ∅ := Segments.stored_zero

@[simp] theorem hashAt_zero : hashAt cs 0 = .zero := Segments.stored_zero

theorem initAt_succ (hk : cs[k]? = some ch) : initAt cs (k + 1) = ch.map := by
  have hseg : (cs.map Chunk.segment)[k]? = some (ch.blocks, ch.map) := by
    rw [List.getElem?_map, hk]
    rfl
  exact Segments.stored_succ hseg

theorem hashAt_succ (hk : cs[k]? = some ch) :
    hashAt cs (k + 1) = Body.endHash .zero ch.blocks := by
  have hseg : (cs.map fun ch => (ch.blocks, Body.endHash .zero ch.blocks))[k]? =
      some (ch.blocks, Body.endHash .zero ch.blocks) := by
    rw [List.getElem?_map, hk]
    rfl
  exact Segments.stored_succ hseg

theorem startAt_succ (hk : cs[k]? = some ch) :
    startAt cs (k + 1) = startAt cs k + ch.blocks.length := by
  simp [startAt, List.take_add_one, hk]

theorem startAt_mono {i j : Nat} (h : i ≤ j) : startAt cs i ≤ startAt cs j := by
  induction h with
  | refl => exact le_rfl
  | @step j _ ih =>
    apply ih.trans
    simp [startAt, List.take_add_one]

theorem startAt_length : startAt cs cs.length = (cs.flatMap Chunk.blocks).length := by
  rw [startAt, List.take_length, List.length_flatMap]

/-- The blocks up to the end of a chunk are no more than there are. -/
theorem startAt_add_le (hk : cs[k]? = some ch) :
    startAt cs k + ch.blocks.length ≤ (cs.flatMap Chunk.blocks).length := by
  rw [← startAt_succ hk, ← startAt_length]
  exact startAt_mono (List.getElem?_eq_some_iff.mp hk).1

theorem linkedAt {h : HashResult} {cs : List Chunk} {k : Nat} {ch : Chunk}
    (hl : Body.Linked h (cs.flatMap Chunk.blocks)) (hne : ∀ ch ∈ cs, ch.blocks ≠ [])
    (hk : cs[k]? = some ch) : Body.Linked
      (Segments.stored h (cs.map fun ch => (ch.blocks, Body.endHash .zero ch.blocks)) k) ch.blocks := by
  induction cs generalizing h k with
  | nil => cases hk
  | cons ch' cs ih =>
    rw [List.flatMap_cons, Body.linked_append] at hl
    obtain ⟨hne', hne⟩ := List.forall_mem_cons.mp hne
    cases k with
    | zero =>
      obtain rfl := Option.some.inj hk
      exact hl.1
    | succ k =>
      rw [Body.endHash_of_ne_nil hne' h .zero] at hl
      exact ih hl.2 hne hk

end

namespace ChainFile

/-- The indexed file of such chunks is one. -/
theorem indexed {cs : List Chunk} (count : 1 ≤ cs.length ∧ cs.length ≤ 32)
    (blocks : ∀ ch ∈ cs, ch.blocks ≠ []) (maps : ∀ ch ∈ cs, ch.map.size < 2 ^ 32)
    (chain : LinearChain (cs.flatMap Chunk.blocks)) (size : (indexedFile cs).length < 2 ^ 64) :
    ChainFile (indexedFile cs) cs := by
  obtain ⟨hd, hhd, hexact⟩ := indexedFile_exact (List.length_pos_iff.mp count.1) (by omega) size
  exact ⟨⟨hd, hhd, hexact.toIndexes⟩, count, blocks, maps, chain⟩

variable {data : Bytes} {cs : List Chunk} {k : Nat} {ch : Chunk}

theorem ne_nil (hfile : ChainFile data cs) (hk : cs[k]? = some ch) : ch.blocks ≠ [] :=
  hfile.blocks ch (List.mem_iff_getElem?.mpr ⟨k, hk⟩)

theorem mem (hk : cs[k]? = some ch) {b : Body} (hb : b ∈ ch.blocks) :
    b ∈ cs.flatMap Chunk.blocks :=
  List.mem_flatMap.mpr ⟨ch, List.mem_iff_getElem?.mpr ⟨k, hk⟩, hb⟩

theorem named (hfile : ChainFile data cs) (hk : cs[k]? = some ch) :
    ∀ b ∈ ch.blocks, b.blkHash ≠ .zero :=
  fun b hb => hfile.chain.named b (mem hk hb)

theorem linked (hfile : ChainFile data cs) (hk : cs[k]? = some ch) :
    Body.Linked (hashAt cs k) ch.blocks :=
  linkedAt hfile.chain.linked hfile.blocks hk

theorem endHash_ne_zero (hfile : ChainFile data cs) (hk : cs[k]? = some ch) (h : HashResult) :
    Body.endHash h ch.blocks ≠ .zero := by
  obtain ⟨b, hb, heq⟩ := List.mem_map.mp (Body.endHash_mem (hfile.ne_nil hk) h)
  rw [← heq]
  exact hfile.named hk b hb

/-- Only the first chunk starts with a coinbase. -/
theorem hashAt_eq_zero (hfile : ChainFile data cs) (hk : cs[k]? = some ch) :
    hashAt cs k = .zero ↔ k = 0 := by
  cases k with
  | zero => simp
  | succ k =>
    have hlt := (List.getElem?_eq_some_iff.mp hk).1
    have hprev : cs[k]? = some cs[k] := List.getElem?_eq_getElem (by omega)
    rw [hashAt_succ hprev]
    simpa using hfile.endHash_ne_zero hprev .zero

/-- A hash of one chunk is not one of another chunk. -/
theorem chunk_unique (hfile : ChainFile data cs) {k k' : Nat} {ch ch' : Chunk} (hk : cs[k]? = some ch)
    (hk' : cs[k']? = some ch') {h : HashResult} (hh : h ∈ ch.blocks.map Body.blkHash)
    (hh' : h ∈ ch'.blocks.map Body.blkHash) : k = k' := by
  have hdistinct := hfile.chain.distinct
  rw [List.map_flatMap, List.nodup_flatMap] at hdistinct
  obtain ⟨hlt, rfl⟩ := List.getElem?_eq_some_iff.mp hk
  obtain ⟨hlt', rfl⟩ := List.getElem?_eq_some_iff.mp hk'
  have hpair := List.pairwise_iff_getElem.mp hdistinct.2
  rcases Nat.lt_trichotomy k k' with h' | h' | h'
  · exact absurd hh' (hpair k k' hlt hlt' h' hh)
  · exact h'
  · exact absurd hh (hpair k' k hlt' hlt h' hh')

/-- The file holds each chunk where its thread looks for it. -/
theorem chunkAt (hfile : ChainFile data cs) {resize : Resize} {hd : Header}
    (hhd : extractHeader resize data = .ok (some hd)) (hk : cs[k]? = some ch) :
    ChunkAt data (hd.prevMapOff k) (hd.chunkOff.getD k 0) (hd.mapOff.getD k 0) (initAt cs k) ch := by
  obtain ⟨hd', hhd', hindex⟩ := hfile.header
  obtain rfl : hd = hd' := extractHeader_unique hhd hhd'
  have hmap {i : Nat} {ch' : Chunk} (hi : cs[i]? = some ch') :
      readBalanceMap (data.drop (hd.mapOff.getD i 0).toNat) = .ok ch'.map := by
    obtain ⟨rest, hrest⟩ := (hindex.maps i ch' hi).1.drop
    rw [Header.mapStart] at hrest
    rw [hrest]
    exact readBalanceMap_write (hfile.maps ch' (List.mem_iff_getElem?.mpr ⟨i, hi⟩)) rest
  have hend {i : Nat} {ch' : Chunk} (hi : cs[i]? = some ch') :
      (hd.mapOff.getD i 0).toNat = (hd.chunkOff.getD i 0).toNat + ch'.blockBytes.length :=
    (hindex.blocks i ch' hi).2
  refine ⟨(hindex.blocks k ch hk).1, ?_, ?_, ?_, hmap hk⟩
  · have hsize := hend hk
    rw [UInt64.toNat_sub_of_le _ _ (UInt64.le_iff_toNat_le.mpr (by omega))]
    omega
  · exact fun b hb => hfile.chain.writable b (mem hk hb)
  · cases k with
    | zero =>
      rw [initAt_zero]
      rfl
    | succ k =>
      have hlt := (List.getElem?_eq_some_iff.mp hk).1
      have hprev : cs[k]? = some cs[k] := List.getElem?_eq_getElem (by omega)
      have hpos : 0 < cs[k].blockBytes.length := by
        rw [Chunk.blockBytes, Body.length_encodings]
        obtain ⟨b, bs, hbs⟩ := List.exists_cons_of_ne_nil (hfile.ne_nil hprev)
        have := b.size_pos
        rw [hbs, List.map_cons, List.sum_cons]
        omega
      have hne : hd.mapOff.getD k 0 ≠ 0 := by
        intro hzero
        have hsize := hend hprev
        rw [hzero] at hsize
        simp only [UInt64.toNat_zero] at hsize
        omega
      rw [initAt_succ hprev, Header.prevMapOff, if_neg (Nat.succ_ne_zero k), Nat.add_sub_cancel,
        readInitBal, if_pos hne]
      exact hmap hprev

theorem prevMapOff_zero (hfile : ChainFile data cs) (hd : Header) (hk : cs[k]? = some ch) :
    hashAt cs k = .zero → hd.prevMapOff k = 0 := by
  intro hz
  obtain rfl := (hfile.hashAt_eq_zero hk).mp hz
  rfl

end ChainFile

theorem twoChunks_chainFile : ChainFile (indexedFile twoChunks) twoChunks :=
  .indexed (by decide) (by decide) (by decide +kernel)
    ⟨by decide, by decide, by decide, by decide⟩ (by decide +kernel)

end Bootcamp
