import Bootcamp.Blockchain.Reader
import Bootcamp.Blockchain.Indexed
import Bootcamp.Lib.Chains

/-! `rewritechain` loads a chain and writes it out as an indexed file: one pass
over the blocks predicts the offsets, a second one writes. -/
namespace Bootcamp

open Chains (Chain)
open Layout (Split)

/-! ## Loading -/

/-- The variables of the loading loop. The block of turn `i` lives at `⟨0, i⟩`. -/
structure LoadState where
  heap : Heap
  bmap : BlockMap
  tip : Option Ptr
  i : Nat

def LoadState.start : LoadState := ⟨.empty, ∅, none, 0⟩

namespace Rewritechain

/-- A block enters the map and becomes the tip before it is validated, and
stays there if it is not valid. -/
def visit (c : Crypto) (st : LoadState) (_ : Nat) (blk : Block) : Except Abort LoadState := do
  let it : Ptr := ⟨0, st.i⟩
  let bmap := st.bmap.insert blk.blkHash it
  let (valid, blk) ← blk.validate c st.heap
  let bmap := if valid then bmap.insert blk.blkHash it else bmap
  if ¬ (st.i = 0 ∨ blk.prevBlock ≠ none) then throw .assertion
  return { heap := st.heap.set it blk, bmap, tip := some it, i := st.i + 1 }

def loader (c : Crypto) : Reader LoadState where
  heap := LoadState.heap
  bmap := LoadState.bmap
  visit := visit c

def load (c : Crypto) (data : Bytes) : Except Abort LoadState :=
  (loader c).run data data.length .start

/-! ## Writing -/

/-- `std::map<block_t*, block_t*>`. -/
abbrev NextMap := OrderedMap Ptr (Option Ptr)

/-- The loop from the tip's predecessor back to the coinbase: `ptr` is looked
at, `nxt` is the block before which it comes. A chain without a cycle has no
more blocks than there are objects, which bounds the turns. -/
def trackBack (heap : Heap) : Nat → Option Ptr → Ptr → NextMap → Except Abort (NextMap × Ptr)
  | _, none, nxt, nextMap => .ok (nextMap, nxt)
  | 0, some _, _, _ => .error .diverges
  | k + 1, some ptr, nxt, nextMap =>
    trackBack heap k (heap ptr).prevBlock ptr (nextMap.insert ptr (some nxt))

/-- The loop that fills `blocks` from the coinbase on; `operator[]` gives NULL
for a missing key. -/
def collect (nextMap : NextMap) : Nat → Option Ptr → Except Abort (List Ptr)
  | _, none => .ok []
  | 0, some _ => .error .diverges
  | k + 1, some ptr => do
    let rest ← collect nextMap k ((nextMap.find? ptr).getD none)
    return ptr :: rest

/-- What goes into the set of unsigned chunk ends, for `n` blocks. -/
def chunkEnds (n : Nat) (chunks : UInt32) : List UInt32 :=
  let chunkSz : UInt64 := .ofNat n / chunks.toUInt64
  (List.range chunks.toNat).map fun i =>
    let chunkEnd : UInt64 :=
      (if i = chunks.toNat - 1 then .ofNat n else chunkSz * .ofNat (i + 1)) - 1
    chunkEnd.toUInt32

/-- One element of each of the three vectors of offsets. -/
structure Offsets where
  chunkStart : UInt64
  mapStart : UInt64
  mapSize : UInt64

/-- The first pass, from block `i` on. -/
def predict (ends : List UInt32) (heap : Heap) : Nat → List Ptr → UInt64 → UInt64 → List Offsets
  | _, [], _, _ => []
  | i, x :: xs, filePos, prevEnd =>
    let filePos := filePos + .ofNat (heap x).size
    if UInt32.ofNat i ∈ ends then
      let mapSz : UInt64 := .ofNat (balanceMapSize (heap x).balances)
      ⟨prevEnd, filePos, mapSz⟩ :: predict ends heap (i + 1) xs (filePos + mapSz) (filePos + mapSz)
    else predict ends heap (i + 1) xs filePos prevEnd

/-- The second pass, from block `i` and map `j` on; `out` is what the file
holds so far, so that its length is `tellp`. -/
def writeBlocks (ends : List UInt32) (heap : Heap) (chunks : UInt32) (mapStarts : List UInt64) :
    Nat → Nat → List Ptr → Bytes → Except Abort Bytes
  | _, _, [], out => .ok out
  | i, j, x :: xs, out => do
    let bs ← (heap x).write
    let out := out ++ bs
    if UInt32.ofNat i ∈ ends then
      if ¬ j < chunks.toNat then throw .assertion
      if mapStarts[j]? ≠ some (.ofNat out.length) then throw .assertion
      writeBlocks ends heap chunks mapStarts (i + 1) (j + 1) xs
        (out ++ writeBalanceMap (heap x).balances)
    else writeBlocks ends heap chunks mapStarts (i + 1) j xs out

/-- `rewrite_chain`: the bytes of the file it writes. `objects` is how many
blocks have been allocated. -/
def rewriteChain (heap : Heap) (objects : Nat) (tip : Option Ptr) (chunks : UInt32) :
    Except Abort Bytes := do
  if ¬ 1 < chunks then throw .assertion
  match tip with
  | none => throw .nullPointer
  | some tip =>
    let (nextMap, head) ← trackBack heap objects (heap tip).prevBlock tip (OrderedMap.insert ∅ tip none)
    if nextMap.size ≠ (heap tip).length.toNat then throw .assertion
    let blocks ← collect nextMap objects (some head)
    if blocks.length ≠ (heap tip).length.toNat then throw .assertion
    let ends := chunkEnds blocks.length chunks
    let filePos : UInt64 := 4 + (3 * chunks).toUInt64 * 8
    let offsets := predict ends heap 0 blocks filePos filePos
    if offsets.length ≠ chunks.toNat then throw .assertion
    let header := writeHeader chunks (offsets.map Offsets.chunkStart)
      (offsets.map Offsets.mapStart) (offsets.map Offsets.mapSize)
    writeBlocks ends heap chunks (offsets.map Offsets.mapStart) 0 0 blocks header

/-- `main`, on a file and with the number that `atoi` made of the argument. -/
def main (c : Crypto) (data : Bytes) (chunks : UInt32) : Except Abort Bytes := do
  let st ← load c data
  rewriteChain st.heap st.i st.tip chunks

/-! ## The blocks of the chain -/

/-- What `next_map` says comes behind a block. -/
abbrev next (m : NextMap) (x : Ptr) : Option Ptr := (m.find? x).getD none

/-- Tracking back turns the chain around. -/
theorem trackBack_chain {heap : Heap} {k : Nat} {q nxt : Ptr} {l r : List Ptr} {m : NextMap}
    (hl : Chain heap.prev q l) (hk : l.length ≤ k) (hr : Chain (next m) nxt r)
    (hkeys : ∀ x, (m.find? x).isSome ↔ x ∈ r) (hdisj : ∀ x ∈ l, x ∉ r) (hnodup : l.Nodup) :
    ∃ m' head, trackBack heap k (some q) nxt m = .ok (m', head) ∧
      Chain (next m') head (l.reverse ++ r) ∧ m'.size = m.size + l.length := by
  induction hl generalizing k nxt r m with
  | @last q hq =>
    obtain ⟨k, rfl⟩ : ∃ k', k = k' + 1 := ⟨k - 1, by simp at hk; omega⟩
    have hnew : m.find? q = none := by
      rw [← Option.not_isSome_iff_eq_none, hkeys]
      exact hdisj q List.mem_cons_self
    refine ⟨m.insert q (some nxt), q, by rw [trackBack, show (heap q).prevBlock = none from hq, trackBack], ?_, ?_⟩
    · refine .link (by simp [next]) (hr.congr fun x hx => ?_)
      have hne : x ≠ q := fun heq => hdisj q List.mem_cons_self (heq ▸ hx)
      rw [next, OrderedMap.find_insert_of_ne _ _ hne]
    · rw [OrderedMap.size_insert_new _ hnew]
      rfl
  | @link q q' l hq hl ih =>
    obtain ⟨k, rfl⟩ : ∃ k', k = k' + 1 := ⟨k - 1, by simp at hk; omega⟩
    have hnew : m.find? q = none := by
      rw [← Option.not_isSome_iff_eq_none, hkeys]
      exact hdisj q List.mem_cons_self
    obtain ⟨hq_mem, hnodup⟩ := List.nodup_cons.mp hnodup
    have hr' : Chain (next (m.insert q (some nxt))) q (q :: r) := by
      refine .link (by simp [next]) (hr.congr fun x hx => ?_)
      have hne : x ≠ q := fun heq => hdisj q List.mem_cons_self (heq ▸ hx)
      rw [next, OrderedMap.find_insert_of_ne _ _ hne]
    have hkeys' : ∀ x, ((m.insert q (some nxt)).find? x).isSome ↔ x ∈ q :: r := by
      intro x
      rw [OrderedMap.find_insert]
      by_cases hx : x = q
      · simp [hx]
      · simp [hx, hkeys]
    have hdisj' : ∀ x ∈ l, x ∉ q :: r := by
      intro x hx hmem
      rcases List.mem_cons.mp hmem with rfl | hmem
      · exact hq_mem hx
      · exact hdisj x (List.mem_cons_of_mem _ hx) hmem
    obtain ⟨m', head, htrack, hchain, hsize⟩ := ih (k := k) (by simpa using hk) hr' hkeys' hdisj' hnodup
    refine ⟨m', head, by rw [trackBack, show (heap q).prevBlock = some q' from hq, htrack], ?_, ?_⟩
    · rw [List.reverse_cons, List.append_assoc]
      exact hchain
    · rw [hsize, OrderedMap.size_insert_new _ hnew, List.length_cons]
      omega

theorem collect_chain {m : NextMap} {k : Nat} {x : Ptr} {l : List Ptr} (hl : Chain (next m) x l)
    (hk : l.length ≤ k) : collect m k (some x) = .ok l := by
  induction hl generalizing k with
  | last hx =>
    obtain ⟨k, rfl⟩ : ∃ k', k = k' + 1 := ⟨k - 1, by simp at hk; omega⟩
    rw [collect, show (m.find? _).getD none = none from hx, collect]
    rfl
  | link hx _ ih =>
    obtain ⟨k, rfl⟩ : ∃ k', k = k' + 1 := ⟨k - 1, by simp at hk; omega⟩
    rw [collect, show (m.find? _).getD none = some _ from hx, ih (by simpa using hk)]
    rfl

/-- Both loops over a chain, from its tip: the blocks in order, and the sizes
that the assertions compare. -/
theorem track_and_collect {heap : Heap} {objects : Nat} {t : Ptr} {l : List Ptr}
    (hl : Chain heap.prev t l) (hk : l.length ≤ objects) : ∃ m head,
      trackBack heap objects (heap t).prevBlock t (OrderedMap.insert ∅ t none) = .ok (m, head) ∧
      m.size = l.length ∧ collect m objects (some head) = .ok l.reverse := by
  have hnodup := hl.nodup
  have hsize : (OrderedMap.insert (∅ : NextMap) t none).size = 1 := rfl
  have hstart : Chain (next (OrderedMap.insert ∅ t none)) t [t] := .last (by simp [next])
  have hkeys : ∀ x, ((OrderedMap.insert (∅ : NextMap) t none).find? x).isSome ↔ x ∈ [t] := by
    intro x
    rw [OrderedMap.find_insert]
    by_cases hx : x = t <;> simp [hx]
  cases hl with
  | last ht =>
    refine ⟨_, t, by rw [show (heap t).prevBlock = none from ht, trackBack], hsize, ?_⟩
    exact collect_chain hstart hk
  | @link _ q l ht hl =>
    obtain ⟨ht_mem, hnodup⟩ := List.nodup_cons.mp hnodup
    have hdisj : ∀ x ∈ l, x ∉ [t] := by
      intro x hx hmem
      exact ht_mem (List.mem_singleton.mp hmem ▸ hx)
    obtain ⟨m, head, htrack, hchain, hm⟩ :=
      trackBack_chain hl (Nat.le_of_succ_le hk) hstart hkeys hdisj hnodup
    refine ⟨m, head, by rw [show (heap t).prevBlock = some q from ht, htrack], ?_, ?_⟩
    · rw [hm, hsize, List.length_cons, Nat.add_comm]
    · rw [List.reverse_cons]
      exact collect_chain hchain (by simpa using hk)

/-! ## The ends of the chunks -/

/-- The end of chunk `j` of `k` without overflow. -/
def endOf (n k j : Nat) : Nat := (if j = k - 1 then n else n / k * (j + 1)) - 1

theorem endOf_lt {n k j : Nat} (hk : 2 ≤ k) (hn : k ≤ n) (hj : j < k) : endOf n k j < n := by
  have hle : n / k * (j + 1) ≤ n :=
    (Nat.mul_le_mul_left _ hj).trans (Nat.div_mul_le_self n k)
  rw [endOf]
  split <;> omega

/-- Later chunks end later, the last one included. -/
theorem endOf_strictMono {n k j j' : Nat} (hk : 2 ≤ k) (hn : k ≤ n) (hj : j < j') (hj' : j' < k) :
    endOf n k j < endOf n k j' := by
  have hq : 1 ≤ n / k := (Nat.one_le_div_iff (by omega)).mpr hn
  have hstep : n / k * (j + 1) + n / k ≤ n / k * (j' + 1) := by
    rw [← Nat.mul_succ]
    exact Nat.mul_le_mul_left _ (by omega)
  have hle : n / k * (j' + 1) ≤ n :=
    (Nat.mul_le_mul_left _ hj').trans (Nat.div_mul_le_self n k)
  have hpos : n / k * 1 ≤ n / k * (j + 1) := Nat.mul_le_mul_left _ (by omega)
  rw [endOf, endOf, if_neg (by omega)]
  split <;> omega

theorem mem_chunkEnds {n i : Nat} {chunks : UInt32} (hk : 2 ≤ chunks.toNat)
    (hn : chunks.toNat ≤ n) (hbound : n < 2 ^ 32) (hi : i < n) :
    UInt32.ofNat i ∈ chunkEnds n chunks ↔ ∃ j < chunks.toNat, endOf n chunks.toNat j = i := by
  have hvalue (j : Nat) (hj : j < chunks.toNat) :
      ((if j = chunks.toNat - 1 then UInt64.ofNat n
        else UInt64.ofNat n / chunks.toUInt64 * .ofNat (j + 1)) - 1).toUInt32.toNat =
          endOf n chunks.toNat j := by
    have hle : n / chunks.toNat * (j + 1) ≤ n :=
      (Nat.mul_le_mul_left _ hj).trans (Nat.div_mul_le_self n _)
    have hpos : n / chunks.toNat * 1 ≤ n / chunks.toNat * (j + 1) := Nat.mul_le_mul_left _ (by omega)
    have hq : 1 ≤ n / chunks.toNat := (Nat.one_le_div_iff (by omega)).mpr hn
    have hofNat (m : Nat) (hm : m ≤ n) : (UInt64.ofNat m).toNat = m :=
      UInt64.toNat_ofNat_of_lt' (by simp only [UInt64.size]; omega)
    have hmul : (UInt64.ofNat n / chunks.toUInt64 * .ofNat (j + 1)).toNat =
        n / chunks.toNat * (j + 1) := by
      rw [UInt64.toNat_mul, UInt64.toNat_div, hofNat n le_rfl, hofNat (j + 1) (by omega),
        UInt32.toNat_toUInt64, Nat.mod_eq_of_lt (by omega)]
    have hsum : (if j = chunks.toNat - 1 then UInt64.ofNat n
        else UInt64.ofNat n / chunks.toUInt64 * .ofNat (j + 1)).toNat =
          if j = chunks.toNat - 1 then n else n / chunks.toNat * (j + 1) := by
      split
      · exact hofNat n le_rfl
      · exact hmul
    have hone : (1 : UInt64) ≤ if j = chunks.toNat - 1 then UInt64.ofNat n
        else UInt64.ofNat n / chunks.toUInt64 * .ofNat (j + 1) := by
      rw [UInt64.le_iff_toNat_le, hsum]
      split <;> simp <;> omega
    have hlt := endOf_lt hk hn hj
    rw [UInt64.toNat_toUInt32, UInt64.toNat_sub_of_le _ _ hone, hsum]
    rw [endOf] at hlt ⊢
    exact Nat.mod_eq_of_lt (by simp at hlt ⊢; omega)
  have hself : (UInt32.ofNat i).toNat = i := UInt32.toNat_ofNat_of_lt' (by simp only [UInt32.size]; omega)
  simp only [chunkEnds, List.mem_map, List.mem_range]
  constructor
  · rintro ⟨j, hj, heq⟩
    refine ⟨j, hj, ?_⟩
    rw [← hvalue j hj, heq, hself]
  · rintro ⟨j, hj, heq⟩
    refine ⟨j, hj, ?_⟩
    apply UInt32.toNat_inj.mp
    rw [hvalue j hj, heq, hself]

/-- The ends cut the blocks into as many chunks as were asked for. -/
theorem exists_chunks {bs : List Ptr} {chunks : UInt32} (hk : 2 ≤ chunks.toNat)
    (hn : chunks.toNat ≤ bs.length) (hbound : bs.length < 2 ^ 32) :
    ∃ gs, Split (fun i => UInt32.ofNat i ∈ chunkEnds bs.length chunks) 0 bs gs ∧
      gs.length = chunks.toNat := by
  have hlast : bs ≠ [] → UInt32.ofNat (0 + bs.length - 1) ∈ chunkEnds bs.length chunks := by
    intro _
    refine (mem_chunkEnds hk hn hbound (by omega)).mpr ⟨chunks.toNat - 1, by omega, ?_⟩
    rw [endOf, if_pos rfl, Nat.zero_add]
  obtain ⟨gs, hgs⟩ := Split.exists_split
    (fun i => UInt32.ofNat i ∈ chunkEnds bs.length chunks) 0 bs hlast
  refine ⟨gs, hgs, ?_⟩
  have himage : (Finset.range bs.length).filter
      (fun i => UInt32.ofNat (0 + i) ∈ chunkEnds bs.length chunks) =
        (Finset.range chunks.toNat).image (endOf bs.length chunks.toNat) := by
    ext i
    simp only [Finset.mem_filter, Finset.mem_range, Finset.mem_image, Nat.zero_add]
    constructor
    · rintro ⟨hi, hmem⟩
      exact (mem_chunkEnds hk hn hbound hi).mp hmem
    · rintro ⟨j, hj, rfl⟩
      have hlt := endOf_lt hk hn hj
      exact ⟨hlt, (mem_chunkEnds hk hn hbound hlt).mpr ⟨j, hj, rfl⟩⟩
  rw [hgs.length_eq, himage, Finset.card_image_of_injOn, Finset.card_range]
  intro j hj j' hj' heq
  simp only [Finset.coe_range, Set.mem_Iio] at hj hj'
  rcases Nat.lt_trichotomy j j' with hlt | rfl | hlt
  · exact absurd heq (endOf_strictMono hk hn hlt hj').ne
  · rfl
  · exact absurd heq (endOf_strictMono hk hn hlt hj).ne'

/-! ## The two passes -/

/-- The chunk that some consecutive blocks make up. -/
def chunkOf (heap : Heap) (g : List Ptr) : Chunk where
  blocks := g.map fun x => (heap x).toBody
  map := (g.getLast?.map fun x => (heap x).balances).getD ∅

theorem blockBytes_cons (heap : Heap) (x : Ptr) (g : List Ptr) :
    (chunkOf heap (x :: g)).blockBytes = (heap x).encoding ++ (chunkOf heap g).blockBytes := by
  simp [chunkOf, Chunk.blockBytes]

theorem map_cons (heap : Heap) (x : Ptr) {g : List Ptr} (hg : g ≠ []) :
    (chunkOf heap (x :: g)).map = (chunkOf heap g).map := by
  simp only [chunkOf, List.getLast?_cons_of_ne_nil hg]

def Offsets.ofEntry (e : Entry) : Offsets :=
  ⟨.ofNat e.chunkStart, .ofNat e.mapStart, .ofNat e.mapSize⟩

/-- The first pass inside a chunk that began at `prevEnd`, `done` bytes behind it. -/
theorem predict_split {ends : List UInt32} (heap : Heap) {i : Nat} {bs : List Ptr}
    {gs : List (List Ptr)} (h : Split (fun i => UInt32.ofNat i ∈ ends) i bs gs)
    (prevEnd done : Nat) :
    predict ends heap i bs (.ofNat (prevEnd + done)) (.ofNat prevEnd) =
      match gs.map (chunkOf heap) with
      | [] => []
      | ch :: cs =>
        let mapStart := prevEnd + done + ch.blockBytes.length
        .ofEntry ⟨prevEnd, mapStart, ch.mapBytes.length⟩ ::
          (entries (mapStart + ch.mapBytes.length) cs).map .ofEntry := by
  induction h generalizing prevEnd done with
  | nil => rfl
  | @close i x bs gs hi _ ih =>
    have hblock : (chunkOf heap [x]).blockBytes.length = (heap x).size := by
      simp [chunkOf, Chunk.blockBytes]
    have hmap : (chunkOf heap [x]).mapBytes.length = balanceMapSize (heap x).balances := by
      simp [chunkOf, Chunk.mapBytes, length_writeBalanceMap]
    have hrest := ih (prevEnd + done + (heap x).size + balanceMapSize (heap x).balances) 0
    simp only [Nat.add_zero] at hrest
    simp only [predict, hi, if_true, List.map_cons, hblock, hmap, Offsets.ofEntry,
      ← UInt64.ofNat_add, hrest]
    cases gs with
    | nil => rfl
    | cons g gs => rfl
  | @extend i x bs g gs hi hsplit ih =>
    have hg := hsplit.ne_nil g List.mem_cons_self
    have hblock : (chunkOf heap (x :: g)).blockBytes.length =
        (heap x).size + (chunkOf heap g).blockBytes.length := by
      rw [blockBytes_cons, List.length_append, Body.length_encoding]
    have hmap : (chunkOf heap (x :: g)).mapBytes = (chunkOf heap g).mapBytes := by
      rw [Chunk.mapBytes, Chunk.mapBytes, map_cons heap x hg]
    have hrest := ih prevEnd (done + (heap x).size)
    simp only [predict, hi, if_false, List.map_cons, hblock, hmap, ← UInt64.ofNat_add,
      Nat.add_assoc] at hrest ⊢
    exact hrest

/-- The second pass meets the offsets of the first, whatever the file holds so far. -/
theorem writeBlocks_split {ends : List UInt32} {heap : Heap} {chunks : UInt32}
    {mapStarts : List UInt64} {i j : Nat} {bs : List Ptr} {gs : List (List Ptr)}
    (h : Split (fun i => UInt32.ofNat i ∈ ends) i bs gs) (hw : ∀ x ∈ bs, (heap x).Writable)
    (hlen : mapStarts.length = chunks.toNat) (out : Bytes) {prevEnd : UInt64}
    (hstarts : mapStarts.drop j =
      (predict ends heap i bs (.ofNat out.length) prevEnd).map Offsets.mapStart) :
    writeBlocks ends heap chunks mapStarts i j bs out =
      .ok (out ++ (gs.map (chunkOf heap)).flatMap Chunk.bytes) := by
  induction h generalizing j out prevEnd with
  | nil => simp [writeBlocks]
  | @close i x bs gs hi _ ih =>
    obtain ⟨hx, hw⟩ := List.forall_mem_cons.mp hw
    have hout : (out ++ (heap x).encoding).length = out.length + (heap x).size := by simp
    simp only [predict, hi, if_true, List.map_cons, ← UInt64.ofNat_add] at hstarts
    have hget : mapStarts[j]? = some (.ofNat (out ++ (heap x).encoding).length) := by
      rw [hout, ← List.head?_drop, hstarts]
      rfl
    have hj : j < chunks.toNat := hlen ▸ (List.getElem?_eq_some_iff.mp hget).1
    have htail : mapStarts.drop (j + 1) = (predict ends heap (i + 1) bs
        (.ofNat (out ++ (heap x).encoding ++ writeBalanceMap (heap x).balances).length)
        (.ofNat (out.length + (heap x).size + balanceMapSize (heap x).balances))).map
          Offsets.mapStart := by
      rw [List.length_append, hout, length_writeBalanceMap, ← List.tail_drop, hstarts]
      rfl
    rw [writeBlocks, Body.write_eq_ok.mpr ⟨hx, rfl⟩, Except.ok_bind]
    simp only [hi, if_true, hj, hget, not_true_eq_false, if_false, ne_eq]
    rw [ih hw _ htail]
    simp [chunkOf, Chunk.bytes, Chunk.blockBytes, Chunk.mapBytes]
  | @extend i x bs g gs hi hsplit ih =>
    obtain ⟨hx, hw⟩ := List.forall_mem_cons.mp hw
    have hg := hsplit.ne_nil g List.mem_cons_self
    simp only [predict, hi, if_false, ← UInt64.ofNat_add] at hstarts
    have htail : mapStarts.drop j = (predict ends heap (i + 1) bs
        (.ofNat (out ++ (heap x).encoding).length) prevEnd).map Offsets.mapStart := by
      rw [List.length_append, Body.length_encoding, hstarts]
    have hbytes : (chunkOf heap (x :: g)).bytes = (heap x).encoding ++ (chunkOf heap g).bytes := by
      rw [Chunk.bytes, Chunk.bytes, blockBytes_cons, Chunk.mapBytes, map_cons heap x hg,
        List.append_assoc, Chunk.mapBytes]
    rw [writeBlocks, Body.write_eq_ok.mpr ⟨hx, rfl⟩, Except.ok_bind]
    simp only [hi, if_false, ih hw _ htail, List.map_cons, List.flatMap_cons, hbytes,
      List.append_assoc]

/-! ## The file -/

theorem filePos_eq {chunks : UInt32} (h : 3 * chunks.toNat < 2 ^ 32) :
    (4 + (3 * chunks).toUInt64 * 8 : UInt64) = .ofNat (4 + 24 * chunks.toNat) := by
  have hmul : (3 * chunks).toNat = 3 * chunks.toNat := by
    rw [UInt32.toNat_mul]
    exact Nat.mod_eq_of_lt (by simp; omega)
  apply UInt64.toNat_inj.mp
  rw [UInt64.toNat_ofNat_of_lt' (by simp only [UInt64.size]; omega), UInt64.toNat_add,
    UInt64.toNat_mul, UInt32.toNat_toUInt64, hmul]
  simp
  omega

/-- No assertion fails, and the file has every block of the chain once, in
order, cut into the chunks that were asked for. -/
theorem rewriteChain_eq {heap : Heap} {objects : Nat} {t : Ptr} {l : List Ptr} {chunks : UInt32}
    (hl : Chain heap.prev t l) (hobj : l.length ≤ objects) (hlen : (heap t).length.toNat = l.length)
    (hw : ∀ x ∈ l, (heap x).Writable) (h2 : 2 ≤ chunks.toNat) (hk : chunks.toNat ≤ l.length)
    (hn : l.length < 2 ^ 30) : ∃ gs : List (List Ptr), gs.length = chunks.toNat ∧
      (∀ g ∈ gs, g ≠ []) ∧ gs.flatten = l.reverse ∧
      rewriteChain heap objects (some t) chunks = .ok (indexedFile (gs.map (chunkOf heap))) := by
  obtain ⟨m, head, htrack, hsize, hcollect⟩ := track_and_collect hl hobj
  rw [← List.length_reverse] at hk hn
  obtain ⟨gs, hsplit, hgs⟩ := exists_chunks h2 hk (show l.reverse.length < 2 ^ 32 by omega)
  refine ⟨gs, hgs, hsplit.ne_nil, hsplit.flatten, ?_⟩
  have hone : ¬ ¬ 1 < chunks := by
    rw [not_not, UInt32.lt_iff_toNat_lt]
    exact h2
  have hpredict : predict (chunkEnds l.reverse.length chunks) heap 0 l.reverse
      (.ofNat (4 + 24 * chunks.toNat)) (.ofNat (4 + 24 * chunks.toNat)) =
        (entries (4 + 24 * chunks.toNat) (gs.map (chunkOf heap))).map .ofEntry := by
    have h := predict_split heap hsplit (4 + 24 * chunks.toNat) 0
    rw [Nat.add_zero] at h
    rw [h]
    cases gs with
    | nil => rfl
    | cons g gs => rfl
  have hheader : writeHeader chunks
      (((entries (4 + 24 * chunks.toNat) (gs.map (chunkOf heap))).map .ofEntry).map Offsets.chunkStart)
      (((entries (4 + 24 * chunks.toNat) (gs.map (chunkOf heap))).map .ofEntry).map Offsets.mapStart)
      (((entries (4 + 24 * chunks.toNat) (gs.map (chunkOf heap))).map .ofEntry).map Offsets.mapSize) =
        indexHeader (entries (4 + 24 * chunks.toNat) (gs.map (chunkOf heap))) := by
    simp only [indexHeader, length_entries, List.length_map, hgs, UInt32.ofNat_toNat, List.map_map]
    rfl
  have hheaderLen : (indexHeader (entries (4 + 24 * chunks.toNat) (gs.map (chunkOf heap)))).length =
      4 + 24 * chunks.toNat := by
    rw [length_indexHeader (by simp [hgs]; omega), length_entries, List.length_map, hgs]
  have hwrite := writeBlocks_split (j := 0) hsplit
    (fun x hx => hw x (List.mem_reverse.mp hx))
    (show (((entries (4 + 24 * chunks.toNat) (gs.map (chunkOf heap))).map Offsets.ofEntry).map
      Offsets.mapStart).length = chunks.toNat by simp [hgs])
    (indexHeader (entries (4 + 24 * chunks.toNat) (gs.map (chunkOf heap))))
    (by rw [List.drop_zero, hheaderLen, hpredict])
  have hoffsets : ¬ ((entries (4 + 24 * chunks.toNat) (gs.map (chunkOf heap))).map
      Offsets.ofEntry).length ≠ chunks.toNat := by simp [hgs]
  have hfile : indexedFile (gs.map (chunkOf heap)) =
      indexHeader (entries (4 + 24 * chunks.toNat) (gs.map (chunkOf heap))) ++
        (gs.map (chunkOf heap)).flatMap Chunk.bytes := by
    rw [indexedFile, List.length_map, hgs]
  rw [rewriteChain, if_neg hone]
  simp only [htrack, hsize, hlen, hcollect, List.length_reverse, ne_eq, not_true_eq_false, if_false,
    Except.ok_bind, filePos_eq (show 3 * chunks.toNat < 2 ^ 32 by omega)]
  rw [List.length_reverse] at hpredict
  rw [hpredict, if_neg hoffsets, hheader, hfile]
  rw [List.length_reverse] at hwrite
  exact hwrite

end Rewritechain

end Bootcamp
