import Bootcamp.Blockchain.ChainFile
import Mathlib.Algebra.Order.BigOperators.Group.List

/-! Reading a linear chain in parallel is reading it from front to back: a run
prints the end of the chain exactly when every chunk verifies from the balances
stored in front of it. -/
namespace Bootcamp

open Chains (Chain)

namespace Run

variable {day : ChunkDay} {c : Crypto} {data : Bytes} {cs : List Chunk}
  {run : Run day.readChunk c data} {k : Nat} {ch : Chunk} {r : ChunkResult}

theorem length_results_eq (hfile : ChainFile data cs) : run.results.length = cs.length := by
  obtain ⟨hd, hhd, hindex⟩ := hfile.header
  obtain rfl : run.header = hd := extractHeader_unique run.extracted hhd
  rw [length_results, hindex.chunks]

theorem exists_result (hfile : ChainFile data cs) (hk : cs[k]? = some ch) :
    ∃ r, run.results[k]? = some r := by
  have hlt := (List.getElem?_eq_some_iff.mp hk).1
  rw [← length_results_eq hfile] at hlt
  exact ⟨_, List.getElem?_eq_getElem hlt⟩

theorem exists_chunk (hfile : ChainFile data cs) (hr : run.results[k]? = some r) :
    ∃ ch, cs[k]? = some ch := by
  have hlt := (List.getElem?_eq_some_iff.mp hr).1
  rw [length_results_eq hfile] at hlt
  exact ⟨_, List.getElem?_eq_getElem hlt⟩

/-! ## Every chunk verifies -/

/-- Every thread has accepted its whole chunk and registered. -/
def AllComplete (run : Run day.readChunk c data) (cs : List Chunk) : Prop :=
  ∀ (k : Nat) (ch : Chunk), cs[k]? = some ch → ∃ r : ChunkResult,
    run.results[k]? = some r ∧ r.Complete k (hashAt cs k) ch.blocks

theorem allComplete (hfile : ChainFile data cs)
    (hv : ∀ k ch, cs[k]? = some ch → Verifies day c (initAt cs k) ch) : run.AllComplete cs := by
  intro k ch hk
  obtain ⟨r, hr⟩ := exists_result hfile hk
  obtain ⟨r', hr', hcomplete⟩ := (hfile.chunkAt run.extracted hk).complete (hfile.ne_nil hk)
    (hfile.linked hk) (hfile.named hk) (hfile.prevMapOff_zero run.header hk) (hv k ch hk)
  obtain rfl : r = r' := Except.ok.inj ((thread hr).2.symm.trans hr')
  exact ⟨r, hr, hcomplete⟩

/-- The tails are the ends of the chunks. -/
theorem AllComplete.tail_cases (hall : run.AllComplete cs) (hfile : ChainFile data cs) {h : HashResult}
    {p : Ptr} (hf : run.shared.tails.find? h = some p) : ∃ ch, cs[p.thread]? = some ch ∧
      p.serial = ch.blocks.length ∧ h = Body.endHash (hashAt cs p.thread) ch.blocks := by
  obtain ⟨r, hr, hop, -, hhash⟩ := tail_of_find hf
  obtain ⟨ch, hk⟩ := exists_chunk hfile hr
  obtain ⟨r', hr', hcomplete⟩ := hall _ ch hk
  obtain rfl : r = r' := Option.some.inj (hr.symm.trans hr')
  obtain ⟨init, final, -, -, hs, -⟩ := sound hr
  obtain ⟨-, -, -, htip⟩ := hs.tail h p hop
  obtain ⟨-, hend, -, htip'⟩ := hs.tail _ _ hcomplete.tail
  have hp : p = ⟨p.thread, ch.blocks.length⟩ := Option.some.inj (htip.symm.trans htip')
  refine ⟨ch, hk, congrArg Ptr.serial hp, ?_⟩
  rw [hend, ← hp, hhash]

/-- The end of a chunk is the only tail with its hash. -/
theorem AllComplete.find_tail (hall : run.AllComplete cs) (hfile : ChainFile data cs)
    (hk : cs[k]? = some ch) (h : HashResult) :
    run.shared.tails.find? (Body.endHash h ch.blocks) = some ⟨k, ch.blocks.length⟩ := by
  have hne := hfile.ne_nil hk
  rw [Body.endHash_of_ne_nil hne h (hashAt cs k)]
  obtain ⟨r, hr, hcomplete⟩ := hall k ch hk
  obtain ⟨p, hp⟩ := Option.ne_none_iff_exists'.mp (find_of_tail hr hcomplete.tail)
  obtain ⟨ch', hk', hser, hhash⟩ := hall.tail_cases hfile hp
  have hthread : k = p.thread := by
    apply hfile.chunk_unique hk hk' (Body.endHash_mem hne (hashAt cs k))
    rw [hhash]
    exact Body.endHash_mem (hfile.ne_nil hk') _
  obtain rfl : ch = ch' := by
    rw [← hthread] at hk'
    exact Option.some.inj (hk.symm.trans hk')
  rw [hp, hthread, ← hser]

/-- The threads' own blocks. -/
def Cell (cs : List Chunk) (x : Ptr) : Prop :=
  ∃ ch, cs[x.thread]? = some ch ∧ 0 < x.serial ∧ x.serial ≤ ch.blocks.length

/-- The place of a block in the chain. -/
def place (cs : List Chunk) (x : Ptr) : Nat := startAt cs x.thread + x.serial

theorem cell_end (hfile : ChainFile data cs) (hk : cs[k]? = some ch) :
    Cell cs ⟨k, ch.blocks.length⟩ :=
  ⟨ch, hk, List.length_pos_iff.mpr (hfile.ne_nil hk), le_rfl⟩

theorem place_le {x : Ptr} (hx : Cell cs x) : place cs x ≤ (cs.flatMap Chunk.blocks).length := by
  obtain ⟨ch, hk, -, hle⟩ := hx
  have := startAt_add_le hk
  rw [place]
  omega

/-- Only a block of the last chunk can have all blocks in front of it. -/
theorem thread_of_place {x : Ptr} (hfile : ChainFile data cs) (hx : Cell cs x)
    (hle : (cs.flatMap Chunk.blocks).length ≤ place cs x) : cs.length = x.thread + 1 := by
  obtain ⟨ch, hk, -, hser⟩ := hx
  have hlt := (List.getElem?_eq_some_iff.mp hk).1
  by_contra hne
  have hnext : cs[x.thread + 1]? = some cs[x.thread + 1] := List.getElem?_eq_getElem (by omega)
  have hbefore := startAt_add_le hnext
  have hpos := List.length_pos_iff.mpr (hfile.ne_nil hnext)
  rw [startAt_succ hk] at hbefore
  rw [place] at hle
  omega

/-- The last chunk ends with the hash of the whole file. -/
theorem endHash_last (hfile : ChainFile data cs) (hlast : cs[k]? = some ch)
    (hk : cs.length = k + 1) (h : HashResult) :
    Body.endHash .zero (cs.flatMap Chunk.blocks) = Body.endHash h ch.blocks := by
  have hcs : cs = cs.take k ++ [ch] := by
    have htake : cs.take (k + 1) = cs.take k ++ [ch] := by
      rw [List.take_add_one, hlast]
      rfl
    rwa [← hk, List.take_length] at htake
  rw [hcs, List.flatMap_append, Body.endHash_append]
  rw [List.flatMap_singleton]
  exact Body.endHash_of_ne_nil (hfile.ne_nil hlast) _ _

/-- The first block of a chunk is a head unless it is the first of all. -/
theorem AllComplete.isHead_iff (hall : run.AllComplete cs) (hfile : ChainFile data cs)
    (hk : cs[k]? = some ch) (hr : run.results[k]? = some r) :
    (r.state.heap ⟨k, 1⟩).prevHash = hashAt cs k ∧ (IsHead r.state ⟨k, 1⟩ ↔ k ≠ 0) := by
  obtain ⟨r', hr', hcomplete⟩ := hall k ch hk
  obtain rfl : r = r' := Option.some.inj (hr.symm.trans hr')
  obtain ⟨b, bs, hbs⟩ := List.exists_cons_of_ne_nil (hfile.ne_nil hk)
  obtain ⟨hmem, hbody⟩ := hcomplete.row 0 b (by rw [hbs]; rfl)
  have hlinked := hfile.linked hk
  rw [hbs] at hlinked
  have hprev : (r.state.heap ⟨k, 1⟩).prevHash = hashAt cs k := by
    rw [← hlinked.1, ← hbody]
  refine ⟨hprev, ?_⟩
  rw [IsHead, hprev, ne_eq, hfile.hashAt_eq_zero hk]
  exact ⟨fun h => h.2.2, fun h => ⟨hmem, rfl, h⟩⟩

theorem AllComplete.heads_found (hall : run.AllComplete cs) (hfile : ChainFile data cs) :
    ∀ p ∈ run.headOrder, run.shared.tails.find? (run.heap p).prevHash ≠ none := by
  intro p hp
  obtain ⟨r, hr, hhead⟩ := head_of_mem (mem_headOrder.mp hp)
  obtain ⟨ch, hk⟩ := exists_chunk hfile hr
  obtain ⟨thread, serial⟩ := p
  obtain rfl : serial = 1 := hhead.2.1
  obtain ⟨hprev, hiff⟩ := hall.isHead_iff hfile hk hr
  have hthread : thread ≠ 0 := hiff.mp hhead
  obtain ⟨j, rfl⟩ : ∃ j, thread = j + 1 := ⟨thread - 1, by omega⟩
  have hlt : j + 1 < cs.length := (List.getElem?_eq_some_iff.mp hk).1
  have hj : cs[j]? = some cs[j] := List.getElem?_eq_getElem (by omega)
  rw [heap_eq hr, hprev, hashAt_succ hj, hall.find_tail hfile hj]
  simp

/-- After linking, each block points to the one in the place before its own. -/
theorem AllComplete.prev_place (hall : run.AllComplete cs) (hfile : ChainFile data cs) {heap : Heap}
    (hl : Linked run.shared.tails run.headOrder run.heap heap) {x : Ptr} (hx : Cell cs x) :
    (heap.prev x = none ∧ place cs x = 1) ∨
      ∃ q, heap.prev x = some q ∧ Cell cs q ∧ place cs q + 1 = place cs x := by
  obtain ⟨ch, hk, hpos, hle⟩ := hx
  obtain ⟨thread, serial⟩ := x
  obtain ⟨r, hr, hcomplete⟩ := hall thread ch hk
  obtain ⟨init, final, -, -, hs, -⟩ := sound hr
  simp only at hpos hle hk
  have hother (hnot : ¬ IsHead r.state ⟨thread, serial⟩) :
      heap.prev ⟨thread, serial⟩ = r.state.heap.prev ⟨thread, serial⟩ := by
    rw [hl.other _ fun hmem => hnot ?_, Heap.prev, heap_eq hr]
    obtain ⟨r', hr', hhead⟩ := head_of_mem (mem_headOrder.mp hmem)
    obtain rfl : r = r' := Option.some.inj (hr.symm.trans hr')
    exact hhead
  obtain ⟨j, rfl⟩ : ∃ j, serial = j + 1 := ⟨serial - 1, by omega⟩
  by_cases hj : j = 0
  · subst hj
    obtain ⟨hprev, hiff⟩ := hall.isHead_iff hfile hk hr
    by_cases hthread : thread = 0
    · left
      subst hthread
      rw [hother (fun h => hiff.mp h rfl)]
      obtain ⟨b, bs, hbs⟩ := List.exists_cons_of_ne_nil (hfile.ne_nil hk)
      obtain ⟨m, hsource, -⟩ := hs.inv.checked _ (hcomplete.row 0 b (by rw [hbs]; rfl)).1
      rw [hashAt_zero] at hprev
      refine ⟨?_, by simp [place, startAt]⟩
      cases hsource with
      | coinbase _ hnone => exact hnone
      | head _ hne => exact absurd hprev hne
      | orphan hser => exact absurd rfl hser
      | link hser => exact absurd rfl hser
    · right
      have hhead := hiff.mpr hthread
      have hmem := mem_headOrder.mpr (mem_of_head hr ⟨_, _, hcomplete.tail⟩ hhead)
      obtain ⟨i, rfl⟩ : ∃ i, thread = i + 1 := ⟨thread - 1, by omega⟩
      have hlt := (List.getElem?_eq_some_iff.mp hk).1
      have hi : cs[i]? = some cs[i] := List.getElem?_eq_getElem (by omega)
      refine ⟨⟨i, cs[i].blocks.length⟩, ?_, cell_end hfile hi, ?_⟩
      · rw [hl.head _ hmem, heap_eq hr, hprev, hashAt_succ hi, hall.find_tail hfile hi]
      · rw [place, place, startAt_succ hi]
  · right
    refine ⟨⟨thread, j⟩, ?_, ⟨ch, hk, by simp only; omega, by simp only; omega⟩, by simp only [place]; omega⟩
    rw [hother fun h => hj (by simpa using h.2.1)]
    exact hcomplete.linked j (by omega) (by omega)

/-- So the chain from a block has as many blocks as its place says. -/
theorem AllComplete.chain (hall : run.AllComplete cs) (hfile : ChainFile data cs) {heap : Heap}
    (hl : Linked run.shared.tails run.headOrder run.heap heap) {x : Ptr} (hx : Cell cs x) :
    ∃ l, Chain heap.prev x l ∧ l.length = place cs x := by
  have hdown (p q : Ptr) (hp : Cell cs p) (hq : heap.prev p = some q) :
      Cell cs q ∧ place cs q + 1 = place cs p := by
    rcases hall.prev_place hfile hl hp with ⟨hnone, -⟩ | ⟨q', hq', hcell, hplace⟩
    · rw [hnone] at hq
      cases hq
    · obtain rfl := Option.some.inj (hq.symm.trans hq')
      exact ⟨hcell, hplace⟩
  have hroot (p : Ptr) (hp : Cell cs p) (hnone : heap.prev p = none) : place cs p = 1 := by
    rcases hall.prev_place hfile hl hp with ⟨-, hplace⟩ | ⟨q, hq, -⟩
    · exact hplace
    · rw [hnone] at hq
      cases hq
  obtain ⟨l, hchain, -⟩ := Chains.exists_chain (place cs)
    (fun p q hp hq => ⟨(hdown p q hp hq).1, by have := (hdown p q hp hq).2; omega⟩) hx
  exact ⟨l, hchain, hchain.length_eq_rank hdown hroot hx⟩

theorem AllComplete.blocks_eq (hall : run.AllComplete cs) (hfile : ChainFile data cs) :
    run.blocks = (cs.flatMap Chunk.blocks).length := by
  have hcounts : (run.results.map fun r => r.state.i) = cs.map fun ch => ch.blocks.length := by
    apply List.ext_getElem?
    intro k
    rw [List.getElem?_map, List.getElem?_map]
    cases hk : cs[k]? with
    | none =>
      have hle := List.getElem?_eq_none_iff.mp hk
      rw [← length_results_eq hfile] at hle
      rw [List.getElem?_eq_none_iff.mpr hle]
      rfl
    | some ch =>
      obtain ⟨r, hr, hcomplete⟩ := hall k ch hk
      rw [hr, Option.map_some, Option.map_some, hcomplete.count]
  rw [blocks, hcounts, List.length_flatMap]

theorem AllComplete.cell_of_find (hall : run.AllComplete cs) (hfile : ChainFile data cs)
    {h : HashResult} {p : Ptr} (hf : run.shared.tails.find? h = some p) : Cell cs p := by
  obtain ⟨ch, hk, hser, -⟩ := hall.tail_cases hfile hf
  exact ⟨ch, hk, by rw [hser]; exact List.length_pos_iff.mpr (hfile.ne_nil hk), hser.le⟩

/-- Whatever the order, the main thread comes to its end. -/
theorem AllComplete.returns (hall : run.AllComplete cs) (hfile : ChainFile data cs) :
    ∃ f, run.final = .ok f ∧ f.valid = true := by
  have hlinked := linkHeads_linked (linkHeads_iff.mpr (hall.heads_found hfile))
  have hblocks := hall.blocks_eq hfile
  have hobjects := run.blocks_lt_objects
  obtain ⟨f, hf⟩ : ∃ f, run.final = .ok f := by
    apply finish_returns
    rintro ⟨h, p⟩ he
    have hfind := OrderedMap.find_eq_some.mpr (run.tailPerm.mem_iff.mp he)
    have hcell := hall.cell_of_find hfile hfind
    obtain ⟨l, hl, hlen⟩ := hall.chain hfile hlinked hcell
    have := place_le hcell
    exact ⟨l, hl, by omega⟩
  exact ⟨f, hf, (finish_spec hf).1.mpr (hall.heads_found hfile)⟩

/-- The length of a tail is its place, up to the 32 bits. -/
theorem AllComplete.length_eq (hall : run.AllComplete cs) (hfile : ChainFile data cs) {f : Final}
    (hf : run.Finished f) {h : HashResult} {p : Ptr} (hfind : run.shared.tails.find? h = some p) :
    (f.heap p).length = UInt32.ofNat (place cs p) := by
  obtain ⟨l, hl, hlen⟩ := hf.counted p (mem_ends.mpr ⟨h, hfind⟩)
  obtain ⟨l', hl', hplace⟩ := hall.chain hfile hf.linked (hall.cell_of_find hfile hfind)
  rw [hlen, hl.unique hl', hplace]

theorem AllComplete.prints (hall : run.AllComplete cs) (hfile : ChainFile data cs)
    (hn : (cs.flatMap Chunk.blocks).length < 2 ^ 32) :
    run.line = .ok (.blk (Body.endHash .zero (cs.flatMap Chunk.blocks))
      (.ofNat (cs.flatMap Chunk.blocks).length)) := by
  obtain ⟨f, hfinal, hvalid⟩ := hall.returns hfile
  have hf := finished_of_valid hfinal hvalid
  have hcount := hfile.count.1
  have htoNat {i : Nat} (hi : i ≤ (cs.flatMap Chunk.blocks).length) : (UInt32.ofNat i).toNat = i :=
    UInt32.toNat_ofNat_of_lt' (by simp only [UInt32.size]; omega)
  -- the end of the last chunk
  obtain ⟨k, hk⟩ : ∃ k, cs.length = k + 1 := ⟨cs.length - 1, by omega⟩
  obtain ⟨last, hlast⟩ : ∃ last, cs[k]? = some last :=
    ⟨_, List.getElem?_eq_getElem (show k < cs.length by omega)⟩
  have hfind := hall.find_tail hfile hlast .zero
  have htotal : place cs ⟨k, last.blocks.length⟩ = (cs.flatMap Chunk.blocks).length := by
    rw [place, ← startAt_succ hlast, ← hk, startAt_length]
  have hlen := hall.length_eq hfile hf hfind
  rw [htotal] at hlen
  have hmem := mem_ends.mpr ⟨_, hfind⟩
  have hpos : 0 < (cs.flatMap Chunk.blocks).length := by
    obtain ⟨-, -, hpos, -⟩ := cell_end hfile hlast
    have := startAt_add_le hlast
    simp only at hpos
    omega
  cases htip : f.tip with
  | none =>
    have hzero := congrArg UInt32.toNat (hlen.symm.trans (hf.none.mp htip _ hmem))
    rw [htoNat le_rfl] at hzero
    exact absurd hzero (Nat.ne_of_gt hpos)
  | some t =>
    obtain ⟨hmemt, hmax⟩ := hf.tip t htip
    obtain ⟨h, hfindt⟩ := mem_ends.mp hmemt
    have hlent := hall.length_eq hfile hf hfindt
    have hplace := place_le (hall.cell_of_find hfile hfindt)
    have hle := UInt32.le_iff_toNat_le.mp (hmax _ hmem)
    rw [hlen, hlent, htoNat le_rfl, htoNat hplace] at hle
    have hthread := thread_of_place hfile (hall.cell_of_find hfile hfindt) hle
    obtain ⟨ch, hkt, -, hhash⟩ := hall.tail_cases hfile hfindt
    have htail : Body.endHash .zero (cs.flatMap Chunk.blocks) = h := by
      rw [hhash, endHash_last hfile hkt hthread]
    have hnumber : (f.heap t).length = .ofNat (cs.flatMap Chunk.blocks).length := by
      rw [hlent, Nat.le_antisymm hplace hle]
    rw [htail, ← hnumber]
    exact line_of_tip hfinal hvalid htip hfindt

/-! ## Every block is on the reported chain -/

theorem length_accepted (hfile : ChainFile data cs) (hk : cs[k]? = some ch)
    (hr : run.results[k]? = some r) : r.state.accepted.length ≤ ch.blocks.length := by
  obtain ⟨init, final, hinit, -, hs, hran⟩ := sound hr
  have hat := hfile.chunkAt run.extracted hk
  obtain rfl : init = initAt cs k := Except.ok.inj (hinit.symm.trans hat.init)
  rcases hran with rfl | hran
  · exact Nat.zero_le _
  · obtain ⟨-, -, hle, -⟩ := ChunkDay.steps_count known_start (readInitBal_zero hinit)
      (hat.ran_iff.mp hran)
    simpa [ChunkState.start] using hle

/-- A run that reports as many blocks as there are has accepted them all. -/
theorem all_entered (hfile : ChainFile data cs) {hash : HashResult} {len : UInt32}
    (h : run.line = .ok (.blk hash len)) (hlen : len.toNat = (cs.flatMap Chunk.blocks).length)
    (hk : cs[k]? = some ch) (hr : run.results[k]? = some r) :
    r.state.accepted.length = ch.blocks.length ∧ r.Registered := by
  obtain ⟨f, t, l, -, -, hf, ht, hl, rfl, -⟩ := line_eq_blk h
  have hsub := chain_subperm hf.linked hl ht
  let zipped := run.results.zip cs
  have hfst : zipped.map Prod.fst = run.results := List.map_fst_zip (length_results_eq hfile).le
  have hsnd : zipped.map Prod.snd = cs := List.map_snd_zip (length_results_eq hfile).ge
  have haccepted : run.accepted.length = (zipped.map fun z => z.1.state.accepted.length).sum := by
    rw [accepted, List.length_flatMap, ← hfst, List.map_map]
    rfl
  have htotal : (cs.flatMap Chunk.blocks).length = (zipped.map fun z => z.2.blocks.length).sum := by
    rw [List.length_flatMap, ← hsnd, List.map_map]
    rfl
  have hle : ∀ z ∈ zipped, z.1.state.accepted.length ≤ z.2.blocks.length := by
    intro z hz
    obtain ⟨i, hi⟩ := List.mem_iff_getElem?.mp hz
    obtain ⟨hr, hk⟩ := List.getElem?_zip_eq_some.mp hi
    exact length_accepted hfile hk hr
  have hsum := List.sum_le_sum hle
  have hshort := hsub.length_le
  have hmod : (UInt32.ofNat l.length).toNat ≤ l.length := by
    rw [UInt32.toNat_ofNat']
    exact Nat.mod_le _ _
  have hcount : r.state.accepted.length = ch.blocks.length := by
    have hz : (r, ch) ∈ zipped :=
      List.mem_iff_getElem?.mpr ⟨k, List.getElem?_zip_eq_some.mpr ⟨hr, hk⟩⟩
    by_contra hne
    have hlt : (r, ch).1.state.accepted.length < (r, ch).2.blocks.length :=
      lt_of_le_of_ne (hle _ hz) hne
    have := List.sum_lt_sum _ _ hle ⟨_, hz, hlt⟩
    omega
  refine ⟨hcount, ?_⟩
  have hpos := List.length_pos_iff.mpr (hfile.ne_nil hk)
  obtain ⟨x, hx⟩ := List.exists_mem_of_length_pos (hcount ▸ hpos)
  have hperm := hsub.perm_of_length_le (by omega)
  have hmem : x ∈ run.accepted :=
    List.mem_flatMap.mpr ⟨r, List.mem_iff_getElem?.mpr ⟨k, hr⟩, hx⟩
  obtain ⟨r', hr', -, hreg⟩ := chain_entered hf.linked hl ht x (hperm.mem_iff.mpr hmem)
  obtain ⟨init, final, -, -, hs, -⟩ := sound hr
  rw [(hs.inv.own x hx).1, hr] at hr'
  rwa [Option.some.inj hr']

theorem verifies_of_prints (hfile : ChainFile data cs) {hash : HashResult} {len : UInt32}
    (h : run.line = .ok (.blk hash len)) (hlen : len.toNat = (cs.flatMap Chunk.blocks).length)
    (hk : cs[k]? = some ch) : Verifies day c (initAt cs k) ch := by
  obtain ⟨r, hr⟩ := exists_result hfile hk
  obtain ⟨hcount, hreg⟩ := all_entered hfile h hlen hk hr
  exact (hfile.chunkAt run.extracted hk).verifies (hfile.ne_nil hk) (hfile.linked hk)
    (hfile.named hk) (hfile.prevMapOff_zero run.header hk) (thread hr).2 hreg hcount.ge

end Run

/-! ## Parallel and sequential verification -/

section

variable {day : ChunkDay} {c : Crypto} {data : Bytes} {cs : List Chunk}

/-- Where every chunk verifies no thread aborts. -/
theorem exists_run (hfile : ChainFile data cs)
    (hv : ∀ k ch, cs[k]? = some ch → Verifies day c (initAt cs k) ch) :
    Nonempty (Run day.readChunk c data) := by
  obtain ⟨hd, hhd, hindex⟩ := hfile.header
  have hcount := hfile.count
  refine ⟨Run.inOrder hd hhd (by rw [hindex.chunks]; omega) ?_⟩
  intro t ht
  obtain ⟨k, hk, rfl⟩ := List.mem_map.mp ht
  rw [List.mem_range, hindex.chunks] at hk
  have hget : cs[k]? = some cs[k] := List.getElem?_eq_getElem hk
  obtain ⟨r, hr, -⟩ := (hfile.chunkAt hhd hget).complete (hfile.ne_nil hget) (hfile.linked hget)
    (hfile.named hget) (hfile.prevMapOff_zero hd hget) (hv k _ hget)
  rw [hr]
  rfl

/-- The blocks are valid one after the other from empty balances, and the balances
at the end of each chunk are `balance_maps_equal` to the stored ones. -/
def Sequential (c : Crypto) (cs : List Chunk) : Prop :=
  Segments.Global (Body.accept c) (fun m m' => balanceMapsEqual m m' = true) ∅
    (cs.map Chunk.segment)

theorem local_iff_verifies : Segments.Local (Body.accept c) (fun m m' => day.agrees m m' = true) ∅
    (cs.map Chunk.segment) ↔ ∀ k ch, cs[k]? = some ch → Verifies day c (initAt cs k) ch := by
  rw [Segments.local_iff_stored]
  constructor
  · intro h k ch hk
    exact h k ch.blocks ch.map (by rw [List.getElem?_map, hk]; rfl)
  · intro h k bs t hk
    rw [List.getElem?_map] at hk
    obtain ⟨ch, hch, heq⟩ := Option.map_eq_some_iff.mp hk
    obtain ⟨rfl, rfl⟩ := Prod.mk.inj heq
    exact h k ch hch

/-- Chunks verified apart are a chain verified as one. -/
theorem sequential_iff :
    Sequential c cs ↔ ∀ k ch, cs[k]? = some ch → Verifies .four c (initAt cs k) ch := by
  have hagrees : (fun m m' => ChunkDay.four.agrees m m' = true) = BalanceMap.Same := by
    funext m m'
    exact propext balanceMapsEqual_iff_same
  have hequal : (fun m m' => balanceMapsEqual m m' = true) = BalanceMap.Same := hagrees
  rw [← local_iff_verifies, Sequential, hagrees, hequal]
  exact (Segments.local_iff_global (f := Body.accept c) (fun _ _ _ _ hs hb => Body.accept_same hs hb)
    ⟨.refl, .symm, .trans⟩ (.refl ∅)).symm

end

/-- On every file of a linear chain of fewer than 2^32 blocks, however it is cut and
whatever maps it stores, and in every run: day 4 prints the last block with the number
of blocks exactly when the chain is valid from front to back and the maps are right. -/
theorem readindexed_iff_sequential {c : Crypto} {data : Bytes} {cs : List Chunk} {bn : Body}
    (hfile : ChainFile data cs) (hbn : (cs.flatMap Chunk.blocks).getLast? = some bn)
    (hn : (cs.flatMap Chunk.blocks).length < 2 ^ 32) :
    (∀ run : Run ChunkDay.four.readChunk c data,
      (∃ len : UInt32, run.line = .ok (.blk bn.blkHash len) ∧
        len.toNat = (cs.flatMap Chunk.blocks).length) ↔ Sequential c cs) ∧
    (Sequential c cs → Nonempty (Run ChunkDay.four.readChunk c data)) := by
  rw [sequential_iff]
  refine ⟨fun run => ⟨?_, fun hv => ?_⟩, exists_run hfile⟩
  · rintro ⟨len, hline, hlen⟩ k ch hk
    exact Run.verifies_of_prints hfile hline hlen hk
  · have hall : run.AllComplete cs := Run.allComplete hfile hv
    have hprints := hall.prints hfile hn
    rw [Body.endHash_of_getLast hbn] at hprints
    exact ⟨_, hprints, UInt32.toNat_ofNat_of_lt' (by simp only [UInt32.size]; omega)⟩

theorem twoChunks_sequential : Sequential .toy twoChunks := by
  refine ⟨BalanceMap.credit ∅ (.ofNat 5) 100, by decide +kernel, by decide +kernel, ?_⟩
  refine ⟨(secondBlock.accept .toy (BalanceMap.credit ∅ (.ofNat 5) 100)).getD ∅,
    by decide +kernel, by decide +kernel, trivial⟩

theorem two_chunks_print : ∃ len : UInt32,
    twoChunksRun.line = .ok (.blk (.ofNat 2) len) ∧ len.toNat = 2 :=
  ((readindexed_iff_sequential twoChunks_chainFile rfl (by decide)).1 twoChunksRun).mpr
    twoChunks_sequential

/-! ## Too many blocks -/

/-- `q` blocks without transactions from number `i` on, all with the same reward address. -/
def emptyBlocks (reward : HashResult) (i q : Nat) : List Body :=
  (List.range q).map fun j => emptyBlock reward (i + j)

/-- `p` chunks of `q` such blocks with the balances behind them. -/
def emptyChunks (reward : HashResult) (p q : Nat) : List Chunk :=
  (List.range p).map fun k =>
    ⟨emptyBlocks reward (k * q) q, emptyBalances (fun _ => reward) ((k + 1) * q)⟩

section

variable {reward : HashResult} {i p q k : Nat}

theorem emptyBlocks_succ : emptyBlocks reward i (q + 1) =
    emptyBlocks reward i q ++ [emptyBlock reward (i + q)] := by
  simp [emptyBlocks, List.range_succ]

theorem emptyBlocks_append (a b : Nat) :
    emptyBlocks reward i (a + b) = emptyBlocks reward i a ++ emptyBlocks reward (i + a) b := by
  simp [emptyBlocks, List.range_add, Nat.add_assoc]

theorem acceptAll_emptyBlocks (h : i + q ≤ 2 ^ 256) :
    Body.acceptAll .toy (emptyBalances (fun _ => reward) i) (emptyBlocks reward i q) =
      some (emptyBalances (fun _ => reward) (i + q)) := by
  induction q with
  | zero => rfl
  | succ q ih =>
    rw [emptyBlocks_succ, Body.acceptAll_append, ih (by omega)]
    exact Body.acceptAll_cons_eq_some.mpr
      ⟨_, Body.accept_eq_some.mpr (validate_emptyBlock reward (by omega) _), rfl⟩

theorem linked_emptyBlocks : Body.Linked (.ofNat i) (emptyBlocks reward i q) ∧
    Body.endHash (.ofNat i) (emptyBlocks reward i q) = .ofNat (i + q) := by
  induction q with
  | zero => exact ⟨trivial, rfl⟩
  | succ q ih =>
    rw [emptyBlocks_succ, Body.linked_append, Body.endHash_append, ih.2]
    exact ⟨⟨ih.1, rfl, trivial⟩, rfl⟩

theorem linearChain_emptyBlocks (h : q < 2 ^ 256) : LinearChain (emptyBlocks reward 0 q) := by
  refine ⟨?_, ?_, ?_, ?_⟩
  · intro b hb
    obtain ⟨j, -, rfl⟩ := List.mem_map.mp hb
    exact Body.writable_emptyBlock _ _
  · have hlinked : Body.Linked (.ofNat 0) (emptyBlocks reward 0 q) := linked_emptyBlocks.1
    rwa [show HashResult.ofNat 0 = .zero by decide] at hlinked
  · intro b hb
    obtain ⟨j, hj, rfl⟩ := List.mem_map.mp hb
    have hj := List.mem_range.mp hj
    exact HashResult.ofNat_ne_zero (by omega) (Nat.succ_ne_zero _)
  · rw [emptyBlocks, List.map_map]
    refine List.Nodup.map_on ?_ List.nodup_range
    intro a ha b hb heq
    have ha := List.mem_range.mp ha
    have hb := List.mem_range.mp hb
    have := HashResult.ofNat_inj (by omega) (by omega) heq
    omega

/-- One address, one entry. -/
theorem emptyBalances_const (n : Nat) : (emptyBalances (fun _ => reward) n).size ≤ 1 := by
  have hentries : ∀ e ∈ (emptyBalances (fun _ => reward) n).entries, e.1 = reward := by
    induction n with
    | zero => simp [emptyBalances]
    | succ n ih =>
      intro e he
      rcases OrderedMap.mem_insertEntry he with rfl | he
      · rfl
      · exact ih e he
  have hascending := (emptyBalances (fun _ => reward) n).ascending
  rw [OrderedMap.size]
  cases hes : (emptyBalances (fun _ => reward) n).entries with
  | nil => simp
  | cons e es =>
    cases es with
    | nil => simp
    | cons e' es =>
      rw [hes] at hentries hascending
      have hlt := List.rel_of_pairwise_cons hascending List.mem_cons_self
      rw [hentries e (by simp), hentries e' (by simp)] at hlt
      exact absurd hlt (lt_irrefl _)

theorem length_emptyChunks : (emptyChunks reward p q).length = p := by simp [emptyChunks]

theorem getElem_emptyChunks {ch : Chunk} (hk : (emptyChunks reward p q)[k]? = some ch) :
    k < p ∧ ch = ⟨emptyBlocks reward (k * q) q, emptyBalances (fun _ => reward) ((k + 1) * q)⟩ := by
  obtain ⟨hlt, rfl⟩ := List.getElem?_eq_some_iff.mp hk
  rw [length_emptyChunks] at hlt
  exact ⟨hlt, by simp [emptyChunks]⟩

theorem flatMap_emptyChunks :
    (emptyChunks reward p q).flatMap Chunk.blocks = emptyBlocks reward 0 (p * q) := by
  induction p with
  | zero => simp [emptyChunks, emptyBlocks]
  | succ p ih =>
    have hsucc : emptyChunks reward (p + 1) q = emptyChunks reward p q ++
        [⟨emptyBlocks reward (p * q) q, emptyBalances (fun _ => reward) ((p + 1) * q)⟩] := by
      simp [emptyChunks, List.range_succ]
    rw [hsucc, List.flatMap_append, ih, Nat.succ_mul, emptyBlocks_append, Nat.zero_add]
    simp

theorem chainFile_emptyChunks (hp : 1 ≤ p ∧ p ≤ 32) (hq : 0 < q) (h : p * q ≤ 2 ^ 32) :
    ChainFile (indexedFile (emptyChunks reward p q)) (emptyChunks reward p q) := by
  have hchunk : ∀ ch ∈ emptyChunks reward p q, ch.blocks.length = q ∧ ch.map.size ≤ 1 ∧
      ch.bytes.length ≤ q * 100 + 44 := by
    intro ch hch
    obtain ⟨k, hk⟩ := List.mem_iff_getElem?.mp hch
    obtain ⟨-, rfl⟩ := getElem_emptyChunks hk
    have hsize : (emptyBalances (fun _ => reward) ((k + 1) * q)).size ≤ 1 := emptyBalances_const _
    have hsizes : ((emptyBlocks reward (k * q) q).map Body.size).sum = q * 100 := by
      have hmap : (emptyBlocks reward (k * q) q).map Body.size = List.replicate q 100 := by
        rw [List.eq_replicate_iff]
        simp [emptyBlocks, Body.size, emptyBlock]
      rw [hmap, List.sum_replicate, smul_eq_mul]
    refine ⟨by simp [emptyBlocks], hsize, ?_⟩
    rw [Chunk.length_bytes, Chunk.blockBytes, Body.length_encodings, Chunk.mapBytes,
      length_writeBalanceMap, balanceMapSize]
    simp only [hsizes]
    omega
  apply ChainFile.indexed
  · rwa [length_emptyChunks]
  · intro ch hch hnil
    have := (hchunk ch hch).1
    rw [hnil] at this
    simp at this
    omega
  · intro ch hch
    have := (hchunk ch hch).2.1
    omega
  · rw [flatMap_emptyChunks]
    exact linearChain_emptyBlocks (by omega)
  · have hsum : ((emptyChunks reward p q).flatMap Chunk.bytes).length ≤ p * (q * 100 + 44) := by
      rw [List.length_flatMap]
      have hle := List.sum_le_card_nsmul ((emptyChunks reward p q).map fun ch => ch.bytes.length)
        (q * 100 + 44) (by
          intro n hn
          obtain ⟨ch, hch, rfl⟩ := List.mem_map.mp hn
          exact (hchunk ch hch).2.2)
      simpa [length_emptyChunks] using hle
    have hmul : p * (q * 100 + 44) = p * q * 100 + p * 44 := by ring
    rw [length_indexedFile (by rw [length_emptyChunks]; omega), length_emptyChunks]
    omega

theorem verifies_emptyChunks (h : p * q ≤ 2 ^ 32) {ch : Chunk}
    (hk : (emptyChunks reward p q)[k]? = some ch) :
    Verifies .four .toy (initAt (emptyChunks reward p q) k) ch := by
  obtain ⟨hlt, rfl⟩ := getElem_emptyChunks hk
  have hinit : initAt (emptyChunks reward p q) k = emptyBalances (fun _ => reward) (k * q) := by
    cases k with
    | zero => rw [initAt_zero, Nat.zero_mul, emptyBalances]
    | succ k =>
      have hlen : k < (emptyChunks reward p q).length := by
        rw [length_emptyChunks]
        omega
      have hprev := List.getElem?_eq_getElem hlen
      rw [initAt_succ hprev, (getElem_emptyChunks hprev).2]
  have hle : (k + 1) * q ≤ p * q := Nat.mul_le_mul_right q hlt
  have hsucc : (k + 1) * q = k * q + q := Nat.succ_mul k q
  refine ⟨emptyBalances (fun _ => reward) ((k + 1) * q), ?_, ?_⟩
  · rw [hinit, hsucc]
    exact acceptAll_emptyBlocks (by omega)
  · exact balanceMapsEqual_iff_same.mpr (.refl _)

end

/-- With 2^32 blocks, 2^27 in each of 32 chunks, the length wraps around: the chain
is valid and the maps are right, but no printed number is the number of blocks. -/
theorem readindexed_length_wraps : ¬ ∀ (c : Crypto) (data : Bytes) (cs : List Chunk) (bn : Body),
    ChainFile data cs → (cs.flatMap Chunk.blocks).getLast? = some bn →
    ∀ run : Run ChunkDay.four.readChunk c data,
      (∃ len : UInt32, run.line = .ok (.blk bn.blkHash len) ∧
        len.toNat = (cs.flatMap Chunk.blocks).length) ↔ Sequential c cs := by
  intro h
  have hfile : ChainFile (indexedFile (emptyChunks (.ofNat 1) 32 (2 ^ 27)))
      (emptyChunks (.ofNat 1) 32 (2 ^ 27)) :=
    chainFile_emptyChunks (by omega) (by omega) (by omega)
  have hlength : ((emptyChunks (.ofNat 1) 32 (2 ^ 27)).flatMap Chunk.blocks).length = 2 ^ 32 := by
    rw [flatMap_emptyChunks, emptyBlocks, List.length_map, List.length_range]
    norm_num
  have hv : ∀ k ch, (emptyChunks (.ofNat 1) 32 (2 ^ 27))[k]? = some ch →
      Verifies .four .toy (initAt (emptyChunks (.ofNat 1) 32 (2 ^ 27)) k) ch :=
    fun k ch hk => verifies_emptyChunks (by omega) hk
  obtain ⟨bn, hbn⟩ : ∃ bn, ((emptyChunks (.ofNat 1) 32 (2 ^ 27)).flatMap Chunk.blocks).getLast? =
      some bn := by
    apply Option.ne_none_iff_exists'.mp
    intro hnone
    rw [List.getLast?_eq_none_iff.mp hnone] at hlength
    exact absurd hlength (by decide)
  obtain ⟨run⟩ := exists_run hfile hv
  obtain ⟨len, -, hlen⟩ := (h .toy _ _ bn hfile hbn run).mpr (sequential_iff.mpr hv)
  have hlt := len.toNat_lt
  omega

end Bootcamp
