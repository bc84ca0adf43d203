import Bootcamp.Blockchain.Threads
import Bootcamp.Blockchain.Linking

/-! The threads put together. After linking, every chain stays within the blocks
that registered threads accepted, each on the balances of its predecessor or on
what the file says they are; so a chain is sound where the file is right. -/
namespace Bootcamp

open Chains (Chain)
open BalanceMap (Same)

namespace Run

variable {day : ChunkDay} {c : Crypto} {data : Bytes} (run : Run day.readChunk c data)

/-! ## Threads and their operations -/

variable {run}

theorem thread {k : Nat} {r : ChunkResult} (h : run.results[k]? = some r) :
    k < run.header.chunks.toNat ∧ day.readChunk c data k (run.header.prevMapOff k)
      (run.header.chunkOff.getD k 0) (run.header.mapOff.getD k 0) = .ok r := by
  have hk := congrArg (fun ts => ts[k]?) run.joined
  simp only [threads, List.getElem?_map, h, Option.map_some] at hk
  obtain ⟨i, hi, hread⟩ := Option.map_eq_some_iff.mp hk
  obtain ⟨hlt, rfl⟩ := List.getElem?_eq_some_iff.mp hi
  rw [List.getElem_range] at hread
  exact ⟨by simpa using hlt, hread⟩

theorem sound {k : Nat} {r : ChunkResult} (h : run.results[k]? = some r) :
    ∃ init final, readInitBal data (run.header.prevMapOff k) = .ok init ∧
      readBalanceMap (data.drop (run.header.mapOff.getD k 0).toNat) = .ok final ∧
      r.Sound c day k init final ∧
      (r = ⟨.start, []⟩ ∨ day.Ran c data k (run.header.prevMapOff k)
        (run.header.chunkOff.getD k 0) (run.header.mapOff.getD k 0) init r.state) :=
  ChunkDay.readChunk_sound (thread h).2

theorem length_results : run.results.length = run.header.chunks.toNat := by
  have hlength := congrArg List.length run.joined
  simpa [threads] using hlength.symm

theorem heap_eq {x : Ptr} {r : ChunkResult} (h : run.results[x.thread]? = some r) :
    run.heap x = r.state.heap x := by
  simp only [heap, joinHeaps, h]

theorem mem_ops {op : SharedOp} :
    op ∈ run.schedule.flatten ↔
      ∃ (k : Nat) (r : ChunkResult), run.results[k]? = some r ∧ op ∈ r.ops := by
  rw [run.interleaved.perm.flatten.mem_iff]
  constructor
  · intro h
    obtain ⟨sec, hsec, hop⟩ := List.mem_flatten.mp h
    obtain ⟨secs, hsecs, hmem⟩ := List.mem_flatten.mp hsec
    obtain ⟨r, hr, rfl⟩ := List.mem_map.mp hsecs
    obtain ⟨k, hk⟩ := List.mem_iff_getElem?.mp hr
    exact ⟨k, r, hk, List.mem_flatten.mpr ⟨sec, hmem, hop⟩⟩
  · rintro ⟨k, r, hk, hop⟩
    obtain ⟨sec, hsec, hop⟩ := List.mem_flatten.mp hop
    have hr := List.mem_iff_getElem?.mpr ⟨k, hk⟩
    exact List.mem_flatten.mpr
      ⟨sec, List.mem_flatten.mpr ⟨_, List.mem_map_of_mem hr, hsec⟩, hop⟩

/-- A registered thread has accepted the block at `x`. -/
def Entered (run : Run day.readChunk c data) (x : Ptr) : Prop :=
  ∃ r, run.results[x.thread]? = some r ∧ x ∈ r.state.accepted ∧ r.Registered

/-- Whatever the order, a tail is the last block of a registered thread. -/
theorem tail_of_find {h : HashResult} {p : Ptr} (hf : run.shared.tails.find? h = some p) :
    ∃ r, run.results[p.thread]? = some r ∧ .setTail h p ∈ r.ops ∧ p ∈ r.state.accepted ∧
      (r.state.heap p).blkHash = h := by
  rcases Shared.op_of_find hf with hop | hstart
  · obtain ⟨k, r, hk, hop⟩ := mem_ops.mp hop
    obtain ⟨init, final, -, -, hs, -⟩ := sound hk
    obtain ⟨hp, rfl, -, -⟩ := hs.tail h p hop
    obtain ⟨rfl, -, -⟩ := hs.inv.own p hp
    exact ⟨r, hk, hop, hp, rfl⟩
  · cases hstart

theorem entered_of_find {h : HashResult} {p : Ptr} (hf : run.shared.tails.find? h = some p) :
    run.Entered p ∧ (run.heap p).blkHash = h := by
  obtain ⟨r, hr, hop, hp, hhash⟩ := tail_of_find hf
  exact ⟨⟨r, hr, hp, h, p, hop⟩, by rw [heap_eq hr, hhash]⟩

theorem find_of_tail {h : HashResult} {p : Ptr} {k : Nat} {r : ChunkResult}
    (hr : run.results[k]? = some r) (hop : .setTail h p ∈ r.ops) :
    run.shared.tails.find? h ≠ none :=
  Shared.find_of_op (.inl ⟨p, mem_ops.mpr ⟨k, r, hr, hop⟩⟩)

theorem head_of_mem {p : Ptr} (h : p ∈ run.shared.heads) :
    ∃ r, run.results[p.thread]? = some r ∧ IsHead r.state p := by
  rcases Shared.mem_heads.mp h with hop | hstart
  · obtain ⟨k, r, hk, hop⟩ := mem_ops.mp hop
    obtain ⟨init, final, -, -, hs, -⟩ := sound hk
    have hhead := hs.head p hop
    obtain ⟨rfl, -, -⟩ := hs.inv.own p hhead.1
    exact ⟨r, hk, hhead⟩
  · cases hstart

theorem mem_of_head {p : Ptr} {r : ChunkResult} (hr : run.results[p.thread]? = some r)
    (hreg : r.Registered) (hp : IsHead r.state p) : p ∈ run.shared.heads := by
  obtain ⟨init, final, -, -, hs, -⟩ := sound hr
  exact Shared.mem_heads.mpr (.inl (mem_ops.mpr ⟨_, r, hr, hs.entered hreg p hp⟩))

/-! ## The linked chains -/

/-- The registered tails, as the loop over `tails` meets them. -/
def ends (run : Run day.readChunk c data) : List Ptr := run.tailOrder.map Prod.snd

theorem mem_ends {p : Ptr} : p ∈ run.ends ↔ ∃ h, run.shared.tails.find? h = some p := by
  simp only [ends, List.mem_map, run.tailPerm.mem_iff, Prod.exists, exists_eq_right]
  exact ⟨fun ⟨h, hp⟩ => ⟨h, OrderedMap.find_eq_some.mpr hp⟩,
    fun ⟨h, hp⟩ => ⟨h, OrderedMap.find_eq_some.mp hp⟩⟩

/-- All heads have found their tails, and the heap is what the linking made of it. -/
abbrev Finished (run : Run day.readChunk c data) (f : Final) : Prop :=
  Bootcamp.Finished run.shared.tails run.headOrder run.ends run.heap f

theorem finished_of_valid {f : Final} (h : run.final = .ok f) (hvalid : f.valid = true) :
    run.Finished f :=
  (finish_spec h).2 hvalid

theorem mem_headOrder {p : Ptr} : p ∈ run.headOrder ↔ p ∈ run.shared.heads :=
  run.headPerm.mem_iff

/-- What the linking makes of the heap when it succeeds. -/
abbrev Wired (run : Run day.readChunk c data) (heap : Heap) : Prop :=
  Linked run.shared.tails run.headOrder run.heap heap

/-- Where an entered block points to after linking, and what it was validated on. -/
theorem prev_cases {heap : Heap} (hw : run.Wired heap) {x : Ptr} (hx : run.Entered x) {init : BalanceMap}
    (hinit : readInitBal data (run.header.prevMapOff x.thread) = .ok init) :
    ∃ m, (run.heap x).toBody.accept c m = some (run.heap x).balances ∧
      ((heap.prev x = none ∧ m = ∅ ∧ run.heap.prev x = none ∧
          ((run.heap x).prevHash = .zero ∨ x.serial ≠ 1)) ∨
        (run.heap x).prevHash ≠ .zero ∧ ∃ q, heap.prev x = some q ∧ run.Entered q ∧
          (run.heap q).blkHash = (run.heap x).prevHash ∧ ((m = (run.heap q).balances ∧ x ∉ run.shared.heads) ∨
            (m = init ∧ x ∈ run.shared.heads ∧
              run.shared.tails.find? (run.heap x).prevHash = some q))) := by
  obtain ⟨r, hr, hacc, hreg⟩ := hx
  obtain ⟨init', final, hinit', -, hs, -⟩ := sound hr
  obtain rfl : init = init' := Except.ok.inj (hinit.symm.trans hinit')
  have hheap := heap_eq hr
  obtain ⟨m, hsource, haccept⟩ := hs.inv.checked x hacc
  refine ⟨m, by rwa [hheap], ?_⟩
  have hfree (hne : (run.heap x).prevHash = .zero ∨ x.serial ≠ 1) : x ∉ run.shared.heads := by
    intro hmem
    obtain ⟨r', hr', -, hser, hz⟩ := head_of_mem hmem
    obtain rfl : r = r' := Option.some.inj (hr.symm.trans hr')
    rw [hheap] at hne
    exact hne.elim hz fun hne => hne hser
  have hother (hne : (run.heap x).prevHash = .zero ∨ x.serial ≠ 1) :
      heap.prev x = run.heap.prev x := by
    apply hw.other
    rw [mem_headOrder]
    exact hfree hne
  have hprev : run.heap.prev x = r.state.heap.prev x := by rw [Heap.prev, hheap]
  cases hsource with
  | coinbase hz hnone =>
    have hz' : (run.heap x).prevHash = .zero := by rwa [hheap]
    exact .inl ⟨(hother (.inl hz')).trans (hprev.trans hnone), rfl, hprev.trans hnone, .inl hz'⟩
  | head hser hz =>
    have hmem : x ∈ run.shared.heads := mem_of_head hr hreg ⟨hacc, hser, hz⟩
    have horder := mem_headOrder.mpr hmem
    obtain ⟨q, hq⟩ := Option.ne_none_iff_exists'.mp (hw.found x horder)
    obtain ⟨hentered, hhash⟩ := entered_of_find hq
    exact .inr ⟨by rwa [hheap], q, (hw.head x horder).trans hq, hentered, hhash, .inr ⟨rfl, hmem, hq⟩⟩
  | orphan hser hz hnone =>
    exact .inl ⟨(hother (.inr hser)).trans (hprev.trans hnone), rfl, hprev.trans hnone, .inr hser⟩
  | @link q hser hz hsome hq _ hhash =>
    obtain ⟨hthread, -, -⟩ := hs.inv.own q hq
    have hrq : run.results[q.thread]? = some r := by rwa [hthread]
    refine .inr ⟨by rwa [hheap], q, (hother (.inr hser)).trans (hprev.trans hsome),
      ⟨r, hrq, hq, hreg⟩, ?_, .inl ?_⟩
    · rw [heap_eq hrq, hheap, hhash]
    · exact ⟨by rw [heap_eq hrq], hfree (.inr hser)⟩

theorem exists_init {x : Ptr} (hx : run.Entered x) :
    ∃ init, readInitBal data (run.header.prevMapOff x.thread) = .ok init := by
  obtain ⟨r, hr, -, -⟩ := hx
  obtain ⟨init, -, hinit, -⟩ := sound hr
  exact ⟨init, hinit⟩

theorem chain_entered {heap : Heap} (hw : run.Wired heap) {x : Ptr} {l : List Ptr}
    (hl : Chain heap.prev x l) (hx : run.Entered x) : ∀ y ∈ l, run.Entered y := by
  induction hl with
  | last => simpa using hx
  | link hsome _ ih =>
    obtain ⟨init, hinit⟩ := exists_init hx
    obtain ⟨m, -, ⟨hnone, -⟩ | ⟨-, q, hq, hentered, -⟩⟩ := prev_cases hw hx hinit
    · rw [hnone] at hsome
      cases hsome
    · obtain rfl := Option.some.inj (hq.symm.trans hsome)
      exact List.forall_mem_cons.mpr ⟨hx, ih hentered⟩

/-- All accepted blocks, thread by thread. -/
def accepted (run : Run day.readChunk c data) : List Ptr :=
  run.results.flatMap fun r => r.state.accepted

theorem Entered.mem {x : Ptr} (hx : run.Entered x) : x ∈ run.accepted := by
  obtain ⟨r, hr, hacc, -⟩ := hx
  exact List.mem_flatMap.mpr ⟨r, List.mem_iff_getElem?.mpr ⟨_, hr⟩, hacc⟩

theorem length_accepted_le : run.accepted.length ≤ run.blocks := by
  rw [accepted, List.length_flatMap, blocks]
  apply List.sum_le_sum
  intro r hr
  obtain ⟨k, hk⟩ := List.mem_iff_getElem?.mp hr
  obtain ⟨init, final, -, -, hs, -⟩ := sound hk
  exact hs.inv.count

/-- Each thread has at least one object beyond its blocks. -/
theorem blocks_lt_objects : run.blocks < run.objects := by
  have hobjects : run.objects = run.blocks + run.results.length := by
    simp [objects, blocks, List.sum_map_add]
  have hcount := run.count.1
  have hlength := run.length_results
  omega

theorem chain_subperm {heap : Heap} (hw : run.Wired heap) {x : Ptr} {l : List Ptr}
    (hl : Chain heap.prev x l) (hx : run.Entered x) : l.Subperm run.accepted :=
  hl.nodup.subperm fun y hy => (chain_entered hw hl hx y hy).mem

/-! ## Orphans -/

/-- No thread reads an orphan without transactions behind its first block. -/
def NoOrphans (run : Run day.readChunk c data) : Prop :=
  ∀ k init s, k < run.header.chunks.toNat →
    readInitBal data (run.header.prevMapOff k) = .ok init →
    day.Reached c data k (run.header.prevMapOff k) (run.header.chunkOff.getD k 0)
      (run.header.mapOff.getD k 0) init s → s.state.i ≠ 0 →
    ¬ (day.reader c k (run.header.prevMapOff k) init).ReadsEmptyOrphan c s

/-- The turn that read the block at `x`, not the first turn of its thread, read an orphan without
transactions. -/
def ReadsOrphan (run : Run day.readChunk c data) (x : Ptr) : Prop :=
  ∃ init s, readInitBal data (run.header.prevMapOff x.thread) = .ok init ∧
    day.Reached c data x.thread (run.header.prevMapOff x.thread)
      (run.header.chunkOff.getD x.thread 0) (run.header.mapOff.getD x.thread 0) init s ∧
    s.state.i ≠ 0 ∧ x.serial = s.state.i + 1 ∧
    (day.reader c x.thread (run.header.prevMapOff x.thread) init).ReadsEmptyOrphan c s

/-- Such a block is in the heap with a predecessor that it names and does not have. -/
theorem readsOrphan_iff {x : Ptr} (hx : run.Entered x) : run.ReadsOrphan x ↔
    x.serial ≠ 1 ∧ (run.heap x).prevHash ≠ .zero ∧ run.heap.prev x = none := by
  obtain ⟨r, hr, hacc, -⟩ := hx
  obtain ⟨init, final, hinit, -, -, hran⟩ := sound hr
  obtain ⟨e, hreach, hstate⟩ := ChunkDay.Ran.reached (hran.imp_left fun h => by rw [h])
  rw [← hstate] at hacc
  rw [Heap.prev, heap_eq hr, ← hstate]
  apply Iff.trans _ (hreach.orphan_iff (readInitBal_zero hinit) hacc).symm
  constructor
  · rintro ⟨init', s, hinit', hs, hread⟩
    obtain rfl : init = init' := Except.ok.inj (hinit.symm.trans hinit')
    exact ⟨s, hs, hread⟩
  · rintro ⟨s, hs, hread⟩
    exact ⟨init, s, hinit, hs, hread⟩

theorem root_of_noOrphans (hno : run.NoOrphans) {x : Ptr} (hx : run.Entered x)
    (hnone : run.heap.prev x = none) (hroot : (run.heap x).prevHash = .zero ∨ x.serial ≠ 1) :
    (run.heap x).prevHash = .zero := by
  rcases hroot with hz | hser
  · exact hz
  · by_contra hz
    obtain ⟨init, s, hinit, hs, hi, -, hread⟩ := (readsOrphan_iff hx).mpr ⟨hser, hz, hnone⟩
    obtain ⟨r, hr, -⟩ := hx
    exact hno _ init s (thread hr).1 hinit hs hi hread

/-! ## The line -/

theorem hash_of_find {f : Final} (hf : run.Finished f) {hash : HashResult} {p : Ptr}
    (hfind : run.shared.tails.find? hash = some p) : (f.heap p).blkHash = hash := by
  rw [congrArg Body.blkHash (hf.linked.body p)]
  exact (entered_of_find hfind).2

theorem line_of_tip {f : Final} (hfinal : run.final = .ok f) (hvalid : f.valid = true)
    {hash : HashResult} {t : Ptr} (htip : f.tip = some t)
    (hfind : run.shared.tails.find? hash = some t) :
    run.line = .ok (.blk hash (f.heap t).length) := by
  have hhash := hash_of_find (finished_of_valid hfinal hvalid) hfind
  rw [line, hfinal, Except.ok_bind, Final.line, hvalid, htip, ← hhash]
  rfl

theorem tip_of_line {hash : HashResult} {len : UInt32} (h : run.line = .ok (.blk hash len)) :
    ∃ f, run.final = .ok f ∧ f.valid = true ∧ ∃ t, f.tip = some t ∧ run.Finished f ∧
      run.shared.tails.find? hash = some t ∧ (f.heap t).length = len := by
  obtain ⟨f, hfinal, h⟩ := Except.bind_eq_ok.mp h
  have hline := Except.ok.inj h
  rw [Final.line] at hline
  split at hline
  · rename_i t hvalid htip
    obtain ⟨rfl, hlen⟩ := Line.blk.inj hline
    have hf := finished_of_valid hfinal hvalid
    obtain ⟨key, hfind⟩ := mem_ends.mp (hf.tip t htip).1
    have hkey := hash_of_find hf hfind
    exact ⟨f, hfinal, hvalid, t, htip, hf, by rw [hkey, hfind], hlen⟩
  · cases hline

/-- What a printed line is based on, whatever the file. -/
theorem line_eq_blk {hash : HashResult} {len : UInt32} (h : run.line = .ok (.blk hash len)) :
    ∃ f t l, run.final = .ok f ∧ f.tip = some t ∧ run.Finished f ∧ run.Entered t ∧
      Chain f.heap.prev t l ∧ len = UInt32.ofNat l.length ∧ hash = (run.heap t).blkHash := by
  obtain ⟨f, hfinal, -, t, htip, hf, hfind, hlen⟩ := tip_of_line h
  obtain ⟨hentered, hhash⟩ := entered_of_find hfind
  obtain ⟨l, hl, hlength⟩ := hf.counted t (mem_ends.mpr ⟨hash, hfind⟩)
  exact ⟨f, t, l, hfinal, htip, hf, hentered, hl, hlen.symm.trans hlength, hhash.symm⟩

end Run

/-- The two sample blocks, a chunk each, with the balances behind them. -/
def twoChunks : List Chunk :=
  let balances := BalanceMap.credit ∅ (.ofNat 5) 100
  [⟨[firstBlock], balances⟩, ⟨[secondBlock], (secondBlock.accept .toy balances).getD ∅⟩]

def twoChunksHeader : Header := ⟨52, 2, [52, 196], [152, 442], [44, 124]⟩

def twoChunksRun : Run ChunkDay.four.readChunk .toy (indexedFile twoChunks) :=
  Run.inOrder twoChunksHeader (by decide +kernel) (by decide) (by decide +kernel)

end Bootcamp
