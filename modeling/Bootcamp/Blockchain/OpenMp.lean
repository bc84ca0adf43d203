import Bootcamp.Blockchain.Equivalence
import Bootcamp.Blockchain.Tips

/-! The parallel reader of day 1. A loop that OpenMP spreads over the processors reads the
chunks, with day 1's validation, and each thread keeps the longest chain of its chunk. The rest
of `main` is what the later days kept. -/
namespace Bootcamp

namespace Day1

def visit (c : Crypto) (thread : Nat) (prevMapOff : UInt64) (initBal : BalanceMap)
    (st : ChunkState) (_ : Nat) (blk : Block) : Except Abort ChunkState := do
  let it : Ptr := ⟨thread, st.i + 1⟩
  let (heap, blk) := Day4.prepare thread prevMapOff initBal st blk
  let (valid, blk) ← blk.validateBy (Body.validate c) heap
  let heap := heap.set it blk
  if valid then
    let coinbase ← (if st.i = 0 then blk.isCoinbase else .ok true)
    let tip :=
      match st.tip with
      | none => it
      | some tip => if (heap tip).length < (heap it).length then it else tip
    return { st with heap, bmap := st.bmap.insert blk.blkHash it, tip := some tip, i := st.i + 1,
                     heads := if coinbase then st.heads else it :: st.heads,
                     accepted := it :: st.accepted }
  else
    return { st with heap, i := st.i + 1 }

def reader (c : Crypto) (thread : Nat) (prevMapOff : UInt64) (initBal : BalanceMap) :
    Reader ChunkState where
  heap := ChunkState.heap
  bmap := ChunkState.bmap
  visit := visit c thread prevMapOff initBal

def readChunk : ChunkReader := fun c data thread prevMapOff chunkStart mapStart => do
  let initBal ← readInitBal data prevMapOff
  let finalBal ← readBalanceMap (data.drop mapStart.toNat)
  let chunkSz := mapStart - chunkStart
  let st ← (reader c thread prevMapOff initBal).run (data.drop chunkStart.toNat) chunkSz.toNat .start
  let headSections := st.heads.map fun p => [SharedOp.insertHead p]
  match st.tip with
  | some tip =>
    if balanceMapsEqual (st.heap tip).balances finalBal then
      return ⟨st, headSections ++ [[.setTail (st.heap tip).blkHash tip]]⟩
    else return ⟨st, headSections⟩
  | none => return ⟨st, headSections⟩

end Day1

section

variable {c : Crypto} {k : Nat} {off : UInt64} {init m : BalanceMap} {st st' : ChunkState} {b : Body}
  {bs : List Body} {h : HashResult}

/-- Day 1 accepts what day 4 accepts. -/
theorem Day1.Body.validate_of_valid {b : Bootcamp.Body} {m m' : BalanceMap}
    (h : b.validate c m = .ok (true, m')) : validate c b m = .ok (true, m') := by
  have ⟨m₁, happly, _⟩ := Bootcamp.Body.validate_eq_true.mp h
  have hauthorised := Bootcamp.Body.authorised_of_applyTransactions happly
  exact (validate_eq_true_iff fun tx htx => (hauthorised tx htx).positive).mpr h

/-- Where day 4 accepts a block that is longer than its tip, day 1 does the same. -/
theorem Day1.visit_eq {n : Nat} {blk : Block}
    (h : Day4.visit c k off init st n blk = .ok st') (hacc : st.accepted.length < st'.accepted.length)
    (hlonger : ∀ t, st.tip = some t → (st'.heap t).length < (st'.heap ⟨k, st.i + 1⟩).length) :
    visit c k off init st n blk = .ok st' := by
  unfold Day4.visit at h
  unfold visit
  generalize Day4.prepare k off init st blk = p at h ⊢
  obtain ⟨heap, blk⟩ := p
  obtain ⟨⟨valid, blk'⟩, hv, h⟩ := Except.bind_eq_ok.mp h
  cases valid with
  | false =>
    obtain rfl := Except.ok.inj h
    exact absurd hacc (lt_irrefl _)
  | true =>
    obtain ⟨coinbase, hc, h⟩ := Except.bind_eq_ok.mp h
    obtain rfl := Except.ok.inj h
    obtain ⟨m, hm, rfl⟩ := Block.validateBy_eq_ok.mp hv
    have hv₁ : blk.validateBy (Body.validate c) heap = .ok (true, { blk with balances := m }) :=
      Block.validateBy_eq_ok.mpr ⟨m, Body.validate_of_valid hm, rfl⟩
    simp only [hv₁, Except.ok_bind, if_true, hc, Except.pure_eq_ok]
    cases htip : st.tip with
    | none => rfl
    | some t =>
      have hlt := hlonger t htip
      simp only at hlt
      simp only [hlt, if_true]

theorem Day4.visit_of_step (h : (ChunkDay.four.reader c k off init).step st b = .ok st') :
    visit c k off init st b.size (Block.attached st.heap st.bmap b) = .ok st' := by
  rwa [Reader.step, ChunkDay.reader_heap, ChunkDay.reader_bmap, Block.attach_eq,
    Except.ok_bind] at h

theorem Day1.step_of_visit
    (h : visit c k off init st b.size (Block.attached st.heap st.bmap b) = .ok st') :
    (reader c k off init).step st b = .ok st' := by
  rw [Reader.step, Block.attach_eq, Except.ok_bind]
  exact h

/-! ## Lengths on the way -/

/-- Behind a map the first block counts the made up one in front of it. -/
def fakeLength (off : UInt64) : Nat := if off = 0 then 0 else 1

theorem Day4.visit_length {n : Nat} {blk : Block} (h : visit c k off init st n blk = .ok st') :
    (st'.heap ⟨k, st.i + 1⟩).length = (prepare k off init st blk).2.length := by
  unfold visit at h
  generalize prepare k off init st blk = p at h ⊢
  obtain ⟨heap, blk⟩ := p
  obtain ⟨⟨valid, blk'⟩, hv, h⟩ := Except.bind_eq_ok.mp h
  obtain ⟨m, -, rfl⟩ := Block.validateBy_eq_ok.mp hv
  cases valid with
  | false =>
    obtain rfl := Except.ok.inj h
    simp only [Heap.set_self]
  | true =>
    obtain ⟨coinbase, -, h⟩ := Except.bind_eq_ok.mp h
    obtain rfl := Except.ok.inj h
    simp only [Heap.set_self]

theorem Day4.prepare_first (hi : st.i = 0) (hu : Unstarted st) :
    (prepare k off init st (Block.attached st.heap st.bmap b)).2.length =
      UInt32.ofNat (fakeLength off + 1) := by
  unfold prepare fakeLength
  by_cases hoff : off = 0
  · rw [if_neg fun h => h.2 hoff, if_pos hoff]
    rcases Block.attached_cases st.heap st.bmap b with ⟨-, hlen, -⟩ | ⟨q, -, -, hf, -⟩
    · exact hlen
    · rw [hu hi] at hf
      cases hf
  · rw [if_pos ⟨hi, hoff⟩, if_neg hoff]
    simp only [setFakePrev, Block.setPrevBlock, Heap.set_self]
    rfl

theorem Day4.prepare_later (hf : Frontier k st h m) (hb : b.prevHash = h) :
    (prepare k off init st (Block.attached st.heap st.bmap b)).2.length =
      (st.heap ⟨k, st.i⟩).length + 1 := by
  unfold prepare
  rw [if_neg fun h => hf.started h.1]
  rcases Block.attached_cases st.heap st.bmap b with ⟨-, -, hz | hnone⟩ | ⟨q, -, -, hfind, hlen⟩
  · exact absurd (hb.symm.trans hz) hf.named
  · rw [hb, hf.found] at hnone
    cases hnone
  · rw [hb, hf.found] at hfind
    obtain rfl := Option.some.inj hfind
    exact hlen

theorem length_lt_succ {a : UInt32} {n : Nat} (ha : a = UInt32.ofNat n) (hn : n + 1 < 2 ^ 32) :
    a < a + 1 := by
  subst ha
  have htoNat : (UInt32.ofNat n).toNat = n :=
    UInt32.toNat_ofNat_of_lt' (by simp only [UInt32.size]; omega)
  rw [UInt32.lt_iff_toNat_lt, UInt32.toNat_add, htoNat, UInt32.toNat_one]
  omega

/-! ## A chunk of valid blocks -/

/-- Behind the frontier each block is longer than the tip, as far as 32 bits go. -/
theorem Frontier.steps_eq (hf : Frontier k st h m) (hk : Known .four c k init st)
    (hoff : off = 0 → init = ∅) (hl : Body.Linked h bs) (hz : ∀ b ∈ bs, b.blkHash ≠ .zero)
    (hv : (Body.acceptAll c m bs).isSome)
    (hlen : (st.heap ⟨k, st.i⟩).length = UInt32.ofNat (fakeLength off + st.i))
    (hn : fakeLength off + st.i + bs.length < 2 ^ 32) :
    bs.foldlM (Day1.reader c k off init).step st =
      bs.foldlM (ChunkDay.four.reader c k off init).step st := by
  induction bs generalizing st h m with
  | nil => rfl
  | cons b bs ih =>
    obtain ⟨hb, hl⟩ := hl
    obtain ⟨hzb, hzs⟩ := List.forall_mem_cons.mp hz
    obtain ⟨m', hv⟩ := Option.isSome_iff_exists.mp hv
    obtain ⟨m₁, hv₁, hrest⟩ := Body.acceptAll_cons_eq_some.mp hv
    rw [List.length_cons] at hn
    obtain ⟨st₁, h₁, hacc₁⟩ := ChunkDay.step_accept hk hoff (fun hi => absurd hi hf.started)
      (hf.start init hb) hv₁
    have hmore : st.accepted.length < st₁.accepted.length := by rw [hacc₁]; simp
    obtain ⟨hstep, hk₁⟩ := ChunkDay.step_spec hk hoff h₁
    obtain ⟨m₂, m₃, hstart, hv₃, hf₁, -⟩ := hstep.frontier hzb hmore
    obtain rfl := (hf.start_eq hb hstart).2
    obtain rfl := Option.some.inj (hv₁.symm.trans hv₃)
    have hvisit := Day4.visit_of_step h₁
    have hlength : (st₁.heap ⟨k, st.i + 1⟩).length = (st.heap ⟨k, st.i⟩).length + 1 :=
      (Day4.visit_length hvisit).trans (Day4.prepare_later hf hb)
    have hkept := hstep.kept hk.1 _ (hk.1.tip _ hf.tip)
    have hone : (Day1.reader c k off init).step st b = .ok st₁ := by
      refine Day1.step_of_visit (Day1.visit_eq hvisit hmore fun t ht => ?_)
      obtain rfl := Option.some.inj (hf.tip.symm.trans ht)
      rw [hlength, hkept]
      exact length_lt_succ hlen (by omega)
    have hcount₁ := hstep.count
    have hlen₁ : (st₁.heap ⟨k, st₁.i⟩).length = UInt32.ofNat (fakeLength off + st₁.i) := by
      rw [hcount₁, hlength, hlen, ← Nat.add_assoc, UInt32.ofNat_add _ 1]
      rfl
    rw [List.foldlM_cons, List.foldlM_cons, hone, h₁]
    exact ih hf₁ hk₁ hl hzs (by rw [hrest]; rfl) hlen₁ (by omega)

/-- So day 1 goes through the same states over a chunk whose blocks are valid. -/
theorem chunk_eq (hoff : off = 0 → init = ∅) (hl : Body.Linked h bs)
    (hz : ∀ b ∈ bs, b.blkHash ≠ .zero) (hzero : h = .zero → off = 0)
    (hv : (Body.acceptAll c init bs).isSome) (hn : fakeLength off + bs.length < 2 ^ 32) :
    bs.foldlM (Day1.reader c k off init).step .start =
      bs.foldlM (ChunkDay.four.reader c k off init).step .start := by
  cases bs with
  | nil => rfl
  | cons b bs =>
    obtain ⟨rfl, hl⟩ := hl
    obtain ⟨hzb, hzs⟩ := List.forall_mem_cons.mp hz
    obtain ⟨m', hv⟩ := Option.isSome_iff_exists.mp hv
    obtain ⟨m₁, hv₁, hrest⟩ := Body.acceptAll_cons_eq_some.mp hv
    rw [List.length_cons] at hn
    obtain ⟨prev, hstart⟩ := start_first fun hb => hoff (hzero hb)
    have hknown : Known .four c k init .start := known_start
    obtain ⟨st₁, h₁, hacc₁⟩ := ChunkDay.step_accept hknown hoff
      (fun _ hne hb => hne (hzero hb)) hstart hv₁
    have hmore : ChunkState.start.accepted.length < st₁.accepted.length := by rw [hacc₁]; simp
    obtain ⟨hstep, hk₁⟩ := ChunkDay.step_spec hknown hoff h₁
    have hvisit := Day4.visit_of_step h₁
    have hone : (Day1.reader c k off init).step .start b = .ok st₁ :=
      Day1.step_of_visit (Day1.visit_eq hvisit hmore fun t ht => nomatch ht)
    have hcount₁ : st₁.i = 1 := hstep.count
    have hlen₁ : (st₁.heap ⟨k, st₁.i⟩).length = UInt32.ofNat (fakeLength off + st₁.i) := by
      rw [hcount₁]
      exact (Day4.visit_length hvisit).trans (Day4.prepare_first rfl hknown.1.unstarted)
    obtain ⟨m₂, m₃, hstart', hv₃, hf₁, -⟩ := hstep.frontier hzb hmore
    obtain rfl := hstart'.unique hstart
    obtain rfl := Option.some.inj (hv₁.symm.trans hv₃)
    rw [List.foldlM_cons, List.foldlM_cons, hone, h₁]
    exact hf₁.steps_eq hk₁ hoff hl hzs (by rw [hrest]; rfl) hlen₁ (by omega)

/-- The thread of day 1 leaves what the thread of day 4 leaves. -/
theorem ChunkAt.readChunk_eq {data : Bytes} {chunkStart mapStart : UInt64} {ch : Chunk}
    (hat : ChunkAt data off chunkStart mapStart init ch) (hl : Body.Linked h ch.blocks)
    (hz : ∀ b ∈ ch.blocks, b.blkHash ≠ .zero) (hzero : h = .zero → off = 0)
    (hv : (Body.acceptAll c init ch.blocks).isSome)
    (hn : fakeLength off + ch.blocks.length < 2 ^ 32) :
    Day1.readChunk c data k off chunkStart mapStart =
      Day4.readChunk c data k off chunkStart mapStart := by
  obtain ⟨rest, hrest⟩ := hat.blocks.drop
  have hrun (r : Reader ChunkState) : r.run (data.drop chunkStart.toNat)
      (mapStart - chunkStart).toNat .start = ch.blocks.foldlM r.step .start := by
    have hrun := Reader.run_encodings (r := r) hat.writable rest 0 .start
    simp only [Nat.add_zero, Reader.run_zero] at hrun
    rw [hrest, hat.size, Chunk.blockBytes, Body.length_encodings, hrun]
    exact bind_pure _
  have hsteps := chunk_eq (k := k) (readInitBal_zero hat.init) hl hz hzero hv hn
  simp only [Day1.readChunk, Day4.readChunk, hat.init, hat.final, Except.ok_bind, hrun]
  rw [hsteps]
  rfl

end

/-! ## The whole file -/

/-- The same run of a reader whose threads leave the same. -/
def Run.alike {readChunk readChunk' : ChunkReader} {c : Crypto} {data : Bytes}
    (run : Run readChunk c data)
    (h : threads readChunk c data run.header = threads readChunk' c data run.header) :
    Run readChunk' c data :=
  { run with joined := h.symm.trans run.joined }

theorem Run.exists_alike {readChunk readChunk' : ChunkReader} {c : Crypto} {data : Bytes}
    (run : Run readChunk c data)
    (h : threads readChunk c data run.header = threads readChunk' c data run.header) :
    ∃ run' : Run readChunk' c data, run'.schedule = run.schedule ∧
      run'.headOrder = run.headOrder ∧ run'.tailOrder = run.tailOrder ∧ run'.line = run.line :=
  ⟨run.alike h, rfl, rfl, rfl, rfl⟩

section

variable {c : Crypto} {data : Bytes} {cs : List Chunk}

/-- The blocks of each chunk are valid from the balances stored in front of it. -/
def ChunksValid (c : Crypto) (cs : List Chunk) : Prop :=
  ∀ k ch, cs[k]? = some ch → (Body.acceptAll c (initAt cs k) ch.blocks).isSome

theorem Sequential.chunksValid (h : Sequential c cs) : ChunksValid c cs := by
  intro k ch hk
  obtain ⟨m, hm, -⟩ := sequential_iff.mp h k ch hk
  rw [hm]
  rfl

/-- In front of every chunk but the first there is a block. -/
theorem ChainFile.fakeLength_add_le (hfile : ChainFile data cs) (hd : Header) {k : Nat} {ch : Chunk}
    (hk : cs[k]? = some ch) :
    fakeLength (hd.prevMapOff k) + ch.blocks.length ≤ (cs.flatMap Chunk.blocks).length := by
  have hle := startAt_add_le hk
  cases k with
  | zero =>
    have hoff : hd.prevMapOff 0 = 0 := rfl
    rw [fakeLength, if_pos hoff]
    omega
  | succ k =>
    have hlt := (List.getElem?_eq_some_iff.mp hk).1
    have hprev : cs[k]? = some cs[k] := List.getElem?_eq_getElem (by omega)
    have hpos := List.length_pos_iff.mpr (hfile.ne_nil hprev)
    have hfake : fakeLength (hd.prevMapOff (k + 1)) ≤ 1 := by
      unfold fakeLength
      split <;> omega
    rw [startAt_succ hprev] at hle
    omega

theorem threads_eq (hfile : ChainFile data cs) (hn : (cs.flatMap Chunk.blocks).length < 2 ^ 32)
    (hvalid : ChunksValid c cs) {resize : Resize} {hd : Header}
    (hhd : extractHeader resize data = .ok (some hd)) :
    threads Day1.readChunk c data hd = threads Day4.readChunk c data hd := by
  obtain ⟨hd', hhd', hindex⟩ := hfile.header
  obtain rfl : hd = hd' := extractHeader_unique hhd hhd'
  refine List.map_congr_left fun k hk => ?_
  rw [List.mem_range, hindex.chunks] at hk
  have hget : cs[k]? = some cs[k] := List.getElem?_eq_getElem hk
  have hle := hfile.fakeLength_add_le hd hget
  exact (hfile.chunkAt hhd hget).readChunk_eq (hfile.linked hget) (hfile.named hget)
    (hfile.prevMapOff_zero hd hget) (hvalid k _ hget) (by omega)

end

/-- On every file of a linear chain of fewer than 2^32 blocks, each valid on the balances stored
in front of its chunk: the threads of day 1 leave what those of day 4 leave, every run of day 1
prints what a run of day 4 with the same choices prints, and it prints the last block with the
number of blocks exactly when the stored balances are right. -/
theorem openmp_readindexed {c : Crypto} {data : Bytes} {cs : List Chunk} {bn : Body}
    (hfile : ChainFile data cs) (hbn : (cs.flatMap Chunk.blocks).getLast? = some bn)
    (hn : (cs.flatMap Chunk.blocks).length < 2 ^ 32) (hvalid : ChunksValid c cs) :
    (∀ resize hd, extractHeader resize data = .ok (some hd) →
      threads Day1.readChunk c data hd = threads Day4.readChunk c data hd) ∧
    (∀ run : Run Day1.readChunk c data,
      (∃ run' : Run Day4.readChunk c data, run'.schedule = run.schedule ∧
        run'.headOrder = run.headOrder ∧ run'.tailOrder = run.tailOrder ∧ run'.line = run.line) ∧
      ((∃ len : UInt32, run.line = .ok (.blk bn.blkHash len) ∧
        len.toNat = (cs.flatMap Chunk.blocks).length) ↔ Sequential c cs)) ∧
    (Sequential c cs → Nonempty (Run Day1.readChunk c data)) := by
  have hsame {resize : Resize} {hd : Header} (hhd : extractHeader resize data = .ok (some hd)) :
      threads Day1.readChunk c data hd = threads ChunkDay.four.readChunk c data hd :=
    threads_eq hfile hn hvalid hhd
  refine ⟨fun _ _ hhd => hsame hhd, fun run => ?_, fun hv => ?_⟩
  · obtain ⟨run', hschedule, hheads, htails, hline⟩ := run.exists_alike (hsame run.extracted)
    refine ⟨⟨run', hschedule, hheads, htails, hline⟩, ?_⟩
    rw [sequential_iff, ← hline]
    constructor
    · rintro ⟨len, hprints, hlen⟩ k ch hk
      exact Run.verifies_of_prints hfile hprints hlen hk
    · intro hv
      have hall : run'.AllComplete cs := Run.allComplete hfile hv
      have hprints := hall.prints hfile hn
      rw [Body.endHash_of_getLast hbn] at hprints
      exact ⟨_, hprints, UInt32.toNat_ofNat_of_lt' (by simp only [UInt32.size]; omega)⟩
  · obtain ⟨run'⟩ := exists_run hfile (sequential_iff.mp hv)
    exact ⟨run'.alike (hsame run'.extracted).symm⟩

/-- The two sample chunks. -/
theorem openmp_two_chunks :
    (∀ resize hd, extractHeader resize (indexedFile twoChunks) = .ok (some hd) →
      threads Day1.readChunk .toy (indexedFile twoChunks) hd =
        threads Day4.readChunk .toy (indexedFile twoChunks) hd) ∧
    (∀ run : Run Day1.readChunk .toy (indexedFile twoChunks),
      (∃ run' : Run Day4.readChunk .toy (indexedFile twoChunks), run'.schedule = run.schedule ∧
        run'.headOrder = run.headOrder ∧ run'.tailOrder = run.tailOrder ∧ run'.line = run.line) ∧
      ((∃ len : UInt32, run.line = .ok (.blk (.ofNat 2) len) ∧ len.toNat = 2) ↔
        Sequential .toy twoChunks)) ∧
    (Sequential .toy twoChunks → Nonempty (Run Day1.readChunk .toy (indexedFile twoChunks))) :=
  openmp_readindexed twoChunks_chainFile rfl (by decide) twoChunks_sequential.chunksValid

end Bootcamp
