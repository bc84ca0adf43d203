import Bootcamp.Blockchain.Threads
import Bootcamp.Blockchain.Indexed

/-! A thread over a chunk of a linear chain: it accepts every block exactly when
the blocks are valid one after the other from the balances it starts with. -/
namespace Bootcamp

/-- The block accepted last has the hash `h` and leaves the balances `m`. -/
structure Frontier (k : Nat) (st : ChunkState) (h : HashResult) (m : BalanceMap) : Prop where
  started : st.i ≠ 0
  named : h ≠ .zero
  tip : st.tip = some ⟨k, st.i⟩
  found : st.bmap.find? h = some ⟨k, st.i⟩
  balances : (st.heap ⟨k, st.i⟩).balances = m

/-- The blocks `bs` lie in a row behind the first `i` objects of thread `k`. -/
def Row (k i : Nat) (bs : List Body) (st : ChunkState) : Prop :=
  ∀ j b, bs[j]? = some b → ⟨k, i + j + 1⟩ ∈ st.accepted ∧ (st.heap ⟨k, i + j + 1⟩).toBody = b

/-- Each of them points to the one before it, the first one to object `i`. -/
def RowLinked (k i : Nat) (bs : List Body) (st : ChunkState) : Prop :=
  ∀ j < bs.length, st.heap.prev ⟨k, i + j + 1⟩ = some ⟨k, i + j⟩

variable {c : Crypto} {k : Nat} {off : UInt64} {init m m' : BalanceMap} {day : ChunkDay}
  {st st' : ChunkState} {b : Body} {bs : List Body} {h : HashResult}

theorem Frontier.start_eq (hf : Frontier k st h m) (hb : b.prevHash = h) {prev : Option Ptr}
    (hs : Start init st b prev m') : prev = some ⟨k, st.i⟩ ∧ m' = m := by
  subst hb
  cases hs with
  | coinbase hz => exact absurd hz hf.named
  | head hi => exact absurd hi hf.started
  | orphan _ _ hnone => cases hf.found.symm.trans hnone
  | link _ _ hsome =>
    obtain rfl := Option.some.inj (hf.found.symm.trans hsome)
    exact ⟨rfl, hf.balances⟩

theorem Frontier.start (hf : Frontier k st h m) (init : BalanceMap) (hb : b.prevHash = h) :
    Start init st b (some ⟨k, st.i⟩) m := by
  rw [← hf.balances]
  exact .link hf.started (by rw [hb]; exact hf.named) (by rw [hb]; exact hf.found)

namespace ChunkStep

/-- A turn that accepts its block moves the frontier. -/
theorem frontier (hstep : ChunkStep c k init b st st') (hz : b.blkHash ≠ .zero)
    (hacc : st.accepted.length < st'.accepted.length) :
    ∃ m m', Start init st b (st'.heap.prev ⟨k, st.i + 1⟩) m ∧ b.accept c m = some m' ∧
      Frontier k st' b.blkHash m' ∧ st'.accepted = ⟨k, st.i + 1⟩ :: st.accepted := by
  rcases hstep.outcome with ⟨m, hstart, haccept, hbmap, htip, hacc'⟩ | ⟨-, -, hacc'⟩
  · refine ⟨m, _, hstart, haccept, ⟨?_, hz, ?_, ?_, ?_⟩, hacc'⟩
    · rw [hstep.count]
      exact Nat.succ_ne_zero _
    · rw [htip, hstep.count]
    · rw [hbmap, hstep.count, OrderedMap.find_insert_self]
    · rw [hstep.count]
  · rw [hacc'] at hacc
    exact absurd hacc (lt_irrefl _)

end ChunkStep

/-- What is known of a thread between two turns. -/
def Known (day : ChunkDay) (c : Crypto) (k : Nat) (init : BalanceMap) (st : ChunkState) : Prop :=
  ChunkInv c k init st ∧ day.Remembers k st

theorem ChunkDay.step_spec (hk : Known day c k init st) (hoff : off = 0 → init = ∅)
    (h : (day.reader c k off init).step st b = .ok st') :
    ChunkStep c k init b st st' ∧ Known day c k init st' := by
  rw [Reader.step, reader_heap, reader_bmap, Block.attach_eq, Except.ok_bind] at h
  obtain ⟨hstep, hr⟩ := visit_step hk.1 hk.2 hoff h
  exact ⟨hstep, hstep.inv hk.1, hr⟩

/-- A valid block is accepted. Behind a map day 4 would choke on a coinbase. -/
theorem ChunkDay.step_accept (hk : Known day c k init st) (hoff : off = 0 → init = ∅)
    (hz : st.i = 0 → off ≠ 0 → b.prevHash ≠ .zero) {prev : Option Ptr}
    (hs : Start init st b prev m) (ha : b.accept c m = some m') :
    ∃ st', (day.reader c k off init).step st b = .ok st' ∧
      st'.accepted = ⟨k, st.i + 1⟩ :: st.accepted := by
  rw [Reader.step, reader_heap, reader_bmap, Block.attach_eq, Except.ok_bind]
  cases day with
  | three =>
    obtain ⟨st', hvisit⟩ := Day3.visit_accept k b.size hk.1.unstarted hs ha
    exact ⟨st', hvisit, (Day3.visit_step (n := b.size) hk.1.unstarted hvisit).2.1⟩
  | four => exact Day4.visit_accept k b.size hk.1.unstarted hoff hz hs ha

/-- Over any blocks: each is accepted or not. -/
theorem ChunkDay.steps_count (hk : Known day c k init st) (hoff : off = 0 → init = ∅)
    (h : bs.foldlM (day.reader c k off init).step st = .ok st') :
    Known day c k init st' ∧ st'.i = st.i + bs.length ∧
      st'.accepted.length ≤ st.accepted.length + bs.length ∧
      ∀ x ∈ st.accepted, x ∈ st'.accepted ∧ st'.heap x = st.heap x := by
  induction bs generalizing st with
  | nil =>
    obtain rfl := Except.ok.inj h
    exact ⟨hk, rfl, le_rfl, fun x hx => ⟨hx, rfl⟩⟩
  | cons b bs ih =>
    rw [List.foldlM_cons] at h
    obtain ⟨st₁, h₁, h⟩ := Except.bind_eq_ok.mp h
    obtain ⟨hstep, hk₁⟩ := step_spec hk hoff h₁
    obtain ⟨hk', hcount, hle, hkept⟩ := ih hk₁ h
    have hle₁ := hstep.length_le
    have hcount₁ := hstep.count
    refine ⟨hk', ?_, ?_, fun x hx => ?_⟩
    · rw [hcount, hcount₁, List.length_cons]
      omega
    · rw [List.length_cons]
      omega
    · have hx₁ := hstep.subset hx
      exact ⟨(hkept x hx₁).1, (hkept x hx₁).2.trans (hstep.kept hk.1 x hx)⟩

namespace Frontier

/-- Behind the frontier valid blocks are accepted one after the other. -/
theorem steps_accept (hf : Frontier k st h m) (hk : Known day c k init st) (hoff : off = 0 → init = ∅)
    (hl : Body.Linked h bs) (hz : ∀ b ∈ bs, b.blkHash ≠ .zero)
    (hv : Body.acceptAll c m bs = some m') :
    ∃ st', bs.foldlM (day.reader c k off init).step st = .ok st' ∧
      st'.accepted.length = st.accepted.length + bs.length := by
  induction bs generalizing st h m with
  | nil => exact ⟨st, rfl, rfl⟩
  | cons b bs ih =>
    obtain ⟨hb, hl⟩ := hl
    obtain ⟨hzb, hzs⟩ := List.forall_mem_cons.mp hz
    obtain ⟨m₁, hv₁, hrest⟩ := Body.acceptAll_cons_eq_some.mp hv
    obtain ⟨st₁, h₁, hacc₁⟩ := ChunkDay.step_accept hk hoff (fun hi => absurd hi hf.started)
      (hf.start init hb) hv₁
    obtain ⟨hstep, hk₁⟩ := ChunkDay.step_spec hk hoff h₁
    obtain ⟨m₂, m₃, hstart, hv₃, hf₁, -⟩ := hstep.frontier hzb (by rw [hacc₁]; simp)
    obtain rfl := (hf.start_eq hb hstart).2
    obtain rfl := Option.some.inj (hv₁.symm.trans hv₃)
    obtain ⟨st', hsteps, hacc⟩ := ih hf₁ hk₁ hl hzs hrest
    refine ⟨st', by rw [List.foldlM_cons, h₁]; exact hsteps, ?_⟩
    rw [hacc, hacc₁, List.length_cons, List.length_cons]
    omega

/-- If all of them were accepted, they were valid and lie in a row. -/
theorem steps_full (hf : Frontier k st h m) (hk : Known day c k init st) (hoff : off = 0 → init = ∅)
    (hl : Body.Linked h bs) (hz : ∀ b ∈ bs, b.blkHash ≠ .zero)
    (hsteps : bs.foldlM (day.reader c k off init).step st = .ok st')
    (hfull : st.accepted.length + bs.length ≤ st'.accepted.length) :
    ∃ m', Body.acceptAll c m bs = some m' ∧ Frontier k st' (Body.endHash h bs) m' ∧
      Row k st.i bs st' ∧ RowLinked k st.i bs st' := by
  induction bs generalizing st h m with
  | nil =>
    obtain rfl := Except.ok.inj hsteps
    exact ⟨m, rfl, hf, by simp [Row], by simp [RowLinked]⟩
  | cons b bs ih =>
    obtain ⟨hb, hl⟩ := hl
    obtain ⟨hzb, hzs⟩ := List.forall_mem_cons.mp hz
    rw [List.foldlM_cons] at hsteps
    obtain ⟨st₁, h₁, hsteps⟩ := Except.bind_eq_ok.mp hsteps
    obtain ⟨hstep, hk₁⟩ := ChunkDay.step_spec hk hoff h₁
    obtain ⟨-, -, hle, hkept⟩ := ChunkDay.steps_count hk₁ hoff hsteps
    rw [List.length_cons] at hfull
    have hle₁ := hstep.length_le
    obtain ⟨m₂, m₁, hstart, hv₁, hf₁, hacc₁⟩ := hstep.frontier hzb (by omega)
    obtain ⟨hprev, rfl⟩ := hf.start_eq hb hstart
    obtain ⟨m', hv, hf', hrow, hlinked⟩ := ih hf₁ hk₁ hl hzs hsteps (by omega)
    have hcount₁ := hstep.count
    have hmem : (⟨k, st.i + 1⟩ : Ptr) ∈ st₁.accepted := by
      rw [hacc₁]
      exact List.mem_cons_self
    obtain ⟨hmem', hsame⟩ := hkept _ hmem
    refine ⟨m', Body.acceptAll_cons_eq_some.mpr ⟨m₁, hv₁, hv⟩, hf', ?_, ?_⟩
    · intro j b' hj
      cases j with
      | zero =>
        obtain rfl := Option.some.inj hj
        exact ⟨hmem', by rw [Nat.add_zero, hsame, hstep.body]⟩
      | succ j =>
        have hj := hrow j b' hj
        rwa [hcount₁, show st.i + 1 + j + 1 = st.i + (j + 1) + 1 by omega] at hj
    · intro j hj
      cases j with
      | zero => exact (congrArg Block.prevBlock hsame).trans hprev
      | succ j =>
        have hj := hlinked j (by simpa using hj)
        rwa [hcount₁, show st.i + 1 + j + 1 = st.i + (j + 1) + 1 by omega,
          show st.i + 1 + j = st.i + (j + 1) by omega] at hj

end Frontier

/-! ## From the start of a chunk -/

theorem known_start : Known day c k init .start := ⟨.start, ChunkDay.remembers_start⟩

/-- The first block is validated on `init`; a coinbase starts from nothing. -/
theorem start_first {init : BalanceMap} (hb : b.prevHash = .zero → init = ∅) :
    ∃ prev, Start init .start b prev init := by
  by_cases hz : b.prevHash = .zero
  · obtain rfl := hb hz
    exact ⟨none, .coinbase hz⟩
  · exact ⟨none, .head rfl hz fun _ h => nomatch h⟩

theorem chunk_accept (day : ChunkDay) (k : Nat) (hoff : off = 0 → init = ∅) (hne : bs ≠ [])
    (hl : Body.Linked h bs) (hz : ∀ b ∈ bs, b.blkHash ≠ .zero) (hzero : h = .zero → off = 0)
    (hv : Body.acceptAll c init bs = some m) :
    ∃ st, bs.foldlM (day.reader c k off init).step .start = .ok st ∧
      st.accepted.length = bs.length := by
  cases bs with
  | nil => exact absurd rfl hne
  | cons b bs =>
    obtain ⟨rfl, hl⟩ := hl
    obtain ⟨hzb, hzs⟩ := List.forall_mem_cons.mp hz
    obtain ⟨m₁, hv₁, hrest⟩ := Body.acceptAll_cons_eq_some.mp hv
    obtain ⟨prev, hstart⟩ := start_first fun hb => hoff (hzero hb)
    obtain ⟨st₁, h₁, hacc₁⟩ := ChunkDay.step_accept (known_start : Known day c k init .start) hoff
      (fun _ hne hb => hne (hzero hb)) hstart hv₁
    obtain ⟨hstep, hk₁⟩ := ChunkDay.step_spec known_start hoff h₁
    obtain ⟨m₂, m₃, hstart', hv₃, hf₁, -⟩ := hstep.frontier hzb (by rw [hacc₁]; simp)
    obtain rfl := hstart'.unique hstart
    obtain rfl := Option.some.inj (hv₁.symm.trans hv₃)
    obtain ⟨st, hsteps, hacc⟩ := hf₁.steps_accept hk₁ hoff hl hzs hrest
    refine ⟨st, by rw [List.foldlM_cons, h₁]; exact hsteps, ?_⟩
    rw [hacc, hacc₁, List.length_cons, List.length_cons]
    simp only [ChunkState.start, List.length_nil]
    omega

/-- A thread that accepted all its blocks. -/
structure Full (c : Crypto) (k : Nat) (init : BalanceMap) (h : HashResult) (bs : List Body)
    (m : BalanceMap) (st : ChunkState) : Prop where
  count : st.i = bs.length
  valid : Body.acceptAll c init bs = some m
  frontier : Frontier k st (Body.endHash h bs) m
  row : Row k 0 bs st
  linked : ∀ j, 0 < j → j < bs.length → st.heap.prev ⟨k, j + 1⟩ = some ⟨k, j⟩

theorem chunk_full (hoff : off = 0 → init = ∅) (hne : bs ≠ []) (hl : Body.Linked h bs)
    (hz : ∀ b ∈ bs, b.blkHash ≠ .zero) (hzero : h = .zero → off = 0)
    (hsteps : bs.foldlM (day.reader c k off init).step .start = .ok st)
    (hfull : bs.length ≤ st.accepted.length) : ∃ m, Full c k init h bs m st := by
  obtain ⟨-, hcount, -, -⟩ := ChunkDay.steps_count known_start hoff hsteps
  cases bs with
  | nil => exact absurd rfl hne
  | cons b bs =>
    obtain ⟨rfl, hl⟩ := hl
    obtain ⟨hzb, hzs⟩ := List.forall_mem_cons.mp hz
    obtain ⟨prev, hstart⟩ := start_first fun hb => hoff (hzero hb)
    rw [List.foldlM_cons] at hsteps
    obtain ⟨st₁, h₁, hsteps⟩ := Except.bind_eq_ok.mp hsteps
    obtain ⟨hstep, hk₁⟩ := ChunkDay.step_spec known_start hoff h₁
    obtain ⟨-, -, hle, hkept⟩ := ChunkDay.steps_count hk₁ hoff hsteps
    rw [List.length_cons] at hfull
    have hle₁ := hstep.length_le
    have hnone : (ChunkState.start.accepted).length = 0 := rfl
    obtain ⟨m₂, m₁, hstart', hv₁, hf₁, hacc₁⟩ := hstep.frontier hzb (by omega)
    obtain rfl := hstart'.unique hstart
    obtain ⟨m, hv, hf, hrow, hlinked⟩ := hf₁.steps_full hk₁ hoff hl hzs hsteps (by omega)
    have hcount₁ : st₁.i = 1 := hstep.count
    rw [hcount₁] at hrow hlinked
    have hmem : (⟨k, 1⟩ : Ptr) ∈ st₁.accepted := by
      rw [hacc₁]
      exact List.mem_cons_self
    obtain ⟨hmem', hsame⟩ := hkept _ hmem
    have hcount' : st.i = (b :: bs).length := by
      rw [hcount]
      exact Nat.zero_add _
    refine ⟨m, hcount', Body.acceptAll_cons_eq_some.mpr ⟨m₁, hv₁, hv⟩, hf, ?_, ?_⟩
    · intro j b' hj
      cases j with
      | zero =>
        obtain rfl := Option.some.inj hj
        exact ⟨hmem', (congrArg Block.toBody hsame).trans hstep.body⟩
      | succ j =>
        have hj := hrow j b' hj
        rwa [show 1 + j + 1 = 0 + (j + 1) + 1 by omega] at hj
    · intro j hpos hj
      cases j with
      | zero => exact absurd hpos (lt_irrefl _)
      | succ j =>
        have hj := hlinked j (by simpa using hj)
        rwa [show 1 + j + 1 = j + 1 + 1 by omega, show 1 + j = j + 1 by omega] at hj

/-! ## A chunk of a file -/

/-- The file holds the chunk where the thread looks for it. -/
structure ChunkAt (data : Bytes) (off chunkStart mapStart : UInt64) (init : BalanceMap) (ch : Chunk) :
    Prop where
  blocks : Layout.At data chunkStart.toNat ch.blockBytes
  size : (mapStart - chunkStart).toNat = ch.blockBytes.length
  writable : ∀ b ∈ ch.blocks, b.Writable
  init : readInitBal data off = .ok init
  final : readBalanceMap (data.drop mapStart.toNat) = .ok ch.map

variable {data : Bytes} {chunkStart mapStart : UInt64} {ch : Chunk} {r : ChunkResult}

theorem ChunkAt.ran_iff (hat : ChunkAt data off chunkStart mapStart init ch) :
    day.Ran c data k off chunkStart mapStart init st ↔
      ch.blocks.foldlM (day.reader c k off init).step .start = .ok st := by
  obtain ⟨rest, hrest⟩ := hat.blocks.drop
  have hrun := Reader.run_encodings (r := day.reader c k off init) hat.writable rest 0 .start
  simp only [Nat.add_zero, Reader.run_zero] at hrun
  rw [ChunkDay.Ran, hrest, hat.size, Chunk.blockBytes, Body.length_encodings, hrun]
  cases ch.blocks.foldlM (day.reader c k off init).step .start <;> rfl

/-- The chunk is valid from the balances in front of it, and leaves those behind it. -/
def Verifies (day : ChunkDay) (c : Crypto) (init : BalanceMap) (ch : Chunk) : Prop :=
  ∃ m, Body.acceptAll c init ch.blocks = some m ∧ day.agrees m ch.map = true

/-- A thread that accepts all blocks of its chunk and registers has verified it. -/
theorem ChunkAt.verifies (hat : ChunkAt data off chunkStart mapStart init ch)
    (hne : ch.blocks ≠ []) (hl : Body.Linked h ch.blocks) (hz : ∀ b ∈ ch.blocks, b.blkHash ≠ .zero)
    (hzero : h = .zero → off = 0)
    (hr : day.readChunk c data k off chunkStart mapStart = .ok r) (hreg : r.Registered)
    (hfull : ch.blocks.length ≤ r.state.accepted.length) : Verifies day c init ch := by
  obtain ⟨init', final, hinit, hfinal, hs, hran⟩ := ChunkDay.readChunk_sound hr
  obtain rfl : init = init' := Except.ok.inj (hat.init.symm.trans hinit)
  obtain rfl : ch.map = final := Except.ok.inj (hat.final.symm.trans hfinal)
  obtain ⟨key, p, hop⟩ := hreg
  obtain ⟨-, -, hagrees, htip⟩ := hs.tail key p hop
  rcases hran with rfl | hran
  · simp [ChunkResult.ops] at hop
  · obtain ⟨m, hm⟩ := chunk_full (readInitBal_zero hinit) hne hl hz hzero (hat.ran_iff.mp hran) hfull
    obtain rfl : p = ⟨k, r.state.i⟩ := Option.some.inj (htip.symm.trans hm.frontier.tip)
    rw [hm.frontier.balances] at hagrees
    exact ⟨m, hm.valid, hagrees⟩

/-- What a thread leaves behind when its chunk verifies. -/
structure ChunkResult.Complete (k : Nat) (h : HashResult) (bs : List Body) (r : ChunkResult) :
    Prop where
  count : r.state.i = bs.length
  row : Row k 0 bs r.state
  linked : ∀ j, 0 < j → j < bs.length → r.state.heap.prev ⟨k, j + 1⟩ = some ⟨k, j⟩
  tail : .setTail (Body.endHash h bs) ⟨k, bs.length⟩ ∈ r.ops

theorem ChunkAt.complete (hat : ChunkAt data off chunkStart mapStart init ch)
    (hne : ch.blocks ≠ []) (hl : Body.Linked h ch.blocks) (hz : ∀ b ∈ ch.blocks, b.blkHash ≠ .zero)
    (hzero : h = .zero → off = 0) (hv : Verifies day c init ch) :
    ∃ r, day.readChunk c data k off chunkStart mapStart = .ok r ∧ r.Complete k h ch.blocks := by
  obtain ⟨m, hv, hagrees⟩ := hv
  have hoff := readInitBal_zero hat.init
  obtain ⟨st, hsteps, hacc⟩ := chunk_accept day k hoff hne hl hz hzero hv
  obtain ⟨m', hfull⟩ := chunk_full hoff hne hl hz hzero hsteps hacc.ge
  obtain rfl := Option.some.inj (hv.symm.trans hfull.valid)
  obtain ⟨⟨hi, hr⟩, -⟩ := ChunkDay.steps_count known_start hoff hsteps
  have hran : day.Ran c data k off chunkStart mapStart init st := hat.ran_iff.mpr hsteps
  have htip := hfull.frontier.tip
  have hhash : (st.heap ⟨k, st.i⟩).blkHash = Body.endHash h ch.blocks :=
    (hi.keyed _ _ hfull.frontier.found).2
  have htailOp : SharedOp.setTail (st.heap ⟨k, st.i⟩).blkHash ⟨k, st.i⟩ =
      .setTail (Body.endHash h ch.blocks) ⟨k, ch.blocks.length⟩ := by
    rw [hhash, hfull.count]
  have hcomplete (sections : List (List SharedOp))
      (htail : .setTail (Body.endHash h ch.blocks) ⟨k, ch.blocks.length⟩ ∈ sections.flatten) :
      ChunkResult.Complete k h ch.blocks ⟨st, sections⟩ :=
    ⟨hfull.count, hfull.row, hfull.linked, htail⟩
  rw [← hfull.frontier.balances] at hagrees
  cases day with
  | four =>
    rw [ChunkDay.Ran] at hran
    have hran : (Day4.reader c k off init).run (data.drop chunkStart.toNat)
      (mapStart - chunkStart).toNat .start = .ok st := hran
    have hagrees : balanceMapsEqual (st.heap ⟨k, st.i⟩).balances ch.map = true := hagrees
    refine ⟨_, ?_, hcomplete ((st.heads.map fun p => [.insertHead p]) ++
      [[.setTail (st.heap ⟨k, st.i⟩).blkHash ⟨k, st.i⟩]]) (by simp [htailOp])⟩
    simp only [ChunkDay.readChunk, Day4.readChunk, hat.init, hat.final, Except.ok_bind, hran, htip,
      hagrees, if_true, Except.pure_eq_ok]
  | three =>
    have hran : (Day3.reader c k init).run (data.drop chunkStart.toNat)
      (mapStart - chunkStart).toNat .start = .ok st := hran
    have hagrees : Day3.lastBalanceStored (st.heap ⟨k, st.i⟩).balances ch.map = true := hagrees
    obtain ⟨hfirst, hfirstMem⟩ := hr hfull.frontier.started
    obtain ⟨coinbase, hc⟩ : ∃ coinbase, (st.heap ⟨k, 1⟩).isCoinbase = .ok coinbase := by
      by_cases hb : (st.heap ⟨k, 1⟩).prevHash = .zero
      · obtain ⟨m, hsource, -⟩ := hi.checked _ hfirstMem
        have hnone : st.heap.prev ⟨k, 1⟩ = none := by
          cases hsource with
          | coinbase _ hnone => exact hnone
          | head _ hne => exact absurd hb hne
          | orphan hser => exact absurd rfl hser
          | link hser => exact absurd rfl hser
        exact ⟨_, Block.isCoinbase_of_alone hnone (hi.alone _ hfirstMem hnone)⟩
      · exact ⟨_, Block.isCoinbase_of_ne hb⟩
    refine ⟨_, ?_, hcomplete [.setTail (st.heap ⟨k, st.i⟩).blkHash ⟨k, st.i⟩ ::
      if coinbase then [] else [.insertHead ⟨k, 1⟩]] (by simp [htailOp])⟩
    simp only [ChunkDay.readChunk, Day3.readChunk, hat.init, hat.final, Except.ok_bind, hran, htip,
      hfirst, hagrees, if_true, hc, Except.pure_eq_ok]

end Bootcamp
