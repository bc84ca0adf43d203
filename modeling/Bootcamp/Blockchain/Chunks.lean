import Bootcamp.Blockchain.Readindexed

/-! What one thread of a parallel reader establishes about its chunk: on which
balances each block it accepted was validated. -/
namespace Bootcamp

/-! ## A turn of either day -/

/-- The block `b` that a thread reads in state `st` gets the predecessor `prev`
and is validated on `m`. The thread starts from `init`. -/
inductive Start (init : BalanceMap) (st : ChunkState) (b : Body) : Option Ptr → BalanceMap → Prop
  | coinbase : b.prevHash = .zero → Start init st b none ∅
  | head {prev : Option Ptr} : st.i = 0 → b.prevHash ≠ .zero →
      (∀ q, prev = some q → q.serial = 0) → Start init st b prev init
  | orphan : st.i ≠ 0 → b.prevHash ≠ .zero → st.bmap.find? b.prevHash = none → Start init st b none ∅
  | link {q : Ptr} : st.i ≠ 0 → b.prevHash ≠ .zero → st.bmap.find? b.prevHash = some q →
      Start init st b (some q) (st.heap q).balances

theorem Start.unique {init : BalanceMap} {st : ChunkState} {b : Body} {p p' : Option Ptr}
    {m m' : BalanceMap} (h : Start init st b p m) (h' : Start init st b p' m') : m = m' := by
  cases h with
  | coinbase => cases h' <;> first | rfl | contradiction
  | head => cases h' <;> first | rfl | contradiction
  | orphan _ _ hf =>
    cases h' with
    | orphan => rfl
    | link _ _ hf' => cases hf.symm.trans hf'
    | coinbase | head => contradiction
  | link _ _ hf =>
    cases h' with
    | orphan _ _ hf' => cases hf.symm.trans hf'
    | link _ _ hf' => rw [Option.some.inj (hf.symm.trans hf')]
    | coinbase | head => contradiction

/-- The blocks made up as predecessors have none themselves. -/
def Grounded (heap : Heap) : Prop := ∀ x : Ptr, x.serial = 0 → heap.prev x = none

/-- The heap and the block when validation begins. -/
structure Prepared (st : ChunkState) (b : Body) (heap : Heap) (blk : Block) : Prop where
  body : blk.toBody = b
  old : ∀ x, x.serial ≠ 0 → heap x = st.heap x
  grounded : Grounded st.heap → Grounded heap
  alone : blk.prevBlock = none → blk.length = 1

/-- Thread `k` went from `st` to `st'` over the block `b`. -/
structure ChunkStep (c : Crypto) (k : Nat) (init : BalanceMap) (b : Body) (st st' : ChunkState) :
    Prop where
  count : st'.i = st.i + 1
  old : ∀ x, x.serial ≠ 0 → x ≠ ⟨k, st.i + 1⟩ → st'.heap x = st.heap x
  grounded : Grounded st.heap → Grounded st'.heap
  body : (st'.heap ⟨k, st.i + 1⟩).toBody = b
  alone : st'.heap.prev ⟨k, st.i + 1⟩ = none → (st'.heap ⟨k, st.i + 1⟩).length = 1
  outcome : (∃ m, Start init st b (st'.heap.prev ⟨k, st.i + 1⟩) m ∧
      b.accept c m = some (st'.heap ⟨k, st.i + 1⟩).balances ∧
      st'.bmap = st.bmap.insert b.blkHash ⟨k, st.i + 1⟩ ∧ st'.tip = some ⟨k, st.i + 1⟩ ∧
      st'.accepted = ⟨k, st.i + 1⟩ :: st.accepted) ∨
    (st'.bmap = st.bmap ∧ st'.tip = st.tip ∧ st'.accepted = st.accepted)

/-- A thread that has read nothing knows no block. -/
def Unstarted (st : ChunkState) : Prop := st.i = 0 → st.bmap = ∅

theorem attached_prepared (st : ChunkState) (b : Body) :
    Prepared st b st.heap (Block.attached st.heap st.bmap b) := by
  refine ⟨Block.attached_toBody _ _ _, fun _ _ => rfl, id, fun hnone => ?_⟩
  rcases Block.attached_cases st.heap st.bmap b with ⟨-, hlen, -⟩ | ⟨q, hsome, -⟩
  · exact hlen
  · rw [hnone] at hsome
    cases hsome

theorem attached_start {init : BalanceMap} {st : ChunkState} {b : Body} (hu : Unstarted st)
    (h : st.i = 0 → b.prevHash ≠ .zero → init = ∅) :
    Start init st b (Block.attached st.heap st.bmap b).prevBlock
      ((Block.attached st.heap st.bmap b).resetBalances st.heap) := by
  rcases Block.attached_cases st.heap st.bmap b with ⟨hnone, -, hcase⟩ | ⟨q, hsome, hz, hf, -⟩
  · rw [hnone, Block.resetBalances_none hnone]
    by_cases hz : b.prevHash = .zero
    · exact .coinbase hz
    · by_cases hi : st.i = 0
      · have hstart : Start init st b none init := .head hi hz fun _ h => nomatch h
        rwa [h hi hz] at hstart ⊢
      · exact .orphan hi hz (hcase.resolve_left hz)
  · have hi : st.i ≠ 0 := by
      intro hi
      rw [hu hi] at hf
      cases hf
    rw [hsome, Block.resetBalances_some hsome]
    exact .link hi hz hf

theorem setFakePrev_prepared (st : ChunkState) (b : Body) (k : Nat) {prevBlk : Block}
    (hnone : prevBlk.prevBlock = none) :
    Prepared st b (setFakePrev st ⟨k, 0⟩ prevBlk (Block.attached st.heap st.bmap b)).1
      (setFakePrev st ⟨k, 0⟩ prevBlk (Block.attached st.heap st.bmap b)).2 := by
  refine ⟨Block.attached_toBody _ _ _, ?_, ?_, ?_⟩
  · intro x hx
    apply Heap.set_of_ne
    rintro rfl
    exact hx rfl
  · intro hground x hx
    simp only [Heap.prev, setFakePrev]
    by_cases hxk : x = ⟨k, 0⟩
    · rw [hxk, Heap.set_self, hnone]
    · rw [Heap.set_of_ne _ _ hxk]
      exact hground x hx
  · intro hnone
    cases hnone

theorem setFakePrev_start {st : ChunkState} {b : Body} (k : Nat) (prevBlk blk : Block)
    (hi : st.i = 0) (hz : b.prevHash ≠ .zero) :
    Start prevBlk.balances st b (setFakePrev st ⟨k, 0⟩ prevBlk blk).2.prevBlock
      ((setFakePrev st ⟨k, 0⟩ prevBlk blk).2.resetBalances (setFakePrev st ⟨k, 0⟩ prevBlk blk).1) := by
  have hreset : Block.resetBalances (setFakePrev st ⟨k, 0⟩ prevBlk blk).1
      (setFakePrev st ⟨k, 0⟩ prevBlk blk).2 = prevBlk.balances := by
    simp [setFakePrev, Block.resetBalances, Block.setPrevBlock]
  rw [hreset]
  apply Start.head hi hz
  intro q hq
  obtain rfl := Option.some.inj hq
  rfl

theorem Block.isCoinbase_eq_ok {blk : Block} {coinbase : Bool} (h : blk.isCoinbase = .ok coinbase) :
    (coinbase = true ↔ blk.prevHash = .zero) ∧ (coinbase = true → blk.prevBlock = none) := by
  unfold isCoinbase at h
  split_ifs at h with hz hp hl
  · obtain rfl := Except.ok.inj h
    simpa using hz
  · obtain rfl := Except.ok.inj h
    simpa using ⟨not_not.mp hz, not_not.mp hp⟩

theorem Block.isCoinbase_of_alone {blk : Block} (hp : blk.prevBlock = none) (hl : blk.length = 1) :
    blk.isCoinbase = .ok (decide (blk.prevHash = .zero)) := by
  by_cases hz : blk.prevHash = .zero <;> simp [isCoinbase, hz, hp, hl]

theorem Day4.prepare_prepared (k : Nat) (off : UInt64) (init : BalanceMap) (st : ChunkState)
    (b : Body) : Prepared st b (prepare k off init st (Block.attached st.heap st.bmap b)).1
      (prepare k off init st (Block.attached st.heap st.bmap b)).2 := by
  unfold prepare
  split
  · exact setFakePrev_prepared st b k rfl
  · exact attached_prepared st b

theorem Day4.prepare_start {off : UInt64} {init : BalanceMap} {st : ChunkState} {b : Body} (k : Nat)
    (hu : Unstarted st) (hoff : off = 0 → init = ∅)
    (hz : st.i = 0 → off ≠ 0 → b.prevHash ≠ .zero) :
    Start init st b (prepare k off init st (Block.attached st.heap st.bmap b)).2.prevBlock
      ((prepare k off init st (Block.attached st.heap st.bmap b)).2.resetBalances
        (prepare k off init st (Block.attached st.heap st.bmap b)).1) := by
  unfold prepare
  split
  · rename_i h
    exact setFakePrev_start k { Block.new with blkHash := _, balances := init } _ h.1 (hz h.1 h.2)
  · rename_i h
    apply attached_start hu
    intro hi _
    exact hoff (not_not.mp fun hoff => h ⟨hi, hoff⟩)

theorem Day3.prepare_spec {st : ChunkState} (init : BalanceMap) (b : Body) (k : Nat)
    (hu : Unstarted st) :
    ∃ heap blk, prepare k init st (Block.attached st.heap st.bmap b) = .ok (heap, blk) ∧
      Prepared st b heap blk ∧ Start init st b blk.prevBlock (blk.resetBalances heap) := by
  unfold prepare
  split
  · rename_i hi
    by_cases hz : b.prevHash = .zero
    · have hprev : (Block.attached st.heap st.bmap b).prevBlock = none := by
        simp [Block.attached, hz, Block.new]
      have hlen := (attached_prepared st b).alone hprev
      rw [Block.isCoinbase_of_alone hprev hlen, Block.attached_toBody]
      simp only [hz, decide_true]
      exact ⟨_, _, rfl, attached_prepared st b, attached_start hu fun _ h => absurd hz h⟩
    · rw [Block.isCoinbase_of_ne (by rwa [Block.attached_toBody])]
      exact ⟨_, _, rfl, setFakePrev_prepared st b k rfl,
        setFakePrev_start k { Block.new with balances := init } _ hi hz⟩
  · rename_i hi
    exact ⟨_, _, rfl, attached_prepared st b, attached_start hu fun h => absurd h hi⟩

theorem Prepared.step {c : Crypto} {k : Nat} {init : BalanceMap} {st st' : ChunkState} {b : Body}
    {heap : Heap} {blk blk' : Block} {valid : Bool} (hp : Prepared st b heap blk)
    (hv : blk.validate c heap = .ok (valid, blk'))
    (hheap : st'.heap = heap.set ⟨k, st.i + 1⟩ blk') (hcount : st'.i = st.i + 1)
    (hout : (valid = true ∧ Start init st b blk.prevBlock (blk.resetBalances heap) ∧
        st'.bmap = st.bmap.insert blk'.blkHash ⟨k, st.i + 1⟩ ∧ st'.tip = some ⟨k, st.i + 1⟩ ∧
        st'.accepted = ⟨k, st.i + 1⟩ :: st.accepted) ∨
      (st'.bmap = st.bmap ∧ st'.tip = st.tip ∧ st'.accepted = st.accepted)) :
    ChunkStep c k init b st st' := by
  obtain ⟨m, hm, rfl⟩ := Block.validateBy_eq_ok.mp hv
  have hself : st'.heap ⟨k, st.i + 1⟩ = { blk with balances := m } := by rw [hheap, Heap.set_self]
  refine ⟨hcount, ?_, ?_, ?_, ?_, ?_⟩
  · intro x hx hne
    rw [hheap, Heap.set_of_ne _ _ hne, hp.old x hx]
  · intro hground x hx
    have hne : x ≠ ⟨k, st.i + 1⟩ := by
      rintro rfl
      cases hx
    rw [hheap, Heap.prev, Heap.set_of_ne _ _ hne]
    exact hp.grounded hground x hx
  · rw [hself]
    exact hp.body
  · rw [Heap.prev, hself]
    exact hp.alone
  · rcases hout with ⟨rfl, hstart, hbmap, htip, hacc⟩ | hsame
    · rw [hp.body] at hm
      have hbmap : st'.bmap = st.bmap.insert b.blkHash ⟨k, st.i + 1⟩ := by
        rw [hbmap, ← hp.body]
      rw [Heap.prev, hself]
      exact .inl ⟨_, hstart, Body.accept_eq_some.mpr hm, hbmap, htip, hacc⟩
    · exact .inr hsame

/-- All that a visit of day 4 can do. -/
theorem Day4.visit_step {c : Crypto} {k n : Nat} {off : UInt64} {init : BalanceMap}
    {st st' : ChunkState} {b : Body} (hu : Unstarted st) (hoff : off = 0 → init = ∅)
    (h : visit c k off init st n (Block.attached st.heap st.bmap b) = .ok st') :
    ChunkStep c k init b st st' ∧
      ((st'.accepted = ⟨k, st.i + 1⟩ :: st.accepted ∧ st'.heads =
          if st.i = 0 ∧ b.prevHash ≠ .zero then ⟨k, st.i + 1⟩ :: st.heads else st.heads) ∨
        (st'.accepted = st.accepted ∧ st'.heads = st.heads)) := by
  have hp := prepare_prepared k off init st b
  have hstart := prepare_start (b := b) k hu hoff
  unfold visit at h
  generalize hprep : prepare k off init st (Block.attached st.heap st.bmap b) = p at h hp hstart
  obtain ⟨heap, blk⟩ := p
  obtain ⟨⟨valid, blk'⟩, hv, h⟩ := Except.bind_eq_ok.mp h
  cases valid with
  | false =>
    obtain rfl := Except.ok.inj h
    exact ⟨hp.step hv rfl rfl (.inr ⟨rfl, rfl, rfl⟩), .inr ⟨rfl, rfl⟩⟩
  | true =>
    obtain ⟨coinbase, hc, h⟩ := Except.bind_eq_ok.mp h
    obtain ⟨m, -, rfl⟩ := Block.validateBy_eq_ok.mp hv
    obtain rfl := Except.ok.inj h
    have hz : st.i = 0 → off ≠ 0 → b.prevHash ≠ .zero := by
      -- a coinbase behind a map would fail the assertion on `prev_block`
      intro hi hne hz
      rw [if_pos hi] at hc
      have hnone := (Block.isCoinbase_eq_ok hc).2 ((Block.isCoinbase_eq_ok hc).1.mpr (hp.body ▸ hz))
      have hsome : blk.prevBlock = some ⟨k, 0⟩ := by
        rw [prepare, if_pos ⟨hi, hne⟩] at hprep
        exact (congrArg (fun p => p.2.prevBlock) hprep).symm
      cases hsome.symm.trans hnone
    refine ⟨hp.step hv rfl rfl (.inl ⟨rfl, hstart hz, rfl, rfl, rfl⟩), .inl ⟨rfl, ?_⟩⟩
    by_cases hi : st.i = 0
    · rw [if_pos hi] at hc
      have hcase : coinbase = true ↔ b.prevHash = .zero := by
        rw [← hp.body]
        exact (Block.isCoinbase_eq_ok hc).1
      by_cases hb : b.prevHash = .zero
      · simp [hcase.mpr hb, hb]
      · have hfalse : coinbase = false := Bool.eq_false_iff.mpr fun ht => hb (hcase.mp ht)
        simp [hfalse, hb, hi]
    · rw [if_neg hi] at hc
      obtain rfl := Except.ok.inj hc
      simp [hi]

/-- All that a visit of day 3 can do; it leaves the loop over an invalid block. -/
theorem Day3.visit_step {c : Crypto} {k n : Nat} {init : BalanceMap} {st st' : ChunkState}
    {b : Body} (hu : Unstarted st)
    (h : visit c k init st n (Block.attached st.heap st.bmap b) = .ok st') :
    ChunkStep c k init b st st' ∧ st'.accepted = ⟨k, st.i + 1⟩ :: st.accepted ∧
      st'.first = if st.i = 0 then some ⟨k, st.i + 1⟩ else st.first := by
  obtain ⟨heap, blk, hprep, hp, hstart⟩ := prepare_spec init b k hu
  unfold visit at h
  simp only [hprep, Except.ok_bind] at h
  obtain ⟨⟨valid, blk'⟩, hv, h⟩ := Except.bind_eq_ok.mp h
  cases valid with
  | false => cases h
  | true =>
    obtain rfl := Except.ok.inj h
    exact ⟨hp.step hv rfl rfl (.inl ⟨rfl, hstart, rfl, rfl, rfl⟩), rfl, rfl⟩

/-- A block that is good on the balances it starts from is accepted. -/
theorem Day4.visit_accept {c : Crypto} {off : UInt64} {init : BalanceMap} {st : ChunkState} {b : Body}
    {prev : Option Ptr} {m m' : BalanceMap} (k n : Nat) (hu : Unstarted st) (hoff : off = 0 → init = ∅)
    (hz : st.i = 0 → off ≠ 0 → b.prevHash ≠ .zero) (hs : Start init st b prev m)
    (ha : b.accept c m = some m') :
    ∃ st', visit c k off init st n (Block.attached st.heap st.bmap b) = .ok st' ∧
      st'.accepted = ⟨k, st.i + 1⟩ :: st.accepted := by
  have hp := prepare_prepared k off init st b
  have hstart := prepare_start k hu hoff hz
  unfold visit
  generalize hprep : prepare k off init st (Block.attached st.heap st.bmap b) = p at hp hstart ⊢
  obtain ⟨heap, blk⟩ := p
  have hv : blk.validate c heap = .ok (true, { blk with balances := m' }) := by
    refine Block.validateBy_eq_ok.mpr ⟨m', ?_, rfl⟩
    rw [hp.body, hstart.unique hs]
    exact Body.accept_eq_some.mp ha
  have hcoinbase : ∃ coinbase, Block.isCoinbase { blk with balances := m' } = .ok coinbase := by
    by_cases hb : b.prevHash = .zero
    · have hnone : blk.prevBlock = none := by
        generalize blk.prevBlock = prev, blk.resetBalances heap = m at hstart
        cases hstart <;> first | rfl | contradiction
      exact ⟨_, Block.isCoinbase_of_alone hnone (hp.alone hnone)⟩
    · exact ⟨_, Block.isCoinbase_of_ne (by rw [← hp.body] at hb; exact hb)⟩
  obtain ⟨coinbase, hc⟩ := hcoinbase
  simp only [hv, Except.ok_bind, if_true, hc]
  split
  · exact ⟨_, rfl, rfl⟩
  · exact ⟨_, rfl, rfl⟩

theorem Day3.visit_accept {c : Crypto} {init : BalanceMap} {st : ChunkState} {b : Body}
    {prev : Option Ptr} {m m' : BalanceMap} (k n : Nat) (hu : Unstarted st)
    (hs : Start init st b prev m) (ha : b.accept c m = some m') :
    ∃ st', visit c k init st n (Block.attached st.heap st.bmap b) = .ok st' := by
  obtain ⟨heap, blk, hprep, hp, hstart⟩ := prepare_spec init b k hu
  have hv : blk.validate c heap = .ok (true, { blk with balances := m' }) := by
    refine Block.validateBy_eq_ok.mpr ⟨m', ?_, rfl⟩
    rw [hp.body, hstart.unique hs]
    exact Body.accept_eq_some.mp ha
  unfold visit
  simp only [hprep, hv, Except.ok_bind, Bool.not_true, Bool.false_eq_true, if_false]
  exact ⟨_, rfl⟩

/-! ## What stays true of a thread -/

/-- Where the balances came from on which the accepted block at `x` was validated. -/
inductive Source (heap : Heap) (accepted : List Ptr) (init : BalanceMap) (x : Ptr) : BalanceMap → Prop
  | coinbase : (heap x).prevHash = .zero → heap.prev x = none → Source heap accepted init x ∅
  | head : x.serial = 1 → (heap x).prevHash ≠ .zero →
      (∀ q, heap.prev x = some q → q.serial = 0) → Source heap accepted init x init
  | orphan : x.serial ≠ 1 → (heap x).prevHash ≠ .zero → heap.prev x = none →
      Source heap accepted init x ∅
  | link {q : Ptr} : x.serial ≠ 1 → (heap x).prevHash ≠ .zero → heap.prev x = some q →
      q ∈ accepted → q.serial < x.serial → (heap q).blkHash = (heap x).prevHash →
      Source heap accepted init x (heap q).balances

/-- Only what is accepted matters, and it may grow. -/
theorem Source.mono {heap heap' : Heap} {acc acc' : List Ptr} {init m : BalanceMap} {x : Ptr}
    (h : Source heap acc init x m) (hx : x ∈ acc) (same : ∀ y ∈ acc, heap' y = heap y)
    (sub : acc ⊆ acc') : Source heap' acc' init x m := by
  have hxx := same x hx
  cases h with
  | coinbase hz hnone => exact .coinbase (by rwa [hxx]) (by rwa [Heap.prev, hxx])
  | head hser hz hfake => exact .head hser (by rwa [hxx]) (by rwa [Heap.prev, hxx])
  | orphan hser hz hnone => exact .orphan hser (by rwa [hxx]) (by rwa [Heap.prev, hxx])
  | @link q hser hz hsome hq hlt hhash =>
    rw [← same q hq]
    exact .link hser (by rwa [hxx]) (by rwa [Heap.prev, hxx]) (sub hq) hlt (by rwa [hxx, same q hq])

/-- A first block that is not a coinbase waits for the chunk before it. -/
def IsHead (st : ChunkState) (x : Ptr) : Prop :=
  x ∈ st.accepted ∧ x.serial = 1 ∧ (st.heap x).prevHash ≠ .zero

structure ChunkInv (c : Crypto) (k : Nat) (init : BalanceMap) (st : ChunkState) : Prop where
  unstarted : Unstarted st
  grounded : Grounded st.heap
  own : ∀ x ∈ st.accepted, x.thread = k ∧ 0 < x.serial ∧ x.serial ≤ st.i
  count : st.accepted.length ≤ st.i
  checked : ∀ x ∈ st.accepted, ∃ m, Source st.heap st.accepted init x m ∧
    (st.heap x).toBody.accept c m = some (st.heap x).balances
  alone : ∀ x ∈ st.accepted, st.heap.prev x = none → (st.heap x).length = 1
  keyed : ∀ h x, st.bmap.find? h = some x → x ∈ st.accepted ∧ (st.heap x).blkHash = h
  tip : ∀ x, st.tip = some x → x ∈ st.accepted

theorem ChunkInv.start {c : Crypto} {k : Nat} {init : BalanceMap} : ChunkInv c k init .start where
  unstarted _ := rfl
  grounded _ _ := rfl
  own := by simp [ChunkState.start]
  count := by simp [ChunkState.start]
  checked := by simp [ChunkState.start]
  alone := by simp [ChunkState.start]
  keyed := by
    intro h x hx
    exact absurd hx (by simp [ChunkState.start])
  tip := by simp [ChunkState.start]

namespace ChunkStep

variable {c : Crypto} {k : Nat} {init : BalanceMap} {b : Body} {st st' : ChunkState}

/-- Blocks accepted before stay as they are. -/
theorem kept (h : ChunkStep c k init b st st') (hi : ChunkInv c k init st) :
    ∀ x ∈ st.accepted, st'.heap x = st.heap x := by
  intro x hx
  obtain ⟨-, hpos, hle⟩ := hi.own x hx
  apply h.old x (by omega)
  rintro rfl
  exact absurd hle (by simp)

theorem length_le (h : ChunkStep c k init b st st') :
    st'.accepted.length ≤ st.accepted.length + 1 := by
  rcases h.outcome with ⟨-, -, -, -, -, hacc⟩ | ⟨-, -, hacc⟩
  · rw [hacc, List.length_cons]
  · rw [hacc]
    exact Nat.le_succ _

theorem subset (h : ChunkStep c k init b st st') : st.accepted ⊆ st'.accepted := by
  rcases h.outcome with ⟨-, -, -, -, -, hacc⟩ | ⟨-, -, hacc⟩
  · rw [hacc]
    exact List.subset_cons_self _ _
  · rw [hacc]
    exact List.Subset.refl _

/-- Only the block of this turn can be new among the accepted ones. -/
theorem mem_cases (h : ChunkStep c k init b st st') {x : Ptr} (hx : x ∈ st'.accepted) :
    x ∈ st.accepted ∨ (x = ⟨k, st.i + 1⟩ ∧ ∃ m, Start init st b (st'.heap.prev x) m ∧
      b.accept c m = some (st'.heap x).balances) := by
  rcases h.outcome with ⟨m, hstart, haccept, -, -, hacc⟩ | ⟨-, -, hacc⟩
  · rw [hacc] at hx
    rcases List.mem_cons.mp hx with rfl | hx
    · exact .inr ⟨rfl, m, hstart, haccept⟩
    · exact .inl hx
  · exact .inl (hacc ▸ hx)

/-- What a block starts from is one of the sources. -/
theorem source (h : ChunkStep c k init b st st') (hi : ChunkInv c k init st) {m : BalanceMap}
    (hstart : Start init st b (st'.heap.prev ⟨k, st.i + 1⟩) m) :
    Source st'.heap st'.accepted init ⟨k, st.i + 1⟩ m := by
  have hbody := h.body
  generalize hprev : st'.heap.prev ⟨k, st.i + 1⟩ = prev at hstart
  cases hstart with
  | coinbase hz => exact .coinbase (by rwa [hbody]) hprev
  | head hz hne hfake => exact .head (by rw [hz]) (by rwa [hbody]) (by rwa [hprev])
  | orphan hz hne hf => exact .orphan (by simpa using hz) (by rwa [hbody]) hprev
  | @link q hz hne hf =>
    obtain ⟨hq, hkey⟩ := hi.keyed _ q hf
    have hkept := h.kept hi q hq
    rw [← hkept]
    refine .link (by simpa using hz) (by rwa [hbody]) hprev (h.subset hq) ?_ ?_
    · exact Nat.lt_succ_of_le (hi.own q hq).2.2
    · rw [hkept, hkey, hbody]

theorem inv (h : ChunkStep c k init b st st') (hi : ChunkInv c k init st) :
    ChunkInv c k init st' := by
  have hkept := h.kept hi
  have hcount := h.count
  refine ⟨fun hz => by omega, h.grounded hi.grounded, ?_, ?_, ?_, ?_, ?_, ?_⟩
  · intro x hx
    rw [hcount]
    rcases h.mem_cases hx with hx | ⟨rfl, -⟩
    · obtain ⟨hthread, hpos, hle⟩ := hi.own x hx
      exact ⟨hthread, hpos, Nat.le_succ_of_le hle⟩
    · exact ⟨rfl, Nat.succ_pos _, Nat.le_refl _⟩
  · rw [hcount]
    exact h.length_le.trans (Nat.succ_le_succ hi.count)
  · intro x hx
    rcases h.mem_cases hx with hx | ⟨rfl, m, hstart, haccept⟩
    · obtain ⟨m, hsource, haccept⟩ := hi.checked x hx
      exact ⟨m, hsource.mono hx hkept h.subset, by rwa [hkept x hx]⟩
    · exact ⟨m, h.source hi hstart, by rwa [h.body]⟩
  · intro x hx
    rcases h.mem_cases hx with hx | ⟨rfl, -⟩
    · rw [Heap.prev, hkept x hx]
      exact hi.alone x hx
    · exact h.alone
  · have hold (key : HashResult) (x : Ptr) (hx : st.bmap.find? key = some x) :
        x ∈ st'.accepted ∧ (st'.heap x).blkHash = key := by
      obtain ⟨hx, hkey⟩ := hi.keyed key x hx
      exact ⟨h.subset hx, by rwa [hkept x hx]⟩
    intro key x hx
    rcases h.outcome with ⟨-, -, -, hbmap, -, hacc⟩ | ⟨hbmap, -, -⟩
    · rw [hbmap, OrderedMap.find_insert] at hx
      split_ifs at hx with hk
      · obtain rfl := Option.some.inj hx
        exact ⟨by rw [hacc]; exact List.mem_cons_self, by rw [h.body, hk]⟩
      · exact hold key x hx
    · exact hold key x (hbmap ▸ hx)
  · intro x hx
    rcases h.outcome with ⟨-, -, -, -, htip, hacc⟩ | ⟨-, htip, hacc⟩
    · rw [htip] at hx
      rw [hacc, ← Option.some.inj hx]
      exact List.mem_cons_self
    · rw [htip] at hx
      exact h.subset (hi.tip x hx)

end ChunkStep

end Bootcamp
