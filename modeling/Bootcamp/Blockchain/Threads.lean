import Bootcamp.Blockchain.Chunks

/-! The two parallel readers side by side, and what a thread of either tells the
others: the blocks it enters in `heads` and `tails` and what stands behind them. -/
namespace Bootcamp

/-- The parallel readers of the repository. -/
inductive ChunkDay
  | three
  | four

namespace ChunkDay

def readChunk : ChunkDay → ChunkReader
  | three => Day3.readChunk
  | four => Day4.readChunk

def reader (c : Crypto) (thread : Nat) (prevMapOff : UInt64) (initBal : BalanceMap) :
    ChunkDay → Reader ChunkState
  | three => Day3.reader c thread initBal
  | four => Day4.reader c thread prevMapOff initBal

/-- How the last balances of a chunk are compared with the stored ones. -/
def agrees : ChunkDay → BalanceMap → BalanceMap → Bool
  | three => Day3.lastBalanceStored
  | four => balanceMapsEqual

/-- What the thread remembers of its first block. -/
def Remembers (k : Nat) (st : ChunkState) : ChunkDay → Prop
  | three => st.i ≠ 0 → st.first = some ⟨k, 1⟩ ∧ ⟨k, 1⟩ ∈ st.accepted
  | four => ∀ x, x ∈ st.heads ↔ IsHead st x

variable {c : Crypto} {k : Nat} {off : UInt64} {init : BalanceMap} {day : ChunkDay}

@[simp] theorem reader_heap (st : ChunkState) : (day.reader c k off init).heap st = st.heap := by
  cases day <;> rfl

@[simp] theorem reader_bmap (st : ChunkState) : (day.reader c k off init).bmap st = st.bmap := by
  cases day <;> rfl

theorem visit_step {st st' : ChunkState} {n : Nat} {b : Body} (hi : ChunkInv c k init st)
    (hr : day.Remembers k st) (hoff : off = 0 → init = ∅)
    (h : (day.reader c k off init).visit st n (Block.attached st.heap st.bmap b) = .ok st') :
    ChunkStep c k init b st st' ∧ day.Remembers k st' := by
  cases day with
  | three =>
    obtain ⟨hstep, hacc, hfirst⟩ := Day3.visit_step (n := n) hi.unstarted h
    refine ⟨hstep, fun _ => ?_⟩
    rw [hacc, hfirst]
    split
    · rename_i hz
      rw [hz]
      exact ⟨rfl, List.mem_cons_self⟩
    · rename_i hz
      exact ⟨(hr hz).1, List.mem_cons_of_mem _ (hr hz).2⟩
  | four =>
    obtain ⟨hstep, hcases⟩ := Day4.visit_step (n := n) hi.unstarted hoff h
    have hkept := hstep.kept hi
    have hold (x : Ptr) (hx : x ∈ st.accepted) :
        (x.serial = 1 ∧ (st'.heap x).prevHash ≠ .zero) ↔ x ∈ st.heads := by
      rw [hr x, IsHead, hkept x hx]
      exact ⟨fun h => ⟨hx, h⟩, fun h => h.2⟩
    have hheads (x : Ptr) (hx : x ∈ st.heads) : x ∈ st.accepted := ((hr x).mp hx).1
    refine ⟨hstep, fun x => ?_⟩
    rcases hcases with ⟨hacc, hheads'⟩ | ⟨hacc, hheads'⟩
    · rw [IsHead, hacc, hheads']
      by_cases hx : x = ⟨k, st.i + 1⟩
      · subst hx
        have hnot : (⟨k, st.i + 1⟩ : Ptr) ∉ st.heads := by
          intro hmem
          exact absurd (hi.own _ (hheads _ hmem)).2.2 (by simp)
        have hbody := hstep.body
        rw [hbody]
        by_cases hz : st.i = 0 <;> by_cases hb : b.prevHash = .zero <;> simp [hz, hb] at hnot ⊢
        all_goals exact hnot
      · have hmem : x ∈ (if st.i = 0 ∧ b.prevHash ≠ .zero then ⟨k, st.i + 1⟩ :: st.heads
            else st.heads) ↔ x ∈ st.heads := by
          split
          · exact ⟨fun h => (List.mem_cons.mp h).resolve_left hx, List.mem_cons_of_mem _⟩
          · exact Iff.rfl
        rw [hmem, List.mem_cons, or_iff_right hx]
        exact ⟨fun h => ⟨hheads x h, (hold x (hheads x h)).mpr h⟩, fun h => (hold x h.1).mp h.2⟩
    · rw [IsHead, hacc, hheads']
      exact ⟨fun h => ⟨hheads x h, (hold x (hheads x h)).mpr h⟩, fun h => (hold x h.1).mp h.2⟩

theorem remembers_start : day.Remembers k .start := by
  cases day with
  | three => exact fun h => absurd rfl h
  | four =>
    intro x
    simp [IsHead, ChunkState.start]

/-- In every state in which a turn of the loop begins. -/
theorem reached_inv (day : ChunkDay) {data : Bytes} {n : Nat} {s : Cursor ChunkState}
    (hoff : off = 0 → init = ∅)
    (h : Loop.Reaches (day.reader c k off init).turn ⟨data, n, .start⟩ s) :
    ChunkInv c k init s.state ∧ day.Remembers k s.state := by
  refine Loop.Reaches.invariant (I := fun s => ChunkInv c k init s.state ∧ day.Remembers k s.state)
    h ⟨.start, remembers_start⟩ ?_
  rintro a b - ⟨hi, hr⟩ hturn
  obtain ⟨n, body, -, -, hv, -, -⟩ := Reader.turn_iff.mp hturn
  rw [reader_heap, reader_bmap] at hv
  obtain ⟨hstep, hr'⟩ := visit_step hi hr hoff hv
  exact ⟨hstep.inv hi, hr'⟩

end ChunkDay

/-! ## What a thread tells the others -/

theorem readInitBal_zero {data : Bytes} {off : UInt64} {init : BalanceMap}
    (h : readInitBal data off = .ok init) : off = 0 → init = ∅ := by
  rintro rfl
  exact (Except.ok.inj h).symm

namespace ChunkResult

/-- All that the thread does to the shared containers. -/
def ops (r : ChunkResult) : List SharedOp := r.sections.flatten

/-- The thread has entered its last block in `tails`. -/
def Registered (r : ChunkResult) : Prop := ∃ h p, .setTail h p ∈ r.ops

/-- The guarantee of thread `k` that read `init` in front of its chunk and
`final` behind it. -/
structure Sound (c : Crypto) (day : ChunkDay) (k : Nat) (init final : BalanceMap) (r : ChunkResult) :
    Prop where
  inv : ChunkInv c k init r.state
  tail : ∀ h p, .setTail h p ∈ r.ops → p ∈ r.state.accepted ∧ h = (r.state.heap p).blkHash ∧
    day.agrees (r.state.heap p).balances final = true ∧ r.state.tip = some p
  head : ∀ p, .insertHead p ∈ r.ops → IsHead r.state p
  entered : r.Registered → ∀ p, IsHead r.state p → .insertHead p ∈ r.ops

end ChunkResult

/-- The loop of thread `k` ended in `st`. -/
def ChunkDay.Ran (day : ChunkDay) (c : Crypto) (data : Bytes) (k : Nat)
    (off chunkStart mapStart : UInt64) (init : BalanceMap) (st : ChunkState) : Prop :=
  (day.reader c k off init).run (data.drop chunkStart.toNat) (mapStart - chunkStart).toNat .start =
    .ok st

/-- The state `s` begins a turn of the loop of thread `k`. -/
def ChunkDay.Reached (day : ChunkDay) (c : Crypto) (data : Bytes) (k : Nat)
    (off chunkStart mapStart : UInt64) (init : BalanceMap) (s : Cursor ChunkState) : Prop :=
  Loop.Reaches (day.reader c k off init).turn
    ⟨data.drop chunkStart.toNat, (mapStart - chunkStart).toNat, .start⟩ s

section

variable {c : Crypto} {data : Bytes} {k : Nat} {off chunkStart mapStart : UInt64} {r : ChunkResult}

namespace Day4

variable {init final : BalanceMap} {st : ChunkState} {tip : Ptr}

theorem mem_headSections {heads : List Ptr} {p : Ptr} :
    .insertHead p ∈ (heads.map fun p => [SharedOp.insertHead p]).flatten ↔ p ∈ heads := by
  simp

theorem not_mem_headSections {heads : List Ptr} {h : HashResult} {p : Ptr} :
    .setTail h p ∉ (heads.map fun p => [SharedOp.insertHead p]).flatten := by
  simp

theorem sound_heads (hi : ChunkInv c k init st) (hr : ChunkDay.four.Remembers k st) :
    (ChunkResult.mk st (st.heads.map fun p => [.insertHead p])).Sound c .four k init final where
  inv := hi
  tail _ _ hp := absurd hp not_mem_headSections
  head p hp := (hr p).mp (mem_headSections.mp hp)
  entered := fun ⟨_, _, hp⟩ => absurd hp not_mem_headSections

theorem sound_tail (hi : ChunkInv c k init st) (hr : ChunkDay.four.Remembers k st)
    (htip : st.tip = some tip) (hequal : balanceMapsEqual (st.heap tip).balances final) :
    (ChunkResult.mk st ((st.heads.map fun p => [.insertHead p]) ++
      [[.setTail (st.heap tip).blkHash tip]])).Sound c .four k init final where
  inv := hi
  tail h p hp := by
    rw [ChunkResult.ops, List.flatten_append, List.mem_append] at hp
    obtain ⟨rfl, rfl⟩ : h = (st.heap tip).blkHash ∧ p = tip := by
      simpa using hp.resolve_left not_mem_headSections
    exact ⟨hi.tip _ htip, rfl, hequal, htip⟩
  head p hp := by
    rw [ChunkResult.ops, List.flatten_append, List.mem_append] at hp
    exact (hr p).mp (mem_headSections.mp (hp.resolve_right (by simp)))
  entered _ p hp := by
    rw [ChunkResult.ops, List.flatten_append, List.mem_append]
    exact .inl (mem_headSections.mpr ((hr p).mpr hp))

theorem readChunk_sound (h : readChunk c data k off chunkStart mapStart = .ok r) :
    ∃ init final, readInitBal data off = .ok init ∧
      readBalanceMap (data.drop mapStart.toNat) = .ok final ∧ r.Sound c .four k init final ∧
      (r = ⟨.start, []⟩ ∨ ChunkDay.four.Ran c data k off chunkStart mapStart init r.state) := by
  unfold readChunk at h
  obtain ⟨init, hinit, h⟩ := Except.bind_eq_ok.mp h
  obtain ⟨final, hfinal, h⟩ := Except.bind_eq_ok.mp h
  obtain ⟨st, hrun, h⟩ := Except.bind_eq_ok.mp h
  obtain ⟨s, rfl, hreach, -⟩ := Reader.run_eq_ok hrun
  obtain ⟨hi, hr⟩ := ChunkDay.reached_inv .four (readInitBal_zero hinit) hreach
  refine ⟨init, final, hinit, hfinal, ?_⟩
  cases htip : s.state.tip with
  | none =>
    simp only [htip] at h
    obtain rfl := Except.ok.inj h
    exact ⟨sound_heads hi hr, .inr hrun⟩
  | some tip =>
    simp only [htip] at h
    split at h
    · rename_i hequal
      obtain rfl := Except.ok.inj h
      exact ⟨sound_tail hi hr htip hequal, .inr hrun⟩
    · obtain rfl := Except.ok.inj h
      exact ⟨sound_heads hi hr, .inr hrun⟩

end Day4

namespace Day3

variable {init final : BalanceMap} {st : ChunkState} {tip first : Ptr} {coinbase : Bool}

theorem sound_silent (hi : ChunkInv c k init st) :
    (ChunkResult.mk st []).Sound c .three k init final where
  inv := hi
  tail h p hp := by simp [ChunkResult.ops] at hp
  head p hp := by simp [ChunkResult.ops] at hp
  entered := fun ⟨h, p, hp⟩ => by simp [ChunkResult.ops] at hp

theorem first_of_tip (hi : ChunkInv c k init st) (hr : ChunkDay.three.Remembers k st)
    (htip : st.tip = some tip) (hfirst : st.first = some first) :
    first = ⟨k, 1⟩ ∧ ⟨k, 1⟩ ∈ st.accepted := by
  have hstarted : st.i ≠ 0 := by
    have := hi.own tip (hi.tip tip htip)
    omega
  obtain ⟨hfirst', hmem⟩ := hr hstarted
  exact ⟨Option.some.inj (hfirst.symm.trans hfirst'), hmem⟩

theorem sound_tail (hi : ChunkInv c k init st) (hr : ChunkDay.three.Remembers k st)
    (htip : st.tip = some tip) (hfirst : st.first = some first)
    (hstored : lastBalanceStored (st.heap tip).balances final)
    (hcoinbase : coinbase = true ↔ (st.heap first).prevHash = .zero) :
    (ChunkResult.mk st [.setTail (st.heap tip).blkHash tip ::
      if coinbase then [] else [.insertHead first]]).Sound c .three k init final := by
  obtain ⟨rfl, hmem⟩ := first_of_tip hi hr htip hfirst
  refine ⟨hi, ?_, ?_, ?_⟩
  · intro key p hp
    obtain ⟨rfl, rfl⟩ : key = (st.heap tip).blkHash ∧ p = tip := by
      cases coinbase <;> simpa [ChunkResult.ops] using hp
    exact ⟨hi.tip _ htip, rfl, hstored, htip⟩
  · intro p hp
    cases coinbase with
    | true => simp [ChunkResult.ops] at hp
    | false =>
      obtain rfl : p = ⟨k, 1⟩ := by simpa [ChunkResult.ops] using hp
      exact ⟨hmem, rfl, fun hz => absurd (hcoinbase.mpr hz) (by simp)⟩
  · rintro - p ⟨hp, hser, hz⟩
    obtain rfl : p = ⟨k, 1⟩ := by
      obtain ⟨hthread, -, -⟩ := hi.own p hp
      cases p
      simp_all
    have hfalse : coinbase = false := Bool.eq_false_iff.mpr fun ht => hz (hcoinbase.mp ht)
    simp [ChunkResult.ops, hfalse]

theorem readChunk_sound (h : readChunk c data k off chunkStart mapStart = .ok r) :
    ∃ init final, readInitBal data off = .ok init ∧
      readBalanceMap (data.drop mapStart.toNat) = .ok final ∧ r.Sound c .three k init final ∧
      (r = ⟨.start, []⟩ ∨ ChunkDay.three.Ran c data k off chunkStart mapStart init r.state) := by
  unfold readChunk at h
  obtain ⟨init, hinit, h⟩ := Except.bind_eq_ok.mp h
  obtain ⟨final, hfinal, h⟩ := Except.bind_eq_ok.mp h
  refine ⟨init, final, hinit, hfinal, ?_⟩
  cases hrun : (reader c k init).run (data.drop chunkStart.toNat)
      (mapStart - chunkStart).toNat .start with
  | error e =>
    simp only [hrun] at h
    split at h
    · obtain rfl := Except.ok.inj h
      exact ⟨sound_silent .start, .inl rfl⟩
    · cases h
    · rename_i heq
      cases heq
  | ok st =>
    simp only [hrun] at h
    obtain ⟨s, rfl, hreach, -⟩ := Reader.run_eq_ok hrun
    obtain ⟨hi, hr⟩ := ChunkDay.reached_inv .three (readInitBal_zero hinit) hreach
    split at h
    · rename_i tip first htip hfirst
      split at h
      · rename_i hstored
        obtain ⟨coinbase, hc, h⟩ := Except.bind_eq_ok.mp h
        obtain rfl := Except.ok.inj h
        have hcoinbase := (Block.isCoinbase_eq_ok hc).1
        exact ⟨sound_tail hi hr htip hfirst hstored hcoinbase, .inr hrun⟩
      · obtain rfl := Except.ok.inj h
        exact ⟨sound_silent hi, .inr hrun⟩
    · cases h

end Day3

/-- A thread that returns has kept its guarantee. -/
theorem ChunkDay.readChunk_sound {day : ChunkDay}
    (h : day.readChunk c data k off chunkStart mapStart = .ok r) :
    ∃ init final, readInitBal data off = .ok init ∧
      readBalanceMap (data.drop mapStart.toNat) = .ok final ∧ r.Sound c day k init final ∧
      (r = ⟨.start, []⟩ ∨ day.Ran c data k off chunkStart mapStart init r.state) := by
  cases day with
  | three => exact Day3.readChunk_sound h
  | four => exact Day4.readChunk_sound h

theorem ChunkDay.Ran.reached {day : ChunkDay} {init : BalanceMap} {st : ChunkState}
    (h : st = .start ∨ day.Ran c data k off chunkStart mapStart init st) :
    ∃ s, day.Reached c data k off chunkStart mapStart init s ∧ s.state = st := by
  rcases h with rfl | h
  · exact ⟨_, .refl, rfl⟩
  · obtain ⟨s, hs, hreach, -⟩ := Reader.run_eq_ok h
    exact ⟨s, hreach, hs⟩

namespace ChunkDay

variable {day : ChunkDay} {init : BalanceMap} {s t : Cursor ChunkState}

/-- Every turn counts one block, accepted or not. -/
theorem Reached.turn_i (hoff : off = 0 → init = ∅)
    (h : day.Reached c data k off chunkStart mapStart init s)
    (hturn : Loop.Turn (day.reader c k off init).turn s t) : t.state.i = s.state.i + 1 := by
  obtain ⟨hi, hr⟩ := reached_inv day hoff h
  obtain ⟨n, b, -, -, hvisit, -, -⟩ := Reader.turn_iff.mp hturn
  rw [reader_heap, reader_bmap] at hvisit
  exact (visit_step hi hr hoff hvisit).1.count

theorem Reached.eq_of_i (hoff : off = 0 → init = ∅)
    (hs : day.Reached c data k off chunkStart mapStart init s)
    (ht : day.Reached c data k off chunkStart mapStart init t) (hi : s.state.i = t.state.i) :
    s = t :=
  Loop.Reaches.eq_of_count (fun s : Cursor ChunkState => s.state.i)
    (fun _ _ ha hturn => Reached.turn_i hoff ha hturn) hs ht hi

/-- The block at `x` was read in the turn that begins in `s`, and accepted there. -/
structure Born (c : Crypto) (init : BalanceMap) (heap : Heap) (x : Ptr) (s : Cursor ChunkState) :
    Prop where
  serial : x.serial = s.state.i + 1
  read : ∃ n, Body.read s.data s.bytesLeft = .ok (some (n, (heap x).toBody))
  start : ∃ m m', Start init s.state (heap x).toBody (heap.prev x) m ∧
    (heap x).toBody.accept c m = some m'

theorem Reached.born (hoff : off = 0 → init = ∅)
    (h : day.Reached c data k off chunkStart mapStart init t) :
    ∀ x ∈ t.state.accepted, ∃ s, day.Reached c data k off chunkStart mapStart init s ∧
      Born c init t.state.heap x s := by
  refine Loop.Reaches.invariant (I := fun t => ∀ x ∈ t.state.accepted, ∃ s,
    day.Reached c data k off chunkStart mapStart init s ∧ Born c init t.state.heap x s) h ?_ ?_
  · intro x hx
    cases hx
  · intro a b ha hborn hturn x hx
    obtain ⟨hi, hr⟩ := reached_inv day hoff ha
    obtain ⟨n, body, -, hread, hvisit, -, -⟩ := Reader.turn_iff.mp hturn
    rw [reader_heap, reader_bmap] at hvisit
    obtain ⟨hstep, -⟩ := visit_step hi hr hoff hvisit
    rcases hstep.mem_cases hx with hold | ⟨rfl, m, hstart, haccept⟩
    · obtain ⟨s, hs, hserial, hread, hstart⟩ := hborn x hold
      have hkept := hstep.kept hi x hold
      exact ⟨s, hs, hserial, by rwa [hkept], by rwa [Heap.prev, hkept]⟩
    · have hbody := hstep.body
      exact ⟨a, ha, rfl, ⟨n, by rwa [hbody]⟩, m, _, by rwa [hbody], by rwa [hbody]⟩

/-- An accepted block that is not its chunk's first and names a predecessor goes without one
exactly if the turn that read it read an empty orphan. -/
theorem Reached.orphan_iff (hoff : off = 0 → init = ∅)
    (h : day.Reached c data k off chunkStart mapStart init t) {x : Ptr}
    (hx : x ∈ t.state.accepted) :
    (x.serial ≠ 1 ∧ (t.state.heap x).prevHash ≠ .zero ∧ t.state.heap.prev x = none) ↔
      ∃ s, day.Reached c data k off chunkStart mapStart init s ∧ s.state.i ≠ 0 ∧
        x.serial = s.state.i + 1 ∧ (day.reader c k off init).ReadsEmptyOrphan c s := by
  obtain ⟨s, hs, hserial, ⟨n, hread⟩, m, m', hstart, haccept⟩ := h.born hoff x hx
  constructor
  · rintro ⟨hfirst, hz, hnone⟩
    rw [hnone] at hstart
    refine ⟨s, hs, by omega, hserial, n, _, hread, hz, ?_⟩
    rw [reader_bmap]
    cases hstart with
    | coinbase hzero => exact absurd hzero hz
    | head hi => omega
    | orphan hi _ hf => exact ⟨hf, Body.validate_empty.mp ⟨_, Body.accept_eq_some.mp haccept⟩⟩
  · rintro ⟨s', hs', hi, hserial', n', b, hread', hz, hf, -⟩
    obtain rfl : s = s' := hs.eq_of_i hoff hs' (by omega)
    obtain ⟨-, rfl⟩ := Prod.mk.inj (Option.some.inj (Except.ok.inj (hread.symm.trans hread')))
    rw [reader_bmap] at hf
    refine ⟨by omega, hz, ?_⟩
    generalize t.state.heap.prev x = prev at hstart ⊢
    cases hstart with
    | coinbase hzero => exact absurd hzero hz
    | head hi' => exact absurd hi' hi
    | orphan => rfl
    | link _ _ hf' => cases hf.symm.trans hf'

end ChunkDay

end

end Bootcamp
