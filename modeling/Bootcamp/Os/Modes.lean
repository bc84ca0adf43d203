import Bootcamp.Blockchain.Parallel
import Bootcamp.Os.Guarding

/-! `readindexed` with `--secure` and without it. -/
namespace Bootcamp.Os

open Sthreads

/-- `main` without `--secure`. -/
def plainMain (img : Image) (course : Course) (current : Task) (device : Device)
    (memory : UInt64 → UInt64) (chunks : Nat) : Except Stop Outcome := do
  let mgr ← Thmgr.new course.malloc chunks
  let p ← (List.range chunks).foldlM (Process.startChunk img course current)
    (.begin mgr device memory)
  let child ← p.vfork current course.child course.childRegs
  let t ← p.attack img course current
  let p ← (List.range chunks).foldlM Process.waitChunk
    { p with device := t.device, memory := t.memory }
  let p ← p.destroy current
  let _ ← t.destroy current
  return { process := p, child, attacker := t.started }

/-- What a thread reads in its entry of `thdata`, beside what is the same in all of them.
`thread` is whose objects it makes. -/
structure ThreadData where
  thread : Nat
  prevmap : UInt64
  chunkoff : UInt64
  map : UInt64

/-- The entries that `main` has written before it starts the thread of chunk `n`. -/
def Image.filled (img : Image) (hd : Header) : Nat → UInt64 → Option ThreadData
  | 0 => fun _ => none
  | n + 1 => Function.update (img.filled hd n) (img.thdata n)
      (some ⟨n, hd.prevMapOff n, hd.chunkOff.getD n 0, hd.mapOff.getD n 0⟩)

def doReadChunk (c : Crypto) (data : Bytes) (thdata : UInt64 → Option ThreadData) (arg : UInt64) :
    Option (Except Abort ChunkResult) :=
  (thdata arg).map fun d => Day4.readChunk c data d.thread d.prevmap d.chunkoff d.map

section

variable {img : Image} {course : Course} {current : Task} {device : Device} {chunks k : Nat}
  {p : Process}

/-- Entries of different threads are at different addresses. -/
def Image.Apart (img : Image) (n : Nat) : Prop :=
  ∀ i < n, ∀ j < n, img.thdata i = img.thdata j → i = j

theorem filled_eq {hd : Header} {n i : Nat} (hapart : img.Apart n) (hi : i < n) :
    img.filled hd n (img.thdata i) =
      some ⟨i, hd.prevMapOff i, hd.chunkOff.getD i 0, hd.mapOff.getD i 0⟩ := by
  induction n with
  | zero => exact absurd hi (Nat.not_lt_zero i)
  | succ n ih =>
    rw [Image.filled]
    by_cases hin : i = n
    · rw [hin, Function.update_self]
    · have hne : img.thdata i ≠ img.thdata n :=
        fun heq => hin (hapart i hi n (Nat.lt_succ_self n) heq)
      rw [Function.update_of_ne hne]
      exact ih (fun a ha b hb => hapart a (by omega) b (by omega)) (by omega)

/-- The threads of `readindexed`. -/
theorem started_threads {hd : Header} (c : Crypto) (data : Bytes)
    (hapart : img.Apart hd.chunks.toNat) :
    (startedChunks img course hd.chunks.toNat).map
        (fun s => doReadChunk c data (img.filled hd hd.chunks.toNat) s.arg) =
      (threads Day4.readChunk c data hd).map some := by
  rw [startedChunks, threads, List.map_map, List.map_map]
  refine List.map_congr_left fun i hi => ?_
  simp only [Function.comp_def, doReadChunk, filled_eq hapart (List.mem_range.mp hi), Option.map_some]

/-! ## Without the device -/

/-- The hook leaves what `current` creates as it is. -/
def LeavesAlone (device : Device) (current : Task) : Prop :=
  ∀ newp regs memory, device.wakeUpNewTask ⟨current, newp, regs, memory⟩ = .ok regs

theorem leavesAlone_of_inv (h : device.Inv) (hopened : device.deviceOpened = 0) (current : Task) :
    LeavesAlone device current := by
  intro newp regs memory
  have hprobe : device.jprobe = false := by
    refine (h.idle fun pinfo hlive => ?_).1
    have hone := (h.held pinfo hlive).2
    omega
  rw [Device.wakeUpNewTask, hprobe]
  rfl

/-- One turn of the loop. -/
theorem Begun.startChunk_plain (h : Begun img course chunks k p) (hsecure : p.mgr.secure = false)
    (halone : LeavesAlone p.device current) (hfunc : img.doReadChunk ≠ 0) (hk : k < chunks) :
    ∃ p', p.startChunk img course current k = .ok p' ∧ Begun img course chunks (k + 1) p' ∧
      p'.mgr.secure = false ∧ p'.device = p.device := by
  obtain ⟨htid, hunused, hidle⟩ := h.free k (Nat.le_refl k) hk
  have hslot : k < p.mgr.numThreads := h.numThreads ▸ hk
  have hcreate := p.create_open_eq hslot hsecure (fun i hi => (h.running i hi).1) hunused htid
    img.doReadChunk (img.thdata k) (course.mmap k)
  have hlaunch := (p.created img k (p.mgr.threads k).stack).launch_open_eq hsecure hslot
    (by rw [Process.created, Thmgr.setThread_self]; exact hidle)
    (by rw [Process.created, Thmgr.setThread_self]; exact hfunc) (course.random k)
    (halone (course.spawn k).newp (course.spawn k).regs _)
  exact ⟨_, Process.startChunk_eq hcreate hlaunch, h.next _ _ _, hsecure, rfl⟩

theorem Begun.loop_plain (h : Begun img course chunks 0 p) (hsecure : p.mgr.secure = false)
    (halone : LeavesAlone p.device current) (hfunc : img.doReadChunk ≠ 0) :
    ∃ p', (List.range chunks).foldlM (Process.startChunk img course current) p = .ok p' ∧
      Begun img course chunks chunks p' ∧ p'.mgr.secure = false ∧ p'.device = p.device := by
  refine Except.Delivers.result (.range (I := fun k q => Begun img course chunks k q ∧
    q.mgr.secure = false ∧ q.device = p.device) chunks ⟨h, hsecure, rfl⟩ fun k q hk hq => ?_)
  obtain ⟨hq, hq', hdevice⟩ := hq
  obtain ⟨q', hok, hnext, hsecure', hdevice'⟩ :=
    hq.startChunk_plain hq' (hdevice ▸ halone) hfunc hk
  rw [hok]
  exact .ok ⟨hnext, hsecure', hdevice'.trans hdevice⟩

/-- The threads of the chunks start as they do with `--secure`, and nothing stops the attacks. -/
structure Outcome.Unguarded (img : Image) (course : Course) (device : Device) (chunks : Nat)
    (out : Outcome) : Prop where
  started : out.process.started = startedChunks img course chunks
  joined : out.process.joined = List.range chunks
  child : out.child = course.childRegs
  attacker : out.attacker = [⟨img.threadFunc, 0, course.attacker.regs⟩]
  device : out.process.device = device

theorem plainMain_ok (memory : UInt64 → UInt64) (halone : LeavesAlone device current)
    (hread : img.doReadChunk ≠ 0) (hattack : img.threadFunc ≠ 0)
    (hchunks : 0 < chunks ∧ chunks ≤ maxThreads) : ∃ out,
      plainMain img course current device memory chunks = .ok out ∧
        out.Unguarded img course device chunks := by
  obtain ⟨mgr, hnew, hsecure, hnum⟩ : ∃ mgr, Thmgr.new course.malloc chunks = .ok mgr ∧
      mgr.secure = false ∧ mgr.numThreads = chunks :=
    ⟨_, by rw [Thmgr.new, Thmgr.make, if_pos hchunks], rfl, rfl⟩
  have hbegin : Begun img course chunks 0 (.begin mgr device memory) :=
    .begin (.inl ⟨_, _, hnew⟩) hnum device memory
  obtain ⟨p, hloop, hp, hopen, hdevice⟩ := hbegin.loop_plain hsecure halone hread
  have halone : LeavesAlone p.device current := hdevice ▸ halone
  have hfork := Process.vfork_eq (halone course.child course.childRegs p.memory)
  obtain ⟨t, hattacked, hdevice', -, hstarted, hgone⟩ :=
    Process.attack_eq hattack (halone course.attacker.newp course.attacker.regs _)
  obtain ⟨q, hwaited, hq, hunchanged⟩ := (Awaited.begin hp t.device t.memory).loop
  have hdestroyed : q.destroy current = .ok q :=
    Process.destroy_open (hunchanged.secure.trans hopen) fun i hi => hq.idle i (hq.numThreads ▸ hi)
  refine ⟨⟨q, course.childRegs, t.started⟩, ?_, hq.started, hq.joined, rfl, hstarted,
    hunchanged.device.trans (hdevice'.trans hdevice)⟩
  simp only [plainMain, Except.ok_bind, hnew, hloop, hfork, hattacked, hwaited, hdestroyed, hgone]
  rfl

theorem plainMain_stopped (img : Image) (course : Course) (current : Task) (device : Device)
    (memory : UInt64 → UInt64) (hchunks : ¬ (0 < chunks ∧ chunks ≤ maxThreads)) :
    plainMain img course current device memory chunks = .error .assertion := by
  have hnew : Thmgr.new course.malloc chunks = .error .assertion := by
    rw [Thmgr.new, Thmgr.make, if_neg hchunks]
  rw [plainMain, hnew]
  rfl

end

/-- `readindexed` with `--secure` and without it, on a device that the module leaves free after
any calls. Both modes read a file of 1 to 32 chunks with the same threads, which start from the
same registers and are joined in the same order, and which are the threads of the model of the
reader; they refuse every other number of chunks. What the option makes different is where the
attacks end. -/
theorem readindexed_modes {img : Image} {course : Course} {hd : Header} (c : Crypto) (data : Bytes)
    (current : Task) {events : List Sthreads.Event} {device : Device} (memory : UInt64 → UInt64)
    (hrun : Device.run events = .ok device) (hopened : device.deviceOpened = 0)
    (hb : course.Benign hd.chunks.toNat) (hread : img.doReadChunk ≠ 0)
    (hattack : img.threadFunc ≠ 0) (hapart : img.Apart hd.chunks.toNat) :
    (0 < hd.chunks.toNat ∧ hd.chunks.toNat ≤ maxThreads → ∃ out out',
      secureMain img course current device memory hd.chunks.toNat = .ok out ∧
      plainMain img course current device memory hd.chunks.toNat = .ok out' ∧
      out.process.started = out'.process.started ∧ out.process.joined = out'.process.joined ∧
      out.process.started.map
          (fun s => doReadChunk c data (img.filled hd hd.chunks.toNat) s.arg) =
        (threads Day4.readChunk c data hd).map some ∧
      out.Guarded img course hd.chunks.toNat ∧
      out'.Unguarded img course device hd.chunks.toNat) ∧
    (¬ (0 < hd.chunks.toNat ∧ hd.chunks.toNat ≤ maxThreads) →
      secureMain img course current device memory hd.chunks.toNat = .error .assertion ∧
      plainMain img course current device memory hd.chunks.toNat = .error .assertion) := by
  have halone := leavesAlone_of_inv (Device.Inv.run hrun) hopened current
  constructor
  · intro hchunks
    obtain ⟨out, hsecure, hguarded⟩ :=
      secureMain_ok current memory hopened hb hread hattack hchunks
    obtain ⟨out', hplain, hunguarded⟩ := plainMain_ok memory halone hread hattack hchunks
    refine ⟨out, out', hsecure, hplain, hguarded.started.trans hunguarded.started.symm,
      hguarded.joined.trans hunguarded.joined.symm, ?_, hguarded, hunguarded⟩
    rw [hguarded.started]
    exact started_threads c data hapart
  · intro hchunks
    exact ⟨secureMain_stopped current memory hopened hb hchunks,
      plainMain_stopped img course current device memory hchunks⟩

/-- The two sample chunks. -/
theorem readindexed_modes_two : ∃ out out',
    secureMain twoChunkImage twoChunkCourse ⟨100, 100⟩ .init (fun _ => 0) 2 = .ok out ∧
    plainMain twoChunkImage twoChunkCourse ⟨100, 100⟩ .init (fun _ => 0) 2 = .ok out' ∧
    out.process.started = out'.process.started ∧ out.process.joined = out'.process.joined ∧
    out.process.started.map (fun s => doReadChunk .toy (indexedFile twoChunks)
        (twoChunkImage.filled twoChunksHeader 2) s.arg) =
      (threads Day4.readChunk .toy (indexedFile twoChunks) twoChunksHeader).map some ∧
    out.Guarded twoChunkImage twoChunkCourse 2 ∧
    out'.Unguarded twoChunkImage twoChunkCourse .init 2 := by
  have hb : twoChunkCourse.Benign twoChunksHeader.chunks.toNat := by
    refine ⟨rfl, rfl, by decide, ?_, ?_, ?_, ?_, ?_, fun _ _ _ => rfl⟩
    all_goals decide
  have hapart : twoChunkImage.Apart twoChunksHeader.chunks.toNat := by
    unfold Image.Apart
    decide
  have hrun : Device.run [] = .ok .init := rfl
  exact (readindexed_modes .toy (indexedFile twoChunks) ⟨100, 100⟩ (fun _ => 0) hrun rfl hb
    (by decide) (by decide) hapart).1 (by decide)

end Bootcamp.Os
