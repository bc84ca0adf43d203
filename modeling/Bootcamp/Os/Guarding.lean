import Bootcamp.Os.Launching

/-! What `main` of `readindexed --secure` does with the device, the manager and the two attacks
that it makes on itself. -/
namespace Bootcamp.Os

open Sthreads

/-! ## The program -/

/-- Addresses of functions, and of what the thread of each chunk is given. -/
structure Image where
  doReadChunk : UInt64
  threadFunc : UInt64
  handleBadThread : UInt64
  thdata : Nat → UInt64

/-- What the system and the C library decide in the course of `main`. The random numbers, the
stacks and the new tasks are one for each chunk. -/
structure Course where
  kmalloc : Option ProcessInfo
  key : UInt64
  malloc : Nat → Thread
  mmap : Nat → UInt64
  random : Nat → UInt64
  spawn : Nat → Spawn
  child : Task
  childRegs : PtRegs
  otherMalloc : Nat → Thread
  attacker : Spawn

/-- `get_chdev`, called for the first time, and the assertion on what it returns. -/
def getChdev (device : Device) (current : Task) (kmalloc : Option ProcessInfo) :
    Except Stop (Device × Chdev) :=
  let (device, r) := device.demoOpen current kmalloc
  if r < 0 then .error .assertion else .ok (device, ⟨current.tgid, true⟩)

def Chdev.devCommand (chdev : Chdev) (device : Device) (current : Task) (cmd : Command) :
    Except Stop (Device × Int) :=
  if !chdev.isopen then .error .assertion
  else
    match device.handleCommand current cmd with
    | .error e => .error (.oops e)
    | .ok r => .ok r

def openSecure (img : Image) (course : Course) (current : Task) (device : Device) :
    Except Stop (Device × Chdev) := do
  let (device, chdev) ← getChdev device current course.kmalloc
  let (device, r) ←
    chdev.devCommand device current ⟨CommandType.regErrFn.value, img.handleBadThread⟩
  if r < 0 then throw .assertion
  let (device, r) ← chdev.devCommand device current ⟨CommandType.regKey.value, course.key⟩
  if r < 0 then throw .assertion
  return (device, chdev)

namespace Process

def startChunk (img : Image) (course : Course) (current : Task) (p : Process) (i : Nat) :
    Except Stop Process := do
  let (p, tid) ← p.create img.doReadChunk (img.thdata i) (course.mmap i)
  if tid ≠ i then throw .assertion
  let (p, r) ← p.launch current i (course.random i) (course.spawn i)
  if r ≠ 0 then throw .assertion
  return p

/-- The registers that the child starts from. -/
def vfork (p : Process) (current child : Task) (regs : PtRegs) : Except Stop PtRegs :=
  match p.device.wakeUpNewTask ⟨current, child, regs, p.memory⟩ with
  | .error e => .error (.oops e)
  | .ok regs => .ok regs

/-- A manager that knows nothing of the device starts a thread and waits for it. -/
def attack (img : Image) (course : Course) (current : Task) (p : Process) :
    Except Stop Process := do
  let mgr ← Thmgr.new course.otherMalloc 1
  let (t, tid) ← (begin mgr p.device p.memory).create img.threadFunc 0 0
  if tid ≠ 0 then throw .assertion
  let (t, _) ← t.launch current 0 0 course.attacker
  let (t, _) ← t.wait 0
  return t

def waitChunk (p : Process) (i : Nat) : Except Stop Process := do
  let (p, _) ← p.wait i
  return p

end Process

/-- What is left of a run, with what the child and the attacking thread started from. -/
structure Outcome where
  process : Process
  child : PtRegs
  attacker : List Started

def secureMain (img : Image) (course : Course) (current : Task) (device : Device)
    (memory : UInt64 → UInt64) (chunks : Nat) : Except Stop Outcome := do
  let (device, chdev) ← openSecure img course current device
  let mgr ← Thmgr.newSecure course.malloc (some chdev) chunks
  let p ← (List.range chunks).foldlM (Process.startChunk img course current)
    (.begin mgr device memory)
  let child ← p.vfork current course.child course.childRegs
  let t ← p.attack img course current
  let p ← (List.range chunks).foldlM Process.waitChunk
    { p with device := t.device, memory := t.memory }
  let p ← p.destroy current
  -- the other manager goes with its scope
  let _ ← t.destroy current
  return { process := p, child, attacker := t.started }

/-! ## The hook -/

theorem forkCallback_process (pinfo : ProcessInfo) {t : Creation}
    (hprocess : t.newp.pid = t.newp.tgid) (howner : pinfo.pid = t.current.pid)
    (hcallback : pinfo.isValidCallback ≠ 0) :
    forkCallback pinfo t = { t.regs with ip := pinfo.errorCallback } := by
  simp [forkCallback, hprocess, howner, hcallback]

theorem forkCallback_thread (pinfo : ProcessInfo) {t : Creation}
    (hthread : t.newp.pid ≠ t.newp.tgid) (howner : pinfo.pid = t.current.pid)
    (hkey : pinfo.isValidKey ≠ 0) (hcallback : pinfo.isValidCallback ≠ 0) :
    forkCallback pinfo t = if t.memory (pageBase t.regs.sp) = pinfo.key then t.regs
      else { t.regs with ip := pinfo.errorCallback } := by
  have hscan : pageScan 4096 t.regs.sp = pageBase t.regs.sp := by
    apply pageScan_eq
    rw [toNat_mod_page]
    omega
  by_cases hstored : t.memory (pageBase t.regs.sp) = pinfo.key
  · simp [forkCallback, hthread, hscan, hstored]
  · simp [forkCallback, hthread, howner, hkey, hcallback, hscan, hstored]

/-! ## Opening the device -/

/-- The key that is registered when `k` threads have been launched. -/
def Course.lastKey (course : Course) : Nat → UInt64
  | 0 => course.key
  | k + 1 => course.random k

/-- The device as `main` holds it. -/
def heldDevice (img : Image) (current : Task) (key : UInt64) : Device :=
  ⟨.live ⟨current.pid, 1, 1, key, img.handleBadThread⟩, 1, true⟩

theorem handleCommand_regKey (img : Image) (current : Task) (key key' : UInt64) :
    (heldDevice img current key).handleCommand current ⟨CommandType.regKey.value, key'⟩ =
      .ok (heldDevice img current key', commandSize) := by
  simp [Device.handleCommand, heldDevice]

theorem openSecure_eq (img : Image) {course : Course} (current : Task) {device : Device}
    (hopened : device.deviceOpened = 0) {pinfo : ProcessInfo} (hkmalloc : course.kmalloc = some pinfo) :
    openSecure img course current device =
      .ok (heldDevice img current course.key, ⟨current.tgid, true⟩) := by
  have hzero : ¬ (0 : Int) < 0 := by decide
  have hwritten : ¬ commandSize < 0 := by decide
  have hchdev : getChdev device current course.kmalloc = .ok
      (⟨.live { pinfo with pid := current.pid, isValidKey := 0, isValidCallback := 0 }, 1, true⟩,
        ⟨current.tgid, true⟩) := by
    simp [getChdev, Device.demoOpen, hopened, hkmalloc]
  simp [openSecure, hchdev, Chdev.devCommand, Device.handleCommand, CommandType.value, hwritten,
    heldDevice]

/-! ## Starting the threads -/

/-- What is asked of the system: there is memory, the new tasks are what they should be, the
stacks are where `launch` expects them, and the other threads leave a key alone until the hook
has read it. -/
structure Course.Benign (course : Course) (chunks : Nat) : Prop where
  kmalloc : course.kmalloc.isSome
  child : course.child.pid = course.child.tgid
  attacker : course.attacker.newp.pid ≠ course.attacker.newp.tgid
  thread : ∀ i < chunks, (course.spawn i).newp.pid ≠ (course.spawn i).newp.tgid
  stack : ∀ i < chunks, course.mmap i ≠ 0
  aligned : ∀ i < chunks, course.mmap i % 4096 = 0
  above : ∀ i < chunks,
    (course.mmap i).toNat + sthreadStackSize.toNat - 8192 ≤ (course.spawn i).regs.sp.toNat
  below : ∀ i < chunks,
    (course.spawn i).regs.sp.toNat < (course.mmap i).toNat + sthreadStackSize.toNat - 4096
  kept : ∀ i < chunks, ∀ memory,
    (course.spawn i).others memory (keySlot (course.mmap i)) = memory (keySlot (course.mmap i))

/-- The arguments of the first `k` threads, which start where they were meant to. -/
def startedChunks (img : Image) (course : Course) (k : Nat) : List Started :=
  (List.range k).map fun i => ⟨img.doReadChunk, img.thdata i, (course.spawn i).regs⟩

theorem ne_mapFailed {stack : UInt64} (haligned : stack % 4096 = 0) : stack ≠ mapFailed := by
  rintro rfl
  exact absurd haligned (by decide)

namespace Process

variable {img : Image} {course : Course} {current : Task} {p : Process} {k : Nat}

/-- Slot `k` has what the thread of its chunk is to be started with. -/
def created (p : Process) (img : Image) (k : Nat) (stack : UInt64) : Process :=
  { p with mgr := p.mgr.setThread k { p.mgr.threads k with
      used := true, thfunc := img.doReadChunk, arg := img.thdata k, stack } }

/-- The thread of slot `k` has been started. -/
def launched (p : Process) (k : Nat) (device : Device) (memory : UInt64 → UInt64) (regs : PtRegs) :
    Process where
  mgr := p.mgr.setThread k { p.mgr.threads k with _tid := p.started.length, running := true }
  device
  memory
  started := p.started ++ [⟨(p.mgr.threads k).thfunc, (p.mgr.threads k).arg, regs⟩]
  joined := p.joined

/-- The first free slot is taken. -/
theorem findFreeThread_eq (hk : k < p.mgr.numThreads)
    (hbefore : ∀ i < k, (p.mgr.threads i).used = true) (hunused : (p.mgr.threads k).used = false) :
    p.mgr.findFreeThread = some k := by
  refine List.find?_range_eq_some.mpr ⟨by simp [hunused], List.mem_range.mpr hk, fun i hi => ?_⟩
  simp [hbefore i hi]

theorem create_eq (hk : k < p.mgr.numThreads) (hsecure : p.mgr.secure = true)
    (hbefore : ∀ i < k, (p.mgr.threads i).used = true) (hunused : (p.mgr.threads k).used = false)
    (htid : (p.mgr.threads k).tid = k) (tfunc tharg : UInt64) {mmap : UInt64}
    (hmap : mmap ≠ mapFailed) : p.create tfunc tharg mmap =
      .ok ({ p with mgr := p.mgr.setThread k { p.mgr.threads k with
        used := true, thfunc := tfunc, arg := tharg, stack := mmap } }, k) := by
  simp [create, findFreeThread_eq hk hbefore hunused, hunused, hsecure, hmap, htid]

theorem create_open_eq (hk : k < p.mgr.numThreads) (hsecure : p.mgr.secure = false)
    (hbefore : ∀ i < k, (p.mgr.threads i).used = true) (hunused : (p.mgr.threads k).used = false)
    (htid : (p.mgr.threads k).tid = k) (tfunc tharg mmap : UInt64) : p.create tfunc tharg mmap =
      .ok ({ p with mgr := p.mgr.setThread k { p.mgr.threads k with
        used := true, thfunc := tfunc, arg := tharg } }, k) := by
  simp [create, findFreeThread_eq hk hbefore hunused, hunused, hsecure, htid]

/-- A thread is started with a key: it gets the registers that it was to start from. -/
theorem launch_eq {key : UInt64} (hdevice : p.device = heldDevice img current key)
    (hsecure : p.mgr.secure = true) (hchdev : p.mgr.chdev = some ⟨current.tgid, true⟩)
    (hl : Launchable p k) {random : UInt64} {spawn : Spawn} (hp : Placed p k random spawn) :
    p.launch current k random spawn = .ok (p.launched k (heldDevice img current random)
      (spawn.others (Function.update p.memory (keySlot (p.mgr.threads k).stack) random))
      spawn.regs, 0) := by
  have hscan : pageBase spawn.regs.sp = keySlot (p.mgr.threads k).stack :=
    pageBase_eq_keySlot hp.aligned hp.above hp.below
  have hstore : p.storeKey current (p.mgr.threads k) random = .ok { p with
      device := heldDevice img current random
      memory := Function.update p.memory (keySlot (p.mgr.threads k).stack) random } := by
    have hwritten : ¬ commandSize < 0 := by decide
    simp [storeKey, hsecure, hl.stack, registerKey, hchdev, devCommand, hdevice,
      handleCommand_regKey, hwritten]
  have hrange : ¬ ¬ ((0 : Int) ≤ k ∧ (k : Int) < p.mgr.numThreads) := by
    have hslot := hl.slot
    omega
  have hassert : ¬ ((p.mgr.threads k).running = true ∨ (p.mgr.threads k).thfunc = 0) := by
    simp [hl.idle, hl.thfunc]
  have hwake : (heldDevice img current random).wakeUpNewTask ⟨current, spawn.newp, spawn.regs,
      spawn.others (Function.update p.memory (keySlot (p.mgr.threads k).stack) random)⟩ =
        .ok spawn.regs := by
    simp only [Device.wakeUpNewTask, heldDevice, if_true]
    rw [forkCallback_thread _ hp.thread rfl Int.one_ne_zero Int.one_ne_zero]
    simp only [hscan, hp.kept, if_true]
  simp only [launch, if_neg hrange, Int.toNat_natCast, if_neg hassert, hstore, Except.ok_bind,
    pthreadCreate, hwake, Except.pure_eq_ok, Thmgr.setThread_self, Thmgr.setThread_setThread,
    launched]

theorem startChunk_eq {p' : Process} {stack : UInt64}
    (hcreate : p.create img.doReadChunk (img.thdata k) (course.mmap k) =
      .ok (p.created img k stack, k))
    (hlaunch : (p.created img k stack).launch current k (course.random k) (course.spawn k) =
      .ok (p', 0)) : p.startChunk img course current k = .ok p' := by
  simp [startChunk, hcreate, hlaunch]

end Process

/-- The threads of the first `k` chunks have been started, and each is in its slot. -/
structure Begun (img : Image) (course : Course) (chunks k : Nat) (p : Process) : Prop where
  numThreads : p.mgr.numThreads = chunks
  running : ∀ i < k, (p.mgr.threads i).used = true ∧ (p.mgr.threads i).running = true ∧
    (p.mgr.threads i)._tid = i
  free : ∀ i, k ≤ i → i < chunks → (p.mgr.threads i).tid = i ∧ (p.mgr.threads i).used = false ∧
    (p.mgr.threads i).running = false
  started : p.started = startedChunks img course k
  joined : p.joined = []

namespace Begun

variable {img : Image} {course : Course} {chunks k : Nat} {p : Process}

theorem begin {mgr : Thmgr} (hnew : mgr.New) (hnum : mgr.numThreads = chunks) (device : Device)
    (memory : UInt64 → UInt64) : Begun img course chunks 0 (.begin mgr device memory) where
  numThreads := hnum
  running i hi := absurd hi (Nat.not_lt_zero i)
  free i _ hi := by
    obtain ⟨htid, hused, hrunning, -⟩ := hnew.threads (hnum ▸ hi)
    exact ⟨htid, hused, hrunning⟩
  started := rfl
  joined := rfl

/-- The thread of the next slot starts from the registers that it was to start from. -/
theorem next (h : Begun img course chunks k p) (stack : UInt64) (device : Device)
    (memory : UInt64 → UInt64) : Begun img course chunks (k + 1)
      ((p.created img k stack).launched k device memory (course.spawn k).regs) := by
  have hlength : p.started.length = k := by
    rw [h.started, startedChunks, List.length_map, List.length_range]
  refine ⟨h.numThreads, fun i hi => ?_, fun i hle hi => ?_, ?_, h.joined⟩
  · by_cases hik : i = k
    · subst hik
      simp [Process.created, Process.launched, hlength]
    · simp only [Process.created, Process.launched, Thmgr.setThread_of_ne _ _ hik]
      exact h.running i (by omega)
  · have hik : i ≠ k := by omega
    simp only [Process.created, Process.launched, Thmgr.setThread_of_ne _ _ hik]
    exact h.free i (by omega) hi
  · simp only [Process.created, Process.launched, Thmgr.setThread_self, h.started, startedChunks,
      List.range_succ, List.map_append, List.map_cons, List.map_nil]

end Begun

/-- And the device has the key of the last of them. -/
structure Launched (img : Image) (course : Course) (current : Task) (chunks k : Nat)
    (p : Process) : Prop extends Begun img course chunks k p where
  device : p.device = heldDevice img current (course.lastKey k)
  secure : p.mgr.secure = true
  chdev : p.mgr.chdev = some ⟨current.tgid, true⟩

namespace Launched

variable {img : Image} {course : Course} {current : Task} {chunks k : Nat} {p : Process}

theorem begin {mgr : Thmgr} (hnew : Thmgr.newSecure course.malloc (some ⟨current.tgid, true⟩)
    chunks = .ok mgr) (memory : UInt64 → UInt64) : Launched img course current chunks 0
      (.begin mgr (heldDevice img current course.key) memory) := by
  have hmgr : mgr.New := .inr ⟨_, _, _, hnew⟩
  obtain ⟨mgr', hmake, h⟩ := Except.bind_eq_ok.mp hnew
  obtain rfl := Except.ok.inj h
  unfold Thmgr.make at hmake
  split_ifs at hmake
  obtain rfl := Except.ok.inj hmake
  exact ⟨.begin hmgr rfl _ _, rfl, rfl, rfl⟩

theorem launchable (h : Launched img course current chunks k p) (hb : course.Benign chunks)
    (hfunc : img.doReadChunk ≠ 0) (hk : k < chunks) :
    Launchable (p.created img k (course.mmap k)) k where
  slot := h.numThreads ▸ hk
  idle := by
    rw [Process.created, Thmgr.setThread_self]
    exact (h.free k (Nat.le_refl k) hk).2.2
  thfunc := by
    rw [Process.created, Thmgr.setThread_self]
    exact hfunc
  stack := by
    rw [Process.created, Thmgr.setThread_self]
    exact hb.stack k hk

theorem placed (hb : course.Benign chunks) (hk : k < chunks) :
    Placed (p.created img k (course.mmap k)) k (course.random k) (course.spawn k) := by
  have hstack : ((p.created img k (course.mmap k)).mgr.threads k).stack = course.mmap k := by
    rw [Process.created, Thmgr.setThread_self]
  refine ⟨hb.thread k hk, ?_, ?_, ?_, ?_⟩
  · rw [hstack]
    exact hb.aligned k hk
  · rw [hstack]
    exact hb.above k hk
  · rw [hstack]
    exact hb.below k hk
  · rw [hstack, hb.kept k hk, Function.update_self]

/-- One turn of the loop: none of its assertions fails. -/
theorem startChunk (h : Launched img course current chunks k p) (hb : course.Benign chunks)
    (hfunc : img.doReadChunk ≠ 0) (hk : k < chunks) :
    ∃ p', p.startChunk img course current k = .ok p' ∧
      Launched img course current chunks (k + 1) p' := by
  obtain ⟨htid, hunused, -⟩ := h.free k (Nat.le_refl k) hk
  have hcreate := p.create_eq (h.numThreads ▸ hk) h.secure (fun i hi => (h.running i hi).1) hunused
    htid img.doReadChunk (img.thdata k) (ne_mapFailed (hb.aligned k hk))
  have hlaunch := (p.created img k (course.mmap k)).launch_eq h.device h.secure h.chdev
    (h.launchable hb hfunc hk) (placed hb hk)
  exact ⟨_, Process.startChunk_eq hcreate hlaunch, h.toBegun.next _ _ _, rfl, h.secure, h.chdev⟩

/-- The whole loop. -/
theorem loop (h : Launched img course current chunks 0 p) (hb : course.Benign chunks)
    (hfunc : img.doReadChunk ≠ 0) :
    ∃ p', (List.range chunks).foldlM (Process.startChunk img course current) p = .ok p' ∧
      Launched img course current chunks chunks p' := by
  refine Except.Delivers.result (.range chunks h fun k q hk hq => ?_)
  obtain ⟨q', hok, hq'⟩ := hq.startChunk hb hfunc hk
  rw [hok]
  exact .ok hq'

end Launched

/-! ## The attacks -/

namespace Process

variable {img : Image} {course : Course} {current : Task} {p : Process} {key : UInt64}

theorem wake_child (hdevice : p.device = heldDevice img current key) {child : Task}
    (hprocess : child.pid = child.tgid) (regs : PtRegs) :
    p.device.wakeUpNewTask ⟨current, child, regs, p.memory⟩ =
      .ok { regs with ip := img.handleBadThread } := by
  have hhook := forkCallback_process ⟨current.pid, 1, 1, key, img.handleBadThread⟩
    (t := ⟨current, child, regs, p.memory⟩) hprocess rfl Int.one_ne_zero
  simp only [hdevice, heldDevice, Device.wakeUpNewTask, if_true, hhook]

theorem vfork_eq {child : Task} {regs regs' : PtRegs}
    (hwake : p.device.wakeUpNewTask ⟨current, child, regs, p.memory⟩ = .ok regs') :
    p.vfork current child regs = .ok regs' := by
  rw [vfork, hwake]

/-- Where a thread starts that has `word` where its key should be. -/
def attackRegs (img : Image) (spawn : Spawn) (word key : UInt64) : PtRegs :=
  if word = key then spawn.regs else { spawn.regs with ip := img.handleBadThread }

/-- A manager without the device starts a thread, and the hook decides from where. -/
theorem launch_open_eq (hsecure : p.mgr.secure = false) (hslot : k < p.mgr.numThreads)
    (hidle : (p.mgr.threads k).running = false) (hfunc : (p.mgr.threads k).thfunc ≠ 0)
    (random : UInt64) {spawn : Spawn} {regs : PtRegs} (hwake : p.device.wakeUpNewTask
      ⟨current, spawn.newp, spawn.regs, spawn.others p.memory⟩ = .ok regs) :
    p.launch current k random spawn =
      .ok (p.launched k p.device (spawn.others p.memory) regs, 0) := by
  have hrange : ¬ ¬ ((0 : Int) ≤ k ∧ (k : Int) < p.mgr.numThreads) := by omega
  have hassert : ¬ ((p.mgr.threads k).running = true ∨ (p.mgr.threads k).thfunc = 0) := by
    simp [hidle, hfunc]
  simp only [launch, if_neg hrange, Int.toNat_natCast, if_neg hassert, storeKey, hsecure,
    Bool.not_false, if_true, Except.ok_bind, pthreadCreate, hwake, Except.pure_eq_ok,
    Thmgr.setThread_self, Thmgr.setThread_setThread, launched]

theorem wake_attacker (hdevice : p.device = heldDevice img current key) {spawn : Spawn}
    (hthread : spawn.newp.pid ≠ spawn.newp.tgid) : p.device.wakeUpNewTask
      ⟨current, spawn.newp, spawn.regs, spawn.others p.memory⟩ =
        .ok (attackRegs img spawn (spawn.others p.memory (pageBase spawn.regs.sp)) key) := by
  have hhook := forkCallback_thread ⟨current.pid, 1, 1, key, img.handleBadThread⟩
    (t := ⟨current, spawn.newp, spawn.regs, spawn.others p.memory⟩) hthread rfl Int.one_ne_zero
    Int.one_ne_zero
  simp only [hdevice, heldDevice, Device.wakeUpNewTask, if_true, hhook, attackRegs]

/-- Where nothing runs there is nothing to wait for. -/
theorem waitAll_idle (hidle : ∀ i < p.mgr.numThreads, (p.mgr.threads i).running = false) :
    p.waitAll = .ok (p, 0) := by
  obtain ⟨q, hloop, rfl⟩ := Except.Delivers.result (Except.Delivers.range (f := waitTurn)
    (I := fun _ q => q = p) p.mgr.numThreads rfl fun i q hi hq => by
      subst hq
      rw [waitTurn, hidle i hi]
      exact .ok rfl)
  rw [waitAll, hloop]
  rfl

theorem destroy_open (hsecure : p.mgr.secure = false)
    (hidle : ∀ i < p.mgr.numThreads, (p.mgr.threads i).running = false) :
    p.destroy current = .ok p := by
  simp [destroy, waitAll_idle hidle, hsecure]

theorem attack_of {mgr : Thmgr} {t₁ t₂ t₃ : Process} {r r' : Int}
    (hnew : Thmgr.new course.otherMalloc 1 = .ok mgr)
    (hcreate : (begin mgr p.device p.memory).create img.threadFunc 0 0 = .ok (t₁, 0))
    (hlaunch : t₁.launch current 0 0 course.attacker = .ok (t₂, r))
    (hwait : t₂.wait 0 = .ok (t₃, r')) : p.attack img course current = .ok t₃ := by
  simp [attack, hnew, hcreate, hlaunch, hwait]

/-- The thread gets to run, from wherever the hook sends it. -/
theorem attack_eq {regs : PtRegs} (hfunc : img.threadFunc ≠ 0) (hwake : p.device.wakeUpNewTask
      ⟨current, course.attacker.newp, course.attacker.regs, course.attacker.others p.memory⟩ =
        .ok regs) :
    ∃ t, p.attack img course current = .ok t ∧ t.device = p.device ∧
      t.memory = course.attacker.others p.memory ∧ t.started = [⟨img.threadFunc, 0, regs⟩] ∧
      t.destroy current = .ok t := by
  obtain ⟨mgr, hnew, hsecure, hnum⟩ : ∃ mgr, Thmgr.new course.otherMalloc 1 = .ok mgr ∧
      mgr.secure = false ∧ mgr.numThreads = 1 := ⟨_, rfl, rfl, rfl⟩
  obtain ⟨htid, hunused, hidle, -⟩ :=
    (show mgr.New from .inl ⟨_, _, hnew⟩).threads (i := 0) (by omega)
  let th : Thread := { mgr.threads 0 with used := true, thfunc := img.threadFunc, arg := 0 }
  let t₁ : Process := .begin (mgr.setThread 0 th) p.device p.memory
  have hone : 0 < mgr.numThreads := hnum.symm ▸ Nat.one_pos
  have hcreate : (begin mgr p.device p.memory).create img.threadFunc 0 0 = .ok (t₁, 0) :=
    create_open_eq hone hsecure (fun i hi => absurd hi (Nat.not_lt_zero i)) hunused htid _ _ _
  have hth : t₁.mgr.threads 0 = th := Thmgr.setThread_self _ _ _
  have hlaunch := t₁.launch_open_eq (k := 0) hsecure hone (by rw [hth]; exact hidle)
    (by rw [hth]; exact hfunc) 0 hwake
  have hwait := wait_eq (i := 0) (p := t₁.launched 0 p.device (course.attacker.others p.memory) regs)
    hone (by rw [launched, Thmgr.setThread_self])
  refine ⟨_, attack_of hnew hcreate hlaunch hwait, rfl, rfl, ?_, ?_⟩
  · rw [launched, hth]
    rfl
  · refine destroy_open hsecure fun i hi => ?_
    have hi : i < 1 := hnum ▸ hi
    obtain rfl : i = 0 := by omega
    rw [Thmgr.setThread_self]

end Process

/-! ## Waiting for the threads -/

theorem Process.waitChunk_eq {p : Process} {i : Nat} (hi : i < p.mgr.numThreads)
    (hrunning : (p.mgr.threads i).running = true) :
    p.waitChunk i = .ok { p with
      mgr := p.mgr.setThread i { p.mgr.threads i with running := false, thfunc := 0 }
      joined := p.joined ++ [(p.mgr.threads i)._tid] } := by
  simp only [waitChunk, wait_eq hi hrunning, Except.ok_bind, Except.pure_eq_ok]

/-- The threads of the first `k` chunks have been waited for, and the others run. -/
structure Awaited (img : Image) (course : Course) (chunks k : Nat) (p : Process) : Prop where
  numThreads : p.mgr.numThreads = chunks
  idle : ∀ i < k, (p.mgr.threads i).running = false
  running : ∀ i, k ≤ i → i < chunks →
    (p.mgr.threads i).running = true ∧ (p.mgr.threads i)._tid = i
  started : p.started = startedChunks img course chunks
  joined : p.joined = List.range k

/-- Nothing else has changed since `p₀`. -/
structure Unchanged (p₀ p : Process) : Prop where
  device : p.device = p₀.device
  memory : p.memory = p₀.memory
  secure : p.mgr.secure = p₀.mgr.secure
  chdev : p.mgr.chdev = p₀.mgr.chdev

namespace Awaited

variable {img : Image} {course : Course} {current : Task} {chunks k : Nat} {p p₀ : Process}

theorem begin (h : Begun img course chunks chunks p) (device : Device)
    (memory : UInt64 → UInt64) : Awaited img course chunks 0 { p with device, memory } where
  numThreads := h.numThreads
  idle i hi := absurd hi (Nat.not_lt_zero i)
  running i _ hi := (h.running i hi).2
  started := h.started
  joined := h.joined

theorem waitChunk (h : Awaited img course chunks k p) (hp : Unchanged p₀ p) (hk : k < chunks) :
    ∃ p', p.waitChunk k = .ok p' ∧ Awaited img course chunks (k + 1) p' ∧ Unchanged p₀ p' := by
  obtain ⟨hrunning, hname⟩ := h.running k (Nat.le_refl k) hk
  refine ⟨_, Process.waitChunk_eq (h.numThreads ▸ hk) hrunning, ⟨h.numThreads, fun i hi => ?_,
    fun i hle hi => ?_, h.started, ?_⟩, hp.device, hp.memory, hp.secure, hp.chdev⟩
  · by_cases hik : i = k
    · rw [hik, Thmgr.setThread_self]
    · rw [Thmgr.setThread_of_ne _ _ hik]
      exact h.idle i (by omega)
  · rw [Thmgr.setThread_of_ne _ _ (by omega)]
    exact h.running i (by omega) hi
  · rw [h.joined, hname, List.range_succ]

theorem loop (h : Awaited img course chunks 0 p) :
    ∃ p', (List.range chunks).foldlM Process.waitChunk p = .ok p' ∧
      Awaited img course chunks chunks p' ∧ Unchanged p p' := by
  refine Except.Delivers.result (.range
    (I := fun k q => Awaited img course chunks k q ∧ Unchanged p q) chunks ⟨h, rfl, rfl, rfl, rfl⟩
    fun k q hk hq => ?_)
  obtain ⟨q', hok, hq'⟩ := hq.1.waitChunk hq.2 hk
  rw [hok]
  exact .ok hq'

/-- With the manager the handle of the device goes, and with it the record. -/
theorem destroy (h : Awaited img course chunks chunks p) (hsecure : p.mgr.secure = true)
    (hchdev : p.mgr.chdev = some ⟨current.tgid, true⟩) {key : UInt64}
    (hdevice : p.device = heldDevice img current key) :
    p.destroy current = .ok { p with device := ⟨.freed, 0, false⟩ } := by
  have hwait := p.waitAll_idle fun i hi => h.idle i (h.numThreads ▸ hi)
  simp [Process.destroy, hwait, hsecure, hchdev, Process.closeChdev, hdevice, heldDevice,
    Device.demoRelease]

end Awaited

/-! ## The whole program -/

/-- Every chunk was given to a thread, and each of them started where it should and was joined,
in their order; the attacks ended in the handler; the device is free again. -/
structure Outcome.Guarded (img : Image) (course : Course) (chunks : Nat) (out : Outcome) : Prop where
  started : out.process.started = startedChunks img course chunks
  joined : out.process.joined = List.range chunks
  child : out.child = { course.childRegs with ip := img.handleBadThread }
  attacker : out.attacker = [⟨img.threadFunc, 0, Process.attackRegs img course.attacker
    (out.process.memory (pageBase course.attacker.regs.sp)) (course.lastKey chunks)⟩]
  device : out.process.device = ⟨.freed, 0, false⟩

theorem openSecure_of (img : Image) {course : Course} (current : Task) {device : Device}
    {chunks : Nat} (hopened : device.deviceOpened = 0) (hb : course.Benign chunks) :
    openSecure img course current device =
      .ok (heldDevice img current course.key, ⟨current.tgid, true⟩) := by
  obtain ⟨pinfo, hkmalloc⟩ := Option.isSome_iff_exists.mp hb.kmalloc
  exact openSecure_eq img current hopened hkmalloc

theorem secureMain_ok {img : Image} {course : Course} {chunks : Nat} (current : Task)
    {device : Device} (memory : UInt64 → UInt64) (hopened : device.deviceOpened = 0)
    (hb : course.Benign chunks) (hread : img.doReadChunk ≠ 0) (hattack : img.threadFunc ≠ 0)
    (hchunks : 0 < chunks ∧ chunks ≤ maxThreads) : ∃ out,
      secureMain img course current device memory chunks = .ok out ∧
        out.Guarded img course chunks := by
  have hopen := openSecure_of img current hopened hb
  obtain ⟨mgr, hnew⟩ : ∃ mgr, Thmgr.newSecure course.malloc (some ⟨current.tgid, true⟩) chunks =
      .ok mgr := ⟨_, by rw [Thmgr.newSecure, Thmgr.make, if_pos hchunks]; rfl⟩
  obtain ⟨p, hloop, hp⟩ := (Launched.begin hnew memory).loop hb hread
  have hfork := Process.vfork_eq (Process.wake_child hp.device hb.child course.childRegs)
  obtain ⟨t, hattacked, hdevice, hmemory, hstarted, hgone⟩ :=
    Process.attack_eq hattack (Process.wake_attacker hp.device hb.attacker)
  obtain ⟨q, hwaited, hq, hunchanged⟩ := (Awaited.begin hp.toBegun t.device t.memory).loop
  have hdestroyed := hq.destroy (hunchanged.secure.trans hp.secure)
    (hunchanged.chdev.trans hp.chdev) (hunchanged.device.trans (hdevice.trans hp.device))
  refine ⟨⟨{ q with device := ⟨.freed, 0, false⟩ },
    { course.childRegs with ip := img.handleBadThread }, t.started⟩, ?_, hq.started, hq.joined, rfl,
    ?_, rfl⟩
  · simp only [secureMain, hopen, Except.ok_bind, hnew, hloop, hfork, hattacked, hwaited,
      hdestroyed, hgone]
    rfl
  · rw [hstarted, ← hmemory, hunchanged.memory]

theorem secureMain_stopped {img : Image} {course : Course} {chunks : Nat} (current : Task)
    {device : Device} (memory : UInt64 → UInt64) (hopened : device.deviceOpened = 0)
    (hb : course.Benign chunks) (hchunks : ¬ (0 < chunks ∧ chunks ≤ maxThreads)) :
    secureMain img course current device memory chunks = .error .assertion := by
  have hnew : Thmgr.newSecure course.malloc (some ⟨current.tgid, true⟩) chunks =
      .error .assertion := by
    rw [Thmgr.newSecure, Thmgr.make, if_neg hchunks]
    rfl
  simp only [secureMain, openSecure_of img current hopened hb, Except.ok_bind, hnew,
    Except.error_bind]

/-- `main` with `--secure`, when nobody has the device open: with 1 to 32 chunks it comes to its
end and no assertion fails. The thread of every chunk starts where it was meant to; the child
that is forked starts in the handler, and so does the thread that the other manager starts,
unless it has the key of the last chunk at the base of its stack page. With any other number of
chunks it is stopped by an assertion. -/
theorem secure_readindexed {img : Image} {course : Course} {chunks : Nat} (current : Task)
    {device : Device} (memory : UInt64 → UInt64) (hopened : device.deviceOpened = 0)
    (hb : course.Benign chunks) (hread : img.doReadChunk ≠ 0) (hattack : img.threadFunc ≠ 0) :
    (0 < chunks ∧ chunks ≤ maxThreads → ∃ out,
      secureMain img course current device memory chunks = .ok out ∧
        out.Guarded img course chunks) ∧
    (¬ (0 < chunks ∧ chunks ≤ maxThreads) →
      secureMain img course current device memory chunks = .error .assertion) :=
  ⟨secureMain_ok current memory hopened hb hread hattack,
    secureMain_stopped current memory hopened hb⟩

/-- Task 100 reads two chunks. -/
def twoChunkImage : Image := ⟨0x401000, 0x402000, 0x403000, fun i => 0x601000 + UInt64.ofNat i⟩

def twoChunkCourse : Course where
  kmalloc := some ⟨0, 0, 0, 0, 0⟩
  key := 5
  malloc _ := ⟨0, 0, false, false, 0, 0, 0⟩
  mmap i := 0x7f0000000000 + 0x200000 * UInt64.ofNat i
  random i := 70 + UInt64.ofNat i
  spawn i := ⟨⟨101 + i, 100⟩, ⟨0x401000, 0x7f00000fe123 + 0x200000 * UInt64.ofNat i⟩, id⟩
  child := ⟨103, 103⟩
  childRegs := ⟨0x400800, 0x7ffff000⟩
  otherMalloc _ := ⟨0, 0, true, true, 0, 0, 0⟩
  attacker := ⟨⟨104, 100⟩, ⟨0x402000, 0x7f0000800f00⟩, id⟩

theorem secure_two_chunks : ∃ out,
    secureMain twoChunkImage twoChunkCourse ⟨100, 100⟩ .init (fun _ => 0) 2 = .ok out ∧
      out.Guarded twoChunkImage twoChunkCourse 2 := by
  have hb : twoChunkCourse.Benign 2 := by
    refine ⟨rfl, rfl, by decide, ?_, ?_, ?_, ?_, ?_, fun _ _ _ => rfl⟩
    all_goals decide
  exact (secure_readindexed ⟨100, 100⟩ (fun _ => 0) rfl hb (by decide) (by decide)).1 (by decide)

end Bootcamp.Os
