import Bootcamp.Lib.Fallible

/-! The character device of the kernel module, and the hook that it puts before every task
that is about to run for the first time. -/
namespace Bootcamp.Sthreads

/-! ## What the kernel hands in -/

/-- The numbers of a `task_struct`. They are equal in the main thread of a process only. -/
structure Task where
  pid : Int
  tgid : Int
  deriving DecidableEq

/-- The user registers that the hook reads and sets. -/
structure PtRegs where
  ip : UInt64
  sp : UInt64
  deriving DecidableEq

/-- What `wake_up_new_task` is called with: the task that creates, the one created with the
registers that it will start from, and the words of the memory that `current` sees. -/
structure Creation where
  current : Task
  newp : Task
  regs : PtRegs
  memory : UInt64 → UInt64

inductive CommandType
  | regKey
  | unregKey
  | regErrFn
  | unregErrFn
  | maxCmds

def CommandType.value : CommandType → Int
  | regKey => 0
  | unregKey => 1
  | regErrFn => 2
  | unregErrFn => 3
  | maxCmds => 4

structure Command where
  command : Int
  param : UInt64

def commandSize : Int := 16

def EPERM : Int := 1
def ENOMEM : Int := 12
def EBUSY : Int := 16
def EINVAL : Int := 22

/-! ## The module -/

structure ProcessInfo where
  pid : Int
  isValidKey : Int
  isValidCallback : Int
  key : UInt64
  errorCallback : UInt64
  deriving DecidableEq

/-- The pointer `pinfo`, to a record. Releasing the device frees what it points to and leaves it. -/
inductive Pinfo (ρ : Type)
  | null
  | live (p : ρ)
  | freed

/-- The globals of the module; `jprobe` is whether the probe is enabled. -/
structure Device where
  pinfo : Pinfo ProcessInfo
  deviceOpened : Int
  jprobe : Bool

/-- What stops the kernel. -/
inductive Oops
  | bug
  | nullPointer
  | useAfterFree
  | doubleFree
  deriving DecidableEq

namespace Device

/-- After a successful `init_module`. -/
def init : Device := ⟨.null, 0, false⟩

/-- `kmalloc` gives nothing, or memory with whatever is in it. -/
def demoOpen (d : Device) (current : Task) (kmalloc : Option ProcessInfo) : Device × Int :=
  if d.deviceOpened ≠ 0 then (d, -EBUSY)
  else
    match kmalloc with
    | none => ({ d with pinfo := .null }, -ENOMEM)
    | some pinfo =>
      let pinfo := { pinfo with pid := current.pid, isValidKey := 0, isValidCallback := 0 }
      ({ pinfo := .live pinfo, deviceOpened := d.deviceOpened + 1, jprobe := true }, 0)

def demoRelease (d : Device) : Except Oops (Device × Int) :=
  let d := { d with deviceOpened := d.deviceOpened - 1, jprobe := false }
  match d.pinfo with
  | .null => .ok (d, 0)
  | .live _ => .ok ({ d with pinfo := .freed }, 0)
  | .freed => .error .doubleFree

def handleCommand (d : Device) (current : Task) (cmd : Command) : Except Oops (Device × Int) :=
  match d.pinfo with
  | .null => .error .bug
  | .freed => .error .useAfterFree
  | .live pinfo =>
    if current.pid ≠ pinfo.pid then .ok (d, -EPERM)
    else if cmd.command = CommandType.regKey.value then
      .ok ({ d with pinfo := .live { pinfo with key := cmd.param, isValidKey := 1 } }, commandSize)
    else if cmd.command = CommandType.unregKey.value then
      .ok ({ d with pinfo := .live { pinfo with isValidKey := 0 } }, commandSize)
    else if cmd.command = CommandType.regErrFn.value then
      .ok ({ d with pinfo := .live { pinfo with isValidCallback := 1,
                                                errorCallback := cmd.param } }, commandSize)
    else if cmd.command = CommandType.unregErrFn.value then
      .ok ({ d with pinfo := .live { pinfo with isValidCallback := 0 } }, commandSize)
    else .ok (d, -EINVAL)

end Device

/-- The loop that walks down from the stack pointer, with the turns it has left. -/
def pageScan : Nat → UInt64 → UInt64
  | 0, s => s
  | i + 1, s => if s % 4096 = 0 then s else pageScan i (s - 1)

/-- `fork_callback`. Both branches ask whether the creating task is the one that opened
the device. -/
def forkCallback (pinfo : ProcessInfo) (t : Creation) : PtRegs :=
  let newpRegs := t.regs
  let newpRegs :=
    if t.newp.pid = t.newp.tgid ∧ pinfo.pid = t.current.pid then
      if pinfo.isValidCallback ≠ 0 then { newpRegs with ip := pinfo.errorCallback } else newpRegs
    else newpRegs
  if t.newp.pid ≠ t.newp.tgid ∧ pinfo.pid = t.current.pid then
    let s := pageScan 4096 newpRegs.sp
    let storedKey := t.memory s
    if pinfo.isValidKey ≠ 0 ∧ storedKey ≠ pinfo.key then
      if pinfo.isValidCallback ≠ 0 then { newpRegs with ip := pinfo.errorCallback } else newpRegs
    else newpRegs
  else newpRegs

/-- The registers that the new task starts from. -/
def Device.wakeUpNewTask (d : Device) (t : Creation) : Except Oops PtRegs :=
  if d.jprobe then
    match d.pinfo with
    | .null => .error .nullPointer
    | .live pinfo => .ok (forkCallback pinfo t)
    | .freed => .error .useAfterFree
  else .ok t.regs

/-! ## Runs -/

inductive Event
  | demoOpen (current : Task) (kmalloc : Option ProcessInfo)
  | demoRelease
  | handleCommand (current : Task) (cmd : Command)
  | wakeUpNewTask (t : Creation)

namespace Device

def step (d : Device) : Event → Except Oops Device
  | .demoOpen current kmalloc => .ok (d.demoOpen current kmalloc).1
  | .demoRelease => do
    let (d, _) ← d.demoRelease
    return d
  | .handleCommand current cmd => do
    let (d, _) ← d.handleCommand current cmd
    return d
  | .wakeUpNewTask t => do
    let _ ← d.wakeUpNewTask t
    return d

def run (events : List Event) : Except Oops Device := events.foldlM step init

/-- A command changes the record, never whose it is. -/
theorem handleCommand_ok {d : Device} {current : Task} {cmd : Command} {r : Device × Int}
    (h : d.handleCommand current cmd = .ok r) :
    ∃ pinfo pinfo', d.pinfo = .live pinfo ∧ r.1 = { d with pinfo := .live pinfo' } ∧
      pinfo'.pid = pinfo.pid := by
  unfold handleCommand at h
  cases hpinfo : d.pinfo with
  | null =>
    simp only [hpinfo] at h
    cases h
  | freed =>
    simp only [hpinfo] at h
    cases h
  | live pinfo =>
    simp only [hpinfo] at h
    have hsame : d = { d with pinfo := .live pinfo } := by rw [← hpinfo]
    split_ifs at h <;> cases h
    · exact ⟨pinfo, pinfo, rfl, hsame, rfl⟩
    · exact ⟨pinfo, _, rfl, rfl, rfl⟩
    · exact ⟨pinfo, _, rfl, rfl, rfl⟩
    · exact ⟨pinfo, _, rfl, rfl, rfl⟩
    · exact ⟨pinfo, _, rfl, rfl, rfl⟩
    · exact ⟨pinfo, pinfo, rfl, hsame, rfl⟩

/-- Somebody has the device open exactly when there is a record and the probe is on. -/
structure Inv (d : Device) : Prop where
  held : ∀ pinfo, d.pinfo = .live pinfo → d.jprobe = true ∧ d.deviceOpened = 1
  idle : (∀ pinfo, d.pinfo ≠ .live pinfo) → d.jprobe = false ∧ d.deviceOpened ≤ 0

namespace Inv

theorem init : Inv init := by
  constructor
  · intro pinfo h
    cases h
  · exact fun _ => ⟨rfl, Int.le_refl 0⟩

theorem demoOpen {d : Device} (hi : d.Inv) (current : Task) (kmalloc : Option ProcessInfo) :
    (d.demoOpen current kmalloc).1.Inv := by
  unfold Device.demoOpen
  split_ifs with hopened
  · exact hi
  · cases kmalloc with
    | some pinfo =>
      refine ⟨fun _ _ => ⟨rfl, ?_⟩, fun h => absurd rfl (h _)⟩
      have hzero : d.deviceOpened = 0 := not_not.mp hopened
      simp [hzero]
    | none =>
      have hfree (pinfo : ProcessInfo) : d.pinfo ≠ .live pinfo := by
        intro h
        have hone := (hi.held pinfo h).2
        omega
      refine ⟨fun pinfo h => ?_, fun _ => hi.idle hfree⟩
      cases h

theorem demoRelease {d : Device} (hi : d.Inv) {r : Device × Int} (h : d.demoRelease = .ok r) :
    r.1.Inv := by
  unfold Device.demoRelease at h
  cases hpinfo : d.pinfo with
  | null =>
    have hidle := hi.idle (by simp [hpinfo])
    simp only [hpinfo] at h
    cases h
    refine ⟨fun pinfo h => ?_, fun _ => ⟨rfl, ?_⟩⟩
    · cases h
    · have hle := hidle.2
      show d.deviceOpened - 1 ≤ 0
      omega
  | live pinfo =>
    have hheld := hi.held pinfo hpinfo
    simp only [hpinfo] at h
    cases h
    refine ⟨fun pinfo h => ?_, fun _ => ⟨rfl, ?_⟩⟩
    · cases h
    · show d.deviceOpened - 1 ≤ 0
      omega
  | freed =>
    simp only [hpinfo] at h
    cases h

theorem handleCommand {d : Device} {current : Task} {cmd : Command} {r : Device × Int}
    (hi : d.Inv) (h : d.handleCommand current cmd = .ok r) : r.1.Inv := by
  obtain ⟨pinfo, pinfo', hpinfo, hr, -⟩ := handleCommand_ok h
  rw [hr]
  exact ⟨fun _ _ => hi.held pinfo hpinfo, fun hidle => absurd rfl (hidle pinfo')⟩

theorem step {d d' : Device} {e : Event} (hi : d.Inv) (h : d.step e = .ok d') : d'.Inv := by
  cases e with
  | demoOpen current kmalloc =>
    cases h
    exact hi.demoOpen current kmalloc
  | demoRelease =>
    obtain ⟨r, hr, h⟩ := Except.bind_eq_ok.mp h
    cases h
    exact hi.demoRelease hr
  | handleCommand current cmd =>
    obtain ⟨r, hr, h⟩ := Except.bind_eq_ok.mp h
    cases h
    exact hi.handleCommand hr
  | wakeUpNewTask t =>
    obtain ⟨regs, -, h⟩ := Except.bind_eq_ok.mp h
    cases h
    exact hi

theorem run {events : List Event} {d : Device} (h : run events = .ok d) : d.Inv :=
  Except.foldlM_invariant (fun _ _ _ hi hstep => step hi hstep) events init h

end Inv

end Device

/-! ## What a new task may do -/

/-- Where the page begins that `sp` points into. -/
def pageBase (sp : UInt64) : UInt64 := sp - sp % 4096

theorem toNat_mod_page (s : UInt64) : (s % 4096).toNat = s.toNat % 4096 := UInt64.toNat_mod s 4096

theorem toNat_pageBase (s : UInt64) : (pageBase s).toNat = s.toNat - s.toNat % 4096 := by
  rw [pageBase, UInt64.toNat_sub_of_le, toNat_mod_page]
  rw [UInt64.le_iff_toNat_le, toNat_mod_page]
  exact Nat.mod_le _ _

/-- The loop has enough turns for a page. -/
theorem pageScan_eq {i : Nat} {s : UInt64} (h : (s % 4096).toNat ≤ i) :
    pageScan i s = pageBase s := by
  induction i generalizing s with
  | zero =>
    have hzero : s % 4096 = 0 := UInt64.toNat_inj.mp (Nat.le_zero.mp h)
    rw [pageScan, pageBase, hzero, UInt64.sub_zero]
  | succ i ih =>
    rw [pageScan]
    split_ifs with hzero
    · rw [pageBase, hzero, UInt64.sub_zero]
    · have hpos : s.toNat % 4096 ≠ 0 := by
        intro hz
        exact hzero (UInt64.toNat_inj.mp ((toNat_mod_page s).trans hz))
      have hone : (1 : UInt64) ≤ s := by
        rw [UInt64.le_iff_toNat_le]
        show 1 ≤ s.toNat
        omega
      have hpred : (s - 1).toNat = s.toNat - 1 := UInt64.toNat_sub_of_le s 1 hone
      rw [toNat_mod_page] at h
      have hpage : pageBase (s - 1) = pageBase s := by
        apply UInt64.toNat_inj.mp
        rw [toNat_pageBase, toNat_pageBase, hpred]
        omega
      rw [ih, hpage]
      rw [toNat_mod_page, hpred]
      omega

theorem forkCallback_other {pinfo : ProcessInfo} {t : Creation} (h : t.current.pid ≠ pinfo.pid) :
    forkCallback pinfo t = t.regs := by
  have hne : pinfo.pid ≠ t.current.pid := h.symm
  simp [forkCallback, hne]

/-- The new task is a thread with the key of the device at the base of its stack page. -/
def Creation.Authorised (t : Creation) (pinfo : ProcessInfo) : Prop :=
  t.newp.pid ≠ t.newp.tgid ∧ t.memory (pageBase t.regs.sp) = pinfo.key

theorem forkCallback_own {pinfo : ProcessInfo} {t : Creation} (h : t.current.pid = pinfo.pid)
    (hkey : pinfo.isValidKey ≠ 0) (hcallback : pinfo.isValidCallback ≠ 0) :
    t.Authorised pinfo ∨ (forkCallback pinfo t).ip = pinfo.errorCallback := by
  by_cases hprocess : t.newp.pid = t.newp.tgid
  · right
    simp [forkCallback, hprocess, h, hcallback]
  · by_cases hstored : t.memory (pageBase t.regs.sp) = pinfo.key
    · exact .inl ⟨hprocess, hstored⟩
    · right
      have hscan : pageScan 4096 t.regs.sp = pageBase t.regs.sp := by
        apply pageScan_eq
        rw [toNat_mod_page]
        omega
      simp [forkCallback, hprocess, h, hkey, hcallback, hscan, hstored]

/-! ## The policy over runs -/

/-- The device is held with a key and a callback by the process of the creating task. -/
structure Creation.Guarded (t : Creation) (pinfo : ProcessInfo) : Prop where
  key : pinfo.isValidKey ≠ 0
  callback : pinfo.isValidCallback ≠ 0
  group : t.current.tgid = pinfo.pid

/-- `P` holds of every creation in the run under a guard: of the state before it, of the
record in this state, and of the creation. -/
def AtGuarded (events : List Event) (P : Device → ProcessInfo → Creation → Prop) : Prop :=
  ∀ past t future d pinfo, events = past ++ .wakeUpNewTask t :: future → Device.run past = .ok d →
    d.pinfo = .live pinfo → t.Guarded pinfo → P d pinfo t

/-- The hook runs before every task that is created while the device is held. -/
theorem Device.Inv.wakeUpNewTask_held {d : Device} (hi : d.Inv) {pinfo : ProcessInfo}
    (hpinfo : d.pinfo = .live pinfo) (t : Creation) :
    d.wakeUpNewTask t = .ok (forkCallback pinfo t) := by
  unfold Device.wakeUpNewTask
  rw [if_pos (hi.held pinfo hpinfo).1, hpinfo]

def Intercepted (d : Device) (pinfo : ProcessInfo) (t : Creation) : Prop :=
  t.Authorised pinfo ∨ ∃ regs, d.wakeUpNewTask t = .ok regs ∧ regs.ip = pinfo.errorCallback

/-- The hook acts for the task that opened the device and for no other of its group. What
the others create is as they made it. -/
theorem every_fork_intercepted_iff (events : List Event) :
    AtGuarded events Intercepted ↔
      AtGuarded events fun _ pinfo t => t.current.pid = pinfo.pid ∨
        t.Authorised pinfo ∨ t.regs.ip = pinfo.errorCallback := by
  constructor
  · intro h past t future d pinfo hevents hrun hpinfo hguard
    by_cases howner : t.current.pid = pinfo.pid
    · exact .inl howner
    right
    cases h past t future d pinfo hevents hrun hpinfo hguard with
    | inl hauth => exact .inl hauth
    | inr hstart =>
      obtain ⟨regs, hwake, hip⟩ := hstart
      rw [(Device.Inv.run hrun).wakeUpNewTask_held hpinfo, forkCallback_other howner] at hwake
      cases hwake
      exact .inr hip
  · intro h past t future d pinfo hevents hrun hpinfo hguard
    have hwake := (Device.Inv.run hrun).wakeUpNewTask_held hpinfo t
    by_cases howner : t.current.pid = pinfo.pid
    · cases forkCallback_own howner hguard.key hguard.callback with
      | inl hauth => exact .inl hauth
      | inr hip => exact .inr ⟨_, hwake, hip⟩
    · rw [forkCallback_other howner] at hwake
      cases h past t future d pinfo hevents hrun hpinfo hguard with
      | inl hown => exact absurd hown howner
      | inr hrest =>
        cases hrest with
        | inl hauth => exact .inl hauth
        | inr hip => exact .inr ⟨_, hwake, hip⟩

/-- Task 100 opens the device, registers a callback and a key, and starts thread 101 with
the key at the base of its stack page. Then the thread forks. -/
def workerForks : List Event :=
  [.demoOpen ⟨100, 100⟩ (some ⟨0, 0, 0, 0, 0⟩),
   .handleCommand ⟨100, 100⟩ ⟨2, 0x401000⟩,
   .handleCommand ⟨100, 100⟩ ⟨0, 77⟩,
   .wakeUpNewTask ⟨⟨100, 100⟩, ⟨101, 100⟩, ⟨0x402000, 0x7f0000001f00⟩, fun _ => 77⟩,
   .wakeUpNewTask ⟨⟨101, 100⟩, ⟨102, 102⟩, ⟨0x403000, 0x7f0000001e00⟩, fun _ => 77⟩]

theorem worker_fork_escapes : ¬ ∀ events, AtGuarded events Intercepted := by
  intro h
  let pinfo : ProcessInfo := ⟨100, 1, 1, 77, 0x401000⟩
  have hforked := h workerForks (workerForks.take 4)
    ⟨⟨101, 100⟩, ⟨102, 102⟩, ⟨0x403000, 0x7f0000001e00⟩, fun _ => 77⟩ []
    ⟨.live pinfo, 1, true⟩ pinfo rfl rfl rfl ⟨by decide, by decide, rfl⟩
  cases hforked with
  | inl hauth => exact hauth.1 rfl
  | inr hstart =>
    obtain ⟨regs, hwake, hip⟩ := hstart
    cases hwake
    revert hip
    decide

end Bootcamp.Sthreads
