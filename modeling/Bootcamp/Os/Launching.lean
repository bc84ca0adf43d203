import Bootcamp.Os.Thmgr

/-! The manager and the kernel find the key on their own: `launch` counts down from the top of
the stack, the hook from the stack pointer to the base of its page. Where they meet, no thread
is redirected. -/
namespace Bootcamp.Os

open Sthreads

theorem toNat_sthreadStackSize : sthreadStackSize.toNat = 1048576 := by decide

theorem toNat_keySlot {stack : UInt64}
    (h : stack.toNat + sthreadStackSize.toNat - 8192 < UInt64.size) :
    (keySlot stack).toNat = stack.toNat + sthreadStackSize.toNat - 8192 := by
  have hback : ((1 : UInt64) <<< 13).toNat = 8192 := by decide
  rw [toNat_sthreadStackSize, UInt64.size] at h
  rw [keySlot, UInt64.toNat_sub, UInt64.toNat_add, toNat_sthreadStackSize, hback]
  omega

/-- The stack pointer is in the page that begins at the key. -/
theorem pageBase_eq_keySlot {stack sp : UInt64} (haligned : stack % 4096 = 0)
    (hlo : stack.toNat + sthreadStackSize.toNat - 8192 ≤ sp.toNat)
    (hhi : sp.toNat < stack.toNat + sthreadStackSize.toNat - 4096) :
    pageBase sp = keySlot stack := by
  have hlt := sp.toNat_lt_size
  have hpage : stack.toNat % 4096 = 0 := by
    rw [← toNat_mod_page, haligned]
    rfl
  apply UInt64.toNat_inj.mp
  rw [toNat_pageBase, toNat_keySlot (by omega)]
  rw [toNat_sthreadStackSize] at hlo hhi ⊢
  omega

/-- The task has the device open, and the manager knows. -/
structure Owned (current : Task) (p : Process) : Prop where
  held : ∃ pinfo, p.device.pinfo = .live pinfo ∧ pinfo.pid = current.pid
  jprobe : p.device.jprobe = true
  secure : p.mgr.secure = true
  chdev : ∃ chdev, p.mgr.chdev = some chdev ∧ chdev.isopen = true

/-- A command of the owner changes the record, never whose it is. -/
theorem Owned.command {current : Task} {p : Process} (h : Owned current p) {cmd : Command}
    {device : Device} {result : Int}
    (hcommand : p.device.handleCommand current cmd = .ok (device, result)) :
    (∃ pinfo, device.pinfo = .live pinfo ∧ pinfo.pid = current.pid) ∧ device.jprobe = true := by
  obtain ⟨pinfo, hpinfo, howner⟩ := h.held
  obtain ⟨pinfo₁, pinfo', hlive, hdevice, hpid⟩ := Device.handleCommand_ok hcommand
  obtain rfl := Pinfo.live.inj (hpinfo.symm.trans hlive)
  have hdevice : device = { p.device with pinfo := .live pinfo' } := hdevice
  subst hdevice
  exact ⟨⟨pinfo', rfl, hpid.trans howner⟩, h.jprobe⟩

theorem Process.waitTurn_ok {p p' : Process} {i : Nat} (h : p.waitTurn i = .ok p') :
    p'.device = p.device ∧ p'.mgr.secure = p.mgr.secure ∧ p'.mgr.chdev = p.mgr.chdev := by
  simp only [waitTurn] at h
  split_ifs at h
  · obtain ⟨⟨p₁, r⟩, hwait, h⟩ := Except.bind_eq_ok.mp h
    obtain ⟨j, -, -, -, rfl⟩ := wait_ok hwait
    obtain rfl := Except.ok.inj h
    exact ⟨rfl, rfl, rfl⟩
  · obtain rfl := Except.ok.inj h
    exact ⟨rfl, rfl, rfl⟩

theorem Owned.call {current : Task} {p p' : Process} (h : Owned current p) {c : Call} {r : Int}
    (hok : p.call current c = .ok (p', r)) : Owned current p' := by
  cases c with
  | create tfunc tharg mmap =>
    cases Process.create_ok hok with
    | inl hbusy =>
      rw [hbusy.2.1]
      exact h
    | inr hfree =>
      obtain ⟨i, -, -, -, stack, rfl⟩ := hfree
      exact ⟨h.held, h.jprobe, h.secure, h.chdev⟩
  | launch tid random spawn =>
    obtain ⟨i, -, -, -, -, device, memory, regs, hdevice, rfl⟩ := Process.launch_ok hok
    cases hdevice with
    | inl hsame =>
      subst hsame
      exact ⟨h.held, h.jprobe, h.secure, h.chdev⟩
    | inr hcommand =>
      obtain ⟨cmd, result, hcommand⟩ := hcommand
      obtain ⟨hheld, hjprobe⟩ := h.command hcommand
      exact ⟨hheld, hjprobe, h.secure, h.chdev⟩
  | wait tid =>
    obtain ⟨i, -, -, -, rfl⟩ := Process.wait_ok hok
    exact ⟨h.held, h.jprobe, h.secure, h.chdev⟩
  | waitAll =>
    obtain ⟨p₁, hloop, hok⟩ := Except.bind_eq_ok.mp hok
    obtain ⟨rfl, -⟩ := Prod.mk.inj (Except.ok.inj hok)
    refine Except.foldlM_invariant (fun q i q' hq hturn => ?_) _ h hloop
    obtain ⟨hdevice, hsecure, hchdev⟩ := Process.waitTurn_ok hturn
    exact ⟨hdevice ▸ hq.held, hdevice ▸ hq.jprobe, hsecure ▸ hq.secure, hchdev ▸ hq.chdev⟩

/-- The owner's key is registered and stored. -/
theorem Owned.storeKey_eq {current : Task} {p : Process} (h : Owned current p) {th : Thread}
    (hstack : th.stack ≠ 0) (random : UInt64) : ∃ pinfo, pinfo.key = random ∧
      p.storeKey current th random = .ok { p with
        device := { p.device with pinfo := .live pinfo }
        memory := Function.update p.memory (keySlot th.stack) random } := by
  obtain ⟨pinfo, hpinfo, howner⟩ := h.held
  obtain ⟨chdev, hchdev, hopen⟩ := h.chdev
  have hcommand : p.device.handleCommand current ⟨CommandType.regKey.value, random⟩ =
      .ok ({ p.device with pinfo := .live { pinfo with key := random, isValidKey := 1 } },
        commandSize) := by
    simp [Device.handleCommand, hpinfo, howner]
  have hregister : p.registerKey current random = .ok ({ p with
      device := { p.device with pinfo := .live { pinfo with key := random, isValidKey := 1 } } },
      commandSize) := by
    simp [Process.registerKey, Process.devCommand, hchdev, hopen, hcommand]
  have hwritten : ¬ commandSize < 0 := by decide
  refine ⟨{ pinfo with key := random, isValidKey := 1 }, rfl, ?_⟩
  simp only [Process.storeKey, h.secure, Bool.not_true, Bool.false_eq_true, if_false, if_neg hstack,
    hregister, Except.ok_bind, if_neg hwritten]

/-- The hook leaves a thread alone that has the key where it looks. -/
theorem forkCallback_authorised {pinfo : ProcessInfo} {t : Creation}
    (hthread : t.newp.pid ≠ t.newp.tgid) (hkey : t.memory (pageScan 4096 t.regs.sp) = pinfo.key) :
    forkCallback pinfo t = t.regs := by
  simp [forkCallback, hthread, hkey]

/-- The assertions of `launch` on its slot hold. -/
structure Launchable (p : Process) (i : Nat) : Prop where
  slot : i < p.mgr.numThreads
  idle : (p.mgr.threads i).running = false
  thfunc : (p.mgr.threads i).thfunc ≠ 0
  stack : (p.mgr.threads i).stack ≠ 0

/-- What the C library and the system make of a launch with the key `random`: the new task is
a thread, its stack pointer is in the second page from the top, and the other threads leave the
key alone until the hook has run. -/
structure Placed (p : Process) (i : Nat) (random : UInt64) (spawn : Spawn) : Prop where
  thread : spawn.newp.pid ≠ spawn.newp.tgid
  aligned : (p.mgr.threads i).stack % 4096 = 0
  above : (p.mgr.threads i).stack.toNat + sthreadStackSize.toNat - 8192 ≤ spawn.regs.sp.toNat
  below : spawn.regs.sp.toNat < (p.mgr.threads i).stack.toNat + sthreadStackSize.toNat - 4096
  kept : spawn.others (Function.update p.memory (keySlot (p.mgr.threads i).stack) random)
    (keySlot (p.mgr.threads i).stack) = random

/-- The launch comes back; the hook reads the key that was stored, the one that is registered,
and the thread starts from the registers that it was given. -/
theorem Owned.launch {current : Task} {p : Process} (h : Owned current p) {i : Nat}
    (hl : Launchable p i) {random : UInt64} {spawn : Spawn} (hp : Placed p i random spawn) :
    ∃ p' pinfo, p.launch current i random spawn = .ok (p', 0) ∧
      pageScan 4096 spawn.regs.sp = keySlot (p.mgr.threads i).stack ∧
      p'.memory (pageScan 4096 spawn.regs.sp) = random ∧
      p'.device.pinfo = .live pinfo ∧ pinfo.key = random ∧
      p'.started =
        p.started ++ [⟨(p.mgr.threads i).thfunc, (p.mgr.threads i).arg, spawn.regs⟩] := by
  have hscan : pageScan 4096 spawn.regs.sp = keySlot (p.mgr.threads i).stack := by
    rw [← pageBase_eq_keySlot hp.aligned hp.above hp.below]
    apply pageScan_eq
    rw [toNat_mod_page]
    omega
  have hread : spawn.others (Function.update p.memory (keySlot (p.mgr.threads i).stack) random)
      (pageScan 4096 spawn.regs.sp) = random := by
    rw [hscan]
    exact hp.kept
  obtain ⟨pinfo, hkey, hstore⟩ := h.storeKey_eq hl.stack random
  have hrange : ¬ ¬ ((0 : Int) ≤ i ∧ (i : Int) < p.mgr.numThreads) := by
    have hslot := hl.slot
    omega
  have hassert : ¬ ((p.mgr.threads i).running = true ∨ (p.mgr.threads i).thfunc = 0) := by
    rintro (hrunning | hfunc)
    · rw [hl.idle] at hrunning
      cases hrunning
    · exact hl.thfunc hfunc
  have hauth : forkCallback pinfo ⟨current, spawn.newp, spawn.regs,
      spawn.others (Function.update p.memory (keySlot (p.mgr.threads i).stack) random)⟩ =
      spawn.regs := forkCallback_authorised hp.thread (hread.trans hkey.symm)
  simp only [Process.launch, if_neg hrange, Int.toNat_natCast, if_neg hassert, hstore,
    Except.ok_bind, Process.pthreadCreate, Device.wakeUpNewTask, h.jprobe, if_true, hauth,
    Except.pure_eq_ok]
  exact ⟨_, pinfo, rfl, hscan, hread, rfl, hkey, rfl⟩

theorem Owned.begin {current : Task} {malloc : Nat → Thread} {chdev : Chdev} {numThreads : Nat}
    {mgr : Thmgr} (hnew : Thmgr.newSecure malloc (some chdev) numThreads = .ok mgr)
    (hopen : chdev.isopen = true) {events : List Sthreads.Event} {device : Device}
    (hdevice : Device.run events = .ok device) {pinfo : ProcessInfo}
    (hheld : device.pinfo = .live pinfo) (howner : pinfo.pid = current.pid)
    (memory : UInt64 → UInt64) : Owned current (.begin mgr device memory) := by
  obtain ⟨mgr', hmake, h⟩ := Except.bind_eq_ok.mp hnew
  obtain rfl := Except.ok.inj h
  unfold Thmgr.make at hmake
  split_ifs at hmake
  obtain rfl := Except.ok.inj hmake
  exact ⟨⟨pinfo, hheld, howner⟩, ((Device.Inv.run hdevice).held pinfo hheld).1, rfl,
    ⟨chdev, rfl, hopen⟩⟩

theorem Owned.run {current : Task} {start p : Process} (h : Owned current start)
    {trace : List (Call × Int)} (hrun : Run current start trace p) : Owned current p := by
  induction hrun with
  | begin => exact h
  | call _ hok ih => exact ih.call hok

/-- The task that has the device open makes calls of a secure manager, as many as it likes.
Whatever it launches then starts where it was meant to, with the key checked. -/
theorem launch_never_redirected {current : Task} {malloc : Nat → Thread} {chdev : Chdev}
    {numThreads : Nat} {mgr : Thmgr}
    (hnew : Thmgr.newSecure malloc (some chdev) numThreads = .ok mgr) (hopen : chdev.isopen = true)
    {events : List Sthreads.Event} {device : Device} (hdevice : Device.run events = .ok device)
    {owner : ProcessInfo} (hheld : device.pinfo = .live owner) (howner : owner.pid = current.pid)
    {memory : UInt64 → UInt64} {trace : List (Call × Int)} {p : Process}
    (hrun : Run current (.begin mgr device memory) trace p) {i : Nat} (hl : Launchable p i)
    {random : UInt64} {spawn : Spawn} (hp : Placed p i random spawn) :
    ∃ p' pinfo, p.launch current i random spawn = .ok (p', 0) ∧
      pageScan 4096 spawn.regs.sp = keySlot (p.mgr.threads i).stack ∧
      p'.memory (pageScan 4096 spawn.regs.sp) = random ∧
      p'.device.pinfo = .live pinfo ∧ pinfo.key = random ∧
      p'.started =
        p.started ++ [⟨(p.mgr.threads i).thfunc, (p.mgr.threads i).arg, spawn.regs⟩] :=
  ((Owned.begin hnew hopen hdevice hheld howner memory).run hrun).launch hl hp

/-- Task 100 has the device open, with a callback. -/
def openDevice : List Sthreads.Event :=
  [.demoOpen ⟨100, 100⟩ (some ⟨0, 0, 0, 0, 0⟩), .handleCommand ⟨100, 100⟩ ⟨2, 0x400000⟩]

/-- It has a manager with two slots. -/
def guarded : Process :=
  .begin { idle 2 with secure := true, chdev := some ⟨100, true⟩ }
    ⟨.live ⟨100, 0, 1, 0, 0x400000⟩, 1, true⟩ fun _ => 0

/-- One slot has a handle. -/
def guardedHandle : Process :=
  { guarded with
    mgr := guarded.mgr.setThread 0 ⟨0, 0, true, false, 0x401000, 0x7f0000000000, 7⟩ }

theorem launch_never_redirected_first : ∃ trace, Run ⟨100, 100⟩ guarded trace guardedHandle ∧
    Launchable guardedHandle 0 ∧
    Placed guardedHandle 0 77 ⟨⟨101, 100⟩, ⟨0x401000, 0x7f00000fe123⟩, id⟩ ∧
    ∃ p' pinfo, guardedHandle.launch ⟨100, 100⟩ (0 : Nat) 77
        ⟨⟨101, 100⟩, ⟨0x401000, 0x7f00000fe123⟩, id⟩ = .ok (p', 0) ∧
      pageScan 4096 0x7f00000fe123 = keySlot (guardedHandle.mgr.threads 0).stack ∧
      p'.memory (pageScan 4096 0x7f00000fe123) = 77 ∧
      p'.device.pinfo = .live pinfo ∧ pinfo.key = 77 ∧
      p'.started = guardedHandle.started ++ [⟨(guardedHandle.mgr.threads 0).thfunc,
        (guardedHandle.mgr.threads 0).arg, 0x401000, 0x7f00000fe123⟩] := by
  have hnew : Thmgr.newSecure (fun _ => ⟨0, 0, false, false, 0, 0, 0⟩) (some ⟨100, true⟩) 2 =
      .ok guarded.mgr := by
    rw [Thmgr.newSecure, make_idle (by decide) (by decide)]
    rfl
  have hdevice : Device.run openDevice = .ok guarded.device := rfl
  have hcalls : guarded.calls ⟨100, 100⟩ [.create 0x401000 7 0x7f0000000000] =
      .ok ([(.create 0x401000 7 0x7f0000000000, 0)], guardedHandle) := rfl
  have hrun := Run.calls .begin hcalls
  have hl : Launchable guardedHandle 0 := ⟨by decide, rfl, by decide, by decide⟩
  have hp : Placed guardedHandle 0 77 ⟨⟨101, 100⟩, ⟨0x401000, 0x7f00000fe123⟩, id⟩ :=
    ⟨by decide, by decide, by decide, by decide, by decide⟩
  exact ⟨_, hrun, hl, hp, launch_never_redirected hnew rfl hdevice rfl rfl hrun hl hp⟩

end Bootcamp.Os
