import Bootcamp.Module.Sthreads
import Mathlib.Logic.Function.Basic

/-! The thread manager of the operating system layer, in the process that uses it: slots are
taken by `create`, started by `launch` and given back when their threads are waited for. -/
namespace Bootcamp.Os

open Sthreads

/-! ## The process -/

/-- A slot. The numbers of functions and stacks are addresses, 0 is NULL. `_tid` names a
thread by how many were started before it. -/
structure Thread where
  tid : Int
  _tid : Nat
  used : Bool
  running : Bool
  thfunc : UInt64
  stack : UInt64
  arg : UInt64

structure Chdev where
  owner : Int
  isopen : Bool

structure Thmgr where
  threads : Nat → Thread
  secure : Bool
  numThreads : Nat
  chdev : Option Chdev

/-- A thread begins to run with its function, its argument and these registers. -/
structure Started where
  thfunc : UInt64
  arg : UInt64
  regs : PtRegs
  deriving DecidableEq

/-- The manager with the device and the memory that it works on. Nothing reads `started` and
`joined`, what `pthread_create` and `pthread_join` were called for. -/
structure Process where
  mgr : Thmgr
  device : Device
  memory : UInt64 → UInt64
  started : List Started
  joined : List Nat

/-- What ends a run. -/
inductive Stop
  | assertion
  | nullPointer
  | oops (e : Oops)
  deriving DecidableEq

def maxThreads : Nat := 32

def sthreadStackSize : UInt64 := (1 : UInt64) <<< 20

def mapFailed : UInt64 := 0xffffffffffffffff

namespace Thmgr

/-- What the constructors share. `malloc` gives memory with whatever is in it. -/
def make (malloc : Nat → Thread) (secure : Bool) (chdev : Option Chdev) (numThreads : Nat) :
    Except Stop Thmgr :=
  if 0 < numThreads ∧ numThreads ≤ maxThreads then
    .ok { threads := fun i =>
            if i < numThreads then
              { malloc i with tid := i, used := false, running := false, stack := 0, thfunc := 0,
                              arg := 0 }
            else malloc i,
          secure, numThreads, chdev }
  else .error .assertion

def new (malloc : Nat → Thread) (numThreads : Nat) : Except Stop Thmgr :=
  make malloc false none numThreads

def newSecure (malloc : Nat → Thread) (chdev : Option Chdev) (numThreads : Nat) :
    Except Stop Thmgr := do
  let mgr ← make malloc true chdev numThreads
  match chdev with
  | none => throw .assertion
  | some _ => return mgr

def findFreeThread (mgr : Thmgr) : Option Nat :=
  (List.range mgr.numThreads).find? fun i => !(mgr.threads i).used

def setThread (mgr : Thmgr) (i : Nat) (th : Thread) : Thmgr :=
  { mgr with threads := Function.update mgr.threads i th }

@[simp] theorem setThread_self (mgr : Thmgr) (i : Nat) (th : Thread) :
    (mgr.setThread i th).threads i = th := by
  simp [setThread]

theorem setThread_of_ne (mgr : Thmgr) {i j : Nat} (th : Thread) (h : j ≠ i) :
    (mgr.setThread i th).threads j = mgr.threads j := by
  simp [setThread, h]

/-- What holds of the new slot and of the others holds of every slot. -/
theorem forall_setThread {mgr : Thmgr} {i : Nat} {th : Thread} {P : Nat → Thread → Prop}
    (hself : P i th) (hothers : ∀ j < mgr.numThreads, j ≠ i → P j (mgr.threads j)) :
    ∀ j < (mgr.setThread i th).numThreads, P j ((mgr.setThread i th).threads j) := by
  intro j hj
  by_cases hji : j = i
  · rw [hji, setThread_self]
    exact hself
  · rw [setThread_of_ne _ _ hji]
    exact hothers j hj hji

@[simp] theorem setThread_setThread (mgr : Thmgr) (i : Nat) (th th' : Thread) :
    (mgr.setThread i th).setThread i th' = mgr.setThread i th' := by
  simp [setThread]

end Thmgr

/-! ## The calls -/

/-- What the system decides when a thread is created: its numbers, the registers that it is to
start from, and what the other threads make of the memory before the kernel looks at it. -/
structure Spawn where
  newp : Task
  regs : PtRegs
  others : (UInt64 → UInt64) → UInt64 → UInt64

/-- Where `launch` stores the key. -/
def keySlot (stack : UInt64) : UInt64 := stack + sthreadStackSize - (1 : UInt64) <<< 13

namespace Process

/-- `create`, with what `mmap` returns. -/
def create (p : Process) (tfunc tharg mmap : UInt64) : Except Stop (Process × Int) :=
  match p.mgr.findFreeThread with
  | none => .ok (p, -1)
  | some i =>
    let th := p.mgr.threads i
    if th.used then .error .assertion
    else
      let th := { th with used := true, thfunc := tfunc, arg := tharg }
      if p.mgr.secure then
        let th := { th with stack := mmap }
        if th.stack = mapFailed then .error .assertion
        else .ok ({ p with mgr := p.mgr.setThread i th }, th.tid)
      else .ok ({ p with mgr := p.mgr.setThread i th }, th.tid)

/-- `dev_command`, on the device that the process has open. -/
def devCommand (p : Process) (current : Task) (chdev : Chdev) (cmd : Command) :
    Except Stop (Process × Int) :=
  if !chdev.isopen then .error .assertion
  else
    match p.device.handleCommand current cmd with
    | .error e => .error (.oops e)
    | .ok (device, r) => .ok ({ p with device }, r)

def registerKey (p : Process) (current : Task) (key : UInt64) : Except Stop (Process × Int) :=
  match p.mgr.chdev with
  | none => .error .nullPointer
  | some chdev => p.devCommand current chdev ⟨CommandType.regKey.value, key⟩

/-- What `launch` does before it creates the thread, with what `random` returns. -/
def storeKey (p : Process) (current : Task) (th : Thread) (random : UInt64) :
    Except Stop Process :=
  if !p.mgr.secure then .ok p
  else if th.stack = 0 then .error .assertion
  else do
    let key := random
    let (p, r) ← p.registerKey current key
    if r < 0 then .error .assertion
    else .ok { p with memory := Function.update p.memory (keySlot th.stack) key }

/-- `pthread_create` for slot `i`: the kernel runs the hook of the device, and what it leaves
of the registers is what the thread starts from. -/
def pthreadCreate (p : Process) (current : Task) (i : Nat) (spawn : Spawn) :
    Except Stop Process :=
  let th := p.mgr.threads i
  let memory := spawn.others p.memory
  match p.device.wakeUpNewTask ⟨current, spawn.newp, spawn.regs, memory⟩ with
  | .error e => .error (.oops e)
  | .ok regs =>
    .ok { p with mgr := p.mgr.setThread i { th with _tid := p.started.length }, memory,
                 started := p.started ++ [⟨th.thfunc, th.arg, regs⟩] }

def launch (p : Process) (current : Task) (tid : Int) (random : UInt64) (spawn : Spawn) :
    Except Stop (Process × Int) :=
  if ¬ (0 ≤ tid ∧ tid < p.mgr.numThreads) then .error .assertion
  else
    let i := tid.toNat
    let th := p.mgr.threads i
    if th.running ∨ th.thfunc = 0 then .error .assertion
    else do
      let p ← p.storeKey current th random
      let p ← p.pthreadCreate current i spawn
      return ({ p with mgr := p.mgr.setThread i { p.mgr.threads i with running := true } }, 0)

/-- `wait` for one thread. The slot stays used. -/
def wait (p : Process) (tid : Int) : Except Stop (Process × Int) :=
  if ¬ (0 ≤ tid ∧ tid < p.mgr.numThreads) then .error .assertion
  else
    let i := tid.toNat
    let th := p.mgr.threads i
    if !th.running then .error .assertion
    else .ok ({ p with mgr := p.mgr.setThread i { th with running := false, thfunc := 0 },
                       joined := p.joined ++ [th._tid] }, 0)

/-- One turn of the loop of `wait` for all. -/
def waitTurn (p : Process) (i : Nat) : Except Stop Process :=
  let th := p.mgr.threads i
  if th.running then
    if !th.used then .error .assertion
    else do
      let (p, _) ← p.wait i
      return { p with mgr := p.mgr.setThread i { p.mgr.threads i with used := false } }
  else .ok p

/-- `wait` for all threads. -/
def waitAll (p : Process) : Except Stop (Process × Int) := do
  let p ← (List.range p.mgr.numThreads).foldlM waitTurn p
  return (p, 0)

/-- The destructor of the handle of the device. -/
def closeChdev (p : Process) (current : Task) (chdev : Chdev) : Except Stop Process :=
  if chdev.isopen ∧ current.tgid = chdev.owner then
    match p.device.demoRelease with
    | .error e => .error (.oops e)
    | .ok (device, _) => .ok { p with device }
  else .ok p

/-- The destructor of the manager. -/
def destroy (p : Process) (current : Task) : Except Stop Process := do
  let (p, _) ← p.waitAll
  match p.mgr.secure, p.mgr.chdev with
  | true, some chdev => p.closeChdev current chdev
  | _, _ => return p

end Process

inductive Call
  | create (tfunc tharg mmap : UInt64)
  | launch (tid : Int) (random : UInt64) (spawn : Spawn)
  | wait (tid : Int)
  | waitAll

def Process.call (p : Process) (current : Task) : Call → Except Stop (Process × Int)
  | .create tfunc tharg mmap => p.create tfunc tharg mmap
  | .launch tid random spawn => p.launch current tid random spawn
  | .wait tid => p.wait tid
  | .waitAll => p.waitAll

/-! ## What each call can do -/

/-- What `wait` for all makes of a slot. -/
def Thread.released (th : Thread) : Thread :=
  if th.running then { th with running := false, thfunc := 0, used := false } else th

theorem Thread.released_of_idle {th : Thread} (h : th.running = false) : th.released = th := by
  rw [released, h]
  exact if_neg Bool.false_ne_true

theorem Thread.released_of_running {th : Thread} (h : th.running = true) :
    th.released = { th with running := false, thfunc := 0, used := false } := by
  rw [released, if_pos h]

namespace Process

theorem create_ok {p p' : Process} {tfunc tharg mmap : UInt64} {r : Int}
    (h : p.create tfunc tharg mmap = .ok (p', r)) :
    (r = -1 ∧ p' = p ∧ ∀ i < p.mgr.numThreads, (p.mgr.threads i).used = true) ∨
      ∃ i < p.mgr.numThreads, (p.mgr.threads i).used = false ∧ r = (p.mgr.threads i).tid ∧
        ∃ stack, p' = { p with mgr := p.mgr.setThread i { p.mgr.threads i with
          used := true, thfunc := tfunc, arg := tharg, stack } } := by
  unfold create at h
  cases hfree : p.mgr.findFreeThread with
  | none =>
    simp only [hfree] at h
    obtain ⟨rfl, rfl⟩ := Prod.mk.inj (Except.ok.inj h)
    refine .inl ⟨rfl, rfl, fun i hi => ?_⟩
    simpa using List.find?_eq_none.mp hfree i (List.mem_range.mpr hi)
  | some i =>
    have hunused : (p.mgr.threads i).used = false := by simpa using List.find?_some hfree
    have hi := List.mem_range.mp (List.mem_of_find?_eq_some hfree)
    simp only [hfree, hunused] at h
    refine .inr ⟨i, hi, hunused, ?_⟩
    cases hsecure : p.mgr.secure with
    | false =>
      simp only [hsecure] at h
      obtain ⟨rfl, rfl⟩ := Prod.mk.inj (Except.ok.inj h)
      exact ⟨rfl, _, rfl⟩
    | true =>
      by_cases hfailed : mmap = mapFailed
      · simp [hsecure, hfailed] at h
      · simp only [hsecure, hfailed] at h
        obtain ⟨rfl, rfl⟩ := Prod.mk.inj (Except.ok.inj h)
        exact ⟨rfl, _, rfl⟩

theorem registerKey_ok {p p' : Process} {current : Task} {key : UInt64} {r : Int}
    (h : p.registerKey current key = .ok (p', r)) : ∃ device,
      p.device.handleCommand current ⟨CommandType.regKey.value, key⟩ = .ok (device, r) ∧
        p' = { p with device } := by
  unfold registerKey at h
  cases hchdev : p.mgr.chdev with
  | none =>
    simp only [hchdev] at h
    cases h
  | some chdev =>
    simp only [hchdev, devCommand] at h
    split_ifs at h with hopen
    cases hcommand : p.device.handleCommand current ⟨CommandType.regKey.value, key⟩ with
    | error e =>
      simp only [hcommand] at h
      cases h
    | ok result =>
      simp only [hcommand] at h
      obtain ⟨rfl, rfl⟩ := Prod.mk.inj (Except.ok.inj h)
      exact ⟨_, rfl, rfl⟩

theorem storeKey_ok {p p' : Process} {current : Task} {th : Thread} {random : UInt64}
    (h : p.storeKey current th random = .ok p') : (p.mgr.secure = false ∧ p' = p) ∨ ∃ device r,
      p.device.handleCommand current ⟨CommandType.regKey.value, random⟩ = .ok (device, r) ∧ 0 ≤ r ∧
        p' = { p with device, memory := Function.update p.memory (keySlot th.stack) random } := by
  unfold storeKey at h
  split_ifs at h with hsecure hstack
  · exact .inl ⟨by simpa using hsecure, (Except.ok.inj h).symm⟩
  · obtain ⟨⟨p₁, r⟩, hregister, h⟩ := Except.bind_eq_ok.mp h
    obtain ⟨device, hcommand, rfl⟩ := registerKey_ok hregister
    simp only at h
    split_ifs at h with hr
    exact .inr ⟨device, r, hcommand, Int.not_lt.mp hr, (Except.ok.inj h).symm⟩

theorem pthreadCreate_ok {p p' : Process} {current : Task} {i : Nat} {spawn : Spawn}
    (h : p.pthreadCreate current i spawn = .ok p') : ∃ regs,
      p.device.wakeUpNewTask ⟨current, spawn.newp, spawn.regs, spawn.others p.memory⟩ = .ok regs ∧
        p' = { p with
          mgr := p.mgr.setThread i { p.mgr.threads i with _tid := p.started.length }
          memory := spawn.others p.memory
          started := p.started ++ [⟨(p.mgr.threads i).thfunc, (p.mgr.threads i).arg, regs⟩] } := by
  unfold pthreadCreate at h
  cases hwake : p.device.wakeUpNewTask ⟨current, spawn.newp, spawn.regs, spawn.others p.memory⟩ with
  | error e =>
    simp only [hwake] at h
    cases h
  | ok regs =>
    simp only [hwake] at h
    exact ⟨regs, rfl, (Except.ok.inj h).symm⟩

theorem launch_ok {p p' : Process} {current : Task} {tid : Int} {random : UInt64} {spawn : Spawn}
    {r : Int} (h : p.launch current tid random spawn = .ok (p', r)) :
    ∃ i < p.mgr.numThreads, tid = i ∧ (p.mgr.threads i).running = false ∧
      (p.mgr.threads i).thfunc ≠ 0 ∧ ∃ device memory regs,
        (device = p.device ∨
          ∃ cmd result, p.device.handleCommand current cmd = .ok (device, result)) ∧
        p' = { p with
          mgr := p.mgr.setThread i
            { p.mgr.threads i with _tid := p.started.length, running := true }
          device, memory
          started := p.started ++ [⟨(p.mgr.threads i).thfunc, (p.mgr.threads i).arg, regs⟩] } := by
  simp only [launch] at h
  split_ifs at h with hrange hassert
  obtain ⟨hlo, hhi⟩ := hrange
  have htid : ((tid.toNat : Nat) : Int) = tid := Int.toNat_of_nonneg hlo
  have hi : tid.toNat < p.mgr.numThreads := by omega
  obtain ⟨hrunning, hfunc⟩ := not_or.mp hassert
  refine ⟨tid.toNat, hi, htid.symm, Bool.eq_false_iff.mpr hrunning, hfunc, ?_⟩
  obtain ⟨p₁, hkey, h⟩ := Except.bind_eq_ok.mp h
  have hstored : ∃ device memory, (device = p.device ∨
      ∃ cmd result, p.device.handleCommand current cmd = .ok (device, result)) ∧
      p₁ = { p with device, memory } := by
    cases storeKey_ok hkey with
    | inl hopen => exact ⟨p.device, p.memory, .inl rfl, hopen.2⟩
    | inr hsecure =>
      obtain ⟨device, result, hcommand, -, rfl⟩ := hsecure
      exact ⟨device, _, .inr ⟨_, result, hcommand⟩, rfl⟩
  obtain ⟨device, memory, hdevice, rfl⟩ := hstored
  obtain ⟨p₂, hcreate, h⟩ := Except.bind_eq_ok.mp h
  obtain ⟨regs, -, rfl⟩ := pthreadCreate_ok hcreate
  obtain ⟨rfl, -⟩ := Prod.mk.inj (Except.ok.inj h)
  refine ⟨device, spawn.others memory, regs, hdevice, ?_⟩
  simp only [Thmgr.setThread_self, Thmgr.setThread_setThread]

/-- A thread that runs is joined. -/
theorem wait_eq {p : Process} {i : Nat} (hi : i < p.mgr.numThreads)
    (hrunning : (p.mgr.threads i).running = true) :
    p.wait i = .ok ({ p with
      mgr := p.mgr.setThread i { p.mgr.threads i with running := false, thfunc := 0 }
      joined := p.joined ++ [(p.mgr.threads i)._tid] }, 0) := by
  have hrange : ¬ ¬ ((0 : Int) ≤ i ∧ (i : Int) < p.mgr.numThreads) := by omega
  rw [wait, if_neg hrange]
  simp [hrunning]

theorem wait_ok {p p' : Process} {tid r : Int} (h : p.wait tid = .ok (p', r)) :
    ∃ i < p.mgr.numThreads, tid = i ∧ (p.mgr.threads i).running = true ∧ p' = { p with
      mgr := p.mgr.setThread i { p.mgr.threads i with running := false, thfunc := 0 }
      joined := p.joined ++ [(p.mgr.threads i)._tid] } := by
  simp only [wait] at h
  split_ifs at h with hrange hassert
  obtain ⟨hlo, hhi⟩ := hrange
  have htid : ((tid.toNat : Nat) : Int) = tid := Int.toNat_of_nonneg hlo
  have hi : tid.toNat < p.mgr.numThreads := by omega
  have hrunning : (p.mgr.threads tid.toNat).running = true := by simpa using hassert
  exact ⟨tid.toNat, hi, htid.symm, hrunning, (Prod.mk.inj (Except.ok.inj h)).1.symm⟩

/-- The threads that run in the slots before `k`. -/
def runningThreads (p : Process) (k : Nat) : List Nat :=
  ((List.range k).filter fun i => (p.mgr.threads i).running).map fun i => (p.mgr.threads i)._tid

theorem runningThreads_succ (p : Process) (k : Nat) : p.runningThreads (k + 1) =
    p.runningThreads k ++ if (p.mgr.threads k).running then [(p.mgr.threads k)._tid] else [] := by
  rw [runningThreads, List.range_succ, List.filter_append, List.map_append]
  cases hrunning : (p.mgr.threads k).running <;> simp [hrunning, runningThreads]

/-- The slots before `k` are released, and their threads are joined. -/
def collected (p : Process) (k : Nat) : Process :=
  { p with
    mgr := { p.mgr with threads := fun i =>
      if i < k then (p.mgr.threads i).released else p.mgr.threads i }
    joined := p.joined ++ p.runningThreads k }

theorem collected_zero (p : Process) : p.collected 0 = p := by
  simp [collected, runningThreads]

theorem collected_succ (p : Process) (k : Nat) : p.collected (k + 1) = { p.collected k with
    mgr := (p.collected k).mgr.setThread k (p.mgr.threads k).released
    joined := (p.collected k).joined ++
      if (p.mgr.threads k).running then [(p.mgr.threads k)._tid] else [] } := by
  have hthreads : (p.collected (k + 1)).mgr.threads =
      Function.update (p.collected k).mgr.threads k (p.mgr.threads k).released := by
    funext i
    by_cases hi : i = k
    · subst hi
      simp [collected]
    · have hbelow : i < k + 1 ↔ i < k := by omega
      rw [Function.update_of_ne hi]
      simp only [collected, hbelow]
  simp only [collected] at hthreads
  simp only [collected, hthreads, Thmgr.setThread, runningThreads_succ, List.append_assoc]

theorem waitTurn_collected {p : Process} {k : Nat} (hk : k < p.mgr.numThreads)
    (hused : (p.mgr.threads k).running = true → (p.mgr.threads k).used = true) :
    (p.collected k).waitTurn k = .ok (p.collected (k + 1)) := by
  have hkept : (p.collected k).mgr.threads k = p.mgr.threads k := if_neg (Nat.lt_irrefl k)
  rw [collected_succ]
  simp only [waitTurn, hkept]
  cases hrunning : (p.mgr.threads k).running with
  | false =>
    have hsame : (p.collected k).mgr.setThread k (p.mgr.threads k) = (p.collected k).mgr := by
      rw [← hkept, Thmgr.setThread, Function.update_eq_self]
    simp only [Thread.released_of_idle hrunning, Bool.false_eq_true, if_false, List.append_nil,
      hsame]
  | true =>
    have hwait := wait_eq (show k < (p.collected k).mgr.numThreads from hk)
      (by rw [hkept, hrunning])
    rw [hkept] at hwait
    simp only [if_true, hused hrunning, Bool.not_true, Bool.false_eq_true, if_false, hwait,
      Except.ok_bind, Except.pure_eq_ok, Thmgr.setThread_self, Thmgr.setThread_setThread,
      Thread.released_of_running hrunning]

/-- As long as every slot that runs is used, `wait` for all comes back. -/
theorem waitAll_eq {p : Process}
    (hused : ∀ i < p.mgr.numThreads,
      (p.mgr.threads i).running = true → (p.mgr.threads i).used = true) :
    p.waitAll = .ok (p.collected p.mgr.numThreads, 0) := by
  have hloop (k : Nat) (hk : k ≤ p.mgr.numThreads) :
      (List.range k).foldlM waitTurn p = .ok (p.collected k) := by
    induction k with
    | zero =>
      rw [collected_zero]
      rfl
    | succ k ih =>
      rw [List.range_succ, List.foldlM_append, ih (by omega), Except.ok_bind, List.foldlM_cons,
        waitTurn_collected hk (hused k hk)]
      rfl
  rw [waitAll, hloop _ (Nat.le_refl _)]
  rfl

theorem destroy_ok {p p' : Process} {current : Task} (h : p.destroy current = .ok p') :
    ∃ p₁ r device, p.waitAll = .ok (p₁, r) ∧ p' = { p₁ with device } := by
  obtain ⟨⟨p₁, r⟩, hwait, h⟩ := Except.bind_eq_ok.mp h
  refine ⟨p₁, r, p'.device, hwait, ?_⟩
  simp only at h
  split at h
  · simp only [closeChdev] at h
    split_ifs at h with hopen
    · cases hrelease : p₁.device.demoRelease with
      | error e =>
        simp only [hrelease] at h
        cases h
      | ok result =>
        simp only [hrelease] at h
        obtain rfl := Except.ok.inj h
        rfl
    · obtain rfl := Except.ok.inj h
      rfl
  · obtain rfl := Except.ok.inj h
    rfl

end Process

/-! ## Runs -/

/-- A constructor has made the manager. -/
def Thmgr.New (mgr : Thmgr) : Prop :=
  (∃ malloc numThreads, Thmgr.new malloc numThreads = .ok mgr) ∨
    ∃ malloc chdev numThreads, Thmgr.newSecure malloc chdev numThreads = .ok mgr

theorem Thmgr.New.threads {mgr : Thmgr} (h : mgr.New) {i : Nat} (hi : i < mgr.numThreads) :
    (mgr.threads i).tid = i ∧ (mgr.threads i).used = false ∧ (mgr.threads i).running = false ∧
      (mgr.threads i).thfunc = 0 := by
  have hmake : ∃ malloc secure chdev numThreads,
      Thmgr.make malloc secure chdev numThreads = .ok mgr := by
    cases h with
    | inl hnew =>
      obtain ⟨malloc, numThreads, hnew⟩ := hnew
      exact ⟨malloc, false, none, numThreads, hnew⟩
    | inr hsecure =>
      obtain ⟨malloc, chdev, numThreads, hsecure⟩ := hsecure
      obtain ⟨mgr', hmake, h⟩ := Except.bind_eq_ok.mp hsecure
      cases chdev with
      | none => cases h
      | some chdev =>
        obtain rfl := Except.ok.inj h
        exact ⟨malloc, true, some chdev, numThreads, hmake⟩
  obtain ⟨malloc, secure, chdev, numThreads, hmake⟩ := hmake
  unfold Thmgr.make at hmake
  split_ifs at hmake
  obtain rfl := Except.ok.inj hmake
  have hslot : i < numThreads := hi
  simp [hslot]

/-- A manager of `n` slots without a device, in memory that was zero. -/
def idle (n : Nat) : Thmgr where
  threads i := ⟨if i < n then i else 0, 0, false, false, 0, 0, 0⟩
  secure := false
  numThreads := n
  chdev := none

theorem make_idle {n : Nat} (hpos : 0 < n) (hle : n ≤ maxThreads) (secure : Bool)
    (chdev : Option Chdev) : Thmgr.make (fun _ => ⟨0, 0, false, false, 0, 0, 0⟩) secure chdev n =
      .ok { idle n with secure, chdev } := by
  rw [Thmgr.make, if_pos ⟨hpos, hle⟩]
  congr 2
  funext i
  by_cases hi : i < n
  · simp [idle, hi]
  · simp [idle, hi]

theorem idle_new {n : Nat} (hpos : 0 < n) (hle : n ≤ maxThreads) : (idle n).New :=
  .inl ⟨_, n, make_idle hpos hle false none⟩

/-- The manager is new, and no thread was started. -/
def Process.begin (mgr : Thmgr) (device : Device) (memory : UInt64 → UInt64) : Process :=
  ⟨mgr, device, memory, [], []⟩

/-- Calls one after the other, with what they return. -/
inductive Run (current : Task) (start : Process) : List (Call × Int) → Process → Prop
  | begin : Run current start [] start
  | call {trace : List (Call × Int)} {p p' : Process} {c : Call} {r : Int}
      (past : Run current start trace p) (ok : p.call current c = .ok (p', r)) :
      Run current start (trace ++ [(c, r)]) p'

/-- Calls that are given in advance. -/
def Process.calls (current : Task) : Process → List Call → Except Stop (List (Call × Int) × Process)
  | p, [] => .ok ([], p)
  | p, c :: cs => do
    let (p, r) ← p.call current c
    let (trace, p) ← p.calls current cs
    return ((c, r) :: trace, p)

theorem Run.calls {current : Task} {start p p' : Process} {past trace : List (Call × Int)}
    {cs : List Call} (h : Run current start past p) (hcs : p.calls current cs = .ok (trace, p')) :
    Run current start (past ++ trace) p' := by
  induction cs generalizing past p trace with
  | nil =>
    obtain ⟨rfl, rfl⟩ := Prod.mk.inj (Except.ok.inj hcs)
    rwa [List.append_nil]
  | cons c cs ih =>
    obtain ⟨⟨p₁, r⟩, hok, hcs⟩ := Except.bind_eq_ok.mp hcs
    obtain ⟨⟨trace', p₂⟩, hrest, hcs⟩ := Except.bind_eq_ok.mp hcs
    obtain ⟨rfl, rfl⟩ := Prod.mk.inj (Except.ok.inj hcs)
    have htail := ih (.call h hok) hrest
    rwa [List.append_assoc] at htail

/-- Every call of a run was made in a state that the calls before it led to. -/
theorem Run.split {current : Task} {start p : Process} {past future : List (Call × Int)} {c : Call}
    {r : Int} (h : Run current start (past ++ (c, r) :: future) p) :
    ∃ p₁ p₂, Run current start past p₁ ∧ p₁.call current c = .ok (p₂, r) := by
  generalize htrace : past ++ (c, r) :: future = trace at h
  induction h generalizing future with
  | begin => simp at htrace
  | @call trace p p' c' r' hpast hok ih =>
    cases List.eq_nil_or_concat future with
    | inl hnil =>
      subst hnil
      obtain ⟨rfl, hlast⟩ := List.append_inj' htrace rfl
      obtain ⟨rfl, rfl⟩ := Prod.mk.inj (List.cons.inj hlast).1
      exact ⟨p, p', hpast, hok⟩
    | inr hconcat =>
      obtain ⟨future', last, rfl⟩ := hconcat
      rw [List.concat_eq_append, ← List.cons_append, ← List.append_assoc] at htrace
      exact ih (List.append_inj' htrace rfl).1

end Bootcamp.Os
