import Bootcamp.Lib.SafeRuns
import Bootcamp.Module.Isolation

/-! Loading and unloading the kernel module. `init_module` and `cleanup_module` go on one statement
at a time, each of the kernel's functions may fail, and while the character device is there others
may call in between. -/
namespace Bootcamp.Sthreads.Loading

open Noninterference (observe Unwinding)
open SafeRuns

/-! ## The statements -/

/-- What `init_module` or `cleanup_module` does next. At `errorRegdev` and `gone` it returns, and
the module goes. -/
inductive Phase
  | unloaded (ret : Int)
  | classCreate
  | deviceCreate
  | atomicSet
  | registerJprobe
  | disableJprobe
  | loaded
  | errorDevice (err : Int)
  | errorClass (err : Int)
  | errorRegdev (err : Int)
  | deviceDestroy
  | classDestroy
  | unregisterChrdev
  | unregisterJprobe
  | gone

/-- The kernel gives no more references on the module. -/
def Phase.going : Phase → Bool
  | .deviceDestroy | .classDestroy | .unregisterChrdev | .unregisterJprobe | .gone => true
  | _ => false

/-- The globals of the module, what the kernel has of it, the handles that are open and the
references that the kernel counts. -/
structure State where
  device : Device
  chrdev : Bool
  sthreadsClass : Bool
  sthreadsDevice : Bool
  forkjp : Bool
  handles : Nat
  refs : Nat
  phase : Phase

/-- Loading goes on, with what the kernel's function gives back; unloading begins or goes on; or
somebody calls. -/
inductive Move
  | initModule (ret : Int)
  | cleanupModule
  | call (e : Event)

namespace State

def init : State where
  device := .init
  chrdev := false
  sthreadsClass := false
  sthreadsDevice := false
  forkjp := false
  handles := 0
  refs := 0
  phase := .unloaded 0

/-- The next statement of `init_module`. Below zero is an error, also for a pointer. -/
def initModule (s : State) (ret : Int) : Except Oops State :=
  match s.phase with
  | .unloaded _ =>
    if ret < 0 then .ok { s with device := .init, refs := 0, phase := .errorRegdev ret }
    else .ok { s with device := .init, chrdev := true, refs := 0, phase := .classCreate }
  | .classCreate =>
    if ret < 0 then .ok { s with phase := .errorClass ret }
    else .ok { s with sthreadsClass := true, phase := .deviceCreate }
  | .deviceCreate =>
    if ret < 0 then .ok { s with phase := .errorDevice ret }
    else .ok { s with sthreadsDevice := true, phase := .atomicSet }
  | .atomicSet =>
    .ok { s with device := { s.device with deviceOpened := 0 }, phase := .registerJprobe }
  | .registerJprobe =>
    -- a probe is enabled when it is registered; the error is printed and nothing else
    if ret < 0 then .ok { s with phase := .disableJprobe }
    else .ok { s with
      device := { s.device with jprobe := true }, forkjp := true, phase := .disableJprobe }
  | .disableJprobe => .ok { s with device := { s.device with jprobe := false }, phase := .loaded }
  | .errorDevice err => .ok { s with sthreadsClass := false, phase := .errorClass err }
  | .errorClass err => .ok { s with chrdev := false, phase := .errorRegdev err }
  | .errorRegdev err =>
    -- with the module go the functions behind every handle
    if s.handles = 0 then .ok { s with phase := .unloaded err } else .error .useAfterFree
  | _ => .ok s

/-- The next statement of `cleanup_module`. The kernel does not begin while it counts a reference. -/
def cleanupModule (s : State) : Except Oops State :=
  match s.phase with
  | .loaded => if s.refs = 0 then .ok { s with phase := .deviceDestroy } else .ok s
  | .deviceDestroy => .ok { s with sthreadsDevice := false, phase := .classDestroy }
  | .classDestroy => .ok { s with sthreadsClass := false, phase := .unregisterChrdev }
  | .unregisterChrdev => .ok { s with chrdev := false, phase := .unregisterJprobe }
  | .unregisterJprobe =>
    .ok { s with device := { s.device with jprobe := false }, forkjp := false, phase := .gone }
  | .gone => if s.handles = 0 then .ok { s with phase := .unloaded 0 } else .error .useAfterFree
  | _ => .ok s

/-- A call, and what the module answers. Without a device or a handle the kernel does not get as
far as the module. `enable_jprobe` leaves alone what is not registered, `try_module_get` a module
that goes, and `module_put` a count of zero; what they return is not looked at. -/
def answer (s : State) : Event → Except Oops (State × Option Answer)
  | .demoOpen current kmalloc =>
    if s.chrdev then
      let (d, ret) := s.device.demoOpen current kmalloc
      .ok ({ s with
        device := { d with jprobe := d.jprobe && s.forkjp }
        handles := if ret = 0 then s.handles + 1 else s.handles
        refs := if ret = 0 ∧ s.phase.going = false then s.refs + 1 else s.refs }, some (.code ret))
    else .ok (s, none)
  | .demoRelease =>
    if s.handles = 0 then .ok (s, none)
    else do
      let (d, ret) ← s.device.demoRelease
      return ({ s with device := d, handles := s.handles - 1, refs := s.refs - 1 }, some (.code ret))
  | .handleCommand current cmd =>
    if s.handles = 0 then .ok (s, none)
    else do
      let (d, ret) ← s.device.handleCommand current cmd
      return ({ s with device := d }, some (.code ret))
  | .wakeUpNewTask t => do
    let regs ← s.device.wakeUpNewTask t
    return (s, some (.regs regs))

def step (s : State) : Move → Except Oops State
  | .initModule ret => s.initModule ret
  | .cleanupModule => s.cleanupModule
  | .call e => do
    let (s, _) ← s.answer e
    return s

def run (moves : List Move) : Except Oops State := moves.foldlM step init

end State

/-! ## What is registered -/

theorem demoRelease_jprobe {d : Device} {r : Device × Int} (h : d.demoRelease = .ok r) :
    r.1.jprobe = false := by
  unfold Device.demoRelease at h
  cases hpinfo : d.pinfo with
  | freed =>
    simp only [hpinfo] at h
    cases h
  | _ =>
    simp only [hpinfo] at h
    cases h
    rfl

/-- The device number, the class and the device. -/
def Phase.resources : Phase → Bool × Bool × Bool
  | .unloaded _ => (false, false, false)
  | .classCreate => (true, false, false)
  | .deviceCreate => (true, true, false)
  | .errorDevice _ => (true, true, false)
  | .errorClass _ => (true, false, false)
  | .errorRegdev _ => (false, false, false)
  | .classDestroy => (true, true, false)
  | .unregisterChrdev => (true, false, false)
  | .unregisterJprobe => (false, false, false)
  | .gone => (false, false, false)
  | _ => (true, true, true)

/-- The probe may be registered. -/
def Phase.probed : Phase → Bool
  | .disableJprobe | .loaded => true
  | .deviceDestroy | .classDestroy | .unregisterChrdev | .unregisterJprobe => true
  | _ => false

/-- The kernel has of the module what it should at this point, and counts every handle until the
module goes. -/
structure Registered (s : State) : Prop where
  resources : (s.chrdev, s.sthreadsClass, s.sthreadsDevice) = s.phase.resources
  forkjp : s.forkjp = true → s.phase.probed = true
  jprobe : s.device.jprobe = true → s.forkjp = true
  handles : ∀ ret, s.phase = .unloaded ret → s.handles = 0
  refs : s.refs = if s.phase.going then 0 else s.handles

/-- A call changes the globals, the handles and the references. -/
theorem answer_frame {s s' : State} {e : Event} {a : Option Answer}
    (h : s.answer e = .ok (s', a)) :
    ∃ d n r, s' = { s with device := d, handles := n, refs := r } ∧
      (d.jprobe = true → s.device.jprobe = true ∨ s.forkjp = true) ∧
      (0 < n → 0 < s.handles ∨ s.chrdev = true) ∧
      (s.refs = (if s.phase.going then 0 else s.handles) →
        r = if s.phase.going then 0 else n) := by
  cases e with
  | demoOpen current kmalloc =>
    simp only [State.answer] at h
    by_cases hchrdev : s.chrdev = true
    · rw [if_pos hchrdev] at h
      obtain ⟨rfl, -⟩ := Prod.mk.inj (Except.ok.inj h)
      refine ⟨_, _, _, rfl, fun hjprobe => ?_, fun _ => .inr hchrdev, fun hrefs => ?_⟩
      · exact .inr (Bool.and_eq_true_iff.mp hjprobe).2
      · cases hgoing : s.phase.going <;> simp_all
    · rw [if_neg hchrdev] at h
      obtain ⟨rfl, -⟩ := Prod.mk.inj (Except.ok.inj h)
      exact ⟨s.device, s.handles, s.refs, rfl, .inl, .inl, id⟩
  | demoRelease =>
    simp only [State.answer] at h
    split_ifs at h with hnone
    · obtain ⟨rfl, -⟩ := Prod.mk.inj (Except.ok.inj h)
      exact ⟨s.device, s.handles, s.refs, rfl, .inl, .inl, id⟩
    · obtain ⟨r, hr, h⟩ := Except.bind_eq_ok.mp h
      obtain ⟨rfl, -⟩ := Prod.mk.inj (Except.ok.inj h)
      refine ⟨_, _, _, rfl, fun hjprobe => ?_, fun _ => .inl (Nat.pos_of_ne_zero hnone),
        fun hrefs => ?_⟩
      · rw [demoRelease_jprobe hr] at hjprobe
        cases hjprobe
      · cases hgoing : s.phase.going <;> simp_all
  | handleCommand current cmd =>
    simp only [State.answer] at h
    split_ifs at h with hnone
    · obtain ⟨rfl, -⟩ := Prod.mk.inj (Except.ok.inj h)
      exact ⟨s.device, s.handles, s.refs, rfl, .inl, .inl, id⟩
    · obtain ⟨r, hr, h⟩ := Except.bind_eq_ok.mp h
      obtain ⟨rfl, -⟩ := Prod.mk.inj (Except.ok.inj h)
      obtain ⟨p, p', -, hdevice, -⟩ := Device.handleCommand_ok hr
      refine ⟨_, _, _, rfl, fun hjprobe => ?_, .inl, id⟩
      rw [hdevice] at hjprobe
      exact .inl hjprobe
  | wakeUpNewTask t =>
    obtain ⟨regs, -, h⟩ := Except.bind_eq_ok.mp h
    obtain ⟨rfl, -⟩ := Prod.mk.inj (Except.ok.inj h)
    exact ⟨s.device, s.handles, s.refs, rfl, .inl, .inl, id⟩

namespace Registered

variable {s s' : State}

theorem init : Registered .init where
  resources := rfl
  forkjp h := absurd h (by decide)
  jprobe h := absurd h (by decide)
  handles _ _ := rfl
  refs := rfl

theorem answer (hi : Registered s) {e : Event} {a : Option Answer}
    (h : s.answer e = .ok (s', a)) : Registered s' := by
  obtain ⟨d, n, r, rfl, hjprobe, hhandles, hrefs⟩ := answer_frame h
  refine ⟨hi.resources, hi.forkjp, fun h => ?_, fun ret hphase => ?_, hrefs hi.refs⟩
  · exact (hjprobe h).elim hi.jprobe id
  · -- what is not loaded has no device number to open
    have hchrdev : s.chrdev = false := by
      have hres := hi.resources
      rw [show s.phase = .unloaded ret from hphase] at hres
      exact (Prod.mk.inj hres).1
    by_contra hn
    cases hhandles (Nat.pos_of_ne_zero hn) with
    | inl hheld => exact absurd (hi.handles ret hphase) (Nat.pos_iff_ne_zero.mp hheld)
    | inr hopen => exact absurd (hopen.symm.trans hchrdev) (by decide)

/-- Until the probe is registered there is none. -/
theorem unprobed (hi : Registered s) (hphase : s.phase.probed = false) : s.forkjp = false := by
  rw [Bool.eq_false_iff]
  exact fun hforkjp => absurd ((hi.forkjp hforkjp).symm.trans hphase) (by decide)

/-- A statement registers or gives back what its successor should find, and nothing changes for
the probe and the handles. -/
theorem advance (hi : Registered s) {p : Phase} {chrdev sthreadsClass sthreadsDevice : Bool}
    (hres : (chrdev, sthreadsClass, sthreadsDevice) = p.resources)
    (hprobed : s.forkjp = true → p.probed = true) (hgoing : p.going = s.phase.going)
    (hloaded : ∀ ret, p ≠ .unloaded ret) :
    Registered { s with chrdev, sthreadsClass, sthreadsDevice, phase := p } where
  resources := hres
  forkjp := hprobed
  jprobe := hi.jprobe
  handles ret hphase := absurd hphase (hloaded ret)
  refs := by
    rw [hgoing]
    exact hi.refs

/-- The module goes when nobody has a handle. -/
theorem leave (hi : Registered s) {ret : Int} (hoff : s.forkjp = false) (hnone : s.handles = 0)
    (hres : (s.chrdev, s.sthreadsClass, s.sthreadsDevice) = (false, false, false)) :
    Registered { s with phase := .unloaded ret } where
  resources := hres
  forkjp h := absurd h (by simp [hoff])
  jprobe := hi.jprobe
  handles _ _ := hnone
  refs := by
    have hrefs := hi.refs
    rw [hnone, ite_self] at hrefs
    exact hrefs.trans hnone.symm

theorem cleanupModule (hi : Registered s) (h : s.cleanupModule = .ok s') : Registered s' := by
  have hres := hi.resources
  unfold State.cleanupModule at h
  cases hphase : s.phase with
  | loaded =>
    rw [hphase] at hres
    simp only [hphase] at h
    split_ifs at h with hnone
    · cases h
      exact ⟨hres, fun _ => rfl, hi.jprobe, fun _ h => (by cases h), hnone⟩
    · cases h
      exact hi
  | deviceDestroy | classDestroy | unregisterChrdev =>
    rw [hphase] at hres
    simp only [hphase] at h
    cases h
    refine hi.advance ?_ (fun _ => rfl) (by rw [hphase]; rfl) fun _ h => (by cases h)
    simp_all [Phase.resources]
  | unregisterJprobe =>
    have hrefs := hi.refs
    rw [hphase] at hres hrefs
    simp only [hphase] at h
    cases h
    exact ⟨hres, fun h => (by cases h), fun h => (by cases h), fun _ h => (by cases h), hrefs⟩
  | gone =>
    have hoff := hi.unprobed (by rw [hphase]; rfl)
    rw [hphase] at hres
    simp only [hphase] at h
    split_ifs at h with hnone
    cases h
    exact hi.leave hoff hnone hres
  | _ =>
    simp only [hphase] at h
    cases h
    exact hi

theorem initModule (hi : Registered s) {ret : Int} (h : s.initModule ret = .ok s') :
    Registered s' := by
  have hres := hi.resources
  unfold State.initModule at h
  cases hphase : s.phase with
  | unloaded old =>
    have hoff := hi.unprobed (by rw [hphase]; rfl)
    have hnone := hi.handles old hphase
    rw [hphase] at hres
    simp only [hphase] at h
    split_ifs at h with hret
    · cases h
      exact ⟨hres, fun h => absurd h (by simp [hoff]), fun h => (by cases h),
        fun _ h => (by cases h), hnone.symm⟩
    · cases h
      refine ⟨?_, fun h => absurd h (by simp [hoff]), fun h => (by cases h),
        fun _ h => (by cases h), hnone.symm⟩
      simp_all [Phase.resources]
  | classCreate | deviceCreate =>
    have hoff := hi.unprobed (by rw [hphase]; rfl)
    rw [hphase] at hres
    simp only [hphase] at h
    split_ifs at h with hret
    · cases h
      exact hi.advance hres (fun h => absurd h (by simp [hoff])) (by rw [hphase]; rfl)
        fun _ h => (by cases h)
    · cases h
      refine hi.advance ?_ (fun h => absurd h (by simp [hoff])) (by rw [hphase]; rfl)
        fun _ h => (by cases h)
      simp_all [Phase.resources]
  | atomicSet =>
    have hoff := hi.unprobed (by rw [hphase]; rfl)
    have hrefs := hi.refs
    rw [hphase] at hres hrefs
    simp only [hphase] at h
    cases h
    exact ⟨hres, fun h => absurd h (by simp [hoff]), hi.jprobe, fun _ h => (by cases h), hrefs⟩
  | registerJprobe =>
    have hrefs := hi.refs
    rw [hphase] at hres hrefs
    simp only [hphase] at h
    split_ifs at h with hret
    · cases h
      exact hi.advance hres (fun _ => rfl) (by rw [hphase]; rfl) fun _ h => (by cases h)
    · cases h
      exact ⟨hres, fun _ => rfl, fun _ => rfl, fun _ h => (by cases h), hrefs⟩
  | disableJprobe =>
    have hrefs := hi.refs
    rw [hphase] at hres hrefs
    simp only [hphase] at h
    cases h
    exact ⟨hres, fun _ => rfl, fun h => (by cases h), fun _ h => (by cases h), hrefs⟩
  | errorDevice err | errorClass err =>
    have hoff := hi.unprobed (by rw [hphase]; rfl)
    rw [hphase] at hres
    simp only [hphase] at h
    cases h
    refine hi.advance ?_ (fun h => absurd h (by simp [hoff])) (by rw [hphase]; rfl)
      fun _ h => (by cases h)
    simp_all [Phase.resources]
  | errorRegdev err =>
    have hoff := hi.unprobed (by rw [hphase]; rfl)
    rw [hphase] at hres
    simp only [hphase] at h
    split_ifs at h with hnone
    cases h
    exact hi.leave hoff hnone hres
  | _ =>
    simp only [hphase] at h
    cases h
    exact hi

theorem step (hi : Registered s) {m : Move} (h : s.step m = .ok s') : Registered s' := by
  cases m with
  | initModule ret => exact hi.initModule h
  | cleanupModule => exact hi.cleanupModule h
  | call e =>
    obtain ⟨⟨s₁, a⟩, ha, h⟩ := Except.bind_eq_ok.mp h
    cases h
    exact hi.answer ha

/-- A module that is not loaded has left nothing. -/
theorem unloaded (hi : Registered s) {ret : Int} (hphase : s.phase = .unloaded ret) :
    s = { State.init with device := s.device, phase := .unloaded ret } := by
  have hres := hi.resources
  rw [hphase] at hres
  obtain ⟨hchrdev, hclass, hdevice⟩ : s.chrdev = false ∧ s.sthreadsClass = false ∧
      s.sthreadsDevice = false := by simpa [Phase.resources] using hres
  have hforkjp : s.forkjp = false := hi.unprobed (by rw [hphase]; rfl)
  have hhandles : s.handles = 0 := hi.handles ret hphase
  have hrefs : s.refs = 0 := by
    rw [hi.refs, hphase, hhandles]
    rfl
  cases s
  simp_all [State.init]

theorem run {moves : List Move} (h : State.run moves = .ok s) : Registered s :=
  Except.foldlM_invariant (fun _ _ _ hi hstep => hi.step hstep) moves init h

end Registered

/-! ## One owner -/

/-- The handle, if there is one, is counted; the device is behind it; and the probe is on for it
as far as there is a probe. -/
structure Sound (s : State) : Prop where
  one : s.handles ≤ 1
  count : s.device.deviceOpened = s.handles
  probe : 0 < s.handles → s.forkjp = true → s.device.jprobe = true

theorem Sound.congr {s s' : State} (h : Sound s) (hdevice : s'.device = s.device)
    (hhandles : s'.handles = s.handles) (hforkjp : s'.forkjp = s.forkjp) : Sound s' where
  one := by
    rw [hhandles]
    exact h.one
  count := by
    rw [hhandles, hdevice]
    exact h.count
  probe := by
    rw [hhandles, hdevice, hforkjp]
    exact h.probe

/-- Nobody has a handle when the counter is set, when a probe is disabled or when the module goes,
and no task is created while the probe is on and nobody has one. -/
def Undisturbed (s : State) : Move → Prop
  | .initModule _ =>
    match s.phase with
    | .atomicSet => s.handles = 0
    | .disableJprobe => s.handles = 0 ∨ s.forkjp = false
    | .errorRegdev _ => s.handles = 0
    | _ => True
  | .cleanupModule =>
    match s.phase with
    | .gone => s.handles = 0
    | _ => True
  | .call (.wakeUpNewTask _) => s.device.jprobe = true → 0 < s.handles
  | _ => True

/-- A record is there exactly for a handle, and without one the probe is on for a moment only. -/
structure Inv (s : State) : Prop where
  registered : Registered s
  sound : Sound s
  live : 0 < s.handles → ∃ pinfo, s.device.pinfo = .live pinfo
  free : s.handles = 0 → ∀ pinfo, s.device.pinfo ≠ .live pinfo
  idle : s.handles = 0 → s.device.jprobe = true → s.phase = .disableJprobe

theorem handleCommand_live {d : Device} {pinfo : ProcessInfo} (h : d.pinfo = .live pinfo)
    (current : Task) (cmd : Command) : ∃ r, d.handleCommand current cmd = .ok r := by
  simp only [Device.handleCommand, h]
  split_ifs <;> exact ⟨_, rfl⟩

namespace Inv

variable {s s' : State} {moves : List Move}

theorem init : Inv .init where
  registered := .init
  sound := ⟨Nat.zero_le 1, rfl, fun h => absurd h (Nat.lt_irrefl 0)⟩
  live h := absurd h (Nat.lt_irrefl 0)
  free _ pinfo h := by cases h
  idle _ h := absurd h Bool.false_ne_true

theorem handles_eq_zero (hi : Inv s) (h : s.device.deviceOpened = 0) : s.handles = 0 := by
  have hcount := hi.sound.count
  omega

theorem handles_eq_one (hi : Inv s) (h : s.handles ≠ 0) : s.handles = 1 := by
  have hone := hi.sound.one
  omega

/-- An open that finds the device taken changes nothing. -/
theorem answer_busy (hi : Inv s) (hchrdev : s.chrdev = true) (h : s.device.deviceOpened ≠ 0)
    (current : Task) (kmalloc : Option ProcessInfo) :
    s.answer (.demoOpen current kmalloc) = .ok (s, some (.code (-EBUSY))) := by
  have hjprobe : (s.device.jprobe && s.forkjp) = s.device.jprobe := by
    cases hon : s.device.jprobe with
    | false => rfl
    | true => exact hi.registered.jprobe hon
  have hbusy : -EBUSY ≠ 0 := by decide
  simp only [State.answer, if_pos hchrdev, Device.demoOpen, if_pos h, hjprobe, if_neg hbusy,
    if_neg (not_and_of_not_left _ hbusy)]

theorem answer_noMemory (hchrdev : s.chrdev = true) (h : s.device.deviceOpened = 0)
    (current : Task) : s.answer (.demoOpen current none) =
      .ok ({ s with device := ⟨.null, s.device.deviceOpened, s.device.jprobe && s.forkjp⟩ },
        some (.code (-ENOMEM))) := by
  have hzero : ¬ s.device.deviceOpened ≠ 0 := not_not.mpr h
  have hno : -ENOMEM ≠ 0 := by decide
  simp only [State.answer, if_pos hchrdev, Device.demoOpen, if_neg hzero, if_neg hno,
    if_neg (not_and_of_not_left _ hno)]

theorem answer_opened (hchrdev : s.chrdev = true) (h : s.device.deviceOpened = 0)
    (current : Task) (kmalloc : ProcessInfo) : s.answer (.demoOpen current (some kmalloc)) =
      .ok ({ s with
        device := ⟨.live { kmalloc with pid := current.pid, isValidKey := 0, isValidCallback := 0 },
          s.device.deviceOpened + 1, s.forkjp⟩
        handles := s.handles + 1
        refs := if s.phase.going = false then s.refs + 1 else s.refs }, some (.code 0)) := by
  have hzero : ¬ s.device.deviceOpened ≠ 0 := not_not.mpr h
  simp only [State.answer, if_pos hchrdev, Device.demoOpen, if_neg hzero, if_true, Bool.true_and,
    true_and]

theorem answer_released (hi : Inv s) (h : s.handles ≠ 0) : s.answer .demoRelease =
    .ok ({ s with
      device := ⟨.freed, s.device.deviceOpened - 1, false⟩
      handles := s.handles - 1
      refs := s.refs - 1 }, some (.code 0)) := by
  obtain ⟨pinfo, hpinfo⟩ := hi.live (Nat.pos_of_ne_zero h)
  simp only [State.answer, if_neg h, Device.demoRelease, hpinfo, Except.ok_bind]
  rfl

theorem answer_command {current : Task} {cmd : Command} {r : Device × Int}
    (h : s.handles ≠ 0) (hr : s.device.handleCommand current cmd = .ok r) :
    s.answer (.handleCommand current cmd) =
      .ok ({ s with device := r.1 }, some (.code r.2)) := by
  simp only [State.answer, if_neg h, hr, Except.ok_bind]
  rfl

theorem demoOpen (hi : Inv s) (current : Task) (kmalloc : Option ProcessInfo) :
    ∃ s' a, s.answer (.demoOpen current kmalloc) = .ok (s', a) ∧ Inv s' := by
  by_cases hchrdev : s.chrdev = true
  · by_cases hopened : s.device.deviceOpened = 0
    · have hnone := hi.handles_eq_zero hopened
      cases kmalloc with
      | none =>
        have hok := answer_noMemory hchrdev hopened current
        refine ⟨_, _, hok, hi.registered.answer hok, ⟨hi.sound.one, hi.sound.count, ?_⟩, ?_, ?_, ?_⟩
        · exact fun h => absurd hnone (Nat.pos_iff_ne_zero.mp h)
        · exact fun h => absurd hnone (Nat.pos_iff_ne_zero.mp h)
        · intro _ pinfo h
          cases h
        · exact fun _ h => hi.idle hnone (Bool.and_eq_true_iff.mp h).1
      | some kmalloc =>
        have hok := answer_opened hchrdev hopened current kmalloc
        refine ⟨_, _, hok, hi.registered.answer hok, ⟨?_, ?_, fun _ h => h⟩, fun _ => ⟨_, rfl⟩,
          fun h => ?_, fun h => ?_⟩
        · simp [hnone]
        · simp [hnone, hopened]
        · cases h
        · cases h
    · exact ⟨s, _, hi.answer_busy hchrdev hopened current kmalloc, hi⟩
  · exact ⟨s, none, by simp only [State.answer, if_neg hchrdev], hi⟩

theorem demoRelease (hi : Inv s) : ∃ s' a, s.answer .demoRelease = .ok (s', a) ∧ Inv s' := by
  by_cases hnone : s.handles = 0
  · exact ⟨s, none, by simp only [State.answer, if_pos hnone], hi⟩
  · have hone := hi.handles_eq_one hnone
    have hok := hi.answer_released hnone
    have hcount := hi.sound.count
    refine ⟨_, _, hok, hi.registered.answer hok, ⟨?_, ?_, fun h => ?_⟩, fun h => ?_, ?_, ?_⟩
    · simp [hone]
    · simp [hcount, hone]
    · simp [hone] at h
    · simp [hone] at h
    · intro _ pinfo h
      cases h
    · exact fun _ h => absurd h Bool.false_ne_true

theorem handleCommand (hi : Inv s) (current : Task) (cmd : Command) :
    ∃ s' a, s.answer (.handleCommand current cmd) = .ok (s', a) ∧ Inv s' := by
  by_cases hnone : s.handles = 0
  · exact ⟨s, none, by simp only [State.answer, if_pos hnone], hi⟩
  · obtain ⟨pinfo, hpinfo⟩ := hi.live (Nat.pos_of_ne_zero hnone)
    obtain ⟨r, hr⟩ := handleCommand_live hpinfo current cmd
    have hok := answer_command hnone hr
    obtain ⟨p, p', -, hdevice, -⟩ := Device.handleCommand_ok hr
    refine ⟨_, _, hok, hi.registered.answer hok, ?_, fun _ => ⟨p', by rw [hdevice]⟩,
      fun h => absurd h hnone, fun h => absurd h hnone⟩
    rw [hdevice]
    exact ⟨hi.sound.one, hi.sound.count, hi.sound.probe⟩

theorem wakeUpNewTask (hi : Inv s) {t : Creation} (hheld : s.device.jprobe = true → 0 < s.handles) :
    ∃ regs, s.answer (.wakeUpNewTask t) = .ok (s, some (.regs regs)) := by
  cases hon : s.device.jprobe with
  | false => exact ⟨t.regs, by simp [State.answer, Device.wakeUpNewTask, hon]⟩
  | true =>
    obtain ⟨pinfo, hpinfo⟩ := hi.live (hheld hon)
    exact ⟨forkCallback pinfo t, by simp [State.answer, Device.wakeUpNewTask, hon, hpinfo]⟩

theorem answer (hi : Inv s) {e : Event} (hu : Undisturbed s (.call e)) :
    ∃ s' a, s.answer e = .ok (s', a) ∧ Inv s' := by
  cases e with
  | demoOpen current kmalloc => exact hi.demoOpen current kmalloc
  | demoRelease => exact hi.demoRelease
  | handleCommand current cmd => exact hi.handleCommand current cmd
  | wakeUpNewTask t =>
    obtain ⟨regs, hok⟩ := hi.wakeUpNewTask (t := t) hu
    exact ⟨s, _, hok, hi⟩

/-- Loading or unloading goes on, and nothing changes for a handle. -/
theorem moved (hi : Inv s) (hphase : s.phase ≠ .disableJprobe) (hdevice : s'.device = s.device)
    (hhandles : s'.handles = s.handles) (hforkjp : s'.forkjp = s.forkjp) (hr : Registered s') :
    Inv s' where
  registered := hr
  sound := hi.sound.congr hdevice hhandles hforkjp
  live := by
    rw [hhandles, hdevice]
    exact hi.live
  free := by
    rw [hhandles, hdevice]
    exact hi.free
  idle := by
    rw [hhandles, hdevice]
    exact fun hnone hon => absurd (hi.idle hnone hon) hphase

/-- The globals are as the module's image has them, and nobody has a handle. -/
theorem fresh (hdevice : s.device = .init) (hnone : s.handles = 0) (hr : Registered s) : Inv s where
  registered := hr
  sound := by
    refine ⟨by omega, ?_, fun h => absurd hnone (Nat.pos_iff_ne_zero.mp h)⟩
    rw [hdevice, hnone]
    rfl
  live h := absurd hnone (Nat.pos_iff_ne_zero.mp h)
  free _ pinfo h := by
    rw [hdevice] at h
    cases h
  idle _ h := by
    rw [hdevice] at h
    cases h

/-- While the module is unloaded everything stays as it is for a handle, but that in the end the
probe goes. -/
theorem cleanupModule (hi : Inv s) (hu : Undisturbed s .cleanupModule) :
    ∃ s', s.cleanupModule = .ok s' ∧ Inv s' := by
  suffices h : ∃ s', s.cleanupModule = .ok s' ∧ (Registered s' → Inv s') by
    obtain ⟨s', hok, hi'⟩ := h
    exact ⟨s', hok, hi' (hi.registered.cleanupModule hok)⟩
  unfold Undisturbed at hu
  unfold State.cleanupModule
  cases hphase : s.phase with
  | loaded =>
    dsimp only
    split_ifs with hnone
    · exact ⟨_, rfl, hi.moved (by simp [hphase]) rfl rfl rfl⟩
    · exact ⟨_, rfl, fun _ => hi⟩
  | deviceDestroy | classDestroy | unregisterChrdev =>
    exact ⟨_, rfl, hi.moved (by simp [hphase]) rfl rfl rfl⟩
  | unregisterJprobe =>
    exact ⟨_, rfl, fun hr => ⟨hr, ⟨hi.sound.one, hi.sound.count, fun _ h => (by cases h)⟩, hi.live,
      hi.free, fun _ h => (by cases h)⟩⟩
  | gone =>
    have hnone : s.handles = 0 := by rwa [hphase] at hu
    dsimp only
    rw [if_pos hnone]
    exact ⟨_, rfl, hi.moved (by simp [hphase]) rfl rfl rfl⟩
  | _ => exact ⟨s, rfl, fun _ => hi⟩

/-- What registers the probe also enables it, for the handle if there is one. -/
theorem initModule (hi : Inv s) {ret : Int} (hu : Undisturbed s (.initModule ret)) :
    ∃ s', s.initModule ret = .ok s' ∧ Inv s' := by
  suffices h : ∃ s', s.initModule ret = .ok s' ∧ (Registered s' → Inv s') by
    obtain ⟨s', hok, hi'⟩ := h
    exact ⟨s', hok, hi' (hi.registered.initModule hok)⟩
  unfold Undisturbed at hu
  unfold State.initModule
  cases hphase : s.phase with
  | unloaded old =>
    have hnone : s.handles = 0 := by
      rw [hi.registered.unloaded hphase]
      rfl
    dsimp only
    split_ifs with hret
    · exact ⟨_, rfl, Inv.fresh rfl hnone⟩
    · exact ⟨_, rfl, Inv.fresh rfl hnone⟩
  | classCreate | deviceCreate =>
    dsimp only
    split_ifs with hret
    · exact ⟨_, rfl, hi.moved (by simp [hphase]) rfl rfl rfl⟩
    · exact ⟨_, rfl, hi.moved (by simp [hphase]) rfl rfl rfl⟩
  | atomicSet =>
    have hnone : s.handles = 0 := by rwa [hphase] at hu
    have hset : ({ s.device with deviceOpened := 0 } : Device) = s.device := by
      have hzero : s.device.deviceOpened = 0 := by simp [hi.sound.count, hnone]
      rw [← hzero]
    exact ⟨_, rfl, hi.moved (by simp [hphase]) hset rfl rfl⟩
  | registerJprobe =>
    dsimp only
    split_ifs with hret
    · exact ⟨_, rfl, hi.moved (by simp [hphase]) rfl rfl rfl⟩
    · exact ⟨_, rfl, fun hr => ⟨hr, ⟨hi.sound.one, hi.sound.count, fun _ _ => rfl⟩, hi.live,
        hi.free, fun _ _ => rfl⟩⟩
  | disableJprobe =>
    refine ⟨_, rfl, fun hr => ⟨hr, ⟨hi.sound.one, hi.sound.count, fun hheld hprobe => ?_⟩, hi.live,
      hi.free, fun _ h => absurd h Bool.false_ne_true⟩⟩
    rw [hphase] at hu
    cases hu with
    | inl hnone => exact absurd hnone (Nat.pos_iff_ne_zero.mp hheld)
    | inr hno => exact hno.symm.trans hprobe
  | errorDevice err | errorClass err =>
    exact ⟨_, rfl, hi.moved (by simp [hphase]) rfl rfl rfl⟩
  | errorRegdev err =>
    have hnone : s.handles = 0 := by rwa [hphase] at hu
    dsimp only
    rw [if_pos hnone]
    exact ⟨_, rfl, hi.moved (by simp [hphase]) rfl rfl rfl⟩
  | _ => exact ⟨s, rfl, fun _ => hi⟩

theorem step (hi : Inv s) {m : Move} (hu : Undisturbed s m) : ∃ s', s.step m = .ok s' ∧ Inv s' := by
  cases m with
  | initModule ret => exact hi.initModule hu
  | cleanupModule => exact hi.cleanupModule hu
  | call e =>
    obtain ⟨s', a, hok, hi'⟩ := hi.answer hu
    refine ⟨s', ?_, hi'⟩
    rw [State.step, hok]
    rfl

/-- A step that is disturbed goes wrong at once. -/
theorem undisturbed (hi : Inv s) {m : Move} (h : s.step m = .ok s') (hs : Sound s') :
    Undisturbed s m := by
  cases m with
  | initModule ret =>
    unfold Undisturbed
    simp only [State.step, State.initModule] at h
    cases hphase : s.phase with
    | atomicSet =>
      simp only [hphase] at h
      cases h
      have hcount := hs.count
      simp at hcount
      omega
    | disableJprobe =>
      simp only [hphase] at h
      cases h
      cases hprobe : s.forkjp with
      | false => exact .inr rfl
      | true =>
        left
        by_contra hnone
        exact absurd (hs.probe (Nat.pos_of_ne_zero hnone) hprobe) Bool.false_ne_true
    | errorRegdev err =>
      simp only [hphase] at h
      split_ifs at h with hnone
      exact hnone
    | _ => trivial
  | cleanupModule =>
    unfold Undisturbed
    simp only [State.step, State.cleanupModule] at h
    cases hphase : s.phase with
    | gone =>
      simp only [hphase] at h
      split_ifs at h with hnone
      exact hnone
    | _ => trivial
  | call e =>
    cases e with
    | wakeUpNewTask t =>
      intro hon
      by_contra hnone
      have hfree := hi.free (by omega)
      simp only [State.step, State.answer, Device.wakeUpNewTask, if_pos hon] at h
      cases hpinfo : s.device.pinfo with
      | live pinfo => exact hfree pinfo hpinfo
      | _ =>
        rw [hpinfo] at h
        cases h
    | _ => trivial

theorem run (h : Meets State.step Undisturbed .init moves) (hrun : State.run moves = .ok s) :
    Inv s :=
  h.invariant (fun _ _ hi hu => hi.step hu) init hrun

end Inv

/-- At every moment of a run there is one owner at most, counted and under the probe, exactly when
nobody disturbs the loading. And whatever fails and whoever calls, of a module that is not loaded
nothing is left. -/
theorem loading_sound_iff (moves : List Move) :
    (SafeAlong State.step Sound .init moves ↔ Meets State.step Undisturbed .init moves) ∧
      ∀ s ret, State.run moves = .ok s → s.phase = .unloaded ret →
        s = { State.init with device := s.device, phase := .unloaded ret } := by
  constructor
  · exact safeAlong_iff_meets (fun _ hi => hi.sound) (fun _ _ hi hu => hi.step hu)
      (fun _ _ _ hi hok hs => hi.undisturbed hok hs) Inv.init moves
  · exact fun _ _ hrun hphase => (Registered.run hrun).unloaded hphase

/-- A load that nothing disturbs, with what `register_jprobe` returns. -/
def load (ret : Int) : List Move :=
  [.initModule 240, .initModule 0, .initModule 0, .initModule 0, .initModule ret, .initModule 0]

/-- Task 100 opens the device when it is there, and before it is said that nobody has. -/
def earlyOpen : List Move :=
  [.initModule 240, .initModule 0, .initModule 0,
   .call (.demoOpen ⟨100, 100⟩ (some ⟨0, 0, 0, 0, 0⟩)),
   .initModule 0,
   .call (.demoOpen ⟨7, 7⟩ (some ⟨0, 0, 0, 0, 0⟩))]

/-- Task 100 opens the device while the module is unloaded. The kernel does not count that. -/
def lateOpen : List Move :=
  load 0 ++ [.cleanupModule, .cleanupModule,
    .call (.demoOpen ⟨100, 100⟩ (some ⟨0, 0, 0, 0, 0⟩)),
    .cleanupModule, .cleanupModule, .cleanupModule]

/-- The early open shares the device; the late one is sound until the module goes, and to the end
if it is released before. -/
theorem early_and_late_open :
    ((∃ s, State.run earlyOpen = .ok s ∧ s.handles = 2) ∧
      ¬ SafeAlong State.step Sound .init earlyOpen) ∧
    SafeAlong State.step Sound .init lateOpen ∧
    State.run (lateOpen ++ [.cleanupModule]) = .error .useAfterFree ∧
    SafeAlong State.step Sound .init (lateOpen ++ [.call .demoRelease, .cleanupModule]) := by
  refine ⟨⟨⟨_, rfl, rfl⟩, fun h => ?_⟩, ?_, rfl, ?_⟩
  · have hmeets := (loading_sound_iff earlyOpen).1.mp h
    have hset := ((((hmeets.2 _ rfl).2 _ rfl).2 _ rfl).2 _ rfl).1
    cases hset
  · apply (loading_sound_iff lateOpen).1.mpr
    exact .cons trivial rfl (.cons trivial rfl (.cons trivial rfl (.cons rfl rfl
      (.cons trivial rfl (.cons (.inl rfl) rfl (.cons trivial rfl (.cons trivial rfl
      (.cons trivial rfl (.cons trivial rfl (.cons trivial rfl (.cons trivial rfl
        trivial)))))))))))
  · apply (loading_sound_iff _).1.mpr
    exact .cons trivial rfl (.cons trivial rfl (.cons trivial rfl (.cons rfl rfl
      (.cons trivial rfl (.cons (.inl rfl) rfl (.cons trivial rfl (.cons trivial rfl
      (.cons trivial rfl (.cons trivial rfl (.cons trivial rfl (.cons trivial rfl
      (.cons trivial rfl (.cons rfl rfl trivial)))))))))))))

/-- With its probe the module does what the device does by itself, or it is not called. -/
theorem device_step {s s' : State} (hprobe : s.forkjp = true) {e : Event}
    (h : s.step (.call e) = .ok s') : s' = s ∨ s.device.step e = .ok s'.device := by
  obtain ⟨⟨s₁, a⟩, hok, h⟩ := Except.bind_eq_ok.mp h
  cases h
  cases e with
  | demoOpen current kmalloc =>
    simp only [State.answer, hprobe, Bool.and_true] at hok
    by_cases hchrdev : s.chrdev = true
    · rw [if_pos hchrdev] at hok
      obtain ⟨rfl, -⟩ := Prod.mk.inj (Except.ok.inj hok)
      exact .inr rfl
    · rw [if_neg hchrdev] at hok
      exact .inl (Prod.mk.inj (Except.ok.inj hok)).1.symm
  | demoRelease =>
    simp only [State.answer] at hok
    split_ifs at hok with hnone
    · exact .inl (Prod.mk.inj (Except.ok.inj hok)).1.symm
    · obtain ⟨r, hr, hok⟩ := Except.bind_eq_ok.mp hok
      obtain ⟨rfl, -⟩ := Prod.mk.inj (Except.ok.inj hok)
      right
      rw [Device.step, hr]
      rfl
  | handleCommand current cmd =>
    simp only [State.answer] at hok
    split_ifs at hok with hnone
    · exact .inl (Prod.mk.inj (Except.ok.inj hok)).1.symm
    · obtain ⟨r, hr, hok⟩ := Except.bind_eq_ok.mp hok
      obtain ⟨rfl, -⟩ := Prod.mk.inj (Except.ok.inj hok)
      right
      rw [Device.step, hr]
      rfl
  | wakeUpNewTask t =>
    obtain ⟨regs, -, hok⟩ := Except.bind_eq_ok.mp hok
    exact .inl (Prod.mk.inj (Except.ok.inj hok)).1.symm

/-- The runs of a module with its probe are runs of the device. -/
theorem device_run {s s' : State} (hprobe : s.forkjp = true) {calls : List Event}
    (h : (calls.map Move.call).foldlM State.step s = .ok s') :
    ∃ events : List Event, events.Sublist calls ∧
      events.foldlM Device.step s.device = .ok s'.device := by
  induction calls generalizing s with
  | nil =>
    cases h
    exact ⟨[], .slnil, rfl⟩
  | cons e calls ih =>
    rw [List.map_cons, List.foldlM_cons] at h
    obtain ⟨s₁, hstep, h⟩ := Except.bind_eq_ok.mp h
    have hprobe₁ : s₁.forkjp = true := by
      obtain ⟨⟨s₂, a⟩, hok, hstep⟩ := Except.bind_eq_ok.mp hstep
      cases hstep
      obtain ⟨d, n, r, rfl, -⟩ := answer_frame hok
      exact hprobe
    obtain ⟨events, hsub, hrun⟩ := ih hprobe₁ h
    cases device_step hprobe hstep with
    | inl hsame =>
      subst hsame
      exact ⟨events, hsub.cons e, hrun⟩
    | inr hdevice =>
      refine ⟨e :: events, hsub.cons_cons e, ?_⟩
      rw [List.foldlM_cons, hdevice, Except.ok_bind, hrun]

/-! ## A probe that is not there -/

/-- A task is created. All else is a call of the module. -/
def creates : Event → Bool
  | .wakeUpNewTask _ => true
  | _ => false

/-- Two modules that are loaded, with the same record for the handle, if there is one. -/
structure Twins (s s' : State) : Prop where
  inv : Inv s
  inv' : Inv s'
  loaded : s.phase = .loaded
  loaded' : s'.phase = .loaded
  handles : s.handles = s'.handles
  pinfo : s.handles ≠ 0 → s.device.pinfo = s'.device.pinfo

/-- What a command does to the record and what it returns is read off the record. -/
theorem handleCommand_congr {d d' : Device} (h : d.pinfo = d'.pinfo) (current : Task)
    (cmd : Command) {r r' : Device × Int} (hr : d.handleCommand current cmd = .ok r)
    (hr' : d'.handleCommand current cmd = .ok r') : r.1.pinfo = r'.1.pinfo ∧ r.2 = r'.2 := by
  cases hpinfo : d.pinfo with
  | live pinfo =>
    have hpinfo' := h.symm.trans hpinfo
    simp only [Device.handleCommand, hpinfo, hpinfo'] at hr hr'
    split_ifs at hr hr' <;> cases hr <;> cases hr' <;> simp [h]
  | _ =>
    simp only [Device.handleCommand, hpinfo] at hr
    cases hr

namespace Inv

variable {s s' : State}

theorem chrdev (hi : Inv s) (hloaded : s.phase = .loaded) : s.chrdev = true := by
  have hres := hi.registered.resources
  rw [hloaded] at hres
  exact (Prod.mk.inj hres).1

/-- Once it is loaded nothing disturbs it. -/
theorem undisturbed_call (hi : Inv s) (hloaded : s.phase = .loaded) (e : Event) :
    Undisturbed s (.call e) := by
  cases e with
  | wakeUpNewTask t =>
    intro hon
    apply Nat.pos_of_ne_zero
    intro hnone
    have hlate := hi.idle hnone hon
    rw [hloaded] at hlate
    cases hlate
  | _ => trivial

theorem answered (hi : Inv s) (hloaded : s.phase = .loaded) {e : Event} {a : Option Answer}
    (h : s.answer e = .ok (s', a)) : Inv s' ∧ s'.phase = .loaded := by
  obtain ⟨s₁, a₁, hok, hi₁⟩ := hi.answer (hi.undisturbed_call hloaded e)
  obtain ⟨rfl, -⟩ := Prod.mk.inj (Except.ok.inj (hok.symm.trans h))
  obtain ⟨d, n, r, rfl, -⟩ := answer_frame h
  exact ⟨hi₁, hloaded⟩

end Inv

namespace Twins

variable {s s' : State}

theorem symm (h : Twins s s') : Twins s' s where
  inv := h.inv'
  inv' := h.inv
  loaded := h.loaded'
  loaded' := h.loaded
  handles := h.handles.symm
  pinfo hheld := (h.pinfo (by rwa [h.handles])).symm

/-- The answers to one call leave twins. -/
theorem answered (h : Twins s s') {t t' : State} {e : Event} {a : Option Answer}
    (hok : s.answer e = .ok (t, a)) (hok' : s'.answer e = .ok (t', a))
    (hhandles : t.handles = t'.handles)
    (hpinfo : t.handles ≠ 0 → t.device.pinfo = t'.device.pinfo) :
    ∃ t t' a, s.answer e = .ok (t, a) ∧ s'.answer e = .ok (t', a) ∧ Twins t t' :=
  ⟨t, t', a, hok, hok', (h.inv.answered h.loaded hok).1, (h.inv'.answered h.loaded' hok').1,
    (h.inv.answered h.loaded hok).2, (h.inv'.answered h.loaded' hok').2, hhandles, hpinfo⟩

theorem answer_call (h : Twins s s') {e : Event} (hcall : creates e = false) :
    ∃ t t' a, s.answer e = .ok (t, a) ∧ s'.answer e = .ok (t', a) ∧ Twins t t' := by
  cases e with
  | demoOpen current kmalloc =>
    have hchrdev := h.inv.chrdev h.loaded
    have hchrdev' := h.inv'.chrdev h.loaded'
    have hopened : s.device.deviceOpened = s'.device.deviceOpened := by
      rw [h.inv.sound.count, h.inv'.sound.count, h.handles]
    by_cases hfree : s.device.deviceOpened = 0
    · have hfree' := hopened.symm.trans hfree
      cases kmalloc with
      | none =>
        exact h.answered (Inv.answer_noMemory hchrdev hfree current)
          (Inv.answer_noMemory hchrdev' hfree' current) h.handles fun _ => rfl
      | some kmalloc =>
        exact h.answered (Inv.answer_opened hchrdev hfree current kmalloc)
          (Inv.answer_opened hchrdev' hfree' current kmalloc)
          (congrArg (· + 1) h.handles) fun _ => rfl
    · have hfree' : s'.device.deviceOpened ≠ 0 := by rwa [← hopened]
      exact h.answered (h.inv.answer_busy hchrdev hfree current kmalloc)
        (h.inv'.answer_busy hchrdev' hfree' current kmalloc) h.handles h.pinfo
  | demoRelease =>
    by_cases hnone : s.handles = 0
    · have hnone' := h.handles.symm.trans hnone
      exact ⟨s, s', none, by simp only [State.answer, if_pos hnone],
        by simp only [State.answer, if_pos hnone'], h⟩
    · have hnone' : s'.handles ≠ 0 := by rwa [← h.handles]
      exact h.answered (h.inv.answer_released hnone) (h.inv'.answer_released hnone')
        (congrArg (· - 1) h.handles) fun _ => rfl
  | handleCommand current cmd =>
    by_cases hnone : s.handles = 0
    · have hnone' := h.handles.symm.trans hnone
      exact ⟨s, s', none, by simp only [State.answer, if_pos hnone],
        by simp only [State.answer, if_pos hnone'], h⟩
    · have hnone' : s'.handles ≠ 0 := by rwa [← h.handles]
      obtain ⟨pinfo, hpinfo⟩ := h.inv.live (Nat.pos_of_ne_zero hnone)
      have hsame := h.pinfo hnone
      obtain ⟨r, hr⟩ := handleCommand_live hpinfo current cmd
      obtain ⟨r', hr'⟩ := handleCommand_live (hsame.symm.trans hpinfo) current cmd
      obtain ⟨hrecord, hret⟩ := handleCommand_congr hsame current cmd hr hr'
      have hok := Inv.answer_command hnone hr
      have hok' := Inv.answer_command hnone' hr'
      rw [← hret] at hok'
      exact h.answered hok hok' h.handles fun _ => hrecord
  | wakeUpNewTask t => cases hcall

theorem unwinding : Unwinding State.answer (fun e => !creates e) (fun _ => True) Twins where
  symm _ _ := symm
  hidden s s' e h _ hcreates := by
    cases e with
    | wakeUpNewTask t =>
      obtain ⟨regs, hok⟩ :=
        h.inv.wakeUpNewTask (t := t) (h.inv.undisturbed_call h.loaded (.wakeUpNewTask t))
      exact ⟨s, _, hok, h⟩
    | _ => cases hcreates
  alike _ _ _ h _ hcall := h.answer_call (by simpa using hcall)

end Twins

/-- From the answers nobody can tell whether `register_jprobe` has failed: of two modules that are
loaded and free, runs with the same calls are answered alike, whatever tasks are created in
between. But without a probe every task starts as it was made. -/
theorem probe_failure_unnoticed {past past' : List Move} {s s' : State}
    (hmeets : Meets State.step Undisturbed .init past)
    (hmeets' : Meets State.step Undisturbed .init past') (hrun : State.run past = .ok s)
    (hrun' : State.run past' = .ok s') (hloaded : s.phase = .loaded)
    (hloaded' : s'.phase = .loaded) (hfree : s.handles = 0) (hfree' : s'.handles = 0)
    (hprobe : s'.forkjp = false) {events events' : List Event}
    (hcalls : events.filter (fun e => !creates e) = events'.filter fun e => !creates e) :
    (∃ t t' answers,
      observe State.answer (fun e => !creates e) s events = .ok (t, answers) ∧
      observe State.answer (fun e => !creates e) s' events' = .ok (t', answers)) ∧
    ∃ t', observe State.answer creates s' events' =
      .ok (t', (events'.filter creates).map fun e => some e.refusal) := by
  have hi := Inv.run hmeets hrun
  have hi' := Inv.run hmeets' hrun'
  constructor
  · have htwins : Twins s s' :=
      ⟨hi, hi', hloaded, hloaded', hfree.trans hfree'.symm, fun h => absurd hfree h⟩
    obtain ⟨t, t', answers, hok, hok', -⟩ :=
      Twins.unwinding.noninterference htwins (fun _ _ => trivial) (fun _ _ => trivial) hcalls
    exact ⟨t, t', answers, hok, hok'⟩
  · -- without a probe the hook is off in every state, and it is not asked
    have hstep (u : State) (e : Event) (hu : Inv u ∧ u.phase = .loaded ∧ u.forkjp = false)
        (_ : True) : ∃ u' a, u.answer e = .ok (u', a) ∧
          (Inv u' ∧ u'.phase = .loaded ∧ u'.forkjp = false) ∧
          (creates e = true → a = some e.refusal) := by
      obtain ⟨hu, hloaded, hoff⟩ := hu
      obtain ⟨u', a, hok, hu'⟩ := hu.answer (hu.undisturbed_call hloaded e)
      obtain ⟨d, n, r, rfl, -⟩ := answer_frame hok
      refine ⟨_, a, hok, ⟨hu', hloaded, hoff⟩, fun hcreates => ?_⟩
      cases e with
      | wakeUpNewTask t =>
        have hjprobe : u.device.jprobe = false := by
          rw [Bool.eq_false_iff]
          exact fun hon => absurd (hu.registered.jprobe hon) (by simp [hoff])
        simp only [State.answer, Device.wakeUpNewTask, hjprobe, Bool.false_eq_true, if_false,
          Except.ok_bind] at hok
        exact (Prod.mk.inj (Except.ok.inj hok)).2.symm
      | _ => cases hcreates
    exact Noninterference.observe_eq_map hstep ⟨hi', hloaded', hprobe⟩ fun _ _ => trivial

/-- With an open device, a callback and a key, a thread without the key starts as it was made. -/
def threadWithoutKey : List Event :=
  [.demoOpen ⟨100, 100⟩ (some ⟨0, 0, 0, 0, 0⟩),
   .handleCommand ⟨100, 100⟩ ⟨2, 0x401000⟩,
   .handleCommand ⟨100, 100⟩ ⟨0, 77⟩,
   .wakeUpNewTask ⟨⟨100, 100⟩, ⟨101, 100⟩, ⟨0x402000, 0x7f0000001f00⟩, fun _ => 5⟩]

theorem failed_probe_unnoticed : ∃ s s' : State,
    State.run (load 0) = .ok s ∧ State.run (load (-22)) = .ok s' ∧
    (∃ t t' answers,
      observe State.answer (fun e => !creates e) s threadWithoutKey = .ok (t, answers) ∧
      observe State.answer (fun e => !creates e) s' threadWithoutKey = .ok (t', answers)) ∧
    ∃ t', observe State.answer creates s' threadWithoutKey =
      .ok (t', (threadWithoutKey.filter creates).map fun e => some e.refusal) := by
  have hmeets : Meets State.step Undisturbed .init (load 0) :=
    .cons trivial rfl (.cons trivial rfl (.cons trivial rfl (.cons rfl rfl
      (.cons trivial rfl (.cons (.inl rfl) rfl trivial)))))
  have hmeets' : Meets State.step Undisturbed .init (load (-22)) :=
    .cons trivial rfl (.cons trivial rfl (.cons trivial rfl (.cons rfl rfl
      (.cons trivial rfl (.cons (.inl rfl) rfl trivial)))))
  exact ⟨_, _, rfl, rfl, probe_failure_unnoticed hmeets hmeets' rfl rfl rfl rfl rfl rfl rfl rfl⟩

end Bootcamp.Sthreads.Loading
