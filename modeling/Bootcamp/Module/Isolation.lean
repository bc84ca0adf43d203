import Bootcamp.Lib.Noninterference
import Bootcamp.Module.Sthreads

/-! What the module answers to the task that holds the device and to all others: neither side has
any influence on the other. -/
namespace Bootcamp.Sthreads

open Noninterference (observe Unwinding)

/-- The task that calls. The kernel releases the device when the last handle of the holder is
closed, and that is nobody's call here. -/
def Event.caller : Event → Option Int
  | .demoOpen current _ => some current.pid
  | .demoRelease => none
  | .handleCommand current _ => some current.pid
  | .wakeUpNewTask t => some t.current.pid

def Event.by (pid : Int) (e : Event) : Bool := e.caller = some pid

/-- What a caller gets back: a number, or the registers of the task that it creates. -/
inductive Answer
  | code (ret : Int)
  | regs (regs : PtRegs)

namespace Device

def answer (d : Device) : Event → Except Oops (Device × Answer)
  | .demoOpen current kmalloc =>
    .ok ((d.demoOpen current kmalloc).1, .code (d.demoOpen current kmalloc).2)
  | .demoRelease => do
    let (d, ret) ← d.demoRelease
    return (d, .code ret)
  | .handleCommand current cmd => do
    let (d, ret) ← d.handleCommand current cmd
    return (d, .code ret)
  | .wakeUpNewTask t => do
    let regs ← d.wakeUpNewTask t
    return (d, .regs regs)

/-- A step that is answered. -/
theorem step_of_answer (d : Device) (e : Event) (d' : Device) (a : Answer)
    (h : d.answer e = .ok (d', a)) : d.step e = .ok d' := by
  cases e with
  | demoOpen current kmalloc =>
    obtain ⟨rfl, -⟩ := Prod.mk.inj (Except.ok.inj h)
    rfl
  | demoRelease =>
    obtain ⟨r, hr, h⟩ := Except.bind_eq_ok.mp h
    obtain ⟨rfl, -⟩ := Prod.mk.inj (Except.ok.inj h)
    rw [step, hr]
    rfl
  | handleCommand current cmd =>
    obtain ⟨r, hr, h⟩ := Except.bind_eq_ok.mp h
    obtain ⟨rfl, -⟩ := Prod.mk.inj (Except.ok.inj h)
    rw [step, hr]
    rfl
  | wakeUpNewTask t =>
    obtain ⟨regs, hregs, h⟩ := Except.bind_eq_ok.mp h
    obtain ⟨rfl, -⟩ := Prod.mk.inj (Except.ok.inj h)
    rw [step, hregs]
    rfl

end Device

/-! ## What a holder can see -/

/-- Two records with the same registrations. What is not registered is what the memory held. -/
structure ProcessInfo.Alike (p q : ProcessInfo) : Prop where
  pid : p.pid = q.pid
  isValidKey : p.isValidKey = q.isValidKey
  isValidCallback : p.isValidCallback = q.isValidCallback
  key : p.isValidKey ≠ 0 → p.key = q.key
  callback : p.isValidCallback ≠ 0 → p.errorCallback = q.errorCallback

theorem ProcessInfo.Alike.symm {p q : ProcessInfo} (h : p.Alike q) : q.Alike p where
  pid := h.pid.symm
  isValidKey := h.isValidKey.symm
  isValidCallback := h.isValidCallback.symm
  key hq := (h.key (h.isValidKey ▸ hq)).symm
  callback hq := (h.callback (h.isValidCallback ▸ hq)).symm

theorem forkCallback_alike {p q : ProcessInfo} (h : p.Alike q) (t : Creation) :
    forkCallback p t = forkCallback q t := by
  have hcallback : p.isValidCallback ≠ 0 → p.errorCallback = q.errorCallback := h.callback
  have hkey : p.isValidKey ≠ 0 → p.key = q.key := h.key
  unfold forkCallback
  rw [h.pid, h.isValidKey, h.isValidCallback] at *
  by_cases hk : q.isValidKey = 0
  · by_cases hc : q.isValidCallback = 0
    · simp [hk, hc]
    · simp [hk, hc, hcallback hc]
  · by_cases hc : q.isValidCallback = 0
    · simp [hk, hc]
    · simp [hk, hc, hcallback hc, hkey hk]

/-- A command of the holder leaves alike what was alike. -/
theorem handleCommand_alike {p q : ProcessInfo} (h : p.Alike q) {current : Task}
    (hown : current.pid = p.pid) (cmd : Command) : ∃ p' q' ret,
      (⟨.live p, 1, true⟩ : Device).handleCommand current cmd = .ok (⟨.live p', 1, true⟩, ret) ∧
      (⟨.live q, 1, true⟩ : Device).handleCommand current cmd = .ok (⟨.live q', 1, true⟩, ret) ∧
      p'.pid = p.pid ∧ p'.Alike q' := by
  have hsame : ¬ current.pid ≠ p.pid := not_not.mpr hown
  have hsame' : ¬ current.pid ≠ q.pid := not_not.mpr (hown.trans h.pid)
  simp only [Device.handleCommand, if_neg hsame, if_neg hsame']
  split_ifs
  · exact ⟨_, _, _, rfl, rfl, rfl, h.pid, rfl, h.isValidCallback, fun _ => rfl, h.callback⟩
  · exact ⟨_, _, _, rfl, rfl, rfl, h.pid, rfl, h.isValidCallback, fun hk => absurd rfl hk,
      h.callback⟩
  · exact ⟨_, _, _, rfl, rfl, rfl, h.pid, h.isValidKey, rfl, h.key, fun _ => rfl⟩
  · exact ⟨_, _, _, rfl, rfl, rfl, h.pid, h.isValidKey, rfl, h.key, fun hc => absurd rfl hc⟩
  · exact ⟨_, _, _, rfl, rfl, rfl, h⟩

/-- The task holds both devices, and cannot tell them apart. -/
inductive HeldAlike (pid : Int) : Device → Device → Prop
  | mk {p q : ProcessInfo} : p.pid = pid → p.Alike q →
      HeldAlike pid ⟨.live p, 1, true⟩ ⟨.live q, 1, true⟩

/-- What a task is told that does not hold the device. -/
def Event.refusal : Event → Answer
  | .demoOpen _ _ => .code (-EBUSY)
  | .demoRelease => .code 0
  | .handleCommand _ _ => .code (-EPERM)
  | .wakeUpNewTask t => .regs t.regs

namespace HeldAlike

variable {pid : Int} {d d' : Device} {e : Event}

theorem symm (h : HeldAlike pid d d') : HeldAlike pid d' d := by
  obtain ⟨hpid, halike⟩ := h
  exact ⟨halike.pid ▸ hpid, halike.symm⟩

/-- An open finds the device free or it is refused. -/
theorem opened {current : Task} (hfree : d.deviceOpened = 0) (hfree' : d'.deviceOpened = 0)
    (kmalloc kmalloc' : ProcessInfo) :
    HeldAlike current.pid (d.demoOpen current (some kmalloc)).1
      (d'.demoOpen current (some kmalloc')).1 := by
  simp only [Device.demoOpen, hfree, hfree', ne_eq, not_true_eq_false, if_false]
  exact ⟨rfl, rfl, rfl, rfl, fun h => absurd rfl h, fun h => absurd rfl h⟩

/-- All others are refused. -/
theorem answer_other (h : HeldAlike pid d d') (hcaller : e.caller ≠ none)
    (hother : e.by pid = false) : d.answer e = .ok (d, e.refusal) := by
  obtain @⟨p, q, rfl, -⟩ := h
  cases e with
  | demoOpen current kmalloc => rfl
  | demoRelease => exact absurd rfl hcaller
  | handleCommand current cmd =>
    have hne : current.pid ≠ p.pid := by simpa [Event.by, Event.caller] using hother
    simp only [Device.answer, Device.handleCommand, if_pos hne]
    rfl
  | wakeUpNewTask t =>
    have hne : t.current.pid ≠ p.pid := by simpa [Event.by, Event.caller] using hother
    simp only [Device.answer, Device.wakeUpNewTask, if_true, forkCallback_other hne]
    rfl

/-- The holder is answered alike. -/
theorem answer_own (h : HeldAlike pid d d') (hown : e.by pid = true) :
    ∃ s s' a, d.answer e = .ok (s, a) ∧ d'.answer e = .ok (s', a) ∧ HeldAlike pid s s' := by
  obtain @⟨p, q, rfl, halike⟩ := h
  cases e with
  | demoOpen current kmalloc => exact ⟨_, _, _, rfl, rfl, rfl, halike⟩
  | demoRelease => simp [Event.by, Event.caller] at hown
  | handleCommand current cmd =>
    have hpid : current.pid = p.pid := by simpa [Event.by, Event.caller] using hown
    obtain ⟨p', q', ret, hok, hok', hpid', halike'⟩ := handleCommand_alike halike hpid cmd
    simp only [Device.answer, hok, hok', Except.ok_bind]
    exact ⟨_, _, _, rfl, rfl, hpid', halike'⟩
  | wakeUpNewTask t =>
    simp only [Device.answer, Device.wakeUpNewTask, if_true, forkCallback_alike halike]
    exact ⟨_, _, _, rfl, rfl, rfl, halike⟩

theorem unwinding (pid : Int) :
    Unwinding Device.answer (Event.by pid) (fun e => e.caller ≠ none) (HeldAlike pid) where
  symm _ _ := symm
  hidden _ _ _ h hcaller hother := ⟨_, _, h.answer_other hcaller hother, h⟩
  alike _ _ _ h _ hown := h.answer_own hown

end HeldAlike

/-- While a task holds the device nobody else has any influence on it, nor has it on them. Whatever
the device went through before, and whatever the memory of its record held: what the holder is
told, and from where the tasks start that it creates, depends on its own calls only. All others are
refused, and what they create starts as they made it. The other threads of the holder's process
are others as well. -/
theorem holder_isolated {d d' : Device} (hfree : d.deviceOpened = 0) (hfree' : d'.deviceOpened = 0)
    (current : Task) (kmalloc kmalloc' : ProcessInfo) {events events' : List Event}
    (hheld : ∀ e ∈ events, e.caller ≠ none) (hheld' : ∀ e ∈ events', e.caller ≠ none)
    (hown : events.filter (Event.by current.pid) = events'.filter (Event.by current.pid)) :
    (∃ s s' answers,
      observe Device.answer (Event.by current.pid) (d.demoOpen current (some kmalloc)).1 events =
        .ok (s, answers) ∧
      observe Device.answer (Event.by current.pid) (d'.demoOpen current (some kmalloc')).1 events' =
        .ok (s', answers)) ∧
    ∃ s, events.foldlM Device.step (d.demoOpen current (some kmalloc)).1 = .ok s ∧
      observe Device.answer (fun e => !e.by current.pid) (d.demoOpen current (some kmalloc)).1
        events = .ok (s, (events.filter fun e => !e.by current.pid).map Event.refusal) := by
  have hopened : HeldAlike current.pid _ _ := HeldAlike.opened hfree hfree' kmalloc kmalloc'
  constructor
  · obtain ⟨s, s', answers, hrun, hrun', -⟩ :=
      (HeldAlike.unwinding current.pid).noninterference hopened hheld hheld' hown
    exact ⟨s, s', answers, hrun, hrun'⟩
  · have hstep (s : Device) (e : Event) (hs : ∃ s', HeldAlike current.pid s s')
        (hcaller : e.caller ≠ none) : ∃ t a, s.answer e = .ok (t, a) ∧
          (∃ t', HeldAlike current.pid t t') ∧ ((!e.by current.pid) = true → a = e.refusal) := by
      obtain ⟨s', hs⟩ := hs
      cases he : e.by current.pid with
      | false => exact ⟨s, _, hs.answer_other hcaller he, ⟨s', hs⟩, fun _ => rfl⟩
      | true =>
        obtain ⟨t, t', a, hok, -, ht⟩ := hs.answer_own he
        exact ⟨t, a, hok, ⟨t', ht⟩, nofun⟩
    obtain ⟨s, hrun⟩ := Noninterference.observe_eq_map hstep ⟨_, hopened⟩ hheld
    exact ⟨s, Noninterference.foldlM_of_observe Device.step_of_answer hrun, hrun⟩

/-- Task 100 registers a callback and a key and creates a thread. -/
def holderCalls : List Event :=
  [.handleCommand ⟨100, 100⟩ ⟨2, 0x401000⟩,
   .handleCommand ⟨100, 100⟩ ⟨0, 77⟩,
   .wakeUpNewTask ⟨⟨100, 100⟩, ⟨101, 100⟩, ⟨0x402000, 0x7f0000001f00⟩, fun _ => 77⟩]

/-- The same calls, between them task 7, which tries to get the device, and the thread, which
forks. -/
def disturbedCalls : List Event :=
  [.demoOpen ⟨7, 7⟩ none,
   .handleCommand ⟨100, 100⟩ ⟨2, 0x401000⟩,
   .handleCommand ⟨7, 7⟩ ⟨3, 0⟩,
   .handleCommand ⟨100, 100⟩ ⟨0, 77⟩,
   .handleCommand ⟨7, 7⟩ ⟨0, 99⟩,
   .wakeUpNewTask ⟨⟨100, 100⟩, ⟨101, 100⟩, ⟨0x402000, 0x7f0000001f00⟩, fun _ => 77⟩,
   .wakeUpNewTask ⟨⟨101, 100⟩, ⟨102, 102⟩, ⟨0x403000, 0x7f0000001e00⟩, fun _ => 77⟩]

/-- The second time on a device that another task has released, and in memory with its record. -/
theorem disturbed_holder_isolated :
    (∃ s s' answers,
      observe Device.answer (Event.by 100)
        (Device.init.demoOpen ⟨100, 100⟩ (some ⟨0, 0, 0, 0, 0⟩)).1 disturbedCalls =
          .ok (s, answers) ∧
      observe Device.answer (Event.by 100)
        ((⟨.freed, 0, false⟩ : Device).demoOpen ⟨100, 100⟩ (some ⟨7, 1, 1, 99, 5⟩)).1 holderCalls =
          .ok (s', answers)) ∧
    ∃ s, disturbedCalls.foldlM Device.step
        (Device.init.demoOpen ⟨100, 100⟩ (some ⟨0, 0, 0, 0, 0⟩)).1 = .ok s ∧
      observe Device.answer (fun e => !e.by 100)
        (Device.init.demoOpen ⟨100, 100⟩ (some ⟨0, 0, 0, 0, 0⟩)).1 disturbedCalls =
          .ok (s, (disturbedCalls.filter fun e => !e.by 100).map Event.refusal) := by
  have hfree : (⟨.freed, 0, false⟩ : Device).deviceOpened = 0 := rfl
  have hfree₀ : Device.init.deviceOpened = 0 := rfl
  exact holder_isolated hfree₀ hfree ⟨100, 100⟩ ⟨0, 0, 0, 0, 0⟩ ⟨7, 1, 1, 99, 5⟩
    (by simp [disturbedCalls, Event.caller]) (by simp [holderCalls, Event.caller]) rfl

end Bootcamp.Sthreads
