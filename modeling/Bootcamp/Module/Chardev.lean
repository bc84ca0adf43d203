import Bootcamp.Module.Sthreads

/-! The device of the basic kernel module, which one process at a time may hold open. -/
namespace Bootcamp.Chardev

open Sthreads

/-- The memory of a `struct process_info`: the fields, and the four bytes between them that no
assignment sets. -/
structure Record extends ProcessInfo where
  padding : UInt32

/-- The globals of the module, and the references that `do_open` has taken on it. -/
structure Device where
  pinfo : Pinfo Record
  deviceOpened : Int
  moduleRefs : Int

namespace Device

/-- After a successful `init_module`. -/
def init : Device := ⟨.null, 0, 0⟩

/-- `kmalloc` gives nothing, or memory with whatever is in it. -/
def doOpen (d : Device) (current : Task) (kmalloc : Option Record) : Device × Int :=
  if d.deviceOpened ≠ 0 then (d, -EBUSY)
  else
    let d := { d with deviceOpened := d.deviceOpened + 1, moduleRefs := d.moduleRefs + 1 }
    match kmalloc with
    | none => ({ d with pinfo := .null }, -ENOMEM)
    | some pinfo =>
      let pinfo := { pinfo with
        pid := current.pid, isValidKey := 0, isValidCallback := 0, key := 0, errorCallback := 0 }
      ({ d with pinfo := .live pinfo }, 0)

def doRelease (d : Device) : Except Oops (Device × Int) :=
  let d := { d with deviceOpened := d.deviceOpened - 1, moduleRefs := d.moduleRefs - 1 }
  match d.pinfo with
  | .null => .ok (d, 0)
  | .live _ => .ok ({ d with pinfo := .freed }, 0)
  | .freed => .error .doubleFree

theorem doOpen_busy {d : Device} (h : d.deviceOpened ≠ 0) (current : Task)
    (kmalloc : Option Record) : d.doOpen current kmalloc = (d, -EBUSY) := if_pos h

theorem doOpen_none {d : Device} (h : d.deviceOpened = 0) (current : Task) :
    d.doOpen current none = (⟨.null, 1, d.moduleRefs + 1⟩, -ENOMEM) := by
  rw [doOpen, if_neg (not_not.mpr h), h]
  rfl

theorem doOpen_some {d : Device} (h : d.deviceOpened = 0) (current : Task)
    (kmalloc : Record) :
    d.doOpen current (some kmalloc) =
      (⟨.live ⟨⟨current.pid, 0, 0, 0, 0⟩, kmalloc.padding⟩, 1, d.moduleRefs + 1⟩, 0) := by
  rw [doOpen, if_neg (not_not.mpr h), h]
  rfl

theorem doRelease_counters {d d' : Device} {ret : Int} (h : d.doRelease = .ok (d', ret)) :
    d'.deviceOpened = d.deviceOpened - 1 ∧ d'.moduleRefs = d.moduleRefs - 1 := by
  unfold doRelease at h
  cases hpinfo : d.pinfo with
  | freed =>
    simp only [hpinfo] at h
    cases h
  | null | live =>
    simp only [hpinfo] at h
    cases h
    exact ⟨rfl, rfl⟩

end Device

inductive Call
  | doOpen (current : Task) (kmalloc : Option Record)
  | doRelease

/-- The module and the handles on it that are open. -/
structure System where
  device : Device
  handles : Nat

/-- A handle comes of an open that returns zero and is released once. -/
inductive Step : System → Call → System → Prop
  | doOpen (s : System) (current : Task) (kmalloc : Option Record) :
      Step s (.doOpen current kmalloc)
        { device := (s.device.doOpen current kmalloc).1
          handles :=
            if (s.device.doOpen current kmalloc).2 = 0 then s.handles + 1 else s.handles }
  | doRelease {s : System} {d : Device} {ret : Int} : 0 < s.handles →
      s.device.doRelease = .ok (d, ret) →
      Step s .doRelease { device := d, handles := s.handles - 1 }

/-- A run, with the state before each of its calls. -/
inductive Run : List (System × Call) → System → Prop
  | init : Run [] ⟨.init, 0⟩
  | step {calls : List (System × Call)} {s s' : System} {call : Call} : Run calls s →
      Step s call s' → Run (calls ++ [(s, call)]) s'

/-- Whatever fails, an open handle is the only one and has its record. -/
structure Held (s : System) : Prop where
  opened : (s.handles : Int) ≤ s.device.deviceOpened
  one : s.handles ≤ 1
  record : 0 < s.handles → ∃ pinfo, s.device.pinfo = .live pinfo

theorem step_held {s s' : System} {call : Call} (h : Held s) (hstep : Step s call s') :
    Held s' := by
  obtain ⟨hopened, hone, hrecord⟩ := h
  cases hstep with
  | doOpen current kmalloc =>
    by_cases hbusy : s.device.deviceOpened = 0
    · have hzero : s.handles = 0 := by omega
      cases kmalloc with
      | none =>
        have herror : -ENOMEM ≠ 0 := by decide
        rw [Device.doOpen_none hbusy, if_neg herror, hzero]
        exact ⟨by simp, by simp, fun hpos => by cases hpos⟩
      | some pinfo =>
        rw [Device.doOpen_some hbusy, if_pos rfl, hzero]
        exact ⟨by simp, by simp, fun _ => ⟨_, rfl⟩⟩
    · have herror : -EBUSY ≠ 0 := by decide
      rw [Device.doOpen_busy hbusy, if_neg herror]
      exact ⟨hopened, hone, hrecord⟩
  | @doRelease d ret hhandle hrelease =>
    obtain ⟨hcounter, -⟩ := Device.doRelease_counters hrelease
    exact ⟨by simp only; omega, by simp only; omega, fun hpos => by simp only at hpos; omega⟩

/-- The counters tell the handles, at most one, and without one the device can be opened. -/
structure Accounted (s : System) : Prop where
  opened : s.device.deviceOpened = s.handles
  refs : s.device.moduleRefs = s.handles
  one : s.handles ≤ 1
  opens : s.handles = 0 → ∀ current pinfo, (s.device.doOpen current (some pinfo)).2 = 0

/-- An open that returns an error leaves both counters alone. -/
def ErrorUnchanged (s : System) : Call → Prop
  | .doOpen current kmalloc =>
    (s.device.doOpen current kmalloc).2 ≠ 0 →
      (s.device.doOpen current kmalloc).1.deviceOpened = s.device.deviceOpened ∧
        (s.device.doOpen current kmalloc).1.moduleRefs = s.device.moduleRefs
  | .doRelease => True

/-- The open of a free device finds no memory. -/
def AllocationFails (s : System) : Call → Prop
  | .doOpen _ none => s.handles = 0
  | _ => False

theorem init_accounted : Accounted ⟨.init, 0⟩ := ⟨rfl, rfl, by decide, fun _ _ _ => rfl⟩

/-- Without a handle the counter of an accounted device is zero. -/
theorem Accounted.free_iff {s : System} (h : Accounted s) :
    s.device.deviceOpened = 0 ↔ s.handles = 0 := by
  rw [h.opened]
  omega

theorem accounted_of_counters {d : Device} {n : Nat} (hopened : d.deviceOpened = n)
    (hrefs : d.moduleRefs = n) (hone : n ≤ 1) : Accounted ⟨d, n⟩ where
  opened := hopened
  refs := hrefs
  one := hone
  opens hzero current pinfo := by
    simp only at hzero
    have hfree : d.deviceOpened = 0 := by omega
    rw [Device.doOpen_some hfree]

/-- Where the allocation does not fail, a call keeps the account. -/
theorem step_accounted {s s' : System} {call : Call} (h : Accounted s) (hstep : Step s call s')
    (hmemory : ¬AllocationFails s call) : Accounted s' ∧ ErrorUnchanged s call := by
  cases hstep with
  | doOpen current kmalloc =>
    by_cases hbusy : s.device.deviceOpened = 0
    · have hzero := h.free_iff.mp hbusy
      have hrefs := h.refs
      cases kmalloc with
      | none => exact absurd hzero hmemory
      | some pinfo =>
        have hopen := Device.doOpen_some hbusy current pinfo
        refine ⟨?_, fun herror => absurd (by rw [hopen]) herror⟩
        rw [hopen, if_pos rfl]
        apply accounted_of_counters
        · rw [hzero]
          rfl
        · simp only [hrefs]
          rfl
        · omega
    · have hopen := Device.doOpen_busy hbusy current kmalloc
      refine ⟨?_, fun _ => by rw [hopen]; exact ⟨rfl, rfl⟩⟩
      have herror : -EBUSY ≠ 0 := by decide
      rw [hopen, if_neg herror]
      exact h
  | @doRelease d ret hhandle hrelease =>
    obtain ⟨hcounter, hreferences⟩ := Device.doRelease_counters hrelease
    have hopened := h.opened
    have hrefs := h.refs
    have hone := h.one
    exact ⟨accounted_of_counters (by omega) (by omega) (by omega), trivial⟩

/-- Where it fails, an accounted device does not stay as it was. -/
theorem error_changes {s : System} {call : Call} (h : Accounted s)
    (hfails : AllocationFails s call) : ¬ErrorUnchanged s call := by
  cases call with
  | doRelease => cases hfails
  | doOpen current kmalloc =>
    cases kmalloc with
    | some pinfo => cases hfails
    | none =>
      have hfree := h.free_iff.mpr hfails
      intro hunchanged
      have hopen := Device.doOpen_none hfree current
      have herror : -ENOMEM ≠ 0 := by decide
      have hsame := (hunchanged (by rw [hopen]; exact herror)).1
      rw [hopen, hfree] at hsame
      cases hsame

theorem run_accounted {calls : List (System × Call)} {s : System} (h : Run calls s)
    (hmemory : ∀ x ∈ calls, ¬AllocationFails x.1 x.2) :
    (∀ x ∈ calls, Accounted x.1 ∧ ErrorUnchanged x.1 x.2) ∧ Accounted s := by
  induction h with
  | init => exact ⟨by simp, init_accounted⟩
  | @step calls s s' call _ hstep ih =>
    obtain ⟨hcalls, hs⟩ := ih fun x hx => hmemory x (by simp [hx])
    obtain ⟨hs', hunchanged⟩ := step_accounted hs hstep (hmemory (s, call) (by simp))
    refine ⟨fun x hx => ?_, hs'⟩
    rcases List.mem_append.mp hx with hx | hx
    · exact hcalls x hx
    · obtain rfl := List.mem_singleton.mp hx
      exact ⟨hs, hunchanged⟩

/-- In every state of a run the counters tell the handles, and no failed open changes them, just
when memory never runs out in an open of the free device. -/
theorem accounted_iff {calls : List (System × Call)} {s : System} (h : Run calls s) :
    ((∀ x ∈ calls, Accounted x.1 ∧ ErrorUnchanged x.1 x.2) ∧ Accounted s) ↔
      ∀ x ∈ calls, ¬AllocationFails x.1 x.2 := by
  constructor
  · intro hgood x hx hfails
    obtain ⟨haccounted, hunchanged⟩ := hgood.1 x hx
    exact error_changes haccounted hfails hunchanged
  · exact run_accounted h

/-- Process 7 opens the device, process 8 is refused, and the handle is released. -/
def refusedOpen : List (System × Call) :=
  [(⟨.init, 0⟩, .doOpen ⟨7, 7⟩ (some ⟨⟨0, 0, 0, 0, 0⟩, 0⟩)),
   (⟨⟨.live ⟨⟨7, 0, 0, 0, 0⟩, 0⟩, 1, 1⟩, 1⟩, .doOpen ⟨8, 8⟩ (some ⟨⟨0, 0, 0, 0, 0⟩, 0⟩)),
   (⟨⟨.live ⟨⟨7, 0, 0, 0, 0⟩, 0⟩, 1, 1⟩, 1⟩, .doRelease)]

theorem refused_open_accounted : Run refusedOpen ⟨⟨.freed, 0, 0⟩, 0⟩ ∧
    (∀ x ∈ refusedOpen, Accounted x.1 ∧ ErrorUnchanged x.1 x.2) ∧ Accounted ⟨⟨.freed, 0, 0⟩, 0⟩ := by
  have hopen : Run _ _ := .step .init (.doOpen ⟨.init, 0⟩ ⟨7, 7⟩ (some ⟨⟨0, 0, 0, 0, 0⟩, 0⟩))
  have hrefused := Run.step hopen (.doOpen _ ⟨8, 8⟩ (some ⟨⟨0, 0, 0, 0, 0⟩, 0⟩))
  have hrun : Run refusedOpen ⟨⟨.freed, 0, 0⟩, 0⟩ := .step hrefused (.doRelease (by decide) rfl)
  refine ⟨hrun, (accounted_iff hrun).mpr fun x hx => ?_⟩
  simp only [refusedOpen, List.mem_cons, List.not_mem_nil, or_false] at hx
  rcases hx with rfl | rfl | rfl <;> exact id

/-- One failed open, and the device that nobody holds is busy for good. -/
theorem failed_open_stays :
    ∃ s, Run [(⟨.init, 0⟩, .doOpen ⟨7, 7⟩ none)] s ∧ ¬Accounted s ∧ s.handles = 0 ∧
      s.device.deviceOpened = 1 ∧ s.device.moduleRefs = 1 ∧
      ∀ current pinfo, (s.device.doOpen current (some pinfo)).2 = -EBUSY := by
  refine ⟨_, .step .init (.doOpen ⟨.init, 0⟩ ⟨7, 7⟩ none), fun h => ?_, rfl, rfl, rfl,
    fun _ _ => rfl⟩
  exact absurd h.opened (by decide)

end Bootcamp.Chardev
