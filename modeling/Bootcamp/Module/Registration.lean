import Bootcamp.Module.Chardev

/-! What the basic kernel module keeps for the process that holds the device: commands are
written to it, and the record is read back. -/
namespace Bootcamp.Chardev

open Sthreads

/-- `sizeof(struct process_info)`. -/
def processInfoSize : Nat := 32

namespace Device

/-- `*pinfo`. -/
def record (d : Device) : Except Oops Record :=
  match d.pinfo with
  | .null => .error .nullPointer
  | .live pinfo => .ok pinfo
  | .freed => .error .useAfterFree

/-- A command that there is not leaves `pinfo` alone. -/
def handleCommand (d : Device) (cmd : Command) : Except Oops (Device × Int) :=
  if cmd.command = CommandType.regKey.value then do
    let pinfo ← d.record
    return ({ d with pinfo := .live { pinfo with key := cmd.param, isValidKey := 1 } }, commandSize)
  else if cmd.command = CommandType.unregKey.value then do
    let pinfo ← d.record
    return ({ d with pinfo := .live { pinfo with isValidKey := 0 } }, commandSize)
  else if cmd.command = CommandType.regErrFn.value then do
    let pinfo ← d.record
    return ({ d with pinfo := .live { pinfo with isValidCallback := 1, errorCallback := cmd.param } },
      commandSize)
  else if cmd.command = CommandType.unregErrFn.value then do
    let pinfo ← d.record
    return ({ d with pinfo := .live { pinfo with isValidCallback := 0 } }, commandSize)
  else .ok (d, -EINVAL)

/-- The buffer is taken for a command, whatever its length. -/
def doWrite (d : Device) (buff : Command) : Except Oops (Device × Int) := d.handleCommand buff

/-- What is copied to the buffer, if anything is: all the bytes of the record. -/
def doRead (d : Device) (length : Nat) : Except Oops (Option Record × Int) :=
  if length < processInfoSize then .ok (none, -EINVAL)
  else do
    let pinfo ← d.record
    return (some pinfo, processInfoSize)

end Device

inductive Request
  | doOpen (current : Task) (kmalloc : Option Record)
  | doWrite (buff : Command)
  | doRead (length : Nat)
  | doRelease

/-- Handles are what `read` and `write` are called with. -/
inductive Serve : System → Request → System → Prop
  | doOpen (s : System) (current : Task) (kmalloc : Option Record) :
      Serve s (.doOpen current kmalloc)
        { device := (s.device.doOpen current kmalloc).1
          handles :=
            if (s.device.doOpen current kmalloc).2 = 0 then s.handles + 1 else s.handles }
  | doWrite {s : System} {buff : Command} {d : Device} {ret : Int} : 0 < s.handles →
      s.device.doWrite buff = .ok (d, ret) → Serve s (.doWrite buff) { s with device := d }
  | doRead {s : System} {length : Nat} {data : Option Record} {ret : Int} : 0 < s.handles →
      s.device.doRead length = .ok (data, ret) → Serve s (.doRead length) s
  | doRelease {s : System} {d : Device} {ret : Int} : 0 < s.handles →
      s.device.doRelease = .ok (d, ret) →
      Serve s .doRelease { device := d, handles := s.handles - 1 }

/-- A run, with the state before each of its requests. -/
inductive Served : List (System × Request) → System → Prop
  | init : Served [] ⟨.init, 0⟩
  | step {past : List (System × Request)} {s s' : System} {request : Request} : Served past s →
      Serve s request s' → Served (past ++ [(s, request)]) s'

/-! ## What a holder has registered -/

/-- Who opened the device last, what the memory for the record had between the fields, and what
was written since. -/
structure Holder where
  pid : Int
  padding : UInt32
  written : List Command

/-- A process becomes the holder when its open returns zero. -/
def Holder.next (holder : Option Holder) : System × Request → Option Holder
  | (s, .doOpen current kmalloc) =>
    if (s.device.doOpen current kmalloc).2 = 0 then
      kmalloc.map fun pinfo => ⟨current.pid, pinfo.padding, []⟩
    else holder
  | (_, .doWrite buff) => holder.map fun h => { h with written := h.written ++ [buff] }
  | (_, .doRead _) => holder
  | (_, .doRelease) => none

def holderOf (past : List (System × Request)) : Option Holder := past.foldl Holder.next none

/-- What was given with the last command of type `t`. -/
def lastParam (written : List Command) (t : CommandType) : Option UInt64 :=
  (written.reverse.find? fun cmd => cmd.command = t.value).map Command.param

/-- Of the commands of two types the last one is of the first type. -/
def standing (written : List Command) (reg unreg : CommandType) : Bool :=
  (written.reverse.find? fun cmd => cmd.command = reg.value ∨ cmd.command = unreg.value).any
    fun cmd => cmd.command = reg.value

/-- The record that a holder should find. -/
def Holder.record (h : Holder) : Record where
  pid := h.pid
  isValidKey := if standing h.written .regKey .unregKey then 1 else 0
  isValidCallback := if standing h.written .regErrFn .unregErrFn then 1 else 0
  padding := h.padding
  key := (lastParam h.written .regKey).getD 0
  errorCallback := (lastParam h.written .regErrFn).getD 0

theorem lastParam_concat (written : List Command) (cmd : Command) (t : CommandType) :
    lastParam (written ++ [cmd]) t =
      if cmd.command = t.value then some cmd.param else lastParam written t := by
  simp only [lastParam, List.reverse_append, List.reverse_singleton, List.singleton_append,
    List.find?_cons]
  by_cases h : cmd.command = t.value
  · simp [h]
  · simp [h]

theorem standing_concat (written : List Command) (cmd : Command) (reg unreg : CommandType) :
    standing (written ++ [cmd]) reg unreg =
      if cmd.command = reg.value then true
      else if cmd.command = unreg.value then false else standing written reg unreg := by
  simp only [standing, List.reverse_append, List.reverse_singleton, List.singleton_append,
    List.find?_cons]
  by_cases hreg : cmd.command = reg.value
  · simp [hreg]
  · by_cases hunreg : cmd.command = unreg.value
    · rw [hunreg] at hreg
      simp [hunreg, hreg]
    · simp [hreg, hunreg]

/-- A command does to the record what it does to the account. -/
theorem handleCommand_record {d : Device} {h : Holder} (hrecord : d.pinfo = .live h.record)
    (cmd : Command) : d.handleCommand cmd = .ok
      ({ d with pinfo := .live { h with written := h.written ++ [cmd] }.record },
        if 0 ≤ cmd.command ∧ cmd.command < CommandType.maxCmds.value then commandSize
        else -EINVAL) := by
  have hpinfo : d.record = .ok h.record := by rw [Device.record, hrecord]
  have hsame : { d with pinfo := .live h.record } = d := by rw [← hrecord]
  obtain ⟨command, param⟩ := cmd
  unfold Device.handleCommand
  simp only [hpinfo, Except.ok_bind, Except.pure_eq_ok, CommandType.value]
  by_cases h0 : command = 0
  · subst h0
    simp [Holder.record, standing_concat, lastParam_concat, CommandType.value]
  by_cases h1 : command = 1
  · subst h1
    simp [Holder.record, standing_concat, lastParam_concat, CommandType.value]
  by_cases h2 : command = 2
  · subst h2
    simp [Holder.record, standing_concat, lastParam_concat, CommandType.value]
  by_cases h3 : command = 3
  · subst h3
    simp [Holder.record, standing_concat, lastParam_concat, CommandType.value]
  · -- no command: the account does not change either
    have hrange : ¬(0 ≤ command ∧ command < 4) := by omega
    have hkept : ({ h with written := h.written ++ [⟨command, param⟩] } : Holder).record =
        h.record := by
      simp [Holder.record, standing_concat, lastParam_concat, CommandType.value, h0, h1, h2, h3]
    simp only [h0, h1, h2, h3, if_false, hrange, hkept, hsame]

/-- The holder of an open handle is known, and its record is the one it should find. -/
structure Kept (past : List (System × Request)) (s : System) : Prop where
  held : Held s
  record : 0 < s.handles →
    ∃ h, holderOf past = some h ∧ s.device.pinfo = .live h.record

theorem holderOf_concat (past : List (System × Request)) (x : System × Request) :
    holderOf (past ++ [x]) = Holder.next (holderOf past) x := by
  simp [holderOf]

theorem Kept.step {past : List (System × Request)} {s s' : System} {request : Request}
    (h : Kept past s) (hserve : Serve s request s') : Kept (past ++ [(s, request)]) s' := by
  cases hserve with
  | doOpen current kmalloc =>
    refine ⟨step_held h.held (.doOpen s current kmalloc), fun hpos => ?_⟩
    rw [holderOf_concat, Holder.next]
    by_cases hbusy : s.device.deviceOpened = 0
    · have hzero : s.handles = 0 := by
        have := h.held.opened
        omega
      cases kmalloc with
      | none =>
        have herror : -ENOMEM ≠ 0 := by decide
        rw [Device.doOpen_none hbusy, if_neg herror, hzero] at hpos
        cases hpos
      | some pinfo =>
        rw [Device.doOpen_some hbusy, if_pos rfl]
        exact ⟨_, rfl, rfl⟩
    · have herror : -EBUSY ≠ 0 := by decide
      rw [Device.doOpen_busy hbusy, if_neg herror] at hpos ⊢
      exact h.record hpos
  | @doWrite buff d ret hhandle hwrite =>
    obtain ⟨holder, hholder, hrecord⟩ := h.record hhandle
    rw [Device.doWrite, handleCommand_record hrecord] at hwrite
    obtain ⟨rfl, -⟩ := Prod.mk.inj (Except.ok.inj hwrite)
    refine ⟨⟨h.held.opened, h.held.one, fun _ => ⟨_, rfl⟩⟩, fun _ => ?_⟩
    rw [holderOf_concat, hholder]
    exact ⟨_, rfl, rfl⟩
  | doRead hhandle _ =>
    refine ⟨h.held, fun hpos => ?_⟩
    rw [holderOf_concat]
    exact h.record hpos
  | @doRelease d ret hhandle hrelease =>
    have hone := h.held.one
    refine ⟨step_held h.held (.doRelease hhandle hrelease), fun hpos => ?_⟩
    simp only at hpos
    omega

theorem Served.kept {past : List (System × Request)} {s : System} (h : Served past s) :
    Kept past s := by
  induction h with
  | init => exact ⟨⟨by decide, by decide, fun hpos => nomatch hpos⟩, fun hpos => nomatch hpos⟩
  | step _ hserve ih => exact ih.step hserve

/-- In every run, whoever else tries to open the device: a handle is there to write and read
with, and no request through it touches a record that is not there. The fields that are read
tell who opened the device and which of the commands written since are the last of their kind,
and nothing of what was written before. Of what the memory held the bytes between the fields are
read as well, as `kmalloc` gave them. -/
theorem registrations_read_back {past : List (System × Request)} {s : System}
    (h : Served past s) (hhandle : 0 < s.handles) : ∃ holder, holderOf past = some holder ∧
      (∀ buff, ∃ d, s.device.doWrite buff = .ok (d,
        if 0 ≤ buff.command ∧ buff.command < CommandType.maxCmds.value then commandSize
        else -EINVAL)) ∧
      ∀ length, s.device.doRead length =
        .ok (if length < processInfoSize then (none, -EINVAL)
          else (some holder.record, processInfoSize)) := by
  obtain ⟨holder, hholder, hrecord⟩ := h.kept.record hhandle
  refine ⟨holder, hholder, fun buff => ⟨_, handleCommand_record hrecord buff⟩, fun length => ?_⟩
  rw [Device.doRead, Device.record, hrecord]
  split
  · rfl
  · rfl

/-- The key of a process that released the device is not there for the next one, but what the
memory had between the fields is. -/
def secondHolder : List (System × Request) :=
  [(⟨.init, 0⟩, .doOpen ⟨7, 7⟩ (some ⟨⟨0, 0, 0, 0, 0⟩, 0⟩)),
   (⟨⟨.live ⟨⟨7, 0, 0, 0, 0⟩, 0⟩, 1, 1⟩, 1⟩, .doWrite ⟨0, 99⟩),
   (⟨⟨.live ⟨⟨7, 1, 0, 99, 0⟩, 0⟩, 1, 1⟩, 1⟩, .doRelease),
   (⟨⟨.freed, 0, 0⟩, 0⟩, .doOpen ⟨8, 8⟩ (some ⟨⟨7, 1, 0, 99, 0⟩, 3⟩))]

theorem second_holder_reads_back : ∃ holder, holderOf secondHolder = some holder ∧
    (∀ buff, ∃ d, (⟨.live ⟨⟨8, 0, 0, 0, 0⟩, 3⟩, 1, 1⟩ : Device).doWrite buff = .ok (d,
      if 0 ≤ buff.command ∧ buff.command < CommandType.maxCmds.value then commandSize
      else -EINVAL)) ∧
    ∀ length, (⟨.live ⟨⟨8, 0, 0, 0, 0⟩, 3⟩, 1, 1⟩ : Device).doRead length =
      .ok (if length < processInfoSize then (none, -EINVAL)
        else (some holder.record, processInfoSize)) := by
  have hopen : Served _ _ := .step .init (.doOpen ⟨.init, 0⟩ ⟨7, 7⟩ (some ⟨⟨0, 0, 0, 0, 0⟩, 0⟩))
  have hwrite := Served.step hopen (@Serve.doWrite _ ⟨0, 99⟩ _ _ (by decide) rfl)
  have hrelease := Served.step hwrite (.doRelease (by decide) rfl)
  have hserved : Served secondHolder ⟨⟨.live ⟨⟨8, 0, 0, 0, 0⟩, 3⟩, 1, 1⟩, 1⟩ :=
    .step hrelease (.doOpen _ ⟨8, 8⟩ (some ⟨⟨7, 1, 0, 99, 0⟩, 3⟩))
  exact registrations_read_back hserved (by decide)

end Bootcamp.Chardev
