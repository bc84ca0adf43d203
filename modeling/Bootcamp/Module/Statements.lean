import Bootcamp.Module.Sthreads
import Mathlib.Logic.Function.Basic

/-! Opening and releasing the device one statement at a time, with any number of calls under
way. The test of `device_opened` and its increment are two statements. -/
namespace Bootcamp.Sthreads.Statements

/-! ## The statements -/

inductive OpenStatement
  | kmalloc
  | nullTest
  | setPid
  | setKey
  | setCallback
  | enableJprobe
  | increment

inductive ReleaseStatement
  | disableJprobe
  | kfree

/-- Where a handle is: the statement that comes next, and the record that its `kmalloc` gave.
The code keeps this pointer in `pinfo` only. -/
inductive Phase
  | idle
  | opening (next : OpenStatement) (record : Option Nat)
  | opened (record : Option Nat)
  | releasing (next : ReleaseStatement) (record : Option Nat)
  | closed
  | failed (error : Int)

structure Record where
  info : ProcessInfo
  freed : Bool

/-- The globals of the module, the records that were allocated, by number, and the handles. -/
structure State where
  deviceOpened : Int
  pinfo : Option Nat
  jprobe : Bool
  records : Nat → Record
  allocated : Nat
  phases : Nat → Phase

/-- A handle moves on. `kmalloc` gives nothing, or memory with whatever is in it. -/
structure Move where
  handle : Nat
  kmalloc : Option ProcessInfo

namespace State

def init : State where
  deviceOpened := 0
  pinfo := none
  jprobe := false
  records _ := ⟨⟨0, 0, 0, 0, 0⟩, false⟩
  allocated := 0
  phases _ := .idle

def goto (s : State) (h : Nat) (phase : Phase) : State :=
  { s with phases := Function.update s.phases h phase }

@[simp] theorem goto_self (s : State) (h : Nat) (phase : Phase) :
    (s.goto h phase).phases h = phase := by
  simp [goto]

theorem goto_of_ne (s : State) {h k : Nat} (phase : Phase) (hk : k ≠ h) :
    (s.goto h phase).phases k = s.phases k := by
  simp [goto, hk]

/-- An assignment to a field of `*pinfo`. -/
def assign (s : State) (f : ProcessInfo → ProcessInfo) : Except Oops State :=
  match s.pinfo with
  | none => .error .nullPointer
  | some n =>
    if (s.records n).freed then .error .useAfterFree
    else .ok { s with records := Function.update s.records n ⟨f (s.records n).info, false⟩ }

/-- `kfree(pinfo)`. -/
def kfree (s : State) : Except Oops State :=
  match s.pinfo with
  | none => .ok s
  | some n =>
    if (s.records n).freed then .error .doubleFree
    else .ok { s with records := Function.update s.records n ⟨(s.records n).info, true⟩ }

/-- The next statement of `demo_open`. -/
def openStep (s : State) (current : Task) (m : Move) (record : Option Nat) :
    OpenStatement → Except Oops State
  | .kmalloc =>
    match m.kmalloc with
    | none => .ok ({ s with pinfo := none }.goto m.handle (.opening .nullTest none))
    | some info =>
      .ok ({ s with
        pinfo := some s.allocated
        records := Function.update s.records s.allocated ⟨info, false⟩
        allocated := s.allocated + 1 }.goto m.handle (.opening .nullTest (some s.allocated)))
  | .nullTest =>
    match s.pinfo with
    | none => .ok (s.goto m.handle (.failed (-ENOMEM)))
    | some _ => .ok (s.goto m.handle (.opening .setPid record))
  | .setPid => do
    let s ← s.assign fun pinfo => { pinfo with pid := current.pid }
    return s.goto m.handle (.opening .setKey record)
  | .setKey => do
    let s ← s.assign fun pinfo => { pinfo with isValidKey := 0 }
    return s.goto m.handle (.opening .setCallback record)
  | .setCallback => do
    let s ← s.assign fun pinfo => { pinfo with isValidCallback := 0 }
    return s.goto m.handle (.opening .enableJprobe record)
  | .enableJprobe => .ok ({ s with jprobe := true }.goto m.handle (.opening .increment record))
  | .increment =>
    .ok ({ s with deviceOpened := s.deviceOpened + 1 }.goto m.handle (.opened record))

/-- The next statement of `demo_release`, behind its first. -/
def releaseStep (s : State) (m : Move) (record : Option Nat) : ReleaseStatement → Except Oops State
  | .disableJprobe => .ok ({ s with jprobe := false }.goto m.handle (.releasing .kfree record))
  | .kfree => do
    let s ← s.kfree
    return s.goto m.handle .closed

/-- A handle that is idle is opened, one that is open is released. -/
def step (current : Nat → Task) (s : State) (m : Move) : Except Oops State :=
  match s.phases m.handle with
  | .idle =>
    if s.deviceOpened ≠ 0 then .ok (s.goto m.handle (.failed (-EBUSY)))
    else .ok (s.goto m.handle (.opening .kmalloc none))
  | .opening next record => s.openStep (current m.handle) m record next
  | .opened record =>
    .ok ({ s with deviceOpened := s.deviceOpened - 1 }.goto m.handle
      (.releasing .disableJprobe record))
  | .releasing next record => s.releaseStep m record next
  | .closed => .ok s
  | .failed _ => .ok s

/-- One move after the other, in any order. -/
def run (current : Nat → Task) (moves : List Move) : Except Oops State :=
  moves.foldlM (step current) init

end State

/-! ## One call at a time -/

/-- The module without the handles. -/
def State.device (s : State) : Device where
  pinfo :=
    match s.pinfo with
    | none => .null
    | some n => if (s.records n).freed then .freed else .live (s.records n).info
  deviceOpened := s.deviceOpened
  jprobe := s.jprobe

/-- An open that nothing interrupts does what `demoOpen` does at once. -/
theorem demoOpen_alone (current : Nat → Task) {s : State} {h : Nat} (hidle : s.phases h = .idle)
    (kmalloc : Option ProcessInfo) :
    ((List.replicate 8 (Move.mk h kmalloc)).foldlM (State.step current) s).map State.device =
      .ok (s.device.demoOpen (current h) kmalloc).1 := by
  by_cases hopened : s.deviceOpened = 0
  · cases kmalloc with
    | none =>
      simp [List.replicate, State.step, hidle, hopened, State.openStep, State.goto, State.device,
        Device.demoOpen, Except.map]
    | some info =>
      simp [List.replicate, State.step, hidle, hopened, State.openStep, State.goto, State.device,
        State.assign, Device.demoOpen, Except.map]
  · simp [List.replicate, State.step, hidle, hopened, State.goto, State.device, Device.demoOpen,
      Except.map]

/-- So does a release, also where it goes wrong. -/
theorem demoRelease_alone (current : Nat → Task) {s : State} {h : Nat} {record : Option Nat}
    (hopened : s.phases h = .opened record) (kmalloc : Option ProcessInfo) :
    ((List.replicate 3 (Move.mk h kmalloc)).foldlM (State.step current) s).map State.device =
      s.device.demoRelease.map Prod.fst := by
  cases hpinfo : s.pinfo with
  | none =>
    simp [List.replicate, State.step, hopened, State.releaseStep, State.goto, State.kfree, hpinfo,
      State.device, Device.demoRelease, Except.map]
  | some n =>
    cases hfreed : (s.records n).freed with
    | false =>
      simp [List.replicate, State.step, hopened, State.releaseStep, State.goto, State.kfree, hpinfo,
        hfreed, State.device, Device.demoRelease, Except.map]
    | true =>
      simp [List.replicate, State.step, hopened, State.releaseStep, State.goto, State.kfree, hpinfo,
        hfreed, State.device, Device.demoRelease, Except.map, Except.error_bind]

/-! ## One owner -/

/-- The record is not freed, and `pinfo` points to it. -/
def Held (s : State) (record : Option Nat) : Prop :=
  ∃ n, record = some n ∧ s.pinfo = some n ∧ (s.records n).freed = false

/-- At most one handle is open; `pinfo` is its record and the probe is on. -/
structure Exclusive (s : State) : Prop where
  one : ∀ h k r q, s.phases h = .opened r → s.phases k = .opened q → h = k
  own : ∀ h r, s.phases h = .opened r → Held s r ∧ s.jprobe = true

/-- Between its `kmalloc` and its increment, or between its decrement and its `kfree`. -/
def Phase.busy : Phase → Bool
  | .opening .kmalloc _ => false
  | .opening _ _ => true
  | .releasing _ _ => true
  | _ => false

/-- What an open that allocates should find: the device is still not open, and no other call is
in the middle. -/
def Undisturbed (s : State) (m : Move) : Prop :=
  ∀ r, s.phases m.handle = .opening .kmalloc r →
    s.deviceOpened = 0 ∧ ∀ k, (s.phases k).busy = false

/-- Every move from `s` on meets the condition. -/
def Calm (current : Nat → Task) : State → List Move → Prop
  | _, [] => True
  | s, m :: moves => Undisturbed s m ∧
      ∀ s', s.step current m = .ok s' → Calm current s' moves

/-! ## The invariant -/

def Phase.isOpened : Phase → Bool
  | .opened _ => true
  | _ => false

def Phase.inside (phase : Phase) : Bool := phase.busy || phase.isOpened

/-- What a handle at this phase relies on. -/
def Fits (s : State) : Phase → Prop
  | .opening .kmalloc _ => True
  | .opening .nullTest record => s.pinfo = record ∧ (record ≠ none → Held s record)
  | .opening .increment record => Held s record ∧ s.jprobe = true
  | .opening _ record => Held s record
  | .opened record => Held s record ∧ s.jprobe = true
  | .releasing _ record => Held s record
  | _ => True

theorem fits_of_outside (s : State) {phase : Phase} (h : phase.inside = false) : Fits s phase := by
  cases phase with
  | opening next record =>
    cases next with
    | kmalloc => trivial
    | _ => cases h
  | opened record => cases h
  | releasing next record => cases h
  | _ => trivial

theorem fits_goto (s : State) (h : Nat) (moved : Phase) {phase : Phase} (hfits : Fits s phase) :
    Fits (s.goto h moved) phase := by
  cases phase with
  | opening next record => cases next <;> exact hfits
  | _ => exact hfits

namespace State

/-- One handle at most is inside, and it has what it relies on. -/
structure Inv (s : State) : Prop where
  one : ∀ h k, (s.phases h).inside = true → (s.phases k).inside = true → h = k
  fits : ∀ h, Fits s (s.phases h)
  opened : ∀ h, (s.phases h).isOpened = true → s.deviceOpened = 1
  idle : (∀ h, (s.phases h).isOpened = false) → s.deviceOpened = 0

namespace Inv

variable {s : State}

theorem init : init.Inv where
  one h k hh := by cases hh
  fits _ := trivial
  opened h hh := by cases hh
  idle _ := rfl

theorem inside_of_opened {phase : Phase} (h : phase.isOpened = true) : phase.inside = true := by
  rw [Phase.inside, h, Bool.or_true]

/-- While one handle is inside, the counter says whether it is open. -/
theorem deviceOpened_eq (hi : s.Inv) {h : Nat} (hinside : (s.phases h).inside = true) :
    s.deviceOpened = if (s.phases h).isOpened then 1 else 0 := by
  cases hopened : (s.phases h).isOpened with
  | true => exact hi.opened h hopened
  | false =>
    apply hi.idle
    intro k
    cases hk : (s.phases k).isOpened with
    | false => rfl
    | true =>
      rw [hi.one h k hinside (inside_of_opened hk), hk] at hopened
      cases hopened

theorem others_outside (hi : s.Inv) {h : Nat} (hinside : (s.phases h).inside = true) {k : Nat}
    (hk : k ≠ h) : (s.phases k).inside = false := by
  rw [Bool.eq_false_iff]
  exact fun hother => hk (hi.one k h hother hinside)

/-- A statement of the only handle inside may change everything. -/
theorem alone {s' : State} {h : Nat} {phase : Phase}
    (hothers : ∀ k, k ≠ h → (s.phases k).inside = false)
    (hphases : s'.phases = Function.update s.phases h phase) (hfits : Fits s' phase)
    (hcount : s'.deviceOpened = if phase.isOpened then 1 else 0) : s'.Inv := by
  have hself : s'.phases h = phase := by rw [hphases, Function.update_self]
  have hother (k : Nat) (hk : k ≠ h) : (s'.phases k).inside = false := by
    rw [hphases, Function.update_of_ne hk]
    exact hothers k hk
  have hinside (k : Nat) (hk : (s'.phases k).inside = true) : k = h := by
    by_contra hne
    rw [hother k hne] at hk
    cases hk
  refine ⟨fun k l hk hl => (hinside k hk).trans (hinside l hl).symm, fun k => ?_, fun k hk => ?_,
    fun hnone => ?_⟩
  · by_cases hk : k = h
    · rw [hk, hself]
      exact hfits
    · exact fits_of_outside s' (hother k hk)
  · rw [hinside k (inside_of_opened hk), hself] at hk
    rw [hcount, if_pos hk]
  · have hclosed := hnone h
    rw [hself] at hclosed
    rw [hcount, hclosed]
    rfl

/-- A handle that stays outside changes nothing but where it is. -/
theorem outside (hi : s.Inv) {h : Nat} {phase : Phase} (hbefore : (s.phases h).inside = false)
    (hafter : phase.inside = false) : (s.goto h phase).Inv := by
  have hinside (k : Nat) : ((s.goto h phase).phases k).inside = (s.phases k).inside := by
    by_cases hk : k = h
    · rw [hk, goto_self, hbefore, hafter]
    · rw [goto_of_ne _ _ hk]
  have hopened (k : Nat) : ((s.goto h phase).phases k).isOpened = (s.phases k).isOpened := by
    by_cases hk : k = h
    · rw [hk, goto_self]
      simp only [Phase.inside, Bool.or_eq_false_iff] at hbefore hafter
      rw [hbefore.2, hafter.2]
    · rw [goto_of_ne _ _ hk]
  refine ⟨fun k l hk hl => ?_, fun k => ?_, fun k hk => ?_, fun hnone => ?_⟩
  · rw [hinside] at hk hl
    exact hi.one k l hk hl
  · by_cases hk : k = h
    · rw [hk, goto_self]
      exact fits_of_outside _ hafter
    · rw [goto_of_ne _ _ hk]
      exact fits_goto s h phase (hi.fits k)
  · rw [hopened] at hk
    exact hi.opened k hk
  · exact hi.idle fun k => (hopened k).symm.trans (hnone k)

theorem assign_ok {record : Option Nat} (hheld : Held s record) (f : ProcessInfo → ProcessInfo) :
    ∃ records, s.assign f = .ok { s with records } ∧ Held { s with records } record := by
  obtain ⟨n, hrecord, hpinfo, hlive⟩ := hheld
  refine ⟨Function.update s.records n ⟨f (s.records n).info, false⟩, ?_, n, hrecord, hpinfo, ?_⟩
  · simp [State.assign, hpinfo, hlive]
  · simp

/-- An allocation that nothing disturbs brings its handle inside. -/
theorem kmalloc (hi : s.Inv) {m : Move} {record : Option Nat}
    (hphase : s.phases m.handle = .opening .kmalloc record) (hu : Undisturbed s m)
    (current : Task) : ∃ s', s.openStep current m record .kmalloc = .ok s' ∧ s'.Inv := by
  obtain ⟨hzero, hbusy⟩ := hu record hphase
  have hothers (k : Nat) (_ : k ≠ m.handle) : (s.phases k).inside = false := by
    have hclosed : (s.phases k).isOpened = false := by
      rw [Bool.eq_false_iff]
      intro hopened
      rw [hi.opened k hopened] at hzero
      cases hzero
    rw [Phase.inside, hbusy k, hclosed]
    rfl
  unfold openStep
  cases m.kmalloc with
  | none => exact ⟨_, rfl, alone hothers rfl ⟨rfl, fun h => absurd rfl h⟩ hzero⟩
  | some info =>
    refine ⟨_, rfl, alone hothers rfl ⟨rfl, fun _ => ⟨s.allocated, rfl, rfl, ?_⟩⟩ hzero⟩
    simp [goto]

/-- A handle inside goes on. -/
theorem moved (hi : s.Inv) {h : Nat} (hinside : (s.phases h).inside = true) {s' : State}
    {phase : Phase} (hphases : s'.phases = Function.update s.phases h phase) (hfits : Fits s' phase)
    (hcount : s'.deviceOpened = if phase.isOpened then 1 else 0) : s'.Inv :=
  alone (fun _ hk => hi.others_outside hinside hk) hphases hfits hcount

theorem openStep (hi : s.Inv) {m : Move} {next : OpenStatement} {record : Option Nat}
    (hphase : s.phases m.handle = .opening next record) (hnext : next ≠ .kmalloc) (current : Task) :
    ∃ s', s.openStep current m record next = .ok s' ∧ s'.Inv := by
  have hinside : (s.phases m.handle).inside = true := by
    rw [hphase]
    cases next with
    | kmalloc => exact absurd rfl hnext
    | _ => rfl
  have hcount := hi.deviceOpened_eq hinside
  have hfits := hi.fits m.handle
  rw [hphase] at hfits hcount
  cases next with
  | kmalloc => exact absurd rfl hnext
  | nullTest =>
    -- `pinfo` is still what the handle's own `kmalloc` gave
    obtain ⟨hpinfo, hheld⟩ := hfits
    unfold State.openStep
    cases record with
    | none =>
      simp only [hpinfo]
      exact ⟨_, rfl, hi.moved hinside rfl trivial hcount⟩
    | some n =>
      simp only [hpinfo]
      exact ⟨_, rfl, hi.moved hinside rfl (hheld (by simp)) hcount⟩
  | setPid =>
    obtain ⟨records, hassign, hheld⟩ :=
      assign_ok hfits fun pinfo => { pinfo with pid := current.pid }
    simp only [State.openStep, hassign, Except.ok_bind]
    exact ⟨_, rfl, hi.moved hinside rfl hheld hcount⟩
  | setKey =>
    obtain ⟨records, hassign, hheld⟩ := assign_ok hfits fun pinfo => { pinfo with isValidKey := 0 }
    simp only [State.openStep, hassign, Except.ok_bind]
    exact ⟨_, rfl, hi.moved hinside rfl hheld hcount⟩
  | setCallback =>
    obtain ⟨records, hassign, hheld⟩ :=
      assign_ok hfits fun pinfo => { pinfo with isValidCallback := 0 }
    simp only [State.openStep, hassign, Except.ok_bind]
    exact ⟨_, rfl, hi.moved hinside rfl hheld hcount⟩
  | enableJprobe => exact ⟨_, rfl, hi.moved hinside rfl ⟨hfits, rfl⟩ hcount⟩
  | increment =>
    refine ⟨_, rfl, hi.moved hinside rfl hfits ?_⟩
    show s.deviceOpened + 1 = 1
    rw [hcount]
    rfl

theorem releaseStep (hi : s.Inv) {m : Move} {next : ReleaseStatement} {record : Option Nat}
    (hphase : s.phases m.handle = .releasing next record) :
    ∃ s', s.releaseStep m record next = .ok s' ∧ s'.Inv := by
  have hinside : (s.phases m.handle).inside = true := by
    rw [hphase]
    rfl
  have hcount := hi.deviceOpened_eq hinside
  have hfits := hi.fits m.handle
  rw [hphase] at hfits hcount
  cases next with
  | disableJprobe => exact ⟨_, rfl, hi.moved hinside rfl hfits hcount⟩
  | kfree =>
    obtain ⟨n, -, hpinfo, hlive⟩ := hfits
    have hfree : s.kfree = .ok { s with
        records := Function.update s.records n ⟨(s.records n).info, true⟩ } := by
      simp [State.kfree, hpinfo, hlive]
    simp only [State.releaseStep, hfree, Except.ok_bind]
    exact ⟨_, rfl, hi.moved hinside rfl trivial hcount⟩

/-- No statement oopses, and every one keeps the invariant. -/
theorem step (hi : s.Inv) (current : Nat → Task) {m : Move} (hu : Undisturbed s m) :
    ∃ s', s.step current m = .ok s' ∧ s'.Inv := by
  unfold State.step
  cases hphase : s.phases m.handle with
  | idle =>
    have houtside : (s.phases m.handle).inside = false := by
      rw [hphase]
      rfl
    by_cases hopened : s.deviceOpened ≠ 0
    · simp only [if_pos hopened]
      exact ⟨_, rfl, hi.outside houtside rfl⟩
    · simp only [if_neg hopened]
      exact ⟨_, rfl, hi.outside houtside rfl⟩
  | opening next record =>
    cases next with
    | kmalloc => exact hi.kmalloc hphase hu _
    | _ => exact hi.openStep hphase (by simp) _
  | opened record =>
    have hinside : (s.phases m.handle).inside = true := by
      rw [hphase]
      rfl
    have hcount := hi.deviceOpened_eq hinside
    have hfits := hi.fits m.handle
    rw [hphase] at hfits hcount
    refine ⟨_, rfl, hi.moved hinside rfl hfits.1 ?_⟩
    show s.deviceOpened - 1 = 0
    rw [hcount]
    rfl
  | releasing next record => exact hi.releaseStep hphase
  | closed => exact ⟨s, rfl, hi⟩
  | failed error => exact ⟨s, rfl, hi⟩

theorem run {current : Nat → Task} {past future : List Move} {s : State} (hi : s.Inv)
    (hcalm : Calm current s (past ++ future)) :
    ∃ s', past.foldlM (State.step current) s = .ok s' ∧ s'.Inv := by
  induction past generalizing s with
  | nil => exact ⟨s, rfl, hi⟩
  | cons m past ih =>
    obtain ⟨hu, hrest⟩ := hcalm
    obtain ⟨s₁, hstep, hi₁⟩ := hi.step current hu
    obtain ⟨s', hrun, hi'⟩ := ih hi₁ (hrest s₁ hstep)
    refine ⟨s', ?_, hi'⟩
    rw [List.foldlM_cons, hstep, Except.ok_bind, hrun]

theorem exclusive (hi : s.Inv) : Exclusive s where
  one h k r q hh hk := by
    apply hi.one
    · rw [hh]
      rfl
    · rw [hk]
      rfl
  own h r hh := by
    have hfits := hi.fits h
    rw [hh] at hfits
    exact hfits

end Inv

end State

open State

/-- The device has one owner at every moment of every run in which no allocation is disturbed,
and no statement of such a run oopses. -/
theorem device_has_one_owner {current : Nat → Task} {moves : List Move}
    (hcalm : Calm current .init moves) {past future : List Move} (hmoves : moves = past ++ future) :
    ∃ s, State.run current past = .ok s ∧ Exclusive s := by
  subst hmoves
  obtain ⟨s, hrun, hi⟩ := State.Inv.init.run hcalm
  exact ⟨s, hrun, hi.exclusive⟩

/-- A handle that moves by itself. -/
def opensAlone (n : Nat) : List Move := List.replicate n ⟨0, some ⟨0, 0, 0, 0, 0⟩⟩

/-- Handle 0 is open when handle 1 is refused, and handle 2 passes the test while the release of
handle 0 is under way. -/
def ownerChanges : List Move :=
  opensAlone 8 ++ [⟨1, none⟩, ⟨0, none⟩, ⟨2, none⟩, ⟨0, none⟩, ⟨0, none⟩] ++
    List.replicate 7 ⟨2, some ⟨0, 0, 0, 0, 0⟩⟩

theorem Calm.cons {current : Nat → Task} {s s' : State} {m : Move} {moves : List Move}
    (hu : Undisturbed s m) (hstep : s.step current m = .ok s') (h : Calm current s' moves) :
    Calm current s (m :: moves) := by
  refine ⟨hu, fun s'' hs'' => ?_⟩
  obtain rfl := Except.ok.inj (hstep.symm.trans hs'')
  exact h

theorem ownerChanges_calm : Calm (fun _ => ⟨100, 100⟩) .init ownerChanges := by
  have other {s : State} {m : Move} (h : ∀ r, s.phases m.handle ≠ .opening .kmalloc r) :
      Undisturbed s m := fun r hphase => absurd hphase (h r)
  have free {s : State} {m : Move} (hzero : s.deviceOpened = 0)
      (hidle : ∀ k, s.phases (k + 3) = .idle) (h : ∀ k < 3, (s.phases k).busy = false) :
      Undisturbed s m := by
    refine fun _ _ => ⟨hzero, fun k => ?_⟩
    by_cases hk : k < 3
    · exact h k hk
    · have hk' := hidle (k - 3)
      rw [Nat.sub_add_cancel (Nat.le_of_not_lt hk)] at hk'
      rw [hk']
      rfl
  -- handle 0 allocates on the free device, handle 2 when handle 0 is closed
  refine .cons (other fun r h => by cases h) rfl ?_
  refine .cons (free rfl (fun _ => rfl) (by decide)) rfl ?_
  iterate 11 refine .cons (other fun r h => by cases h) rfl ?_
  refine .cons (free rfl (fun _ => rfl) (by decide)) rfl ?_
  iterate 6 refine .cons (other fun r h => by cases h) rfl ?_
  trivial

theorem device_changes_owner :
    (∃ s, State.run (fun _ => ⟨100, 100⟩) (ownerChanges.take 9) = .ok s ∧
      s.phases 0 = .opened (some 0) ∧ s.phases 1 = .failed (-EBUSY) ∧ Exclusive s) ∧
    ∃ s, State.run (fun _ => ⟨100, 100⟩) ownerChanges = .ok s ∧
      s.phases 0 = .closed ∧ s.phases 2 = .opened (some 1) ∧ Exclusive s := by
  constructor
  · obtain ⟨s, hrun, h⟩ := device_has_one_owner ownerChanges_calm
      (List.take_append_drop 9 ownerChanges).symm
    obtain rfl := Except.ok.inj hrun
    exact ⟨_, rfl, rfl, rfl, h⟩
  · obtain ⟨s, hrun, h⟩ := device_has_one_owner ownerChanges_calm (List.append_nil _).symm
    obtain rfl := Except.ok.inj hrun
    exact ⟨_, rfl, rfl, rfl, h⟩

/-- Two handles pass the test before either of them is counted, and both are open. -/
def bothOpen : List Move :=
  ⟨0, none⟩ :: ⟨1, none⟩ :: (opensAlone 7 ++ List.replicate 7 ⟨1, some ⟨0, 0, 0, 0, 0⟩⟩)

theorem two_handles_open : ¬ ∀ (current : Nat → Task) (moves : List Move) (s : State),
    State.run current moves = .ok s → Exclusive s := by
  intro h
  have hexclusive := h (fun _ => ⟨100, 100⟩) bothOpen _ rfl
  have heq := hexclusive.one 0 1 (some 0) (some 1) rfl rfl
  cases heq

end Bootcamp.Sthreads.Statements
