import Bootcamp.Os.Slots

/-! Every thread that was started is joined or runs in one slot, and the destructor joins
those that run. -/
namespace Bootcamp.Os

open Sthreads

theorem lastCreate_concat (trace : List (Call × Int)) (c : Call) (r tid : Int) :
    lastCreate (trace ++ [(c, r)]) tid =
      match c with
      | .create tfunc tharg _ => if r = tid then some (tfunc, tharg) else lastCreate trace tid
      | _ => lastCreate trace tid := by
  rw [lastCreate, List.foldl_append]
  cases c <;> rfl

namespace Process

theorem runningThreads_congr {p q : Process} {k : Nat}
    (h : ∀ i < k, (q.mgr.threads i).running = (p.mgr.threads i).running ∧
      (q.mgr.threads i)._tid = (p.mgr.threads i)._tid) :
    q.runningThreads k = p.runningThreads k := by
  have hfilter : (List.range k).filter (fun i => (q.mgr.threads i).running) =
      (List.range k).filter fun i => (p.mgr.threads i).running :=
    List.filter_congr fun i hi => (h i (List.mem_range.mp hi)).1
  rw [runningThreads, hfilter]
  apply List.map_congr_left
  intro i hi
  exact (h i (List.mem_range.mp (List.mem_filter.mp hi).1)).2

/-- One slot more that runs is one thread more. -/
theorem runningThreads_perm {p q : Process} {k i : Nat} (hi : i < k)
    (hp : (p.mgr.threads i).running = false) (hq : (q.mgr.threads i).running = true)
    (hothers : ∀ j, j ≠ i → q.mgr.threads j = p.mgr.threads j) :
    (q.runningThreads k).Perm ((q.mgr.threads i)._tid :: p.runningThreads k) := by
  have hsplit (p : Process) : (p.runningThreads k).Perm
      (((i :: (List.range k).erase i).filter fun j => (p.mgr.threads j).running).map
        fun j => (p.mgr.threads j)._tid) :=
    ((List.perm_cons_erase (List.mem_range.mpr hi)).filter _).map _
  have hother : ∀ j ∈ (List.range k).erase i, q.mgr.threads j = p.mgr.threads j := by
    intro j hj
    exact hothers j (List.nodup_range.mem_erase_iff.mp hj).1
  have hfilter : ((List.range k).erase i).filter (fun j => (q.mgr.threads j).running) =
      ((List.range k).erase i).filter fun j => (p.mgr.threads j).running :=
    List.filter_congr fun j hj => by rw [hother j hj]
  have hmap : (((List.range k).erase i).filter fun j => (p.mgr.threads j).running).map
        (fun j => (q.mgr.threads j)._tid) =
      (((List.range k).erase i).filter fun j => (p.mgr.threads j).running).map
        fun j => (p.mgr.threads j)._tid :=
    List.map_congr_left fun j hj => by rw [hother j (List.mem_filter.mp hj).1]
  have hrest := hsplit p
  rw [List.filter_cons_of_neg (by simp [hp])] at hrest
  refine (hsplit q).trans ?_
  rw [List.filter_cons_of_pos (by simpa using hq), List.map_cons, hfilter, hmap]
  exact hrest.symm.cons _

theorem collected_runningThreads (p : Process) (k : Nat) :
    (p.collected k).runningThreads k = [] := by
  have hnone : (List.range k).filter (fun i => ((p.collected k).mgr.threads i).running) = [] := by
    rw [List.filter_eq_nil_iff]
    intro i hi
    have hslot : (p.collected k).mgr.threads i = (p.mgr.threads i).released :=
      if_pos (List.mem_range.mp hi)
    rw [hslot]
    cases hrunning : (p.mgr.threads i).running with
    | false => simp [Thread.released_of_idle hrunning, hrunning]
    | true => simp [Thread.released_of_running hrunning]
  rw [runningThreads, hnone, List.map_nil]

end Process

/-- The threads that were started are those that were joined and those that run; a slot that
can be launched has what the last `create` for it was given. -/
structure Tracked (trace : List (Call × Int)) (p : Process) : Prop where
  slots : Slots (outstanding trace) (waited trace) p.mgr
  threads : (p.joined ++ p.runningThreads p.mgr.numThreads).Perm (List.range p.started.length)
  source : ∀ i < p.mgr.numThreads, (p.mgr.threads i).thfunc ≠ 0 →
    lastCreate trace i = some ((p.mgr.threads i).thfunc, (p.mgr.threads i).arg)

namespace Tracked

theorem begin {mgr : Thmgr} (hnew : mgr.New) (device : Device) (memory : UInt64 → UInt64) :
    Tracked [] (.begin mgr device memory) where
  slots := .new hnew
  threads := by
    have hnone : (Process.begin mgr device memory).runningThreads mgr.numThreads = [] := by
      have hidle : (List.range mgr.numThreads).filter (fun i => (mgr.threads i).running) = [] := by
        rw [List.filter_eq_nil_iff]
        intro i hi
        simp [(hnew.threads (List.mem_range.mp hi)).2.2.1]
      exact congrArg (List.map fun i => (mgr.threads i)._tid) hidle
    show ([] ++ _ : List Nat).Perm []
    rw [List.nil_append]
    exact (List.perm_nil).mpr hnone
  source i hi hfunc := absurd (hnew.threads hi).2.2.2 hfunc

/-- The threads behind a call. -/
theorem call_threads {trace : List (Call × Int)} {p p' : Process} (h : Tracked trace p)
    {current : Task} {c : Call} {r : Int} (hok : p.call current c = .ok (p', r)) :
    (p'.joined ++ p'.runningThreads p'.mgr.numThreads).Perm (List.range p'.started.length) := by
  have hthreads := h.threads
  cases c with
  | create tfunc tharg mmap =>
    cases Process.create_ok hok with
    | inl hbusy =>
      rw [hbusy.2.1]
      exact hthreads
    | inr hfree =>
      obtain ⟨i, hi, -, -, stack, rfl⟩ := hfree
      have hsame : Process.runningThreads { p with mgr := p.mgr.setThread i { p.mgr.threads i with
          used := true, thfunc := tfunc, arg := tharg, stack } } p.mgr.numThreads =
          p.runningThreads p.mgr.numThreads := by
        apply Process.runningThreads_congr
        intro j _
        by_cases hji : j = i
        · subst hji
          simp
        · simp [Thmgr.setThread_of_ne _ _ hji]
      rw [← hsame] at hthreads
      exact hthreads
  | launch tid random spawn =>
    obtain ⟨i, hi, rfl, hidle, -, device, memory, regs, -, rfl⟩ := Process.launch_ok hok
    refine (List.Perm.append_left p.joined (Process.runningThreads_perm hi hidle (by simp)
      fun j hji => Thmgr.setThread_of_ne _ _ hji)).trans ?_
    have hrange := (hthreads.cons p.started.length).trans
      (List.perm_append_singleton p.started.length (List.range p.started.length)).symm
    simp only [Thmgr.setThread_self, List.length_append, List.length_cons, List.length_nil,
      Nat.zero_add, List.range_succ]
    exact List.perm_middle.trans hrange
  | wait tid =>
    obtain ⟨i, hi, rfl, hrunning, rfl⟩ := Process.wait_ok hok
    simp only [List.append_assoc, List.singleton_append]
    refine (List.Perm.append_left p.joined (List.Perm.symm ?_)).trans hthreads
    exact Process.runningThreads_perm hi (by simp) hrunning
      fun j hji => (Thmgr.setThread_of_ne _ _ hji).symm
  | waitAll =>
    obtain rfl := h.slots.collected_of_waitAll hok
    show (_ ++ (p.collected p.mgr.numThreads).runningThreads p.mgr.numThreads).Perm _
    rw [Process.collected_runningThreads, List.append_nil]
    exact hthreads

theorem call_source {trace : List (Call × Int)} {p p' : Process} (h : Tracked trace p)
    {current : Task} {c : Call} {r : Int} (hok : p.call current c = .ok (p', r)) :
    ∀ i < p'.mgr.numThreads, (p'.mgr.threads i).thfunc ≠ 0 →
      lastCreate (trace ++ [(c, r)]) i =
        some ((p'.mgr.threads i).thfunc, (p'.mgr.threads i).arg) := by
  intro j hj hfunc
  rw [lastCreate_concat]
  cases c with
  | create tfunc tharg mmap =>
    cases Process.create_ok hok with
    | inl hbusy =>
      obtain ⟨rfl, rfl, -⟩ := hbusy
      have hne : (-1 : Int) ≠ j := by omega
      simp only [if_neg hne]
      exact h.source j hj hfunc
    | inr hfree =>
      obtain ⟨i, hi, -, rfl, stack, rfl⟩ := hfree
      rw [(h.slots.slot i hi).tid]
      by_cases hji : j = i
      · subst hji
        simp
      · have hne : (i : Int) ≠ j := fun heq => hji (Int.ofNat_inj.mp heq).symm
        simp only [Thmgr.setThread_of_ne _ _ hji] at hfunc ⊢
        simp only [if_neg hne]
        exact h.source j hj hfunc
  | launch tid random spawn =>
    obtain ⟨i, hi, rfl, -, hfunc', device, memory, regs, -, rfl⟩ := Process.launch_ok hok
    by_cases hji : j = i
    · subst hji
      simpa using h.source j hi hfunc'
    · simp only [Thmgr.setThread_of_ne _ _ hji] at hfunc ⊢
      exact h.source j hj hfunc
  | wait tid =>
    obtain ⟨i, hi, rfl, -, rfl⟩ := Process.wait_ok hok
    by_cases hji : j = i
    · subst hji
      simp at hfunc
    · simp only [Thmgr.setThread_of_ne _ _ hji] at hfunc ⊢
      exact h.source j hj hfunc
  | waitAll =>
    obtain rfl := h.slots.collected_of_waitAll hok
    have hslot : (p.collected p.mgr.numThreads).mgr.threads j = (p.mgr.threads j).released :=
      if_pos hj
    rw [hslot] at hfunc ⊢
    cases hrunning : (p.mgr.threads j).running with
    | false =>
      rw [Thread.released_of_idle hrunning] at hfunc ⊢
      exact h.source j hj hfunc
    | true => simp [Thread.released_of_running hrunning] at hfunc

theorem call {trace : List (Call × Int)} {p p' : Process} (h : Tracked trace p) {current : Task}
    {c : Call} {r : Int} (hok : p.call current c = .ok (p', r)) :
    Tracked (trace ++ [(c, r)]) p' where
  slots := by
    rw [outstanding_concat, waited_concat]
    exact (h.slots.call hok).1
  threads := h.call_threads hok
  source := h.call_source hok

theorem run {current : Task} {mgr : Thmgr} {device : Device} {memory : UInt64 → UInt64}
    {trace : List (Call × Int)} {p : Process} (hnew : mgr.New)
    (h : Run current (.begin mgr device memory) trace p) : Tracked trace p := by
  induction h with
  | begin => exact .begin hnew device memory
  | call _ hok ih => exact ih.call hok

end Tracked

/-- What can be said of the threads after the calls in `trace`. -/
structure JoinedOnce (current : Task) (trace : List (Call × Int)) (p : Process) : Prop where
  used : ∀ i < p.mgr.numThreads,
    (p.mgr.threads i).running = true → (p.mgr.threads i).used = true
  distinct : ((outstanding trace).map Handle.tid).Nodup
  once : p.joined.Nodup ∧ ∀ name ∈ p.joined, name < p.started.length
  launch : ∀ tid random spawn p' r, p.launch current tid random spawn = .ok (p', r) →
    ∃ tfunc tharg regs, lastCreate trace tid = some (tfunc, tharg) ∧
      p'.started = p.started ++ [⟨tfunc, tharg, regs⟩]
  waitAll : ∃ p', p.waitAll = .ok (p', 0) ∧ p'.started = p.started ∧
    p'.joined.Perm (List.range p.started.length)
  destroy : ∀ p', p.destroy current = .ok p' → p'.started = p.started ∧
    p'.joined.Perm (List.range p.started.length)

/-- Whatever calls were made: a slot that runs is used, two outstanding handles differ,
`launch` starts what `create` was given, and with the destructor every thread that was started
is joined once and no other one is. -/
theorem threads_joined_once {current : Task} {mgr : Thmgr} {device : Device}
    {memory : UInt64 → UInt64} {trace : List (Call × Int)} {p : Process} (hnew : mgr.New)
    (hrun : Run current (.begin mgr device memory) trace p) : JoinedOnce current trace p := by
  have htracked := Tracked.run hnew hrun
  have hused (i : Nat) (hi : i < p.mgr.numThreads) :
      (p.mgr.threads i).running = true → (p.mgr.threads i).used = true :=
    htracked.slots.used_of_running hi
  have hwait := Process.waitAll_eq hused
  have hjoined : (p.joined ++ p.runningThreads p.mgr.numThreads).Nodup :=
    htracked.threads.nodup_iff.mpr List.nodup_range
  constructor
  case used => exact hused
  case distinct => exact (List.nodup_append.mp htracked.slots.distinct).1
  case once =>
    refine ⟨(List.nodup_append.mp hjoined).1, fun name hname => ?_⟩
    exact List.mem_range.mp (htracked.threads.mem_iff.mp (List.mem_append_left _ hname))
  case launch =>
    intro tid random spawn p' r hlaunch
    obtain ⟨i, hi, rfl, -, hfunc, device, memory, regs, -, rfl⟩ := Process.launch_ok hlaunch
    exact ⟨_, _, regs, htracked.source i hi hfunc, rfl⟩
  case waitAll => exact ⟨_, hwait, rfl, htracked.threads⟩
  case destroy =>
    intro p' hdestroy
    obtain ⟨p₁, r, device, hwait', rfl⟩ := Process.destroy_ok hdestroy
    obtain ⟨rfl, -⟩ := Prod.mk.inj (Except.ok.inj (hwait.symm.trans hwait'))
    exact ⟨rfl, htracked.threads⟩

/-- Two threads are started, and the second one is waited for. -/
def twoThreads : List Call :=
  [.create 0x401000 7 0, .create 0x401000 8 0,
   .launch 0 0 ⟨⟨101, 100⟩, ⟨0x401000, 0x7f0000001f00⟩, id⟩,
   .launch 1 0 ⟨⟨102, 100⟩, ⟨0x401000, 0x7f0000101f00⟩, id⟩, .wait 1]

theorem threads_joined_once_two : ∃ trace p, (idle 2).New ∧
    Run ⟨100, 100⟩ (.begin (idle 2) .init fun _ => 0) trace p ∧ p.joined = [1] ∧
    JoinedOnce ⟨100, 100⟩ trace p := by
  have hnew : (idle 2).New := idle_new (by decide) (by decide)
  have hcalls : (Process.begin (idle 2) .init fun _ => 0).calls ⟨100, 100⟩ twoThreads =
      .ok (twoThreads.zip [0, 1, 0, 0, 0], _) := rfl
  have hrun := Run.calls .begin hcalls
  exact ⟨_, _, hnew, hrun, rfl, threads_joined_once hnew hrun⟩

end Bootcamp.Os
