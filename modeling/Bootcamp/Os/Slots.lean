import Bootcamp.Os.Thmgr
import Mathlib.Data.List.Nodup
import Mathlib.Data.List.Perm.Subperm

/-! Who holds which slot. The handles that `create` gave out and that nobody has waited for
are read off the calls of a run; the flags of the slots agree with them. -/
namespace Bootcamp.Os

/-- What `create` returned, and whether it was launched since. -/
structure Handle where
  tid : Int
  launched : Bool
  deriving DecidableEq

def Handle.mark (tid : Int) (h : Handle) : Handle :=
  if h.tid = tid then { h with launched := true } else h

def track (handles : List Handle) : Call × Int → List Handle
  | (.create _ _ _, r) => if 0 ≤ r then handles ++ [⟨r, false⟩] else handles
  | (.launch tid _ _, _) => handles.map (Handle.mark tid)
  | (.wait tid, _) => handles.filter fun h => h.tid ≠ tid
  | (.waitAll, _) => handles.filter fun h => !h.launched

/-- The handles that were created and not yet waited for. -/
def outstanding (trace : List (Call × Int)) : List Handle := trace.foldl track []

def Call.waited : Call → List Int
  | .wait tid => [tid]
  | _ => []

/-- The threads that were waited for one by one. -/
def waited (trace : List (Call × Int)) : List Int := trace.flatMap fun e => e.1.waited

/-- The arguments of the last `create` that returned `tid`. -/
def lastCreate (trace : List (Call × Int)) (tid : Int) : Option (UInt64 × UInt64) :=
  trace.foldl (fun last e =>
    match e with
    | (.create tfunc tharg _, r) => if r = tid then some (tfunc, tharg) else last
    | _ => last) none

theorem outstanding_concat (trace : List (Call × Int)) (e : Call × Int) :
    outstanding (trace ++ [e]) = track (outstanding trace) e := by
  simp [outstanding, List.foldl_append]

theorem waited_concat (trace : List (Call × Int)) (c : Call) (r : Int) :
    waited (trace ++ [(c, r)]) = waited trace ++ c.waited := by
  simp [waited]

/-! ## The flags of the slots -/

/-- A slot is used as long as its handle is outstanding, and for ever once it was waited for
on its own. -/
structure Slot (handles : List Handle) (singly : List Int) (i : Nat) (th : Thread) : Prop where
  tid : th.tid = i
  used : th.used = true ↔ (i : Int) ∈ handles.map Handle.tid ++ singly
  running : th.running = true ↔ Handle.mk i true ∈ handles
  thfunc : th.thfunc ≠ 0 → (i : Int) ∈ handles.map Handle.tid

theorem Slot.congr {handles handles' : List Handle} {singly singly' : List Int} {i : Nat}
    {th : Thread} (h : Slot handles singly i th)
    (hmem : (i : Int) ∈ handles'.map Handle.tid ++ singly' ↔
      (i : Int) ∈ handles.map Handle.tid ++ singly)
    (hheld : (i : Int) ∈ handles.map Handle.tid → (i : Int) ∈ handles'.map Handle.tid)
    (hlaunched : Handle.mk i true ∈ handles' ↔ Handle.mk i true ∈ handles) :
    Slot handles' singly' i th where
  tid := h.tid
  used := h.used.trans hmem.symm
  running := h.running.trans hlaunched.symm
  thfunc hfunc := hheld (h.thfunc hfunc)

structure Slots (handles : List Handle) (singly : List Int) (mgr : Thmgr) : Prop where
  distinct : (handles.map Handle.tid ++ singly).Nodup
  valid : ∀ t ∈ handles.map Handle.tid ++ singly, ∃ i < mgr.numThreads, t = (i : Int)
  slot : ∀ i < mgr.numThreads, Slot handles singly i (mgr.threads i)

namespace Slots

variable {handles : List Handle} {singly : List Int} {mgr : Thmgr}

theorem new (h : mgr.New) : Slots [] [] mgr where
  distinct := List.nodup_nil
  valid t ht := absurd ht List.not_mem_nil
  slot i hi := by
    obtain ⟨htid, hused, hrunning, hfunc⟩ := h.threads hi
    exact ⟨htid, by simp [hused], by simp [hrunning], fun h => absurd hfunc h⟩

theorem unique (h : Slots handles singly mgr) {a b : Handle} (ha : a ∈ handles) (hb : b ∈ handles)
    (htid : a.tid = b.tid) : a = b :=
  List.inj_on_of_nodup_map (List.nodup_append.mp h.distinct).1 ha hb htid

/-- A slot that runs is used. -/
theorem used_of_running (h : Slots handles singly mgr) {i : Nat} (hi : i < mgr.numThreads)
    (hrunning : (mgr.threads i).running = true) : (mgr.threads i).used = true := by
  apply (h.slot i hi).used.mpr
  apply List.mem_append_left
  exact List.mem_map_of_mem ((h.slot i hi).running.mp hrunning)

theorem not_held (h : Slots handles singly mgr) {i : Nat} (hi : i < mgr.numThreads)
    (hfree : (mgr.threads i).used = false) : (i : Int) ∉ handles.map Handle.tid ++ singly := by
  intro hmem
  rw [(h.slot i hi).used.mpr hmem] at hfree
  cases hfree

/-- A free slot goes to a new handle. -/
theorem create (h : Slots handles singly mgr) {i : Nat} (hi : i < mgr.numThreads)
    (hfree : (mgr.threads i).used = false) (tfunc tharg stack : UInt64) :
    Slots (handles ++ [⟨i, false⟩]) singly (mgr.setThread i { mgr.threads i with
      used := true, thfunc := tfunc, arg := tharg, stack }) := by
  have hnew := h.not_held hi hfree
  have hperm : ((handles ++ [Handle.mk i false]).map Handle.tid ++ singly).Perm
      ((i : Int) :: (handles.map Handle.tid ++ singly)) := by
    rw [List.map_append, List.append_assoc]
    exact List.perm_middle
  have hidle : Handle.mk i true ∉ handles := by
    intro hmem
    exact hnew (List.mem_append_left _ (List.mem_map_of_mem hmem))
  refine ⟨hperm.nodup_iff.mpr (List.nodup_cons.mpr ⟨hnew, h.distinct⟩), fun t ht => ?_, ?_⟩
  · cases List.mem_cons.mp (hperm.mem_iff.mp ht) with
    | inl hself => exact ⟨i, hi, hself⟩
    | inr hold => exact h.valid t hold
  · apply Thmgr.forall_setThread
    · have hrunning : (mgr.threads i).running = false := by
        rw [Bool.eq_false_iff]
        exact fun hrunning => hidle ((h.slot i hi).running.mp hrunning)
      exact ⟨(h.slot i hi).tid, by simp, by simp [hrunning, hidle], by simp⟩
    · intro j hj hji
      apply (h.slot j hj).congr
      · rw [hperm.mem_iff, List.mem_cons, Int.ofNat_inj]
        simp [hji]
      · intro hmem
        rw [List.map_append]
        exact List.mem_append_left _ hmem
      · simp

/-- A thread is started in a slot with a function. -/
theorem launch (h : Slots handles singly mgr) {i : Nat} (hi : i < mgr.numThreads)
    (hfunc : (mgr.threads i).thfunc ≠ 0) (name : Nat) :
    Slots (handles.map (Handle.mark i)) singly
      (mgr.setThread i { mgr.threads i with _tid := name, running := true }) := by
  have htids : (handles.map (Handle.mark i)).map Handle.tid = handles.map Handle.tid := by
    rw [List.map_map]
    apply List.map_congr_left
    intro a _
    simp only [Function.comp_apply, Handle.mark]
    split <;> rfl
  have hheld := (h.slot i hi).thfunc hfunc
  refine ⟨by rw [htids]; exact h.distinct, by rw [htids]; exact h.valid, ?_⟩
  apply Thmgr.forall_setThread
  · obtain ⟨a, ha, htid⟩ := List.mem_map.mp hheld
    have hmarked : Handle.mk i true ∈ handles.map (Handle.mark i) :=
      List.mem_map.mpr ⟨a, ha, by simp [Handle.mark, htid]⟩
    exact ⟨(h.slot i hi).tid, by rw [htids]; exact (h.slot i hi).used, by simp [hmarked],
      fun _ => by rw [htids]; exact hheld⟩
  · intro j hj hji
    apply (h.slot j hj).congr (by rw [htids]) (by rw [htids]; exact id)
    constructor
    · intro hmem
      obtain ⟨a, ha, hmark⟩ := List.mem_map.mp hmem
      unfold Handle.mark at hmark
      split_ifs at hmark with htid
      · have hij : (i : Int) = j := htid.symm.trans (congrArg Handle.tid hmark)
        exact absurd (Int.ofNat_inj.mp hij).symm hji
      · exact hmark ▸ ha
    · intro hmem
      refine List.mem_map.mpr ⟨_, hmem, ?_⟩
      have hne : (j : Int) ≠ i := fun heq => hji (Int.ofNat_inj.mp heq)
      simp [Handle.mark, hne]

/-- A thread is waited for on its own: its handle goes, its slot stays used. -/
theorem wait (h : Slots handles singly mgr) {i : Nat} (hi : i < mgr.numThreads)
    (hrunning : (mgr.threads i).running = true) :
    Slots (handles.filter fun a => a.tid ≠ (i : Int)) (singly ++ [(i : Int)])
      (mgr.setThread i { mgr.threads i with running := false, thfunc := 0 }) := by
  have hnodup := (List.nodup_append.mp h.distinct).1
  have hheld : (i : Int) ∈ handles.map Handle.tid :=
    List.mem_map_of_mem ((h.slot i hi).running.mp hrunning)
  have htids : (handles.filter fun a => a.tid ≠ (i : Int)).map Handle.tid =
      (handles.map Handle.tid).erase (i : Int) := by
    rw [hnodup.erase_eq_filter, List.filter_map]
    congr 1
    apply List.filter_congr
    intro a _
    rw [Bool.eq_iff_iff]
    simp
  have hperm : ((handles.filter fun a => a.tid ≠ (i : Int)).map Handle.tid ++
      (singly ++ [(i : Int)])).Perm (handles.map Handle.tid ++ singly) := by
    have hlast : ((handles.map Handle.tid).erase (i : Int) ++ singly ++ [(i : Int)]).Perm
        ((i : Int) :: ((handles.map Handle.tid).erase (i : Int) ++ singly)) :=
      List.perm_append_singleton _ _
    rw [htids, ← List.append_assoc]
    exact hlast.trans ((List.perm_cons_erase hheld).symm.append_right singly)
  refine ⟨hperm.nodup_iff.mpr h.distinct, fun t ht => h.valid t (hperm.mem_iff.mp ht), ?_⟩
  apply Thmgr.forall_setThread
  · refine ⟨(h.slot i hi).tid, ?_, by simp, by simp⟩
    rw [hperm.mem_iff]
    exact (h.slot i hi).used
  · intro j hj hji
    have hne : (j : Int) ≠ i := fun heq => hji (Int.ofNat_inj.mp heq)
    apply (h.slot j hj).congr hperm.mem_iff
    · intro hmem
      rw [htids]
      exact (List.mem_erase_of_ne hne).mpr hmem
    · simp [hne]

/-- A handle of a slot that does not run is one that was not launched. -/
theorem held_of_idle (h : Slots handles singly mgr) {i : Nat} (hi : i < mgr.numThreads)
    (hidle : (mgr.threads i).running = false) (hmem : (i : Int) ∈ handles.map Handle.tid) :
    (i : Int) ∈ (handles.filter fun a => !a.launched).map Handle.tid := by
  obtain ⟨⟨t, launched⟩, ha, htid⟩ := List.mem_map.mp hmem
  subst htid
  cases launched with
  | false => exact List.mem_map_of_mem (List.mem_filter.mpr ⟨ha, rfl⟩)
  | true =>
    rw [(h.slot i hi).running.mpr ha] at hidle
    cases hidle

/-- A slot that runs has no handle besides the launched one. -/
theorem not_held_of_running (h : Slots handles singly mgr) {i : Nat} (hi : i < mgr.numThreads)
    (hrunning : (mgr.threads i).running = true) :
    (i : Int) ∉ (handles.filter fun a => !a.launched).map Handle.tid ++ singly := by
  have hlaunched := (h.slot i hi).running.mp hrunning
  intro hmem
  cases List.mem_append.mp hmem with
  | inl hheld =>
    obtain ⟨a, ha, htid⟩ := List.mem_map.mp hheld
    obtain ⟨ha, hnot⟩ := List.mem_filter.mp ha
    rw [h.unique ha hlaunched htid] at hnot
    cases hnot
  | inr hsingly =>
    have hheld : (i : Int) ∈ handles.map Handle.tid := List.mem_map_of_mem hlaunched
    exact (List.nodup_append.mp h.distinct).2.2 _ hheld _ hsingly rfl

/-- What `wait` for all makes of one slot. -/
theorem released (h : Slots handles singly mgr) {i : Nat} (hi : i < mgr.numThreads) :
    Slot (handles.filter fun a => !a.launched) singly i (mgr.threads i).released := by
  cases hrunning : (mgr.threads i).running with
  | false =>
    rw [Thread.released_of_idle hrunning]
    apply (h.slot i hi).congr
    · simp only [List.mem_append]
      apply or_congr_left
      constructor
      · exact fun hmem => (List.filter_sublist.map Handle.tid).subset hmem
      · exact h.held_of_idle hi hrunning
    · exact h.held_of_idle hi hrunning
    · have hidle : Handle.mk i true ∉ handles := by
        intro hmem
        rw [(h.slot i hi).running.mpr hmem] at hrunning
        cases hrunning
      simp [hidle]
  | true =>
    have hgone := h.not_held_of_running hi hrunning
    rw [Thread.released_of_running hrunning]
    exact ⟨(h.slot i hi).tid, by simpa using hgone, by simp, by simp⟩

/-- All threads are waited for: the handles that were not launched stay. -/
theorem waitAll (h : Slots handles singly mgr) {mgr' : Thmgr}
    (hnum : mgr'.numThreads = mgr.numThreads)
    (hslots : ∀ i < mgr.numThreads, mgr'.threads i = (mgr.threads i).released) :
    Slots (handles.filter fun a => !a.launched) singly mgr' := by
  have hsub : ((handles.filter fun a => !a.launched).map Handle.tid ++ singly).Sublist
      (handles.map Handle.tid ++ singly) :=
    (List.filter_sublist.map Handle.tid).append_right singly
  refine ⟨hsub.nodup h.distinct, fun t ht => ?_, fun i hi => ?_⟩
  · rw [hnum]
    exact h.valid t (hsub.subset ht)
  · rw [hnum] at hi
    rw [hslots i hi]
    exact h.released hi

theorem collected_of_waitAll {p p' : Process} {r : Int} (h : Slots handles singly p.mgr)
    (hok : p.waitAll = .ok (p', r)) : p' = p.collected p.mgr.numThreads := by
  rw [Process.waitAll_eq fun i hi => h.used_of_running hi] at hok
  exact (Prod.mk.inj (Except.ok.inj hok)).1.symm

/-- There is a free slot exactly as long as not every slot has an outstanding handle or was
waited for on its own. -/
theorem free_iff (h : Slots handles singly mgr) :
    (∃ i < mgr.numThreads, (mgr.threads i).used = false) ↔
      handles.length + singly.length < mgr.numThreads := by
  have hlen : (handles.map Handle.tid ++ singly).length = handles.length + singly.length := by
    simp
  have hslots : ((List.range mgr.numThreads).map Int.ofNat).Nodup :=
    List.nodup_range.map fun _ _ => Int.ofNat.inj
  constructor
  · rintro ⟨i, hi, hfree⟩
    have hnew := h.not_held hi hfree
    have hsub : (i : Int) :: (handles.map Handle.tid ++ singly) ⊆
        (List.range mgr.numThreads).map Int.ofNat := by
      intro t ht
      rw [List.mem_map]
      cases List.mem_cons.mp ht with
      | inl hself => exact ⟨i, List.mem_range.mpr hi, hself.symm⟩
      | inr hmem =>
        obtain ⟨j, hj, rfl⟩ := h.valid t hmem
        exact ⟨j, List.mem_range.mpr hj, rfl⟩
    have hle := (List.subperm_of_subset (List.nodup_cons.mpr ⟨hnew, h.distinct⟩) hsub).length_le
    rw [List.length_cons, hlen, List.length_map, List.length_range] at hle
    exact hle
  · intro hlt
    by_contra hnone
    have hsub : (List.range mgr.numThreads).map Int.ofNat ⊆ handles.map Handle.tid ++ singly := by
      intro t ht
      obtain ⟨i, hi, rfl⟩ := List.mem_map.mp ht
      have hi := List.mem_range.mp hi
      apply (h.slot i hi).used.mp
      by_contra hfree
      exact hnone ⟨i, hi, Bool.eq_false_iff.mpr hfree⟩
    have hle := (List.subperm_of_subset hslots hsub).length_le
    rw [hlen, List.length_map, List.length_range] at hle
    omega

/-- A call does to the handles what it does to the slots. -/
theorem call {p p' : Process} (h : Slots handles singly p.mgr) {current : Sthreads.Task} {c : Call}
    {r : Int} (hok : p.call current c = .ok (p', r)) :
    Slots (track handles (c, r)) (singly ++ c.waited) p'.mgr ∧
      p'.mgr.numThreads = p.mgr.numThreads := by
  cases c with
  | create tfunc tharg mmap =>
    simp only [Call.waited, List.append_nil]
    cases Process.create_ok hok with
    | inl hbusy =>
      obtain ⟨rfl, rfl, -⟩ := hbusy
      exact ⟨h, rfl⟩
    | inr hfree =>
      obtain ⟨i, hi, hunused, rfl, stack, rfl⟩ := hfree
      have hvalid : 0 ≤ (p.mgr.threads i).tid := by
        rw [(h.slot i hi).tid]
        exact Int.natCast_nonneg i
      have htrack : track handles (.create tfunc tharg mmap, (p.mgr.threads i).tid) =
          handles ++ [⟨i, false⟩] := by
        rw [track, if_pos hvalid, (h.slot i hi).tid]
      rw [htrack]
      exact ⟨h.create hi hunused tfunc tharg stack, rfl⟩
  | launch tid random spawn =>
    simp only [Call.waited, List.append_nil]
    obtain ⟨i, hi, rfl, -, hfunc, device, memory, regs, -, rfl⟩ := Process.launch_ok hok
    exact ⟨h.launch hi hfunc _, rfl⟩
  | wait tid =>
    obtain ⟨i, hi, rfl, hrunning, rfl⟩ := Process.wait_ok hok
    exact ⟨h.wait hi hrunning, rfl⟩
  | waitAll =>
    simp only [Call.waited, List.append_nil]
    obtain rfl := h.collected_of_waitAll hok
    exact ⟨h.waitAll rfl fun i hi => if_pos hi, rfl⟩

theorem run {current : Sthreads.Task} {mgr : Thmgr} {device : Sthreads.Device}
    {memory : UInt64 → UInt64} {trace : List (Call × Int)} {p : Process} (hnew : mgr.New)
    (h : Run current (.begin mgr device memory) trace p) :
    Slots (outstanding trace) (waited trace) p.mgr ∧ p.mgr.numThreads = mgr.numThreads := by
  induction h with
  | begin => exact ⟨.new hnew, rfl⟩
  | call _ hok ih =>
    rw [outstanding_concat, waited_concat]
    obtain ⟨hslots, hnum⟩ := ih.1.call hok
    exact ⟨hslots, hnum.trans ih.2⟩

end Slots

/-! ## What `create` finds -/

/-- `P` holds of the calls before every `create` that is made with fewer handles outstanding
than there are slots, and of what it returns. -/
def AtCreate (mgr : Thmgr) (trace : List (Call × Int))
    (P : List (Call × Int) → Int → Prop) : Prop :=
  ∀ past tfunc tharg mmap r future, trace = past ++ (.create tfunc tharg mmap, r) :: future →
    (outstanding past).length < mgr.numThreads → P past r

/-- `create` finds a slot wherever it should, exactly in the runs where the threads that were
waited for one by one have left one. -/
theorem slots_reusable_iff {current : Sthreads.Task} {mgr : Thmgr} {device : Sthreads.Device}
    {memory : UInt64 → UInt64} {trace : List (Call × Int)} {p : Process} (hnew : mgr.New)
    (hrun : Run current (.begin mgr device memory) trace p) :
    AtCreate mgr trace (fun _ r => 0 ≤ r ∧ r < mgr.numThreads) ↔
      AtCreate mgr trace fun past _ =>
        (outstanding past).length + (waited past).length < mgr.numThreads := by
  have hfree {past : List (Call × Int)} {tfunc tharg mmap : UInt64} {r : Int}
      {future : List (Call × Int)}
      (htrace : trace = past ++ (.create tfunc tharg mmap, r) :: future) :
      (0 ≤ r ∧ r < mgr.numThreads) ↔
        (outstanding past).length + (waited past).length < mgr.numThreads := by
    rw [htrace] at hrun
    obtain ⟨p₁, p₂, hpast, hok⟩ := hrun.split
    obtain ⟨hslots, hnum⟩ := Slots.run hnew hpast
    rw [← hnum, ← hslots.free_iff]
    cases Process.create_ok hok with
    | inl hbusy =>
      obtain ⟨rfl, -, hall⟩ := hbusy
      constructor
      · intro hr
        omega
      · rintro ⟨i, hi, hunused⟩
        rw [hall i hi] at hunused
        cases hunused
    | inr hgiven =>
      obtain ⟨i, hi, hunused, rfl, -⟩ := hgiven
      rw [(hslots.slot i hi).tid]
      constructor
      · exact fun _ => ⟨i, hi, hunused⟩
      · exact fun _ => ⟨Int.natCast_nonneg i, by omega⟩
  constructor
  · intro h past tfunc tharg mmap r future htrace hroom
    exact (hfree htrace).mp (h past tfunc tharg mmap r future htrace hroom)
  · intro h past tfunc tharg mmap r future htrace hroom
    exact (hfree htrace).mpr (h past tfunc tharg mmap r future htrace hroom)

/-- A thread is waited for on its own, and a handle for another one is wanted. -/
def oneByOne : List Call :=
  [.create 0x401000 7 0, .launch 0 0 ⟨⟨101, 100⟩, ⟨0x401000, 0x7f0000001f00⟩, id⟩, .wait 0,
   .create 0x401000 8 0]

/-- With two slots the second handle is 1. -/
theorem slots_reusable_iff_two : ∃ trace p, (idle 2).New ∧
    Run ⟨100, 100⟩ (.begin (idle 2) .init fun _ => 0) trace p ∧ trace.map Prod.snd = [0, 0, 0, 1] ∧
    (AtCreate (idle 2) trace (fun _ r => 0 ≤ r ∧ r < 2) ↔
      AtCreate (idle 2) trace fun past _ =>
        (outstanding past).length + (waited past).length < 2) := by
  have hnew : (idle 2).New := idle_new (by decide) (by decide)
  have hcalls : (Process.begin (idle 2) .init fun _ => 0).calls ⟨100, 100⟩ oneByOne =
      .ok (oneByOne.zip [0, 0, 0, 1], _) := rfl
  have hrun := Run.calls .begin hcalls
  exact ⟨_, _, hnew, hrun, rfl, slots_reusable_iff hnew hrun⟩

/-- With one slot there is none left, and nobody has a handle. -/
theorem waited_slot_not_reusable : ¬ ∀ (current : Sthreads.Task) (mgr : Thmgr)
    (device : Sthreads.Device) (memory : UInt64 → UInt64) (trace : List (Call × Int)) (p : Process),
    mgr.New → Run current (.begin mgr device memory) trace p → outstanding trace = [] →
      AtCreate mgr trace fun _ r => 0 ≤ r ∧ r < mgr.numThreads := by
  intro h
  have hnew : (idle 1).New := idle_new (by decide) (by decide)
  have hcalls : (Process.begin (idle 1) .init fun _ => 0).calls ⟨100, 100⟩ oneByOne =
      .ok (oneByOne.zip [0, 0, 0, -1], _) := rfl
  have hcreate := h _ _ _ _ _ _ hnew (Run.calls .begin hcalls) rfl
    ((oneByOne.take 3).zip [0, 0, 0]) 0x401000 8 0 (-1) [] rfl (by decide)
  exact absurd hcreate.1 (by decide)

end Bootcamp.Os
