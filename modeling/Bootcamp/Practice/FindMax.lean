import Bootcamp.Lib.Checked
import Bootcamp.Lib.FirstMax
import Mathlib.Algebra.Order.BigOperators.Group.Finset

/-! The maximum of an array, found by several threads on its segments. -/
namespace Bootcamp.FindMax

open Checked Except

variable {K : Type} [LinearOrder K]

structure ThreadParam (K : Type) where
  /-- The pointer, as an offset into the whole array. -/
  array : Nat
  size : Nat
  max : K
  maxIndex : Nat
  startIndex : Nat

/-- Where a thread is: not created, before its first read, at the test of its loop, or gone. -/
inductive Pc where
  | absent
  | start
  | loop (ctr : Nat)
  | exited
  deriving DecidableEq

structure Thread (K : Type) where
  param : ThreadParam K
  pc : Pc

/-- Where `main` is: creating threads, joining them, or behind its first output. -/
inductive Main (K : Type) where
  | creating (ctr thPos : Nat)
  | joining (ctr : Nat) (max : K) (maxIndex : Nat)
  | printed (max : K) (maxIndex : Nat)

structure State (K : Type) where
  threads : Nat → Thread K
  main : Main K

def State.setThread (s : State K) (i : Nat) (th : Thread K) : State K :=
  { s with threads := Function.update s.threads i th }

/-- The stretches of `findMax` between two tests of its loop. -/
def findMax (function : Int → K) (a : List Int) (th : Thread K) : Except Fault (Thread K) :=
  match th.pc with
  | .absent | .exited => pure th
  | .start => do
    let x ← Checked.load a th.param.array
    pure { param := { th.param with max := function x, maxIndex := 0 }, pc := .loop 1 }
  | .loop ctr =>
    if ctr < th.param.size then do
      let x := function (← Checked.load a (th.param.array + ctr : Nat))
      if x > th.param.max then
        pure { param := { th.param with max := x, maxIndex := ctr }, pc := .loop (ctr + 1) }
      else
        pure { th with pc := .loop (ctr + 1) }
    else
      pure { th with pc := .exited }

/-- `param->size` of the thread `ctr`; the first one takes the residue. -/
def sizeOf (numElements numThreads ctr : Nat) : Nat :=
  if ctr = 0 then numElements / numThreads + numElements % numThreads
  else numElements / numThreads

/-- The parameters come zeroed; `zero` is the maximum they start with. -/
def State.create (s : State K) (zero : K) (n t ctr thPos : Nat) : State K :=
  { threads := Function.update s.threads ctr
      { param := { array := thPos, size := sizeOf n t ctr, max := zero, maxIndex := 0
                   startIndex := thPos }
        pc := .start }
    main := .creating (ctr + 1) (thPos + sizeOf n t ctr) }

/-- What `main` does with the result of the thread `ctr` it has joined. -/
def State.reduce (s : State K) (ctr : Nat) (max : K) (maxIndex : Nat) : State K :=
  let param := (s.threads ctr).param
  if ctr = 0 then
    { s with main := .joining (ctr + 1) param.max param.maxIndex }
  else if max < param.max then
    { s with main := .joining (ctr + 1) param.max (param.maxIndex + param.startIndex) }
  else
    { s with main := .joining (ctr + 1) max maxIndex }

def findMaxSerial (function : Int → K) (a : List Int) : Except Fault (K × Nat) := do
  let first ← Checked.load a 0
  (List.range (a.length - 1)).foldlM (fun (maxval, index) (k : Nat) => do
    let x := function (← Checked.load a (k + 1 : Nat))
    if x > maxval then pure (x, k + 1) else pure (maxval, index)) (function first, 0)

section Runs

variable (function : Int → K) (zero : K) (a : List Int) (t : Nat)

/-- A step of `main` or of one of its threads, whichever comes next. -/
inductive Step : State K → Except Fault (State K) → Prop
  | create {s : State K} {ctr thPos : Nat} : s.main = .creating ctr thPos → ctr < t →
      Step s (.ok (s.create zero a.length t ctr thPos))
  | assert {s : State K} {thPos : Nat} : s.main = .creating t thPos →
      Step s (if thPos = a.length then .ok { s with main := .joining 0 zero 0 }
        else .error .exit)
  | thread {s : State K} {i : Nat} : (s.threads i).pc ≠ .absent → (s.threads i).pc ≠ .exited →
      Step s ((findMax function a (s.threads i)).map (s.setThread i))
  | join {s : State K} {ctr maxIndex : Nat} {max : K} : s.main = .joining ctr max maxIndex →
      ctr < t → (s.threads ctr).pc = .exited → Step s (.ok (s.reduce ctr max maxIndex))
  | print {s : State K} {maxIndex : Nat} {max : K} : s.main = .joining t max maxIndex →
      Step s ((Checked.load a maxIndex).map fun _ => { s with main := .printed max maxIndex })

def State.initial (zero : K) : State K where
  threads _ := ⟨⟨0, 0, zero, 0, 0⟩, .absent⟩
  main := .creating 0 0

/-- The states reached after `k` steps. -/
inductive Run : Nat → State K → Prop
  | start : Run 0 (State.initial zero)
  | step {k : Nat} {s s' : State K} : Run k s → Step function zero a t s (.ok s') → Run (k + 1) s'

end Runs

section Segments

variable {n t : Nat}

/-- Where the segment of the thread `ctr` starts. -/
def offset (n t : Nat) : Nat → Nat
  | 0 => 0
  | ctr + 1 => offset n t ctr + sizeOf n t ctr

theorem offset_succ (ctr : Nat) : offset n t (ctr + 1) = n % t + (ctr + 1) * (n / t) := by
  induction ctr with
  | zero =>
    simp only [offset, sizeOf, if_pos]
    omega
  | succ ctr ih =>
    rw [offset, ih, sizeOf, if_neg (by omega), Nat.succ_mul (ctr + 1)]
    omega

theorem offset_all (ht : 0 < t) : offset n t t = n := by
  obtain ⟨ctr, rfl⟩ : ∃ ctr, t = ctr + 1 := ⟨t - 1, by omega⟩
  rw [offset_succ, Nat.mod_add_div]

theorem offset_mono {i j : Nat} (h : i ≤ j) : offset n t i ≤ offset n t j := by
  induction h with
  | refl => exact le_rfl
  | step _ ih => exact ih.trans (Nat.le_add_right _ _)

theorem segment_inside {i : Nat} (hi : i < t) : offset n t i + sizeOf n t i ≤ n := by
  have hmono : offset n t (i + 1) ≤ offset n t t := offset_mono hi
  rw [offset_all (by omega)] at hmono
  exact hmono

/-- With no more threads than elements no segment is empty. -/
theorem sizeOf_pos (ht : 0 < t) (htn : t ≤ n) (i : Nat) : 0 < sizeOf n t i := by
  have hdiv : 0 < n / t := Nat.div_pos htn ht
  unfold sizeOf
  split
  · omega
  · exact hdiv

end Segments

section Invariant

variable {function : Int → K} {zero : K} {a : List Int} {t : Nat}

/-- The first `len` keys of the segment that starts at `off`. -/
def segment (function : Int → K) (a : List Int) (off len : Nat) : List K :=
  ((a.map function).drop off).take len

omit [LinearOrder K] in
theorem segment_succ {off len : Nat} {x : Int} (h : a[off + len]? = some x) :
    segment function a off (len + 1) = segment function a off len ++ [function x] := by
  rw [segment, segment, List.take_add_one]
  simp [h]

omit [LinearOrder K] in
theorem segment_append (i : Nat) :
    (a.map function).take (offset a.length t i) ++
      segment function a (offset a.length t i) (sizeOf a.length t i) =
      (a.map function).take (offset a.length t (i + 1)) := by
  rw [offset, segment, List.take_add]

/-- The parameters of the thread `i`. -/
structure ParamOk (a : List Int) (t i : Nat) (param : ThreadParam K) : Prop where
  array : param.array = offset a.length t i
  size : param.size = sizeOf a.length t i
  startIndex : param.startIndex = offset a.length t i

/-- What the thread `i` has found, as far as it has come. -/
inductive ThreadOk (function : Int → K) (a : List Int) (t i : Nat) : Thread K → Prop
  | absent {param : ThreadParam K} : ThreadOk function a t i ⟨param, .absent⟩
  | start {param : ThreadParam K} : ParamOk a t i param → ThreadOk function a t i ⟨param, .start⟩
  | loop {param : ThreadParam K} {ctr : Nat} : ParamOk a t i param → 0 < ctr → ctr ≤ param.size →
      IsFirstMax (segment function a (offset a.length t i) ctr) param.max param.maxIndex →
      ThreadOk function a t i ⟨param, .loop ctr⟩
  | exited {param : ThreadParam K} : ParamOk a t i param →
      IsFirstMax (segment function a (offset a.length t i) (sizeOf a.length t i)) param.max
        param.maxIndex → ThreadOk function a t i ⟨param, .exited⟩

/-- The turns a thread has left, at most. -/
def Pc.left (n : Nat) : Pc → Nat
  | .absent => n + 3
  | .start => n + 2
  | .loop ctr => n + 1 - ctr
  | .exited => 0

theorem findMax_ok {i : Nat} {th : Thread K} (hi : i < t) (htn : t ≤ a.length)
    (h : ThreadOk function a t i th) (hcreated : th.pc ≠ .absent) (hrunning : th.pc ≠ .exited) :
    ∃ th', findMax function a th = .ok th' ∧ ThreadOk function a t i th' ∧ th'.pc ≠ .absent ∧
      th'.pc.left a.length < th.pc.left a.length := by
  have hinside : offset a.length t i + sizeOf a.length t i ≤ a.length := segment_inside hi
  have hpos : 0 < sizeOf a.length t i := sizeOf_pos (by omega) htn i
  have hread {j : Nat} (hj : j < sizeOf a.length t i) :
      ∃ x, a[offset a.length t i + j]? = some x :=
    ⟨_, List.getElem?_eq_getElem (by omega)⟩
  cases h with
  | absent => exact absurd rfl hcreated
  | exited => exact absurd rfl hrunning
  | @start param hparam =>
    obtain ⟨x, hx⟩ := hread hpos
    have hsingle : segment function a (offset a.length t i) (0 + 1) = [function x] :=
      segment_succ hx
    rw [Nat.add_zero] at hx
    refine ⟨⟨{ param with max := function x, maxIndex := 0 }, .loop 1⟩, ?_, .loop ⟨hparam.array,
      hparam.size, hparam.startIndex⟩ (by omega) (by rw [hparam.size]; omega) ?_, by simp, ?_⟩
    · simp only [findMax, hparam.array, load_ok hx, ok_bind]
      rfl
    · rw [hsingle]
      exact .singleton _
    · simp [Pc.left]
  | @loop param ctr hparam hctr hle hmax =>
    by_cases hlt : ctr < sizeOf a.length t i
    · obtain ⟨x, hx⟩ := hread hlt
      have hfind : findMax function a ⟨param, .loop ctr⟩ =
          if function x > param.max then
            .ok ⟨{ param with max := function x, maxIndex := ctr }, .loop (ctr + 1)⟩
          else .ok ⟨param, .loop (ctr + 1)⟩ := by
        simp only [findMax, hparam.array, hparam.size, if_pos hlt, load_ok hx, ok_bind]
        rfl
      have hleft : Pc.left a.length (.loop (ctr + 1)) < Pc.left a.length (.loop ctr) := by
        simp only [Pc.left]
        omega
      have hlen : (segment function a (offset a.length t i) ctr).length = ctr := by
        simp [segment]
        omega
      rw [hfind]
      by_cases hgt : function x > param.max
      · rw [if_pos hgt]
        refine ⟨_, rfl, .loop ⟨hparam.array, hparam.size, hparam.startIndex⟩ (by omega)
          (by rw [hparam.size]; exact hlt) ?_, by simp, hleft⟩
        have := hmax.append_of_lt (.singleton _) hgt
        rwa [← segment_succ hx, hlen, Nat.add_zero] at this
      · rw [if_neg hgt]
        refine ⟨_, rfl, .loop hparam (by omega) (by rw [hparam.size]; exact hlt) ?_, by simp,
          hleft⟩
        rw [segment_succ hx]
        exact hmax.append_of_le (by simpa using hgt)
    · obtain rfl : ctr = sizeOf a.length t i := by have := hparam.size; omega
      refine ⟨⟨param, .exited⟩, ?_, .exited hparam hmax, by simp, ?_⟩
      · simp only [findMax, hparam.size, if_neg hlt]
        rfl
      · simp only [Pc.left]
        omega

/-- How many threads `main` has created. -/
def Main.created (t : Nat) : Main K → Nat
  | .creating ctr _ => ctr
  | _ => t

/-- What `main` has found. -/
inductive MainOk (function : Int → K) (a : List Int) (t : Nat) : Main K → Prop
  | creating {ctr : Nat} : ctr ≤ t → MainOk function a t (.creating ctr (offset a.length t ctr))
  | joining {ctr maxIndex : Nat} {max : K} : ctr ≤ t →
      (0 < ctr → IsFirstMax ((a.map function).take (offset a.length t ctr)) max maxIndex) →
      MainOk function a t (.joining ctr max maxIndex)
  | printed {maxIndex : Nat} {max : K} : IsFirstMax (a.map function) max maxIndex →
      MainOk function a t (.printed max maxIndex)

structure Ok (function : Int → K) (a : List Int) (t : Nat) (s : State K) : Prop where
  main : MainOk function a t s.main
  threads : ∀ i, ThreadOk function a t i (s.threads i)
  absent : ∀ i, (s.threads i).pc = .absent ↔ s.main.created t ≤ i

/-- The steps `main` has left. -/
def Main.left (t : Nat) : Main K → Nat
  | .creating ctr _ => 2 * t + 3 - ctr
  | .joining ctr _ _ => t + 1 - ctr
  | .printed _ _ => 0

/-- The steps that are left, at most. -/
def State.left (n t : Nat) (s : State K) : Nat :=
  (∑ i ∈ Finset.range t, (s.threads i).pc.left n) + s.main.left t

omit [LinearOrder K] in
/-- A thread comes closer to its end and `main` does not lose ground, or the other way round. -/
theorem left_lt {n t : Nat} {s s' : State K}
    (hthreads : ∀ i, i < t → (s'.threads i).pc.left n ≤ (s.threads i).pc.left n)
    (hmain : s'.main.left t ≤ s.main.left t)
    (hstrict : (∃ i < t, (s'.threads i).pc.left n < (s.threads i).pc.left n) ∨
      s'.main.left t < s.main.left t) : s'.left n t < s.left n t := by
  have hsum : ∑ i ∈ Finset.range t, (s'.threads i).pc.left n ≤
      ∑ i ∈ Finset.range t, (s.threads i).pc.left n :=
    Finset.sum_le_sum fun i hi => hthreads i (Finset.mem_range.mp hi)
  unfold State.left
  rcases hstrict with ⟨i, hi, hlt⟩ | hlt
  · have : ∑ i ∈ Finset.range t, (s'.threads i).pc.left n <
        ∑ i ∈ Finset.range t, (s.threads i).pc.left n :=
      Finset.sum_lt_sum (fun j hj => hthreads j (Finset.mem_range.mp hj))
        ⟨i, Finset.mem_range.mpr hi, hlt⟩
    omega
  · omega

theorem create_ok {s : State K} {ctr : Nat} (h : Ok function a t s)
    (hpc : s.main = .creating ctr (offset a.length t ctr)) (hctr : ctr < t) :
    Ok function a t (s.create zero a.length t ctr (offset a.length t ctr)) where
  main := .creating hctr
  threads i := by
    by_cases hi : i = ctr
    · subst hi
      simpa [State.create] using .start ⟨rfl, rfl, rfl⟩
    · simpa [State.create, Function.update_of_ne hi] using h.threads i
  absent i := by
    have habsent := h.absent i
    rw [hpc] at habsent
    by_cases hi : i = ctr
    · subst hi
      simp [State.create, Main.created]
    · simp only [State.create, Function.update_of_ne hi, habsent, Main.created]
      omega

theorem create_left {s : State K} {ctr thPos : Nat} (h : Ok function a t s)
    (hpc : s.main = .creating ctr thPos) (hctr : ctr < t) :
    (s.create zero a.length t ctr thPos).left a.length t < s.left a.length t := by
  have habsent : (s.threads ctr).pc = .absent := (h.absent ctr).mpr (by simp [hpc, Main.created])
  apply left_lt
  · intro i hi
    by_cases hic : i = ctr
    · subst hic
      simp [State.create, habsent, Pc.left]
    · simp [State.create, Function.update_of_ne hic]
  · simp only [State.create, hpc, Main.left]
    omega
  · right
    simp only [State.create, hpc, Main.left]
    omega

/-- A step of one thread. -/
theorem thread_ok {s : State K} {i : Nat} {th : Thread K} (h : Ok function a t s)
    (hcreated : (s.threads i).pc ≠ .absent) (hth : ThreadOk function a t i th)
    (hpresent : th.pc ≠ .absent) : Ok function a t (s.setThread i th) where
  main := h.main
  threads j := by
    by_cases hj : j = i
    · subst hj
      simpa [State.setThread] using hth
    · simpa [State.setThread, Function.update_of_ne hj] using h.threads j
  absent j := by
    have habsent := h.absent j
    by_cases hj : j = i
    · subst hj
      simpa [State.setThread, hpresent] using habsent.not.mp hcreated
    · simpa [State.setThread, Function.update_of_ne hj] using habsent

omit [LinearOrder K] in
theorem thread_left {s : State K} {i : Nat} {th : Thread K} {n : Nat} (hi : i < t)
    (hlt : th.pc.left n < (s.threads i).pc.left n) : (s.setThread i th).left n t < s.left n t := by
  apply left_lt
  · intro j hj
    by_cases hji : j = i
    · subst hji
      simpa [State.setThread] using hlt.le
    · simp [State.setThread, Function.update_of_ne hji]
  · exact le_rfl
  · left
    exact ⟨i, hi, by simpa [State.setThread] using hlt⟩

/-- The reduction extends the maximum of the segments in front by that of one more. -/
theorem reduce_eq {s : State K} {ctr maxIndex : Nat} {max : K} (h : Ok function a t s)
    (hpc : s.main = .joining ctr max maxIndex) (hctr : ctr < t)
    (hexited : (s.threads ctr).pc = .exited) :
    ∃ max' maxIndex', s.reduce ctr max maxIndex =
        { s with main := .joining (ctr + 1) max' maxIndex' } ∧
      IsFirstMax ((a.map function).take (offset a.length t (ctr + 1))) max' maxIndex' := by
  have hmain := h.main
  have hth := h.threads ctr
  have hinside : offset a.length t ctr + sizeOf a.length t ctr ≤ a.length := segment_inside hctr
  have hlen : ((a.map function).take (offset a.length t ctr)).length = offset a.length t ctr := by
    simp
    omega
  unfold State.reduce
  generalize s.threads ctr = th at hth hexited
  rw [hpc] at hmain
  cases hmain with | joining hle hmax =>
  cases hth with
  | absent => cases hexited
  | start => cases hexited
  | loop => cases hexited
  | @exited param hparam hsegment =>
    rw [← segment_append]
    by_cases hzero : ctr = 0
    · subst hzero
      exact ⟨_, _, if_pos rfl, by simpa [offset] using hsegment⟩
    · have hfront := hmax (by omega)
      by_cases hgt : max < param.max
      · refine ⟨_, _, by simp only [if_neg hzero, if_pos hgt]; rfl, ?_⟩
        have hnext := hfront.append_of_lt hsegment hgt
        rw [hlen] at hnext
        rwa [hparam.startIndex, Nat.add_comm]
      · refine ⟨_, _, by simp only [if_neg hzero, if_neg hgt]; rfl, ?_⟩
        exact hfront.append_of_le fun y hy => (hsegment.upper y hy).trans (not_lt.mp hgt)

/-- `main` goes on where every thread has been created. -/
theorem main_ok {s : State K} {main : Main K} (h : Ok function a t s)
    (hmain : MainOk function a t main) (hbefore : s.main.created t = t)
    (hafter : main.created t = t) : Ok function a t { s with main } where
  main := hmain
  threads := h.threads
  absent i := by
    rw [h.absent i, hbefore, hafter]

omit [LinearOrder K] in
theorem main_left {s : State K} {main : Main K} {n : Nat} (h : main.left t < s.main.left t) :
    State.left n t { s with main } < s.left n t :=
  left_lt (fun _ _ => le_rfl) h.le (.inr h)

/-- A step of a run that has gone well goes well. -/
theorem step_ok (ht : 0 < t) (htn : t ≤ a.length) {s : State K} {r : Except Fault (State K)}
    (h : Ok function a t s) (hstep : Step function zero a t s r) :
    ∃ s', r = .ok s' ∧ Ok function a t s' ∧ s'.left a.length t < s.left a.length t := by
  have hmain := h.main
  cases hstep with
  | @create ctr thPos hpc hctr =>
    rw [hpc] at hmain
    cases hmain with | creating hle =>
    exact ⟨_, rfl, create_ok h hpc hctr, create_left h hpc hctr⟩
  | @assert thPos hpc =>
    rw [hpc] at hmain
    cases hmain with | creating hle =>
    rw [if_pos (offset_all ht)]
    exact ⟨_, rfl, main_ok h (.joining (Nat.zero_le t) (by simp)) (by rw [hpc]; rfl) rfl,
      main_left (by rw [hpc]; simp only [Main.left]; omega)⟩
  | @thread i hcreated hrunning =>
    have hi : i < t := by
      by_contra hout
      apply hcreated
      rw [h.absent i]
      cases hpc : s.main with
      | creating ctr thPos =>
        rw [hpc] at hmain
        cases hmain with | creating hle =>
        simp only [Main.created]
        omega
      | joining ctr max maxIndex => simpa [Main.created] using hout
      | printed max maxIndex => simpa [Main.created] using hout
    obtain ⟨th, hfind, hth, hpresent, hlt⟩ := findMax_ok hi htn (h.threads i) hcreated hrunning
    exact ⟨s.setThread i th, by rw [hfind]; rfl, thread_ok h hcreated hth hpresent,
      thread_left hi hlt⟩
  | @join ctr maxIndex max hpc hctr hexited =>
    obtain ⟨max', maxIndex', hreduce, hmax⟩ := reduce_eq h hpc hctr hexited
    rw [hreduce]
    exact ⟨_, rfl, main_ok h (.joining hctr fun _ => hmax) (by rw [hpc]; rfl) rfl,
      main_left (by rw [hpc]; simp only [Main.left]; omega)⟩
  | @print maxIndex max hpc =>
    rw [hpc] at hmain
    cases hmain with | joining hle hmax =>
    have hall := hmax ht
    rw [offset_all ht, List.take_of_length_le (by simp)] at hall
    obtain ⟨x, hx, -⟩ : ∃ x, a[maxIndex]? = some x ∧ function x = max := by
      simpa using hall.at_index
    rw [load_ok hx]
    exact ⟨_, rfl, main_ok h (.printed hall) (by rw [hpc]; rfl) rfl,
      main_left (by rw [hpc]; simp only [Main.left]; omega)⟩

theorem initial_ok : Ok function a t (State.initial zero) where
  main := .creating (Nat.zero_le t)
  threads _ := .absent
  absent i := by simp [State.initial, Main.created]

theorem run_ok (ht : 0 < t) (htn : t ≤ a.length) {k : Nat} {s : State K}
    (h : Run function zero a t k s) :
    Ok function a t s ∧ k + s.left a.length t ≤ t * (a.length + 3) + (2 * t + 3) := by
  induction h with
  | start =>
    refine ⟨initial_ok, ?_⟩
    simp [State.left, State.initial, Pc.left, Main.left]
  | step _ hstep ih =>
    obtain ⟨hok, hleft⟩ := ih
    obtain ⟨s', hs', hok', hlt⟩ := step_ok ht htn hok hstep
    obtain rfl := Except.ok.inj hs'
    exact ⟨hok', by omega⟩

/-- A run is never stuck before the output. -/
theorem ok_moves (ht : 0 < t) (htn : t ≤ a.length) {s : State K} (h : Ok function a t s) :
    (∃ max maxIndex, s.main = .printed max maxIndex) ∨
      ∃ s', Step function zero a t s (.ok s') := by
  have hmoves {r : Except Fault (State K)} (hstep : Step function zero a t s r) :
      ∃ s', Step function zero a t s (.ok s') := by
    obtain ⟨s', rfl, -⟩ := step_ok ht htn h hstep
    exact ⟨s', hstep⟩
  have hmain := h.main
  cases hpc : s.main with
  | creating ctr thPos =>
    rw [hpc] at hmain
    cases hmain with | creating hle =>
    right
    rcases Nat.lt_or_eq_of_le hle with hlt | rfl
    · exact hmoves (.create hpc hlt)
    · exact hmoves (.assert hpc)
  | joining ctr max maxIndex =>
    rw [hpc] at hmain
    cases hmain with | joining hle hmax =>
    right
    rcases Nat.lt_or_eq_of_le hle with hlt | rfl
    · have hcreated : (s.threads ctr).pc ≠ .absent := by
        rw [ne_eq, h.absent ctr, hpc]
        simpa [Main.created] using hlt
      by_cases hexited : (s.threads ctr).pc = .exited
      · exact hmoves (.join hpc hlt hexited)
      · exact hmoves (.thread hcreated hexited)
    · exact hmoves (.print hpc)
  | printed max maxIndex => exact .inl ⟨max, maxIndex, rfl⟩

/-- The serial search finds the greatest key where it stands first. -/
theorem findMaxSerial_ok (function : Int → K) (ha : a ≠ []) :
    ∃ result, findMaxSerial function a = .ok result ∧
      IsFirstMax (a.map function) result.1 result.2 := by
  have hread {j : Nat} (hj : j < a.length) : ∃ x, a[j]? = some x :=
    ⟨_, List.getElem?_eq_getElem hj⟩
  have hpos := List.length_pos_iff.mpr ha
  have hkeys {j : Nat} {x : Int} (hx : a[j]? = some x) :
      (a.map function).take (j + 1) = (a.map function).take j ++ [function x] := by
    simp [List.take_add_one, hx]
  obtain ⟨first, hfirst⟩ := hread hpos
  have hloop : Delivers (fun _ => False) (findMaxSerial function a)
      (fun result => IsFirstMax ((a.map function).take (a.length - 1 + 1)) result.1 result.2) := by
    rw [findMaxSerial, show (0 : Int) = (0 : Nat) from rfl, load_ok hfirst, ok_bind]
    apply Delivers.range
      (I := fun k (result : K × Nat) =>
        IsFirstMax ((a.map function).take (k + 1)) result.1 result.2)
    · rw [hkeys hfirst]
      exact .singleton _
    · rintro k ⟨maxval, index⟩ hk hmax
      obtain ⟨x, hx⟩ := hread (show k + 1 < a.length by omega)
      have hlen : ((a.map function).take (k + 1)).length = k + 1 := by
        simp
        omega
      dsimp only at hmax ⊢
      rw [load_ok hx, ok_bind, hkeys hx]
      by_cases hgt : function x > maxval
      · rw [if_pos hgt]
        have hnext := hmax.append_of_lt (.singleton _) hgt
        rw [hlen] at hnext
        exact .ok hnext
      · rw [if_neg hgt]
        exact .ok (hmax.append_of_le (by simpa using hgt))
  obtain ⟨result, hrun, hmax⟩ := hloop.result
  rw [List.take_of_length_le (by simp; omega)] at hmax
  exact ⟨result, hrun, hmax⟩

/-- With more threads than elements the second one reads behind the array. -/
theorem reads_outside (function : Int → K) (zero : K) (hn : a.length < t) (ha : a ≠ []) :
    ∃ s, Run function zero a t 2 s ∧ Step function zero a t s (.error .outOfBounds) := by
  have hpos := List.length_pos_iff.mpr ha
  have hsize : sizeOf a.length t 0 = a.length := by
    rw [sizeOf, if_pos rfl, Nat.div_eq_of_lt hn, Nat.mod_eq_of_lt hn, Nat.zero_add]
  have hfirst : Run function zero a t 1 _ := .step .start (.create rfl (by omega))
  have hsecond : Run function zero a t 2 _ := .step hfirst (.create rfl (by omega))
  refine ⟨_, hsecond, ?_⟩
  generalize hs : State.create _ _ _ _ _ _ = s
  have hthread : s.threads 1 =
      ⟨⟨0 + sizeOf a.length t 0, sizeOf a.length t 1, zero, 0, 0 + sizeOf a.length t 0⟩,
        .start⟩ := by
    rw [← hs]
    simp [State.create]
  have hload : Checked.load a ((0 + sizeOf a.length t 0 : Nat) : Int) = .error .outOfBounds := by
    rw [hsize]
    simp [Checked.load]
  have hread : (findMax function a (s.threads 1)).map (s.setThread 1) = .error .outOfBounds := by
    simp only [hthread, findMax, hload, error_bind]
    rfl
  rw [← hread]
  exact .thread (by simp [hthread]) (by simp [hthread])

end Invariant

/-- No step of any run reads outside of the array, and all runs end with the result of the serial
search, just when there are no more threads than elements. -/
theorem parallel_max_iff (function : Int → K) (zero : K) {a : List Int} {t : Nat}
    (ha : a ≠ []) (ht : 0 < t) :
    (∀ k s, Run function zero a t k s →
      (∀ e, ¬ Step function zero a t s (.error e)) ∧
      k ≤ t * (a.length + 3) + (2 * t + 3) ∧
      ((∃ max maxIndex, s.main = .printed max maxIndex) ∨
        ∃ s', Step function zero a t s (.ok s')) ∧
      ∀ max maxIndex, s.main = .printed max maxIndex →
        findMaxSerial function a = .ok (max, maxIndex)) ↔ t ≤ a.length := by
  constructor
  · intro hruns
    by_contra hlt
    obtain ⟨s, hrun, hstep⟩ := reads_outside function zero (Nat.lt_of_not_le hlt) ha
    exact (hruns 2 s hrun).1 _ hstep
  · intro htn k s hrun
    obtain ⟨hok, hleft⟩ := run_ok ht htn hrun
    refine ⟨fun e hstep => ?_, by omega, ok_moves ht htn hok, fun max maxIndex hprinted => ?_⟩
    · obtain ⟨s', hs', -⟩ := step_ok ht htn hok hstep
      cases hs'
    · have hmain := hok.main
      rw [hprinted] at hmain
      cases hmain with | printed hmax =>
      obtain ⟨⟨maxval, index⟩, hserial, hfirst⟩ := findMaxSerial_ok function ha
      obtain ⟨rfl, rfl⟩ := hfirst.unique hmax
      exact hserial

theorem parallel_max_iff_three :
    (∀ k s, Run id 0 [4, 7, 7] 2 k s →
      (∀ e, ¬ Step id 0 [4, 7, 7] 2 s (.error e)) ∧
      k ≤ 2 * (3 + 3) + (2 * 2 + 3) ∧
      ((∃ max maxIndex, s.main = .printed max maxIndex) ∨
        ∃ s', Step id 0 [4, 7, 7] 2 s (.ok s')) ∧
      ∀ max maxIndex, s.main = .printed max maxIndex →
        findMaxSerial id [4, 7, 7] = .ok (max, maxIndex)) ↔ 2 ≤ [4, 7, (7 : Int)].length :=
  parallel_max_iff id 0 (by decide) (by decide)

/-- One element and two threads: the second thread reads `a[1]`. -/
theorem second_thread_reads_outside :
    ∃ s, Run id 0 [5] 2 2 s ∧ Step id 0 [(5 : Int)] 2 s (.error .outOfBounds) :=
  reads_outside id 0 (by decide) (by decide)

end Bootcamp.FindMax
