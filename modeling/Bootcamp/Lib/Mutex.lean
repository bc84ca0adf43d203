import Bootcamp.Lib.Interleaving
import Bootcamp.Lib.Pool
import Mathlib.Algebra.BigOperators.Group.List.Basic

/-! Threads that take turns at one mutex. Each runs critical sections, step by step, and the
steps of all threads mix in any order; what they leave behind is what the sections leave
behind when each of them runs in one piece. -/
namespace Mutex

/-- The section that a thread is in, as far as it has not run, and those still in front of it. -/
structure Thread (α : Type) where
  inside : Option (List α)
  sections : List (List α)

/-- Nothing reads `entered`, the history of the sections in the order in which they began. -/
structure State (σ α : Type) where
  locked : Bool
  threads : List (Thread α)
  shared : σ
  entered : List (List α)

/-- One step of one thread. `lock` blocks while the mutex is locked. -/
inductive Step {σ α : Type} (apply : σ → α → σ) : State σ α → State σ α → Prop
  | lock {s : State σ α} {before after : List (Thread α)} {sec : List α} {secs : List (List α)} :
      s.threads = before ++ ⟨none, sec :: secs⟩ :: after → s.locked = false →
      Step apply s { s with locked := true
                            threads := before ++ ⟨some sec, secs⟩ :: after
                            entered := s.entered ++ [sec] }
  | act {s : State σ α} {before after : List (Thread α)} {a : α} {sec : List α}
      {secs : List (List α)} : s.threads = before ++ ⟨some (a :: sec), secs⟩ :: after →
      Step apply s { s with threads := before ++ ⟨some sec, secs⟩ :: after
                            shared := apply s.shared a }
  | unlock {s : State σ α} {before after : List (Thread α)} {secs : List (List α)} :
      s.threads = before ++ ⟨some [], secs⟩ :: after →
      Step apply s { s with locked := false, threads := before ++ ⟨none, secs⟩ :: after }

def State.start {σ α : Type} (shared : σ) (programs : List (List (List α))) : State σ α where
  locked := false
  threads := programs.map fun sections => ⟨none, sections⟩
  shared := shared
  entered := []

/-- The states reached after `k` steps. -/
inductive Run {σ α : Type} (apply : σ → α → σ) (s₀ : State σ α) : Nat → State σ α → Prop
  | start : Run apply s₀ 0 s₀
  | step {k : Nat} {s s' : State σ α} : Run apply s₀ k s → Step apply s s' →
      Run apply s₀ (k + 1) s'

/-- Every thread is done. -/
def State.Finished {σ α : Type} (s : State σ α) : Prop :=
  ∀ t ∈ s.threads, t.inside = none ∧ t.sections = []

variable {σ α : Type} {apply : σ → α → σ} {x : σ} {programs : List (List (List α))}
  {s s' s₀ : State σ α} {k : Nat}

theorem Run.trans {k' : Nat} (h : Run apply s₀ k s) (h' : Run apply s k' s') :
    Run apply s₀ (k + k') s' := by
  induction h' with
  | start => exact h
  | step _ hstep ih => exact ih.step hstep

/-! ## Exclusion -/

/-- Who is inside, and what has happened to the shared state: all sections that were entered
have run, but for the rest of the last one while the mutex is locked. -/
inductive Consistent (apply : σ → α → σ) (x : σ) (s : State σ α) : Prop
  | free : s.locked = false → (∀ t ∈ s.threads, t.inside = none) →
      s.shared = s.entered.flatten.foldl apply x → Consistent apply x s
  | held {before after : List (Thread α)} {earlier : List (List α)} {ran rest : List α}
      {secs : List (List α)} : s.locked = true →
      s.threads = before ++ ⟨some rest, secs⟩ :: after →
      (∀ t ∈ before ++ after, t.inside = none) → s.entered = earlier ++ [ran ++ rest] →
      s.shared = (earlier.flatten ++ ran).foldl apply x → Consistent apply x s

theorem Consistent.start : Consistent apply x (.start x programs) := by
  refine .free rfl ?_ rfl
  intro t ht
  obtain ⟨sections, -, rfl⟩ := List.mem_map.mp ht
  rfl

/-- The thread that is inside is the only one. -/
theorem Consistent.of_inside (h : Consistent apply x s) {before after : List (Thread α)}
    {rest : List α} {secs : List (List α)}
    (hs : s.threads = before ++ ⟨some rest, secs⟩ :: after) :
    s.locked = true ∧ (∀ t ∈ before ++ after, t.inside = none) ∧
      ∃ earlier ran, s.entered = earlier ++ [ran ++ rest] ∧
        s.shared = (earlier.flatten ++ ran).foldl apply x := by
  cases h with
  | free _ hall _ =>
    have hmem : ⟨some rest, secs⟩ ∈ s.threads := by
      rw [hs]
      simp
    exact nomatch hall _ hmem
  | held hlocked hthreads hothers hentered hshared =>
    obtain ⟨rfl, heq, rfl⟩ := Pool.split_unique (P := fun t => t.inside = none)
      (hthreads.symm.trans hs) hothers (by simp)
    obtain ⟨rfl, rfl⟩ : _ = rest ∧ _ = secs := by simpa using heq
    exact ⟨hlocked, hothers, _, _, hentered, hshared⟩

theorem Consistent.step (h : Consistent apply x s) (hstep : Step apply s s') :
    Consistent apply x s' := by
  cases hstep with
  | @lock before after sec secs hthreads hfree =>
    cases h with
    | free _ hall hshared =>
      have hentered : s.entered ++ [sec] = s.entered ++ [[] ++ sec] := rfl
      refine .held rfl rfl ?_ hentered (by simpa using hshared)
      intro t ht
      apply hall
      rw [hthreads]
      exact Pool.mem_split.mpr (.inr ht)
    | held hlocked => simp [hlocked] at hfree
  | @act before after a sec secs hthreads =>
    obtain ⟨hlocked, hothers, earlier, ran, hentered, hshared⟩ := h.of_inside hthreads
    have hnext : s.entered = earlier ++ [(ran ++ [a]) ++ sec] := by
      rw [List.append_assoc]
      exact hentered
    refine .held hlocked rfl hothers hnext ?_
    rw [← List.append_assoc, List.foldl_append, ← hshared]
    rfl
  | @unlock before after secs hthreads =>
    obtain ⟨-, hothers, earlier, ran, hentered, hshared⟩ := h.of_inside hthreads
    refine .free rfl ?_ ?_
    · intro t ht
      rcases Pool.mem_split.mp ht with rfl | ht
      · rfl
      · exact hothers t ht
    · rw [hentered]
      simpa using hshared

theorem Run.consistent (h : Run apply (.start x programs) k s) : Consistent apply x s := by
  induction h with
  | start => exact .start
  | step _ hstep ih => exact ih.step hstep

/-- At most one thread is inside a section. -/
theorem Run.exclusive (h : Run apply (.start x programs) k s) :
    s.threads.countP (fun t => t.inside.isSome) ≤ 1 := by
  have hnone {l : List (Thread α)} (hl : ∀ t ∈ l, t.inside = none) :
      l.countP (fun t => t.inside.isSome) = 0 := by
    rw [List.countP_eq_zero]
    intro t ht
    simp [hl t ht]
  cases h.consistent with
  | free _ hall _ => simp [hnone hall]
  | held _ hthreads hothers _ _ =>
    have hcount := hnone hothers
    rw [List.countP_append] at hcount
    rw [hthreads, List.countP_append, List.countP_cons]
    split <;> omega

/-! ## Serialisation -/

/-- What has been entered and what is still to be entered are the sections of the programs. -/
def Remaining (programs : List (List (List α))) (s : State σ α) : Prop :=
  ∀ l, Interleaving (s.threads.map Thread.sections) l → Interleaving programs (s.entered ++ l)

theorem Remaining.step (h : Remaining programs s) (hstep : Step apply s s') :
    Remaining programs s' := by
  cases hstep with
  | @lock before after sec secs hthreads _ =>
    intro l hl
    rw [List.append_assoc]
    apply h
    rw [hthreads]
    simp only [List.map_append, List.map_cons] at hl ⊢
    exact .step hl
  | act hthreads =>
    intro l hl
    apply h
    rw [hthreads]
    simpa using hl
  | unlock hthreads =>
    intro l hl
    apply h
    rw [hthreads]
    simpa using hl

theorem Run.remaining (h : Run apply (.start x programs) k s) : Remaining programs s := by
  induction h with
  | start =>
    intro l hl
    have hsections : (State.start x programs).threads.map Thread.sections = programs := by
      simp [State.start, Function.comp_def]
    rwa [hsections] at hl
  | step _ hstep ih => exact ih.step hstep

/-- When all threads are done the sections have run one after the other, in an order that
each thread agrees with. -/
theorem Run.serialised (h : Run apply (.start x programs) k s) (hs : s.Finished) :
    Interleaving programs s.entered ∧ s.shared = s.entered.flatten.foldl apply x := by
  constructor
  · have hdone : Interleaving (s.threads.map Thread.sections) [] := by
      apply Interleaving.done
      intro l hl
      obtain ⟨t, ht, rfl⟩ := List.mem_map.mp hl
      exact (hs t ht).2
    have := h.remaining [] hdone
    rwa [List.append_nil] at this
  · cases h.consistent with
    | free _ _ hshared => exact hshared
    | @held before after _ _ rest secs _ hthreads _ _ _ =>
      have hmem : ⟨some rest, secs⟩ ∈ s.threads := by
        rw [hthreads]
        simp
      exact nomatch (hs _ hmem).1

/-! ## Progress -/

/-- The steps that a thread still has to make. -/
def Thread.work (t : Thread α) : Nat :=
  (t.inside.map fun rest => rest.length + 1).getD 0 + (t.sections.map fun sec => sec.length + 2).sum

def State.work (s : State σ α) : Nat := (s.threads.map Thread.work).sum

/-- Every step is one of them. -/
theorem Step.work (h : Step apply s s') : s'.work + 1 = s.work := by
  cases h with
  | lock hthreads _ | act hthreads | unlock hthreads =>
    simp only [State.work, hthreads, Pool.sum_split]
    simp [Thread.work]
    omega

theorem Run.work (h : Run apply s₀ k s) : s.work + k = s₀.work := by
  induction h with
  | start => rfl
  | step _ hstep ih =>
    have := hstep.work
    omega

/-- As long as not all threads are done, one of them can go on. -/
theorem Run.progress (h : Run apply (.start x programs) k s) (hs : ¬ s.Finished) :
    ∃ s', Step apply s s' := by
  cases h.consistent with
  | @held before after _ _ rest secs _ hthreads _ _ _ =>
    cases rest with
    | nil => exact ⟨_, .unlock hthreads⟩
    | cons a rest => exact ⟨_, .act hthreads⟩
  | free hfree hall _ =>
    simp only [State.Finished, not_forall] at hs
    obtain ⟨t, ht, hleft⟩ := hs
    obtain ⟨inside, sections⟩ := t
    obtain rfl : inside = none := hall _ ht
    obtain ⟨before, after, hthreads⟩ := List.append_of_mem ht
    cases sections with
    | nil => exact absurd ⟨rfl, rfl⟩ hleft
    | cons sec secs => exact ⟨_, .lock hthreads hfree⟩

/-- So a run ends exactly when it has made all steps. -/
theorem Run.finished_iff (h : Run apply (.start x programs) k s) :
    s.Finished ↔ k = (State.start x programs : State σ α).work := by
  have hwork := h.work
  constructor
  · intro hs
    have hzero : s.work = 0 := by
      apply List.sum_eq_zero
      intro n hn
      obtain ⟨t, ht, rfl⟩ := List.mem_map.mp hn
      obtain ⟨hinside, hsections⟩ := hs t ht
      simp [Thread.work, hinside, hsections]
    omega
  · intro hk
    by_contra hs
    obtain ⟨s', hstep⟩ := h.progress hs
    have := hstep.work
    omega

/-! ## Every order can happen -/

/-- A thread that has entered a section can run it to its end. -/
theorem exists_run_section {before after : List (Thread α)} {rest : List α} {secs : List (List α)}
    (hs : s.threads = before ++ ⟨some rest, secs⟩ :: after) : ∃ k, Run apply s k
      { s with locked := false
               threads := before ++ ⟨none, secs⟩ :: after
               shared := rest.foldl apply s.shared } := by
  induction rest generalizing s with
  | nil => exact ⟨1, .step .start (.unlock hs)⟩
  | cons a rest ih =>
    obtain ⟨k, hrun⟩ := ih (s := { s with threads := before ++ ⟨some rest, secs⟩ :: after
                                          shared := apply s.shared a }) rfl
    exact ⟨_, (Run.step .start (.act hs)).trans hrun⟩

theorem exists_run {l : List (List α)} (h : Interleaving programs l) (x : σ) :
    ∃ k s, Run apply (.start x programs) k s ∧ s.Finished ∧ s.entered = l := by
  have hfrom (s : State σ α) (hfree : s.locked = false)
      (hs : s.threads = programs.map fun sections => ⟨none, sections⟩) :
      ∃ k s', Run apply s k s' ∧ s'.Finished ∧ s'.entered = s.entered ++ l := by
    induction h generalizing s with
    | done hnil =>
      refine ⟨0, s, .start, ?_, by simp⟩
      intro t ht
      rw [hs] at ht
      obtain ⟨sections, hmem, rfl⟩ := List.mem_map.mp ht
      exact ⟨rfl, hnil sections hmem⟩
    | @step before after sec secs l _ ih =>
      rw [List.map_append, List.map_cons] at hs
      obtain ⟨k, hsection⟩ := @exists_run_section _ _ apply
        { s with locked := true
                 threads := (before.map fun sections => ⟨none, sections⟩) ++
                   ⟨some sec, secs⟩ :: after.map fun sections => ⟨none, sections⟩
                 entered := s.entered ++ [sec] } _ _ _ _ rfl
      obtain ⟨k', s', hrest, hfinished, hentered⟩ := ih
        { s with locked := false
                 threads := (before ++ secs :: after).map fun sections => ⟨none, sections⟩
                 shared := sec.foldl apply s.shared
                 entered := s.entered ++ [sec] } rfl rfl
      rw [List.map_append, List.map_cons] at hrest
      refine ⟨_, s', (Run.step .start (.lock hs hfree)).trans (hsection.trans hrest), hfinished, ?_⟩
      rw [hentered, List.append_assoc]
      rfl
  exact hfrom (.start x programs) rfl rfl

end Mutex
