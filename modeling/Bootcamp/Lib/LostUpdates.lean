import Bootcamp.Lib.Pool
import Mathlib.Algebra.Order.Monoid.Defs
import Mathlib.Algebra.Order.BigOperators.Group.List

/-! Threads that add to a cell without a lock, each in two steps: load, then store the sum. A
store that goes over one made since its load loses it. -/
namespace LostUpdates

variable {α : Type}

/-- Nothing reads `fresh`, which says that nothing was stored since. -/
structure Loaded (α : Type) where
  value : α
  fresh : Bool

/-- Between its load and its store or not, and how many it has still to store. -/
structure Thread (α : Type) where
  loaded : Option (Loaded α)
  left : Nat

/-- Nothing reads `added`, the sum of what the stores added, and `lost`, which says that one
of them went over another. -/
structure State (α : Type) where
  threads : List (Thread α)
  cell : α
  added : α
  lost : Bool

def Thread.overtaken (t : Thread α) : Thread α :=
  { t with loaded := t.loaded.map fun l => { l with fresh := false } }

/-- One step of one thread; `P` says what it may add. -/
inductive Step [Add α] (P : α → Prop) : State α → State α → Prop
  | load {s : State α} {before after : List (Thread α)} {left : Nat} :
      s.threads = before ++ ⟨none, left + 1⟩ :: after →
      Step P s { s with threads := before ++ ⟨some ⟨s.cell, true⟩, left + 1⟩ :: after }
  | store {s : State α} {before after : List (Thread α)} {l : Loaded α} {left : Nat} {d : α} :
      P d → s.threads = before ++ ⟨some l, left + 1⟩ :: after →
      Step P s { threads := before.map Thread.overtaken ++ ⟨none, left⟩ ::
                   after.map Thread.overtaken
                 cell := l.value + d
                 added := s.added + d
                 lost := s.lost || !l.fresh }

def State.start [Zero α] (lefts : List Nat) : State α where
  threads := lefts.map fun left => ⟨none, left⟩
  cell := 0
  added := 0
  lost := false

/-- The states reached after `k` steps. -/
inductive Run [Add α] (P : α → Prop) (s₀ : State α) : Nat → State α → Prop
  | start : Run P s₀ 0 s₀
  | step {k : Nat} {s s' : State α} : Run P s₀ k s → Step P s s' → Run P s₀ (k + 1) s'

def State.Finished (s : State α) : Prop := ∀ t ∈ s.threads, t.left = 0

/-! ## What is missing from the cell -/

/-- The cell has all that was added unless a store went over another, and a value that was
loaded has it too, until the next store. -/
structure Accounted [PartialOrder α] (s : State α) : Prop where
  kept : s.lost = false → s.cell = s.added
  missing : s.lost = true → s.cell < s.added
  fresh : ∀ t ∈ s.threads, ∀ l, t.loaded = some l → l.fresh = true → l.value = s.cell
  stale : ∀ t ∈ s.threads, ∀ l, t.loaded = some l → l.fresh = false → l.value < s.added

variable {s s' s₀ : State α} {k : Nat} {lefts : List Nat}

theorem loaded_start [Zero α] : ∀ t ∈ (State.start lefts : State α).threads, t.loaded = none := by
  intro t ht
  obtain ⟨left, -, rfl⟩ := List.mem_map.mp ht
  rfl

theorem Accounted.cell_le [PartialOrder α] (h : Accounted s) : s.cell ≤ s.added := by
  cases hlost : s.lost with
  | false => exact (h.kept hlost).le
  | true => exact (h.missing hlost).le

/-- Behind a store no loaded value is fresh. -/
theorem mem_overtaken {threads : List (Thread α)} {t : Thread α}
    (ht : t ∈ threads.map Thread.overtaken) {l : Loaded α} (hl : t.loaded = some l) :
    l.fresh = false ∧ ∃ t' ∈ threads, ∃ l', t'.loaded = some l' ∧ l'.value = l.value := by
  obtain ⟨t', ht', rfl⟩ := List.mem_map.mp ht
  obtain ⟨l', hl', rfl⟩ := Option.map_eq_some_iff.mp hl
  exact ⟨rfl, t', ht', l', hl', rfl⟩

section Order

variable [AddCommMonoid α] [PartialOrder α] [IsOrderedCancelAddMonoid α] {P : α → Prop}

/-- A loaded value is behind after the next store. -/
theorem Accounted.value_lt (h : Accounted s) {t : Thread α} (ht : t ∈ s.threads) {l : Loaded α}
    (hl : t.loaded = some l) {d : α} (hd : 0 < d) : l.value < s.added + d := by
  have hgrow : s.added < s.added + d := lt_add_of_pos_right _ hd
  cases hfresh : l.fresh with
  | true =>
    rw [h.fresh t ht l hl hfresh]
    exact h.cell_le.trans_lt hgrow
  | false => exact (h.stale t ht l hl hfresh).trans hgrow

theorem Accounted.step (hP : ∀ d, P d → 0 < d) (h : Accounted s) (hstep : Step P s s') :
    Accounted s' := by
  cases hstep with
  | @load before after left hthreads =>
    have hold (t : Thread α) (ht : t ∈ before ++ after) : t ∈ s.threads := by
      rw [hthreads]
      exact Pool.mem_split.mpr (.inr ht)
    refine ⟨h.kept, h.missing, ?_, ?_⟩
    · intro t ht l hl hfresh
      rcases Pool.mem_split.mp ht with rfl | ht
      · obtain rfl := Option.some.inj hl
        rfl
      · exact h.fresh t (hold t ht) l hl hfresh
    · intro t ht l hl hfresh
      rcases Pool.mem_split.mp ht with rfl | ht
      · obtain rfl := Option.some.inj hl
        cases hfresh
      · exact h.stale t (hold t ht) l hl hfresh
  | @store before after l left d hd hthreads =>
    have hmem : ⟨some l, left + 1⟩ ∈ s.threads := by
      rw [hthreads]
      exact Pool.mem_split.mpr (.inl rfl)
    have hothers (t : Thread α) (ht : t ∈ before.map Thread.overtaken ++ ⟨none, left⟩ ::
        after.map Thread.overtaken) (l' : Loaded α) (hl' : t.loaded = some l') :
        l'.fresh = false ∧ l'.value < s.added + d := by
      rcases Pool.mem_split.mp ht with rfl | ht
      · cases hl'
      · rw [← List.map_append] at ht
        obtain ⟨hstale, t', ht', l'', hl'', hvalue⟩ := mem_overtaken ht hl'
        have ht' : t' ∈ s.threads := by
          rw [hthreads]
          exact Pool.mem_split.mpr (.inr ht')
        exact ⟨hstale, hvalue ▸ h.value_lt ht' hl'' (hP d hd)⟩
    refine ⟨?_, ?_, ?_, ?_⟩
    · intro hlost
      simp only [Bool.or_eq_false_iff, Bool.not_eq_false'] at hlost
      rw [h.fresh _ hmem l rfl hlost.2, h.kept hlost.1]
    · intro hlost
      cases hfresh : l.fresh with
      | true =>
        simp only [hfresh, Bool.not_true, Bool.or_false] at hlost
        rw [h.fresh _ hmem l rfl hfresh]
        exact add_lt_add_left (h.missing hlost) d
      | false => exact add_lt_add_left (h.stale _ hmem l rfl hfresh) d
    · intro t ht l' hl' hfresh
      rw [(hothers t ht l' hl').1] at hfresh
      cases hfresh
    · intro t ht l' hl' _
      exact (hothers t ht l' hl').2

theorem Run.accounted (hP : ∀ d, P d → 0 < d) (h : Run P (.start lefts) k s) : Accounted s := by
  induction h with
  | start =>
    refine ⟨fun _ => rfl, nofun, ?_, ?_⟩
    · intro t ht l hl
      rw [loaded_start t ht] at hl
      cases hl
    · intro t ht l hl
      rw [loaded_start t ht] at hl
      cases hl
  | step _ hstep ih => exact ih.step hP hstep

/-- The cell has all that was added exactly when no store went over another. -/
theorem Run.cell_eq_iff (hP : ∀ d, P d → 0 < d) (h : Run P (.start lefts) k s) :
    s.cell = s.added ↔ s.lost = false := by
  have haccounted := h.accounted hP
  constructor
  · intro heq
    by_contra hlost
    exact (haccounted.missing (by simpa using hlost)).ne heq
  · exact haccounted.kept

/-- After a store the cell has at least what one store adds. -/
theorem Run.exists_le_cell (hP : ∀ d, P d → 0 < d) (h : Run P (.start lefts) k s) :
    (s.added = 0 ∨ ∃ d, P d ∧ d ≤ s.cell) ∧ 0 ≤ s.cell ∧
      ∀ t ∈ s.threads, ∀ l, t.loaded = some l → 0 ≤ l.value := by
  induction h with
  | start =>
    refine ⟨.inl rfl, le_rfl, fun t ht l hl => ?_⟩
    rw [loaded_start t ht] at hl
    cases hl
  | @step k s s' _ hstep ih =>
    obtain ⟨hstored, hcell, hloaded⟩ := ih
    cases hstep with
    | @load before after left hthreads =>
      refine ⟨hstored, hcell, fun t ht l hl => ?_⟩
      rcases Pool.mem_split.mp ht with rfl | ht
      · obtain rfl := Option.some.inj hl
        exact hcell
      · refine hloaded t ?_ l hl
        rw [hthreads]
        exact Pool.mem_split.mpr (.inr ht)
    | @store before after l left d hd hthreads =>
      have hvalue : 0 ≤ l.value := by
        refine hloaded ⟨some l, left + 1⟩ ?_ l rfl
        rw [hthreads]
        exact Pool.mem_split.mpr (.inl rfl)
      have hle : d ≤ l.value + d := le_add_of_nonneg_left hvalue
      refine ⟨.inr ⟨d, hd, hle⟩, (hP d hd).le.trans hle, fun t ht l' hl' => ?_⟩
      rcases Pool.mem_split.mp ht with rfl | ht
      · cases hl'
      · rw [← List.map_append] at ht
        obtain ⟨-, t', ht', l'', hl'', heq⟩ := mem_overtaken ht hl'
        rw [← heq]
        refine hloaded t' ?_ l'' hl''
        rw [hthreads]
        exact Pool.mem_split.mpr (.inr ht')

end Order

/-! ## What was added -/

@[simp] theorem left_overtaken (threads : List (Thread α)) :
    (threads.map Thread.overtaken).map Thread.left = threads.map Thread.left := by
  rw [List.map_map]
  rfl

/-- As many amounts as there were stores. -/
theorem Run.exists_amounts [AddCommMonoid α] {P : α → Prop} (h : Run P (.start lefts) k s) :
    ∃ ds : List α, s.added = ds.sum ∧ (∀ d ∈ ds, P d) ∧
      ds.length + (s.threads.map Thread.left).sum = lefts.sum := by
  induction h with
  | start => exact ⟨[], rfl, nofun, by simp [State.start, Function.comp_def]⟩
  | step _ hstep ih =>
    obtain ⟨ds, hadded, hall, hlength⟩ := ih
    cases hstep with
    | load hthreads =>
      rw [hthreads, Pool.sum_split] at hlength
      exact ⟨ds, hadded, hall, by rw [Pool.sum_split]; exact hlength⟩
    | @store before after l left d hd hthreads =>
      refine ⟨ds ++ [d], by simp [hadded], ?_, ?_⟩
      · intro d' hd'
        rcases List.mem_append.mp hd' with hd' | hd'
        · exact hall d' hd'
        · rwa [List.mem_singleton.mp hd']
      · rw [hthreads, Pool.sum_split] at hlength
        rw [Pool.sum_split, ← List.map_append, left_overtaken, List.length_append]
        simp only [List.length_singleton] at hlength ⊢
        omega

/-! ## Runs to the end -/

theorem Run.trans [Add α] {P : α → Prop} {k' : Nat} (h : Run P s₀ k s) (h' : Run P s k' s') :
    Run P s₀ (k + k') s' := by
  induction h' with
  | start => exact h
  | step _ hstep ih => exact ih.step hstep

/-- A loaded value is going to be stored. -/
def WellFormed (s : State α) : Prop := ∀ t ∈ s.threads, t.loaded ≠ none → t.left ≠ 0

def Thread.work (t : Thread α) : Nat := 2 * t.left - if t.loaded.isSome then 1 else 0

def State.work (s : State α) : Nat := (s.threads.map Thread.work).sum

@[simp] theorem work_overtaken (threads : List (Thread α)) :
    (threads.map Thread.overtaken).map Thread.work = threads.map Thread.work := by
  rw [List.map_map]
  apply List.map_congr_left
  intro t _
  simp [Thread.work, Thread.overtaken]

section

variable [Add α] {P : α → Prop}

theorem WellFormed.step (h : WellFormed s) (hstep : Step P s s') : WellFormed s' := by
  cases hstep with
  | load hthreads =>
    intro t ht hloaded
    rcases Pool.mem_split.mp ht with rfl | ht
    · exact Nat.succ_ne_zero _
    · refine h t ?_ hloaded
      rw [hthreads]
      exact Pool.mem_split.mpr (.inr ht)
  | store _ hthreads =>
    intro t ht hloaded
    rcases Pool.mem_split.mp ht with rfl | ht
    · exact absurd rfl hloaded
    · rw [← List.map_append] at ht
      obtain ⟨t', ht', rfl⟩ := List.mem_map.mp ht
      refine h t' ?_ fun hnone => hloaded (by simp [Thread.overtaken, hnone])
      rw [hthreads]
      exact Pool.mem_split.mpr (.inr ht')

theorem Step.work (hstep : Step P s s') : s'.work + 1 = s.work := by
  cases hstep with
  | load hthreads =>
    simp only [State.work, hthreads, Pool.sum_split]
    simp [Thread.work]
    omega
  | store _ hthreads =>
    simp only [State.work, hthreads, Pool.sum_split, ← List.map_append, work_overtaken]
    simp [Thread.work]
    omega

/-- A store that was lost stays lost. -/
theorem Step.lost (hstep : Step P s s') (h : s.lost = true) : s'.lost = true := by
  cases hstep with
  | load => exact h
  | store => simp [h]

/-- All threads can go on to their ends. -/
theorem exists_finish {d : α} (hd : P d) (h : WellFormed s) :
    ∃ k s', Run P s k s' ∧ s'.Finished ∧ (s.lost = true → s'.lost = true) := by
  induction hwork : s.work generalizing s with
  | zero =>
    refine ⟨0, s, .start, fun t ht => ?_, id⟩
    have hzero : t.work ≤ 0 := by
      rw [← hwork]
      exact List.single_le_sum (fun _ _ => Nat.zero_le _) _ (List.mem_map_of_mem ht)
    have hleft := h t ht
    rw [Thread.work] at hzero
    split at hzero
    · rename_i hsome
      have := hleft (Option.isSome_iff_ne_none.mp hsome)
      omega
    · omega
  | succ n ih =>
    obtain ⟨s₁, hstep⟩ : ∃ s₁, Step P s s₁ := by
      by_contra hstuck
      have hzero : s.work = 0 := by
        apply List.sum_eq_zero
        intro m hm
        obtain ⟨t, ht, rfl⟩ := List.mem_map.mp hm
        obtain ⟨before, after, hthreads⟩ := List.append_of_mem ht
        obtain ⟨loaded, left⟩ := t
        cases left with
        | zero => simp [Thread.work]
        | succ left =>
          cases loaded with
          | none => exact absurd ⟨_, .load hthreads⟩ hstuck
          | some l => exact absurd ⟨_, .store hd hthreads⟩ hstuck
      omega
    have hless := hstep.work
    obtain ⟨k, s', hrun, hfinished, hlost⟩ := ih (h.step hstep) (by omega)
    exact ⟨_, s', (Run.step .start hstep).trans hrun, hfinished, fun hl => hlost (hstep.lost hl)⟩

/-- Two threads are enough for a store to be lost: both load, then both store. -/
theorem exists_lost {d : α} (hd : P d) {before between after : List (Thread α)} {m n : Nat}
    (hs : s.threads = before ++ ⟨none, m + 1⟩ :: (between ++ ⟨none, n + 1⟩ :: after)) :
    ∃ k s', Run P s k s' ∧ s'.lost = true := by
  obtain ⟨s₁, h₁, ht₁⟩ : ∃ s₁, Step P s s₁ ∧ s₁.threads =
      (before ++ ⟨some ⟨s.cell, true⟩, m + 1⟩ :: between) ++ ⟨none, n + 1⟩ :: after :=
    ⟨_, .load hs, by simp⟩
  obtain ⟨s₂, h₂, ht₂⟩ : ∃ s₂, Step P s₁ s₂ ∧ s₂.threads =
      before ++ ⟨some ⟨s.cell, true⟩, m + 1⟩ :: (between ++ ⟨some ⟨s₁.cell, true⟩, n + 1⟩ :: after) :=
    ⟨_, .load ht₁, by simp⟩
  obtain ⟨s₃, h₃, ht₃⟩ : ∃ s₃, Step P s₂ s₃ ∧ s₃.threads =
      (before.map Thread.overtaken ++ ⟨none, m⟩ :: between.map Thread.overtaken) ++
        ⟨some ⟨s₁.cell, false⟩, n + 1⟩ :: after.map Thread.overtaken :=
    ⟨_, .store hd ht₂, by simp [Thread.overtaken]⟩
  obtain ⟨s₄, h₄, hlost⟩ : ∃ s₄, Step P s₃ s₄ ∧ s₄.lost = true :=
    ⟨_, .store hd ht₃, by simp⟩
  exact ⟨4, s₄, .step (.step (.step (.step .start h₁) h₂) h₃) h₄, hlost⟩

theorem Run.wellFormed (h : Run P s₀ k s) (h₀ : WellFormed s₀) : WellFormed s := by
  induction h with
  | start => exact h₀
  | step _ hstep ih => exact ih.step hstep

/-- A store can be lost if two threads have one to make. -/
theorem exists_run_lost {d : α} (hd : P d) (h : WellFormed s) {before between after : List (Thread α)}
    {m n : Nat} (hs : s.threads = before ++ ⟨none, m + 1⟩ :: (between ++ ⟨none, n + 1⟩ :: after)) :
    ∃ k s', Run P s k s' ∧ s'.Finished ∧ s'.lost = true := by
  obtain ⟨k, s₁, hrun, hlost⟩ := exists_lost hd hs
  obtain ⟨k', s', hrun', hfinished, hkept⟩ := exists_finish hd (hrun.wellFormed h)
  exact ⟨_, s', hrun.trans hrun', hfinished, hkept hlost⟩

end

/-! ## One thread alone -/

/-- All others are done, and what this one has loaded is fresh. -/
structure Alone (s : State α) (before after : List (Thread α)) (t : Thread α) : Prop where
  threads : s.threads = before ++ t :: after
  others : ∀ z ∈ before ++ after, z = ⟨none, 0⟩
  fresh : ∀ l, t.loaded = some l → l.fresh = true
  kept : s.lost = false

theorem Alone.step [Add α] {P : α → Prop} {before after : List (Thread α)} {t : Thread α}
    (h : Alone s before after t) (hstep : Step P s s') :
    ∃ before' after' t', Alone s' before' after' t' := by
  cases hstep with
  | load hthreads =>
    obtain ⟨rfl, rfl, rfl⟩ :=
      Pool.split_unique (h.threads.symm.trans hthreads) h.others (by simp)
    refine ⟨_, _, _, rfl, h.others, fun l hl => ?_, h.kept⟩
    obtain rfl := Option.some.inj hl
    rfl
  | @store before' after' l left d _ hthreads =>
    obtain ⟨rfl, rfl, rfl⟩ :=
      Pool.split_unique (h.threads.symm.trans hthreads) h.others (by simp)
    refine ⟨_, _, _, rfl, fun z hz => ?_, nofun, ?_⟩
    · rw [← List.map_append] at hz
      obtain ⟨z', hz', rfl⟩ := List.mem_map.mp hz
      rw [h.others z' hz']
      rfl
    · rw [h.kept, h.fresh l rfl]
      rfl

/-- With nobody between its load and its store a thread loses nothing. -/
theorem Run.kept_of_alone [AddMonoid α] {P : α → Prop} {before after : List Nat} {left : Nat}
    (h : Run P (.start (before ++ left :: after)) k s) (hothers : ∀ n ∈ before ++ after, n = 0) :
    s.lost = false := by
  have halone : ∃ before after t, Alone s before after t := by
    induction h with
    | start =>
      refine ⟨before.map fun left => ⟨none, left⟩, after.map fun left => ⟨none, left⟩, ⟨none, left⟩,
        by simp [State.start], fun z hz => ?_, nofun, rfl⟩
      rw [← List.map_append] at hz
      obtain ⟨n, hn, rfl⟩ := List.mem_map.mp hz
      rw [hothers n hn]
    | step _ hstep ih =>
      obtain ⟨before', after', t, halone⟩ := ih
      exact halone.step hstep
  obtain ⟨_, _, _, halone⟩ := halone
  exact halone.kept

end LostUpdates
