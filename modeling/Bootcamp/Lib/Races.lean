import Bootcamp.Lib.Pool
import Mathlib.Algebra.BigOperators.Group.List.Basic
import Mathlib.Data.List.Perm.Subperm
import Mathlib.Logic.Relation

/-! Threads that add to a cell without a lock, each along a program of its own. A store goes over
all that were made since its load, so that what is in the cell is the sum of some of them. -/
namespace Races

variable {ι α : Type}

/-- Between its load and its store or not, and the additions it has still to make. -/
structure Thread (ι α : Type) where
  loaded : Option α
  program : List ι

structure State (ι α : Type) where
  threads : List (Thread ι α)
  cell : α

/-- One step of one thread; `Adds i d` says that the addition `i` may add `d`. -/
inductive Step [Add α] (Adds : ι → α → Prop) : State ι α → State ι α → Prop
  | load (before after : List (Thread ι α)) (i : ι) (program : List ι) (x : α) :
      Step Adds ⟨before ++ ⟨none, i :: program⟩ :: after, x⟩
        ⟨before ++ ⟨some x, i :: program⟩ :: after, x⟩
  | store (before after : List (Thread ι α)) (program : List ι) (x v : α) {i : ι} {d : α} :
      Adds i d → Step Adds ⟨before ++ ⟨some v, i :: program⟩ :: after, x⟩
        ⟨before ++ ⟨none, program⟩ :: after, v + d⟩

abbrev Run [Add α] (Adds : ι → α → Prop) : State ι α → State ι α → Prop :=
  Relation.ReflTransGen (Step Adds)

/-- Threads that are not between a load and a store. -/
def idle (programs : List (List ι)) : List (Thread ι α) := programs.map fun program => ⟨none, program⟩

def State.Finished (s : State ι α) : Prop := ∀ t ∈ s.threads, t.program = []

/-- What the threads have still to do. -/
def State.rest (s : State ι α) : List ι := (s.threads.map Thread.program).flatten

@[simp] theorem rest_split (before after : List (Thread ι α)) (t : Thread ι α) (x : α) :
    State.rest ⟨before ++ t :: after, x⟩ =
      (before.map Thread.program).flatten ++ (t.program ++ (after.map Thread.program).flatten) := by
  simp [State.rest]

@[simp] theorem rest_idle (programs : List (List ι)) (x : α) :
    State.rest ⟨idle programs, x⟩ = programs.flatten := by
  simp [State.rest, idle, Function.comp_def]

variable [AddCommMonoid α] {Adds : ι → α → Prop} {s s' : State ι α} {all : List ι}

/-! ## What survives -/

/-- `v` is the sum of some of the additions that were made before `rest` was left. -/
def Survives (Adds : ι → α → Prop) (all rest : List ι) (v : α) : Prop :=
  ∃ ds : List (ι × α), (ds.map Prod.fst ++ rest).Subperm all ∧ (∀ x ∈ ds, Adds x.1 x.2) ∧
    v = (ds.map Prod.snd).sum

theorem Survives.mono {rest rest' : List ι} {v : α} (h : Survives Adds all rest v)
    (hrest : rest'.Subperm rest) : Survives Adds all rest' v := by
  obtain ⟨ds, hsub, hadds, hsum⟩ := h
  exact ⟨ds, ((List.Subperm.refl _).append hrest).trans hsub, hadds, hsum⟩

/-- One of those that were left adds to it. -/
theorem Survives.add {rest rest' : List ι} {v d : α} {i : ι} (h : Survives Adds all rest v)
    (hd : Adds i d) (hrest : rest.Perm (i :: rest')) : Survives Adds all rest' (v + d) := by
  obtain ⟨ds, hsub, hadds, hsum⟩ := h
  refine ⟨ds ++ [(i, d)], ?_, ?_, by simp [hsum]⟩
  · have hperm : (ds.map Prod.fst ++ rest).Perm ((ds ++ [(i, d)]).map Prod.fst ++ rest') := by
      simpa using hrest.append_left (ds.map Prod.fst)
    exact hperm.symm.subperm.trans hsub
  · intro x hx
    rcases List.mem_append.mp hx with hx | hx
    · exact hadds x hx
    · rw [List.mem_singleton.mp hx]
      exact hd

/-- The cell holds a sum of additions, and so does what the threads have loaded. -/
structure Accounted (Adds : ι → α → Prop) (all : List ι) (s : State ι α) : Prop where
  cell : Survives Adds all s.rest s.cell
  loaded : ∀ t ∈ s.threads, ∀ v, t.loaded = some v → Survives Adds all s.rest v

theorem Accounted.step (h : Accounted Adds all s) (hstep : Step Adds s s') :
    Accounted Adds all s' := by
  cases hstep with
  | load before after i program x =>
    have hrest : State.rest ⟨before ++ ⟨some x, i :: program⟩ :: after, x⟩ =
        State.rest ⟨before ++ ⟨none, i :: program⟩ :: after, x⟩ := by simp
    refine ⟨by rw [hrest]; exact h.cell, fun t ht v hv => ?_⟩
    rw [hrest]
    rcases Pool.mem_split.mp ht with rfl | ht
    · obtain rfl := Option.some.inj hv
      exact h.cell
    · exact h.loaded t (Pool.mem_split.mpr (.inr ht)) v hv
  | @store before after program x v i d hd =>
    have hperm : (State.rest ⟨before ++ ⟨some v, i :: program⟩ :: after, x⟩).Perm
        (i :: State.rest ⟨before ++ ⟨none, program⟩ :: after, v + d⟩) := by
      rw [rest_split, rest_split]
      exact List.perm_middle
    have hsub := (List.sublist_cons_self i _).subperm.trans hperm.symm.subperm
    have hmine := h.loaded _ (Pool.mem_split.mpr (.inl rfl)) v rfl
    refine ⟨hmine.add hd hperm, fun t ht w hw => ?_⟩
    rcases Pool.mem_split.mp ht with rfl | ht
    · cases hw
    · exact (h.loaded t (Pool.mem_split.mpr (.inr ht)) w hw).mono hsub

/-- The cell always holds the sum of some of the additions made so far. -/
theorem Run.survives {programs : List (List ι)} (h : Run Adds ⟨idle programs, 0⟩ s) :
    Survives Adds programs.flatten s.rest s.cell := by
  have haccounted : Accounted Adds programs.flatten s := by
    induction h with
    | refl =>
      refine ⟨⟨[], by simpa using List.Subperm.refl _, nofun, rfl⟩, fun t ht v hv => ?_⟩
      obtain ⟨program, -, rfl⟩ := List.mem_map.mp ht
      cases hv
    | tail _ hstep ih => exact ih.step hstep
  exact haccounted.cell

/-! ## Schedules -/

/-- Other threads may stand by. -/
theorem Step.frame (h : Step Adds s s') (before after : List (Thread ι α)) :
    Step Adds ⟨before ++ s.threads ++ after, s.cell⟩ ⟨before ++ s'.threads ++ after, s'.cell⟩ := by
  cases h with
  | load before' after' i program x =>
    have hload : Step Adds _ _ := .load (before ++ before') (after' ++ after) i program x
    simpa using hload
  | @store before' after' program x v i d hd =>
    have hstore : Step Adds _ _ := .store (before ++ before') (after' ++ after) program x v hd
    simpa using hstore

theorem Run.frame (h : Run Adds s s') (before after : List (Thread ι α)) :
    Run Adds ⟨before ++ s.threads ++ after, s.cell⟩ ⟨before ++ s'.threads ++ after, s'.cell⟩ := by
  induction h with
  | refl => exact .refl
  | tail _ hstep ih => exact ih.tail (hstep.frame before after)

/-- A thread alone makes its additions one after the other. -/
theorem run_alone {xs : List (ι × α)} (hadds : ∀ x ∈ xs, Adds x.1 x.2) (rest : List ι) (c : α) :
    Run Adds ⟨idle [xs.map Prod.fst ++ rest], c⟩ ⟨idle [rest], c + (xs.map Prod.snd).sum⟩ := by
  induction xs generalizing c with
  | nil => simpa using Relation.ReflTransGen.refl
  | cons x xs ih =>
    obtain ⟨hx, hxs⟩ := List.forall_mem_cons.mp hadds
    have hload : Step Adds ⟨idle [x.1 :: (xs.map Prod.fst ++ rest)], c⟩
        ⟨[⟨some c, x.1 :: (xs.map Prod.fst ++ rest)⟩], c⟩ := .load [] [] _ _ _
    have hstore : Step Adds ⟨[⟨some c, x.1 :: (xs.map Prod.fst ++ rest)⟩], c⟩
        ⟨idle [xs.map Prod.fst ++ rest], c + x.2⟩ := .store [] [] _ _ _ hx
    have hrest := ih hxs (c + x.2)
    rw [add_assoc] at hrest
    simpa using ((Relation.ReflTransGen.single hload).tail hstore).trans hrest

/-- All threads make theirs, one thread behind the other. -/
theorem run_all {programs : List (List ι)} {xs : List (ι × α)} (hadds : ∀ x ∈ xs, Adds x.1 x.2)
    (hxs : xs.map Prod.fst = programs.flatten) (c : α) :
    ∃ s, Run Adds ⟨idle programs, c⟩ s ∧ s.Finished ∧ s.cell = c + (xs.map Prod.snd).sum := by
  induction programs generalizing xs c with
  | nil =>
    obtain rfl := List.map_eq_nil_iff.mp hxs
    exact ⟨⟨idle [], c⟩, .refl, fun t ht => (List.not_mem_nil ht).elim, by simp⟩
  | cons program programs ih =>
    obtain ⟨ys, zs, rfl, hys, hzs⟩ := List.map_eq_append_iff.mp hxs
    obtain ⟨hadds₁, hadds₂⟩ := List.forall_mem_append.mp hadds
    obtain ⟨s, hrun, hfinished, hcell⟩ := ih hadds₂ hzs (c + (ys.map Prod.snd).sum)
    have hone := (run_alone hadds₁ [] c).frame [] (idle programs)
    have hothers := hrun.frame (idle [[]]) []
    rw [List.append_nil, hys] at hone
    refine ⟨⟨idle [[]] ++ s.threads, s.cell⟩, ?_, ?_, ?_⟩
    · refine Relation.ReflTransGen.trans hone ?_
      simpa using hothers
    · intro t ht
      rcases List.mem_append.mp ht with ht | ht
      · obtain rfl := List.mem_singleton.mp ht
        rfl
      · exact hfinished t ht
    · rw [hcell, List.map_append, List.sum_append, add_assoc]

end Races
