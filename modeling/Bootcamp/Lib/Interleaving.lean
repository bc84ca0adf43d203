import Mathlib.Data.List.Perm.Basic
import Mathlib.Tactic.Common

/-! Interleavings of finitely many threads, each a list of atomic operations. -/

/-- `l` runs the operations of all threads, those of each thread in order. -/
inductive Interleaving {α : Type} : List (List α) → List α → Prop
  | done {ts : List (List α)} : (∀ t ∈ ts, t = []) → Interleaving ts []
  | step {before after : List (List α)} {a : α} {t l : List α} :
      Interleaving (before ++ t :: after) l → Interleaving (before ++ (a :: t) :: after) (a :: l)

namespace Interleaving

variable {α : Type} {ts : List (List α)} {l : List α}

/-- No operation is lost and none happens twice. -/
theorem perm (h : Interleaving ts l) : l.Perm ts.flatten := by
  induction h with
  | done hnil => rw [List.flatten_eq_nil_iff.mpr hnil]
  | step _ ih =>
    simp only [List.flatten_append, List.flatten_cons, List.cons_append] at ih ⊢
    exact (ih.cons _).trans List.perm_middle.symm

/-- Threads of images interleave as the threads do. -/
theorem exists_map {β : Type} {f : α → β} {l : List β} (h : Interleaving (ts.map (List.map f)) l) :
    ∃ l', l = l'.map f ∧ Interleaving ts l' := by
  generalize hts : ts.map (List.map f) = us at h
  induction h generalizing ts with
  | done hnil =>
    subst hts
    refine ⟨[], rfl, .done fun t ht => ?_⟩
    exact List.map_eq_nil_iff.mp (hnil _ (List.mem_map_of_mem ht))
  | step _ ih =>
    obtain ⟨before, rest, rfl, rfl, hrest⟩ := List.map_eq_append_iff.mp hts
    obtain ⟨t, after, rfl, ht, rfl⟩ := List.map_eq_cons_iff.mp hrest
    obtain ⟨a, t, rfl, rfl, rfl⟩ := List.map_eq_cons_iff.mp ht
    have hmap : (before ++ t :: after).map (List.map f) =
        before.map (List.map f) ++ t.map f :: after.map (List.map f) := by simp
    obtain ⟨l', rfl, hl'⟩ := ih hmap
    exact ⟨a :: l', rfl, .step hl'⟩

/-- Threads can run one after the other. -/
theorem sequential (ts : List (List α)) : Interleaving ts ts.flatten := by
  have hfrom (before : List (List α)) (hb : ∀ t ∈ before, t = []) :
      Interleaving (before ++ ts) ts.flatten := by
    induction ts generalizing before with
    | nil => exact .done (by simpa using hb)
    | cons t ts ih =>
      induction t with
      | nil =>
        have hrest := ih (before ++ [[]]) (by simpa [or_imp, forall_and] using hb)
        rwa [List.append_assoc] at hrest
      | cons a t iht => exact .step iht
  simpa using hfrom [] (by simp)

/-- The threads have no order among themselves. -/
theorem of_perm {ts' : List (List α)} (h : Interleaving ts l) (hp : ts.Perm ts') :
    Interleaving ts' l := by
  induction h generalizing ts' with
  | done hnil => exact .done fun t ht => hnil t (hp.mem_iff.mpr ht)
  | @step before after a t l _ ih =>
    obtain ⟨before', after', rfl⟩ := List.append_of_mem (hp.mem_iff.mp (by simp : a :: t ∈ _))
    have hrest : (before ++ after).Perm (before' ++ after') := by
      apply List.Perm.cons_inv (a := a :: t)
      exact List.perm_middle.symm.trans (hp.trans List.perm_middle)
    apply step
    apply ih
    exact List.perm_middle.trans ((hrest.cons t).trans List.perm_middle.symm)

end Interleaving
