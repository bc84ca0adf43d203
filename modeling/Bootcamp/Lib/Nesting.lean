import Mathlib.Data.List.Basic

/-! Marks of entries and exits, and the words in which they nest. -/

inductive Mark (α : Type) where
  | entry (a : α)
  | exit (a : α)
  deriving DecidableEq, Repr

variable {α : Type}

/-- Every exit is that of the last entry still open, and none stays open. -/
inductive Bracketed : List (Mark α) → Prop
  | nil : Bracketed []
  | wrap {a : α} {w : List (Mark α)} : Bracketed w → Bracketed (.entry a :: (w ++ [.exit a]))
  | append {w v : List (Mark α)} : Bracketed w → Bracketed v → Bracketed (w ++ v)

namespace Bracketed

theorem pair (a : α) : Bracketed [.entry a, .exit a] := .wrap .nil

theorem cons_pair {a : α} {w : List (Mark α)} (h : Bracketed w) :
    Bracketed (.entry a :: .exit a :: w) := (pair a).append h

/-- The entries and exits of calls one after the other. -/
theorem pairs (as : List α) : Bracketed (as.flatMap fun a => [.entry a, .exit a]) := by
  induction as with
  | nil => exact .nil
  | cons a as ih => exact ih.cons_pair

end Bracketed

/-! ## Reading a word mark by mark -/

section Opened

/-- The word closes what is open, with nothing but whole words between the exits. -/
def Closes : List α → List (Mark α) → Prop
  | [], w => Bracketed w
  | a :: o, w => ∃ u v, w = u ++ .exit a :: v ∧ Bracketed u ∧ Closes o v

theorem Closes.append {o : List α} {w v : List (Mark α)} (hw : Bracketed w) (h : Closes o v) :
    Closes o (w ++ v) := by
  cases o with
  | nil => exact hw.append h
  | cons a o =>
    obtain ⟨u, v, rfl, hu, hv⟩ := h
    exact ⟨w ++ u, v, by simp, hw.append hu, hv⟩

variable [DecidableEq α]

/-- The entries still open behind a mark, the last one first. -/
def Mark.read (o : List α) : Mark α → Option (List α)
  | .entry a => some (a :: o)
  | .exit a =>
    match o with
    | [] => none
    | b :: o => if a = b then some o else none

def opened (o : List α) : List (Mark α) → Option (List α)
  | [] => some o
  | m :: w => (m.read o).bind fun o => opened o w

theorem opened_append (o : List α) (w v : List (Mark α)) :
    opened o (w ++ v) = (opened o w).bind fun o => opened o v := by
  induction w generalizing o with
  | nil => rfl
  | cons m w ih =>
    rw [List.cons_append, opened, opened, Option.bind_assoc]
    congr 1
    funext o
    exact ih o

theorem opened_concat (o : List α) (w : List (Mark α)) (m : Mark α) :
    opened o (w ++ [m]) = (opened o w).bind fun o => m.read o := by
  rw [opened_append]
  congr 1
  funext o
  simp [opened]

theorem Bracketed.opened_eq {w : List (Mark α)} (h : Bracketed w) (o : List α) :
    opened o w = some o := by
  induction h generalizing o with
  | nil => rfl
  | wrap _ ih => simp [opened, Mark.read, opened_append, ih]
  | append _ _ ihw ihv => simp [opened_append, ihw, ihv]

/-- What is open further out is not touched. -/
theorem Mark.read_append {m : Mark α} {o o' : List α} (h : m.read o = some o') (u : List α) :
    m.read (o ++ u) = some (o' ++ u) := by
  cases m with
  | entry a =>
    obtain rfl := Option.some.inj h
    rfl
  | exit a =>
    cases o with
    | nil => cases h
    | cons b o =>
      simp only [Mark.read, List.cons_append] at h ⊢
      split_ifs at h ⊢
      obtain rfl := Option.some.inj h
      rfl

theorem opened_exits (o : List α) : opened o (o.map .exit) = some [] := by
  induction o with
  | nil => rfl
  | cons a o ih => simpa [opened, Mark.read] using ih

theorem closes_of_opened {o : List α} {w : List (Mark α)} (h : opened o w = some []) :
    Closes o w := by
  induction w generalizing o with
  | nil =>
    obtain rfl := Option.some.inj h
    exact .nil
  | cons m w ih =>
    obtain ⟨o', hread, hrest⟩ := Option.bind_eq_some_iff.mp h
    cases m with
    | entry a =>
      obtain rfl := Option.some.inj hread
      obtain ⟨u, v, rfl, hu, hv⟩ := ih hrest
      have hwrap : Closes o ((.entry a :: (u ++ [.exit a])) ++ v) := hv.append (.wrap hu)
      simpa using hwrap
    | exit a =>
      cases o with
      | nil => cases hread
      | cons b o =>
        simp only [Mark.read] at hread
        split_ifs at hread with hab
        obtain rfl := Option.some.inj hread
        exact ⟨[], w, by rw [hab]; rfl, .nil, ih hrest⟩

theorem bracketed_of_opened {w : List (Mark α)} (h : opened [] w = some []) : Bracketed w :=
  closes_of_opened h

/-- Whatever is open can be closed. -/
theorem exists_bracketed {w : List (Mark α)} {o : List α} (h : opened [] w = some o) :
    ∃ rest, Bracketed (w ++ rest) := by
  refine ⟨o.map .exit, bracketed_of_opened ?_⟩
  rw [opened_append, h]
  exact opened_exits o

end Opened
