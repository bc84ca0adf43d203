import Bootcamp.Lib.Fallible

/-! Runs that get through over safe states only, when this is so exactly as long as every step
meets a condition on the state before it. -/
namespace SafeRuns

variable {ε α β : Type}

/-- Every step meets the condition, as far as the run gets. -/
def Meets (f : α → β → Except ε α) (C : α → β → Prop) : α → List β → Prop
  | _, [] => True
  | a, x :: xs => C a x ∧ ∀ b, f a x = .ok b → Meets f C b xs

/-- The run gets through, and all its states are safe. -/
def SafeAlong (f : α → β → Except ε α) (Safe : α → Prop) (a : α) (xs : List β) : Prop :=
  ∀ past future, xs = past ++ future → ∃ b, past.foldlM f a = .ok b ∧ Safe b

variable {f : α → β → Except ε α} {C : α → β → Prop} {Safe I : α → Prop} {a : α} {x : β}
  {xs : List β}

theorem safeAlong_nil : SafeAlong f Safe a [] ↔ Safe a := by
  constructor
  · intro h
    obtain ⟨b, hb, hsafe⟩ := h [] [] rfl
    cases hb
    exact hsafe
  · intro h past future hxs
    obtain ⟨rfl, rfl⟩ := List.append_eq_nil_iff.mp hxs.symm
    exact ⟨a, rfl, h⟩

theorem safeAlong_cons :
    SafeAlong f Safe a (x :: xs) ↔ Safe a ∧ ∃ b, f a x = .ok b ∧ SafeAlong f Safe b xs := by
  constructor
  · intro h
    obtain ⟨a', ha', hsafe⟩ := h [] (x :: xs) rfl
    cases ha'
    refine ⟨hsafe, ?_⟩
    obtain ⟨b, hb, -⟩ := h [x] xs rfl
    rw [List.foldlM_cons] at hb
    obtain ⟨b, hfx, -⟩ := Except.bind_eq_ok.mp hb
    refine ⟨b, hfx, fun past future hxs => ?_⟩
    obtain ⟨c, hc, hsafe⟩ := h (x :: past) future (by rw [hxs]; rfl)
    rw [List.foldlM_cons, hfx, Except.ok_bind] at hc
    exact ⟨c, hc, hsafe⟩
  · rintro ⟨hsafe, b, hfx, h⟩ past future hxs
    cases past with
    | nil => exact ⟨a, rfl, hsafe⟩
    | cons y past =>
      obtain ⟨rfl, htail⟩ := List.cons.inj hxs
      obtain ⟨c, hc, hsafe⟩ := h past future htail
      refine ⟨c, ?_, hsafe⟩
      rw [List.foldlM_cons, hfx, Except.ok_bind, hc]

/-- An invariant that a step keeps under the condition, where a step without it does not end in a
safe state. -/
theorem safeAlong_iff_meets (safe : ∀ a, I a → Safe a)
    (keeps : ∀ a x, I a → C a x → ∃ b, f a x = .ok b ∧ I b)
    (needs : ∀ a x b, I a → f a x = .ok b → Safe b → C a x) (ha : I a) (xs : List β) :
    SafeAlong f Safe a xs ↔ Meets f C a xs := by
  induction xs generalizing a with
  | nil => exact safeAlong_nil.trans (iff_of_true (safe a ha) trivial)
  | cons x xs ih =>
    rw [safeAlong_cons]
    constructor
    · rintro ⟨-, b, hfx, hrest⟩
      obtain ⟨b', hb', hsafe⟩ := hrest [] xs rfl
      cases hb'
      have hx := needs a x b ha hfx hsafe
      obtain ⟨b', hfx', hb⟩ := keeps a x ha hx
      refine ⟨hx, fun c hc => ?_⟩
      obtain rfl := Except.ok.inj (hfx.symm.trans hc)
      obtain rfl := Except.ok.inj (hfx.symm.trans hfx')
      exact (ih hb).mp hrest
    · rintro ⟨hx, hrest⟩
      obtain ⟨b, hfx, hb⟩ := keeps a x ha hx
      exact ⟨safe a ha, b, hfx, (ih hb).mpr (hrest b hfx)⟩

theorem Meets.cons {b : α} (hx : C a x) (hfx : f a x = .ok b) (h : Meets f C b xs) :
    Meets f C a (x :: xs) := by
  refine ⟨hx, fun c hc => ?_⟩
  obtain rfl := Except.ok.inj (hfx.symm.trans hc)
  exact h

/-- Where the condition is met the invariant holds behind the run. -/
theorem Meets.invariant (keeps : ∀ a x, I a → C a x → ∃ b, f a x = .ok b ∧ I b) {b : α}
    (ha : I a) (h : Meets f C a xs) (hrun : xs.foldlM f a = .ok b) : I b := by
  induction xs generalizing a with
  | nil =>
    cases hrun
    exact ha
  | cons x xs ih =>
    obtain ⟨c, hfx, hc⟩ := keeps a x ha h.1
    rw [List.foldlM_cons, hfx, Except.ok_bind] at hrun
    exact ih hc (h.2 c hfx) hrun

end SafeRuns
