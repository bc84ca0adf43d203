import Mathlib.Order.Defs.Unbundled
import Mathlib.Tactic.Common

/-! A run cut into segments, with a state stored behind each of them. Segments
can be checked apart, each from the state stored before it, when the states
reached agree with the stored ones and steps cannot tell such states apart. -/
namespace Segments

variable {σ β : Type} (f : σ → β → Option σ) (agrees : σ → σ → Prop)

/-- Every segment runs from the state stored before it. -/
def Local : σ → List (List β × σ) → Prop
  | _, [] => True
  | s, (bs, t) :: segs => (∃ u, bs.foldlM f s = some u ∧ agrees u t) ∧ Local t segs

/-- One run goes through all segments and agrees with what is stored at each end. -/
def Global : σ → List (List β × σ) → Prop
  | _, [] => True
  | s, (bs, t) :: segs => ∃ u, bs.foldlM f s = some u ∧ agrees u t ∧ Global u segs

variable {f agrees} {s t : σ} {segs : List (List β × σ)}

theorem Global.mono {agrees' : σ → σ → Prop} (h : Global f agrees s segs)
    (imp : ∀ u t, agrees u t → agrees' u t) : Global f agrees' s segs := by
  induction segs generalizing s with
  | nil => trivial
  | cons seg segs ih =>
    obtain ⟨bs, t⟩ := seg
    obtain ⟨u, hu, hag, hrest⟩ := h
    exact ⟨u, hu, imp u t hag, ih hrest⟩

/-- The global run, in one piece. -/
theorem Global.run (h : Global f agrees s segs) :
    ∃ u, (segs.flatMap Prod.fst).foldlM f s = some u := by
  induction segs generalizing s with
  | nil => exact ⟨s, rfl⟩
  | cons seg segs ih =>
    obtain ⟨bs, t⟩ := seg
    obtain ⟨u, hu, -, hrest⟩ := h
    obtain ⟨v, hv⟩ := ih hrest
    exact ⟨v, by rw [List.flatMap_cons, List.foldlM_append, hu]; exact hv⟩

section Congruence

variable {R : σ → σ → Prop}
  (cong : ∀ s t b s', R s t → f s b = some s' → ∃ t', f t b = some t' ∧ R s' t')
include cong

/-- Runs from related states stay related. -/
theorem foldlM_related {bs : List β} {s' : σ} (hr : R s t) (h : bs.foldlM f s = some s') :
    ∃ t', bs.foldlM f t = some t' ∧ R s' t' := by
  induction bs generalizing s t with
  | nil =>
    obtain rfl := Option.some.inj h
    exact ⟨t, rfl, hr⟩
  | cons b bs ih =>
    rw [List.foldlM_cons] at h
    obtain ⟨s₁, hs₁, h⟩ := Option.bind_eq_some_iff.mp h
    obtain ⟨t₁, ht₁, hr₁⟩ := cong s t b s₁ hr hs₁
    obtain ⟨t', ht', hr'⟩ := ih hr₁ h
    exact ⟨t', by rw [List.foldlM_cons, ht₁]; exact ht', hr'⟩

/-- Checking the segments apart is checking the whole run. -/
theorem local_iff_global (heq : Equivalence R) (hr : R s t) :
    Local f R s segs ↔ Global f R t segs := by
  induction segs generalizing s t with
  | nil => exact Iff.rfl
  | cons seg segs ih =>
    obtain ⟨bs, v⟩ := seg
    constructor
    · rintro ⟨⟨u, hu, hag⟩, hrest⟩
      obtain ⟨u', hu', hr'⟩ := foldlM_related cong hr hu
      have hstored : R u' v := heq.trans (heq.symm hr') hag
      exact ⟨u', hu', hstored, (ih (heq.symm hstored)).mp hrest⟩
    · rintro ⟨u, hu, hag, hrest⟩
      obtain ⟨u', hu', hr'⟩ := foldlM_related cong (heq.symm hr) hu
      exact ⟨⟨u', hu', heq.trans (heq.symm hr') hag⟩, (ih (heq.symm hag)).mpr hrest⟩

/-- A weaker comparison of each segment's end will do when what it lets through
is caught by comparing the run with what is stored. -/
theorem Local.strengthen {weak bound : σ → σ → Prop} (heq : Equivalence R) (hr : R s t)
    (hlocal : Local f weak s segs) (hglobal : Global f bound t segs)
    (imp : ∀ u u' v, weak u v → R u u' → bound u' v → R u v) : Local f R s segs := by
  induction segs generalizing s t with
  | nil => trivial
  | cons seg segs ih =>
    obtain ⟨bs, v⟩ := seg
    obtain ⟨⟨u, hu, hweak⟩, hlocal⟩ := hlocal
    obtain ⟨u', hu', hbound, hglobal⟩ := hglobal
    obtain ⟨w, hw, hr'⟩ := foldlM_related cong hr hu
    obtain rfl := Option.some.inj (hu'.symm.trans hw)
    have hstored := imp u u' v hweak hr' hbound
    exact ⟨⟨u, hu, hstored⟩, ih (heq.trans (heq.symm hstored) hr') hlocal hglobal⟩

end Congruence

/-- The state stored before a segment. -/
def stored : σ → List (List β × σ) → Nat → σ
  | s, _, 0 => s
  | s, [], _ + 1 => s
  | _, (_, t) :: segs, i + 1 => stored t segs i

@[simp] theorem stored_zero : stored s segs 0 = s := by
  simp only [stored]

theorem stored_succ {i : Nat} {bs : List β} (hi : segs[i]? = some (bs, t)) :
    stored s segs (i + 1) = t := by
  induction segs generalizing s i with
  | nil => cases hi
  | cons seg segs ih =>
    cases i with
    | zero =>
      obtain rfl := Option.some.inj hi
      simp only [stored]
    | succ i => exact ih hi

theorem local_iff_stored : Local f agrees s segs ↔
    ∀ (i : Nat) (bs : List β) (t : σ), segs[i]? = some (bs, t) →
      ∃ u, bs.foldlM f (stored s segs i) = some u ∧ agrees u t := by
  induction segs generalizing s with
  | nil => simp [Local]
  | cons seg segs ih =>
    obtain ⟨bs, t⟩ := seg
    constructor
    · rintro ⟨hseg, hrest⟩ i bs' t' hi
      cases i with
      | zero =>
        obtain ⟨rfl, rfl⟩ := Prod.mk.inj (Option.some.inj hi)
        exact hseg
      | succ i => exact ih.mp hrest i bs' t' hi
    · intro h
      refine ⟨h 0 bs t rfl, ih.mpr fun i bs' t' hi => ?_⟩
      exact h (i + 1) bs' t' hi

/-- Each stored state is the one that the run reaches there, if it comes so far. -/
def Exact (f : σ → β → Option σ) : σ → List (List β × σ) → Prop
  | _, [] => True
  | s, (bs, t) :: segs => ∀ u, bs.foldlM f s = some u → u = t ∧ Exact f t segs

/-- Segments behind exact states can be checked apart with any comparison at all. -/
theorem Exact.local_iff_run (refl : ∀ u, agrees u u) (h : Exact f s segs) :
    Local f agrees s segs ↔ ∃ u, (segs.flatMap Prod.fst).foldlM f s = some u := by
  induction segs generalizing s with
  | nil => exact ⟨fun _ => ⟨s, rfl⟩, fun _ => trivial⟩
  | cons seg segs ih =>
    obtain ⟨bs, t⟩ := seg
    rw [List.flatMap_cons, List.foldlM_append]
    constructor
    · rintro ⟨⟨u, hu, -⟩, hrest⟩
      obtain ⟨rfl, hexact⟩ := h u hu
      obtain ⟨v, hv⟩ := (ih hexact).mp hrest
      exact ⟨v, by rw [hu]; exact hv⟩
    · rintro ⟨v, hrun⟩
      obtain ⟨u, hu, hv⟩ := Option.bind_eq_some_iff.mp hrun
      obtain ⟨rfl, hexact⟩ := h u hu
      exact ⟨⟨u, hu, refl u⟩, (ih hexact).mpr ⟨v, hv⟩⟩

end Segments
