import Bootcamp.Lib.Fallible

/-! Machines that answer every event. What is answered to some of the events does not depend on
the others, where a relation on states hides what the others do. -/
namespace Noninterference

variable {σ ε ο α : Type}

/-- The state behind a run and the answers to its visible events. -/
def observe (step : σ → ε → Except α (σ × ο)) (visible : ε → Bool) :
    σ → List ε → Except α (σ × List ο)
  | s, [] => .ok (s, [])
  | s, e :: es => do
    let (s, o) ← step s e
    let (s, os) ← observe step visible s es
    return (s, if visible e then o :: os else os)

variable {step : σ → ε → Except α (σ × ο)} {visible : ε → Bool} {allowed : ε → Prop}

theorem observe_hidden {s s' : σ} {e : ε} {o : ο} (h : step s e = .ok (s', o))
    (hhidden : visible e = false) (es : List ε) :
    observe step visible s (e :: es) = observe step visible s' es := by
  simp only [observe, h, Except.ok_bind]
  cases observe step visible s' es with
  | error x => rfl
  | ok r => simp [hhidden]

theorem observe_visible {s s' : σ} {e : ε} {o : ο} (h : step s e = .ok (s', o))
    (hvisible : visible e = true) (es : List ε) :
    observe step visible s (e :: es) =
      (observe step visible s' es).map fun r => (r.1, o :: r.2) := by
  simp only [observe, h, Except.ok_bind]
  cases observe step visible s' es with
  | error x => rfl
  | ok r => simp [hvisible, Except.map]

/-- What is observed is a run of the machine. -/
theorem foldlM_of_observe {next : σ → ε → Except α σ}
    (hnext : ∀ s e s' o, step s e = .ok (s', o) → next s e = .ok s') {s s' : σ} {es : List ε}
    {os : List ο} (h : observe step visible s es = .ok (s', os)) : es.foldlM next s = .ok s' := by
  induction es generalizing s os with
  | nil =>
    obtain ⟨rfl, -⟩ := Prod.mk.inj (Except.ok.inj h)
    rfl
  | cons e es ih =>
    obtain ⟨⟨s₁, o⟩, hok, h⟩ := Except.bind_eq_ok.mp h
    obtain ⟨⟨s₂, os'⟩, hrest, h⟩ := Except.bind_eq_ok.mp h
    obtain ⟨rfl, -⟩ := Prod.mk.inj (Except.ok.inj h)
    rw [List.foldlM_cons, hnext s e s₁ o hok]
    exact ih hrest

/-- Where an invariant tells what is answered to the visible events. -/
theorem observe_eq_map {I : σ → Prop} {f : ε → ο}
    (hstep : ∀ s e, I s → allowed e →
      ∃ s' o, step s e = .ok (s', o) ∧ I s' ∧ (visible e = true → o = f e))
    {s : σ} (hs : I s) {es : List ε} (hes : ∀ e ∈ es, allowed e) :
    ∃ s', observe step visible s es = .ok (s', (es.filter visible).map f) := by
  induction es generalizing s with
  | nil => exact ⟨s, rfl⟩
  | cons e es ih =>
    obtain ⟨he, hes⟩ := List.forall_mem_cons.mp hes
    obtain ⟨s₁, o, hok, hs₁, ho⟩ := hstep s e hs he
    obtain ⟨s', hrest⟩ := ih hs₁ hes
    refine ⟨s', ?_⟩
    cases hv : visible e with
    | false => rw [observe_hidden hok hv, hrest, List.filter_cons_of_neg (by simp [hv])]
    | true =>
      rw [observe_visible hok hv, hrest, List.filter_cons_of_pos hv, ho hv]
      rfl

/-- The relation hides what an event that is not visible does, and visible events are answered
alike in related states. -/
structure Unwinding (step : σ → ε → Except α (σ × ο)) (visible : ε → Bool) (allowed : ε → Prop)
    (R : σ → σ → Prop) : Prop where
  symm : ∀ s t, R s t → R t s
  hidden : ∀ s t e, R s t → allowed e → visible e = false → ∃ s' o, step s e = .ok (s', o) ∧ R s' t
  alike : ∀ s t e, R s t → allowed e → visible e = true →
    ∃ s' t' o, step s e = .ok (s', o) ∧ step t e = .ok (t', o) ∧ R s' t'

namespace Unwinding

variable {R : σ → σ → Prop} {s t : σ}

theorem skip (h : Unwinding step visible allowed R) (hst : R s t) {pre : List ε}
    (hpre : ∀ e ∈ pre, allowed e ∧ visible e = false) :
    ∃ s', (∀ es, observe step visible s (pre ++ es) = observe step visible s' es) ∧ R s' t := by
  induction pre generalizing s with
  | nil => exact ⟨s, fun _ => rfl, hst⟩
  | cons e pre ih =>
    obtain ⟨⟨hallowed, hhidden⟩, hpre⟩ := List.forall_mem_cons.mp hpre
    obtain ⟨s₁, o, hok, hst⟩ := h.hidden s t e hst hallowed hhidden
    obtain ⟨s', hskip, hst⟩ := ih hst hpre
    exact ⟨s', fun es => (observe_hidden hok hhidden (pre ++ es)).trans (hskip es), hst⟩

/-- From related states, runs that agree on their visible events get the same answers to them. -/
theorem noninterference (h : Unwinding step visible allowed R) (hst : R s t) {es es' : List ε}
    (hes : ∀ e ∈ es, allowed e) (hes' : ∀ e ∈ es', allowed e)
    (hfilter : es.filter visible = es'.filter visible) :
    ∃ s' t' os, observe step visible s es = .ok (s', os) ∧
      observe step visible t es' = .ok (t', os) ∧ R s' t' := by
  generalize hw : es.filter visible = w at hfilter
  induction w generalizing s t es es' with
  | nil =>
    have hhidden (es : List ε) (hes : ∀ e ∈ es, allowed e) (hnil : es.filter visible = []) :
        ∀ e ∈ es, allowed e ∧ visible e = false :=
      fun e he => ⟨hes e he, by simpa using List.filter_eq_nil_iff.mp hnil e he⟩
    obtain ⟨s', hskip, hst⟩ := h.skip hst (hhidden es hes hw)
    obtain ⟨t', hskip', hts⟩ := h.skip (h.symm _ _ hst) (hhidden es' hes' hfilter.symm)
    have hs := hskip []
    have ht := hskip' []
    rw [List.append_nil] at hs ht
    exact ⟨s', t', [], hs, ht, h.symm _ _ hts⟩
  | cons e w ih =>
    obtain ⟨pre, post, rfl, hpre, hvisible, hpost⟩ := List.filter_eq_cons_iff.mp hw
    obtain ⟨pre', post', rfl, hpre', -, hpost'⟩ := List.filter_eq_cons_iff.mp hfilter.symm
    obtain ⟨hes, he, hpostes⟩ : (∀ x ∈ pre, allowed x) ∧ allowed e ∧ ∀ x ∈ post, allowed x := by
      simpa [or_imp, forall_and] using hes
    obtain ⟨hes', -, hpostes'⟩ : (∀ x ∈ pre', allowed x) ∧ allowed e ∧ ∀ x ∈ post', allowed x := by
      simpa [or_imp, forall_and] using hes'
    obtain ⟨s₁, hskip, hst⟩ := h.skip hst fun x hx => ⟨hes x hx, by simpa using hpre x hx⟩
    obtain ⟨t₁, hskip', hts⟩ :=
      h.skip (h.symm _ _ hst) fun x hx => ⟨hes' x hx, by simpa using hpre' x hx⟩
    obtain ⟨s₂, t₂, o, hok, hok', hst⟩ := h.alike s₁ t₁ e (h.symm _ _ hts) he hvisible
    obtain ⟨s', t', os, hrest, hrest', hst⟩ := ih hst hpostes hpostes' hpost hpost'.symm
    refine ⟨s', t', o :: os, ?_, ?_, hst⟩
    · rw [hskip, observe_visible hok hvisible, hrest]
      rfl
    · rw [hskip', observe_visible hok' hvisible, hrest']
      rfl

end Unwinding

end Noninterference
