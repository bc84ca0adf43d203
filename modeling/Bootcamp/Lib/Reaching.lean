import Bootcamp.Lib.Chains
import Mathlib.Data.Set.Card
import Mathlib.Logic.Relation

/-! What is met along pointers, and when following them comes to an end. -/
namespace Chains

variable {π : Type} {next : π → Option π} {p q r : π}

def Reaches (next : π → Option π) : π → π → Prop :=
  Relation.ReflTransGen fun p q => next p = some q

theorem reaches_of_none (h : next p = none) : Reaches next p r ↔ r = p := by
  constructor
  · intro hr
    rcases Relation.ReflTransGen.cases_head hr with rfl | ⟨q, hq, -⟩
    · rfl
    · rw [h] at hq
      cases hq
  · rintro rfl
    exact .refl

theorem reaches_of_some (h : next p = some q) : Reaches next p r ↔ r = p ∨ Reaches next q r := by
  constructor
  · intro hr
    rcases Relation.ReflTransGen.cases_head hr with rfl | ⟨q', hq, hr⟩
    · exact .inl rfl
    · obtain rfl := Option.some.inj (h.symm.trans hq)
      exact .inr hr
  · rintro (rfl | hr)
    · exact .refl
    · exact .head h hr

/-- The pointers can be followed only so far. -/
def Acyclic (next : π → Option π) : Prop := WellFounded fun q p => next p = some q

theorem Acyclic.exists_chain (h : Acyclic next) (p : π) : ∃ l, Chain next p l := by
  induction p using h.induction with
  | h p ih =>
    cases hp : next p with
    | none => exact ⟨[p], .last hp⟩
    | some q =>
      obtain ⟨l, hl⟩ := ih q hp
      exact ⟨p :: l, .link hp hl⟩

theorem acyclic_of_rank (rank : π → Nat) (down : ∀ p q, next p = some q → rank q < rank p) :
    Acyclic next :=
  Subrelation.wf (fun {q p} hq => down p q hq) (measure rank).wf

/-- Among finitely many objects that point somewhere, this says that none comes back to itself. -/
theorem acyclic_iff (hfinite : {p | next p ≠ none}.Finite) :
    Acyclic next ↔ ∀ p, ¬Relation.TransGen (fun p q => next p = some q) p p := by
  constructor
  · intro h p hp
    exact h.transGen.irrefl.irrefl p hp.swap
  · intro h
    let below (p : π) : Set π := {q | next q ≠ none ∧ Reaches next p q}
    have hbelow (p : π) : (below p).Finite := hfinite.subset fun q hq => hq.1
    apply acyclic_of_rank fun p => (below p).ncard
    intro p q hq
    apply Set.ncard_lt_ncard _ (hbelow p)
    have hsub : below q ⊆ below p := fun r hr => ⟨hr.1, hr.2.head hq⟩
    rw [Set.ssubset_iff_of_subset hsub]
    exact ⟨p, ⟨by simp [hq], .refl⟩, fun hp => h p (.head' hq hp.2)⟩

end Chains
