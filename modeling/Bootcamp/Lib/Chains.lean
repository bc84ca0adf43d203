import Mathlib.Data.List.Nodup
import Mathlib.Tactic.Common

/-! Chains of pointers. `next` says where each object points; a chain starts
at an object and ends at the first one that points nowhere. -/
namespace Chains

variable {π : Type} {next : π → Option π}

/-- `l` lists the objects met from `p` down to the end of its chain, `p` first. -/
inductive Chain (next : π → Option π) : π → List π → Prop
  | last {p : π} : next p = none → Chain next p [p]
  | link {p q : π} {l : List π} : next p = some q → Chain next q l → Chain next p (p :: l)

theorem Chain.unique {p : π} {l l' : List π} (h : Chain next p l) (h' : Chain next p l') :
    l = l' := by
  induction h generalizing l' with
  | last hp =>
    cases h' with
    | last => rfl
    | link hp' => simp [hp] at hp'
  | link hp _ ih =>
    cases h' with
    | last hp' => simp [hp] at hp'
    | link hp' hl' =>
      obtain rfl := Option.some.inj (hp.symm.trans hp')
      rw [ih hl']

theorem Chain.ne_nil {p : π} {l : List π} (h : Chain next p l) : l ≠ [] := by
  cases h <;> simp

theorem Chain.eq_cons {p : π} {l : List π} (h : Chain next p l) : ∃ l', l = p :: l' := by
  cases h with
  | last => exact ⟨_, rfl⟩
  | link => exact ⟨_, rfl⟩

theorem Chain.last_next {p r : π} {l : List π} (h : Chain next p (l ++ [r])) : next r = none := by
  generalize hl : l ++ [r] = l' at h
  induction h generalizing l with
  | last hp =>
    cases l with
    | nil => simpa [(List.cons.inj hl).1] using hp
    | cons _ _ => simp at hl
  | link _ hchain ih =>
    cases l with
    | nil => exact absurd (List.cons.inj hl).2.symm hchain.ne_nil
    | cons _ l => exact ih (List.cons.inj hl).2

/-- Every object on a chain starts its own, which is no longer. -/
theorem Chain.of_mem {p q : π} {l : List π} (h : Chain next p l) (hq : q ∈ l) :
    ∃ l', Chain next q l' ∧ l' <:+ l := by
  induction h with
  | last hp =>
    obtain rfl := List.mem_singleton.mp hq
    exact ⟨_, .last hp, List.suffix_refl _⟩
  | link hp hl ih =>
    rcases List.mem_cons.mp hq with rfl | hq
    · exact ⟨_, .link hp hl, List.suffix_refl _⟩
    · obtain ⟨l', hl', hs⟩ := ih hq
      exact ⟨l', hl', hs.trans (List.suffix_cons _ _)⟩

/-- A chain ends where an object on it points nowhere. -/
theorem Chain.getLast_of_none {p q : π} {l : List π} (h : Chain next p l) (hq : q ∈ l)
    (hnone : next q = none) : l.getLast? = some q := by
  obtain ⟨l', hl', hsuffix⟩ := h.of_mem hq
  obtain rfl := hl'.unique (.last hnone)
  obtain ⟨pre, rfl⟩ := hsuffix
  exact List.getLast?_concat

/-- What pointers preserve holds along a chain. -/
theorem Chain.forall_mem {S : π → Prop} (down : ∀ p q, S p → next p = some q → S q) {p : π}
    {l : List π} (h : Chain next p l) (hp : S p) : ∀ q ∈ l, S q := by
  induction h with
  | last => simpa using hp
  | link hnext _ ih => exact List.forall_mem_cons.mpr ⟨hp, ih (down _ _ hp hnext)⟩

/-- What comes behind an object on a chain is its own chain. -/
theorem Chain.of_append {p q : π} {l l' : List π} (h : Chain next p (l ++ q :: l')) :
    Chain next q (q :: l') := by
  induction l generalizing p with
  | nil =>
    cases h with
    | last hp => exact .last hp
    | link hp hl => exact .link hp hl
  | cons a l ih =>
    generalize hlist : a :: l ++ q :: l' = l'' at h
    cases h with
    | last hp => simp at hlist
    | link hp hl =>
      obtain ⟨-, rfl⟩ := List.cons.inj hlist
      exact ih hl

/-- An object that points on is followed by the chain of what it points to. -/
theorem Chain.of_link {p q : π} {l : List π} (h : Chain next p (p :: l)) (hp : next p = some q) :
    Chain next q l := by
  cases h with
  | last hnone =>
    rw [hp] at hnone
    cases hnone
  | link hsome hl =>
    obtain rfl := Option.some.inj (hp.symm.trans hsome)
    exact hl

/-- A chain meets no object twice: the second visit would start a shorter chain. -/
theorem Chain.nodup {p : π} {l : List π} (h : Chain next p l) : l.Nodup := by
  induction h with
  | last => simp
  | @link p q l hp hl ih =>
    refine List.nodup_cons.mpr ⟨?_, ih⟩
    intro hmem
    obtain ⟨l', hl', hs⟩ := hl.of_mem hmem
    have heq := hl'.unique (.link hp hl)
    have hlen := hs.length_le
    rw [heq, List.length_cons] at hlen
    omega

/-- A chain depends only on where its own objects point. -/
theorem Chain.congr {next' : π → Option π} {p : π} {l : List π} (h : Chain next p l)
    (agree : ∀ q ∈ l, next' q = next q) : Chain next' p l := by
  induction h with
  | last hp => exact .last ((agree _ List.mem_cons_self).trans hp)
  | link hp _ ih =>
    exact .link ((agree _ List.mem_cons_self).trans hp)
      (ih fun q hq => agree q (List.mem_cons_of_mem _ hq))

/-- Pointers that always lead to a smaller rank have chains, of at most that rank. -/
theorem exists_chain {S : π → Prop} (rank : π → Nat)
    (down : ∀ p q, S p → next p = some q → S q ∧ rank q < rank p) {p : π} (hp : S p) :
    ∃ l, Chain next p l ∧ l.length ≤ rank p + 1 := by
  generalize hr : rank p = r
  induction r using Nat.strongRecOn generalizing p with
  | ind r ih =>
    cases hn : next p with
    | none => exact ⟨[p], .last hn, by simp⟩
    | some q =>
      obtain ⟨hq, hlt⟩ := down p q hp hn
      obtain ⟨l, hl, hlen⟩ := ih (rank q) (hr ▸ hlt) hq rfl
      exact ⟨p :: l, .link hn hl, by simp only [List.length_cons]; omega⟩

/-- Where the rank falls by one at every step, down to one, it counts the chain. -/
theorem Chain.length_eq_rank {S : π → Prop} {rank : π → Nat}
    (down : ∀ p q, S p → next p = some q → S q ∧ rank q + 1 = rank p)
    (root : ∀ p, S p → next p = none → rank p = 1) {p : π} {l : List π} (h : Chain next p l)
    (hp : S p) : l.length = rank p := by
  induction h with
  | last hnone => exact (root _ hp hnone).symm
  | link hsome _ ih =>
    obtain ⟨hq, hrank⟩ := down _ _ hp hsome
    rw [List.length_cons, ih hq, hrank]

end Chains
