import Mathlib.Data.Set.Function
import Mathlib.Tactic.Common

/-! Chains of nodes that carry the hash of their own encoding and name the
hash of the node before them. Two chains with one tip hash are one chain, up to
collisions and to a node that hashes to the root's mark. -/
namespace HashChain

variable {ν π δ : Type}

/-- Two different messages of `s` with one hash. -/
def Collision (hash : π → δ) (s : Set π) : Prop :=
  ∃ x ∈ s, ∃ y ∈ s, x ≠ y ∧ hash x = hash y

theorem injOn_or_collision (hash : π → δ) (s : Set π) : Set.InjOn hash s ∨ Collision hash s := by
  by_cases h : Collision hash s
  · exact .inr h
  · left
    intro x hx y hy hxy
    by_contra hne
    exact h ⟨x, hx, y, hy, hne, hxy⟩

/-- How nodes are encoded and linked: the encoding determines the link. -/
structure Scheme (ν π δ : Type) where
  hash : π → δ
  encode : ν → π
  prev : ν → δ
  digest : ν → δ
  prev_of_encode : ∀ a b, encode a = encode b → prev a = prev b

/-- Nodes from the tip down to one that names `root`. -/
inductive Chain (S : Scheme ν π δ) (root : δ) : List ν → Prop
  | first {a : ν} : S.prev a = root → S.digest a = S.hash (S.encode a) → Chain S root [a]
  | next {a b : ν} {l : List ν} : S.prev a = S.digest b → S.digest a = S.hash (S.encode a) →
      Chain S root (b :: l) → Chain S root (a :: b :: l)

variable {S : Scheme ν π δ} {root : δ}

theorem Chain.digest_head {a : ν} {l : List ν} (h : Chain S root (a :: l)) :
    S.digest a = S.hash (S.encode a) := by
  cases h with
  | first _ hd => exact hd
  | next _ hd _ => exact hd

/-- Without collisions the tip's hash fixes every encoding down to the root,
unless some node behind a tip hashes to the root's mark. -/
theorem Chain.agree {a₁ a₂ : ν} {l₁ l₂ : List ν} {s : Set π} (hinj : Set.InjOn S.hash s)
    (h₁ : Chain S root (a₁ :: l₁)) (h₂ : Chain S root (a₂ :: l₂))
    (hs : ∀ a ∈ a₁ :: l₁ ++ a₂ :: l₂, S.encode a ∈ s) (htip : S.digest a₁ = S.digest a₂) :
    (a₁ :: l₁).map S.encode = (a₂ :: l₂).map S.encode ∨ ∃ a ∈ l₁ ++ l₂, S.digest a = root := by
  induction l₁ generalizing a₁ a₂ l₂ with
  | nil =>
    have heq : S.encode a₁ = S.encode a₂ := by
      apply hinj (hs a₁ (by simp)) (hs a₂ (by simp))
      rw [← h₁.digest_head, ← h₂.digest_head, htip]
    have hprev := S.prev_of_encode _ _ heq
    cases h₁ with
    | first hroot _ =>
      cases h₂ with
      | first => exact .inl (by simp [heq])
      | @next _ b l hlink _ _ => exact .inr ⟨b, by simp, by rw [← hlink, ← hprev, hroot]⟩
  | cons b₁ l₁ ih =>
    have heq : S.encode a₁ = S.encode a₂ := by
      apply hinj (hs a₁ (by simp)) (hs a₂ (by simp))
      rw [← h₁.digest_head, ← h₂.digest_head, htip]
    have hprev := S.prev_of_encode _ _ heq
    cases h₁ with
    | next hlink₁ _ h₁ =>
      cases h₂ with
      | first hroot _ => exact .inr ⟨b₁, by simp, by rw [← hlink₁, hprev, hroot]⟩
      | @next _ b₂ l₂ hlink₂ _ h₂ =>
        have hs' : ∀ a ∈ b₁ :: l₁ ++ b₂ :: l₂, S.encode a ∈ s := by
          intro a ha
          apply hs
          simp only [List.cons_append, List.mem_cons, List.mem_append] at ha ⊢
          tauto
        rcases ih h₁ h₂ hs' (by rw [← hlink₁, ← hlink₂, hprev]) with hagree | ⟨a, ha, hz⟩
        · rw [List.map_cons, hagree, heq, ← List.map_cons]
          exact .inl rfl
        · refine .inr ⟨a, ?_, hz⟩
          simp only [List.cons_append, List.mem_cons, List.mem_append] at ha ⊢
          tauto

theorem Chain.of_append {a : ν} {l l' : List ν} (h : Chain S root (l ++ a :: l')) :
    Chain S root (a :: l') := by
  induction l with
  | nil => exact h
  | cons b l ih =>
    apply ih
    generalize hrest : l ++ a :: l' = rest at h ⊢
    rw [List.cons_append, hrest] at h
    cases h with
    | first => simp at hrest
    | next _ _ h => exact h

/-- Without collisions no digest comes twice on a chain, unless a node behind the tip
hashes to the root's mark. -/
theorem Chain.nodup_digest {a : ν} {l : List ν} {s : Set π} (hinj : Set.InjOn S.hash s)
    (h : Chain S root (a :: l)) (hs : ∀ b ∈ a :: l, S.encode b ∈ s)
    (hroot : ∀ b ∈ l, S.digest b ≠ root) : ((a :: l).map S.digest).Nodup := by
  induction l generalizing a with
  | nil => simp
  | cons b l ih =>
    have htail : Chain S root (b :: l) := h.of_append (l := [a])
    obtain ⟨-, hroots⟩ := List.forall_mem_cons.mp hroot
    obtain ⟨-, hss⟩ := List.forall_mem_cons.mp hs
    refine List.nodup_cons.mpr ⟨?_, ih htail hss hroots⟩
    intro hmem
    obtain ⟨x, hx, hdigest⟩ := List.mem_map.mp hmem
    obtain ⟨pre, post, hsplit⟩ := List.append_of_mem hx
    have hx : Chain S root (x :: post) := (hsplit ▸ htail).of_append
    have hsub : ∀ y ∈ x :: post, y ∈ b :: l := by
      intro y hy
      rw [hsplit]
      exact List.mem_append_right _ hy
    have hencode : ∀ y ∈ a :: (b :: l) ++ x :: post, S.encode y ∈ s := by
      intro y hy
      rcases List.mem_append.mp hy with hy | hy
      · exact hs y hy
      · exact hs y (List.mem_cons_of_mem _ (hsub y hy))
    rcases h.agree hinj hx hencode hdigest.symm with hagree | ⟨y, hy, hz⟩
    · have hlength := congrArg List.length hagree
      rw [hsplit] at hlength
      simp at hlength
      omega
    · rcases List.mem_append.mp hy with hy | hy
      · exact hroot y hy hz
      · exact hroot y (hsub y (List.mem_cons_of_mem _ hy)) hz

/-- Nodes from the tip down, wherever they end. -/
inductive Links (S : Scheme ν π δ) : List ν → Prop
  | last {a : ν} : S.digest a = S.hash (S.encode a) → Links S [a]
  | next {a b : ν} {l : List ν} : S.prev a = S.digest b → S.digest a = S.hash (S.encode a) →
      Links S (b :: l) → Links S (a :: b :: l)

theorem Links.digest_head {a : ν} {l : List ν} (h : Links S (a :: l)) :
    S.digest a = S.hash (S.encode a) := by
  cases h with
  | last hd => exact hd
  | next _ hd _ => exact hd

/-- Without collisions the tip's hash and the number of nodes fix every encoding, whatever the
last node names. -/
theorem Links.agree {a₁ a₂ : ν} {l₁ l₂ : List ν} {s : Set π} (hinj : Set.InjOn S.hash s)
    (h₁ : Links S (a₁ :: l₁)) (h₂ : Links S (a₂ :: l₂))
    (hs : ∀ a ∈ a₁ :: l₁ ++ a₂ :: l₂, S.encode a ∈ s) (htip : S.digest a₁ = S.digest a₂)
    (hlength : l₁.length = l₂.length) : (a₁ :: l₁).map S.encode = (a₂ :: l₂).map S.encode := by
  have heq : S.encode a₁ = S.encode a₂ := by
    apply hinj (hs a₁ (by simp)) (hs a₂ (by simp))
    rw [← h₁.digest_head, ← h₂.digest_head, htip]
  induction l₁ generalizing a₁ a₂ l₂ with
  | nil =>
    obtain rfl := List.length_eq_zero_iff.mp hlength.symm
    simp [heq]
  | cons b₁ l₁ ih =>
    have hprev := S.prev_of_encode _ _ heq
    cases h₁ with
    | next hlink₁ _ h₁ =>
      cases h₂ with
      | last => cases hlength
      | @next _ b₂ l₂ hlink₂ _ h₂ =>
        have hs' : ∀ a ∈ b₁ :: l₁ ++ b₂ :: l₂, S.encode a ∈ s := by
          intro a ha
          apply hs
          simp only [List.cons_append, List.mem_cons, List.mem_append] at ha ⊢
          tauto
        have hdigest : S.digest b₁ = S.digest b₂ := by rw [← hlink₁, ← hlink₂, hprev]
        have hencode : S.encode b₁ = S.encode b₂ := by
          apply hinj (hs' b₁ (by simp)) (hs' b₂ (by simp))
          rw [← h₁.digest_head, ← h₂.digest_head, hdigest]
        rw [List.map_cons, heq, ih h₁ h₂ hs' hdigest (Nat.succ.inj hlength) hencode]
        rfl

end HashChain
