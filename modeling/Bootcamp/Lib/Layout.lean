import Mathlib.Data.Finset.Card
import Mathlib.Data.Finset.Range
import Mathlib.Tactic.Common

/-! Files laid out piece by piece, and lists cut into pieces behind marked
positions. -/
namespace Layout

variable {α : Type}

/-- `bs` stands in the file at `pos`. -/
def At (file : List α) (pos : Nat) (bs : List α) : Prop := bs <+: file.drop pos

theorem At.drop {file bs : List α} {pos : Nat} (h : At file pos bs) :
    ∃ rest, file.drop pos = bs ++ rest := by
  obtain ⟨rest, hrest⟩ := h
  exact ⟨rest, hrest.symm⟩

theorem at_append (pre bs post : List α) : At (pre ++ (bs ++ post)) pre.length bs :=
  ⟨post, by rw [List.drop_left]⟩

/-! ## Cutting a list -/

/-- `gs` cuts a list whose positions start at `i` behind every marked position,
and nothing is left over. -/
inductive Split (mark : Nat → Prop) : Nat → List α → List (List α) → Prop
  | nil {i : Nat} : Split mark i [] []
  | close {i : Nat} {b : α} {bs : List α} {gs : List (List α)} : mark i →
      Split mark (i + 1) bs gs → Split mark i (b :: bs) ([b] :: gs)
  | extend {i : Nat} {b : α} {bs g : List α} {gs : List (List α)} : ¬ mark i →
      Split mark (i + 1) bs (g :: gs) → Split mark i (b :: bs) ((b :: g) :: gs)

namespace Split

variable {mark : Nat → Prop} {i : Nat} {bs : List α} {gs : List (List α)}

theorem flatten (h : Split mark i bs gs) : gs.flatten = bs := by
  induction h with
  | nil => rfl
  | close _ _ ih => rw [List.flatten_cons, ih]; rfl
  | extend _ _ ih =>
    rw [List.flatten_cons] at ih ⊢
    rw [List.cons_append, ih]

theorem ne_nil (h : Split mark i bs gs) : ∀ g ∈ gs, g ≠ [] := by
  induction h with
  | nil => simp
  | close _ _ ih => exact List.forall_mem_cons.mpr ⟨by simp, ih⟩
  | extend _ _ ih => exact List.forall_mem_cons.mpr ⟨by simp, (List.forall_mem_cons.mp ih).2⟩

/-- A list whose last position is marked can be cut. -/
theorem exists_split (mark : Nat → Prop) [DecidablePred mark] (i : Nat) (bs : List α)
    (hlast : bs ≠ [] → mark (i + bs.length - 1)) : ∃ gs, Split mark i bs gs := by
  induction bs generalizing i with
  | nil => exact ⟨[], .nil⟩
  | cons b bs ih =>
    have hlast := hlast (by simp)
    rw [List.length_cons, show i + (bs.length + 1) - 1 = i + bs.length by omega] at hlast
    obtain ⟨gs, hgs⟩ := ih (i + 1) fun _ => by
      rwa [show i + 1 + bs.length - 1 = i + bs.length by omega]
    by_cases hi : mark i
    · exact ⟨_, .close hi hgs⟩
    · cases hgs with
      | nil => exact absurd (by simpa using hlast) hi
      | close hj hgs => exact ⟨_, .extend hi (.close hj hgs)⟩
      | extend hj hgs => exact ⟨_, .extend hi (.extend hj hgs)⟩

/-- There are as many pieces as marked positions. -/
theorem length_eq [DecidablePred mark] (h : Split mark i bs gs) :
    gs.length = ((Finset.range bs.length).filter fun j => mark (i + j)).card := by
  have hshift (i n : Nat) : ((Finset.range (n + 1)).filter fun j => mark (i + j)).card =
      (if mark i then 1 else 0) + ((Finset.range n).filter fun j => mark (i + 1 + j)).card := by
    rw [Finset.range_add_one', Finset.filter_insert]
    have himage : ((Finset.range n).map ⟨fun j => j + 1, Nat.succ_injective⟩).filter
        (fun j => mark (i + j)) =
          ((Finset.range n).filter fun j => mark (i + 1 + j)).map
            ⟨fun j => j + 1, Nat.succ_injective⟩ := by
      rw [Finset.filter_map]
      congr 1
      apply Finset.filter_congr
      intro j _
      simp only [Function.comp_apply, Function.Embedding.coeFn_mk]
      rw [show i + (j + 1) = i + 1 + j by omega]
    rw [himage]
    split
    · rename_i hi
      rw [Nat.add_zero] at hi
      rw [Finset.card_insert_of_notMem (by simp), Finset.card_map, Nat.add_comm, if_pos hi]
    · rename_i hi
      rw [Nat.add_zero] at hi
      rw [Finset.card_map, if_neg hi, Nat.zero_add]
  induction h with
  | nil => rfl
  | close hi _ ih => rw [List.length_cons, List.length_cons, hshift, if_pos hi, ih, Nat.add_comm]
  | extend hi _ ih => rw [List.length_cons, List.length_cons, hshift, if_neg hi, ← ih]; simp

end Split

/-- Pieces as many as elements, none of them empty, hold one element each. -/
theorem singletons_of_length_eq {gs : List (List α)} (hne : ∀ g ∈ gs, g ≠ [])
    (hlen : gs.length = gs.flatten.length) : gs = gs.flatten.map fun b => [b] := by
  have hle (gs : List (List α)) (hne : ∀ g ∈ gs, g ≠ []) : gs.length ≤ gs.flatten.length := by
    induction gs with
    | nil => simp
    | cons g gs ih =>
      obtain ⟨hg, hgs⟩ := List.forall_mem_cons.mp hne
      have := ih hgs
      have := List.length_pos_iff.mpr hg
      simp only [List.length_cons, List.flatten_cons, List.length_append]
      omega
  induction gs with
  | nil => rfl
  | cons g gs ih =>
    obtain ⟨hg, hgs⟩ := List.forall_mem_cons.mp hne
    have hle := hle gs hgs
    have hpos := List.length_pos_iff.mpr hg
    simp only [List.length_cons, List.flatten_cons, List.length_append] at hlen
    obtain ⟨b, rfl⟩ := List.length_eq_one_iff.mp (show g.length = 1 by omega)
    rw [List.flatten_cons, List.map_append, ← ih hgs (by rw [List.length_singleton] at hlen; omega)]
    rfl

end Layout
