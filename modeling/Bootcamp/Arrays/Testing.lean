import Bootcamp.Arrays.Matrix
import Bootcamp.Arrays.MergeSort

/-! The checks that the challenge's programs make of what they computed. They return from inside
their loops at the first entry that is wrong. -/
namespace Bootcamp.Testing

open Checked Except

/-- Loops that return 0 in a turn that `check` fails, and 1 behind the last one. -/
def forAll {ι : Type} (check : ι → Except Fault Bool) : List ι → Except Fault Bool
  | [] => .ok true
  | i :: is => do
    if ← check i then forAll check is else return false

/-- Where every turn comes back, the loops find out whether every turn passes. -/
theorem forAll_ok {ι : Type} {check : ι → Except Fault Bool} {P : ι → Prop} {is : List ι}
    (h : ∀ i ∈ is, ∃ r, check i = .ok r ∧ (r = true ↔ P i)) :
    ∃ r, forAll check is = .ok r ∧ (r = true ↔ ∀ i ∈ is, P i) := by
  induction is with
  | nil => exact ⟨true, rfl, by simp⟩
  | cons i is ih =>
    obtain ⟨hi, his⟩ := List.forall_mem_cons.mp h
    obtain ⟨r, hr, hP⟩ := hi
    rw [forAll, hr, ok_bind]
    cases r with
    | false => exact ⟨false, rfl, by simpa using fun hi => absurd (hP.mpr hi) Bool.false_ne_true⟩
    | true =>
      obtain ⟨r, hrest, hall⟩ := ih his
      exact ⟨r, hrest, by rw [hall, List.forall_mem_cons, and_iff_right (hP.mp rfl)]⟩

/-! ## Sorting -/

section Sorting

variable {α : Type} (lt : α → α → Bool)

def testSorting (arr : List α) (size : Int) : Except Fault Bool :=
  forAll (fun (i : Nat) => do
    let x ← Checked.load arr i
    let y ← Checked.load arr (← sub i 1)
    return !lt x y) (List.range' 1 (size.toNat - 1))

variable {arr : List α} {size : Nat}

/-- It compares neighbours. -/
theorem testSorting_ok (hsize : size ≤ arr.length) (hfit : size ≤ 2147483647) :
    ∃ r, testSorting lt arr size = .ok r ∧
      (r = true ↔ (arr.take size).IsChain fun y x => lt x y = false) := by
  have hturn (i : Nat) (hi : i ∈ List.range' 1 ((size : Int).toNat - 1)) : ∃ r, (do
      let x ← Checked.load arr i
      let y ← Checked.load arr (← sub i 1)
      return !lt x y) = Except.ok (ε := Fault) r ∧ (r = true ↔
        ∀ x y, arr[i]? = some x → arr[i - 1]? = some y → lt x y = false) := by
    rw [List.mem_range'_1] at hi
    have hx : arr[i]? = some arr[i] := List.getElem?_eq_getElem (by omega)
    have hy : arr[i - 1]? = some arr[i - 1] := List.getElem?_eq_getElem (by omega)
    have hsub : sub i 1 = .ok ((i - 1 : Nat) : Int) := by
      rw [sub_ok (by unfold InRange; omega)]
      congr 1
      omega
    refine ⟨!lt arr[i] arr[i - 1], ?_, by simp [hx, hy]⟩
    rw [load_ok hx, ok_bind, hsub, ok_bind, load_ok hy, ok_bind]
    rfl
  obtain ⟨r, hr, hall⟩ := forAll_ok hturn
  refine ⟨r, hr, hall.trans ?_⟩
  rw [List.isChain_iff_getElem]
  constructor
  · intro h i hi
    rw [List.length_take] at hi
    rw [List.getElem_take, List.getElem_take]
    exact h (i + 1) (List.mem_range'_1.mpr (by omega)) _ _
      (List.getElem?_eq_getElem (by omega)) (List.getElem?_eq_getElem (by omega))
  · intro h i hi x y hx hy
    rw [List.mem_range'_1] at hi
    obtain ⟨j, rfl⟩ : ∃ j, i = j + 1 := ⟨i - 1, by omega⟩
    have hj := h j (by rw [List.length_take]; omega)
    rw [List.getElem_take, List.getElem_take] at hj
    obtain ⟨_, rfl⟩ := List.getElem?_eq_some_iff.mp hx
    obtain ⟨_, rfl⟩ := List.getElem?_eq_some_iff.mp hy
    exact hj

variable {le : α → α → Bool}

theorem chain_iff_ordered (h : IsRanking le) (hlt : ∀ x y, lt x y = !le y x) {arr : List α} :
    (arr.IsChain fun y x => lt x y = false) ↔ arr.Pairwise fun x y => le x y := by
  have htrans : Trans (fun x y => le x y = true) (fun x y => le x y = true)
      (fun x y => le x y = true) := ⟨fun hxy hyz => h.trans _ _ _ hxy hyz⟩
  rw [← List.isChain_iff_pairwise]
  simp only [hlt, Bool.not_eq_false']

/-- Where `<` and `<=` rank the elements, the check of the front of an array passes exactly when it
is in order, and what `sort2D` leaves passes. -/
theorem test_sorting_exact (malloc : Nat → Bool) (h : IsRanking le)
    (hlt : ∀ x y, lt x y = !le y x) (arr : List α) :
    (∀ size : Nat, size ≤ arr.length → size ≤ 2147483647 →
      ∃ r, testSorting lt arr size = .ok r ∧
        (r = true ↔ (arr.take size).Pairwise fun x y => le x y)) ∧
    ∀ m n tile sorted, (arr.length : Int) = m * n → m * n < 2147483648 → 1 ≤ tile →
      MergeSort.sort2D malloc le arr m n tile = .ok sorted →
        testSorting lt sorted (m * n) = .ok true := by
  have hcheck (arr : List α) (size : Nat) (hsize : size ≤ arr.length) (hfit : size ≤ 2147483647) :
      ∃ r, testSorting lt arr size = .ok r ∧
        (r = true ↔ (arr.take size).Pairwise fun x y => le x y) := by
    obtain ⟨r, hr, hall⟩ := testSorting_ok lt hsize hfit
    exact ⟨r, hr, hall.trans (chain_iff_ordered lt h hlt)⟩
  refine ⟨hcheck arr, fun m n tile sorted hlen hfit htile hsort => ?_⟩
  have hdelivers := MergeSort.sort2D_delivers malloc h arr hlen (by omega) htile
  rw [hsort] at hdelivers
  cases hdelivers with
  | ok hsorted =>
    have hlength := hsorted.length_eq
    obtain ⟨r, hr, hall⟩ := hcheck sorted sorted.length (Nat.le_refl _) (by omega)
    rw [List.take_length] at hall
    rw [show m * n = (sorted.length : Int) by omega, hr, hall.mpr hsorted.ordered]

theorem test_sorting_exact_two :
    (∀ size : Nat, size ≤ 3 → size ≤ 2147483647 →
      ∃ r, testSorting (fun x y : Nat => x < y) [2, 1, 3] size = .ok r ∧
        (r = true ↔ ([2, 1, 3].take size).Pairwise fun x y => decide (x ≤ y) = true)) ∧
    ∀ m n tile sorted, ((3 : Nat) : Int) = m * n → m * n < 2147483648 → 1 ≤ tile →
      MergeSort.sort2D (fun _ => true) (fun x y : Nat => x ≤ y) [2, 1, 3] m n tile = .ok sorted →
        testSorting (fun x y : Nat => x < y) sorted (m * n) = .ok true := by
  have hle : IsRanking fun x y : Nat => decide (x ≤ y) := by
    constructor
    · intro x y z hxy hyz
      simp only [decide_eq_true_eq] at *
      exact hxy.trans hyz
    · intro x y
      simpa using Nat.le_total x y
  have hlt (x y : Nat) : decide (x < y) = !decide (y ≤ x) := by
    rw [← decide_not, decide_eq_decide]
    exact Nat.not_le.symm
  exact test_sorting_exact _ (fun _ => true) hle hlt [2, 1, 3]

end Sorting

/-! ## Multiplication -/

section Multiplication

open Bootcamp.Matrix

variable {α : Type} [Zero α] [Add α] [Mul α] (ne : α → α → Bool)

/-- The entry in row `i` and column `j` computed once more, and compared by `!=`. -/
def testEntry (a b c : List α) (size : Int) (i j : Nat) : Except Fault Bool := do
  let val ← (List.range size.toNat).foldlM (fun val (k : Nat) => do
    return val + (← Checked.load a (← flat size i k)) * (← Checked.load b (← flat size k j))) 0
  return !ne val (← Checked.load c (← flat size i j))

def testMatMultipy (a b c : List α) (size : Int) : Except Fault Bool :=
  forAll (fun i => forAll (testEntry ne a b c size i) (List.range size.toNat))
    (List.range size.toNat)

variable {size : Nat} {a b c : List α}

theorem testEntry_ok (ha : a.length = size * size) (hb : b.length = size * size)
    (hfit : IndicesFit size size) (hc : c.length = size * size) {i j : Nat} (hi : i < size)
    (hj : j < size) : ∃ r, testEntry ne a b c size i j = .ok r ∧
      (r = true ↔ ne (accumulated size a b i j size) (entry size c i j) = false) := by
  have hloop : Delivers (fun _ : Fault => False)
      ((List.range size).foldlM (fun val (k : Nat) => do
        return val + (← Checked.load a (← flat size i k)) * (← Checked.load b (← flat size k j))) 0)
      (· = accumulated size a b i j size) := by
    apply Delivers.range (I := fun q val => val = accumulated size a b i j q) size rfl
    intro k val hk hval
    rw [flat_ok hfit hi hk, ok_bind, (holds_entry ha).load_ok hi hk rfl, ok_bind,
      flat_ok hfit hk hj, ok_bind, (holds_entry hb).load_ok hk hj rfl, ok_bind, hval]
    refine .ok ?_
    rw [accumulated, accumulated, List.range_succ, List.foldl_append]
    rfl
  obtain ⟨val, hrun, rfl⟩ := hloop.result
  refine ⟨!ne (accumulated size a b i j size) (entry size c i j), ?_, by rw [Bool.not_eq_true']⟩
  rw [testEntry, Int.toNat_natCast, hrun, ok_bind, flat_ok hfit hi hj, ok_bind,
    (holds_entry hc).load_ok hi hj rfl]
  rfl

/-- It compares every entry. -/
theorem testMatMultipy_ok (ha : a.length = size * size) (hb : b.length = size * size)
    (hfit : IndicesFit size size) (hc : c.length = size * size) :
    ∃ r, testMatMultipy ne a b c size = .ok r ∧ (r = true ↔ ∀ i j, i < size → j < size →
      ne (accumulated size a b i j size) (entry size c i j) = false) := by
  have hrow (i : Nat) (hi : i ∈ List.range size) :
      ∃ r, forAll (testEntry ne a b c size i) (List.range size) = .ok r ∧
        (r = true ↔ ∀ j ∈ List.range size,
          ne (accumulated size a b i j size) (entry size c i j) = false) :=
    forAll_ok fun j hj =>
      testEntry_ok ne ha hb hfit hc (List.mem_range.mp hi) (List.mem_range.mp hj)
  obtain ⟨r, hr, hall⟩ := forAll_ok hrow
  refine ⟨r, hr, hall.trans ?_⟩
  simp only [List.mem_range]
  exact ⟨fun h i j hi hj => h i hi j hj, fun h i hi j hj => h i j hi hj⟩

/-- The plain loops leave the products that the check computes. -/
theorem matMultiply_entries (ha : a.length = size * size) (hb : b.length = size * size)
    (hfit : IndicesFit size size) (hc : c.length = size * size) :
    ∃ product, matMultiply a b c size = .ok product ∧ product.length = size * size ∧
      ∀ i j, i < size → j < size → entry size product i j = accumulated size a b i j size := by
  obtain ⟨product, hrun, hproduct⟩ := (matMultiply_delivers ha hb hfit (holds_entry hc)).result
  refine ⟨product, hrun, hproduct.length_eq, fun i j hi hj => ?_⟩
  rw [hproduct.entry hi hj, Update.run_apply, aimed_plain hi hj, foldl_terms]

/-- It compares every entry with the product's. -/
theorem testMatMultipy_compares (ha : a.length = size * size) (hb : b.length = size * size)
    (hfit : IndicesFit size size) {product : List α}
    (hproduct : ∀ i j, i < size → j < size →
      entry size product i j = accumulated size a b i j size) (hc : c.length = size * size) :
    ∃ r, testMatMultipy ne a b c size = .ok r ∧ (r = true ↔ ∀ i j, i < size → j < size →
      ne (entry size product i j) (entry size c i j) = false) := by
  obtain ⟨r, hr, hall⟩ := testMatMultipy_ok ne ha hb hfit hc
  refine ⟨r, hr, hall.trans (forall₄_congr fun i j hi hj => ?_)⟩
  rw [hproduct i j hi hj]

variable {tile : Nat}

/-- What the tiled loops leave in each entry. -/
theorem matMultiplyOpt_entries (htile : 1 ≤ tile) (ha : a.length = size * size)
    (hb : b.length = size * size) (hc : c.length = size * size)
    (hfit : IndicesFit size (size / tile * tile)) :
    ∃ c', matMultiplyOpt a b c size tile = .ok c' ∧ c'.length = size * size ∧
      ∀ i j, i < size → j < size → entry size c' i j =
        if i < size / tile * tile ∧ j < size / tile * tile then
          accumulated size a b i j (size / tile * tile)
        else entry size c i j := by
  obtain ⟨c', hrun, hc'⟩ := (matMultiplyOpt_delivers ha hb htile hfit (holds_entry hc)).result
  refine ⟨c', hrun, hc'.length_eq, fun i j hi hj => ?_⟩
  rw [hc'.entry hi hj, Update.run_apply]
  split_ifs with hin
  · have hti := Nat.div_lt_of_lt_mul (Nat.mul_comm _ tile ▸ hin.1)
    have htj := Nat.div_lt_of_lt_mul (Nat.mul_comm _ tile ▸ hin.2)
    have haimed : Update.aimed (i / tile * tile + i % tile, j / tile * tile + j % tile)
        (tiledUpdates size a b (size / tile) tile) = _ :=
      aimed_tiled (Nat.mod_lt i htile) (Nat.mod_lt j htile) hti htj
    rw [Nat.div_add_mod', Nat.div_add_mod'] at haimed
    rw [haimed, foldl_terms]
  · rw [aimed_outside hin]
    rfl

/-- The check compares what it is given with what the plain loops leave, entry by entry; where `!=`
is inequality, it passes on that matrix alone. On what the tiled loops leave it compares the front
of each product within the whole tiles and what was there beyond; where the tile divides the size,
that is the product with itself. -/
theorem test_mat_multipy_exact (ha : a.length = size * size) (hb : b.length = size * size)
    (hc : c.length = size * size) (hfit : IndicesFit size size) :
    ∃ product, matMultiply a b c size = .ok product ∧
      (∀ c' : List α, c'.length = size * size → ∃ r, testMatMultipy ne a b c' size = .ok r ∧
        (r = true ↔ ∀ i j, i < size → j < size →
          ne (entry size product i j) (entry size c' i j) = false) ∧
        ((∀ x y, ne x y = false ↔ x = y) → (r = true ↔ c' = product))) ∧
      ∀ tile : Nat, 1 ≤ tile → ∃ c' r, matMultiplyOpt a b c size tile = .ok c' ∧
        testMatMultipy ne a b c' size = .ok r ∧
        (r = true ↔ ∀ i j, i < size → j < size → ne (entry size product i j)
          (if i < size / tile * tile ∧ j < size / tile * tile then
            accumulated size a b i j (size / tile * tile)
          else entry size c i j) = false) ∧
        (tile ∣ size → (r = true ↔ ∀ i j, i < size → j < size →
          ne (entry size product i j) (entry size product i j) = false)) := by
  obtain ⟨product, hplain, hlength, hproduct⟩ := matMultiply_entries ha hb hfit hc
  refine ⟨product, hplain, fun c' hc' => ?_, fun tile htile => ?_⟩
  · obtain ⟨r, hr, hall⟩ := testMatMultipy_compares ne ha hb hfit hproduct hc'
    refine ⟨r, hr, hall, fun hne => ?_⟩
    simp only [hall, hne]
    constructor
    · intro h
      apply (holds_entry hc').ext (holds_entry hlength)
      exact fun i j hi hj => (h i j hi hj).symm
    · rintro rfl i j - -
      rfl
  · have hq : size / tile * tile ≤ size := Nat.div_mul_le_self _ _
    have htiles : IndicesFit size (size / tile * tile) := by
      have := Nat.mul_le_mul_right size (show size / tile * tile - 1 ≤ size - 1 by omega)
      unfold IndicesFit at hfit ⊢
      omega
    obtain ⟨c', hrun, hlength', hentries⟩ := matMultiplyOpt_entries htile ha hb hc htiles
    obtain ⟨r, hr, hall⟩ := testMatMultipy_compares ne ha hb hfit hproduct hlength'
    refine ⟨c', r, hrun, hr, ?_, fun hdvd => ?_⟩
    · refine hall.trans (forall₄_congr fun i j hi hj => ?_)
      rw [hentries i j hi hj]
    · refine hall.trans (forall₄_congr fun i j hi hj => ?_)
      rw [hentries i j hi hj, Nat.div_mul_cancel hdvd, if_pos ⟨hi, hj⟩, hproduct i j hi hj]

theorem test_mat_multipy_exact_three : ∃ product,
    matMultiply [1, 2, 3, 4, 5, 6, 7, 8, 9] [1, 0, 2, 0, 1, 0, 3, 0, 1]
      [9, 9, 9, 9, 9, 9, 9, 9, 9] (3 : Nat) = .ok product ∧
    (∀ c' : List Nat, c'.length = 3 * 3 →
      ∃ r, testMatMultipy bne [1, 2, 3, 4, 5, 6, 7, 8, 9] [1, 0, 2, 0, 1, 0, 3, 0, 1] c'
          (3 : Nat) = .ok r ∧
        (r = true ↔ ∀ i j, i < 3 → j < 3 → (entry 3 product i j != entry 3 c' i j) = false) ∧
        ((∀ x y : Nat, (x != y) = false ↔ x = y) → (r = true ↔ c' = product))) ∧
    ∀ tile : Nat, 1 ≤ tile → ∃ c' r,
      matMultiplyOpt [1, 2, 3, 4, 5, 6, 7, 8, 9] [1, 0, 2, 0, 1, 0, 3, 0, 1]
        [9, 9, 9, 9, 9, 9, 9, 9, 9] (3 : Nat) tile = .ok c' ∧
      testMatMultipy bne [1, 2, 3, 4, 5, 6, 7, 8, 9] [1, 0, 2, 0, 1, 0, 3, 0, 1] c' (3 : Nat) =
        .ok r ∧
      (r = true ↔ ∀ i j, i < 3 → j < 3 → (entry 3 product i j !=
        (if i < 3 / tile * tile ∧ j < 3 / tile * tile then
          accumulated 3 [1, 2, 3, 4, 5, 6, 7, 8, 9] [1, 0, 2, 0, 1, 0, 3, 0, 1] i j
            (3 / tile * tile)
        else entry 3 [9, 9, 9, 9, 9, 9, 9, 9, 9] i j)) = false) ∧
      (tile ∣ 3 → (r = true ↔ ∀ i j, i < 3 → j < 3 →
        (entry 3 product i j != entry 3 product i j) = false)) :=
  test_mat_multipy_exact bne rfl rfl rfl (by unfold IndicesFit; decide)

end Multiplication

end Bootcamp.Testing
