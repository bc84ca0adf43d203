import Bootcamp.Lib.Checked
import Bootcamp.Lib.Updates
import Mathlib.Tactic.Ring
import Mathlib.Tactic.Linarith

/-! Multiplication of square matrices stored row by row, plain and tiled. -/
namespace Bootcamp.Matrix

open Checked Except

variable {α : Type} [Zero α] [Add α] [Mul α]

/-- `c[x] = c[x] + a[y] * b[z]`. -/
def accumulate (a b c : List α) (x y z : Int) : Except Fault (List α) := do
  store c x ((← Checked.load c x) + (← Checked.load a y) * (← Checked.load b z))

/-- `i*size + j`. -/
def flat (size i j : Int) : Except Fault Int := do
  add (← mul i size) j

def matMultiply (a b c : List α) (size : Int) : Except Fault (List α) :=
  (List.range size.toNat).foldlM (fun c (i : Nat) =>
    (List.range size.toNat).foldlM (fun c (j : Nat) => do
      let c ← store c (← flat size i j) 0
      (List.range size.toNat).foldlM (fun c (k : Nat) => do
        accumulate a b c (← flat size i j) (← flat size i k) (← flat size k j)) c) c) c

/-- `(ti*tile+i)*size + (tj*tile+j)`, which is the macro `iJ`. -/
def iJ (size tile ti i tj j : Int) : Except Fault Int := do
  let row ← add (← mul ti tile) i
  add (← mul row size) (← add (← mul tj tile) j)

def iK (size tile ti i tk k : Int) : Except Fault Int := iJ size tile ti i tk k

def kJ (size tile tk k tj j : Int) : Except Fault Int := iJ size tile tk k tj j

/-- The tile of `c` set to zero. -/
def clearTile (c : List α) (size tile : Int) (ti tj : Nat) : Except Fault (List α) :=
  (List.range tile.toNat).foldlM (fun c (i : Nat) =>
    (List.range tile.toNat).foldlM (fun c (j : Nat) => do
      store c (← iJ size tile ti i tj j) 0) c) c

/-- The product of a tile of `a` and one of `b` added to it. -/
def multiplyTile (a b c : List α) (size tile : Int) (ti tj tk : Nat) : Except Fault (List α) :=
  (List.range tile.toNat).foldlM (fun c (i : Nat) =>
    (List.range tile.toNat).foldlM (fun c (j : Nat) =>
      (List.range tile.toNat).foldlM (fun c (k : Nat) => do
        accumulate a b c (← iJ size tile ti i tj j) (← iK size tile ti i tk k)
          (← kJ size tile tk k tj j)) c) c) c

def matMultiplyOpt (a b c : List α) (size tile : Int) : Except Fault (List α) := do
  let nTiles ← div size tile
  (List.range nTiles.toNat).foldlM (fun c (ti : Nat) =>
    (List.range nTiles.toNat).foldlM (fun c (tj : Nat) => do
      let c ← clearTile c size tile ti tj
      (List.range nTiles.toNat).foldlM (fun c (tk : Nat) =>
        multiplyTile a b c size tile ti tj tk) c) c) c

/-- The entry in row `i` and column `j`. -/
def entry (size : Nat) (m : List α) (i j : Nat) : α := m.getD (i * size + j) 0

/-- The product of row `i` and column `j`, its first `q` terms added from the left. -/
def accumulated (size : Nat) (a b : List α) (i j q : Nat) : α :=
  (List.range q).foldl (fun acc k => acc + entry size a i k * entry size b k j) 0

/-- `m` holds the entries `f`. -/
structure Holds (size : Nat) (m : List α) (f : Nat × Nat → α) : Prop where
  length_eq : m.length = size * size
  entry_eq : ∀ i j, i < size → j < size → m[i * size + j]? = some (f (i, j))

/-- Row and column are read off the index. -/
theorem index_inj {size i j i' j' : Nat} (hj : j < size) (hj' : j' < size)
    (h : i * size + j = i' * size + j') : i = i' ∧ j = j' := by
  have hpos : 0 < size := by omega
  have hdiv := congrArg (· / size) h
  have hmod := congrArg (· % size) h
  simp only [Nat.mul_comm _ size, Nat.mul_add_div hpos, Nat.mul_add_mod, Nat.div_eq_of_lt hj,
    Nat.div_eq_of_lt hj', Nat.mod_eq_of_lt hj, Nat.mod_eq_of_lt hj'] at hdiv hmod
  omega

theorem index_lt {size i j : Nat} (hi : i < size) (hj : j < size) :
    i * size + j < size * size := by
  have := Nat.mul_le_mul_right size (show i + 1 ≤ size from hi)
  rw [Nat.succ_mul] at this
  omega

omit [Add α] [Mul α] in
theorem holds_entry {size : Nat} {m : List α} (h : m.length = size * size) :
    Holds size m (fun c => entry size m c.1 c.2) where
  length_eq := h
  entry_eq i j hi hj := by
    have := index_lt hi hj
    simp [entry, List.getElem?_eq_getElem (by omega : i * size + j < m.length)]

omit [Zero α] [Add α] [Mul α] in
theorem Holds.store_ok {size : Nat} {m : List α} {f : Nat × Nat → α} (h : Holds size m f)
    {i j : Nat} (hi : i < size) (hj : j < size) (x : α) {index : Int}
    (hindex : index = (i * size + j : Nat)) :
    ∃ m', store m index x = .ok m' ∧ Holds size m' (Function.update f (i, j) x) := by
  have hlt := index_lt hi hj
  refine ⟨m.set (i * size + j) x, ?_, ?_, ?_⟩
  · rw [hindex, Checked.store_ok (by rw [h.length_eq]; exact hlt)]
  · simp [h.length_eq]
  · intro i' j' hi' hj'
    by_cases hsame : i * size + j = i' * size + j'
    · obtain ⟨rfl, rfl⟩ := index_inj hj hj' hsame
      simp [h.length_eq, hlt]
    · have hne : (i', j') ≠ (i, j) := by
        rintro heq
        cases heq
        exact hsame rfl
      rw [List.getElem?_set_ne hsame, Function.update_of_ne hne]
      exact h.entry_eq i' j' hi' hj'

omit [Zero α] [Add α] [Mul α] in
theorem Holds.load_ok {size : Nat} {m : List α} {f : Nat × Nat → α} (h : Holds size m f)
    {i j : Nat} (hi : i < size) (hj : j < size) {index : Int}
    (hindex : index = (i * size + j : Nat)) : Checked.load m index = .ok (f (i, j)) := by
  rw [hindex, Checked.load_ok (h.entry_eq i j hi hj)]

section Indices

/-- No index of the first `q` rows and columns leaves the type `int`. -/
def IndicesFit (size q : Nat) : Prop := (q - 1) * size + (q - 1) < 2147483648

variable {size q : Nat} (hfit : IndicesFit size q) (hq : q ≤ size)

include hfit

theorem index_fits {i j : Nat} (hi : i < q) (hj : j < q) : i * size + j < 2147483648 := by
  have := Nat.mul_le_mul_right size (show i ≤ q - 1 by omega)
  unfold IndicesFit at hfit
  omega

theorem flat_ok {i j : Nat} (hi : i < q) (hj : j < q) :
    flat size i j = .ok ((i * size + j : Nat) : Int) := by
  have hindex := index_fits hfit hi hj
  have hmul : (i : Int) * size = (i * size : Nat) := by simp
  rw [flat, mul_ok (by unfold InRange; omega), hmul, ok_bind, add_ok (by unfold InRange; omega)]
  push_cast
  rfl

include hq

theorem iJ_ok {tile ti i tj j : Nat} (hi : ti * tile + i < q) (hj : tj * tile + j < q) :
    iJ size tile ti i tj j =
      .ok (((ti * tile + i) * size + (tj * tile + j) : Nat) : Int) := by
  have hindex := index_fits hfit hi hj
  have hrow : ti * tile + i ≤ (ti * tile + i) * size := Nat.le_mul_of_pos_right _ (by omega)
  have hti : (ti : Int) * tile = (ti * tile : Nat) := by simp
  have htj : (tj : Int) * tile = (tj * tile : Nat) := by simp
  have hmul : ((ti * tile : Nat) + (i : Int)) * size = ((ti * tile + i) * size : Nat) := by
    push_cast
    ring
  rw [iJ, mul_ok (by unfold InRange; omega), hti, ok_bind, add_ok (by unfold InRange; omega),
    ok_bind, mul_ok (by rw [hmul]; unfold InRange; omega), hmul, ok_bind,
    mul_ok (by unfold InRange; omega), htj, ok_bind, add_ok (by unfold InRange; omega), ok_bind,
    add_ok (by unfold InRange; omega)]
  push_cast
  rfl

end Indices

section Updates

variable (size : Nat) (a b : List α)

/-- An entry of the product set to zero. -/
def clear (i j : Nat) : Update (Nat × Nat) α := ⟨(i, j), fun _ => 0⟩

/-- The `k`-th term added to it. -/
def term (i j k : Nat) : Update (Nat × Nat) α :=
  ⟨(i, j), fun x => x + entry size a i k * entry size b k j⟩

/-- What the plain loops do to the entries, in their order. -/
def plainUpdates : List (Update (Nat × Nat) α) :=
  (List.range size).flatMap fun i => (List.range size).flatMap fun j =>
    clear i j :: (List.range size).flatMap fun k => [term size a b i j k]

def clearTileUpdates (tile ti tj : Nat) : List (Update (Nat × Nat) α) :=
  (List.range tile).flatMap fun i => (List.range tile).flatMap fun j =>
    [clear (ti * tile + i) (tj * tile + j)]

def multiplyTileUpdates (tile ti tj tk : Nat) : List (Update (Nat × Nat) α) :=
  (List.range tile).flatMap fun i => (List.range tile).flatMap fun j =>
    (List.range tile).flatMap fun k =>
      [term size a b (ti * tile + i) (tj * tile + j) (tk * tile + k)]

/-- What the tiled loops do to them. -/
def tiledUpdates (n tile : Nat) : List (Update (Nat × Nat) α) :=
  (List.range n).flatMap fun ti => (List.range n).flatMap fun tj =>
    clearTileUpdates tile ti tj ++
      (List.range n).flatMap fun tk => multiplyTileUpdates size a b tile ti tj tk

variable {size a b}

theorem accumulate_delivers {c : List α} {f : Nat × Nat → α} (ha : a.length = size * size)
    (hb : b.length = size * size) (h : Holds size c f) {i j k : Nat} (hi : i < size)
    (hj : j < size) (hk : k < size) {x y z : Int} (hx : x = (i * size + j : Nat))
    (hy : y = (i * size + k : Nat)) (hz : z = (k * size + j : Nat)) :
    Delivers (fun _ => False) (accumulate a b c x y z)
      (Holds size · (Update.run [term size a b i j k] f)) := by
  rw [accumulate, h.load_ok hi hj hx, ok_bind, (holds_entry ha).load_ok hi hk hy, ok_bind,
    (holds_entry hb).load_ok hk hj hz, ok_bind]
  obtain ⟨c', hstore, hc'⟩ := h.store_ok hi hj _ hx
  rw [hstore]
  exact .ok hc'

omit [Add α] [Mul α] in
theorem clear_delivers {c : List α} {f : Nat × Nat → α} (h : Holds size c f) {i j : Nat}
    (hi : i < size) (hj : j < size) {x : Int} (hx : x = (i * size + j : Nat)) :
    Delivers (fun _ => False) (store c x 0) (Holds size · (Update.run [clear i j] f)) := by
  obtain ⟨c', hstore, hc'⟩ := h.store_ok hi hj 0 hx
  rw [hstore]
  exact .ok hc'

theorem matMultiply_delivers (ha : a.length = size * size) (hb : b.length = size * size)
    (hfit : IndicesFit size size) {c : List α} {f : Nat × Nat → α} (h : Holds size c f) :
    Delivers (fun _ => False) (matMultiply a b c size)
      (Holds size · (Update.run (plainUpdates size a b) f)) := by
  apply Update.range_delivers _ h
  intro i c f hi h
  apply Update.range_delivers _ h
  intro j c f hj h
  rw [flat_ok hfit hi hj, ok_bind]
  apply (clear_delivers h hi hj rfl).bind
  intro c h
  apply Update.range_delivers _ h
  intro k c f hk h
  rw [ok_bind, flat_ok hfit hi hk, ok_bind, flat_ok hfit hk hj, ok_bind]
  exact accumulate_delivers ha hb h hi hj hk rfl rfl rfl

theorem tile_lt (tile : Nat) {n ti i : Nat} (hti : ti < n) (hi : i < tile) :
    ti * tile + i < n * tile := by
  have := Nat.mul_le_mul_right tile (show ti + 1 ≤ n from hti)
  rw [Nat.succ_mul] at this
  omega

section Tiled

variable {tile n : Nat} (hq : n * tile ≤ size) (hfit : IndicesFit size (n * tile))

include hq hfit

omit [Add α] [Mul α] in
theorem clearTile_delivers {c : List α} {f : Nat × Nat → α} (h : Holds size c f) {ti tj : Nat}
    (hti : ti < n) (htj : tj < n) :
    Delivers (fun _ => False) (clearTile c size tile ti tj)
      (Holds size · (Update.run (clearTileUpdates tile ti tj) f)) := by
  apply Update.range_delivers _ h
  intro i c f hi h
  apply Update.range_delivers _ h
  intro j c f hj h
  have hrow := tile_lt tile hti hi
  have hcol := tile_lt tile htj hj
  rw [iJ_ok hfit hq hrow hcol, ok_bind]
  exact clear_delivers h (by omega) (by omega) rfl

theorem multiplyTile_delivers (ha : a.length = size * size) (hb : b.length = size * size)
    {c : List α} {f : Nat × Nat → α} (h : Holds size c f) {ti tj tk : Nat} (hti : ti < n)
    (htj : tj < n) (htk : tk < n) :
    Delivers (fun _ => False) (multiplyTile a b c size tile ti tj tk)
      (Holds size · (Update.run (multiplyTileUpdates size a b tile ti tj tk) f)) := by
  apply Update.range_delivers _ h
  intro i c f hi h
  apply Update.range_delivers _ h
  intro j c f hj h
  apply Update.range_delivers _ h
  intro k c f hk h
  have hrow := tile_lt tile hti hi
  have hcol := tile_lt tile htj hj
  have hmid := tile_lt tile htk hk
  rw [iJ_ok hfit hq hrow hcol, ok_bind, iK, iJ_ok hfit hq hrow hmid, ok_bind, kJ,
    iJ_ok hfit hq hmid hcol, ok_bind]
  exact accumulate_delivers ha hb h (by omega) (by omega) (by omega) rfl rfl rfl

end Tiled

omit [Zero α] [Add α] [Mul α] in
theorem div_tiles {tile : Nat} (htile : 0 < tile)
    (hfit : IndicesFit size (size / tile * tile)) :
    div size tile = .ok ((size / tile : Nat) : Int) := by
  have hle : size / tile ≤ size / tile * tile := Nat.le_mul_of_pos_right _ htile
  have hrow : size / tile * tile - 1 ≤ (size / tile * tile - 1) * size := by
    have hq : size / tile * tile ≤ size := Nat.div_mul_le_self _ _
    rcases Nat.eq_zero_or_pos size with hzero | hpos
    · omega
    · exact Nat.le_mul_of_pos_right _ hpos
  have hnonneg : 0 ≤ ((size / tile : Nat) : Int) := Int.natCast_nonneg _
  unfold IndicesFit at hfit
  rw [div, if_neg (by omega), Int.tdiv_eq_ediv_of_nonneg (by omega), ← Int.natCast_ediv, int_ok]
  unfold InRange
  omega

theorem matMultiplyOpt_delivers (ha : a.length = size * size) (hb : b.length = size * size)
    {tile : Nat} (htile : 0 < tile) (hfit : IndicesFit size (size / tile * tile)) {c : List α}
    {f : Nat × Nat → α} (h : Holds size c f) :
    Delivers (fun _ => False) (matMultiplyOpt a b c size tile)
      (Holds size · (Update.run (tiledUpdates size a b (size / tile) tile) f)) := by
  have hq : size / tile * tile ≤ size := Nat.div_mul_le_self _ _
  rw [matMultiplyOpt, div_tiles htile hfit, ok_bind]
  apply Update.range_delivers _ h
  intro ti c f hti h
  apply Update.range_delivers _ h
  intro tj c f htj h
  rw [Update.run_append]
  apply (clearTile_delivers hq hfit h hti htj).bind
  intro c h
  apply Update.range_delivers _ h
  intro tk c f htk h
  exact multiplyTile_delivers hq hfit ha hb h hti htj htk

example : matMultiplyOpt [1, 2, 3, 4, 5, 6, 7, 8, 9] [1, 0, 2, 0, 1, 0, 3, 0, 1]
    [9, 9, 9, 9, 9, 9, 9, 9, 9] 3 2 =
    .ok [1, 2, 9, 4, 5, 9, 9, 9, (9 : Nat)] := by decide +kernel

section Aims

omit [Add α] [Mul α] in
theorem cell_of_mem_clearTile {tile ti tj : Nat} {u : Update (Nat × Nat) α}
    (hu : u ∈ clearTileUpdates tile ti tj) :
    ∃ i j, i < tile ∧ j < tile ∧ u.cell = (ti * tile + i, tj * tile + j) := by
  simp only [clearTileUpdates, List.mem_flatMap, List.mem_range, List.mem_singleton] at hu
  obtain ⟨i, hi, j, hj, rfl⟩ := hu
  exact ⟨i, j, hi, hj, rfl⟩

theorem cell_of_mem_multiplyTile {tile ti tj tk : Nat} {u : Update (Nat × Nat) α}
    (hu : u ∈ multiplyTileUpdates size a b tile ti tj tk) :
    ∃ i j, i < tile ∧ j < tile ∧ u.cell = (ti * tile + i, tj * tile + j) := by
  simp only [multiplyTileUpdates, List.mem_flatMap, List.mem_range, List.mem_singleton] at hu
  obtain ⟨i, hi, j, hj, k, -, rfl⟩ := hu
  exact ⟨i, j, hi, hj, rfl⟩

/-- The updates for the tile in row `ti` and column `tj` of tiles. -/
theorem cell_of_mem_tile {n tile ti tj : Nat} {u : Update (Nat × Nat) α}
    (hu : u ∈ clearTileUpdates tile ti tj ++
      (List.range n).flatMap fun tk => multiplyTileUpdates size a b tile ti tj tk) :
    ∃ i j, i < tile ∧ j < tile ∧ u.cell = (ti * tile + i, tj * tile + j) := by
  rcases List.mem_append.mp hu with hu | hu
  · exact cell_of_mem_clearTile hu
  · obtain ⟨tk, -, hu⟩ := List.mem_flatMap.mp hu
    exact cell_of_mem_multiplyTile hu

theorem aimed_plain {i j : Nat} (hi : i < size) (hj : j < size) :
    Update.aimed (i, j) (plainUpdates size a b) =
      clear i j :: (List.range size).flatMap fun k => [term size a b i j k] := by
  have hcell {i j : Nat} {u : Update (Nat × Nat) α}
      (hu : u ∈ clear i j :: (List.range size).flatMap fun k => [term size a b i j k]) :
      u.cell = (i, j) := by
    simp only [List.mem_cons, List.mem_flatMap, List.mem_range, List.not_mem_nil, or_false] at hu
    rcases hu with rfl | ⟨k, -, rfl⟩
    · rfl
    · rfl
  rw [plainUpdates, Update.aimed_grid hi hj, Update.aimed_eq_self fun u hu => hcell hu]
  intro i' j' u hu hc
  rw [hcell hu] at hc
  exact Prod.mk.inj hc

variable {tile ti tj i j : Nat} (hi : i < tile) (hj : j < tile)

include hi hj

omit [Add α] [Mul α] in
theorem aimed_clearTile :
    Update.aimed (ti * tile + i, tj * tile + j) (clearTileUpdates (α := α) tile ti tj) =
      [clear (ti * tile + i) (tj * tile + j)] := by
  rw [clearTileUpdates, Update.aimed_grid hi hj, Update.aimed_eq_self (by simp [clear])]
  intro i' j' u hu hc
  obtain rfl := List.mem_singleton.mp hu
  have := Prod.mk.inj hc
  omega

theorem aimed_multiplyTile (tk : Nat) :
    Update.aimed (ti * tile + i, tj * tile + j) (multiplyTileUpdates size a b tile ti tj tk) =
      (List.range tile).flatMap fun k =>
        [term size a b (ti * tile + i) (tj * tile + j) (tk * tile + k)] := by
  rw [multiplyTileUpdates, Update.aimed_grid hi hj,
    Update.aimed_eq_self (by simp +contextual [term])]
  intro i' j' u hu hc
  obtain ⟨k, -, hu⟩ := List.mem_flatMap.mp hu
  obtain rfl := List.mem_singleton.mp hu
  have := Prod.mk.inj hc
  omega

/-- An entry inside the tiles is cleared once and gets its terms in ascending order. -/
theorem aimed_tiled {n : Nat} (hti : ti < n) (htj : tj < n) :
    Update.aimed (ti * tile + i, tj * tile + j) (tiledUpdates size a b n tile) =
      clear (ti * tile + i) (tj * tile + j) :: (List.range (n * tile)).flatMap fun k =>
        [term size a b (ti * tile + i) (tj * tile + j) k] := by
  rw [tiledUpdates, Update.aimed_grid hti htj, Update.aimed_append, aimed_clearTile hi hj,
    Update.aimed_flatMap]
  · simp only [aimed_multiplyTile hi hj]
    rw [Update.range_tiles n tile
      fun k => [term size a b (ti * tile + i) (tj * tile + j) k]]
    rfl
  · intro ti' tj' u hu hc
    obtain ⟨i', j', hi', hj', hcell⟩ := cell_of_mem_tile hu
    rw [hcell] at hc
    obtain ⟨hrow, hcolumn⟩ := Prod.mk.inj hc
    exact ⟨(index_inj hi' hi hrow).1, (index_inj hj' hj hcolumn).1⟩

end Aims

/-- No update reaches beyond the tiles. -/
theorem aimed_outside {n tile i j : Nat} (h : ¬(i < n * tile ∧ j < n * tile)) :
    Update.aimed (i, j) (tiledUpdates size a b n tile) = [] := by
  apply Update.aimed_eq_nil
  intro u hu hc
  obtain ⟨ti, hti, hu⟩ := List.mem_flatMap.mp hu
  obtain ⟨tj, htj, hu⟩ := List.mem_flatMap.mp hu
  obtain ⟨i', j', hi', hj', hcell⟩ := cell_of_mem_tile hu
  rw [hcell] at hc
  cases hc
  exact h ⟨tile_lt tile (List.mem_range.mp hti) hi', tile_lt tile (List.mem_range.mp htj) hj'⟩

theorem foldl_terms (i j q : Nat) (x : α) :
    (clear i j :: (List.range q).flatMap fun k => [term size a b i j k]).foldl
      (fun x u => u.apply x) x = accumulated size a b i j q := by
  rw [List.foldl_cons, accumulated, List.foldl_flatMap]
  rfl

end Updates

omit [Zero α] [Add α] [Mul α] in
theorem Holds.ext {size : Nat} {m m' : List α} {f g : Nat × Nat → α} (h : Holds size m f)
    (h' : Holds size m' g) (hfg : ∀ i j, i < size → j < size → f (i, j) = g (i, j)) : m = m' := by
  apply List.ext_getElem?
  intro x
  by_cases hx : x < size * size
  · have hi : x / size < size := Nat.div_lt_of_lt_mul hx
    have hj : x % size < size := Nat.mod_lt _ (Nat.zero_lt_of_lt hi)
    rw [← Nat.div_add_mod' x size, h.entry_eq _ _ hi hj, h'.entry_eq _ _ hi hj, hfg _ _ hi hj]
  · rw [List.getElem?_eq_none (by rw [h.length_eq]; omega),
      List.getElem?_eq_none (by rw [h'.length_eq]; omega)]

omit [Add α] [Mul α] in
theorem Holds.entry {size : Nat} {m : List α} {f : Nat × Nat → α} (h : Holds size m f) {i j : Nat}
    (hi : i < size) (hj : j < size) : entry size m i j = f (i, j) := by
  simp [Matrix.entry, h.entry_eq i j hi hj]

/-- The tiled product adds the terms of each entry as the plain one does, and leaves the entries
beyond the last whole tile alone. -/
theorem matMultiplyOpt_accumulates {size tile : Nat} {a b c : List α} (htile : 1 ≤ tile)
    (ha : a.length = size * size) (hb : b.length = size * size) (hc : c.length = size * size)
    (hfit : IndicesFit size (tile * (size / tile))) :
    ∃ c', matMultiplyOpt a b c size tile = .ok c' ∧ c'.length = size * size ∧
      (∀ i j, i < tile * (size / tile) → j < tile * (size / tile) →
        entry size c' i j = accumulated size a b i j (tile * (size / tile))) ∧
      (∀ i j, i < size → j < size → ¬(i < tile * (size / tile) ∧ j < tile * (size / tile)) →
        entry size c' i j = entry size c i j) ∧
      (tile ∣ size → matMultiply a b c size = .ok c') := by
  rw [Nat.mul_comm tile] at hfit ⊢
  have hq : size / tile * tile ≤ size := Nat.div_mul_le_self _ _
  obtain ⟨c', hrun, hc'⟩ := (matMultiplyOpt_delivers ha hb htile hfit (holds_entry hc)).result
  have hinside (i j : Nat) (hi : i < size / tile * tile) (hj : j < size / tile * tile) :
      entry size c' i j = accumulated size a b i j (size / tile * tile) := by
    have hti := Nat.div_lt_of_lt_mul (Nat.mul_comm _ tile ▸ hi)
    have htj := Nat.div_lt_of_lt_mul (Nat.mul_comm _ tile ▸ hj)
    have haimed : Update.aimed (i / tile * tile + i % tile, j / tile * tile + j % tile)
        (tiledUpdates size a b (size / tile) tile) = _ :=
      aimed_tiled (Nat.mod_lt i htile) (Nat.mod_lt j htile) hti htj
    rw [Nat.div_add_mod', Nat.div_add_mod'] at haimed
    rw [hc'.entry (by omega) (by omega), Update.run_apply, haimed, foldl_terms]
  refine ⟨c', hrun, hc'.length_eq, hinside, ?_, ?_⟩
  · intro i j hi hj hout
    rw [hc'.entry hi hj, Update.run_apply, aimed_outside hout]
    rfl
  · intro hdvd
    rw [Nat.div_mul_cancel hdvd] at hfit hinside
    obtain ⟨c'', hplain, hc''⟩ := (matMultiply_delivers ha hb hfit (holds_entry hc)).result
    rw [hplain, hc''.ext hc']
    intro i j hi hj
    rw [← hc'.entry hi hj, hinside i j hi hj, Update.run_apply, aimed_plain hi hj, foldl_terms]

theorem matMultiplyOpt_accumulates_two :
    ∃ c', matMultiplyOpt [1, 2, 3, 4] [5, 6, 7, 8] [0, 0, 0, (9 : Nat)] (2 : Nat) (1 : Nat) =
        .ok c' ∧ c'.length = 2 * 2 ∧
      (∀ i j, i < 1 * (2 / 1) → j < 1 * (2 / 1) →
        entry 2 c' i j = accumulated 2 [1, 2, 3, 4] [5, 6, 7, 8] i j (1 * (2 / 1))) ∧
      (∀ i j, i < 2 → j < 2 → ¬(i < 1 * (2 / 1) ∧ j < 1 * (2 / 1)) →
        entry 2 c' i j = entry 2 [0, 0, 0, 9] i j) ∧
      (1 ∣ 2 → matMultiply [1, 2, 3, 4] [5, 6, 7, 8] [0, 0, 0, 9] (2 : Nat) = .ok c') :=
  matMultiplyOpt_accumulates (by decide) rfl rfl rfl (by unfold IndicesFit; decide)

/-- With 46341 rows the last index leaves the type `int`, whatever is in the matrices. -/
theorem last_index_overflows (a b c c' : List Nat) :
    matMultiplyOpt a b c 46341 46341 ≠ .ok c' := by
  intro h
  have hdiv : div 46341 46341 = .ok 1 := by decide
  rw [matMultiplyOpt, hdiv, ok_bind] at h
  obtain ⟨c1, c2, h⟩ := foldlM_ok_of_mem h (x := 0) (by decide)
  obtain ⟨c1, c2, h⟩ := foldlM_ok_of_mem h (x := 0) (by decide)
  obtain ⟨c3, h, -⟩ := bind_eq_ok.mp h
  have hmem : 46340 ∈ List.range (Int.toNat 46341) := List.mem_range.mpr (by decide)
  obtain ⟨c4, c5, h⟩ := foldlM_ok_of_mem h hmem
  obtain ⟨c4, c5, h⟩ := foldlM_ok_of_mem h hmem
  obtain ⟨index, h, -⟩ := bind_eq_ok.mp h
  have hindex : iJ 46341 46341 0 46340 0 46340 = .error .overflow := by decide
  cases hindex.symm.trans h

/-- Two square matrices of that many zeros. -/
theorem matMultiplyOpt_overflows :
    ¬∃ c', matMultiplyOpt (List.replicate (46341 * 46341) 0) (List.replicate (46341 * 46341) 0)
      (List.replicate (46341 * 46341) (0 : Nat)) 46341 46341 = .ok c' := by
  rintro ⟨c', h⟩
  exact last_index_overflows _ _ _ c' h

end Bootcamp.Matrix
