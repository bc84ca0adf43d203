import Bootcamp.Lib.Checked
import Bootcamp.Lib.StableSort
import Mathlib.Tactic.Ring
import Mathlib.Tactic.Linarith

/-! The merge sort of a matrix kept as one array, tile by tile. -/
namespace Bootcamp.MergeSort

open Checked Except

variable {α : Type} (malloc : Nat → Bool) (le : α → α → Bool)

/-- `n*sizeof(double)`, of type `size_t`. -/
def bytes (n : Int) : Nat := (n * 8 % 18446744073709551616).toNat

/-- A copying loop from `arr` at `index(i)` into a temporary array. -/
def copy (arr : List α) (index : Int → Except Fault Int) (n : Int)
    (temp : List (Option α)) : Except Fault (List (Option α)) :=
  (List.range n.toNat).foldlM (fun temp (i : Nat) => do
    let x ← Checked.load arr (← index i)
    store temp i (some x)) temp

/-- The variables of the merging loops. -/
structure Merging (α : Type) where
  arr : List α
  i : Int
  j : Int
  k : Int

/-- `while (i < n1 && j < n2)`. -/
def mergeBoth (L R : List (Option α)) (n1 n2 : Int) : Nat → Merging α → Except Fault (Merging α)
  | 0, _ => .error .diverges
  | fuel + 1, s =>
    if s.i < n1 ∧ s.j < n2 then do
      let x ← fetch L s.i
      let y ← fetch R s.j
      if le x y then
        let arr ← store s.arr s.k x
        mergeBoth L R n1 n2 fuel { arr, i := ← add s.i 1, j := s.j, k := ← add s.k 1 }
      else
        let arr ← store s.arr s.k y
        mergeBoth L R n1 n2 fuel { arr, i := s.i, j := ← add s.j 1, k := ← add s.k 1 }
    else pure s

/-- The loop that copies what remains of one temporary array, with the `k` it ends at. -/
def mergeRest (temp : List (Option α)) (n : Int) :
    Nat → List α → Int → Int → Except Fault (List α × Int)
  | 0, _, _, _ => .error .diverges
  | fuel + 1, arr, i, k =>
    if i < n then do
      let arr ← store arr k (← fetch temp i)
      mergeRest temp n fuel arr (← add i 1) (← add k 1)
    else pure (arr, k)

/-- Both of these loops, behind the first one. -/
def mergeRemaining (L R : List (Option α)) (n1 n2 : Int) (s : Merging α) :
    Except Fault (List α) := do
  let (arr, k) ← mergeRest L n1 (n1.toNat + 1) s.arr s.i s.k
  let (arr, _) ← mergeRest R n2 (n2.toNat + 1) arr s.j k
  pure arr

def merge (arr : List α) (l m r : Int) : Except Fault (List α) := do
  let n1 ← add (← sub m l) 1
  let n2 ← sub r m
  if malloc (bytes n1) && malloc (bytes n2) then
    let L ← copy arr (fun i => add l i) n1 (List.replicate n1.toNat none)
    let R ← copy arr (fun j => do add (← add m 1) j) n2 (List.replicate n2.toNat none)
    let s ← mergeBoth le L R n1 n2 (n1.toNat + n2.toNat + 1) { arr, i := 0, j := 0, k := l }
    mergeRemaining L R n1 n2 s
  else
    throw .exit

/-- The calls nest at most `depth` deep. -/
def mergeSortTo : Nat → List α → Int → Int → Except Fault (List α)
  | 0, _, _, _ => .error .diverges
  | depth + 1, arr, l, r =>
    if l < r then do
      let m ← add l (← div (← sub r l) 2)
      let arr ← mergeSortTo depth arr l m
      let arr ← mergeSortTo depth arr (← add m 1) r
      merge malloc le arr l m r
    else pure arr

def mergeSort (arr : List α) (l r : Int) : Except Fault (List α) :=
  mergeSortTo malloc le ((r - l).toNat + 1) arr l r

/-- The body of the first loop of `sort2D`, with `size` for `m*n`. -/
def sortTile (size tile : Int) (arr : List α) (i : Int) : Except Fault (List α) := do
  if (← sub size (← mul i tile)) < tile then
    mergeSort malloc le arr (← mul i tile) (← sub size 1)
  else
    mergeSort malloc le arr (← mul i tile) (← sub (← mul (← add i 1) tile) 1)

/-- The body of the second loop. -/
def mergeTile (size tile : Int) (arr : List α) (i : Int) : Except Fault (List α) := do
  if (← sub size (← mul (← add i 1) tile)) < tile then
    merge malloc le arr 0 (← sub (← mul (← add i 1) tile) 1) (← sub size 1)
  else
    merge malloc le arr 0 (← sub (← mul (← add i 1) tile) 1)
      (← sub (← mul (← add i 2) tile) 1)

/-- `nTiles`, with a ragged last tile counted. -/
def tileCount (size tile : Int) : Except Fault Int := do
  let nTiles ← div size tile
  if (← mod size tile) = 0 then pure nTiles else add nTiles 1

def sort2D (arr : List α) (m n tile : Int) : Except Fault (List α) := do
  let size ← mul m n
  let nTiles ← tileCount size tile
  let arr ← (List.range nTiles.toNat).foldlM
    (fun arr (i : Nat) => sortTile malloc le size tile arr i) arr
  let last ← sub nTiles 1
  (List.range last.toNat).foldlM (fun arr (i : Nat) => mergeTile malloc le size tile arr i) arr

variable {malloc le}

section Merging

theorem copy_ok (front xs back : List α) (index : Int → Except Fault Int) {n : Int}
    (hn : n = xs.length) (hindex : ∀ i : Nat, i < xs.length → index i = .ok (front.length + i)) :
    copy (front ++ xs ++ back) index n (List.replicate n.toNat none) = .ok (xs.map some) := by
  have hrun : Delivers (fun _ : Fault => False)
      (copy (front ++ xs ++ back) index n (List.replicate n.toNat none))
      (fun temp =>
        temp = (xs.take n.toNat).map some ++ List.replicate (xs.length - n.toNat) none) := by
    apply Delivers.range (I := fun k temp =>
      temp = (xs.take k).map some ++ List.replicate (xs.length - k) none)
    · simp [hn]
    · rintro k temp hk rfl
      have hk : k < xs.length := by omega
      have hload : Checked.load (front ++ xs ++ back) (front.length + k) = .ok xs[k] := by
        rw [← Nat.cast_add, load_ok]
        rw [List.append_assoc, List.getElem?_append_right (by omega),
          List.getElem?_append_left (by omega), Nat.add_sub_cancel_left,
          List.getElem?_eq_getElem hk]
      have hstore : store ((xs.take k).map some ++ List.replicate (xs.length - k) none) k
          (some xs[k]) = .ok ((xs.take (k + 1)).map some ++
            List.replicate (xs.length - (k + 1)) none) := by
        rw [show xs.length - k = xs.length - (k + 1) + 1 by omega, List.replicate_succ,
          store_append _ _ _ _ (by simp; omega), List.take_succ_eq_append_getElem hk]
        simp only [List.map_append, List.map_cons, List.map_nil, List.append_assoc,
          List.singleton_append]
      rw [hindex k hk, ok_bind, hload, ok_bind, hstore]
      exact .ok rfl
  obtain ⟨temp, hrun, rfl⟩ := hrun.result
  simpa [hn] using hrun

theorem mergeRest_ok (taken : List (Option α)) (front rest back xs : List α) {n i k : Int}
    {fuel : Nat} (hrest : rest.length = xs.length) (hi : i = taken.length)
    (hn : n = i + xs.length) (hk : k = front.length) (hfuel : xs.length < fuel)
    (hfit : n ≤ 2147483647) (hroom : k + xs.length ≤ 2147483647) :
    mergeRest (taken ++ xs.map some) n fuel (front ++ rest ++ back) i k =
      .ok (front ++ xs ++ back, k + xs.length) := by
  induction xs generalizing taken front rest i k fuel with
  | nil =>
    obtain rfl := List.length_eq_zero_iff.mp hrest
    cases fuel with
    | zero => omega
    | succ fuel => simp [mergeRest, hn]
  | cons x xs ih =>
    cases rest with
    | nil => simp at hrest
    | cons y rest =>
      simp only [List.length_cons, Nat.cast_add, Nat.cast_one] at hrest hn hfuel hroom ⊢
      cases fuel with
      | zero => omega
      | succ fuel =>
        have hnext := ih (taken ++ [some x]) (front ++ [x]) rest (i := i + 1) (k := k + 1)
          (by omega) (by simp; omega) (by omega) (by simp; omega) (Nat.lt_of_succ_lt_succ hfuel)
          (by omega)
        have hadd : add i 1 = .ok (i + 1) := add_ok (by unfold InRange; omega)
        have hinc : add k 1 = .ok (k + 1) := add_ok (by unfold InRange; omega)
        simp only [List.append_assoc, List.cons_append, List.nil_append] at hnext
        unfold mergeRest
        rw [if_pos (by omega), List.map_cons, fetch_append _ _ _ hi, ok_bind, List.append_assoc,
          List.cons_append, store_append _ _ _ _ hk, ok_bind, hadd, ok_bind, hinc, ok_bind, hnext,
          add_assoc, add_comm 1]
        simp

/-- Where the merging loops are: they have read `takenL` and `takenR`, have `xs` and `ys` before
them, and write over `rest` behind what they have written, `front`. -/
structure MergingAt (takenL takenR : List (Option α)) (front rest back xs ys : List α)
    (n1 n2 : Int) (s : Merging α) : Prop where
  arr_eq : s.arr = front ++ rest ++ back
  rest_length : rest.length = xs.length + ys.length
  i_eq : s.i = takenL.length
  j_eq : s.j = takenR.length
  k_eq : s.k = front.length
  n1_eq : n1 = s.i + xs.length
  n2_eq : n2 = s.j + ys.length
  n1_fits : n1 ≤ 2147483647
  n2_fits : n2 ≤ 2147483647
  room : s.k + xs.length + ys.length ≤ 2147483647

namespace MergingAt

variable {takenL takenR : List (Option α)} {front rest back xs ys : List α} {n1 n2 : Int}
  {s : Merging α} {x y z : α}

theorem left (h : MergingAt takenL takenR front (z :: rest) back (x :: xs) ys n1 n2 s) :
    MergingAt (takenL ++ [some x]) takenR (front ++ [x]) rest back xs ys n1 n2
      ⟨front ++ [x] ++ rest ++ back, s.i + 1, s.j, s.k + 1⟩ := by
  have := h.rest_length
  have := h.n1_eq
  have := h.room
  simp only [List.length_cons, Nat.cast_add, Nat.cast_one] at *
  exact ⟨rfl, by omega, by simp [h.i_eq], h.j_eq, by simp [h.k_eq], by simp only; omega, h.n2_eq,
    h.n1_fits, h.n2_fits, by simp only; omega⟩

theorem right (h : MergingAt takenL takenR front (z :: rest) back xs (y :: ys) n1 n2 s) :
    MergingAt takenL (takenR ++ [some y]) (front ++ [y]) rest back xs ys n1 n2
      ⟨front ++ [y] ++ rest ++ back, s.i, s.j + 1, s.k + 1⟩ := by
  have := h.rest_length
  have := h.n2_eq
  have := h.room
  simp only [List.length_cons, Nat.cast_add, Nat.cast_one] at *
  exact ⟨rfl, by omega, h.i_eq, by simp [h.j_eq], by simp [h.k_eq], h.n1_eq, by simp only; omega,
    h.n1_fits, h.n2_fits, by simp only; omega⟩

theorem store_eq (h : MergingAt takenL takenR front (z :: rest) back xs ys n1 n2 s) (w : α) :
    store s.arr s.k w = .ok (front ++ [w] ++ rest ++ back) := by
  rw [h.arr_eq, List.append_assoc, List.cons_append, store_append _ _ _ _ h.k_eq]
  simp

theorem mergeRemaining_ok (h : MergingAt takenL takenR front rest back xs ys n1 n2 s) :
    mergeRemaining (takenL ++ xs.map some) (takenR ++ ys.map some) n1 n2 s =
      .ok (front ++ (xs ++ ys) ++ back) := by
  obtain ⟨harr, hrest, hi, hj, hk, hn1, hn2, hfit1, hfit2, hroom⟩ := h
  obtain ⟨restL, restR, rfl, hlenL⟩ : ∃ restL restR, rest = restL ++ restR ∧
      restL.length = xs.length :=
    ⟨rest.take xs.length, rest.drop xs.length, by simp, by simp; omega⟩
  have hL : mergeRest (takenL ++ xs.map some) n1 (n1.toNat + 1) s.arr s.i s.k =
      .ok (front ++ xs ++ (restR ++ back), s.k + xs.length) := by
    rw [harr, ← List.append_assoc front, List.append_assoc (front ++ _)]
    exact mergeRest_ok _ _ _ _ _ hlenL hi hn1 hk (by omega) hfit1 (by omega)
  have hR : mergeRest (takenR ++ ys.map some) n2 (n2.toNat + 1)
      (front ++ xs ++ restR ++ back) s.j (s.k + xs.length) =
      .ok (front ++ xs ++ ys ++ back, s.k + xs.length + ys.length) := by
    rw [List.length_append] at hrest
    exact mergeRest_ok _ _ _ _ _ (by omega) hj hn2 (by simp; omega) (by omega) hfit2 hroom
  rw [List.append_assoc (front ++ xs)] at hR
  rw [mergeRemaining, hL, ok_bind]
  dsimp only
  rw [hR, ok_bind, ← List.append_assoc front]
  rfl

/-- The three loops write the merge. -/
theorem mergeBoth_ok (le : α → α → Bool) {fuel : Nat}
    (h : MergingAt takenL takenR front rest back xs ys n1 n2 s)
    (hfuel : xs.length + ys.length < fuel) :
    (mergeBoth le (takenL ++ xs.map some) (takenR ++ ys.map some) n1 n2 fuel s >>=
      mergeRemaining (takenL ++ xs.map some) (takenR ++ ys.map some) n1 n2) =
      .ok (front ++ List.merge xs ys le ++ back) := by
  induction fuel generalizing takenL takenR front rest xs ys s with
  | zero => omega
  | succ fuel ih =>
    have hn1 := h.n1_eq
    have hn2 := h.n2_eq
    have hdone (hout : ¬(s.i < n1 ∧ s.j < n2)) (hmerge : List.merge xs ys le = xs ++ ys) :
        (mergeBoth le (takenL ++ xs.map some) (takenR ++ ys.map some) n1 n2 (fuel + 1) s >>=
          mergeRemaining (takenL ++ xs.map some) (takenR ++ ys.map some) n1 n2) =
          .ok (front ++ List.merge xs ys le ++ back) := by
      rw [mergeBoth, if_neg hout, hmerge]
      exact h.mergeRemaining_ok
    cases xs with
    | nil => exact hdone (by simp at hn1; omega) (by simp)
    | cons x xs =>
      cases ys with
      | nil => exact hdone (by simp at hn2; omega) (by simp)
      | cons y ys =>
        cases rest with
        | nil =>
          have := h.rest_length
          simp at this
        | cons z rest =>
          simp only [List.length_cons, Nat.cast_add, Nat.cast_one] at hn1 hn2 hfuel
          have hroom := h.room
          have hk := h.k_eq
          have hi := h.i_eq
          have hj := h.j_eq
          have hfit := h.n1_fits
          have hx : fetch (takenL ++ (x :: xs).map some) s.i = .ok x := fetch_append _ _ _ hi
          have hy : fetch (takenR ++ (y :: ys).map some) s.j = .ok y := fetch_append _ _ _ hj
          have hfit2 := h.n2_fits
          simp only [List.length_cons, Nat.cast_add, Nat.cast_one] at hroom
          have hi' : add s.i 1 = .ok (s.i + 1) := add_ok (by unfold InRange; omega)
          have hj' : add s.j 1 = .ok (s.j + 1) := add_ok (by unfold InRange; omega)
          have hk' : add s.k 1 = .ok (s.k + 1) := add_ok (by unfold InRange; omega)
          rw [mergeBoth, if_pos (by omega), hx, ok_bind, hy, ok_bind, h.store_eq, h.store_eq]
          cases hxy : le x y with
          | true =>
            rw [if_pos rfl, ok_bind, hi', ok_bind, hk', ok_bind, List.cons_merge_cons_pos _ _ _ hxy]
            simpa using ih h.left (by simp; omega)
          | false =>
            rw [if_neg (by simp), ok_bind, hj', ok_bind, hk', ok_bind,
              List.cons_merge_cons_neg _ _ _ (by simp [hxy])]
            simpa using ih h.right (by simp; omega)

end MergingAt

/-- The way a sort may end without a result. -/
def OutOfMemory (malloc : Nat → Bool) (e : Fault) : Prop :=
  e = .exit ∧ ∃ size, malloc size = false

theorem merge_delivers (front xs ys back : List α) {l m r : Int} (hl : l = front.length)
    (hm : m = l + xs.length - 1) (hr : r = m + ys.length)
    (hroom : l + xs.length + ys.length ≤ 2147483647) :
    Delivers (OutOfMemory malloc) (merge malloc le (front ++ (xs ++ ys) ++ back) l m r)
      (· = front ++ List.merge xs ys le ++ back) := by
  have hn1 : m - l + 1 = xs.length := by omega
  have hn2 : r - m = ys.length := by omega
  have hL : copy (front ++ (xs ++ ys) ++ back) (fun i => add l i) xs.length
      (List.replicate (Int.toNat xs.length) none) = .ok (xs.map some) := by
    have := copy_ok front xs (ys ++ back) (fun i => add l i) rfl
      fun i hi => by rw [add_ok (by unfold InRange; omega), hl]
    simpa using this
  have hR : copy (front ++ (xs ++ ys) ++ back) (fun j => do add (← add m 1) j) ys.length
      (List.replicate (Int.toNat ys.length) none) = .ok (ys.map some) := by
    have := copy_ok (front ++ xs) ys back (fun j => do add (← add m 1) j) rfl fun j hj => by
        rw [add_ok (by unfold InRange; omega), ok_bind, add_ok (by unfold InRange; omega)]
        simp
        omega
    simpa using this
  rw [merge, sub_ok (by unfold InRange; omega), ok_bind, add_ok (by unfold InRange; omega),
    ok_bind, sub_ok (by unfold InRange; omega), ok_bind, hn1, hn2]
  cases hmem : malloc (bytes xs.length) && malloc (bytes ys.length) with
  | false =>
    refine .error ⟨rfl, ?_⟩
    cases hx : malloc (bytes xs.length) with
    | false => exact ⟨_, hx⟩
    | true => exact ⟨_, by simpa [hx] using hmem⟩
  | true =>
    have hstart : MergingAt [] [] front (xs ++ ys) back xs ys xs.length ys.length
        ⟨front ++ (xs ++ ys) ++ back, 0, 0, l⟩ :=
      ⟨rfl, by simp, rfl, rfl, hl, by simp, by simp, by omega, by omega, hroom⟩
    have hfuel : xs.length + ys.length < Int.toNat xs.length + Int.toNat ys.length + 1 := by omega
    have hloops := hstart.mergeBoth_ok le hfuel
    rw [if_pos rfl, hL, ok_bind, hR, ok_bind]
    simp only [List.nil_append] at hloops
    rw [hloops]
    exact .ok rfl

/-- The calls of `mergeSort` on the elements `xs` from index `l` on. -/
theorem mergeSortTo_delivers (h : IsRanking le) (front xs back : List α) {l r : Int} {depth : Nat}
    (hl : l = front.length) (hr : r = l + xs.length - 1) (hdepth : xs.length ≤ depth)
    (hpos : 0 < depth) (hroom : l + xs.length ≤ 2147483647) :
    Delivers (OutOfMemory malloc) (mergeSortTo malloc le depth (front ++ xs ++ back) l r)
      (fun arr => ∃ sorted, IsStableSort le xs sorted ∧ arr = front ++ sorted ++ back) := by
  induction depth generalizing front xs back l r with
  | zero => omega
  | succ depth ih =>
    unfold mergeSortTo
    by_cases hlr : l < r
    · obtain ⟨h1, h2, rfl, hh1⟩ : ∃ h1 h2, xs = h1 ++ h2 ∧ h1.length = (xs.length - 1) / 2 + 1 :=
        ⟨xs.take ((xs.length - 1) / 2 + 1), xs.drop ((xs.length - 1) / 2 + 1), by simp,
          by simp; omega⟩
      rw [List.length_append] at *
      have hhalf : (r - l) / 2 + 1 = (h1.length : Int) := by omega
      rw [if_pos hlr, sub_ok (by unfold InRange; omega), ok_bind,
        div_ok (by omega) (by unfold InRange; omega) (by omega), ok_bind,
        add_ok (by unfold InRange; omega), ok_bind, ← List.append_assoc front,
        List.append_assoc (front ++ h1)]
      apply Delivers.bind (ih _ _ _ hl (by omega) (by omega) (by omega) (by omega))
      rintro _ ⟨s1, hs1, rfl⟩
      rw [add_ok (by unfold InRange; omega), ok_bind, ← List.append_assoc (front ++ s1)]
      apply Delivers.bind (ih _ _ _ (by simp [hs1.length_eq]; omega) (by omega) (by omega)
        (by omega) (by omega))
      rintro _ ⟨s2, hs2, rfl⟩
      rw [List.append_assoc front]
      apply (merge_delivers _ _ _ _ hl (by rw [hs1.length_eq]; omega) (by rw [hs2.length_eq]; omega)
        (by rw [hs1.length_eq, hs2.length_eq]; omega)).mono
      rintro _ rfl
      exact ⟨_, hs1.merge h hs2, rfl⟩
    · rw [if_neg hlr]
      refine .ok ⟨xs, ?_, rfl⟩
      match xs, hr with
      | [], _ => exact .nil
      | [x], _ => exact .singleton x
      | x :: y :: xs, hr =>
        simp at hr
        omega

theorem mergeSort_delivers (h : IsRanking le) {front xs back : List α} {l r : Int}
    (hl : l = front.length) (hr : r = l + xs.length - 1) (hroom : l + xs.length ≤ 2147483647) :
    Delivers (OutOfMemory malloc) (mergeSort malloc le (front ++ xs ++ back) l r)
      (fun arr => ∃ sorted, IsStableSort le xs sorted ∧ arr = front ++ sorted ++ back) :=
  mergeSortTo_delivers h _ _ _ hl hr (by omega) (by omega) hroom

end Merging

section Tiles

/-- The elements of the `k`-th tile. -/
def tileAt (arr : List α) (tile k : Nat) : List α := (arr.drop (k * tile)).take tile

theorem take_tiles (arr : List α) (tile k : Nat) :
    arr.take ((k + 1) * tile) = arr.take (k * tile) ++ tileAt arr tile k := by
  rw [Nat.succ_mul, List.take_add, tileAt]

theorem drop_tiles (arr : List α) (tile k : Nat) :
    arr.drop (k * tile) = tileAt arr tile k ++ arr.drop ((k + 1) * tile) := by
  rw [tileAt, Nat.succ_mul, ← List.drop_drop, List.take_append_drop]

theorem length_tileAt (arr : List α) (tile k : Nat) :
    (tileAt arr tile k).length = min tile (arr.length - k * tile) := by
  simp [tileAt]

/-- The array with its first `k` tiles sorted. -/
structure TilesSorted (le : α → α → Bool) (input : List α) (tile k : Nat) (tiles : List (List α))
    (arr : List α) : Prop where
  count : tiles.length = k
  sorted : ∀ i t, tiles[i]? = some t → IsStableSort le (tileAt input tile i) t
  layout : arr = tiles.flatten ++ input.drop (k * tile)
  length_eq : arr.length = input.length

theorem TilesSorted.length_flatten {input arr : List α} {tile k : Nat} {tiles : List (List α)}
    (h : TilesSorted le input tile k tiles arr) (hk : k * tile ≤ input.length) :
    tiles.flatten.length = k * tile := by
  have := h.length_eq
  rw [h.layout, List.length_append, List.length_drop] at this
  omega

theorem TilesSorted.extend {input arr : List α} {tile k : Nat} {tiles : List (List α)}
    (h : TilesSorted le input tile k tiles arr) {t : List α}
    (ht : IsStableSort le (tileAt input tile k) t) :
    TilesSorted le input tile (k + 1) (tiles ++ [t])
      (tiles.flatten ++ t ++ input.drop ((k + 1) * tile)) where
  count := by simp [h.count]
  sorted i u hi := by
    by_cases hik : i < tiles.length
    · rw [List.getElem?_append_left hik] at hi
      exact h.sorted i u hi
    · rw [List.getElem?_append_right (by omega)] at hi
      rw [List.getElem?_singleton] at hi
      split at hi
      · cases hi
        obtain rfl : i = k := by have := h.count; omega
        exact ht
      · cases hi
  layout := by simp
  length_eq := by
    have hlen := h.length_eq
    rw [h.layout, drop_tiles] at hlen
    simp only [List.length_append, ht.length_eq] at hlen ⊢
    omega

/-- One turn of the first loop. -/
theorem sortTile_delivers (h : IsRanking le) {input arr : List α} {tile k : Nat}
    {tiles : List (List α)} (htile : 0 < tile) (hk : k * tile < input.length)
    (hfit : (input.length : Int) ≤ 2147483647) (hs : TilesSorted le input tile k tiles arr) :
    Delivers (OutOfMemory malloc) (sortTile malloc le input.length tile arr k)
      (fun arr => ∃ tiles, TilesSorted le input tile (k + 1) tiles arr) := by
  have hstart : ((k : Int) * tile) = (k * tile : Nat) := by simp
  have hnext : ((k : Int) + 1) * tile = (k * tile : Nat) + (tile : Int) := by push_cast; ring
  have hlen := length_tileAt input tile k
  have hfront := hs.length_flatten hk.le
  have hkk : k ≤ k * tile := Nat.le_mul_of_pos_right k htile
  have hcall (r : Int) (hr : r = (k * tile : Nat) + (tileAt input tile k).length - 1) :
      Delivers (OutOfMemory malloc) (mergeSort malloc le arr (k * tile : Nat) r)
        (fun arr => ∃ tiles, TilesSorted le input tile (k + 1) tiles arr) := by
    rw [hs.layout, drop_tiles, ← List.append_assoc]
    apply (mergeSort_delivers h (by rw [hfront]) hr (by omega)).mono
    rintro _ ⟨t, ht, rfl⟩
    exact ⟨_, hs.extend ht⟩
  rw [sortTile, mul_ok (by unfold InRange; omega), hstart, ok_bind,
    sub_ok (by unfold InRange; omega), ok_bind]
  by_cases hlast : (input.length : Int) - (k * tile : Nat) < tile
  · rw [if_pos hlast, ok_bind, sub_ok (by unfold InRange; omega), ok_bind]
    exact hcall _ (by omega)
  · rw [if_neg hlast, ok_bind, add_ok (by unfold InRange; omega), ok_bind,
      mul_ok (by rw [hnext]; unfold InRange; omega), hnext, ok_bind,
      sub_ok (by unfold InRange; omega), ok_bind]
    exact hcall _ (by omega)

/-- The array with its first `k + 1` tiles merged. -/
def TilesMerged (le : α → α → Bool) (input : List α) (tile k : Nat) (tiles : List (List α))
    (arr : List α) : Prop :=
  ∃ front, IsStableSort le (input.take ((k + 1) * tile)) front ∧
    arr = front ++ (tiles.drop (k + 1)).flatten

/-- One turn of the second loop. -/
theorem mergeTile_delivers (h : IsRanking le) {input sorted arr : List α} {tile count k : Nat}
    {tiles : List (List α)} (htile : 0 < tile) (hk : (k + 1) * tile < input.length)
    (hcount : k + 1 < count) (hfit : (input.length : Int) ≤ 2147483647)
    (hs : TilesSorted le input tile count tiles sorted)
    (hm : TilesMerged le input tile k tiles arr) :
    Delivers (OutOfMemory malloc) (mergeTile malloc le input.length tile arr k)
      (TilesMerged le input tile (k + 1) tiles) := by
  obtain ⟨front, hfront, rfl⟩ := hm
  have hend : ((k : Int) + 1) * tile = ((k + 1) * tile : Nat) := by push_cast; ring
  have hnext : ((k : Int) + 2) * tile = ((k + 1) * tile : Nat) + (tile : Int) := by
    push_cast
    ring
  have hkk : k + 1 ≤ (k + 1) * tile := Nat.le_mul_of_pos_right _ htile
  have hlen := length_tileAt input tile (k + 1)
  have hlenFront : front.length = (k + 1) * tile := by
    rw [hfront.length_eq, List.length_take]
    omega
  have hindex : k + 1 < tiles.length := by rw [hs.count]; exact hcount
  obtain ⟨t, ht⟩ : ∃ t, t = tiles[k + 1] := ⟨_, rfl⟩
  have hsorted := hs.sorted (k + 1) t (by rw [ht, List.getElem?_eq_getElem hindex])
  have htail : (tiles.drop (k + 1)).flatten = t ++ (tiles.drop (k + 2)).flatten := by
    rw [List.drop_eq_getElem_cons hindex, List.flatten_cons, ht]
  have hcall (r : Int) (hr : r = ((k + 1) * tile : Nat) - 1 + (tileAt input tile (k + 1)).length) :
      Delivers (OutOfMemory malloc) (merge malloc le (front ++ (tiles.drop (k + 1)).flatten) 0
        (((k + 1) * tile : Nat) - 1) r) (TilesMerged le input tile (k + 1) tiles) := by
    rw [htail, ← List.append_assoc]
    apply (merge_delivers [] front t _ (by rfl) (by omega) (by rw [hsorted.length_eq]; omega)
      (by rw [hsorted.length_eq]; omega)).mono
    rintro _ rfl
    refine ⟨_, ?_, rfl⟩
    rw [take_tiles]
    exact hfront.merge h hsorted
  have hmul : mul ((k : Int) + 1) tile = .ok (((k + 1) * tile : Nat) : Int) := by
    rw [mul_ok (by rw [hend]; unfold InRange; omega), hend]
  rw [mergeTile, add_ok (by unfold InRange; omega), ok_bind, hmul, ok_bind,
    sub_ok (by unfold InRange; omega), ok_bind]
  by_cases hlast : (input.length : Int) - ((k + 1) * tile : Nat) < tile
  · rw [if_pos hlast, ok_bind, hmul, ok_bind, sub_ok (by unfold InRange; omega), ok_bind,
      sub_ok (by unfold InRange; omega), ok_bind]
    exact hcall _ (by omega)
  · rw [if_neg hlast, ok_bind, hmul, ok_bind, sub_ok (by unfold InRange; omega), ok_bind,
      add_ok (by unfold InRange; omega), ok_bind, mul_ok (by rw [hnext]; unfold InRange; omega),
      hnext, ok_bind, sub_ok (by unfold InRange; omega), ok_bind]
    exact hcall _ (by omega)

/-- The number of tiles covers the array, and the last one is not empty. -/
theorem tiles_cover (size : Nat) {tile : Nat} (htile : 0 < tile) {count : Nat}
    (hcount : count = if size % tile = 0 then size / tile else size / tile + 1) :
    size ≤ count * tile ∧ ∀ k < count, k * tile < size := by
  have hdiv := Nat.div_add_mod size tile
  have hmod := Nat.mod_lt size htile
  rw [Nat.mul_comm] at hdiv
  split at hcount
  · refine ⟨by rw [hcount]; omega, fun k hk => ?_⟩
    have hle : (k + 1) * tile ≤ count * tile := Nat.mul_le_mul_right tile hk
    rw [hcount, Nat.succ_mul] at hle
    omega
  · refine ⟨by rw [hcount, Nat.succ_mul]; omega, fun k hk => ?_⟩
    have hle : k * tile ≤ size / tile * tile := Nat.mul_le_mul_right tile (by omega)
    omega

/-- Both loops of `sort2D`. -/
theorem sortTiles_delivers (malloc : Nat → Bool) (h : IsRanking le) (input : List α)
    {tile count : Nat} (htile : 0 < tile) (hfit : (input.length : Int) ≤ 2147483647)
    (hcover : input.length ≤ count * tile) (hinside : ∀ k < count, k * tile < input.length) :
    Delivers (OutOfMemory malloc)
      (do
        let arr ← (List.range count).foldlM
          (fun arr (i : Nat) => sortTile malloc le input.length tile arr i) input
        (List.range (count - 1)).foldlM
          (fun arr (i : Nat) => mergeTile malloc le input.length tile arr i) arr)
      (IsStableSort le input) := by
  have hsort : Delivers (OutOfMemory malloc)
      ((List.range count).foldlM
        (fun arr (i : Nat) => sortTile malloc le input.length tile arr i) input)
      (fun arr => ∃ tiles, TilesSorted le input tile count tiles arr) := by
    apply Delivers.range (I := fun k arr => ∃ tiles, TilesSorted le input tile k tiles arr)
    · exact ⟨[], rfl, by simp, by simp, rfl⟩
    · rintro k arr hk ⟨tiles, hs⟩
      exact sortTile_delivers h htile (hinside k hk) hfit hs
  apply hsort.bind
  rintro arr ⟨tiles, hs⟩
  have hmerge : Delivers (OutOfMemory malloc)
      ((List.range (count - 1)).foldlM
        (fun arr (i : Nat) => mergeTile malloc le input.length tile arr i) arr)
      (TilesMerged le input tile (count - 1) tiles) := by
    apply Delivers.range (I := fun k arr => TilesMerged le input tile k tiles arr)
    · have hlayout : arr = tiles.flatten := by
        rw [hs.layout, List.drop_eq_nil_of_le hcover, List.append_nil]
      cases tiles with
      | nil =>
        obtain rfl : count = 0 := hs.count.symm
        obtain rfl : input = [] := by simpa using hcover
        exact ⟨[], by simpa using .nil, hlayout⟩
      | cons t tiles =>
        refine ⟨t, ?_, hlayout⟩
        simpa [tileAt] using hs.sorted 0 t rfl
    · intro k arr hk hmerged
      exact mergeTile_delivers h htile (hinside _ (by omega)) (by omega) hfit hs hmerged
  apply hmerge.mono
  rintro arr ⟨front, hfront, rfl⟩
  have hwhole : input.length ≤ (count - 1 + 1) * tile :=
    hcover.trans (Nat.mul_le_mul_right _ (by omega))
  rw [List.take_of_length_le hwhole] at hfront
  rw [List.drop_eq_nil_of_le (by rw [hs.count]; omega)]
  simpa using hfront

end Tiles

theorem tileCount_ok {size tile : Nat} (htile : 0 < tile) (hfit : (size : Int) ≤ 2147483647) :
    tileCount size tile =
      .ok ((if size % tile = 0 then size / tile else size / tile + 1 : Nat) : Int) := by
  have hdiv := Nat.div_add_mod size tile
  have hle : size / tile ≤ tile * (size / tile) := Nat.le_mul_of_pos_left _ htile
  have hnonneg : 0 ≤ ((size / tile : Nat) : Int) := Int.natCast_nonneg _
  rw [tileCount, div_ok (by omega) (by unfold InRange; omega) (by omega), ok_bind,
    mod_ok (by omega) (by unfold InRange; omega) (by omega), ok_bind]
  by_cases hmod : size % tile = 0
  · rw [if_pos (by exact_mod_cast hmod), if_pos hmod, pure_eq_ok, Int.natCast_ediv]
  · rw [if_neg (by exact_mod_cast hmod), if_neg hmod, ← Int.natCast_ediv,
      add_ok (by unfold InRange; omega)]
    simp

theorem sort2D_delivers (malloc : Nat → Bool) (h : IsRanking le) (arr : List α) {m n tile : Int}
    (hlen : (arr.length : Int) = m * n) (hfit : m * n ≤ 2147483647) (htile : 1 ≤ tile) :
    Delivers (OutOfMemory malloc) (sort2D malloc le arr m n tile) (IsStableSort le arr) := by
  lift tile to Nat using by omega
  obtain ⟨hcover, hinside⟩ := tiles_cover arr.length (show 0 < tile by omega) rfl
  rw [sort2D, mul_ok (by unfold InRange; omega), ← hlen, ok_bind,
    tileCount_ok (by omega) (by omega), ok_bind]
  generalize (if arr.length % tile = 0 then arr.length / tile else arr.length / tile + 1) = count
    at hcover hinside ⊢
  have hcount : count ≤ arr.length := by
    have hlast : count - 1 ≤ (count - 1) * tile := Nat.le_mul_of_pos_right _ (by omega)
    by_cases hzero : count = 0
    · omega
    · have := hinside (count - 1) (by omega)
      omega
  have hloops := sortTiles_delivers malloc h arr (by omega) (by omega) hcover hinside
  rw [sub_ok (by unfold InRange; omega)]
  simpa using hloops

example : (sort2D (fun _ => true) (fun x y : Nat × Nat => x.1 ≤ y.1)
    [(3, 0), (1, 1), (2, 2), (1, 3), (3, 4), (0, 5), (1, 6)] 7 1 3) =
    .ok [(0, 5), (1, 1), (1, 3), (1, 6), (2, 2), (3, 0), (3, 4)] := by decide +kernel

end Bootcamp.MergeSort
