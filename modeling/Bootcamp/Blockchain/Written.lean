import Bootcamp.Blockchain.Rewriting

/-! What `rewritechain` puts into the indexed file, whether or not it comes to its end, and
when all of it has been validated. -/
namespace Bootcamp

open Chains (Chain)

namespace Rewritechain

/-! ## The writes -/

/-- A block, or the balances behind a block. -/
inductive Written
  | block (x : Ptr)
  | map (x : Ptr)

def Written.bytes (heap : Heap) : Written → Bytes
  | block x => (heap x).encoding
  | map x => writeBalanceMap (heap x).balances

/-- What `writeBlocks` has put out when it comes to its end or an assertion fails. -/
def writtenBlocks (ends : List UInt32) (heap : Heap) (chunks : UInt32) (mapStarts : List UInt64) :
    Nat → Nat → List Ptr → Bytes → List Written
  | _, _, [], _ => []
  | i, j, x :: xs, out =>
    match (heap x).write with
    | .error _ => []
    | .ok bs =>
      let out := out ++ bs
      .block x ::
        if UInt32.ofNat i ∈ ends then
          if j < chunks.toNat ∧ mapStarts[j]? = some (.ofNat out.length) then
            .map x :: writtenBlocks ends heap chunks mapStarts (i + 1) (j + 1) xs
              (out ++ writeBalanceMap (heap x).balances)
          else []
        else writtenBlocks ends heap chunks mapStarts (i + 1) j xs out

/-- `rewrite_chain` up to the opening of the file: the blocks in order and the offsets. -/
def prepare (heap : Heap) (objects : Nat) (tip : Option Ptr) (chunks : UInt32) :
    Except Abort (List Ptr × List Offsets) := do
  if ¬ 1 < chunks then throw .assertion
  match tip with
  | none => throw .nullPointer
  | some tip =>
    let (nextMap, head) ← trackBack heap objects (heap tip).prevBlock tip (OrderedMap.insert ∅ tip none)
    if nextMap.size ≠ (heap tip).length.toNat then throw .assertion
    let blocks ← collect nextMap objects (some head)
    if blocks.length ≠ (heap tip).length.toNat then throw .assertion
    let filePos : UInt64 := 4 + (3 * chunks).toUInt64 * 8
    let offsets := predict (chunkEnds blocks.length chunks) heap 0 blocks filePos filePos
    if offsets.length ≠ chunks.toNat then throw .assertion
    return (blocks, offsets)

def header (chunks : UInt32) (offsets : List Offsets) : Bytes :=
  writeHeader chunks (offsets.map Offsets.chunkStart) (offsets.map Offsets.mapStart)
    (offsets.map Offsets.mapSize)

/-- What `rewrite_chain` puts out behind the header. -/
def written (heap : Heap) (objects : Nat) (tip : Option Ptr) (chunks : UInt32) : List Written :=
  match prepare heap objects tip chunks with
  | .error _ => []
  | .ok (blocks, offsets) =>
    writtenBlocks (chunkEnds blocks.length chunks) heap chunks (offsets.map Offsets.mapStart) 0 0
      blocks (header chunks offsets)

theorem rewriteChain_prepare (heap : Heap) (objects : Nat) (tip : Option Ptr) (chunks : UInt32) :
    rewriteChain heap objects tip chunks = prepare heap objects tip chunks >>= fun p =>
      writeBlocks (chunkEnds p.1.length chunks) heap chunks (p.2.map Offsets.mapStart) 0 0 p.1
        (header chunks p.2) := by
  unfold rewriteChain prepare
  by_cases h1 : 1 < chunks
  · cases tip with
    | none => simp [h1]
    | some t =>
      simp only [h1, not_true_eq_false, if_false]
      cases trackBack heap objects (heap t).prevBlock t (OrderedMap.insert ∅ t none) with
      | error e => rfl
      | ok p =>
        simp only [Except.ok_bind]
        by_cases hsize : p.1.size ≠ (heap t).length.toNat
        · simp [hsize]
        · cases collect p.1 objects (some p.2) with
          | error e => simp [hsize]
          | ok blocks =>
            simp only [hsize, if_false, Except.ok_bind]
            split_ifs <;> rfl
  · simp [h1]

theorem writeBlocks_written {ends : List UInt32} {heap : Heap} {chunks : UInt32}
    {mapStarts : List UInt64} {i j : Nat} {xs : List Ptr} {out file : Bytes}
    (h : writeBlocks ends heap chunks mapStarts i j xs out = .ok file) :
    file = out ++ (writtenBlocks ends heap chunks mapStarts i j xs out).flatMap (Written.bytes heap) := by
  induction xs generalizing i j out with
  | nil =>
    obtain rfl := Except.ok.inj h
    simp [writtenBlocks]
  | cons x xs ih =>
    obtain ⟨bs, hbs, h⟩ := Except.bind_eq_ok.mp h
    obtain rfl : bs = (heap x).encoding := (Body.write_eq_ok.mp hbs).2
    simp only [writtenBlocks, hbs]
    by_cases hi : UInt32.ofNat i ∈ ends
    · by_cases hj : j < chunks.toNat
      · by_cases hstart : mapStarts[j]? = some (.ofNat (out ++ (heap x).encoding).length)
        · simp only [hi, hj, hstart, ne_eq, not_true_eq_false, if_false, if_true, and_self] at h ⊢
          rw [ih h]
          simp [Written.bytes]
        · simp only [hi, hj, hstart, ne_eq, not_true_eq_false, not_false_eq_true, if_false,
            if_true] at h
          cases h
      · simp only [hi, hj, not_false_eq_true, if_true] at h
        cases h
    · simp only [hi, if_false] at h ⊢
      rw [ih h]
      simp [Written.bytes]

/-- When `rewrite_chain` comes to its end the file is the header and all that was put out. -/
theorem rewriteChain_written {heap : Heap} {objects : Nat} {tip : Option Ptr} {chunks : UInt32}
    {file : Bytes} (h : rewriteChain heap objects tip chunks = .ok file) : ∃ offsets,
      file = header chunks offsets ++
        (written heap objects tip chunks).flatMap (Written.bytes heap) := by
  rw [rewriteChain_prepare] at h
  obtain ⟨⟨blocks, offsets⟩, hp, h⟩ := Except.bind_eq_ok.mp h
  refine ⟨offsets, ?_⟩
  rw [written, hp]
  exact writeBlocks_written h

/-! ## Which writes are made -/

section

variable {ends : List UInt32} {heap : Heap} {chunks : UInt32} {mapStarts : List UInt64}

/-- Blocks are put out up to the first that `write` cannot encode, and the balances behind
each that ends a chunk. -/
def traced (ends : List UInt32) (heap : Heap) : Nat → List Ptr → List Written
  | _, [] => []
  | i, x :: xs =>
    if (heap x).Writable then
      .block x :: ((if UInt32.ofNat i ∈ ends then [.map x] else []) ++ traced ends heap (i + 1) xs)
    else []

theorem write_error {b : Body} (h : ¬ b.Writable) : ∃ e, b.write = .error e := by
  cases hw : b.write with
  | error e => exact ⟨e, rfl⟩
  | ok bs => exact absurd (Body.write_eq_ok.mp hw).1 h

/-- Where the first pass predicted from the right place no assertion fails. -/
theorem writtenBlocks_eq {i j : Nat} {xs : List Ptr} (hlen : mapStarts.length = chunks.toNat)
    (out : Bytes) {prevEnd : UInt64}
    (hstarts : mapStarts.drop j =
      (predict ends heap i xs (.ofNat out.length) prevEnd).map Offsets.mapStart) :
    writtenBlocks ends heap chunks mapStarts i j xs out = traced ends heap i xs := by
  induction xs generalizing i j out prevEnd with
  | nil => rfl
  | cons x xs ih =>
    by_cases hx : (heap x).Writable
    · have hout : (out ++ (heap x).encoding).length = out.length + (heap x).size := by simp
      simp only [writtenBlocks, Body.write_eq_ok.mpr ⟨hx, rfl⟩, traced, hx, if_true]
      by_cases hi : UInt32.ofNat i ∈ ends
      · simp only [predict, hi, if_true, List.map_cons, ← UInt64.ofNat_add] at hstarts
        have hget : mapStarts[j]? = some (.ofNat (out ++ (heap x).encoding).length) := by
          rw [hout, ← List.head?_drop, hstarts]
          rfl
        have hj : j < chunks.toNat := hlen ▸ (List.getElem?_eq_some_iff.mp hget).1
        have htail : mapStarts.drop (j + 1) = (predict ends heap (i + 1) xs
            (.ofNat (out ++ (heap x).encoding ++ writeBalanceMap (heap x).balances).length)
            (.ofNat (out.length + (heap x).size + balanceMapSize (heap x).balances))).map
              Offsets.mapStart := by
          rw [List.length_append, hout, length_writeBalanceMap, ← List.tail_drop, hstarts]
          rfl
        simp only [hi, hj, hget, and_self, if_true, ih _ htail, List.singleton_append]
      · simp only [predict, hi, if_false, ← UInt64.ofNat_add] at hstarts
        have htail : mapStarts.drop j = (predict ends heap (i + 1) xs
            (.ofNat (out ++ (heap x).encoding).length) prevEnd).map Offsets.mapStart := by
          rw [hout, hstarts]
        simp only [hi, if_false, ih _ htail, List.nil_append]
    · obtain ⟨e, he⟩ := write_error hx
      simp only [writtenBlocks, he, traced, hx, if_false]

/-- Where it predicted from elsewhere the first map is never put out. -/
theorem writtenBlocks_wrapped {i j e : Nat} {xs : List Ptr} (out : Bytes) {filePos prevEnd : UInt64}
    (hwrap : filePos ≠ .ofNat out.length)
    (hstarts : mapStarts.drop j = (predict ends heap i xs filePos prevEnd).map Offsets.mapStart)
    (he : e < xs.length) (hend : UInt32.ofNat (i + e) ∈ ends)
    (hfirst : ∀ k < e, UInt32.ofNat (i + k) ∉ ends) :
    writtenBlocks ends heap chunks mapStarts i j xs out =
      ((xs.take (e + 1)).takeWhile fun x => decide (heap x).Writable).map .block := by
  induction xs generalizing i e out filePos with
  | nil => cases he
  | cons x xs ih =>
    by_cases hx : (heap x).Writable
    · have hout : (out ++ (heap x).encoding).length = out.length + (heap x).size := by simp
      have hwrap' : filePos + .ofNat (heap x).size ≠ .ofNat (out ++ (heap x).encoding).length := by
        rw [hout, UInt64.ofNat_add]
        exact fun heq => hwrap ((UInt64.add_left_inj _).mp heq)
      simp only [writtenBlocks, Body.write_eq_ok.mpr ⟨hx, rfl⟩, List.take_succ_cons,
        List.takeWhile_cons, hx, decide_true, if_true, List.map_cons]
      cases e with
      | zero =>
        rw [Nat.add_zero] at hend
        simp only [predict, hend, if_true, List.map_cons] at hstarts
        have hget : mapStarts[j]? = some (filePos + .ofNat (heap x).size) := by
          rw [← List.head?_drop, hstarts]
          rfl
        have hne : ¬ (j < chunks.toNat ∧
            mapStarts[j]? = some (.ofNat (out ++ (heap x).encoding).length)) := by
          rw [hget]
          exact fun h => hwrap' (Option.some.inj h.2)
        simp only [hend, if_true, if_neg hne, List.take_zero, List.takeWhile_nil, List.map_nil]
      | succ e =>
        have hi : UInt32.ofNat i ∉ ends := by simpa using hfirst 0 (Nat.succ_pos e)
        simp only [predict, hi, if_false] at hstarts
        have hend' : UInt32.ofNat (i + 1 + e) ∈ ends := by rwa [Nat.add_assoc, Nat.add_comm 1]
        have hfirst' : ∀ k < e, UInt32.ofNat (i + 1 + k) ∉ ends := by
          intro k hk
          rw [Nat.add_assoc, Nat.add_comm 1]
          exact hfirst (k + 1) (Nat.succ_lt_succ hk)
        rw [if_neg hi, ih _ hwrap' hstarts (Nat.lt_of_succ_lt_succ he) hend' hfirst']
    · obtain ⟨err, herr⟩ := write_error hx
      simp only [writtenBlocks, herr, List.take_succ_cons, List.takeWhile_cons, hx, decide_false,
        Bool.false_eq_true, if_false, List.map_nil]

theorem block_mem_traced {i : Nat} {xs : List Ptr} {x : Ptr} :
    .block x ∈ traced ends heap i xs ↔ x ∈ xs.takeWhile fun x => decide (heap x).Writable := by
  induction xs generalizing i with
  | nil => simp [traced]
  | cons y xs ih =>
    by_cases hy : (heap y).Writable
    · simp only [traced, hy, if_true, List.takeWhile_cons, decide_true, List.mem_cons,
        List.mem_append, ih]
      split_ifs <;> simp
    · simp [traced, hy]

theorem map_mem_traced {i : Nat} {xs : List Ptr} {x : Ptr} :
    .map x ∈ traced ends heap i xs ↔ ∃ pre post,
      (xs.takeWhile fun x => decide (heap x).Writable) = pre ++ x :: post ∧
        UInt32.ofNat (i + pre.length) ∈ ends := by
  induction xs generalizing i with
  | nil => simp [traced]
  | cons y xs ih =>
    by_cases hy : (heap y).Writable
    · have hhead : .map x ∈ (if UInt32.ofNat i ∈ ends then [Written.map y] else []) ↔
          x = y ∧ UInt32.ofNat i ∈ ends := by
        split_ifs with hi <;> simp [hi]
      simp only [traced, hy, if_true, List.takeWhile_cons, decide_true, List.mem_cons,
        List.mem_append, ih, hhead, reduceCtorEq, false_or]
      constructor
      · rintro (⟨rfl, hi⟩ | ⟨pre, post, hsplit, hend⟩)
        · exact ⟨[], _, rfl, hi⟩
        · refine ⟨y :: pre, post, by rw [hsplit]; rfl, ?_⟩
          rwa [List.length_cons, ← Nat.add_assoc, Nat.add_right_comm]
      · rintro ⟨pre, post, hsplit, hend⟩
        cases pre with
        | nil => exact .inl ⟨(List.cons.inj hsplit).1.symm, hend⟩
        | cons z pre =>
          refine .inr ⟨pre, post, (List.cons.inj hsplit).2, ?_⟩
          rwa [List.length_cons, ← Nat.add_assoc, Nat.add_right_comm] at hend
    · simp [traced, hy]

end

/-! ## The whole function -/

theorem length_predict {ends : List UInt32} (heap : Heap) {i : Nat} {bs : List Ptr}
    {gs : List (List Ptr)} (h : Layout.Split (fun i => UInt32.ofNat i ∈ ends) i bs gs)
    (filePos prevEnd : UInt64) : (predict ends heap i bs filePos prevEnd).length = gs.length := by
  induction h generalizing filePos prevEnd with
  | nil => rfl
  | close hi _ ih => simp only [predict, hi, if_true, List.length_cons, ih]
  | extend hi _ ih => simp only [predict, hi, if_false, ih, List.length_cons]

section

variable {heap : Heap} {objects : Nat} {t : Ptr} {l : List Ptr} {chunks : UInt32}

/-- A chain whose length its tip knows passes the assertions in front of the file. -/
theorem prepare_eq (hl : Chain heap.prev t l) (hobj : l.length ≤ objects)
    (hlen : (heap t).length.toNat = l.length) (h2 : 2 ≤ chunks.toNat)
    (hk : chunks.toNat ≤ l.length) : ∃ offsets, offsets.length = chunks.toNat ∧
      offsets = predict (chunkEnds l.length chunks) heap 0 l.reverse
        (4 + (3 * chunks).toUInt64 * 8) (4 + (3 * chunks).toUInt64 * 8) ∧
      prepare heap objects (some t) chunks = .ok (l.reverse, offsets) := by
  obtain ⟨m, head, htrack, hsize, hcollect⟩ := track_and_collect hl hobj
  have hone : ¬ ¬ 1 < chunks := by
    rw [not_not, UInt32.lt_iff_toNat_lt]
    exact h2
  have hn : l.reverse.length < 2 ^ 32 := by
    rw [List.length_reverse, ← hlen]
    exact (heap t).length.toNat_lt
  obtain ⟨gs, hsplit, hgs⟩ := exists_chunks h2 (by rwa [List.length_reverse]) hn
  rw [List.length_reverse] at hsplit
  have hoffsets : (predict (chunkEnds l.length chunks) heap 0 l.reverse
      (4 + (3 * chunks).toUInt64 * 8) (4 + (3 * chunks).toUInt64 * 8)).length = chunks.toNat := by
    rw [length_predict heap hsplit, hgs]
  refine ⟨_, hoffsets, rfl, ?_⟩
  rw [prepare, if_neg hone]
  simp only [htrack, hsize, hlen, hcollect, List.length_reverse, ne_eq, not_true_eq_false, if_false,
    Except.ok_bind, hoffsets, Except.pure_eq_ok]

/-- One that has outgrown the 32 bits does not. -/
theorem written_overgrown (hl : Chain heap.prev t l) (hobj : l.length ≤ objects)
    (hlen : (heap t).length.toNat ≠ l.length) : written heap objects (some t) chunks = [] := by
  obtain ⟨m, head, htrack, hsize, -⟩ := track_and_collect hl hobj
  have hprepare : ∃ e, prepare heap objects (some t) chunks = .error e := by
    unfold prepare
    by_cases h1 : 1 < chunks
    · simp only [h1, not_true_eq_false, if_false, htrack, Except.ok_bind, hsize, ne_eq, hlen.symm,
        not_false_eq_true, if_true]
      exact ⟨_, rfl⟩
    · simp only [h1, not_false_eq_true, if_true]
      exact ⟨_, rfl⟩
  obtain ⟨e, he⟩ := hprepare
  rw [written, he]

/-- Where `3 * chunks` leaves its 32 bits the first pass begins in the wrong place. -/
theorem filePos_ne (h : 2 ^ 32 ≤ 3 * chunks.toNat) :
    (4 + (3 * chunks).toUInt64 * 8 : UInt64) ≠ .ofNat (4 + 24 * chunks.toNat) := by
  intro heq
  have hlt := chunks.toNat_lt
  have hmul : (3 * chunks).toNat = 3 * chunks.toNat % 2 ^ 32 := by
    rw [UInt32.toNat_mul]
    rfl
  have heq := congrArg UInt64.toNat heq
  rw [UInt64.toNat_ofNat_of_lt' (by simp only [UInt64.size]; omega), UInt64.toNat_add,
    UInt64.toNat_mul, UInt32.toNat_toUInt64, hmul, show (4 : UInt64).toNat = 4 from rfl,
    show (8 : UInt64).toNat = 8 from rfl] at heq
  have hmod : 3 * chunks.toNat % 2 ^ 32 < 2 ^ 32 := Nat.mod_lt _ (by decide)
  rw [Nat.mod_eq_of_lt (show 3 * chunks.toNat % 2 ^ 32 * 8 < 2 ^ 64 by omega),
    Nat.mod_eq_of_lt (by omega)] at heq
  omega

theorem written_eq (hl : Chain heap.prev t l) (hobj : l.length ≤ objects)
    (hlen : (heap t).length.toNat = l.length) (h2 : 2 ≤ chunks.toNat)
    (hk : chunks.toNat ≤ l.length) (h3 : 3 * chunks.toNat < 2 ^ 32) :
    written heap objects (some t) chunks = traced (chunkEnds l.length chunks) heap 0 l.reverse := by
  obtain ⟨offsets, hoffsets, hpredict, hprepare⟩ := prepare_eq hl hobj hlen h2 hk
  have hheader : (header chunks offsets).length = 4 + 24 * chunks.toNat :=
    length_writeHeader (by simpa) (by simpa) (by simpa)
  have hstarts : (offsets.map Offsets.mapStart).drop 0 =
      (predict (chunkEnds l.length chunks) heap 0 l.reverse (.ofNat (header chunks offsets).length)
        (4 + (3 * chunks).toUInt64 * 8)).map Offsets.mapStart := by
    rw [List.drop_zero, hheader, ← filePos_eq h3, ← hpredict]
  simp only [written, hprepare, List.length_reverse]
  exact writtenBlocks_eq (by simpa using hoffsets) (header chunks offsets) hstarts

theorem written_wrapped (hl : Chain heap.prev t l) (hobj : l.length ≤ objects)
    (hlen : (heap t).length.toNat = l.length) (h2 : 2 ≤ chunks.toNat)
    (hk : chunks.toNat ≤ l.length) (h3 : ¬ 3 * chunks.toNat < 2 ^ 32) :
    written heap objects (some t) chunks =
      ((l.reverse.take (l.length / chunks.toNat)).takeWhile
        fun x => decide (heap x).Writable).map .block := by
  obtain ⟨offsets, hoffsets, hpredict, hprepare⟩ := prepare_eq hl hobj hlen h2 hk
  have hheader : (header chunks offsets).length = 4 + 24 * chunks.toNat :=
    length_writeHeader (by simpa) (by simpa) (by simpa)
  have hn : l.length < 2 ^ 32 := by
    rw [← hlen]
    exact (heap t).length.toNat_lt
  have hq : 1 ≤ l.length / chunks.toNat := (Nat.one_le_div_iff (by omega)).mpr hk
  have hfirst : endOf l.length chunks.toNat 0 = l.length / chunks.toNat - 1 := by
    rw [endOf, if_neg (by omega), Nat.zero_add, Nat.mul_one]
  have hlt : endOf l.length chunks.toNat 0 < l.length := endOf_lt h2 hk (by omega)
  simp only [written, hprepare, List.length_reverse]
  rw [show l.length / chunks.toNat = endOf l.length chunks.toNat 0 + 1 by omega]
  refine writtenBlocks_wrapped (header chunks offsets) (by rw [hheader]; exact filePos_ne (by omega))
    (by rw [List.drop_zero, ← hpredict]) (by rwa [List.length_reverse]) ?_ ?_
  · rw [Nat.zero_add]
    exact (mem_chunkEnds h2 hk hn hlt).mpr ⟨0, by omega, rfl⟩
  · intro k hk' hmem
    rw [Nat.zero_add] at hmem
    obtain ⟨j, hj, rfl⟩ := (mem_chunkEnds h2 hk hn (by omega)).mp hmem
    cases j with
    | zero => exact absurd hk' (lt_irrefl _)
    | succ j =>
      have hlater := endOf_strictMono h2 hk (show 0 < j + 1 by omega) hj
      omega

end

end Rewritechain

end Bootcamp
