import Bootcamp.Blockchain.Parsing

/-! The sequential readers without their memory. A file grows a tree of accepted blocks,
block by block, and each reader prints a tip of it; what ends a reader early, and where
the readers of two days part, are then questions about trees. -/
namespace Bootcamp

/-- What an accepted block hands on to the blocks that name it. -/
structure KnownBlock where
  length : UInt32
  balances : BalanceMap

/-- The entry under each hash, and hash and length of every accepted block, the newest first. -/
structure BlockTree where
  known : HashResult → Option KnownBlock
  accepted : List (HashResult × UInt32)

namespace BlockTree

def root : BlockTree := ⟨fun _ => none, []⟩

/-- The predecessor of a block, if it names a block that the tree has. -/
def below (t : BlockTree) (b : Body) : Option KnownBlock :=
  if b.prevHash = .zero then none else t.known b.prevHash

/-- The balances on which a block is validated. -/
def balances (t : BlockTree) (b : Body) : BalanceMap := (t.below b).elim ∅ KnownBlock.balances

def length (t : BlockTree) (b : Body) : UInt32 := (t.below b).elim 1 fun e => e.length + 1

def enter (t : BlockTree) (b : Body) (m : BalanceMap) : BlockTree where
  known := Function.update t.known b.blkHash (some ⟨t.length b, m⟩)
  accepted := (b.blkHash, t.length b) :: t.accepted

theorem known_enter (t : BlockTree) (b : Body) (m : BalanceMap) (k : HashResult) :
    (t.enter b m).known k = if k = b.blkHash then some ⟨t.length b, m⟩ else t.known k :=
  Function.update_apply t.known b.blkHash _ k

variable (check : Body → BalanceMap → Except Abort (Bool × BalanceMap))

def grow (t : BlockTree) (b : Body) : Except Abort BlockTree := do
  let (valid, m) ← check b (t.balances b)
  return if valid then t.enter b m else t

/-- A reader that no block can end: what does not validate, for whatever reason, is ignored. -/
def keep (t : BlockTree) (b : Body) : BlockTree :=
  match check b (t.balances b) with
  | .ok (true, m) => t.enter b m
  | _ => t

def ofBlocks (bs : List Body) : BlockTree := bs.foldl (keep check) root

variable {check}

theorem keep_of_invalid {t : BlockTree} {b : Body}
    (h : ¬ ∃ m, check b (t.balances b) = .ok (true, m)) : keep check t b = t := by
  unfold keep
  split
  · rename_i m hm
    exact absurd ⟨m, hm⟩ h
  · rfl

theorem grow_eq_ok {t t' : BlockTree} {b : Body} (h : grow check t b = .ok t') :
    t' = keep check t b := by
  obtain ⟨⟨valid, m⟩, hm, h⟩ := Except.bind_eq_ok.mp h
  obtain rfl := Except.ok.inj h
  cases valid with
  | true => simp [keep, hm]
  | false => simp [keep, hm]

theorem exists_grow_iff {t : BlockTree} {b : Body} :
    (∃ t', grow check t b = .ok t') ↔ ∃ r, check b (t.balances b) = .ok r := by
  constructor
  · rintro ⟨t', h⟩
    obtain ⟨r, hr, -⟩ := Except.bind_eq_ok.mp h
    exact ⟨r, hr⟩
  · rintro ⟨r, hr⟩
    exact ⟨_, by rw [grow, hr]; rfl⟩

/-- A file grows a tree when no block of it makes the validation abort on the balances of its
predecessor. -/
theorem grows_iff (check : Body → BalanceMap → Except Abort (Bool × BalanceMap)) (bs : List Body)
    {t : BlockTree} : bs.foldlM (grow check) root = .ok t ↔
      (∀ pre b post, bs = pre ++ b :: post →
        ∃ r, check b ((ofBlocks check pre).balances b) = .ok r) ∧ t = ofBlocks check bs := by
  rw [Except.foldlM_eq_ok_iff (fun _ _ _ h => grow_eq_ok h)]
  simp only [exists_grow_iff]
  rfl

end BlockTree

/-! ## The readers grow trees -/

namespace Day

/-- Day 4 moves its tip to every accepted block, day 1 only to a longer one. -/
def nextTip : Day → Option (HashResult × UInt32) → HashResult × UInt32 → HashResult × UInt32
  | four, _, x => x
  | one, none, x => x
  | one, some t, x => if t.2 < x.2 then x else t

def tip (day : Day) : List (HashResult × UInt32) → Option (HashResult × UInt32)
  | [] => none
  | x :: earlier => some (day.nextTip (day.tip earlier) x)

end Day

/-- Hash and length of the block at `x`. -/
def Heap.face (heap : Heap) (x : Ptr) : HashResult × UInt32 := ((heap x).blkHash, (heap x).length)

theorem Day.face_nextTip (c : Crypto) (day : Day) (heap : Heap) (tip : Option Ptr) (it : Ptr) :
    heap.face ((day.readchain c).nextTip heap tip it) = day.nextTip (tip.map heap.face) (heap.face it) := by
  cases day with
  | four => rfl
  | one =>
    cases tip with
    | none => rfl
    | some t =>
      simp only [readchain, Day1.readchain, nextTip, Option.map_some, Heap.face]
      split <;> rfl

/-- The tree holds what the reader has kept. -/
structure Day.Represents (c : Crypto) (day : Day) (st : ReadState) (t : BlockTree) : Prop where
  inv : (day.readchain c).Inv st
  known : ∀ h, t.known h =
    (st.bmap.find? h).map fun q => ⟨(st.heap q).length, (st.heap q).balances⟩
  accepted : t.accepted = st.accepted.map st.heap.face
  tip : st.tip.map st.heap.face = day.tip t.accepted

namespace Day.Represents

variable {c : Crypto} {day : Day} {st : ReadState} {t : BlockTree}

theorem start : Represents c day .start .root where
  inv := .start
  known _ := rfl
  accepted := rfl
  tip := rfl

theorem resetBalances_attached (h : Represents c day st t) (b : Body) :
    (Block.attached st.heap st.bmap b).resetBalances st.heap = t.balances b := by
  by_cases hz : b.prevHash = .zero
  · simp [Block.attached, BlockTree.balances, BlockTree.below, hz, Block.resetBalances, Block.new]
  · cases hf : st.bmap.find? b.prevHash with
    | none => simp [Block.attached, BlockTree.balances, BlockTree.below, hz, hf, h.known,
        Block.resetBalances, Block.new]
    | some q => simp [Block.attached, BlockTree.balances, BlockTree.below, hz, hf, h.known,
        Block.resetBalances, Block.setPrevBlock]

theorem length_attached (h : Represents c day st t) (b : Body) :
    (Block.attached st.heap st.bmap b).length = t.length b := by
  by_cases hz : b.prevHash = .zero
  · simp [Block.attached, BlockTree.length, BlockTree.below, hz, Block.new]
  · cases hf : st.bmap.find? b.prevHash with
    | none => simp [Block.attached, BlockTree.length, BlockTree.below, hz, hf, h.known, Block.new]
    | some q => simp [Block.attached, BlockTree.length, BlockTree.below, hz, hf, h.known,
        Block.setPrevBlock]

/-- What the reader kept stays when it allocates its next block. -/
theorem set (h : Represents c day st t) (blk : Block) {x : Ptr} (hx : x ∈ st.accepted) :
    st.heap.set ⟨0, st.i⟩ blk x = st.heap x := by
  apply Heap.set_of_ne
  rintro rfl
  exact absurd (h.inv.fresh _ hx).2 (lt_irrefl _)

theorem known_set (h : Represents c day st t) (blk : Block) (k : HashResult) :
    t.known k = (st.bmap.find? k).map fun q =>
      ⟨(st.heap.set ⟨0, st.i⟩ blk q).length, (st.heap.set ⟨0, st.i⟩ blk q).balances⟩ := by
  rw [h.known]
  cases hf : st.bmap.find? k with
  | none => rfl
  | some q => simp only [Option.map_some, h.set blk (h.inv.keyed k q hf).1]

theorem accepted_set (h : Represents c day st t) (blk : Block) :
    t.accepted = st.accepted.map (st.heap.set ⟨0, st.i⟩ blk).face := by
  rw [h.accepted]
  apply List.map_congr_left
  intro x hx
  simp only [Heap.face, h.set blk hx]

theorem tip_set (h : Represents c day st t) (blk : Block) :
    st.tip.map (st.heap.set ⟨0, st.i⟩ blk).face = day.tip t.accepted := by
  rw [← h.tip]
  cases htip : st.tip with
  | none => rfl
  | some x => simp only [Option.map_some, Heap.face, h.set blk (h.inv.tip x htip)]

/-- One block takes reader and tree on alike. -/
theorem step (h : Represents c day st t) (b : Body) :
    Except.Related (Represents c day) ((day.readchain c).reader.step st b)
      (t.grow (day.readchain c).check b) := by
  have hreset := h.resetBalances_attached b
  have hstep : (day.readchain c).reader.step st b =
      (day.readchain c).visit st b.size (Block.attached st.heap st.bmap b) := by
    simp only [Reader.step, Block.attach_eq, Except.ok_bind]
    rfl
  rw [hstep, BlockTree.grow]
  cases hcheck : (day.readchain c).check b (t.balances b) with
  | error e =>
    have hvisit : (day.readchain c).visit st b.size (Block.attached st.heap st.bmap b) = .error e := by
      simp only [Readchain.visit, Block.validateBy, Block.attached_toBody, hreset, hcheck,
        Except.error_bind]
    rw [hvisit]
    exact .error e
  | ok r =>
    obtain ⟨valid, m⟩ := r
    obtain ⟨st', hvisit⟩ : ∃ st', (day.readchain c).visit st b.size
        (Block.attached st.heap st.bmap b) = .ok st' := by
      simp only [Readchain.visit, Block.validateBy, Block.attached_toBody, hreset, hcheck,
        Except.ok_bind, Except.pure_eq_ok]
      split <;> exact ⟨_, rfl⟩
    rw [hvisit]
    refine .ok ?_
    obtain ⟨valid', m', hm, hheap, -, hcases⟩ := Readchain.visit_eq_ok (n := b.size) hvisit
    rw [Block.attached_toBody, hreset, hcheck] at hm
    obtain ⟨rfl, rfl⟩ := Prod.mk.inj (Except.ok.inj hm)
    cases hcases with
    | inl hvalid =>
      obtain ⟨rfl, hbmap, htip, hacc⟩ := hvalid
      have hface : st'.heap.face ⟨0, st.i⟩ = (b.blkHash, t.length b) := by
        rw [hheap, Heap.face, Heap.set_self]
        exact congrArg₂ Prod.mk (by rw [Block.attached_toBody]) (h.length_attached b)
      refine ⟨h.inv.visit (n := b.size) hvisit, fun k => ?_, ?_, ?_⟩
      · rw [if_pos rfl, BlockTree.known_enter, hbmap, Block.attached_toBody,
          OrderedMap.find_insert, hheap]
        split_ifs
        · rw [Option.map_some, Heap.set_self, h.length_attached]
        · exact h.known_set _ k
      · rw [if_pos rfl, BlockTree.enter, hacc, List.map_cons, hface, hheap, h.accepted_set]
      · rw [if_pos rfl, BlockTree.enter, htip, Option.map_some, day.face_nextTip, hface, hheap,
          h.tip_set]
        rfl
    | inr hinvalid =>
      obtain ⟨rfl, hbmap, htip, hacc⟩ := hinvalid
      refine ⟨h.inv.visit (n := b.size) hvisit, fun k => ?_, ?_, ?_⟩
      · rw [hbmap, hheap]
        exact h.known_set _ k
      · rw [hacc, hheap]
        exact h.accepted_set _
      · rw [htip, hheap]
        exact h.tip_set _

end Day.Represents

/-- The line for a tip. -/
def Line.ofTip : Option (HashResult × UInt32) → Line
  | some t => .blk t.1 t.2
  | none => .invalid

theorem Line.ofTip_inj {t t' : Option (HashResult × UInt32)} (h : ofTip t = ofTip t') : t = t' := by
  cases t with
  | none =>
    cases t' with
    | none => rfl
    | some t' => cases h
  | some t =>
    cases t' with
    | none => cases h
    | some t' =>
      obtain ⟨hhash, hlen⟩ := Line.blk.inj h
      rw [Prod.ext hhash hlen]

/-- A reader grows the tree of its file and prints its tip, or aborts as the growth does. -/
theorem Day.main_eq (c : Crypto) (day : Day) (data : Bytes) :
    (day.readchain c).main data =
      ((fileBlocks data).foldlM (BlockTree.grow (day.readchain c).check) .root).map
        fun t => .ofTip (day.tip t.accepted) := by
  rw [Readchain.main, Reader.run_file]
  have hrel := Except.foldlM_related (fun _ _ b h => Represents.step h b) (fileBlocks data)
    (Represents.start : Represents c day .start .root)
  generalize (fileBlocks data).foldlM (day.readchain c).reader.step .start = r,
    (fileBlocks data).foldlM (BlockTree.grow (day.readchain c).check) .root = r' at hrel ⊢
  cases hrel with
  | error e => rfl
  | @ok st t h =>
    rw [Except.ok_bind, Except.map, ← h.tip]
    cases st.tip with
    | none => rfl
    | some x => rfl

/-- So it prints a line when no block of the file makes its validation abort. -/
theorem Day.main_eq_ok {c : Crypto} {day : Day} {data : Bytes} {line : Line} :
    (day.readchain c).main data = .ok line ↔
      (∀ pre b post, fileBlocks data = pre ++ b :: post →
        ∃ r, (day.readchain c).check b
          ((BlockTree.ofBlocks (day.readchain c).check pre).balances b) = .ok r) ∧
        line = .ofTip (day.tip (BlockTree.ofBlocks (day.readchain c).check (fileBlocks data)).accepted) := by
  rw [main_eq]
  constructor
  · intro h
    cases ht : (fileBlocks data).foldlM (BlockTree.grow (day.readchain c).check) .root with
    | error e =>
      rw [ht] at h
      cases h
    | ok t =>
      rw [ht] at h
      obtain ⟨hall, rfl⟩ := (BlockTree.grows_iff _ _).mp ht
      exact ⟨hall, (Except.ok.inj h).symm⟩
  · rintro ⟨hall, rfl⟩
    rw [(BlockTree.grows_iff _ _).mpr ⟨hall, rfl⟩]
    rfl

/-! ## A linear chain -/

namespace BlockTree

/-- The next block that names `h` is validated on the balances `m` and is block `n + 1`. -/
def EndsAt (t : BlockTree) (h : HashResult) (m : BalanceMap) (n : UInt32) : Prop :=
  (h = .zero ∧ m = ∅ ∧ n = 0) ∨ (h ≠ .zero ∧ t.known h = some ⟨n, m⟩)

theorem EndsAt.below {t : BlockTree} {b : Body} {m : BalanceMap} {n : UInt32}
    (h : t.EndsAt b.prevHash m n) : t.balances b = m ∧ t.length b = n + 1 := by
  cases h with
  | inl h =>
    obtain ⟨hz, rfl, rfl⟩ := h
    simp [balances, length, BlockTree.below, hz]
  | inr h => simp [balances, length, BlockTree.below, h.1, h.2]

/-- The blocks of a linear chain enter a tree one on top of the other. -/
theorem grow_linear {c : Crypto} {bs : List Body} {t : BlockTree} {h : HashResult}
    {m m' : BalanceMap} {n : UInt32} (ht : t.EndsAt h m n) (hl : Body.Linked h bs)
    (hz : ∀ b ∈ bs, b.blkHash ≠ .zero) (hv : Body.acceptAll c m bs = some m') :
    ∃ t', bs.foldlM (grow (Body.validate c)) t = .ok t' ∧ (bs ≠ [] →
      t'.accepted.head? = some (Body.endHash h bs, n + UInt32.ofNat bs.length)) := by
  induction bs generalizing t h m n with
  | nil => exact ⟨t, rfl, fun hne => absurd rfl hne⟩
  | cons b bs ih =>
    obtain ⟨rfl, hl⟩ := hl
    obtain ⟨hb, hbs⟩ := List.forall_mem_cons.mp hz
    obtain ⟨m₁, hv₁, hv⟩ := Body.acceptAll_cons_eq_some.mp hv
    obtain ⟨hbalances, hlength⟩ := ht.below
    have hgrow : grow (Body.validate c) t b = .ok (t.enter b m₁) := by
      rw [grow, hbalances, Body.accept_eq_some.mp hv₁]
      rfl
    have hends : (t.enter b m₁).EndsAt b.blkHash m₁ (n + 1) := by
      refine .inr ⟨hb, ?_⟩
      rw [known_enter, if_pos rfl, hlength]
    obtain ⟨t', hsteps, hhead⟩ := ih hends hl hbs hv
    refine ⟨t', by rw [List.foldlM_cons, hgrow]; exact hsteps, fun _ => ?_⟩
    cases bs with
    | nil =>
      obtain rfl := Except.ok.inj hsteps
      rw [enter, hlength]
      rfl
    | cons b' bs =>
      have hcount : 1 + UInt32.ofNat (b' :: bs).length = UInt32.ofNat (b :: b' :: bs).length := by
        rw [UInt32.add_comm, List.length_cons (a := b), UInt32.ofNat_add]
        rfl
      rw [hhead (List.cons_ne_nil _ _), UInt32.add_assoc, hcount]
      rfl

end BlockTree

/-- Day 4 prints the last block of a linear chain, and how many there are. -/
theorem Day4.main_linear {c : Crypto} {bs : List Body} {m : BalanceMap}
    (hw : ∀ b ∈ bs, b.Readable) (hl : Body.Linked .zero bs) (hz : ∀ b ∈ bs, b.blkHash ≠ .zero)
    (hv : Body.acceptAll c ∅ bs = some m) (hne : bs ≠ []) :
    (readchain c).main (bs.flatMap Body.encoding) =
      .ok (.blk (Body.endHash .zero bs) (UInt32.ofNat bs.length)) := by
  obtain ⟨t, hgrow, hhead⟩ := BlockTree.grow_linear (t := .root) (n := 0)
    (.inl ⟨rfl, rfl, rfl⟩) hl hz hv
  have hmain := Day.main_eq c .four (bs.flatMap Body.encoding)
  rw [fileBlocks_encodings hw] at hmain
  have hgrow' : bs.foldlM (BlockTree.grow (Day.four.readchain c).check) .root = .ok t := hgrow
  rw [hgrow'] at hmain
  have hhead := hhead hne
  rw [UInt32.zero_add] at hhead
  rw [show (readchain c).main (bs.flatMap Body.encoding) = _ from hmain]
  cases hacc : t.accepted with
  | nil =>
    rw [hacc] at hhead
    cases hhead
  | cons x earlier =>
    rw [hacc] at hhead
    obtain rfl := Option.some.inj hhead
    rw [Except.map, hacc]
    rfl

end Bootcamp
