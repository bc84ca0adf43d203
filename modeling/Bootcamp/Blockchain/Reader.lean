import Bootcamp.Blockchain.Codec
import Bootcamp.Lib.Loop

/-! The loop with which every program reads blocks from memory. `block_t::read`
takes a block off the front, the program visits it, and the pointer moves on by
what was read. The programs differ in what they keep and in the visit. -/
namespace Bootcamp

namespace Block

/-- The block that `read` leaves, with its predecessor if it knows one. -/
def attached (heap : Heap) (bmap : BlockMap) (b : Body) : Block :=
  let blk : Block := { Block.new with toBody := b }
  if b.prevHash = .zero then blk
  else
    match bmap.find? b.prevHash with
    | some p => blk.setPrevBlock heap p
    | none => blk

theorem attach_eq (heap : Heap) (bmap : BlockMap) (b : Body) :
    attach heap bmap b = .ok (attached heap bmap b) := by
  by_cases hz : b.prevHash = .zero
  · simp [attach, attached, isCoinbase, Block.new, hz]
  · simp only [attach, attached, isCoinbase, ne_eq, hz, not_false_eq_true, if_true,
      Except.ok_bind, if_false, Bool.false_eq_true, Except.pure_eq_ok]
    cases bmap.find? b.prevHash <;> rfl

@[simp] theorem attached_toBody (heap : Heap) (bmap : BlockMap) (b : Body) :
    (attached heap bmap b).toBody = b := by
  unfold attached
  split
  · rfl
  · split <;> rfl

/-- Where the predecessor of a block just read comes from. -/
theorem attached_cases (heap : Heap) (bmap : BlockMap) (b : Body) :
    ((attached heap bmap b).prevBlock = none ∧ (attached heap bmap b).length = 1 ∧
      (b.prevHash = .zero ∨ bmap.find? b.prevHash = none)) ∨
    ∃ q, (attached heap bmap b).prevBlock = some q ∧ b.prevHash ≠ .zero ∧
      bmap.find? b.prevHash = some q ∧ (attached heap bmap b).length = (heap q).length + 1 := by
  by_cases hz : b.prevHash = .zero
  · exact .inl ⟨by simp [attached, hz, Block.new], by simp [attached, hz, Block.new], .inl hz⟩
  · cases hf : bmap.find? b.prevHash with
    | none => exact .inl ⟨by simp [attached, hz, hf, Block.new],
        by simp [attached, hz, hf, Block.new], .inr rfl⟩
    | some q => exact .inr ⟨q, by simp [attached, hz, hf, setPrevBlock], hz, rfl,
        by simp [attached, hz, hf, setPrevBlock]⟩

theorem validateBy_eq_ok {check : Body → BalanceMap → Except Abort (Bool × BalanceMap)}
    {heap : Heap} {blk blk' : Block} {valid : Bool} :
    blk.validateBy check heap = .ok (valid, blk') ↔
      ∃ m, check blk.toBody (blk.resetBalances heap) = .ok (valid, m) ∧
        blk' = { blk with balances := m } := by
  unfold validateBy
  constructor
  · intro h
    obtain ⟨⟨v, m⟩, hm, h⟩ := Except.bind_eq_ok.mp h
    simp only [Except.pure_eq_ok, Except.ok.injEq, Prod.mk.injEq] at h
    obtain ⟨rfl, rfl⟩ := h
    exact ⟨m, hm, rfl⟩
  · rintro ⟨m, hm, rfl⟩
    simp [hm]

theorem read_eq_some {data : Bytes} {blkSz n : Nat} {heap : Heap} {bmap : BlockMap} {blk : Block} :
    Block.read data blkSz heap bmap = .ok (some (n, blk)) ↔
      ∃ b, Body.read data blkSz = .ok (some (n, b)) ∧ blk = attached heap bmap b := by
  unfold Block.read
  constructor
  · intro h
    obtain ⟨r, hr, h⟩ := Except.bind_eq_ok.mp h
    cases r with
    | none => cases h
    | some p =>
      simp only [attach_eq, Except.ok_bind, Except.pure_eq_ok, Except.ok.injEq, Option.some.injEq,
        Prod.mk.injEq] at h
      obtain ⟨rfl, rfl⟩ := h
      exact ⟨p.2, hr, rfl⟩
  · rintro ⟨b, hb, rfl⟩
    simp [hb, attach_eq]

end Block

/-- The line that a reader prints. -/
inductive Line
  | blk (hash : HashResult) (len : UInt32)
  | invalid
  deriving DecidableEq

/-- Where a program keeps its blocks and its block map while it reads, and
what it does with a block and the number of bytes that block took. -/
structure Reader (σ : Type) where
  heap : σ → Heap
  bmap : σ → BlockMap
  visit : σ → Nat → Block → Except Abort σ

/-- The loop's variables: the memory from the pointer on, the bytes left and
what the program keeps. -/
structure Cursor (σ : Type) where
  data : Bytes
  bytesLeft : Nat
  state : σ

namespace Reader

variable {σ : Type} (r : Reader σ)

/-- One turn. `bytesParsed` is 0 exactly when `read` gives up. -/
def turn (s : Cursor σ) : Except Abort (Option (Cursor σ)) := do
  if s.bytesLeft = 0 then return none
  match ← Block.read s.data s.bytesLeft (r.heap s.state) (r.bmap s.state) with
  | none => return none
  | some (bytesParsed, blk) =>
    let state ← r.visit s.state bytesParsed blk
    return some ⟨s.data.drop bytesParsed, s.bytesLeft - bytesParsed, state⟩

/-- The whole loop. Every turn takes a byte at least, so it never runs out of turns. -/
def run (data : Bytes) (bytesLeft : Nat) (state : σ) : Except Abort σ := do
  match ← Loop.run r.turn (bytesLeft + 1) ⟨data, bytesLeft, state⟩ with
  | some s => return s.state
  | none => throw .diverges

/-- What a turn does once its block is parsed. -/
def step (state : σ) (b : Body) : Except Abort σ := do
  let blk ← Block.attach (r.heap state) (r.bmap state) b
  r.visit state b.size blk

/-- The block at the pointer names a predecessor that is not in the map, has no
transactions and carries the hash of its own contents. -/
def ReadsEmptyOrphan (c : Crypto) (s : Cursor σ) : Prop :=
  ∃ n b, Body.read s.data s.bytesLeft = .ok (some (n, b)) ∧ b.prevHash ≠ .zero ∧
    (r.bmap s.state).find? b.prevHash = none ∧ b.transactions = [] ∧ c.sha256 b.preimage = b.blkHash

variable {r}

theorem turn_iff {s t : Cursor σ} :
    Loop.Turn r.turn s t ↔ ∃ n b, s.bytesLeft ≠ 0 ∧
      Body.read s.data s.bytesLeft = .ok (some (n, b)) ∧
      r.visit s.state n (Block.attached (r.heap s.state) (r.bmap s.state) b) = .ok t.state ∧
      t.data = s.data.drop n ∧ t.bytesLeft = s.bytesLeft - n := by
  simp only [Loop.Turn, turn]
  constructor
  · intro h
    split_ifs at h with hz
    · cases h
    · obtain ⟨res, hres, h⟩ := Except.bind_eq_ok.mp h
      cases res with
      | none => cases h
      | some p =>
        obtain ⟨state, hv, h⟩ := Except.bind_eq_ok.mp h
        obtain ⟨b, hb, hblk⟩ := Block.read_eq_some.mp hres
        obtain rfl : _ = t := Option.some.inj (Except.ok.inj h)
        exact ⟨p.1, b, hz, hb, hblk ▸ hv, rfl, rfl⟩
  · rintro ⟨n, b, hz, hb, hv, hdata, hleft⟩
    obtain ⟨data, bytesLeft, state⟩ := t
    simp only at hv hdata hleft
    simp [hz, Block.read_eq_some.mpr ⟨b, hb, rfl⟩, hv, hdata, hleft]

/-- Termination: a parsed block is never empty. -/
theorem turn_lt {s t : Cursor σ} (h : Loop.Turn r.turn s t) : t.bytesLeft < s.bytesLeft := by
  obtain ⟨n, b, hz, hb, -, -, hleft⟩ := turn_iff.mp h
  obtain ⟨hpos, hle⟩ := Body.read_consumes hb
  omega

/-- So the turns that `run` allows are always enough. -/
theorem run_leaves (data : Bytes) (bytesLeft : Nat) (st : σ) :
    Loop.run r.turn (bytesLeft + 1) ⟨data, bytesLeft, st⟩ ≠ .ok none :=
  Loop.run_leaves (fun s : Cursor σ => s.bytesLeft) (fun _ _ => turn_lt) (Nat.lt_succ_self _)

theorem run_eq_ok {data : Bytes} {bytesLeft : Nat} {st st' : σ}
    (h : r.run data bytesLeft st = .ok st') : ∃ s : Cursor σ, s.state = st' ∧
      Loop.Reaches r.turn ⟨data, bytesLeft, st⟩ s ∧ r.turn s = .ok none := by
  obtain ⟨res, hres, h⟩ := Except.bind_eq_ok.mp h
  cases res with
  | none => cases h
  | some s =>
    obtain ⟨hreach, hleft⟩ := Loop.run_reaches hres
    exact ⟨s, Except.ok.inj h, hreach, hleft⟩

@[simp] theorem run_zero (data : Bytes) (st : σ) : r.run data 0 st = .ok st := rfl

/-- A block in front takes the loop one step and leaves it behind the block. -/
theorem turn_encoding {b : Body} (hb : b.Readable) (rest : Bytes) (k : Nat) (st : σ) :
    r.turn ⟨b.encoding ++ rest, b.size + k, st⟩ =
      r.step st b >>= fun st' => .ok (some ⟨rest, k, st'⟩) := by
  have hpos := b.size_pos
  have hz : b.size + k ≠ 0 := by omega
  have hdrop : (b.encoding ++ rest).drop b.size = rest := List.drop_left' b.length_encoding
  simp only [turn, hz, if_false, Block.read, hb.read_encoding rest k, Except.ok_bind, step,
    Block.attach_eq, Except.pure_eq_ok, hdrop, Nat.add_sub_cancel_left]

theorem run_encoding {b : Body} (hb : b.Readable) (rest : Bytes) (k : Nat) (st : σ) :
    r.run (b.encoding ++ rest) (b.size + k) st = r.step st b >>= fun st' => r.run rest k st' := by
  have hpos := b.size_pos
  have hbody := turn_encoding (r := r) hb rest k st
  cases hstep : r.step st b with
  | error e =>
    rw [hstep] at hbody
    simp only [run, Loop.run_error hbody, Except.error_bind]
  | ok st' =>
    rw [hstep] at hbody
    simp only [run, Loop.run_turn hbody, Except.ok_bind]
    rw [Loop.run_fuel (fun s : Cursor σ => s.bytesLeft) (fun _ _ => turn_lt)
      (show k < b.size + k by omega) (Nat.lt_succ_self k)]

theorem run_encodings {bs : List Body} (hw : ∀ b ∈ bs, b.Writable) (rest : Bytes) (k : Nat)
    (st : σ) : r.run (bs.flatMap Body.encoding ++ rest) ((bs.map Body.size).sum + k) st =
      bs.foldlM r.step st >>= fun st' => r.run rest k st' := by
  induction bs generalizing st with
  | nil => simp
  | cons b bs ih =>
    obtain ⟨hb, hbs⟩ := List.forall_mem_cons.mp hw
    rw [List.flatMap_cons, List.append_assoc, List.map_cons, List.sum_cons, Nat.add_assoc,
      run_encoding hb.readable, List.foldlM_cons, bind_assoc]
    congr 1
    funext st'
    exact ih hbs st'

/-- Where the loop is once it has stepped through written blocks. -/
theorem reaches_encodings {bs : List Body} (hw : ∀ b ∈ bs, b.Writable) (rest : Bytes) (k : Nat)
    {st st' : σ} (h : bs.foldlM r.step st = .ok st') :
    Loop.Reaches r.turn ⟨bs.flatMap Body.encoding ++ rest, (bs.map Body.size).sum + k, st⟩
      ⟨rest, k, st'⟩ := by
  induction bs generalizing st with
  | nil =>
    obtain rfl : st = st' := Except.ok.inj h
    simpa using Relation.ReflTransGen.refl
  | cons b bs ih =>
    obtain ⟨hb, hbs⟩ := List.forall_mem_cons.mp hw
    rw [List.foldlM_cons] at h
    obtain ⟨st₁, hstep, h⟩ := Except.bind_eq_ok.mp h
    have hturn := turn_encoding (r := r) hb.readable (bs.flatMap Body.encoding ++ rest)
      ((bs.map Body.size).sum + k) st
    rw [hstep, Except.ok_bind] at hturn
    rw [List.flatMap_cons, List.append_assoc, List.map_cons, List.sum_cons, Nat.add_assoc]
    exact .head hturn (ih hbs h)

/-! ## The parse, recorded -/

/-- The same loop with a record of what `read` returned and the block it filled. -/
def recorded (r : Reader σ) : Reader (σ × List (Nat × Body)) where
  heap s := r.heap s.1
  bmap s := r.bmap s.1
  visit s bytesParsed blk := do
    return (← r.visit s.1 bytesParsed blk, s.2 ++ [(bytesParsed, blk.toBody)])

theorem recorded_step (st : σ) (log : List (Nat × Body)) (b : Body) :
    r.recorded.step (st, log) b = r.step st b >>= fun st' => .ok (st', log ++ [(b.size, b)]) := by
  simp only [step, recorded, Block.attach_eq, Except.ok_bind, Block.attached_toBody,
    Except.pure_eq_ok]

theorem recorded_steps (bs : List Body) (st : σ) (log : List (Nat × Body)) :
    bs.foldlM r.recorded.step (st, log) =
      bs.foldlM r.step st >>= fun st' => .ok (st', log ++ bs.map fun b => (b.size, b)) := by
  induction bs generalizing st log with
  | nil => simp
  | cons b bs ih =>
    simp only [List.foldlM_cons, recorded_step, bind_assoc, Except.ok_bind, ih, List.map_cons,
      List.append_assoc, List.singleton_append]

end Reader

theorem Body.mapM_write_eq_ok {bs : List Body} {outs : List Bytes} :
    bs.mapM Body.write = .ok outs ↔ (∀ b ∈ bs, b.Writable) ∧ outs = bs.map Body.encoding := by
  induction bs generalizing outs with
  | nil => simp [eq_comm]
  | cons b bs ih =>
    rw [List.mapM_cons]
    constructor
    · intro h
      obtain ⟨out, hout, h⟩ := Except.bind_eq_ok.mp h
      obtain ⟨outs', houts, h⟩ := Except.bind_eq_ok.mp h
      obtain ⟨hw, rfl⟩ := Body.write_eq_ok.mp hout
      obtain ⟨hws, rfl⟩ := ih.mp houts
      exact ⟨List.forall_mem_cons.mpr ⟨hw, hws⟩, (Except.ok.inj h).symm⟩
    · rintro ⟨hw, rfl⟩
      obtain ⟨hb, hbs⟩ := List.forall_mem_cons.mp hw
      rw [Body.write_eq_ok.mpr ⟨hb, rfl⟩, Except.ok_bind, ih.mpr ⟨hbs, rfl⟩]
      rfl

theorem Body.length_encodings (bs : List Body) :
    (bs.flatMap Body.encoding).length = (bs.map Body.size).sum := by
  rw [List.length_flatMap]
  exact congrArg List.sum (List.map_congr_left fun b _ => b.length_encoding)

/-- Over written blocks and whatever follows them, the loop of any program
parses those blocks first and in order. Each `read` returns the block's `size`,
which is the number of bytes written, and restores every field. -/
theorem reader_parses_written {σ : Type} (r : Reader σ) {bs : List Body} {outs : List Bytes}
    (h : bs.mapM Body.write = .ok outs) (trailing : Bytes) (st : σ) :
    outs.map List.length = bs.map Body.size ∧
      r.recorded.run (outs.flatten ++ trailing) (outs.flatten ++ trailing).length (st, []) =
        bs.foldlM r.step st >>= fun st' =>
          r.recorded.run trailing trailing.length (st', bs.map fun b => (b.size, b)) := by
  obtain ⟨hw, rfl⟩ := Body.mapM_write_eq_ok.mp h
  refine ⟨?_, ?_⟩
  · rw [List.map_map]
    exact List.map_congr_left fun b _ => b.length_encoding
  · rw [← List.flatMap_def, List.length_append, Body.length_encodings, Reader.run_encodings hw,
      Reader.recorded_steps, bind_assoc]
    rfl

/-- A reader that keeps nothing. -/
def Reader.blind : Reader Unit where
  heap _ := .empty
  bmap _ := ∅
  visit _ _ _ := .ok ()

theorem blind_parses_two_blocks :
    [firstBlock.encoding, secondBlock.encoding].map List.length =
        [firstBlock, secondBlock].map Body.size ∧
      Reader.blind.recorded.run
          ([firstBlock.encoding, secondBlock.encoding].flatten ++ [0])
          ([firstBlock.encoding, secondBlock.encoding].flatten ++ [0]).length ((), []) =
        [firstBlock, secondBlock].foldlM Reader.blind.step () >>= fun st =>
          Reader.blind.recorded.run [0] [0].length
            (st, [firstBlock, secondBlock].map fun b => (b.size, b)) := by
  have h : [firstBlock, secondBlock].mapM Body.write =
      .ok [firstBlock.encoding, secondBlock.encoding] :=
    Body.mapM_write_eq_ok.mpr ⟨by decide, rfl⟩
  exact reader_parses_written Reader.blind h [0] ()

end Bootcamp
