import Bootcamp.Blockchain.Reader
import Bootcamp.Blockchain.Indexed
import Bootcamp.Lib.Interleaving

/-! The parallel readers. One thread reads each chunk from the balances stored
before it and enters, under a mutex, the first block of its chunk in `heads`
and the last one in `tails`. The main thread then links heads to tails and
looks for the longest chain. Day 3 and day 4 differ in `readChunk` only. -/
namespace Bootcamp

/-! ## Comparing balance maps -/

/-- One turn of `included_in`: a zero entry may be missing from the other map. -/
def entryIncluded (m2 : BalanceMap) (p : HashResult × UInt64) : Bool :=
  let pos := m2.find? p.1
  if p.2 = 0 then !(pos ≠ none && pos ≠ some 0) else !(pos = none || pos ≠ some p.2)

def includedIn (m1 m2 : BalanceMap) : Bool := m1.entries.all (entryIncluded m2)

def balanceMapsEqual (m1 m2 : BalanceMap) : Bool := includedIn m1 m2 && includedIn m2 m1

theorem entryIncluded_iff {m2 : BalanceMap} {p : HashResult × UInt64} :
    entryIncluded m2 p = true ↔ m2.amount p.1 = p.2 := by
  simp only [entryIncluded, BalanceMap.amount]
  by_cases hz : p.2 = 0
  · cases m2.find? p.1 <;> simp [hz]
  · cases m2.find? p.1 with
    | none => simpa [hz] using Ne.symm hz
    | some v => simp [hz]

theorem includedIn_iff {m1 m2 : BalanceMap} :
    includedIn m1 m2 = true ↔ ∀ a, m1.find? a ≠ none → m1.amount a = m2.amount a := by
  simp only [includedIn, List.all_eq_true, entryIncluded_iff]
  constructor
  · intro h a ha
    obtain ⟨v, hv⟩ := Option.ne_none_iff_exists'.mp ha
    have hentry := h (a, v) (OrderedMap.find_eq_some.mp hv)
    rw [hentry, BalanceMap.amount, hv]
    rfl
  · rintro h ⟨a, v⟩ hp
    have hv := OrderedMap.find_eq_some.mpr hp
    rw [← h a (by simp [hv]), BalanceMap.amount, hv]
    rfl

/-- The comparison of day 4 identifies exactly the maps with equal balances. -/
theorem balanceMapsEqual_iff_same {m1 m2 : BalanceMap} :
    balanceMapsEqual m1 m2 = true ↔ BalanceMap.Same m1 m2 := by
  rw [balanceMapsEqual, Bool.and_eq_true, includedIn_iff, includedIn_iff]
  constructor
  · rintro ⟨h1, h2⟩ a
    by_cases ha : m1.find? a = none
    · by_cases ha' : m2.find? a = none
      · rw [BalanceMap.amount, BalanceMap.amount, ha, ha']
      · exact (h2 a ha').symm
    · exact h1 a ha
  · intro h
    exact ⟨fun a _ => h a, fun a _ => (h a).symm⟩

/-- The comparison is an equivalence, of maps with the same balances, and validation cannot
tell apart what it identifies. -/
theorem balance_maps_equal_congruence :
    (∀ m1 m2, balanceMapsEqual m1 m2 = true ↔ ∀ a, m1.amount a = m2.amount a) ∧
    Equivalence (fun m1 m2 => balanceMapsEqual m1 m2 = true) ∧
    ∀ (c : Crypto) (b : Body) (m1 m2 : BalanceMap), balanceMapsEqual m1 m2 = true →
      Except.Related (fun r r' => r.1 = r'.1 ∧ balanceMapsEqual r.2 r'.2 = true)
        (b.validate c m1) (b.validate c m2) := by
  refine ⟨fun m1 m2 => balanceMapsEqual_iff_same, ?_, fun c b m1 m2 hequal => ?_⟩
  · simp only [balanceMapsEqual_iff_same]
    exact ⟨.refl, .symm, .trans⟩
  · simp only [balanceMapsEqual_iff_same] at hequal ⊢
    exact Body.validate_congr hequal

/-! ## Reading a chunk -/

/-- One access to the shared containers. -/
inductive SharedOp
  | insertHead (p : Ptr)
  | setTail (h : HashResult) (p : Ptr)
  deriving DecidableEq

/-- The variables of `readChunk`'s loop. The block of turn `i` of thread `k`
lives at `⟨k, i + 1⟩`, the block made up as its predecessor at `⟨k, 0⟩`. `heads`
is what day 4 has entered in the shared set, `first` is day 3's `first_block`.
Nothing reads `accepted`, the history of what went into the map. -/
structure ChunkState where
  heap : Heap
  bmap : BlockMap
  tip : Option Ptr
  first : Option Ptr
  i : Nat
  heads : List Ptr
  accepted : List Ptr

def ChunkState.start : ChunkState := ⟨.empty, ∅, none, none, 0, [], []⟩

/-- What a thread leaves behind and what it did in each of its critical sections. -/
structure ChunkResult where
  state : ChunkState
  sections : List (List SharedOp)

/-- `readChunk` with the crypto library, the file, the number of the thread,
`prevMapOff`, `chunkStart` and `mapStart`. -/
abbrev ChunkReader := Crypto → Bytes → Nat → UInt64 → UInt64 → UInt64 → Except Abort ChunkResult

/-- The start balances; the first chunk has none. -/
def readInitBal (data : Bytes) (prevMapOff : UInt64) : Except Abort BalanceMap :=
  if prevMapOff ≠ 0 then readBalanceMap (data.drop prevMapOff.toNat) else .ok ∅

/-- A block made up to hold the start balances, and the block read set behind it. -/
def setFakePrev (st : ChunkState) (fake : Ptr) (prevBlk : Block) (blk : Block) : Heap × Block :=
  let heap := st.heap.set fake prevBlk
  (heap, blk.setPrevBlock heap fake)

namespace Day4

/-- Behind a map the first block of a chunk gets a predecessor, coinbase or not. -/
def prepare (thread : Nat) (prevMapOff : UInt64) (initBal : BalanceMap) (st : ChunkState)
    (blk : Block) : Heap × Block :=
  if st.i = 0 ∧ prevMapOff ≠ 0 then
    setFakePrev st ⟨thread, 0⟩ { Block.new with blkHash := blk.prevHash, balances := initBal } blk
  else (st.heap, blk)

def visit (c : Crypto) (thread : Nat) (prevMapOff : UInt64) (initBal : BalanceMap)
    (st : ChunkState) (_ : Nat) (blk : Block) : Except Abort ChunkState := do
  let it : Ptr := ⟨thread, st.i + 1⟩
  let (heap, blk) := prepare thread prevMapOff initBal st blk
  let (valid, blk) ← blk.validate c heap
  let heap := heap.set it blk
  if valid then
    -- only the first block is asked whether it is a coinbase
    let coinbase ← (if st.i = 0 then blk.isCoinbase else .ok true)
    return { st with heap, bmap := st.bmap.insert blk.blkHash it, tip := some it, i := st.i + 1,
                     heads := if coinbase then st.heads else it :: st.heads,
                     accepted := it :: st.accepted }
  else
    return { st with heap, i := st.i + 1 }

def reader (c : Crypto) (thread : Nat) (prevMapOff : UInt64) (initBal : BalanceMap) :
    Reader ChunkState where
  heap := ChunkState.heap
  bmap := ChunkState.bmap
  visit := visit c thread prevMapOff initBal

def readChunk : ChunkReader := fun c data thread prevMapOff chunkStart mapStart => do
  let initBal ← readInitBal data prevMapOff
  let finalBal ← readBalanceMap (data.drop mapStart.toNat)
  let chunkSz := mapStart - chunkStart
  let st ← (reader c thread prevMapOff initBal).run (data.drop chunkStart.toNat) chunkSz.toNat .start
  let headSections := st.heads.map fun p => [SharedOp.insertHead p]
  match st.tip with
  | some tip =>
    if balanceMapsEqual (st.heap tip).balances finalBal then
      return ⟨st, headSections ++ [[.setTail (st.heap tip).blkHash tip]]⟩
    else return ⟨st, headSections⟩
  | none => return ⟨st, headSections⟩

end Day4

namespace Day3

/-- The first block of a chunk gets a predecessor unless it is a coinbase. -/
def prepare (thread : Nat) (initBal : BalanceMap) (st : ChunkState) (blk : Block) :
    Except Abort (Heap × Block) := do
  if st.i = 0 then
    if !(← blk.isCoinbase) then
      return setFakePrev st ⟨thread, 0⟩ { Block.new with balances := initBal } blk
  return (st.heap, blk)

def visit (c : Crypto) (thread : Nat) (initBal : BalanceMap) (st : ChunkState) (_ : Nat)
    (blk : Block) : Except Abort ChunkState := do
  let it : Ptr := ⟨thread, st.i + 1⟩
  let first := if st.i = 0 then some it else st.first
  let (heap, blk) ← prepare thread initBal st blk
  let (valid, blk) ← blk.validate c heap
  let heap := heap.set it blk
  if !valid then throw .returned
  return { st with heap, bmap := st.bmap.insert blk.blkHash it, tip := some it, first,
                   i := st.i + 1, accepted := it :: st.accepted }

def reader (c : Crypto) (thread : Nat) (initBal : BalanceMap) : Reader ChunkState where
  heap := ChunkState.heap
  bmap := ChunkState.bmap
  visit := visit c thread initBal

/-- The comparison of the last balances with the stored ones: each entry must
be stored, nothing is asked of the other stored entries. -/
def lastBalanceStored (lastBalance finalBal : BalanceMap) : Bool :=
  lastBalance.entries.all fun p => finalBal.find? p.1 = some p.2

def readChunk : ChunkReader := fun c data thread prevMapOff chunkStart mapStart => do
  let initBal ← readInitBal data prevMapOff
  let finalBal ← readBalanceMap (data.drop mapStart.toNat)
  let chunkSz := mapStart - chunkStart
  match (reader c thread initBal).run (data.drop chunkStart.toNat) chunkSz.toNat .start with
  | .error .returned => return ⟨.start, []⟩
  | .error e => throw e
  | .ok st =>
    match st.tip, st.first with
    | some tip, some first =>
      if lastBalanceStored (st.heap tip).balances finalBal then
        let coinbase ← (st.heap first).isCoinbase
        return ⟨st, [.setTail (st.heap tip).blkHash tip ::
          if coinbase then [] else [.insertHead first]]⟩
      else return ⟨st, []⟩
    | _, _ => throw .nullPointer

end Day3

/-! ## The shared containers -/

/-- `heads`, a set of pointers, and `tails`. -/
structure Shared where
  heads : List Ptr
  tails : BlockMap

def Shared.start : Shared := ⟨[], ∅⟩

def Shared.apply (s : Shared) : SharedOp → Shared
  | .insertHead p => { s with heads := if p ∈ s.heads then s.heads else p :: s.heads }
  | .setTail h p => { s with tails := s.tails.insert h p }

/-! ## The main thread -/

/-- The loop over the heads; it stops at the first one without a tail. -/
def linkHeads (tails : BlockMap) : List Ptr → Heap → Bool × Heap
  | [], heap => (true, heap)
  | p :: ps, heap =>
    match tails.find? (heap p).prevHash with
    | none => (false, heap)
    | some q => linkHeads tails ps (heap.set p ((heap p).setPrevBlock heap q))

/-- `recompute_length`, a recursion down the chain. Where no chain has a cycle
it is no deeper than there are objects; where one has, it never returns. -/
def recomputeLength : Nat → Heap → Ptr → Except Abort Heap
  | 0, _, _ => .error .diverges
  | k + 1, heap, p =>
    match (heap p).prevBlock with
    | some q => do
      let heap ← recomputeLength k heap q
      return heap.set p { heap p with length := (heap q).length + 1 }
    | none => .ok (heap.set p { heap p with length := 1 })

/-- The loop over the tails; a tip is replaced by a longer one only. -/
def pickTip (objects : Nat) : List (HashResult × Ptr) → Heap → UInt32 → Option Ptr →
    Except Abort (Heap × Option Ptr)
  | [], heap, _, tip => .ok (heap, tip)
  | (_, p) :: ps, heap, length, tip => do
    let heap ← recomputeLength objects heap p
    if length < (heap p).length then pickTip objects ps heap (heap p).length (some p)
    else pickTip objects ps heap length tip

/-- What `main` has when it prints. -/
structure Final where
  heap : Heap
  valid : Bool
  tip : Option Ptr

def Final.line (f : Final) : Line :=
  match f.valid, f.tip with
  | true, some tip => .blk (f.heap tip).blkHash (f.heap tip).length
  | _, _ => .invalid

def finish (objects : Nat) (tails : BlockMap) (headOrder : List Ptr)
    (tailOrder : List (HashResult × Ptr)) (heap : Heap) : Except Abort Final := do
  let (valid, heap) := linkHeads tails headOrder heap
  let (heap, tip) ← pickTip objects tailOrder heap 0 none
  return { heap, valid, tip }

/-- Where the balances in front of a chunk are stored; for the first chunk nowhere. -/
def Header.prevMapOff (hd : Header) (i : Nat) : UInt64 :=
  if i = 0 then 0 else hd.mapOff.getD (i - 1) 0

/-- What the threads return, one for each chunk. -/
def threads (readChunk : ChunkReader) (c : Crypto) (data : Bytes) (hd : Header) :
    List (Except Abort ChunkResult) :=
  (List.range hd.chunks.toNat).map fun i =>
    readChunk c data i (hd.prevMapOff i) (hd.chunkOff.getD i 0) (hd.mapOff.getD i 0)

/-- Every thread has its objects at addresses of its own. -/
def joinHeaps (results : List ChunkResult) : Heap := fun p =>
  match results[p.thread]? with
  | some r => r.state.heap p
  | none => .new

/-- A run that gets past the threads: there is memory for the tables, the header is there, the thread manager
takes that many threads, no thread aborts, and then everything that the program
leaves open. `schedule` is the order of the critical sections, `headOrder` and
`tailOrder` are the orders in which `heads` and `tails` are iterated. -/
structure Run (readChunk : ChunkReader) (c : Crypto) (data : Bytes) where
  resize : Resize
  header : Header
  extracted : extractHeader resize data = .ok (some header)
  count : 0 < header.chunks.toNat ∧ header.chunks.toNat ≤ 32
  results : List ChunkResult
  joined : threads readChunk c data header = results.map .ok
  schedule : List (List SharedOp)
  interleaved : Interleaving (results.map ChunkResult.sections) schedule
  headOrder : List Ptr
  headPerm : headOrder.Perm (schedule.flatten.foldl Shared.apply .start).heads
  tailOrder : List (HashResult × Ptr)
  tailPerm : tailOrder.Perm (schedule.flatten.foldl Shared.apply .start).tails.entries

namespace Run

variable {readChunk : ChunkReader} {c : Crypto} {data : Bytes}

def shared (run : Run readChunk c data) : Shared :=
  run.schedule.flatten.foldl Shared.apply .start

def heap (run : Run readChunk c data) : Heap := joinHeaps run.results

/-- The blocks that the threads parsed. -/
def blocks (run : Run readChunk c data) : Nat := (run.results.map fun r => r.state.i).sum

/-- The objects that the threads allocated. -/
def objects (run : Run readChunk c data) : Nat :=
  (run.results.map fun r => r.state.i + 1).sum

def final (run : Run readChunk c data) : Except Abort Final :=
  finish run.objects run.shared.tails run.headOrder run.tailOrder run.heap

/-- The line that the run prints, if it comes to that. -/
def line (run : Run readChunk c data) : Except Abort Line := do
  let f ← run.final
  return f.line

/-- What the threads leave behind, without those that abort. -/
def returned (readChunk : ChunkReader) (c : Crypto) (data : Bytes) (hd : Header) : List ChunkResult :=
  (threads readChunk c data hd).filterMap Except.toOption

theorem joined_returned {hd : Header}
    (h : ∀ t ∈ threads readChunk c data hd, t.toOption.isSome) :
    threads readChunk c data hd = (returned readChunk c data hd).map .ok := by
  rw [returned]
  generalize threads readChunk c data hd = ts at h
  induction ts with
  | nil => rfl
  | cons t ts ih =>
    obtain ⟨ht, hts⟩ := List.forall_mem_cons.mp h
    cases t with
    | error e => cases ht
    | ok r =>
      change Except.ok r :: ts = .ok r :: (ts.filterMap Except.toOption).map .ok
      rw [← ih hts]

/-- The run in which the tables get their memory, the threads take turns as they
are numbered, and the containers are iterated as they are. -/
def inOrder (hd : Header) (extracted : extractHeader .granted data = .ok (some hd))
    (count : 0 < hd.chunks.toNat ∧ hd.chunks.toNat ≤ 32)
    (h : ∀ t ∈ threads readChunk c data hd, t.toOption.isSome) : Run readChunk c data where
  resize := .granted
  header := hd
  extracted := extracted
  count := count
  results := returned readChunk c data hd
  joined := joined_returned h
  schedule := ((returned readChunk c data hd).map ChunkResult.sections).flatten
  interleaved := .sequential _
  headOrder := _
  headPerm := .refl _
  tailOrder := _
  tailPerm := .refl _

end Run

end Bootcamp
