import Bootcamp.Lib.Checked
import Bootcamp.Lib.LittleEndian
import Bootcamp.Lib.Pool
import Mathlib.Data.List.Nodup

/-! Hashes of the blocks of a file, computed by several threads. -/
namespace Bootcamp.BlockHash

open Checked Except

def blockSize : Nat := 256

/-- `*((unsigned*)ptr)` in the mapped file. -/
def loadWord (data : List UInt8) (ptr : Nat) : Except Fault UInt32 :=
  if ptr + 4 ≤ data.length then
    .ok (UInt32.ofNat (LittleEndian.decode ((data.drop ptr).take 4)))
  else .error .outOfBounds

/-- The loop of `calculateAndStoreHash`, with `count` turns to go. Pointers are offsets into
the file, and `mix` is what the two lines in `double` make of the accumulator. The difference of
the pointers is compared as an unsigned value, so a negative one does not end the loop. -/
def hashLoop (mix : UInt32 → UInt32) (data : List UInt8) (endptr : Nat) :
    Nat → Nat → UInt32 → Except Fault UInt32
  | 0, _, hashval => .ok hashval
  | count + 1, ptr, hashval =>
    if ptr ≤ endptr ∧ endptr - ptr < 8 then .ok hashval
    else do
      let word ← loadWord data ptr
      hashLoop mix data endptr count (ptr + 4) (mix hashval + word)

/-- `sizeof(unsigned long)` is 8. -/
def calculateAndStoreHash (mix : UInt32 → UInt32) (data : List UInt8) (ptr endptr : Nat) :
    Except Fault UInt64 := do
  let hashval ← hashLoop mix data endptr (blockSize / 8) ptr 0
  pure hashval.toUInt64

/-- Where a thread is in `hashit`: before the lock, behind it with a block and a slot, or gone. -/
inductive Pc where
  | looping
  | storing (cptr chash : Nat)
  | exited
  deriving DecidableEq

structure State where
  threads : List Pc
  dataptr : Nat
  optr : Nat
  /-- Memory from the heap, without values before they are stored. -/
  hashes : List (Option UInt64)
  /-- The slots stored to, in that order. -/
  stores : List Nat

/-- `size / blockSize`, and one more for a rest. -/
def hashCount (size : Nat) : Nat :=
  if size % blockSize = 0 then size / blockSize else size / blockSize + 1

/-- The steps of one thread of `hashit`, whichever comes next: what it does under the lock, and
the store with the computation in front of it. -/
inductive Step (mix : UInt32 → UInt32) (data : List UInt8) : State → Except Fault State → Prop
  | finish {s : State} {before after : List Pc} : s.threads = before ++ .looping :: after →
      data.length ≤ s.dataptr →
      Step mix data s (.ok { s with threads := before ++ .exited :: after })
  | fetch {s : State} {before after : List Pc} : s.threads = before ++ .looping :: after →
      s.dataptr < data.length →
      Step mix data s (.ok
        { s with threads := before ++ .storing s.dataptr s.optr :: after
                 dataptr := s.dataptr + blockSize
                 optr := s.optr + 1 })
  | store {s : State} {before after : List Pc} {cptr chash : Nat} :
      s.threads = before ++ .storing cptr chash :: after →
      Step mix data s (do
        let hash ← calculateAndStoreHash mix data cptr data.length
        let hashes ← store s.hashes chash (some hash)
        pure { s with threads := before ++ .looping :: after
                      hashes
                      stores := s.stores ++ [chash] })

def State.initial (data : List UInt8) (numThreads : Nat) : State where
  threads := List.replicate numThreads .looping
  dataptr := 0
  optr := 0
  hashes := List.replicate (hashCount data.length) none
  stores := []

/-- The states reached after `k` steps of the threads. -/
inductive Run (mix : UInt32 → UInt32) (data : List UInt8) (numThreads : Nat) :
    Nat → State → Prop
  | start : Run mix data numThreads 0 (.initial data numThreads)
  | step {k : Nat} {s s' : State} : Run mix data numThreads k s → Step mix data s (.ok s') →
      Run mix data numThreads (k + 1) s'

section Hash

variable {mix : UInt32 → UInt32} {data : List UInt8} {ptr endptr : Nat}

/-- The words from `ptr` on, `n` of them. -/
def words (data : List UInt8) (ptr n : Nat) : List UInt32 :=
  (List.range n).map fun i => UInt32.ofNat (LittleEndian.decode ((data.drop (ptr + 4 * i)).take 4))

/-- The mixing step folded over words. -/
def foldWords (mix : UInt32 → UInt32) (hashval : UInt32) (ws : List UInt32) : UInt32 :=
  ws.foldl (fun hashval word => mix hashval + word) hashval

@[simp] theorem length_words (n : Nat) : (words data ptr n).length = n := by
  simp [words]

theorem words_succ (n : Nat) :
    words data ptr (n + 1) =
      UInt32.ofNat (LittleEndian.decode ((data.drop ptr).take 4)) :: words data (ptr + 4) n := by
  simp only [words, List.range_succ_eq_map, List.map_cons, List.map_map]
  congr 1
  apply List.map_congr_left
  intro i hi
  simp only [Function.comp]
  congr 4
  omega

/-- The loop stops at its count, or a word early. -/
theorem hashLoop_eq (hptr : ptr ≤ endptr) (hend : endptr ≤ data.length) (count : Nat)
    (hashval : UInt32) :
    hashLoop mix data endptr count ptr hashval =
      .ok (foldWords mix hashval (words data ptr (min count ((endptr - ptr - 4) / 4)))) := by
  induction count generalizing ptr hashval with
  | zero => simp [hashLoop, words, foldWords]
  | succ count ih =>
    unfold hashLoop
    split
    · rename_i hshort
      have hnone : min (count + 1) ((endptr - ptr - 4) / 4) = 0 := by omega
      rw [hnone]
      rfl
    · rename_i hlong
      have hmore : min (count + 1) ((endptr - ptr - 4) / 4) =
          min count ((endptr - (ptr + 4) - 4) / 4) + 1 := by omega
      rw [loadWord, if_pos (by omega), ok_bind, ih (by omega), hmore, words_succ]
      rfl

theorem calculateAndStoreHash_eq (hptr : ptr ≤ endptr) (hend : endptr ≤ data.length) :
    calculateAndStoreHash mix data ptr endptr =
      .ok (foldWords mix 0 (words data ptr (min 32 ((endptr - ptr - 4) / 4)))).toUInt64 := by
  rw [calculateAndStoreHash, hashLoop_eq hptr hend]
  rfl

/-- All complete words of the block at `ptr`, which `endptr` may cut short. -/
def blockWords (data : List UInt8) (ptr endptr : Nat) : List UInt32 :=
  words data ptr (min blockSize (endptr - ptr) / 4)

/-- A mixing step that adds one counts the words. -/
theorem foldWords_add_one (hashval : UInt32) (n : Nat) (ws : List UInt32) :
    foldWords (· + 1) (hashval + UInt32.ofNat n) ws =
      foldWords id hashval ws + UInt32.ofNat (n + ws.length) := by
  induction ws generalizing hashval n with
  | nil => rfl
  | cons w ws ih =>
    have hnext : hashval + UInt32.ofNat n + 1 + w = hashval + w + UInt32.ofNat (n + 1) := by
      rw [UInt32.ofNat_add]
      ac_rfl
    simp only [foldWords, List.foldl_cons, id] at ih ⊢
    rw [hnext, ih, List.length_cons, Nat.add_right_comm, Nat.add_assoc]

/-- Different numbers of words have different hashes under some mixing step. -/
theorem foldWords_separates {n m : Nat} (hn : n ≤ 64) (hm : m ≤ 64)
    (h : ∀ mix, foldWords mix 0 (words data ptr n) = foldWords mix 0 (words data ptr m)) :
    n = m := by
  have hsum := h id
  have hcount := h (· + 1)
  rw [show (0 : UInt32) = 0 + UInt32.ofNat 0 from rfl, foldWords_add_one, foldWords_add_one,
    hsum] at hcount
  have hlen := congrArg UInt32.toNat ((UInt32.add_right_inj _).mp hcount)
  rw [UInt32.toNat_ofNat', UInt32.toNat_ofNat', length_words, length_words] at hlen
  omega

/-- The hash of a block covers its words just when it has none. -/
theorem hash_covers_block_iff (hptr : ptr ≤ endptr) (hend : endptr ≤ data.length) :
    (∀ mix, calculateAndStoreHash mix data ptr endptr =
      .ok (foldWords mix 0 (blockWords data ptr endptr)).toUInt64) ↔ endptr - ptr < 4 := by
  constructor
  · intro h
    have heq : min 32 ((endptr - ptr - 4) / 4) = min blockSize (endptr - ptr) / 4 := by
      apply @foldWords_separates data ptr
      · omega
      · unfold blockSize
        omega
      · intro mix
        have hmix := h mix
        rw [calculateAndStoreHash_eq hptr hend] at hmix
        exact UInt32.toUInt64_inj.mp (Except.ok.inj hmix)
    unfold blockSize at heq
    omega
  · intro hshort mix
    rw [calculateAndStoreHash_eq hptr hend, blockWords,
      show min 32 ((endptr - ptr - 4) / 4) = min blockSize (endptr - ptr) / 4 by
        unfold blockSize; omega]

theorem hash_covers_block_iff_eight :
    (∀ mix, calculateAndStoreHash mix [1, 0, 0, 0, 2, 0, 0, 0] 0 8 =
      .ok (foldWords mix 0 (blockWords [1, 0, 0, 0, 2, 0, 0, 0] 0 8)).toUInt64) ↔ 8 - 0 < 4 :=
  hash_covers_block_iff (by decide) (by decide)

/-- The last word of an eight-byte file is in no hash. -/
theorem hash_misses_word :
    calculateAndStoreHash id [1, 0, 0, 0, 2, 0, 0, 0] 0 8 ≠
      .ok (foldWords id 0 (blockWords [1, 0, 0, 0, 2, 0, 0, 0] 0 8)).toUInt64 := by
  decide

end Hash

section Slots

variable {mix : UInt32 → UInt32} {data : List UInt8} {numThreads : Nat}

/-- The slot a thread has fetched and not stored to. -/
def Pc.slot : Pc → Option Nat
  | .storing _ chash => some chash
  | _ => none

def held (threads : List Pc) : List Nat := threads.filterMap Pc.slot

theorem held_split (before after : List Pc) (pc : Pc) :
    held (before ++ pc :: after) = held before ++ (pc.slot.toList ++ held after) := by
  simp only [held, List.filterMap_append, List.filterMap_cons]
  cases pc.slot with
  | none => rfl
  | some k => rfl

theorem hashCount_spec (size k : Nat) : k < hashCount size ↔ blockSize * k < size := by
  unfold hashCount blockSize
  split
  · omega
  · omega

/-- The hash of the block `k`. -/
def HashOf (mix : UInt32 → UInt32) (data : List UInt8) (k : Nat) (hash : UInt64) : Prop :=
  calculateAndStoreHash mix data (blockSize * k) data.length = .ok hash

/-- What holds after every step: the slots given out are stored to or held, each by one thread. -/
structure Ok (mix : UInt32 → UInt32) (data : List UInt8) (numThreads : Nat) (s : State) :
    Prop where
  dataptr_eq : s.dataptr = blockSize * s.optr
  optr_le : s.optr ≤ hashCount data.length
  slots : (s.stores ++ held s.threads).Perm (List.range s.optr)
  blocks : ∀ cptr chash, Pc.storing cptr chash ∈ s.threads → cptr = blockSize * chash
  length_eq : s.hashes.length = hashCount data.length
  stored : ∀ k ∈ s.stores, ∃ hash, HashOf mix data k hash ∧ s.hashes[k]? = some (some hash)
  exited : Pc.exited ∈ s.threads → s.optr = hashCount data.length
  count : s.threads.length = numThreads

def Pc.left : Pc → Nat
  | .looping => 1
  | .storing _ _ => 2
  | .exited => 0

/-- The steps that are left. -/
def State.left (size : Nat) (s : State) : Nat :=
  2 * (hashCount size - s.optr) + (s.threads.map Pc.left).sum

theorem finish_ok {s : State} {before after : List Pc} (h : Ok mix data numThreads s)
    (hpc : s.threads = before ++ .looping :: after) (hend : data.length ≤ s.dataptr) :
    Ok mix data numThreads { s with threads := before ++ .exited :: after } where
  dataptr_eq := h.dataptr_eq
  optr_le := h.optr_le
  slots := by
    have hslots := h.slots
    rw [hpc, held_split] at hslots
    rw [held_split]
    exact hslots
  blocks cptr chash hmem := h.blocks cptr chash (by simpa [hpc] using hmem)
  length_eq := h.length_eq
  stored := h.stored
  exited _ := by
    have hle := h.optr_le
    have hout := (hashCount_spec data.length s.optr).not.mpr (by rw [← h.dataptr_eq]; omega)
    exact Nat.le_antisymm hle (not_lt.mp hout)
  count := by
    have := h.count
    simpa [hpc] using this

theorem fetch_ok {s : State} {before after : List Pc} (h : Ok mix data numThreads s)
    (hpc : s.threads = before ++ .looping :: after) (hlt : s.dataptr < data.length) :
    Ok mix data numThreads
      { s with threads := before ++ .storing s.dataptr s.optr :: after
               dataptr := s.dataptr + blockSize
               optr := s.optr + 1 } where
  dataptr_eq := by
    rw [h.dataptr_eq]
    ring
  optr_le := (hashCount_spec data.length s.optr).mpr (by rw [← h.dataptr_eq]; exact hlt)
  slots := by
    have hslots := h.slots
    rw [hpc, held_split] at hslots
    rw [held_split, List.range_succ, ← List.append_assoc]
    have hmoved : (s.stores ++ held before ++ (s.optr :: held after)).Perm
        (s.stores ++ held before ++ held after ++ [s.optr]) := by
      rw [List.append_assoc _ (held after)]
      exact (List.perm_append_singleton s.optr (held after)).symm.append_left _
    refine hmoved.trans (List.Perm.append_right [s.optr] ?_)
    simpa [Pc.slot] using hslots
  blocks cptr chash hmem := by
    simp only [List.mem_append, List.mem_cons, Pc.storing.injEq] at hmem
    rcases hmem with hmem | ⟨rfl, rfl⟩ | hmem
    · exact h.blocks cptr chash (by simp [hpc, hmem])
    · exact h.dataptr_eq
    · exact h.blocks cptr chash (by simp [hpc, hmem])
  length_eq := h.length_eq
  stored := h.stored
  exited hmem := by
    have hout := h.exited (by simpa [hpc] using hmem)
    have hin := (hashCount_spec data.length s.optr).mpr (by rw [← h.dataptr_eq]; exact hlt)
    omega
  count := by
    have := h.count
    simpa [hpc] using this

theorem store_ok {s : State} {before after : List Pc} {cptr chash : Nat}
    (h : Ok mix data numThreads s) (hpc : s.threads = before ++ .storing cptr chash :: after) :
    ∃ hash hashes, calculateAndStoreHash mix data cptr data.length = .ok hash ∧
      store s.hashes chash (some hash) = .ok hashes ∧
      Ok mix data numThreads
        { s with threads := before ++ .looping :: after
                 hashes
                 stores := s.stores ++ [chash] } := by
  have hslots := h.slots
  rw [hpc, held_split] at hslots
  have hmem : chash ∈ List.range s.optr := hslots.mem_iff.mp (by simp [Pc.slot])
  have hin : chash < hashCount data.length :=
    Nat.lt_of_lt_of_le (List.mem_range.mp hmem) h.optr_le
  obtain rfl : cptr = blockSize * chash := h.blocks cptr chash (by simp [hpc])
  have hinside := (hashCount_spec data.length chash).mp hin
  obtain ⟨hash, hhash⟩ : ∃ hash, HashOf mix data chash hash :=
    ⟨_, calculateAndStoreHash_eq hinside.le le_rfl⟩
  refine ⟨hash, s.hashes.set chash (some hash), hhash,
    Checked.store_ok (by rw [h.length_eq]; exact hin) _, ?_⟩
  exact
    { dataptr_eq := h.dataptr_eq
      optr_le := h.optr_le
      slots := by
        have hmoved : (s.stores ++ [chash] ++ (held before ++ held after)).Perm
            (s.stores ++ (held before ++ (chash :: held after))) := by
          rw [List.append_assoc, List.singleton_append]
          exact List.perm_middle.symm.append_left _
        rw [held_split]
        exact hmoved.trans hslots
      blocks := by
        intro c k hk
        simp only [List.mem_append, List.mem_cons, reduceCtorEq, false_or] at hk
        exact h.blocks c k (by simpa [hpc] using hk.imp_right .inr)
      length_eq := by simp [h.length_eq]
      stored := by
        intro k hk
        by_cases hkc : k = chash
        · subst hkc
          exact ⟨hash, hhash, by simp [h.length_eq, hin]⟩
        · rw [List.getElem?_set_ne (Ne.symm hkc)]
          exact h.stored k (by simpa [hkc] using hk)
      exited := fun hk => h.exited (by simpa [hpc] using hk)
      count := by
        have := h.count
        simpa [hpc] using this }

/-- A step of a run that has gone well goes well. -/
theorem step_ok {s : State} {r : Except Fault State} (h : Ok mix data numThreads s)
    (hstep : Step mix data s r) :
    ∃ s', r = .ok s' ∧ Ok mix data numThreads s' ∧
      s'.left data.length < s.left data.length := by
  cases hstep with
  | @finish before after hpc hend =>
    refine ⟨_, rfl, finish_ok h hpc hend, ?_⟩
    simp only [State.left, hpc, Pool.sum_split, Pc.left]
    omega
  | @fetch before after hpc hlt =>
    have hin := (hashCount_spec data.length s.optr).mpr (by rw [← h.dataptr_eq]; exact hlt)
    refine ⟨_, rfl, fetch_ok h hpc hlt, ?_⟩
    simp only [State.left, hpc, Pool.sum_split, Pc.left]
    omega
  | @store before after cptr chash hpc =>
    obtain ⟨hash, hashes, hhash, hstore, hok⟩ := store_ok h hpc
    refine ⟨_, by rw [hhash, ok_bind, hstore]; rfl, hok, ?_⟩
    simp only [State.left, hpc, Pool.sum_split, Pc.left]
    omega

theorem initial_ok : Ok mix data numThreads (.initial data numThreads) where
  dataptr_eq := rfl
  optr_le := Nat.zero_le _
  slots := by
    have hheld : held (List.replicate numThreads .looping) = [] := by
      simp [held, Pc.slot]
    simp [State.initial, hheld]
  blocks cptr chash hmem := by simp [State.initial] at hmem
  length_eq := by simp [State.initial]
  stored k hk := by cases hk
  exited hmem := by simp [State.initial] at hmem
  count := by simp [State.initial]

theorem run_ok {k : Nat} {s : State} (h : Run mix data numThreads k s) :
    Ok mix data numThreads s ∧
      k + s.left data.length ≤ 2 * hashCount data.length + numThreads := by
  induction h with
  | start =>
    refine ⟨initial_ok, ?_⟩
    simp [State.left, State.initial, Pc.left]
  | step _ hstep ih =>
    obtain ⟨hok, hleft⟩ := ih
    obtain ⟨s', hs', hok', hlt⟩ := step_ok hok hstep
    obtain rfl := Except.ok.inj hs'
    exact ⟨hok', by omega⟩

/-- As long as a thread is left, one can go on. -/
theorem ok_moves {s : State} (h : Ok mix data numThreads s) :
    (∀ pc ∈ s.threads, pc = .exited) ∨ ∃ s', Step mix data s (.ok s') := by
  have hmoves {r : Except Fault State} (hstep : Step mix data s r) :
      ∃ s', Step mix data s (.ok s') := by
    obtain ⟨s', rfl, -⟩ := step_ok h hstep
    exact ⟨s', hstep⟩
  by_cases hall : ∀ pc ∈ s.threads, pc = .exited
  · exact .inl hall
  · right
    simp only [not_forall] at hall
    obtain ⟨pc, hmem, hpc⟩ := hall
    obtain ⟨before, after, hsplit⟩ := List.append_of_mem hmem
    cases pc with
    | looping =>
      by_cases hlt : s.dataptr < data.length
      · exact hmoves (.fetch hsplit hlt)
      · exact hmoves (.finish hsplit (not_lt.mp hlt))
    | storing cptr chash => exact hmoves (.store hsplit)
    | exited => exact absurd rfl hpc

/-- Once all threads are gone every slot has been stored to once. -/
theorem Ok.all_stored {s : State} (h : Ok mix data numThreads s) (hthreads : 0 < numThreads)
    (hall : ∀ pc ∈ s.threads, pc = .exited) :
    s.stores.Perm (List.range (hashCount data.length)) := by
  have hheld : held s.threads = [] := by
    rw [held, List.filterMap_eq_nil_iff]
    intro pc hpc
    rw [hall pc hpc]
    rfl
  have hone : Pc.exited ∈ s.threads := by
    cases hs : s.threads with
    | nil =>
      have := h.count
      rw [hs] at this
      simp at this
      omega
    | cons pc rest =>
      rw [← hall pc (by simp [hs])]
      simp
  have hslots := h.slots
  rwa [hheld, List.append_nil, h.exited hone] at hslots

theorem Ok.entries {s : State} (h : Ok mix data numThreads s) (hthreads : 0 < numThreads)
    (hall : ∀ pc ∈ s.threads, pc = .exited) {k : Nat} (hk : k < hashCount data.length) :
    ∃ hash, HashOf mix data k hash ∧ s.hashes[k]? = some (some hash) :=
  h.stored k ((h.all_stored hthreads hall).mem_iff.mpr (List.mem_range.mpr hk))

/-- Any two runs to the end leave the same hashes. -/
theorem Ok.hashes_eq {s s' : State} {numThreads' : Nat} (h : Ok mix data numThreads s)
    (h' : Ok mix data numThreads' s') (hthreads : 0 < numThreads) (hthreads' : 0 < numThreads')
    (hall : ∀ pc ∈ s.threads, pc = .exited) (hall' : ∀ pc ∈ s'.threads, pc = .exited) :
    s.hashes = s'.hashes := by
  apply List.ext_getElem?
  intro k
  by_cases hk : k < hashCount data.length
  · obtain ⟨hash, hhash, hentry⟩ := h.entries hthreads hall hk
    obtain ⟨hash', hhash', hentry'⟩ := h'.entries hthreads' hall' hk
    obtain rfl := Except.ok.inj (hhash.symm.trans hhash')
    rw [hentry, hentry']
  · rw [List.getElem?_eq_none (by rw [h.length_eq]; omega),
      List.getElem?_eq_none (by rw [h'.length_eq]; omega)]

end Slots

/-- No run of the threads leaves the file or the slots, all of them end, and then each slot has
been stored to once and holds the hash of its block, as after a run of one thread. -/
theorem block_hashing_complete (mix : UInt32 → UInt32) (data : List UInt8) {numThreads : Nat}
    (hthreads : 1 ≤ numThreads) {k : Nat} {s : State} (hrun : Run mix data numThreads k s) :
    (∀ e, ¬ Step mix data s (.error e)) ∧
      k ≤ 2 * hashCount data.length + numThreads ∧
      ((∀ pc ∈ s.threads, pc = .exited) ∨ ∃ s', Step mix data s (.ok s')) ∧
      (∀ slot ∈ s.stores, slot < hashCount data.length) ∧
      ((∀ pc ∈ s.threads, pc = .exited) →
        (∀ slot < hashCount data.length, s.stores.count slot = 1 ∧ ∃ hash,
          calculateAndStoreHash mix data (blockSize * slot) data.length = .ok hash ∧
            s.hashes[slot]? = some (some hash)) ∧
        s.hashes.length = hashCount data.length ∧
        ∀ k' s', Run mix data 1 k' s' → (∀ pc ∈ s'.threads, pc = .exited) →
          s.hashes = s'.hashes) := by
  obtain ⟨hok, hleft⟩ := run_ok hrun
  refine ⟨fun e hstep => ?_, by omega, ok_moves hok, ?_, fun hall => ⟨?_, hok.length_eq, ?_⟩⟩
  · obtain ⟨s', hs', -⟩ := step_ok hok hstep
    cases hs'
  · intro slot hslot
    have hmem := List.mem_range.mp (hok.slots.mem_iff.mp (List.mem_append_left _ hslot))
    exact Nat.lt_of_lt_of_le hmem hok.optr_le
  · intro slot hslot
    refine ⟨?_, hok.entries hthreads hall hslot⟩
    rw [(hok.all_stored hthreads hall).count_eq]
    exact List.count_eq_one_of_mem List.nodup_range (List.mem_range.mpr hslot)
  · intro k' s' hrun' hall'
    exact hok.hashes_eq (run_ok hrun').1 hthreads Nat.one_pos hall hall'

/-- Two threads take a block each of a file that has two, and the one with the second stores
first. -/
theorem run_two_blocks {mix : UInt32 → UInt32} {data : List UInt8} {first second : UInt64}
    (hlength : data.length = 300)
    (hfirst : calculateAndStoreHash mix data 0 300 = .ok first)
    (hsecond : calculateAndStoreHash mix data 256 300 = .ok second) :
    Run mix data 2 6 ⟨[.exited, .exited], 512, 2, [some first, some second], [1, 0]⟩ := by
  have hstart : Run mix data 2 0 ⟨[.looping, .looping], 0, 0, [none, none], []⟩ := by
    have hinitial : State.initial data 2 = ⟨[.looping, .looping], 0, 0, [none, none], []⟩ := by
      rw [State.initial, hlength]
      rfl
    rw [← hinitial]
    exact .start
  have hfetched : Run mix data 2 2 ⟨[.storing 0 0, .storing 256 1], 512, 2, [none, none], []⟩ := by
    have hmore : 0 < data.length ∧ 256 < data.length := by omega
    exact .step (.step hstart (@Step.fetch _ _ _ [] [.looping] rfl hmore.1))
      (@Step.fetch _ _ _ [.storing 0 0] [] rfl hmore.2)
  have hstored : Run mix data 2 4
      ⟨[.looping, .looping], 512, 2, [some first, some second], [1, 0]⟩ := by
    have hlast : Step mix data ⟨[.storing 0 0, .storing 256 1], 512, 2, [none, none], []⟩
        (.ok ⟨[.storing 0 0, .looping], 512, 2, [none, some second], [1]⟩) := by
      have hstep := @Step.store mix data ⟨[.storing 0 0, .storing 256 1], 512, 2, [none, none], []⟩
        [.storing 0 0] [] 256 1 rfl
      rwa [hlength, hsecond] at hstep
    refine .step (.step hfetched hlast) ?_
    have hstep := @Step.store mix data ⟨[.storing 0 0, .looping], 512, 2, [none, some second], [1]⟩
      [] [.looping] 0 0 rfl
    rwa [hlength, hfirst] at hstep
  have hend : data.length ≤ 512 := by omega
  exact .step (.step hstored (@Step.finish _ _ _ [] [.looping] rfl hend))
    (@Step.finish _ _ _ [.exited] [] rfl hend)

/-- Two blocks, the second of them short. -/
def twoBlocks : List UInt8 := List.replicate 300 1

theorem two_blocks_hashed :
    (∀ slot < hashCount twoBlocks.length, [1, 0].count slot = 1 ∧ ∃ hash,
      calculateAndStoreHash id twoBlocks (blockSize * slot) twoBlocks.length = .ok hash ∧
        [some 0x20202020, some 0x0a0a0a0a][slot]? = some (some hash)) ∧
    2 = hashCount twoBlocks.length ∧
    ∀ k' s', Run id twoBlocks 1 k' s' → (∀ pc ∈ s'.threads, pc = .exited) →
      [some 0x20202020, some 0x0a0a0a0a] = s'.hashes := by
  have hrun := @run_two_blocks id twoBlocks 0x20202020 0x0a0a0a0a List.length_replicate
    (by decide +kernel) (by decide +kernel)
  obtain ⟨-, -, -, -, hfinished⟩ := block_hashing_complete id twoBlocks (by decide) hrun
  exact hfinished (by simp)

end Bootcamp.BlockHash
