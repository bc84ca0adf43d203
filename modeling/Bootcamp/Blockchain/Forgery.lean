import Bootcamp.Blockchain.Equivalence

/-! Money out of the stored maps. Day 3 looks up each of a chunk's last balances
in the map behind the chunk, but asks nothing of the other entries there, and the
next chunk is validated on all of them. -/
namespace Bootcamp

open BalanceMap (Same)

/-- No map credits an address with more than the blocks before it gave it. -/
def Backed (c : Crypto) (cs : List Chunk) : Prop :=
  Segments.Global (Body.accept c) (fun m stored => ∀ a, stored.amount a ≤ m.amount a) ∅
    (cs.map Chunk.segment)

/-- The map behind the chunk credits an address that has no entry in the balances
which the chunk leaves. -/
def Chunk.Forged (c : Crypto) (init : BalanceMap) (ch : Chunk) : Prop :=
  ∃ m, Body.acceptAll c init ch.blocks = some m ∧ ∃ a, m.find? a = none ∧ ch.map.amount a ≠ 0

theorem lastBalanceStored_iff {m stored : BalanceMap} : Day3.lastBalanceStored m stored = true ↔
    ∀ a v, m.find? a = some v → stored.find? a = some v := by
  simp only [Day3.lastBalanceStored, List.all_eq_true, decide_eq_true_eq]
  constructor
  · intro h a v hv
    exact h (a, v) (OrderedMap.find_eq_some.mp hv)
  · rintro h ⟨a, v⟩ hmem
    exact h a v (OrderedMap.find_eq_some.mpr hmem)

/-- What day 3 lets through is right for the addresses with an entry. -/
theorem amount_of_lastBalanceStored {m stored : BalanceMap} {a : HashResult}
    (h : Day3.lastBalanceStored m stored = true) (ha : m.find? a ≠ none) :
    m.amount a = stored.amount a := by
  obtain ⟨v, hv⟩ := Option.ne_none_iff_exists'.mp ha
  rw [BalanceMap.amount, BalanceMap.amount, hv, lastBalanceStored_iff.mp h a v hv]

theorem same_of_lastBalanceStored {m stored : BalanceMap}
    (h : Day3.lastBalanceStored m stored = true)
    (hextra : ∀ a, m.find? a = none → stored.amount a = 0) : Same m stored := by
  intro a
  by_cases ha : m.find? a = none
  · rw [hextra a ha, BalanceMap.amount, ha]
    rfl
  · exact amount_of_lastBalanceStored h ha

section

variable {c : Crypto} {data : Bytes} {cs : List Chunk} {init : BalanceMap} {ch : Chunk}

/-- Day 3 lacks half of day 4's comparison, and a forged map is what that half finds. -/
theorem Verifies.four (h : Verifies .three c init ch) (hno : ¬ ch.Forged c init) :
    Verifies .four c init ch := by
  obtain ⟨m, hm, hagrees⟩ := h
  refine ⟨m, hm, balanceMapsEqual_iff_same.mpr (same_of_lastBalanceStored hagrees ?_)⟩
  intro a ha
  by_contra hne
  exact hno ⟨m, hm, a, ha, hne⟩

theorem Verifies.not_forged (h : Verifies .four c init ch) : ¬ ch.Forged c init := by
  rintro ⟨m, hm, a, ha, hne⟩
  obtain ⟨m', hm', hagrees⟩ := h
  obtain rfl := Option.some.inj (hm.symm.trans hm')
  have hsame := balanceMapsEqual_iff_same.mp hagrees a
  rw [BalanceMap.amount, ha] at hsame
  exact hne hsame.symm

theorem Sequential.backed (h : Sequential c cs) :
    (Body.acceptAll c ∅ (cs.flatMap Chunk.blocks)).isSome ∧ Backed c cs := by
  constructor
  · obtain ⟨m, hm⟩ := Segments.Global.run h
    rw [List.flatMap_map] at hm
    exact Option.isSome_iff_exists.mpr ⟨m, hm⟩
  · apply Segments.Global.mono h
    intro m stored hequal a
    rw [balanceMapsEqual_iff_same.mp hequal a]
    exact UInt64.le_refl _

/-- Where the maps are backed, day 3's check is as good as day 4's. -/
theorem Backed.sequential (hbacked : Backed c cs)
    (hv : ∀ k ch, cs[k]? = some ch → Verifies .three c (initAt cs k) ch) : Sequential c cs := by
  have hlocal := local_iff_verifies.mpr hv
  have hcong : ∀ m m' b m₁, Same m m' → Body.accept c m b = some m₁ →
      ∃ m₁', Body.accept c m' b = some m₁' ∧ Same m₁ m₁' := fun _ _ _ _ => Body.accept_same
  have hsame : Segments.Local (Body.accept c) Same ∅ (cs.map Chunk.segment) := by
    apply Segments.Local.strengthen hcong ⟨.refl, .symm, .trans⟩ (.refl ∅) hlocal hbacked
    intro m m' stored hstored hm hbound
    apply same_of_lastBalanceStored hstored
    intro a ha
    have hzero : m.amount a = 0 := by
      rw [BalanceMap.amount, ha]
      rfl
    have hle := hbound a
    rw [← hm a, hzero] at hle
    exact UInt64.le_antisymm hle UInt64.zero_le
  apply sequential_iff.mpr
  apply local_iff_verifies.mp
  have hagrees : (fun m m' => ChunkDay.four.agrees m m' = true) = Same := by
    funext m m'
    exact propext balanceMapsEqual_iff_same
  rwa [hagrees]

end

/-- What day 3 prints about a linear chain is backed by the chain, in every run, unless
every chunk passes its check and some stored map is forged. -/
theorem day3_readindexed_backed_iff {c : Crypto} {data : Bytes} {cs : List Chunk} {bn : Body}
    (hfile : ChainFile data cs) (hbn : (cs.flatMap Chunk.blocks).getLast? = some bn) :
    (∀ (run : Run ChunkDay.three.readChunk c data) (len : UInt32),
        run.line = .ok (.blk bn.blkHash len) → len.toNat = (cs.flatMap Chunk.blocks).length →
        (Body.acceptAll c ∅ (cs.flatMap Chunk.blocks)).isSome ∧ Backed c cs) ↔
      ¬ ((cs.flatMap Chunk.blocks).length < 2 ^ 32 ∧
        (∀ k ch, cs[k]? = some ch → Verifies .three c (initAt cs k) ch) ∧
        ∃ (k : Nat) (ch : Chunk), cs[k]? = some ch ∧ ch.Forged c (initAt cs k)) := by
  constructor
  · rintro h ⟨hn, hv, k, ch, hk, hforged⟩
    obtain ⟨run⟩ := exists_run hfile hv
    have hall : run.AllComplete cs := Run.allComplete hfile hv
    have hprints := hall.prints hfile hn
    rw [Body.endHash_of_getLast hbn] at hprints
    have hlen := UInt32.toNat_ofNat_of_lt' (n := (cs.flatMap Chunk.blocks).length)
      (by simp only [UInt32.size]; omega)
    obtain ⟨-, hbacked⟩ := h run _ hprints hlen
    exact (sequential_iff.mp (hbacked.sequential hv) k ch hk).not_forged hforged
  · intro hno run len hline hlen
    have hv : ∀ k ch, cs[k]? = some ch → Verifies .three c (initAt cs k) ch :=
      fun k ch hk => Run.verifies_of_prints hfile hline hlen hk
    apply Sequential.backed
    rw [sequential_iff]
    intro k ch hk
    apply (hv k ch hk).four
    intro hforged
    exact hno ⟨by have := len.toNat_lt; omega, hv, k, ch, hk, hforged⟩

def twoChunksRun3 : Run ChunkDay.three.readChunk .toy (indexedFile twoChunks) :=
  Run.inOrder twoChunksHeader twoChunksRun.extracted twoChunksRun.count (by decide +kernel)

theorem two_chunks_backed :
    (Body.acceptAll .toy ∅ (twoChunks.flatMap Chunk.blocks)).isSome ∧ Backed .toy twoChunks := by
  refine (day3_readindexed_backed_iff twoChunks_chainFile rfl).mpr ?_ twoChunksRun3 2
    (by decide +kernel) rfl
  rintro ⟨-, -, k, ch, hk, hforged⟩
  exact (sequential_iff.mp twoChunks_sequential k ch hk).not_forged hforged

/-! ## A forged map -/

/-- The key `[9]` pays 30 from address 10. -/
def forgedSpend : Txn :=
  let tx : Txn :=
    { publicKey := [9], sourceAddr := .ofNat 10, destAddr := .ofNat 6, changeAddr := .ofNat 7,
      amount := 30, txHash := .zero, txSign := [1] }
  { tx with txHash := Crypto.toy.sha256 tx.preimage }

/-- The first block's map has 1000 for address 10 besides the reward. -/
def forgedChunks : List Chunk :=
  let forged := BalanceMap.credit (BalanceMap.credit ∅ (.ofNat 5) 100) (.ofNat 10) 1000
  let block : Body := { secondBlock with transactions := [forgedSpend] }
  [⟨[firstBlock], forged⟩, ⟨[block], (block.accept .toy forged).getD ∅⟩]

def forgedRun : Run ChunkDay.three.readChunk .toy (indexedFile forgedChunks) :=
  Run.inOrder ⟨52, 2, [52, 236], [152, 482], [84, 164]⟩ (by decide +kernel) (by decide)
    (by decide +kernel)

/-- Day 3 reports both blocks, though the chain gives address 10 nothing to spend. -/
theorem day3_readindexed_forged : ¬ ∀ (c : Crypto) (data : Bytes) (cs : List Chunk) (bn : Body),
    ChainFile data cs → (cs.flatMap Chunk.blocks).getLast? = some bn →
    ∀ (run : Run ChunkDay.three.readChunk c data) (len : UInt32),
      run.line = .ok (.blk bn.blkHash len) → len.toNat = (cs.flatMap Chunk.blocks).length →
      (Body.acceptAll c ∅ (cs.flatMap Chunk.blocks)).isSome := by
  intro h
  have hfile : ChainFile (indexedFile forgedChunks) forgedChunks :=
    .indexed (by decide) (by decide) (by decide +kernel)
      ⟨by decide, by decide, by decide, by decide⟩ (by decide +kernel)
  have hline : forgedRun.line = .ok (.blk (.ofNat 2) 2) := by decide +kernel
  have hsome := h .toy _ forgedChunks _ hfile rfl forgedRun 2 hline rfl
  have hnone : Body.acceptAll .toy ∅ (forgedChunks.flatMap Chunk.blocks) = none := by decide +kernel
  rw [hnone] at hsome
  cases hsome

end Bootcamp
