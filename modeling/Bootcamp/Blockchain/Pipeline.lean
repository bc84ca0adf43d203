import Bootcamp.Blockchain.Forgery
import Bootcamp.Blockchain.Unvalidated
import Bootcamp.Blockchain.Generated
import Bootcamp.Blockchain.Tamper

/-! The tools one behind the other. `rewritechain` indexes what it loaded without
looking at what validation said; `readindexed`, whichever day's, then finds out. -/
namespace Bootcamp

open Chains (Chain)

/-! ## Files with true maps -/

/-- Each stored map is what the blocks up to it leave, if they are valid. -/
def TrueMaps (c : Crypto) (cs : List Chunk) : Prop :=
  Segments.Exact (Body.accept c) ∅ (cs.map Chunk.segment)

theorem ChunkDay.agrees_refl (day : ChunkDay) (m : BalanceMap) : day.agrees m m = true := by
  cases day with
  | three => exact lastBalanceStored_iff.mpr fun _ _ h => h
  | four => exact balanceMapsEqual_iff_same.mpr (.refl m)

section

variable {day : ChunkDay} {c : Crypto} {data : Bytes} {cs : List Chunk}

/-- With true maps the chunks verify when the chain is valid, on either day. -/
theorem TrueMaps.verifies_iff (h : TrueMaps c cs) :
    (∀ k ch, cs[k]? = some ch → Verifies day c (initAt cs k) ch) ↔
      (Body.acceptAll c ∅ (cs.flatMap Chunk.blocks)).isSome := by
  have hblocks : (cs.map Chunk.segment).flatMap Prod.fst = cs.flatMap Chunk.blocks := by
    rw [List.flatMap_map]
    rfl
  rw [← local_iff_verifies, Segments.Exact.local_iff_run day.agrees_refl h, hblocks,
    Option.isSome_iff_exists]
  rfl

/-- So a run prints the end of the chain exactly when the chain is valid. -/
theorem ChainFile.prints_iff (hfile : ChainFile data cs) (hmaps : TrueMaps c cs)
    (hn : (cs.flatMap Chunk.blocks).length < 2 ^ 32) (run : Run day.readChunk c data) :
    run.line = .ok (.blk (Body.endHash .zero (cs.flatMap Chunk.blocks))
        (.ofNat (cs.flatMap Chunk.blocks).length)) ↔
      (Body.acceptAll c ∅ (cs.flatMap Chunk.blocks)).isSome := by
  rw [← @TrueMaps.verifies_iff day c cs hmaps]
  constructor
  · intro hline k ch hk
    have hlen : (UInt32.ofNat (cs.flatMap Chunk.blocks).length).toNat =
        (cs.flatMap Chunk.blocks).length :=
      UInt32.toNat_ofNat_of_lt' (by simp only [UInt32.size]; omega)
    exact Run.verifies_of_prints hfile hline hlen hk
  · intro hv
    exact (Run.allComplete hfile hv).prints hfile hn

theorem ChainFile.exists_run (hfile : ChainFile data cs) (hmaps : TrueMaps c cs)
    (hv : (Body.acceptAll c ∅ (cs.flatMap Chunk.blocks)).isSome) :
    Nonempty (Run day.readChunk c data) :=
  Bootcamp.exists_run hfile (hmaps.verifies_iff.mpr hv)

end

namespace Rewritechain

variable {c : Crypto} {st : LoadState} {t : Ptr} {l : List Ptr}

theorem bodies_chunks (heap : Heap) (gs : List (List Ptr)) :
    (gs.map (chunkOf heap)).flatMap Chunk.blocks = bodies heap gs.flatten := by
  rw [List.flatMap_map, bodies, List.map_flatten, List.flatMap_def]
  rfl

/-- What validation left in the blocks is what `rewritechain` puts behind the chunks,
so the maps are true. -/
theorem exact_chunks (hi : Loaded st) (hj : Judged c st) (hl : Chain st.heap.prev t l)
    (ht : Allocated st t) {done : List Ptr} {gs : List (List Ptr)} (hne : ∀ g ∈ gs, g ≠ [])
    (hsplit : l.reverse = done ++ gs.flatten) {m : BalanceMap}
    (hm : Body.acceptAll c ∅ (bodies st.heap done) = some m) :
    Segments.Exact (Body.accept c) m ((gs.map (chunkOf st.heap)).map Chunk.segment) := by
  induction gs generalizing done m with
  | nil => trivial
  | cons g gs ih =>
    obtain ⟨hg, hrest⟩ := List.forall_mem_cons.mp hne
    intro m' hm'
    have hfront : Body.acceptAll c ∅ (bodies st.heap (done ++ g)) = some m' := by
      rw [bodies, List.map_append, Body.acceptAll_append]
      exact Option.bind_eq_some_iff.mpr ⟨m, hm, hm'⟩
    have hsplit : l.reverse = done ++ g ++ gs.flatten := by
      rw [hsplit, List.flatten_cons, List.append_assoc]
    obtain ⟨init, x, rfl⟩ := (List.eq_nil_or_concat' g).resolve_left hg
    have hlast : l.reverse = (done ++ init) ++ x :: gs.flatten := by
      rw [hsplit]
      simp
    rw [← List.append_assoc] at hfront
    have hbalances := ((acceptAll_front hi hj hl ht hlast).mp hfront).2
    have hmap : (chunkOf st.heap (init ++ [x])).map = (st.heap x).balances := by simp [chunkOf]
    refine ⟨hbalances.trans hmap.symm, ?_⟩
    rw [← hbalances.trans hmap.symm]
    exact ih hrest hsplit (by rw [← List.append_assoc]; exact hfront)

/-- A loaded block names the one it points to. -/
structure Threaded (st : LoadState) : Prop where
  keyed : ∀ h x, st.bmap.find? h = some x → (st.heap x).blkHash = h
  linked : ∀ x q, Allocated st x → st.heap.prev x = some q →
    (st.heap x).prevHash = (st.heap q).blkHash

theorem Threaded.start : Threaded .start where
  keyed _ _ hx := nomatch hx
  linked _ _ hx := absurd hx.2 (Nat.not_lt_zero _)

theorem Threaded.visit {st' : LoadState} {n : Nat} {b : Body} (hi : Loaded st) (hs : Threaded st)
    (h : visit c st n (Block.attached st.heap st.bmap b) = .ok st') : Threaded st' := by
  obtain ⟨valid, m, -, hheap, hbmap, -, -⟩ := visit_eq_ok h
  have hself : st'.heap ⟨0, st.i⟩ = { Block.attached st.heap st.bmap b with balances := m } := by
    rw [hheap, Heap.set_self]
  refine ⟨?_, ?_⟩
  · intro k x hx
    rw [hbmap] at hx
    split_ifs at hx with hk
    · obtain rfl := Option.some.inj hx
      rw [hself, hk]
    · rw [visit_old h (hi.keyed k x hx)]
      exact hs.keyed k x hx
  · intro x q hx hsome
    rcases (visit_allocated h).mp hx with rfl | hx
    · rw [Heap.prev, hself] at hsome
      rcases Block.attached_cases st.heap st.bmap b with ⟨hnone, -⟩ | ⟨q', hq', -, hf, -⟩
      · exact absurd (hnone.symm.trans hsome) (by simp)
      · obtain rfl := Option.some.inj (hq'.symm.trans hsome)
        rw [hself, visit_old h (hi.keyed _ _ hf), hs.keyed _ _ hf]
        simp
    · rw [Heap.prev, visit_old h hx] at hsome
      rw [visit_old h hx, visit_old h (hi.linked x q hx hsome).1]
      exact hs.linked x q hx hsome

theorem threaded_of_load {data : Bytes} (h : load c data = .ok st) : Threaded st := by
  obtain ⟨s, rfl, hreach, -⟩ := Reader.run_eq_ok h
  have hboth : Loaded s.state ∧ Threaded s.state := by
    refine Loop.Reaches.invariant (I := fun s => Loaded s.state ∧ Threaded s.state) hreach
      ⟨.start, .start⟩ ?_
    rintro a b _ ⟨hi, hs⟩ hturn
    obtain ⟨n, body, -, -, hv, -, -⟩ := Reader.turn_iff.mp hturn
    exact ⟨hi.visit (n := n) hv, hs.visit (n := n) hi hv⟩
  exact hboth.2

/-- The bodies of a chain from a coinbase are linked, and end with the name of its start. -/
theorem Threaded.linked_bodies (hs : Threaded st) (hi : Loaded st) {x : Ptr}
    (hl : Chain st.heap.prev x l) (hx : Allocated st x)
    (hroot : ∀ root ∈ l.getLast?, (st.heap root).prevHash = .zero) :
    Body.Linked .zero (bodies st.heap l.reverse) ∧
      Body.endHash .zero (bodies st.heap l.reverse) = (st.heap x).blkHash := by
  induction hl with
  | @last x _ => exact ⟨⟨hroot x rfl, trivial⟩, rfl⟩
  | @link x q l hsome hl ih =>
    rw [List.getLast?_cons_of_ne_nil hl.ne_nil] at hroot
    obtain ⟨hlinked, hend⟩ := ih (hi.linked x q hx hsome).1 hroot
    rw [List.reverse_cons, bodies, List.map_append, Body.linked_append, Body.endHash_append]
    rw [bodies] at hlinked hend
    rw [hend]
    exact ⟨⟨hlinked, hs.linked x q hx hsome, trivial⟩, rfl⟩

end Rewritechain

/-! ## How large an indexed file is -/

theorem Body.Writable.size_le {b : Body} (h : b.Writable) : b.size ≤ 140260 := by
  have hsum : (b.transactions.map Txn.size).sum ≤ b.transactions.length * 2190 := by
    have hle := List.sum_le_card_nsmul (b.transactions.map Txn.size) 2190 (by
      intro n hn
      obtain ⟨tx, htx, rfl⟩ := List.mem_map.mp hn
      obtain ⟨-, hkey, -, hsign⟩ := h.each tx htx
      simp only [Txn.size]
      omega)
    simpa using hle
  have hcount := h.count
  rw [maxTransactions] at hcount
  rw [Body.size]
  omega

theorem length_chunks_le {cs : List Chunk} (hw : ∀ b ∈ cs.flatMap Chunk.blocks, b.Writable)
    (hmaps : ∀ ch ∈ cs, ch.map.size < 2 ^ 32) : (cs.flatMap Chunk.bytes).length ≤
      (cs.flatMap Chunk.blocks).length * 140260 + cs.length * (4 + 40 * 2 ^ 32) := by
  induction cs with
  | nil => simp
  | cons ch cs ih =>
    rw [List.flatMap_cons, List.forall_mem_append] at hw
    obtain ⟨hmap, hmaps⟩ := List.forall_mem_cons.mp hmaps
    have hblocks : ch.blockBytes.length ≤ ch.blocks.length * 140260 := by
      have hle := List.sum_le_card_nsmul (ch.blocks.map Body.size) 140260 (by
        intro n hn
        obtain ⟨b, hb, rfl⟩ := List.mem_map.mp hn
        exact (hw.1 b hb).size_le)
      rw [Chunk.blockBytes, Body.length_encodings]
      simpa using hle
    have hmapBytes : ch.mapBytes.length ≤ 4 + 40 * 2 ^ 32 := by
      rw [Chunk.mapBytes, length_writeBalanceMap, balanceMapSize]
      omega
    have hrest := ih hw.2 hmaps
    rw [List.flatMap_cons, List.flatMap_cons, List.length_append, List.length_append,
      Chunk.length_bytes, List.length_cons]
    omega

/-- Far below 2^64 bytes, where the maps can be stored at all. -/
theorem length_indexedFile_lt {cs : List Chunk} (hw : ∀ b ∈ cs.flatMap Chunk.blocks, b.Writable)
    (hmaps : ∀ ch ∈ cs, ch.map.size < 2 ^ 32) (hcount : cs.length ≤ 32)
    (hn : (cs.flatMap Chunk.blocks).length < 2 ^ 30) : (indexedFile cs).length < 2 ^ 64 := by
  have hchunks := length_chunks_le hw hmaps
  rw [length_indexedFile (by omega)]
  omega

/-! ## From a sequential file to the verdict -/

namespace Rewritechain

variable {c : Crypto} {data : Bytes} {st : LoadState} {t : Ptr} {l : List Ptr} {chunks : UInt32}

/-- What the chain of the tip has to fulfil so that a file of it can be read back. -/
structure Indexable (st : LoadState) (t : Ptr) (l : List Ptr) : Prop where
  tip : st.tip = some t
  chain : Chain st.heap.prev t l
  coinbase : ∀ root ∈ l.getLast?, (st.heap root).prevHash = .zero
  writable : ∀ x ∈ l, (st.heap x).Writable
  maps : ∀ x ∈ l, (st.heap x).balances.size < 2 ^ 32
  named : ∀ x ∈ l, (st.heap x).blkHash ≠ .zero
  distinct : (l.map fun x => (st.heap x).blkHash).Nodup

theorem Indexable.linearChain (h : Indexable st t l) (hi : Loaded st) (hs : Threaded st) :
    LinearChain (bodies st.heap l.reverse) := by
  refine ⟨?_, (hs.linked_bodies hi h.chain (hi.tip t h.tip) h.coinbase).1, ?_, ?_⟩
  · intro b hb
    obtain ⟨x, hx, rfl⟩ := List.mem_map.mp hb
    exact h.writable x (List.mem_reverse.mp hx)
  · intro b hb
    obtain ⟨x, hx, rfl⟩ := List.mem_map.mp hb
    exact h.named x (List.mem_reverse.mp hx)
  · rw [bodies, List.map_map, List.map_reverse, List.nodup_reverse]
    exact h.distinct

/-- The map behind a chunk is that of a block on the chain. -/
theorem Indexable.maps_lt (h : Indexable st t l) {gs : List (List Ptr)} (hne : ∀ g ∈ gs, g ≠ [])
    (hflat : gs.flatten = l.reverse) : ∀ ch ∈ gs.map (chunkOf st.heap), ch.map.size < 2 ^ 32 := by
  intro ch hch
  obtain ⟨g, hg, rfl⟩ := List.mem_map.mp hch
  have hlast : g.getLast? = some (g.getLast (hne g hg)) := List.getLast?_eq_some_getLast _
  have hmem : g.getLast (hne g hg) ∈ l := by
    rw [← List.mem_reverse, ← hflat]
    exact List.mem_flatten.mpr ⟨g, hg, List.getLast_mem _⟩
  rw [chunkOf, hlast]
  exact h.maps _ hmem

/-- The file that `rewritechain` writes of a loaded chain, and what is in it. -/
theorem Indexable.written (h : Indexable st t l) (hload : load c data = .ok st)
    (h2 : 2 ≤ chunks.toNat) (h32 : chunks.toNat ≤ 32) (hk : chunks.toNat ≤ l.length)
    (hn : l.length < 2 ^ 30) : ∃ cs, main c data chunks = .ok (indexedFile cs) ∧
      ChainFile (indexedFile cs) cs ∧ TrueMaps c cs ∧
      cs.flatMap Chunk.blocks = bodies st.heap l.reverse := by
  have hi := load_loaded hload
  have ht := hi.tip t h.tip
  have hlen : (st.heap t).length.toNat = l.length := by
    rw [hi.length_eq h.chain ht]
    exact UInt32.toNat_ofNat_of_lt' (by simp only [UInt32.size]; omega)
  obtain ⟨l', hl', hle⟩ := hi.exists_chain ht
  obtain rfl := h.chain.unique hl'
  have hobj : l.length ≤ st.i := by
    have := ht.2
    omega
  obtain ⟨gs, hgs, hne, hflat, hfile⟩ := rewriteChain_eq h.chain hobj hlen h.writable h2 hk hn
  have hchain := h.linearChain hi (threaded_of_load hload)
  have hblocks : (gs.map (chunkOf st.heap)).flatMap Chunk.blocks = bodies st.heap l.reverse := by
    rw [bodies_chunks, hflat]
  have hcount : (gs.map (chunkOf st.heap)).length = chunks.toNat := by rw [List.length_map, hgs]
  have hlength : (bodies st.heap l.reverse).length = l.length := by simp [bodies]
  refine ⟨gs.map (chunkOf st.heap), ?_, ?_, ?_, hblocks⟩
  · rw [main, hload, Except.ok_bind, h.tip]
    exact hfile
  · rw [← hblocks] at hchain hlength
    have hmaps := h.maps_lt hne hflat
    refine .indexed (by omega) ?_ hmaps hchain
      (length_indexedFile_lt hchain.writable hmaps (by omega) (by omega))
    intro ch hch
    obtain ⟨g, hg, rfl⟩ := List.mem_map.mp hch
    simpa [chunkOf] using hne g hg
  · have hsplit : l.reverse = [] ++ gs.flatten := by simpa using hflat.symm
    exact exact_chunks hi (judged_of_load hload) h.chain ht hne hsplit rfl

end Rewritechain

open Rewritechain (bodies Indexable)

/-- `rewritechain` stops at no invalid block and `readindexed` lets none through: whatever
file it loads, cut into however many chunks, every run of either day prints the tip that
`rewritechain` saw exactly when the whole chain is valid, and then there is a run. -/
theorem rewritten_chain_verified {c : Crypto} {data : Bytes} {st : LoadState} {t : Ptr} {l : List Ptr}
    {chunks : UInt32} (hload : Rewritechain.load c data = .ok st) (h : Indexable st t l)
    (h2 : 2 ≤ chunks.toNat) (h32 : chunks.toNat ≤ 32) (hk : chunks.toNat ≤ l.length)
    (hn : l.length < 2 ^ 30) : ∃ out, Rewritechain.main c data chunks = .ok out ∧
      ∀ day : ChunkDay, ((Body.acceptAll c ∅ (bodies st.heap l.reverse)).isSome →
          Nonempty (Run day.readChunk c out)) ∧
        ∀ run : Run day.readChunk c out,
          run.line = .ok (.blk (st.heap t).blkHash (st.heap t).length) ↔
            (Body.acceptAll c ∅ (bodies st.heap l.reverse)).isSome := by
  have hi := Rewritechain.load_loaded hload
  have ht := hi.tip t h.tip
  obtain ⟨cs, hmain, hfile, hmaps, hblocks⟩ := h.written hload h2 h32 hk hn
  have hend := ((Rewritechain.threaded_of_load hload).linked_bodies hi h.chain ht h.coinbase).2
  have hlength : (bodies st.heap l.reverse).length = l.length := by simp [bodies]
  refine ⟨indexedFile cs, hmain, fun day => ⟨fun hv => ?_, fun run => ?_⟩⟩
  · exact hfile.exists_run hmaps (by rw [hblocks]; exact hv)
  · have hprints := hfile.prints_iff hmaps (by rw [hblocks]; omega) run
    rw [hblocks, hend, hlength, ← hi.length_eq h.chain ht] at hprints
    exact hprints

theorem two_empties_verified : ∃ st t out,
    Rewritechain.load .toy ((Rewritechain.empties 2).flatMap Body.encoding) = .ok st ∧
      Rewritechain.main .toy ((Rewritechain.empties 2).flatMap Body.encoding) 2 = .ok out ∧
      ∀ day : ChunkDay, ((Body.acceptAll .toy ∅
            (bodies st.heap (Rewritechain.addresses 2).reverse.reverse)).isSome →
          Nonempty (Run day.readChunk .toy out)) ∧
        ∀ run : Run day.readChunk .toy out,
          run.line = .ok (.blk (st.heap t).blkHash (st.heap t).length) ↔
            (Body.acceptAll .toy ∅
              (bodies st.heap (Rewritechain.addresses 2).reverse.reverse)).isSome := by
  obtain ⟨st, hload, hst⟩ := Rewritechain.load_empties (show 2 < 2 ^ 256 by decide)
  have hbody (x : Ptr) (hx : x ∈ (Rewritechain.addresses 2).reverse) : ∃ k < 2, x = ⟨0, k⟩ ∧
      (st.heap x).toBody = emptyBlock (.ofNat k) k := by
    obtain ⟨k, hk, rfl⟩ := Rewritechain.mem_addresses.mp (List.mem_reverse.mp hx)
    exact ⟨k, hk, rfl, hst.body k hk⟩
  have hindexable : Indexable st ⟨0, 1⟩ (Rewritechain.addresses 2).reverse := by
    refine ⟨hst.tip (by decide), hst.chain (by decide), ?_, hst.writable, ?_, ?_, ?_⟩
    · intro root hroot
      obtain rfl : ⟨0, 0⟩ = root := Option.some.inj hroot
      rw [hst.body 0 (by decide)]
      rfl
    · intro x hx
      obtain ⟨k, hk, rfl, -⟩ := hbody x hx
      rw [hst.balances k hk, size_emptyBalances (by omega)]
      omega
    · intro x hx
      obtain ⟨k, hk, -, heq⟩ := hbody x hx
      rw [heq]
      exact HashResult.ofNat_ne_zero (by omega) (Nat.succ_ne_zero _)
    · have hhashes : ((Rewritechain.addresses 2).reverse.map fun x => (st.heap x).blkHash) =
          [.ofNat 2, .ofNat 1] := by
        have h0 := congrArg Body.blkHash (hst.body 0 (by decide))
        have h1 := congrArg Body.blkHash (hst.body 1 (by decide))
        rw [show (Rewritechain.addresses 2).reverse = [⟨0, 1⟩, ⟨0, 0⟩] from rfl, List.map_cons,
          List.map_singleton, h0, h1]
        rfl
      rw [hhashes]
      decide
  obtain ⟨out, hout⟩ := rewritten_chain_verified hload hindexable
    (show 2 ≤ (2 : UInt32).toNat by decide) (by decide) (by decide) (by decide)
  exact ⟨st, ⟨0, 1⟩, out, hload, hout⟩

/-! ## A valid chain through all the tools -/

/-- A transaction leaves at most two new entries, the reward one. -/
theorem Body.size_of_applyTransactions {c : Crypto} {txs : List Txn} {m m' : BalanceMap}
    (h : applyTransactions c txs m = .ok (true, m')) : m'.size ≤ m.size + 2 * txs.length := by
  induction txs generalizing m with
  | nil =>
    obtain ⟨-, rfl⟩ := Prod.mk.inj (Except.ok.inj h)
    exact le_rfl
  | cons tx txs ih =>
    obtain ⟨-, -, h⟩ := applyTransactions_cons.mp h
    have hrest := ih h
    have hdest := OrderedMap.size_insert_le m tx.destAddr (m.amount tx.destAddr + tx.amount)
    have hchange := OrderedMap.size_insert_le (m.credit tx.destAddr tx.amount) tx.changeAddr
      ((m.credit tx.destAddr tx.amount).amount tx.changeAddr +
        (m.amount tx.sourceAddr - tx.amount))
    have hsource := OrderedMap.size_erase_le ((m.credit tx.destAddr tx.amount).credit tx.changeAddr
      (m.amount tx.sourceAddr - tx.amount)) tx.sourceAddr
    rw [Txn.applied] at hrest
    rw [List.length_cons]
    rw [← BalanceMap.credit] at hdest hchange
    omega

theorem Body.size_of_accept {c : Crypto} {b : Body} {m m' : BalanceMap} (hw : b.Writable)
    (h : b.accept c m = some m') : m'.size ≤ m.size + 129 := by
  obtain ⟨m₁, htxs, rfl, -⟩ := validate_eq_true.mp (accept_eq_some.mp h)
  have hsize := size_of_applyTransactions htxs
  have hreward := OrderedMap.size_insert_le m₁ b.rewardAddr (m₁.amount b.rewardAddr + blockReward)
  have hcount := hw.count
  rw [maxTransactions] at hcount
  rw [← BalanceMap.credit] at hreward
  omega

namespace Rewritechain

/-- The blocks `bs` have been loaded one on top of the other, up to one with the hash `h` and
the balances `m`. -/
structure Stacked (st : LoadState) (bs : List Body) (h : HashResult) (m : BalanceMap) : Prop where
  count : st.i = bs.length
  body : ∀ k b, bs[k]? = some b → (st.heap ⟨0, k⟩).toBody = b
  prev : ∀ k < bs.length, st.heap.prev ⟨0, k⟩ = if k = 0 then none else some ⟨0, k - 1⟩
  maps : ∀ k < bs.length, (st.heap ⟨0, k⟩).balances.size ≤ 129 * (k + 1)
  bottom : bs = [] → h = .zero ∧ m = ∅
  top : bs ≠ [] → h ≠ .zero ∧ st.tip = some ⟨0, bs.length - 1⟩ ∧
    st.bmap.find? h = some ⟨0, bs.length - 1⟩ ∧ (st.heap ⟨0, bs.length - 1⟩).balances = m

namespace Stacked

variable {c : Crypto} {st : LoadState} {bs : List Body} {b : Body} {h : HashResult}
  {m m' : BalanceMap}

theorem start : Stacked .start [] .zero ∅ where
  count := rfl
  body := by simp
  prev := by simp
  maps := by simp
  bottom _ := ⟨rfl, rfl⟩
  top hne := absurd rfl hne

theorem prev_attached (hst : Stacked st bs h m) (hb : b.prevHash = h) :
    (Block.attached st.heap st.bmap b).prevBlock =
      if bs.length = 0 then none else some ⟨0, bs.length - 1⟩ := by
  by_cases hbs : bs = []
  · have hz : b.prevHash = .zero := hb.trans (hst.bottom hbs).1
    rw [if_pos (by rw [hbs]; rfl)]
    rcases Block.attached_cases st.heap st.bmap b with ⟨hnone, -⟩ | ⟨q, -, hne, -⟩
    · exact hnone
    · exact absurd hz hne
  · obtain ⟨hne, -, hfind, -⟩ := hst.top hbs
    rw [if_neg (by simpa using hbs)]
    rcases Block.attached_cases st.heap st.bmap b with ⟨-, -, hz | hnone⟩ | ⟨q, hq, -, hf, -⟩
    · exact absurd (hb.symm.trans hz) hne
    · rw [hb] at hnone
      cases hnone.symm.trans hfind
    · rw [hb] at hf
      rw [hq, ← hf, hfind]

/-- What the next block is validated on. -/
theorem resetBalances_attached (hst : Stacked st bs h m) (hb : b.prevHash = h) :
    (Block.attached st.heap st.bmap b).resetBalances st.heap = m := by
  have hprev := hst.prev_attached hb
  by_cases hbs : bs = []
  · rw [if_pos (by rw [hbs]; rfl)] at hprev
    rw [Block.resetBalances_none hprev, (hst.bottom hbs).2]
  · rw [if_neg (by simpa using hbs)] at hprev
    rw [Block.resetBalances_some hprev, (hst.top hbs).2.2.2]

theorem size_le (hst : Stacked st bs h m) : m.size ≤ 129 * bs.length := by
  by_cases hbs : bs = []
  · rw [(hst.bottom hbs).2]
    exact Nat.zero_le _
  · have hpos := List.length_pos_iff.mpr hbs
    have hmap := hst.maps (bs.length - 1) (by omega)
    rw [(hst.top hbs).2.2.2] at hmap
    omega

/-- A valid block goes on top. -/
theorem step (hst : Stacked st bs h m) (hb : b.prevHash = h) (hz : b.blkHash ≠ .zero)
    (hw : b.Writable) (hv : b.accept c m = some m') :
    ∃ st', (loader c).step st b = .ok st' ∧ Stacked st' (bs ++ [b]) b.blkHash m' := by
  have hprev := hst.prev_attached hb
  have hm : (Block.attached st.heap st.bmap b).toBody.validate c
      ((Block.attached st.heap st.bmap b).resetBalances st.heap) = .ok (true, m') := by
    rw [Block.attached_toBody, hst.resetBalances_attached hb]
    exact Body.accept_eq_some.mp hv
  have hassert : st.i = 0 ∨ (Block.attached st.heap st.bmap b).prevBlock ≠ none := by
    rw [hprev, hst.count]
    by_cases h0 : bs.length = 0
    · exact .inl h0
    · exact .inr (by simp [h0])
  obtain ⟨st', hvisit⟩ := visit_ok b.size hm hassert
  obtain ⟨valid, m₁, hm₁, hheap, hbmap, htip, hcount⟩ := visit_eq_ok hvisit
  obtain rfl : m' = m₁ := by
    rw [hm] at hm₁
    exact (Prod.mk.inj (Except.ok.inj hm₁)).2
  rw [hst.count] at hheap hbmap htip hcount
  have hself : st'.heap ⟨0, bs.length⟩ =
      { Block.attached st.heap st.bmap b with balances := m' } := by
    rw [hheap, Heap.set_self]
  have hold (k : Nat) (hk : k < bs.length) : st'.heap ⟨0, k⟩ = st.heap ⟨0, k⟩ := by
    rw [hheap]
    apply Heap.set_of_ne
    intro heq
    exact absurd (congrArg Ptr.serial heq) (Nat.ne_of_lt hk)
  have hsize := Body.size_of_accept hw hv
  have hbelow := hst.size_le
  have hlength : (bs ++ [b]).length = bs.length + 1 := by simp
  refine ⟨st', ?_, ?_, ?_, ?_, ?_, by simp, fun _ => ?_⟩
  · simp only [Reader.step, Block.attach_eq, Except.ok_bind]
    exact hvisit
  · rw [hcount, hlength]
  · intro k b' hk
    rcases Nat.lt_or_ge k bs.length with hlt | hge
    · rw [List.getElem?_append_left hlt] at hk
      rw [hold k hlt]
      exact hst.body k b' hk
    · obtain rfl : k = bs.length := by
        have := (List.getElem?_eq_some_iff.mp hk).1
        omega
      obtain rfl : b = b' := by simpa using hk
      rw [hself]
      exact Block.attached_toBody _ _ _
  · intro k hk
    rcases Nat.lt_succ_iff_lt_or_eq.mp (hlength ▸ hk) with hlt | rfl
    · rw [Heap.prev, hold k hlt]
      exact hst.prev k hlt
    · rw [Heap.prev, hself]
      exact hprev
  · intro k hk
    rcases Nat.lt_succ_iff_lt_or_eq.mp (hlength ▸ hk) with hlt | rfl
    · rw [hold k hlt]
      exact hst.maps k hlt
    · rw [hself]
      exact hsize.trans (by omega)
  · rw [hlength, Nat.add_sub_cancel]
    refine ⟨hz, htip, ?_, by rw [hself]⟩
    rw [hbmap, if_pos (by simp)]

theorem steps {rest : List Body} (hst : Stacked st bs h m) (hl : Body.Linked h rest)
    (hz : ∀ b ∈ rest, b.blkHash ≠ .zero) (hw : ∀ b ∈ rest, b.Writable)
    (hv : Body.acceptAll c m rest = some m') :
    ∃ st', rest.foldlM (loader c).step st = .ok st' ∧
      Stacked st' (bs ++ rest) (Body.endHash h rest) m' := by
  induction rest generalizing st bs h m with
  | nil =>
    obtain rfl := Option.some.inj hv
    exact ⟨st, rfl, by rwa [List.append_nil]⟩
  | cons b rest ih =>
    obtain ⟨hb, hl⟩ := hl
    obtain ⟨hzb, hz⟩ := List.forall_mem_cons.mp hz
    obtain ⟨hwb, hw⟩ := List.forall_mem_cons.mp hw
    obtain ⟨m₁, hv₁, hv⟩ := Body.acceptAll_cons_eq_some.mp hv
    obtain ⟨st₁, h₁, hst₁⟩ := hst.step hb hzb hwb hv₁
    obtain ⟨st', hsteps, hst'⟩ := ih hst₁ hl hz hw hv
    refine ⟨st', by rw [List.foldlM_cons, h₁]; exact hsteps, ?_⟩
    rwa [List.append_assoc] at hst'

theorem chain (hst : Stacked st bs h m) {k : Nat} (hk : k < bs.length) :
    Chain st.heap.prev ⟨0, k⟩ (addresses (k + 1)).reverse := by
  induction k with
  | zero => exact .last (hst.prev 0 hk)
  | succ k ih =>
    rw [addresses_succ, List.reverse_append]
    exact .link (hst.prev (k + 1) hk) (ih (by omega))

theorem bodies_addresses (hst : Stacked st bs h m) :
    bodies st.heap (addresses bs.length) = bs := by
  apply List.ext_getElem?
  intro k
  rw [bodies, addresses, List.map_map, List.getElem?_map]
  rcases Nat.lt_or_ge k bs.length with hlt | hge
  · rw [List.getElem?_range hlt, List.getElem?_eq_getElem hlt]
    exact congrArg some (hst.body k _ (List.getElem?_eq_getElem hlt))
  · rw [List.getElem?_eq_none (by simpa using hge), List.getElem?_eq_none hge]
    rfl

/-- Such a chain can be indexed. -/
theorem indexable (hst : Stacked st bs h m) (hne : bs ≠ []) (hchain : LinearChain bs)
    (hn : 129 * bs.length < 2 ^ 32) :
    Indexable st ⟨0, bs.length - 1⟩ (addresses bs.length).reverse := by
  have hpos := List.length_pos_iff.mpr hne
  have hmem (x : Ptr) (hx : x ∈ (addresses bs.length).reverse) :
      ∃ k, x = ⟨0, k⟩ ∧ k < bs.length ∧ (st.heap x).toBody ∈ bs := by
    obtain ⟨k, hk, rfl⟩ := mem_addresses.mp (List.mem_reverse.mp hx)
    refine ⟨k, rfl, hk, ?_⟩
    rw [hst.body k _ (List.getElem?_eq_getElem hk)]
    exact List.getElem_mem hk
  have hlist := hst.chain (show bs.length - 1 < bs.length by omega)
  rw [Nat.sub_add_cancel hpos] at hlist
  refine ⟨(hst.top hne).2.1, hlist, ?_, ?_, ?_, ?_, ?_⟩
  · intro root hroot
    rw [List.getLast?_reverse, addresses, List.head?_map, List.head?_range, if_neg (by omega)] at hroot
    obtain rfl := Option.some.inj hroot
    obtain ⟨b, rest, rfl⟩ := List.exists_cons_of_ne_nil hne
    rw [hst.body 0 b rfl]
    exact hchain.linked.1
  · intro x hx
    obtain ⟨-, -, -, hb⟩ := hmem x hx
    exact hchain.writable _ hb
  · intro x hx
    obtain ⟨k, rfl, hk, -⟩ := hmem x hx
    have := hst.maps k hk
    omega
  · intro x hx
    obtain ⟨-, -, -, hb⟩ := hmem x hx
    exact hchain.named _ hb
  · have hhashes : ((addresses bs.length).reverse.map fun x => (st.heap x).blkHash) =
        (bs.map Body.blkHash).reverse := by
      conv_rhs => rw [← hst.bodies_addresses]
      rw [List.map_reverse, bodies, List.map_map]
      rfl
    rw [hhashes, List.nodup_reverse]
    exact hchain.distinct

end Stacked

end Rewritechain

/-- A valid linear chain of some 33 million blocks at most: whatever it is cut into, every run
of either day over the indexed file prints the line that `readchain` prints for the chain. -/
theorem readers_agree_linear {c : Crypto} {bs : List Body} {chunks : UInt32} (hchain : LinearChain bs)
    (hv : (Body.acceptAll c ∅ bs).isSome) (h2 : 2 ≤ chunks.toNat) (h32 : chunks.toNat ≤ 32)
    (hk : chunks.toNat ≤ bs.length) (hn : 129 * bs.length < 2 ^ 32) :
    ∃ out, Rewritechain.main c (bs.flatMap Body.encoding) chunks = .ok out ∧ ∀ day : ChunkDay,
      Nonempty (Run day.readChunk c out) ∧ ∀ run : Run day.readChunk c out,
        run.line = (Day4.readchain c).main (bs.flatMap Body.encoding) := by
  obtain ⟨m, hm⟩ := Option.isSome_iff_exists.mp hv
  have hne : bs ≠ [] := List.length_pos_iff.mp (by omega)
  obtain ⟨st, hsteps, hst⟩ := Rewritechain.Stacked.start.steps hchain.linked hchain.named
    hchain.writable hm
  rw [List.nil_append] at hst
  have hload : Rewritechain.load c (bs.flatMap Body.encoding) = .ok st := by
    have hrun := Reader.run_encodings (r := Rewritechain.loader c) hchain.writable [] 0 .start
    rw [List.append_nil, Nat.add_zero, ← Body.length_encodings, hsteps] at hrun
    exact hrun
  have hindexable := hst.indexable hne hchain hn
  have hbodies : bodies st.heap (Rewritechain.addresses bs.length).reverse.reverse = bs := by
    rw [List.reverse_reverse, hst.bodies_addresses]
  obtain ⟨cs, hmain, hfile, hmaps, hblocks⟩ := hindexable.written hload h2 h32 (by simpa using hk)
    (by simp; omega)
  rw [hbodies] at hblocks
  have hread := Day4.main_linear (fun b hb => (hchain.writable b hb).readable) hchain.linked
    hchain.named hm hne
  refine ⟨indexedFile cs, hmain, fun day => ⟨?_, fun run => ?_⟩⟩
  · exact hfile.exists_run hmaps (by rwa [hblocks])
  · have hprints := hfile.prints_iff hmaps (by rw [hblocks]; omega) run
    rw [hblocks] at hprints
    rw [hread]
    exact hprints.mpr hv

/-! ## From the generator on -/

/-- Linked blocks that carry the hash of their contents are a hash chain. -/
theorem Body.hashChain {c : Crypto} {bs : List Body} (hl : Linked .zero bs)
    (hh : ∀ b ∈ bs, c.sha256 b.preimage = b.blkHash) (hne : bs ≠ []) :
    HashChain.Chain (ValidChain.scheme c) .zero bs.reverse := by
  induction bs using List.reverseRecOn with
  | nil => exact absurd rfl hne
  | append_singleton bs b ih =>
    rw [linked_append] at hl
    obtain ⟨hl, hlast, -⟩ := hl
    obtain ⟨hhs, hhash⟩ := List.forall_mem_append.mp hh
    have hb := (hhash b (List.mem_singleton_self b)).symm
    rw [List.reverse_append]
    cases List.eq_nil_or_concat' bs with
    | inl hnil =>
      subst hnil
      exact .first hlast hb
    | inr hconcat =>
      obtain ⟨init, prev, rfl⟩ := hconcat
      have hend : endHash .zero (init ++ [prev]) = prev.blkHash :=
        endHash_of_getLast (by simp) .zero
      have hchain := ih hl hhs (by simp)
      rw [List.reverse_append] at hchain ⊢
      exact .next (hlast.trans hend) hb hchain

/-- The block contents that a chain has hashed. -/
def blockPreimages (bs : List Body) : Set Bytes := {x | ∃ b ∈ bs, x = b.preimage}

/-- A valid chain without collisions has no two blocks of one name. -/
theorem LinearChain.of_valid {c : Crypto} {bs : List Body} {m : BalanceMap}
    (hw : ∀ b ∈ bs, b.Writable) (hl : Body.Linked .zero bs) (hz : ∀ b ∈ bs, b.blkHash ≠ .zero)
    (hv : Body.acceptAll c ∅ bs = some m) (hinj : ¬ HashChain.Collision c.sha256 (blockPreimages bs)) :
    LinearChain bs := by
  refine ⟨hw, hl, hz, ?_⟩
  have hinj := (HashChain.injOn_or_collision c.sha256 (blockPreimages bs)).resolve_right hinj
  by_cases hne : bs = []
  · subst hne
    exact List.nodup_nil
  · have hchain := Body.hashChain hl (Body.hash_of_acceptAll hv) hne
    obtain ⟨tip, rest, hrev⟩ := List.exists_cons_of_ne_nil (mt List.reverse_eq_nil_iff.mp hne)
    have hmem : ∀ b ∈ tip :: rest, b ∈ bs := by
      intro b hb
      rwa [← hrev, List.mem_reverse] at hb
    rw [hrev] at hchain
    have hnodup := hchain.nodup_digest (s := blockPreimages bs) hinj (fun b hb => ⟨b, hmem b hb, rfl⟩)
      fun b hb => hz b (hmem b (List.mem_cons_of_mem _ hb))
    rw [← hrev, List.map_reverse, List.nodup_reverse] at hnodup
    exact hnodup

open Genchain (createChainAndWrite createChainAndWrite_spec NamesBlocks)

/-- What `genchain` writes, `rewritechain` indexes, and then every run of `readindexed` of
either day prints what `readchain` prints for it: the last block and `len`. -/
theorem generated_chain_read_back (c : Crypto) (w : World) (len : UInt32) (numTxns : Nat)
    (chunks : UInt32) (hnum : 3 ≤ numTxns) (hnum' : numTxns ≤ maxTransactions)
    (hw : w.Sound c (numTxns * len.toNat)) (hz : NamesBlocks c w len.toNat numTxns)
    (hinj : ∀ st, createChainAndWrite c w len.toNat numTxns = .ok st →
      ¬ HashChain.Collision c.sha256 (blockPreimages st.chain))
    (h2 : 2 ≤ chunks.toNat) (h32 : chunks.toNat ≤ 32) (hk : chunks.toNat ≤ len.toNat)
    (hn : 129 * len.toNat < 2 ^ 32) :
    ∃ st out hash, createChainAndWrite c w len.toNat numTxns = .ok st ∧
      Rewritechain.main c st.out chunks = .ok out ∧
      (Day4.readchain c).main st.out = .ok (.blk hash len) ∧ ∀ day : ChunkDay,
        Nonempty (Run day.readChunk c out) ∧ ∀ run : Run day.readChunk c out,
          run.line = .ok (.blk hash len) := by
  obtain ⟨st, m, hrun, hgen⟩ := createChainAndWrite_spec hw hnum hnum' len.toNat_lt le_rfl
    fun k hk st _ hrun _ => hz k hk.le st hrun
  have hnamed := hz _ le_rfl st hrun
  have hchain : LinearChain st.chain :=
    .of_valid hgen.writable hgen.linked hnamed hgen.accepted (hinj st hrun)
  have hcount := hgen.count
  have hne : st.chain ≠ [] := List.length_pos_iff.mp (by omega)
  obtain ⟨out, hmain, hread⟩ := readers_agree_linear hchain (by rw [hgen.accepted]; rfl) h2 h32
    (by rwa [hcount]) (by rwa [hcount])
  have hlinear := Day4.main_linear (fun b hb => (hgen.writable b hb).readable) hgen.linked hnamed
    hgen.accepted hne
  rw [hcount, UInt32.ofNat_toNat] at hlinear
  rw [← hgen.out] at hmain hread hlinear
  refine ⟨st, out, _, hrun, hmain, hlinear, fun day => ⟨(hread day).1, fun run => ?_⟩⟩
  rw [(hread day).2 run, hlinear]

/-- A hash of all bytes of a message. -/
def Crypto.modular : Crypto where
  sha256 bs := .ofNat (LittleEndian.decode bs % (2 ^ 255 - 19) + 1)
  d2i_RSA_PUBKEY _ := true
  EVP_DigestVerifyFinal _ _ _ := 1

theorem World.numbered_sound_modular {n : Nat} (hn : n < 256 ^ 31) :
    numbered.Sound .modular n := by
  have haddr (i : Nat) (hi : i < n) :
      Crypto.modular.sha256 (numbered.keys i).keyDER = .ofNat (i + 1) := by
    simp only [Crypto.modular, numbered, LittleEndian.decode_encode_of_lt (hi.trans hn)]
    rw [Nat.mod_eq_of_lt (by omega)]
  have hsign : 0 < [(1 : UInt8)].length ∧ [(1 : UInt8)].length < 1024 := by decide
  refine ⟨fun i hi j hj heq => ?_, fun i _ => ?_, fun _ _ _ => hsign, fun _ _ _ => rfl⟩
  · rw [haddr i hi, haddr j hj] at heq
    have hinj := HashResult.ofNat_inj (by omega) (by omega) heq
    omega
  · simp only [numbered, LittleEndian.length_encode]
    omega

theorem two_generated_blocks_read_back : ∃ st out hash,
    createChainAndWrite .modular .numbered (2 : UInt32).toNat 3 = .ok st ∧
      Rewritechain.main .modular st.out 2 = .ok out ∧
      (Day4.readchain .modular).main st.out = .ok (.blk hash 2) ∧ ∀ day : ChunkDay,
        Nonempty (Run day.readChunk .modular out) ∧ ∀ run : Run day.readChunk .modular out,
          run.line = .ok (.blk hash 2) := by
  have hsound : World.numbered.Sound .modular (3 * (2 : UInt32).toNat) :=
    World.numbered_sound_modular (by decide)
  have hnames := Genchain.namesBlocks_of_ne_zero (c := .modular)
    (fun bs => HashResult.ofNat_ne_zero (by omega) (Nat.succ_ne_zero _)) hsound (by decide)
    (by decide) (by decide)
  refine generated_chain_read_back .modular .numbered 2 3 2 (by decide) (by decide) hsound hnames
    ?_ (by decide) (by decide) (by decide) (by decide)
  have hdistinct : (match createChainAndWrite .modular .numbered 2 3 with
      | .ok st => decide ((st.chain.map fun b : Body => Crypto.modular.sha256 b.preimage).Nodup)
      | .error _ => false) = true := by
    decide +kernel
  intro st hrun
  rw [show createChainAndWrite .modular .numbered 2 3 = .ok st from hrun] at hdistinct
  rintro ⟨_, ⟨b, hb, rfl⟩, _, ⟨b', hb', rfl⟩, hne, hhash⟩
  exact hne (congrArg _ (List.inj_on_of_nodup_map (of_decide_eq_true hdistinct) hb hb' hhash))

end Bootcamp
