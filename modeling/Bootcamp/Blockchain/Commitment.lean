import Bootcamp.Blockchain.Parallel
import Bootcamp.Blockchain.Tamper
import Bootcamp.Blockchain.Tips

/-! What a printed line says about the file: the hash of the last block and the number of blocks
are the mark of one chain, whoever printed them and whatever else the file holds. -/
namespace Bootcamp

open Chains (Chain)
open HashChain (Collision Links)

/-! ## Blocks that a reader lets pass -/

namespace Body

/-- The hashes of the block and of its transactions are those of what they cover. -/
structure Hashed (c : Crypto) (b : Body) : Prop where
  block : b.blkHash = c.sha256 b.preimage
  transactions : ∀ tx ∈ b.transactions, tx.txHash = c.sha256 tx.preimage

theorem applied_congr {tx tx' : Txn} (h : tx.content = tx'.content) (m : BalanceMap) :
    tx.applied m = tx'.applied m := by
  simp only [Txn.content, Txn.Content.mk.injEq] at h
  obtain ⟨-, hsource, hdest, hchange, hamount⟩ := h
  rw [Txn.applied, Txn.applied, hsource, hdest, hchange, hamount]

theorem foldl_applied_congr {txs txs' : List Txn}
    (h : txs.map Txn.content = txs'.map Txn.content) (m : BalanceMap) :
    txs.foldl (fun m tx => tx.applied m) m = txs'.foldl (fun m tx => tx.applied m) m := by
  induction txs generalizing txs' m with
  | nil =>
    obtain rfl : txs' = [] := by simpa using h.symm
    rfl
  | cons tx txs ih =>
    cases txs' with
    | nil => simp at h
    | cons tx' txs' =>
      obtain ⟨hhead, htail⟩ := List.cons.inj h
      rw [List.foldl_cons, List.foldl_cons, applied_congr hhead, ih htail]

/-- It depends on what the hashes cover only. -/
theorem paid_congr {b b' : Body} (h : b.content = b'.content) (m : BalanceMap) :
    b.paid m = b'.paid m := by
  simp only [content, Content.mk.injEq] at h
  rw [paid, paid, h.2.1, foldl_applied_congr h.2.2]

theorem foldr_paid_congr {bs bs' : List Body} (h : bs.map content = bs'.map content) :
    bs.foldr paid ∅ = bs'.foldr paid ∅ := by
  induction bs generalizing bs' with
  | nil =>
    obtain rfl : bs' = [] := by simpa using h.symm
    rfl
  | cons b bs ih =>
    cases bs' with
    | nil => simp at h
    | cons b' bs' =>
      obtain ⟨hhead, htail⟩ := List.cons.inj h
      rw [List.foldr_cons, List.foldr_cons, ih htail, paid_congr hhead]

theorem hashed_of_accept {c : Crypto} {b : Body} {m m' : BalanceMap}
    (h : b.accept c m = some m') : b.Hashed c ∧ m' = b.paid m := by
  obtain ⟨hcertified, -, hpaid⟩ := accept_iff.mp h
  exact ⟨⟨hcertified.hash.symm, fun tx htx => (hcertified.transactions tx htx).hashed⟩, hpaid⟩

end Body

namespace Day1.Body

theorem hashed_of_allTxValid {c : Crypto} {txs : List Bootcamp.Txn}
    (h : allTxValid c txs = .ok true) : ∀ tx ∈ txs, tx.txHash = c.sha256 tx.preimage := by
  induction txs with
  | nil => nofun
  | cons tx txs ih =>
    obtain ⟨valid, hv, h⟩ := Except.bind_eq_ok.mp h
    cases valid with
    | false => cases h
    | true =>
      refine List.forall_mem_cons.mpr ⟨?_, ih h⟩
      unfold Txn.validate at hv
      split_ifs at hv with howner hhash
      · cases hv
      · cases hv
      · exact (not_not.mp hhash).symm

theorem foldl_of_applyTransactions {txs : List Bootcamp.Txn} {m m' : BalanceMap}
    (h : applyTransactions txs m = .ok (true, m')) :
    m' = txs.foldl (fun m tx => tx.applied m) m := by
  induction txs generalizing m with
  | nil =>
    obtain rfl : m = m' := by simpa [applyTransactions] using h
    rfl
  | cons tx txs ih =>
    rw [applyTransactions] at h
    cases havailable : tx.balanceAvailable m with
    | false => simp [havailable] at h
    | true =>
      simp only [havailable, Bool.not_true, Bool.false_eq_true, if_false, Txn.updateBalances_eq,
        Bootcamp.Txn.updateBalances_eq havailable, Except.ok_bind] at h
      rw [List.foldl_cons]
      exact ih h

theorem hashed_of_validate {c : Crypto} {b : Bootcamp.Body} {m m' : BalanceMap}
    (h : validate c b m = .ok (true, m')) : b.Hashed c ∧ m' = b.paid m := by
  obtain ⟨valid, hall, h⟩ := Except.bind_eq_ok.mp h
  cases valid with
  | false => cases h
  | true =>
    obtain ⟨⟨available, m₁⟩, happly, h⟩ := Except.bind_eq_ok.mp h
    cases available with
    | false => cases h
    | true =>
      obtain ⟨hhash, rfl⟩ := Prod.mk.inj (Except.ok.inj h)
      refine ⟨⟨(of_decide_eq_true hhash).symm, hashed_of_allTxValid hall⟩, ?_⟩
      rw [Bootcamp.Body.paid, ← foldl_of_applyTransactions happly]

end Day1.Body

theorem Day.hashed_of_check {c : Crypto} {day : Day} {b : Body} {m m' : BalanceMap}
    (h : (day.readchain c).check b m = .ok (true, m')) : b.Hashed c ∧ m' = b.paid m := by
  cases day with
  | one => exact Day1.Body.hashed_of_validate h
  | four => exact Body.hashed_of_accept (Body.accept_eq_some.mpr h)

/-! ## The chain behind a block -/

/-- The blocks at these addresses. -/
def Heap.bodies (heap : Heap) (l : List Ptr) : List Body := l.map fun y => (heap y).toBody

/-- Every block of `S` carries its own hash and points to one of `S` with the hash it names, if it
points anywhere. -/
structure Heap.Sealed (c : Crypto) (heap : Heap) (S : Ptr → Prop) : Prop where
  hashed : ∀ x, S x → (heap x).toBody.Hashed c
  linked : ∀ x q, S x → heap.prev x = some q → S q ∧ (heap q).blkHash = (heap x).prevHash

namespace Heap.Sealed

variable {c : Crypto} {heap heap' : Heap} {S S' : Ptr → Prop} {x x' : Ptr} {l l' : List Ptr}

theorem hashed_of_mem (h : heap.Sealed c S) (hl : Chain heap.prev x l) (hx : S x) :
    ∀ b ∈ heap.bodies l, b.Hashed c := by
  intro b hb
  obtain ⟨y, hy, rfl⟩ := List.mem_map.mp hb
  exact h.hashed y (hl.forall_mem (fun p q hp hq => (h.linked p q hp hq).1) hx y hy)

theorem links (h : heap.Sealed c S) (hl : Chain heap.prev x l) (hx : S x) :
    Links (ValidChain.scheme c) (heap.bodies l) := by
  induction hl with
  | last => exact .last (h.hashed _ hx).block
  | @link x q l hsome hl ih =>
    obtain ⟨hq, hhash⟩ := h.linked x q hx hsome
    obtain ⟨l, rfl⟩ := hl.eq_cons
    exact .next hhash.symm (h.hashed x hx).block (ih hq)

/-- Equally many blocks behind blocks with one hash are the same as far as hashes cover them,
unless SHA-256 collides on what was hashed for them. -/
theorem agree (h : heap.Sealed c S) (h' : heap'.Sealed c S') (hl : Chain heap.prev x l)
    (hl' : Chain heap'.prev x' l') (hx : S x) (hx' : S' x')
    (hhash : (heap x).blkHash = (heap' x').blkHash) (hlength : l.length = l'.length) :
    (heap.bodies l).map Body.content = (heap'.bodies l').map Body.content ∨
      Collision c.sha256 (hashedPreimages (heap.bodies l ++ heap'.bodies l')) := by
  rcases HashChain.injOn_or_collision c.sha256
    (hashedPreimages (heap.bodies l ++ heap'.bodies l')) with hinj | hcollision
  · left
    have hlinks := h.links hl hx
    have hlinks' := h'.links hl' hx'
    have hmem := h.hashed_of_mem hl hx
    have hmem' := h'.hashed_of_mem hl' hx'
    have hpreimages : (heap.bodies l).map Body.preimage = (heap'.bodies l').map Body.preimage := by
      obtain ⟨m, rfl⟩ := hl.eq_cons
      obtain ⟨m', rfl⟩ := hl'.eq_cons
      exact hlinks.agree hinj hlinks' (fun b hb => hashedPreimages_block hb) hhash
        (by simpa [bodies] using hlength)
    refine contents_of_preimages hinj ?_ ?_ hpreimages
    · exact fun b hb tx htx =>
        ⟨hashedPreimages_txn (List.mem_append_left _ hb) htx, (hmem b hb).transactions tx htx⟩
    · exact fun b hb tx htx =>
        ⟨hashedPreimages_txn (List.mem_append_right _ hb) htx, (hmem' b hb).transactions tx htx⟩
  · exact .inr hcollision

end Heap.Sealed

namespace Readchain.Inv

variable {c : Crypto} {day : Day} {st : ReadState}

theorem sealed (h : (day.readchain c).Inv st) : st.heap.Sealed c (· ∈ st.accepted) where
  hashed x hx := (Day.hashed_of_check (h.accepted x hx).checked).1
  linked x q hx hq := by
    obtain ⟨hmem, -, -, hhash, -⟩ := (h.accepted x hx).linked q hq
    exact ⟨hmem, hhash⟩

/-- The balances of an accepted block are what its chain leaves. -/
theorem balances_eq (h : (day.readchain c).Inv st) {x : Ptr} {l : List Ptr}
    (hl : Chain st.heap.prev x l) (hx : x ∈ st.accepted) :
    (st.heap x).balances = (st.heap.bodies l).foldr Body.paid ∅ := by
  induction hl with
  | @last x hnone =>
    obtain ⟨-, hpaid⟩ := Day.hashed_of_check (h.accepted x hx).checked
    rw [Block.resetBalances_none hnone] at hpaid
    exact hpaid
  | @link x q l hsome _ ih =>
    obtain ⟨-, hpaid⟩ := Day.hashed_of_check (h.accepted x hx).checked
    rw [Block.resetBalances_some hsome, ih ((h.accepted x hx).linked q hsome).1] at hpaid
    exact hpaid

end Readchain.Inv

theorem Run.sealed {day : ChunkDay} {c : Crypto} {data : Bytes} {run : Run day.readChunk c data}
    {f : Final} (hf : run.Finished f) : f.heap.Sealed c run.Entered where
  hashed x hx := by
    obtain ⟨init, hinit⟩ := exists_init hx
    obtain ⟨m, haccept, -⟩ := prev_cases hf.linked hx hinit
    rw [hf.linked.body]
    exact (Body.hashed_of_accept haccept).1
  linked x q hx hq := by
    obtain ⟨init, hinit⟩ := exists_init hx
    obtain ⟨m, -, ⟨hnone, -⟩ | ⟨-, q', hq', hentered, hhash, -⟩⟩ := prev_cases hf.linked hx hinit
    · rw [hnone] at hq
      cases hq
    · obtain rfl := Option.some.inj (hq'.symm.trans hq)
      refine ⟨hentered, ?_⟩
      rw [congrArg Body.blkHash (hf.linked.body q'), congrArg Body.prevHash (hf.linked.body x)]
      exact hhash

/-! ## What is printed -/

/-- A program prints the line for the file, and these are the blocks behind its tip, the tip
first. The sequential readers own the balances that they have computed from the first block on;
those of the parallel readers rest on what is stored in the file. -/
inductive Shows (c : Crypto) (data : Bytes) (line : Line) : List Body → Option BalanceMap → Prop
  | readchain (day : Day) {st : ReadState} {t : Ptr} {l : List Ptr} :
      (day.readchain c).main data = .ok line →
      (day.readchain c).reader.run data data.length .start = .ok st → st.tip = some t →
      Chain st.heap.prev t l → Shows c data line (st.heap.bodies l) (some (st.heap t).balances)
  | readindexed (day : ChunkDay) {run : Run day.readChunk c data} {f : Final} {t : Ptr}
      {l : List Ptr} :
      run.line = .ok line → run.final = .ok f → f.tip = some t → Chain f.heap.prev t l →
      Shows c data line (f.heap.bodies l) none

/-- What a line is printed from. -/
structure Backs (c : Crypto) (hash : HashResult) (len : UInt32) (heap : Heap) (S : Ptr → Prop)
    (t : Ptr) (l : List Ptr) : Prop where
  closed : heap.Sealed c S
  mem : S t
  chain : Chain heap.prev t l
  hash : (heap t).blkHash = hash
  length : len = UInt32.ofNat l.length

namespace Shows

variable {c : Crypto} {data : Bytes} {hash : HashResult} {len : UInt32}

theorem of_main {day : Day} (h : (day.readchain c).main data = .ok (.blk hash len)) :
    ∃ bs m, Shows c data (.blk hash len) bs (some m) ∧ 100 * bs.length ≤ data.length := by
  obtain ⟨st, hrun, hline⟩ := Except.bind_eq_ok.mp h
  cases htip : st.tip with
  | none =>
    rw [htip] at hline
    cases hline
  | some t =>
    obtain ⟨s, rfl, hs, -⟩ := Reader.run_eq_ok hrun
    have hi := Readchain.Reached.inv hs
    have ht := hi.tip t htip
    obtain ⟨l, hl, hle⟩ := hi.exists_chain ht
    refine ⟨_, _, .readchain day h hrun htip hl, ?_⟩
    have hserial := (hi.fresh t ht).2
    have hturns := Readchain.Reached.turns_le hs
    rw [Heap.bodies, List.length_map]
    omega

theorem of_line {day : ChunkDay} {run : Run day.readChunk c data}
    (h : run.line = .ok (.blk hash len)) :
    ∃ bs, Shows c data (.blk hash len) bs none ∧ bs.length ≤ run.blocks := by
  obtain ⟨f, t, l, hfinal, htip, hf, ht, hl, -, -⟩ := Run.line_eq_blk h
  refine ⟨_, .readindexed day h hfinal htip hl, ?_⟩
  rw [Heap.bodies, List.length_map]
  exact (Run.chain_subperm hf.linked hl ht).length_le.trans Run.length_accepted_le

theorem backed {bs : List Body} {owned : Option BalanceMap}
    (h : Shows c data (.blk hash len) bs owned) :
    ∃ heap S t l, Backs c hash len heap S t l ∧ bs = heap.bodies l ∧
      ∀ m ∈ owned, m = bs.foldr Body.paid ∅ := by
  cases h with
  | @readchain day st t l hmain hrun htip hl =>
    have hline : Line.blk hash len = .blk (st.heap t).blkHash (st.heap t).length := by
      rw [Readchain.main, hrun, Except.ok_bind, htip] at hmain
      exact (Except.ok.inj hmain).symm
    obtain ⟨rfl, rfl⟩ := Line.blk.inj hline
    obtain ⟨s, rfl, hs, -⟩ := Reader.run_eq_ok hrun
    have hi := Readchain.Reached.inv hs
    have ht := hi.tip t htip
    refine ⟨_, _, t, l, ⟨hi.sealed, ht, hl, rfl, hi.length_eq hl ht⟩, rfl, ?_⟩
    rintro m ⟨⟩
    exact hi.balances_eq hl ht
  | @readindexed day run f t l hline hfinal htip hl =>
    obtain ⟨f', t', l', hfinal', htip', hf, ht, hl', hlength, hhash⟩ := Run.line_eq_blk hline
    obtain rfl := Except.ok.inj (hfinal'.symm.trans hfinal)
    obtain rfl := Option.some.inj (htip'.symm.trans htip)
    obtain rfl := hl'.unique hl
    refine ⟨_, _, t', l', ⟨Run.sealed hf, ht, hl, ?_, hlength⟩, rfl,
      fun m hm => absurd hm (Option.not_mem_none m)⟩
    rw [hhash]
    exact congrArg Body.blkHash (hf.linked.body t')

end Shows

/-- The line is a commitment to the chain. Whatever two files hold, orphans and forged balances
included, and whichever of the readers print one line for them: behind it stand as many blocks as
it says, and the two chains agree block by block on what the hashes cover, and so on the balances
that a sequential reader computes, or SHA-256 collides on what was hashed for them. -/
theorem printed_line_commits {c : Crypto} {data data' : Bytes} {hash : HashResult} {len : UInt32}
    {bs bs' : List Body} {owned owned' : Option BalanceMap}
    (h : Shows c data (.blk hash len) bs owned) (h' : Shows c data' (.blk hash len) bs' owned')
    (hshort : bs.length < 2 ^ 32) (hshort' : bs'.length < 2 ^ 32) :
    bs.length = len.toNat ∧ bs'.length = len.toNat ∧
      ((bs.map Body.content = bs'.map Body.content ∧ ∀ m ∈ owned, ∀ m' ∈ owned', m = m') ∨
        Collision c.sha256 (hashedPreimages (bs ++ bs'))) := by
  obtain ⟨heap, S, t, l, hb, rfl, hpaid⟩ := h.backed
  obtain ⟨heap', S', t', l', hb', rfl, hpaid'⟩ := h'.backed
  have hlength : (heap.bodies l).length = len.toNat := by
    rw [hb.length, UInt32.toNat_ofNat_of_lt' (by simpa [Heap.bodies] using hshort), Heap.bodies,
      List.length_map]
  have hlength' : (heap'.bodies l').length = len.toNat := by
    rw [hb'.length, UInt32.toNat_ofNat_of_lt' (by simpa [Heap.bodies] using hshort'), Heap.bodies,
      List.length_map]
  have hequal : l.length = l'.length := by
    simpa [Heap.bodies] using hlength.trans hlength'.symm
  refine ⟨hlength, hlength', ?_⟩
  refine (hb.closed.agree hb'.closed hb.chain hb'.chain hb.mem hb'.mem
    (hb.hash.trans hb'.hash.symm) hequal).imp_left fun hcontent => ⟨hcontent, ?_⟩
  intro m hm m' hm'
  rw [hpaid m hm, hpaid' m' hm']
  exact Body.foldr_paid_congr hcontent

/-- The two sample blocks as `genchain` would write them, and a chunk each. -/
theorem two_files_commit : ∃ bs bs' m,
    Shows .toy ([firstBlock, secondBlock].flatMap Body.encoding) (.blk (.ofNat 2) 2) bs (some m) ∧
    Shows .toy (indexedFile twoChunks) (.blk (.ofNat 2) 2) bs' none ∧
    bs.length = (2 : UInt32).toNat ∧ bs'.length = (2 : UInt32).toNat ∧
      ((bs.map Body.content = bs'.map Body.content ∧
          ∀ m' ∈ some m, ∀ m'' ∈ (none : Option BalanceMap), m' = m'') ∨
        Collision Crypto.toy.sha256 (hashedPreimages (bs ++ bs'))) := by
  have hmain : (Day.four.readchain .toy).main ([firstBlock, secondBlock].flatMap Body.encoding) =
      .ok (.blk (.ofNat 2) 2) := by decide +kernel
  have hline : twoChunksRun.line = .ok (.blk (.ofNat 2) 2) := by decide +kernel
  have hsize : ([firstBlock, secondBlock].flatMap Body.encoding).length < 2 ^ 32 := by
    decide +kernel
  have hblocks : twoChunksRun.blocks < 2 ^ 32 := by decide +kernel
  obtain ⟨bs, m, hbs, hle⟩ := Shows.of_main hmain
  obtain ⟨bs', hbs', hle'⟩ := Shows.of_line hline
  exact ⟨bs, bs', m, hbs, hbs', printed_line_commits hbs hbs' (by omega) (by omega)⟩

end Bootcamp
