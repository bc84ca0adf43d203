import Bootcamp.Blockchain.Validation
import Bootcamp.Lib.HashChain

/-! Tamper evidence: what the hash of a tip says about the blocks behind it.
Signatures and stored hashes are not covered, but what they were checked
against is. -/
namespace Bootcamp

open HashChain (Collision)

/-! ## The hashed encodings are unambiguous -/

/-- What a transaction's hash covers. -/
structure Txn.Content where
  publicKey : Bytes
  sourceAddr : HashResult
  destAddr : HashResult
  changeAddr : HashResult
  amount : UInt64
  deriving DecidableEq

def Txn.content (tx : Txn) : Txn.Content :=
  ⟨tx.publicKey, tx.sourceAddr, tx.destAddr, tx.changeAddr, tx.amount⟩

theorem bytes64_injective : Function.Injective bytes64 := by
  intro a b h
  apply UInt64.toNat_inj.mp
  exact LittleEndian.encode_injective a.toNat_lt b.toNat_lt h

/-- The key has no length in front, but all that follows it has a fixed size. -/
theorem Txn.content_of_preimage {tx tx' : Txn} (h : tx.preimage = tx'.preimage) :
    tx.content = tx'.content := by
  obtain ⟨h, hamount⟩ := List.append_inj' h (by simp)
  obtain ⟨h, hchange⟩ := List.append_inj' h (by simp)
  obtain ⟨h, hdest⟩ := List.append_inj' h (by simp)
  obtain ⟨hkey, hsource⟩ := List.append_inj' h (by simp)
  rw [content, content, hkey, HashResult.ext hsource, HashResult.ext hdest,
    HashResult.ext hchange, bytes64_injective hamount]

/-- No count either: equal concatenations of hashes have equally many. -/
theorem hashes_of_flatMap {txs txs' : List Txn}
    (h : txs.flatMap (fun tx => tx.txHash.bytes) = txs'.flatMap (fun tx => tx.txHash.bytes)) :
    txs.map Txn.txHash = txs'.map Txn.txHash := by
  induction txs generalizing txs' with
  | nil =>
    cases txs' with
    | nil => rfl
    | cons tx' txs' =>
      have hlen := congrArg List.length h
      simp at hlen
      omega
  | cons tx txs ih =>
    cases txs' with
    | nil =>
      have hlen := congrArg List.length h
      simp at hlen
    | cons tx' txs' =>
      simp only [List.flatMap_cons] at h
      obtain ⟨hhead, htail⟩ := List.append_inj h (by simp)
      rw [List.map_cons, List.map_cons, HashResult.ext hhead, ih htail]

theorem Body.fields_of_preimage {b b' : Body} (h : b.preimage = b'.preimage) :
    b.transactions.map Txn.txHash = b'.transactions.map Txn.txHash ∧
      b.rewardAddr = b'.rewardAddr ∧ b.prevHash = b'.prevHash := by
  obtain ⟨h, hprev⟩ := List.append_inj' h (by simp)
  obtain ⟨htxs, hreward⟩ := List.append_inj' h (by simp)
  exact ⟨hashes_of_flatMap htxs, HashResult.ext hreward, HashResult.ext hprev⟩

/-! ## What balances depend on -/

/-- What a block's hash covers. -/
structure Body.Content where
  prevHash : HashResult
  rewardAddr : HashResult
  transactions : List Txn.Content
  deriving DecidableEq

def Body.content (b : Body) : Body.Content :=
  ⟨b.prevHash, b.rewardAddr, b.transactions.map Txn.content⟩

theorem Body.applyTransactions_content {c : Crypto} {txs txs' : List Txn} {m m₁ m₁' : BalanceMap}
    (hc : txs.map Txn.content = txs'.map Txn.content)
    (h : applyTransactions c txs m = .ok (true, m₁))
    (h' : applyTransactions c txs' m = .ok (true, m₁')) : m₁ = m₁' := by
  induction txs generalizing txs' m with
  | nil =>
    obtain rfl : txs' = [] := by simpa using hc.symm
    simpa using h.symm.trans h'
  | cons tx txs ih =>
    cases txs' with
    | nil => simp at hc
    | cons tx' txs' =>
      obtain ⟨hhead, htail⟩ := List.cons.inj hc
      obtain ⟨-, -, h⟩ := applyTransactions_cons.mp h
      obtain ⟨-, -, h'⟩ := applyTransactions_cons.mp h'
      simp only [Txn.content, Txn.Content.mk.injEq] at hhead
      obtain ⟨-, hsource, hdest, hchange, hamount⟩ := hhead
      have happlied : tx.applied m = tx'.applied m := by
        rw [Txn.applied, Txn.applied, hsource, hdest, hchange, hamount]
      rw [happlied] at h
      exact ih htail h h'

theorem Body.balances_of_content {c : Crypto} {b b' : Body} {m m₁ m₁' : BalanceMap}
    (hc : b.content = b'.content) (h : b.validate c m = .ok (true, m₁))
    (h' : b'.validate c m = .ok (true, m₁')) : m₁ = m₁' := by
  simp only [content, Body.Content.mk.injEq] at hc
  obtain ⟨-, hreward, htxs⟩ := hc
  obtain ⟨m₂, ht, rfl, -⟩ := validate_eq_true.mp h
  obtain ⟨m₂', ht', rfl, -⟩ := validate_eq_true.mp h'
  rw [applyTransactions_content htxs ht ht', hreward]

/-! ## Chains in memory -/

/-- The block at `x` passed `validate` on its predecessor, or on nothing. -/
def Passed (c : Crypto) (heap : Heap) (x : Ptr) : Prop :=
  (heap x).toBody.validate c ((heap x).resetBalances heap) = .ok (true, (heap x).balances)

/-- The `prev_block` chain of a pointer, tip first, down to a coinbase; every
block passed and names the hash of its predecessor. -/
inductive ValidChain (c : Crypto) (heap : Heap) : Ptr → List Body → Prop
  | coinbase {x : Ptr} : (heap x).prevBlock = none → (heap x).prevHash = .zero →
      Passed c heap x → ValidChain c heap x [(heap x).toBody]
  | next {x q : Ptr} {bs : List Body} : (heap x).prevBlock = some q →
      (heap x).prevHash = (heap q).blkHash → Passed c heap x → ValidChain c heap q bs →
      ValidChain c heap x ((heap x).toBody :: bs)

namespace ValidChain

variable {c : Crypto} {heap heap' : Heap} {x x' : Ptr} {bs bs' : List Body}

theorem eq_cons (h : ValidChain c heap x bs) : ∃ l, bs = (heap x).toBody :: l := by
  cases h with
  | coinbase => exact ⟨_, rfl⟩
  | next => exact ⟨_, rfl⟩

/-- How blocks form a hash chain. -/
def scheme (c : Crypto) : HashChain.Scheme Body Bytes HashResult where
  hash := c.sha256
  encode := Body.preimage
  prev := Body.prevHash
  digest := Body.blkHash
  prev_of_encode _ _ h := (Body.fields_of_preimage h).2.2

theorem blkHash_eq (h : Passed c heap x) : (heap x).blkHash = c.sha256 (heap x).preimage := by
  obtain ⟨m, -, -, hh⟩ := Body.validate_eq_true.mp h
  exact hh.symm

theorem blkHash_of_mem (h : ValidChain c heap x bs) :
    ∀ b ∈ bs, b.blkHash = c.sha256 b.preimage := by
  induction h with
  | coinbase _ _ hp => simpa using blkHash_eq hp
  | next _ _ hp _ ih => exact List.forall_mem_cons.mpr ⟨blkHash_eq hp, ih⟩

theorem hashChain (h : ValidChain c heap x bs) : HashChain.Chain (scheme c) .zero bs := by
  induction h with
  | coinbase _ hz hp => exact .first hz (blkHash_eq hp)
  | next _ hlink hp hq ih =>
    obtain ⟨l, rfl⟩ := hq.eq_cons
    exact .next hlink (blkHash_eq hp) ih

theorem authorised (h : ValidChain c heap x bs) :
    ∀ b ∈ bs, ∀ tx ∈ b.transactions, tx.Authorised c := by
  induction h with
  | coinbase _ _ hp =>
    obtain ⟨m, ht, -⟩ := Body.validate_eq_true.mp hp
    simpa using Body.authorised_of_applyTransactions ht
  | next _ _ hp _ ih =>
    obtain ⟨m, ht, -⟩ := Body.validate_eq_true.mp hp
    exact List.forall_mem_cons.mpr ⟨Body.authorised_of_applyTransactions ht, ih⟩

theorem balances_eq (h : ValidChain c heap x bs) (h' : ValidChain c heap' x' bs')
    (hc : bs.map Body.content = bs'.map Body.content) :
    (heap x).balances = (heap' x').balances := by
  induction h generalizing x' bs' with
  | coinbase hnone _ hp =>
    rw [Passed, Block.resetBalances_none hnone] at hp
    cases h' with
    | coinbase hnone' _ hp' =>
      rw [Passed, Block.resetBalances_none hnone'] at hp'
      exact Body.balances_of_content (List.cons.inj hc).1 hp hp'
    | next _ _ _ hq' =>
      obtain ⟨l, rfl⟩ := hq'.eq_cons
      simp at hc
  | next hsome _ hp hq ih =>
    rw [Passed, Block.resetBalances_some hsome] at hp
    cases h' with
    | coinbase =>
      obtain ⟨l, rfl⟩ := hq.eq_cons
      simp at hc
    | next hsome' _ hp' hq' =>
      rw [Passed, Block.resetBalances_some hsome'] at hp'
      obtain ⟨hhead, htail⟩ := List.cons.inj hc
      rw [ih hq' htail] at hp
      exact Body.balances_of_content hhead hp hp'

end ValidChain

/-- The byte strings hashed for the blocks and the transactions of a chain. -/
def hashedPreimages (bs : List Body) : Set Bytes :=
  {x | ∃ b ∈ bs, x = b.preimage ∨ ∃ tx ∈ b.transactions, x = tx.preimage}

theorem hashedPreimages_block {bs : List Body} {b : Body} (h : b ∈ bs) :
    b.preimage ∈ hashedPreimages bs := ⟨b, h, .inl rfl⟩

theorem hashedPreimages_txn {bs : List Body} {b : Body} {tx : Txn} (h : b ∈ bs)
    (htx : tx ∈ b.transactions) : tx.preimage ∈ hashedPreimages bs := ⟨b, h, .inr ⟨tx, htx, rfl⟩⟩

/-- Without collisions the transactions' hashes fix their contents. -/
theorem contents_of_hashes {c : Crypto} {s : Set Bytes} (hinj : Set.InjOn c.sha256 s)
    {txs txs' : List Txn} (hs : ∀ tx ∈ txs, tx.preimage ∈ s ∧ tx.txHash = c.sha256 tx.preimage)
    (hs' : ∀ tx ∈ txs', tx.preimage ∈ s ∧ tx.txHash = c.sha256 tx.preimage)
    (h : txs.map Txn.txHash = txs'.map Txn.txHash) :
    txs.map Txn.content = txs'.map Txn.content := by
  induction txs generalizing txs' with
  | nil =>
    obtain rfl : txs' = [] := by simpa using h.symm
    rfl
  | cons tx txs ih =>
    cases txs' with
    | nil => simp at h
    | cons tx' txs' =>
      obtain ⟨hhead, htail⟩ := List.cons.inj h
      obtain ⟨⟨hmem, hhash⟩, hs⟩ := List.forall_mem_cons.mp hs
      obtain ⟨⟨hmem', hhash'⟩, hs'⟩ := List.forall_mem_cons.mp hs'
      have hpre : tx.preimage = tx'.preimage := hinj hmem hmem' (by rw [← hhash, ← hhash', hhead])
      rw [List.map_cons, List.map_cons, Txn.content_of_preimage hpre, ih hs hs' htail]

theorem contents_of_preimages {c : Crypto} {s : Set Bytes} (hinj : Set.InjOn c.sha256 s)
    {bs bs' : List Body}
    (hs : ∀ b ∈ bs, ∀ tx ∈ b.transactions, tx.preimage ∈ s ∧ tx.txHash = c.sha256 tx.preimage)
    (hs' : ∀ b ∈ bs', ∀ tx ∈ b.transactions, tx.preimage ∈ s ∧ tx.txHash = c.sha256 tx.preimage)
    (h : bs.map Body.preimage = bs'.map Body.preimage) :
    bs.map Body.content = bs'.map Body.content := by
  induction bs generalizing bs' with
  | nil =>
    obtain rfl : bs' = [] := by simpa using h.symm
    rfl
  | cons b bs ih =>
    cases bs' with
    | nil => simp at h
    | cons b' bs' =>
      obtain ⟨hhead, htail⟩ := List.cons.inj h
      obtain ⟨hb, hs⟩ := List.forall_mem_cons.mp hs
      obtain ⟨hb', hs'⟩ := List.forall_mem_cons.mp hs'
      obtain ⟨htxs, hreward, hprev⟩ := Body.fields_of_preimage hhead
      have hcontent : b.content = b'.content := by
        rw [Body.content, Body.content, hreward, hprev, contents_of_hashes hinj hb hb' htxs]
      rw [List.map_cons, List.map_cons, hcontent, ih hs hs' htail]

/-- Two chains in which every block is valid and whose tips have one hash agree
on everything the hashes cover, and so on the final balances, or they exhibit a
SHA-256 collision, or a block behind a tip hashes to the mark of a coinbase. -/
theorem tip_determines_chain {c : Crypto} {heap heap' : Heap} {x x' : Ptr} {bs bs' : List Body}
    (h : ValidChain c heap x bs) (h' : ValidChain c heap' x' bs')
    (htip : (heap x).blkHash = (heap' x').blkHash) :
    (bs.map Body.content = bs'.map Body.content ∧ (heap x).balances = (heap' x').balances) ∨
      Collision c.sha256 (hashedPreimages (bs ++ bs')) ∨
      ∃ b ∈ bs.tail ++ bs'.tail, c.sha256 b.preimage = .zero := by
  rcases HashChain.injOn_or_collision c.sha256 (hashedPreimages (bs ++ bs')) with hinj | hcoll
  · have hhashed := h.hashChain
    have hhashed' := h'.hashChain
    have hauth := h.authorised
    have hauth' := h'.authorised
    obtain ⟨l, hl⟩ := h.eq_cons
    obtain ⟨l', hl'⟩ := h'.eq_cons
    have hagree : bs.map Body.preimage = bs'.map Body.preimage ∨
        ∃ b ∈ l ++ l', b.blkHash = .zero := by
      rw [hl] at hhashed
      rw [hl'] at hhashed'
      rw [hl, hl']
      refine HashChain.Chain.agree hinj hhashed hhashed' ?_ htip
      rw [← hl, ← hl']
      exact fun b hb => hashedPreimages_block hb
    rcases hagree with hpre | ⟨b, hb, hz⟩
    · have hcontent : bs.map Body.content = bs'.map Body.content := by
        refine contents_of_preimages hinj ?_ ?_ hpre
        · exact fun b hb tx htx =>
            ⟨hashedPreimages_txn (List.mem_append_left _ hb) htx, (hauth b hb tx htx).hashed⟩
        · exact fun b hb tx htx =>
            ⟨hashedPreimages_txn (List.mem_append_right _ hb) htx, (hauth' b hb tx htx).hashed⟩
      exact .inl ⟨hcontent, h.balances_eq h' hcontent⟩
    · refine .inr (.inr ⟨b, by simpa [hl, hl'] using hb, ?_⟩)
      rw [← hz]
      rcases List.mem_append.mp hb with hb | hb
      · exact (h.blkHash_of_mem b (by simp [hl, hb])).symm
      · exact (h'.blkHash_of_mem b (by simp [hl', hb])).symm
  · exact .inr (.inl hcoll)

/-! Two chains with one tip hash: the payment in the second block is signed in one way or another,
and no hash covers that. -/

def resignedBlock : Body := { secondBlock with transactions := [{ spend with txSign := [2] }] }

/-- `firstBlock`, and `b` behind it. -/
def behindFirst (b : Body) : Heap :=
  let balances := BalanceMap.credit ∅ (.ofNat 5) 100
  (Heap.empty.set ⟨0, 0⟩ { firstBlock with balances, length := 1, prevBlock := none }).set ⟨0, 1⟩
    { b with balances := (b.accept .toy balances).getD ∅, length := 2, prevBlock := some ⟨0, 0⟩ }

theorem validChain_behindFirst :
    ValidChain .toy (behindFirst secondBlock) ⟨0, 1⟩ [secondBlock, firstBlock] ∧
      ValidChain .toy (behindFirst resignedBlock) ⟨0, 1⟩ [resignedBlock, firstBlock] :=
  ⟨.next rfl rfl rfl (.coinbase rfl rfl rfl), .next rfl rfl rfl (.coinbase rfl rfl rfl)⟩

theorem resigned_determined : secondBlock ≠ resignedBlock ∧
    (([secondBlock, firstBlock].map Body.content = [resignedBlock, firstBlock].map Body.content ∧
        (behindFirst secondBlock ⟨0, 1⟩).balances = (behindFirst resignedBlock ⟨0, 1⟩).balances) ∨
      Collision Crypto.toy.sha256
        (hashedPreimages ([secondBlock, firstBlock] ++ [resignedBlock, firstBlock])) ∨
      ∃ b ∈ [secondBlock, firstBlock].tail ++ [resignedBlock, firstBlock].tail,
        Crypto.toy.sha256 b.preimage = .zero) :=
  ⟨by decide, tip_determines_chain validChain_behindFirst.1 validChain_behindFirst.2 rfl⟩

/-! Why the last alternative is there. -/

def firstByte : Crypto where
  sha256 bs := .ofNat (bs.headD 0).toNat
  d2i_RSA_PUBKEY _ := true
  EVP_DigestVerifyFinal _ _ _ := 1

def zeroBlock : Body where
  rewardAddr := .zero
  transactions := []
  prevHash := .zero
  blkHash := .zero

def oneBlock : Body where
  rewardAddr := .ofNat 1
  transactions := []
  prevHash := .zero
  blkHash := .ofNat 1

/-- `oneBlock` on its own, a coinbase. -/
def aloneHeap : Heap := Heap.empty.set ⟨0, 0⟩
  { oneBlock with balances := BalanceMap.credit ∅ (.ofNat 1) 100, length := 1, prevBlock := none }

/-- The same block behind `zeroBlock`, whose hash it names as well. -/
def pairHeap : Heap :=
  (Heap.empty.set ⟨0, 0⟩
    { zeroBlock with balances := BalanceMap.credit ∅ .zero 100, length := 1, prevBlock := none }).set
    ⟨0, 1⟩
    { oneBlock with
      balances := BalanceMap.credit (BalanceMap.credit ∅ .zero 100) (.ofNat 1) 100
      length := 2, prevBlock := some ⟨0, 0⟩ }

theorem validChain_alone : ValidChain firstByte aloneHeap ⟨0, 0⟩ [oneBlock] :=
  .coinbase rfl rfl rfl

theorem validChain_pair : ValidChain firstByte pairHeap ⟨0, 1⟩ [oneBlock, zeroBlock] :=
  .next rfl rfl rfl (.coinbase rfl rfl rfl)

/-- A block that hashes to zero puts a block behind it that looks like a
coinbase: one tip, two chains, no collision. -/
theorem zero_hash_splits_chains : ¬ ∀ (heap heap' : Heap) (x x' : Ptr) (bs bs' : List Body),
    ValidChain firstByte heap x bs → ValidChain firstByte heap' x' bs' →
    (heap x).blkHash = (heap' x').blkHash →
    (bs.map Body.content = bs'.map Body.content ∧ (heap x).balances = (heap' x').balances) ∨
      Collision firstByte.sha256 (hashedPreimages (bs ++ bs')) := by
  intro h
  rcases h _ _ _ _ _ _ validChain_alone validChain_pair rfl with ⟨hc, -⟩ | ⟨x, hx, y, hy, hne, hxy⟩
  · simp at hc
  · have hpre (z : Bytes) (hz : z ∈ hashedPreimages ([oneBlock] ++ [oneBlock, zeroBlock])) :
        z = oneBlock.preimage ∨ z = zeroBlock.preimage := by
      obtain ⟨b, hb, rfl | ⟨tx, htx, -⟩⟩ := hz
      · simp only [List.cons_append, List.nil_append, List.mem_cons, List.not_mem_nil, or_false] at hb
        rcases hb with rfl | rfl | rfl
        · exact .inl rfl
        · exact .inl rfl
        · exact .inr rfl
      · simp only [List.cons_append, List.nil_append, List.mem_cons, List.not_mem_nil, or_false] at hb
        rcases hb with rfl | rfl | rfl <;> cases htx
    have hdiff : firstByte.sha256 oneBlock.preimage ≠ firstByte.sha256 zeroBlock.preimage := by decide
    rcases hpre x hx with rfl | rfl <;> rcases hpre y hy with rfl | rfl
    · exact hne rfl
    · exact hdiff hxy
    · exact hdiff hxy.symm
    · exact hne rfl

end Bootcamp
