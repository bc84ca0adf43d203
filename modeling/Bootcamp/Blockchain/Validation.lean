import Bootcamp.Blockchain.Block
import Bootcamp.Lib.Fallible
import Bootcamp.Lib.Ledger

/-! What `block_t::validate` decides and what it does to the balances: an
inversion lemma for each of its loops, its blindness to zero entries, and its
refinement of the ledger without overflow. -/
namespace Bootcamp

namespace Body

/-- Accepting a list is accepting its head and then its tail from there. -/
theorem applyTransactions_cons {c : Crypto} {tx : Txn} {txs : List Txn} {m m' : BalanceMap} :
    applyTransactions c (tx :: txs) m = .ok (true, m') ↔
      tx.Authorised c ∧ tx.balanceAvailable m = true ∧
        applyTransactions c txs (tx.applied m) = .ok (true, m') := by
  simp only [applyTransactions]
  constructor
  · intro h
    obtain ⟨valid, hv, h⟩ := Except.bind_eq_ok.mp h
    cases valid with
    | false => simp at h
    | true =>
      cases ha : tx.balanceAvailable m with
      | false => simp [ha] at h
      | true =>
        simp only [Bool.not_true, ha, Bool.false_eq_true, if_false, Txn.updateBalances_eq ha,
          Except.ok_bind] at h
        exact ⟨Txn.validate_eq_true.mp hv, rfl, h⟩
  · rintro ⟨hv, ha, h⟩
    simp only [Txn.validate_eq_true.mpr hv, ha, Txn.updateBalances_eq ha, Except.ok_bind,
      Bool.not_true, Bool.false_eq_true, if_false, h]

theorem authorised_of_applyTransactions {c : Crypto} {txs : List Txn} {m m' : BalanceMap}
    (h : applyTransactions c txs m = .ok (true, m')) : ∀ tx ∈ txs, tx.Authorised c := by
  induction txs generalizing m with
  | nil => simp
  | cons tx txs ih =>
    obtain ⟨hv, -, h⟩ := applyTransactions_cons.mp h
    intro t ht
    rcases List.mem_cons.mp ht with rfl | ht
    · exact hv
    · exact ih h t ht

theorem validate_eq_true {c : Crypto} {b : Body} {m m' : BalanceMap} :
    b.validate c m = .ok (true, m') ↔
      ∃ m₁, applyTransactions c b.transactions m = .ok (true, m₁) ∧
        m' = BalanceMap.credit m₁ b.rewardAddr blockReward ∧ c.sha256 b.preimage = b.blkHash := by
  unfold validate
  constructor
  · intro h
    obtain ⟨⟨valid, m₁⟩, hv, h⟩ := Except.bind_eq_ok.mp h
    cases valid with
    | false => simp at h
    | true =>
      simp only [Bool.not_true, Bool.false_eq_true, if_false, Except.pure_eq_ok, Except.ok.injEq,
        Prod.mk.injEq, decide_eq_true_eq] at h
      exact ⟨m₁, hv, h.2.symm, h.1⟩
  · rintro ⟨m₁, hv, rfl, hh⟩
    simp [hv, hh]

/-- The balances with which a block is accepted, if it is. -/
def accept (c : Crypto) (m : BalanceMap) (b : Body) : Option BalanceMap :=
  match b.validate c m with
  | .ok (true, m') => some m'
  | _ => none

theorem accept_eq_some {c : Crypto} {m m' : BalanceMap} {b : Body} :
    b.accept c m = some m' ↔ b.validate c m = .ok (true, m') := by
  unfold accept
  split
  · rename_i m₁ h
    rw [h]
    simp
  · rename_i hne
    constructor
    · simp
    · intro h
      exact absurd h (hne m')

/-- Validation of blocks one after the other, each on the balances before it:
the balances after the last one when all are accepted. -/
def acceptAll (c : Crypto) (m : BalanceMap) (bs : List Body) : Option BalanceMap :=
  bs.foldlM (accept c) m

@[simp] theorem acceptAll_nil (c : Crypto) (m : BalanceMap) : acceptAll c m [] = some m := rfl

theorem acceptAll_cons (c : Crypto) (m : BalanceMap) (b : Body) (bs : List Body) :
    acceptAll c m (b :: bs) = (b.accept c m).bind fun m' => acceptAll c m' bs := rfl

theorem acceptAll_append (c : Crypto) (m : BalanceMap) (bs bs' : List Body) :
    acceptAll c m (bs ++ bs') = (acceptAll c m bs).bind fun m' => acceptAll c m' bs' :=
  List.foldlM_append

theorem acceptAll_cons_eq_some {c : Crypto} {m m' : BalanceMap} {b : Body} {bs : List Body} :
    acceptAll c m (b :: bs) = some m' ↔
      ∃ m₁, b.accept c m = some m₁ ∧ acceptAll c m₁ bs = some m' := by
  rw [acceptAll_cons, Option.bind_eq_some_iff]

/-- Every block that was accepted carries its hash. -/
theorem hash_of_acceptAll {c : Crypto} {bs : List Body} {m m' : BalanceMap}
    (h : acceptAll c m bs = some m') : ∀ b ∈ bs, c.sha256 b.preimage = b.blkHash := by
  induction bs generalizing m with
  | nil => simp
  | cons b bs ih =>
    obtain ⟨m₁, hb, h⟩ := acceptAll_cons_eq_some.mp h
    obtain ⟨-, -, -, hhash⟩ := validate_eq_true.mp (accept_eq_some.mp hb)
    exact List.forall_mem_cons.mpr ⟨hhash, ih h⟩

/-! What a block needs of the balances, and what it needs besides. -/

/-- Every transaction finds its amount at its source. -/
def Payable : BalanceMap → List Txn → Prop
  | _, [] => True
  | m, tx :: txs => tx.balanceAvailable m = true ∧ Payable (tx.applied m) txs

theorem applyTransactions_eq_true {c : Crypto} {txs : List Txn} {m m' : BalanceMap} :
    applyTransactions c txs m = .ok (true, m') ↔ (∀ tx ∈ txs, tx.Authorised c) ∧ Payable m txs ∧
      m' = txs.foldl (fun m tx => tx.applied m) m := by
  induction txs generalizing m with
  | nil => simp [applyTransactions, Payable, eq_comm]
  | cons tx txs ih =>
    rw [applyTransactions_cons, ih, List.forall_mem_cons, List.foldl_cons, Payable]
    tauto

/-- What a block leaves of the balances before it. -/
def paid (b : Body) (m : BalanceMap) : BalanceMap :=
  BalanceMap.credit (b.transactions.foldl (fun m tx => tx.applied m) m) b.rewardAddr blockReward

/-- The keys, the signatures and the hashes are right. -/
structure Certified (c : Crypto) (b : Body) : Prop where
  transactions : ∀ tx ∈ b.transactions, tx.Authorised c
  hash : c.sha256 b.preimage = b.blkHash

theorem accept_iff {c : Crypto} {b : Body} {m m' : BalanceMap} :
    b.accept c m = some m' ↔ b.Certified c ∧ Payable m b.transactions ∧ m' = b.paid m := by
  rw [accept_eq_some, validate_eq_true]
  constructor
  · rintro ⟨m₁, happly, rfl, hhash⟩
    obtain ⟨hauthorised, hpayable, rfl⟩ := applyTransactions_eq_true.mp happly
    exact ⟨⟨hauthorised, hhash⟩, hpayable, rfl⟩
  · rintro ⟨⟨hauthorised, hhash⟩, hpayable, rfl⟩
    exact ⟨_, applyTransactions_eq_true.mpr ⟨hauthorised, hpayable, rfl⟩, rfl, hhash⟩

/-- Block after block, every transaction finds its amount at its source. -/
def Solvent : BalanceMap → List Body → Prop
  | _, [] => True
  | m, b :: bs => Payable m b.transactions ∧ Solvent (b.paid m) bs

theorem acceptAll_isSome_iff {c : Crypto} {m : BalanceMap} {bs : List Body} :
    (acceptAll c m bs).isSome ↔ (∀ b ∈ bs, b.Certified c) ∧ Solvent m bs := by
  induction bs generalizing m with
  | nil => simp [Solvent]
  | cons b bs ih =>
    simp only [Option.isSome_iff_exists, acceptAll_cons_eq_some] at ih ⊢
    rw [List.forall_mem_cons, Solvent]
    constructor
    · rintro ⟨m', m₁, hb, hbs⟩
      obtain ⟨hcertified, hpayable, rfl⟩ := accept_iff.mp hb
      obtain ⟨hall, hsolvent⟩ := ih.mp ⟨m', hbs⟩
      exact ⟨⟨hcertified, hall⟩, hpayable, hsolvent⟩
    · rintro ⟨⟨hcertified, hall⟩, hpayable, hsolvent⟩
      obtain ⟨m', hbs⟩ := ih.mpr ⟨hall, hsolvent⟩
      exact ⟨m', b.paid m, accept_iff.mpr ⟨hcertified, hpayable, rfl⟩, hbs⟩

/-- Each block names the hash of the one before it, the first one `h`. -/
def Linked : HashResult → List Body → Prop
  | _, [] => True
  | h, b :: bs => b.prevHash = h ∧ Linked b.blkHash bs

instance decidableLinked : (h : HashResult) → (bs : List Body) → Decidable (Linked h bs)
  | _, [] => .isTrue trivial
  | h, b :: bs => @instDecidableAnd _ _ (decEq b.prevHash h) (decidableLinked b.blkHash bs)

/-- The hash that the next block has to name. -/
def endHash : HashResult → List Body → HashResult
  | h, [] => h
  | _, b :: bs => endHash b.blkHash bs

theorem endHash_of_ne_nil {bs : List Body} (hne : bs ≠ []) (h h' : HashResult) :
    endHash h bs = endHash h' bs := by
  cases bs with
  | nil => exact absurd rfl hne
  | cons b bs => rfl

theorem endHash_mem {bs : List Body} (hne : bs ≠ []) (h : HashResult) :
    endHash h bs ∈ bs.map blkHash := by
  induction bs generalizing h with
  | nil => exact absurd rfl hne
  | cons b bs ih =>
    by_cases hbs : bs = []
    · subst hbs
      exact List.mem_cons_self
    · exact List.mem_cons_of_mem _ (ih hbs b.blkHash)

theorem endHash_of_getLast {bs : List Body} {b : Body} (hb : bs.getLast? = some b)
    (h : HashResult) : endHash h bs = b.blkHash := by
  induction bs generalizing h with
  | nil => cases hb
  | cons a bs ih =>
    cases bs with
    | nil =>
      obtain rfl := Option.some.inj hb
      rfl
    | cons a' bs => exact ih (by simpa using hb) a.blkHash

theorem linked_append {h : HashResult} {bs bs' : List Body} :
    Linked h (bs ++ bs') ↔ Linked h bs ∧ Linked (endHash h bs) bs' := by
  induction bs generalizing h with
  | nil => simp [Linked, endHash]
  | cons b bs ih => simp only [List.cons_append, Linked, endHash, ih, and_assoc]

/-- The first block names one hash. -/
theorem Linked.iff_eq {h h' : HashResult} {bs : List Body} (hlinked : Linked h bs) (hne : bs ≠ []) :
    Linked h' bs ↔ h = h' := by
  cases bs with
  | nil => exact absurd rfl hne
  | cons b bs => rw [Linked, hlinked.1, and_iff_left hlinked.2]

theorem endHash_append (h : HashResult) (bs bs' : List Body) :
    endHash h (bs ++ bs') = endHash (endHash h bs) bs' := by
  induction bs generalizing h with
  | nil => rfl
  | cons b bs ih => exact ih b.blkHash

end Body

/-! ## Zero entries -/

namespace BalanceMap

/-- Equal balances for every address; an absent entry is a zero one. -/
def Same (m m' : BalanceMap) : Prop := ∀ a, m.amount a = m'.amount a

theorem Same.refl (m : BalanceMap) : Same m m := fun _ => rfl

theorem Same.symm {m m' : BalanceMap} (h : Same m m') : Same m' m := fun a => (h a).symm

theorem Same.trans {m m' m'' : BalanceMap} (h : Same m m') (h' : Same m' m'') : Same m m'' :=
  fun a => (h a).trans (h' a)

theorem Same.credit {m m' : BalanceMap} (h : Same m m') (a : HashResult) (v : UInt64) :
    Same (m.credit a v) (m'.credit a v) := by
  intro b
  rw [amount_credit, amount_credit, h a, h b]

theorem Same.applied {m m' : BalanceMap} (h : Same m m') (tx : Txn) :
    Same (tx.applied m) (tx.applied m') := by
  intro a
  rw [Txn.amount_applied, Txn.amount_applied, h a, h tx.sourceAddr]

end BalanceMap

namespace Body

open BalanceMap (Same)

/-- From maps with the same balances the loop gives one verdict, or aborts in one way, and
leaves maps with the same balances. -/
theorem applyTransactions_congr {c : Crypto} {txs : List Txn} {m₁ m₂ : BalanceMap}
    (hs : Same m₁ m₂) : Except.Related (fun r r' => r.1 = r'.1 ∧ Same r.2 r'.2)
      (applyTransactions c txs m₁) (applyTransactions c txs m₂) := by
  induction txs generalizing m₁ m₂ with
  | nil => exact .ok ⟨rfl, hs⟩
  | cons tx txs ih =>
    rw [applyTransactions, applyTransactions]
    cases hv : tx.validate c with
    | error e => exact .error e
    | ok valid =>
      cases valid with
      | false => exact .ok ⟨rfl, hs⟩
      | true =>
        -- the amount is positive, so an absent source is an empty one
        have hpos := (Txn.validate_eq_true.mp hv).positive
        have havail : tx.balanceAvailable m₁ = tx.balanceAvailable m₂ := by
          rw [Bool.eq_iff_iff, Txn.balanceAvailable_iff_amount hpos,
            Txn.balanceAvailable_iff_amount hpos, hs tx.sourceAddr]
        cases ha : tx.balanceAvailable m₂ with
        | false =>
          rw [ha] at havail
          simp only [Except.ok_bind, havail]
          exact .ok ⟨rfl, hs⟩
        | true =>
          rw [ha] at havail
          simp only [Except.ok_bind, havail, Bool.not_true, Bool.false_eq_true, if_false,
            Txn.updateBalances_eq havail, Txn.updateBalances_eq ha]
          exact ih (hs.applied tx)

theorem validate_congr {c : Crypto} {b : Body} {m₁ m₂ : BalanceMap} (hs : Same m₁ m₂) :
    Except.Related (fun r r' => r.1 = r'.1 ∧ Same r.2 r'.2) (b.validate c m₁) (b.validate c m₂) := by
  have hloop : Except.Related (fun r r' => r.1 = r'.1 ∧ Same r.2 r'.2)
      (applyTransactions c b.transactions m₁) (applyTransactions c b.transactions m₂) :=
    applyTransactions_congr hs
  unfold validate
  generalize applyTransactions c b.transactions m₁ = r, applyTransactions c b.transactions m₂ = r'
    at hloop ⊢
  cases hloop with
  | error e => exact .error e
  | @ok p p' h =>
    obtain ⟨valid, m⟩ := p
    obtain ⟨valid', m'⟩ := p'
    obtain ⟨rfl, hm⟩ := h
    cases valid with
    | false => exact .ok ⟨rfl, hm⟩
    | true => exact .ok ⟨rfl, hm.credit _ _⟩

/-- Validation cannot tell apart maps that differ in zero entries only. -/
theorem accept_same {c : Crypto} {b : Body} {m₁ m₂ m₁' : BalanceMap} (hs : Same m₁ m₂)
    (h : b.accept c m₁ = some m₁') : ∃ m₂', b.accept c m₂ = some m₂' ∧ Same m₁' m₂' := by
  have hcongr := validate_congr (c := c) (b := b) hs
  rw [accept_eq_some.mp h] at hcongr
  generalize hr : b.validate c m₂ = r at hcongr
  cases hcongr with
  | @ok _ p hp =>
    obtain ⟨valid, m₂'⟩ := p
    obtain ⟨rfl, hsame⟩ := hp
    exact ⟨m₂', accept_eq_some.mpr hr, hsame⟩

/-- Only a block without transactions can be valid on empty balances, and it is
if its hash is right. -/
theorem validate_empty {c : Crypto} {b : Body} : (∃ m, b.validate c ∅ = .ok (true, m)) ↔
    b.transactions = [] ∧ c.sha256 b.preimage = b.blkHash := by
  simp only [validate_eq_true]
  constructor
  · rintro ⟨_, m₁, ht, -, hh⟩
    cases htxs : b.transactions with
    | nil => exact ⟨rfl, hh⟩
    | cons tx txs =>
      rw [htxs] at ht
      obtain ⟨-, ha, -⟩ := applyTransactions_cons.mp ht
      cases ha
  · rintro ⟨htxs, hh⟩
    exact ⟨_, ∅, by rw [htxs]; rfl, rfl, hh⟩

end Body

/-! ## Two blocks to run the model on -/

/-- A coinbase that pays address 5, the address of the key `[4]`. -/
def firstBlock : Body where
  rewardAddr := .ofNat 5
  transactions := []
  prevHash := .zero
  blkHash := .ofNat 1

/-- That key pays 30 to address 6 and keeps the change at address 7. -/
def spend : Txn :=
  let tx : Txn :=
    { publicKey := [4], sourceAddr := .ofNat 5, destAddr := .ofNat 6, changeAddr := .ofNat 7,
      amount := 30, txHash := .zero, txSign := [1] }
  { tx with txHash := Crypto.toy.sha256 tx.preimage }

def secondBlock : Body where
  rewardAddr := .ofNat 8
  transactions := [spend]
  prevHash := .ofNat 1
  blkHash := .ofNat 2

example : (Body.acceptAll .toy ∅ [firstBlock, secondBlock]).map
    (fun m => [5, 6, 7, 8].map fun a => m.amount (.ofNat a)) = some [0, 30, 70, 100] := by decide

/-- Block `k` of a chain without transactions. -/
def emptyBlock (reward : HashResult) (k : Nat) : Body where
  rewardAddr := reward
  transactions := []
  prevHash := .ofNat k
  blkHash := .ofNat (k + 1)

theorem toy_sha256_emptyBlock (reward : HashResult) {k : Nat} (hk : k < 2 ^ 256) :
    Crypto.toy.sha256 (emptyBlock reward k).preimage = .ofNat (k + 1) := by
  have hlast : (emptyBlock reward k).preimage.drop 32 = (HashResult.ofNat k).bytes :=
    List.drop_left' (by simp [emptyBlock])
  have hlen : (emptyBlock reward k).preimage.length - 32 = 32 := by
    simp [Body.preimage, emptyBlock]
  have hk' : LittleEndian.decode (HashResult.ofNat k).bytes = k :=
    LittleEndian.decode_encode_of_lt (w := 32) (by omega)
  simp only [Crypto.toy, hlen, hlast, hk']

/-- The balances behind the first `n` such blocks. -/
def emptyBalances (reward : Nat → HashResult) : Nat → BalanceMap
  | 0 => ∅
  | n + 1 => (emptyBalances reward n).credit (reward n) blockReward

theorem validate_emptyBlock (reward : HashResult) {k : Nat} (hk : k < 2 ^ 256) (m : BalanceMap) :
    (emptyBlock reward k).validate .toy m = .ok (true, m.credit reward blockReward) :=
  Body.validate_eq_true.mpr ⟨m, rfl, rfl, toy_sha256_emptyBlock reward hk⟩

theorem find_emptyBalances {n j : Nat} (hn : n ≤ j) (hj : j < 2 ^ 256) :
    (emptyBalances .ofNat n).find? (.ofNat j) = none := by
  induction n with
  | zero => rfl
  | succ n ih =>
    rw [emptyBalances, BalanceMap.credit, OrderedMap.find_insert, if_neg, ih (by omega)]
    intro heq
    have := HashResult.ofNat_inj hj (by omega) heq
    omega

theorem size_emptyBalances {n : Nat} (hn : n < 2 ^ 256) : (emptyBalances .ofNat n).size = n := by
  induction n with
  | zero => rfl
  | succ n ih =>
    rw [emptyBalances, BalanceMap.credit,
      OrderedMap.size_insert_new _ (find_emptyBalances le_rfl (by omega)), ih (by omega)]

end Bootcamp
