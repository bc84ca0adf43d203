import Bootcamp.Blockchain.Tamper

/-! Nothing in a transaction is a sequence number, and what stops a second execution is
only that the first one empties its source. So a transaction can be executed again, but not
before its source has again received what it pays. -/
namespace Bootcamp

/-- What moves money: the transactions of a block, then its reward. -/
inductive Event
  | pay (tx : Txn)
  | reward (a : HashResult)

namespace Event

def apply (m : BalanceMap) : Event → BalanceMap
  | pay tx => tx.applied m
  | reward a => m.credit a blockReward

/-- A payment is valid and covered. -/
def Accepted (c : Crypto) (m : BalanceMap) : Event → Prop
  | pay tx => tx.Authorised c ∧ tx.balanceAvailable m = true
  | reward _ => True

/-- What an address receives, counted without a modulus: as a destination, as the owner of
the change, as a reward. -/
def credit (a : HashResult) (m : BalanceMap) : Event → ℕ
  | pay tx => (if a = tx.destAddr then tx.amount.toNat else 0) +
      if a = tx.changeAddr then (m.amount tx.sourceAddr - tx.amount).toNat else 0
  | reward b => if a = b then blockReward.toNat else 0

theorem amount_apply_le (a : HashResult) (m : BalanceMap) (e : Event) :
    ((e.apply m).amount a).toNat ≤ (m.amount a).toNat + e.credit a m := by
  cases e with
  | pay tx =>
    simp only [apply, credit, Txn.amount_applied]
    split_ifs <;> simp only [UInt64.toNat_add, UInt64.toNat_zero] <;> omega
  | reward b =>
    simp only [apply, credit, BalanceMap.amount_credit]
    by_cases h : a = b
    · simp only [h, if_true, UInt64.toNat_add]
      omega
    · simp [h]

end Event

/-- The balances behind a run of events. -/
def afterEvents (m : BalanceMap) (es : List Event) : BalanceMap := es.foldl Event.apply m

/-- Each event is accepted on the balances that the ones before it leave. -/
def AllAccepted (c : Crypto) : BalanceMap → List Event → Prop
  | _, [] => True
  | m, e :: es => e.Accepted c m ∧ AllAccepted c (e.apply m) es

/-- What an address receives in a run of events. -/
def received (a : HashResult) : BalanceMap → List Event → ℕ
  | _, [] => 0
  | m, e :: es => e.credit a m + received a (e.apply m) es

theorem allAccepted_append {c : Crypto} {m : BalanceMap} {es es' : List Event} :
    AllAccepted c m (es ++ es') ↔ AllAccepted c m es ∧ AllAccepted c (afterEvents m es) es' := by
  induction es generalizing m with
  | nil => simp [AllAccepted, afterEvents]
  | cons e es ih => simp only [List.cons_append, AllAccepted, ih, afterEvents, List.foldl_cons,
      and_assoc]

/-- Nobody owns more than before and what was received. -/
theorem amount_afterEvents_le (a : HashResult) (m : BalanceMap) (es : List Event) :
    ((afterEvents m es).amount a).toNat ≤ (m.amount a).toNat + received a m es := by
  induction es generalizing m with
  | nil => exact Nat.le_add_right _ _
  | cons e es ih =>
    have hfirst := Event.amount_apply_le a m e
    have hrest := ih (e.apply m)
    simp only [afterEvents, List.foldl_cons, received] at hrest ⊢
    omega

namespace Body

def events (b : Body) : List Event := b.transactions.map .pay ++ [.reward b.rewardAddr]

theorem allAccepted_pay {c : Crypto} {txs : List Txn} {m m' : BalanceMap}
    (h : applyTransactions c txs m = .ok (true, m')) :
    AllAccepted c m (txs.map .pay) ∧ m' = afterEvents m (txs.map .pay) := by
  induction txs generalizing m with
  | nil =>
    obtain rfl : m = m' := by simpa [applyTransactions] using h
    exact ⟨trivial, rfl⟩
  | cons tx txs ih =>
    obtain ⟨hv, ha, h⟩ := applyTransactions_cons.mp h
    obtain ⟨hall, hm⟩ := ih h
    exact ⟨⟨⟨hv, ha⟩, hall⟩, hm⟩

theorem allAccepted_events {c : Crypto} {b : Body} {m m' : BalanceMap}
    (h : b.accept c m = some m') : AllAccepted c m b.events ∧ m' = afterEvents m b.events := by
  obtain ⟨m₁, happly, rfl, -⟩ := validate_eq_true.mp (accept_eq_some.mp h)
  obtain ⟨hall, rfl⟩ := allAccepted_pay happly
  refine ⟨allAccepted_append.mpr ⟨hall, trivial, trivial⟩, ?_⟩
  rw [events, afterEvents, afterEvents, List.foldl_append]
  rfl

/-- A chain that validates is a run of accepted events. -/
theorem allAccepted_chain {c : Crypto} {bs : List Body} {m m' : BalanceMap}
    (h : acceptAll c m bs = some m') :
    AllAccepted c m (bs.flatMap events) ∧ m' = afterEvents m (bs.flatMap events) := by
  induction bs generalizing m with
  | nil =>
    obtain rfl : m = m' := by simpa using h
    exact ⟨trivial, rfl⟩
  | cons b bs ih =>
    obtain ⟨m₁, hb, h⟩ := acceptAll_cons_eq_some.mp h
    obtain ⟨hall, rfl⟩ := allAccepted_events hb
    obtain ⟨hrest, rfl⟩ := ih h
    rw [List.flatMap_cons]
    refine ⟨allAccepted_append.mpr ⟨hall, hrest⟩, ?_⟩
    rw [afterEvents, afterEvents, afterEvents, List.foldl_append]

end Body

/-- The two are one transfer, and between them its source received the amount again. -/
structure Refunded (m : BalanceMap) (tx tx' : Txn) (between : List Event) : Prop where
  content : tx'.content = tx.content
  funded : 0 < tx.amount.toNat ∧ tx.amount.toNat ≤ received tx.sourceAddr (tx.applied m) between

/-- In a chain that validates, two positions hold transactions with one hash only if SHA-256
collides on their contents or the source was paid the amount again in between. -/
theorem same_hash_refunded {c : Crypto} {bs : List Body} {m : BalanceMap}
    (hv : Body.acceptAll c ∅ bs = some m) {before between behind : List Event} {tx tx' : Txn}
    (hsplit : bs.flatMap Body.events = before ++ .pay tx :: (between ++ .pay tx' :: behind))
    (hhash : tx.txHash = tx'.txHash) :
    HashChain.Collision c.sha256 {tx.preimage, tx'.preimage} ∨
      Refunded (afterEvents ∅ before) tx tx' between := by
  obtain ⟨hall, -⟩ := Body.allAccepted_chain hv
  rw [hsplit] at hall
  obtain ⟨-, ⟨hauth, -⟩, hall⟩ := allAccepted_append.mp hall
  obtain ⟨-, ⟨hauth', havail'⟩, -⟩ := allAccepted_append.mp hall
  by_cases hpre : tx.preimage = tx'.preimage
  · right
    have hcontent := Txn.content_of_preimage hpre.symm
    refine ⟨hcontent, hauth.positive, ?_⟩
    have hsource : tx'.sourceAddr = tx.sourceAddr := congrArg Txn.Content.sourceAddr hcontent
    have hamount : tx'.amount = tx.amount := congrArg Txn.Content.amount hcontent
    -- the first execution leaves the source empty
    have hempty : (BalanceMap.amount (tx.applied (afterEvents ∅ before)) tx.sourceAddr).toNat = 0 := by
      rw [Txn.amount_applied, if_pos rfl]
      rfl
    have hle := amount_afterEvents_le tx.sourceAddr (tx.applied (afterEvents ∅ before)) between
    have hheld := (Txn.balanceAvailable_iff_amount hauth'.positive).mp havail'
    rw [hsource, hamount, UInt64.le_iff_toNat_le] at hheld
    rw [hempty, Nat.zero_add] at hle
    exact hheld.trans hle
  · left
    refine ⟨_, Set.mem_insert _ _, _, Set.mem_insert_of_mem _ rfl, hpre, ?_⟩
    rw [← hauth.hashed, ← hauth'.hashed, hhash]

/-- The payment of the second block, and the same payment once its source has earned
another reward. -/
def replayedChain : List Body :=
  [firstBlock, secondBlock, emptyBlock (.ofNat 5) 2,
    { secondBlock with prevHash := .ofNat 3, blkHash := .ofNat 4 }]

theorem replayedChain_validates : ∃ m, Body.acceptAll .toy ∅ replayedChain = some m :=
  Option.isSome_iff_exists.mp (by decide +kernel)

theorem replayed_chain_refunded :
    HashChain.Collision Crypto.toy.sha256 {spend.preimage, spend.preimage} ∨
      Refunded (afterEvents ∅ [.reward (.ofNat 5)]) spend spend
        [.reward (.ofNat 8), .reward (.ofNat 5)] := by
  obtain ⟨m, hm⟩ := replayedChain_validates
  have hsplit : replayedChain.flatMap Body.events =
      [.reward (.ofNat 5)] ++ .pay spend ::
        ([.reward (.ofNat 8), .reward (.ofNat 5)] ++ .pay spend :: [.reward (.ofNat 8)]) := rfl
  exact same_hash_refunded hm hsplit rfl

/-- It validates, so a transaction can be executed twice. -/
theorem replayed_chain_repeats : ¬ ∀ (c : Crypto) (bs : List Body) (m : BalanceMap),
    Body.Linked .zero bs → Body.acceptAll c ∅ bs = some m →
      (bs.flatMap fun b => b.transactions.map Txn.txHash).Nodup := by
  intro h
  obtain ⟨m, hm⟩ := replayedChain_validates
  exact absurd (h .toy replayedChain m (by decide) hm) (by decide)

end Bootcamp
