import Bootcamp.Blockchain.Validation

/-! The uint64 arithmetic of validation against the ledger without overflow.
While twice the supply fits in 64 bits no operation wraps, so the map that
`validate` leaves is the ledger after the block's payments and its reward. -/
namespace Bootcamp

open Ledger (Payment)

/-- One subtraction or addition on uint64 values. -/
inductive U64Op
  | sub (a b : UInt64)
  | add (a b : UInt64)
  deriving DecidableEq

/-- The machine result is the mathematical one. -/
def U64Op.Exact : U64Op → Prop
  | sub a b => (a - b).toNat + b.toNat = a.toNat
  | add a b => (a + b).toNat = a.toNat + b.toNat

instance (op : U64Op) : Decidable op.Exact := by
  cases op <;> simp only [U64Op.Exact] <;> infer_instance

/-- The operations of `update_balances`, in order. -/
def Txn.ops (tx : Txn) (m : BalanceMap) : List U64Op :=
  let held := m.amount tx.sourceAddr
  let paid := m.credit tx.destAddr tx.amount
  [.sub held tx.amount, .add (m.amount tx.destAddr) tx.amount,
    .add (paid.amount tx.changeAddr) (held - tx.amount)]

/-- The operations of the transaction loop of `validate`, which ends at the
first transaction that is not applied. -/
def Body.transactionOps (c : Crypto) : List Txn → BalanceMap → List U64Op
  | [], _ => []
  | tx :: txs, m =>
    match tx.validate c, tx.balanceAvailable m with
    | .ok true, true => tx.ops m ++ transactionOps c txs (tx.applied m)
    | _, _ => []

/-- The operations of `validate`: those of the loop and, behind a loop that
applied every transaction, the reward. -/
def Body.ops (c : Crypto) (b : Body) (m : BalanceMap) : List U64Op :=
  transactionOps c b.transactions m ++
    match applyTransactions c b.transactions m with
    | .ok (true, m₁) => [.add (BalanceMap.amount m₁ b.rewardAddr) blockReward]
    | _ => []

namespace BalanceMap

/-- The sum of all entries. -/
def total (m : BalanceMap) : ℕ := (m.entries.map fun e => e.2.toNat).sum

/-- The map read as a ledger. -/
noncomputable def ledger (m : BalanceMap) : HashResult →₀ ℕ :=
  (m.entries.map fun e => Finsupp.single e.1 e.2.toNat).sum

theorem degree_ledger (m : BalanceMap) : m.ledger.degree = m.total := by
  simp only [ledger, total, map_list_sum, List.map_map]
  congr 1
  apply List.map_congr_left
  intro e _
  exact Finsupp.degree_single _ _

theorem sum_single_apply {es : List (HashResult × UInt64)}
    (h : es.Pairwise (fun a b => a.1 < b.1)) (a : HashResult) :
    (es.map fun e => Finsupp.single e.1 e.2.toNat).sum a =
      ((OrderedMap.lookupEntry a es).getD 0).toNat := by
  induction es with
  | nil => rfl
  | cons e es ih =>
    obtain ⟨hhead, htail⟩ := List.pairwise_cons.mp h
    rw [List.map_cons, List.sum_cons, Finsupp.add_apply, ih htail, OrderedMap.lookupEntry]
    by_cases ha : a = e.1
    · have habsent : OrderedMap.lookupEntry a es = none := by
        cases hl : OrderedMap.lookupEntry a es with
        | none => rfl
        | some v => exact absurd (hhead _ (OrderedMap.mem_of_lookup hl)) (by simp [ha])
      rw [habsent, if_pos ha, ha, Finsupp.single_eq_same]
      rfl
    · simp [ha]

theorem ledger_apply (m : BalanceMap) (a : HashResult) : m.ledger a = (m.amount a).toNat :=
  sum_single_apply m.ascending a

theorem amount_le_total (m : BalanceMap) (a : HashResult) : (m.amount a).toNat ≤ m.total := by
  rw [← ledger_apply, ← degree_ledger]
  exact Finsupp.le_degree a _

@[simp] theorem total_empty : total ∅ = 0 := rfl

theorem ledger_credit {m : BalanceMap} {a : HashResult} {v : UInt64}
    (h : (U64Op.add (m.amount a) v).Exact) :
    (m.credit a v).ledger = m.ledger + Finsupp.single a v.toNat := by
  ext b
  rw [ledger_apply, amount_credit, Finsupp.add_apply, ledger_apply]
  by_cases hb : b = a
  · subst hb
    rw [if_pos rfl, Finsupp.single_eq_same]
    exact h
  · rw [if_neg hb, Finsupp.single_eq_of_ne hb, add_zero]

theorem ledger_erase (m : BalanceMap) (a : HashResult) :
    ledger (m.erase a) = m.ledger.erase a := by
  ext b
  rw [ledger_apply, amount_erase, Finsupp.erase_apply, ledger_apply]
  split <;> rfl

end BalanceMap

open BalanceMap (ledger total)

theorem U64Op.exact_add {a b : UInt64} (h : a.toNat + b.toNat < 2 ^ 64) : (add a b).Exact := by
  rw [Exact, UInt64.toNat_add, Nat.mod_eq_of_lt h]

theorem U64Op.exact_sub {a b : UInt64} (h : b ≤ a) : (sub a b).Exact := by
  rw [Exact, UInt64.toNat_sub_of_le _ _ h]
  exact Nat.sub_add_cancel (UInt64.le_iff_toNat_le.mp h)

namespace Txn

def payment (tx : Txn) : Payment HashResult :=
  ⟨tx.sourceAddr, tx.destAddr, tx.changeAddr, tx.amount.toNat⟩

theorem covered {c : Crypto} {tx : Txn} {m : BalanceMap} (hv : tx.Authorised c)
    (ha : tx.balanceAvailable m = true) : tx.amount ≤ m.amount tx.sourceAddr :=
  (balanceAvailable_iff_amount hv.positive).mp ha

theorem ledger_covered {tx : Txn} {m : BalanceMap} (hc : tx.amount ≤ m.amount tx.sourceAddr) :
    Ledger.Covered (ledger m) tx.payment := by
  rw [Ledger.Covered, BalanceMap.ledger_apply]
  exact UInt64.le_iff_toNat_le.mp hc

/-- One covered payment, whichever of its addresses coincide: no operation
wraps, and the map follows the ledger. -/
theorem applied_refines {tx : Txn} {m : BalanceMap} (hc : tx.amount ≤ m.amount tx.sourceAddr)
    (hm : 2 * total m < 2 ^ 64) :
    (∀ op ∈ tx.ops m, op.Exact) ∧ ledger (tx.applied m) = Ledger.pay (ledger m) tx.payment := by
  have hcov := ledger_covered hc
  have hbound := fun a => Ledger.credited_le hcov a
  rw [BalanceMap.degree_ledger] at hbound
  have hsub := U64Op.exact_sub hc
  have hleft : (m.amount tx.sourceAddr - tx.amount).toNat =
      ledger m tx.sourceAddr - tx.amount.toNat := by
    rw [BalanceMap.ledger_apply, UInt64.toNat_sub_of_le _ _ hc]
  -- the destination's credit
  have hdest : (U64Op.add (m.amount tx.destAddr) tx.amount).Exact := by
    apply U64Op.exact_add
    have hpaid := Ledger.paid_le_credited (ledger m) tx.payment tx.destAddr
    simp only [Ledger.paid, payment, Finsupp.add_apply, Finsupp.single_eq_same,
      BalanceMap.ledger_apply] at hpaid
    have := hbound tx.destAddr
    simp only [payment] at this
    omega
  have hpaid : ledger (m.credit tx.destAddr tx.amount) = Ledger.paid (ledger m) tx.payment :=
    BalanceMap.ledger_credit hdest
  -- the change's credit, on top of it
  have hchange : (U64Op.add (BalanceMap.amount (m.credit tx.destAddr tx.amount) tx.changeAddr)
      (m.amount tx.sourceAddr - tx.amount)).Exact := by
    apply U64Op.exact_add
    have hval : Ledger.credited (ledger m) tx.payment tx.changeAddr =
        ledger (m.credit tx.destAddr tx.amount) tx.changeAddr +
          (ledger m tx.sourceAddr - tx.amount.toNat) := by
      rw [hpaid, Ledger.credited, Finsupp.add_apply]
      simp only [payment, Finsupp.single_eq_same]
    have := hbound tx.changeAddr
    rw [← BalanceMap.ledger_apply, hleft]
    omega
  have hcredited : ledger ((m.credit tx.destAddr tx.amount).credit tx.changeAddr
      (m.amount tx.sourceAddr - tx.amount)) = Ledger.credited (ledger m) tx.payment := by
    rw [BalanceMap.ledger_credit hchange, hpaid, hleft]
    rfl
  refine ⟨?_, ?_⟩
  · simp only [ops, List.forall_mem_cons, List.not_mem_nil, false_implies, implies_true, and_true]
    exact ⟨hsub, hdest, hchange⟩
  · rw [applied, BalanceMap.ledger_erase, hcredited]
    rfl

theorem total_applied_le {tx : Txn} {m : BalanceMap} (hc : tx.amount ≤ m.amount tx.sourceAddr)
    (hm : 2 * total m < 2 ^ 64) : total (tx.applied m) ≤ total m := by
  have hle := Ledger.degree_pay_le (ledger_covered hc)
  rwa [← (applied_refines hc hm).2, BalanceMap.degree_ledger, BalanceMap.degree_ledger] at hle

end Txn

namespace Body

/-- The loop's map follows the ledger's run. -/
theorem applyTransactions_refines {c : Crypto} {txs : List Txn} {m m' : BalanceMap}
    (hm : 2 * total m < 2 ^ 64) (h : applyTransactions c txs m = .ok (true, m')) :
    Ledger.Run (ledger m) (txs.map Txn.payment) (ledger m') := by
  induction txs generalizing m with
  | nil =>
    obtain rfl : m = m' := by simpa [applyTransactions] using h
    exact .nil
  | cons tx txs ih =>
    obtain ⟨hv, ha, h⟩ := applyTransactions_cons.mp h
    have hc := Txn.covered hv ha
    obtain ⟨-, hpay⟩ := Txn.applied_refines hc hm
    have hle := Txn.total_applied_le hc hm
    refine .cons (Txn.ledger_covered hc) ?_
    rw [← hpay]
    exact ih (by omega) h

theorem transactionOps_exact {c : Crypto} {txs : List Txn} {m : BalanceMap}
    (hm : 2 * total m < 2 ^ 64) : ∀ op ∈ transactionOps c txs m, op.Exact := by
  induction txs generalizing m with
  | nil => simp [transactionOps]
  | cons tx txs ih =>
    unfold transactionOps
    split
    · rename_i hv ha
      have hc := Txn.covered (Txn.validate_eq_true.mp hv) ha
      have hops := (Txn.applied_refines hc hm).1
      have hle := Txn.total_applied_le hc hm
      intro op hop
      rcases List.mem_append.mp hop with hop | hop
      · exact hops op hop
      · exact ih (by omega) op hop
    · simp

theorem applyTransactions_total_le {c : Crypto} {txs : List Txn} {m m' : BalanceMap}
    (hm : 2 * total m < 2 ^ 64) (h : applyTransactions c txs m = .ok (true, m')) :
    total m' ≤ total m := by
  have hrun := (applyTransactions_refines hm h).degree_le
  rwa [BalanceMap.degree_ledger, BalanceMap.degree_ledger] at hrun

theorem reward_exact {m : BalanceMap} (hm : total m + 100 < 2 ^ 64) (a : HashResult) :
    (U64Op.add (m.amount a) blockReward).Exact := by
  apply U64Op.exact_add
  have hle := m.amount_le_total a
  have hreward : blockReward.toNat = 100 := rfl
  omega

/-- No operation of a validation wraps, whatever its verdict. -/
theorem ops_exact {c : Crypto} {b : Body} {m : BalanceMap} (hm : 2 * total m + 100 < 2 ^ 64) :
    ∀ op ∈ b.ops c m, op.Exact := by
  intro op hop
  rcases List.mem_append.mp hop with hop | hop
  · exact transactionOps_exact (by omega) op hop
  · split at hop
    · rename_i m₁ h
      have hle := applyTransactions_total_le (by omega) h
      rw [List.mem_singleton.mp hop]
      exact reward_exact (by omega) _
    · simp at hop

/-- An accepted block mints its reward and nothing else. -/
theorem total_accept_le {c : Crypto} {b : Body} {m m' : BalanceMap}
    (hm : 2 * total m + 100 < 2 ^ 64) (h : b.validate c m = .ok (true, m')) :
    total m' ≤ total m + 100 := by
  obtain ⟨m₁, ht, rfl, -⟩ := validate_eq_true.mp h
  have hle := applyTransactions_total_le (by omega) ht
  have hledger := BalanceMap.ledger_credit (reward_exact (m := m₁) (by omega) b.rewardAddr)
  rw [← BalanceMap.degree_ledger, hledger, map_add, Finsupp.degree_single, BalanceMap.degree_ledger]
  have hreward : blockReward.toNat = 100 := rfl
  omega

/-- An address that has less behind an accepted block is the source of one of
its transactions, which then proved that it may spend from there. -/
theorem exists_payment_of_lt {c : Crypto} {b : Body} {m m' : BalanceMap} {a : HashResult}
    (hm : 2 * total m + 100 < 2 ^ 64) (h : b.validate c m = .ok (true, m'))
    (hlt : m'.amount a < m.amount a) : ∃ tx ∈ b.transactions, tx.sourceAddr = a ∧ tx.Authorised c := by
  obtain ⟨m₁, ht, rfl, -⟩ := validate_eq_true.mp h
  have hle := applyTransactions_total_le (by omega) ht
  have hledger := BalanceMap.ledger_credit (reward_exact (m := m₁) (by omega) b.rewardAddr)
  have hlt' : ledger m₁ a < ledger m a := by
    have hgrow := Ledger.le_reward (ledger m₁) b.rewardAddr a blockReward.toNat
    rw [Ledger.reward, ← hledger, BalanceMap.ledger_apply _ a, BalanceMap.ledger_apply _ a] at hgrow
    rw [BalanceMap.ledger_apply, BalanceMap.ledger_apply]
    exact hgrow.trans_lt (UInt64.lt_iff_toNat_lt.mp hlt)
  obtain ⟨p, hp, hpa⟩ := (applyTransactions_refines (by omega) ht).exists_source hlt'
  obtain ⟨tx, htx, rfl⟩ := List.mem_map.mp hp
  exact ⟨tx, htx, hpa, authorised_of_applyTransactions ht tx htx⟩

end Body

end Bootcamp
