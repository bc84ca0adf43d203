import Bootcamp.Blockchain.Readchain

/-! The sum of all balances behind one transaction. The source is emptied last, so money
that a transaction sends back to it is gone; all other money is kept. -/
namespace Bootcamp

open BalanceMap (ledger total)

/-- What goes back to the source: the amount of a payment to oneself, and change that is
to stay where it was. -/
def Txn.returned (tx : Txn) (m : BalanceMap) : ℕ :=
  (if tx.destAddr = tx.sourceAddr then tx.amount.toNat else 0) +
    if tx.changeAddr = tx.sourceAddr then (m.amount tx.sourceAddr - tx.amount).toNat else 0

theorem Txn.returned_eq {tx : Txn} {m : BalanceMap} (hc : tx.amount ≤ m.amount tx.sourceAddr) :
    tx.returned m = Ledger.returned (ledger m) tx.payment := by
  rw [returned, Ledger.returned, BalanceMap.ledger_apply, UInt64.toNat_sub_of_le _ _ hc]
  rfl

theorem Txn.total_applied {tx : Txn} {m : BalanceMap} (hc : tx.amount ≤ m.amount tx.sourceAddr)
    (hm : 2 * total m < 2 ^ 64) : total (tx.applied m) + tx.returned m = total m := by
  have hpay := Ledger.degree_pay (ledger_covered hc)
  rwa [← (applied_refines hc hm).2, ← returned_eq hc, BalanceMap.degree_ledger,
    BalanceMap.degree_ledger] at hpay

/-- `update_balances` keeps the sum of all balances but for what goes back to the source,
on both days. -/
theorem update_balances_total {tx : Txn} {m : BalanceMap} (hm : total m < 2 ^ 63)
    (ha : tx.balanceAvailable m = true) : ∃ m', tx.updateBalances m = .ok m' ∧
      Day1.Txn.updateBalances tx m = .ok m' ∧ total m' + tx.returned m = total m := by
  have hupdate := Txn.updateBalances_eq ha
  obtain ⟨v, hv, hle⟩ := Txn.balanceAvailable_iff.mp ha
  have hc : tx.amount ≤ m.amount tx.sourceAddr := by
    rw [BalanceMap.amount, hv]
    exact hle
  refine ⟨_, hupdate, ?_, Txn.total_applied hc (by omega)⟩
  rw [Day1.Txn.updateBalances_eq, hupdate]

/-- 100 at the address that `spend` spends from. -/
def fullAccount : BalanceMap := BalanceMap.credit ∅ (.ofNat 5) 100

theorem full_account_total : ∃ m', spend.updateBalances fullAccount = .ok m' ∧
    Day1.Txn.updateBalances spend fullAccount = .ok m' ∧
      total m' + spend.returned fullAccount = total fullAccount :=
  update_balances_total (by decide) (by decide)

/-- A payment of 30 to oneself leaves 70. -/
theorem payment_to_self_burns : ¬ ∀ (tx : Txn) (m : BalanceMap), total m < 2 ^ 63 →
    tx.balanceAvailable m = true → ∃ m', tx.updateBalances m = .ok m' ∧ total m' = total m := by
  intro h
  obtain ⟨m', hupdate, htotal⟩ := h { spend with destAddr := .ofNat 5 } fullAccount
    (by decide) (by decide)
  have hburnt : { spend with destAddr := .ofNat 5 }.updateBalances fullAccount =
      .ok (BalanceMap.credit ∅ (.ofNat 7) 70) := by decide
  obtain rfl := Except.ok.inj (hupdate.symm.trans hburnt)
  revert htotal
  decide

end Bootcamp
