import Bootcamp.Blockchain.Growth

/-! What takes down the reader of day 4: a transaction whose key and contents fit each other,
behind transactions that are accepted, and on which OpenSSL fails. -/
namespace Bootcamp

theorem Crypto.exists_verify_iff {c : Crypto} {der blk sign : Bytes} :
    (∃ r, c.verify der blk sign = .ok r) ↔ c.d2i_RSA_PUBKEY der = true ∧
      (c.EVP_DigestVerifyFinal der blk sign = 1 ∨ c.EVP_DigestVerifyFinal der blk sign = 0) := by
  unfold verify
  by_cases hkey : c.d2i_RSA_PUBKEY der = true
  · by_cases hstatus : c.EVP_DigestVerifyFinal der blk sign = 1 ∨
        c.EVP_DigestVerifyFinal der blk sign = 0
    · simp [hkey, hstatus]
    · simp [hkey, hstatus]
  · simp [hkey]

namespace Txn

/-- Only the signature is left to check, and OpenSSL does not decode the key or returns
neither 1 nor 0. -/
structure Fatal (c : Crypto) (tx : Txn) : Prop where
  positive : 0 < tx.amount
  owner : c.sha256 tx.publicKey = tx.sourceAddr
  hashed : tx.txHash = c.sha256 tx.preimage
  fails : c.d2i_RSA_PUBKEY tx.publicKey = false ∨
    (c.EVP_DigestVerifyFinal tx.publicKey tx.txHash.bytes tx.txSign ≠ 1 ∧
      c.EVP_DigestVerifyFinal tx.publicKey tx.txHash.bytes tx.txSign ≠ 0)

theorem exists_validate_iff {c : Crypto} {tx : Txn} :
    (∃ r, tx.validate c = .ok r) ↔ ¬ tx.Fatal c := by
  unfold validate
  by_cases hpos : tx.amount ≤ 0
  · rw [if_pos hpos]
    exact ⟨fun _ h => absurd h.positive (UInt64.not_lt.mpr hpos), fun _ => ⟨_, rfl⟩⟩
  · rw [if_neg hpos]
    by_cases howner : c.sha256 tx.publicKey = tx.sourceAddr
    · rw [if_neg (not_not.mpr howner)]
      by_cases hhash : tx.txHash = c.sha256 tx.preimage
      · simp only [← hhash, ne_eq, not_true, if_false, Crypto.exists_verify_iff]
        constructor
        · rintro ⟨hkey, hstatus⟩ hfatal
          cases hfatal.fails with
          | inl h => exact absurd hkey (by simp [h])
          | inr h => exact hstatus.elim h.1 h.2
        · intro h
          have hpos := UInt64.not_le.mp hpos
          refine ⟨?_, ?_⟩
          · by_contra hkey
            exact h ⟨hpos, howner, hhash, .inl (by simpa using hkey)⟩
          · by_contra hstatus
            exact h ⟨hpos, howner, hhash, .inr (not_or.mp hstatus)⟩
      · simp only [ne_eq, hhash, not_false_eq_true, if_true]
        exact ⟨fun _ h => hhash h.hashed, fun _ => ⟨_, rfl⟩⟩
    · rw [if_pos howner]
      exact ⟨fun _ h => howner h.owner, fun _ => ⟨_, rfl⟩⟩

end Txn

namespace Body

/-- Behind transactions that are accepted the others are taken from their balances. -/
theorem applyTransactions_append {c : Crypto} {txs : List Txn} {m m' : BalanceMap}
    (h : applyTransactions c txs m = .ok (true, m')) (rest : List Txn) :
    applyTransactions c (txs ++ rest) m = applyTransactions c rest m' := by
  induction txs generalizing m with
  | nil =>
    obtain rfl : m = m' := by simpa [applyTransactions] using h
    rfl
  | cons tx txs ih =>
    obtain ⟨hv, ha, h⟩ := applyTransactions_cons.mp h
    simp only [List.cons_append, applyTransactions, Txn.validate_eq_true.mpr hv, ha,
      Txn.updateBalances_eq ha, Except.ok_bind, Bool.not_true, Bool.false_eq_true, if_false]
    exact ih h

/-- On balances `m` a fatal transaction of the block has its turn. -/
def Fatal (c : Crypto) (b : Body) (m : BalanceMap) : Prop :=
  ∃ txs tx rest m', b.transactions = txs ++ tx :: rest ∧
    applyTransactions c txs m = .ok (true, m') ∧ tx.Fatal c

theorem exists_applyTransactions_iff {c : Crypto} {txs : List Txn} {m : BalanceMap} :
    (∃ r, applyTransactions c txs m = .ok r) ↔
      ¬ ∃ pre tx post m', txs = pre ++ tx :: post ∧ applyTransactions c pre m = .ok (true, m') ∧
        tx.Fatal c := by
  constructor
  · rintro ⟨r, hr⟩ ⟨pre, tx, post, m', rfl, hpre, hfatal⟩
    rw [applyTransactions_append hpre] at hr
    obtain ⟨valid, hv, -⟩ := Except.bind_eq_ok.mp hr
    exact Txn.exists_validate_iff.mp ⟨valid, hv⟩ hfatal
  · intro h
    induction txs generalizing m with
    | nil => exact ⟨_, rfl⟩
    | cons tx txs ih =>
      obtain ⟨valid, hv⟩ := Txn.exists_validate_iff.mpr fun hfatal =>
        h ⟨[], tx, txs, m, rfl, rfl, hfatal⟩
      rw [applyTransactions, hv, Except.ok_bind]
      cases valid with
      | false => exact ⟨_, rfl⟩
      | true =>
        cases ha : tx.balanceAvailable m with
        | false => exact ⟨_, rfl⟩
        | true =>
          rw [Txn.updateBalances_eq ha, Except.ok_bind]
          apply ih
          rintro ⟨pre, tx', post, m', rfl, hpre, hfatal⟩
          have hfirst := applyTransactions_cons.mpr ⟨Txn.validate_eq_true.mp hv, ha, hpre⟩
          exact h ⟨tx :: pre, tx', post, m', rfl, hfirst, hfatal⟩

theorem exists_validate_iff {c : Crypto} {b : Body} {m : BalanceMap} :
    (∃ r, b.validate c m = .ok r) ↔ ¬ b.Fatal c m := by
  rw [Fatal, ← exists_applyTransactions_iff]
  unfold validate
  constructor
  · rintro ⟨r, hr⟩
    obtain ⟨p, hp, -⟩ := Except.bind_eq_ok.mp hr
    exact ⟨p, hp⟩
  · rintro ⟨⟨valid, m'⟩, hp⟩
    rw [hp, Except.ok_bind]
    cases valid <;> exact ⟨_, rfl⟩

end Body

/-- The reader comes to its last line, and in the blocks it accepts every key decodes and
every signature is good. -/
structure IgnoresInvalid (c : Crypto) (data : Bytes) : Prop where
  prints : ∃ line, (Day4.readchain c).main data = .ok line
  accepted : ∀ s, (Day4.readchain c).Reached data s → ∀ x ∈ s.state.accepted,
    ∀ tx ∈ (s.state.heap x).transactions, c.d2i_RSA_PUBKEY tx.publicKey = true ∧
      c.EVP_DigestVerifyFinal tx.publicKey tx.txHash.bytes tx.txSign = 1

theorem Txn.Authorised.good_signature {c : Crypto} {tx : Txn} (h : tx.Authorised c) :
    c.d2i_RSA_PUBKEY tx.publicKey = true ∧
      c.EVP_DigestVerifyFinal tx.publicKey tx.txHash.bytes tx.txSign = 1 := by
  have hsigned := h.signed
  obtain ⟨hkey, hstatus⟩ := Crypto.exists_verify_iff.mp ⟨true, hsigned⟩
  simp only [Crypto.verify, hkey, hstatus, if_true, Except.ok.injEq, decide_eq_true_eq] at hsigned
  exact ⟨hkey, hsigned⟩

/-- The reader ignores what is invalid unless, on the balances of the predecessor it names, a
block of the file has a fatal transaction. -/
theorem readchain_ignores_invalid_iff (c : Crypto) (data : Bytes) :
    IgnoresInvalid c data ↔ ∀ pre b post, fileBlocks data = pre ++ b :: post →
      ¬ b.Fatal c ((BlockTree.ofBlocks (Body.validate c) pre).balances b) := by
  constructor
  · rintro ⟨⟨line, hline⟩, -⟩ pre b post hsplit
    obtain ⟨hall, -⟩ := Day.main_eq_ok.mp (show (Day.four.readchain _).main _ = _ from hline)
    exact Body.exists_validate_iff.mp (hall pre b post hsplit)
  · intro h
    refine ⟨?_, ?_⟩
    · change ∃ line, (Day.four.readchain c).main data = .ok line
      refine ⟨_, Day.main_eq_ok.mpr ⟨fun pre b post hsplit => ?_, rfl⟩⟩
      exact Body.exists_validate_iff.mpr (h pre b post hsplit)
    · intro s hs x hx tx htx
      obtain ⟨m, hm, -, -⟩ := Body.validate_eq_true.mp (hs.inv.accepted x hx).checked
      exact (Body.authorised_of_applyTransactions hm tx htx).good_signature

/-- A second block with a payment, and an OpenSSL that does not decode its key. -/
theorem undecodable_key_not_ignored : ¬ ∀ c data, IgnoresInvalid c data := by
  intro h
  have hr : ∀ b ∈ [firstBlock, secondBlock], b.Readable := by
    intro b hb
    have hw : ∀ b ∈ [firstBlock, secondBlock], b.Writable := by decide
    exact (hw b hb).readable
  have hfile : fileBlocks ([firstBlock, secondBlock].flatMap Body.encoding) =
      [firstBlock] ++ secondBlock :: [] := fileBlocks_encodings hr
  obtain ⟨line, hline⟩ := (h { Crypto.toy with d2i_RSA_PUBKEY := fun _ => false } _).prints
  obtain ⟨hall, -⟩ := Day.main_eq_ok.mp (show (Day.four.readchain _).main _ = _ from hline)
  refine Body.exists_validate_iff.mp (hall _ _ _ hfile) ⟨[], spend, [], _, rfl, rfl, ?_⟩
  exact ⟨by decide, by decide, by decide, .inl rfl⟩

end Bootcamp
