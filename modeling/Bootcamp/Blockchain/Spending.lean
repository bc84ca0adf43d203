import Bootcamp.Blockchain.Wallet

/-! One turn of each loop of the generator, and then the loops: no assertion fails, every
transaction is accepted, and the wallet stays backed by the ledger. -/
namespace Bootcamp

open BalanceMap (total)

namespace Genchain

variable {c : Crypto} {w : World} {K numTxns : Nat}

/-- The wallet is filled up with new keys, and nothing else changes. -/
theorem addUtxos_spec (hw : w.Sound c K) {minUtxos k : Nat} {st : GenState} {m : BalanceMap}
    (hb : Backed c w st.keys m st.utxos) (hsize : st.utxos.length ≤ minUtxos)
    (hk : minUtxos - st.utxos.length < k) (hkeys : st.keys + (minUtxos - st.utxos.length) ≤ K) :
    ∃ utxos, addUtxos c w minUtxos k st =
        .ok { st with utxos, keys := st.keys + (minUtxos - st.utxos.length) } ∧
      Backed c w (st.keys + (minUtxos - st.utxos.length)) m utxos ∧ utxos.length = minUtxos ∧
      st.utxos ⊆ utxos := by
  induction k generalizing st with
  | zero => omega
  | succ k ih =>
    unfold addUtxos
    by_cases hlt : st.utxos.length < minUtxos
    · have hn : st.keys < K := by omega
      have hfresh := hb.toOwned.fresh hw hn
      have hany : ¬ st.utxos.any (fun v => v.addr = (Utxo.make c (w.keys st.keys)).addr) = true :=
        fun hany => hfresh (any_addr_iff.mp hany)
      have hcount : st.keys + 1 + (minUtxos - (st.utxos.length + 1)) =
          st.keys + (minUtxos - st.utxos.length) := by omega
      rw [if_pos hlt]
      simp only [if_neg hany, assign_new hfresh]
      obtain ⟨utxos, hrun, hb', hlen, hsub⟩ :=
        @ih { st with utxos := Utxo.make c (w.keys st.keys) :: st.utxos, keys := st.keys + 1 }
          (hb.cons hw hn) hlt (by rw [List.length_cons]; omega)
          (by simp only [List.length_cons]; omega)
      simp only [List.length_cons, hcount] at hrun hb'
      exact ⟨utxos, hrun, hb', hlen, fun u hu => hsub (List.mem_cons_of_mem _ hu)⟩
    · have hfull : minUtxos - st.utxos.length = 0 := by omega
      rw [if_neg hlt, hfull]
      exact ⟨st.utxos, rfl, hb, by omega, List.Subset.refl _⟩

theorem ensureMinUtxos_spec (hw : w.Sound c K) (minUtxos : Nat) (st : GenState) {m : BalanceMap}
    (hb : Backed c w st.keys m st.utxos) (hsize : st.utxos.length ≤ minUtxos)
    (hkeys : st.keys + (minUtxos - st.utxos.length) ≤ K) :
    ∃ utxos, ensureMinUtxos c w minUtxos st =
        .ok { st with utxos, keys := st.keys + (minUtxos - st.utxos.length) } ∧
      Backed c w (st.keys + (minUtxos - st.utxos.length)) m utxos ∧ utxos.length = minUtxos ∧
      st.utxos ⊆ utxos :=
  addUtxos_spec hw hb hsize (by omega) hkeys

theorem drawAmount_spec {held : UInt64} (hpos : 0 < held) (k : Nat) (st : GenState) :
    ∃ amount, drawAmount w held (k + 1) st = .ok (amount, { st with rands := st.rands + 1 }) ∧
      0 < amount ∧ amount ≤ held := by
  have hrand := (w.rand st.rands).isLt
  have hpos' : 0 < held.toNat := UInt64.lt_iff_toNat_lt.mp hpos
  have hmod := Nat.mod_lt (w.rand st.rands).val hpos'
  have hmod' := Nat.mod_le (w.rand st.rands).val held.toNat
  have hamount : (UInt64.ofNat (w.rand st.rands) % held + 1).toNat =
      (w.rand st.rands).val % held.toNat + 1 := by
    have hofNat : (UInt64.ofNat (w.rand st.rands)).toNat = (w.rand st.rands).val :=
      UInt64.toNat_ofNat_of_lt' (by simp only [UInt64.size]; omega)
    rw [UInt64.toNat_add, UInt64.toNat_mod, hofNat]
    show ((w.rand st.rands).val % held.toNat + 1) % 2 ^ 64 = _
    omega
  have hne : UInt64.ofNat (w.rand st.rands) % held + 1 ≠ 0 := by
    intro hzero
    rw [hzero] at hamount
    have hz : (0 : UInt64).toNat = 0 := rfl
    omega
  refine ⟨UInt64.ofNat (w.rand st.rands) % held + 1, ?_, ?_, ?_⟩
  · rw [drawAmount]
    exact if_neg hne
  · rw [UInt64.lt_iff_toNat_lt, hamount]
    exact Nat.succ_pos _
  · rw [UInt64.le_iff_toNat_le, hamount]
    omega

/-! ## Transactions -/

/-- Between two transactions of a block that is built on the balances `m`. -/
structure Spending (c : Crypto) (w : World) (numTxns : Nat) (m : BalanceMap)
    (rewardAddr : HashResult) (st : GenState) (block : Block) : Prop where
  backed : Backed c w st.keys block.balances st.utxos
  size : st.utxos.length = numTxns
  built : block.Built c m
  reward : rewardAddr ∈ st.utxos.map Utxo.addr
  supply : 2 * total block.balances + 100 < 2 ^ 64

theorem exists_signed (hw : w.Sound c K) {n : Nat} (hn : n ≤ K) {utxos : List Utxo}
    (ho : Owned c w n utxos) {snd : Utxo} (hsnd : snd ∈ utxos) (rcv chng : Utxo) {amt : UInt64}
    (hpos : 0 < amt) : (createTxn c snd rcv chng amt).Authorised c ∧
      (createTxn c snd rcv chng amt).Writable := by
  obtain ⟨k, hk, hkey, haddr⟩ := ho.own snd hsnd
  have hlt : k < K := by omega
  have hsize := hw.key_size k hlt
  have hsign := hw.sign_size k hlt
  have hverify := hw.verifies k hlt
  rw [← hkey] at hsize hsign hverify
  refine ⟨Txn.authorised_make hpos haddr.symm hverify _ _, ?_⟩
  exact ⟨hsize.1, hsize.2, (hsign _).1, (hsign _).2⟩

/-- What is chosen can be paid, and not by the reward address. -/
theorem choose_ok {rewardAddr : HashResult} {st st' : GenState} {choice : Option Choice}
    (h : choose w rewardAddr st = .ok (choice, st')) :
    (∃ rands traversals, st' = { st with rands, traversals }) ∧
      ∀ ch, choice = some ch → ch.Sensible st.utxos ∧ ch.spend.addr ≠ rewardAddr := by
  unfold choose at h
  cases hspend : findSpendable w st rewardAddr with
  | mk spendPos st₁ =>
    simp only [hspend] at h
    cases spendPos with
    | none =>
      obtain ⟨rfl, rfl⟩ := Prod.mk.inj (Except.ok.inj h)
      rw [← (Prod.mk.inj hspend).2]
      exact ⟨⟨_, _, rfl⟩, fun ch hch => by cases hch⟩
    | some spend =>
      obtain ⟨hmem, hspendable, rfl⟩ := search_some hspend
      obtain ⟨hpos, hunrewarded⟩ : 0 < spend.amount ∧ spend.addr ≠ rewardAddr := by
        simpa using hspendable
      cases hrecv : search w { st with traversals := st.traversals + 1 }
          fun u => u.addr ≠ spend.addr with
      | mk recv st₂ =>
        simp only [hrecv] at h
        cases recv with
        | none => cases h
        | some recv =>
          obtain ⟨hr, hrp, rfl⟩ := search_some hrecv
          cases hchange : search w { st with traversals := st.traversals + 1 + 1 }
              fun u => u.addr ≠ spend.addr && u.addr ≠ recv.addr with
          | mk change st₃ =>
            simp only [hchange] at h
            cases change with
            | none => cases h
            | some change =>
              obtain ⟨hg, hgp, rfl⟩ := search_some hchange
              obtain ⟨amount, hdraw, hamount, hle⟩ :=
                drawAmount_spec (w := w) hpos 1 { st with traversals := st.traversals + 1 + 1 + 1 }
              rw [hdraw] at h
              obtain ⟨rfl, rfl⟩ := Prod.mk.inj (Except.ok.inj h)
              refine ⟨⟨_, _, rfl⟩, fun ch hch => ?_⟩
              obtain rfl := Option.some.inj hch
              have hrs : recv.addr ≠ spend.addr := of_decide_eq_true hrp
              have hgs : change.addr ≠ spend.addr ∧ change.addr ≠ recv.addr := by simpa using hgp
              exact ⟨⟨hmem, hr, hg, hrs, hgs.1, hgs.2, hamount, hle⟩, hunrewarded⟩

/-- Three addresses are enough for a receiver and a change address. -/
theorem choose_returns (hnum : 3 ≤ numTxns) (rewardAddr : HashResult) {st : GenState}
    (hnodup : (st.utxos.map Utxo.addr).Nodup) (hsize : st.utxos.length = numTxns) :
    ∃ choice st', choose w rewardAddr st = .ok (choice, st') := by
  unfold choose
  cases hspend : findSpendable w st rewardAddr with
  | mk spendPos st₁ =>
    cases spendPos with
    | none => exact ⟨none, st₁, rfl⟩
    | some spend =>
      obtain ⟨-, hspendable, rfl⟩ := search_some hspend
      obtain ⟨hpos, -⟩ : 0 < spend.amount ∧ spend.addr ≠ rewardAddr := by
        simpa using hspendable
      obtain ⟨r, hr, hrs⟩ := exists_other hnodup
        (show [spend.addr].length < st.utxos.length by
          simp only [List.length_cons, List.length_nil]
          omega)
      obtain ⟨recv, -, -, hsearch⟩ :=
        search_exists w { st with traversals := st.traversals + 1 }
          (p := fun u => u.addr ≠ spend.addr) hr (by simpa using hrs)
      obtain ⟨g, hg, hgs⟩ := exists_other hnodup
        (show [spend.addr, recv.addr].length < st.utxos.length by
          simp only [List.length_cons, List.length_nil]
          omega)
      obtain ⟨change, -, -, hsearch'⟩ :=
        search_exists w { st with traversals := st.traversals + 1 + 1 }
          (p := fun u => u.addr ≠ spend.addr && u.addr ≠ recv.addr) hg (by simpa using hgs)
      obtain ⟨amount, hdraw, -⟩ :=
        drawAmount_spec (w := w) hpos 1 { st with traversals := st.traversals + 1 + 1 + 1 }
      simp only [hsearch, hsearch', hdraw, Except.ok_bind]
      exact ⟨_, _, rfl⟩

/-- A turn goes on with sensible choices wherever there is something to spend. -/
theorem choose_spec (hnum : 3 ≤ numTxns) (rewardAddr : HashResult) {st : GenState}
    (hnodup : (st.utxos.map Utxo.addr).Nodup) (hsize : st.utxos.length = numTxns) :
    ∃ choice rands traversals,
      choose w rewardAddr st = .ok (choice, { st with rands, traversals }) ∧
      ∀ ch, choice = some ch → ch.Sensible st.utxos ∧ ch.spend.addr ≠ rewardAddr := by
  obtain ⟨choice, st', hchoose⟩ := choose_returns (w := w) hnum rewardAddr hnodup hsize
  obtain ⟨⟨rands, traversals, rfl⟩, hsensible⟩ := choose_ok hchoose
  exact ⟨choice, rands, traversals, hchoose, hsensible⟩

/-- A turn leaves the loop, or adds a transaction that pays out of the wallet. -/
theorem spendTurn_spec (hw : w.Sound c K) (hnum : 3 ≤ numTxns) {m : BalanceMap}
    {rewardAddr : HashResult} {st : GenState} {block : Block}
    (hs : Spending c w numTxns m rewardAddr st block) (hkeys : st.keys < K) :
    (∃ rands traversals, spendTurn c w numTxns rewardAddr st block =
        .ok (none, { st with rands, traversals })) ∨
      ∃ utxos rands traversals tx balances, spendTurn c w numTxns rewardAddr st block =
          .ok (some { block with transactions := block.transactions ++ [tx], balances },
            { st with utxos, added := st.added ++ [true], rands, keys := st.keys + 1, traversals }) ∧
        Spending c w numTxns m rewardAddr
          { st with utxos, added := st.added ++ [true], rands, keys := st.keys + 1, traversals }
          { block with transactions := block.transactions ++ [tx], balances } := by
  obtain ⟨choice, rands, traversals, hchoose, hsensible⟩ :=
    choose_spec (w := w) hnum rewardAddr hs.backed.nodup hs.size
  unfold spendTurn
  rw [hchoose, Except.ok_bind]
  cases choice with
  | none => exact .inl ⟨rands, traversals, rfl⟩
  | some ch =>
    right
    obtain ⟨hch, hunrewarded⟩ := hsensible ch rfl
    obtain ⟨hv, hwritable⟩ := exists_signed hw hkeys.le hs.backed.toOwned hch.spend ch.recv ch.change
      hch.positive
    have hsupply := hs.supply
    have hcovered : ch.amount ≤ block.balances.amount ch.spend.addr :=
      UInt64.le_trans hch.held (hs.backed.covered _ hch.spend)
    have ha : (createTxn c ch.spend ch.recv ch.change ch.amount).balanceAvailable block.balances =
        true := (Txn.balanceAvailable_iff_amount hv.positive).mpr hcovered
    simp only [Txn.validate_eq_true.mpr hv, Except.ok_bind, Block.addTransaction_accept hv ha]
    have hsettled : Backed c w st.keys
        ((createTxn c ch.spend ch.recv ch.change ch.amount).applied block.balances)
        (ch.settle st.utxos) := hs.backed.settle (by omega) hch rfl rfl rfl rfl
    have hlen := hch.length_settle hs.backed.nodup
    have hsize := hs.size
    have hmissing : numTxns - (ch.settle st.utxos).length = 1 := by omega
    obtain ⟨utxos, hfill, hbacked, hfull, hsub⟩ := ensureMinUtxos_spec hw numTxns
      { st with utxos := ch.settle st.utxos, added := st.added ++ [true], rands, traversals }
      hsettled (by simp only; omega) (by simp only; omega)
    simp only [hmissing] at hfill hbacked
    simp only [hfill, Except.ok_bind]
    refine ⟨utxos, rands, traversals, _, _, rfl, hbacked, hfull, hs.built.concat hv hwritable ha, ?_, ?_⟩
    · have hkept : rewardAddr ∈ (ch.settle st.utxos).map Utxo.addr := by
        rw [hch.addrs_settle hs.backed.nodup]
        exact (List.mem_erase_of_ne hunrewarded.symm).mpr hs.reward
      exact List.map_subset _ hsub hkept
    · have hle : total ((createTxn c ch.spend ch.recv ch.change ch.amount).applied block.balances) ≤
          total block.balances := Txn.total_applied_le hcovered (by omega)
      simp only
      omega

/-- The loop adds as many transactions as it makes turns, or fewer. -/
theorem spendLoop_spec (hw : w.Sound c K) (hnum : 3 ≤ numTxns) {m : BalanceMap}
    {rewardAddr : HashResult} {k : Nat} {st : GenState} {block : Block}
    (hs : Spending c w numTxns m rewardAddr st block) (hkeys : st.keys + k ≤ K) :
    ∃ utxos rands traversals txs balances, txs.length ≤ k ∧
      spendLoop c w numTxns rewardAddr k st block =
        .ok ({ st with utxos, added := st.added ++ List.replicate txs.length true, rands,
                       keys := st.keys + txs.length, traversals },
          { block with transactions := block.transactions ++ txs, balances }) ∧
      Spending c w numTxns m rewardAddr
        { st with utxos, added := st.added ++ List.replicate txs.length true, rands,
                  keys := st.keys + txs.length, traversals }
        { block with transactions := block.transactions ++ txs, balances } := by
  induction k generalizing st block with
  | zero =>
    refine ⟨st.utxos, st.rands, st.traversals, [], block.balances, le_refl 0, ?_, ?_⟩
    · simp [spendLoop]
    · simpa using hs
  | succ k ih =>
    rw [spendLoop]
    cases spendTurn_spec hw hnum hs (by omega) with
    | inl hbreak =>
      obtain ⟨rands, traversals, hturn⟩ := hbreak
      rw [hturn, Except.ok_bind]
      refine ⟨st.utxos, rands, traversals, [], block.balances, Nat.zero_le _, ?_, ?_⟩
      · simp
      · simpa using ⟨hs.backed, hs.size, hs.built, hs.reward, hs.supply⟩
    | inr hpaid =>
      obtain ⟨utxos, rands, traversals, tx, balances, hturn, hs'⟩ := hpaid
      rw [hturn, Except.ok_bind]
      obtain ⟨utxos', rands', traversals', txs, balances', hlen, hloop, hs''⟩ :=
        ih hs' (by simp only; omega)
      have hadded : st.added ++ [true] ++ List.replicate txs.length true =
          st.added ++ List.replicate (tx :: txs).length true := by
        rw [List.append_assoc, List.length_cons, List.replicate_succ, List.singleton_append]
      have htxs : block.transactions ++ [tx] ++ txs = block.transactions ++ tx :: txs := by simp
      have hcount : st.keys + 1 + txs.length = st.keys + (tx :: txs).length := by
        rw [List.length_cons]
        omega
      simp only [hadded, htxs, hcount] at hloop hs''
      exact ⟨utxos', rands', traversals', tx :: txs, balances', Nat.succ_le_succ hlen, hloop, hs''⟩

end Genchain

end Bootcamp
