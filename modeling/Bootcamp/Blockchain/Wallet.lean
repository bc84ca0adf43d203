import Bootcamp.Blockchain.Genchain
import Bootcamp.Blockchain.Supply

/-! Why the generator's payments succeed: its wallet never believes more of an address than
the ledger has there. -/
namespace Bootcamp

open BalanceMap (ledger total)

namespace Genchain

/-! ## The wallet as a map -/

theorem any_addr_iff {utxos : List Utxo} {a : HashResult} :
    utxos.any (fun v => v.addr = a) = true ↔ a ∈ utxos.map Utxo.addr := by
  simp

theorem mem_assign {utxos : List Utxo} {u v : Utxo} (h : v ∈ assign utxos u) :
    v = u ∨ (v ∈ utxos ∧ v.addr ≠ u.addr) := by
  unfold assign at h
  split_ifs at h with hold
  · obtain ⟨x, hx, hv⟩ := List.mem_map.mp h
    split_ifs at hv with haddr
    · exact .inl hv.symm
    · subst hv
      exact .inr ⟨hx, haddr⟩
  · cases List.mem_cons.mp h with
    | inl hu => exact .inl hu
    | inr hv =>
      refine .inr ⟨hv, fun haddr => hold ?_⟩
      exact any_addr_iff.mpr (haddr ▸ List.mem_map_of_mem hv)

theorem mem_assign_of_ne {utxos : List Utxo} {u v : Utxo} (hv : v ∈ utxos) (hne : v.addr ≠ u.addr) :
    v ∈ assign utxos u := by
  unfold assign
  split_ifs
  · exact List.mem_map.mpr ⟨v, hv, if_neg hne⟩
  · exact List.mem_cons_of_mem _ hv

theorem mem_assign_self {utxos : List Utxo} {u : Utxo} : u ∈ assign utxos u := by
  unfold assign
  split_ifs with hold
  · obtain ⟨v, hv, haddr⟩ := List.mem_map.mp (any_addr_iff.mp hold)
    exact List.mem_map.mpr ⟨v, hv, if_pos haddr⟩
  · exact List.mem_cons_self

/-- An address that the wallet has keeps its place. -/
theorem addrs_assign {utxos : List Utxo} {u v : Utxo} (hv : v ∈ utxos) (haddr : v.addr = u.addr) :
    (assign utxos u).map Utxo.addr = utxos.map Utxo.addr := by
  have hold : utxos.any (fun v => v.addr = u.addr) = true :=
    any_addr_iff.mpr (haddr ▸ List.mem_map_of_mem hv)
  rw [assign, if_pos hold, List.map_map]
  apply List.map_congr_left
  intro x _
  by_cases hx : x.addr = u.addr
  · simp [hx]
  · simp [hx]

theorem assign_new {utxos : List Utxo} {u : Utxo} (h : u.addr ∉ utxos.map Utxo.addr) :
    assign utxos u = u :: utxos := by
  rw [assign, if_neg]
  exact fun hany => h (any_addr_iff.mp hany)

theorem mem_erase {utxos : List Utxo} {a : HashResult} {v : Utxo} :
    v ∈ erase utxos a ↔ v ∈ utxos ∧ v.addr ≠ a := by
  simp [erase]

theorem addrs_erase {utxos : List Utxo} (h : (utxos.map Utxo.addr).Nodup) (a : HashResult) :
    (erase utxos a).map Utxo.addr = (utxos.map Utxo.addr).erase a := by
  rw [h.erase_eq_filter, erase, List.filter_map]
  congr 1
  apply List.filter_congr
  intro v _
  rw [Bool.eq_iff_iff]
  simp

/-- Among more addresses than are excluded there is another one. -/
theorem exists_other {utxos : List Utxo} (h : (utxos.map Utxo.addr).Nodup)
    {excluded : List HashResult} (hlen : excluded.length < utxos.length) :
    ∃ u ∈ utxos, u.addr ∉ excluded := by
  by_contra hnone
  have hsub : utxos.map Utxo.addr ⊆ excluded := by
    intro a ha
    obtain ⟨u, hu, rfl⟩ := List.mem_map.mp ha
    by_contra hother
    exact hnone ⟨u, hu, hother⟩
  have hle := (List.subperm_of_subset h hsub).length_le
  rw [List.length_map] at hle
  omega

theorem search_some {w : World} {st st' : GenState} {p : Utxo → Bool} {u : Utxo}
    (h : search w st p = (some u, st')) :
    u ∈ st.utxos ∧ p u = true ∧ st' = { st with traversals := st.traversals + 1 } := by
  obtain ⟨hfind, hst⟩ := Prod.mk.inj h
  exact ⟨(w.order_perm _ _).mem_iff.mp (List.mem_of_find?_eq_some hfind),
    List.find?_some hfind, hst.symm⟩

theorem search_exists (w : World) (st : GenState) {p : Utxo → Bool} {u : Utxo} (hu : u ∈ st.utxos)
    (hp : p u = true) :
    ∃ v ∈ st.utxos, p v = true ∧
      search w st p = (some v, { st with traversals := st.traversals + 1 }) := by
  have hsome : ((w.order st.traversals st.utxos).find? p).isSome := by
    rw [List.find?_isSome]
    exact ⟨u, (w.order_perm _ _).mem_iff.mpr hu, hp⟩
  obtain ⟨v, hv⟩ := Option.isSome_iff_exists.mp hsome
  have hsearch : search w st p = (some v, { st with traversals := st.traversals + 1 }) := by
    rw [search, hv]
  obtain ⟨hmem, hpv, -⟩ := search_some hsearch
  exact ⟨v, hmem, hpv, hsearch⟩

/-- The three objects are different ones of the wallet, and the first is believed to have
the amount. -/
structure Choice.Sensible (ch : Choice) (utxos : List Utxo) : Prop where
  spend : ch.spend ∈ utxos
  recv : ch.recv ∈ utxos
  change : ch.change ∈ utxos
  recv_ne : ch.recv.addr ≠ ch.spend.addr
  change_ne : ch.change.addr ≠ ch.spend.addr
  change_ne_recv : ch.change.addr ≠ ch.recv.addr
  positive : 0 < ch.amount
  held : ch.amount ≤ ch.spend.amount

/-- A payment takes its source out of the wallet and leaves the other addresses. -/
theorem Choice.Sensible.addrs_settle {ch : Choice} {utxos : List Utxo} (h : ch.Sensible utxos)
    (hnodup : (utxos.map Utxo.addr).Nodup) :
    (ch.settle utxos).map Utxo.addr = (utxos.map Utxo.addr).erase ch.spend.addr := by
  have hrecv := addrs_assign (u := { ch.recv with amount := ch.recv.amount + ch.amount }) h.recv rfl
  have hchange := addrs_assign (u := { ch.change with amount := ch.spend.amount - ch.amount })
    (mem_assign_of_ne (u := { ch.recv with amount := ch.recv.amount + ch.amount }) h.change
      h.change_ne_recv) rfl
  rw [hrecv] at hchange
  rw [Choice.settle, addrs_erase (by rw [hchange]; exact hnodup), hchange]

/-- What the wallet has behind a payment: the change, the receiver with more, and objects
that the payment left alone. -/
theorem Choice.mem_settle {ch : Choice} {utxos : List Utxo} {v : Utxo} (hv : v ∈ ch.settle utxos) :
    v.addr ≠ ch.spend.addr ∧
      (v = { ch.change with amount := ch.spend.amount - ch.amount } ∨
        v.addr ≠ ch.change.addr ∧
          (v = { ch.recv with amount := ch.recv.amount + ch.amount } ∨
            v ∈ utxos ∧ v.addr ≠ ch.recv.addr)) := by
  obtain ⟨hv, hvs⟩ := mem_erase.mp hv
  refine ⟨hvs, ?_⟩
  cases mem_assign hv with
  | inl hnew => exact .inl hnew
  | inr hv => exact .inr ⟨hv.2, mem_assign hv.1⟩

theorem Choice.Sensible.length_settle {ch : Choice} {utxos : List Utxo} (h : ch.Sensible utxos)
    (hnodup : (utxos.map Utxo.addr).Nodup) : (ch.settle utxos).length = utxos.length - 1 := by
  have haddrs := congrArg List.length (h.addrs_settle hnodup)
  rwa [List.length_map, List.length_erase_of_mem (List.mem_map_of_mem h.spend),
    List.length_map] at haddrs

end Genchain

/-! ## What the wallet believes -/

/-- The world keeps its promises for the first `n` keys: their addresses are distinct, they
and their signatures have a size that can be written, and the signatures are good. -/
structure World.Sound (c : Crypto) (w : World) (n : Nat) : Prop where
  distinct : ∀ i < n, ∀ j < n,
    c.sha256 (w.keys i).keyDER = c.sha256 (w.keys j).keyDER → i = j
  key_size : ∀ i < n, 0 < (w.keys i).keyDER.length ∧ (w.keys i).keyDER.length < 1024
  sign_size : ∀ i < n, ∀ blk, 0 < ((w.keys i).sign blk).length ∧ ((w.keys i).sign blk).length < 1024
  verifies : ∀ i < n, ∀ blk, c.verify (w.keys i).keyDER blk ((w.keys i).sign blk) = .ok true

namespace Genchain

/-- The wallet consists of some of the first `n` keys, each once. -/
structure Owned (c : Crypto) (w : World) (n : Nat) (utxos : List Utxo) : Prop where
  own : ∀ u ∈ utxos, ∃ k < n, u.key = w.keys k ∧ u.addr = c.sha256 u.key.keyDER
  nodup : (utxos.map Utxo.addr).Nodup

namespace Owned

variable {c : Crypto} {w : World} {n K : Nat} {utxos : List Utxo}

theorem nil : Owned c w n [] where
  own := by simp
  nodup := by simp

/-- A key that was not used before has an address that the wallet does not have. -/
theorem fresh (h : Owned c w n utxos) (hw : w.Sound c K) (hn : n < K) :
    (Utxo.make c (w.keys n)).addr ∉ utxos.map Utxo.addr := by
  intro hmem
  obtain ⟨u, hu, haddr⟩ := List.mem_map.mp hmem
  obtain ⟨k, hk, hkey, hown⟩ := h.own u hu
  rw [hown, hkey] at haddr
  have heq := hw.distinct k (by omega) n hn haddr
  omega

theorem cons (h : Owned c w n utxos)
    (hfresh : (Utxo.make c (w.keys n)).addr ∉ utxos.map Utxo.addr) :
    Owned c w (n + 1) (Utxo.make c (w.keys n) :: utxos) where
  own u hu := by
    cases List.mem_cons.mp hu with
    | inl hnew =>
      subst hnew
      exact ⟨n, by omega, rfl, rfl⟩
    | inr hold =>
      obtain ⟨k, hk, hkey⟩ := h.own u hold
      exact ⟨k, by omega, hkey⟩
  nodup := by
    rw [List.map_cons, List.nodup_cons]
    exact ⟨hfresh, h.nodup⟩

theorem assign (h : Owned c w n utxos) {u v : Utxo} (hv : v ∈ utxos) (haddr : v.addr = u.addr)
    (hkey : u.key = v.key) : Owned c w n (assign utxos u) where
  own x hx := by
    cases mem_assign hx with
    | inl hnew =>
      rw [hnew, hkey, ← haddr]
      exact h.own v hv
    | inr hold => exact h.own x hold.1
  nodup := by
    rw [addrs_assign hv haddr]
    exact h.nodup

theorem erase (h : Owned c w n utxos) (a : HashResult) : Owned c w n (erase utxos a) where
  own u hu := h.own u (mem_erase.mp hu).1
  nodup := by
    rw [addrs_erase h.nodup]
    exact h.nodup.erase a

theorem settle (h : Owned c w n utxos) {ch : Choice} (hch : ch.Sensible utxos) :
    Owned c w n (ch.settle utxos) := by
  have hrecv := h.assign (u := { ch.recv with amount := ch.recv.amount + ch.amount }) hch.recv
    rfl rfl
  have hchange : ch.change ∈
      Genchain.assign utxos { ch.recv with amount := ch.recv.amount + ch.amount } :=
    mem_assign_of_ne hch.change hch.change_ne_recv
  have hboth := hrecv.assign (u := { ch.change with amount := ch.spend.amount - ch.amount }) hchange
    rfl rfl
  exact hboth.erase _

end Owned

/-- The ledger `m` has at least what the wallet believes. -/
structure Backed (c : Crypto) (w : World) (n : Nat) (m : BalanceMap) (utxos : List Utxo) : Prop
    extends Owned c w n utxos where
  covered : ∀ u ∈ utxos, u.amount ≤ m.amount u.addr

namespace Backed

variable {c : Crypto} {w : World} {n K : Nat} {m : BalanceMap} {utxos : List Utxo}

/-- A new key comes with nothing, so no ledger has less. -/
theorem cons (h : Backed c w n m utxos) (hw : w.Sound c K) (hn : n < K) :
    Backed c w (n + 1) m (Utxo.make c (w.keys n) :: utxos) where
  toOwned := h.toOwned.cons (h.toOwned.fresh hw hn)
  covered u hu := by
    cases List.mem_cons.mp hu with
    | inl hnew =>
      subst hnew
      rw [UInt64.le_iff_toNat_le]
      exact Nat.zero_le _
    | inr hold => exact h.covered u hold

/-- A payment out of what the wallet believes to have: it overwrites what it believed of
the change address, where the ledger adds to what is there. -/
theorem settle (h : Backed c w n m utxos) (hm : 2 * total m < 2 ^ 64) {ch : Choice}
    (hch : ch.Sensible utxos) {tx : Txn} (hsource : tx.sourceAddr = ch.spend.addr)
    (hdest : tx.destAddr = ch.recv.addr) (hchng : tx.changeAddr = ch.change.addr)
    (hamount : tx.amount = ch.amount) : Backed c w n (tx.applied m) (ch.settle utxos) := by
  have hspend := h.covered ch.spend hch.spend
  have hcovered : tx.amount ≤ m.amount tx.sourceAddr := by
    rw [hsource, hamount]
    exact UInt64.le_trans hch.held hspend
  have hrefines := (Txn.applied_refines hcovered hm).2
  have happlied (a : HashResult) :
      (BalanceMap.amount (tx.applied m) a).toNat = Ledger.pay (ledger m) tx.payment a := by
    rw [← BalanceMap.ledger_apply, hrefines]
  refine ⟨h.toOwned.settle hch, fun v hv => ?_⟩
  obtain ⟨hvs, hv⟩ := Choice.mem_settle hv
  rw [UInt64.le_iff_toNat_le, happlied]
  cases hv with
  | inl hchange =>
    subst hchange
    have hpay := Ledger.change_le_pay (l := ledger m) (p := tx.payment) (by
      show tx.changeAddr ≠ tx.sourceAddr
      rw [hchng, hsource]
      exact hch.change_ne)
    simp only [Txn.payment, hsource, hchng, hamount, BalanceMap.ledger_apply] at hpay
    have hleft := UInt64.toNat_sub_of_le _ _ hch.held
    rw [UInt64.le_iff_toNat_le] at hspend
    simp only [Txn.payment, hsource, hchng, hamount]
    omega
  | inr hv =>
    cases hv.2 with
    | inl hrecv =>
      subst hrecv
      have hpay := Ledger.dest_le_pay (l := ledger m) (p := tx.payment) (by
        show tx.destAddr ≠ tx.sourceAddr
        rw [hdest, hsource]
        exact hch.recv_ne)
      have hlt := (BalanceMap.amount (tx.applied m) tx.destAddr).toNat_lt
      rw [happlied] at hlt
      have hrecvd := UInt64.le_iff_toNat_le.mp (h.covered ch.recv hch.recv)
      have hadd := UInt64.toNat_add ch.recv.amount ch.amount
      simp only [Txn.payment, hdest, hamount, BalanceMap.ledger_apply] at hpay hlt ⊢
      rw [hadd]
      omega
    | inr hold =>
      have hpay := Ledger.le_pay (l := ledger m) (p := tx.payment) (a := v.addr) (by
        show v.addr ≠ tx.sourceAddr
        rw [hsource]
        exact hvs)
      rw [BalanceMap.ledger_apply] at hpay
      exact (UInt64.le_iff_toNat_le.mp (h.covered v hold.1)).trans hpay

end Backed

end Genchain

end Bootcamp
