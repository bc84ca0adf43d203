import Bootcamp.Blockchain.Readchain

/-! What the sequential readers guarantee about every file: the supply bound
with its absence of overflow, that only an owner spends, and exactly when every
accepted chain starts in a coinbase. -/
namespace Bootcamp

open Chains (Chain)
open BalanceMap (total)

namespace Readchain

variable {p : Readchain}

theorem Inv.chain_accepted {st : ReadState} (hi : p.Inv st) {x : Ptr} {l : List Ptr}
    (hl : Chain st.heap.prev x l) (hx : x ∈ st.accepted) : ∀ y ∈ l, y ∈ st.accepted :=
  hl.forall_mem (S := fun y => y ∈ st.accepted)
    (fun _ _ hy hq => ((hi.accepted _ hy).linked _ hq).1) hx

/-! ## Supply -/

variable {c : Crypto}

/-- Each block of a chain mints its reward at most. -/
theorem Inv.total_le_chain {st : ReadState} (hi : (Day4.readchain c).Inv st) {x : Ptr}
    {l : List Ptr} (hl : Chain st.heap.prev x l) (hx : x ∈ st.accepted)
    (hlen : l.length ≤ 2 ^ 32) : total (st.heap x).balances ≤ 100 * l.length := by
  induction hl with
  | @last x hnone =>
    have hv := (hi.accepted x hx).checked
    rw [Block.resetBalances_none hnone] at hv
    simpa using Body.total_accept_le (by simp) hv
  | @link x q l hsome _ ih =>
    rw [List.length_cons] at hlen ⊢
    have hv := (hi.accepted x hx).checked
    rw [Block.resetBalances_some hsome] at hv
    have hq := ih ((hi.accepted x hx).linked q hsome).1 (by omega)
    have hle := Body.total_accept_le (by omega) hv
    omega

theorem Inv.total_le {st : ReadState} (hi : (Day4.readchain c).Inv st) (hn : st.i < 2 ^ 32)
    {x : Ptr} (hx : x ∈ st.accepted) :
    total (st.heap x).balances ≤ 100 * (st.heap x).length.toNat := by
  obtain ⟨l, hl, hle⟩ := hi.exists_chain hx
  have hser := (hi.fresh x hx).2
  rw [hi.toNat_length hn hl hx]
  exact hi.total_le_chain hl hx (by omega)

/-- The bound under which no validation overflows. -/
theorem Inv.total_reset_le {st : ReadState} (hi : (Day4.readchain c).Inv st) (hn : st.i < 2 ^ 32)
    {blk : Block} (hprev : ∀ q, blk.prevBlock = some q → q ∈ st.accepted) :
    2 * total (blk.resetBalances st.heap) + 100 < 2 ^ 64 := by
  cases hq : blk.prevBlock with
  | none =>
    rw [Block.resetBalances_none hq]
    simp
  | some q =>
    have hle := hi.total_le hn (hprev q hq)
    have hlt := (st.heap q).length.toNat_lt
    rw [Block.resetBalances_some hq]
    omega

end Readchain

/-- Two blocks, the second with a payment, and something behind them. -/
theorem reached_two_blocks : ∃ st, (Day4.readchain .toy).Reached
    ([firstBlock, secondBlock].flatMap Body.encoding ++ [0]) ⟨[0], 1, st⟩ ∧
      st.i = 2 ∧ st.accepted.length = 2 := by
  have hv : (Body.acceptAll .toy ∅ [firstBlock, secondBlock]).isSome := by decide +kernel
  obtain ⟨m, hm⟩ := Option.isSome_iff_exists.mp hv
  have hw : ∀ b ∈ [firstBlock, secondBlock], b.Writable := by decide
  have hl : Body.Linked .zero [firstBlock, secondBlock] := by decide
  have hz : ∀ b ∈ [firstBlock, secondBlock], b.blkHash ≠ .zero := by decide
  obtain ⟨st, hs, hn, hacc⟩ := Readchain.reached_linear hw hl hz hm [0]
  exact ⟨st, hs, hn, hacc⟩

/-- On every file of fewer than 2^32 blocks: what the chain of an accepted
block owns is covered by its rewards, and no operation of any validation wraps. -/
theorem readchain_never_inflates {c : Crypto} {data : Bytes} {s : Cursor ReadState}
    (hs : (Day4.readchain c).Reached data s) (hn : s.state.i < 2 ^ 32) :
    (∀ x ∈ s.state.accepted,
      total (s.state.heap x).balances ≤ 100 * (s.state.heap x).length.toNat) ∧
    ∀ n blk, Block.read s.data s.bytesLeft s.state.heap s.state.bmap = .ok (some (n, blk)) →
      ∀ op ∈ blk.toBody.ops c (blk.resetBalances s.state.heap), op.Exact := by
  have hi := hs.inv
  refine ⟨fun x hx => hi.total_le hn hx, ?_⟩
  intro n blk hread
  obtain ⟨b, -, rfl⟩ := Block.read_eq_some.mp hread
  apply Body.ops_exact
  apply hi.total_reset_le hn
  intro q hq
  rcases Block.attached_cases s.state.heap s.state.bmap b with ⟨hnone, -⟩ | ⟨q', hsome, -, hf, -⟩
  · rw [hnone] at hq
    cases hq
  · obtain rfl : q' = q := Option.some.inj (hsome.symm.trans hq)
    exact (hi.keyed _ _ hf).1

theorem two_blocks_never_inflate : ∃ s : Cursor ReadState, s.state.accepted.length = 2 ∧
    (∀ x ∈ s.state.accepted,
      total (s.state.heap x).balances ≤ 100 * (s.state.heap x).length.toNat) ∧
    ∀ n blk, Block.read s.data s.bytesLeft s.state.heap s.state.bmap = .ok (some (n, blk)) →
      ∀ op ∈ blk.toBody.ops .toy (blk.resetBalances s.state.heap), op.Exact := by
  obtain ⟨st, hs, hn, hacc⟩ := reached_two_blocks
  exact ⟨_, hacc, readchain_never_inflates hs (by rw [hn]; decide)⟩

/-- Whoever owns less behind an accepted block than before it signed a payment
from there: the block has it, with the owner's key and a good signature. -/
theorem readchain_permits_no_theft {c : Crypto} {data : Bytes} {s : Cursor ReadState}
    (hs : (Day4.readchain c).Reached data s) (hn : s.state.i < 2 ^ 32) :
    ∀ x ∈ s.state.accepted, ∀ a,
      (s.state.heap x).balances.amount a <
        BalanceMap.amount ((s.state.heap x).resetBalances s.state.heap) a →
      ∃ tx ∈ (s.state.heap x).transactions, tx.sourceAddr = a ∧ c.sha256 tx.publicKey = a ∧
        tx.txHash = c.sha256 tx.preimage ∧
        c.verify tx.publicKey tx.txHash.bytes tx.txSign = .ok true := by
  intro x hx a hlt
  have hi := hs.inv
  have hacc := hi.accepted x hx
  have hbound := hi.total_reset_le hn fun q hq => (hacc.linked q hq).1
  obtain ⟨tx, htx, hsrc, hauth⟩ := Body.exists_payment_of_lt hbound hacc.checked hlt
  exact ⟨tx, htx, hsrc, hsrc ▸ hauth.owner, hauth.hashed, hauth.signed⟩

theorem two_blocks_permit_no_theft : ∃ s : Cursor ReadState, s.state.accepted.length = 2 ∧
    ∀ x ∈ s.state.accepted, ∀ a,
      (s.state.heap x).balances.amount a <
        BalanceMap.amount ((s.state.heap x).resetBalances s.state.heap) a →
      ∃ tx ∈ (s.state.heap x).transactions, tx.sourceAddr = a ∧
        Crypto.toy.sha256 tx.publicKey = a ∧ tx.txHash = Crypto.toy.sha256 tx.preimage ∧
        Crypto.toy.verify tx.publicKey tx.txHash.bytes tx.txSign = .ok true := by
  obtain ⟨st, hs, hn, hacc⟩ := reached_two_blocks
  exact ⟨_, hacc, readchain_permits_no_theft hs (by rw [hn]; decide)⟩

/-! ## Roots -/

/-- The two sequential readers of the repository. -/
inductive Day
  | one
  | four

def Day.readchain (c : Crypto) : Day → Readchain
  | one => Day1.readchain c
  | four => Day4.readchain c

/-- From empty balances only a block without transactions can be valid, and it
is if its hash is right. -/
theorem Day.check_empty (c : Crypto) (day : Day) (b : Body) :
    (∃ m, (day.readchain c).check b ∅ = .ok (true, m)) ↔
      b.transactions = [] ∧ c.sha256 b.preimage = b.blkHash := by
  cases day with
  | four => exact Body.validate_empty
  | one =>
    simp only [readchain, Day1.readchain, Day1.Body.validate]
    constructor
    · rintro ⟨m, h⟩
      obtain ⟨valid, hall, h⟩ := Except.bind_eq_ok.mp h
      cases valid with
      | false => cases h
      | true =>
        cases htxs : b.transactions with
        | nil =>
          rw [htxs] at h
          simpa [Day1.Body.applyTransactions] using And.left <| Prod.mk.inj <| Except.ok.inj h
        | cons tx txs =>
          rw [htxs] at h
          cases h
    · rintro ⟨htxs, hh⟩
      exact ⟨_, by rw [htxs]; simp [Day1.Body.allTxValid, Day1.Body.applyTransactions, hh]; rfl⟩

/-- Every accepted block is a coinbase or extends an accepted block with the
hash it names, so the tip's chain goes down to a coinbase and `length` counts it. -/
structure Rooted (st : ReadState) : Prop where
  accepted : ∀ x ∈ st.accepted, (st.heap x).prevHash = .zero ∨
    ∃ q ∈ st.accepted, (st.heap x).prevBlock = some q ∧
      (st.heap q).blkHash = (st.heap x).prevHash
  tip : ∀ t, st.tip = some t → ∃ l root, Chain st.heap.prev t (l ++ [root]) ∧
    (st.heap root).prevHash = .zero ∧ (st.heap t).length = UInt32.ofNat (l.length + 1) ∧
    (st.i < 2 ^ 32 → (st.heap t).length.toNat = l.length + 1)

/-- No accepted block is an orphan. -/
def NoOrphan (st : ReadState) : Prop :=
  ∀ x ∈ st.accepted, (st.heap x).prevHash = .zero ∨ (st.heap x).prevBlock ≠ none

theorem Readchain.Inv.rooted {p : Readchain} {st : ReadState} (hi : p.Inv st) (h : NoOrphan st) :
    Rooted st where
  accepted := by
    intro x hx
    rcases h x hx with hz | hsome
    · exact .inl hz
    · obtain ⟨q, hq⟩ := Option.ne_none_iff_exists'.mp hsome
      obtain ⟨hmem, -, -, hhash, -⟩ := (hi.accepted x hx).linked q hq
      exact .inr ⟨q, hmem, hq, hhash⟩
  tip := by
    intro t ht
    have hmem := hi.tip t ht
    obtain ⟨l, hl, hle⟩ := hi.exists_chain hmem
    obtain ⟨l', root, rfl⟩ := List.eq_nil_or_concat' l |>.resolve_left hl.ne_nil
    have hroot : (st.heap root).prevBlock = none := hl.last_next
    refine ⟨l', root, hl, ?_, by simpa using hi.length_eq hl hmem,
      fun hn => by simpa using hi.toNat_length hn hl hmem⟩
    exact (h root (hi.chain_accepted hl hmem root (by simp))).resolve_right (not_not.mpr hroot)

theorem NoOrphan.turn {c : Crypto} {day : Day} {s t : Cursor ReadState}
    (hi : (day.readchain c).Inv s.state) (h : NoOrphan s.state)
    (hturn : Loop.Turn (day.readchain c).reader.turn s t) (hs : ¬ (day.readchain c).reader.ReadsEmptyOrphan c s) :
    NoOrphan t.state := by
  obtain ⟨n, b, -, hread, hvisit, -, -⟩ := Reader.turn_iff.mp hturn
  obtain ⟨valid, m, hm, hheap, -, hcases⟩ := Readchain.visit_eq_ok (n := n) hvisit
  have hold (x : Ptr) (hx : x ∈ s.state.accepted) : t.state.heap x = s.state.heap x := by
    rw [hheap]
    apply Heap.set_of_ne
    rintro rfl
    exact absurd (hi.fresh _ hx).2 (lt_irrefl _)
  intro x hx
  by_cases hmem : x ∈ s.state.accepted
  · rw [hold x hmem]
    exact h x hmem
  · -- the block of this turn: if it has no predecessor, it validated on nothing
    rcases hcases with ⟨rfl, -, -, hacc⟩ | ⟨-, -, -, hacc⟩
    · rw [hacc] at hx
      obtain rfl := (List.mem_cons.mp hx).resolve_right hmem
      rw [hheap, Heap.set_self]
      rcases Block.attached_cases s.state.heap s.state.bmap b with
        ⟨hnone, -, hz | habsent⟩ | ⟨q, hsome, -⟩
      · exact .inl (by simpa using hz)
      · by_cases hz : b.prevHash = .zero
        · exact .inl (by simpa using hz)
        · have hempty : Block.resetBalances s.state.heap
              (Block.attached s.state.heap s.state.bmap b) = ∅ := Block.resetBalances_none hnone
          rw [Block.attached_toBody] at hm
          change (day.readchain c).check b (Block.resetBalances s.state.heap
            (Block.attached s.state.heap s.state.bmap b)) = _ at hm
          rw [hempty] at hm
          obtain ⟨htxs, hhash⟩ := (day.check_empty c b).mp ⟨m, hm⟩
          exact absurd ⟨n, b, hread, hz, habsent, htxs, hhash⟩ hs
      · exact .inr (by
          change (Block.attached s.state.heap s.state.bmap b).prevBlock ≠ none
          simp [hsome])
    · rw [hacc] at hx
      exact absurd hx hmem

/-- An empty orphan that is read is accepted. -/
theorem Readchain.accepts_orphan {c : Crypto} {s : Cursor ReadState} (day : Day)
    (h : (day.readchain c).reader.ReadsEmptyOrphan c s) :
    ∃ t, Loop.Turn (day.readchain c).reader.turn s t ∧ ¬ Rooted t.state := by
  obtain ⟨n, b, hread, hz, habsent, htxs, hhash⟩ := h
  obtain ⟨m, hm⟩ := (day.check_empty c b).mpr ⟨htxs, hhash⟩
  have hcons := Body.read_consumes hread
  have habsent : s.state.bmap.find? b.prevHash = none := habsent
  have hblk : Block.attached s.state.heap s.state.bmap b = { Block.new with toBody := b } := by
    simp [Block.attached, hz, habsent]
  have hfresh : (day.readchain c).check ({ Block.new with toBody := b } : Block).toBody
      (Block.resetBalances s.state.heap { Block.new with toBody := b }) = .ok (true, m) := hm
  obtain ⟨st', hv, hheap, -, -, hacc⟩ := Readchain.visit_accept n hfresh
  refine ⟨⟨s.data.drop n, s.bytesLeft - n, st'⟩, Reader.turn_iff.mpr
    ⟨n, b, by omega, hread, ?_, rfl, rfl⟩, ?_⟩
  · change (day.readchain c).visit s.state n (Block.attached s.state.heap s.state.bmap b) = .ok st'
    rw [hblk]
    exact hv
  · intro hrooted
    have := hrooted.accepted ⟨0, s.state.i⟩ (by rw [hacc]; exact List.mem_cons_self)
    simp [hheap, Block.new, hz] at this

/-- Every accepted block of a file is rooted in a coinbase unless the reader
meets an orphan without transactions, whose empty balances nothing rejects. -/
theorem readchain_rooted_iff (c : Crypto) (day : Day) (data : Bytes) :
    (∀ s, (day.readchain c).Reached data s → Rooted s.state) ↔
      ∀ s, (day.readchain c).Reached data s →
        ¬ (day.readchain c).reader.ReadsEmptyOrphan c s := by
  constructor
  · intro h s hs horphan
    obtain ⟨t, hturn, hrooted⟩ := Readchain.accepts_orphan day horphan
    exact hrooted (h t (hs.tail hturn))
  · intro h s hs
    refine hs.inv.rooted (Loop.Reaches.invariant (I := fun s => NoOrphan s.state) hs ?_ ?_)
    · intro x hx
      cases hx
    · intro a b ha hno hturn
      exact hno.turn (Readchain.Reached.inv ha) hturn (h a ha)

/-- A block that names a predecessor no file can contain before it. -/
def emptyOrphan : Body where
  rewardAddr := .ofNat 1
  transactions := []
  prevHash := .ofNat 7
  blkHash := .ofNat 8

/-- One such block alone is a file whose tip both readers report. -/
theorem readchain_accepts_orphan :
    (¬ ∀ s, (Day1.readchain .toy).Reached emptyOrphan.encoding s → Rooted s.state) ∧
      ¬ ∀ s, (Day4.readchain .toy).Reached emptyOrphan.encoding s → Rooted s.state := by
  have hw : emptyOrphan.Writable := ⟨by decide, by simp [emptyOrphan]⟩
  have hread := hw.readable.read_encoding [] 0
  rw [List.append_nil, Nat.add_zero, ← Body.length_encoding] at hread
  have horphan (day : Day) : (day.readchain .toy).reader.ReadsEmptyOrphan .toy
      ⟨emptyOrphan.encoding, emptyOrphan.encoding.length, .start⟩ :=
    ⟨_, emptyOrphan, hread, by decide, rfl, rfl, by decide⟩
  constructor
  · intro h
    obtain ⟨t, hturn, hrooted⟩ := Readchain.accepts_orphan .one (horphan .one)
    exact hrooted (h t (.tail .refl hturn))
  · intro h
    obtain ⟨t, hturn, hrooted⟩ := Readchain.accepts_orphan .four (horphan .four)
    exact hrooted (h t (.tail .refl hturn))

end Bootcamp
