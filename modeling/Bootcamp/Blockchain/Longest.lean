import Bootcamp.Blockchain.Tips
import Bootcamp.Blockchain.Equivalence

/-! The choice that day 1 makes: of the accepted blocks of the greatest length it reports the
one that stands first in the file. Lengths count chains up to their 32 bits. -/
namespace Bootcamp

open Chains (Chain)

/-- No accepted block is longer than `x`, and none of its length stands before it. Blocks are
numbered as they are read. -/
structure EarliestLongest (st : ReadState) (x : Ptr) : Prop where
  mem : x ∈ st.accepted
  longest : ∀ y ∈ st.accepted, (st.heap y).length ≤ (st.heap x).length
  earliest : ∀ y ∈ st.accepted, (st.heap y).length = (st.heap x).length → x.serial ≤ y.serial

namespace EarliestLongest

variable {st st' : ReadState} {t it : Ptr}

theorem congr (h : EarliestLongest st t) (hold : ∀ x ∈ st.accepted, st'.heap x = st.heap x)
    (hacc : st'.accepted = st.accepted) : EarliestLongest st' t where
  mem := hacc ▸ h.mem
  longest y hy := by
    rw [hacc] at hy
    rw [hold y hy, hold t h.mem]
    exact h.longest y hy
  earliest y hy := by
    rw [hacc] at hy
    rw [hold y hy, hold t h.mem]
    exact h.earliest y hy

/-- A new block that is longer than the choice so far is longer than all others. -/
theorem replaced (h : EarliestLongest st t) (hold : ∀ x ∈ st.accepted, st'.heap x = st.heap x)
    (hacc : st'.accepted = it :: st.accepted) (hlt : (st'.heap t).length < (st'.heap it).length) :
    EarliestLongest st' it := by
  have hshorter (y : Ptr) (hy : y ∈ st.accepted) : (st'.heap y).length < (st'.heap it).length := by
    have hle := h.longest y hy
    rw [← hold y hy, ← hold t h.mem] at hle
    exact UInt32.lt_of_le_of_lt hle hlt
  refine ⟨by rw [hacc]; exact List.mem_cons_self, fun y hy => ?_, fun y hy heq => ?_⟩
  · rw [hacc] at hy
    cases List.mem_cons.mp hy with
    | inl hnew =>
      rw [hnew]
      exact UInt32.le_refl _
    | inr hy => exact UInt32.le_of_lt (hshorter y hy)
  · rw [hacc] at hy
    cases List.mem_cons.mp hy with
    | inl hnew => rw [hnew]
    | inr hy => exact absurd heq (UInt32.ne_of_lt (hshorter y hy))

/-- One that is not longer comes too late. -/
theorem kept (h : EarliestLongest st t) (hold : ∀ x ∈ st.accepted, st'.heap x = st.heap x)
    (hacc : st'.accepted = it :: st.accepted) (hle : (st'.heap it).length ≤ (st'.heap t).length)
    (hlate : t.serial ≤ it.serial) : EarliestLongest st' t := by
  refine ⟨by rw [hacc]; exact List.mem_cons_of_mem _ h.mem, fun y hy => ?_, fun y hy => ?_⟩
  · rw [hacc] at hy
    cases List.mem_cons.mp hy with
    | inl hnew => rwa [hnew]
    | inr hy =>
      rw [hold y hy, hold t h.mem]
      exact h.longest y hy
  · rw [hacc] at hy
    cases List.mem_cons.mp hy with
    | inl hnew =>
      rw [hnew]
      exact fun _ => hlate
    | inr hy =>
      rw [hold y hy, hold t h.mem]
      exact h.earliest y hy

/-- There is one choice, the blocks of a file having different numbers. -/
theorem unique {p : Readchain} (hi : p.Inv st) {x : Ptr} (h : EarliestLongest st t)
    (h' : EarliestLongest st x) : t = x := by
  have hlen := UInt32.le_antisymm (h.longest x h'.mem) (h'.longest t h.mem)
  have hser := Nat.le_antisymm (h.earliest x h'.mem hlen) (h'.earliest t h.mem hlen.symm)
  have ht := (hi.fresh t h.mem).1
  have hx := (hi.fresh x h'.mem).1
  cases t
  cases x
  simp only at ht hx hser
  rw [ht, hx, hser]

end EarliestLongest

/-- The running tip is the choice among the blocks so far. -/
structure TipChosen (st : ReadState) : Prop where
  none_iff : st.tip = none ↔ st.accepted = []
  chosen : ∀ x, st.tip = some x → EarliestLongest st x

namespace TipChosen

variable {c : Crypto}

theorem start : TipChosen .start where
  none_iff := ⟨fun _ => rfl, fun _ => rfl⟩
  chosen _ h := by cases h

/-- Day 1 moves its tip to a new block when it is the first or longer than the tip. -/
theorem visit {st st' : ReadState} {n : Nat} {b : Body} (ht : TipChosen st)
    (hi : (Day1.readchain c).Inv st)
    (h : (Day1.readchain c).visit st n (Block.attached st.heap st.bmap b) = .ok st') :
    TipChosen st' := by
  obtain ⟨valid, m, -, hheap, -, hcases⟩ := Readchain.visit_eq_ok h
  have hold (x : Ptr) (hx : x ∈ st.accepted) : st'.heap x = st.heap x := by
    rw [hheap]
    apply Heap.set_of_ne
    rintro rfl
    exact absurd (hi.fresh _ hx).2 (lt_irrefl _)
  cases hcases with
  | inr hinvalid =>
    obtain ⟨-, -, htip, hacc⟩ := hinvalid
    refine ⟨by rw [htip, hacc]; exact ht.none_iff, fun x hx => ?_⟩
    rw [htip] at hx
    exact (ht.chosen x hx).congr hold hacc
  | inl hvalid =>
    obtain ⟨-, -, htip, hacc⟩ := hvalid
    refine ⟨by simp [htip, hacc], fun x hx => ?_⟩
    rw [htip] at hx
    obtain rfl := Option.some.inj hx
    cases hprev : st.tip with
    | none =>
      rw [ht.none_iff.mp hprev] at hacc
      have hnext : (Day1.readchain c).nextTip st'.heap none ⟨0, st.i⟩ = ⟨0, st.i⟩ := rfl
      rw [hnext]
      exact ⟨by simp [hacc], by simp [hacc], by simp [hacc]⟩
    | some t =>
      have hchosen := ht.chosen t hprev
      have hnext : (Day1.readchain c).nextTip st'.heap (some t) ⟨0, st.i⟩ =
          if (st'.heap t).length < (st'.heap ⟨0, st.i⟩).length then ⟨0, st.i⟩ else t := rfl
      rw [hnext]
      split_ifs with hlt
      · exact hchosen.replaced hold hacc hlt
      · have hlate := (hi.fresh t hchosen.mem).2
        exact hchosen.kept hold hacc (UInt32.not_lt.mp hlt) hlate.le

theorem reached {data : Bytes} {s : Cursor ReadState} (h : (Day1.readchain c).Reached data s) :
    TipChosen s.state := by
  refine Loop.Reaches.invariant (I := fun s => TipChosen s.state) h .start ?_
  intro a b ha ht hturn
  obtain ⟨n, body, -, -, hv, -, -⟩ := Reader.turn_iff.mp hturn
  exact ht.visit (n := n) (Readchain.Reached.inv ha) hv

end TipChosen

/-- What the reader of day 1 reports of the blocks that it accepted. -/
def Reports (st : ReadState) (line : Line) : Prop :=
  (st.accepted = [] ∧ line = .invalid) ∨
    ∃ x, EarliestLongest st x ∧ line = .blk (st.heap x).blkHash (st.heap x).length

/-- Every accepted block carries the length of its chain, as far as 32 bits go, and what day 1
prints is the earliest of the longest ones. -/
theorem day1_readchain_longest (c : Crypto) (data : Bytes) :
    (∀ s, (Day1.readchain c).Reached data s → ∀ x ∈ s.state.accepted,
      ∃ l, Chain s.state.heap.prev x l ∧ (s.state.heap x).length = UInt32.ofNat l.length ∧
        (s.state.i < 2 ^ 32 → (s.state.heap x).length.toNat = l.length)) ∧
    ∀ line, (Day1.readchain c).main data = .ok line ↔
      ∃ st, (Day1.readchain c).reader.run data data.length .start = .ok st ∧ Reports st line := by
  refine ⟨fun s hs x hx => ?_, fun line => ?_⟩
  · have hi := Readchain.Reached.inv hs
    obtain ⟨l, hl, -⟩ := hi.exists_chain hx
    exact ⟨l, hl, hi.length_eq hl hx, fun hn => hi.toNat_length hn hl hx⟩
  · rw [Readchain.main, Except.bind_eq_ok]
    refine exists_congr fun st => and_congr_right fun hrun => ?_
    obtain ⟨s, rfl, hs, -⟩ := Reader.run_eq_ok hrun
    have ht := TipChosen.reached hs
    cases htip : s.state.tip with
    | none =>
      have hempty := ht.none_iff.mp htip
      have hnone (x : Ptr) : ¬ EarliestLongest s.state x := by
        intro h
        have hmem := h.mem
        rw [hempty] at hmem
        cases hmem
      simp [Reports, hempty, hnone, eq_comm]
    | some t =>
      have hchosen := ht.chosen t htip
      constructor
      · intro h
        exact .inr ⟨t, hchosen, (Except.ok.inj h).symm⟩
      · rintro (⟨hempty, -⟩ | ⟨x, hx, rfl⟩)
        · exact absurd hempty (List.ne_nil_of_mem hchosen.mem)
        · rw [hchosen.unique (Readchain.Reached.inv hs) hx]
          rfl

/-- `n` blocks without transactions, one on top of the other. -/
def longFile (n : Nat) : Bytes := (emptyBlocks (.ofNat 1) 0 n).flatMap Body.encoding

/-- The last block of that file is accepted with its number, cut to 32 bits. -/
theorem longFile_length {n : Nat} (hpos : 0 < n) (hn : n < 2 ^ 256) :
    ∃ s x, (Day1.readchain .toy).Reached (longFile n) s ∧ x ∈ s.state.accepted ∧
      (s.state.heap x).length = UInt32.ofNat n := by
  have hchain : LinearChain (emptyBlocks (.ofNat 1) 0 n) := linearChain_emptyBlocks hn
  have hv : Body.acceptAll .toy (emptyBalances (fun _ => .ofNat 1) 0)
      (emptyBlocks (.ofNat 1) 0 n) = some (emptyBalances (fun _ => .ofNat 1) (0 + n)) :=
    acceptAll_emptyBlocks (by omega)
  have hfile : fileBlocks (longFile n) = emptyBlocks (.ofNat 1) 0 n :=
    fileBlocks_encodings fun b hb => (hchain.writable b hb).readable
  have htxs : ∀ b ∈ fileBlocks (longFile n), b.transactions = [] := by
    intro b hb
    rw [hfile] at hb
    obtain ⟨j, -, rfl⟩ := List.mem_map.mp hb
    rfl
  have hamounts : ∀ b ∈ fileBlocks (longFile n), ∀ tx ∈ b.transactions, 0 < tx.amount := by
    intro b hb tx htx
    rw [htxs b hb] at htx
    cases htx
  obtain ⟨t, hgrow, hhead⟩ := BlockTree.grow_linear (t := .root) (n := 0)
    (.inl ⟨rfl, rfl, rfl⟩) hchain.linked hchain.named hv
  obtain ⟨-, rfl⟩ := (BlockTree.grows_iff _ _).mp hgrow
  have hmain : (Day.one.readchain .toy).main (longFile n) = .ok _ :=
    Day.main_eq_ok.mpr ⟨fun pre b post hsplit => ?_, rfl⟩
  · obtain ⟨st, hrun, -⟩ := Except.bind_eq_ok.mp hmain
    obtain ⟨s, rfl, hs, -⟩ := Reader.run_eq_ok hrun
    have hacc := (Day.run_represents hrun).accepted
    have hne : emptyBlocks (.ofNat 1) 0 n ≠ [] := by
      intro hnil
      have hlen := congrArg List.length hnil
      rw [emptyBlocks, List.length_map, List.length_range] at hlen
      exact absurd hlen (Nat.ne_of_gt hpos)
    rw [Day.ofBlocks_eq hamounts, hfile] at hacc
    have hhead := hhead hne
    rw [hacc, List.head?_map] at hhead
    obtain ⟨x, hx, hface⟩ := Option.map_eq_some_iff.mp hhead
    refine ⟨s, x, hs, List.mem_of_mem_head? hx, ?_⟩
    have hlen := congrArg Prod.snd hface
    rw [emptyBlocks, List.length_map, List.length_range, UInt32.zero_add] at hlen
    exact hlen
  · have hb : b ∈ fileBlocks (longFile n) := by simp [hsplit]
    refine Day.exists_check (hamounts b hb) ?_ .one _
    rintro ⟨txs, tx, rest, hsplit, -⟩
    rw [htxs b hb] at hsplit
    simp at hsplit

/-- The last of 2^32 blocks has length 0. -/
theorem day1_readchain_length_wraps : ¬ ∀ (c : Crypto) (data : Bytes),
    ∀ s, (Day1.readchain c).Reached data s → ∀ x ∈ s.state.accepted,
      ∃ l, Chain s.state.heap.prev x l ∧ (s.state.heap x).length.toNat = l.length := by
  intro h
  obtain ⟨s, x, hs, hx, hlen⟩ := longFile_length (n := 2 ^ 32) (by decide) (by omega)
  obtain ⟨l, hl, hcount⟩ := h .toy _ s hs x hx
  have hzero : UInt32.ofNat (2 ^ 32) = 0 := by decide
  rw [hlen, hzero] at hcount
  exact hl.ne_nil (List.length_eq_zero_iff.mp hcount.symm)

end Bootcamp
