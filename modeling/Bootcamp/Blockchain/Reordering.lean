import Bootcamp.Blockchain.Commitment
import Bootcamp.Lib.Dependencies

/-! The sequential readers on files that hold the same blocks in different orders. While every
block stands behind the one that it names, they accept the same blocks with the same balances. -/
namespace Bootcamp

open Dependencies (Rules)

/-- A block that stands later is no other block with the hash of an earlier one, and not the one
that an earlier one names. A block that does not carry the hash of its contents is never accepted
and may stand anywhere. -/
def ParentsFirst (c : Crypto) (bs : List Body) : Prop :=
  bs.Pairwise fun b b' => c.sha256 b'.preimage = b'.blkHash →
    (c.sha256 b.preimage = b.blkHash → b.blkHash = b'.blkHash → b = b') ∧
      (b.prevHash = .zero ∨ b.prevHash ≠ b'.blkHash)

namespace Day

variable {c : Crypto} {day : Day} {bs : List Body}

/-- A file's tree as a table: a block reads the entry of the block that it names and writes its
own. -/
def rules (c : Crypto) (day : Day) : Rules Body HashResult KnownBlock where
  key b := if c.sha256 b.preimage = b.blkHash then some b.blkHash else none
  dep b := if b.prevHash = .zero then none else some b.prevHash
  value b below :=
    match (day.readchain c).check b (below.elim ∅ KnownBlock.balances) with
    | .ok (true, m) => some ⟨below.elim 1 fun e => e.length + 1, m⟩
    | _ => none

theorem key_eq_some {b : Body} {k : HashResult} :
    (day.rules c).key b = some k ↔ c.sha256 b.preimage = b.blkHash ∧ b.blkHash = k := by
  simp [rules]

theorem ordered (h : ParentsFirst c bs) : (day.rules c).Ordered bs := by
  refine h.imp fun {b b'} hpair k hk => ?_
  obtain ⟨hhash, rfl⟩ := key_eq_some.mp hk
  obtain ⟨hsame, hdep⟩ := hpair hhash
  refine ⟨fun hk => hsame (key_eq_some.mp hk).1 (key_eq_some.mp hk).2, ?_⟩
  rcases hdep with hz | hne
  · simp [rules, hz]
  · simp [rules, hne]

theorem read_known (t : BlockTree) (b : Body) : (day.rules c).read t.known b = t.below b := by
  by_cases hz : b.prevHash = .zero
  · simp [Rules.read, rules, BlockTree.below, hz]
  · simp [Rules.read, rules, BlockTree.below, hz]

theorem value_known (t : BlockTree) (b : Body) :
    (day.rules c).value b (t.below b) =
      match (day.readchain c).check b (t.balances b) with
      | .ok (true, m) => some ⟨t.length b, m⟩
      | _ => none := rfl

/-- A block is kept as the table says. -/
theorem keep_eq (t : BlockTree) (b : Body) :
    (BlockTree.keep (day.readchain c).check t b).known = (day.rules c).enter t.known b ∧
    (BlockTree.keep (day.readchain c).check t b).accepted =
      (((day.rules c).value b (t.below b)).map fun e => (b.blkHash, e.length)).toList ++
        t.accepted := by
  have hvalue : (day.rules c).value b (t.below b) = _ := value_known t b
  by_cases hvalid : ∃ m, (day.readchain c).check b (t.balances b) = .ok (true, m)
  · obtain ⟨m, hm⟩ := hvalid
    have hkey : (day.rules c).key b = some b.blkHash :=
      key_eq_some.mpr ⟨(hashed_of_check hm).1.block.symm, rfl⟩
    simp only [hm] at hvalue
    simp only [BlockTree.keep, hm, hvalue]
    refine ⟨funext fun k => ?_, rfl⟩
    rw [BlockTree.known_enter, Rules.enter_apply, read_known, hvalue, hkey]
    by_cases hk : k = b.blkHash
    · rw [if_pos hk, if_pos (congrArg some hk.symm)]
      rfl
    · rw [if_neg hk, if_neg fun heq => hk (Option.some.inj heq).symm]
  · have hnone : (day.rules c).value b (t.below b) = none := by
      rw [hvalue]
      split
      · rename_i m hm
        exact absurd ⟨m, hm⟩ hvalid
      · rfl
    rw [BlockTree.keep_of_invalid hvalid, hnone]
    refine ⟨funext fun k => ?_, rfl⟩
    rw [Rules.enter_apply, read_known, hnone, Option.none_or, ite_self]

theorem known_ofBlocks (bs : List Body) :
    (BlockTree.ofBlocks (day.readchain c).check bs).known = (day.rules c).build bs := by
  induction bs using List.reverseRecOn with
  | nil => rfl
  | append_singleton bs b ih =>
    rw [Rules.build_concat, ← ih, BlockTree.ofBlocks, List.foldl_append]
    exact (keep_eq _ b).1

/-- What is made of a block, seen from the end of the file. -/
def outcome (c : Crypto) (day : Day) (bs : List Body) (b : Body) : Option (HashResult × UInt32) :=
  ((day.rules c).value b ((day.rules c).seen ((day.rules c).build bs) b)).map fun e =>
    (b.blkHash, e.length)

theorem below_eq {pre post : List Body} {b : Body} (h : ParentsFirst c (pre ++ b :: post)) :
    (BlockTree.ofBlocks (day.readchain c).check pre).below b =
      (day.rules c).seen ((day.rules c).build (pre ++ b :: post)) b := by
  rw [← (ordered h).read_eq, ← known_ofBlocks, read_known]

theorem accepted_ofBlocks (h : ParentsFirst c bs) :
    (BlockTree.ofBlocks (day.readchain c).check bs).accepted =
      (bs.filterMap (outcome c day bs)).reverse := by
  induction bs using List.reverseRecOn with
  | nil => rfl
  | append_singleton bs b ih =>
    have hordered : (day.rules c).Ordered (bs ++ [b]) := ordered h
    have hbefore : bs.filterMap (outcome c day (bs ++ [b])) = bs.filterMap (outcome c day bs) :=
      List.filterMap_congr fun x hx => by rw [outcome, outcome, hordered.seen_append hx]
    have haccepted : (BlockTree.keep (day.readchain c).check
        (BlockTree.ofBlocks (day.readchain c).check bs) b).accepted = _ := (keep_eq _ b).2
    rw [ih (List.pairwise_append.mp h).1, below_eq h] at haccepted
    rw [BlockTree.ofBlocks, List.foldl_append, List.filterMap_append, hbefore]
    refine haccepted.trans ?_
    change (outcome c day (bs ++ [b]) b).toList ++ _ = _
    cases hb : outcome c day (bs ++ [b]) b with
    | none => simp [hb]
    | some x => simp [hb]

/-- The reader comes to its end when no block ends it on the balances that the whole file has for
it. -/
theorem exists_main_iff {data : Bytes} (h : ParentsFirst c (fileBlocks data)) :
    (∃ line, (day.readchain c).main data = .ok line) ↔ ∀ b ∈ fileBlocks data,
      ∃ r, (day.readchain c).check b
        (((day.rules c).seen ((day.rules c).build (fileBlocks data)) b).elim ∅
          KnownBlock.balances) = .ok r := by
  have hturn {pre post : List Body} {b : Body} (hsplit : fileBlocks data = pre ++ b :: post) :
      (BlockTree.ofBlocks (day.readchain c).check pre).balances b =
        ((day.rules c).seen ((day.rules c).build (fileBlocks data)) b).elim ∅
          KnownBlock.balances := by
    rw [hsplit] at h ⊢
    rw [BlockTree.balances, below_eq h]
  simp only [main_eq_ok]
  constructor
  · rintro ⟨-, hall, -⟩ b hb
    obtain ⟨pre, post, hsplit⟩ := List.append_of_mem hb
    rw [← hturn hsplit]
    exact hall pre b post hsplit
  · intro hall
    refine ⟨_, fun pre b post hsplit => ?_, rfl⟩
    rw [hturn hsplit]
    exact hall b (by simp [hsplit])

variable {data data' : Bytes}

theorem exists_main_perm (hperm : (fileBlocks data).Perm (fileBlocks data'))
    (hfirst : ParentsFirst c (fileBlocks data)) (hfirst' : ParentsFirst c (fileBlocks data'))
    (h : ∃ line, (day.readchain c).main data = .ok line) :
    ∃ line, (day.readchain c).main data' = .ok line := by
  rw [exists_main_iff hfirst']
  intro b hb
  have hmem := hperm.mem_iff.mpr hb
  rw [← (ordered hfirst).seen_perm (ordered hfirst') hperm hmem]
  exact (exists_main_iff hfirst).mp h b hmem

theorem accepted_perm (hperm : (fileBlocks data).Perm (fileBlocks data'))
    (hfirst : ParentsFirst c (fileBlocks data)) (hfirst' : ParentsFirst c (fileBlocks data')) :
    (BlockTree.ofBlocks (day.readchain c).check (fileBlocks data)).accepted.Perm
      (BlockTree.ofBlocks (day.readchain c).check (fileBlocks data')).accepted := by
  rw [accepted_ofBlocks hfirst, accepted_ofBlocks hfirst']
  have houtcome : (fileBlocks data).filterMap (outcome c day (fileBlocks data)) =
      (fileBlocks data).filterMap (outcome c day (fileBlocks data')) :=
    List.filterMap_congr fun b hb => by
      rw [outcome, outcome, (ordered hfirst).seen_perm (ordered hfirst') hperm hb]
  rw [houtcome]
  exact ((List.reverse_perm _).trans (hperm.filterMap _)).trans (List.reverse_perm _).symm

end Day

/-- The entry that the reader has under a hash. -/
def ReadState.entry (st : ReadState) (h : HashResult) : Option KnownBlock :=
  (st.bmap.find? h).map fun q => ⟨(st.heap q).length, (st.heap q).balances⟩

/-- Both readers have kept the same. -/
structure ReadState.SameBlocks (st st' : ReadState) : Prop where
  entry : ∀ h, st.entry h = st'.entry h
  accepted : (st.accepted.map st.heap.face).Perm (st'.accepted.map st'.heap.face)

/-- Two lines that report chains of one length, or none. -/
inductive Line.SameLength : Line → Line → Prop
  | invalid : SameLength .invalid .invalid
  | blk (hash hash' : HashResult) (len : UInt32) : SameLength (.blk hash len) (.blk hash' len)

theorem Day.tip_one_perm {accepted accepted' : List (HashResult × UInt32)}
    (hperm : accepted.Perm accepted') :
    (Line.ofTip (Day.one.tip accepted)).SameLength (.ofTip (Day.one.tip accepted')) := by
  cases accepted with
  | nil =>
    obtain rfl := List.nil_perm.mp hperm
    exact .invalid
  | cons x older =>
    obtain ⟨t, ht, -⟩ := exists_tip_one (List.mem_cons_self (a := x) (l := older))
    obtain ⟨t', ht', -⟩ := exists_tip_one (hperm.mem_iff.mp (List.mem_cons_self (a := x) (l := older)))
    have hmem : t ∈ x :: older := by
      obtain ⟨newer, older', hsplit, -⟩ := tip_one.mp ht
      simp [hsplit]
    have hmem' : t' ∈ accepted' := by
      obtain ⟨newer, older', hsplit, -⟩ := tip_one.mp ht'
      simp [hsplit]
    have hle := (tip_one.mp ht').le (hperm.mem_iff.mp hmem)
    have hle' := (tip_one.mp ht).le (hperm.mem_iff.mpr hmem')
    rw [ht, ht', Line.ofTip, Line.ofTip, UInt32.le_antisymm hle hle']
    exact .blk _ _ _

/-- The order in which blocks arrive does not matter while every block stands behind the one that
it names: of two files with the same blocks, neither reader ends early on one only, and it accepts
the same blocks with the same lengths and balances; and day 1 prints chains of the same length. -/
theorem readchain_reordered {c : Crypto} {data data' : Bytes}
    (hperm : (fileBlocks data).Perm (fileBlocks data'))
    (hfirst : ParentsFirst c (fileBlocks data)) (hfirst' : ParentsFirst c (fileBlocks data')) :
    (∀ (day : Day) (st : ReadState),
      (day.readchain c).reader.run data data.length .start = .ok st →
      ∃ st', (day.readchain c).reader.run data' data'.length .start = .ok st' ∧
        st.SameBlocks st') ∧
    ∀ line, (Day1.readchain c).main data = .ok line →
      ∃ line', (Day1.readchain c).main data' = .ok line' ∧ line.SameLength line' := by
  constructor
  · intro day st hrun
    have hmain : ∃ line, (day.readchain c).main data = .ok line := by
      rw [Readchain.main, hrun, Except.ok_bind]
      cases st.tip with
      | none => exact ⟨_, rfl⟩
      | some t => exact ⟨_, rfl⟩
    obtain ⟨line', hmain'⟩ := Day.exists_main_perm hperm hfirst hfirst' hmain
    obtain ⟨st', hrun', -⟩ := Except.bind_eq_ok.mp hmain'
    have hrep := Day.run_represents hrun
    have hrep' := Day.run_represents hrun'
    refine ⟨st', hrun', fun h => ?_, ?_⟩
    · rw [ReadState.entry, ReadState.entry, ← hrep.known, ← hrep'.known, Day.known_ofBlocks,
        Day.known_ofBlocks, (Day.ordered hfirst).build_perm (Day.ordered hfirst') hperm]
    · rw [← hrep.accepted, ← hrep'.accepted]
      exact Day.accepted_perm hperm hfirst hfirst'
  · intro line (hmain : (Day.one.readchain c).main data = .ok line)
    obtain ⟨line', hmain'⟩ := Day.exists_main_perm hperm hfirst hfirst' ⟨line, hmain⟩
    refine ⟨line', hmain', ?_⟩
    rw [(Day.main_eq_ok.mp hmain).2, (Day.main_eq_ok.mp hmain').2]
    exact Day.tip_one_perm (Day.accepted_perm hperm hfirst hfirst')

/-- Two blocks on top of each other and one that has no predecessor, which comes first or last. -/
theorem orphan_reordered : ∃ st st' line',
    (Day4.readchain .toy).reader.run
        ([firstBlock, secondBlock, emptyOrphan].flatMap Body.encoding)
        ([firstBlock, secondBlock, emptyOrphan].flatMap Body.encoding).length .start = .ok st ∧
      (Day4.readchain .toy).reader.run
        ([emptyOrphan, firstBlock, secondBlock].flatMap Body.encoding)
        ([emptyOrphan, firstBlock, secondBlock].flatMap Body.encoding).length .start = .ok st' ∧
      st.SameBlocks st' ∧
      (Day1.readchain .toy).main ([emptyOrphan, firstBlock, secondBlock].flatMap Body.encoding) =
        .ok line' ∧ (Line.blk (.ofNat 2) 2).SameLength line' := by
  have hwritable : ∀ b ∈ [firstBlock, secondBlock, emptyOrphan], b.Writable := by decide
  have hblocks := fileBlocks_encodings fun b hb => (hwritable b hb).readable
  have hwritable' : ∀ b ∈ [emptyOrphan, firstBlock, secondBlock], b.Writable := by decide
  have hblocks' := fileBlocks_encodings fun b hb => (hwritable' b hb).readable
  have hperm : (fileBlocks ([firstBlock, secondBlock, emptyOrphan].flatMap Body.encoding)).Perm
      (fileBlocks ([emptyOrphan, firstBlock, secondBlock].flatMap Body.encoding)) := by
    have hswap : ([firstBlock, secondBlock] ++ [emptyOrphan]).Perm
        ([emptyOrphan] ++ [firstBlock, secondBlock]) := List.perm_append_comm
    rw [hblocks, hblocks']
    exact hswap
  have hreordered := readchain_reordered (c := .toy) hperm
    (by rw [hblocks]; unfold ParentsFirst; decide +kernel)
    (by rw [hblocks']; unfold ParentsFirst; decide +kernel)
  have hmain : (Day4.readchain .toy).main
      ([firstBlock, secondBlock, emptyOrphan].flatMap Body.encoding) = .ok (.blk (.ofNat 8) 1) := by
    decide +kernel
  obtain ⟨st, hrun, -⟩ := Except.bind_eq_ok.mp hmain
  obtain ⟨st', hrun', hsame⟩ := hreordered.1 .four st hrun
  obtain ⟨line', hmain, hlength⟩ := hreordered.2 (.blk (.ofNat 2) 2) (by decide +kernel)
  exact ⟨st, st', line', hrun, hrun', hsame, hmain, hlength⟩

end Bootcamp
