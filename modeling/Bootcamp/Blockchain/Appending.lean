import Bootcamp.Blockchain.Growth

/-! What the sequential readers print for a file and for a front of it, cut wherever it is. -/
namespace Bootcamp

namespace Reader

/-- The blocks that lie in a buffer are those in front of a longer one. -/
theorem blocksIn_append {k k' left left' : Nat} {data : Bytes} (more : Bytes) (hk : k ≤ k')
    (hleft : left ≤ left') : ∃ later,
      blocksIn k' (data ++ more) left' = blocksIn k data left ++ later := by
  induction k generalizing k' data left left' with
  | zero => exact ⟨_, rfl⟩
  | succ k ih =>
    obtain ⟨k', rfl⟩ := Nat.exists_eq_succ_of_ne_zero (show k' ≠ 0 by omega)
    by_cases hparses : ∃ n b, Body.read data left = .ok (some (n, b))
    · obtain ⟨n, b, hread⟩ := hparses
      obtain ⟨hb, rfl, hle, rest, rfl⟩ := Body.read_eq_some.mp hread
      have hread' : Body.read (b.encoding ++ (rest ++ more)) left' = .ok (some (b.size, b)) :=
        Body.read_eq_some.mpr ⟨hb, rfl, by omega, rest ++ more, rfl⟩
      obtain ⟨later, hlater⟩ := @ih k' (left - b.size) (left' - b.size) rest (by omega) (by omega)
      refine ⟨later, ?_⟩
      simp only [blocksIn, hread, List.append_assoc, hread', List.drop_left' b.length_encoding,
        hlater, List.cons_append]
    · have hnil : blocksIn (k + 1) data left = [] := by
        unfold blocksIn
        split
        · rename_i n b hread
          exact absurd ⟨n, b, hread⟩ hparses
        · rfl
      exact ⟨_, by rw [hnil]; rfl⟩

end Reader

/-- The blocks of a file that is longer are those it had, and later ones. -/
theorem fileBlocks_append (data more : Bytes) :
    ∃ later, fileBlocks (data ++ more) = fileBlocks data ++ later :=
  Reader.blocksIn_append more (by simp) (by simp)

namespace BlockTree

variable {check : Body → BalanceMap → Except Abort (Bool × BalanceMap)}

/-- Later blocks that are accepted stand in front of those that were. -/
theorem accepted_keep (bs : List Body) (t : BlockTree) : ∃ news,
    (bs.foldl (keep check) t).accepted = news ++ t.accepted ∧
      ∀ x ∈ news, ∃ b ∈ bs, x.1 = b.blkHash := by
  induction bs generalizing t with
  | nil => exact ⟨[], rfl, nofun⟩
  | cons b bs ih =>
    obtain ⟨news, haccepted, hnews⟩ := ih (keep check t b)
    have hlater : ∀ x ∈ news, ∃ b' ∈ b :: bs, x.1 = b'.blkHash := fun x hx =>
      (hnews x hx).imp fun _ h => ⟨.tail _ h.1, h.2⟩
    rw [List.foldl_cons, haccepted]
    by_cases hvalid : ∃ m, check b (t.balances b) = .ok (true, m)
    · obtain ⟨m, hm⟩ := hvalid
      refine ⟨news ++ [(b.blkHash, t.length b)], by simp [keep, hm, enter], fun x hx => ?_⟩
      rcases List.mem_append.mp hx with hx | hx
      · exact hlater x hx
      · obtain rfl := List.mem_singleton.mp hx
        exact ⟨b, .head _, rfl⟩
    · exact ⟨news, by rw [keep_of_invalid hvalid], hlater⟩

end BlockTree

/-- A line printed later: the same, or of a longer chain. -/
inductive Line.Extends : Line → Line → Prop
  | same (line : Line) : Extends line line
  | first (line : Line) : Extends .invalid line
  | longer {hash hash' : HashResult} {len len' : UInt32} : len < len' →
      Extends (.blk hash len) (.blk hash' len')

namespace Day

/-- Day 1 leaves its tip for a longer one only. -/
theorem tip_one_append (news earlier : List (HashResult × UInt32)) :
    (Line.ofTip (Day.one.tip earlier)).Extends (.ofTip (Day.one.tip (news ++ earlier))) := by
  induction news with
  | nil => exact .same _
  | cons x news ih =>
    rw [List.cons_append, tip]
    generalize Day.one.tip (news ++ earlier) = t at ih ⊢
    cases t with
    | none =>
      generalize Line.ofTip (Day.one.tip earlier) = line at ih ⊢
      cases ih with
      | same => exact .first _
      | first => exact .first _
    | some t =>
      simp only [nextTip]
      split
      · rename_i hlt
        generalize Line.ofTip (Day.one.tip earlier) = line at ih ⊢
        cases ih with
        | same => exact .longer hlt
        | first => exact .first _
        | longer hlonger => exact .longer (UInt32.lt_trans hlonger hlt)
      · exact ih

/-- What the tree of a longer file has more. -/
theorem accepted_append (c : Crypto) (day : Day) (data more : Bytes) : ∃ later news,
    fileBlocks (data ++ more) = fileBlocks data ++ later ∧
      (BlockTree.ofBlocks (day.readchain c).check (fileBlocks (data ++ more))).accepted =
        news ++ (BlockTree.ofBlocks (day.readchain c).check (fileBlocks data)).accepted ∧
      ∀ x ∈ news, ∃ b ∈ later, x.1 = b.blkHash := by
  obtain ⟨later, hlater⟩ := fileBlocks_append data more
  obtain ⟨news, haccepted, hnews⟩ := BlockTree.accepted_keep later
    (BlockTree.ofBlocks (day.readchain c).check (fileBlocks data))
  refine ⟨later, news, hlater, ?_, hnews⟩
  rw [hlater, BlockTree.ofBlocks, List.foldl_append]
  exact haccepted

/-- What ends a reader in a front of a file ends it in the file. -/
theorem main_append_error {c : Crypto} {day : Day} {data : Bytes} {e : Abort} (more : Bytes)
    (h : (day.readchain c).main data = .error e) :
    (day.readchain c).main (data ++ more) = .error e := by
  obtain ⟨later, hlater⟩ := fileBlocks_append data more
  rw [main_eq] at h ⊢
  rw [hlater, List.foldlM_append]
  cases ht : (fileBlocks data).foldlM (BlockTree.grow (day.readchain c).check) .root with
  | error e' =>
    rw [ht] at h
    exact h
  | ok t =>
    rw [ht] at h
    cases h

end Day

/-- A file may be cut anywhere. A reader that the whole does not end is not ended by the front. Of
the whole, day 1 prints what it prints of the front, or a longer chain; day 4 prints what it
prints of the front, or a block that lies behind those of the front. -/
theorem readchain_appended (c : Crypto) (data more : Bytes) :
    (∀ line, (Day1.readchain c).main (data ++ more) = .ok line →
      ∃ line₀, (Day1.readchain c).main data = .ok line₀ ∧ line₀.Extends line) ∧
    ∀ line, (Day4.readchain c).main (data ++ more) = .ok line →
      ∃ line₀ later, (Day4.readchain c).main data = .ok line₀ ∧
        fileBlocks (data ++ more) = fileBlocks data ++ later ∧
        (line = line₀ ∨ ∃ b ∈ later, ∃ len, line = .blk b.blkHash len) := by
  have hfront (day : Day) {line : Line} (h : (day.readchain c).main (data ++ more) = .ok line) :
      (day.readchain c).main data = .ok (.ofTip (day.tip
        (BlockTree.ofBlocks (day.readchain c).check (fileBlocks data)).accepted)) ∧
      line = .ofTip (day.tip (BlockTree.ofBlocks (day.readchain c).check
        (fileBlocks (data ++ more))).accepted) := by
    refine ⟨?_, (Day.main_eq_ok.mp h).2⟩
    cases hdata : (day.readchain c).main data with
    | error e => cases (Day.main_append_error more hdata).symm.trans h
    | ok line₀ => rw [(Day.main_eq_ok.mp hdata).2]
  refine ⟨fun line h => ?_, fun line h => ?_⟩
  · obtain ⟨hdata, rfl⟩ := hfront .one h
    have ⟨_, news, _, haccepted, _⟩ := Day.accepted_append c .one data more
    refine ⟨_, hdata, ?_⟩
    rw [haccepted]
    exact Day.tip_one_append _ _
  · obtain ⟨hdata, rfl⟩ := hfront .four h
    have ⟨later, news, hlater, haccepted, hnews⟩ := Day.accepted_append c .four data more
    refine ⟨_, later, hdata, hlater, ?_⟩
    rw [haccepted]
    cases news with
    | nil => exact .inl rfl
    | cons x news =>
      obtain ⟨b, hb, hx⟩ := hnews x (.head _)
      exact .inr ⟨b, hb, x.2, by rw [← hx]; rfl⟩

/-- A block behind the first one, which extends the chain. -/
theorem second_block_appended :
    (Day1.readchain .toy).main firstBlock.encoding = .ok (.blk (.ofNat 1) 1) ∧
    (Day4.readchain .toy).main firstBlock.encoding = .ok (.blk (.ofNat 1) 1) ∧
    (∃ line₀, (Day1.readchain .toy).main firstBlock.encoding = .ok line₀ ∧
      line₀.Extends (.blk (.ofNat 2) 2)) ∧
    ∃ line₀ later, (Day4.readchain .toy).main firstBlock.encoding = .ok line₀ ∧
      fileBlocks (firstBlock.encoding ++ secondBlock.encoding) =
        fileBlocks firstBlock.encoding ++ later ∧
      (.blk (.ofNat 2) 2 = line₀ ∨
        ∃ b ∈ later, ∃ len, Line.blk (.ofNat 2) 2 = .blk b.blkHash len) :=
  have h := readchain_appended .toy firstBlock.encoding secondBlock.encoding
  ⟨by decide +kernel, by decide +kernel, h.1 _ (by decide +kernel), h.2 _ (by decide +kernel)⟩

end Bootcamp
