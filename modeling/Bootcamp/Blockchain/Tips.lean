import Bootcamp.Blockchain.Ignoring

/-! Where the sequential readers of the two days report the same chain. While every amount
is positive they grow the same tree, but day 1 reports the first of its longest chains and
day 4 the chain of the last block. -/
namespace Bootcamp

/-! ## The validation of day 1 on positive amounts -/

theorem Day1.Txn.validate_eq {c : Crypto} {tx : Bootcamp.Txn} (hpos : 0 < tx.amount) :
    Day1.Txn.validate c tx = tx.validate c := by
  unfold Day1.Txn.validate Bootcamp.Txn.validate
  rw [if_neg (UInt64.not_le.mpr hpos)]
  by_cases hhash : tx.txHash = c.sha256 tx.preimage
  · simp [← hhash]
  · simp [hhash, Ne.symm hhash]

/-- All transactions in front of a fatal one are valid. Day 1 gets to it whatever the balances. -/
def Body.HoldsFatal (c : Crypto) (b : Body) : Prop :=
  ∃ txs tx rest, b.transactions = txs ++ tx :: rest ∧ (∀ t ∈ txs, t.Authorised c) ∧ tx.Fatal c

theorem Body.Fatal.holdsFatal {c : Crypto} {b : Body} {m : BalanceMap} (h : b.Fatal c m) :
    b.HoldsFatal c := by
  obtain ⟨txs, tx, rest, m', hsplit, happly, hfatal⟩ := h
  exact ⟨txs, tx, rest, hsplit, authorised_of_applyTransactions happly, hfatal⟩

namespace Day1.Body

theorem allTxValid_eq_true {c : Crypto} {txs : List Bootcamp.Txn}
    (hpos : ∀ tx ∈ txs, 0 < tx.amount) :
    allTxValid c txs = .ok true ↔ ∀ tx ∈ txs, tx.Authorised c := by
  induction txs with
  | nil => simp [allTxValid]
  | cons tx txs ih =>
    obtain ⟨htx, htxs⟩ := List.forall_mem_cons.mp hpos
    rw [allTxValid, Txn.validate_eq htx, List.forall_mem_cons, ← ih htxs,
      ← Bootcamp.Txn.validate_eq_true]
    cases tx.validate c with
    | error e => simp
    | ok valid => cases valid <;> simp

theorem exists_allTxValid_iff {c : Crypto} {txs : List Bootcamp.Txn}
    (hpos : ∀ tx ∈ txs, 0 < tx.amount) :
    (∃ r, allTxValid c txs = .ok r) ↔
      ¬ ∃ pre tx post, txs = pre ++ tx :: post ∧ (∀ t ∈ pre, t.Authorised c) ∧ tx.Fatal c := by
  constructor
  · rintro ⟨r, hr⟩ ⟨pre, tx, post, rfl, hpre, hfatal⟩
    induction pre with
    | nil =>
      obtain ⟨valid, hv, -⟩ := Except.bind_eq_ok.mp hr
      rw [Txn.validate_eq (hpos tx List.mem_cons_self)] at hv
      exact Bootcamp.Txn.exists_validate_iff.mp ⟨valid, hv⟩ hfatal
    | cons t pre ih =>
      obtain ⟨ht, hpre⟩ := List.forall_mem_cons.mp hpre
      obtain ⟨htpos, hpos⟩ := List.forall_mem_cons.mp hpos
      rw [List.cons_append, allTxValid, Txn.validate_eq htpos,
        Bootcamp.Txn.validate_eq_true.mpr ht] at hr
      exact ih hpos hr hpre
  · intro h
    induction txs with
    | nil => exact ⟨_, rfl⟩
    | cons tx txs ih =>
      obtain ⟨htx, htxs⟩ := List.forall_mem_cons.mp hpos
      obtain ⟨valid, hv⟩ := Bootcamp.Txn.exists_validate_iff.mpr fun hfatal =>
        h ⟨[], tx, txs, rfl, by simp, hfatal⟩
      rw [allTxValid, Txn.validate_eq htx, hv, Except.ok_bind]
      cases valid with
      | false => exact ⟨_, rfl⟩
      | true =>
        apply ih htxs
        rintro ⟨pre, tx', post, rfl, hpre, hfatal⟩
        exact h ⟨tx :: pre, tx', post, rfl,
          List.forall_mem_cons.mpr ⟨Bootcamp.Txn.validate_eq_true.mp hv, hpre⟩, hfatal⟩

/-- The loop over the balances never aborts. -/
theorem exists_applyTransactions (txs : List Bootcamp.Txn) (m : BalanceMap) :
    ∃ r, applyTransactions txs m = .ok r := by
  induction txs generalizing m with
  | nil => exact ⟨_, rfl⟩
  | cons tx txs ih =>
    rw [applyTransactions]
    cases ha : tx.balanceAvailable m with
    | false => exact ⟨_, rfl⟩
    | true =>
      obtain ⟨r, hr⟩ := ih (tx.applied m)
      refine ⟨r, ?_⟩
      simp only [Bool.not_true, Bool.false_eq_true, if_false, Txn.updateBalances_eq,
        Bootcamp.Txn.updateBalances_eq ha, Except.ok_bind, hr]

/-- Over valid transactions the two days do the same. -/
theorem applyTransactions_eq {c : Crypto} {txs : List Bootcamp.Txn}
    (h : ∀ tx ∈ txs, tx.Authorised c) (m : BalanceMap) :
    applyTransactions txs m = Bootcamp.Body.applyTransactions c txs m := by
  induction txs generalizing m with
  | nil => rfl
  | cons tx txs ih =>
    obtain ⟨htx, htxs⟩ := List.forall_mem_cons.mp h
    rw [applyTransactions, Bootcamp.Body.applyTransactions, Bootcamp.Txn.validate_eq_true.mpr htx]
    cases ha : tx.balanceAvailable m with
    | false => rfl
    | true =>
      simp only [Bool.not_true, Bool.false_eq_true, if_false, Txn.updateBalances_eq,
        Bootcamp.Txn.updateBalances_eq ha, Except.ok_bind, ih htxs]

theorem exists_validate_iff {c : Crypto} {b : Bootcamp.Body} {m : BalanceMap}
    (hpos : ∀ tx ∈ b.transactions, 0 < tx.amount) :
    (∃ r, validate c b m = .ok r) ↔ ¬ b.HoldsFatal c := by
  rw [Bootcamp.Body.HoldsFatal, ← exists_allTxValid_iff hpos]
  unfold validate
  constructor
  · rintro ⟨r, hr⟩
    obtain ⟨valid, hv, -⟩ := Except.bind_eq_ok.mp hr
    exact ⟨valid, hv⟩
  · rintro ⟨valid, hv⟩
    rw [hv, Except.ok_bind]
    cases valid with
    | false => exact ⟨_, rfl⟩
    | true =>
      obtain ⟨⟨available, m'⟩, hr⟩ := exists_applyTransactions b.transactions m
      simp only [Bool.not_true, Bool.false_eq_true, if_false, hr, Except.ok_bind]
      cases available <;> exact ⟨_, rfl⟩

/-- Where neither aborts the two days accept the same blocks, with the same balances. -/
theorem validate_eq_true_iff {c : Crypto} {b : Bootcamp.Body} {m m' : BalanceMap}
    (hpos : ∀ tx ∈ b.transactions, 0 < tx.amount) :
    validate c b m = .ok (true, m') ↔ b.validate c m = .ok (true, m') := by
  constructor
  · intro h
    obtain ⟨valid, hv, h⟩ := Except.bind_eq_ok.mp h
    cases valid with
    | false => cases h
    | true =>
      rw [applyTransactions_eq ((allTxValid_eq_true hpos).mp hv)] at h
      exact h
  · intro h
    obtain ⟨m₁, happly, -⟩ := Bootcamp.Body.validate_eq_true.mp h
    have hall := Bootcamp.Body.authorised_of_applyTransactions happly
    rw [validate, (allTxValid_eq_true hpos).mpr hall, Except.ok_bind, applyTransactions_eq hall]
    exact h

end Day1.Body

/-- Day 4 accepts what day 1 accepts, blocks with an amount of zero apart, and with the same
balances. -/
theorem validators_agree (c : Crypto) (b : Body) (m : BalanceMap) :
    ((∃ m', b.validate c m = .ok (true, m')) ↔
      (∃ m', Day1.Body.validate c b m = .ok (true, m')) ∧ ∀ tx ∈ b.transactions, 0 < tx.amount) ∧
    ∀ m₄ m₁, b.validate c m = .ok (true, m₄) → Day1.Body.validate c b m = .ok (true, m₁) →
      m₄ = m₁ := by
  have hpos {m' : BalanceMap} (h : b.validate c m = .ok (true, m')) :
      ∀ tx ∈ b.transactions, 0 < tx.amount := by
    obtain ⟨m₁, happly, -⟩ := Body.validate_eq_true.mp h
    exact fun tx htx => (Body.authorised_of_applyTransactions happly tx htx).positive
  refine ⟨⟨?_, ?_⟩, ?_⟩
  · rintro ⟨m', h⟩
    exact ⟨⟨m', (Day1.Body.validate_eq_true_iff (hpos h)).mpr h⟩, hpos h⟩
  · rintro ⟨⟨m', h⟩, hpos⟩
    exact ⟨m', (Day1.Body.validate_eq_true_iff hpos).mp h⟩
  · intro m₄ m₁ h₄ h₁
    have heq := h₄.symm.trans ((Day1.Body.validate_eq_true_iff (hpos h₄)).mp h₁)
    exact (Prod.mk.inj (Except.ok.inj heq)).2

/-! ## One tree, two tips -/

theorem BlockTree.keep_congr {check check' : Body → BalanceMap → Except Abort (Bool × BalanceMap)}
    {b : Body} (h : ∀ m m', check b m = .ok (true, m') ↔ check' b m = .ok (true, m'))
    (t : BlockTree) : keep check t b = keep check' t b := by
  unfold keep
  split
  · rename_i m hm
    rw [(h _ m).mp hm]
  · rename_i hne
    split
    · rename_i m hm
      exact absurd ((h _ m).mpr hm) (hne m)
    · rfl

theorem BlockTree.ofBlocks_congr {check check' : Body → BalanceMap → Except Abort (Bool × BalanceMap)}
    {bs : List Body}
    (h : ∀ b ∈ bs, ∀ m m', check b m = .ok (true, m') ↔ check' b m = .ok (true, m')) :
    ofBlocks check bs = ofBlocks check' bs := by
  have hfold (t : BlockTree) : bs.foldl (keep check) t = bs.foldl (keep check') t := by
    induction bs generalizing t with
    | nil => rfl
    | cons b bs ih =>
      obtain ⟨hb, hbs⟩ := List.forall_mem_cons.mp h
      rw [List.foldl_cons, List.foldl_cons, keep_congr hb, ih hbs]
  exact hfold root

/-- `x` came first among the longest: what is newer is not longer, what is older is shorter. -/
def FirstLongest (accepted : List (HashResult × UInt32)) (x : HashResult × UInt32) : Prop :=
  ∃ newer older, accepted = newer ++ x :: older ∧ (∀ y ∈ newer, y.2 ≤ x.2) ∧ ∀ y ∈ older, y.2 < x.2

theorem FirstLongest.le {accepted : List (HashResult × UInt32)} {x y : HashResult × UInt32}
    (h : FirstLongest accepted x) (hy : y ∈ accepted) : y.2 ≤ x.2 := by
  obtain ⟨newer, older, rfl, hnewer, holder⟩ := h
  rcases List.mem_append.mp hy with hy | hy
  · exact hnewer y hy
  · rcases List.mem_cons.mp hy with rfl | hy
    · exact UInt32.le_refl _
    · exact UInt32.le_of_lt (holder y hy)

namespace Day

theorem tip_one {accepted : List (HashResult × UInt32)} {x : HashResult × UInt32} :
    one.tip accepted = some x ↔ FirstLongest accepted x := by
  induction accepted generalizing x with
  | nil => simp [tip, FirstLongest]
  | cons y older ih =>
    constructor
    · intro h
      cases ht : one.tip older with
      | none =>
        simp only [tip, ht, nextTip, Option.some.injEq] at h
        subst h
        cases older with
        | nil => exact ⟨[], [], rfl, by simp, by simp⟩
        | cons z older => cases ht
      | some t =>
        have hfirst := ih.mp ht
        simp only [tip, ht, nextTip, Option.some.injEq] at h
        split_ifs at h with hlt
        · subst h
          exact ⟨[], older, rfl, by simp, fun z hz => UInt32.lt_of_le_of_lt (hfirst.le hz) hlt⟩
        · subst h
          obtain ⟨newer, older, rfl, hnewer, holder⟩ := hfirst
          exact ⟨y :: newer, older, rfl,
            List.forall_mem_cons.mpr ⟨UInt32.not_lt.mp hlt, hnewer⟩, holder⟩
    · rintro ⟨newer, older', hsplit, hnewer, holder⟩
      cases newer with
      | nil =>
        obtain ⟨rfl, rfl⟩ := List.cons.inj hsplit
        cases ht : one.tip older with
        | none => simp only [tip, ht, nextTip]
        | some t =>
          obtain ⟨newer, older', rfl, -⟩ := ih.mp ht
          have hlt := holder t (by simp)
          simp only [tip, ht, nextTip, hlt, if_true]
      | cons z newer =>
        obtain ⟨rfl, rfl⟩ := List.cons.inj hsplit
        obtain ⟨hz, hnewer⟩ := List.forall_mem_cons.mp hnewer
        have ht := ih.mpr ⟨newer, older', rfl, hnewer, holder⟩
        simp only [tip, ht, nextTip, UInt32.not_lt.mpr hz, if_false]

theorem tip_four (accepted : List (HashResult × UInt32)) : four.tip accepted = accepted.head? := by
  cases accepted <;> rfl

theorem exists_tip_one {accepted : List (HashResult × UInt32)} {y : HashResult × UInt32}
    (hy : y ∈ accepted) : ∃ x, one.tip accepted = some x ∧ y.2 ≤ x.2 := by
  cases accepted with
  | nil => simp at hy
  | cons z older =>
    have htip : one.tip (z :: older) = some (one.nextTip (one.tip older) z) := rfl
    exact ⟨_, htip, (tip_one.mp htip).le hy⟩

/-- The tips agree where the newest block is the longest and came first among its like. -/
theorem tip_one_eq_four {accepted : List (HashResult × UInt32)} :
    one.tip accepted = four.tip accepted ↔ ∀ last ∈ accepted.head?, FirstLongest accepted last := by
  rw [tip_four]
  cases accepted with
  | nil => simp [tip]
  | cons x older => simp [tip_one]

/-- Where every amount is positive the two days grow one tree. -/
theorem ofBlocks_eq {c : Crypto} {bs : List Body}
    (hpos : ∀ b ∈ bs, ∀ tx ∈ b.transactions, 0 < tx.amount) (day : Day) :
    BlockTree.ofBlocks (day.readchain c).check bs = BlockTree.ofBlocks (Body.validate c) bs := by
  cases day with
  | one => exact BlockTree.ofBlocks_congr fun b hb _ _ => Day1.Body.validate_eq_true_iff (hpos b hb)
  | four => rfl

/-- Neither day aborts on a block that holds no fatal transaction. -/
theorem exists_check {c : Crypto} {b : Body} (hpos : ∀ tx ∈ b.transactions, 0 < tx.amount)
    (hfatal : ¬ b.HoldsFatal c) (day : Day) (m : BalanceMap) :
    ∃ r, (day.readchain c).check b m = .ok r := by
  cases day with
  | one => exact (Day1.Body.exists_validate_iff hpos).mpr hfatal
  | four => exact Body.exists_validate_iff.mpr fun h => hfatal h.holdsFatal

/-- What a reader keeps of a whole file is the tree of the file. -/
theorem run_represents {c : Crypto} {day : Day} {data : Bytes} {st : ReadState}
    (h : (day.readchain c).reader.run data data.length .start = .ok st) :
    Represents c day st (BlockTree.ofBlocks (day.readchain c).check (fileBlocks data)) := by
  rw [Reader.run_file] at h
  have hrel := Except.foldlM_related (fun _ _ b h => Represents.step h b) (fileBlocks data)
    (Represents.start : Represents c day .start .root)
  rw [h] at hrel
  generalize ht : (fileBlocks data).foldlM (BlockTree.grow (day.readchain c).check) .root = r at hrel
  cases hrel with
  | ok hrep =>
    obtain ⟨-, rfl⟩ := (BlockTree.grows_iff _ _).mp ht
    exact hrep

end Day

/-- Both readers come to their end and print the same line, and neither has accepted a block
of a greater length. -/
def SameChain (c : Crypto) (data : Bytes) : Prop :=
  ∃ line, ∀ day : Day, (day.readchain c).main data = .ok line ∧
    ∀ st, (day.readchain c).reader.run data data.length .start = .ok st →
      ∀ x ∈ st.accepted, ∃ hash len, line = .blk hash len ∧ (st.heap x).length ≤ len

/-- The readers report the same chain when day 1 comes to its end and the last block that is
accepted came first among the longest, or is a copy of that block. -/
theorem same_chain_iff {c : Crypto} {data : Bytes}
    (hpos : ∀ b ∈ fileBlocks data, ∀ tx ∈ b.transactions, 0 < tx.amount) :
    SameChain c data ↔ (∀ b ∈ fileBlocks data, ¬ b.HoldsFatal c) ∧
      ∀ last ∈ (BlockTree.ofBlocks (Body.validate c) (fileBlocks data)).accepted.head?,
        FirstLongest (BlockTree.ofBlocks (Body.validate c) (fileBlocks data)).accepted last := by
  constructor
  · rintro ⟨line, hline⟩
    obtain ⟨hall, h₁⟩ := Day.main_eq_ok.mp (hline .one).1
    obtain ⟨-, h₄⟩ := Day.main_eq_ok.mp (hline .four).1
    refine ⟨fun b hb => ?_, ?_⟩
    · obtain ⟨pre, post, hsplit⟩ := List.append_of_mem hb
      exact (Day1.Body.exists_validate_iff (hpos b hb)).mp (hall pre b post hsplit)
    · have htip := Line.ofTip_inj (h₁.symm.trans h₄)
      rw [Day.ofBlocks_eq hpos, Day.ofBlocks_eq hpos] at htip
      exact Day.tip_one_eq_four.mp htip
  · rintro ⟨hfatal, hlast⟩
    have htip := Day.tip_one_eq_four.mpr hlast
    refine ⟨.ofTip (Day.one.tip (BlockTree.ofBlocks (Body.validate c) (fileBlocks data)).accepted),
      fun day => ⟨?_, fun st hst x hx => ?_⟩⟩
    · rw [Day.main_eq_ok, Day.ofBlocks_eq hpos]
      refine ⟨fun pre b post hsplit => ?_, ?_⟩
      · have hb : b ∈ fileBlocks data := by simp [hsplit]
        exact Day.exists_check (hpos b hb) (hfatal b hb) day _
      · cases day with
        | one => rfl
        | four => rw [htip]
    · have hmem : st.heap.face x ∈
          (BlockTree.ofBlocks (Body.validate c) (fileBlocks data)).accepted := by
        rw [← Day.ofBlocks_eq hpos day, (Day.run_represents hst).accepted]
        exact List.mem_map_of_mem hx
      obtain ⟨t, ht, hle⟩ := Day.exists_tip_one hmem
      exact ⟨t.1, t.2, congrArg Line.ofTip ht, hle⟩

/-- Two blocks, and the first of them once more. -/
def forkedFile : Bytes := [firstBlock, secondBlock, firstBlock].flatMap Body.encoding

theorem fileBlocks_forkedFile : fileBlocks forkedFile = [firstBlock, secondBlock, firstBlock] := by
  have hw : ∀ b ∈ [firstBlock, secondBlock, firstBlock], b.Writable := by decide
  exact fileBlocks_encodings fun b hb => (hw b hb).readable

theorem forkedFile_positive :
    ∀ b ∈ fileBlocks forkedFile, ∀ tx ∈ b.transactions, 0 < tx.amount := by
  rw [fileBlocks_forkedFile]
  decide

theorem forked_file_same_chain : SameChain .toy forkedFile ↔
    (∀ b ∈ fileBlocks forkedFile, ¬ b.HoldsFatal .toy) ∧
      ∀ last ∈ (BlockTree.ofBlocks (Body.validate .toy) (fileBlocks forkedFile)).accepted.head?,
        FirstLongest (BlockTree.ofBlocks (Body.validate .toy) (fileBlocks forkedFile)).accepted last :=
  same_chain_iff forkedFile_positive

/-- Day 1 reports the second block, day 4 the first. -/
theorem forked_file_two_chains : ¬ ∀ (c : Crypto) (data : Bytes),
    (∀ b ∈ fileBlocks data, ∀ tx ∈ b.transactions, 0 < tx.amount) → SameChain c data := by
  intro h
  obtain ⟨line, hline⟩ := h .toy forkedFile forkedFile_positive
  have h₁ := (Day.main_eq_ok.mp (hline .one).1).2
  have h₄ := (Day.main_eq_ok.mp (hline .four).1).2
  have hacc (day : Day) : (BlockTree.ofBlocks (day.readchain .toy).check (fileBlocks forkedFile)).accepted =
      [(.ofNat 1, 1), (.ofNat 2, 2), (.ofNat 1, 1)] := by
    rw [fileBlocks_forkedFile]
    cases day with
    | one => rfl
    | four => rfl
  rw [hacc] at h₁ h₄
  exact absurd (h₁.symm.trans h₄) (by decide)

end Bootcamp
