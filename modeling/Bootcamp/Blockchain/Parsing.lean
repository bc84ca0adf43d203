import Bootcamp.Blockchain.Sequential

/-! What the buffer parsers accept, on any bytes: exactly the encodings of readable
blocks, whatever follows them. Inside the buffer no parse aborts, and the loop over a
file leaves it after one turn for every hundred bytes at most. -/
namespace Bootcamp

/-! ## Loads inside the buffer -/

theorem exists_load {n : Nat} {data : Bytes} (h : n ≤ data.length) :
    ∃ bs rest, bs.length = n ∧ data = bs ++ rest ∧ load n data = .ok (bs, rest) := by
  refine ⟨data.take n, data.drop n, by simp [h], (List.take_append_drop n data).symm, ?_⟩
  rw [load, if_pos h]

theorem exists_loadHash {data : Bytes} (h : 32 ≤ data.length) :
    ∃ a rest, data = HashResult.bytes a ++ rest ∧ loadHash data = .ok (a, rest) := by
  have hl : loadHash data = .ok (⟨data.take 32, by simp [h]⟩, data.drop 32) := by
    rw [loadHash, dif_pos h]
  exact ⟨_, _, loadHash_eq_ok.mp hl, hl⟩

theorem exists_loadUInt32 {data : Bytes} (h : 4 ≤ data.length) :
    ∃ n rest, data = bytes32 (UInt32.toNat n) ++ rest ∧ loadUInt32 data = .ok (n, rest) := by
  obtain ⟨bs, rest, -, -, hl⟩ := exists_load h
  have hu : loadUInt32 data = .ok (UInt32.ofNat (LittleEndian.decode bs), rest) := by
    simp only [loadUInt32, hl, Except.ok_bind, Except.pure_eq_ok]
  exact ⟨_, _, loadUInt32_eq_ok.mp hu, hu⟩

theorem exists_loadUInt64 {data : Bytes} (h : 8 ≤ data.length) :
    ∃ n rest, data = bytes64 n ++ rest ∧ loadUInt64 data = .ok (n, rest) := by
  obtain ⟨bs, rest, -, -, hl⟩ := exists_load h
  have hu : loadUInt64 data = .ok (UInt64.ofNat (LittleEndian.decode bs), rest) := by
    simp only [loadUInt64, hl, Except.ok_bind, Except.pure_eq_ok]
  exact ⟨_, _, loadUInt64_eq_ok.mp hu, hu⟩

theorem exists_loadInt {data : Bytes} (h : 4 ≤ data.length) :
    ∃ bs rest n, bs.length = 4 ∧ data = bs ++ rest ∧ loadInt data = .ok (n, rest) := by
  obtain ⟨u, rest, hdata, hu⟩ := exists_loadUInt32 h
  refine ⟨bytes32 u.toNat, rest, asInt u, length_bytes32 _, hdata, ?_⟩
  rw [loadInt, hu]
  rfl

/-- A field that is not negative is the number its bytes encode. -/
theorem loadInt_nonneg {data rest : Bytes} {n : Int} (h : loadInt data = .ok (n, rest))
    (hn : 0 ≤ n) : data = bytes32 n.toNat ++ rest := by
  obtain ⟨⟨u, rest'⟩, hu, h⟩ := Except.bind_eq_ok.mp h
  simp only [Except.pure_eq_ok, Except.ok.injEq, Prod.mk.injEq] at h
  obtain ⟨hval, hrest⟩ := h
  have hlt := u.toNat_lt
  have hnat : n.toNat = u.toNat := by
    unfold asInt at hval
    rw [Int.bmod_def] at hval
    split at hval <;> omega
  rw [hnat, ← hrest]
  exact loadUInt32_eq_ok.mp hu

/-! ## Transactions -/

namespace Txn

/-- What `read` accepts is the encoding of a readable transaction. -/
theorem read_eq_some {data : Bytes} {bufsz n : Nat} {tx : Txn} :
    read data bufsz = .ok (some (n, tx)) ↔
      tx.Readable ∧ n = tx.size ∧ tx.size ≤ bufsz ∧ ∃ rest, data = tx.encoding ++ rest := by
  constructor
  · intro h
    simp only [read] at h
    split_ifs at h with hhdr
    · cases h
    obtain ⟨⟨pubkeySz, d₁⟩, hkey, h⟩ := Except.bind_eq_ok.mp h
    obtain ⟨⟨signSz, d₂⟩, hsign, h⟩ := Except.bind_eq_ok.mp h
    obtain ⟨⟨amount, d₃⟩, hamount, h⟩ := Except.bind_eq_ok.mp h
    simp only at h hsign hamount
    split_ifs at h with hkeyBad hsignBad hbody
    · cases h
    · cases h
    · cases h
    obtain ⟨⟨publicKey, d₄⟩, h₄, h⟩ := Except.bind_eq_ok.mp h
    obtain ⟨⟨sourceAddr, d₅⟩, h₅, h⟩ := Except.bind_eq_ok.mp h
    obtain ⟨⟨destAddr, d₆⟩, h₆, h⟩ := Except.bind_eq_ok.mp h
    obtain ⟨⟨changeAddr, d₇⟩, h₇, h⟩ := Except.bind_eq_ok.mp h
    obtain ⟨⟨txHash, d₈⟩, h₈, h⟩ := Except.bind_eq_ok.mp h
    obtain ⟨⟨txSign, d₉⟩, h₉, h⟩ := Except.bind_eq_ok.mp h
    simp only at h h₅ h₆ h₇ h₈ h₉
    split_ifs at h
    · cases h
    obtain ⟨rfl, rfl⟩ := Prod.mk.inj (Option.some.inj (Except.ok.inj h))
    have hdata := loadInt_nonneg hkey (by omega)
    have hdata₁ := loadInt_nonneg hsign (by omega)
    obtain ⟨hdata₃, hlen⟩ := load_eq_ok.mp h₄
    obtain ⟨hdata₈, hlen'⟩ := load_eq_ok.mp h₉
    refine ⟨⟨by simp only [hlen]; omega, by simp only [hlen']; omega⟩, ?_, ?_, d₉, ?_⟩
    · simp only [size, hlen, hlen']
      omega
    · simp only [size, hlen, hlen']
      omega
    · simp only [encoding, hlen, hlen', hdata, hdata₁, loadUInt64_eq_ok.mp hamount, hdata₃,
        loadHash_eq_ok.mp h₅, loadHash_eq_ok.mp h₆, loadHash_eq_ok.mp h₇, loadHash_eq_ok.mp h₈,
        hdata₈, List.append_assoc]
  · rintro ⟨hr, rfl, hsz, rest, rfl⟩
    exact hr.read_encoding rest hsz

/-- Inside the buffer `read` comes back: no load leaves it and `readSz == TX_SZ`. -/
theorem exists_read {data : Bytes} {bufsz : Nat} (h : bufsz ≤ data.length) :
    ∃ r, read data bufsz = .ok r := by
  unfold read
  by_cases hhdr : bufsz < 4 + 4 + 8
  · exact ⟨none, by simp only [if_pos hhdr, Except.pure_eq_ok]⟩
  obtain ⟨bs, d₁, pubkeySz, hbs, rfl, h₁⟩ := exists_loadInt (show 4 ≤ data.length by omega)
  rw [List.length_append, hbs] at h
  obtain ⟨bs', d₂, signSz, hbs', rfl, h₂⟩ := exists_loadInt (show 4 ≤ d₁.length by omega)
  rw [List.length_append, hbs'] at h
  obtain ⟨amount, d₃, rfl, h₃⟩ := exists_loadUInt64 (show 8 ≤ d₂.length by omega)
  rw [List.length_append, length_bytes64] at h
  simp only [if_neg hhdr, h₁, h₂, h₃, Except.ok_bind, Except.pure_eq_ok]
  split_ifs with hkey hsign hbody
  · exact ⟨none, rfl⟩
  · exact ⟨none, rfl⟩
  · exact ⟨none, rfl⟩
  obtain ⟨publicKey, d₄, hk, rfl, h₄⟩ := exists_load (show pubkeySz.toNat ≤ d₃.length by omega)
  rw [List.length_append, hk] at h
  obtain ⟨sourceAddr, d₅, rfl, h₅⟩ := exists_loadHash (show 32 ≤ d₄.length by omega)
  rw [List.length_append, HashResult.size_eq] at h
  obtain ⟨destAddr, d₆, rfl, h₆⟩ := exists_loadHash (show 32 ≤ d₅.length by omega)
  rw [List.length_append, HashResult.size_eq] at h
  obtain ⟨changeAddr, d₇, rfl, h₇⟩ := exists_loadHash (show 32 ≤ d₆.length by omega)
  rw [List.length_append, HashResult.size_eq] at h
  obtain ⟨txHash, d₈, rfl, h₈⟩ := exists_loadHash (show 32 ≤ d₇.length by omega)
  rw [List.length_append, HashResult.size_eq] at h
  obtain ⟨txSign, d₉, hs, rfl, h₉⟩ := exists_load (show signSz.toNat ≤ d₈.length by omega)
  simp only [h₄, h₅, h₆, h₇, h₈, h₉, Except.ok_bind]
  rw [if_neg]
  · exact ⟨_, rfl⟩
  · simp only [List.length_append, hbs, hbs', length_bytes64, HashResult.size_eq, hk, hs]
    omega

end Txn

/-! ## Blocks -/

namespace Body

theorem readTransactions_eq_some {k n n' : Nat} {data data' : Bytes} {txs : List Txn} :
    readTransactions k data n = .ok (some (txs, data', n')) ↔ txs.length = k ∧
      (∀ tx ∈ txs, tx.Readable) ∧ data = txs.flatMap Txn.encoding ++ data' ∧
      n = (txs.map Txn.size).sum + n' := by
  constructor
  · intro h
    induction k generalizing data n txs with
    | zero =>
      obtain ⟨rfl, rfl, rfl⟩ : [] = txs ∧ data = data' ∧ n = n' := by simpa [readTransactions] using h
      simp
    | succ k ih =>
      obtain ⟨r, hr, h⟩ := Except.bind_eq_ok.mp h
      cases r with
      | none => cases h
      | some p =>
        obtain ⟨r', hr', h⟩ := Except.bind_eq_ok.mp h
        cases r' with
        | none => cases h
        | some q =>
          obtain ⟨txs', data'', left⟩ := q
          simp only [Except.pure_eq_ok, Except.ok.injEq, Option.some.injEq, Prod.mk.injEq] at h
          obtain ⟨rfl, rfl, rfl⟩ := h
          obtain ⟨hread, hsize, hle, rest, rfl⟩ := Txn.read_eq_some.mp hr
          rw [hsize, List.drop_left' p.2.length_encoding] at hr'
          obtain ⟨rfl, hall, rfl, hn⟩ := ih hr'
          refine ⟨rfl, List.forall_mem_cons.mpr ⟨hread, hall⟩, ?_, ?_⟩
          · rw [List.flatMap_cons, List.append_assoc]
          · rw [List.map_cons, List.sum_cons]
            omega
  · rintro ⟨rfl, hall, rfl, rfl⟩
    exact readTransactions_encoding hall data' n'

theorem exists_readTransactions (k : Nat) {data : Bytes} {n : Nat} (h : n ≤ data.length) :
    ∃ r, readTransactions k data n = .ok r := by
  induction k generalizing data n with
  | zero => exact ⟨_, rfl⟩
  | succ k ih =>
    obtain ⟨r, hr⟩ := Txn.exists_read h
    rw [readTransactions, hr, Except.ok_bind]
    cases r with
    | none => exact ⟨none, rfl⟩
    | some p =>
      obtain ⟨-, hsize, hle, rest, rfl⟩ := Txn.read_eq_some.mp hr
      rw [List.length_append, Txn.length_encoding] at h
      have hleft : n - p.1 ≤ ((p.2.encoding ++ rest).drop p.1).length := by
        rw [List.length_drop, List.length_append, Txn.length_encoding]
        omega
      obtain ⟨r', hr'⟩ := ih hleft
      simp only [hr', Except.ok_bind]
      cases r' with
      | none => exact ⟨none, rfl⟩
      | some q => exact ⟨_, rfl⟩

/-- What `read` accepts is the encoding of a readable block. -/
theorem read_eq_some {data : Bytes} {blkSz n : Nat} {b : Body} :
    read data blkSz = .ok (some (n, b)) ↔
      b.Readable ∧ n = b.size ∧ b.size ≤ blkSz ∧ ∃ rest, data = b.encoding ++ rest := by
  constructor
  · intro h
    simp only [read] at h
    split_ifs at h with hhdr
    · cases h
    obtain ⟨⟨count, d₁⟩, hcount, h⟩ := Except.bind_eq_ok.mp h
    obtain ⟨⟨reward, d₂⟩, hreward, h⟩ := Except.bind_eq_ok.mp h
    obtain ⟨⟨prev, d₃⟩, hprev, h⟩ := Except.bind_eq_ok.mp h
    obtain ⟨⟨blk, d₄⟩, hblk, h⟩ := Except.bind_eq_ok.mp h
    obtain ⟨r, hr, h⟩ := Except.bind_eq_ok.mp h
    cases r with
    | none => cases h
    | some p =>
      obtain ⟨txs, d₅, left⟩ := p
      simp only [ne_eq, ite_not] at h
      split_ifs at h with hsz
      · simp only [Except.pure_eq_ok, Except.ok.injEq, Option.some.injEq, Prod.mk.injEq] at h
        obtain ⟨rfl, rfl⟩ := h
        obtain ⟨hlen, hall, htxs, hleft⟩ := readTransactions_eq_some.mp hr
        simp only at hreward hprev hblk htxs hleft
        refine ⟨⟨by simp only [hlen]; exact count.toNat_lt, hall⟩, ?_, ?_, d₅, ?_⟩
        · simp only [size]
          omega
        · simp only [size]
          omega
        · simp only [encoding, hlen, loadUInt32_eq_ok.mp hcount, loadHash_eq_ok.mp hreward,
            loadHash_eq_ok.mp hprev, loadHash_eq_ok.mp hblk, htxs, List.append_assoc]
      · cases h
  · rintro ⟨hr, rfl, hsz, rest, rfl⟩
    obtain ⟨k, rfl⟩ := Nat.exists_eq_add_of_le hsz
    exact hr.read_encoding rest k

/-- Inside the buffer `read` comes back: no load leaves it and `s1 == s2`. -/
theorem exists_read {data : Bytes} {blkSz : Nat} (h : blkSz ≤ data.length) :
    ∃ r, read data blkSz = .ok r := by
  unfold read
  by_cases hhdr : blkSz < 4 + 32 + 32 + 32
  · exact ⟨none, by simp only [if_pos hhdr, Except.pure_eq_ok]⟩
  obtain ⟨count, d₁, rfl, hcount⟩ := exists_loadUInt32 (show 4 ≤ data.length by omega)
  rw [List.length_append, length_bytes32] at h
  obtain ⟨reward, d₂, rfl, hreward⟩ := exists_loadHash (show 32 ≤ d₁.length by omega)
  rw [List.length_append, HashResult.size_eq] at h
  obtain ⟨prev, d₃, rfl, hprev⟩ := exists_loadHash (show 32 ≤ d₂.length by omega)
  rw [List.length_append, HashResult.size_eq] at h
  obtain ⟨blk, d₄, rfl, hblk⟩ := exists_loadHash (show 32 ≤ d₃.length by omega)
  rw [List.length_append, HashResult.size_eq] at h
  obtain ⟨r, hr⟩ := exists_readTransactions count.toNat
    (show blkSz - (4 + 32 + 32 + 32) ≤ d₄.length by omega)
  simp only [if_neg hhdr, hcount, hreward, hprev, hblk, hr, Except.ok_bind]
  cases r with
  | none => exact ⟨none, rfl⟩
  | some p =>
    obtain ⟨txs, d₅, left⟩ := p
    obtain ⟨-, -, hdata, hleft⟩ := readTransactions_eq_some.mp hr
    have hlen : d₄.length = (txs.map Txn.size).sum + d₅.length := by
      rw [hdata, List.length_append, List.length_flatMap,
        List.map_congr_left fun tx _ => Txn.length_encoding tx]
    simp only
    rw [if_neg]
    · exact ⟨_, rfl⟩
    · simp only [List.length_append, length_bytes32, HashResult.size_eq]
      omega

theorem size_ge (b : Body) : 100 ≤ b.size := by
  simp only [size]
  omega

/-- A transaction takes 144 bytes at least. -/
theorem size_ge_count (b : Body) : 144 * b.transactions.length ≤ b.size := by
  have hsum : b.transactions.length * 144 ≤ (b.transactions.map Txn.size).sum := by
    have hle := List.card_nsmul_le_sum (b.transactions.map Txn.size) 144 (by
      intro n hn
      obtain ⟨tx, -, rfl⟩ := List.mem_map.mp hn
      simp only [Txn.size]
      omega)
    simpa using hle
  simp only [size]
  omega

/-- The bytes behind the block did not matter. -/
theorem read_local {data data' : Bytes} {blkSz blkSz' n : Nat} {b : Body}
    (h : read data blkSz = .ok (some (n, b))) (hsame : data'.take n = data.take n)
    (hn : n ≤ blkSz') : read data' blkSz' = .ok (some (n, b)) := by
  obtain ⟨hr, rfl, -, rest, rfl⟩ := read_eq_some.mp h
  refine read_eq_some.mpr ⟨hr, rfl, hn, data'.drop b.size, ?_⟩
  rw [← List.take_append_drop b.size data', hsame, List.take_left' b.length_encoding]
  simp

end Body

/-! ## The loop -/

/-- The pointer stands in the first `size` bytes of the buffer, and the bytes left are
those between the two. -/
structure Cursor.Inside {σ : Type} (data : Bytes) (size : Nat) (s : Cursor σ) : Prop where
  left_le : s.bytesLeft ≤ size
  rest : s.data = data.drop (size - s.bytesLeft)

theorem Cursor.Inside.left_le_length {σ : Type} {data : Bytes} {size : Nat} {s : Cursor σ}
    (h : s.Inside data size) (hsize : size ≤ data.length) : s.bytesLeft ≤ s.data.length := by
  have := h.left_le
  rw [h.rest, List.length_drop]
  omega

/-- A parse at the cursor comes back, and what it accepts is a block of the size it
returns, within the bytes left and whatever stands behind them. -/
structure Reader.ParsesAt {σ : Type} (r : Reader σ) (s : Cursor σ) : Prop where
  returns : ∃ res, Block.read s.data s.bytesLeft (r.heap s.state) (r.bmap s.state) = .ok res
  size : ∀ n blk, Block.read s.data s.bytesLeft (r.heap s.state) (r.bmap s.state) =
    .ok (some (n, blk)) → n = blk.size ∧ 100 ≤ n ∧ n ≤ s.bytesLeft
  framed : ∀ n blk, Block.read s.data s.bytesLeft (r.heap s.state) (r.bmap s.state) =
    .ok (some (n, blk)) → ∀ data' bytesLeft', data'.take n = s.data.take n → n ≤ bytesLeft' →
      Block.read data' bytesLeft' (r.heap s.state) (r.bmap s.state) = .ok (some (n, blk))

namespace Reader

variable {σ : Type} {r : Reader σ} {data : Bytes} {size : Nat}

theorem parsesAt {s : Cursor σ} (h : s.bytesLeft ≤ s.data.length) : r.ParsesAt s where
  returns := by
    obtain ⟨res, hres⟩ := Body.exists_read h
    cases res with
    | none => exact ⟨none, by rw [Block.read, hres]; rfl⟩
    | some p => exact ⟨some (p.1, Block.attached _ _ p.2), Block.read_eq_some.mpr ⟨p.2, hres, rfl⟩⟩
  size := by
    intro n blk hread
    obtain ⟨b, hb, rfl⟩ := Block.read_eq_some.mp hread
    obtain ⟨-, rfl, hle, -⟩ := Body.read_eq_some.mp hb
    rw [Block.attached_toBody]
    exact ⟨rfl, b.size_ge, hle⟩
  framed := by
    intro n blk hread data' bytesLeft' hsame hn
    obtain ⟨b, hb, rfl⟩ := Block.read_eq_some.mp hread
    exact Block.read_eq_some.mpr ⟨b, Body.read_local hb hsame hn, rfl⟩

theorem turn_inside {s t : Cursor σ} (hs : s.Inside data size) (h : Loop.Turn r.turn s t) :
    t.Inside data size := by
  obtain ⟨n, b, -, hread, -, hdata, hleft⟩ := turn_iff.mp h
  have hn := (Body.read_consumes hread).2
  have hle := hs.left_le
  refine ⟨by omega, ?_⟩
  rw [hdata, hs.rest, List.drop_drop, hleft]
  congr 1
  omega

/-- The cursor never leaves the bytes that the loop was given. -/
theorem reaches_inside {st : σ} {s : Cursor σ} (h : Loop.Reaches r.turn ⟨data, size, st⟩ s) :
    s.Inside data size := by
  refine Loop.Reaches.invariant (I := fun s => s.Inside data size) h ⟨le_rfl, by simp⟩ ?_
  exact fun _ _ _ hs hturn => turn_inside hs hturn

/-- A turn takes a hundred bytes at least. -/
theorem turn_hundred {s t : Cursor σ} (h : Loop.Turn r.turn s t) :
    t.bytesLeft + 100 ≤ s.bytesLeft := by
  obtain ⟨n, b, -, hread, -, -, hleft⟩ := turn_iff.mp h
  obtain ⟨-, rfl, hle, -⟩ := Body.read_eq_some.mp hread
  have := b.size_ge
  omega

/-- So the loop is left after that many turns. -/
theorem run_leaves_hundred (data : Bytes) (bytesLeft : Nat) (st : σ) :
    Loop.run r.turn (bytesLeft / 100 + 1) ⟨data, bytesLeft, st⟩ ≠ .ok none := by
  refine Loop.run_leaves (fun s : Cursor σ => s.bytesLeft / 100) (fun a b h => ?_)
    (Nat.lt_succ_self _)
  have := turn_hundred h
  omega

/-! ## The blocks of a file -/

/-- The blocks that lie one behind the other in `left` bytes, up to the first place where
none parses; `k` bounds their number. -/
def blocksIn : Nat → Bytes → Nat → List Body
  | 0, _, _ => []
  | k + 1, data, left =>
    match Body.read data left with
    | .ok (some (n, b)) => b :: blocksIn k (data.drop n) (left - n)
    | _ => []

end Reader

/-- The blocks of a file, as every program that reads it to its end finds them. -/
def fileBlocks (data : Bytes) : List Body := Reader.blocksIn (data.length + 1) data data.length

namespace Reader

variable {σ : Type} {r : Reader σ}

theorem run_eq_foldlM {k : Nat} {data : Bytes} {left : Nat} (hk : left < k)
    (h : left ≤ data.length) (st : σ) :
    r.run data left st = (blocksIn k data left).foldlM r.step st := by
  induction k generalizing data left st with
  | zero => omega
  | succ k ih =>
    obtain ⟨res, hres⟩ := Body.exists_read h
    cases res with
    | none =>
      simp only [blocksIn, hres, List.foldlM_nil]
      by_cases hz : left = 0
      · subst hz
        rfl
      · have hturn : r.turn ⟨data, left, st⟩ = .ok none := by
          simp only [turn, hz, if_false, Block.read, hres, Except.ok_bind, Except.pure_eq_ok]
        simp only [run, Loop.run, hturn, Except.ok_bind, Except.pure_eq_ok]
    | some p =>
      obtain ⟨n, b⟩ := p
      obtain ⟨hread, rfl, hle, rest, rfl⟩ := Body.read_eq_some.mp hres
      have hpos := b.size_pos
      rw [List.length_append, Body.length_encoding] at h
      obtain ⟨left, rfl⟩ := Nat.exists_eq_add_of_le hle
      simp only [blocksIn, hres, List.foldlM_cons, List.drop_left' b.length_encoding,
        Nat.add_sub_cancel_left]
      rw [run_encoding hread]
      congr 1
      funext st'
      exact ih (by omega) (by omega) st'

theorem blocksIn_encodings {bs : List Body} (h : ∀ b ∈ bs, b.Readable) {k : Nat}
    (hk : bs.length ≤ k) : blocksIn k (bs.flatMap Body.encoding) (bs.map Body.size).sum = bs := by
  induction bs generalizing k with
  | nil =>
    cases k with
    | zero => rfl
    | succ k => rfl
  | cons b bs ih =>
    obtain ⟨hb, hbs⟩ := List.forall_mem_cons.mp h
    obtain ⟨k, rfl⟩ := Nat.exists_eq_add_of_le' hk
    have hread := hb.read_encoding (bs.flatMap Body.encoding) (bs.map Body.size).sum
    simp only [List.flatMap_cons, List.map_cons, List.sum_cons, List.length_cons, ← Nat.add_assoc,
      blocksIn, hread, List.drop_left' b.length_encoding, Nat.add_sub_cancel_left,
      ih hbs (Nat.le_add_left _ _)]

/-- Whatever a program does with blocks, over a whole file it does it with the blocks of
the file, in order. -/
theorem run_file (data : Bytes) (st : σ) :
    r.run data data.length st = (fileBlocks data).foldlM r.step st :=
  run_eq_foldlM (Nat.lt_succ_self _) le_rfl st

end Reader

/-- A file of written blocks holds those blocks. -/
theorem fileBlocks_encodings {bs : List Body} (h : ∀ b ∈ bs, b.Readable) :
    fileBlocks (bs.flatMap Body.encoding) = bs := by
  have hlen : bs.length ≤ (bs.map Body.size).sum := by
    have hle := List.card_nsmul_le_sum (bs.map Body.size) 1 (by
      intro n hn
      obtain ⟨b, -, rfl⟩ := List.mem_map.mp hn
      exact b.size_pos)
    simpa using hle
  rw [fileBlocks, Body.length_encodings]
  exact Reader.blocksIn_encodings h (by omega)

namespace Readchain

variable {p : Readchain} {data : Bytes} {s : Cursor ReadState}

theorem Reached.turns_le (h : p.Reached data s) : 100 * s.state.i + s.bytesLeft ≤ data.length := by
  refine Loop.Reaches.invariant (I := fun s => 100 * s.state.i + s.bytesLeft ≤ data.length) h
    (by simp [ReadState.start]) ?_
  intro a b _ ha hturn
  have hle := Reader.turn_hundred hturn
  obtain ⟨n, body, -, -, hv, -, -⟩ := Reader.turn_iff.mp hturn
  obtain ⟨-, -, -, -, hcount, -⟩ := visit_eq_ok (n := n) hv
  omega

end Readchain

/-- On every file of at most 2^32 bytes `readchain` parses inside the file: the bytes
left are those behind the pointer, no parse aborts, what is accepted is a block of the
returned size and of as many transactions as its count field says, read as an `int`, and
the loop ends. -/
theorem readchain_parses_inside {c : Crypto} {data : Bytes} (hlen : data.length ≤ 2 ^ 32) :
    (∀ s, (Day4.readchain c).Reached data s →
      s.Inside data data.length ∧ s.state.i < 2 ^ 31 ∧ (Day4.readchain c).reader.ParsesAt s ∧
      ∀ n blk, Block.read s.data s.bytesLeft s.state.heap s.state.bmap = .ok (some (n, blk)) →
        ∃ rest, loadInt s.data = .ok ((blk.transactions.length : Int), rest)) ∧
    Loop.run (Day4.readchain c).reader.turn (data.length / 100 + 1) ⟨data, data.length, .start⟩ ≠
      .ok none := by
  refine ⟨fun s hs => ?_, Reader.run_leaves_hundred _ _ _⟩
  have hinside := Reader.reaches_inside hs
  have hturns := hs.turns_le
  have hle := hinside.left_le
  refine ⟨hinside, by omega, Reader.parsesAt (hinside.left_le_length le_rfl), ?_⟩
  intro n blk hread
  obtain ⟨b, hb, rfl⟩ := Block.read_eq_some.mp hread
  obtain ⟨-, -, hsize, rest, hdata⟩ := Body.read_eq_some.mp hb
  have hcount := b.size_ge_count
  rw [Block.attached_toBody, hdata, Body.encoding]
  simp only [List.append_assoc]
  exact ⟨_, loadInt_append _ (by omega)⟩

/-- Two blocks, one of them with a transaction, and a third that ends within its transaction. -/
def cutFile : Bytes :=
  [firstBlock, secondBlock].flatMap Body.encoding ++ secondBlock.encoding.dropLast

theorem cut_file_parses_inside :
    (∀ s, (Day4.readchain .toy).Reached cutFile s →
      s.Inside cutFile cutFile.length ∧ s.state.i < 2 ^ 31 ∧
      (Day4.readchain .toy).reader.ParsesAt s ∧
      ∀ n blk, Block.read s.data s.bytesLeft s.state.heap s.state.bmap = .ok (some (n, blk)) →
        ∃ rest, loadInt s.data = .ok ((blk.transactions.length : Int), rest)) ∧
    Loop.run (Day4.readchain .toy).reader.turn (cutFile.length / 100 + 1)
      ⟨cutFile, cutFile.length, .start⟩ ≠ .ok none :=
  readchain_parses_inside (by decide +kernel)

end Bootcamp
