import Bootcamp.Blockchain.Reader
import Bootcamp.Blockchain.Supply

/-! The sequential readers. Both enter a block that validates into the block
map and ignore one that does not; day 1 has its own validation and keeps the
longest chain's tip, day 4 keeps the last block it accepted. -/
namespace Bootcamp

/-! ## The validation of day 1 -/

namespace Day1

namespace Txn

/-- No check that the amount is positive. -/
def validate (c : Crypto) (tx : Txn) : Except Abort Bool :=
  if c.sha256 tx.publicKey ≠ tx.sourceAddr then .ok false
  else if c.sha256 tx.preimage ≠ tx.txHash then .ok false
  else c.verify tx.publicKey tx.txHash.bytes tx.txSign

def updateBalances (tx : Txn) (balances : BalanceMap) : Except Abort BalanceMap :=
  match balances.find? tx.sourceAddr with
  | none => .error .assertion
  | some held =>
    if held < tx.amount then .error .assertion
    else
      let change := held - tx.amount
      let balances := BalanceMap.credit balances tx.destAddr tx.amount
      let balances := BalanceMap.credit balances tx.changeAddr change
      let balances := balances.insert tx.sourceAddr 0
      .ok (balances.erase tx.sourceAddr)

end Txn

namespace Body

/-- The first loop of `validate`: behind a transaction that fails, `&&` skips the others. -/
def allTxValid (c : Crypto) : List Txn → Except Abort Bool
  | [] => .ok true
  | tx :: txs => do
    if ← Txn.validate c tx then allTxValid c txs else return false

/-- The second loop. -/
def applyTransactions : List Txn → BalanceMap → Except Abort (Bool × BalanceMap)
  | [], balances => .ok (true, balances)
  | tx :: txs, balances => do
    if !tx.balanceAvailable balances then return (false, balances)
    let balances ← Txn.updateBalances tx balances
    applyTransactions txs balances

def validate (c : Crypto) (b : Body) (balances : BalanceMap) : Except Abort (Bool × BalanceMap) := do
  if !(← allTxValid c b.transactions) then return (false, balances)
  let (available, balances) ← applyTransactions b.transactions balances
  if !available then return (false, balances)
  let blockHashValid : Bool := c.sha256 b.preimage = b.blkHash
  let balances := BalanceMap.credit balances b.rewardAddr blockReward
  return (blockHashValid, balances)

end Body

/-- Emptying the source before erasing it changes nothing. -/
theorem Txn.updateBalances_eq (tx : Txn) (m : BalanceMap) :
    Txn.updateBalances tx m = tx.updateBalances m := by
  have herase (m' : BalanceMap) (a : HashResult) : (m'.insert a 0).erase a = m'.erase a := by
    apply OrderedMap.ext_find
    intro b
    rw [OrderedMap.find_erase, OrderedMap.find_erase, OrderedMap.find_insert]
    split <;> rfl
  unfold Txn.updateBalances Bootcamp.Txn.updateBalances
  cases m.find? tx.sourceAddr with
  | none => rfl
  | some held => simp only [herase]

end Day1

/-! ## The readers -/

/-- What distinguishes one `readchain` from the other: the validation, and
which block is the tip once a block is accepted. -/
structure Readchain where
  check : Body → BalanceMap → Except Abort (Bool × BalanceMap)
  nextTip : Heap → Option Ptr → Ptr → Ptr
  nextTip_mem : ∀ heap tip it, nextTip heap tip it = it ∨ tip = some (nextTip heap tip it)

def Day4.readchain (c : Crypto) : Readchain where
  check := Body.validate c
  nextTip _ _ it := it
  nextTip_mem _ _ _ := .inl rfl

def Day1.readchain (c : Crypto) : Readchain where
  check := Day1.Body.validate c
  nextTip heap tip it :=
    match tip with
    | none => it
    | some t => if (heap t).length < (heap it).length then it else t
  nextTip_mem heap tip it := by
    cases tip with
    | none => exact .inl rfl
    | some t => by_cases hlt : (heap t).length < (heap it).length <;> simp [hlt]

/-- The variables of `main`. The block of turn `i` lives at `⟨0, i⟩`. Nothing
reads `accepted`, the history of what went into the map. -/
structure ReadState where
  heap : Heap
  bmap : BlockMap
  tip : Option Ptr
  i : Nat
  accepted : List Ptr

def ReadState.start : ReadState := ⟨.empty, ∅, none, 0, []⟩

namespace Readchain

variable (p : Readchain)

def visit (st : ReadState) (_ : Nat) (blk : Block) : Except Abort ReadState := do
  let it : Ptr := ⟨0, st.i⟩
  let (valid, blk) ← blk.validateBy p.check st.heap
  let heap := st.heap.set it blk
  if valid then
    return { heap, bmap := st.bmap.insert blk.blkHash it, tip := some (p.nextTip heap st.tip it),
             i := st.i + 1, accepted := it :: st.accepted }
  else
    return { st with heap, i := st.i + 1 }

def reader : Reader ReadState where
  heap := ReadState.heap
  bmap := ReadState.bmap
  visit := p.visit

def main (data : Bytes) : Except Abort Line := do
  let st ← p.reader.run data data.length .start
  match st.tip with
  | some t => return .blk (st.heap t).blkHash (st.heap t).length
  | none => return .invalid

/-- The states in which a turn of the loop over this file begins. -/
def Reached (data : Bytes) (s : Cursor ReadState) : Prop :=
  Loop.Reaches p.reader.turn ⟨data, data.length, .start⟩ s

/-! ## What stays true of an accepted block -/

/-- What the reader established when it accepted the block at `x`. -/
structure Accepted (heap : Heap) (accepted : List Ptr) (x : Ptr) : Prop where
  checked : p.check (heap x).toBody ((heap x).resetBalances heap) = .ok (true, (heap x).balances)
  first : (heap x).prevBlock = none → (heap x).length = 1
  linked : ∀ q, (heap x).prevBlock = some q → q ∈ accepted ∧ q.serial < x.serial ∧
    (heap x).prevHash ≠ .zero ∧ (heap q).blkHash = (heap x).prevHash ∧
    (heap x).length = (heap q).length + 1

structure Inv (st : ReadState) : Prop where
  fresh : ∀ x ∈ st.accepted, x.thread = 0 ∧ x.serial < st.i
  accepted : ∀ x ∈ st.accepted, p.Accepted st.heap st.accepted x
  keyed : ∀ h x, st.bmap.find? h = some x → x ∈ st.accepted ∧ (st.heap x).blkHash = h
  tip : ∀ x, st.tip = some x → x ∈ st.accepted

variable {p}

/-- All that a visit can do. -/
theorem visit_eq_ok {st st' : ReadState} {n : Nat} {blk : Block} (h : p.visit st n blk = .ok st') :
    ∃ valid m, p.check blk.toBody (blk.resetBalances st.heap) = .ok (valid, m) ∧
      st'.heap = st.heap.set ⟨0, st.i⟩ { blk with balances := m } ∧ st'.i = st.i + 1 ∧
      ((valid = true ∧ st'.bmap = st.bmap.insert blk.blkHash ⟨0, st.i⟩ ∧
          st'.tip = some (p.nextTip st'.heap st.tip ⟨0, st.i⟩) ∧
          st'.accepted = ⟨0, st.i⟩ :: st.accepted) ∨
        (valid = false ∧ st'.bmap = st.bmap ∧ st'.tip = st.tip ∧ st'.accepted = st.accepted)) := by
  obtain ⟨⟨valid, blk'⟩, hv, h⟩ := Except.bind_eq_ok.mp h
  obtain ⟨m, hm, rfl⟩ := Block.validateBy_eq_ok.mp hv
  cases valid with
  | true =>
    obtain rfl := Except.ok.inj h
    exact ⟨true, m, hm, rfl, rfl, .inl ⟨rfl, rfl, rfl, rfl⟩⟩
  | false =>
    obtain rfl := Except.ok.inj h
    exact ⟨false, m, hm, rfl, rfl, .inr ⟨rfl, rfl, rfl, rfl⟩⟩

theorem visit_accept {st : ReadState} {blk : Block} {m : BalanceMap} (n : Nat)
    (h : p.check blk.toBody (blk.resetBalances st.heap) = .ok (true, m)) :
    ∃ st', p.visit st n blk = .ok st' ∧
      st'.heap = st.heap.set ⟨0, st.i⟩ { blk with balances := m } ∧
      st'.bmap = st.bmap.insert blk.blkHash ⟨0, st.i⟩ ∧ st'.i = st.i + 1 ∧
      st'.accepted = ⟨0, st.i⟩ :: st.accepted := by
  have hv := Block.validateBy_eq_ok.mpr ⟨m, h, rfl⟩
  rw [visit, hv]
  exact ⟨_, rfl, rfl, rfl, rfl, rfl⟩

/-- An accepted block stays as it is when a later one is allocated. -/
theorem Accepted.set {heap : Heap} {acc acc' : List Ptr} {x it : Ptr} {blk : Block}
    (h : p.Accepted heap acc x) (hsub : acc ⊆ acc') (hx : x ≠ it) (hacc : it ∉ acc) :
    p.Accepted (heap.set it blk) acc' x := by
  have hself : heap.set it blk x = heap x := heap.set_of_ne blk hx
  have hprev : ∀ q, (heap x).prevBlock = some q → heap.set it blk q = heap q := by
    intro q hq
    exact heap.set_of_ne blk fun heq => hacc (heq ▸ (h.linked q hq).1)
  have hreset : (heap x).resetBalances (heap.set it blk) = (heap x).resetBalances heap := by
    unfold Block.resetBalances
    split
    · rename_i q hq
      rw [hprev q hq]
    · rfl
  refine ⟨?_, ?_, ?_⟩
  · rw [hself, hreset]
    exact h.checked
  · rw [hself]
    exact h.first
  · intro q hq
    rw [hself] at hq ⊢
    obtain ⟨hmem, hrest⟩ := h.linked q hq
    rw [hprev q hq]
    exact ⟨hsub hmem, hrest⟩

theorem Inv.start : p.Inv .start where
  fresh := by simp [ReadState.start]
  accepted := by simp [ReadState.start]
  keyed := by
    intro h x hx
    exact absurd hx (by simp [ReadState.start])
  tip := by simp [ReadState.start]

/-- The block just validated, entered as accepted. -/
theorem Inv.accepted_new {st : ReadState} (hi : p.Inv st) (b : Body) {m : BalanceMap}
    (hm : p.check b ((Block.attached st.heap st.bmap b).resetBalances st.heap) = .ok (true, m)) :
    p.Accepted (st.heap.set ⟨0, st.i⟩ { Block.attached st.heap st.bmap b with balances := m })
      (⟨0, st.i⟩ :: st.accepted) ⟨0, st.i⟩ := by
  have hnew (q : Ptr) (hq : q ∈ st.accepted) : q ≠ ⟨0, st.i⟩ := by
    rintro rfl
    exact absurd (hi.fresh _ hq).2 (lt_irrefl _)
  rcases Block.attached_cases st.heap st.bmap b with ⟨hnone, hlen, -⟩ | ⟨q, hsome, hz, hf, hlen⟩
  · refine ⟨?_, ?_, ?_⟩
    · simpa [Block.resetBalances, hnone] using hm
    · simpa using fun _ => hlen
    · simp [hnone]
  · obtain ⟨hq, hkey⟩ := hi.keyed _ q hf
    have hother (blk : Block) : st.heap.set ⟨0, st.i⟩ blk q = st.heap q :=
      st.heap.set_of_ne blk (hnew q hq)
    have hreset : Block.resetBalances (st.heap.set ⟨0, st.i⟩
        { Block.attached st.heap st.bmap b with balances := m })
        { Block.attached st.heap st.bmap b with balances := m } =
          (Block.attached st.heap st.bmap b).resetBalances st.heap := by
      simp only [Block.resetBalances, hsome, hother]
    refine ⟨?_, ?_, ?_⟩
    · rw [Heap.set_self, hreset]
      simpa using hm
    · simp [hsome]
    · intro q' hq'
      obtain rfl : q = q' := by simpa [hsome] using hq'
      rw [Heap.set_self, hother]
      exact ⟨List.mem_cons_of_mem _ hq, (hi.fresh q hq).2, by simpa using hz, by simpa using hkey,
        hlen⟩

theorem Inv.visit {st st' : ReadState} {n : Nat} {b : Body} (hi : p.Inv st)
    (h : p.visit st n (Block.attached st.heap st.bmap b) = .ok st') : p.Inv st' := by
  obtain ⟨valid, m, hm, hheap, hcount, hcases⟩ := visit_eq_ok h
  rw [Block.attached_toBody] at hm
  have hnew (q : Ptr) (hq : q ∈ st.accepted) : q ≠ ⟨0, st.i⟩ := by
    rintro rfl
    exact absurd (hi.fresh _ hq).2 (lt_irrefl _)
  have habsent : (⟨0, st.i⟩ : Ptr) ∉ st.accepted := fun hmem => hnew _ hmem rfl
  have hkeep (q : Ptr) (hq : q ∈ st.accepted) : st'.heap q = st.heap q := by
    rw [hheap]
    exact st.heap.set_of_ne _ (hnew q hq)
  have hsub : st.accepted ⊆ st'.accepted := by
    rcases hcases with ⟨-, -, -, hacc⟩ | ⟨-, -, -, hacc⟩
    · rw [hacc]
      exact List.subset_cons_self _ _
    · rw [hacc]
      exact List.Subset.refl _
  -- only a block that is valid is new among the accepted ones
  have hmem (x : Ptr) (hx : x ∈ st'.accepted) : x ∈ st.accepted ∨
      (x = ⟨0, st.i⟩ ∧ valid = true ∧ st'.accepted = ⟨0, st.i⟩ :: st.accepted) := by
    rcases hcases with ⟨hvalid, -, -, hacc⟩ | ⟨-, -, -, hacc⟩
    · rw [hacc] at hx
      exact (List.mem_cons.mp hx).symm.imp_right fun heq => ⟨heq, hvalid, hacc⟩
    · exact .inl (hacc ▸ hx)
  have hkeyed (k : HashResult) (x : Ptr) (hx : st.bmap.find? k = some x) :
      x ∈ st'.accepted ∧ (st'.heap x).blkHash = k := by
    obtain ⟨hx, hkey⟩ := hi.keyed k x hx
    exact ⟨hsub hx, by rwa [hkeep x hx]⟩
  refine ⟨?_, ?_, ?_, ?_⟩
  · rw [hcount]
    intro x hx
    rcases hmem x hx with hx | ⟨rfl, -⟩
    · exact ⟨(hi.fresh x hx).1, Nat.lt_succ_of_lt (hi.fresh x hx).2⟩
    · exact ⟨rfl, Nat.lt_succ_self _⟩
  · intro x hx
    rcases hmem x hx with hx | ⟨rfl, rfl, hacc⟩
    · rw [hheap]
      exact (hi.accepted x hx).set hsub (hnew x hx) habsent
    · rw [hacc, hheap]
      exact hi.accepted_new b hm
  · intro k x hx
    rcases hcases with ⟨-, hbmap, -, hacc⟩ | ⟨-, hbmap, -⟩
    · rw [hbmap, OrderedMap.find_insert] at hx
      split_ifs at hx with hk
      · obtain rfl := Option.some.inj hx
        rw [hacc, hheap, Heap.set_self]
        exact ⟨List.mem_cons_self, hk.symm⟩
      · exact hkeyed k x hx
    · exact hkeyed k x (hbmap ▸ hx)
  · intro x hx
    rcases hcases with ⟨-, -, htip, hacc⟩ | ⟨-, -, htip, -⟩
    · rw [htip] at hx
      rw [hacc, ← Option.some.inj hx]
      rcases p.nextTip_mem st'.heap st.tip ⟨0, st.i⟩ with hit | hold
      · rw [hit]
        exact List.mem_cons_self
      · exact List.mem_cons_of_mem _ (hi.tip _ hold)
    · rw [htip] at hx
      exact hsub (hi.tip x hx)

theorem Reached.inv {data : Bytes} {s : Cursor ReadState} (h : p.Reached data s) : p.Inv s.state := by
  refine Loop.Reaches.invariant (I := fun s => p.Inv s.state) h .start ?_
  intro a b _ hi hturn
  obtain ⟨n, body, -, -, hv, -, -⟩ := Reader.turn_iff.mp hturn
  exact hi.visit (n := n) hv

/-! ## A linear chain -/

/-- A block that names `h` will be validated on the balances `m`. -/
def Ready (st : ReadState) (h : HashResult) (m : BalanceMap) : Prop :=
  (h = .zero ∧ m = ∅) ∨
    ∃ q, h ≠ .zero ∧ st.bmap.find? h = some q ∧ (st.heap q).balances = m

theorem Ready.start : Ready .start .zero ∅ := .inl ⟨rfl, rfl⟩

theorem resetBalances_attached {st : ReadState} {b : Body} {m : BalanceMap}
    (hr : Ready st b.prevHash m) :
    (Block.attached st.heap st.bmap b).resetBalances st.heap = m := by
  rcases hr with ⟨hz, rfl⟩ | ⟨q, hz, hf, rfl⟩
  · simp [Block.attached, hz, Block.resetBalances, Block.new]
  · simp [Block.attached, hz, hf, Block.resetBalances, Block.setPrevBlock]

theorem step_accept {st : ReadState} {b : Body} {m m' : BalanceMap} (hr : Ready st b.prevHash m)
    (hv : p.check b m = .ok (true, m')) (hz : b.blkHash ≠ .zero) :
    ∃ st', p.reader.step st b = .ok st' ∧ Ready st' b.blkHash m' ∧ st'.i = st.i + 1 ∧
      st'.accepted = ⟨0, st.i⟩ :: st.accepted := by
  have hcheck : p.check (Block.attached st.heap st.bmap b).toBody
      ((Block.attached st.heap st.bmap b).resetBalances st.heap) = .ok (true, m') := by
    rw [Block.attached_toBody, resetBalances_attached hr, hv]
  obtain ⟨st', hvisit, hheap, hbmap, hcount, hacc⟩ := visit_accept b.size hcheck
  refine ⟨st', ?_, .inr ⟨⟨0, st.i⟩, hz, ?_, ?_⟩, hcount, hacc⟩
  · simp only [Reader.step, Block.attach_eq, Except.ok_bind]
    exact hvisit
  · rw [hbmap, Block.attached_toBody, OrderedMap.find_insert_self]
  · rw [hheap, Heap.set_self]

/-- Day 4 enters every block of a chain that validates block by block. -/
theorem steps_accept {c : Crypto} {bs : List Body} {st : ReadState} {h : HashResult}
    {m m' : BalanceMap} (hr : Ready st h m) (hl : Body.Linked h bs)
    (hz : ∀ b ∈ bs, b.blkHash ≠ .zero) (hv : Body.acceptAll c m bs = some m') :
    ∃ st', bs.foldlM (Day4.readchain c).reader.step st = .ok st' ∧ st'.i = st.i + bs.length ∧
      st'.accepted.length = st.accepted.length + bs.length := by
  induction bs generalizing st h m with
  | nil => exact ⟨st, rfl, rfl, rfl⟩
  | cons b bs ih =>
    obtain ⟨rfl, hl⟩ := hl
    obtain ⟨hb, hbs⟩ := List.forall_mem_cons.mp hz
    obtain ⟨m₁, hv₁, hv⟩ := Body.acceptAll_cons_eq_some.mp hv
    obtain ⟨st₁, hstep, hr₁, hcount₁, hacc₁⟩ :=
      step_accept (p := Day4.readchain c) hr (Body.accept_eq_some.mp hv₁) hb
    obtain ⟨st', hsteps, hcount, hacc⟩ := ih hr₁ hl hbs hv
    refine ⟨st', by rw [List.foldlM_cons, hstep]; exact hsteps, ?_, ?_⟩
    · rw [hcount, hcount₁, List.length_cons]
      omega
    · rw [hacc, hacc₁, List.length_cons, List.length_cons]
      omega

/-- The state behind the blocks of a linear chain at the front of a file. -/
theorem reached_linear {c : Crypto} {bs : List Body} {m : BalanceMap}
    (hw : ∀ b ∈ bs, b.Writable) (hl : Body.Linked .zero bs) (hz : ∀ b ∈ bs, b.blkHash ≠ .zero)
    (hv : Body.acceptAll c ∅ bs = some m) (rest : Bytes) :
    ∃ st, (Day4.readchain c).Reached (bs.flatMap Body.encoding ++ rest) ⟨rest, rest.length, st⟩ ∧
      st.i = bs.length ∧ st.accepted.length = bs.length := by
  obtain ⟨st, hsteps, hcount, hacc⟩ := steps_accept .start hl hz hv
  have hreach := Reader.reaches_encodings hw rest rest.length hsteps
  rw [← Body.length_encodings, ← List.length_append] at hreach
  exact ⟨st, hreach, by simpa [ReadState.start] using hcount, by simpa [ReadState.start] using hacc⟩

/-! ## The chain of an accepted block -/

theorem Inv.exists_chain {st : ReadState} (hi : p.Inv st) {x : Ptr} (hx : x ∈ st.accepted) :
    ∃ l, Chains.Chain st.heap.prev x l ∧ l.length ≤ x.serial + 1 :=
  Chains.exists_chain (S := fun y => y ∈ st.accepted) Ptr.serial
    (fun y q hy hq => ⟨((hi.accepted y hy).linked q hq).1, ((hi.accepted y hy).linked q hq).2.1⟩) hx

theorem Inv.length_eq {st : ReadState} (hi : p.Inv st) {x : Ptr} {l : List Ptr}
    (hl : Chains.Chain st.heap.prev x l) (hx : x ∈ st.accepted) :
    (st.heap x).length = UInt32.ofNat l.length := by
  refine Heap.length_of_chain (S := fun y => y ∈ st.accepted) ?_ ?_ hl hx
  · exact fun y hy => (hi.accepted y hy).first
  · intro y q hy hq
    obtain ⟨hmem, -, -, -, hlen⟩ := (hi.accepted y hy).linked q hq
    exact ⟨hmem, hlen⟩

/-- Below 2^32 blocks a length is the number of blocks of the chain. -/
theorem Inv.toNat_length {st : ReadState} (hi : p.Inv st) (hn : st.i < 2 ^ 32) {x : Ptr}
    {l : List Ptr} (hl : Chains.Chain st.heap.prev x l) (hx : x ∈ st.accepted) :
    (st.heap x).length.toNat = l.length := by
  obtain ⟨l', hl', hle⟩ := hi.exists_chain hx
  have hser := (hi.fresh x hx).2
  rw [hl.unique hl', hi.length_eq hl' hx, UInt32.toNat_ofNat_of_lt' (by simp only [UInt32.size]; omega)]

end Readchain

end Bootcamp
