import Bootcamp.Blockchain.Parallel

/-! The line that a parallel reader prints, and what it says: that the reported chain hangs on a
coinbase and is valid from front to back. Where the threads and the linking leave room for less,
and that they leave it nowhere else. -/
namespace Bootcamp

open Chains (Chain)
open BalanceMap (Same)

namespace Run

variable {day : ChunkDay} {c : Crypto} {data : Bytes} {run : Run day.readChunk c data}
  {heap : Heap} {x t t' : Ptr} {l l' : List Ptr}

/-! ## The reported chain -/

/-- Where a block points to once the heads are linked to the tails they name. -/
def parent (run : Run day.readChunk c data) (x : Ptr) : Option Ptr :=
  if x ∈ run.shared.heads then run.shared.tails.find? (run.heap x).prevHash else run.heap.prev x

/-- Every head finds a tail, every tail's chain ends, and of the tails, in the order in which they
are visited, `t` is the first with the greatest length. Lengths have 32 bits. -/
structure Reported (run : Run day.readChunk c data) (t : Ptr) (l : List Ptr) : Prop where
  found : ∀ p ∈ run.shared.heads, run.shared.tails.find? (run.heap p).prevHash ≠ none
  ended : ∀ x ∈ run.ends, ∃ l', Chain run.parent x l'
  chain : Chain run.parent t l
  positive : UInt32.ofNat l.length ≠ 0
  longest : ∃ before after, run.ends = before ++ t :: after ∧
    (∀ x ∈ before, ∀ l', Chain run.parent x l' → UInt32.ofNat l'.length < UInt32.ofNat l.length) ∧
    ∀ x ∈ after, ∀ l', Chain run.parent x l' → UInt32.ofNat l'.length ≤ UInt32.ofNat l.length

theorem prev_eq_parent (hw : run.Wired heap) : heap.prev = run.parent := by
  funext x
  by_cases hx : x ∈ run.shared.heads
  · rw [hw.head x (mem_headOrder.mpr hx), parent, if_pos hx]
  · rw [hw.other x fun h => hx (mem_headOrder.mp h), parent, if_neg hx]

theorem length_le_blocks (hw : run.Wired heap) (hl : Chain run.parent x l) (hx : run.Entered x) :
    l.length ≤ run.blocks := by
  rw [← prev_eq_parent hw] at hl
  exact (chain_subperm hw hl hx).length_le.trans run.length_accepted_le

theorem Reported.mem_ends (h : run.Reported t l) : t ∈ run.ends := by
  obtain ⟨before, after, hends, -⟩ := h.longest
  rw [hends]
  simp

/-- Only one tail is the first of the longest. -/
theorem Reported.unique (h : run.Reported t l) (h' : run.Reported t' l') : t = t' ∧ l = l' := by
  obtain ⟨before, after, hends, hlt, hle⟩ := h.longest
  obtain ⟨before', after', hends', hlt', hle'⟩ := h'.longest
  have same : t = t' := by
    rcases List.append_eq_append_iff.mp (hends.symm.trans hends') with
      ⟨mid, rfl, hmid⟩ | ⟨mid, rfl, hmid⟩
    · cases mid with
      | nil => exact (List.cons.inj hmid).1
      | cons a mid =>
        obtain ⟨rfl, rfl⟩ := List.cons.inj hmid
        have hback := hlt' t (by simp) l h.chain
        have hforth := hle t' (by simp) l' h'.chain
        exact absurd hback (UInt32.not_lt.mpr hforth)
    · cases mid with
      | nil => exact (List.cons.inj hmid).1.symm
      | cons a mid =>
        obtain ⟨rfl, rfl⟩ := List.cons.inj hmid
        have hback := hlt t' (by simp) l' h'.chain
        have hforth := hle' t (by simp) l h.chain
        exact absurd hback (UInt32.not_lt.mpr hforth)
  subst same
  exact ⟨rfl, h.chain.unique h'.chain⟩

theorem reported_of_tip {f : Final} (hfinal : run.final = .ok f) (hvalid : f.valid = true)
    (htip : f.tip = some t) :
    ∃ l, run.Reported t l ∧ (f.heap t).length = UInt32.ofNat l.length := by
  have hf := finished_of_valid hfinal hvalid
  have hparent := prev_eq_parent hf.linked
  obtain ⟨hmem, hle⟩ := hf.tip t htip
  have hlength {y : Ptr} (hy : y ∈ run.ends) {l' : List Ptr} (hl' : Chain run.parent y l') :
      (f.heap y).length = UInt32.ofNat l'.length := by
    obtain ⟨l'', hl'', hlen⟩ := hf.counted y hy
    rw [hparent] at hl''
    rw [hlen, hl''.unique hl']
  have hended (y : Ptr) (hy : y ∈ run.ends) : ∃ l', Chain run.parent y l' := by
    obtain ⟨l', hl', -⟩ := hf.counted y hy
    exact ⟨l', hparent ▸ hl'⟩
  obtain ⟨l, hl⟩ := hended t hmem
  refine ⟨l, ⟨fun p hp => hf.linked.found p (mem_headOrder.mpr hp), hended, hl, ?_, ?_⟩,
    hlength hmem hl⟩
  · intro hzero
    have hnone : f.tip = none := hf.none.mpr fun y hy => by
      have hy' := hle y hy
      rw [hlength hmem hl, hzero] at hy'
      exact UInt32.le_antisymm hy' UInt32.zero_le
    rw [htip] at hnone
    cases hnone
  · obtain ⟨before, after, hends, hlt⟩ := hf.first t htip
    refine ⟨before, after, hends, fun y hy l' hl' => ?_, fun y hy l' hl' => ?_⟩
    · rw [← hlength (by rw [hends]; simp [hy]) hl', ← hlength hmem hl]
      exact hlt y hy
    · have hy : y ∈ run.ends := by rw [hends]; simp [hy]
      rw [← hlength hy hl', ← hlength hmem hl]
      exact hle y hy

theorem reported_of_line {hash : HashResult} {len : UInt32} (h : run.line = .ok (.blk hash len)) :
    ∃ f t l, run.final = .ok f ∧ f.tip = some t ∧ run.Wired f.heap ∧ run.Reported t l ∧
      hash = (run.heap t).blkHash ∧ len = UInt32.ofNat l.length := by
  obtain ⟨f, hfinal, hvalid, t, htip, hf, hfind, hlen⟩ := tip_of_line h
  obtain ⟨l, hreported, hlength⟩ := reported_of_tip hfinal hvalid htip
  exact ⟨f, t, l, hfinal, htip, hf.linked, hreported, (entered_of_find hfind).2.symm,
    hlen.symm.trans hlength⟩

namespace Reported

variable (h : run.Reported t l)

include h

theorem wired : run.Wired (linkHeads run.shared.tails run.headOrder run.heap).2 :=
  linkHeads_linked (linkHeads_iff.mpr fun p hp => h.found p (mem_headOrder.mp hp))

theorem entered : run.Entered t := by
  obtain ⟨key, hfind⟩ := Run.mem_ends.mp h.mem_ends
  exact (entered_of_find hfind).1

theorem forall_entered : ∀ x ∈ l, run.Entered x := by
  have hl := h.chain
  rw [← prev_eq_parent h.wired] at hl
  exact chain_entered h.wired hl h.entered

/-- The loops come to their end, and the line is printed. -/
theorem prints : run.line = .ok (.blk (run.heap t).blkHash (UInt32.ofNat l.length)) := by
  obtain ⟨f, hfinal⟩ : ∃ f, run.final = .ok f := by
    apply finish_returns
    intro e he
    have hmem : e.2 ∈ run.ends := List.mem_map_of_mem he
    obtain ⟨l', hl'⟩ := h.ended e.2 hmem
    obtain ⟨key, hfind⟩ := Run.mem_ends.mp hmem
    have hle := length_le_blocks h.wired hl' (entered_of_find hfind).1
    rw [← prev_eq_parent h.wired] at hl'
    exact ⟨l', hl', hle.trans run.blocks_lt_objects.le⟩
  have hvalid : f.valid = true :=
    (finish_spec hfinal).1.mpr fun p hp => h.found p (mem_headOrder.mp hp)
  have hf := finished_of_valid hfinal hvalid
  cases htip : f.tip with
  | none =>
    obtain ⟨l', hl', hlen⟩ := hf.counted t h.mem_ends
    rw [prev_eq_parent hf.linked] at hl'
    rw [hl'.unique h.chain] at hlen
    exact absurd (hlen.symm.trans (hf.none.mp htip t h.mem_ends)) h.positive
  | some t' =>
    obtain ⟨l', h', hlen⟩ := reported_of_tip hfinal hvalid htip
    obtain ⟨rfl, rfl⟩ := h.unique h'
    obtain ⟨key, hfind⟩ := Run.mem_ends.mp h.mem_ends
    rw [line_of_tip hfinal hvalid htip hfind, hlen, (entered_of_find hfind).2]

end Reported

/-! ## What is asked of the chain -/

/-- Its number of blocks fits the printed length. -/
def Short (run : Run day.readChunk c data) : Prop :=
  ∀ t l, run.Reported t l → l.length < 2 ^ 32

/-- None of its blocks was read as an orphan. -/
def Rooted (run : Run day.readChunk c data) : Prop :=
  ∀ t l, run.Reported t l → ∀ x ∈ l, ¬ run.ReadsOrphan x

/-- The blocks of a chain, the oldest first. -/
def bodies (run : Run day.readChunk c data) (l : List Ptr) : List Body :=
  l.reverse.map fun y => (run.heap y).toBody

/-- From no balances at all, every transaction on it finds its amount at its source. -/
def Solvent (run : Run day.readChunk c data) : Prop :=
  ∀ t l, run.Reported t l → Body.Solvent ∅ (run.bodies l)

/-- Each head on it was validated on the balances of the tail that it is linked to. -/
def LinksMatch (run : Run day.readChunk c data) : Prop :=
  ∀ t l, run.Reported t l → ∀ p ∈ l, p ∈ run.shared.heads → ∀ q init,
    run.shared.tails.find? (run.heap p).prevHash = some q →
    readInitBal data (run.header.prevMapOff p.thread) = .ok init →
      balanceMapsEqual (run.heap q).balances init = true

/-- The balances on which the block at `x` was validated: those stored in front of the chunk for
a head, and else those of the predecessor, if there is one. -/
def startBalances (run : Run day.readChunk c data) (x : Ptr) : Except Abort BalanceMap :=
  if x ∈ run.shared.heads then readInitBal data (run.header.prevMapOff x.thread)
  else .ok ((run.heap.prev x).elim ∅ fun q => (run.heap q).balances)

/-- Each of its blocks was validated on what the blocks before it leave, up to zero entries. -/
def InOrder (run : Run day.readChunk c data) : Prop :=
  ∀ t l, run.Reported t l → ∀ newer x older, l = newer ++ x :: older → ∃ m m',
    run.startBalances x = .ok m ∧ Body.acceptAll c ∅ (run.bodies older) = some m' ∧ Same m m'

/-- What the line `blk: hash; len: len` says: `prev_block` leads from the tip over
`len` linked blocks to a coinbase, and they are valid one after the other. -/
def Justifies (run : Run day.readChunk c data) (hash : HashResult) (len : UInt32) : Prop :=
  ∃ f t l, run.final = .ok f ∧ f.tip = some t ∧ Chain f.heap.prev t l ∧ l.length = len.toNat ∧
    (f.heap t).blkHash = hash ∧ Body.Linked .zero (l.reverse.map fun y => (f.heap y).toBody) ∧
    (Body.acceptAll c ∅ (l.reverse.map fun y => (f.heap y).toBody)).isSome

/-! ## One block after the other -/

theorem bodies_cons (x : Ptr) (l : List Ptr) :
    run.bodies (x :: l) = run.bodies l ++ [(run.heap x).toBody] := by
  simp [bodies]

/-- A block of a wired chain is a root or has the predecessor it names, and is valid on the
balances that its thread gave it. -/
theorem parent_cases (hw : run.Wired heap) (hx : run.Entered x) :
    ∃ m, run.startBalances x = .ok m ∧
      (run.heap x).toBody.accept c m = some (run.heap x).balances ∧
      ((run.parent x = none ∧ m = ∅ ∧ run.heap.prev x = none ∧
          ((run.heap x).prevHash = .zero ∨ x.serial ≠ 1)) ∨
        ∃ q, run.parent x = some q ∧ run.Entered q ∧
          (run.heap q).blkHash = (run.heap x).prevHash ∧
          (m = (run.heap q).balances ∨ x ∈ run.shared.heads ∧
            run.shared.tails.find? (run.heap x).prevHash = some q ∧
            readInitBal data (run.header.prevMapOff x.thread) = .ok m)) := by
  obtain ⟨init, hinit⟩ := exists_init hx
  obtain ⟨m, haccept, hcases⟩ := prev_cases hw hx hinit
  rw [prev_eq_parent hw] at hcases
  refine ⟨m, ?_, haccept, ?_⟩
  · rcases hcases with ⟨hnone, rfl, hprev, -⟩ | ⟨-, q, hq, -, -, ⟨rfl, hfree⟩ | ⟨rfl, hmem, -⟩⟩
    · have hfree : x ∉ run.shared.heads := fun hmem => by
        rw [parent, if_pos hmem] at hnone
        exact hw.found x (mem_headOrder.mpr hmem) hnone
      rw [startBalances, if_neg hfree, hprev]
      rfl
    · rw [parent, if_neg hfree] at hq
      rw [startBalances, if_neg hfree, hq]
      rfl
    · rw [startBalances, if_pos hmem, hinit]
  · rcases hcases with hroot | ⟨-, q, hq, hentered, hhash, ⟨rfl, -⟩ | ⟨rfl, hmem, hfind⟩⟩
    · exact .inl hroot
    · exact .inr ⟨q, hq, hentered, hhash, .inl rfl⟩
    · exact .inr ⟨q, hq, hentered, hhash, .inr ⟨hmem, hfind, hinit⟩⟩

/-- The blocks of a chain name each other, from the last one of the list on. -/
theorem linked_bodies (hw : run.Wired heap) (hl : Chain run.parent x l) (hx : run.Entered x) :
    Body.endHash .zero (run.bodies l) = (run.heap x).blkHash ∧
      ∃ r, l.getLast? = some r ∧ run.parent r = none ∧ run.Entered r ∧
        Body.Linked (run.heap r).prevHash (run.bodies l) := by
  induction hl with
  | @last x hnone => exact ⟨rfl, x, rfl, hnone, hx, rfl, trivial⟩
  | @link x q l hsome hl ih =>
    obtain ⟨m, -, -, ⟨hnone, -⟩ | ⟨q', hq', hentered, hhash, -⟩⟩ := parent_cases hw hx
    · rw [hnone] at hsome
      cases hsome
    · obtain rfl := Option.some.inj (hq'.symm.trans hsome)
      obtain ⟨hend, r, hr, hnone, hr', hlinked⟩ := ih hentered
      have hne := hl.ne_nil
      rw [bodies_cons]
      refine ⟨by rw [Body.endHash_append]; rfl, r, ?_, hnone, hr', ?_⟩
      · rw [List.getLast?_cons_of_ne_nil hne, hr]
      · have hbodies : run.bodies l ≠ [] := by simpa [bodies] using hne
        rw [Body.linked_append, Body.endHash_of_ne_nil hbodies _ .zero, hend]
        exact ⟨hlinked, hhash.symm, trivial⟩

/-- A chain hangs on a coinbase exactly if no block on it was read as an orphan. -/
theorem linked_zero_iff (hw : run.Wired heap) (hl : Chain run.parent x l) (hx : run.Entered x) :
    Body.Linked .zero (run.bodies l) ↔ ∀ y ∈ l, ¬ run.ReadsOrphan y := by
  obtain ⟨-, r, hr, hnone, hentered, hlinked⟩ := linked_bodies hw hl hx
  have hmem : r ∈ l := List.mem_of_getLast? hr
  have hne : run.bodies l ≠ [] := by simpa [bodies] using hl.ne_nil
  rw [hlinked.iff_eq hne]
  constructor
  · intro hz y hy horphan
    have hentered' : run.Entered y := by
      rw [← prev_eq_parent hw] at hl
      exact chain_entered hw hl hx y hy
    obtain ⟨hser, hne, hprev⟩ := (readsOrphan_iff hentered').mp horphan
    have hfree : y ∉ run.shared.heads := fun hhead => by
      obtain ⟨r', -, hhead⟩ := head_of_mem hhead
      exact hser hhead.2.1
    have hlast := hl.getLast_of_none hy (by rw [parent, if_neg hfree, hprev])
    obtain rfl := Option.some.inj (hr.symm.trans hlast)
    exact hne hz
  · intro hno
    obtain ⟨m, -, -, ⟨-, -, hprev, hroot⟩ | ⟨q, hq, -⟩⟩ := parent_cases hw hentered
    · by_contra hne
      exact hno r hmem ((readsOrphan_iff hentered).mpr ⟨hroot.resolve_left hne, hne, hprev⟩)
    · rw [hnone] at hq
      cases hq

theorem certified (hw : run.Wired heap) (hl : Chain run.parent x l) (hx : run.Entered x) :
    ∀ b ∈ run.bodies l, b.Certified c := by
  intro b hb
  obtain ⟨y, hy, rfl⟩ := List.mem_map.mp hb
  rw [← prev_eq_parent hw] at hl
  obtain ⟨m, -, haccept, -⟩ :=
    parent_cases hw (chain_entered hw hl hx y (List.mem_reverse.mp hy))
  exact (Body.accept_iff.mp haccept).1

/-- Down a chain whose links match: what the blocks were validated on is what the blocks before
them leave, up to zero entries. -/
theorem acceptAll_of_links (hw : run.Wired heap) (hl : Chain run.parent x l) (hx : run.Entered x)
    (hlinks : ∀ p ∈ l, p ∈ run.shared.heads → ∀ q init,
      run.shared.tails.find? (run.heap p).prevHash = some q →
      readInitBal data (run.header.prevMapOff p.thread) = .ok init →
        balanceMapsEqual (run.heap q).balances init = true) :
    (∀ newer y older, l = newer ++ y :: older → ∃ m m', run.startBalances y = .ok m ∧
      Body.acceptAll c ∅ (run.bodies older) = some m' ∧ Same m m') ∧
    ∃ m, Body.acceptAll c ∅ (run.bodies l) = some m ∧ Same (run.heap x).balances m := by
  -- what is left once the newest block is known to start from the balances before it
  have extend {y : Ptr} {older : List Ptr} {m m' : BalanceMap} (hm : run.startBalances y = .ok m)
      (haccept : (run.heap y).toBody.accept c m = some (run.heap y).balances)
      (hall : Body.acceptAll c ∅ (run.bodies older) = some m') (hsame : Same m m')
      (hbelow : ∀ newer z older', older = newer ++ z :: older' → ∃ m m',
        run.startBalances z = .ok m ∧ Body.acceptAll c ∅ (run.bodies older') = some m' ∧
          Same m m') :
      (∀ newer z older', y :: older = newer ++ z :: older' → ∃ m m', run.startBalances z = .ok m ∧
        Body.acceptAll c ∅ (run.bodies older') = some m' ∧ Same m m') ∧
      ∃ m, Body.acceptAll c ∅ (run.bodies (y :: older)) = some m ∧
        Same (run.heap y).balances m := by
    obtain ⟨m'', haccept', hsame'⟩ := Body.accept_same hsame haccept
    constructor
    · intro newer z older' hsplit
      cases newer with
      | nil =>
        obtain ⟨rfl, rfl⟩ := List.cons.inj hsplit
        exact ⟨m, m', hm, hall, hsame⟩
      | cons a newer => exact hbelow newer z older' (List.cons.inj hsplit).2
    · refine ⟨m'', ?_, hsame'⟩
      rw [bodies_cons, Body.acceptAll_append, hall]
      exact Body.acceptAll_cons_eq_some.mpr ⟨m'', haccept', rfl⟩
  induction hl with
  | @last x hnone =>
    obtain ⟨m, hm, haccept, ⟨-, rfl, -⟩ | ⟨q, hq, -⟩⟩ := parent_cases hw hx
    · exact extend hm haccept rfl (.refl _) (by simp)
    · rw [hnone] at hq
      cases hq
  | @link x q l hsome _ ih =>
    obtain ⟨m, hm, haccept, ⟨hnone, -⟩ | ⟨q', hq', hentered, -, hcase⟩⟩ := parent_cases hw hx
    · rw [hnone] at hsome
      cases hsome
    · obtain rfl := Option.some.inj (hq'.symm.trans hsome)
      obtain ⟨hbelow, m', hall, hsame⟩ := ih hentered fun p hp => hlinks p (List.mem_cons_of_mem _ hp)
      have hstart : Same m m' := by
        rcases hcase with rfl | ⟨hmem, hfind, hinit⟩
        · exact hsame
        · have hequal := hlinks x List.mem_cons_self hmem q' m hfind hinit
          exact (balanceMapsEqual_iff_same.mp hequal).symm.trans hsame
      exact extend hm haccept hall hstart hbelow

/-- Where the blocks were validated in order, the links match. -/
theorem linksMatch_of_inOrder (hin : run.InOrder) : run.LinksMatch := by
  intro t l h p hp hhead q init hfind hinit
  have horder := hin t l h
  obtain ⟨newer, older, rfl⟩ := List.append_of_mem hp
  have hparent : run.parent p = some q := by rw [parent, if_pos hhead, hfind]
  -- the predecessor follows on the chain
  have hchain : Chain run.parent q older := h.chain.of_append.of_link hparent
  obtain ⟨older, rfl⟩ := hchain.eq_cons
  obtain ⟨m, m', hm, hall, hsame⟩ := horder newer p (q :: older) rfl
  rw [startBalances, if_pos hhead, hinit] at hm
  obtain rfl := Except.ok.inj hm
  obtain ⟨mq, mq', hmq, hallq, hsameq⟩ := horder (newer ++ [p]) q older (by simp)
  obtain ⟨mq'', hmq'', haccept, -⟩ := parent_cases h.wired (h.forall_entered q (by simp))
  obtain rfl := Except.ok.inj (hmq.symm.trans hmq'')
  obtain ⟨m'', haccept', hsame'⟩ := Body.accept_same hsameq haccept
  rw [bodies_cons, Body.acceptAll_append, hallq] at hall
  obtain ⟨m₁, h₁, hlast⟩ := Body.acceptAll_cons_eq_some.mp hall
  obtain rfl := Option.some.inj (haccept'.symm.trans h₁)
  obtain rfl := Option.some.inj hlast
  exact balanceMapsEqual_iff_same.mpr (hsame'.trans hsame.symm)

/-- What the printed line claims about the reported chain. -/
theorem Reported.justifies_iff (h : run.Reported t l) :
    run.Justifies (run.heap t).blkHash (UInt32.ofNat l.length) ↔
      l.length < 2 ^ 32 ∧ Body.Linked .zero (run.bodies l) ∧
        (Body.acceptAll c ∅ (run.bodies l)).isSome := by
  obtain ⟨f, t', l', hfinal, htip, hw, h', hhash, -⟩ := reported_of_line h.prints
  obtain ⟨rfl, rfl⟩ := h.unique h'
  have hbodies : (l.reverse.map fun y => (f.heap y).toBody) = run.bodies l :=
    List.map_congr_left fun y _ => hw.body y
  have hchain : Chain f.heap.prev t l := by
    rw [prev_eq_parent hw]
    exact h.chain
  constructor
  · rintro ⟨f', t', l', hfinal', htip', hl', hlen, -, hlinked, hall⟩
    obtain rfl := Except.ok.inj (hfinal.symm.trans hfinal')
    obtain rfl := Option.some.inj (htip.symm.trans htip')
    obtain rfl := hchain.unique hl'
    rw [hbodies] at hlinked hall
    refine ⟨?_, hlinked, hall⟩
    rw [hlen]
    exact UInt32.toNat_lt _
  · rintro ⟨hlen, hlinked, hall⟩
    refine ⟨f, t, l, hfinal, htip, hchain, ?_, congrArg Body.blkHash (hw.body t), ?_, ?_⟩
    · exact (UInt32.toNat_ofNat_of_lt' (by simp only [UInt32.size]; omega)).symm
    · rwa [hbodies]
    · rwa [hbodies]

/-- A statement about every printed line is one about the reported chain, if there is one. -/
theorem forall_line_iff {P : HashResult → UInt32 → Prop} :
    (∀ hash len, run.line = .ok (.blk hash len) → P hash len) ↔
      ∀ t l, run.Reported t l → P (run.heap t).blkHash (UInt32.ofNat l.length) := by
  constructor
  · exact fun hall t l h => hall _ _ h.prints
  · intro hall hash len hline
    obtain ⟨f, t, l, -, -, -, h, rfl, rfl⟩ := reported_of_line hline
    exact hall t l h

end Run

/-- On any file, in any run of day 4: the printed line is justified exactly if the chain fits the
printed length, none of its blocks was read as an orphan, and the blocks can be paid one after the
other. Its blocks have been validated in that order exactly if each linked head was validated on
the balances of its tail, and then they can be paid. -/
theorem readindexed_justified_iff {c : Crypto} {data : Bytes}
    (run : Run ChunkDay.four.readChunk c data) :
    ((∀ hash len, run.line = .ok (.blk hash len) → run.Justifies hash len) ↔
      run.Short ∧ run.Rooted ∧ run.Solvent) ∧
    ((∀ hash len, run.line = .ok (.blk hash len) → run.Justifies hash len ∧ run.InOrder) ↔
      run.Short ∧ run.Rooted ∧ run.LinksMatch) := by
  have hjustifies (t : Ptr) (l : List Ptr) (h : run.Reported t l) :
      run.Justifies (run.heap t).blkHash (UInt32.ofNat l.length) ↔
        l.length < 2 ^ 32 ∧ (∀ x ∈ l, ¬ run.ReadsOrphan x) ∧ Body.Solvent ∅ (run.bodies l) := by
    rw [h.justifies_iff, Run.linked_zero_iff h.wired h.chain h.entered, Body.acceptAll_isSome_iff,
      and_iff_right (Run.certified h.wired h.chain h.entered)]
  have hclaim : (∀ hash len, run.line = .ok (.blk hash len) → run.Justifies hash len) ↔
      run.Short ∧ run.Rooted ∧ run.Solvent := by
    rw [Run.forall_line_iff]
    constructor
    · intro hall
      exact ⟨fun t l h => ((hjustifies t l h).mp (hall t l h)).1,
        fun t l h => ((hjustifies t l h).mp (hall t l h)).2.1,
        fun t l h => ((hjustifies t l h).mp (hall t l h)).2.2⟩
    · rintro ⟨hshort, hrooted, hsolvent⟩ t l h
      exact (hjustifies t l h).mpr ⟨hshort t l h, hrooted t l h, hsolvent t l h⟩
  refine ⟨hclaim, ?_⟩
  constructor
  · intro hall
    obtain ⟨hshort, hrooted, -⟩ := hclaim.mp fun hash len hline => (hall hash len hline).1
    exact ⟨hshort, hrooted, Run.linksMatch_of_inOrder fun t l h => (hall _ _ h.prints).2 t l h⟩
  · rintro ⟨hshort, hrooted, hlinks⟩
    have hbelow (t : Ptr) (l : List Ptr) (h : run.Reported t l) :=
      Run.acceptAll_of_links h.wired h.chain h.entered (hlinks t l h)
    have hsolvent : run.Solvent := by
      intro t l h
      obtain ⟨-, m, hall, -⟩ := hbelow t l h
      exact (Body.acceptAll_isSome_iff.mp (by rw [hall]; rfl)).2
    exact fun hash len hline => ⟨hclaim.mpr ⟨hshort, hrooted, hsolvent⟩ hash len hline,
      fun t l h => (hbelow t l h).1⟩

/-- A chunk that one block fills is read in one turn. -/
theorem ChunkDay.Reached.of_single {day : ChunkDay} {c : Crypto} {data : Bytes} {k : Nat}
    {off chunkStart mapStart : UInt64} {init : BalanceMap} {b : Body} {s : Cursor ChunkState}
    (h : day.Reached c data k off chunkStart mapStart init s)
    (hread : Body.read (data.drop chunkStart.toNat) (mapStart - chunkStart).toNat =
      .ok (some ((mapStart - chunkStart).toNat, b))) : s.state.i = 0 ∨ s.bytesLeft = 0 := by
  have hcases : s = ⟨data.drop chunkStart.toNat, (mapStart - chunkStart).toNat, .start⟩ ∨
      s.bytesLeft = 0 := by
    refine Loop.Reaches.invariant (I := fun s => s = ⟨data.drop chunkStart.toNat,
      (mapStart - chunkStart).toNat, .start⟩ ∨ s.bytesLeft = 0) h (.inl rfl) ?_
    rintro a a' - ha hturn
    obtain ⟨n, b', hleft, hread', -, -, hleft'⟩ := Reader.turn_iff.mp hturn
    rcases ha with rfl | hzero
    · rw [hread] at hread'
      obtain ⟨rfl, rfl⟩ := Prod.mk.inj (Option.some.inj (Except.ok.inj hread'))
      exact .inr (by rw [hleft']; exact Nat.sub_self _)
    · exact absurd hzero hleft
  exact hcases.imp_left fun hs => by rw [hs]; rfl

theorem two_chunks_justified :
    twoChunksRun.Justifies (.ofNat 2) 2 ∧ twoChunksRun.InOrder := by
  have hshort : twoChunksRun.Short := by
    intro t l h
    have hle := Run.length_le_blocks h.wired h.chain h.entered
    have hblocks : twoChunksRun.blocks = 2 := by decide +kernel
    omega
  have hlinks : twoChunksRun.LinksMatch := by
    have hheads : twoChunksRun.shared.heads = [⟨1, 1⟩] := by decide +kernel
    have hfind : twoChunksRun.shared.tails.find? (twoChunksRun.heap ⟨1, 1⟩).prevHash =
        some ⟨0, 1⟩ := by decide +kernel
    have hequal : (readInitBal (indexedFile twoChunks) (twoChunksHeader.prevMapOff 1)).toOption.all
        (balanceMapsEqual (twoChunksRun.heap ⟨0, 1⟩).balances) = true := by decide +kernel
    intro t l _ p _ hp q init hq hinit
    obtain rfl : p = ⟨1, 1⟩ := by simpa [hheads] using hp
    obtain rfl : ⟨0, 1⟩ = q := Option.some.inj (hfind.symm.trans hq)
    have hinit : readInitBal (indexedFile twoChunks) (twoChunksHeader.prevMapOff 1) = .ok init := hinit
    simp only [hinit, Except.toOption, Option.all_some] at hequal
    exact hequal
  have hrooted : twoChunksRun.Rooted := by
    rintro t l h x hx ⟨init, s, -, hs, hi, -, n, b', hread', -⟩
    obtain ⟨r, hr, -⟩ := h.forall_entered x hx
    have hread : ∃ b, Body.read
        ((indexedFile twoChunks).drop (twoChunksHeader.chunkOff.getD x.thread 0).toNat)
        (twoChunksHeader.mapOff.getD x.thread 0 - twoChunksHeader.chunkOff.getD x.thread 0).toNat =
          .ok (some ((twoChunksHeader.mapOff.getD x.thread 0 -
            twoChunksHeader.chunkOff.getD x.thread 0).toNat, b)) := by
      have hk : x.thread < 2 := (Run.thread hr).1
      obtain hk | hk : x.thread = 0 ∨ x.thread = 1 := by omega
      · rw [hk]
        exact ⟨firstBlock, by decide +kernel⟩
      · rw [hk]
        exact ⟨secondBlock, by decide +kernel⟩
    obtain ⟨b, hread⟩ := hread
    have hdone : s.bytesLeft = 0 := (hs.of_single hread).resolve_left hi
    have hcons := Body.read_consumes hread'
    omega
  exact (readindexed_justified_iff twoChunksRun).2.mpr ⟨hshort, hrooted, hlinks⟩ _ _
    (by decide +kernel)

/-- A coinbase, and behind it in the same chunk a block without transactions that
names a predecessor which is nowhere. -/
def orphanFile : Bytes :=
  indexedFile [⟨[firstBlock, emptyBlock (.ofNat 1) 7], BalanceMap.credit ∅ (.ofNat 1) 100⟩]

def orphanRun : Run ChunkDay.four.readChunk .toy orphanFile :=
  Run.inOrder ⟨28, 1, [28], [228], [44]⟩ (by decide +kernel) (by decide) (by decide +kernel)

/-- The orphan is the tip, a chain of one block that no coinbase supports. -/
theorem readindexed_reports_orphan : ¬ ∀ (c : Crypto) (data : Bytes)
    (run : Run ChunkDay.four.readChunk c data) (hash : HashResult) (len : UInt32),
    run.line = .ok (.blk hash len) → run.Justifies hash len := by
  intro h
  have hline : orphanRun.line = .ok (.blk (.ofNat 8) 1) := by decide +kernel
  have hroot : (orphanRun.final.toOption.bind fun f => f.tip.map fun t => (f.heap t).prevHash) =
      some (.ofNat 7) := by
    decide +kernel
  obtain ⟨f, t, l, hfinal, htip, hl, hlen, -, hlinked, -⟩ := h _ _ orphanRun _ _ hline
  obtain ⟨x, rfl⟩ : ∃ x, l = [x] := List.length_eq_one_iff.mp hlen
  obtain rfl : t = x := by
    cases hl with
    | last => rfl
    | link _ hl => exact absurd rfl hl.ne_nil
  rw [hfinal] at hroot
  have hprev : (f.heap t).prevHash = .ofNat 7 := by simpa [Except.toOption, htip] using hroot
  have hzero : (f.heap t).prevHash = .zero := hlinked.1
  rw [hprev] at hzero
  exact absurd hzero (by decide)

end Bootcamp
