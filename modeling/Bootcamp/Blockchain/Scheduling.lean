import Bootcamp.Blockchain.Parallel

/-! Two runs over one file. The file decides what the threads do; the schedule
and the orders of iteration are left open. Every run finds the same heads and the
same hashes among the tails, but not always the same block behind a hash. -/
namespace Bootcamp

open Chains (Chain)

namespace Run

variable {day : ChunkDay} {c : Crypto} {data : Bytes} {run : Run day.readChunk c data}

/-! ## What does not depend on the schedule -/

theorem find_ne_none {h : HashResult} :
    run.shared.tails.find? h ≠ none ↔ ∃ p, .setTail h p ∈ run.schedule.flatten := by
  constructor
  · intro hne
    obtain ⟨p, hp⟩ := Option.ne_none_iff_exists'.mp hne
    exact ⟨p, (Shared.op_of_find hp).resolve_right (by simp [Shared.start])⟩
  · exact fun hop => Shared.find_of_op (.inl hop)

section

variable (run₁ run₂ : Run day.readChunk c data)

theorem header_congr : run₁.header = run₂.header :=
  extractHeader_unique run₁.extracted run₂.extracted

theorem results_congr : run₁.results = run₂.results := by
  have hjoined := run₁.joined
  rw [header_congr run₁ run₂, run₂.joined] at hjoined
  have hinj : Function.Injective (Except.ok : ChunkResult → Except Abort ChunkResult) :=
    fun _ _ => Except.ok.inj
  exact (List.map_injective_iff.mpr hinj hjoined).symm

theorem heap_congr : run₁.heap = run₂.heap := by
  rw [heap, heap, results_congr run₁ run₂]

theorem mem_ops_congr {op : SharedOp} :
    op ∈ run₁.schedule.flatten ↔ op ∈ run₂.schedule.flatten := by
  rw [mem_ops, mem_ops, results_congr run₁ run₂]

theorem mem_headOrder_congr {p : Ptr} : p ∈ run₁.headOrder ↔ p ∈ run₂.headOrder := by
  rw [mem_headOrder, mem_headOrder, shared, shared, Shared.mem_heads, Shared.mem_heads,
    mem_ops_congr run₁ run₂]

theorem entered_congr {x : Ptr} : run₁.Entered x ↔ run₂.Entered x := by
  rw [Entered, Entered, results_congr run₁ run₂]

theorem find_ne_none_congr {h : HashResult} :
    run₁.shared.tails.find? h ≠ none ↔ run₂.shared.tails.find? h ≠ none := by
  simp only [find_ne_none, mem_ops_congr run₁ run₂]

/-- The heads find their tails in each run or in none. -/
theorem found_congr :
    (∀ p ∈ run₁.headOrder, run₁.shared.tails.find? (run₁.heap p).prevHash ≠ none) ↔
      ∀ p ∈ run₂.headOrder, run₂.shared.tails.find? (run₂.heap p).prevHash ≠ none := by
  simp only [mem_headOrder_congr run₁ run₂, find_ne_none_congr run₁ run₂, heap_congr run₁ run₂]

end

variable {run₁ run₂ : Run day.readChunk c data} {f₁ f₂ : Final} {heap₁ heap₂ : Heap}

theorem exists_tail {h : HashResult} {p : Ptr} (hf : run₁.shared.tails.find? h = some p) :
    ∃ q, run₂.shared.tails.find? h = some q := by
  apply Option.ne_none_iff_exists'.mp
  apply (find_ne_none_congr run₁ run₂).mp
  rw [hf]
  exact Option.some_ne_none p

theorem valid_congr (h₁ : run₁.final = .ok f₁) (h₂ : run₂.final = .ok f₂) :
    f₁.valid = f₂.valid := by
  rw [Bool.eq_iff_iff, (finish_spec h₁).1, (finish_spec h₂).1, found_congr run₁ run₂]

/-! ## The verdict -/

/-- Fewer than 2^32 blocks: there is a tip as soon as there is a tail. -/
theorem tip_eq_none (hf : run₁.Finished f₁) (hn : run₁.blocks < 2 ^ 32) :
    f₁.tip = none ↔ ∀ h, run₁.shared.tails.find? h = none := by
  rw [hf.none]
  constructor
  · intro hzero h
    by_contra hne
    obtain ⟨p, hp⟩ := Option.ne_none_iff_exists'.mp hne
    have hmem := mem_ends.mpr ⟨h, hp⟩
    obtain ⟨l, hl, hlen⟩ := hf.counted p hmem
    have hle := (chain_subperm hf.linked hl (entered_of_find hp).1).length_le
    have hle' := run₁.length_accepted_le
    have hpos := List.length_pos_iff.mpr hl.ne_nil
    have heq := congrArg UInt32.toNat (hlen.symm.trans (hzero p hmem))
    rw [UInt32.toNat_ofNat_of_lt' (by simp only [UInt32.size]; omega), UInt32.toNat_zero] at heq
    omega
  · intro hnone x hx
    obtain ⟨h, hp⟩ := mem_ends.mp hx
    rw [hnone h] at hp
    cases hp

theorem line_eq_invalid (h : run.final = .ok f₁) :
    run.line = .ok .invalid ↔ (f₁.valid = true → f₁.tip = none) := by
  rw [line, h, Except.ok_bind, Except.pure_eq_ok, Final.line]
  cases f₁.valid <;> cases f₁.tip <;> simp

/-- Whatever is open, two runs that print agree whether the file is valid. -/
theorem invalid_congr (hn : run₁.blocks < 2 ^ 32) {l₁ l₂ : Line} (h₁ : run₁.line = .ok l₁)
    (h₂ : run₂.line = .ok l₂) : l₁ = .invalid ↔ l₂ = .invalid := by
  obtain ⟨f₁, hf₁, -⟩ := Except.bind_eq_ok.mp h₁
  obtain ⟨f₂, hf₂, -⟩ := Except.bind_eq_ok.mp h₂
  have hn₂ : run₂.blocks < 2 ^ 32 := by rwa [blocks, ← results_congr run₁ run₂]
  have hiff₁ := line_eq_invalid hf₁
  have hiff₂ := line_eq_invalid hf₂
  rw [h₁, Except.ok.injEq] at hiff₁
  rw [h₂, Except.ok.injEq] at hiff₂
  rw [hiff₁, hiff₂, ← valid_congr hf₁ hf₂]
  apply forall_congr'
  intro hvalid
  have hfin₁ := finished_of_valid hf₁ hvalid
  have hfin₂ := finished_of_valid hf₂ ((valid_congr hf₁ hf₂).symm.trans hvalid)
  rw [tip_eq_none hfin₁ hn, tip_eq_none hfin₂ hn₂]
  apply forall_congr'
  intro h
  exact not_iff_not.mp (find_ne_none_congr run₁ run₂)

/-! ## Coming to the end -/

/-- The hashes of the accepted blocks do not lead in a circle. -/
def Acyclic (run : Run day.readChunk c data) : Prop :=
  ∃ rank : HashResult → Nat, ∀ x, run.Entered x → (run.heap x).prevHash ≠ .zero →
    rank (run.heap x).prevHash < rank (run.heap x).blkHash

/-- The heap after the linking, however far that came. -/
def linkedHeap (run : Run day.readChunk c data) : Heap :=
  (linkHeads run.shared.tails run.headOrder run.heap).2

theorem Entered.serial_pos {x : Ptr} (hx : run.Entered x) : 0 < x.serial := by
  obtain ⟨r, hr, hacc, -⟩ := hx
  obtain ⟨init, final, -, -, hs, -⟩ := sound hr
  exact (hs.inv.own x hacc).2.1

theorem isHead_of_mem {p : Ptr} (hp : p ∈ run.headOrder) :
    p.serial = 1 ∧ (run.heap p).prevHash ≠ .zero := by
  obtain ⟨r, hr, -, hser, hz⟩ := head_of_mem (mem_headOrder.mp hp)
  rw [heap_eq hr]
  exact ⟨hser, hz⟩

theorem linkedHeap_fake {x : Ptr} (hx : x.serial = 0) : run.linkedHeap.prev x = none := by
  rcases (linkHeads_prev run.shared.tails run.headOrder run.heap x).2 with hprev | ⟨hmem, -⟩
  · apply hprev.trans
    cases hr : run.results[x.thread]? with
    | none => simp [Heap.prev, heap, joinHeaps, hr, Block.new]
    | some r =>
      obtain ⟨init, final, -, -, hs, -⟩ := sound hr
      rw [Heap.prev, heap_eq hr]
      exact hs.inv.grounded x hx
  · have := (isHead_of_mem hmem).1
    omega

/-- A block points to one that was made up or to one with the hash it names. -/
theorem linkedHeap_prev {x q : Ptr} (hx : run.Entered x) (hq : run.linkedHeap.prev x = some q) :
    q.serial = 0 ∨ (run.Entered q ∧ (run.heap x).prevHash ≠ .zero ∧
      (run.heap q).blkHash = (run.heap x).prevHash) := by
  rcases (linkHeads_prev run.shared.tails run.headOrder run.heap x).2 with
    hprev | ⟨hmem, q', hfind, hprev⟩
  · obtain ⟨r, hr, hacc, hreg⟩ := hx
    obtain ⟨init, final, -, -, hs, -⟩ := sound hr
    obtain ⟨m, hsource, -⟩ := hs.inv.checked x hacc
    have hold : r.state.heap.prev x = some q := by
      rw [Heap.prev, ← heap_eq hr]
      exact hprev.symm.trans hq
    cases hsource with
    | coinbase _ hnone => cases hnone.symm.trans hold
    | head _ _ hfake => exact .inl (hfake q hold)
    | orphan _ _ hnone => cases hnone.symm.trans hold
    | @link q' _ hz hsome hq' _ hhash =>
      obtain rfl := Option.some.inj (hold.symm.trans hsome)
      have hrq : run.results[q.thread]? = some r := by rwa [(hs.inv.own q hq').1]
      rw [heap_eq hr, heap_eq hrq]
      exact .inr ⟨⟨r, hrq, hq', hreg⟩, hz, hhash⟩
  · obtain rfl := Option.some.inj (hq.symm.trans hprev)
    obtain ⟨hentered, hhash⟩ := entered_of_find hfind
    exact .inr ⟨hentered, (isHead_of_mem hmem).2, hhash⟩

theorem linkedHeap_chain (hacyclic : run.Acyclic) {x : Ptr} (hx : run.Entered x) :
    ∃ l, Chain run.linkedHeap.prev x l := by
  obtain ⟨rank, hrank⟩ := hacyclic
  let height (y : Ptr) : Nat := if y.serial = 0 then 0 else rank (run.heap y).blkHash + 1
  have hdown : ∀ y q, run.Entered y ∨ y.serial = 0 → run.linkedHeap.prev y = some q →
      (run.Entered q ∨ q.serial = 0) ∧ height q < height y := by
    rintro y q (hy | hy) hq
    · have hheight : height y = rank (run.heap y).blkHash + 1 := if_neg hy.serial_pos.ne'
      rcases linkedHeap_prev hy hq with hzero | ⟨hentered, hz, hhash⟩
      · have hheight' : height q = 0 := if_pos hzero
        exact ⟨.inr hzero, by omega⟩
      · have hheight' : height q = rank (run.heap q).blkHash + 1 := if_neg hentered.serial_pos.ne'
        have := hrank y hy hz
        rw [← hhash] at this
        exact ⟨.inl hentered, by omega⟩
    · rw [linkedHeap_fake hy] at hq
      cases hq
  obtain ⟨l, hl, -⟩ := Chains.exists_chain height hdown (.inl hx)
  exact ⟨l, hl⟩

/-- At most the last block of a chain is made up. -/
theorem linkedHeap_entered {x : Ptr} {l : List Ptr} (hl : Chain run.linkedHeap.prev x l)
    (hx : run.Entered x) :
    ∃ l' : List Ptr, l'.Sublist l ∧ l.length ≤ l'.length + 1 ∧ ∀ y ∈ l', run.Entered y := by
  induction hl with
  | @last x => exact ⟨[x], .refl _, Nat.le_succ _, by simpa using hx⟩
  | @link x q l hq hl ih =>
    rcases linkedHeap_prev hx hq with hzero | ⟨hentered, -⟩
    · obtain rfl := hl.unique (.last (linkedHeap_fake hzero))
      exact ⟨[x], by simp, by simp, by simpa using hx⟩
    · obtain ⟨l', hsub, hlen, hall⟩ := ih hentered
      exact ⟨x :: l', hsub.cons_cons x, by simpa using hlen, List.forall_mem_cons.mpr ⟨hx, hall⟩⟩

/-- Without a circle every run prints a line. -/
theorem Acyclic.prints (hacyclic : run.Acyclic) : ∃ l, run.line = .ok l := by
  have hblocks := run.length_accepted_le
  have hobjects := run.blocks_lt_objects
  obtain ⟨f, hf⟩ : ∃ f, run.final = .ok f := by
    apply finish_returns
    rintro ⟨h, p⟩ he
    have hfind := OrderedMap.find_eq_some.mpr (run.tailPerm.mem_iff.mp he)
    have hp := (entered_of_find hfind).1
    obtain ⟨l, hl⟩ := linkedHeap_chain hacyclic hp
    obtain ⟨l', hsub, hlen, hall⟩ := linkedHeap_entered hl hp
    have hle := ((hl.nodup.sublist hsub).subperm fun y hy => (hall y hy).mem).length_le
    exact ⟨l, hl, by omega⟩
  exact ⟨f.line, by rw [line, hf]; rfl⟩

theorem acyclic_congr : run₁.Acyclic ↔ run₂.Acyclic := by
  simp only [Acyclic, entered_congr run₁ run₂, heap_congr run₁ run₂]

/-! ## The length -/

/-- No two threads register a tail under one hash. -/
def TailsDistinct (run : Run day.readChunk c data) : Prop :=
  ∀ h p q, .setTail h p ∈ run.schedule.flatten → .setTail h q ∈ run.schedule.flatten → p = q

/-- Accepted blocks of one hash name one predecessor. -/
def CollisionFree (run : Run day.readChunk c data) : Prop :=
  ∀ x y, run.Entered x → run.Entered y → (run.heap x).blkHash = (run.heap y).blkHash →
    (run.heap x).prevHash = (run.heap y).prevHash

/-- Behind each hash among the tails, both runs have chains of one length. -/
def Aligned (run₁ run₂ : Run day.readChunk c data) (heap₁ heap₂ : Heap) : Prop :=
  ∀ h p q l, run₁.shared.tails.find? h = some p → run₂.shared.tails.find? h = some q →
    Chain heap₁.prev p l → ∃ l', Chain heap₂.prev q l' ∧ l'.length = l.length

theorem TailsDistinct.find_eq (hd : run₁.TailsDistinct) {h : HashResult} {p q : Ptr}
    (hp : run₁.shared.tails.find? h = some p) (hq : run₂.shared.tails.find? h = some q) : p = q := by
  apply hd h
  · exact (Shared.op_of_find hp).resolve_right (by simp [Shared.start])
  · rw [mem_ops_congr run₁ run₂]
    exact (Shared.op_of_find hq).resolve_right (by simp [Shared.start])

/-- With distinct tails the linking has the same result. -/
theorem TailsDistinct.prev_eq (hd : run₁.TailsDistinct) (hw₁ : run₁.Wired heap₁)
    (hw₂ : run₂.Wired heap₂) (x : Ptr) : heap₁.prev x = heap₂.prev x := by
  have hheap := heap_congr run₁ run₂
  by_cases hx : x ∈ run₁.headOrder
  · have hx₂ := (mem_headOrder_congr run₁ run₂).mp hx
    obtain ⟨p, hp⟩ := Option.ne_none_iff_exists'.mp (hw₁.found x hx)
    obtain ⟨q, hq⟩ := exists_tail hp
    rw [hw₁.head x hx, hw₂.head x hx₂, ← hheap, hp, hq, hd.find_eq hp hq]
  · have hx₂ := fun h => hx ((mem_headOrder_congr run₁ run₂).mpr h)
    rw [hw₁.other x hx, hw₂.other x hx₂, hheap]

theorem TailsDistinct.aligned (hd : run₁.TailsDistinct) (hw₁ : run₁.Wired heap₁)
    (hw₂ : run₂.Wired heap₂) : Aligned run₁ run₂ heap₁ heap₂ := by
  intro h p q l hp hq hl
  obtain rfl := hd.find_eq hp hq
  exact ⟨l, hl.congr fun x _ => (hd.prev_eq hw₁ hw₂ x).symm, rfl⟩

theorem noOrphans_congr : run₁.NoOrphans ↔ run₂.NoOrphans := by
  rw [NoOrphans, NoOrphans, header_congr run₁ run₂]

/-- Without orphans the hashes alone say how a chain goes on. -/
theorem prev_of_noOrphans (hno : run₁.NoOrphans) (hw : run₁.Wired heap₁) {x : Ptr}
    (hx : run₁.Entered x) : (heap₁.prev x = none ∧ (run₁.heap x).prevHash = .zero) ∨
      ((run₁.heap x).prevHash ≠ .zero ∧ ∃ q, heap₁.prev x = some q ∧ run₁.Entered q ∧
        (run₁.heap q).blkHash = (run₁.heap x).prevHash) := by
  obtain ⟨init, hinit⟩ := exists_init hx
  obtain ⟨m, -, ⟨hnone, -, hnone', hroot⟩ | ⟨hz, q, hq, hentered, hhash, -⟩⟩ := prev_cases hw hx hinit
  · exact .inl ⟨hnone, root_of_noOrphans hno hx hnone' hroot⟩
  · exact .inr ⟨hz, q, hq, hentered, hhash⟩

theorem CollisionFree.chain (hc : run₁.CollisionFree) (hno : run₁.NoOrphans)
    (hw₁ : run₁.Wired heap₁) (hw₂ : run₂.Wired heap₂) {x : Ptr} {l : List Ptr}
    (hl : Chain heap₁.prev x l) (hx : run₁.Entered x) {y : Ptr} (hy : run₂.Entered y)
    (hhash : (run₁.heap x).blkHash = (run₂.heap y).blkHash) :
    ∃ l', Chain heap₂.prev y l' ∧ l'.length = l.length := by
  have hno₂ : run₂.NoOrphans := noOrphans_congr.mp hno
  have hheap := heap_congr run₁ run₂
  induction hl generalizing y with
  | @last x hnone =>
    have hprev := hc x y hx ((entered_congr run₁ run₂).mpr hy) (by rw [hhash, hheap])
    rcases prev_of_noOrphans hno hw₁ hx with ⟨-, hz⟩ | ⟨-, q, hq, -⟩
    · rcases prev_of_noOrphans hno₂ hw₂ hy with ⟨hnone', -⟩ | ⟨hz', -⟩
      · exact ⟨[y], .last hnone', rfl⟩
      · rw [← hheap, ← hprev, hz] at hz'
        exact absurd rfl hz'
    · rw [hnone] at hq
      cases hq
  | @link x q l hsome _ ih =>
    have hprev := hc x y hx ((entered_congr run₁ run₂).mpr hy) (by rw [hhash, hheap])
    rcases prev_of_noOrphans hno hw₁ hx with ⟨hnone, -⟩ | ⟨hz, q', hq', hentered, hq⟩
    · rw [hnone] at hsome
      cases hsome
    · obtain rfl := Option.some.inj (hq'.symm.trans hsome)
      rcases prev_of_noOrphans hno₂ hw₂ hy with ⟨-, hz'⟩ | ⟨-, p, hp, hentered', hp'⟩
      · rw [hprev, hheap] at hz
        exact absurd hz' hz
      · obtain ⟨l', hl', hlen⟩ := ih hentered hentered' (by rw [hq, hp', hprev, hheap])
        exact ⟨y :: l', .link hp hl', by rw [List.length_cons, List.length_cons, hlen]⟩

theorem CollisionFree.aligned (hc : run₁.CollisionFree) (hno : run₁.NoOrphans)
    (hw₁ : run₁.Wired heap₁) (hw₂ : run₂.Wired heap₂) : Aligned run₁ run₂ heap₁ heap₂ := by
  intro h p q l hp hq hl
  obtain ⟨hx, hxhash⟩ := entered_of_find hp
  obtain ⟨hy, hyhash⟩ := entered_of_find hq
  exact hc.chain hno hw₁ hw₂ hl hx hy (hxhash.trans hyhash.symm)

/-- If one run is through and its chains are those of the other, the other gets through. -/
theorem Aligned.returns (h₁ : run₁.final = .ok f₁) (hvalid : f₁.valid = true)
    (ha : ∀ heap₂, run₂.Wired heap₂ → Aligned run₁ run₂ f₁.heap heap₂) :
    ∃ f₂, run₂.final = .ok f₂ ∧ f₂.valid = true := by
  have hf₁ := finished_of_valid h₁ hvalid
  have hw₂ := linkHeads_linked (linkHeads_iff.mpr ((found_congr run₁ run₂).mp hf₁.linked.found))
  have hblocks := run₁.length_accepted_le
  have hobjects := run₁.blocks_lt_objects
  have hsame : run₁.objects = run₂.objects := by
    rw [objects, objects, results_congr run₁ run₂]
  obtain ⟨f₂, h₂⟩ : ∃ f₂, run₂.final = .ok f₂ := by
    apply finish_returns
    rintro ⟨h, q⟩ he
    have hq := OrderedMap.find_eq_some.mpr (run₂.tailPerm.mem_iff.mp he)
    obtain ⟨p, hp⟩ := exists_tail hq
    obtain ⟨l, hl, -⟩ := hf₁.counted p (mem_ends.mpr ⟨h, hp⟩)
    obtain ⟨l', hl', hlen⟩ := ha _ hw₂ h p q l hp hq hl
    have hle := (chain_subperm hf₁.linked hl (entered_of_find hp).1).length_le
    exact ⟨l', hl', by omega⟩
  exact ⟨f₂, h₂, (valid_congr h₁ h₂).symm.trans hvalid⟩

theorem Aligned.length_eq (ha : Aligned run₁ run₂ f₁.heap f₂.heap) (hf₁ : run₁.Finished f₁)
    (hf₂ : run₂.Finished f₂) {h : HashResult} {p q : Ptr}
    (hp : run₁.shared.tails.find? h = some p) (hq : run₂.shared.tails.find? h = some q) :
    (f₂.heap q).length = (f₁.heap p).length := by
  obtain ⟨l, hl, hlen⟩ := hf₁.counted p (mem_ends.mpr ⟨h, hp⟩)
  obtain ⟨l₂, hl₂, hlen₂⟩ := hf₂.counted q (mem_ends.mpr ⟨h, hq⟩)
  obtain ⟨l', hl', heq⟩ := ha h p q l hp hq hl
  rw [hlen, hlen₂, hl₂.unique hl', heq]

/-- Two tails under different hashes are both as long as `len` says. -/
def Tied (run : Run day.readChunk c data) (hash hash' : HashResult) (len : UInt32) : Prop :=
  hash ≠ hash' ∧ ∃ f p p', run.final = .ok f ∧ run.shared.tails.find? hash = some p ∧
    run.shared.tails.find? hash' = some p' ∧ (f.heap p).length = len ∧ (f.heap p').length = len

/-- Then both runs print the same length, and other hashes only where tails are tied. -/
theorem Aligned.line (ha : ∀ heap₁ heap₂, run₁.Wired heap₁ → run₂.Wired heap₂ →
      Aligned run₁ run₂ heap₁ heap₂) {hash : HashResult} {len : UInt32}
    (h : run₁.line = .ok (.blk hash len)) :
    ∃ hash', run₂.line = .ok (.blk hash' len) ∧ (hash' = hash ∨ run₁.Tied hash hash' len) := by
  obtain ⟨f₁, h₁, hvalid, t₁, ht₁, hf₁, hp₁, hlen₁⟩ := tip_of_line h
  have halign := fun heap₂ => ha f₁.heap heap₂ hf₁.linked
  obtain ⟨f₂, h₂, hvalid₂⟩ := Aligned.returns h₁ hvalid halign
  have hf₂ := finished_of_valid h₂ hvalid₂
  have hlength {h : HashResult} {p q : Ptr} (hp : run₁.shared.tails.find? h = some p)
      (hq : run₂.shared.tails.find? h = some q) : (f₂.heap q).length = (f₁.heap p).length :=
    (halign _ hf₂.linked).length_eq hf₁ hf₂ hp hq
  cases ht₂ : f₂.tip with
  | none =>
    have hzero : f₁.tip = none := by
      rw [hf₁.none]
      intro x hx
      obtain ⟨h, hp⟩ := mem_ends.mp hx
      obtain ⟨q, hq⟩ := exists_tail hp
      rw [← hlength hp hq]
      exact hf₂.none.mp ht₂ q (mem_ends.mpr ⟨h, hq⟩)
    rw [hzero] at ht₁
    cases ht₁
  | some t₂ =>
    obtain ⟨hmem₂, hmax₂⟩ := hf₂.tip t₂ ht₂
    obtain ⟨hash', hp₂⟩ := mem_ends.mp hmem₂
    obtain ⟨p', hp'⟩ := exists_tail hp₂
    obtain ⟨q, hq⟩ := exists_tail hp₁
    -- each tip has its counterpart in the other run, which is no longer than that run's tip
    have hle := hmax₂ q (mem_ends.mpr ⟨hash, hq⟩)
    have hge := (hf₁.tip t₁ ht₁).2 p' (mem_ends.mpr ⟨hash', hp'⟩)
    rw [hlength hp₁ hq] at hle
    rw [← hlength hp' hp₂] at hge
    have heq : (f₂.heap t₂).length = len := by
      rw [UInt32.le_antisymm hge hle, hlen₁]
    refine ⟨hash', ?_, ?_⟩
    · rw [← heq]
      exact line_of_tip h₂ hvalid₂ ht₂ hp₂
    · by_cases hne : hash' = hash
      · exact .inl hne
      · right
        refine ⟨Ne.symm hne, f₁, t₁, p', h₁, hp₁, hp', hlen₁, ?_⟩
        rw [← hlength hp' hp₂, heq]

end Run

/-- Over one file, whatever the schedules and the orders of iteration: both runs print
unless the hashes lead in a circle, and if they do, over fewer than 2^32 blocks, they agree
whether the file is valid. Where the tails have distinct hashes, or hashes determine chains,
either both print a block or none, both with one length, and with different hashes only where
tails are tied. -/
theorem readindexed_runs_agree {c : Crypto} {data : Bytes}
    (run₁ run₂ : Run ChunkDay.four.readChunk c data) :
    (run₁.Acyclic → (∃ l₁, run₁.line = .ok l₁) ∧ ∃ l₂, run₂.line = .ok l₂) ∧
    (run₁.blocks < 2 ^ 32 → ∀ l₁ l₂, run₁.line = .ok l₁ → run₂.line = .ok l₂ →
      (l₁ = .invalid ↔ l₂ = .invalid)) ∧
    (run₁.TailsDistinct ∨ (run₁.NoOrphans ∧ run₁.CollisionFree) →
      ∀ hash len, run₁.line = .ok (.blk hash len) →
        ∃ hash', run₂.line = .ok (.blk hash' len) ∧
          (hash' = hash ∨ run₁.Tied hash hash' len)) := by
  refine ⟨?_, fun hn l₁ l₂ h₁ h₂ => Run.invalid_congr hn h₁ h₂, fun hdet hash len h => ?_⟩
  · intro hacyclic
    exact ⟨hacyclic.prints, (Run.acyclic_congr.mp hacyclic).prints⟩
  · apply Run.Aligned.line _ h
    intro heap₁ heap₂ hw₁ hw₂
    rcases hdet with hd | ⟨hno, hc⟩
    · exact hd.aligned hw₁ hw₂
    · exact hc.aligned hno hw₁ hw₂

/-- The threads take turns from the last to the first, and the tails are iterated backwards. -/
def Run.backwards {readChunk : ChunkReader} {c : Crypto} {data : Bytes}
    (run : Run readChunk c data) : Run readChunk c data :=
  { run with
    schedule := (run.results.map ChunkResult.sections).reverse.flatten
    interleaved := (Interleaving.sequential _).of_perm (List.reverse_perm _)
    headOrder := _
    headPerm := .refl _
    tailOrder := _
    tailPerm := List.reverse_perm _ }

theorem two_chunks_agree : (∃ l, twoChunksRun.backwards.line = .ok l) ∧
    twoChunksRun.backwards.line ≠ .ok .invalid ∧
    ∃ hash', twoChunksRun.backwards.line = .ok (.blk hash' 2) ∧
      (hash' = .ofNat 2 ∨ twoChunksRun.Tied (.ofNat 2) hash' 2) := by
  have hline : twoChunksRun.line = .ok (.blk (.ofNat 2) 2) := by decide +kernel
  have hacyclic : twoChunksRun.Acyclic := by
    refine ⟨fun h => LittleEndian.decode h.bytes, fun x hx => ?_⟩
    have hall : ∀ x ∈ twoChunksRun.accepted, (twoChunksRun.heap x).prevHash ≠ .zero →
        LittleEndian.decode (twoChunksRun.heap x).prevHash.bytes <
          LittleEndian.decode (twoChunksRun.heap x).blkHash.bytes := by
      decide +kernel
    exact hall x hx.mem
  have hops : twoChunksRun.schedule.flatten =
      [.setTail (.ofNat 1) ⟨0, 1⟩, .insertHead ⟨1, 1⟩, .setTail (.ofNat 2) ⟨1, 1⟩] := by
    decide +kernel
  have hne : HashResult.ofNat 1 ≠ .ofNat 2 := by decide
  have hdistinct : twoChunksRun.TailsDistinct := by
    intro h p q hp hq
    simp only [hops, List.mem_cons, SharedOp.setTail.injEq, reduceCtorEq, List.not_mem_nil,
      or_false, false_or] at hp hq
    rcases hp with ⟨rfl, rfl⟩ | ⟨rfl, rfl⟩
    · rcases hq with ⟨-, rfl⟩ | ⟨h, -⟩
      · rfl
      · exact absurd h hne
    · rcases hq with ⟨h, -⟩ | ⟨-, rfl⟩
      · exact absurd h.symm hne
      · rfl
  obtain ⟨hprints, hverdict, hblk⟩ := readindexed_runs_agree twoChunksRun twoChunksRun.backwards
  refine ⟨(hprints hacyclic).2, fun hinvalid => ?_, hblk (.inl hdistinct) _ _ hline⟩
  cases (hverdict (by decide +kernel) _ _ hline hinvalid).mpr rfl

/-! ## Ties, twins and circles -/

/-- A toy whose hash counts the first field of a block too, the reward address. -/
def Crypto.toySum : Crypto :=
  { Crypto.toy with
    sha256 := fun bs => .ofNat (LittleEndian.decode (bs.take 32) +
      LittleEndian.decode (bs.drop (bs.length - 32))) }

/-- A block without transactions that the toy accepts. -/
def sumBlock (reward prev : Nat) : Body where
  rewardAddr := .ofNat reward
  transactions := []
  prevHash := .ofNat prev
  blkHash := .ofNat (reward + prev)

/-- Two blocks behind one coinbase, each in a chunk of its own. -/
def forkChunks : List Chunk :=
  [⟨[sumBlock 1 0], emptyBalances (fun _ => .ofNat 1) 1⟩,
   ⟨[sumBlock 1 1], emptyBalances (fun _ => .ofNat 1) 2⟩,
   ⟨[sumBlock 2 1], (emptyBalances (fun _ => .ofNat 1) 2).credit (.ofNat 2) blockReward⟩]

def forkRun : Run ChunkDay.four.readChunk .toySum (indexedFile forkChunks) :=
  Run.inOrder ⟨76, 3, [76, 220, 364], [176, 320, 464], [44, 44, 84]⟩ (by decide +kernel)
    (by decide) (by decide +kernel)

/-- Two blocks, and behind an invalid one the second of them again, an orphan there. -/
def twinChunks : List Chunk :=
  [⟨[sumBlock 1 0, sumBlock 1 1], emptyBalances (fun _ => .ofNat 1) 2⟩,
   ⟨[{ sumBlock 1 1 with blkHash := .zero }, sumBlock 1 1], emptyBalances (fun _ => .ofNat 1) 1⟩]

def twinRun : Run ChunkDay.four.readChunk .toySum (indexedFile twinChunks) :=
  Run.inOrder ⟨52, 2, [52, 296], [252, 496], [44, 44]⟩ (by decide +kernel) (by decide)
    (by decide +kernel)

/-- A block that names itself, and one that names nothing in the file. -/
def circleChunks : List Chunk :=
  [⟨[sumBlock 0 5], emptyBalances .ofNat 1⟩,
   ⟨[sumBlock 1 7], emptyBalances .ofNat 2⟩]

def circleRun : Run ChunkDay.four.readChunk .toySum (indexedFile circleChunks) :=
  Run.inOrder ⟨52, 2, [52, 196], [152, 296], [44, 84]⟩ (by decide +kernel) (by decide)
    (by decide +kernel)

/-- The order of the tails chooses between the ends of a fork, the schedule between tails of
one hash, of which one may be an orphan, and the order of the heads may decide whether a
circle is closed before a head without a tail is found. -/
theorem readindexed_schedule_matters :
    (forkRun.line = .ok (.blk (.ofNat 2) 2) ∧ forkRun.backwards.line = .ok (.blk (.ofNat 3) 2)) ∧
    (twinRun.line = .ok (.blk (.ofNat 2) 1) ∧ twinRun.backwards.line = .ok (.blk (.ofNat 2) 2)) ∧
    (circleRun.line = .ok .invalid ∧ circleRun.backwards.line = .error .diverges) ∧
    ¬ ∀ (c : Crypto) (data : Bytes) (run₁ run₂ : Run ChunkDay.four.readChunk c data),
      run₁.line = run₂.line := by
  have hfork : forkRun.line = .ok (.blk (.ofNat 2) 2) := by decide +kernel
  have hback : forkRun.backwards.line = .ok (.blk (.ofNat 3) 2) := by decide +kernel
  refine ⟨⟨hfork, hback⟩, ⟨by decide +kernel, by decide +kernel⟩,
    ⟨by decide +kernel, by decide +kernel⟩, fun h => ?_⟩
  have hsame := h _ _ forkRun forkRun.backwards
  rw [hfork, hback] at hsame
  exact absurd hsame (by decide)

end Bootcamp
