import Bootcamp.Lib.LostUpdates
import Bootcamp.Lib.Mutex
import Mathlib.Algebra.Order.Ring.Int
import Mathlib.Data.List.Perm.Basic
import Mathlib.Data.Nat.Cast.Basic

/-! An account that several threads use, under a lock and without one. -/
namespace Bootcamp.Accounts

/-- How `main` ends before it creates a thread. -/
inductive Fault where
  | exit
  | assertion
  | divideByZero
  deriving DecidableEq

/-- What `main` has made of its arguments: the transactions of each thread, and its own. -/
structure Plan where
  numThreads : Nat
  numTransactions : Nat
  residue : Nat
  deriving DecidableEq

/-- `main` up to the threads, with the numbers that `atoi` and `atoll` return. `even` is the
test of the programs in which every second thread withdraws. What is left over is taken from
the quotient. -/
def plan (even : Bool) (numThreads : UInt32) (numTransactions : Int) : Except Fault Plan :=
  if 32 < numThreads ∨ (even = true ∧ numThreads % 2 ≠ 0) then .error .exit
  else if ¬ (numThreads.toNat : Int) < numTransactions then .error .assertion
  else if numThreads = 0 then .error .divideByZero
  else
    let numTransactions := numTransactions.toNat / numThreads.toNat
    .ok { numThreads := numThreads.toNat, numTransactions,
          residue := numTransactions % numThreads.toNat }

/-- A value of the type `long`, which a balance is. -/
def InLong (x : Int) : Prop := -9223372036854775808 ≤ x ∧ x ≤ 9223372036854775807

/-- How many deposits the plan has, and as many withdrawals where there are any. -/
def Plan.deposits (p : Plan) : Nat := p.numThreads / 2 * p.numTransactions + p.residue

theorem plan_eq_ok {even : Bool} {numThreads : UInt32} {n : Int} {p : Plan}
    (h : plan even numThreads n = .ok p) : 0 < p.numThreads ∧ (even = true → p.numThreads % 2 = 0) ∧
      0 < p.numTransactions ∧ p.residue = p.numTransactions % p.numThreads := by
  unfold plan at h
  split_ifs at h with hexit hassert hzero
  obtain rfl := Except.ok.inj h
  have hpos : 0 < numThreads.toNat := Nat.pos_of_ne_zero fun heq => hzero (UInt32.toNat_inj.mp heq)
  refine ⟨hpos, fun heven => ?_, Nat.div_pos (by omega) hpos, rfl⟩
  have hmod : numThreads % 2 = 0 := by
    by_contra hodd
    exact hexit (.inr ⟨heven, hodd⟩)
  exact congrArg UInt32.toNat hmod

/-! ## Under the lock -/

inductive Op where
  | deposit
  | withdraw
  deriving DecidableEq

/-- What happens between `lock` and `unlock` in thread `i`, one access after the other. -/
inductive Access where
  | load (i : Nat)
  | store (i : Nat) (op : Op)
  deriving DecidableEq

/-- Beside the balance the register of each thread, and how often `random` was called. -/
structure Account where
  balance : Int
  register : Nat → Int
  drawn : Nat

def Op.amount (random : Nat → Nat) (k : Nat) : Op → Int
  | deposit => 100 + random k % 100
  | withdraw => -(random k % 100)

def Account.apply (random : Nat → Nat) (a : Account) : Access → Account
  | .load i => { a with register := fun j => if j = i then a.balance else a.register j }
  | .store i op =>
    { a with balance := a.register i + op.amount random a.drawn, drawn := a.drawn + 1 }

def transaction (i : Nat) (op : Op) : List Access := [.load i, .store i op]

/-- `do_deposit` and `do_withdraw` of thread `i`. -/
def doTransactions (p : Plan) (i : Nat) (op : Op) : List (List Access) :=
  List.replicate p.numTransactions (transaction i op)

/-- The threads in the order in which `main` creates them, and `main` itself behind them. -/
def programs (p : Plan) : List (List (List Access)) :=
  ((List.range p.numThreads).map fun ctr =>
    doTransactions p ctr (if ctr % 2 = 0 then .deposit else .withdraw)) ++
  [List.replicate p.residue (transaction p.numThreads .deposit) ++
    List.replicate p.residue (transaction p.numThreads .withdraw)]

/-- The same as pairs of a thread and what it does. -/
def planned (p : Plan) : List (List (Nat × Op)) :=
  ((List.range p.numThreads).map fun ctr =>
    List.replicate p.numTransactions (ctr, if ctr % 2 = 0 then .deposit else .withdraw)) ++
  [List.replicate p.residue (p.numThreads, .deposit) ++
    List.replicate p.residue (p.numThreads, .withdraw)]

def start (p : Plan) : Mutex.State Account Access := .start ⟨0, fun _ => 0, 0⟩ (programs p)

/-- The amounts of transactions one after the other, from call `k` of `random` on. -/
def total (random : Nat → Nat) : Nat → List Op → Int
  | _, [] => 0
  | k, op :: ops => op.amount random k + total random (k + 1) ops

section

variable {random : Nat → Nat} {p : Plan} {k : Nat}

theorem total_bounds (ops : List Op) : 100 * (ops.count .deposit : Int) - 99 * ops.count .withdraw ≤
      total random k ops ∧ total random k ops ≤ 199 * ops.count .deposit := by
  induction ops generalizing k with
  | nil => simp [total]
  | cons op ops ih =>
    obtain ⟨hlow, hhigh⟩ := ih (k := k + 1)
    have hrandom : random k % 100 < 100 := Nat.mod_lt _ (by decide)
    cases op with
    | deposit | withdraw =>
      simp only [total, Op.amount, List.count_cons]
      simp
      omega

/-- A transaction in one piece adds its amount. -/
theorem foldl_transactions (xs : List (Nat × Op)) (a : Account) :
    ((xs.map fun x => transaction x.1 x.2).flatten.foldl (Account.apply random) a).balance =
        a.balance + total random a.drawn (xs.map Prod.snd) ∧
      ((xs.map fun x => transaction x.1 x.2).flatten.foldl (Account.apply random) a).drawn =
        a.drawn + xs.length := by
  induction xs generalizing a with
  | nil => simp [total]
  | cons x xs ih =>
    simp only [List.map_cons, List.flatten_cons, transaction, List.cons_append, List.nil_append,
      List.foldl_cons, total, List.length_cons]
    simp only [transaction] at ih
    obtain ⟨hbalance, hdrawn⟩ := ih ((a.apply random (.load x.1)).apply random (.store x.1 x.2))
    rw [hbalance, hdrawn]
    simp only [Account.apply, if_true]
    omega

theorem programs_eq (p : Plan) :
    programs p = (planned p).map (List.map fun x => transaction x.1 x.2) := by
  simp [programs, planned, doTransactions, Function.comp_def]

/-- Every second thread deposits, and the others withdraw. -/
theorem count_threads (n q : Nat) (op : Op) : (((List.range (2 * n)).flatMap fun ctr =>
    List.replicate q (if ctr % 2 = 0 then Op.deposit else .withdraw)).count op) = n * q := by
  induction n with
  | zero => simp
  | succ n ih =>
    have heven : 2 * n % 2 = 0 := by omega
    have hodd : (2 * n + 1) % 2 ≠ 0 := by omega
    rw [Nat.mul_succ, List.range_succ, List.range_succ, List.flatMap_append, List.flatMap_append,
      List.count_append, List.count_append, ih]
    simp only [List.flatMap_singleton, heven, hodd, if_true, if_false, List.count_replicate]
    rw [Nat.succ_mul]
    cases op <;> simp

/-- The plan has as many withdrawals as deposits. -/
theorem count_planned (heven : p.numThreads % 2 = 0) (op : Op) :
    ((planned p).flatten.map Prod.snd).count op = p.deposits := by
  have hthreads : p.numThreads = 2 * (p.numThreads / 2) := by omega
  have hsnd : (planned p).flatten.map Prod.snd =
      ((List.range p.numThreads).flatMap fun ctr => List.replicate p.numTransactions
        (if ctr % 2 = 0 then Op.deposit else .withdraw)) ++
      (List.replicate p.residue .deposit ++ List.replicate p.residue .withdraw) := by
    simp [planned, List.flatMap_def, List.map_flatten, Function.comp_def]
  rw [hsnd, List.count_append, hthreads, count_threads, List.count_append, List.count_replicate,
    List.count_replicate, Plan.deposits]
  cases op <;> simp

/-- Some of the planned transactions, in an order that every thread agrees with, have added
their amounts. -/
theorem exists_done {s : Mutex.State Account Access}
    (h : Mutex.Run (Account.apply random) (start p) k s) : ∃ xs rest,
      Interleaving (planned p) (xs ++ rest) ∧
        s.shared.balance = total random 0 (xs.map Prod.snd) ∧
        (s.Finished → rest = [] ∧ s.shared.drawn = xs.length) := by
  have hremaining := h.remaining _ (Interleaving.sequential _)
  rw [programs_eq] at hremaining
  obtain ⟨ys, hys, hinter⟩ := hremaining.exists_map
  obtain ⟨xs, rest, rfl, hentered, hrest⟩ := List.append_eq_map_iff.mp hys
  cases h.consistent with
  | free hfree hall hshared =>
    have hfold := @foldl_transactions random xs ⟨0, fun _ => 0, 0⟩
    rw [hentered, ← hshared] at hfold
    refine ⟨xs, rest, hinter, by simpa using hfold.1, fun hfinished => ⟨?_, by simpa using hfold.2⟩⟩
    have hnil : (s.threads.map Mutex.Thread.sections).flatten = [] := by
      rw [List.flatten_eq_nil_iff]
      intro l hl
      obtain ⟨t, ht, rfl⟩ := List.mem_map.mp hl
      exact (hfinished t ht).2
    rw [hnil] at hrest
    exact List.map_eq_nil_iff.mp hrest
  | @held before after earlier ran left secs hlocked hthreads hothers hsplit hshared =>
    have hnot (hfinished : s.Finished) : False := by
      have hmem : ⟨some left, secs⟩ ∈ s.threads := by
        rw [hthreads]
        simp
      exact nomatch (hfinished _ hmem).1
    obtain ⟨xs', last, rfl, rfl, hlast⟩ := List.map_eq_append_iff.mp (hentered.trans hsplit)
    obtain ⟨x, rfl, hx⟩ := List.map_eq_singleton_iff.mp hlast
    obtain ⟨hbalance, hdrawn⟩ := @foldl_transactions random xs' ⟨0, fun _ => 0, 0⟩
    rw [List.foldl_append] at hshared
    -- the balance changes with the last access of a transaction
    have hran : ran = [] ∨ ran = [.load x.1] ∨ ran = transaction x.1 x.2 := by
      have hprefix : ran <+: [.load x.1, .store x.1 x.2] := ⟨left, hx.symm⟩
      simp only [List.prefix_cons_iff, List.prefix_nil] at hprefix
      rcases hprefix with rfl | ⟨_, rfl, rfl | ⟨_, rfl, rfl⟩⟩
      · exact .inl rfl
      · exact .inr (.inl rfl)
      · exact .inr (.inr rfl)
    rcases hran with rfl | rfl | rfl
    · refine ⟨xs', [x] ++ rest, by simpa using hinter, ?_, fun hfinished => (hnot hfinished).elim⟩
      rw [hshared]
      simpa using hbalance
    · refine ⟨xs', [x] ++ rest, by simpa using hinter, ?_, fun hfinished => (hnot hfinished).elim⟩
      rw [hshared]
      simpa [Account.apply] using hbalance
    · obtain ⟨hbalance, -⟩ := @foldl_transactions random (xs' ++ [x]) ⟨0, fun _ => 0, 0⟩
      refine ⟨xs' ++ [x], rest, hinter, ?_, fun hfinished => (hnot hfinished).elim⟩
      rw [List.map_append, List.flatten_append, List.foldl_append] at hbalance
      rw [hshared]
      simpa using hbalance

theorem length_planned (heven : p.numThreads % 2 = 0) :
    (planned p).flatten.length = 2 * p.deposits := by
  have hcases (ops : List Op) : ops.length = ops.count .deposit + ops.count .withdraw := by
    induction ops with
    | nil => rfl
    | cons op ops ih => cases op <;> simp [ih] <;> omega
  have hsplit := hcases ((planned p).flatten.map Prod.snd)
  rw [List.length_map, count_planned heven, count_planned heven] at hsplit
  omega

/-- A transaction takes four steps. -/
theorem work_start (heven : p.numThreads % 2 = 0) : (start p).work = 8 * p.deposits := by
  have hthread (ops : List (Nat × Op)) : (Mutex.Thread.mk none
      (ops.map fun x => transaction x.1 x.2)).work = 4 * ops.length := by
    induction ops with
    | nil => rfl
    | cons x ops ih =>
      simp only [Mutex.Thread.work, transaction, List.map_cons, List.sum_cons, List.length_cons] at ih ⊢
      simp at ih ⊢
      omega
  have hthreads (ps : List (List (Nat × Op))) :
      (Mutex.State.start (⟨0, fun _ => 0, 0⟩ : Account)
        (ps.map (List.map fun x => transaction x.1 x.2))).work = 4 * ps.flatten.length := by
    induction ps with
    | nil => rfl
    | cons ops ps ih =>
      simp only [Mutex.State.work, Mutex.State.start, List.map_cons, List.sum_cons] at ih ⊢
      rw [ih, hthread, List.flatten_cons, List.length_append]
      omega
  rw [start, programs_eq, hthreads, length_planned heven]
  omega

end

/-- `lock-example.c`, for every order in which the threads come to the lock and step on, and
all numbers that `random` returns. No state has a balance far from zero, so with fewer than 2^55
deposits none overflows; somebody can go on until all threads are done, which is after a
fixed number of steps; and then the balance is what the transactions make of it one after the
other, each counted once, and at least as many units as there were deposits. -/
theorem lock_example (random : Nat → Nat) {numThreads : UInt32} {n : Int} {p : Plan}
    (h : plan true numThreads n = .ok p) :
    ∀ k s, Mutex.Run (Account.apply random) (start p) k s →
      (-99 * (p.deposits : Int) ≤ s.shared.balance ∧ s.shared.balance ≤ 199 * p.deposits) ∧
      (p.deposits < 2 ^ 55 → InLong s.shared.balance) ∧
      (¬ s.Finished → ∃ s', Mutex.Step (Account.apply random) s s') ∧
      (s.Finished ↔ k = 8 * p.deposits) ∧
      (s.Finished → s.shared.drawn = 2 * p.deposits ∧ (p.deposits : Int) ≤ s.shared.balance ∧
        ∃ xs, Interleaving (planned p) xs ∧
          s.shared.balance = total random 0 (xs.map Prod.snd)) := by
  obtain ⟨-, heven, -, -⟩ := plan_eq_ok h
  intro k s hrun
  obtain ⟨xs, rest, hinter, hbalance, hdone⟩ := exists_done hrun
  have hcount (op : Op) : (xs.map Prod.snd).count op + (rest.map Prod.snd).count op = p.deposits := by
    rw [← List.count_append, ← List.map_append,
      (hinter.perm.map Prod.snd).count_eq, count_planned (heven rfl)]
  have hdeposit := hcount .deposit
  have hwithdraw := hcount .withdraw
  obtain ⟨hlow, hhigh⟩ := @total_bounds random 0 (xs.map Prod.snd)
  have hbalances : -99 * (p.deposits : Int) ≤ s.shared.balance ∧
      s.shared.balance ≤ 199 * p.deposits := ⟨by omega, by omega⟩
  refine ⟨hbalances, fun hfit => ⟨by omega, by omega⟩, hrun.progress, ?_, fun hfinished => ?_⟩
  · rw [← work_start (heven rfl)]
    exact hrun.finished_iff
  · obtain ⟨rfl, hdrawn⟩ := hdone hfinished
    rw [List.append_nil] at hinter
    have hlength : xs.length = 2 * p.deposits := by
      rw [hinter.perm.length_eq, length_planned (heven rfl)]
    simp only [List.map_nil, List.count_nil] at hdeposit hwithdraw
    exact ⟨hdrawn.trans hlength, by omega, xs, hinter, hbalance⟩

/-- Ten transactions of four threads are twelve. -/
theorem lock_example_four :
    plan true 4 10 = .ok ⟨4, 2, 2⟩ ∧
    ∀ k s, Mutex.Run (Account.apply fun k => 37 * k) (start ⟨4, 2, 2⟩) k s →
      (-99 * ((⟨4, 2, 2⟩ : Plan).deposits : Int) ≤ s.shared.balance ∧
        s.shared.balance ≤ 199 * (⟨4, 2, 2⟩ : Plan).deposits) ∧
      ((⟨4, 2, 2⟩ : Plan).deposits < 2 ^ 55 → InLong s.shared.balance) ∧
      (¬ s.Finished → ∃ s', Mutex.Step (Account.apply fun k => 37 * k) s s') ∧
      (s.Finished ↔ k = 8 * (⟨4, 2, 2⟩ : Plan).deposits) ∧
      (s.Finished → s.shared.drawn = 2 * (⟨4, 2, 2⟩ : Plan).deposits ∧
        ((⟨4, 2, 2⟩ : Plan).deposits : Int) ≤ s.shared.balance ∧
        ∃ xs, Interleaving (planned ⟨4, 2, 2⟩) xs ∧
          s.shared.balance = total (fun k => 37 * k) 0 (xs.map Prod.snd)) :=
  ⟨by decide, lock_example _ (show plan true 4 10 = .ok ⟨4, 2, 2⟩ by decide)⟩

/-! ## Without a lock -/

/-- What a deposit can be. -/
def IsDeposit (d : Int) : Prop := 100 ≤ d ∧ d ≤ 199

/-- The deposits that the threads have to make, and `main` behind them. -/
def lefts (p : Plan) : List Nat := List.replicate p.numThreads p.numTransactions ++ [p.residue]

theorem isDeposit_pos : ∀ d, IsDeposit d → 0 < d := by
  rintro d ⟨hlow, -⟩
  omega

/-- Every store has added between 100 and 199. -/
theorem added_bounds {p : Plan} {k : Nat} {s : LostUpdates.State Int}
    (h : LostUpdates.Run IsDeposit (.start (lefts p)) k s) :
    ∃ stores : Nat, stores + (s.threads.map LostUpdates.Thread.left).sum = (lefts p).sum ∧
      100 * (stores : Int) ≤ s.added ∧ s.added ≤ 199 * stores := by
  obtain ⟨ds, hadded, hds, hlength⟩ := h.exists_amounts
  have hlow : ds.length • (100 : Int) ≤ ds.sum :=
    List.card_nsmul_le_sum ds 100 fun d hd => (hds d hd).1
  have hhigh : ds.sum ≤ ds.length • (199 : Int) :=
    List.sum_le_card_nsmul ds 199 fun d hd => (hds d hd).2
  rw [nsmul_eq_mul] at hlow hhigh
  exact ⟨ds.length, hlength, by omega, by omega⟩

/-- `thread_example.c`, for every order in which the threads load and store, and all that they
deposit. The balance is never more than what was deposited, so with fewer than 2^55 deposits none
overflows, and it is that exactly when no store has gone over another one made since its load;
some deposit is always left. Two threads are enough for one to be lost. -/
theorem thread_example {numThreads : UInt32} {n : Int} {p : Plan}
    (h : plan false numThreads n = .ok p) :
    (∀ k (s : LostUpdates.State Int), LostUpdates.Run IsDeposit (.start (lefts p)) k s →
      s.cell ≤ s.added ∧ ((lefts p).sum < 2 ^ 55 → InLong s.cell) ∧
      (s.cell = s.added ↔ s.lost = false) ∧
      (s.Finished → 100 ≤ s.cell ∧ 100 * ((lefts p).sum : Int) ≤ s.added ∧
        s.added ≤ 199 * (lefts p).sum)) ∧
    ((∃ k, ∃ s : LostUpdates.State Int, LostUpdates.Run IsDeposit (.start (lefts p)) k s ∧
      s.Finished ∧ s.cell < s.added) ↔ 1 < p.numThreads) := by
  obtain ⟨hthreads, -, hpos, hresidue⟩ := plan_eq_ok h
  constructor
  · intro k s hrun
    have hle := (hrun.accounted isDeposit_pos).cell_le
    obtain ⟨hstored, hcell, -⟩ := hrun.exists_le_cell isDeposit_pos
    obtain ⟨stores, hstores, hlow, hhigh⟩ := added_bounds hrun
    refine ⟨hle, fun hfit => ⟨by omega, by omega⟩, hrun.cell_eq_iff isDeposit_pos, fun hs => ?_⟩
    have hleft : (s.threads.map LostUpdates.Thread.left).sum = 0 := by
      apply List.sum_eq_zero
      intro m hm
      obtain ⟨t, ht, rfl⟩ := List.mem_map.mp hm
      exact hs t ht
    have hsum : 0 < (lefts p).sum := by
      have hmul := Nat.mul_pos hthreads hpos
      simp [lefts]
      omega
    rcases hstored with hstored | ⟨d, hd, hle⟩
    · omega
    · have := hd.1
      refine ⟨by omega, by omega, by omega⟩
  · constructor
    · rintro ⟨k, s, hrun, -, hless⟩
      by_contra hone
      have hlefts : lefts p = [] ++ p.numTransactions :: [0] := by
        rw [lefts, hresidue, show p.numThreads = 1 by omega, Nat.mod_one]
        rfl
      rw [hlefts] at hrun
      have hkept := hrun.kept_of_alone (by simp)
      exact hless.ne ((hrun.cell_eq_iff isDeposit_pos).mpr hkept)
    · intro htwo
      obtain ⟨m, hm⟩ : ∃ m, p.numThreads = m + 2 := ⟨p.numThreads - 2, by omega⟩
      obtain ⟨q, hq⟩ : ∃ q, p.numTransactions = q + 1 := ⟨p.numTransactions - 1, by omega⟩
      have hdeposit : IsDeposit 100 := ⟨by decide, by decide⟩
      have hwell : LostUpdates.WellFormed (.start (lefts p) : LostUpdates.State Int) :=
        fun t ht hloaded => absurd (LostUpdates.loaded_start t ht) hloaded
      have hfirst : (LostUpdates.State.start (lefts p) : LostUpdates.State Int).threads =
          [] ++ ⟨none, q + 1⟩ :: ([] ++ ⟨none, q + 1⟩ ::
            ((List.replicate m (q + 1) ++ [p.residue]).map fun left => ⟨none, left⟩)) := by
        simp [LostUpdates.State.start, lefts, hm, hq, List.replicate_succ]
      obtain ⟨k, s, hrun, hfinished, hlost⟩ :=
        LostUpdates.exists_run_lost hdeposit hwell hfirst
      exact ⟨k, s, hrun, hfinished, (hrun.accounted isDeposit_pos).missing hlost⟩

theorem thread_example_two : plan false 2 3 = .ok ⟨2, 1, 1⟩ ∧
    (∀ k (s : LostUpdates.State Int),
      LostUpdates.Run IsDeposit (.start (lefts ⟨2, 1, 1⟩)) k s →
      s.cell ≤ s.added ∧ ((lefts ⟨2, 1, 1⟩).sum < 2 ^ 55 → InLong s.cell) ∧
      (s.cell = s.added ↔ s.lost = false) ∧
      (s.Finished → 100 ≤ s.cell ∧ 100 * ((lefts ⟨2, 1, 1⟩).sum : Int) ≤ s.added ∧
        s.added ≤ 199 * (lefts ⟨2, 1, 1⟩).sum)) ∧
    ((∃ k, ∃ s : LostUpdates.State Int,
      LostUpdates.Run IsDeposit (.start (lefts ⟨2, 1, 1⟩)) k s ∧ s.Finished ∧ s.cell < s.added) ↔
        1 < (⟨2, 1, 1⟩ : Plan).numThreads) :=
  ⟨by decide, thread_example (show plan false 2 3 = .ok ⟨2, 1, 1⟩ by decide)⟩

end Bootcamp.Accounts
