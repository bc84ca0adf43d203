import Bootcamp.Lib.Races
import Bootcamp.Practice.Accounts
import Mathlib.Data.Int.Order.Basic

/-! `thread_example_2.c`: deposits and withdrawals without a lock. -/
namespace Bootcamp.Accounts

/-- What an operation adds, with some number from `random`. -/
def Op.Adds (op : Op) (d : Int) : Prop := ∃ r : Nat, d = op.amount (fun _ => r) 0

/-- The threads in the order in which `main` creates them, two in a turn of its loop, and `main`
itself behind them. -/
def unlocked (p : Plan) : List (List Op) :=
  ((List.range (p.numThreads / 2)).flatMap fun _ =>
    [List.replicate p.numTransactions .deposit, List.replicate p.numTransactions .withdraw]) ++
  [List.replicate p.residue .deposit ++ List.replicate p.residue .withdraw]

theorem adds_deposit {d : Int} : Op.deposit.Adds d ↔ 100 ≤ d ∧ d ≤ 199 := by
  constructor
  · rintro ⟨r, rfl⟩
    simp only [Op.amount]
    omega
  · rintro ⟨hlow, hhigh⟩
    exact ⟨(d - 100).toNat, by simp only [Op.amount]; omega⟩

theorem adds_withdraw {d : Int} : Op.withdraw.Adds d ↔ -99 ≤ d ∧ d ≤ 0 := by
  constructor
  · rintro ⟨r, rfl⟩
    simp only [Op.amount]
    omega
  · rintro ⟨hlow, hhigh⟩
    exact ⟨(-d).toNat, by simp only [Op.amount]; omega⟩

/-! ## Amounts -/

theorem sum_bounds {ds : List (Op × Int)} (h : ∀ x ∈ ds, x.1.Adds x.2) :
    -99 * ((ds.map Prod.fst).count .withdraw : Int) ≤ (ds.map Prod.snd).sum ∧
      (ds.map Prod.snd).sum ≤ 199 * (ds.map Prod.fst).count .deposit := by
  induction ds with
  | nil => simp
  | cons x ds ih =>
    obtain ⟨hx, hds⟩ := List.forall_mem_cons.mp h
    obtain ⟨hlow, hhigh⟩ := ih hds
    obtain ⟨op, d⟩ := x
    cases op with
    | deposit =>
      obtain ⟨hl, hh⟩ := adds_deposit.mp hx
      simp only [List.map_cons, List.sum_cons, List.count_cons]
      simp
      omega
    | withdraw =>
      obtain ⟨hl, hh⟩ := adds_withdraw.mp hx
      simp only [List.map_cons, List.sum_cons, List.count_cons]
      simp
      omega

/-- All sums between those of the smallest and the greatest amounts. -/
theorem exists_amounts (ops : List Op) {v : Int}
    (hlow : 100 * (ops.count .deposit : Int) - 99 * ops.count .withdraw ≤ v)
    (hhigh : v ≤ 199 * ops.count .deposit) :
    ∃ xs : List (Op × Int), xs.map Prod.fst = ops ∧ (∀ x ∈ xs, x.1.Adds x.2) ∧
      (xs.map Prod.snd).sum = v := by
  induction ops generalizing v with
  | nil =>
    obtain rfl : v = 0 := by simpa using le_antisymm hhigh hlow
    exact ⟨[], rfl, nofun, rfl⟩
  | cons op ops ih =>
    obtain ⟨d, hd, hl, hh⟩ : ∃ d, op.Adds d ∧
        100 * (ops.count .deposit : Int) - 99 * ops.count .withdraw ≤ v - d ∧
        v - d ≤ 199 * ops.count .deposit := by
      rw [List.count_cons, List.count_cons] at hlow
      rw [List.count_cons] at hhigh
      cases op with
      | deposit =>
        refine ⟨max 100 (v - 199 * ops.count .deposit), adds_deposit.mpr ?_, ?_⟩
        · simp at hlow hhigh
          omega
        · simp at hlow hhigh
          omega
      | withdraw =>
        refine ⟨min 0 (v - (100 * ops.count .deposit - 99 * ops.count .withdraw)),
          adds_withdraw.mpr ?_, ?_⟩
        · simp at hlow hhigh
          omega
        · simp at hlow hhigh
          omega
    obtain ⟨xs, rfl, hxs, hsum⟩ := ih hl hh
    refine ⟨(op, d) :: xs, rfl, List.forall_mem_cons.mpr ⟨hd, hxs⟩, ?_⟩
    rw [List.map_cons, List.sum_cons, hsum]
    omega

/-! ## Deposits that are lost -/

/-- Some deposits, and some withdrawals behind them. -/
def turns (t : Nat × Nat) : List Op := List.replicate t.1 .deposit ++ List.replicate t.2 .withdraw

theorem count_turns (ts : List (Nat × Nat)) :
    (ts.map turns).flatten.count .deposit = (ts.map Prod.fst).sum ∧
      (ts.map turns).flatten.count .withdraw = (ts.map Prod.snd).sum := by
  induction ts with
  | nil => exact ⟨rfl, rfl⟩
  | cons t ts ih =>
    simp only [List.map_cons, List.flatten_cons, List.count_append, ih.1, ih.2, List.sum_cons,
      turns, List.count_replicate]
    simp

/-- Any number of the deposits can be made before all withdrawals. -/
theorem run_deposits (ts : List (Nat × Nat)) {k : Nat} (hk : k ≤ (ts.map Prod.fst).sum) (c : Int) :
    ∃ (ts' : List (Nat × Nat)) (c' : Int),
      Races.Run Op.Adds ⟨Races.idle (ts.map turns), c⟩ ⟨Races.idle (ts'.map turns), c'⟩ ∧
      (ts'.map Prod.fst).sum + k = (ts.map Prod.fst).sum ∧
      (ts'.map Prod.snd).sum = (ts.map Prod.snd).sum := by
  induction ts generalizing k c with
  | nil =>
    obtain rfl : k = 0 := by simpa using hk
    exact ⟨[], c, .refl, rfl, rfl⟩
  | cons t ts ih =>
    obtain ⟨n, m⟩ := t
    rw [List.map_cons, List.sum_cons] at hk
    have hmin : min k n ≤ n := Nat.min_le_right k n
    have hadds : ∀ x ∈ List.replicate (min k n) (Op.deposit, (100 : Int)), x.1.Adds x.2 := by
      intro x hx
      rw [List.eq_of_mem_replicate hx]
      exact adds_deposit.mpr (by omega)
    have hturns : (List.replicate (min k n) (Op.deposit, (100 : Int))).map Prod.fst ++
        turns (n - min k n, m) = turns (n, m) := by
      rw [List.map_replicate, turns, ← List.append_assoc, ← List.replicate_add,
        Nat.add_sub_cancel' hmin]
      rfl
    have hone := (Races.run_alone hadds (turns (n - min k n, m)) c).frame []
      (Races.idle (ts.map turns))
    rw [hturns] at hone
    obtain ⟨ts', c', hrun, hfst, hsnd⟩ := ih (k := k - min k n) (by omega) (c + _)
    have hothers := hrun.frame (Races.idle [turns (n - min k n, m)]) []
    refine ⟨(n - min k n, m) :: ts', c', ?_, ?_, ?_⟩
    · refine Relation.ReflTransGen.trans hone ?_
      simpa [Races.idle] using hothers
    · simp only [List.map_cons, List.sum_cons]
      omega
    · simp only [List.map_cons, List.sum_cons, hsnd]

/-- A withdrawal from the empty account that is stored behind `k` deposits of other threads. -/
theorem run_lost (ts us : List (Nat × Nat)) (q : Nat) {k : Nat}
    (hk : k ≤ (ts.map Prod.fst).sum + (us.map Prod.fst).sum) :
    ∃ ts' us' : List (Nat × Nat),
      (ts'.map Prod.fst).sum + (us'.map Prod.fst).sum + k =
        (ts.map Prod.fst).sum + (us.map Prod.fst).sum ∧
      (ts'.map Prod.snd).sum + (us'.map Prod.snd).sum =
        (ts.map Prod.snd).sum + (us.map Prod.snd).sum ∧
      ∀ d, Op.withdraw.Adds d →
        Races.Run Op.Adds ⟨Races.idle (ts.map turns ++ turns (0, q + 1) :: us.map turns), 0⟩
          ⟨Races.idle ((ts' ++ (0, q) :: us').map turns), d⟩ := by
  have hmin := Nat.min_le_right k (ts.map Prod.fst).sum
  obtain ⟨ts', c, hfirst, hfst, hsnd⟩ := run_deposits ts hmin 0
  obtain ⟨us', c', hsecond, hfst', hsnd'⟩ :=
    run_deposits us (k := k - min k (ts.map Prod.fst).sum) (by omega) c
  refine ⟨ts', us', by omega, by omega, fun d hd => ?_⟩
  let waiting : Races.Thread Op Int := ⟨some 0, .withdraw :: turns (0, q)⟩
  have hload : Races.Step Op.Adds
      ⟨Races.idle (ts.map turns ++ turns (0, q + 1) :: us.map turns), 0⟩
      ⟨Races.idle (ts.map turns) ++ waiting :: Races.idle (us.map turns), 0⟩ := by
    have hload : Races.Step Op.Adds _ _ := .load (Races.idle (ts.map turns))
      (Races.idle (us.map turns)) .withdraw (turns (0, q)) (0 : Int)
    simpa [Races.idle, waiting, turns, List.replicate_succ] using hload
  have hlost := hfirst.frame [] (waiting :: Races.idle (us.map turns))
  have hlost' := hsecond.frame (Races.idle (ts'.map turns) ++ [waiting]) []
  have hstore : Races.Step Op.Adds
      ⟨Races.idle (ts'.map turns) ++ waiting :: Races.idle (us'.map turns), c'⟩
      ⟨Races.idle ((ts' ++ (0, q) :: us').map turns), d⟩ := by
    have hstore : Races.Step Op.Adds _ _ := .store (Races.idle (ts'.map turns))
      (Races.idle (us'.map turns)) (turns (0, q)) c' 0 hd
    simpa [Races.idle, waiting] using hstore
  simp only [List.nil_append, List.append_nil, List.append_assoc, List.singleton_append]
    at hlost hlost'
  exact ((Relation.ReflTransGen.single hload).trans (hlost.trans hlost')).tail hstore

/-! ## The program -/

variable {p : Plan}

theorem unlocked_eq (heven : p.numThreads % 2 = 0) (hthreads : 0 < p.numThreads) :
    ∃ ts : List (Nat × Nat),
      unlocked p = turns (p.numTransactions, 0) :: turns (0, p.numTransactions) :: ts.map turns ∧
      p.numTransactions + (ts.map Prod.fst).sum = p.deposits ∧
      p.numTransactions + (ts.map Prod.snd).sum = p.deposits := by
  obtain ⟨m, hm⟩ : ∃ m, p.numThreads / 2 = m + 1 := ⟨p.numThreads / 2 - 1, by omega⟩
  let ts := ((List.range m).flatMap fun _ => [(p.numTransactions, 0), (0, p.numTransactions)]) ++
    [(p.residue, p.residue)]
  refine ⟨ts, ?_, ?_, ?_⟩
  · rw [unlocked, hm, List.range_succ_eq_map, List.flatMap_cons, List.flatMap_map]
    simp [ts, turns, List.map_flatMap]
  · rw [Plan.deposits, hm, Nat.succ_mul]
    simp [ts, List.flatMap_def, List.map_flatten, List.sum_flatten]
    omega
  · rw [Plan.deposits, hm, Nat.succ_mul]
    simp [ts, List.flatMap_def, List.map_flatten, List.sum_flatten]
    omega

theorem count_unlocked (heven : p.numThreads % 2 = 0) (hthreads : 0 < p.numThreads) :
    (unlocked p).flatten.count .deposit = p.deposits ∧
      (unlocked p).flatten.count .withdraw = p.deposits := by
  obtain ⟨ts, heq, hdeposits, hwithdrawals⟩ := unlocked_eq heven hthreads
  have hcount := count_turns ((p.numTransactions, 0) :: (0, p.numTransactions) :: ts)
  simp only [List.map_cons, List.sum_cons, Nat.zero_add, hdeposits, hwithdrawals] at hcount
  rw [heq]
  exact hcount

/-- The sum of some of the transactions. -/
theorem cell_bounds (heven : p.numThreads % 2 = 0) (hthreads : 0 < p.numThreads)
    {s : Races.State Op Int} (h : Races.Run Op.Adds ⟨Races.idle (unlocked p), 0⟩ s) :
    -99 * (p.deposits : Int) ≤ s.cell ∧ s.cell ≤ 199 * p.deposits := by
  obtain ⟨ds, hsub, hadds, hsum⟩ := h.survives
  obtain ⟨hdeposits, hwithdrawals⟩ := count_unlocked heven hthreads
  have hmade (op : Op) : (ds.map Prod.fst).count op ≤ (unlocked p).flatten.count op := by
    have hle := hsub.count_le op
    rw [List.count_append] at hle
    omega
  have hdeposit := hmade .deposit
  have hwithdraw := hmade .withdraw
  obtain ⟨hlow, hhigh⟩ := sum_bounds hadds
  omega

/-- One thread keeps a zero in its register while deposits are made, and so they are lost. All
that is done behind its store is kept. -/
theorem exists_schedule (heven : p.numThreads % 2 = 0) (hthreads : 0 < p.numThreads)
    (hturns : 0 < p.numTransactions) {v : Int} (hlow : -99 * (p.deposits : Int) ≤ v)
    (hhigh : v ≤ 199 * p.deposits) :
    ∃ s, Races.Run Op.Adds ⟨Races.idle (unlocked p), 0⟩ s ∧ s.Finished ∧ s.cell = v := by
  obtain ⟨ts, heq, hdeposits, hwithdrawals⟩ := unlocked_eq heven hthreads
  obtain ⟨q, hq⟩ : ∃ q, p.numTransactions = q + 1 := ⟨p.numTransactions - 1, by omega⟩
  -- so many deposits are kept
  obtain ⟨a, ha, halow, hahigh⟩ : ∃ a : Nat, a ≤ p.deposits ∧
      100 * (a : Int) - 99 * p.deposits ≤ v ∧ v ≤ 199 * a :=
    ⟨((v + 198) / 199).toNat, by omega, by omega, by omega⟩
  obtain ⟨us, vs, hfst, hsnd, hlost⟩ :=
    run_lost [(p.numTransactions, 0)] ts q (k := p.deposits - a) (by simp; omega)
  simp only [List.map_cons, List.map_nil, List.sum_cons, List.sum_nil] at hfst hsnd
  let kept : List Op := .withdraw :: ((us ++ (0, q) :: vs).map turns).flatten
  obtain ⟨hcount, hcount'⟩ := count_turns (us ++ (0, q) :: vs)
  have hkept : kept.count .deposit = a := by
    simp only [kept, List.count_cons, hcount]
    simp
    omega
  have hkept' : kept.count .withdraw = p.deposits := by
    simp only [kept, List.count_cons, hcount']
    simp
    omega
  rw [← hkept, ← hkept'] at halow
  rw [← hkept] at hahigh
  obtain ⟨xs, hxs, hadds, hsum⟩ := exists_amounts kept halow hahigh
  obtain ⟨x, xs, rfl, hx, hrest⟩ := List.map_eq_cons_iff.mp hxs
  obtain ⟨hd, hadds⟩ := List.forall_mem_cons.mp hadds
  rw [hx] at hd
  obtain ⟨s, hrun, hfinished, hcell⟩ := Races.run_all hadds hrest x.2
  refine ⟨s, ?_, hfinished, hcell.trans hsum⟩
  rw [heq, hq]
  rw [hq] at hlost
  exact (hlost x.2 hd).trans hrun

/-- `thread_example_2.c`, for every order in which the threads load and store and all numbers
that `random` returns. The balance is always that of some of the transactions, so with fewer than
2^55 deposits none overflows; and what can be left at the end is every number between
the one where all deposits are lost and the one where all withdrawals are. -/
theorem thread_example_2 {numThreads : UInt32} {n : Int} {p : Plan}
    (h : plan true numThreads n = .ok p) :
    (∀ s : Races.State Op Int, Races.Run Op.Adds ⟨Races.idle (unlocked p), 0⟩ s →
      (-99 * (p.deposits : Int) ≤ s.cell ∧ s.cell ≤ 199 * p.deposits) ∧
      (p.deposits < 2 ^ 55 → InLong s.cell)) ∧
    ∀ v, (∃ s : Races.State Op Int, Races.Run Op.Adds ⟨Races.idle (unlocked p), 0⟩ s ∧
        s.Finished ∧ s.cell = v) ↔
      -99 * (p.deposits : Int) ≤ v ∧ v ≤ 199 * p.deposits := by
  obtain ⟨hthreads, heven, hturns, -⟩ := plan_eq_ok h
  have hbounds (s : Races.State Op Int)
      (hrun : Races.Run Op.Adds ⟨Races.idle (unlocked p), 0⟩ s) :=
    cell_bounds (heven rfl) hthreads hrun
  refine ⟨fun s hrun => ⟨hbounds s hrun, fun hfit => ?_⟩, fun v => ⟨?_, fun hv => ?_⟩⟩
  · obtain ⟨hlow, hhigh⟩ := hbounds s hrun
    exact ⟨by omega, by omega⟩
  · rintro ⟨s, hrun, -, rfl⟩
    exact hbounds s hrun
  · exact exists_schedule (heven rfl) hthreads hturns hv.1 hv.2

/-- Two threads with one transaction each, and one of each kind in `main`. -/
theorem thread_example_2_two : plan true 2 3 = .ok ⟨2, 1, 1⟩ ∧
    (∀ s : Races.State Op Int, Races.Run Op.Adds ⟨Races.idle (unlocked ⟨2, 1, 1⟩), 0⟩ s →
      (-99 * ((2 : Nat) : Int) ≤ s.cell ∧ s.cell ≤ 199 * (2 : Nat)) ∧
      (2 < 2 ^ 55 → InLong s.cell)) ∧
    ∀ v, (∃ s : Races.State Op Int, Races.Run Op.Adds ⟨Races.idle (unlocked ⟨2, 1, 1⟩), 0⟩ s ∧
        s.Finished ∧ s.cell = v) ↔
      -99 * ((2 : Nat) : Int) ≤ v ∧ v ≤ 199 * (2 : Nat) :=
  ⟨by decide, thread_example_2 (show plan true 2 3 = .ok ⟨2, 1, 1⟩ by decide)⟩

end Bootcamp.Accounts
