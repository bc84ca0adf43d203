import Bootcamp.Lib.Fallible
import Bootcamp.Lib.Probes

/-! The pass that puts a call of the analysis in front of every lock and unlock. -/
namespace Bootcamp.InstrumentLocks

open Except Flow

/-- What the pass can tell of an instruction, terminators included. An indirect call has no
called function. -/
inductive Instruction where
  | call (calledFunction : Option String)
  | other (text : String)
  deriving DecidableEq, Repr

structure Function (ι : Type) where
  name : String
  blocks : List (List ι)

/-- The functions of a module. Those without blocks are declarations. -/
abbrev Module := List (Function Instruction)

def Module.getFunction (M : Module) (name : String) : Bool := M.any fun F => F.name == name

def LockAcqName : String := "__lock_acq"
def LockRelName : String := "__lock_rel"
def mtx_lock : String := "pthread_mutex_lock"
def mtx_unlock : String := "pthread_mutex_unlock"

/-- An instruction of the block as the pass leaves it. -/
inductive Item where
  | inserted (callee argument : String)
  | original (I : Instruction)
  deriving DecidableEq, Repr

inductive Crash where
  /-- `getName` of a null pointer. -/
  | indirectCall
  /-- A call to a null function, behind the message. -/
  | unknownFunction
  deriving DecidableEq, Repr

/-- The call inserted before `I` where its callee is `mutex`. -/
def insertIf (M : Module) (name mutex callee : String) : Except Crash (List Item) :=
  if name == mutex then
    if M.getFunction callee then .ok [.inserted callee name] else .error .unknownFunction
  else .ok []

/-- The body of the inner loop: the calls inserted before `I`. -/
def visit (M : Module) : Instruction → Except Crash (List Item)
  | .call none => .error .indirectCall
  | .call (some name) => do
    let acq ← insertIf M name mtx_lock LockAcqName
    let rel ← insertIf M name mtx_unlock LockRelName
    pure (acq ++ rel)
  | .other _ => pure []

def walk (M : Module) : List Instruction → Except Crash (List Item)
  | [] => .ok []
  | I :: rest => do
    let calls ← visit M I
    let items ← walk M rest
    pure (calls ++ .original I :: items)

def walkBlocks (M : Module) : List (List Instruction) → Except Crash (List (List Item))
  | [] => .ok []
  | block :: rest => do
    let items ← walk M block
    let blocks ← walkBlocks M rest
    pure (items :: blocks)

def runOnFunction (M : Module) (F : Function Instruction) : Except Crash (Function Item) := do
  let blocks ← walkBlocks M F.blocks
  pure ⟨F.name, blocks⟩

/-- The pass manager takes the pass to each function in turn. -/
def runOnFunctions (M : Module) : List (Function Instruction) → Except Crash (List (Function Item))
  | [] => .ok []
  | F :: rest => do
    let F ← runOnFunction M F
    let rest ← runOnFunctions M rest
    pure (F :: rest)

def program {ι : Type} (functions : List (Function ι)) : Program ι := fun f =>
  ((functions.find? fun F => F.name == f).map Function.blocks).getD []

/-- What a call of the analysis reports. -/
def callsAt : Instruction → List Item
  | .call (some name) =>
    if name = mtx_lock then [.inserted LockAcqName name]
    else if name = mtx_unlock then [.inserted LockRelName name]
    else []
  | _ => []

def Item.instruction : Item → Option Instruction
  | .inserted _ _ => none
  | .original I => some I

/-- Every call of the instruction can be told, and what the analysis needs for it is there. -/
structure Instrumentable (M : Module) (I : Instruction) : Prop where
  direct : I ≠ .call none
  lock : I = .call (some mtx_lock) → M.getFunction LockAcqName
  unlock : I = .call (some mtx_unlock) → M.getFunction LockRelName

variable {M : Module}

theorem insertIf_eq_ok {name mutex callee : String} {items : List Item} :
    insertIf M name mutex callee = .ok items ↔ (name = mutex → M.getFunction callee) ∧
      items = if name = mutex then [.inserted callee name] else [] := by
  unfold insertIf
  by_cases hname : name = mutex
  · subst hname
    rw [if_pos (beq_self_eq_true name), if_pos rfl]
    cases M.getFunction callee with
    | true => simp [eq_comm]
    | false => simp
  · simp only [beq_iff_eq, hname, if_false, false_implies, true_and, Except.ok.injEq]
    exact eq_comm

theorem visit_eq_ok {I : Instruction} {items : List Item} :
    visit M I = .ok items ↔ Instrumentable M I ∧ items = callsAt I := by
  cases I with
  | other text =>
    have hthere : Instrumentable M (.other text) := ⟨nofun, nofun, nofun⟩
    simp [visit, callsAt, hthere, eq_comm]
  | call calledFunction =>
    cases calledFunction with
    | none =>
      have hnot : ¬Instrumentable M (.call none) := fun h => h.direct rfl
      simp [visit, hnot]
    | some name =>
      have hthere : Instrumentable M (.call (some name)) ↔
          (name = mtx_lock → M.getFunction LockAcqName) ∧
            (name = mtx_unlock → M.getFunction LockRelName) := by
        constructor
        · intro h
          exact ⟨fun hname => h.lock (by rw [hname]), fun hname => h.unlock (by rw [hname])⟩
        · rintro ⟨hlock, hunlock⟩
          exact ⟨nofun, by simpa using hlock, by simpa using hunlock⟩
      simp only [visit, bind_eq_ok, insertIf_eq_ok, pure_eq_ok, hthere, callsAt]
      constructor
      · rintro ⟨acq, ⟨hlock, rfl⟩, rel, ⟨hunlock, rfl⟩, hitems⟩
        refine ⟨⟨hlock, hunlock⟩, ?_⟩
        rw [← Except.ok.inj hitems]
        by_cases hname : name = mtx_lock
        · simp [hname, mtx_lock, mtx_unlock]
        · simp [hname]
      · rintro ⟨⟨hlock, hunlock⟩, rfl⟩
        refine ⟨_, ⟨hlock, rfl⟩, _, ⟨hunlock, rfl⟩, ?_⟩
        by_cases hname : name = mtx_lock
        · simp [hname, mtx_lock, mtx_unlock]
        · simp [hname]

theorem walk_eq_ok {block : List Instruction} {items : List Item} :
    walk M block = .ok items ↔
      (∀ I ∈ block, Instrumentable M I) ∧ items = expand callsAt .original block := by
  induction block generalizing items with
  | nil => simp [walk, expand, eq_comm]
  | cons I block ih =>
    simp only [walk, bind_eq_ok, visit_eq_ok, ih, pure_eq_ok, List.forall_mem_cons, expand_cons]
    constructor
    · rintro ⟨calls, ⟨hI, rfl⟩, rest, ⟨hblock, rfl⟩, hitems⟩
      exact ⟨⟨hI, hblock⟩, (Except.ok.inj hitems).symm⟩
    · rintro ⟨⟨hI, hblock⟩, rfl⟩
      exact ⟨_, ⟨hI, rfl⟩, _, ⟨hblock, rfl⟩, rfl⟩

theorem walkBlocks_eq_ok {blocks : List (List Instruction)} {out : List (List Item)} :
    walkBlocks M blocks = .ok out ↔ (∀ block ∈ blocks, ∀ I ∈ block, Instrumentable M I) ∧
      out = blocks.map (expand callsAt .original) := by
  induction blocks generalizing out with
  | nil => simp [walkBlocks, eq_comm]
  | cons block blocks ih =>
    simp only [walkBlocks, bind_eq_ok, walk_eq_ok, ih, pure_eq_ok, List.forall_mem_cons,
      List.map_cons]
    constructor
    · rintro ⟨items, ⟨hblock, rfl⟩, rest, ⟨hblocks, rfl⟩, hout⟩
      exact ⟨⟨hblock, hblocks⟩, (Except.ok.inj hout).symm⟩
    · rintro ⟨⟨hblock, hblocks⟩, rfl⟩
      exact ⟨_, ⟨hblock, rfl⟩, _, ⟨hblocks, rfl⟩, rfl⟩

/-- A function with the calls of the analysis. -/
def instrumented (F : Function Instruction) : Function Item :=
  ⟨F.name, F.blocks.map (expand callsAt .original)⟩

theorem runOnFunction_eq_ok {F : Function Instruction} {out : Function Item} :
    runOnFunction M F = .ok out ↔
      (∀ block ∈ F.blocks, ∀ I ∈ block, Instrumentable M I) ∧ out = instrumented F := by
  simp only [runOnFunction, bind_eq_ok, walkBlocks_eq_ok, pure_eq_ok]
  constructor
  · rintro ⟨blocks, ⟨hblocks, rfl⟩, hout⟩
    exact ⟨hblocks, (Except.ok.inj hout).symm⟩
  · rintro ⟨hblocks, rfl⟩
    exact ⟨_, ⟨hblocks, rfl⟩, rfl⟩

theorem runOnFunctions_eq_ok {functions : List (Function Instruction)}
    {out : List (Function Item)} : runOnFunctions M functions = .ok out ↔
      (∀ F ∈ functions, ∀ block ∈ F.blocks, ∀ I ∈ block, Instrumentable M I) ∧
        out = functions.map instrumented := by
  induction functions generalizing out with
  | nil => simp [runOnFunctions, eq_comm]
  | cons F functions ih =>
    simp only [runOnFunctions, bind_eq_ok, runOnFunction_eq_ok, ih, pure_eq_ok,
      List.forall_mem_cons, List.map_cons]
    constructor
    · rintro ⟨F', ⟨hF, rfl⟩, rest, ⟨hrest, rfl⟩, hout⟩
      exact ⟨⟨hF, hrest⟩, (Except.ok.inj hout).symm⟩
    · rintro ⟨⟨hF, hrest⟩, rfl⟩
      exact ⟨_, ⟨hF, rfl⟩, _, ⟨hrest, rfl⟩, rfl⟩

/-- An instruction has one call of the analysis at most. -/
theorem callsAt_cases (I : Instruction) :
    callsAt I = [] ∨ ∃ callee argument, callsAt I = [.inserted callee argument] := by
  cases I with
  | other text => exact .inl rfl
  | call calledFunction =>
    cases calledFunction with
    | none => exact .inl rfl
    | some name =>
      rw [callsAt]
      split_ifs
      · exact .inr ⟨_, _, rfl⟩
      · exact .inr ⟨_, _, rfl⟩
      · exact .inl rfl

theorem reads : Reads callsAt Item.original Item.instruction where
  probe I item hitem := by
    rcases callsAt_cases I with hnone | ⟨callee, argument, hone⟩
    · rw [hnone] at hitem
      cases hitem
    · rw [hone, List.mem_singleton] at hitem
      rw [hitem]
      rfl
  embed I := rfl

theorem program_map (functions : List (Function Instruction)) (f : String) :
    program (functions.map instrumented) f =
      (program functions f).map (expand callsAt .original) := by
  induction functions with
  | nil => rfl
  | cons F functions ih =>
    simp only [program, List.map_cons, List.find?_cons] at ih ⊢
    cases hF : F.name == f with
    | true => simp [instrumented, hF]
    | false => simpa [instrumented, hF] using ih

theorem erases (functions : List (Function Instruction)) :
    (program (functions.map instrumented)).Erases Item.instruction (program functions) := by
  intro f
  rw [program_map, List.map_map]
  conv_rhs => rw [← List.map_id (program functions f)]
  exact List.map_congr_left fun block _ => reads.erase block

/-- The pass comes back unless a call is indirect or a function of the analysis is missing that it
needs. The program then does what it did, whatever its instructions mean and however its threads
take turns; and what the analysis of a thread is told is exactly what the thread locks and unlocks,
each call in front of its own, the last of them perhaps ahead of it. -/
theorem instrumentLocks (M : Module) :
    ((∃ out, runOnFunctions M M = .ok out) ↔
      ∀ F ∈ M, ∀ block ∈ F.blocks, ∀ I ∈ block, Instrumentable M I) ∧
    ∀ out, runOnFunctions M M = .ok out → ∀ (σ : Type) (act : Act σ Instruction),
      (∀ (s : State σ Item) (s₀ : State σ Instruction),
        Execution (program M) act (s.erase Item.instruction) s₀ ↔
          ∃ s', Execution (program out) (probed Item.instruction act) s s' ∧
            s'.erase Item.instruction = s₀) ∧
      ∀ (x : σ) (names : List String) (s : State σ Item),
        Execution (program out) (probed Item.instruction act) ⟨x, (program out).started names⟩ s →
          ∀ t ∈ s.threads, ∃ ahead,
            t.log = expand callsAt .original (t.log.filterMap Item.instruction) ++ ahead ∧
            (ahead = [] ∨ ∃ frame I, t.frames.head? = some frame ∧
              (frame.rest.filterMap Item.instruction).head? = some I ∧ ahead = callsAt I) := by
  refine ⟨by simp [runOnFunctions_eq_ok], ?_⟩
  intro out hout σ act
  obtain ⟨-, rfl⟩ := runOnFunctions_eq_ok.mp hout
  refine ⟨fun s s₀ => run_erase_iff (erases M), ?_⟩
  intro x names s hrun t ht
  have hstart := expanded_started (program_map M) names
  obtain ⟨ahead, hlog, hahead⟩ := hrun.log_eq reads (program_map M) hstart t ht
  refine ⟨ahead, hlog, ?_⟩
  rcases hahead with rfl | ⟨frame, I, hframe, hI, hfront⟩
  · exact .inl rfl
  · rcases callsAt_cases I with hnone | ⟨callee, argument, hone⟩
    · rw [hnone] at hfront
      exact .inl (List.prefix_nil.mp hfront)
    · rw [hone, List.prefix_cons_iff] at hfront
      rcases hfront with rfl | ⟨rest, rfl, hrest⟩
      · exact .inl rfl
      · obtain rfl := List.prefix_nil.mp hrest
        exact .inr ⟨frame, I, hframe, hI, hone.symm⟩

/-- A counter behind a mutex, in a module with the analysis. -/
def counter : Module := [⟨LockAcqName, []⟩, ⟨LockRelName, []⟩,
  ⟨"increment_count", [[.call (some mtx_lock), .other "counter += 1", .call (some mtx_unlock),
    .other "ret"]]⟩]

theorem counter_instrumented : ∃ out, runOnFunctions counter counter = .ok out ∧
    ∀ (σ : Type) (act : Act σ Instruction) (x : σ) (names : List String) (s : State σ Item),
      Execution (program out) (probed Item.instruction act) ⟨x, (program out).started names⟩ s →
        ∀ t ∈ s.threads, ∃ ahead,
          t.log = expand callsAt .original (t.log.filterMap Item.instruction) ++ ahead ∧
          (ahead = [] ∨ ∃ frame I, t.frames.head? = some frame ∧
            (frame.rest.filterMap Item.instruction).head? = some I ∧ ahead = callsAt I) := by
  have hdone : runOnFunctions counter counter = .ok (counter.map instrumented) := by
    rfl
  exact ⟨_, hdone, fun σ act => ((instrumentLocks counter).2 _ hdone σ act).2⟩

end Bootcamp.InstrumentLocks
