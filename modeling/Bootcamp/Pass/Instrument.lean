import Bootcamp.Lib.Fallible
import Bootcamp.Lib.Nesting

/-! The pass that instruments the entry and exit of functions around their calls. -/
namespace Bootcamp.Instrument

open Except

/-- An instruction inside a block. All calls are direct. -/
inductive Instr where
  | call (callee : String)
  | other (text : String)
  deriving DecidableEq, Repr

inductive Terminator where
  | ret
  | other (text : String) (successors : List Nat)
  deriving DecidableEq, Repr

def Terminator.successors : Terminator → List Nat
  | .ret => []
  | .other _ successors => successors

structure Block where
  body : List Instr
  terminator : Terminator
  deriving DecidableEq, Repr

/-- The body of a function. No block jumps to the first one. -/
structure Function where
  name : String
  blocks : List Block
  entry_once : ∀ b ∈ blocks, 0 ∉ b.terminator.successors

/-- What the loop over a block visits. -/
inductive Instruction where
  | instr (i : Instr)
  | terminator (t : Terminator)
  deriving DecidableEq, Repr

def Block.instructions (b : Block) : List Instruction :=
  b.body.map .instr ++ [.terminator b.terminator]

def Instruction.callee : Instruction → Option String
  | .instr (.call callee) => some callee
  | _ => none

/-- `getOpcodeName() == "ret"`. -/
def Instruction.isRet : Instruction → Bool
  | .terminator .ret => true
  | _ => false

/-- Which of the two runtime functions the module declares. -/
structure Module where
  funcEntry : Bool
  funcExit : Bool

inductive Crash where
  /-- A call to a null function. -/
  | unknownFunction
  deriving DecidableEq, Repr

def Module.getFunction (M : Module) : Mark String → Bool
  | .entry _ => M.funcEntry
  | .exit _ => M.funcExit

/-- A call inserted before the instruction that is visited, where `condition` holds. -/
def insertIf (M : Module) (condition : Bool) (call : Mark String) :
    Except Crash (List (Mark String)) :=
  if condition then
    if M.getFunction call then .ok [call] else .error .unknownFunction
  else .ok []

/-- The variables that live across instructions. -/
structure PassState where
  flag : Bool
  prevName : String
  mainStart : Bool

def skipThis : String := "printf"

/-- The body of the inner loop: the calls inserted before `I`, in their order. -/
def visit (M : Module) (F : String) (s : PassState) (I : Instruction) :
    Except Crash (List (Mark String) × PassState) := do
  let start ← insertIf M (F == "main" && s.mainStart) (.entry F)
  let stop ← insertIf M (F == "main" && I.isRet) (.exit F)
  let prev ← insertIf M s.flag (.exit s.prevName)
  let mainStart := s.mainStart && F != "main"
  match I.callee with
  | some name =>
    let call ← insertIf M (name != skipThis) (.entry name)
    pure (start ++ stop ++ prev ++ call,
      { flag := name != skipThis, prevName := name, mainStart })
  | none =>
    pure (start ++ stop ++ prev, { flag := false, prevName := s.prevName, mainStart })

/-- An instruction of the block as the pass leaves it. -/
inductive Item where
  | inserted (call : Mark String)
  | original (I : Instruction)
  deriving DecidableEq, Repr

def walk (M : Module) (F : String) :
    PassState → List Instruction → Except Crash (List Item × PassState)
  | s, [] => .ok ([], s)
  | s, I :: rest => do
    let (calls, s) ← visit M F s I
    let (items, s) ← walk M F s rest
    pure (calls.map .inserted ++ .original I :: items, s)

def walkBlocks (M : Module) (F : String) :
    PassState → List Block → Except Crash (List (List Item))
  | _, [] => .ok []
  | s, b :: rest => do
    let (items, s) ← walk M F s b.instructions
    let blocks ← walkBlocks M F s rest
    pure (items :: blocks)

def runOnFunction (M : Module) (F : Function) : Except Crash (List (List Item)) :=
  walkBlocks M F.name { flag := false, prevName := "", mainStart := true } F.blocks

/-- The inserted calls of a block, in their order. -/
def marks (items : List Item) : List (Mark String) :=
  items.filterMap fun item => match item with
    | .inserted call => some call
    | .original _ => none

def originals (items : List Item) : List Instruction :=
  items.filterMap fun item => match item with
    | .inserted _ => none
    | .original I => some I

/-- The blocks on a path from the entry, and the last of them. -/
inductive Path (F : Function) : List Nat → Block → Prop
  | start {b : Block} : F.blocks[0]? = some b → Path F [0] b
  | step {path : List Nat} {b b' : Block} {k : Nat} : Path F path b →
      k ∈ b.terminator.successors → F.blocks[k]? = some b' → Path F (path ++ [k]) b'

/-- The marks an execution leaves on a path. -/
def pathMarks (blocks : List (List Item)) (path : List Nat) : List (Mark String) :=
  path.flatMap fun k => marks (blocks.getD k [])

/-- The body `blocks` is that of `F` with its calls, and `main`, well instrumented. -/
structure Instrumented (F : Function) (blocks : List (List Item)) : Prop where
  /-- Nothing but calls is inserted. -/
  kept : blocks.map originals = F.blocks.map Block.instructions
  calls : ∀ items ∈ blocks, ∀ before g after,
    items = before ++ .original (.instr (.call g)) :: after → g ≠ "printf" →
      before.getLast? = some (.inserted (.entry g)) ∧ (marks after).head? = some (.exit g)
  main_entry : F.name = "main" → ∀ items, blocks[0]? = some items →
    items.head? = some (.inserted (.entry "main"))
  main_exit : F.name = "main" → ∀ items ∈ blocks, ∀ before,
    items = before ++ [.original (.terminator .ret)] →
      before.getLast? = some (.inserted (.exit "main"))
  paths : ∀ path b, Path F path b →
    (∃ rest, Bracketed (pathMarks blocks path ++ rest)) ∧
      (b.terminator = .ret → Bracketed (pathMarks blocks path))

/-- The body returns from `main` right behind a call that gets marks of its own. -/
def ReturnsFromCall (F : Function) : Prop :=
  F.name = "main" ∧ ∃ b ∈ F.blocks, b.terminator = .ret ∧
    ∃ g, b.body.getLast? = some (.call g) ∧ g ≠ "printf" ∧ g ≠ "main"

section Inserted

/-- The calls the pass means to insert before `I`. -/
def marksAt (F : String) (s : PassState) (I : Instruction) : List (Mark String) :=
  (if F == "main" && s.mainStart then [.entry F] else []) ++
    (if F == "main" && I.isRet then [.exit F] else []) ++
    (if s.flag then [.exit s.prevName] else []) ++
    match I.callee with
    | some name => if name != skipThis then [.entry name] else []
    | none => []

def next (F : String) (s : PassState) (I : Instruction) : PassState where
  flag := match I.callee with
    | some name => name != skipThis
    | none => false
  prevName := I.callee.getD s.prevName
  mainStart := s.mainStart && F != "main"

def items (F : String) : PassState → List Instruction → List Item
  | _, [] => []
  | s, I :: rest => (marksAt F s I).map .inserted ++ .original I :: items F (next F s I) rest

def after (F : String) (s : PassState) (is : List Instruction) : PassState := is.foldl (next F) s

def itemsOf (F : String) : PassState → List Block → List (List Item)
  | _, [] => []
  | s, b :: rest => items F s b.instructions :: itemsOf F (after F s b.instructions) rest

variable {M : Module} {F : String} {s : PassState}

/-- The pass may crash only where a runtime function is not declared. -/
def Undeclared (M : Module) (_ : Crash) : Prop := ¬(M.funcEntry ∧ M.funcExit)

theorem insertIf_delivers (condition : Bool) (call : Mark String) :
    Delivers (Undeclared M) (insertIf M condition call)
      (· = if condition then [call] else []) := by
  unfold insertIf
  cases condition with
  | false => exact .ok rfl
  | true =>
    rw [if_pos rfl]
    split
    · exact .ok rfl
    · rename_i hmissing
      refine .error fun hM => hmissing ?_
      cases call with
      | entry a => exact hM.1
      | exit a => exact hM.2

theorem visit_delivers (I : Instruction) :
    Delivers (Undeclared M) (visit M F s I) (· = (marksAt F s I, next F s I)) := by
  unfold visit
  apply (insertIf_delivers _ _).bind
  rintro start hstart
  apply (insertIf_delivers _ _).bind
  rintro stop hstop
  apply (insertIf_delivers _ _).bind
  rintro prev hprev
  rw [marksAt, ← hstart, ← hstop, ← hprev, next]
  cases I.callee with
  | none => exact .ok (by simp)
  | some name =>
    apply (insertIf_delivers _ _).bind
    rintro call rfl
    exact .ok rfl

theorem walk_delivers (is : List Instruction) :
    Delivers (Undeclared M) (walk M F s is) (· = (items F s is, after F s is)) := by
  induction is generalizing s with
  | nil => exact .ok rfl
  | cons I is ih =>
    apply (visit_delivers I).bind
    rintro _ rfl
    apply ih.bind
    rintro _ rfl
    exact .ok rfl

theorem walkBlocks_delivers (bs : List Block) :
    Delivers (Undeclared M) (walkBlocks M F s bs) (· = itemsOf F s bs) := by
  induction bs generalizing s with
  | nil => exact .ok rfl
  | cons b bs ih =>
    apply (walk_delivers b.instructions).bind
    rintro _ rfl
    apply ih.bind
    rintro _ rfl
    exact .ok rfl

theorem items_append (is js : List Instruction) :
    items F s (is ++ js) = items F s is ++ items F (after F s is) js := by
  induction is generalizing s with
  | nil => rfl
  | cons I is ih =>
    simp only [List.cons_append, items, ih, List.append_assoc]
    rfl

theorem originals_items (is : List Instruction) : originals (items F s is) = is := by
  induction is generalizing s with
  | nil => rfl
  | cons I is ih =>
    simpa [items, originals, List.filterMap_append] using ih

theorem marks_items_cons (I : Instruction) (is : List Instruction) :
    marks (items F s (I :: is)) = marksAt F s I ++ marks (items F (next F s I) is) := by
  simp [items, marks, List.filterMap_append]

end Inserted

section Blocks

variable {F : String} {s : PassState}

/-- The calls among instructions that get marks. -/
def called (is : List Instr) : List String :=
  is.filterMap fun i => match i with
    | .call callee => if callee != skipThis then some callee else none
    | .other _ => none

/-- The call in front that waits for its exit. -/
def PassState.pending (s : PassState) : List (Mark String) :=
  if s.flag then [.exit s.prevName] else []

def startMark (F : String) (s : PassState) : List (Mark String) :=
  if F == "main" && s.mainStart then [.entry F] else []

def stopMark (F : String) (t : Terminator) : List (Mark String) :=
  if F == "main" && (Instruction.terminator t).isRet then [.exit F] else []

/-- Where `main` returns, a call that still waits is one of `main`. -/
def InOrder (F : String) (s : PassState) (t : Terminator) : Prop :=
  F = "main" → t = .ret → s.flag = true → s.prevName = "main"

theorem startMark_next (I : Instruction) : startMark F (next F s I) = [] := by
  have hfalse : (F == "main" && (s.mainStart && F != "main")) = false := by
    cases hF : F == "main" with
    | false => rfl
    | true => simp [bne, hF]
  simp [startMark, next, hfalse]

theorem marksAt_terminator {t : Terminator} (h : InOrder F s t) :
    marksAt F s (.terminator t) = startMark F s ++ s.pending ++ stopMark F t := by
  have hnone : (Instruction.terminator t).callee = none := rfl
  by_cases hmain : F = "main" ∧ t = .ret ∧ s.flag = true
  · obtain ⟨rfl, rfl, hflag⟩ := hmain
    have hprev := h rfl rfl hflag
    simp [marksAt, startMark, stopMark, PassState.pending, hflag, hprev, Instruction.isRet,
      Instruction.callee]
  · have hone : stopMark F t = [] ∨ s.pending = [] := by
      cases hflag : s.flag with
      | false => simp [PassState.pending, hflag]
      | true =>
        left
        cases t with
        | other text successors => simp [stopMark, Instruction.isRet]
        | ret =>
          have hF : F ≠ "main" := fun hF => hmain ⟨hF, rfl, hflag⟩
          simp [stopMark, hF]
    rw [marksAt, hnone, List.append_nil, ← startMark, ← stopMark, ← PassState.pending]
    rcases hone with hone | hone
    · rw [hone, List.append_nil, List.append_nil]
    · rw [hone, List.append_nil, List.append_nil]

/-- The marks of an instruction inside a block: the exit of the call in front, then its entry. -/
theorem marksAt_instr (i : Instr) :
    marksAt F s (.instr i) ++ (next F s (.instr i)).pending =
      startMark F s ++ s.pending ++ (called [i]).flatMap fun g => [.entry g, .exit g] := by
  have hret : (F == "main" && (Instruction.instr i).isRet) = false := by
    simp [Instruction.isRet]
  rw [marksAt, hret, ← startMark, ← PassState.pending]
  cases i with
  | other text => simp [PassState.pending, next, called, Instruction.callee]
  | call callee =>
    by_cases hskip : callee = skipThis
    · simp [PassState.pending, next, called, Instruction.callee, hskip]
    · simp [PassState.pending, next, called, Instruction.callee, hskip]

/-- The marks of the rest of a block. -/
theorem marks_items {is : List Instr} {t : Terminator}
    (h : InOrder F (after F s (is.map .instr)) t) :
    marks (items F s (is.map .instr ++ [.terminator t])) =
      startMark F s ++ s.pending ++
        ((called is).flatMap fun g => [.entry g, .exit g]) ++ stopMark F t := by
  induction is generalizing s with
  | nil =>
    have hlast : InOrder F s t := h
    rw [List.map_nil, List.nil_append, marks_items_cons, marksAt_terminator hlast]
    simp [items, marks, called]
  | cons i is ih =>
    have hcalled : called (i :: is) = called [i] ++ called is := by
      rw [called, called, called, ← List.filterMap_append]
      rfl
    rw [List.map_cons, List.cons_append, marks_items_cons, ih h, startMark_next, List.nil_append,
      List.append_assoc, ← List.append_assoc (marksAt _ _ _), marksAt_instr, hcalled,
      List.flatMap_append]
    simp only [List.append_assoc]

/-- Where an original instruction stands behind the inserted calls for another one. -/
theorem split_inserted {calls : List (Mark String)} {rest before rest' : List Item}
    {I J : Instruction}
    (h : calls.map .inserted ++ .original I :: rest = before ++ .original J :: rest') :
    (before = calls.map .inserted ∧ I = J ∧ rest = rest') ∨
      ∃ front, before = calls.map .inserted ++ .original I :: front ∧
        rest = front ++ .original J :: rest' := by
  induction calls generalizing before with
  | nil =>
    cases before with
    | nil =>
      obtain ⟨hI, hrest⟩ := List.cons.inj h
      cases hI
      exact .inl ⟨rfl, rfl, hrest⟩
    | cons item front =>
      obtain ⟨rfl, hrest⟩ := List.cons.inj h
      exact .inr ⟨front, rfl, hrest⟩
  | cons call calls ih =>
    cases before with
    | nil => cases (List.cons.inj h).1
    | cons item before =>
      obtain ⟨rfl, htail⟩ := List.cons.inj h
      rcases ih htail with ⟨rfl, hI, hrest⟩ | ⟨front, rfl, hrest⟩
      · exact .inl ⟨rfl, hI, hrest⟩
      · exact .inr ⟨front, rfl, hrest⟩

/-- Each call stands between its entry and its exit. -/
theorem calls_items {is : List Instr} {t : Terminator}
    (h : InOrder F (after F s (is.map .instr)) t) {before rest : List Item} {g : String}
    (hsplit : items F s (is.map .instr ++ [.terminator t]) =
      before ++ .original (.instr (.call g)) :: rest) (hg : g ≠ "printf") :
    before.getLast? = some (.inserted (.entry g)) ∧ (marks rest).head? = some (.exit g) := by
  induction is generalizing s before with
  | nil =>
    rcases split_inserted hsplit with ⟨-, hI, -⟩ | ⟨front, -, hrest⟩
    · cases hI
    · simp [items] at hrest
  | cons i is ih =>
    rw [List.map_cons, List.cons_append, items] at hsplit
    rcases split_inserted hsplit with ⟨rfl, hI, rfl⟩ | ⟨front, rfl, hrest⟩
    · cases hI
      have hskip : (g != skipThis) = true := by simpa [skipThis] using hg
      have hrest := marks_items (F := F) (s := next F s (.instr (.call g))) (t := t) h
      constructor
      · simp [marksAt, Instruction.callee, hskip]
      · rw [hrest, startMark_next, PassState.pending]
        simp [next, Instruction.callee, hskip]
    · have hfront := ih h hrest
      refine ⟨?_, hfront.2⟩
      have hne : front ≠ [] := by
        rintro rfl
        simp at hfront
      rw [List.getLast?_append, List.getLast?_cons, hfront.1]
      simp

/-- The call that waits at the end of a block is its last instruction. -/
theorem last_of_flag {is : List Instr} (hs : s.flag = false)
    (hflag : (after F s (is.map .instr)).flag = true) :
    ∃ g, is.getLast? = some (.call g) ∧ g ≠ "printf" ∧
      (after F s (is.map .instr)).prevName = g := by
  rcases List.eq_nil_or_concat is with rfl | ⟨front, i, rfl⟩
  · simp [after, hs] at hflag
  · simp only [List.concat_eq_append, List.map_append, List.map_cons, List.map_nil, after,
      List.foldl_append, List.foldl_cons, List.foldl_nil] at hflag ⊢
    cases i with
    | other text => simp [next, Instruction.callee] at hflag
    | call g =>
      refine ⟨g, by simp, by simpa [next, Instruction.callee, skipThis] using hflag, ?_⟩
      simp [next, Instruction.callee]

theorem inOrder_of_returns {b : Block} (hs : s.flag = false)
    (h : F = "main" → b.terminator = .ret → ∀ g, b.body.getLast? = some (.call g) →
      g ≠ "printf" → g = "main") : InOrder F (after F s (b.body.map .instr)) b.terminator := by
  intro hF hret hflag
  obtain ⟨g, hlast, hg, hprev⟩ := last_of_flag hs hflag
  rw [hprev]
  exact h hF hret g hlast hg

/-- The first inserted call of `main`. -/
theorem head_items {b : Block} (hF : F = "main") (hs : s.mainStart = true) :
    (items F s b.instructions).head? = some (.inserted (.entry "main")) := by
  obtain ⟨I, rest, hI⟩ : ∃ I rest, b.instructions = I :: rest := by
    apply List.exists_cons_of_ne_nil
    simp [Block.instructions]
  rw [hI, items, marksAt]
  simp [hF, hs]

/-- Its last one, where nothing is out of order. -/
theorem last_items {b : Block} (hF : F = "main")
    (h : InOrder F (after F s (b.body.map .instr)) b.terminator) {before : List Item}
    (hsplit : items F s b.instructions = before ++ [.original (.terminator .ret)]) :
    before.getLast? = some (.inserted (.exit "main")) := by
  have hlast : items F s b.instructions =
      items F s (b.body.map .instr) ++
        (marksAt F (after F s (b.body.map .instr)) (.terminator b.terminator)).map .inserted ++
          [.original (.terminator b.terminator)] := by
    rw [Block.instructions, items_append]
    simp [items]
  obtain ⟨rfl, hret⟩ := List.append_inj' (hlast.symm.trans hsplit) rfl
  have hret : b.terminator = .ret := by simpa using hret
  rw [marksAt_terminator h, stopMark, hret]
  simp [hF, Instruction.isRet]

end Blocks

section Paths

variable {F : Function}

theorem after_block (s : PassState) (b : Block) (F : String) :
    (after F s b.instructions).flag = false ∧
      (F = "main" → (after F s b.instructions).mainStart = false) := by
  have hlast : after F s b.instructions =
      next F (after F s (b.body.map .instr)) (.terminator b.terminator) := by
    simp [after, Block.instructions]
  rw [hlast]
  refine ⟨rfl, ?_⟩
  rintro rfl
  simp [next]

/-- The state in which the pass comes to a block. -/
theorem itemsOf_block {F : String} {s : PassState} {bs : List Block} {k : Nat} {b : Block}
    (hs : s.flag = false) (hb : bs[k]? = some b) :
    ∃ s', (itemsOf F s bs)[k]? = some (items F s' b.instructions) ∧ s'.flag = false ∧
      (k = 0 → s'.mainStart = s.mainStart) ∧
      (k ≠ 0 → F = "main" → s'.mainStart = false) := by
  induction bs generalizing s k with
  | nil => simp at hb
  | cons b' bs ih =>
    cases k with
    | zero =>
      obtain rfl : b' = b := by simpa using hb
      exact ⟨s, rfl, hs, fun _ => rfl, fun h => absurd rfl h⟩
    | succ k =>
      have hafter := after_block s b' F
      obtain ⟨s', hitems, hflag, hzero, hpos⟩ := ih hafter.1 (by simpa using hb)
      refine ⟨s', by simpa [itemsOf] using hitems, hflag, by simp, fun _ hF => ?_⟩
      by_cases hk : k = 0
      · rw [hzero hk]
        exact hafter.2 hF
      · exact hpos hk hF

theorem length_itemsOf (F : String) (s : PassState) (bs : List Block) :
    (itemsOf F s bs).length = bs.length := by
  induction bs generalizing s with
  | nil => rfl
  | cons b bs ih => simp [itemsOf, ih]

theorem kept_itemsOf (F : String) (s : PassState) (bs : List Block) :
    (itemsOf F s bs).map originals = bs.map Block.instructions := by
  induction bs generalizing s with
  | nil => rfl
  | cons b bs ih => simp [itemsOf, originals_items, ih]

theorem block_of_mem {F : String} {s : PassState} {bs : List Block} {its : List Item}
    (hs : s.flag = false) (h : its ∈ itemsOf F s bs) :
    ∃ b ∈ bs, ∃ s', s'.flag = false ∧ its = items F s' b.instructions := by
  obtain ⟨k, hk⟩ := List.mem_iff_getElem?.mp h
  obtain ⟨hlt, -⟩ := List.getElem?_eq_some_iff.mp hk
  rw [length_itemsOf] at hlt
  obtain ⟨s', hitems, hflag, -⟩ := itemsOf_block (F := F) hs (List.getElem?_eq_getElem hlt)
  rw [hk] at hitems
  exact ⟨_, List.getElem_mem hlt, s', hflag, Option.some.inj hitems⟩

/-- What the pass starts with. -/
def initial : PassState := { flag := false, prevName := "", mainStart := true }

theorem runOnFunction_delivers (M : Module) (F : Function) :
    Delivers (Undeclared M) (runOnFunction M F) (· = itemsOf F.name initial F.blocks) :=
  walkBlocks_delivers F.blocks

/-- `main` returns behind no call with marks of its own. -/
theorem inOrder_of_not (h : ¬ReturnsFromCall F) {s : PassState} {b : Block} (hb : b ∈ F.blocks)
    (hs : s.flag = false) : InOrder F.name (after F.name s (b.body.map .instr)) b.terminator := by
  apply inOrder_of_returns hs
  intro hF hret g hlast hg
  by_contra hmain
  exact h ⟨hF, b, hb, hret, g, hlast, hg, hmain⟩

theorem startMark_of_not_start {F : String} {s : PassState}
    (h : F = "main" → s.mainStart = false) : startMark F s = [] := by
  unfold startMark
  split
  · rename_i hboth
    simp only [Bool.and_eq_true, beq_iff_eq] at hboth
    rw [h hboth.1] at hboth
    cases hboth.2
  · rfl

theorem Path.mem {path : List Nat} {b : Block} (h : Path F path b) : b ∈ F.blocks := by
  cases h with
  | start hb => exact List.mem_of_getElem? hb
  | step _ _ hb => exact List.mem_of_getElem? hb

theorem stopMark_of_successor {F : String} {t : Terminator} {k : Nat} (h : k ∈ t.successors) :
    stopMark F t = [] := by
  cases t with
  | ret => cases h
  | other text successors => simp [stopMark, Instruction.isRet]

/-- On a path the calls nest, behind the entry of `main` and in front of its exit. -/
theorem path_marks (h : ¬ReturnsFromCall F) {path : List Nat} {b : Block} (hpath : Path F path b) :
    ∃ w, Bracketed w ∧ pathMarks (itemsOf F.name initial F.blocks) path =
      startMark F.name initial ++ w ++ stopMark F.name b.terminator := by
  induction hpath with
  | @start b hb =>
    obtain ⟨s, hitems, hflag, hzero, -⟩ := itemsOf_block (F := F.name) (s := initial) rfl hb
    have hmarks := marks_items (inOrder_of_not h (List.mem_of_getElem? hb) hflag)
    refine ⟨_, .pairs (called b.body), ?_⟩
    have hstart : startMark F.name s = startMark F.name initial := by
      rw [startMark, hzero rfl, ← startMark]
    simp only [pathMarks, List.flatMap_cons, List.flatMap_nil, List.append_nil,
      List.getD_eq_getElem?_getD, hitems, Option.getD_some]
    rw [Block.instructions, hmarks, hstart, PassState.pending, hflag]
    simp
  | @step path b b' k hpath hk hb' ih =>
    obtain ⟨w, hw, hmarks⟩ := ih
    have hne : k ≠ 0 := by
      rintro rfl
      exact F.entry_once b hpath.mem hk
    obtain ⟨s, hitems, hflag, -, hpos⟩ := itemsOf_block (F := F.name) (s := initial) rfl hb'
    have hblock := marks_items (inOrder_of_not h (List.mem_of_getElem? hb') hflag)
    refine ⟨w ++ (called b'.body).flatMap fun g => [.entry g, .exit g], hw.append (.pairs _), ?_⟩
    have hlast : pathMarks (itemsOf F.name initial F.blocks) [k] =
        marks (items F.name s b'.instructions) := by
      simp [pathMarks, hitems]
    rw [pathMarks, List.flatMap_append, ← pathMarks, ← pathMarks, hmarks, hlast,
      Block.instructions, hblock, startMark_of_not_start (hpos hne), PassState.pending, hflag,
      stopMark_of_successor hk]
    simp

theorem instrumented_of_not (h : ¬ReturnsFromCall F) :
    Instrumented F (itemsOf F.name initial F.blocks) where
  kept := kept_itemsOf _ _ _
  calls its hits before g rest hsplit hg := by
    obtain ⟨b, hb, s, hs, rfl⟩ := block_of_mem rfl hits
    exact calls_items (inOrder_of_not h hb hs) hsplit hg
  main_entry hF its hits := by
    cases hbs : F.blocks with
    | nil =>
      rw [hbs] at hits
      cases hits
    | cons b bs =>
      rw [hbs] at hits
      cases hits
      exact head_items hF rfl
  main_exit hF its hits before hsplit := by
    obtain ⟨b, hb, s, hs, rfl⟩ := block_of_mem rfl hits
    exact last_items hF (inOrder_of_not h hb hs) hsplit
  paths path b hpath := by
    obtain ⟨w, hw, hmarks⟩ := path_marks h hpath
    rw [hmarks, startMark, stopMark]
    by_cases hF : F.name = "main"
    · have hwrap := Bracketed.wrap (a := F.name) hw
      cases hret : b.terminator with
      | ret =>
        have hwhole : Bracketed ([.entry F.name] ++ w ++ [.exit F.name]) := by simpa using hwrap
        simp only [hF, initial, Instruction.isRet]
        rw [hF] at hwhole
        exact ⟨⟨[], by simpa using hwhole⟩, fun _ => by simpa using hwhole⟩
      | other text successors =>
        refine ⟨⟨[.exit F.name], ?_⟩, fun hother => by cases hother⟩
        simpa [hF, initial, Instruction.isRet] using hwrap
    · have hplain : Bracketed ([] ++ w ++ []) := by simpa using hw
      have hfalse : (F.name == "main") = false := by simpa using hF
      simp only [hfalse, Bool.false_and]
      exact ⟨⟨[], by simpa using hplain⟩, fun _ => by simpa using hplain⟩

/-- A return of `main` behind a call comes with the two exits in the wrong order. -/
theorem not_instrumented (h : ReturnsFromCall F) :
    ¬Instrumented F (itemsOf F.name initial F.blocks) := by
  intro hinstrumented
  obtain ⟨hF, b, hb, hret, g, hlast, hprintf, hmain⟩ := h
  obtain ⟨k, hk⟩ := List.mem_iff_getElem?.mp hb
  obtain ⟨s, hitems, -⟩ := itemsOf_block (F := F.name) (s := initial) rfl hk
  obtain ⟨front, hfront⟩ := List.getLast?_eq_some_iff.mp hlast
  have hsplit : items F.name s b.instructions =
      (items F.name s (front.map .instr) ++
        (marksAt F.name (after F.name s (front.map .instr)) (.instr (.call g))).map .inserted) ++
      .original (.instr (.call g)) ::
        items F.name (next F.name (after F.name s (front.map .instr)) (.instr (.call g)))
          [.terminator .ret] := by
    rw [Block.instructions, hfront, hret, List.map_append, List.append_assoc, items_append]
    simp [items]
  obtain ⟨-, hcall⟩ :=
    hinstrumented.calls _ (List.mem_of_getElem? hitems) _ g _ hsplit hprintf
  rw [marks_items_cons, marksAt, ← startMark, startMark_next] at hcall
  simp only [hF, Instruction.isRet, beq_self_eq_true, Bool.and_self, if_true, List.nil_append,
    List.cons_append, List.head?_cons, Option.some.injEq, Mark.exit.injEq] at hcall
  exact hmain hcall.symm

end Paths

/-- What the pass leaves is well instrumented just when `main` does not return right behind a
call; and it leaves something where the runtime functions are declared. -/
theorem instrumented_iff (M : Module) (F : Function) :
    (∀ blocks, runOnFunction M F = .ok blocks → (Instrumented F blocks ↔ ¬ReturnsFromCall F)) ∧
      (M.funcEntry → M.funcExit → ∃ blocks, runOnFunction M F = .ok blocks) := by
  have hpass := runOnFunction_delivers M F
  constructor
  · intro blocks hrun
    rw [hrun] at hpass
    cases hpass with | ok hblocks =>
    rw [hblocks]
    constructor
    · intro hinstrumented h
      exact not_instrumented h hinstrumented
    · exact instrumented_of_not
  · intro hentry hexit
    cases hrun : runOnFunction M F with
    | ok blocks => exact ⟨blocks, rfl⟩
    | error e =>
      rw [hrun] at hpass
      cases hpass with | error hmissing =>
      exact absurd ⟨hentry, hexit⟩ hmissing

/-- `int main() { fun(); }`: the return comes right behind the call. -/
def callFun : Function where
  name := "main"
  blocks := [⟨[.call "fun"], .ret⟩]
  entry_once := by decide

theorem main_exits_out_of_order :
    ∃ blocks, runOnFunction ⟨true, true⟩ callFun = .ok blocks ∧ ¬Instrumented callFun blocks := by
  refine ⟨_, rfl, fun h => ?_⟩
  obtain ⟨-, hcall⟩ := h.calls _ (List.mem_singleton.mpr rfl)
    [.inserted (.entry "main"), .inserted (.entry "fun")] "fun"
    [.inserted (.exit "main"), .inserted (.exit "fun"), .original (.terminator .ret)] rfl
    (by decide)
  exact absurd hcall (by decide)

end Bootcamp.Instrument
