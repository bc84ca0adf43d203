import Bootcamp.Lib.Probes
import Bootcamp.Pass.Instrument

/-! What the marks of the entry and exit pass are in runs of whole programs. -/
namespace Bootcamp.Instrument

open Except Flow

/-- The pass manager takes the pass to each function in turn. -/
def runOnFunctions (M : Module) : List Function → Except Crash (List (String × List (List Item)))
  | [] => .ok []
  | F :: rest => do
    let blocks ← runOnFunction M F
    let rest ← runOnFunctions M rest
    pure ((F.name, blocks) :: rest)

def program {ι : Type} (functions : List (String × List (List ι))) : Program ι := fun f =>
  (functions.lookup f).getD []

/-- The functions as they were. -/
def Function.source (F : Function) : String × List (List Instruction) :=
  (F.name, F.blocks.map Block.instructions)

def Function.instrumented (F : Function) : String × List (List Item) :=
  (F.name, itemsOf F.name initial F.blocks)

def Item.instruction : Item → Option Instruction
  | .inserted _ => none
  | .original I => some I

/-- Where an instruction can lead. -/
def Instruction.leads : Instruction → Control → Prop
  | .instr (.call callee), c => c = .call callee
  | .instr (.other _), c => c = .next
  | .terminator .ret, c => c = .ret
  | .terminator (.other _ successors), c => ∃ k ∈ successors, c = .jump k

/-- Instructions that do what they may, and lead where they can. -/
def leading {σ : Type} (act : Act σ Instruction) : Act σ Instruction :=
  fun I x x' names c => I.leads c ∧ act I x x' names c

theorem runOnFunctions_delivers (M : Module) (fs : List Function) :
    Delivers (Undeclared M) (runOnFunctions M fs) (· = fs.map Function.instrumented) := by
  induction fs with
  | nil => exact .ok rfl
  | cons F fs ih =>
    apply (runOnFunction_delivers M F).bind
    rintro _ rfl
    apply ih.bind
    rintro _ rfl
    exact .ok rfl

/-- The function that a name stands for. -/
def find (fs : List Function) (f : String) : Option Function := fs.find? fun F => f == F.name

theorem lookup_map {β : Type} (g : Function → β) (fs : List Function) (f : String) :
    (fs.map fun F => (F.name, g F)).lookup f = (find fs f).map g := by
  induction fs with
  | nil => rfl
  | cons F fs ih =>
    simp only [List.map_cons, List.lookup_cons, find, List.find?_cons] at ih ⊢
    cases f == F.name with
    | true => rfl
    | false => exact ih

theorem program_instrumented (fs : List Function) (f : String) :
    program (fs.map Function.instrumented) f =
      ((find fs f).map fun F => itemsOf F.name initial F.blocks).getD [] :=
  congrArg (Option.getD · []) (lookup_map (fun F => itemsOf F.name initial F.blocks) fs f)

theorem erases (fs : List Function) :
    (program (fs.map Function.instrumented)).Erases Item.instruction
      (program (fs.map Function.source)) := by
  intro f
  have hsource : program (fs.map Function.source) f =
      ((find fs f).map fun F => F.blocks.map Block.instructions).getD [] :=
    congrArg (Option.getD · []) (lookup_map (fun F => F.blocks.map Block.instructions) fs f)
  have heq : originals = List.filterMap Item.instruction := by
    funext items
    refine congrArg (List.filterMap · items) ?_
    funext item
    cases item <;> rfl
  rw [program_instrumented, hsource, ← heq]
  cases find fs f with
  | none => rfl
  | some F => exact kept_itemsOf F.name initial F.blocks

/-! ## Nesting -/

/-- What is open in a function between its blocks, and in front of `t`. -/
def mainOpen (F : String) : List String := if F = "main" then [F] else []

def endOpen (F : String) : Terminator → List String
  | .ret => []
  | .other _ _ => mainOpen F

section Frames

variable {fs : List Function} {F : Function} {b : Block}

/-- The marks of a block take what is open in front of it to what is open behind it. -/
theorem opened_items (h : ¬ReturnsFromCall F) (hb : b ∈ F.blocks) {s : PassState}
    (hs : s.flag = false) {o : List String}
    (ho : o = [] ∧ s.mainStart = true ∨
      o = mainOpen F.name ∧ (F.name = "main" → s.mainStart = false)) :
    opened o (marks (items F.name s b.instructions)) = some (endOpen F.name b.terminator) := by
  have hstart : opened o (startMark F.name s) = some (mainOpen F.name) := by
    rcases ho with ⟨rfl, hmain⟩ | ⟨rfl, hmain⟩
    · by_cases hF : F.name = "main"
      · simp [startMark, mainOpen, hF, hmain, opened, Mark.read]
      · simp [startMark, mainOpen, hF, opened]
    · rw [startMark_of_not_start hmain]
      rfl
  have hstop : opened (mainOpen F.name) (stopMark F.name b.terminator) =
      some (endOpen F.name b.terminator) := by
    cases b.terminator with
    | ret =>
      by_cases hF : F.name = "main"
      · simp [stopMark, mainOpen, endOpen, hF, Instruction.isRet, opened, Mark.read]
      · simp [stopMark, mainOpen, endOpen, hF, opened]
    | other text successors => simp [stopMark, endOpen, Instruction.isRet, opened]
  rw [Block.instructions, marks_items (inOrder_of_not h hb hs), PassState.pending, hs]
  simp [opened_append, hstart, (Bracketed.pairs (called b.body)).opened_eq, hstop]

theorem marks_append (l l' : List Item) : marks (l ++ l') = marks l ++ marks l' :=
  List.filterMap_append

/-- The rest of a block, where it leads, and that it takes what is open to what is open there. -/
def Ahead (fs : List Function) (frame : Frame Item) (o : List String) : Prop :=
  ∃ F b pre, find fs frame.function = some F ∧ b ∈ F.blocks ∧
    frame.rest = pre ++ [.original (.terminator b.terminator)] ∧
    (∀ I, .original I ∈ pre → ∃ i, I = .instr i) ∧
    opened o (marks pre) = some (endOpen F.name b.terminator)

/-- A block is ahead of the thread that comes to it. -/
theorem Ahead.of_block (h : ∀ F ∈ fs, ¬ReturnsFromCall F) {f : String}
    (hF : find fs f = some F) {k : Nat} {block : List Item}
    (hblock : (itemsOf F.name initial F.blocks)[k]? = some block) :
    Ahead fs ⟨f, block⟩ (if k = 0 then [] else mainOpen F.name) := by
  have hlt : k < F.blocks.length := by
    rw [← length_itemsOf F.name initial F.blocks]
    exact (List.getElem?_eq_some_iff.mp hblock).1
  have hb : F.blocks[k] ∈ F.blocks := List.getElem_mem hlt
  obtain ⟨s, hitems, hflag, hzero, hpos⟩ :=
    itemsOf_block (F := F.name) (s := initial) rfl (List.getElem?_eq_getElem hlt)
  obtain rfl := Option.some.inj (hblock.symm.trans hitems)
  have hbase : (if k = 0 then [] else mainOpen F.name) = [] ∧ s.mainStart = true ∨
      (if k = 0 then [] else mainOpen F.name) = mainOpen F.name ∧
        (F.name = "main" → s.mainStart = false) := by
    by_cases hk : k = 0
    · exact .inl ⟨if_pos hk, hzero hk⟩
    · exact .inr ⟨if_neg hk, hpos hk⟩
  have hopened := opened_items (h F (List.mem_of_find?_eq_some hF)) hb hflag hbase
  have hsplit : items F.name s F.blocks[k].instructions =
      (items F.name s (F.blocks[k].body.map .instr) ++
        (marksAt F.name (after F.name s (F.blocks[k].body.map .instr))
          (.terminator F.blocks[k].terminator)).map .inserted) ++
        [.original (.terminator F.blocks[k].terminator)] := by
    rw [Block.instructions, items_append]
    simp [items]
  rw [hsplit, marks_append] at hopened
  refine ⟨F, F.blocks[k], _, hF, hb, hsplit, ?_, by simpa [marks] using hopened⟩
  intro I hI
  have hbody : I ∈ originals (items F.name s (F.blocks[k].body.map .instr)) := by
    rcases List.mem_append.mp hI with hI | hI
    · exact List.mem_filterMap.mpr ⟨_, hI, rfl⟩
    · simp at hI
  rw [originals_items] at hbody
  obtain ⟨i, -, rfl⟩ := List.mem_map.mp hbody
  exact ⟨i, rfl⟩

/-- The frames of a thread and what each of them has open, and nothing else is. -/
def Nested (fs : List Function) (t : Thread Item) : Prop :=
  ∃ os, List.Forall₂ (Ahead fs) t.frames os ∧ opened [] (marks t.log) = some os.flatten

theorem Ahead.of_entry (h : ∀ F ∈ fs, ¬ReturnsFromCall F) {f : String} {frame : Frame Item}
    (hentry : (program (fs.map Function.instrumented)).entry f = some frame) :
    Ahead fs frame [] := by
  obtain ⟨block, hblock, rfl⟩ := Option.map_eq_some_iff.mp hentry
  rw [program_instrumented] at hblock
  cases hF : find fs f with
  | none => simp [hF] at hblock
  | some F =>
    rw [hF, List.head?_eq_getElem?] at hblock
    exact Ahead.of_block (k := 0) h hF hblock

theorem Nested.step {σ : Type} {act : Act σ Instruction} (h : ∀ F ∈ fs, ¬ReturnsFromCall F)
    {f : String} {item : Item} {rest log : List Item} {frames frames' : List (Frame Item)}
    {x x' : σ} {names : List String} {c : Control}
    (hact : probed Item.instruction (leading act) item x x' names c)
    (hfollow : (program (fs.map Function.instrumented)).follow ⟨f, rest⟩ frames c = some frames')
    (hnested : Nested fs ⟨⟨f, item :: rest⟩ :: frames, log⟩) : Nested fs ⟨frames', log ++ [item]⟩ := by
  obtain ⟨_, hframes, hlog⟩ := hnested
  cases hframes with
  | @cons _ o _ os htop hframes =>
    obtain ⟨F, b, pre, hF, hb, hrest, hpre, hopened⟩ := htop
    cases pre with
    | nil =>
      -- the end of the block
      obtain ⟨rfl, rfl⟩ := List.cons.inj hrest
      obtain rfl := Option.some.inj hopened
      have hmarks : marks (log ++ [.original (.terminator b.terminator)]) = marks log := by
        simp [marks]
      cases hterminator : b.terminator with
      | ret =>
        rw [hterminator] at hact hlog hmarks
        obtain ⟨rfl, -⟩ := hact
        obtain rfl := Option.some.inj hfollow
        exact ⟨os, hframes, by rw [hmarks, hlog]; rfl⟩
      | other text successors =>
        rw [hterminator] at hact hlog hmarks
        obtain ⟨⟨k, hk, rfl⟩, -⟩ := hact
        obtain ⟨block, hblock, rfl⟩ := Option.map_eq_some_iff.mp hfollow
        rw [program_instrumented, hF] at hblock
        have hne : k ≠ 0 := by
          rintro rfl
          exact F.entry_once b hb (by rw [hterminator]; exact hk)
        have hahead := Ahead.of_block h hF hblock
        rw [if_neg hne] at hahead
        exact ⟨mainOpen F.name :: os, .cons hahead hframes, by rw [hmarks, hlog]; rfl⟩
    | cons item' pre =>
      obtain ⟨rfl, rfl⟩ := List.cons.inj hrest
      have hbody : ∀ I, .original I ∈ pre → ∃ i, I = .instr i := fun I hI => hpre I (.tail _ hI)
      cases item with
      | inserted call =>
        obtain ⟨rfl, rfl, rfl⟩ := hact
        obtain rfl := Option.some.inj hfollow
        obtain ⟨o', hread, hclose⟩ := Option.bind_eq_some_iff.mp hopened
        refine ⟨o' :: os, .cons ⟨F, b, pre, hF, hb, rfl, hbody, hclose⟩ hframes, ?_⟩
        have hmarks : marks (log ++ [.inserted call]) = marks log ++ [call] := by simp [marks]
        rw [hmarks, opened_concat, hlog]
        exact Mark.read_append hread _
      | original I =>
        have hmarks : marks (log ++ [.original I]) = marks log := by simp [marks]
        have hahead : Ahead fs ⟨f, pre ++ [.original (.terminator b.terminator)]⟩ o :=
          ⟨F, b, pre, hF, hb, rfl, hbody, hopened⟩
        rw [← hmarks] at hlog
        obtain ⟨i, rfl⟩ := hpre I (.head _)
        cases i with
        | other text =>
          obtain ⟨rfl, -⟩ := hact
          obtain rfl := Option.some.inj hfollow
          exact ⟨o :: os, .cons hahead hframes, hlog⟩
        | call callee =>
          obtain ⟨rfl, -⟩ := hact
          obtain rfl := Option.some.inj hfollow
          cases hentry : (program (fs.map Function.instrumented)).entry callee with
          | none => exact ⟨o :: os, .cons hahead hframes, hlog⟩
          | some frame =>
            exact ⟨[] :: o :: os, .cons (Ahead.of_entry h hentry) (.cons hahead hframes), hlog⟩

theorem nested_started (h : ∀ F ∈ fs, ¬ReturnsFromCall F) (names : List String) :
    ∀ t ∈ (program (fs.map Function.instrumented)).started names, Nested fs t := by
  intro t ht
  obtain ⟨f, -, hf⟩ := List.mem_filterMap.mp ht
  obtain ⟨frame, hframe, rfl⟩ := Option.map_eq_some_iff.mp hf
  exact ⟨[[]], .cons (.of_entry h hframe) .nil, rfl⟩

end Frames

/-- The pass comes back where both functions of the analysis are declared. The program then does
what it did, whatever its instructions mean and however its threads take turns; and where `main`
does not return right behind a call, the marks of each thread nest, across all calls, and close
when it is done. -/
theorem instrumentFunctions (M : Module) (fs : List Function) :
    (M.funcEntry → M.funcExit → ∃ out, runOnFunctions M fs = .ok out) ∧
    ∀ out, runOnFunctions M fs = .ok out → ∀ (σ : Type) (act : Act σ Instruction),
      (∀ (s : State σ Item) (s₀ : State σ Instruction),
        Execution (program (fs.map Function.source)) (leading act) (s.erase Item.instruction) s₀ ↔
          ∃ s', Execution (program out) (probed Item.instruction (leading act)) s s' ∧
            s'.erase Item.instruction = s₀) ∧
      ((∀ F ∈ fs, ¬ReturnsFromCall F) → ∀ (x : σ) (names : List String) (s : State σ Item),
        Execution (program out) (probed Item.instruction (leading act))
          ⟨x, (program out).started names⟩ s →
          ∀ t ∈ s.threads, (∃ rest, Bracketed (marks t.log ++ rest)) ∧
            (t.frames = [] → Bracketed (marks t.log))) := by
  have hpass := runOnFunctions_delivers M fs
  constructor
  · intro hentry hexit
    cases hrun : runOnFunctions M fs with
    | ok out => exact ⟨out, rfl⟩
    | error e =>
      rw [hrun] at hpass
      cases hpass with | error hmissing =>
      exact absurd ⟨hentry, hexit⟩ hmissing
  · intro out hout σ act
    rw [hout] at hpass
    cases hpass with | ok hinstrumented =>
    subst hinstrumented
    refine ⟨fun s s₀ => run_erase_iff (erases fs), ?_⟩
    intro h x names s hrun t ht
    have hnested := hrun.forall_threads
      (fun _ _ hentry => ⟨[[]], .cons (Ahead.of_entry h hentry) .nil, rfl⟩)
      (fun _ _ _ _ _ _ _ _ _ _ hact hfollow => Nested.step h hact hfollow)
      (nested_started h names) t ht
    obtain ⟨os, hframes, hopened⟩ := hnested
    refine ⟨exists_bracketed hopened, fun hdone => bracketed_of_opened ?_⟩
    rw [hdone] at hframes
    cases hframes
    exact hopened

/-- A `main` that calls `fun` and stores behind it. -/
def mainFun : List Function := [
  { name := "main", blocks := [⟨[.call "fun", .other "store"], .ret⟩], entry_once := by decide },
  { name := "fun", blocks := [⟨[.call "printf"], .ret⟩], entry_once := by decide }]

theorem main_fun_nests : ∃ out, runOnFunctions ⟨true, true⟩ mainFun = .ok out ∧
    ∀ (σ : Type) (act : Act σ Instruction) (x : σ) (names : List String) (s : State σ Item),
      Execution (program out) (probed Item.instruction (leading act))
        ⟨x, (program out).started names⟩ s →
        ∀ t ∈ s.threads, (∃ rest, Bracketed (marks t.log ++ rest)) ∧
          (t.frames = [] → Bracketed (marks t.log)) := by
  have hfunctions : ∀ F ∈ mainFun, ¬ReturnsFromCall F := by
    intro F hF
    simp only [mainFun, List.mem_cons, List.not_mem_nil, or_false] at hF
    rcases hF with rfl | rfl
    · rintro ⟨-, b, hb, -, g, hlast, -⟩
      obtain rfl := List.mem_singleton.mp hb
      simp at hlast
    · rintro ⟨hname, -⟩
      exact absurd hname (by decide)
  obtain ⟨hout, hruns⟩ := instrumentFunctions ⟨true, true⟩ mainFun
  obtain ⟨out, hout⟩ := hout rfl rfl
  exact ⟨out, hout, fun σ act => (hruns out hout σ act).2 hfunctions⟩

end Bootcamp.Instrument
