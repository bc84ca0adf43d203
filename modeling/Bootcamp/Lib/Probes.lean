import Mathlib.Logic.Relation
import Bootcamp.Lib.Pool

/-! Threads that run the functions of a program, and what it means to put probes into a program:
instructions that change nothing and only stand in the log. -/
namespace Flow

/-- Where a thread goes from an instruction. -/
inductive Control where
  | next
  | call (callee : String)
  | jump (k : Nat)
  | ret
  deriving DecidableEq, Repr

/-- The blocks of each function, the entry first. What is only declared has none. -/
abbrev Program (ι : Type) := String → List (List ι)

structure Frame (ι : Type) where
  function : String
  rest : List ι

structure Thread (ι : Type) where
  frames : List (Frame ι)
  log : List ι

structure State (σ ι : Type) where
  shared : σ
  threads : List (Thread ι)

/-- What an instruction may do: to the shared data, the functions it starts threads with, and
where its own thread goes. -/
abbrev Act (σ ι : Type) := ι → σ → σ → List String → Control → Prop

def Program.entry {ι : Type} (P : Program ι) (f : String) : Option (Frame ι) :=
  (P f).head?.map fun block => ⟨f, block⟩

def Program.started {ι : Type} (P : Program ι) (names : List String) : List (Thread ι) :=
  names.filterMap fun f => (P.entry f).map fun frame => ⟨[frame], []⟩

/-- The frames behind an instruction. A callee without blocks is done with the call itself. -/
def Program.follow {ι : Type} (P : Program ι) (frame : Frame ι) (frames : List (Frame ι)) :
    Control → Option (List (Frame ι))
  | .next => some (frame :: frames)
  | .call callee => some ((P.entry callee).toList ++ frame :: frames)
  | .jump k => (P frame.function)[k]?.map fun block => ⟨frame.function, block⟩ :: frames
  | .ret => some frames

/-- One thread executes one instruction. -/
inductive Step {σ ι : Type} (P : Program ι) (act : Act σ ι) : State σ ι → State σ ι → Prop
  | exec {before after : List (Thread ι)} {f : String} {i : ι} {rest log : List ι}
      {frames frames' : List (Frame ι)} {x x' : σ} {names : List String} {c : Control} :
      act i x x' names c → P.follow ⟨f, rest⟩ frames c = some frames' →
      Step P act ⟨x, before ++ ⟨⟨f, i :: rest⟩ :: frames, log⟩ :: after⟩
        ⟨x', before ++ ⟨frames', log ++ [i]⟩ :: (after ++ P.started names)⟩

abbrev Execution {σ ι : Type} (P : Program ι) (act : Act σ ι) : State σ ι → State σ ι → Prop :=
  Relation.ReflTransGen (Step P act)

/-- What holds of new threads and survives the steps of a thread holds of every thread. -/
theorem Execution.forall_threads {σ ι : Type} {P : Program ι} {act : Act σ ι} {I : Thread ι → Prop}
    (fresh : ∀ f frame, P.entry f = some frame → I ⟨[frame], []⟩)
    (step : ∀ f i rest frames log x x' names c frames', act i x x' names c →
      P.follow ⟨f, rest⟩ frames c = some frames' → I ⟨⟨f, i :: rest⟩ :: frames, log⟩ →
      I ⟨frames', log ++ [i]⟩)
    {s s' : State σ ι} (h : Execution P act s s') (hs : ∀ t ∈ s.threads, I t) :
    ∀ t ∈ s'.threads, I t := by
  induction h with
  | refl => exact hs
  | tail _ hstep ih =>
    cases hstep with
    | exec hact hfollow =>
      intro t ht
      rcases Pool.mem_split.mp ht with rfl | ht
      · exact step _ _ _ _ _ _ _ _ _ _ hact hfollow (ih _ (by simp))
      · rw [← List.append_assoc, List.mem_append] at ht
        rcases ht with ht | ht
        · exact ih t (Pool.mem_split.mpr (.inr ht))
        · obtain ⟨f, -, hf⟩ := List.mem_filterMap.mp ht
          obtain ⟨frame, hframe, rfl⟩ := Option.map_eq_some_iff.mp hf
          exact fresh f frame hframe

/-! ## Probes -/

section Erase

variable {κ ι σ : Type} (original : κ → Option ι)

/-- A probe does nothing, and every other instruction what it did. -/
def probed (act : Act σ ι) : Act σ κ := fun k x x' names c => match original k with
  | some i => act i x x' names c
  | none => x' = x ∧ names = [] ∧ c = .next

def Frame.erase (frame : Frame κ) : Frame ι := ⟨frame.function, frame.rest.filterMap original⟩

def Thread.erase (t : Thread κ) : Thread ι :=
  ⟨t.frames.map (Frame.erase original), t.log.filterMap original⟩

def State.erase (s : State σ κ) : State σ ι := ⟨s.shared, s.threads.map (Thread.erase original)⟩

/-- `P` is `P₀` with probes. -/
def Program.Erases (P : Program κ) (P₀ : Program ι) : Prop :=
  ∀ f, (P f).map (List.filterMap original) = P₀ f

variable {original} {P : Program κ} {P₀ : Program ι} {act : Act σ ι} {s s' : State σ κ}

theorem Program.Erases.entry (h : P.Erases original P₀) (f : String) :
    P₀.entry f = (P.entry f).map (Frame.erase original) := by
  simp [Program.entry, ← h f, Frame.erase, Function.comp_def]

theorem Program.Erases.started (h : P.Erases original P₀) (names : List String) :
    P₀.started names = (P.started names).map (Thread.erase original) := by
  simp [Program.started, h.entry, List.map_filterMap, Thread.erase, Function.comp_def]

theorem Program.Erases.follow (h : P.Erases original P₀) (frame : Frame κ)
    (frames : List (Frame κ)) (c : Control) :
    P₀.follow (frame.erase original) (frames.map (Frame.erase original)) c =
      (P.follow frame frames c).map (List.map (Frame.erase original)) := by
  cases c with
  | next => rfl
  | call callee => simp [Program.follow, h.entry, Option.toList_map]
  | jump k => simp [Program.follow, ← h frame.function, Frame.erase, Function.comp_def]
  | ret => rfl

/-- A step with probes is a step without, or leaves everything as it is. -/
theorem Step.erase (hP : P.Erases original P₀) (h : Step P (probed original act) s s') :
    Step P₀ act (s.erase original) (s'.erase original) ∨ s'.erase original = s.erase original := by
  cases h with
  | @exec before after f k rest log frames frames' x x' names c hact hfollow =>
    cases hk : original k with
    | none =>
      simp only [probed, hk] at hact
      obtain ⟨rfl, rfl, rfl⟩ := hact
      obtain rfl := Option.some.inj hfollow
      right
      simp [State.erase, Thread.erase, Frame.erase, hk, Program.started]
    | some i =>
      simp only [probed, hk] at hact
      have hnext := hP.follow ⟨f, rest⟩ frames c
      rw [hfollow] at hnext
      have hstep : Step P₀ act _ ⟨x', before.map (Thread.erase original) ++
          ⟨_, log.filterMap original ++ [i]⟩ :: (after.map (Thread.erase original) ++ _)⟩ :=
        .exec hact hnext
      left
      simpa [State.erase, Thread.erase, Frame.erase, hk, hP.started] using hstep

/-- A thread can run the probes in front of it. -/
theorem run_probes {before after : List (Thread κ)} {f : String} {ks rest log : List κ}
    {frames : List (Frame κ)} {x : σ} (hks : ∀ k ∈ ks, original k = none) :
    Execution P (probed original act) ⟨x, before ++ ⟨⟨f, ks ++ rest⟩ :: frames, log⟩ :: after⟩
      ⟨x, before ++ ⟨⟨f, rest⟩ :: frames, log ++ ks⟩ :: after⟩ := by
  induction ks generalizing log with
  | nil => simpa using Relation.ReflTransGen.refl
  | cons k ks ih =>
    obtain ⟨hk, hks⟩ := List.forall_mem_cons.mp hks
    have hact : probed original act k x x [] .next := by simp [probed, hk]
    have hstep : Step P (probed original act)
        ⟨x, before ++ ⟨⟨f, k :: (ks ++ rest)⟩ :: frames, log⟩ :: after⟩
        ⟨x, before ++ ⟨⟨f, ks ++ rest⟩ :: frames, log ++ [k]⟩ :: (after ++ P.started [])⟩ :=
      .exec hact rfl
    refine .head hstep ?_
    simpa [Program.started] using @ih (log ++ [k]) hks

/-- A step without probes is one that a thread with probes can come to. -/
theorem Step.lift (hP : P.Erases original P₀) {s₁ : State σ ι}
    (h : Step P₀ act (s.erase original) s₁) :
    ∃ s', Execution P (probed original act) s s' ∧ s'.erase original = s₁ := by
  obtain ⟨x, threads⟩ := s
  generalize hs : State.erase original ⟨x, threads⟩ = s₀ at h
  cases h with
  | @exec before₀ after₀ f i rest₀ log₀ frames₀ frames₁ x₀ x' names c hact hfollow =>
    obtain ⟨rfl, hthreads⟩ := State.mk.inj hs
    obtain ⟨before, _, rfl, rfl, hrest⟩ := List.map_eq_append_iff.mp hthreads
    obtain ⟨t, after, rfl, ht, rfl⟩ := List.map_eq_cons_iff.mp hrest
    obtain ⟨ts, log⟩ := t
    obtain ⟨hframes, rfl⟩ := Thread.mk.inj ht
    obtain ⟨top, frames, rfl, htop, rfl⟩ := List.map_eq_cons_iff.mp hframes
    obtain ⟨g, items⟩ := top
    obtain ⟨rfl, hitems⟩ := Frame.mk.inj htop
    obtain ⟨ks, k, rest, rfl, hks, hk, rfl⟩ := List.filterMap_eq_cons_iff.mp hitems
    have hnext := hP.follow ⟨g, rest⟩ frames c
    rw [show Frame.erase original ⟨g, rest⟩ = ⟨g, rest.filterMap original⟩ from rfl, hfollow] at hnext
    obtain ⟨frames', hframes', rfl⟩ := Option.map_eq_some_iff.mp hnext.symm
    have hact' : probed original act k x x' names c := by simpa [probed, hk] using hact
    have hnone : ks.filterMap original = [] := List.filterMap_eq_nil_iff.mpr hks
    refine ⟨_, (run_probes hks).tail (.exec hact' hframes'), ?_⟩
    simp [State.erase, Thread.erase, hk, hnone, hP.started]

/-- From any state the runs with probes are, but for the probes, the runs without. -/
theorem run_erase_iff (hP : P.Erases original P₀) {s₀ : State σ ι} :
    Execution P₀ act (s.erase original) s₀ ↔
      ∃ s', Execution P (probed original act) s s' ∧ s'.erase original = s₀ := by
  constructor
  · intro h
    induction h with
    | refl => exact ⟨s, .refl, rfl⟩
    | tail _ hstep ih =>
      obtain ⟨s', hrun, rfl⟩ := ih
      obtain ⟨s'', hmore, rfl⟩ := hstep.lift hP
      exact ⟨s'', hrun.trans hmore, rfl⟩
  · rintro ⟨s', hrun, rfl⟩
    induction hrun with
    | refl => exact .refl
    | tail _ hstep ih =>
      rcases hstep.erase hP with hstep | heq
      · exact ih.tail hstep
      · rw [heq]
        exact ih

end Erase

/-! ## Probes in front of instructions -/

section Expand

variable {κ ι σ : Type} (probes : ι → List κ) (embed : ι → κ)

/-- Instructions, each behind its probes. -/
def expand (is : List ι) : List κ := is.flatMap fun i => probes i ++ [embed i]

variable {probes embed} {original : κ → Option ι}

theorem expand_cons (i : ι) (is : List ι) :
    expand probes embed (i :: is) = probes i ++ embed i :: expand probes embed is := by
  simp [expand]

theorem expand_concat (is : List ι) (i : ι) :
    expand probes embed (is ++ [i]) = expand probes embed is ++ probes i ++ [embed i] := by
  simp [expand]

variable (original probes embed) in
/-- What stands in front of instructions counts as nothing, and they as themselves. -/
structure Reads : Prop where
  probe : ∀ i, ∀ k ∈ probes i, original k = none
  embed : ∀ i, original (embed i) = some i

theorem Reads.erase (h : Reads probes embed original) (is : List ι) :
    (expand probes embed is).filterMap original = is := by
  induction is with
  | nil => rfl
  | cons i is ih =>
    rw [expand_cons, List.filterMap_append, List.filterMap_eq_nil_iff.mpr (h.probe i),
      List.filterMap_cons_some (h.embed i), ih]
    rfl

variable (probes embed) in
/-- A thread has the probes of the next instruction behind it, or some of them. -/
inductive Expanded : Thread κ → Prop
  | finished (l : List ι) : Expanded ⟨[], expand probes embed l⟩
  | running {f : String} {l is : List ι} {done rest : List κ} {frames : List (Frame κ)} :
      done ++ rest = expand probes embed is →
      (done = [] ∨ ∃ i, is.head? = some i ∧ done <+: probes i) →
      (∀ frame ∈ frames, ∃ is, frame.rest = expand probes embed is) →
      Expanded ⟨⟨f, rest⟩ :: frames, expand probes embed l ++ done⟩

theorem Expanded.of_frames {frames : List (Frame κ)}
    (h : ∀ frame ∈ frames, ∃ is, frame.rest = expand probes embed is) (l : List ι) :
    Expanded probes embed ⟨frames, expand probes embed l⟩ := by
  cases frames with
  | nil => exact .finished l
  | cons top frames =>
    obtain ⟨⟨is, htop⟩, hframes⟩ := List.forall_mem_cons.mp h
    have hrun : Expanded probes embed
        ⟨⟨top.function, top.rest⟩ :: frames, expand probes embed l ++ []⟩ :=
      .running htop (.inl rfl) hframes
    rwa [List.append_nil] at hrun

variable {P : Program κ} {P₀ : Program ι} {act : Act σ ι}

/-- The frames behind an instruction are again of instructions behind their probes. -/
theorem frames_follow (hP : ∀ f, P f = (P₀ f).map (expand probes embed)) {f : String}
    {rest : List κ} {frames frames' : List (Frame κ)} {c : Control}
    (h : ∀ frame ∈ ⟨f, rest⟩ :: frames, ∃ is, frame.rest = expand probes embed is)
    (hfollow : P.follow ⟨f, rest⟩ frames c = some frames') :
    ∀ frame ∈ frames', ∃ is, frame.rest = expand probes embed is := by
  cases c with
  | next =>
    obtain rfl := Option.some.inj hfollow
    exact h
  | call callee =>
    obtain rfl := Option.some.inj hfollow
    intro frame hframe
    rcases List.mem_append.mp hframe with hentry | hold
    · obtain ⟨block, hblock, rfl⟩ := Option.map_eq_some_iff.mp (Option.mem_toList.mp hentry)
      rw [hP, List.head?_map] at hblock
      obtain ⟨is, -, rfl⟩ := Option.map_eq_some_iff.mp hblock
      exact ⟨is, rfl⟩
    · exact h frame hold
  | jump k =>
    obtain ⟨block, hblock, rfl⟩ := Option.map_eq_some_iff.mp hfollow
    rw [hP, List.getElem?_map] at hblock
    obtain ⟨is, -, rfl⟩ := Option.map_eq_some_iff.mp hblock
    exact List.forall_mem_cons.mpr ⟨⟨is, rfl⟩, (List.forall_mem_cons.mp h).2⟩
  | ret =>
    obtain rfl := Option.some.inj hfollow
    exact (List.forall_mem_cons.mp h).2

theorem Expanded.of_entry (hP : ∀ f, P f = (P₀ f).map (expand probes embed)) {f : String}
    {frame : Frame κ} (h : P.entry f = some frame) : Expanded probes embed ⟨[frame], []⟩ := by
  obtain ⟨block, hblock, rfl⟩ := Option.map_eq_some_iff.mp h
  rw [hP, List.head?_map] at hblock
  obtain ⟨is, -, rfl⟩ := Option.map_eq_some_iff.mp hblock
  exact .of_frames (by simp) []

theorem expanded_started (hP : ∀ f, P f = (P₀ f).map (expand probes embed))
    (names : List String) : ∀ t ∈ P.started names, Expanded probes embed t := by
  intro t ht
  obtain ⟨f, -, hf⟩ := List.mem_filterMap.mp ht
  obtain ⟨frame, hframe, rfl⟩ := Option.map_eq_some_iff.mp hf
  exact .of_entry hP hframe

theorem Expanded.step (hr : Reads probes embed original)
    (hP : ∀ f, P f = (P₀ f).map (expand probes embed)) {f : String} {k : κ} {rest log : List κ}
    {frames frames' : List (Frame κ)} {x x' : σ} {names : List String} {c : Control}
    (hact : probed original act k x x' names c)
    (hfollow : P.follow ⟨f, rest⟩ frames c = some frames')
    (h : Expanded probes embed ⟨⟨f, k :: rest⟩ :: frames, log⟩) :
    Expanded probes embed ⟨frames', log ++ [k]⟩ := by
  cases h with
  | @running _ l is done _ _ hsplit hdone hframes =>
    cases is with
    | nil => simp [expand] at hsplit
    | cons i is =>
      rw [expand_cons] at hsplit
      obtain ⟨due, hdue⟩ : done <+: probes i := by
        rcases hdone with rfl | ⟨_, heq, hfront⟩
        · exact List.nil_prefix
        · rwa [← Option.some.inj heq] at hfront
      rw [← hdue, List.append_assoc, List.append_cancel_left_eq] at hsplit
      cases due with
      | nil =>
        -- the instruction itself, behind all of its probes
        obtain ⟨rfl, rfl⟩ := List.cons.inj hsplit
        rw [List.append_nil] at hdue
        rw [hdue, ← expand_concat]
        exact .of_frames (frames_follow hP (List.forall_mem_cons.mpr ⟨⟨is, rfl⟩, hframes⟩) hfollow) _
      | cons k' due =>
        obtain ⟨rfl, rfl⟩ := List.cons.inj hsplit
        have hk : original k = none := hr.probe i k (by simp [← hdue])
        simp only [probed, hk] at hact
        obtain ⟨-, -, rfl⟩ := hact
        obtain rfl := Option.some.inj hfollow
        have hmore : (done ++ [k]) ++ (due ++ embed i :: expand probes embed is) =
            expand probes embed (i :: is) := by
          rw [expand_cons, ← hdue]
          simp
        rw [List.append_assoc]
        refine .running hmore (.inr ⟨i, rfl, ⟨due, ?_⟩⟩) hframes
        simpa using hdue

/-- In every run the log of a thread is that of its instructions, each right behind its probes,
and in the end probes of the instruction that is next. -/
theorem Execution.log_eq (hr : Reads probes embed original)
    (hP : ∀ f, P f = (P₀ f).map (expand probes embed)) {s s' : State σ κ}
    (h : Execution P (probed original act) s s')
    (hs : ∀ t ∈ s.threads, Expanded probes embed t) : ∀ t ∈ s'.threads, ∃ done,
      t.log = expand probes embed (t.log.filterMap original) ++ done ∧
        (done = [] ∨ ∃ frame i, t.frames.head? = some frame ∧
          (frame.rest.filterMap original).head? = some i ∧ done <+: probes i) := by
  intro t ht
  have hall := h.forall_threads (fun _ _ hframe => .of_entry hP hframe)
    (fun _ _ _ _ _ _ _ _ _ _ hact hfollow => Expanded.step hr hP hact hfollow) hs t ht
  cases hall with
  | finished l => exact ⟨[], by rw [hr.erase, List.append_nil], .inl rfl⟩
  | @running f l is done rest frames hsplit hdone hframes =>
    have hprobes : done.filterMap original = [] := by
      rcases hdone with rfl | ⟨i, -, hfront⟩
      · rfl
      · exact List.filterMap_eq_nil_iff.mpr fun k hk => hr.probe i k (hfront.subset hk)
    refine ⟨done, by rw [List.filterMap_append, hr.erase, hprobes, List.append_nil], ?_⟩
    refine hdone.imp id ?_
    rintro ⟨i, hi, hfront⟩
    have herase : rest.filterMap original = is := by
      have hboth := congrArg (List.filterMap original) hsplit
      rwa [List.filterMap_append, hprobes, List.nil_append, hr.erase] at hboth
    exact ⟨_, i, rfl, by rw [herase, hi], hfront⟩

end Expand

end Flow
