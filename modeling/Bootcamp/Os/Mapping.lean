import Bootcamp.Lib.Pool

/-! The copies of a mapped stream, used by several threads, and their destructors, which count
them down and release the mapping. -/
namespace Bootcamp.Mapping

open Pool (count_split count_concat)

/-- A value in the 32 bits of an `int`. -/
def wrap (z : Int) : Int := (z + 2147483648) % 4294967296 - 2147483648

def intMax : Int := 2147483647

/-- A valid stream that can be used, or how far its destructor has come. -/
inductive Phase where
  | live
  | asserted
  | decremented
  | unmapping
  | closing
  | destroyed
  deriving DecidableEq, Repr

/-- The copies of one stream, in the order of their construction, and what they share: the
counter, and how often `munmap` and `close` were called. -/
structure State where
  copies : List Phase
  count : Int
  munmaps : Nat
  closes : Nat

/-- `osinstream_t(filename, true)`, when the file could be mapped. -/
def State.opened : State := ⟨[.live], 1, 0, 0⟩

inductive Action where
  | copy
  | assert
  | decrement
  | test
  | munmap
  | close

/-- The steps of the copy constructor and the destructors, each with one access to what is
shared. A stream is copied while it can be used, and destroyed once. -/
inductive Step : State → Action → State → Prop
  /-- `(*count)++`. -/
  | copy {s : State} : .live ∈ s.copies →
      Step s .copy { s with copies := s.copies ++ [.live], count := wrap (s.count + 1) }
  /-- `assert(*count >= 1)`, which stops the program where it fails. -/
  | assert {s : State} {before after : List Phase} : s.copies = before ++ .live :: after →
      1 ≤ s.count → Step s .assert { s with copies := before ++ .asserted :: after }
  /-- `(*count)--`. -/
  | decrement {s : State} {before after : List Phase} : s.copies = before ++ .asserted :: after →
      Step s .decrement
        { s with copies := before ++ .decremented :: after, count := wrap (s.count - 1) }
  /-- `if(*count == 0)`. -/
  | test {s : State} {before after : List Phase} : s.copies = before ++ .decremented :: after →
      Step s .test
        { s with copies := before ++ (if s.count = 0 then .unmapping else .destroyed) :: after }
  | munmap {s : State} {before after : List Phase} : s.copies = before ++ .unmapping :: after →
      Step s .munmap { s with copies := before ++ .closing :: after, munmaps := s.munmaps + 1 }
  | close {s : State} {before after : List Phase} : s.copies = before ++ .closing :: after →
      Step s .close { s with copies := before ++ .destroyed :: after, closes := s.closes + 1 }

/-- A run, with the state before each of its steps. -/
inductive Run : List (State × Action) → State → Prop
  | opened : Run [] .opened
  | step {past : List (State × Action)} {s s' : State} {action : Action} : Run past s →
      Step s action s' → Run (past ++ [(s, action)]) s'

/-- All streams are gone. -/
def State.Destroyed (s : State) : Prop := ∀ phase ∈ s.copies, phase = .destroyed

/-- The mapping is released once, behind the last decrement; between destructors the counter
tells how many streams there are; and a destructor that starts passes its assertion. -/
structure ReleasedOnce (s : State) : Prop where
  counted : (∀ phase ∈ s.copies, phase = .live ∨ phase = .destroyed) →
    s.count = s.copies.count .live
  once : s.munmaps ≤ 1 ∧ s.closes ≤ 1
  last : 0 < s.munmaps ∨ 0 < s.closes → .live ∉ s.copies ∧ .asserted ∉ s.copies
  released : s.Destroyed → s.munmaps = 1 ∧ s.closes = 1
  asserted : .live ∈ s.copies → 1 ≤ s.count

/-- The last stream is counted down while another one has yet to look at the counter. -/
def Races (s : State) : Action → Prop
  | .decrement => s.count = 1 ∧ .decremented ∈ s.copies
  | _ => False

/-- There is one more stream than an `int` can count. -/
def Overflows (s : State) : Action → Prop
  | .copy => s.count = intMax
  | _ => False

def Strays (s : State) (action : Action) : Prop := Overflows s action ∨ Races s action

theorem wrap_of_fits {z : Int} (hlow : 0 ≤ z) (hhigh : z ≤ intMax) : wrap z = z := by
  unfold wrap
  unfold intMax at hhigh
  omega

theorem State.Destroyed.count_eq_zero {s : State} (h : s.Destroyed) (phase : Phase)
    (hphase : phase ≠ .destroyed) : s.copies.count phase = 0 :=
  List.count_eq_zero.mpr fun hmem => hphase (h phase hmem)

/-- The releases that are done, under way, or, once the counter is zero, still to come. -/
def State.releases (s : State) : Nat :=
  s.copies.count .decremented + s.copies.count .unmapping + s.munmaps

/-- The counter counts the streams before their decrement. As long as there is one nothing is
released; then something is. -/
structure Counted (s : State) : Prop where
  count_eq : s.count = s.copies.count .live + s.copies.count .asserted
  fits : s.count ≤ intMax
  early : s.count ≠ 0 → s.copies.count .unmapping = 0 ∧ s.munmaps = 0
  late : s.count = 0 → 1 ≤ s.releases
  closes_eq : s.munmaps = s.copies.count .closing + s.closes

theorem opened_counted : Counted .opened where
  count_eq := by decide
  fits := by decide
  early _ := by decide
  late h := by cases h
  closes_eq := by decide

namespace Counted

variable {s : State}

theorem pos_of_live (h : Counted s) (hlive : .live ∈ s.copies) : 0 < s.count := by
  have hpos : 0 < s.copies.count .live := List.count_pos_iff.mpr hlive
  have hcount := h.count_eq
  omega

theorem pos_of_asserted (h : Counted s) (hasserted : .asserted ∈ s.copies) : 0 < s.count := by
  have hpos : 0 < s.copies.count .asserted := List.count_pos_iff.mpr hasserted
  have hcount := h.count_eq
  omega

theorem wrap_incremented (h : Counted s) (hlive : .live ∈ s.copies)
    (hfits : ¬Overflows s .copy) : wrap (s.count + 1) = s.count + 1 := by
  have hpos := h.pos_of_live hlive
  have hmax := h.fits
  have hnot : s.count ≠ intMax := hfits
  exact wrap_of_fits (by omega) (by omega)

theorem wrap_decremented (h : Counted s) (hasserted : .asserted ∈ s.copies) :
    wrap (s.count - 1) = s.count - 1 := by
  have hpos := h.pos_of_asserted hasserted
  have hmax := h.fits
  exact wrap_of_fits (by omega) (by omega)

theorem zero_of_unmapping (h : Counted s) (hunmapping : .unmapping ∈ s.copies) :
    s.count = 0 := by
  by_contra hne
  exact List.count_eq_zero.mp (h.early hne).1 hunmapping

end Counted

theorem step_counted {s s' : State} {action : Action} (h : Counted s) (hstep : Step s action s')
    (hfits : ¬Overflows s action) : Counted s' := by
  have ⟨hcount, hmax, hearly, hlate, hcloses⟩ := h
  unfold State.releases at hlate
  cases hstep with
  | copy hlive =>
    have hpos := h.pos_of_live hlive
    have hnot : s.count ≠ intMax := hfits
    have hwrap := h.wrap_incremented hlive hfits
    constructor <;>
      simp only [State.releases, hwrap, count_concat, reduceCtorEq, if_true, if_false] <;> omega
  | assert hsplit hassert =>
    simp only [hsplit, count_split, reduceCtorEq, if_true, if_false] at hcount hearly hlate hcloses
    constructor <;> simp only [State.releases, count_split, reduceCtorEq, if_true, if_false]
      <;> omega
  | decrement hsplit =>
    have hwrap := h.wrap_decremented (by simp [hsplit])
    simp only [hsplit, count_split, reduceCtorEq, if_true, if_false] at hcount hearly hlate hcloses
    constructor <;>
      simp only [State.releases, hwrap, count_split, reduceCtorEq, if_true, if_false] <;> omega
  | test hsplit =>
    simp only [hsplit, count_split, reduceCtorEq, if_true, if_false] at hcount hearly hlate hcloses
    by_cases hzero : s.count = 0
    · rw [if_pos hzero]
      constructor <;> simp only [State.releases, count_split, reduceCtorEq, if_true, if_false]
        <;> omega
    · rw [if_neg hzero]
      constructor <;> simp only [State.releases, count_split, reduceCtorEq, if_false] <;> omega
  | munmap hsplit =>
    have hzero := h.zero_of_unmapping (by simp [hsplit])
    simp only [hsplit, count_split, reduceCtorEq, if_true, if_false] at hcount hlate hcloses
    constructor <;> simp only [State.releases, count_split, reduceCtorEq, if_true, if_false]
      <;> omega
  | close hsplit =>
    simp only [hsplit, count_split, reduceCtorEq, if_true, if_false] at hcount hearly hlate hcloses
    constructor <;> simp only [State.releases, count_split, reduceCtorEq, if_false] <;> omega

/-- A destructor comes closer to its end with every step. -/
def Phase.left : Phase → Nat
  | .live => 5
  | .asserted => 4
  | .decremented => 3
  | .unmapping => 2
  | .closing => 1
  | .destroyed => 0

def State.left (s : State) : Nat := (s.copies.map Phase.left).sum

theorem step_left {s s' : State} {action : Action} (hstep : Step s action s')
    (hcopy : action ≠ .copy) : s'.left < s.left := by
  unfold State.left
  cases hstep with
  | copy => exact absurd rfl hcopy
  | assert hsplit | decrement hsplit | munmap hsplit | close hsplit =>
    rw [hsplit]
    exact Pool.sum_lt (by decide)
  | test hsplit =>
    rw [hsplit]
    apply Pool.sum_lt
    split
    · decide
    · decide

/-- No assertion fails, and no destructor gets stuck. -/
theorem counted_moves {s : State} (h : Counted s) :
    s.Destroyed ∨ ∃ action s', action ≠ .copy ∧ Step s action s' := by
  by_cases hall : s.Destroyed
  · exact .inl hall
  · right
    unfold State.Destroyed at hall
    push Not at hall
    obtain ⟨phase, hmem, hphase⟩ := hall
    obtain ⟨before, after, hsplit⟩ := List.append_of_mem hmem
    cases phase with
    | live =>
      have hpos := h.pos_of_live hmem
      exact ⟨_, _, by simp, .assert hsplit (by omega)⟩
    | asserted => exact ⟨_, _, by simp, .decrement hsplit⟩
    | decremented => exact ⟨_, _, by simp, .test hsplit⟩
    | unmapping => exact ⟨_, _, by simp, .munmap hsplit⟩
    | closing => exact ⟨_, _, by simp, .close hsplit⟩
    | destroyed => exact absurd rfl hphase

/-- Without a race one release is under way, once the counter is zero. -/
def Single (s : State) : Prop := s.count = 0 → s.releases = 1

/-- A race leads to another one. -/
def Double (s : State) : Prop := s.count = 0 ∧ 2 ≤ s.releases

theorem step_single {s s' : State} {action : Action} (hcounted : Counted s) (h : Single s)
    (hstep : Step s action s') (hfits : ¬Overflows s action) (hraces : ¬Races s action) :
    Single s' := by
  unfold Single State.releases at h ⊢
  cases hstep with
  | copy hlive =>
    have hpos := hcounted.pos_of_live hlive
    simp only [hcounted.wrap_incremented hlive hfits]
    omega
  | assert hsplit | munmap hsplit | close hsplit =>
    simp only [hsplit, count_split, reduceCtorEq, if_true, if_false] at h ⊢
    omega
  | decrement hsplit =>
    have hnone : s.count = 1 → s.copies.count .decremented = 0 := by
      intro hone
      exact List.count_eq_zero.mpr fun hmem => hraces ⟨hone, hmem⟩
    have hearly := hcounted.early
    have hpos := hcounted.pos_of_asserted (by simp [hsplit])
    rw [hcounted.wrap_decremented (by simp [hsplit])]
    simp only [hsplit, count_split, reduceCtorEq, if_true, if_false] at hearly hnone ⊢
    omega
  | test hsplit =>
    simp only [hsplit, count_split, reduceCtorEq, if_true, if_false] at h ⊢
    intro hzero
    rw [if_pos hzero]
    simp only [reduceCtorEq, if_true, if_false]
    omega

/-- A race leaves two streams that find the counter at zero. -/
theorem step_race {s s' : State} {action : Action} (hstep : Step s action s')
    (hraces : Races s action) : Double s' := by
  cases hstep with
  | decrement hsplit =>
    obtain ⟨hone, hmem⟩ := hraces
    have hpos : 0 < s.copies.count .decremented := List.count_pos_iff.mpr hmem
    have hwrap : wrap (s.count - 1) = 0 := by rw [hone]; decide
    unfold Double State.releases
    simp only [hsplit, count_split, reduceCtorEq, if_true, if_false] at hpos ⊢
    omega
  | copy | assert | test | munmap | close => cases hraces

theorem step_double {s s' : State} {action : Action} (hcounted : Counted s) (h : Double s)
    (hstep : Step s action s') : Double s' := by
  unfold Double State.releases at h ⊢
  cases hstep with
  -- no stream is left whose decrement is still to come
  | copy hlive =>
    have hpos := hcounted.pos_of_live hlive
    omega
  | assert hsplit =>
    have hpos := hcounted.pos_of_live (by simp [hsplit])
    omega
  | decrement hsplit =>
    have hpos := hcounted.pos_of_asserted (by simp [hsplit])
    omega
  | munmap hsplit | close hsplit =>
    simp only [hsplit, count_split, reduceCtorEq, if_true, if_false] at h ⊢
    omega
  | test hsplit =>
    rw [if_pos h.1]
    simp only [hsplit, count_split, reduceCtorEq, if_true, if_false] at h ⊢
    omega

/-- What a state with at most one release has to say. -/
theorem releasedOnce_of_single {s : State} (hcounted : Counted s) (h : Single s) :
    ReleasedOnce s := by
  have ⟨hcount, _, hearly, _, hcloses⟩ := hcounted
  unfold Single State.releases at h
  constructor
  · intro hidle
    have hnone : s.copies.count .asserted = 0 := by
      apply List.count_eq_zero.mpr
      intro hmem
      simpa using hidle _ hmem
    omega
  · by_cases hzero : s.count = 0
    · have := h hzero
      omega
    · have := hearly hzero
      omega
  · intro hreleased
    have hzero : s.count = 0 := by
      by_contra hne
      have := hearly hne
      omega
    exact ⟨List.count_eq_zero.mp (by omega), List.count_eq_zero.mp (by omega)⟩
  · intro hall
    have hlive := hall.count_eq_zero .live (by decide)
    have hasserted := hall.count_eq_zero .asserted (by decide)
    have hdecremented := hall.count_eq_zero .decremented (by decide)
    have hunmapping := hall.count_eq_zero .unmapping (by decide)
    have hclosing := hall.count_eq_zero .closing (by decide)
    have := h (by omega)
    omega
  · intro hlive
    have hpos := hcounted.pos_of_live hlive
    omega

theorem run_single {past : List (State × Action)} {s : State} (h : Run past s)
    (hgood : ∀ x ∈ past, ¬Strays x.1 x.2) :
    (∀ x ∈ past, ReleasedOnce x.1) ∧ Counted s ∧ Single s := by
  induction h with
  | opened => exact ⟨by simp, opened_counted, fun hzero => by cases hzero⟩
  | @step past s s' action hrun hstep ih =>
    simp only [List.forall_mem_append, List.forall_mem_singleton] at hgood ⊢
    obtain ⟨hpast, hlast⟩ := hgood
    obtain ⟨hfits, hraces⟩ := not_or.mp hlast
    obtain ⟨hreleased, hcounted, hsingle⟩ := ih hpast
    exact ⟨⟨hreleased, releasedOnce_of_single hcounted hsingle⟩,
      step_counted hcounted hstep hfits, step_single hcounted hsingle hstep hfits hraces⟩

/-- With one stream too many the counter is negative. -/
theorem step_overflow {s s' : State} {action : Action} (hstep : Step s action s')
    (hover : Overflows s action) : ¬ReleasedOnce s' := by
  intro hreleased
  cases hstep with
  | copy hlive =>
    have hfull : s.count = intMax := hover
    have hpos := hreleased.asserted (by simp)
    simp only [hfull] at hpos
    exact absurd hpos (by decide)
  | assert | decrement | test | munmap | close => cases hover

/-- Behind a step that strays either a state is wrong already, or two releases are under way. -/
theorem run_strays {past : List (State × Action)} {s : State} (h : Run past s)
    (hstrays : ∃ x ∈ past, Strays x.1 x.2) :
    (∃ x ∈ past, ¬ReleasedOnce x.1) ∨ ¬ReleasedOnce s ∨ Counted s ∧ Double s := by
  induction h with
  | opened => simp at hstrays
  | @step past s s' action hrun hstep ih =>
    by_cases hbefore : ∃ x ∈ past, Strays x.1 x.2
    · rcases ih hbefore with ⟨x, hx, hbad⟩ | hbad | ⟨hcounted, hdouble⟩
      · exact .inl ⟨x, List.mem_append_left _ hx, hbad⟩
      · exact .inl ⟨_, List.mem_append_right _ (List.mem_singleton.mpr rfl), hbad⟩
      · right; right
        have hfits : ¬Overflows s action := by
          intro hover
          cases action with
          | copy => exact absurd (hdouble.1.symm.trans hover) (by decide)
          | assert | decrement | test | munmap | close => cases hover
        exact ⟨step_counted hcounted hstep hfits, step_double hcounted hdouble hstep⟩
    · have hlast : Strays s action := by
        obtain ⟨x, hx, hstrays⟩ := hstrays
        rcases List.mem_append.mp hx with hx | hx
        · exact absurd ⟨x, hx, hstrays⟩ hbefore
        · obtain rfl := List.mem_singleton.mp hx
          exact hstrays
      right
      rcases hlast with hover | hraces
      · exact .inl (step_overflow hstep hover)
      · right
        obtain ⟨-, hcounted, -⟩ := run_single hrun fun x hx hx' => hbefore ⟨x, hx, hx'⟩
        have hfits : ¬Overflows s action := by
          cases action with
          | decrement => exact id
          | copy | assert | test | munmap | close => cases hraces
        exact ⟨step_counted hcounted hstep hfits, step_race hstep hraces⟩

theorem not_releasedOnce {s : State} (h : Double s) (hall : s.Destroyed) : ¬ReleasedOnce s := by
  intro hreleased
  obtain ⟨-, htwice⟩ := h
  have hone := (hreleased.released hall).1
  have hdecremented := hall.count_eq_zero .decremented (by decide)
  have hunmapping := hall.count_eq_zero .unmapping (by decide)
  rw [State.releases, hdecremented, hunmapping] at htwice
  omega

/-- In a run without stray steps the mapping is released once, and the destructors always come to
their end. A run to the end that has one is wrong somewhere. -/
theorem released_once_iff {past : List (State × Action)} {s : State} (h : Run past s) :
    ((∀ x ∈ past, ¬Strays x.1 x.2) →
      ((∀ x ∈ past, ReleasedOnce x.1) ∧ ReleasedOnce s) ∧
        (s.Destroyed ∨ ∃ action s', Step s action s' ∧ s'.left < s.left)) ∧
    (s.Destroyed →
      ((∀ x ∈ past, ReleasedOnce x.1) ∧ ReleasedOnce s ↔ ∀ x ∈ past, ¬Strays x.1 x.2)) := by
  have hsound (hgood : ∀ x ∈ past, ¬Strays x.1 x.2) :
      (∀ x ∈ past, ReleasedOnce x.1) ∧ ReleasedOnce s := by
    obtain ⟨hpast, hcounted, hsingle⟩ := run_single h hgood
    exact ⟨hpast, releasedOnce_of_single hcounted hsingle⟩
  constructor
  · intro hgood
    refine ⟨hsound hgood, ?_⟩
    obtain ⟨-, hcounted, -⟩ := run_single h hgood
    rcases counted_moves hcounted with hall | ⟨action, s', hcopy, hstep⟩
    · exact .inl hall
    · exact .inr ⟨action, s', hstep, step_left hstep hcopy⟩
  · intro hall
    refine ⟨?_, hsound⟩
    rintro ⟨hpast, hs⟩ x hx hstrays
    rcases run_strays h ⟨x, hx, hstrays⟩ with ⟨y, hy, hbad⟩ | hbad | ⟨-, hdouble⟩
    · exact hbad (hpast y hy)
    · exact hbad hs
    · exact not_releasedOnce hdouble hall hs

/-- Another thread destroys the copy that it was given, and has looked at the counter before the
stream itself is counted down. -/
def handedOver : List (State × Action) :=
  [(.opened, .copy), (⟨[.live, .live], 2, 0, 0⟩, .assert),
    (⟨[.live, .asserted], 2, 0, 0⟩, .decrement), (⟨[.live, .decremented], 1, 0, 0⟩, .assert),
    (⟨[.asserted, .decremented], 1, 0, 0⟩, .test),
    (⟨[.asserted, .destroyed], 1, 0, 0⟩, .decrement),
    (⟨[.decremented, .destroyed], 0, 0, 0⟩, .test),
    (⟨[.unmapping, .destroyed], 0, 0, 0⟩, .munmap), (⟨[.closing, .destroyed], 0, 1, 0⟩, .close)]

theorem run_handed_over : Run handedOver ⟨[.destroyed, .destroyed], 0, 1, 1⟩ := by
  have hdecremented : Run _ ⟨[.live, .decremented], 1, 0, 0⟩ :=
    .step (.step (.step .opened (.copy (by decide)))
      (@Step.assert _ [.live] [] rfl (by decide))) (@Step.decrement _ [.live] [] rfl)
  have hdestroyed : Run _ ⟨[.asserted, .destroyed], 1, 0, 0⟩ :=
    .step (.step hdecremented (@Step.assert _ [] [.decremented] rfl (by decide)))
      (@Step.test _ [.asserted] [] rfl)
  have htested : Run _ ⟨[.unmapping, .destroyed], 0, 0, 0⟩ :=
    .step (.step hdestroyed (@Step.decrement _ [] [.destroyed] rfl))
      (@Step.test _ [] [.destroyed] rfl)
  exact .step (.step htested (@Step.munmap _ [] [.destroyed] rfl))
    (@Step.close _ [] [.destroyed] rfl)

theorem handed_over_released :
    ((∀ x ∈ handedOver, ReleasedOnce x.1) ∧
      ReleasedOnce ⟨[.destroyed, .destroyed], 0, 1, 1⟩) ∧
    ((⟨[.destroyed, .destroyed], 0, 1, 1⟩ : State).Destroyed →
      ((∀ x ∈ handedOver, ReleasedOnce x.1) ∧
          ReleasedOnce ⟨[.destroyed, .destroyed], 0, 1, 1⟩ ↔
        ∀ x ∈ handedOver, ¬Strays x.1 x.2)) := by
  have hiff := released_once_iff run_handed_over
  have hcalm : ∀ x ∈ handedOver, ¬Strays x.1 x.2 := by
    simp [handedOver, Strays, Overflows, Races, intMax, State.opened]
  exact ⟨(hiff.1 hcalm).1, hiff.2⟩

/-- A stream and its copy are destroyed at the same time: each destructor counts down before
either looks at the counter. -/
theorem mapping_released_twice :
    ∃ past s, Run past s ∧ s.Destroyed ∧ s.munmaps = 2 ∧ s.closes = 2 ∧ ¬ReleasedOnce s := by
  have hcopied : Run _ ⟨[.live, .live], 2, 0, 0⟩ := .step .opened (.copy (by decide))
  have hasserted : Run _ ⟨[.asserted, .asserted], 2, 0, 0⟩ :=
    .step (.step hcopied (@Step.assert _ [] [.live] rfl (by decide)))
      (@Step.assert _ [.asserted] [] rfl (by decide))
  have hdecremented : Run _ ⟨[.decremented, .decremented], 0, 0, 0⟩ :=
    .step (.step hasserted (@Step.decrement _ [] [.asserted] rfl))
      (@Step.decrement _ [.decremented] [] rfl)
  have htested : Run _ ⟨[.unmapping, .unmapping], 0, 0, 0⟩ :=
    .step (.step hdecremented (@Step.test _ [] [.decremented] rfl))
      (@Step.test _ [.unmapping] [] rfl)
  have hunmapped : Run _ ⟨[.closing, .closing], 0, 2, 0⟩ :=
    .step (.step htested (@Step.munmap _ [] [.unmapping] rfl)) (@Step.munmap _ [.closing] [] rfl)
  have hclosed : Run _ ⟨[.destroyed, .destroyed], 0, 2, 2⟩ :=
    .step (.step hunmapped (@Step.close _ [] [.closing] rfl)) (@Step.close _ [.destroyed] [] rfl)
  refine ⟨_, _, hclosed, by simp [State.Destroyed], rfl, rfl, fun h => ?_⟩
  exact absurd h.once.1 (by decide)

end Bootcamp.Mapping
