import Bootcamp.Lib.Pieces

/-! The stream on a mapped file, whose `read` claims a piece of the file under the lock and
copies it outside. -/
namespace Bootcamp.Osinstream

/-- A value in the 64 bits of a `long`. -/
def wrap (z : Int) : Int := (z + 9223372036854775808) % 18446744073709551616 - 9223372036854775808

def longMax : Int := 9223372036854775807

/-- A valid stream, with the pieces that reads have claimed, those through the stream it is a
copy of included, and those whose `memcpy` is still to come. -/
structure Stream where
  fpos : Int
  filesize : Int
  claimed : List Piece
  copying : List Piece

namespace Stream

/-- `osinstream_t(filename, true)`. -/
def opened (filesize : Int) : Stream := ⟨0, filesize, [], []⟩

/-- `osinstream_t(obj)`: no thread is in a read of the new object. -/
def duplicate (s : Stream) : Stream := { s with copying := [] }

/-- What `read` does under the lock, with what it will return. -/
def read (s : Stream) (size : Int) : Stream × Int :=
  if wrap (s.fpos + size) > s.filesize then (s, -1)
  else
    let cpos := s.fpos
    ({ s with fpos := wrap (s.fpos + size)
              claimed := s.claimed ++ [⟨cpos, size⟩]
              copying := s.copying ++ [⟨cpos, size⟩] }, size)

end Stream

inductive Action
  | read (size : Int)
  | memcpy
  | duplicate

/-- The steps of any number of threads: a read up to its unlock, the copy behind it, and the
construction of another stream, which the run then goes on with. -/
inductive Step : Stream → Action → Stream → Prop
  | read (s : Stream) {size : Int} : 0 < size → size ≤ longMax →
      Step s (.read size) (s.read size).1
  | memcpy {s : Stream} {before after : List Piece} {p : Piece} :
      s.copying = before ++ p :: after → Step s .memcpy { s with copying := before ++ after }
  | duplicate (s : Stream) : Step s .duplicate s.duplicate

/-- A run, with the state before each of its steps. Empty files cannot be mapped. -/
inductive Run : List (Stream × Action) → Stream → Prop
  | opened {filesize : Int} : 0 < filesize → filesize ≤ longMax → Run [] (.opened filesize)
  | step {past : List (Stream × Action)} {s s' : Stream} {action : Action} : Run past s →
      Step s action s' → Run (past ++ [(s, action)]) s'

/-- The pieces claimed are disjoint, lie in the file and are together what is in front of the
position; what is being copied is one of them. -/
structure Sound (s : Stream) : Prop where
  position : 0 ≤ s.fpos ∧ s.fpos ≤ s.filesize
  consecutive : Piece.Consecutive 0 s.claimed s.fpos
  disjoint : s.claimed.Pairwise fun p q => p.stop ≤ q.start
  covered : ∀ x, (∃ p ∈ s.claimed, p.start ≤ x ∧ x < p.stop) ↔ 0 ≤ x ∧ x < s.fpos
  inside : ∀ p ∈ s.claimed, 0 ≤ p.start ∧ p.stop ≤ s.filesize
  copied : ∀ p ∈ s.copying, p ∈ s.claimed

/-- A read that returns -1 changes nothing. -/
def RefusalUnchanged (s : Stream) : Action → Prop
  | .read size => (s.read size).2 = -1 → (s.read size).1 = s
  | _ => True

/-- The end of the piece asked for is no `long`. -/
def Overflows (s : Stream) : Action → Prop
  | .read size => longMax < s.fpos + size
  | _ => False

theorem sound_of_consecutive {s : Stream} (hconsecutive : Piece.Consecutive 0 s.claimed s.fpos)
    (hend : s.fpos ≤ s.filesize) (hcopied : ∀ p ∈ s.copying, p ∈ s.claimed) : Sound s where
  position := ⟨hconsecutive.le, hend⟩
  consecutive := hconsecutive
  disjoint := hconsecutive.disjoint
  covered := hconsecutive.covers
  inside p hp := by
    have := hconsecutive.inside p hp
    omega
  copied := hcopied

theorem refusal_unchanged {s s' : Stream} {action : Action} (h : Step s action s') :
    RefusalUnchanged s action := by
  cases h with
  | memcpy | duplicate => trivial
  | @read size hsize _ =>
    intro hret
    unfold Stream.read at hret ⊢
    split
    · rfl
    · rename_i hfits
      rw [if_neg hfits] at hret
      simp only at hret
      omega

theorem step_filesize {s s' : Stream} {action : Action} (h : Step s action s') :
    s'.filesize = s.filesize := by
  cases h with
  | memcpy | duplicate => rfl
  | read =>
    unfold Stream.read
    split
    · rfl
    · rfl

theorem run_filesize {past : List (Stream × Action)} {s : Stream} (h : Run past s) :
    s.filesize ≤ longMax := by
  induction h with
  | opened _ hmax => exact hmax
  | step _ hstep ih =>
    rw [step_filesize hstep]
    exact ih

/-- A read whose sum does not overflow claims the next piece, or none. -/
theorem read_sound {s : Stream} {size : Int} (h : Sound s) (hsize : 0 < size)
    (hsum : s.fpos + size ≤ longMax) : Sound (s.read size).1 := by
  have hpos := h.position
  have hwrap : wrap (s.fpos + size) = s.fpos + size := by
    unfold wrap
    unfold longMax at hsum
    omega
  unfold Stream.read
  split
  · exact h
  · rename_i hfits
    rw [hwrap] at hfits ⊢
    apply sound_of_consecutive
    · exact h.consecutive.snoc hsize
    · simp only
      omega
    · intro p hp
      rcases List.mem_append.mp hp with hp | hp
      · exact List.mem_append_left _ (h.copied p hp)
      · exact List.mem_append_right _ hp

/-- Where it overflows the position becomes negative. -/
theorem read_unsound {s : Stream} {size : Int} (h : Sound s) (hfile : s.filesize ≤ longMax)
    (hmax : size ≤ longMax) (hover : longMax < s.fpos + size) : ¬Sound (s.read size).1 := by
  have hpos := h.position
  have hwrap : wrap (s.fpos + size) < 0 := by
    unfold wrap
    unfold longMax at hover hmax hfile
    omega
  intro hsound
  have hnext := hsound.position.1
  unfold Stream.read at hnext
  rw [if_neg (by omega)] at hnext
  simp only at hnext
  omega

theorem step_sound {s s' : Stream} {action : Action} (h : Sound s) (hstep : Step s action s')
    (hfits : ¬Overflows s action) : Sound s' := by
  cases hstep with
  | read hsize hmax => exact read_sound h hsize (Int.not_lt.mp hfits)
  | memcpy hcopying =>
    refine sound_of_consecutive h.consecutive h.position.2 fun p hp => h.copied p ?_
    rw [hcopying]
    rcases List.mem_append.mp hp with hp | hp
    · exact List.mem_append_left _ hp
    · exact List.mem_append_right _ (List.mem_cons_of_mem _ hp)
  | duplicate => exact sound_of_consecutive h.consecutive h.position.2 fun p hp => by cases hp

theorem step_unsound {s s' : Stream} {action : Action} (h : Sound s) (hstep : Step s action s')
    (hfile : s.filesize ≤ longMax) (hover : Overflows s action) : ¬Sound s' := by
  cases hstep with
  | read hsize hmax => exact read_unsound h hfile hmax hover
  | memcpy | duplicate => cases hover

/-- The pieces that the reads of a run claim are disjoint pieces of the file, just when no read
asks for one whose end is beyond a `long`. -/
theorem sound_iff {past : List (Stream × Action)} {s : Stream} (h : Run past s) :
    ((∀ x ∈ past, Sound x.1 ∧ RefusalUnchanged x.1 x.2) ∧ Sound s) ↔
      ∀ x ∈ past, ¬Overflows x.1 x.2 := by
  induction h with
  | opened hpos _ =>
    have hstart : Sound (.opened _) :=
      sound_of_consecutive .nil (Int.le_of_lt hpos) fun p hp => by cases hp
    simpa using hstart
  | @step past s s' action hrun hstep ih =>
    simp only [List.forall_mem_append, List.forall_mem_singleton]
    constructor
    · rintro ⟨⟨hpast, hs, -⟩, hs'⟩
      refine ⟨ih.mp ⟨hpast, hs⟩, fun hover => ?_⟩
      exact step_unsound hs hstep (run_filesize hrun) hover hs'
    · rintro ⟨hpast, hlast⟩
      obtain ⟨hpast, hs⟩ := ih.mpr hpast
      exact ⟨⟨hpast, hs, refusal_unchanged hstep⟩, step_sound hs hstep hlast⟩

/-- Two threads read at the same time, and what is left is too short for a third one. -/
def twoReaders : List (Stream × Action) :=
  [(.opened 10, .read 4), (⟨4, 10, [⟨0, 4⟩], [⟨0, 4⟩]⟩, .read 5),
    (⟨9, 10, [⟨0, 4⟩, ⟨4, 5⟩], [⟨0, 4⟩, ⟨4, 5⟩]⟩, .memcpy),
    (⟨9, 10, [⟨0, 4⟩, ⟨4, 5⟩], [⟨0, 4⟩]⟩, .read 3),
    (⟨9, 10, [⟨0, 4⟩, ⟨4, 5⟩], [⟨0, 4⟩]⟩, .memcpy)]

theorem run_two_readers : Run twoReaders ⟨9, 10, [⟨0, 4⟩, ⟨4, 5⟩], []⟩ := by
  have hclaimed : Run _ ⟨9, 10, [⟨0, 4⟩, ⟨4, 5⟩], [⟨0, 4⟩, ⟨4, 5⟩]⟩ :=
    .step (.step (.opened (show (0 : Int) < 10 by decide) (by decide))
      (.read _ (show (0 : Int) < 4 by decide) (by decide)))
      (.read _ (show (0 : Int) < 5 by decide) (by decide))
  have hrefused : Run _ ⟨9, 10, [⟨0, 4⟩, ⟨4, 5⟩], [⟨0, 4⟩]⟩ :=
    .step (.step hclaimed (@Step.memcpy _ [⟨0, 4⟩] [] ⟨4, 5⟩ rfl))
      (.read _ (show (0 : Int) < 3 by decide) (by decide))
  exact .step hrefused (@Step.memcpy _ [] [] ⟨0, 4⟩ rfl)

theorem two_readers_sound :
    (∀ x ∈ twoReaders, Sound x.1 ∧ RefusalUnchanged x.1 x.2) ∧
      Sound ⟨9, 10, [⟨0, 4⟩, ⟨4, 5⟩], []⟩ :=
  (sound_iff run_two_readers).mpr (by simp [twoReaders, Overflows, Stream.opened, longMax])

/-- Of a file of ten bytes one is read, and then `LONG_MAX` bytes from the second on. -/
theorem read_leaves_file :
    ∃ past s, Run past s ∧ s.fpos = -9223372036854775808 ∧
      s.copying = [⟨0, 1⟩, ⟨1, 9223372036854775807⟩] ∧ ¬Sound s := by
  have hfirst : Run _ _ := .step (.opened (show (0 : Int) < 10 by decide) (by decide))
    (.read _ (show (0 : Int) < 1 by decide) (by decide))
  refine ⟨_, _, .step hfirst (.read _ (show (0 : Int) < 9223372036854775807 by decide)
    (by decide)), rfl, rfl, fun h => ?_⟩
  exact absurd h.position.1 (by decide)

end Bootcamp.Osinstream
