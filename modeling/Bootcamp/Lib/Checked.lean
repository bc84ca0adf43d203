import Bootcamp.Lib.Fallible

/-! C programs on arrays with every access and every signed expression
checked: the run aborts where C would leave an object, overflow an `int` or
read what was never written. -/
namespace Checked

inductive Fault where
  | overflow
  | divideByZero
  | outOfBounds
  | indeterminate
  /-- The bound on the turns of a loop was reached. -/
  | diverges
  | exit
  deriving DecidableEq, Repr

/-- A value of the 32-bit type `int`. -/
def InRange (z : Int) : Prop := -2147483648 ≤ z ∧ z ≤ 2147483647

instance (z : Int) : Decidable (InRange z) := inferInstanceAs (Decidable (_ ∧ _))

def int (z : Int) : Except Fault Int := if InRange z then .ok z else .error .overflow

def add (a b : Int) : Except Fault Int := int (a + b)

def sub (a b : Int) : Except Fault Int := int (a - b)

def mul (a b : Int) : Except Fault Int := int (a * b)

/-- Division truncates towards zero. -/
def div (a b : Int) : Except Fault Int :=
  if b = 0 then .error .divideByZero else int (a.tdiv b)

def mod (a b : Int) : Except Fault Int :=
  if b = 0 then .error .divideByZero else int (a.tmod b)

theorem int_ok {z : Int} (h : InRange z) : int z = .ok z := if_pos h

theorem add_ok {a b : Int} (h : InRange (a + b)) : add a b = .ok (a + b) := int_ok h

theorem sub_ok {a b : Int} (h : InRange (a - b)) : sub a b = .ok (a - b) := int_ok h

theorem mul_ok {a b : Int} (h : InRange (a * b)) : mul a b = .ok (a * b) := int_ok h

/-- Of a nonnegative value by a positive one, which is the division of `Int`. -/
theorem div_ok {a b : Int} (ha : 0 ≤ a) (hr : InRange a) (hb : 0 < b) :
    div a b = .ok (a / b) := by
  have hq : 0 ≤ a / b ∧ a / b ≤ a := ⟨Int.ediv_nonneg ha (by omega), Int.ediv_le_self b ha⟩
  rw [div, if_neg (by omega), Int.tdiv_eq_ediv_of_nonneg ha, int_ok]
  unfold InRange at hr ⊢
  omega

theorem mod_ok {a b : Int} (ha : 0 ≤ a) (hr : InRange a) (hb : 0 < b) :
    mod a b = .ok (a % b) := by
  have hq : 0 ≤ a % b := Int.emod_nonneg a (by omega)
  have hle : a % b ≤ a := by
    have := Int.mul_ediv_add_emod a b
    have : 0 ≤ b * (a / b) := Int.mul_nonneg (by omega) (Int.ediv_nonneg ha (by omega))
    omega
  rw [mod, if_neg (by omega), Int.tmod_eq_emod_of_nonneg ha, int_ok]
  unfold InRange at hr ⊢
  omega

section Arrays

variable {α : Type}

def load (arr : List α) (i : Int) : Except Fault α :=
  if i < 0 then .error .outOfBounds
  else match arr[i.toNat]? with
    | some x => .ok x
    | none => .error .outOfBounds

def store (arr : List α) (i : Int) (x : α) : Except Fault (List α) :=
  if 0 ≤ i ∧ i.toNat < arr.length then .ok (arr.set i.toNat x) else .error .outOfBounds

/-- Memory from the heap holds no values before they are written. -/
def fetch (buffer : List (Option α)) (i : Int) : Except Fault α := do
  match ← load buffer i with
  | some x => pure x
  | none => throw .indeterminate

theorem load_ok {arr : List α} {i : Nat} {x : α} (h : arr[i]? = some x) : load arr i = .ok x := by
  simp [load, h]

theorem store_ok {arr : List α} {i : Nat} (h : i < arr.length) (x : α) :
    store arr i x = .ok (arr.set i x) := by
  simp [store, h]

/-- Reading the cell behind a known front. -/
theorem load_append (front back : List α) (x : α) {i : Int} (hi : i = front.length) :
    load (front ++ x :: back) i = .ok x := by
  rw [hi, load_ok]
  simp

/-- Writing it. -/
theorem store_append (front back : List α) (x y : α) {i : Int} (hi : i = front.length) :
    store (front ++ x :: back) i y = .ok (front ++ y :: back) := by
  rw [hi, store_ok (by simp)]
  simp

theorem fetch_append (front back : List (Option α)) (x : α) {i : Int} (hi : i = front.length) :
    fetch (front ++ some x :: back) i = .ok x := by
  simp [fetch, load_append front back (some x) hi]

end Arrays

end Checked
