import Mathlib.Algebra.Group.Nat.Defs

/-!
# FlowSketch.Proofs.Checked.Word

**Steps that a machine can fail at.** The library computes with natural numbers and reads arrays with
a default, so none of its steps can fail. A machine has words of a fixed size and stops at an index
outside an array. A `Checked` computation makes every such step explicit: it returns the value, or
the `Fault` that would stop the machine. The modules next to this one write each operation of the
library once more in checked steps and prove that it returns what the library says, so that no fault
can happen.

Each step has one lemma that says when it goes through. Some numbers have no bound of their own; an
operation that calculates with them goes through unless they are too large for a word (`EqUnless`),
and stops at no other fault.
-/

namespace FlowSketch

/-- What stops a machine. -/
inductive Fault where
  /-- An index is not below the length of its array. -/
  | outOfBounds
  /-- A sum or a product does not fit into its word. -/
  | overflow
  /-- A difference is below zero. -/
  | underflow
  /-- A divisor is zero. -/
  | divisionByZero
  /-- Something that was taken for granted does not hold. -/
  | assertion
deriving DecidableEq, Repr

/-- A computation that may stop at a fault. -/
abbrev Checked := Except Fault

namespace Checked

/-! ### Arithmetic -/

/-- The sum in a word of some bits. -/
def plus (bits a b : Nat) : Checked Nat :=
  if a + b < 2 ^ bits then .ok (a + b) else .error .overflow

/-- The product in a word of some bits. -/
def times (bits a b : Nat) : Checked Nat :=
  if a * b < 2 ^ bits then .ok (a * b) else .error .overflow

/-- The difference. -/
def minus (a b : Nat) : Checked Nat :=
  if b ≤ a then .ok (a - b) else .error .underflow

/-- The sum, cut at the largest word. -/
def saturatingPlus (a b : Nat) : Nat :=
  min (a + b) (2 ^ 64 - 1)

/-- The product, cut at the largest word. -/
def saturatingTimes (a b : Nat) : Nat :=
  min (a * b) (2 ^ 64 - 1)

/-- The remainder of a division. -/
def remainder (a b : Nat) : Checked Nat :=
  if b = 0 then .error .divisionByZero else .ok (a % b)

/-- Something is taken for granted. -/
def assert (p : Prop) [Decidable p] : Checked Unit :=
  if p then .ok () else .error .assertion

variable {a b c bits : Nat}

theorem plus_ok (h : a + b < 2 ^ bits) : plus bits a b = .ok (a + b) :=
  if_pos h

theorem times_ok (h : a * b < 2 ^ bits) : times bits a b = .ok (a * b) :=
  if_pos h

theorem saturatingPlus_eq (h : a + b < 2 ^ 64) : saturatingPlus a b = a + b := by
  unfold saturatingPlus
  omega

theorem saturatingTimes_eq (h : a * b < 2 ^ 64) : saturatingTimes a b = a * b := by
  unfold saturatingTimes
  omega

theorem minus_ok (h : b ≤ a) : minus a b = .ok (a - b) :=
  if_pos h

theorem minus_eq_ok : minus a b = .ok c ↔ b ≤ a ∧ c = a - b := by
  unfold minus
  split
  · rename_i hle
    simp [hle, eq_comm]
  · rename_i hgt
    simp [hgt]

theorem remainder_ok (h : b ≠ 0) : remainder a b = .ok (a % b) :=
  if_neg h

theorem assert_ok {p : Prop} [Decidable p] (h : p) : assert p = .ok () :=
  if_pos h

/-! ### Arrays and byte strings -/

variable {α : Type} {xs : Array α} {i : Nat} {x : α}

/-- The element with an index. -/
def read (xs : Array α) (i : Nat) : Checked α :=
  match xs[i]? with
  | some x => .ok x
  | none => .error .outOfBounds

/-- The array with one element overwritten. -/
def write (xs : Array α) (i : Nat) (x : α) : Checked (Array α) :=
  if i < xs.size then .ok (xs.setIfInBounds i x) else .error .outOfBounds

/-- The bytes from one position up to another one. -/
def slice (bytes : List UInt8) (first upTo : Nat) : Checked (List UInt8) :=
  if first ≤ upTo ∧ upTo ≤ bytes.length then .ok ((bytes.drop first).take (upTo - first))
  else .error .outOfBounds

theorem slice_ok {bytes : List UInt8} (h : a + b ≤ bytes.length) :
    slice bytes a (a + b) = .ok ((bytes.drop a).take b) := by
  rw [slice, if_pos ⟨Nat.le_add_right a b, h⟩, Nat.add_sub_cancel_left]

theorem read_ok (h : xs[i]? = some x) : read xs i = .ok x := by
  rw [read, h]

theorem read_ok_getD (h : i < xs.size) (default : α) : read xs i = .ok (xs.getD i default) := by
  rw [read, Array.getD_eq_getD_getElem?, Array.getElem?_eq_getElem h]
  rfl

theorem write_ok (h : i < xs.size) (x : α) : write xs i x = .ok (xs.setIfInBounds i x) :=
  if_pos h

/-- What goes through is handed on. -/
@[simp] theorem ok_bind {β : Type} (a : α) (next : α → Checked β) :
    ((Except.ok a : Checked α) >>= next) = next a := rfl

/-! ### Numbers without a bound -/

/-- Two computations are the same, unless something is large and the first one stops at an
overflow. -/
def EqUnless (large : Prop) (x y : Checked α) : Prop :=
  x = y ∨ x = .error .overflow ∧ large

theorem plus_eqUnless (bits a b : Nat) :
    EqUnless (2 ^ bits ≤ a + b) (plus bits a b) (.ok (a + b)) := by
  by_cases hfits : a + b < 2 ^ bits
  · exact .inl (plus_ok hfits)
  · exact .inr ⟨if_neg hfits, Nat.le_of_not_lt hfits⟩

theorem times_eqUnless (bits a b : Nat) :
    EqUnless (2 ^ bits ≤ a * b) (times bits a b) (.ok (a * b)) := by
  by_cases hfits : a * b < 2 ^ bits
  · exact .inl (times_ok hfits)
  · exact .inr ⟨if_neg hfits, Nat.le_of_not_lt hfits⟩

namespace EqUnless

variable {large large' : Prop} {w y z : Checked α}

theorem mono (h : EqUnless large w y) (himp : large → large') : EqUnless large' w y :=
  h.imp_right (And.imp_right himp)

theorem trans (h : EqUnless large w y) (h' : EqUnless large y z) : EqUnless large w z := by
  rcases h with rfl | hstop
  · exact h'
  · exact .inr hstop

/-- What goes through is handed on, and an overflow stops the rest. -/
theorem bind {β : Type} {next : α → Checked β} {v : Checked β} (h : EqUnless large w (.ok x))
    (hnext : EqUnless large (next x) v) : EqUnless large (w >>= next) v := by
  rcases h with rfl | ⟨rfl, hlarge⟩
  · exact hnext
  · exact .inr ⟨rfl, hlarge⟩

theorem eq_of_not (h : EqUnless large w y) (hsmall : ¬ large) : w = y :=
  h.resolve_right fun hstop => hsmall hstop.2

/-- What goes through stops at no fault but an overflow. -/
theorem ne_error {fault : Fault} (h : EqUnless large w (.ok x)) (hne : fault ≠ .overflow) :
    w ≠ .error fault := by
  rintro rfl
  rcases h with heq | ⟨heq, -⟩
  · cases heq
  · exact hne (Except.error.inj heq)

end EqUnless

end Checked

end FlowSketch
