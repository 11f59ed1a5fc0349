import FlowSketch.Bytes
import FlowSketch.Wire.Error

/-!
# FlowSketch.Wire.Cursor

**Reading bytes from the front.** A cursor is the number of bytes read so far with the bytes that are
left; a reader takes a value off the front or refuses. The only refusal of the readers in this
module is that the bytes end before the field does (`require`), and it states the length that the
bytes would need up to the end of that field and the length that they have.
-/

namespace FlowSketch

/-- A place in a byte string. -/
structure Cursor where
  /-- The number of bytes read. -/
  position : Nat
  /-- The bytes not yet read. -/
  rest : List UInt8
deriving DecidableEq, Repr, Inhabited

/-- A computation that reads from a cursor and may refuse. -/
abbrev Reader := StateT Cursor (Except DecodeError)

/-- Does a list have at least `n` members? Looks at no more than `n` of them. -/
def reaches {α : Type} : Nat → List α → Bool
  | 0, _ => true
  | _ + 1, [] => false
  | n + 1, _ :: rest => reaches n rest

theorem reaches_iff {α : Type} (n : Nat) (l : List α) : reaches n l = true ↔ n ≤ l.length := by
  induction n generalizing l with
  | zero => simp [reaches]
  | succ n ih => cases l <;> simp [reaches, ih]

namespace Cursor

/-- The start of a byte string. -/
def start (bytes : List UInt8) : Cursor := { position := 0, rest := bytes }

/-- The length of the whole byte string. -/
def length (c : Cursor) : Nat := c.position + c.rest.length

/-- The cursor `n` bytes further on. -/
def advance (c : Cursor) (n : Nat) : Cursor where
  position := c.position + n
  rest := c.rest.drop n

end Cursor

namespace Reader

/-- Refuses unless `n` more bytes are there. Reads nothing. -/
def require (n : Nat) : Reader Unit := fun c =>
  if reaches n c.rest then .ok ((), c) else .error (.bufferTooShort (c.position + n) c.length)

/-- The next `n` bytes. -/
def take (n : Nat) : Reader (List UInt8) := fun c =>
  if reaches n c.rest then .ok (c.rest.take n, c.advance n)
  else .error (.bufferTooShort (c.position + n) c.length)

/-- The next `n` bytes as a number. -/
def number (n : Nat) : Reader Nat := do
  return LittleEndian.value (← take n)

/-- A number of 32 bits. -/
def word32 : Reader UInt32 := do
  return UInt32.ofNat (← number 4)

/-- A number of 64 bits. -/
def word64 : Reader UInt64 := do
  return UInt64.ofNat (← number 8)

/-- A float by its bits. -/
def float : Reader Float := do
  return Float.ofBits (← word64)

/-- As many items as `count` says, each told its index, after those collected before. -/
def collect {α : Type} (item : Nat → Reader α) :
    (index count : Nat) → Array α → Reader (Array α)
  | _, 0, done => return done
  | index, count + 1, done => do
    let a ← item index
    collect item (index + 1) count (done.push a)

/-- Refuses unless all bytes have been read. -/
def finish : Reader Unit := fun c =>
  if c.rest.isEmpty then .ok ((), c) else .error (.lengthMismatch c.position c.length)

end Reader

end FlowSketch
