/-!
# FlowSketch.Bytes

**Byte strings and little-endian numerals.** Keys and encoded sketches are lists of bytes, and
every number inside an encoding is a fixed count of base-256 digits, least significant first. One
numeral on `Nat` serves all widths: `LittleEndian.bytes n v` writes the `n` lowest digits of `v` and
`LittleEndian.value` reads digits back. The two are inverse on numbers below `256 ^ n` and on byte
strings of length `n`, so a field of fixed width has exactly one written form.
-/

namespace FlowSketch

/-- A key of the stream: any byte string, the empty one included. -/
abbrev Key := List UInt8

namespace LittleEndian

/-- The `n` lowest base-256 digits of `v`, least significant first. -/
def bytes : Nat → Nat → List UInt8
  | 0, _ => []
  | n + 1, v => UInt8.ofNat v :: bytes n (v / 256)

/-- The number that a string of base-256 digits stands for. -/
def value : List UInt8 → Nat
  | [] => 0
  | digit :: rest => digit.toNat + 256 * value rest

@[simp] theorem length_bytes (n v : Nat) : (bytes n v).length = n := by
  induction n generalizing v with
  | zero => rfl
  | succ n ih => simp [bytes, ih]

end LittleEndian

end FlowSketch
