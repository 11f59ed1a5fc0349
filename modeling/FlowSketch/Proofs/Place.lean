import FlowSketch.Place
import FlowSketch.Proofs.Hash
import Mathlib.Data.List.Nodup

/-!
# FlowSketch.Proofs.Place

**No seed serves twice.** The seeds of the rows are the multiples of the stride, the odd ones for the
fingerprints and the even ones for the columns. The stride is odd, so a seed gives away its number up to
a multiple of the number of words (`stride_injective`). Numbers are computed in words as well and keep
their parity when they wrap: a fingerprint never shares its seed with a column, in whichever rows, and
two rows share a seed only if they differ by a multiple of 2⁶³.

So in a grid of at most 2⁶³ rows all seeds differ (`nodup_seeds`), and with them all hashes of each
short key (`nodup_hashes`).
-/

namespace FlowSketch.Place

/-! ### Seeds -/

/-- Multiplication by the stride permutes the words. -/
theorem stride_injective : Function.Injective fun x : UInt64 => x * stride :=
  Hash.mul_injective_of_odd (by decide)

/-- Numbers at one distance from twice the row give the same seed exactly if the rows differ by a multiple
of 2⁶³. -/
theorem seed_eq_iff (offset : UInt64) {r s : UInt64} :
    (2 * r + offset) * stride = (2 * s + offset) * stride ↔
      r.toNat % 2 ^ 63 = s.toNat % 2 ^ 63 := by
  rw [stride_injective.eq_iff, UInt64.add_left_inj, ← UInt64.toNat_inj, UInt64.toNat_mul,
    UInt64.toNat_mul]
  change 2 * r.toNat % 2 ^ 64 = 2 * s.toNat % 2 ^ 64 ↔ _
  omega

/-- Rows share a fingerprint seed exactly if they differ by a multiple of 2⁶³. -/
theorem fingerprintSeed_eq_iff {r s : UInt64} :
    fingerprintSeed r = fingerprintSeed s ↔ r.toNat % 2 ^ 63 = s.toNat % 2 ^ 63 :=
  seed_eq_iff 1

-- row 2⁶³ is the first to repeat a seed
example : fingerprintSeed 0x8000000000000000 = fingerprintSeed 0 := by decide

/-- Rows share a column seed exactly if they differ by a multiple of 2⁶³. -/
theorem columnSeed_eq_iff {r s : UInt64} :
    columnSeed r = columnSeed s ↔ r.toNat % 2 ^ 63 = s.toNat % 2 ^ 63 :=
  seed_eq_iff 2

/-- A number keeps its parity when it wraps. -/
theorem toNat_number_mod_two (row offset : UInt64) :
    (2 * row + offset).toNat % 2 = offset.toNat % 2 := by
  rw [UInt64.toNat_add, UInt64.toNat_mul]
  change (2 * row.toNat % 2 ^ 64 + offset.toNat) % 2 ^ 64 % 2 = _
  omega

/-- No row has a fingerprint seed that is the column seed of some row. -/
theorem fingerprintSeed_ne_columnSeed (r s : UInt64) : fingerprintSeed r ≠ columnSeed s := by
  intro h
  have hparity := congrArg (fun number : UInt64 => number.toNat % 2) (stride_injective h)
  simp only [toNat_number_mod_two] at hparity
  exact absurd hparity (by decide)

/-! ### Rows of a grid -/

variable {r s depth : Nat} {key : Key}

/-- The hash behind the fingerprint of a key in a row. -/
def fingerprintHash (row : Nat) (key : Key) : UInt64 :=
  Hash.digest key.toArray (fingerprintSeed (UInt64.ofNat row))

/-- The hash behind the column of a key in a row. -/
def columnHash (row : Nat) (key : Key) : UInt64 :=
  Hash.digest key.toArray (columnSeed (UInt64.ofNat row))

/-- A key is located by these two hashes. -/
theorem locate_eq (width : Nat) (key : Key) (row : Nat) : locate width key row =
    { column := columnOf width (columnHash row key)
      fingerprint := fingerprintOf (fingerprintHash row key) } := rfl

/-- The two seeds of each row, row after row. -/
def seeds (depth : Nat) : List UInt64 :=
  (List.range depth).flatMap fun row =>
    [fingerprintSeed (UInt64.ofNat row), columnSeed (UInt64.ofNat row)]

/-- The two hashes of a key in each row, row after row. -/
def hashes (depth : Nat) (key : Key) : List UInt64 :=
  (List.range depth).flatMap fun row => [fingerprintHash row key, columnHash row key]

theorem hashes_eq_map (depth : Nat) (key : Key) :
    hashes depth key = (seeds depth).map (Hash.digest key.toArray) := by
  rw [hashes, seeds, List.map_flatMap]
  rfl

/-- Rows below 2⁶³ are words that differ by no multiple of it. -/
theorem row_inj (hr : r < 2 ^ 63) (hs : s < 2 ^ 63)
    (h : (UInt64.ofNat r).toNat % 2 ^ 63 = (UInt64.ofNat s).toNat % 2 ^ 63) : r = s := by
  have hword : 2 ^ 63 < UInt64.size := by decide
  rwa [UInt64.toNat_ofNat_of_lt' (Nat.lt_trans hr hword), Nat.mod_eq_of_lt hr,
    UInt64.toNat_ofNat_of_lt' (Nat.lt_trans hs hword), Nat.mod_eq_of_lt hs] at h

theorem fingerprintSeed_inj (hr : r < 2 ^ 63) (hs : s < 2 ^ 63)
    (h : fingerprintSeed (UInt64.ofNat r) = fingerprintSeed (UInt64.ofNat s)) : r = s :=
  row_inj hr hs (fingerprintSeed_eq_iff.mp h)

theorem columnSeed_inj (hr : r < 2 ^ 63) (hs : s < 2 ^ 63)
    (h : columnSeed (UInt64.ofNat r) = columnSeed (UInt64.ofNat s)) : r = s :=
  row_inj hr hs (columnSeed_eq_iff.mp h)

/-- A short key has different hashes for the fingerprint and for the column, in whichever rows. -/
theorem fingerprintHash_ne_columnHash (hkey : key.length ≤ 8) (r s : Nat) :
    fingerprintHash r key ≠ columnHash s key :=
  (Hash.digest_injective hkey).ne (fingerprintSeed_ne_columnSeed _ _)

/-- All seeds of a grid differ. -/
theorem nodup_seeds (hdepth : depth ≤ 2 ^ 63) : (seeds depth).Nodup := by
  have hsmall : ∀ row ∈ List.range depth, row < 2 ^ 63 := fun row hrow =>
    Nat.lt_of_lt_of_le (List.mem_range.mp hrow) hdepth
  refine List.nodup_flatMap.mpr ⟨fun row _ => ?_, ?_⟩
  · simpa using fingerprintSeed_ne_columnSeed (UInt64.ofNat row) (UInt64.ofNat row)
  · refine List.nodup_range.imp_of_mem fun {r s} hr hs hne => ?_
    intro seed hmine htheirs
    rw [List.mem_pair] at hmine htheirs
    -- seeds of one kind name the row, seeds of different kinds have different parity
    rcases hmine with rfl | rfl <;> rcases htheirs with h | h
    · exact hne (fingerprintSeed_inj (hsmall r hr) (hsmall s hs) h)
    · exact fingerprintSeed_ne_columnSeed _ _ h
    · exact fingerprintSeed_ne_columnSeed _ _ h.symm
    · exact hne (columnSeed_inj (hsmall r hr) (hsmall s hs) h)

/-- All hashes of a short key differ. -/
theorem nodup_hashes (hdepth : depth ≤ 2 ^ 63) (hkey : key.length ≤ 8) :
    (hashes depth key).Nodup := by
  rw [hashes_eq_map]
  exact (nodup_seeds hdepth).map (Hash.digest_injective hkey)

/-- Below 2⁶³ no two rows share a seed for the fingerprint or one for the column, no row has the seed of
one for the other, and no row finds its columns by the hash that another one, or the row itself, takes
its fingerprints from. -/
theorem seeds_never_repeat (hr : r < 2 ^ 63) (hs : s < 2 ^ 63) :
    (fingerprintSeed (UInt64.ofNat r) = fingerprintSeed (UInt64.ofNat s) → r = s) ∧
      (columnSeed (UInt64.ofNat r) = columnSeed (UInt64.ofNat s) → r = s) ∧
      fingerprintSeed (UInt64.ofNat r) ≠ columnSeed (UInt64.ofNat s) ∧
      fingerprintHash r ≠ columnHash s := by
  refine ⟨fingerprintSeed_inj hr hs, columnSeed_inj hr hs, fingerprintSeed_ne_columnSeed _ _, ?_⟩
  intro hsame
  have hempty : ([] : Key).length ≤ 8 := Nat.zero_le 8
  exact fingerprintHash_ne_columnHash hempty r s (congrFun hsame [])

/-- The number of the last column seed wraps to zero, and so does the seed. It is no other seed. -/
theorem seeds_never_repeat_lastRow :
    2 ^ 63 - 1 < 2 ^ 63 ∧ 0 < 2 ^ 63 ∧
      columnSeed (UInt64.ofNat (2 ^ 63 - 1)) = 0 ∧
      fingerprintSeed (UInt64.ofNat (2 ^ 63 - 1)) ≠ fingerprintSeed (UInt64.ofNat 0) ∧
      columnSeed (UInt64.ofNat (2 ^ 63 - 1)) ≠ columnSeed (UInt64.ofNat 0) ∧
      fingerprintSeed (UInt64.ofNat 0) ≠ columnSeed (UInt64.ofNat (2 ^ 63 - 1)) ∧
      fingerprintHash 0 ≠ columnHash (2 ^ 63 - 1) := by
  have hlast : 2 ^ 63 - 1 < 2 ^ 63 := by decide
  have hfirst : 0 < 2 ^ 63 := by decide
  have hne : 2 ^ 63 - 1 ≠ 0 := by decide
  exact ⟨hlast, hfirst, rfl, fun h => hne ((seeds_never_repeat hlast hfirst).1 h),
    fun h => hne ((seeds_never_repeat hlast hfirst).2.1 h),
    (seeds_never_repeat hfirst hlast).2.2⟩

end FlowSketch.Place
