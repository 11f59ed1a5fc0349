import FlowSketch.Wire.Decode
import Mathlib.Algebra.Group.Nat.Defs

/-!
# FlowSketch.Proofs.Wire.Reading

**What a reader accepts.** A successful reading is described by the bytes between the cursor before
and the cursor after (`Cursor.Spans`). Each reader has one equivalence that says for which values
and which spans it succeeds. Read from left to right it says that what is accepted was written in
one way only; read from right to left it says that what was written is accepted. So both directions
of a round trip compose from the same lemmas.

The one field that can be written in several ways is a float: all patterns of what is not a number
are read as one (`float_eq_ok`).
-/

namespace FlowSketch

/-! ### Numerals -/

namespace LittleEndian

/-- A string of `n` digits stands for a number below `256 ^ n`. -/
theorem value_lt (digits : List UInt8) : value digits < 256 ^ digits.length := by
  induction digits with
  | nil => simp [value]
  | cons digit rest ih =>
      have hdigit : digit.toNat < 256 := digit.toNat_lt
      simp only [value, List.length_cons, Nat.pow_succ]
      omega

/-- Reading what was written gives the number back, cut to `n` digits. -/
theorem value_bytes_mod (n v : Nat) : value (bytes n v) = v % 256 ^ n := by
  induction n generalizing v with
  | zero => simp [bytes, value, Nat.mod_one]
  | succ n ih =>
      have hsplit : v % 256 ^ (n + 1) = v % 256 + 256 * (v / 256 % 256 ^ n) := by
        rw [Nat.pow_succ, Nat.mul_comm, Nat.mod_mul]
      simp [bytes, value, ih, hsplit]

/-- Reading what was written gives the number back whenever it fits. -/
theorem value_bytes {n v : Nat} (h : v < 256 ^ n) : value (bytes n v) = v := by
  rw [value_bytes_mod, Nat.mod_eq_of_lt h]

/-- Writing what was read gives the digits back. -/
theorem bytes_value (digits : List UInt8) : bytes digits.length (value digits) = digits := by
  induction digits with
  | nil => rfl
  | cons digit rest ih =>
      have hdigit : digit.toNat < 256 := digit.toNat_lt
      have hhead : UInt8.ofNat (digit.toNat + 256 * value rest) = digit := by
        apply UInt8.toNat_inj.mp
        rw [UInt8.toNat_ofNat']
        omega
      have htail : (digit.toNat + 256 * value rest) / 256 = value rest := by omega
      simp [bytes, value, hhead, htail, ih]

end LittleEndian

/-! ### Spans -/

/-- Between two cursors stand certain bytes. -/
structure Cursor.Spans (c : Cursor) (bytes : List UInt8) (c' : Cursor) : Prop where
  rest : c.rest = bytes ++ c'.rest
  position : c'.position = c.position + bytes.length

namespace Cursor

variable {c c' : Cursor} {first second : List UInt8}

theorem spans_nil : c.Spans [] c' ↔ c' = c := by
  obtain ⟨position, rest⟩ := c
  obtain ⟨position', rest'⟩ := c'
  constructor
  · intro h
    obtain ⟨hrest, hposition⟩ := h
    cases hrest
    cases hposition
    rfl
  · intro h
    cases h
    exact ⟨rfl, rfl⟩

/-- Bytes in a row are two spans in a row. -/
theorem spans_append :
    c.Spans (first ++ second) c' ↔ ∃ d, c.Spans first d ∧ d.Spans second c' := by
  constructor
  · intro h
    obtain ⟨hrest, hposition⟩ := h
    refine ⟨⟨c.position + first.length, second ++ c'.rest⟩, ⟨?_, rfl⟩, ⟨rfl, ?_⟩⟩
    · rw [hrest, List.append_assoc]
    · rw [hposition, List.length_append, Nat.add_assoc]
  · intro h
    obtain ⟨d, hfirst, hsecond⟩ := h
    refine ⟨?_, ?_⟩
    · rw [hfirst.rest, hsecond.rest, List.append_assoc]
    · rw [hsecond.position, hfirst.position, List.length_append, Nat.add_assoc]

end Cursor

namespace Reader

variable {α β : Type} {c c' : Cursor}

/-! ### Composition -/

theorem pure_eq_ok {a b : α} : (pure a : Reader α) c = .ok (b, c') ↔ b = a ∧ c' = c := by
  constructor
  · intro h
    cases h
    exact ⟨rfl, rfl⟩
  · intro h
    obtain ⟨rfl, rfl⟩ := h
    rfl

theorem throw_ne_ok {e : DecodeError} {b : α} :
    ¬ (throw e : Reader α) c = .ok (b, c') := by
  intro h
  cases h

/-- A reading that succeeds hands its value and its cursor on. -/
theorem bind_of_ok {r : Reader α} (next : α → Reader β) {a : α} (h : r c = .ok (a, c')) :
    (r >>= next) c = next a c' := by
  change Except.bind (r c) _ = _
  rw [h]
  rfl

/-- After a refusal nothing is read. -/
theorem bind_of_error {r : Reader α} (next : α → Reader β) {e : DecodeError}
    (h : r c = .error e) : (r >>= next) c = .error e := by
  change Except.bind (r c) _ = _
  rw [h]
  rfl

/-- Two readings in a row succeed if the first one does and the second one does after it. -/
theorem bind_eq_ok {r : Reader α} {next : α → Reader β} {b : β} :
    (r >>= next) c = .ok (b, c') ↔ ∃ a d, r c = .ok (a, d) ∧ next a d = .ok (b, c') := by
  change Except.bind (r c) (fun x => next x.1 x.2) = .ok (b, c') ↔ _
  cases hfirst : r c with
  | error e => simp [Except.bind]
  | ok x =>
      obtain ⟨a, d⟩ := x
      constructor
      · intro h
        exact ⟨a, d, rfl, h⟩
      · intro h
        obtain ⟨_, _, ⟨⟩, h⟩ := h
        exact h

/-- A check that refuses succeeds if it has nothing to refuse. -/
theorem guard_eq_ok {p : Prop} [Decidable p] {e : DecodeError} {r : Reader α} {a : α} :
    (if p then throw e else r) c = .ok (a, c') ↔ ¬ p ∧ r c = .ok (a, c') := by
  by_cases hp : p
  · rw [if_pos hp]
    exact ⟨fun h => absurd h throw_ne_ok, fun h => absurd hp h.1⟩
  · rw [if_neg hp]
    exact ⟨fun h => ⟨hp, h⟩, fun h => h.2⟩

/-- The same for a check in front of the readings that follow it. -/
theorem check_eq_ok {p : Prop} [Decidable p] {e : DecodeError} {next : β → Reader α} {r : Reader α}
    {a : α} :
    (if p then throw e >>= next else r) c = .ok (a, c') ↔ ¬ p ∧ r c = .ok (a, c') :=
  guard_eq_ok

/-! ### Fields -/

theorem require_eq_ok {n : Nat} {u : Unit} :
    require n c = .ok (u, c') ↔ n ≤ c.rest.length ∧ c' = c := by
  unfold require
  by_cases hn : n ≤ c.rest.length
  · rw [if_pos ((reaches_iff _ _).mpr hn)]
    simp [hn, eq_comm]
  · rw [if_neg fun h => hn ((reaches_iff _ _).mp h)]
    simp [hn]

theorem finish_eq_ok {u : Unit} : finish c = .ok (u, c') ↔ c.rest = [] ∧ c' = c := by
  unfold finish
  cases hrest : c.rest with
  | nil => simp [eq_comm]
  | cons byte rest => simp

theorem take_eq_ok {n : Nat} {bytes : List UInt8} :
    take n c = .ok (bytes, c') ↔ bytes.length = n ∧ c.Spans bytes c' := by
  unfold take
  constructor
  · intro h
    split at h
    · rename_i hreaches
      have hn := (reaches_iff _ _).mp hreaches
      cases h
      refine ⟨List.length_take_of_le hn, (List.take_append_drop n c.rest).symm, ?_⟩
      rw [List.length_take_of_le hn]
      rfl
    · cases h
  · intro h
    obtain ⟨rfl, hrest, hposition⟩ := h
    have hn : bytes.length ≤ c.rest.length := by
      rw [hrest, List.length_append]
      exact Nat.le_add_right _ _
    have hadvance : c.advance bytes.length = c' := by
      obtain ⟨position', rest'⟩ := c'
      cases hposition
      simp [Cursor.advance, hrest]
    rw [if_pos ((reaches_iff _ _).mpr hn), hadvance, hrest, List.take_left]

theorem number_eq_ok {n v : Nat} :
    number n c = .ok (v, c') ↔ v < 256 ^ n ∧ c.Spans (LittleEndian.bytes n v) c' := by
  unfold number
  rw [bind_eq_ok]
  constructor
  · intro h
    obtain ⟨bytes, d, htake, hpure⟩ := h
    obtain ⟨rfl, rfl⟩ := pure_eq_ok.mp hpure
    obtain ⟨rfl, hspans⟩ := take_eq_ok.mp htake
    rw [LittleEndian.bytes_value]
    exact ⟨LittleEndian.value_lt bytes, hspans⟩
  · intro h
    obtain ⟨hv, hspans⟩ := h
    refine ⟨LittleEndian.bytes n v, c', take_eq_ok.mpr ⟨LittleEndian.length_bytes n v, hspans⟩, ?_⟩
    rw [LittleEndian.value_bytes hv]
    rfl

theorem word32_eq_ok {w : UInt32} :
    word32 c = .ok (w, c') ↔ c.Spans (Image.field32 w.toNat) c' := by
  unfold word32
  rw [bind_eq_ok]
  constructor
  · intro h
    obtain ⟨v, d, hnumber, hpure⟩ := h
    obtain ⟨rfl, rfl⟩ := pure_eq_ok.mp hpure
    obtain ⟨hv, hspans⟩ := number_eq_ok.mp hnumber
    rwa [Image.field32, UInt32.toNat_ofNat_of_lt' hv]
  · intro hspans
    refine ⟨w.toNat, c', number_eq_ok.mpr ⟨w.toNat_lt, hspans⟩, ?_⟩
    rw [UInt32.ofNat_toNat]
    rfl

theorem word64_eq_ok {w : UInt64} :
    word64 c = .ok (w, c') ↔ c.Spans (Image.field64 w.toNat) c' := by
  unfold word64
  rw [bind_eq_ok]
  constructor
  · intro h
    obtain ⟨v, d, hnumber, hpure⟩ := h
    obtain ⟨rfl, rfl⟩ := pure_eq_ok.mp hpure
    obtain ⟨hv, hspans⟩ := number_eq_ok.mp hnumber
    rwa [Image.field64, UInt64.toNat_ofNat_of_lt' hv]
  · intro hspans
    refine ⟨w.toNat, c', number_eq_ok.mpr ⟨w.toNat_lt, hspans⟩, ?_⟩
    rw [UInt64.ofNat_toNat]
    rfl

theorem float_eq_ok {x : Float} :
    float c = .ok (x, c') ↔ ∃ w, c.Spans (Image.field64 w.toNat) c' ∧ x = Float.ofBits w := by
  unfold float
  rw [bind_eq_ok]
  constructor
  · intro h
    obtain ⟨w, d, hword, hpure⟩ := h
    obtain ⟨rfl, rfl⟩ := pure_eq_ok.mp hpure
    exact ⟨w, word64_eq_ok.mp hword, rfl⟩
  · intro h
    obtain ⟨w, hspans, rfl⟩ := h
    exact ⟨w, c', word64_eq_ok.mpr hspans, rfl⟩

/-! ### Sequences -/

/-- A sequence of items is accepted if each of them is, one after the other. -/
theorem collect_eq_ok {item : Nat → Reader α} {accepted : α → Prop} {write : α → List UInt8}
    (hitem : ∀ index c a c', item index c = .ok (a, c') ↔ accepted a ∧ c.Spans (write a) c')
    {index count : Nat} {done items : Array α} :
    collect item index count done c = .ok (items, c') ↔
      ∃ found : List α, found.length = count ∧ (∀ a ∈ found, accepted a) ∧
        items.toList = done.toList ++ found ∧ c.Spans (found.flatMap write) c' := by
  induction count generalizing index done c with
  | zero =>
      unfold collect
      rw [pure_eq_ok]
      constructor
      · intro h
        obtain ⟨rfl, hc⟩ := h
        exact ⟨[], rfl, nofun, by simp, Cursor.spans_nil.mpr hc⟩
      · intro h
        obtain ⟨found, hlength, -, hitems, hspans⟩ := h
        cases List.eq_nil_of_length_eq_zero hlength
        exact ⟨Array.toList_inj.mp (by simpa using hitems), Cursor.spans_nil.mp hspans⟩
  | succ count ih =>
      unfold collect
      rw [bind_eq_ok]
      constructor
      · intro h
        obtain ⟨a, d, hfirst, hrest⟩ := h
        obtain ⟨ha, hspans⟩ := (hitem index c a d).mp hfirst
        obtain ⟨found, hlength, haccepted, hitems, hspans'⟩ := ih.mp hrest
        -- the first item is among what is done when the rest is read
        refine ⟨a :: found, by rw [List.length_cons, hlength], ?_, ?_, ?_⟩
        · exact List.forall_mem_cons.mpr ⟨ha, haccepted⟩
        · rw [hitems, Array.toList_push, List.append_assoc, List.singleton_append]
        · exact Cursor.spans_append.mpr ⟨d, hspans, hspans'⟩
      · intro h
        obtain ⟨found, hlength, haccepted, hitems, hspans⟩ := h
        cases found with
        | nil => cases hlength
        | cons a found =>
            obtain ⟨ha, haccepted⟩ := List.forall_mem_cons.mp haccepted
            obtain ⟨d, hfirst, hrest⟩ := Cursor.spans_append.mp hspans
            refine ⟨a, d, (hitem index c a d).mpr ⟨ha, hfirst⟩, ih.mpr ?_⟩
            refine ⟨found, Nat.succ.inj hlength, haccepted, ?_, hrest⟩
            rw [hitems, Array.toList_push, List.append_assoc, List.singleton_append]

end Reader

end FlowSketch
