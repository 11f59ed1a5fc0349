import FlowSketch.Proofs.Sketch.RoundTrip
import FlowSketch.Proofs.Wire.Length

/-!
# FlowSketch.Proofs.Sketch.PrefixFree

**No encoding is the beginning of another one.** Bytes that are accepted are refused when they are cut
anywhere, as too short, and when anything is put behind them, as too long by just that. No other check is
met first, since a decoder comes to the same finding on all bytes that go on as these do
(`Image.decode_of_prefix`, `Image.decode_append`). Whatever the bytes are, a refusal that names a length
names theirs (`ofBytes_length_errors`).

The one check that is made on the sketch and not on the bytes is for keys that are listed twice, and it
says nothing about a length.
-/

namespace FlowSketch.Sketch

variable {num : Numerics} {bytes : List UInt8} {seed : UInt64} {s : Sketch} {e : DecodeError}

theorem exists_decode_of_ofBytes (h : ofBytes num bytes seed = .ok s) :
    ∃ image, Image.decode num bytes = .ok image := by
  obtain ⟨image, -, hvalid, hbytes, -⟩ := ofBytes_eq_ok.mp h
  exact ⟨image, Image.decode_eq_ok.mpr ⟨hvalid, hbytes⟩⟩

/-- Bytes that do not decode are refused for the same reason. -/
theorem ofBytes_of_decode_error (h : Image.decode num bytes = .error e) :
    ofBytes num bytes seed = .error e := by
  show Except.bind (Image.decode num bytes) (fun image => ofImage image seed) = .error e
  rw [h]
  rfl

/-- Bytes are refused because they do not decode or because they list a key twice. -/
theorem decode_of_ofBytes_error (h : ofBytes num bytes seed = .error e) :
    Image.decode num bytes = .error e ∨ e = .corrupted .duplicateKey := by
  change Except.bind (Image.decode num bytes) (fun image => ofImage image seed) = .error e at h
  cases hdecode : Image.decode num bytes with
  | error found =>
      rw [hdecode] at h
      cases h
      exact .inl rfl
  | ok image =>
      rw [hdecode] at h
      change ofImage image seed = .error e at h
      unfold ofImage at h
      split at h
      · exact .inr (Except.error.inj h).symm
      · cases h

/-- A refusal that names a length names that of the bytes. -/
theorem fitsLength_of_ofBytes (h : ofBytes num bytes seed = .error e) :
    e.FitsLength bytes.length := by
  rcases decode_of_ofBytes_error h with hdecode | rfl
  · exact Image.fitsLength_of_decode hdecode
  · trivial

/-- If bytes are accepted, then every proper prefix of them is refused as too short, and the bytes with
anything behind them are refused as too long, with the length of the bytes as the one that was expected.
And whether bytes are accepted or not: a refusal as too short or too long states the length that they
have, and one that they would have to have instead, which is longer or shorter. -/
theorem ofBytes_length_errors (num : Numerics) (bytes : List UInt8) (seed : UInt64) :
    (∀ s, ofBytes num bytes seed = .ok s →
      (∀ front other, front <+: bytes → front ≠ bytes → ∃ expected,
        ofBytes num front other = .error (.bufferTooShort expected front.length)) ∧
      ∀ tail other, tail ≠ [] → ofBytes num (bytes ++ tail) other =
        .error (.lengthMismatch bytes.length (bytes.length + tail.length))) ∧
    (∀ expected found, ofBytes num bytes seed = .error (.bufferTooShort expected found) →
      found = bytes.length ∧ found < expected) ∧
    ∀ expected found, ofBytes num bytes seed = .error (.lengthMismatch expected found) →
      found = bytes.length ∧ expected < found := by
  refine ⟨fun s hs => ?_, fun expected found h => fitsLength_of_ofBytes h,
    fun expected found h => fitsLength_of_ofBytes h⟩
  obtain ⟨image, hdecode⟩ := exists_decode_of_ofBytes hs
  constructor
  · intro front other hprefix hproper
    obtain ⟨tail, rfl⟩ := hprefix
    have htail : tail ≠ [] := by
      rintro rfl
      exact hproper (List.append_nil front).symm
    obtain ⟨expected, hshort⟩ := Image.decode_of_prefix hdecode htail
    exact ⟨expected, ofBytes_of_decode_error hshort⟩
  · intro tail other htail
    exact ofBytes_of_decode_error (Image.decode_append hdecode htail)

/-- An encoding of 114 bytes, cut inside its last cells and with a byte behind. -/
theorem ofBytes_length_errors_tiedSketch :
    (∃ s, ofBytes halfNumerics tiedSketch.toBytes 7 = .ok s) ∧
      tiedSketch.toBytes.length = 114 ∧
      (∃ expected, 80 < expected ∧ ofBytes halfNumerics (tiedSketch.toBytes.take 80) 7 =
        .error (.bufferTooShort expected 80)) ∧
      ofBytes halfNumerics (tiedSketch.toBytes ++ [0]) 7 = .error (.lengthMismatch 114 115) := by
  obtain ⟨board, hread, -⟩ := reachable_tiedSketch.sound.reload 7
  have hlength : tiedSketch.toBytes.length = 114 := by decide +kernel
  have hfront : (tiedSketch.toBytes.take 80).length = 80 := by
    rw [List.length_take, hlength]
    rfl
  obtain ⟨hcut, htrailing⟩ :=
    (ofBytes_length_errors halfNumerics tiedSketch.toBytes 7).1 _ hread
  obtain ⟨expected, hshort⟩ := hcut (tiedSketch.toBytes.take 80) 7 (List.take_prefix _ _) (by
    intro heq
    rw [heq, hlength] at hfront
    cases hfront)
  have htruthful :=
    (ofBytes_length_errors halfNumerics (tiedSketch.toBytes.take 80) 7).2.1 _ _ hshort
  rw [hfront] at hshort htruthful
  refine ⟨⟨_, hread⟩, hlength, ⟨expected, htruthful.2, hshort⟩, ?_⟩
  rw [htrailing [0] 7 (List.cons_ne_nil 0 []), hlength]
  rfl

end FlowSketch.Sketch
