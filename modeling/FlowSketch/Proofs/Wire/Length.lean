import FlowSketch.Proofs.Wire.Canonical

/-!
# FlowSketch.Proofs.Wire.Length

**What refusals say about the length.** Up to the last field a decoder only looks at bytes that it
reads. So whatever it makes of some bytes, it makes of them with more bytes behind as well, unless
they are too short for it (`Reader.Settled`). If some bytes are an encoding, then the bytes of a proper
prefix must be too short, since the decoder would otherwise be done before the end of the encoding; and
with more bytes behind, the decoder is done before the end of the bytes. Neither needs to know where the
bytes were cut.

A refusal that is about the length gives the true one, and the one that would have been right is on
the other side of it (`Reader.Truthful`).
-/

namespace FlowSketch

/-- A refusal as too short or too long states a length as the one found, and an expected one that is
indeed longer or shorter. Other refusals say nothing about it. -/
def DecodeError.FitsLength (length : Nat) : DecodeError → Prop
  | bufferTooShort expected found => found = length ∧ found < expected
  | lengthMismatch expected found => found = length ∧ expected < found
  | _ => True

/-- A cursor with more bytes behind. -/
def Cursor.append (c : Cursor) (tail : List UInt8) : Cursor :=
  { c with rest := c.rest ++ tail }

theorem Cursor.reaches_append (c : Cursor) (tail : List UInt8) {n : Nat}
    (h : n ≤ c.rest.length) : reaches n (c.append tail).rest = true := by
  refine (reaches_iff _ _).mpr (Nat.le_trans h ?_)
  rw [append, List.length_append]
  exact Nat.le_add_right _ _

namespace Reader

variable {α β : Type} {r : Reader α} {next : α → Reader β} {n : Nat}

/-- A reader keeps the length of the whole, and is right about it where it refuses. -/
def Truthful (r : Reader α) : Prop :=
  ∀ c, match r c with
    | .ok (_, c') => c'.length = c.length
    | .error e => e.FitsLength c.length

/-- More bytes behind change nothing, unless the bytes were too short. -/
def Settled (r : Reader α) : Prop :=
  ∀ c tail, (∃ expected found, r c = .error (.bufferTooShort expected found)) ∨
    r (c.append tail) = (r c).map fun x => (x.1, x.2.append tail)

/-- What holds of all readers but the last one. -/
structure Forward (r : Reader α) : Prop where
  truthful : r.Truthful
  settled : r.Settled

/-! ### Composition -/

theorem Truthful.bind (h : r.Truthful) (hnext : ∀ a, (next a).Truthful) :
    (r >>= next).Truthful := by
  intro c
  have hfirst := h c
  cases hresult : r c with
  | error e =>
      rw [hresult] at hfirst
      rw [bind_of_error next hresult]
      exact hfirst
  | ok x =>
      obtain ⟨a, d⟩ := x
      rw [hresult] at hfirst
      have hsecond := hnext a d
      rw [hfirst] at hsecond
      rw [bind_of_ok next hresult]
      exact hsecond

theorem Settled.bind (h : r.Settled) (hnext : ∀ a, (next a).Settled) : (r >>= next).Settled := by
  intro c tail
  rcases h c tail with ⟨expected, found, hshort⟩ | hsame
  · exact .inl ⟨expected, found, bind_of_error next hshort⟩
  · cases hresult : r c with
    | error e =>
        rw [hresult] at hsame
        right
        rw [bind_of_error next hsame, bind_of_error next hresult]
        rfl
    | ok x =>
        obtain ⟨a, d⟩ := x
        rw [hresult] at hsame
        rw [bind_of_ok next hsame, bind_of_ok next hresult]
        exact hnext a d tail

/-- What follows a choice follows both of its branches. -/
theorem ite_bind (p : Prop) [Decidable p] (r r' : Reader α) (next : α → Reader β) :
    (if p then r else r') >>= next = if p then r >>= next else r' >>= next :=
  apply_ite (· >>= next) p r r'

namespace Forward

theorem pure (a : α) : (Pure.pure a : Reader α).Forward where
  truthful := fun _ => rfl
  settled := fun _ _ => .inr rfl

/-- A refusal that is not about the length. -/
theorem header (cause : HeaderError) : (throw (.invalidHeader cause) : Reader α).Forward where
  truthful := fun _ => trivial
  settled := fun _ _ => .inr rfl

theorem corrupted (cause : Corruption) : (throw (.corrupted cause) : Reader α).Forward where
  truthful := fun _ => trivial
  settled := fun _ _ => .inr rfl

theorem bind (h : r.Forward) (hnext : ∀ a, (next a).Forward) : (r >>= next).Forward where
  truthful := h.truthful.bind fun a => (hnext a).truthful
  settled := h.settled.bind fun a => (hnext a).settled

theorem ite {p : Prop} [Decidable p] {r' : Reader α} (h : r.Forward) (h' : r'.Forward) :
    (if p then r else r').Forward := by
  split
  · exact h
  · exact h'

/-- A check in front of the readings that follow it. -/
theorem check {p : Prop} [Decidable p] {e : DecodeError} {rest : Unit → Reader α}
    (h : (throw e : Reader Unit).Forward) (hrest : (rest ()).Forward) :
    (if p then throw e >>= rest else rest ()).Forward :=
  ite (h.bind fun _ => hrest) hrest

/-! ### Fields -/

theorem take (n : Nat) : (Reader.take n).Forward where
  truthful := by
    intro c
    unfold Reader.take
    by_cases hn : n ≤ c.rest.length
    · rw [if_pos ((reaches_iff _ _).mpr hn)]
      show c.position + n + (c.rest.drop n).length = c.position + c.rest.length
      rw [List.length_drop]
      omega
    · rw [if_neg (mt (reaches_iff _ _).mp hn)]
      exact ⟨rfl, Nat.add_lt_add_left (Nat.lt_of_not_le hn) _⟩
  settled := by
    intro c tail
    unfold Reader.take
    by_cases hn : n ≤ c.rest.length
    · right
      rw [if_pos ((reaches_iff _ _).mpr hn), if_pos (c.reaches_append tail hn)]
      simp [Cursor.append, Cursor.advance, Except.map, List.take_append_of_le_length hn,
        List.drop_append_of_le_length hn]
    · left
      rw [if_neg (mt (reaches_iff _ _).mp hn)]
      exact ⟨_, _, rfl⟩

/-- Looking ahead refuses as reading would. -/
theorem require (n : Nat) : (Reader.require n).Forward where
  truthful := by
    intro c
    unfold Reader.require
    by_cases hn : n ≤ c.rest.length
    · rw [if_pos ((reaches_iff _ _).mpr hn)]
    · rw [if_neg (mt (reaches_iff _ _).mp hn)]
      exact ⟨rfl, Nat.add_lt_add_left (Nat.lt_of_not_le hn) _⟩
  settled := by
    intro c tail
    unfold Reader.require
    by_cases hn : n ≤ c.rest.length
    · right
      rw [if_pos ((reaches_iff _ _).mpr hn), if_pos (c.reaches_append tail hn)]
      rfl
    · left
      rw [if_neg (mt (reaches_iff _ _).mp hn)]
      exact ⟨_, _, rfl⟩

theorem number (n : Nat) : (Reader.number n).Forward :=
  (take n).bind fun _ => pure _

theorem word32 : Reader.word32.Forward :=
  (number 4).bind fun _ => pure _

theorem word64 : Reader.word64.Forward :=
  (number 8).bind fun _ => pure _

theorem float : Reader.float.Forward :=
  word64.bind fun _ => pure _

theorem collect {item : Nat → Reader α} (h : ∀ index, (item index).Forward) (index count : Nat)
    (done : Array α) : (Reader.collect item index count done).Forward := by
  induction count generalizing index done with
  | zero => exact pure done
  | succ count ih => exact (h index).bind fun a => ih (index + 1) (done.push a)

end Forward

/-- The last reader is right about the length. It is not settled, since it asks for the end. -/
theorem truthful_finish : finish.Truthful := by
  intro c
  unfold finish
  cases hrest : c.rest with
  | nil => rfl
  | cons byte rest =>
      refine ⟨rfl, ?_⟩
      rw [Cursor.length, hrest, List.length_cons]
      omega

end Reader

/-! ### The parts of an image -/

namespace Image

variable {num : Numerics} {bytes front tail : List UInt8} {image : Image} {e : DecodeError}

theorem forward_readHeader (num : Numerics) : (readHeader num).Forward := by
  unfold readHeader
  refine (Reader.Forward.number 4).bind fun k => (Reader.Forward.number 4).bind fun depth =>
    (Reader.Forward.number 4).bind fun width => Reader.Forward.float.bind fun epsilon =>
      Reader.Forward.float.bind fun delta => Reader.Forward.word64.bind fun total => ?_
  dsimp only
  cases Accuracy.shape num ⟨k, epsilon, delta⟩ with
  | error cause => exact .header _
  | ok expected => exact .ite (.pure _) (.header _)

theorem forward_readCell (index : Nat) : (readCell index).Forward := by
  unfold readCell
  exact Reader.Forward.word32.bind fun fingerprint => Reader.Forward.word32.bind fun counter =>
    .ite (.corrupted _) (.pure _)

theorem forward_readRecord : readRecord.Forward := by
  unfold readRecord
  exact (Reader.Forward.number 4).bind fun length => (Reader.Forward.take length).bind fun key =>
    Reader.Forward.word64.bind fun estimate => .ite (.corrupted _) (.pure _)

/-- An image, whatever comes after it. -/
def readBody (num : Numerics) : Reader Image := do
  let (accuracy, shape, total) ← readHeader num
  Reader.require (shape.cellCount * cellLength)
  let cells ← Reader.collect readCell 0 shape.cellCount #[]
  let count ← Reader.number 4
  if accuracy.k < count then throw (.corrupted (.tooManyKeys count accuracy.k))
  let records ← Reader.collect (fun _ => readRecord) 0 count #[]
  let ranking := records.toList
  if !isDescending ranking then throw (.corrupted .notDescending)
  return { accuracy, grid := { toShape := shape, cells }, total, ranking }

/-- A whole image is an image with nothing after it. -/
theorem read_eq_readBody (num : Numerics) :
    read num = readBody num >>= fun image => Reader.finish >>= fun _ => pure image := by
  unfold read readBody
  simp only [bind_assoc, pure_bind, Reader.ite_bind]

theorem forward_readBody (num : Numerics) : (readBody num).Forward := by
  unfold readBody
  refine (forward_readHeader num).bind fun header => ?_
  refine (Reader.Forward.require _).bind fun _ => ?_
  refine (Reader.Forward.collect forward_readCell 0 _ _).bind fun cells => ?_
  refine (Reader.Forward.number 4).bind fun count => ?_
  refine .check (.corrupted _) ?_
  refine (Reader.Forward.collect (fun _ => forward_readRecord) 0 count #[]).bind fun records => ?_
  exact .check (.corrupted _) (.pure _)

theorem truthful_read (num : Numerics) : (read num).Truthful := by
  rw [read_eq_readBody]
  exact (forward_readBody num).truthful.bind fun image =>
    Reader.truthful_finish.bind fun _ => (Reader.Forward.pure image).truthful

/-! ### Whole byte strings -/

theorem decode_eq_error : decode num bytes = .error e ↔ read num (.start bytes) = .error e := by
  unfold decode
  show Except.bind (read num (.start bytes)) (fun x => .ok x.1) = .error e ↔ _
  cases read num (.start bytes) with
  | error e => simp [Except.bind]
  | ok x => simp [Except.bind]

/-- A refusal of bytes that is about their length gives the true one. -/
theorem fitsLength_of_decode (h : decode num bytes = .error e) : e.FitsLength bytes.length := by
  have htruthful := truthful_read num (.start bytes)
  rw [decode_eq_error.mp h] at htruthful
  rwa [Cursor.length, Cursor.start, Nat.zero_add] at htruthful

/-- In bytes that decode, the image ends where they do. -/
theorem readBody_of_decode (h : decode num bytes = .ok image) :
    readBody num (.start bytes) = .ok (image, ⟨bytes.length, []⟩) := by
  obtain ⟨c', hread⟩ := decode_eq_ok_iff_read.mp h
  rw [read_eq_readBody, Reader.bind_eq_ok] at hread
  obtain ⟨found, d, hbody, hrest⟩ := hread
  obtain ⟨_, _, hfinish, hpure⟩ := Reader.bind_eq_ok.mp hrest
  obtain ⟨rfl, -⟩ := Reader.pure_eq_ok.mp hpure
  obtain ⟨hend, -⟩ := Reader.finish_eq_ok.mp hfinish
  have hlength : d.length = bytes.length := by
    have htruthful := (forward_readBody num).truthful (.start bytes)
    rw [hbody] at htruthful
    exact htruthful.trans (Nat.zero_add _)
  obtain ⟨position, rest⟩ := d
  cases hend
  cases hlength
  exact hbody

/-- Bytes that decode, cut short, are too short. -/
theorem decode_of_prefix (h : decode num (front ++ tail) = .ok image) (htail : tail ≠ []) :
    ∃ expected, decode num front = .error (.bufferTooShort expected front.length) := by
  have hbody := readBody_of_decode h
  rcases (forward_readBody num).settled (.start front) tail with ⟨expected, found, hshort⟩ | hsame
  · have hdecode : decode num front = .error (.bufferTooShort expected found) := by
      rw [decode_eq_error, read_eq_readBody, Reader.bind_of_error _ hshort]
    obtain ⟨rfl, -⟩ := fitsLength_of_decode hdecode
    exact ⟨expected, hdecode⟩
  · -- the image would end inside the prefix, and the tail would be left over
    change readBody num (.start (front ++ tail)) = _ at hsame
    rw [hbody] at hsame
    cases hfront : readBody num (.start front) with
    | error e =>
        rw [hfront] at hsame
        cases hsame
    | ok x =>
        rw [hfront] at hsame
        have hrest : [] = x.2.rest ++ tail := congrArg (fun y => y.2.rest) (Except.ok.inj hsame)
        exact absurd (List.append_eq_nil_iff.mp hrest.symm).2 htail

/-- Bytes that decode, with more behind, are too long by what is behind. -/
theorem decode_append (h : decode num bytes = .ok image) (htail : tail ≠ []) :
    decode num (bytes ++ tail) =
      .error (.lengthMismatch bytes.length (bytes.length + tail.length)) := by
  have hbody := readBody_of_decode h
  rcases (forward_readBody num).settled (.start bytes) tail with ⟨expected, found, hshort⟩ | hsame
  · rw [hbody] at hshort
    cases hshort
  · change readBody num (.start (bytes ++ tail)) = _ at hsame
    rw [hbody] at hsame
    rw [decode_eq_error, read_eq_readBody, Reader.bind_of_ok _ hsame]
    obtain ⟨byte, rest, rfl⟩ := List.exists_cons_of_ne_nil htail
    rfl

end Image

end FlowSketch
