import FlowSketch.Proofs.Checked.Word
import FlowSketch.Proofs.Wire.Reading

/-!
# FlowSketch.Proofs.Checked.Reading

**Reading by a position in the whole byte string.** A machine keeps the whole input and the number of
bytes read so far. How much is left is a difference, and the next bytes are those between two
positions; a reader first compares what it needs with what is left. `Agrees` says that a checked
reader goes through from every position inside the input, that it refuses as the plain reader does,
and that otherwise it returns what the plain reader returns and leaves the position inside the input
again. Agreement is closed under everything that readers are composed of, so it is shown once for
each primitive.
-/

namespace FlowSketch

/-- A computation that reads from a position in a byte string, and may refuse or stop at a fault. -/
abbrev CheckedReader :=
  ReaderT (List UInt8) (StateT Nat (ExceptT DecodeError Checked))

namespace CheckedReader

variable {α β : Type}

/-! ### Primitives -/

/-- The number of bytes not yet read. -/
def remaining : CheckedReader Nat := do
  let bytes ← read
  let position ← get
  Checked.minus bytes.length position

/-- Refuses unless `n` more bytes are there. Reads nothing. -/
def require (n : Nat) : CheckedReader Unit := do
  let left ← remaining
  if left < n then
    throw (.bufferTooShort (Checked.saturatingPlus (← get) n) (← read).length)

/-- The next `n` bytes. -/
def take (n : Nat) : CheckedReader (List UInt8) := do
  require n
  let bytes ← read
  let position ← get
  let taken ← Checked.slice bytes position (← Checked.plus 64 position n)
  set (← Checked.plus 64 position n)
  return taken

/-- The next `n` bytes as a number. -/
def number (n : Nat) : CheckedReader Nat := do
  let digits ← take n
  Checked.assert (digits.length = n)
  return LittleEndian.value digits

/-- A number of 32 bits. -/
def word32 : CheckedReader UInt32 := do
  return UInt32.ofNat (← number 4)

/-- A number of 64 bits. -/
def word64 : CheckedReader UInt64 := do
  return UInt64.ofNat (← number 8)

/-- A float by its bits. -/
def float : CheckedReader Float := do
  return Float.ofBits (← word64)

/-- As many items as `count` says, each told its index, after those collected before. -/
def collect (item : Nat → CheckedReader α) :
    (index count : Nat) → Array α → CheckedReader (Array α)
  | _, 0, done => return done
  | index, count + 1, done => do
    let a ← item index
    collect item (index + 1) count (done.push a)

/-- Refuses unless all bytes have been read. -/
def finish : CheckedReader Unit := do
  let left ← remaining
  if 0 < left then throw (.lengthMismatch (← get) (← read).length)

/-! ### Composition -/

variable {bytes : List UInt8} {position position' : Nat} {c c' : Cursor} {a : α} {e : DecodeError}

theorem bind_of_ok {q : CheckedReader α} (next : α → CheckedReader β)
    (h : q bytes position = .ok (.ok (a, position'))) :
    (q >>= next) bytes position = next a bytes position' := by
  change Except.bind (q bytes position) _ = _
  rw [h]
  rfl

theorem bind_of_error {q : CheckedReader α} (next : α → CheckedReader β)
    (h : q bytes position = .ok (.error e)) : (q >>= next) bytes position = .ok (.error e) := by
  change Except.bind (q bytes position) _ = _
  rw [h]
  rfl

/-- A step that goes through hands its value on. -/
theorem step_bind_of_ok {x : Checked α} (next : α → CheckedReader β) (h : x = .ok a) :
    ((liftM x : CheckedReader α) >>= next) bytes position = next a bytes position := by
  subst h
  rfl

/-! ### Agreement -/

/-- The position and the bytes left of it are those of a place inside the input. -/
def Inside (bytes : List UInt8) (c : Cursor) : Prop :=
  c.position ≤ bytes.length ∧ c.rest = bytes.drop c.position

/-- From every position inside the input the checked reader goes through, does what the plain one
does, and stays inside. -/
def Agrees (bytes : List UInt8) (q : CheckedReader α) (r : Reader α) : Prop :=
  ∀ c, Inside bytes c → match r c with
    | .ok (a, c') => q bytes c.position = .ok (.ok (a, c'.position)) ∧ Inside bytes c'
    | .error e => q bytes c.position = .ok (.error e)

/-- The plain reader can return a value. -/
def Yields (r : Reader α) (a : α) : Prop :=
  ∃ c c', r c = .ok (a, c')

variable {q : CheckedReader α} {r : Reader α}

namespace Agrees

theorem pure (a : α) : Agrees bytes (Pure.pure a) (Pure.pure a) :=
  fun _ hc => ⟨rfl, hc⟩

theorem throw (e : DecodeError) :
    Agrees bytes (MonadExcept.throw e : CheckedReader α) (MonadExcept.throw e) :=
  fun _ _ => rfl

/-- Readings in a row agree if the first ones do, and the second ones do for every value that the
first one can return. -/
theorem bind {next : α → CheckedReader β} {next' : α → Reader β} (h : Agrees bytes q r)
    (hnext : ∀ a, Yields r a → Agrees bytes (next a) (next' a)) :
    Agrees bytes (q >>= next) (r >>= next') := by
  intro c hc
  have hfirst := h c hc
  cases hresult : r c with
  | error e =>
      rw [hresult] at hfirst
      rw [Reader.bind_of_error next' hresult]
      exact bind_of_error next hfirst
  | ok x =>
      obtain ⟨a, c'⟩ := x
      rw [hresult] at hfirst
      obtain ⟨hq, hinside⟩ := hfirst
      rw [Reader.bind_of_ok next' hresult, bind_of_ok next hq]
      exact hnext a ⟨c, c', hresult⟩ c' hinside

theorem ite {p : Prop} [Decidable p] {q' : CheckedReader α} {r' : Reader α}
    (h : p → Agrees bytes q r) (h' : ¬ p → Agrees bytes q' r') :
    Agrees bytes (if p then q else q') (if p then r else r') := by
  by_cases hp : p
  · rw [if_pos hp, if_pos hp]
    exact h hp
  · rw [if_neg hp, if_neg hp]
    exact h' hp

/-- Both refuse at a check that fails, and go on after one that does not. -/
theorem guard {p : Prop} [Decidable p] {next : Unit → CheckedReader α} {next' : Unit → Reader α}
    (h : ¬ p → Agrees bytes (next ()) (next' ())) :
    Agrees bytes (if p then MonadExcept.throw e >>= next else next ())
      (if p then MonadExcept.throw e >>= next' else next' ()) :=
  ite (fun _ _ _ => rfl) h

/-- A step that goes through and reads nothing may stand in front. -/
theorem step {x : Checked β} {next : β → CheckedReader α} {b : β} (hx : x = .ok b)
    (h : Agrees bytes (next b) r) : Agrees bytes (liftM x >>= next) r := by
  subst hx
  exact h

end Agrees

/-- Inside the input the number of bytes left is a difference. -/
theorem remaining_eq (hc : Inside bytes c) :
    remaining bytes c.position = .ok (.ok (c.rest.length, c.position)) := by
  have hlength : c.rest.length = bytes.length - c.position := by
    rw [hc.2, List.length_drop]
  change Except.bind (Except.bind (Checked.minus bytes.length c.position) _) _ = _
  rw [Checked.minus_ok hc.1, hlength]
  rfl

namespace Agrees

/-- Asking for the number of bytes left reads nothing. -/
theorem remaining_step {next : Nat → CheckedReader α} (h : ∀ n, Agrees bytes (next n) r) :
    Agrees bytes (remaining >>= next) r := by
  intro c hc
  rw [bind_of_ok next (remaining_eq hc)]
  exact h _ c hc

/-! ### The primitives agree -/

theorem require {n : Nat} (hn : bytes.length + n < 2 ^ 64) :
    Agrees bytes (CheckedReader.require n) (Reader.require n) := by
  intro c hc
  obtain ⟨hposition, hrest⟩ := hc
  have hlength : c.position + c.rest.length = bytes.length := by
    rw [hrest, List.length_drop]
    omega
  rw [CheckedReader.require, bind_of_ok _ (remaining_eq ⟨hposition, hrest⟩)]
  unfold Reader.require
  by_cases hshort : c.rest.length < n
  · rw [if_neg fun h => absurd ((reaches_iff _ _).mp h) (Nat.not_le.mpr hshort), if_pos hshort]
    dsimp only
    rw [Cursor.length, hlength, ← Checked.saturatingPlus_eq (by omega)]
    rfl
  · rw [if_pos ((reaches_iff _ _).mpr (Nat.le_of_not_lt hshort)), if_neg hshort]
    exact ⟨rfl, hposition, hrest⟩

theorem take {n : Nat} (hn : bytes.length + n < 2 ^ 64) :
    Agrees bytes (CheckedReader.take n) (Reader.take n) := by
  intro c hc
  have hrequire := require hn c hc
  unfold Reader.require at hrequire
  unfold CheckedReader.take Reader.take
  by_cases hreaches : reaches n c.rest = true
  · have hlength := (reaches_iff _ _).mp hreaches
    obtain ⟨hposition, hrest⟩ := hc
    have hupTo : c.position + n ≤ bytes.length := by
      rw [hrest, List.length_drop] at hlength
      omega
    rw [if_pos hreaches] at hrequire ⊢
    rw [bind_of_ok _ hrequire.1]
    have hslice := Checked.slice_ok hupTo
    rw [← hrest] at hslice
    refine ⟨?_, hupTo, ?_⟩
    · have hplus : Checked.plus 64 c.position n = .ok (c.position + n) :=
        Checked.plus_ok (by omega)
      change ((liftM (Checked.plus 64 c.position n) : CheckedReader Nat) >>= fun upTo =>
        (liftM (Checked.slice bytes c.position upTo) : CheckedReader (List UInt8)) >>= fun taken =>
          (liftM (Checked.plus 64 c.position n) : CheckedReader Nat) >>= fun after =>
            (set after >>= fun _ => Pure.pure taken : CheckedReader (List UInt8)))
        bytes c.position = _
      rw [step_bind_of_ok _ hplus, step_bind_of_ok _ hslice, step_bind_of_ok _ hplus]
      rfl
    · show c.rest.drop n = bytes.drop (c.position + n)
      rw [hrest, List.drop_drop]
  · rw [if_neg hreaches] at hrequire ⊢
    exact bind_of_error _ hrequire

theorem number {n : Nat} (hn : bytes.length + n < 2 ^ 64) :
    Agrees bytes (CheckedReader.number n) (Reader.number n) := by
  refine (take hn).bind fun digits hdigits => ?_
  obtain ⟨c, c', htake⟩ := hdigits
  exact step (Checked.assert_ok (Reader.take_eq_ok.mp htake).1) (pure _)

theorem word32 (hlength : bytes.length < 2 ^ 63) :
    Agrees bytes CheckedReader.word32 Reader.word32 :=
  (number (by omega)).bind fun _ _ => pure _

theorem word64 (hlength : bytes.length < 2 ^ 63) :
    Agrees bytes CheckedReader.word64 Reader.word64 :=
  (number (by omega)).bind fun _ _ => pure _

theorem float (hlength : bytes.length < 2 ^ 63) :
    Agrees bytes CheckedReader.float Reader.float :=
  (word64 hlength).bind fun _ _ => pure _

theorem collect {item : Nat → CheckedReader α} {item' : Nat → Reader α}
    (h : ∀ index, Agrees bytes (item index) (item' index)) (index count : Nat) (done : Array α) :
    Agrees bytes (CheckedReader.collect item index count done)
      (Reader.collect item' index count done) := by
  induction count generalizing index done with
  | zero => exact pure done
  | succ count ih => exact (h index).bind fun a _ => ih (index + 1) (done.push a)

theorem finish : Agrees bytes CheckedReader.finish Reader.finish := by
  intro c hc
  obtain ⟨hposition, hrest⟩ := hc
  have hlength : c.position + c.rest.length = bytes.length := by
    rw [hrest, List.length_drop]
    omega
  rw [CheckedReader.finish, bind_of_ok _ (remaining_eq ⟨hposition, hrest⟩)]
  unfold Reader.finish
  cases hleft : c.rest with
  | nil => exact ⟨rfl, hposition, hrest⟩
  | cons byte rest =>
      have hpos : 0 < (byte :: rest).length := Nat.succ_pos _
      rw [hleft] at hlength
      rw [if_pos hpos, List.isEmpty_cons, if_neg Bool.false_ne_true]
      dsimp only
      rw [Cursor.length, hleft, hlength]
      rfl

end Agrees

end CheckedReader

end FlowSketch
