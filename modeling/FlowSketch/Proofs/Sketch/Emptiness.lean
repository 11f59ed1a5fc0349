import FlowSketch.Proofs.Sketch.Session

/-!
# FlowSketch.Proofs.Sketch.Emptiness

**An empty sketch is a new one.** Emptiness looks at the counters, at the number of recordings and at
the slots of the leaderboard. The bytes of a sketch hold more, owners of cells among it, but in a sound
sketch a cell without a count has no owner, so there is nothing left to tell the sketch from a new one
of its parameters (`Sound.isEmpty_iff`).

A cleared sketch is a new one but for its random stream (`Sound.clear_eq`), and that holds for what
is not written down too: the ages start from zero and the index knows no key. So a session that starts
with the one goes like a session that starts with the other, as long as no recording meets a place of
another key.
-/

namespace FlowSketch.Sketch

variable {num : Numerics} {s : Sketch}

/-- A new sketch with the parameters and the shape of another one. -/
def renewed (s : Sketch) (seed : UInt64) : Sketch :=
  ⟨s.accuracy, .empty s.grid.toShape, .empty s.accuracy.k, 0, .ofSeed seed⟩

theorem Sound.create_eq (hs : s.Sound num) (seed : UInt64) :
    create num s.accuracy seed = .ok (s.renewed seed) :=
  create_eq_ok.mpr ⟨s.grid.toShape, hs.shape, rfl⟩

theorem Sound.renewed (hs : s.Sound num) (seed : UInt64) : (s.renewed seed).Sound num :=
  sound_create (hs.create_eq seed)

theorem isEmpty_reseed (s : Sketch) (random : Xoshiro) : (s.reseed random).isEmpty = s.isEmpty :=
  rfl

theorem toBytes_reseed (s : Sketch) (random : Xoshiro) : (s.reseed random).toBytes = s.toBytes :=
  rfl

/-- Clearing leaves a new sketch that goes on with the old random stream. -/
theorem Sound.clear_eq (hs : s.Sound num) (seed : UInt64) :
    s.clear = (s.renewed seed).reseed s.random := by
  have hgrid : s.grid.clear = .empty s.grid.toShape := by
    show Grid.mk s.grid.toShape (Array.replicate s.grid.cells.size .vacant) = _
    rw [hs.grid.size]
    rfl
  have hboard : s.board.clear = .empty s.accuracy.k := by
    rw [Leaderboard.clear, hs.capacity]
  rw [Sketch.clear, hgrid, hboard]
  rfl

/-! ### Emptiness in bytes -/

theorem isEmpty_renewed (s : Sketch) (seed : UInt64) : (s.renewed seed).isEmpty = true := by
  have hgrid : (s.renewed seed).grid.isEmpty = true := Grid.isEmpty_empty s.grid.toShape
  rw [isEmpty, hgrid]
  rfl

/-- A ranking is empty if and only if no slot is taken. -/
theorem topK_eq_nil_iff (s : Sketch) : s.topK = [] ↔ s.board.isEmpty = true := by
  have hlength : s.topK.length = s.board.slots.size := s.board.length_ranking
  rw [Leaderboard.isEmpty, Array.isEmpty_iff_size_eq_zero, ← hlength, List.length_eq_zero_iff]

/-- A sound sketch is empty if and only if it is written as the bytes of a new one. -/
theorem Sound.isEmpty_iff (hs : s.Sound num) (seed : UInt64) :
    s.isEmpty = true ↔ s.toBytes = (s.renewed seed).toBytes := by
  have hsame : s.toBytes = (s.renewed seed).toBytes ↔ s.image = (s.renewed seed).image :=
    ⟨Image.encode_inj hs.image_valid (hs.renewed seed).image_valid, congrArg Image.encode⟩
  rw [hsame]
  constructor
  · intro h
    simp only [isEmpty, Bool.and_eq_true, beq_iff_eq] at h
    obtain ⟨⟨htotal, hboard⟩, hgrid⟩ := h
    have hranking : s.topK = [] := s.topK_eq_nil_iff.mpr hboard
    rw [image, htotal, hranking, hs.grid.isEmpty_iff.mp hgrid]
    rfl
  · intro h
    have hnew := s.isEmpty_renewed seed
    have hranking : s.topK = [] := congrArg Image.ranking h
    have htotal : s.total = 0 := congrArg Image.total h
    have hgrid : s.grid = .empty s.grid.toShape := congrArg Image.grid h
    rw [isEmpty, htotal, s.topK_eq_nil_iff.mp hranking, hs.grid.isEmpty_iff.mpr hgrid]
    rfl

/-! ### Sessions that go on from nothing -/

namespace Store

variable {store store' : Store}

/-- Stores that differ in random streams only are written as the same bytes, slot by slot. -/
theorem Alike.toBytes (h : store.Alike store') (slot : Nat) :
    (store' slot).map Sketch.toBytes = (store slot).map Sketch.toBytes := by
  obtain ⟨random, hrandom⟩ := h slot
  rw [hrandom]
  cases store slot with
  | none => rfl
  | some s => exact congrArg some (s.toBytes_reseed random)

/-- A session that is peaceful in either store gets the same replies in both, and leaves sketches
that are written as the same bytes. -/
theorem Alike.session (h : store.Alike store') (hstore : store.Sound num)
    (hstore' : store'.Sound num) {seeds seeds' : Nat → UInt64} {commands : List Command}
    (hpeaceful : store.Peaceful num seeds commands ∨ store'.Peaceful num seeds' commands) :
    store'.transcript num seeds' commands = store.transcript num seeds commands ∧
      ∀ slot, (store'.after num seeds' commands slot).map Sketch.toBytes =
        (store.after num seeds commands slot).map Sketch.toBytes := by
  have hfirst : store.Peaceful num seeds commands := by
    rcases hpeaceful with hpeaceful | hpeaceful
    · exact hpeaceful
    · exact h.symm.peaceful hstore' hpeaceful seeds
  exact ⟨h.transcript hstore hfirst seeds', (h.after hstore hfirst seeds').toBytes⟩

end Store

/-- A reachable sketch is empty if and only if it is written as the bytes of a new sketch with its
parameters. Clearing leads to such a sketch, and in every session, with whatever other sketches, in
which no recording meets a place of another key, the cleared sketch and the new one can take each
other's place: replies and bytes are the same. -/
theorem isEmpty_iff_toBytes_create (hs : Reachable num s) (seed : UInt64) :
    ∃ fresh, create num s.accuracy seed = .ok fresh ∧
      (s.isEmpty = true ↔ s.toBytes = fresh.toBytes) ∧
      s.clear.isEmpty = true ∧ s.clear.toBytes = fresh.toBytes ∧
      ∀ (store : Store) (slot : Nat) (seeds seeds' : Nat → UInt64) (commands : List Command),
        (∀ i, ∀ other ∈ store i, Reachable num other) →
        (store.set slot fresh).Peaceful num seeds commands ∨
          (store.set slot s.clear).Peaceful num seeds' commands →
        (store.set slot s.clear).transcript num seeds' commands =
            (store.set slot fresh).transcript num seeds commands ∧
          ∀ i, ((store.set slot s.clear).after num seeds' commands i).map toBytes =
            ((store.set slot fresh).after num seeds commands i).map toBytes := by
  have hsound := hs.sound
  have hclear := hsound.clear_eq seed
  have hempty : s.clear.isEmpty = true := by
    rw [hclear, isEmpty_reseed, isEmpty_renewed]
  have hbytes : s.clear.toBytes = (s.renewed seed).toBytes := by
    rw [hclear, toBytes_reseed]
  refine ⟨s.renewed seed, hsound.create_eq seed, hsound.isEmpty_iff seed, hempty, hbytes, ?_⟩
  intro store slot seeds seeds' commands hstore hpeaceful
  have hothers : store.Sound num := fun i other hother => (hstore i other hother).sound
  have halike : (store.set slot (s.renewed seed)).Alike (store.set slot s.clear) := by
    rw [hclear]
    exact (Store.alike_refl store).set (s.renewed seed) s.random
  exact halike.session (hothers.set (hsound.renewed seed)) (hothers.set hsound.clear) hpeaceful

/-- Two keys are recorded anew, in another order and with other counts, and age. -/
def afterClearing : List Command :=
  [.updateBatch 0 [[2], [1], [1], [1]], .decay 0, .add 0 [2] 4, .ask 0 .topK, .ask 0 .toBytes]

/-- A sketch in which two keys tied is cleared and goes on like a new one. -/
theorem isEmpty_iff_toBytes_create_tiedSketch :
    Reachable halfNumerics tiedSketch ∧ tiedSketch.toBytes ≠ newSketch.toBytes ∧
      tiedSketch.clear.toBytes = newSketch.toBytes ∧
      Store.Peaceful halfNumerics (fun _ => 1) (Store.set (fun _ => none) 0 newSketch)
        afterClearing ∧
      Store.transcript halfNumerics (fun _ => 2) (Store.set (fun _ => none) 0 tiedSketch.clear)
          afterClearing =
        Store.transcript halfNumerics (fun _ => 1) (Store.set (fun _ => none) 0 newSketch)
          afterClearing := by
  have hpeaceful : Store.Peaceful halfNumerics (fun _ => 1) (Store.set (fun _ => none) 0 newSketch)
      afterClearing := by decide +kernel
  obtain ⟨fresh, hcreate, hiff, -, hclear, hsession⟩ :=
    isEmpty_iff_toBytes_create reachable_tiedSketch 1
  have haccuracy : tiedSketch.accuracy = ⟨2, 0.5, 0.5⟩ := by
    rw [tiedSketch, accuracy_add, accuracy_add]
    rfl
  rw [haccuracy, create_newSketch] at hcreate
  cases hcreate
  have hfull : ¬ tiedSketch.isEmpty = true := by decide +kernel
  exact ⟨reachable_tiedSketch, fun h => hfull (hiff.mpr h), hclear, hpeaceful,
    (hsession (fun _ => none) 0 _ _ _ (fun _ _ h => absurd h (Option.not_mem_none _))
      (.inl hpeaceful)).1⟩

end FlowSketch.Sketch
