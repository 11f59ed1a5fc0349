import FlowSketch.Proofs.Sketch.Reachable

/-!
# FlowSketch.Proofs.Sketch.RoundTrip

**Writing and reading are inverse.** A reachable sketch that is written and read back is the same
sketch, but for its random stream: parameters, cells, number of recordings and ranking, ties
included, and so every estimate and the bytes themselves (`reachable_ofBytes_toBytes`). In the other
direction, bytes that are accepted are the bytes that the sketch is written as again, so no sketch
has two encodings (`toBytes_ofBytes`).
-/

namespace FlowSketch.Sketch

open Image (isDescending_iff)

variable {num : Numerics} {s : Sketch}

/-- No key is listed twice. -/
theorem Sound.nodup_topK (hs : s.Sound num) : (s.topK.map Prod.fst).Nodup :=
  hs.board.nodup_ranking

/-- The ranking of a sound sketch goes back onto an empty leaderboard, and comes out as it was. -/
theorem Sound.refill (hs : s.Sound num) :
    ∃ board, admitAll (.empty s.accuracy.k) s.topK.reverse = some board ∧
      board.ranking = s.topK := by
  have hnodup : (s.topK.reverse.map Prod.fst).Nodup := by
    rw [List.map_reverse]
    exact List.nodup_reverse.mpr hs.nodup_topK
  have hroom : 0 + s.topK.reverse.length ≤ s.accuracy.k := by
    rw [Nat.zero_add, List.length_reverse]
    exact hs.image_valid.length_le
  obtain ⟨board, hboard⟩ := Leaderboard.admitAll_succeeds (b := .empty s.accuracy.k) hnodup
    (fun x _ => by simp [Leaderboard.empty])
    (fun x hx => (hs.image_valid.records x (List.mem_reverse.mp hx)).2) hroom
  exact ⟨board, hboard, Leaderboard.ranking_admitAll s.board.pairwise_ranking hboard⟩

/-- A sound sketch that is written is read back, with a leaderboard of the same ranking. -/
theorem Sound.reload (hs : s.Sound num) (seed : UInt64) :
    ∃ board, ofBytes num s.toBytes seed =
        .ok ⟨s.accuracy, s.grid, board, s.total, .ofSeed seed⟩ ∧
      board.ranking = s.topK := by
  obtain ⟨board, hboard, hranking⟩ := hs.refill
  exact ⟨board, ofBytes_eq_ok.mpr ⟨s.image, board, hs.image_valid, rfl, hboard, rfl⟩, hranking⟩

/-- Reading back what was written loses nothing, for every reachable sketch and every seed. -/
theorem reachable_ofBytes_toBytes (hs : Reachable num s) (seed : UInt64) :
    ∃ s', ofBytes num s.toBytes seed = .ok s' ∧ s'.accuracy = s.accuracy ∧ s'.grid = s.grid ∧
      s'.total = s.total ∧ s'.topK = s.topK ∧ (∀ key, s'.estimate key = s.estimate key) ∧
      s'.toBytes = s.toBytes := by
  obtain ⟨board, hread, hranking⟩ := hs.sound.reload seed
  refine ⟨_, hread, rfl, rfl, rfl, hranking, fun key => rfl, ?_⟩
  show Image.encode ⟨s.accuracy, s.grid, s.total, board.ranking⟩ = _
  rw [hranking]
  rfl

/-- Two keys that tie keep their order. -/
theorem ofBytes_toBytes_tiedSketch :
    Reachable halfNumerics tiedSketch ∧ tiedSketch.topK = [([2], 3), ([1], 3)] ∧
      ∃ s', ofBytes halfNumerics tiedSketch.toBytes 7 = .ok s' ∧
        s'.accuracy = tiedSketch.accuracy ∧ s'.grid = tiedSketch.grid ∧
        s'.total = tiedSketch.total ∧ s'.topK = tiedSketch.topK ∧
        (∀ key, s'.estimate key = tiedSketch.estimate key) ∧ s'.toBytes = tiedSketch.toBytes :=
  ⟨reachable_tiedSketch, by decide +kernel, reachable_ofBytes_toBytes reachable_tiedSketch 7⟩

/-- Bytes that are accepted are the bytes that the sketch is written as, and no other bytes are read
as a sketch of the same configuration, cells, number of recordings and ranking. -/
theorem toBytes_ofBytes {bytes : List UInt8} {seed : UInt64} (h : ofBytes num bytes seed = .ok s) :
    s.toBytes = bytes ∧
      ∀ bytes' seed' s', ofBytes num bytes' seed' = .ok s' →
        s'.configuration.agrees s.configuration = true → s'.grid.cells = s.grid.cells →
        s'.total = s.total → s'.topK = s.topK → bytes' = bytes := by
  -- the ranking that was read is put back as it was, so it is written as it was
  have hwritten : ∀ {bytes : List UInt8} {seed : UInt64} {s : Sketch},
      ofBytes num bytes seed = .ok s → s.toBytes = bytes := by
    intro bytes seed s h
    obtain ⟨image, board, hvalid, rfl, hboard, rfl⟩ := ofBytes_eq_ok.mp h
    show Image.encode ⟨image.accuracy, image.grid, image.total, board.ranking⟩ = _
    rw [Leaderboard.ranking_admitAll (isDescending_iff.mp hvalid.descending) hboard]
  refine ⟨hwritten h, ?_⟩
  intro bytes' seed' s' h' hagrees hcells htotal htopK
  obtain ⟨haccuracy, hshape⟩ := (sound_ofBytes h').configuration_eq (sound_ofBytes h) hagrees
  have hgrid : s'.grid = s.grid := by
    show Grid.mk _ _ = Grid.mk _ _
    rw [hshape, hcells]
  rw [← hwritten h', ← hwritten h, toBytes, toBytes, image, image, haccuracy, hgrid, htotal, htopK]

theorem toBytes_ofBytes_tiedSketch :
    ∃ s, ofBytes halfNumerics tiedSketch.toBytes 7 = .ok s ∧ s.toBytes = tiedSketch.toBytes := by
  obtain ⟨board, hread, -⟩ := reachable_tiedSketch.sound.reload 7
  exact ⟨_, hread, (toBytes_ofBytes hread).1⟩

end FlowSketch.Sketch
