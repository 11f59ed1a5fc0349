import FlowSketch.Proofs.Sketch.Exact
import FlowSketch.Proofs.Sketch.Merging

/-!
# FlowSketch.Proofs.Sketch.Sharding

**Sharding is transparent.** A stream may be split up among several sketches, in any way and with any
seeds, and the sketches be merged in any order and grouping (`Gathering`). If the shape separates the
keys, the outcome is the sketch that was fed the whole stream, whatever the order of the stream: it
has the same cells, estimates and number of recordings, and lists the same keys with the same
estimates as long as there is room for all keys with a count (`Gathering.gathered_eq_single`).

Either way the sketch counts the keys exactly, and the exact counts leave no choice for the rest.
A merge adds the tallies of both sides up (`Exact.absorb`), where cutting each of them to what a cell
can hold does not show in the sum. A merge tracks the merged estimates of the keys that were listed
on either side; with room for all keys none was forgotten there, so these are the peaks of the sum
(`Exact.tracks_absorb`).
-/

namespace FlowSketch

/-- A key has a count in a sum if and only if it has one on either side. -/
theorem Tally.add_ne_zero_iff {V W : Tally} {key : Key} :
    (V + W) key ≠ 0 ↔ V key ≠ 0 ∨ W key ≠ 0 := by
  rw [Finsupp.add_apply]
  omega

/-! ### Merging exact sketches -/

namespace Sketch

variable {num : Numerics} {mine theirs s : Sketch} {keys : List Key} {V W : Tally} {m n : Nat}

namespace Exact

/-- A sketch that is empty has recorded nothing. -/
theorem eq_zero_of_isEmpty (h : s.Exact num keys W n) (hempty : s.isEmpty = true) :
    W = 0 ∧ n = 0 := by
  simp only [isEmpty, Bool.and_eq_true, beq_iff_eq] at hempty
  obtain ⟨⟨htotal, -⟩, hgrid⟩ := hempty
  have hmade := h.total
  rw [htotal] at hmade
  change 0 = min n _ at hmade
  refine ⟨?_, by omega⟩
  ext key
  by_contra hpos
  exact hpos (h.cells.eq_zero_of_isEmpty h.sound.depth_ne_zero hgrid (h.recorded key hpos))

theorem absorb (hmine : mine.Exact num keys V m) (htheirs : theirs.Exact num keys W n)
    (hshape : mine.grid.toShape = theirs.grid.toShape) :
    (mine.absorb theirs).Exact num keys (V + W) (m + n) where
  sound := hmine.sound.absorb htheirs.sound hshape
  separates := hmine.separates
  cells := hmine.cells.merge htheirs.cells hshape
  recorded := by
    intro key hpos
    rcases Tally.add_ne_zero_iff.mp hpos with hv | hw
    · exact hmine.recorded key hv
    · exact htheirs.recorded key hw
  total := by
    show (saturatingTotal mine.total theirs.total).toNat = _
    rw [toNat_saturatingTotal, hmine.total, htheirs.total]
    omega

/-- A key that is listed is one of the keys that are counted. -/
theorem key_mem (h : s.Exact num keys W n) (htracks : s.board.roster.Tracks W.peaks) {e : Entry}
    (he : e ∈ s.board.roster.entries) : e.key ∈ keys := by
  have hlistable := Tally.mem_listable_iff.mpr (htracks.peak_ne_zero h.sound.board.legal he)
  exact h.recorded e.key (Finsupp.mem_support_iff.mp (Finset.mem_filter.mp hlistable).1)

/-- A key that one side lists has, in the merged grid, the peak of the sum. -/
theorem estimate_absorb (h : s.Exact num keys W n) (htracks : s.board.roster.Tracks W.peaks)
    (hsum : (mine.absorb theirs).Exact num keys V m) {key : Key} (hlisted : s.contains key = true) :
    (mine.absorb theirs).estimate key = V.peaks key := by
  obtain ⟨e, he, rfl⟩ := h.sound.board.contains_iff.mp hlisted
  rw [Tally.peaks_of_short (h.sound.keys e he)]
  exact hsum.cells.estimate hsum.sound.depth_ne_zero (h.key_mem htracks he)

/-- With room for all keys of a tally, each of them is listed. -/
theorem contains_of_room (h : s.Exact num keys W n) (htracks : s.board.roster.Tracks W.peaks)
    (hroom : W.listable.card ≤ s.accuracy.k) {key : Key} (hpos : W key ≠ 0)
    (hshort : key.length ≤ maxWord32) : s.contains key = true := by
  have hlistable : key ∈ W.listable :=
    Finset.mem_filter.mpr ⟨Finsupp.mem_support_iff.mpr hpos, hshort⟩
  exact h.sound.board.contains_iff.mpr (htracks.exists_entry h.sound.board.legal
    (fun _ => Tally.mem_listable_iff) (Nat.le_trans hroom (Nat.le_of_eq h.sound.capacity.symm))
    (Tally.mem_listable_iff.mp hlistable))

/-- A merge with room for all keys keeps track of the sum. -/
theorem tracks_absorb (hmine : mine.Exact num keys V m) (htheirs : theirs.Exact num keys W n)
    (haccuracy : mine.accuracy = theirs.accuracy)
    (hshape : mine.grid.toShape = theirs.grid.toShape)
    (hroom : (V + W).listable.card ≤ mine.accuracy.k)
    (htracks : mine.board.roster.Tracks V.peaks) (htracks' : theirs.board.roster.Tracks W.peaks) :
    (mine.absorb theirs).board.roster.Tracks (V + W).peaks := by
  have hsum := hmine.absorb htheirs hshape
  have hroomMine : V.listable.card ≤ mine.accuracy.k :=
    Nat.le_trans (Tally.listable_card_le fun key => Nat.le_add_right _ _) hroom
  have hroomTheirs : W.listable.card ≤ theirs.accuracy.k := by
    rw [← haccuracy]
    exact Nat.le_trans (Tally.listable_card_le fun key => Nat.le_add_left _ _) hroom
  have hpeaks : mergedPeaks mine theirs = (V + W).peaks := by
    funext key
    by_cases hlisted : mine.contains key = true ∨ theirs.contains key = true
    · rw [mergedPeaks_of_contains hlisted]
      rcases hlisted with hlisted | hlisted
      · exact hmine.estimate_absorb htracks hsum hlisted
      · exact htheirs.estimate_absorb htracks' hsum hlisted
    · -- a key of the sum has a count on one of the sides, and would be listed there
      rw [mergedPeaks_of_not_contains hlisted]
      by_contra hpeak
      obtain ⟨hsupport, hshort⟩ := Finset.mem_filter.mp (Tally.mem_listable_iff.mpr (Ne.symm hpeak))
      rcases Tally.add_ne_zero_iff.mp (Finsupp.mem_support_iff.mp hsupport) with hv | hw
      · exact hlisted (.inl (hmine.contains_of_room htracks hroomMine hv hshort))
      · exact hlisted (.inr (htheirs.contains_of_room htracks' hroomTheirs hw hshort))
  rw [← hpeaks]
  exact hmine.sound.tracks_absorb htheirs.sound

/-- Exact sketches of one accuracy are merged, and their tallies and recordings add up. -/
theorem merge (hmine : mine.Exact num keys V m) (htheirs : theirs.Exact num keys W n)
    (haccuracy : mine.accuracy = theirs.accuracy) :
    ∃ s, mine.merge theirs = .ok s ∧ s.accuracy = mine.accuracy ∧
      s.Exact num keys (V + W) (m + n) ∧
      ((V + W).listable.card ≤ mine.accuracy.k → mine.board.roster.Tracks V.peaks →
        theirs.board.roster.Tracks W.peaks → s.board.roster.Tracks (V + W).peaks) := by
  obtain ⟨hshape, hagrees⟩ := hmine.sound.agrees htheirs.sound haccuracy
  cases hempty : theirs.isEmpty with
  | true =>
      obtain ⟨rfl, rfl⟩ := htheirs.eq_zero_of_isEmpty hempty
      refine ⟨mine, ?_, rfl, ?_, ?_⟩
      · rw [merge_of_agrees hagrees, if_pos hempty]
      · rw [add_zero, add_zero]
        exact hmine
      · intro _ htracks _
        rw [add_zero]
        exact htracks
  | false =>
      exact ⟨mine.absorb theirs, hmine.sound.merge_eq_absorb htheirs.sound haccuracy hempty, rfl,
        hmine.absorb htheirs hshape, hmine.tracks_absorb htheirs haccuracy hshape⟩

end Exact

end Sketch

/-! ### Gatherings -/

/-- Streams that were fed to new sketches of their own, each with a seed, and the order in which
these sketches are merged. -/
inductive Gathering where
  | shard (seed : UInt64) (adds : List (Key × UInt64))
  | merge (receiver argument : Gathering)

namespace Gathering

/-- All streams, one after the other. -/
def adds : Gathering → List (Key × UInt64)
  | shard _ adds => adds
  | merge receiver argument => receiver.adds ++ argument.adds

/-- The sketch that comes out of a gathering, if the parameters are in order and no merge fails. -/
def sketch? (num : Numerics) (accuracy : Accuracy) : Gathering → Option Sketch
  | shard seed adds => (Sketch.create num accuracy seed).toOption.map fun s => s.addAll num adds
  | merge receiver argument =>
    match receiver.sketch? num accuracy, argument.sketch? num accuracy with
    | some mine, some theirs => (mine.merge theirs).toOption
    | _, _ => none

variable {num : Numerics} {accuracy : Accuracy} {shape : Shape} {keys : List Key}

/-- Every gathering of keys that are separated comes to a sketch that counts them exactly, and
tracks their counts if there is room for all of them. -/
theorem exists_exact (hshape : accuracy.shape num = .ok shape) (hseparates : shape.Separates keys)
    (g : Gathering) (hkeys : ∀ a ∈ g.adds, a.1 ∈ keys) :
    ∃ s, g.sketch? num accuracy = some s ∧ s.accuracy = accuracy ∧
      s.Exact num keys (Tally.ofAdds g.adds) (Sketch.recordings g.adds) ∧
      ((Tally.ofAdds g.adds).listable.card ≤ accuracy.k →
        s.board.roster.Tracks (Tally.ofAdds g.adds).peaks) := by
  induction g with
  | shard seed adds =>
      have hcreate : Sketch.create num accuracy seed =
          .ok ⟨accuracy, .empty shape, .empty accuracy.k, 0, .ofSeed seed⟩ :=
        Sketch.create_eq_ok.mpr ⟨shape, hshape, rfl⟩
      obtain ⟨haccuracy, hexact, htracks⟩ := Sketch.addAll_create hcreate hseparates hkeys
      refine ⟨_, ?_, haccuracy, hexact, fun _ => htracks⟩
      rw [sketch?, hcreate]
      rfl
  | merge receiver argument ihmine ihtheirs =>
      obtain ⟨mine, hmine, haccuracy, hexact, htracks⟩ := ihmine fun a ha =>
        hkeys a (List.mem_append_left _ ha)
      obtain ⟨theirs, htheirs, haccuracy', hexact', htracks'⟩ := ihtheirs fun a ha =>
        hkeys a (List.mem_append_right _ ha)
      obtain ⟨s, hmerge, hs, hsum, hboard⟩ :=
        hexact.merge hexact' (haccuracy.trans haccuracy'.symm)
      have htally : Tally.ofAdds (merge receiver argument).adds =
          Tally.ofAdds receiver.adds + Tally.ofAdds argument.adds := Tally.ofAdds_append _ _
      have hmade : Sketch.recordings (merge receiver argument).adds =
          Sketch.recordings receiver.adds + Sketch.recordings argument.adds := List.countP_append
      rw [htally, hmade]
      refine ⟨s, ?_, hs.trans haccuracy, hsum, fun hroom => ?_⟩
      · rw [sketch?, hmine, htheirs]
        simp only [hmerge]
        rfl
      · refine hboard (haccuracy ▸ hroom) (htracks ?_) (htracks' ?_)
        · exact Nat.le_trans (Tally.listable_card_le fun key => Nat.le_add_right _ _) hroom
        · exact Nat.le_trans (Tally.listable_card_le fun key => Nat.le_add_left _ _) hroom

/-- A gathering of streams whose keys are separated comes to what one sketch comes to that is fed all
streams at once, in any order: the same cells, the same estimates, the same number of recordings,
and the same listed keys with the same estimates if there is room for all keys with a count. -/
theorem gathered_eq_single (hshape : accuracy.shape num = .ok shape) (g : Gathering)
    (hseparates : shape.Separates (g.adds.map Prod.fst)) {stream : List (Key × UInt64)}
    (hstream : stream.Perm g.adds) (seed : UInt64) :
    ∃ merged single, g.sketch? num accuracy = some merged ∧
      (shard seed stream).sketch? num accuracy = some single ∧
      merged.grid = single.grid ∧
      (∀ key, merged.estimate key = single.estimate key) ∧
      merged.total = single.total ∧
      ((Tally.ofAdds stream).listable.card ≤ accuracy.k →
        ∀ listed, listed ∈ merged.topK ↔ listed ∈ single.topK) := by
  have hkeys : ∀ a ∈ g.adds, a.1 ∈ g.adds.map Prod.fst := fun a ha => List.mem_map_of_mem ha
  obtain ⟨merged, hmerged, haccuracy, hexact, htracks⟩ := exists_exact hshape hseparates g hkeys
  obtain ⟨single, hsingle, haccuracy', hexact', htracks'⟩ :=
    exists_exact hshape hseparates (shard seed stream) fun a ha =>
      hkeys a (hstream.mem_iff.mp ha)
  have htally : Tally.ofAdds (shard seed stream).adds = Tally.ofAdds g.adds :=
    Tally.ofAdds_perm hstream
  have hmade : Sketch.recordings (shard seed stream).adds = Sketch.recordings g.adds :=
    hstream.countP_eq _
  rw [htally, hmade] at hexact'
  rw [htally] at htracks'
  have hgrid : merged.grid = single.grid := by
    refine hexact.cells.unique hexact'.cells hexact.sound.grid hexact'.sound.grid ?_
    exact (hexact.sound.agrees hexact'.sound (haccuracy.trans haccuracy'.symm)).1
  refine ⟨merged, single, hmerged, hsingle, hgrid, fun key => congrArg (·.estimate key) hgrid, ?_, ?_⟩
  · exact UInt64.toNat_inj.mp (hexact.total.trans hexact'.total.symm)
  · intro hroom listed
    rw [Tally.ofAdds_perm hstream] at hroom
    rw [Sketch.topK, Sketch.topK,
      hexact.sound.board.mem_ranking_iff (htracks hroom) (fun _ => Tally.mem_listable_iff)
        (by rw [hexact.sound.capacity, haccuracy]; exact hroom),
      hexact'.sound.board.mem_ranking_iff (htracks' hroom) (fun _ => Tally.mem_listable_iff)
        (by rw [hexact'.sound.capacity, haccuracy']; exact hroom)]

open Sketch (quarterNumerics)

/-- Three shards: one fills a cell to the brim and drops a count of zero, one adds to the same cell,
and one stays empty. -/
def threeShards : Gathering :=
  merge (shard 1 [([1], 4294967295), ([5], 0)])
    (merge (shard 2 [([2], 5), ([1], 7)]) (shard 3 []))

/-- What the shards recorded, as it came in. -/
def threeShardsStream : List (Key × UInt64) :=
  [([2], 5), ([1], 4294967295), ([1], 7), ([5], 0)]

theorem gathered_eq_single_threeShards :
    Accuracy.shape quarterNumerics ⟨2, 0.5, 0.25⟩ = .ok ⟨2, 6⟩ ∧
      Shape.Separates ⟨2, 6⟩ (threeShards.adds.map Prod.fst) ∧
      threeShardsStream.Perm threeShards.adds ∧
      (Tally.ofAdds threeShardsStream).listable.card ≤ 2 ∧
      ∃ merged single, threeShards.sketch? quarterNumerics ⟨2, 0.5, 0.25⟩ = some merged ∧
        (shard 7 threeShardsStream).sketch? quarterNumerics ⟨2, 0.5, 0.25⟩ = some single ∧
        merged.grid = single.grid ∧ ∀ listed, listed ∈ merged.topK ↔ listed ∈ single.topK := by
  have hshape : Accuracy.shape quarterNumerics ⟨2, 0.5, 0.25⟩ = .ok ⟨2, 6⟩ := rfl
  have hseparates : Shape.Separates ⟨2, 6⟩ (threeShards.adds.map Prod.fst) := by decide +kernel
  have hperm : threeShardsStream.Perm threeShards.adds := by decide
  have hroom : (Tally.ofAdds threeShardsStream).listable.card ≤ 2 := by
    have hsubset : (Tally.ofAdds threeShardsStream).listable ⊆ {[1], [2]} := by
      intro key hkey
      have hpos := Finsupp.mem_support_iff.mp (Finset.mem_filter.mp hkey).1
      by_contra hother
      rw [Finset.mem_insert, Finset.mem_singleton, not_or] at hother
      simp [Tally.ofAdds, threeShardsStream, Ne.symm hother.1, Ne.symm hother.2] at hpos
    exact Nat.le_trans (Finset.card_le_card hsubset) Finset.card_le_two
  obtain ⟨merged, single, hmerged, hsingle, hgrid, -, -, hlisted⟩ :=
    gathered_eq_single hshape threeShards hseparates hperm 7
  exact ⟨hshape, hseparates, hperm, hroom, merged, single, hmerged, hsingle, hgrid, hlisted hroom⟩

end Gathering

end FlowSketch
