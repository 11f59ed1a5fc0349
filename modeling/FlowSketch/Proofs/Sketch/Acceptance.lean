import FlowSketch.Proofs.Sketch.Reachable
import FlowSketch.Proofs.Wire.Grammar

/-!
# FlowSketch.Proofs.Sketch.Acceptance

**Which bytes are a sketch.** Bytes are accepted if and only if the grammar derives an image from
them, and the sketch then holds the values of that image and lists its records in their order
(`ofBytes_accepts_grammar`).

Whether a key is listed twice is not asked by any reader. It shows when the records are offered to
an empty leaderboard: their number, their estimates and their order have been checked by then, so the
only way for one of them not to be admitted is that its key was admitted before
(`admitAll_iff_nodup`).
-/

namespace FlowSketch.Sketch

open Image (isDescending_iff)

variable {num : Numerics}

/-- The ranking of a valid image goes onto an empty leaderboard exactly if it lists no key twice. -/
theorem admitAll_iff_nodup {image : Image} (hvalid : image.Valid num) :
    (∃ board, admitAll (.empty image.accuracy.k) image.ranking.reverse = some board) ↔
      (image.ranking.map Prod.fst).Nodup := by
  have hreverse : (image.ranking.reverse.map Prod.fst).Nodup ↔
      (image.ranking.map Prod.fst).Nodup := by
    rw [List.map_reverse, List.nodup_reverse]
  rw [← hreverse]
  constructor
  · intro h
    obtain ⟨board, hboard⟩ := h
    exact Leaderboard.nodup_of_admitAll hboard
  · intro hnodup
    have hroom : 0 + image.ranking.reverse.length ≤ image.accuracy.k := by
      rw [Nat.zero_add, List.length_reverse]
      exact hvalid.length_le
    exact Leaderboard.admitAll_succeeds (b := .empty image.accuracy.k) hnodup
      (fun x _ => by simp [Leaderboard.empty])
      (fun x hx => (hvalid.records x (List.mem_reverse.mp hx)).2) hroom

/-- Bytes are accepted if and only if the grammar derives an image from them, whatever the seed, and
the sketch holds the values of that image. -/
theorem ofBytes_accepts_grammar (bytes : List UInt8) (seed : UInt64) :
    ((∃ s, ofBytes num bytes seed = .ok s) ↔ ∃ image, Image.Written num image bytes) ∧
      ∀ s image, ofBytes num bytes seed = .ok s → Image.Written num image bytes →
        s.accuracy = image.accuracy ∧ s.grid = image.grid ∧ s.total = image.total ∧
          s.topK = image.ranking := by
  refine ⟨⟨?_, ?_⟩, ?_⟩
  · intro h
    obtain ⟨s, h⟩ := h
    obtain ⟨image, board, hvalid, rfl, hboard, -⟩ := ofBytes_eq_ok.mp h
    exact ⟨image, Image.written_iff.mpr ⟨hvalid, (admitAll_iff_nodup hvalid).mp ⟨board, hboard⟩, rfl⟩⟩
  · intro h
    obtain ⟨image, hwritten⟩ := h
    obtain ⟨hvalid, hnodup, rfl⟩ := Image.written_iff.mp hwritten
    obtain ⟨board, hboard⟩ := (admitAll_iff_nodup hvalid).mpr hnodup
    exact ⟨_, ofBytes_eq_ok.mpr ⟨image, board, hvalid, rfl, hboard, rfl⟩⟩
  · intro s image h hwritten
    obtain ⟨found, board, hfound, rfl, hboard, rfl⟩ := ofBytes_eq_ok.mp h
    obtain ⟨hvalid, -, hencode⟩ := Image.written_iff.mp hwritten
    -- the bytes are the encoding of both images, so the two are one
    obtain rfl := Image.encode_inj hfound hvalid hencode
    exact ⟨rfl, rfl, rfl, Leaderboard.ranking_admitAll (isDescending_iff.mp hvalid.descending) hboard⟩

theorem ofBytes_accepts_grammar_tiedSketch :
    Image.Written halfNumerics tiedSketch.image tiedSketch.toBytes ∧
      ∃ s, ofBytes halfNumerics tiedSketch.toBytes 7 = .ok s ∧ s.topK = tiedSketch.image.ranking := by
  have hwritten : Image.Written halfNumerics tiedSketch.image tiedSketch.toBytes :=
    Image.written_iff.mpr ⟨reachable_tiedSketch.sound.image_valid, by decide +kernel, rfl⟩
  obtain ⟨haccepts, hvalues⟩ := @ofBytes_accepts_grammar halfNumerics tiedSketch.toBytes 7
  obtain ⟨s, hs⟩ := haccepts.mpr ⟨tiedSketch.image, hwritten⟩
  obtain ⟨-, -, -, htopK⟩ := hvalues s tiedSketch.image hs hwritten
  exact ⟨hwritten, s, hs, htopK⟩

end FlowSketch.Sketch
