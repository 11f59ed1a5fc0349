import FlowSketch.Proofs.Sketch.RoundTrip

/-!
# FlowSketch.Proofs.Sketch.Ranking

**What the ranked view shows in every reachable sketch.** No more keys are listed than the sketch
was asked to report, no key twice, each short enough to be written down and with an estimate above
zero, heaviest first (`reachable_ranking`). The question whether a key
is listed goes to an index that the ranking does not use; both answer for the same keys
(`Sound.contains_iff`).

Since estimates do not rise along the ranking, asking for all keys above a threshold cuts it off at
one point: the heavy hitters are its longest prefix above the threshold
(`heavyHitters_eq_takeWhile`).
-/

namespace FlowSketch

/-- Where a test that has failed once fails from then on, what passes is a prefix. -/
theorem filter_eq_takeWhile {α : Type} {test : α → Bool} {xs : List α}
    (h : xs.Pairwise fun x y => test y = true → test x = true) :
    xs.filter test = xs.takeWhile test := by
  induction xs with
  | nil => rfl
  | cons x rest ih =>
      obtain ⟨hfirst, hrest⟩ := List.pairwise_cons.mp h
      by_cases hx : test x = true
      · rw [List.filter_cons_of_pos hx, List.takeWhile_cons_of_pos hx, ih hrest]
      · rw [List.filter_cons_of_neg hx, List.takeWhile_cons_of_neg hx]
        exact List.filter_eq_nil_iff.mpr fun y hy hpasses => hx (hfirst y hy hpasses)

namespace Sketch

variable {num : Numerics} {s : Sketch}

/-- The index answers for exactly the keys that the ranking shows. -/
theorem Sound.contains_iff (hs : s.Sound num) {key : Key} :
    s.contains key = true ↔ key ∈ s.topK.map Prod.fst :=
  hs.board.contains_iff.trans Leaderboard.key_mem_ranking.symm

/-- The keys whose listed estimate reaches a threshold stand in front of all others. -/
theorem heavyHitters_eq_takeWhile (s : Sketch) (threshold : UInt64) :
    s.heavyHitters threshold = s.topK.takeWhile fun listed => threshold ≤ listed.2 := by
  refine filter_eq_takeWhile (s.board.pairwise_ranking.imp ?_)
  intro x y hle hreaches
  exact decide_eq_true (UInt64.le_trans (of_decide_eq_true hreaches) hle)

theorem mem_heavyHitters {threshold : UInt64} {x : Key × UInt64} :
    x ∈ s.heavyHitters threshold ↔ x ∈ s.topK ∧ threshold ≤ x.2 := by
  rw [heavyHitters, List.mem_filter, decide_eq_true_eq]

/-- In every reachable sketch at most `k` keys are listed, all distinct and short enough to be written
down, with positive estimates that do not rise; the index knows exactly these keys; and for every
threshold the heavy hitters are the longest prefix of the ranking that stays at or above it, which
leaves out no listed key that reaches it. -/
theorem reachable_ranking (hs : Reachable num s) :
    s.topK.length ≤ s.accuracy.k ∧
    (s.topK.map Prod.fst).Nodup ∧
    (∀ x ∈ s.topK, x.1.length ≤ maxWord32 ∧ 0 < x.2) ∧
    (s.topK.Pairwise fun x y => y.2 ≤ x.2) ∧
    (∀ key, s.contains key = true ↔ key ∈ s.topK.map Prod.fst) ∧
    ∀ threshold,
      s.heavyHitters threshold <+: s.topK ∧
      (∀ x ∈ s.heavyHitters threshold, threshold ≤ x.2) ∧
      (∀ shown, shown <+: s.topK → (∀ x ∈ shown, threshold ≤ x.2) →
        shown <+: s.heavyHitters threshold) ∧
      ∀ x ∈ s.topK, threshold ≤ x.2 → x ∈ s.heavyHitters threshold := by
  have hsound := hs.sound
  have hvalid := hsound.image_valid
  refine ⟨hvalid.length_le, hsound.nodup_topK, ?_, s.board.pairwise_ranking,
    fun key => hsound.contains_iff, fun threshold => ⟨?_, ?_, ?_, ?_⟩⟩
  · intro x hx
    obtain ⟨hlength, hpositive⟩ := hvalid.records x hx
    exact ⟨hlength, UInt64.pos_iff_ne_zero.mpr hpositive⟩
  · rw [heavyHitters_eq_takeWhile]
    exact List.takeWhile_prefix _
  · exact fun x hx => (mem_heavyHitters.mp hx).2
  · intro shown hprefix hreach
    -- a prefix above the threshold is not cut off before its end
    obtain ⟨rest, htopK⟩ := hprefix
    rw [heavyHitters_eq_takeWhile, ← htopK,
      List.takeWhile_append_of_pos fun x hx => decide_eq_true (hreach x hx)]
    exact List.prefix_append shown _
  · exact fun x hx hreaches => mem_heavyHitters.mpr ⟨hx, hreaches⟩

/-- Of two keys that tied, one was recorded again. -/
def raisedSketch : Sketch :=
  tiedSketch.add halfNumerics [2] 4

theorem reachable_ranking_raisedSketch :
    Reachable halfNumerics raisedSketch ∧ raisedSketch.topK = [([2], 7), ([1], 3)] ∧
      raisedSketch.heavyHitters 4 = [([2], 7)] ∧ raisedSketch.contains [1] = true ∧
      (raisedSketch.topK.map Prod.fst).Nodup ∧
      (∀ x ∈ raisedSketch.topK, x.1.length ≤ maxWord32 ∧ 0 < x.2) ∧
      ∀ shown, shown <+: raisedSketch.topK → (∀ x ∈ shown, 4 ≤ x.2) → shown <+: [([2], 7)] := by
  have hreachable : Reachable halfNumerics raisedSketch := reachable_tiedSketch.add [2] 4
  have htopK : raisedSketch.topK = [([2], 7), ([1], 3)] := by decide +kernel
  have hheavy : raisedSketch.heavyHitters 4 = [([2], 7)] := by decide +kernel
  obtain ⟨-, hnodup, hrecords, -, hcontains, hhitters⟩ := reachable_ranking hreachable
  refine ⟨hreachable, htopK, hheavy, (hcontains [1]).mpr ?_, hnodup, hrecords, ?_⟩
  · rw [htopK]
    decide
  · rw [← hheavy]
    exact (hhitters 4).2.2.1

end Sketch

end FlowSketch
