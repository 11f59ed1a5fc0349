import FlowSketch.Proofs.Grid.Ageing
import FlowSketch.Proofs.Leaderboard.Ageing
import FlowSketch.Proofs.Sketch.Exact

/-!
# FlowSketch.Proofs.Sketch.Agreement

**What ageing leaves of the agreement between the grid and the leaderboard.** The views of a sketch
agree if every listed key is listed with its estimate. Ageing scales the listed estimate of a key
and the cells the key owns alike, so the views agree afterwards, unless ageing empties a cell that
stands at a place of the key but belongs to another one. Then the key's estimate is zero, while its
listed estimate is not (`decay_agreement`, `decay_parts_views`).
-/

namespace FlowSketch.Sketch

variable {num : Numerics} {s : Sketch}

/-- Every listed key is listed with its estimate. -/
def ViewsAgree (s : Sketch) : Prop :=
  ∀ x ∈ s.topK, s.estimate x.1 = x.2

instance (s : Sketch) : Decidable s.ViewsAgree :=
  inferInstanceAs (Decidable (∀ x ∈ s.topK, _))

/-- What is listed after ageing was listed before, and did not come to nothing. -/
theorem exists_of_mem_decay {x : Key × UInt64} (hx : x ∈ (s.decay num).topK) :
    ∃ y ∈ s.topK, y.1 = x.1 ∧ num.scale (1.0 / decayBase) y.2 = x.2 ∧ x.2 ≠ 0 := by
  have hsurvives := (Leaderboard.ranking_decay_perm _ s.board).mem_iff.mp hx
  obtain ⟨hmem, hpositive⟩ := List.mem_filter.mp hsurvives
  obtain ⟨y, hy, rfl⟩ := List.mem_map.mp hmem
  exact ⟨y, hy, rfl, rfl, of_decide_eq_true hpositive⟩

/-- Ageing a sketch whose views agree takes the listed estimates and the estimates to the same
numbers, but for the keys at whose places another key's count comes to nothing: those stay listed,
and are estimated at zero. So the views still agree exactly if there is no such key. -/
theorem decay_agreement (hscale : num.scale = Numerics.scaleWord) (hagree : s.ViewsAgree) :
    (∀ x ∈ (s.decay num).topK, x.2 ≠ 0 ∧ (s.decay num).estimate x.1 =
      if s.grid.Vacates (num.scale (1.0 / decayBase)) x.1 then 0 else x.2) ∧
    ((s.decay num).ViewsAgree ↔
      ∀ x ∈ (s.decay num).topK, ¬ s.grid.Vacates (num.scale (1.0 / decayBase)) x.1) := by
  have hshrinks : Shrinks (num.scale (1.0 / decayBase)) := hscale ▸ shrinks_decay
  have hestimates : ∀ x ∈ (s.decay num).topK, x.2 ≠ 0 ∧ (s.decay num).estimate x.1 =
      if s.grid.Vacates (num.scale (1.0 / decayBase)) x.1 then 0 else x.2 := by
    intro x hx
    obtain ⟨y, hy, hkey, hscaled, hpositive⟩ := exists_of_mem_decay hx
    have hbefore : s.grid.estimate x.1 = y.2 := hkey ▸ hagree y hy
    refine ⟨hpositive, ?_⟩
    rw [← hbefore] at hscaled
    split
    · rename_i hvacates
      exact Grid.estimate_attenuate_of_vacates hvacates
    · rename_i hkept
      exact (Grid.estimate_attenuate hshrinks (hscaled ▸ hpositive) hkept).trans hscaled
  refine ⟨hestimates, ?_, ?_⟩
  · intro hviews x hx hvacates
    obtain ⟨hpositive, hestimate⟩ := hestimates x hx
    rw [if_pos hvacates, hviews x hx] at hestimate
    exact hpositive hestimate
  · intro hkept x hx
    rw [(hestimates x hx).2, if_neg (hkept x hx)]

/-! ### A key that loses its estimate -/

/-- One recording of a key that shares its second place with the key `[3]`. -/
def rivalSketch : Sketch :=
  twoRowSketch.add quarterNumerics [1] 1

/-- A sketch that took that key in twice. The shared place still belongs to `[3]`. -/
def sharedSketch : Sketch :=
  ((twoRowSketch.add quarterNumerics [3] 1).absorb rivalSketch).absorb rivalSketch

theorem reachable_sharedSketch : Reachable quarterNumerics sharedSketch := by
  have hrival : Reachable quarterNumerics rivalSketch :=
    (Reachable.create create_twoRowSketch).add [1] 1
  have hfirst : Reachable quarterNumerics (twoRowSketch.add quarterNumerics [3] 1) :=
    (Reachable.create create_twoRowSketch).add [3] 1
  have habsorb : ∀ {mine : Sketch}, Reachable quarterNumerics mine →
      mine.accuracy = rivalSketch.accuracy → Reachable quarterNumerics (mine.absorb rivalSketch) := by
    intro mine hmine haccuracy
    have hempty : rivalSketch.isEmpty = false := by decide +kernel
    exact hmine.merge hrival (hmine.sound.merge_eq_absorb hrival.sound haccuracy hempty)
  exact habsorb (habsorb hfirst (accuracy_add ..)) (accuracy_add ..)

/-- The views agree, and after one ageing they do not: `[1]` is listed with one occurrence and
estimated at zero. -/
theorem decay_parts_views :
    Reachable quarterNumerics sharedSketch ∧ sharedSketch.topK = [([1], 2), ([3], 1)] ∧
      sharedSketch.ViewsAgree ∧ (sharedSketch.decay quarterNumerics).topK = [([1], 1)] ∧
      (sharedSketch.decay quarterNumerics).estimate [1] = 0 ∧
      ¬ (sharedSketch.decay quarterNumerics).ViewsAgree :=
  ⟨reachable_sharedSketch, by decide +kernel, by decide +kernel, by decide +kernel,
    by decide +kernel, by decide +kernel⟩

/-- The theorem on a sketch whose keys share a place, and on one whose keys do not. -/
theorem decay_agreement_sharedSketch :
    Reachable quarterNumerics sharedSketch ∧ sharedSketch.ViewsAgree ∧
      (sharedSketch.decay quarterNumerics).estimate [1] = 0 ∧
      Reachable halfNumerics tiedSketch ∧ tiedSketch.ViewsAgree ∧
      (tiedSketch.decay halfNumerics).ViewsAgree := by
  have hshared : sharedSketch.ViewsAgree := by decide +kernel
  have htied : tiedSketch.ViewsAgree := by decide +kernel
  refine ⟨reachable_sharedSketch, hshared, ?_, reachable_tiedSketch, htied, ?_⟩
  · have hmem : (([1], 1) : Key × UInt64) ∈ (sharedSketch.decay quarterNumerics).topK := by
      decide +kernel
    rw [((decay_agreement rfl hshared).1 _ hmem).2]
    decide +kernel
  · rw [(decay_agreement rfl htied).2]
    decide +kernel

end FlowSketch.Sketch
