import FlowSketch.Proofs.Leaderboard.Rebuild
import FlowSketch.Proofs.Sketch.Merging

/-!
# FlowSketch.Proofs.Sketch.MergeOrder

**How a merge orders the receiver's keys where they come to tie.** The receiver's keys are offered
from the lowest rank up, so where two of them tie in the merged grid, the one that ranked higher is
the younger one afterwards and ranks higher again; the keys of the argument come after them and renew
none (`merge_keeps_rank`).

Rank is estimate first and age second. So among keys that tied before, the most recently admitted goes
on standing in front. Between keys that did not tie before, the heavier one stands in front, even
if it is the older one (`merge_lists_older_first`).
-/

namespace FlowSketch.Sketch

variable {num : Numerics} {mine theirs : Sketch} {x y : Key} {v : UInt64}

/-- One key stands before another one in the ranking. -/
def ListsBefore (s : Sketch) (x y : Key) : Prop :=
  (s.topK.map Prod.fst).idxOf x < (s.topK.map Prod.fst).idxOf y

instance (s : Sketch) (x y : Key) : Decidable (s.ListsBefore x y) :=
  inferInstanceAs (Decidable (_ < _))

theorem ListsBefore.asymm {s : Sketch} (h : s.ListsBefore x y) : ¬ s.ListsBefore y x :=
  Nat.lt_asymm h

theorem not_listsBefore_self (s : Sketch) (x : Key) : ¬ s.ListsBefore x x :=
  Nat.lt_irrefl _

/-- In a list without repetitions earlier keys have the smaller index. -/
theorem pairwise_idxOf {keys : List Key} (h : keys.Nodup) :
    keys.Pairwise fun x y => keys.idxOf x < keys.idxOf y := by
  rw [List.pairwise_iff_getElem]
  intro i j hi hj hij
  rw [h.idxOf_getElem, h.idxOf_getElem]
  exact hij

/-- Of the keys that a merge offers for one side, each one ranked below all that follow. -/
theorem Sound.pairwise_reoffers (hmine : mine.Sound num) (grid : Grid) :
    (reoffers grid mine.board).Pairwise fun offered later =>
      mine.ListsBefore later.1 offered.1 := by
  rw [reoffers, List.pairwise_map, List.pairwise_reverse]
  exact List.pairwise_map.mp (pairwise_idxOf hmine.nodup_topK)

theorem map_fst_reoffers (grid : Grid) (b : Leaderboard) :
    (reoffers grid b).map Prod.fst = (b.ranking.map Prod.fst).reverse := by
  rw [reoffers, List.map_map, ← List.map_reverse]
  rfl

/-- Keys of the receiver that tie after a merge keep the order they had. -/
theorem Sound.listsBefore_absorb (hmine : mine.Sound num) (hbefore : mine.ListsBefore x y)
    (hx : x ∈ mine.topK.map Prod.fst) (hy : y ∈ mine.topK.map Prod.fst)
    (hxv : (x, v) ∈ (mine.absorb theirs).topK) (hyv : (y, v) ∈ (mine.absorb theirs).topK) :
    (mine.absorb theirs).ListsBefore x y := by
  have hkeys := map_fst_reoffers (mine.grid.merge theirs.grid) mine.board
  have hmem : ∀ key ∈ mine.topK.map Prod.fst,
      key ∈ (reoffers (mine.grid.merge theirs.grid) mine.board).map Prod.fst := by
    intro key hkey
    rw [hkeys]
    exact List.mem_reverse.mpr hkey
  have hheights : ∀ b, ∀ offered ∈ reoffers (mine.grid.merge theirs.grid) b,
      offered.2 = (mine.grid.merge theirs.grid).estimate offered.1 := by
    intro b offered hoffered
    obtain ⟨e, -, rfl⟩ := mem_reoffers hoffered
    rfl
  have hroom : (reoffers (mine.grid.merge theirs.grid) mine.board).length ≤ mine.accuracy.k := by
    rw [reoffers, List.length_map, List.length_reverse, Leaderboard.length_ranking, ← hmine.capacity]
    exact hmine.board.legal.length_le
  refine Leaderboard.idxOf_lt_of_offered (R := fun offered later => mine.ListsBefore later offered)
    (fun _ _ => ListsBefore.asymm) (hmine.pairwise_reoffers (mine.grid.merge theirs.grid)) ?_ hroom
    (hheights _) (hheights _) (hmem y hy) (hmem x hx) hbefore hyv hxv
  rw [hkeys]
  exact List.nodup_reverse.mpr hmine.nodup_topK

/-- Of two entries of the receiver whose keys tie after a merge, the heavier one has its key listed
first. -/
theorem Sound.listsBefore_absorb_iff (hmine : mine.Sound num) {p q : Entry}
    (hp : p ∈ mine.board.roster.entries) (hq : q ∈ mine.board.roster.entries)
    (hpv : (p.key, v) ∈ (mine.absorb theirs).topK) (hqv : (q.key, v) ∈ (mine.absorb theirs).topK) :
    (mine.absorb theirs).ListsBefore p.key q.key ↔ q.weight < p.weight := by
  have hkept : ∀ a ∈ mine.board.roster.entries, ∀ c ∈ mine.board.roster.entries,
      (a.key, v) ∈ (mine.absorb theirs).topK → (c.key, v) ∈ (mine.absorb theirs).topK →
      c.weight < a.weight → (mine.absorb theirs).ListsBefore a.key c.key := by
    intro a ha c hc hav hcv hlt
    exact hmine.listsBefore_absorb (hmine.board.idxOf_ranking_lt ha hc hlt)
      (Leaderboard.key_mem_ranking.mpr ⟨a, ha, rfl⟩) (Leaderboard.key_mem_ranking.mpr ⟨c, hc, rfl⟩)
      hav hcv
  refine ⟨fun hafter => ?_, hkept p hp q hq hpv hqv⟩
  rcases lt_trichotomy q.weight p.weight with hlt | heq | hgt
  · exact hlt
  · rw [hmine.board.legal.weight_inj hq hp heq] at hafter
    exact absurd hafter (not_listsBefore_self _ _)
  · exact absurd (hkept q hq p hp hqv hpv hgt) hafter.asymm

/-- When two reachable sketches of one configuration are merged, of which the argument is not empty,
then keys of the receiver that come to be listed with equal estimates are listed in the order in which
the receiver listed them. So of two such keys the more recently admitted one is listed first exactly
if its estimate was no smaller before. -/
theorem merge_keeps_rank (hmine : Reachable num mine) (htheirs : Reachable num theirs)
    (haccuracy : mine.accuracy = theirs.accuracy) (hfull : theirs.isEmpty = false) :
    ∃ s, mine.merge theirs = .ok s ∧
      ∀ p ∈ mine.board.roster.entries, ∀ q ∈ mine.board.roster.entries, ∀ v,
        (p.key, v) ∈ s.topK → (q.key, v) ∈ s.topK →
        (s.ListsBefore p.key q.key ↔ mine.ListsBefore p.key q.key) ∧
        (q.seq < p.seq → (s.ListsBefore p.key q.key ↔ q.estimate ≤ p.estimate)) := by
  refine ⟨mine.absorb theirs, hmine.sound.merge_eq_absorb htheirs.sound haccuracy hfull, ?_⟩
  intro p hp q hq v hpv hqv
  have hafter := hmine.sound.listsBefore_absorb_iff hp hq hpv hqv
  have hbefore : mine.ListsBefore p.key q.key ↔ q.weight < p.weight :=
    hmine.sound.board.idxOf_ranking_lt_iff hp hq
  refine ⟨hafter.trans hbefore.symm, fun hseq => hafter.trans ?_⟩
  exact Entry.weight_lt_iff_of_younger hseq

/-- A sketch whose older key is the heavier one. -/
def olderHeavier : Sketch :=
  (newSketch.add halfNumerics [2] 5).add halfNumerics [1] 3

/-- A sketch that has seen the lighter one of these keys. -/
def catchingUp : Sketch :=
  newSketch.add halfNumerics [1] 2

theorem reachable_olderHeavier : Reachable halfNumerics olderHeavier :=
  ((Reachable.create create_newSketch).add [2] 5).add [1] 3

theorem reachable_catchingUp : Reachable halfNumerics catchingUp :=
  (Reachable.create create_newSketch).add [1] 2

theorem accuracy_olderHeavier : olderHeavier.accuracy = catchingUp.accuracy := by
  rw [olderHeavier, catchingUp, accuracy_add, accuracy_add, accuracy_add]

theorem catchingUp_isEmpty : catchingUp.isEmpty = false := by decide +kernel

theorem merge_olderHeavier :
    olderHeavier.merge catchingUp = .ok (olderHeavier.absorb catchingUp) :=
  reachable_olderHeavier.sound.merge_eq_absorb reachable_catchingUp.sound accuracy_olderHeavier
    catchingUp_isEmpty

theorem entries_olderHeavier :
    olderHeavier.board.roster.entries = [⟨[2], 5, 0⟩, ⟨[1], 3, 1⟩] := by decide +kernel

theorem topK_olderHeavier_absorb :
    (olderHeavier.absorb catchingUp).topK = [([2], 5), ([1], 5)] := by decide +kernel

/-- The merge makes the two keys tie, and the one that was admitted first stands in front. -/
theorem merge_lists_older_first :
    Reachable halfNumerics olderHeavier ∧ Reachable halfNumerics catchingUp ∧
      olderHeavier.accuracy = catchingUp.accuracy ∧ catchingUp.isEmpty = false ∧
      ∃ s, olderHeavier.merge catchingUp = .ok s ∧ s.topK = [([2], 5), ([1], 5)] ∧
        ¬ ∀ p ∈ olderHeavier.board.roster.entries, ∀ q ∈ olderHeavier.board.roster.entries, ∀ v,
          (p.key, v) ∈ s.topK → (q.key, v) ∈ s.topK → q.seq < p.seq →
            s.ListsBefore p.key q.key := by
  refine ⟨reachable_olderHeavier, reachable_catchingUp, accuracy_olderHeavier, catchingUp_isEmpty, _,
    merge_olderHeavier, topK_olderHeavier_absorb, fun hall => ?_⟩
  rw [entries_olderHeavier] at hall
  have hbefore := hall ⟨[1], 3, 1⟩ (by decide) ⟨[2], 5, 0⟩ (by decide) 5
  rw [topK_olderHeavier_absorb] at hbefore
  have hfirst := hbefore (by decide) (by decide) (by decide)
  rw [ListsBefore, topK_olderHeavier_absorb] at hfirst
  revert hfirst
  decide

/-- Two keys that tie now stand as they did when the older one was the heavier one. -/
theorem merge_keeps_rank_olderHeavier :
    Reachable halfNumerics olderHeavier ∧ Reachable halfNumerics catchingUp ∧
      olderHeavier.accuracy = catchingUp.accuracy ∧ catchingUp.isEmpty = false ∧
      ∃ s, olderHeavier.merge catchingUp = .ok s ∧
        (s.ListsBefore [2] [1] ↔ olderHeavier.ListsBefore [2] [1]) ∧
        (s.ListsBefore [1] [2] ↔ (5 : UInt64) ≤ 3) := by
  obtain ⟨s, hmerge, hrank⟩ :=
    merge_keeps_rank reachable_olderHeavier reachable_catchingUp accuracy_olderHeavier
      catchingUp_isEmpty
  obtain rfl := Except.ok.inj (merge_olderHeavier.symm.trans hmerge)
  rw [entries_olderHeavier, topK_olderHeavier_absorb] at hrank
  obtain ⟨hkept, -⟩ := hrank ⟨[2], 5, 0⟩ (by decide) ⟨[1], 3, 1⟩ (by decide) 5 (by decide) (by decide)
  obtain ⟨-, hages⟩ := hrank ⟨[1], 3, 1⟩ (by decide) ⟨[2], 5, 0⟩ (by decide) 5 (by decide) (by decide)
  exact ⟨reachable_olderHeavier, reachable_catchingUp, accuracy_olderHeavier, catchingUp_isEmpty, _,
    hmerge, hkept, hages (by decide)⟩

end FlowSketch.Sketch
