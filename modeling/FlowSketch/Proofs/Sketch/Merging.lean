import FlowSketch.Proofs.Leaderboard.Standing
import FlowSketch.Proofs.Sketch.Ranking
import FlowSketch.Proofs.Sketch.Storage

/-!
# FlowSketch.Proofs.Sketch.Merging

**What a merge ranks, and how far the order of its sides matters.** A merge forgets what was listed
before and offers the keys of both sides, up to `2 k` of them and some of them twice, at their
estimates in the merged grid. Whatever leaves the leaderboard on the way, the outcome tracks
these estimates (`Sound.tracks_absorb`): it shows the heaviest of the keys that were listed on either
side, and leaves out none that is heavier than a key it shows (`merge_ranks_heaviest`).

So the outcome depends on the merged grid and on the keys that were listed, and both are the same in
either order as long as no cell has to be decided between two owners of equal counts
(`merge_swap_agrees`). Keys that tie for the last rank are all that the order can show in.

A key that neither side listed is not offered. It is left out even if its counts on the two sides add
up to more than any listed estimate (`merge_leaves_out_unlisted`).
-/

namespace FlowSketch.Sketch

variable {num : Numerics} {mine theirs : Sketch} {key : Key}

/-! ### What is offered -/

/-- The keys that were listed on either side, at their estimates in the merged grid. -/
def mergedPeaks (mine theirs : Sketch) : Peaks := fun key =>
  if mine.contains key || theirs.contains key then (mine.grid.merge theirs.grid).estimate key else 0

theorem mergedPeaks_of_contains (h : mine.contains key = true ∨ theirs.contains key = true) :
    mergedPeaks mine theirs key = (mine.absorb theirs).estimate key :=
  if_pos (Bool.or_eq_true_iff.mpr h)

theorem mergedPeaks_of_not_contains (h : ¬ (mine.contains key = true ∨ theirs.contains key = true)) :
    mergedPeaks mine theirs key = 0 :=
  if_neg fun hor => h (Bool.or_eq_true_iff.mp hor)

/-- Only a key that was listed has a peak. -/
theorem contains_of_mergedPeaks (h : mergedPeaks mine theirs key ≠ 0) :
    mine.contains key = true ∨ theirs.contains key = true :=
  by_contra fun hnone => h (mergedPeaks_of_not_contains hnone)

/-- A merge tracks the peaks that it offers, in whatever order and however often it offers them. -/
theorem Sound.tracks_absorb (hmine : mine.Sound num) (htheirs : theirs.Sound num) :
    (mine.absorb theirs).board.roster.Tracks (mergedPeaks mine theirs) := by
  have hoffers := (Leaderboard.wellFormed_empty mine.accuracy.k).tracks_offerAll
    (Roster.tracks_empty mine.accuracy.k)
    (reoffers (mine.grid.merge theirs.grid) mine.board ++
      reoffers (mine.grid.merge theirs.grid) theirs.board)
  rw [Peaks.raiseAll_eq (N := mergedPeaks mine theirs)] at hoffers
  · exact hoffers
  · intro x hx
    rcases List.mem_append.mp hx with hx | hx
    · obtain ⟨e, he, rfl⟩ := mem_reoffers hx
      exact (mergedPeaks_of_contains (.inl (hmine.board.contains_iff.mpr ⟨e, he, rfl⟩))).symm
    · obtain ⟨e, he, rfl⟩ := mem_reoffers hx
      exact (mergedPeaks_of_contains (.inr (htheirs.board.contains_iff.mpr ⟨e, he, rfl⟩))).symm
  · intro key hpeak
    rw [List.map_append, List.mem_append]
    rcases contains_of_mergedPeaks hpeak with hlisted | hlisted
    · obtain ⟨e, he, rfl⟩ := hmine.board.contains_iff.mp hlisted
      exact .inl (key_mem_reoffers _ he)
    · obtain ⟨e, he, rfl⟩ := htheirs.board.contains_iff.mp hlisted
      exact .inr (key_mem_reoffers _ he)

/-! ### What is ranked -/

/-- What a merge ranks, was listed before, and stands at its estimate in the merged grid. -/
theorem Sound.mem_topK_absorb (hmine : mine.Sound num) (htheirs : theirs.Sound num)
    (hsound : (mine.absorb theirs).Sound num) {x : Key × UInt64}
    (hx : x ∈ (mine.absorb theirs).topK) :
    x.2 = (mine.absorb theirs).estimate x.1 ∧ 0 < x.2 ∧
      (mine.contains x.1 = true ∨ theirs.contains x.1 = true) := by
  have htracks := hmine.tracks_absorb htheirs
  obtain ⟨e, he, rfl⟩ := Leaderboard.mem_ranking.mp hx
  have hlisted := contains_of_mergedPeaks (htracks.peak_ne_zero hsound.board.legal he)
  refine ⟨(htracks.listed e he).trans (mergedPeaks_of_contains hlisted), ?_, hlisted⟩
  exact UInt64.pos_iff_ne_zero.mpr (hsound.board.legal.positive e he)

/-- A key that neither side listed is not ranked, whatever its estimate in the merged grid. -/
theorem Sound.ne_of_unlisted (hmine : mine.Sound num) (htheirs : theirs.Sound num)
    (hsound : (mine.absorb theirs).Sound num)
    (hunlisted : ¬ (mine.contains key = true ∨ theirs.contains key = true)) :
    ∀ x ∈ (mine.absorb theirs).topK, x.1 ≠ key := by
  intro x hx hkey
  have hlisted := (hmine.mem_topK_absorb htheirs hsound hx).2.2
  rw [hkey] at hlisted
  exact hunlisted hlisted

/-- What a merge leaves out although it was listed before, has nothing left in the merged grid, or
found no room and nothing lighter than itself. -/
theorem Sound.le_of_left_out (hmine : mine.Sound num) (htheirs : theirs.Sound num)
    (hsound : (mine.absorb theirs).Sound num)
    (hlisted : mine.contains key = true ∨ theirs.contains key = true)
    (hnew : ∀ x ∈ (mine.absorb theirs).topK, x.1 ≠ key) :
    (mine.absorb theirs).estimate key = 0 ∨
      (mine.absorb theirs).topK.length = mine.accuracy.k ∧
      ∀ x ∈ (mine.absorb theirs).topK, (mine.absorb theirs).estimate key ≤ x.2 := by
  have htracks := hmine.tracks_absorb htheirs
  by_cases hzero : (mine.absorb theirs).estimate key = 0
  · exact .inl hzero
  · have hnone : ∀ e ∈ (mine.absorb theirs).board.roster.entries, e.key ≠ key := fun e he =>
      hnew e.listed (Leaderboard.mem_ranking.mpr ⟨e, he, rfl⟩)
    rw [← mergedPeaks_of_contains hlisted] at hzero ⊢
    obtain ⟨hfull, hleast⟩ := htracks.forgotten key hnone hzero
    refine .inr ⟨?_, fun x hx => ?_⟩
    · rw [topK, Leaderboard.length_ranking, hfull]
      exact hsound.capacity
    · obtain ⟨e, he, rfl⟩ := Leaderboard.mem_ranking.mp hx
      exact hleast e he

/-- A key that was listed before and has a count left is ranked if there is room or something lighter
than itself. -/
theorem Sound.ranked_absorb (hmine : mine.Sound num) (htheirs : theirs.Sound num)
    (hsound : (mine.absorb theirs).Sound num)
    (hlisted : mine.contains key = true ∨ theirs.contains key = true)
    (hpos : (mine.absorb theirs).estimate key ≠ 0)
    (hplace : (mine.absorb theirs).topK.length < mine.accuracy.k ∨
      ∃ x ∈ (mine.absorb theirs).topK, x.2 < (mine.absorb theirs).estimate key) :
    (key, (mine.absorb theirs).estimate key) ∈ (mine.absorb theirs).topK := by
  by_contra hmissing
  have hnew : ∀ x ∈ (mine.absorb theirs).topK, x.1 ≠ key := by
    intro x hx hkey
    have hestimate := (hmine.mem_topK_absorb htheirs hsound hx).1
    rw [hkey] at hestimate
    have hpair : x = (key, (mine.absorb theirs).estimate key) := Prod.ext hkey hestimate
    exact hmissing (hpair ▸ hx)
  obtain ⟨hfull, hleast⟩ :=
    (hmine.le_of_left_out htheirs hsound hlisted hnew).resolve_left hpos
  rcases hplace with hroom | ⟨x, hx, hlt⟩
  · exact absurd hfull (Nat.ne_of_lt hroom)
  · exact UInt64.not_le.mpr hlt (hleast x hx)

/-- A merge of reachable sketches of one configuration, of which the argument is not empty, ranks
keys that were listed on either side at their estimates in the merged grid, which are positive. A
key that was listed and is left out has the estimate zero, or the ranking is full and shows nothing
below that estimate. -/
theorem merge_ranks_heaviest (hmine : Reachable num mine) (htheirs : Reachable num theirs)
    (haccuracy : mine.accuracy = theirs.accuracy) (hfull : theirs.isEmpty = false) :
    ∃ s, mine.merge theirs = .ok s ∧ s.accuracy = mine.accuracy ∧
      (∀ x ∈ s.topK, x.2 = s.estimate x.1 ∧ 0 < x.2 ∧
        (mine.contains x.1 = true ∨ theirs.contains x.1 = true)) ∧
      ∀ key, mine.contains key = true ∨ theirs.contains key = true →
        (∀ x ∈ s.topK, x.1 ≠ key) →
        s.estimate key = 0 ∨
          s.topK.length = s.accuracy.k ∧ ∀ x ∈ s.topK, s.estimate key ≤ x.2 := by
  have hsound := hmine.sound.absorb htheirs.sound (hmine.sound.agrees htheirs.sound haccuracy).1
  refine ⟨mine.absorb theirs, hmine.sound.merge_eq_absorb htheirs.sound haccuracy hfull, rfl, ?_, ?_⟩
  · exact fun x hx => hmine.sound.mem_topK_absorb htheirs.sound hsound hx
  · exact fun key hlisted hnew => hmine.sound.le_of_left_out htheirs.sound hsound hlisted hnew

/-- A new sketch that two keys were recorded in, the second one more often. -/
def leftShard : Sketch :=
  (newSketch.add halfNumerics [1] 3).add halfNumerics [2] 5

/-- A new sketch that has one of these keys too, and a third key as often as the other one of them. -/
def rightShard : Sketch :=
  (newSketch.add halfNumerics [2] 4).add halfNumerics [5] 3

theorem reachable_leftShard : Reachable halfNumerics leftShard :=
  ((Reachable.create create_newSketch).add [1] 3).add [2] 5

theorem reachable_rightShard : Reachable halfNumerics rightShard :=
  ((Reachable.create create_newSketch).add [2] 4).add [5] 3

theorem accuracy_leftShard : leftShard.accuracy = rightShard.accuracy := by
  rw [leftShard, rightShard, accuracy_add, accuracy_add, accuracy_add, accuracy_add]

theorem rightShard_isEmpty : rightShard.isEmpty = false := by decide +kernel

theorem merge_leftShard_rightShard :
    leftShard.merge rightShard = .ok (leftShard.absorb rightShard) :=
  reachable_leftShard.sound.merge_eq_absorb reachable_rightShard.sound accuracy_leftShard
    rightShard_isEmpty

/-- A key that was listed ties with the last rank and is left out. -/
theorem merge_ranks_heaviest_shards :
    Reachable halfNumerics leftShard ∧ Reachable halfNumerics rightShard ∧
      leftShard.accuracy = rightShard.accuracy ∧ rightShard.isEmpty = false ∧
      ∃ s, leftShard.merge rightShard = .ok s ∧ s.topK = [([2], 9), ([1], 3)] ∧
        (9 = s.estimate [2] ∧ (leftShard.contains [2] = true ∨ rightShard.contains [2] = true)) ∧
        rightShard.contains [5] = true ∧
        (s.estimate [5] = 0 ∨ s.topK.length = 2 ∧ ∀ x ∈ s.topK, s.estimate [5] ≤ x.2) := by
  obtain ⟨s, hmerge, -, hranked, hleft⟩ :=
    merge_ranks_heaviest reachable_leftShard reachable_rightShard accuracy_leftShard
      rightShard_isEmpty
  obtain rfl := Except.ok.inj (merge_leftShard_rightShard.symm.trans hmerge)
  have htopK : (leftShard.absorb rightShard).topK = [([2], 9), ([1], 3)] := by decide +kernel
  have hlisted : rightShard.contains [5] = true := by decide +kernel
  obtain ⟨hestimate, -, hbefore⟩ := hranked ([2], 9) (by rw [htopK]; decide)
  refine ⟨reachable_leftShard, reachable_rightShard, accuracy_leftShard, rightShard_isEmpty, _,
    hmerge, htopK, ⟨hestimate, hbefore⟩, hlisted, ?_⟩
  refine hleft [5] (.inr hlisted) ?_
  rw [htopK]
  decide

/-! ### The order of the sides -/

theorem saturatingTotal_comm (a b : UInt64) : saturatingTotal a b = saturatingTotal b a := by
  rw [saturatingTotal, saturatingTotal, Nat.add_comm]

/-- Sides whose grids merge to the same in either order offer the same peaks. -/
theorem mergedPeaks_comm (h : mine.grid.merge theirs.grid = theirs.grid.merge mine.grid) :
    mergedPeaks mine theirs = mergedPeaks theirs mine := by
  funext key
  rw [mergedPeaks, mergedPeaks, Bool.or_comm, h]

/-- If the grids merge to the same in either order, the same estimates are ranked. -/
theorem Sound.map_snd_topK_absorb (hmine : mine.Sound num) (htheirs : theirs.Sound num)
    (haccuracy : mine.accuracy = theirs.accuracy)
    (hgrid : mine.grid.merge theirs.grid = theirs.grid.merge mine.grid) :
    (mine.absorb theirs).topK.map Prod.snd = (theirs.absorb mine).topK.map Prod.snd := by
  have hshape := (hmine.agrees htheirs haccuracy).1
  have hours := hmine.absorb htheirs hshape
  have hyours := htheirs.absorb hmine hshape.symm
  have htracks := htheirs.tracks_absorb hmine
  rw [← mergedPeaks_comm hgrid] at htracks
  refine hours.board.map_snd_ranking_eq (hmine.tracks_absorb htheirs) hyours.board htracks ?_
  rw [hours.capacity, hyours.capacity]
  exact congrArg Accuracy.k haccuracy

/-- With room to spare, what one order ranks is ranked by the other. -/
theorem Sound.mem_topK_absorb_swap (hmine : mine.Sound num) (htheirs : theirs.Sound num)
    (haccuracy : mine.accuracy = theirs.accuracy)
    (hgrid : mine.grid.merge theirs.grid = theirs.grid.merge mine.grid)
    (hroom : (theirs.absorb mine).topK.length < theirs.accuracy.k) {x : Key × UInt64}
    (hx : x ∈ (mine.absorb theirs).topK) : x ∈ (theirs.absorb mine).topK := by
  have hshape := (hmine.agrees htheirs haccuracy).1
  obtain ⟨hestimate, hpos, hlisted⟩ :=
    hmine.mem_topK_absorb htheirs (hmine.absorb htheirs hshape) hx
  have hsame : x.2 = (theirs.absorb mine).estimate x.1 :=
    hestimate.trans (congrArg (Grid.estimate · x.1) hgrid)
  have hranked := htheirs.ranked_absorb hmine (htheirs.absorb hmine hshape.symm) hlisted.symm
    (hsame ▸ UInt64.pos_iff_ne_zero.mp hpos) (.inl hroom)
  rwa [← hsame] at hranked

/-- Two reachable sketches of one configuration, neither of them empty, whose grids meet without a
tie, merge in either order to the same cells, the same estimates, the same number of recordings and
the same sequence of listed estimates. A key that was listed on either side and is above the
smallest listed estimate is listed in both orders, one that neither side listed in neither, and with
room to spare both orders list the same keys. -/
theorem merge_swap_agrees (hmine : Reachable num mine) (htheirs : Reachable num theirs)
    (haccuracy : mine.accuracy = theirs.accuracy) (hmineFull : mine.isEmpty = false)
    (htheirsFull : theirs.isEmpty = false) (hties : mine.grid.TieFree theirs.grid) :
    ∃ ours yours, mine.merge theirs = .ok ours ∧ theirs.merge mine = .ok yours ∧
      ours.grid = yours.grid ∧
      (∀ key, ours.estimate key = yours.estimate key) ∧
      ours.total = yours.total ∧
      ours.topK.map Prod.snd = yours.topK.map Prod.snd ∧
      (∀ key, mine.contains key = true ∨ theirs.contains key = true →
        (∃ x ∈ ours.topK, x.2 < ours.estimate key) →
        (key, ours.estimate key) ∈ ours.topK ∧ (key, ours.estimate key) ∈ yours.topK) ∧
      (∀ key, ¬ (mine.contains key = true ∨ theirs.contains key = true) →
        (∀ x ∈ ours.topK, x.1 ≠ key) ∧ ∀ x ∈ yours.topK, x.1 ≠ key) ∧
      (ours.topK.length < mine.accuracy.k → ∀ x, x ∈ ours.topK ↔ x ∈ yours.topK) := by
  have hm := hmine.sound
  have ht := htheirs.sound
  have hshape := (hm.agrees ht haccuracy).1
  have hours := hm.absorb ht hshape
  have hyours := ht.absorb hm hshape.symm
  have hgrid := hm.grid.merge_comm ht.grid hshape hties
  have hestimates := hm.map_snd_topK_absorb ht haccuracy hgrid
  have hestimate : ∀ key, (mine.absorb theirs).estimate key = (theirs.absorb mine).estimate key :=
    fun key => congrArg (Grid.estimate · key) hgrid
  refine ⟨mine.absorb theirs, theirs.absorb mine, hm.merge_eq_absorb ht haccuracy htheirsFull,
    ht.merge_eq_absorb hm haccuracy.symm hmineFull, hgrid, hestimate, saturatingTotal_comm _ _,
    hestimates, ?_, ?_, ?_⟩
  · intro key hlisted habove
    obtain ⟨x, hx, hlt⟩ := habove
    have hpos : (mine.absorb theirs).estimate key ≠ 0 := by
      intro hzero
      rw [hzero] at hlt
      exact UInt64.not_lt_zero hlt
    refine ⟨hm.ranked_absorb ht hours hlisted hpos (.inr ⟨x, hx, hlt⟩), ?_⟩
    -- the other order ranks the same estimates, so it has something lighter too
    have hlighter : x.2 ∈ (theirs.absorb mine).topK.map Prod.snd :=
      hestimates ▸ List.mem_map_of_mem hx
    obtain ⟨y, hy, hsame⟩ := List.mem_map.mp hlighter
    rw [hestimate] at hpos hlt ⊢
    exact ht.ranked_absorb hm hyours hlisted.symm hpos (.inr ⟨y, hy, hsame ▸ hlt⟩)
  · intro key hunlisted
    exact ⟨hm.ne_of_unlisted ht hours hunlisted, ht.ne_of_unlisted hm hyours (mt Or.symm hunlisted)⟩
  · intro hroom x
    have hlength := congrArg List.length hestimates
    rw [List.length_map, List.length_map] at hlength
    refine ⟨hm.mem_topK_absorb_swap ht haccuracy hgrid ?_,
      ht.mem_topK_absorb_swap hm haccuracy.symm hgrid.symm hroom⟩
    rw [← hlength, ← haccuracy]
    exact hroom

/-- The left shard with one more key, which it has no room to list. -/
def crowdedLeft : Sketch :=
  leftShard.add halfNumerics [4] 2

/-- The right shard with the same key, which it has no room to list either. -/
def crowdedRight : Sketch :=
  rightShard.add halfNumerics [4] 2

/-- Two keys tie for the last rank, and the order decides between them. A key that both sides
counted and neither listed is heavier than these two in the merged grid, and stays out in both
orders. -/
theorem merge_swap_agrees_crowdedShards :
    Reachable halfNumerics crowdedLeft ∧ Reachable halfNumerics crowdedRight ∧
      crowdedLeft.accuracy = crowdedRight.accuracy ∧ crowdedLeft.isEmpty = false ∧
      crowdedRight.isEmpty = false ∧ crowdedLeft.grid.TieFree crowdedRight.grid ∧
      ∃ ours yours, crowdedLeft.merge crowdedRight = .ok ours ∧
        crowdedRight.merge crowdedLeft = .ok yours ∧
        ours.grid = yours.grid ∧ ours.topK = [([2], 9), ([1], 3)] ∧
        yours.topK = [([2], 9), ([5], 3)] ∧
        ours.topK.map Prod.snd = yours.topK.map Prod.snd ∧
        ([2], ours.estimate [2]) ∈ yours.topK ∧
        ours.estimate [4] = 4 ∧ (∀ x ∈ ours.topK, x.1 ≠ [4]) ∧ ∀ x ∈ yours.topK, x.1 ≠ [4] := by
  have hleft : Reachable halfNumerics crowdedLeft := reachable_leftShard.add [4] 2
  have hright : Reachable halfNumerics crowdedRight := reachable_rightShard.add [4] 2
  have haccuracy : crowdedLeft.accuracy = crowdedRight.accuracy := by
    rw [crowdedLeft, crowdedRight, accuracy_add, accuracy_add, accuracy_leftShard]
  have hleftFull : crowdedLeft.isEmpty = false := by decide +kernel
  have hrightFull : crowdedRight.isEmpty = false := by decide +kernel
  have hties : crowdedLeft.grid.TieFree crowdedRight.grid := by decide +kernel
  obtain ⟨ours, yours, hours, hyours, hgrid, -, -, hestimates, habove, hunlisted, -⟩ :=
    merge_swap_agrees hleft hright haccuracy hleftFull hrightFull hties
  obtain rfl := Except.ok.inj
    ((hleft.sound.merge_eq_absorb hright.sound haccuracy hrightFull).symm.trans hours)
  obtain rfl := Except.ok.inj
    ((hright.sound.merge_eq_absorb hleft.sound haccuracy.symm hleftFull).symm.trans hyours)
  have htopK : (crowdedLeft.absorb crowdedRight).topK = [([2], 9), ([1], 3)] := by decide +kernel
  have hranked := habove [2] (.inl (by decide +kernel))
    ⟨([1], 3), by rw [htopK]; decide, by decide +kernel⟩
  exact ⟨hleft, hright, haccuracy, hleftFull, hrightFull, hties, _, _, hours, hyours, hgrid, htopK,
    by decide +kernel, hestimates, hranked.2, by decide +kernel,
    hunlisted [4] (by decide +kernel)⟩

/-! ### What no side listed -/

/-- A sketch with room for one key, which lists the heavier one of two. -/
def narrowLeft : Sketch :=
  (oneKeySketch.add halfNumerics [1] 5).add halfNumerics [5] 4

/-- Another such sketch, which has the lighter key in common. -/
def narrowRight : Sketch :=
  (oneKeySketch.add halfNumerics [2] 5).add halfNumerics [5] 4

/-- A key that neither side listed stays out of the ranking in both orders, although its estimate is
above the smallest listed one. -/
theorem merge_leaves_out_unlisted :
    Reachable halfNumerics narrowLeft ∧ Reachable halfNumerics narrowRight ∧
      narrowLeft.accuracy = narrowRight.accuracy ∧ narrowLeft.isEmpty = false ∧
      narrowRight.isEmpty = false ∧ narrowLeft.grid.TieFree narrowRight.grid ∧
      ∃ ours yours, narrowLeft.merge narrowRight = .ok ours ∧
        narrowRight.merge narrowLeft = .ok yours ∧
        ours.topK = [([1], 5)] ∧ yours.topK = [([2], 5)] ∧ ours.estimate [5] = 8 ∧
        ¬ ∀ key, (∃ x ∈ ours.topK, x.2 < ours.estimate key) →
          key ∈ ours.topK.map Prod.fst ∧ key ∈ yours.topK.map Prod.fst := by
  have hleft : Reachable halfNumerics narrowLeft :=
    ((Reachable.create create_oneKeySketch).add [1] 5).add [5] 4
  have hright : Reachable halfNumerics narrowRight :=
    ((Reachable.create create_oneKeySketch).add [2] 5).add [5] 4
  have haccuracy : narrowLeft.accuracy = narrowRight.accuracy := by
    rw [narrowLeft, narrowRight, accuracy_add, accuracy_add, accuracy_add, accuracy_add]
  have hleftFull : narrowLeft.isEmpty = false := by decide +kernel
  have hrightFull : narrowRight.isEmpty = false := by decide +kernel
  have hours : narrowLeft.merge narrowRight = .ok (narrowLeft.absorb narrowRight) :=
    hleft.sound.merge_eq_absorb hright.sound haccuracy hrightFull
  have hyours : narrowRight.merge narrowLeft = .ok (narrowRight.absorb narrowLeft) :=
    hright.sound.merge_eq_absorb hleft.sound haccuracy.symm hleftFull
  have htopK : (narrowLeft.absorb narrowRight).topK = [([1], 5)] := by decide +kernel
  have hestimate : (narrowLeft.absorb narrowRight).estimate [5] = 8 := by decide +kernel
  refine ⟨hleft, hright, haccuracy, hleftFull, hrightFull, by decide +kernel, _, _, hours, hyours,
    htopK, by decide +kernel, hestimate, fun hall => ?_⟩
  obtain ⟨hlisted, -⟩ := hall [5] ⟨([1], 5), by rw [htopK]; decide, by rw [hestimate]; decide⟩
  rw [htopK] at hlisted
  revert hlisted
  decide

end FlowSketch.Sketch
