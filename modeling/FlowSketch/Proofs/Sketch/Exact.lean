import FlowSketch.Proofs.Grid.Exact
import FlowSketch.Proofs.Leaderboard.Standing
import FlowSketch.Proofs.Sketch.RoundTrip
import FlowSketch.Proofs.Sketch.Tally

/-!
# FlowSketch.Proofs.Sketch.Exact

**Without collisions a sketch counts and ranks exactly.** When the shape of the grid separates the
keys of a stream, the grid shows the tally of the stream (`Exact`): every estimate is the number of
recordings of its key, cut to what a cell can hold. Nothing is drawn on the way, so the seed does
not matter.

Every recording offers the key at its new estimate. A key that had to leave the leaderboard comes
back with all its recordings, since its cells have kept them; therefore the leaderboard tracks the
peaks that the tally shows (`Exact.tracks_add`), and lists the heaviest keys of the stream at every
moment (`addAll_exact`).
-/

namespace FlowSketch

/-! ### The tally of a stream -/

namespace Tally

/-- How often each key of a stream was recorded. -/
noncomputable def ofAdds (adds : List (Key × UInt64)) : Tally :=
  (adds.map fun a => Finsupp.single a.1 a.2.toNat).sum

/-- What a leaderboard can be offered of a tally: counts cut to what a cell can hold, of keys that
are short enough to be listed. -/
def peaks (W : Tally) : Peaks := fun key =>
  if key.length ≤ maxWord32 then (Cell.counterOf (W key)).toUInt64 else 0

/-- The keys that a leaderboard can list. -/
def listable (W : Tally) : Finset Key :=
  W.support.filter fun key => key.length ≤ maxWord32

variable {V W : Tally} {key : Key} {n : Nat} {adds : List (Key × UInt64)}

theorem ofAdds_cons (a : Key × UInt64) (rest : List (Key × UInt64)) :
    ofAdds (a :: rest) = Finsupp.single a.1 a.2.toNat + ofAdds rest := by
  rw [ofAdds, List.map_cons, List.sum_cons]
  rfl

theorem ofAdds_append (adds later : List (Key × UInt64)) :
    ofAdds (adds ++ later) = ofAdds adds + ofAdds later := by
  rw [ofAdds, List.map_append, List.sum_append]
  rfl

/-- The order of a stream does not show in its tally. -/
theorem ofAdds_perm {stream : List (Key × UInt64)} (h : stream.Perm adds) :
    ofAdds stream = ofAdds adds :=
  (h.map _).sum_eq

theorem peaks_of_short (h : key.length ≤ maxWord32) :
    W.peaks key = (Cell.counterOf (W key)).toUInt64 :=
  if_pos h

theorem toNat_peaks_of_short (h : key.length ≤ maxWord32) :
    (W.peaks key).toNat = min (W key) maxWord32 := by
  rw [peaks_of_short h, UInt32.toNat_toUInt64, Cell.toNat_counterOf]

theorem peaks_zero : peaks 0 = Peaks.none := by
  funext key
  exact ite_self 0

theorem mem_listable_iff : key ∈ W.listable ↔ W.peaks key ≠ 0 := by
  have hcounter : (Cell.counterOf (W key)).toUInt64 = 0 ↔ W key = 0 := by
    rw [← UInt64.toNat_inj, UInt32.toNat_toUInt64, ← Cell.counterOf_eq_zero_iff,
      ← UInt32.toNat_inj]
    rfl
  rw [listable, Finset.mem_filter, Finsupp.mem_support_iff, peaks]
  split
  · rename_i hshort
    rw [Ne, Ne, hcounter]
    exact and_iff_left hshort
  · rename_i hlong
    exact iff_of_false (fun h => hlong h.2) fun h => h rfl

/-- Recording a key raises its peak to its new count. -/
theorem peaks_add_single (hshort : key.length ≤ maxWord32) :
    (W + Finsupp.single key n).peaks =
      W.peaks.raise key (Cell.counterOf (W key + n)).toUInt64 := by
  funext other
  by_cases hother : other = key
  · subst hother
    rw [Peaks.raise_of_le, peaks_of_short hshort, Finsupp.add_apply, Finsupp.single_eq_same]
    rw [UInt64.le_iff_toNat_le, toNat_peaks_of_short hshort, UInt32.toNat_toUInt64,
      Cell.toNat_counterOf]
    omega
  · rw [Peaks.raise_of_ne hother, peaks, peaks, Finsupp.add_apply,
      Finsupp.single_eq_of_ne hother, add_zero]

/-- A key too long to be listed shows no peak. -/
theorem peaks_add_single_of_long (hlong : ¬ key.length ≤ maxWord32) :
    (W + Finsupp.single key n).peaks = W.peaks := by
  funext other
  by_cases hother : other = key
  · subst hother
    rw [peaks, peaks, if_neg hlong, if_neg hlong]
  · rw [peaks, peaks, Finsupp.add_apply, Finsupp.single_eq_of_ne hother, add_zero]

/-- A tally of short keys can be listed as a whole. -/
theorem listable_eq_support (h : ∀ key, W key ≠ 0 → key.length ≤ maxWord32) :
    W.listable = W.support :=
  Finset.filter_true_of_mem fun key hkey => h key (Finsupp.mem_support_iff.mp hkey)

theorem listable_card_le (h : ∀ key, V key ≤ W key) : V.listable.card ≤ W.listable.card := by
  refine Finset.card_le_card fun key hkey => ?_
  obtain ⟨hsupport, hshort⟩ := Finset.mem_filter.mp hkey
  have hpos : V key ≠ 0 := Finsupp.mem_support_iff.mp hsupport
  have hle := h key
  exact Finset.mem_filter.mpr ⟨Finsupp.mem_support_iff.mpr (by omega), hshort⟩

end Tally

namespace Sketch

/-! ### Streams -/

/-- The recordings of a stream, in order. -/
def addAll (num : Numerics) (s : Sketch) (adds : List (Key × UInt64)) : Sketch :=
  adds.foldl (fun s a => s.add num a.1 a.2) s

/-- How many recordings a stream makes. A count of zero is none. -/
def recordings (adds : List (Key × UInt64)) : Nat :=
  adds.countP fun a => a.2 ≠ 0

variable {num : Numerics} {s : Sketch} {accuracy : Accuracy}

theorem recordings_cons (a : Key × UInt64) (rest : List (Key × UInt64)) :
    recordings (a :: rest) = (if a.2 ≠ 0 then 1 else 0) + recordings rest := by
  rw [recordings, List.countP_cons, add_comm]
  simp only [decide_eq_true_eq]
  rfl

theorem accuracy_addAll (adds : List (Key × UInt64)) :
    (s.addAll num adds).accuracy = s.accuracy := by
  induction adds generalizing s with
  | nil => rfl
  | cons a rest ih => exact ih.trans (accuracy_add a.1 a.2)

/-! ### Exact sketches -/

/-- A sketch counts some keys exactly if its shape separates them, its grid shows the tally and
nothing else, and it knows how many recordings were made. -/
structure Exact (num : Numerics) (keys : List Key) (s : Sketch) (W : Tally) (made : Nat) : Prop where
  sound : s.Sound num
  separates : s.grid.toShape.Separates keys
  cells : s.grid.Shows keys W
  recorded : ∀ key, W key ≠ 0 → key ∈ keys
  total : s.total.toNat = min made 18446744073709551615

variable {keys : List Key} {key : Key} {W : Tally} {made : Nat}

theorem exact_create {seed : UInt64} (h : create num accuracy seed = .ok s)
    (hseparates : s.grid.toShape.Separates keys) : s.Exact num keys 0 0 := by
  have hsound := sound_create h
  obtain ⟨shape, -, rfl⟩ := create_eq_ok.mp h
  exact ⟨hsound, hseparates, Grid.shows_empty hsound.width_ne_zero keys,
    fun key hpos => absurd rfl hpos, rfl⟩

namespace Exact

/-- The estimate of a key is the number of its recordings, cut to what a cell can hold. -/
theorem estimate_eq (h : s.Exact num keys W made) (hkey : key ∈ keys) :
    (s.estimate key).toNat = min (W key) maxWord32 := by
  rw [Sketch.estimate, h.cells.estimate h.sound.depth_ne_zero hkey, UInt32.toNat_toUInt64,
    Cell.toNat_counterOf]

theorem add (h : s.Exact num keys W made) (hkey : key ∈ keys) (count : UInt64) :
    (s.add num key count).Exact num keys (W + Finsupp.single key count.toNat)
      (made + if count ≠ 0 then 1 else 0) := by
  have hsound := h.sound.add key count
  by_cases hzero : count = 0
  · subst hzero
    rw [if_neg (fun hne => hne rfl), show (0 : UInt64).toNat = 0 from rfl, Finsupp.single_zero,
      add_zero, add_zero]
    exact h
  · have hn := count_toNat_ne_zero hzero
    have hshape : (s.add num key count).grid.toShape = s.grid.toShape := by
      rw [add_of_ne_zero key hzero]
      exact toShape_recorded key count
    refine ⟨hsound, hshape ▸ h.separates, ?_, ?_, ?_⟩
    · rw [add_of_ne_zero key hzero]
      exact h.cells.record h.sound.grid h.separates (num.gap decayBase) hkey hn s.random
    · intro other hother
      by_cases heq : other = key
      · exact heq ▸ hkey
      · rw [Finsupp.add_apply, Finsupp.single_eq_of_ne heq, add_zero] at hother
        exact h.recorded other hother
    · have htotal := h.total
      rw [add_of_ne_zero key hzero, if_pos hzero]
      show (saturatingTotal s.total 1).toNat = _
      rw [toNat_saturatingTotal, htotal]
      show min (_ + 1) _ = _
      omega

/-- A recording offers its key at the new count, so the leaderboard keeps track of the tally. -/
theorem tracks_add (h : s.Exact num keys W made) (htracks : s.board.roster.Tracks W.peaks)
    (hkey : key ∈ keys) (count : UInt64) :
    (s.add num key count).board.roster.Tracks (W + Finsupp.single key count.toNat).peaks := by
  by_cases hzero : count = 0
  · subst hzero
    rw [show (0 : UInt64).toNat = 0 from rfl, Finsupp.single_zero, add_zero]
    exact htracks
  · have hn := count_toNat_ne_zero hzero
    have hread : Grid.leastCount (s.recorded num key count).readings =
        (Cell.counterOf (W key + count.toNat)).toUInt64 :=
      h.cells.leastCount_record h.sound.grid h.sound.depth_ne_zero (num.gap decayBase) hkey hn
        s.random
    rw [add_of_ne_zero key hzero, hread]
    by_cases hshort : key.length ≤ maxWord32
    · simp only [hshort, if_true]
      rw [Tally.peaks_add_single hshort]
      exact h.sound.board.tracks_offer htracks key _
    · simp only [hshort, if_false]
      rw [Tally.peaks_add_single_of_long hshort]
      exact htracks

theorem addAll (h : s.Exact num keys W made) {adds : List (Key × UInt64)}
    (hkeys : ∀ a ∈ adds, a.1 ∈ keys) :
    (s.addAll num adds).Exact num keys (W + Tally.ofAdds adds) (made + recordings adds) := by
  induction adds generalizing s W made with
  | nil =>
      rw [Tally.ofAdds, List.map_nil, List.sum_nil, add_zero]
      exact h
  | cons a rest ih =>
      have hrest := ih (h.add (hkeys a List.mem_cons_self) a.2) fun b hb =>
        hkeys b (List.mem_cons_of_mem _ hb)
      rw [Tally.ofAdds_cons, recordings_cons, ← add_assoc, ← add_assoc]
      exact hrest

theorem tracks_addAll (h : s.Exact num keys W made) (htracks : s.board.roster.Tracks W.peaks)
    {adds : List (Key × UInt64)} (hkeys : ∀ a ∈ adds, a.1 ∈ keys) :
    (s.addAll num adds).board.roster.Tracks (W + Tally.ofAdds adds).peaks := by
  induction adds generalizing s W made with
  | nil =>
      rw [Tally.ofAdds, List.map_nil, List.sum_nil, add_zero]
      exact htracks
  | cons a rest ih =>
      have hfirst := hkeys a List.mem_cons_self
      rw [Tally.ofAdds_cons, ← add_assoc]
      exact ih (h.add hfirst a.2) (h.tracks_add htracks hfirst a.2) fun b hb =>
        hkeys b (List.mem_cons_of_mem _ hb)

end Exact

/-- A stream on a new sketch that separates its keys is counted exactly, and the leaderboard keeps
track of the counts. -/
theorem addAll_create {seed : UInt64} (h : create num accuracy seed = .ok s)
    (hseparates : s.grid.toShape.Separates keys) {adds : List (Key × UInt64)}
    (hkeys : ∀ a ∈ adds, a.1 ∈ keys) :
    (s.addAll num adds).accuracy = accuracy ∧
      (s.addAll num adds).Exact num keys (Tally.ofAdds adds) (recordings adds) ∧
      (s.addAll num adds).board.roster.Tracks (Tally.ofAdds adds).peaks := by
  have hnew := exact_create h hseparates
  have hempty : s.accuracy = accuracy ∧ s.board.roster.Tracks (Tally.peaks 0) := by
    obtain ⟨shape, -, rfl⟩ := create_eq_ok.mp h
    rw [Tally.peaks_zero]
    exact ⟨rfl, Roster.tracks_empty accuracy.k⟩
  have hexact := hnew.addAll hkeys
  have htracks := hnew.tracks_addAll hempty.2 hkeys
  rw [zero_add, zero_add] at hexact
  rw [zero_add] at htracks
  exact ⟨(accuracy_addAll adds).trans hempty.1, hexact, htracks⟩

/-! ### What the ranking shows of a tally -/

namespace Sound

/-- A listed key was recorded, and is listed with its count. -/
theorem toNat_listed (hs : s.Sound num) (htracks : s.board.roster.Tracks W.peaks)
    {x : Key × UInt64} (hx : x ∈ s.topK) :
    0 < W x.1 ∧ x.2.toNat = min (W x.1) maxWord32 := by
  obtain ⟨e, he, rfl⟩ := Leaderboard.mem_ranking.mp hx
  have hpeak := htracks.peak_ne_zero hs.board.legal he
  have hpositive := Finsupp.mem_support_iff.mp
    (Finset.mem_filter.mp (Tally.mem_listable_iff.mpr hpeak)).1
  refine ⟨Nat.pos_of_ne_zero hpositive, ?_⟩
  show e.estimate.toNat = min (W e.key) maxWord32
  rw [htracks.listed e he, Tally.toNat_peaks_of_short (hs.keys e he)]

/-- As many keys are listed as were asked for, or as can be listed. -/
theorem length_topK (hs : s.Sound num) (htracks : s.board.roster.Tracks W.peaks) :
    s.topK.length = min s.accuracy.k W.listable.card := by
  rw [topK, Leaderboard.length_ranking, ← hs.capacity]
  exact htracks.length_eq hs.board.legal fun _ => Tally.mem_listable_iff

end Sound

/-- A key that is left out has no larger count than any listed one. -/
theorem le_of_not_listed (htracks : s.board.roster.Tracks W.peaks)
    (hshort : key.length ≤ maxWord32) (hnew : ∀ x ∈ s.topK, x.1 ≠ key) {x : Key × UInt64}
    (hx : x ∈ s.topK) : min (W key) maxWord32 ≤ x.2.toNat := by
  obtain ⟨e, he, rfl⟩ := Leaderboard.mem_ranking.mp hx
  rw [← Tally.toNat_peaks_of_short hshort]
  show (W.peaks key).toNat ≤ e.estimate.toNat
  by_cases hpeak : W.peaks key = 0
  · rw [hpeak]
    exact Nat.zero_le _
  · have hnone : ∀ a ∈ s.board.roster.entries, a.key ≠ key := fun a ha =>
      hnew a.listed (Leaderboard.mem_ranking.mpr ⟨a, ha, rfl⟩)
    exact (htracks.forgotten key hnone hpeak).2 e he

/-- After every call of a stream on a new sketch that separates its keys, every key of the stream has
its exact count as estimate, as many keys are listed as were asked for or have a count, each with
its exact count, and no key that is left out has a larger one. -/
theorem addAll_exact {seed : UInt64} (h : create num accuracy seed = .ok s)
    (adds later : List (Key × UInt64))
    (hseparates : s.grid.toShape.Separates ((adds ++ later).map Prod.fst))
    (hshort : ∀ a ∈ adds ++ later, a.1.length ≤ maxWord32) :
    (∀ a ∈ adds ++ later,
      ((s.addAll num adds).estimate a.1).toNat = min (Tally.ofAdds adds a.1) maxWord32) ∧
    ((s.addAll num adds).topK.map Prod.fst).Nodup ∧
    (s.addAll num adds).topK.length = min accuracy.k (Tally.ofAdds adds).support.card ∧
    (∀ x ∈ (s.addAll num adds).topK,
      0 < Tally.ofAdds adds x.1 ∧ x.2.toNat = min (Tally.ofAdds adds x.1) maxWord32) ∧
    ∀ a ∈ adds ++ later, (∀ x ∈ (s.addAll num adds).topK, x.1 ≠ a.1) →
      ∀ x ∈ (s.addAll num adds).topK, min (Tally.ofAdds adds a.1) maxWord32 ≤ x.2.toNat := by
  obtain ⟨haccuracy, hexact, htracks⟩ := addAll_create h hseparates fun a ha =>
    List.mem_map_of_mem (List.mem_append_left later ha)
  refine ⟨?_, hexact.sound.nodup_topK, ?_, ?_, ?_⟩
  · intro a ha
    exact hexact.estimate_eq (List.mem_map_of_mem ha)
  · have hall : ∀ key, Tally.ofAdds adds key ≠ 0 → key.length ≤ maxWord32 := by
      intro key hpos
      obtain ⟨a, ha, rfl⟩ := List.mem_map.mp (hexact.recorded key hpos)
      exact hshort a ha
    rw [hexact.sound.length_topK htracks, haccuracy, Tally.listable_eq_support hall]
  · intro x hx
    exact hexact.sound.toNat_listed htracks hx
  · intro a ha hmissing x hx
    exact le_of_not_listed htracks (hshort a ha) hmissing hx

/-- Real functions with the logarithm that a failure probability of one quarter asks for. -/
def quarterNumerics : Numerics :=
  { halfNumerics with ln := fun _ => 1.3862943611198906 }

/-- A new sketch of two rows of six cells that reports two keys. -/
def twoRowSketch : Sketch :=
  ⟨⟨2, 0.5, 0.25⟩, .empty ⟨2, 6⟩, .empty 2, 0, .ofSeed 1⟩

theorem create_twoRowSketch : create quarterNumerics ⟨2, 0.5, 0.25⟩ 1 = .ok twoRowSketch := rfl

/-- A key is displaced by another one and displaces it in turn. -/
def readmission : List (Key × UInt64) :=
  [([1], 3), ([2], 5), ([5], 4), ([1], 2)]

theorem addAll_exact_readmission :
    create quarterNumerics ⟨2, 0.5, 0.25⟩ 1 = .ok twoRowSketch ∧
      twoRowSketch.grid.toShape.Separates ((readmission ++ [([10], 1)]).map Prod.fst) ∧
      (∀ a ∈ readmission ++ [([10], 1)], a.1.length ≤ maxWord32) ∧
      (twoRowSketch.addAll quarterNumerics readmission).topK = [([1], 5), ([2], 5)] ∧
      ((twoRowSketch.addAll quarterNumerics readmission).estimate [1]).toNat =
        min (Tally.ofAdds readmission [1]) maxWord32 ∧
      ∀ x ∈ (twoRowSketch.addAll quarterNumerics readmission).topK,
        min (Tally.ofAdds readmission [5]) maxWord32 ≤ x.2.toNat := by
  have hseparates : twoRowSketch.grid.toShape.Separates
      ((readmission ++ [([10], 1)]).map Prod.fst) := by decide +kernel
  have hshort : ∀ a ∈ readmission ++ [([10], 1)], a.1.length ≤ maxWord32 := by decide +kernel
  have htopK : (twoRowSketch.addAll quarterNumerics readmission).topK = [([1], 5), ([2], 5)] := by
    decide +kernel
  have hmissing : ∀ x ∈ (twoRowSketch.addAll quarterNumerics readmission).topK, x.1 ≠ [5] := by
    rw [htopK]
    decide
  obtain ⟨hestimate, -, -, -, hleft⟩ :=
    addAll_exact create_twoRowSketch readmission [([10], 1)] hseparates hshort
  exact ⟨create_twoRowSketch, hseparates, hshort, htopK, hestimate ([1], 3) (by decide),
    hleft ([5], 4) (by decide) hmissing⟩

end Sketch

end FlowSketch
