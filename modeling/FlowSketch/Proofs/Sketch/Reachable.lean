import FlowSketch.Proofs.Binary64.Columns
import FlowSketch.Proofs.Grid
import FlowSketch.Proofs.Leaderboard.Refill
import FlowSketch.Proofs.Wire.Canonical
import FlowSketch.Sketch.Merge

/-!
# FlowSketch.Proofs.Sketch.Reachable

**What every sketch has in common.** A sketch is reachable if it comes out of any finite sequence of
operations: creating, recording, ageing, merging with another reachable sketch, clearing, and
reading bytes, whoever wrote them. All reachable sketches are `Sound`: the grid has the shape that
the parameters ask for and only whole cells, the leaderboard is well-formed and as large as the
parameters say, and every listed key is short enough to be written down.

Soundness is exactly what the decoder insists on, seen from the other side: the image of a sound
sketch is valid (`Sound.image_valid`).
-/

namespace FlowSketch.Sketch

open Image (isDescending_iff)

/-- What holds of every sketch that can be reached. -/
structure Sound (num : Numerics) (s : Sketch) : Prop where
  shape : s.accuracy.shape num = .ok s.grid.toShape
  grid : s.grid.Sound
  board : s.board.WellFormed
  capacity : s.board.capacity = s.accuracy.k
  keys : ∀ e ∈ s.board.roster.entries, e.key.length ≤ maxWord32

/-- The sketches that come out of a finite sequence of operations. -/
inductive Reachable (num : Numerics) : Sketch → Prop where
  | create {accuracy : Accuracy} {seed : UInt64} {s : Sketch} :
      create num accuracy seed = .ok s → Reachable num s
  | add {s : Sketch} (key : Key) (count : UInt64) :
      Reachable num s → Reachable num (s.add num key count)
  | update {s : Sketch} (key : Key) : Reachable num s → Reachable num (s.update num key)
  | updateBatch {s : Sketch} (keys : List Key) :
      Reachable num s → Reachable num (s.updateBatch num keys)
  | decay {s : Sketch} : Reachable num s → Reachable num (s.decay num)
  | merge {mine theirs s : Sketch} : Reachable num mine → Reachable num theirs →
      mine.merge theirs = .ok s → Reachable num s
  | clear {s : Sketch} : Reachable num s → Reachable num s.clear
  | ofBytes {bytes : List UInt8} {seed : UInt64} {s : Sketch} :
      ofBytes num bytes seed = .ok s → Reachable num s

variable {num : Numerics} {s : Sketch}

/-! ### The image of a sound sketch -/

/-- What a sound sketch writes down is what the decoder accepts. -/
theorem Sound.image_valid (hs : s.Sound num) : s.image.Valid num where
  shape := hs.shape
  size := hs.grid.size
  whole := hs.grid.whole
  length_le := by
    show s.board.ranking.length ≤ s.accuracy.k
    rw [Leaderboard.length_ranking, ← hs.capacity]
    exact hs.board.legal.length_le
  records := by
    intro x hx
    obtain ⟨e, he, rfl⟩ := Leaderboard.mem_ranking.mp hx
    exact ⟨hs.keys e he, hs.board.legal.positive e he⟩
  descending := isDescending_iff.mpr s.board.pairwise_ranking

/-! ### No shape is without cells -/

/-- The parameters ask for a row, and for a column in it. -/
theorem shape_ne_zero {accuracy : Accuracy} {shape : Shape} (h : accuracy.shape num = .ok shape) :
    shape.depth ≠ 0 ∧ shape.width ≠ 0 := by
  obtain ⟨-, -, hepsilon, -, hdepth, hwidth, -⟩ := Accuracy.shape_eq_ok h
  have hcolumns := Binary64.three_le_columns hepsilon
  rw [hdepth, hwidth]
  exact ⟨Nat.ne_of_gt (Nat.le_max_left 1 _), by omega⟩

theorem Sound.depth_ne_zero (hs : s.Sound num) : s.grid.depth ≠ 0 :=
  (shape_ne_zero hs.shape).1

theorem Sound.width_ne_zero (hs : s.Sound num) : s.grid.width ≠ 0 :=
  (shape_ne_zero hs.shape).2

/-! ### Every operation keeps a sketch sound -/

/-- Creating a sketch succeeds if the parameters lead to a shape, and gives an empty one of it. -/
theorem create_eq_ok {accuracy : Accuracy} {seed : UInt64} :
    create num accuracy seed = .ok s ↔ ∃ shape, accuracy.shape num = .ok shape ∧
      s = ⟨accuracy, .empty shape, .empty accuracy.k, 0, .ofSeed seed⟩ := by
  show Except.bind (accuracy.shape num) (fun shape => .ok _) = .ok s ↔ _
  cases accuracy.shape num with
  | error e => simp [Except.bind]
  | ok shape => simp [Except.bind, eq_comm]

theorem sound_create {accuracy : Accuracy} {seed : UInt64}
    (h : create num accuracy seed = .ok s) : s.Sound num := by
  obtain ⟨shape, hshape, rfl⟩ := create_eq_ok.mp h
  refine ⟨hshape, Grid.sound_empty shape, Leaderboard.wellFormed_empty _, rfl, ?_⟩
  intro e he
  cases he

/-- The count that a recording brings to the cells, cut to what a cell can hold. -/
def increment (count : UInt64) : UInt32 :=
  UInt32.ofNat (min count.toNat maxWord32)

theorem toNat_increment (count : UInt64) :
    (increment count).toNat = min count.toNat maxWord32 :=
  Cell.toNat_counterOf count.toNat

theorem count_toNat_ne_zero {count : UInt64} (h : count ≠ 0) : count.toNat ≠ 0 :=
  fun hzero => h (UInt64.toNat_inj.mp hzero)

theorem increment_ne_zero {count : UInt64} (h : count ≠ 0) : increment count ≠ 0 :=
  fun hzero => count_toNat_ne_zero h (Cell.counterOf_eq_zero_iff.mp hzero)

/-- What recording a key does to the grid. -/
def recorded (num : Numerics) (s : Sketch) (key : Key) (count : UInt64) : Grid.Recorded Xoshiro :=
  s.grid.record (num.gap decayBase) key (increment count) s.random

theorem toShape_recorded (key : Key) (count : UInt64) :
    (s.recorded num key count).grid.toShape = s.grid.toShape :=
  Grid.toShape_recordRows ..

theorem add_of_ne_zero (key : Key) {count : UInt64} (h : count ≠ 0) :
    s.add num key count =
      { s with
        grid := (s.recorded num key count).grid
        board :=
          if key.length ≤ maxWord32 then
            (s.board.offer key (Grid.leastCount (s.recorded num key count).readings)).2
          else s.board
        total := saturatingTotal s.total 1
        random := (s.recorded num key count).state } :=
  if_neg h

/-- Recording does not touch the parameters. -/
theorem accuracy_add (key : Key) (count : UInt64) :
    (s.add num key count).accuracy = s.accuracy := by
  unfold Sketch.add
  split <;> rfl

/-- After a recording an entry is an old one, or it shows the key, which is short enough, at the
count that was read back. -/
theorem mem_add (hb : s.board.WellFormed) {key : Key} {count : UInt64} (h : count ≠ 0) {e : Entry}
    (he : e ∈ (s.add num key count).board.roster.entries) :
    e ∈ s.board.roster.entries ∨ key.length ≤ maxWord32 ∧
      e.listed = (key, Grid.leastCount (s.recorded num key count).readings) := by
  rw [add_of_ne_zero key h] at he
  by_cases hlength : key.length ≤ maxWord32
  · simp only [hlength, if_true] at he
    rcases hb.mem_offer he with he | he
    · exact .inl he
    · exact .inr ⟨hlength, he⟩
  · simp only [hlength, if_false] at he
    exact .inl he

theorem Sound.add (hs : s.Sound num) (key : Key) (count : UInt64) :
    (s.add num key count).Sound num := by
  by_cases hzero : count = 0
  · rw [Sketch.add, if_pos hzero]
    exact hs
  · have hkeys : ∀ e ∈ (s.add num key count).board.roster.entries,
        e.key.length ≤ maxWord32 := by
      intro e he
      rcases mem_add hs.board hzero he with he | ⟨hlength, he⟩
      · exact hs.keys e he
      · rw [(Entry.listed_eq_iff.mp he).1]
        exact hlength
    rw [add_of_ne_zero key hzero] at hkeys ⊢
    refine ⟨?_, ?_, ?_, ?_, hkeys⟩
    · exact hs.shape.trans (congrArg Except.ok (toShape_recorded key count).symm)
    · exact hs.grid.record (num.gap decayBase) key (increment_ne_zero hzero) s.random
    · show Leaderboard.WellFormed (if _ then _ else _)
      split
      · exact hs.board.offer _ _
      · exact hs.board
    · show Leaderboard.capacity (if _ then _ else _) = _
      split
      · exact (hs.board.capacity_offer _ _).trans hs.capacity
      · exact hs.capacity

theorem Sound.updateBatch (hs : s.Sound num) (keys : List Key) :
    (s.updateBatch num keys).Sound num := by
  unfold Sketch.updateBatch
  induction keys generalizing s with
  | nil => exact hs
  | cons key rest ih => exact ih (hs.add key 1)

theorem Sound.decay (hs : s.Sound num) : (s.decay num).Sound num where
  shape := hs.shape
  grid := hs.grid.attenuate _
  board := hs.board.decay _
  capacity := hs.capacity
  keys := by
    intro e he
    obtain ⟨a, ha, rfl⟩ := Roster.mem_decay (Leaderboard.WellFormed.roster_decay _ ▸ he)
    exact hs.keys a ha

theorem Sound.clear (hs : s.Sound num) : s.clear.Sound num where
  shape := hs.shape
  grid := hs.grid.clear
  board := Leaderboard.wellFormed_empty _
  capacity := hs.capacity
  keys := by
    intro e he
    cases he

/-- The keys that a merge offers are listed on the side they come from. -/
theorem mem_reoffers {grid : Grid} {b : Leaderboard} {x : Key × UInt64}
    (h : x ∈ reoffers grid b) :
    ∃ e ∈ b.roster.entries, x = (e.key, grid.estimate e.key) := by
  obtain ⟨listed, hlisted, rfl⟩ := List.mem_map.mp h
  obtain ⟨e, he, rfl⟩ := Leaderboard.mem_ranking.mp (List.mem_reverse.mp hlisted)
  exact ⟨e, he, rfl⟩

/-- Every key of a leaderboard is offered again by a merge. -/
theorem key_mem_reoffers (grid : Grid) {b : Leaderboard} {e : Entry}
    (he : e ∈ b.roster.entries) : e.key ∈ (reoffers grid b).map Prod.fst := by
  refine List.mem_map.mpr ⟨(e.key, grid.estimate e.key), ?_, rfl⟩
  exact List.mem_map.mpr
    ⟨e.listed, List.mem_reverse.mpr (Leaderboard.mem_ranking.mpr ⟨e, he, rfl⟩), rfl⟩

/-- After taking in another sketch an entry shows a key that was listed on either side, at its
estimate in the merged grid. -/
theorem mem_absorb {mine theirs : Sketch} {e : Entry}
    (he : e ∈ (mine.absorb theirs).board.roster.entries) :
    (∃ a, (a ∈ mine.board.roster.entries ∨ a ∈ theirs.board.roster.entries) ∧ e.key = a.key) ∧
      e.estimate = (mine.grid.merge theirs.grid).estimate e.key := by
  -- the leaderboard is filled anew, so every entry comes from an offer
  obtain ⟨-, -, hmem⟩ := (Leaderboard.wellFormed_empty mine.accuracy.k).offerAll
    (reoffers (mine.grid.merge theirs.grid) mine.board ++
      reoffers (mine.grid.merge theirs.grid) theirs.board)
  have hoffered : ∀ b, e.listed ∈ reoffers (mine.grid.merge theirs.grid) b →
      ∃ a ∈ b.roster.entries, e.key = a.key ∧
        e.estimate = (mine.grid.merge theirs.grid).estimate e.key := by
    intro b h
    obtain ⟨a, ha, hlisted⟩ := mem_reoffers h
    obtain ⟨hkey, hestimate⟩ := Entry.listed_eq_iff.mp hlisted
    exact ⟨a, ha, hkey, hkey ▸ hestimate⟩
  rcases hmem e he with he | he
  · cases he
  · rcases List.mem_append.mp he with he | he
    · obtain ⟨a, ha, hkey, hestimate⟩ := hoffered _ he
      exact ⟨⟨a, .inl ha, hkey⟩, hestimate⟩
    · obtain ⟨a, ha, hkey, hestimate⟩ := hoffered _ he
      exact ⟨⟨a, .inr ha, hkey⟩, hestimate⟩

theorem Sound.absorb {mine theirs : Sketch} (hmine : mine.Sound num) (htheirs : theirs.Sound num)
    (hshape : mine.grid.toShape = theirs.grid.toShape) : (mine.absorb theirs).Sound num := by
  obtain ⟨hwf, hcapacity, -⟩ := (Leaderboard.wellFormed_empty mine.accuracy.k).offerAll
    (reoffers (mine.grid.merge theirs.grid) mine.board ++
      reoffers (mine.grid.merge theirs.grid) theirs.board)
  refine ⟨hmine.shape, hmine.grid.merge htheirs.grid hshape, hwf, hcapacity, ?_⟩
  intro e he
  obtain ⟨⟨a, ha | ha, hkey⟩, -⟩ := mem_absorb he
  · rw [hkey]
    exact hmine.keys a ha
  · rw [hkey]
    exact htheirs.keys a ha

/-- A merge that succeeds changes nothing, or it takes in a sketch of the same configuration. -/
theorem merge_eq_ok {mine theirs : Sketch} (h : mine.merge theirs = .ok s) :
    mine.configuration.agrees theirs.configuration = true ∧
      (theirs.isEmpty = true ∧ s = mine ∨ theirs.isEmpty = false ∧ s = mine.absorb theirs) := by
  unfold merge at h
  cases hagrees : mine.configuration.agrees theirs.configuration with
  | false =>
      simp only [hagrees, Bool.not_false, if_true] at h
      cases h
  | true =>
      refine ⟨rfl, ?_⟩
      cases hempty : theirs.isEmpty with
      | true =>
          simp only [hagrees, hempty, Bool.not_true, Bool.false_eq_true, if_false, if_true] at h
          cases h
          exact .inl ⟨rfl, rfl⟩
      | false =>
          simp only [hagrees, hempty, Bool.not_true, Bool.false_eq_true, if_false] at h
          cases h
          exact .inr ⟨rfl, rfl⟩

/-- Sketches whose configurations agree are merged, whatever they have seen. -/
theorem merge_of_agrees {mine theirs : Sketch}
    (h : mine.configuration.agrees theirs.configuration = true) :
    mine.merge theirs = .ok (if theirs.isEmpty then mine else mine.absorb theirs) := by
  unfold merge
  rw [h, Bool.not_true, if_neg Bool.false_ne_true]
  split <;> rfl

/-- The accuracies of sound sketches are fractions, and fractions that compare equal are the same
float. -/
theorem Sound.accuracy_eq {mine theirs : Sketch} (hmine : mine.Sound num)
    (htheirs : theirs.Sound num) (hk : mine.accuracy.k = theirs.accuracy.k)
    (hepsilon : (mine.accuracy.epsilon == theirs.accuracy.epsilon) = true)
    (hdelta : (mine.accuracy.delta == theirs.accuracy.delta) = true) :
    mine.accuracy = theirs.accuracy := by
  obtain ⟨-, -, hfraction, hfraction', -⟩ := Accuracy.shape_eq_ok hmine.shape
  obtain ⟨-, -, htheirFraction, htheirFraction', -⟩ := Accuracy.shape_eq_ok htheirs.shape
  show Accuracy.mk mine.accuracy.k mine.accuracy.epsilon mine.accuracy.delta = theirs.accuracy
  rw [hk, Binary64.eq_of_beq_of_isFraction hfraction htheirFraction hepsilon,
    Binary64.eq_of_beq_of_isFraction hfraction' htheirFraction' hdelta]

/-- Configurations of sound sketches that agree are one. -/
theorem Sound.configuration_eq {mine theirs : Sketch} (hmine : mine.Sound num)
    (htheirs : theirs.Sound num)
    (h : mine.configuration.agrees theirs.configuration = true) :
    mine.accuracy = theirs.accuracy ∧ mine.grid.toShape = theirs.grid.toShape := by
  simp only [Configuration.agrees, Bool.and_eq_true] at h
  obtain ⟨⟨⟨hk, hepsilon⟩, hdelta⟩, hshape⟩ := h
  exact ⟨hmine.accuracy_eq htheirs (beq_iff_eq.mp hk) hepsilon hdelta, beq_iff_eq.mp hshape⟩

/-- Sound sketches of one accuracy have one configuration, which agrees with itself. -/
theorem Sound.agrees {mine theirs : Sketch} (hmine : mine.Sound num) (htheirs : theirs.Sound num)
    (h : mine.accuracy = theirs.accuracy) :
    mine.grid.toShape = theirs.grid.toShape ∧
      mine.configuration.agrees theirs.configuration = true := by
  have hshape : mine.grid.toShape = theirs.grid.toShape := by
    have hboth := hmine.shape
    rw [h, htheirs.shape] at hboth
    exact (Except.ok.inj hboth).symm
  obtain ⟨-, -, hepsilon, hdelta, -⟩ := Accuracy.shape_eq_ok htheirs.shape
  refine ⟨hshape, ?_⟩
  simp only [Configuration.agrees, configuration, h, hshape, beq_self_eq_true,
    Binary64.beq_self_of_isFraction hepsilon, Binary64.beq_self_of_isFraction hdelta, Bool.and_self]

/-- A sketch of the same accuracy that is not empty is taken in. -/
theorem Sound.merge_eq_absorb {mine theirs : Sketch} (hmine : mine.Sound num)
    (htheirs : theirs.Sound num) (h : mine.accuracy = theirs.accuracy)
    (hfull : theirs.isEmpty = false) : mine.merge theirs = .ok (mine.absorb theirs) := by
  rw [merge_of_agrees (hmine.agrees htheirs h).2, hfull, if_neg Bool.false_ne_true]

theorem Sound.merge {mine theirs : Sketch} (hmine : mine.Sound num) (htheirs : theirs.Sound num)
    (h : mine.merge theirs = .ok s) : s.Sound num := by
  obtain ⟨hagrees, ⟨-, rfl⟩ | ⟨-, rfl⟩⟩ := merge_eq_ok h
  · exact hmine
  · exact hmine.absorb htheirs (hmine.configuration_eq htheirs hagrees).2

/-! ### Reading bytes -/

/-- What bytes that are accepted say: they are the encoding of a valid image, and the leaderboard
was filled from its ranking. -/
theorem ofBytes_eq_ok {bytes : List UInt8} {seed : UInt64} :
    ofBytes num bytes seed = .ok s ↔
      ∃ (image : Image) (board : Leaderboard), image.Valid num ∧ bytes = image.encode ∧
        admitAll (.empty image.accuracy.k) image.ranking.reverse = some board ∧
        s = ⟨image.accuracy, image.grid, board, image.total, .ofSeed seed⟩ := by
  have hdecode : ofBytes num bytes seed = .ok s ↔
      ∃ image, Image.decode num bytes = .ok image ∧ ofImage image seed = .ok s := by
    show Except.bind (Image.decode num bytes) (fun image => ofImage image seed) = .ok s ↔ _
    cases Image.decode num bytes with
    | error e => simp [Except.bind]
    | ok image => simp [Except.bind]
  rw [hdecode]
  constructor
  · intro h
    obtain ⟨image, hbytes, himage⟩ := h
    obtain ⟨hvalid, rfl⟩ := Image.decode_eq_ok.mp hbytes
    unfold ofImage at himage
    split at himage
    · cases himage
    · rename_i board hboard
      cases himage
      exact ⟨image, board, hvalid, rfl, hboard, rfl⟩
  · intro h
    obtain ⟨image, board, hvalid, rfl, hboard, rfl⟩ := h
    refine ⟨image, Image.decode_eq_ok.mpr ⟨hvalid, rfl⟩, ?_⟩
    rw [ofImage, hboard]

theorem sound_ofBytes {bytes : List UInt8} {seed : UInt64}
    (h : ofBytes num bytes seed = .ok s) : s.Sound num := by
  obtain ⟨image, board, hvalid, -, hboard, rfl⟩ := ofBytes_eq_ok.mp h
  obtain ⟨hwf, hcapacity, hslots⟩ :=
    Leaderboard.admitAll_slots (Leaderboard.wellFormed_empty _) hboard
  refine ⟨hvalid.shape, ⟨hvalid.size, hvalid.whole⟩, hwf, hcapacity, ?_⟩
  intro e he
  have hentries : board.roster.entries = Leaderboard.numbered 0 image.ranking.reverse := hslots
  change e ∈ board.roster.entries at he
  rw [hentries] at he
  have hlisted : e.listed ∈ image.ranking.reverse := by
    rw [← Leaderboard.map_listed_numbered 0 image.ranking.reverse]
    exact List.mem_map_of_mem he
  exact (hvalid.records _ (List.mem_reverse.mp hlisted)).1

/-- Every reachable sketch is sound. -/
theorem Reachable.sound (h : Reachable num s) : s.Sound num := by
  induction h with
  | create h => exact sound_create h
  | add key count _ ih => exact ih.add key count
  | update key _ ih => exact ih.add key 1
  | updateBatch keys _ ih => exact ih.updateBatch keys
  | decay _ ih => exact ih.decay
  | merge _ _ h ihmine ihtheirs => exact ihmine.merge ihtheirs h
  | clear _ ih => exact ih.clear
  | ofBytes h => exact sound_ofBytes h

/-! ### A sketch on fixed inputs -/

/-- Real functions with the logarithm that a failure probability of one half asks for. The others
are those of the machine, or are not asked as long as no keys collide. -/
def halfNumerics : Numerics where
  ln := fun _ => 0.6931471805599453
  exp := fun _ => 1.0
  lnOnePlus := fun x => x
  scale := Numerics.scaleWord

/-- A new sketch of one row of six cells that reports two keys. -/
def newSketch : Sketch :=
  ⟨⟨2, 0.5, 0.5⟩, .empty ⟨1, 6⟩, .empty 2, 0, .ofSeed 1⟩

theorem create_newSketch : create halfNumerics ⟨2, 0.5, 0.5⟩ 1 = .ok newSketch := rfl

/-- A sketch in which two keys tie. -/
def tiedSketch : Sketch :=
  (newSketch.add halfNumerics [1] 3).add halfNumerics [2] 3

theorem reachable_tiedSketch : Reachable halfNumerics tiedSketch :=
  ((Reachable.create create_newSketch).add [1] 3).add [2] 3

end FlowSketch.Sketch
