import FlowSketch.Proofs.Checked.Grid
import FlowSketch.Proofs.Checked.Persistence
import FlowSketch.Proofs.Sketch.Reachable

/-!
# FlowSketch.Proofs.Checked.Sketch

**No operation stops at a fault.** Every operation of a sketch is written once more in steps that a
machine can fail at, and on a sound sketch each of them goes through and does what the operation does
(`Safe`). What the steps need is spread over the library: a grid has the number of cells that its
shape says, and the shape was checked before anything was multiplied; a row has a column; the index
and the heap of a leaderboard name slots that exist.

Three things are asked of the world: logarithms are bounded, an encoding is shorter than `2 ^ 63`
bytes, and a leaderboard admits fewer than `2 ^ 64` keys in its life.
-/

namespace FlowSketch.Sketch

variable {num : Numerics} {s : Sketch}

/-! ### The parts of a sound sketch -/

theorem Sound.addressable_grid (hs : s.Sound num) : s.grid.Addressable := by
  obtain ⟨-, -, -, -, -, -, -, -, hcount⟩ := Accuracy.shape_eq_ok hs.shape
  exact ⟨hs.grid.size, hcount, hs.width_ne_zero⟩

theorem Sound.addressable_board (hs : s.Sound num) : s.board.Addressable := by
  obtain ⟨hk, hmany, -⟩ := Accuracy.shape_eq_ok hs.shape
  exact ⟨hs.board, hs.capacity ▸ hk, hs.capacity ▸ hmany⟩

/-! ### Creating -/

/-- The sketch that has seen nothing. -/
def createChecked (num : Numerics) (accuracy : Accuracy) (seed : UInt64) :
    Checked (Except ParameterError Sketch) :=
  match accuracy.shape num with
  | .error cause => return .error cause
  | .ok shape => do
    let grid ← Grid.emptyChecked shape
    let board ← Leaderboard.emptyChecked accuracy.k
    return .ok (← assembleChecked accuracy grid board 0 seed)

theorem createChecked_eq (num : Numerics) (accuracy : Accuracy) (seed : UInt64) :
    createChecked num accuracy seed = .ok (create num accuracy seed) := by
  rw [createChecked]
  show _ = Except.ok (Except.bind (accuracy.shape num) _)
  cases hshape : accuracy.shape num with
  | error cause => rfl
  | ok shape =>
      obtain ⟨hk, -, -, -, -, -, -, -, hcount⟩ := Accuracy.shape_eq_ok hshape
      obtain ⟨hdepth, hwidth⟩ := shape_ne_zero hshape
      dsimp only
      rw [Grid.emptyChecked_eq hdepth hwidth hcount, Checked.ok_bind,
        Leaderboard.emptyChecked_eq hk, Checked.ok_bind, assembleChecked_eq]
      rfl

/-! ### Queries -/

/-- The estimated count of a key. -/
def estimateChecked (s : Sketch) (key : Key) : Checked UInt64 :=
  s.grid.estimateChecked key

/-- The size and the traffic so far. -/
def statisticsChecked (s : Sketch) : Checked Statistics := do
  return {
    total := s.total
    k := s.accuracy.k
    shape := s.grid.toShape
    memoryBits := ← s.grid.memoryBitsChecked }

theorem Sound.statisticsChecked_eq (hln : num.LogBounded) (hs : s.Sound num) :
    s.statisticsChecked = .ok s.statistics := by
  have hbits : s.grid.memoryBits < 2 ^ 64 := by
    have hcount : s.grid.cellCount ≤ 710 * maxWord32 := hln.cellCount_le hs.shape
    calc s.grid.cellCount * Grid.cellBits ≤ 710 * maxWord32 * Grid.cellBits :=
          Nat.mul_le_mul_right _ hcount
      _ < 2 ^ 64 := by decide
  rw [statisticsChecked, Grid.memoryBitsChecked_eq hbits]
  rfl

/-! ### Recording -/

/-- Occurrences of a key are recorded. -/
def addChecked (num : Numerics) (s : Sketch) (key : Key) (count : UInt64) : Checked Sketch := do
  if count = 0 then return s
  else
    let recorded ← Grid.recordChecked (num.gap decayBase) key (increment count)
      (List.range s.grid.depth) ⟨none, s.grid, s.random⟩
    let board ←
      if key.length ≤ maxWord32 then
        Prod.snd <$> s.board.offerChecked key (recorded.least.getD 0).toUInt64
      else pure s.board
    return {
      s with
      grid := recorded.grid
      board
      total := saturatingTotal s.total 1
      random := recorded.state }

/-- A recording goes through unless it is the `2 ^ 64`th admission. -/
theorem Sound.addChecked_eq (hs : s.Sound num) (key : Key) (count : UInt64)
    (hseq : (s.add num key count).board.nextSeq < 2 ^ 64) :
    s.addChecked num key count = .ok (s.add num key count) := by
  by_cases hzero : count = 0
  · rw [addChecked, Sketch.add, if_pos hzero, if_pos hzero]
    rfl
  · have hrecord : Grid.recordChecked (num.gap decayBase) key (increment count)
        (List.range s.grid.depth) ⟨none, s.grid, s.random⟩ = _ :=
      hs.addressable_grid.recordChecked_eq (num.gap decayBase) (increment_ne_zero hzero)
        (fun row hrow => List.mem_range.mp hrow) none s.random
    rw [add_of_ne_zero key hzero] at hseq ⊢
    rw [addChecked, if_neg hzero, hrecord, Checked.ok_bind, Grid.foldl_lowerReading_none]
    dsimp only at hseq ⊢
    by_cases hlength : key.length ≤ maxWord32
    · rw [if_pos hlength] at hseq ⊢
      rw [if_pos hlength]
      have hoffer := hs.addressable_board.offerChecked_eq key _ hseq
      change (Prod.snd <$> s.board.offerChecked key
        (Grid.leastCount (s.recorded num key count).readings) >>= _) = _
      rw [hoffer]
      rfl
    · rw [if_neg hlength, if_neg hlength]
      rfl

/-- One occurrence of each key is recorded, in order. -/
def updateBatchChecked (num : Numerics) (s : Sketch) : List Key → Checked Sketch
  | [] => return s
  | key :: rest => do updateBatchChecked num (← s.addChecked num key 1) rest

theorem nextSeq_le_add (s : Sketch) (key : Key) (count : UInt64) :
    s.board.nextSeq ≤ (s.add num key count).board.nextSeq := by
  by_cases hzero : count = 0
  · rw [Sketch.add, if_pos hzero]
  · rw [add_of_ne_zero key hzero]
    dsimp only
    split
    · exact (Leaderboard.nextSeq_offer s.board key _).1
    · exact Nat.le_refl _

theorem nextSeq_le_updateBatch (s : Sketch) (keys : List Key) :
    s.board.nextSeq ≤ (s.updateBatch num keys).board.nextSeq := by
  induction keys generalizing s with
  | nil => exact Nat.le_refl _
  | cons key rest ih => exact Nat.le_trans (nextSeq_le_add s key 1) (ih (s.add num key 1))

theorem Sound.updateBatchChecked_eq (hs : s.Sound num) (keys : List Key)
    (hseq : (s.updateBatch num keys).board.nextSeq < 2 ^ 64) :
    s.updateBatchChecked num keys = .ok (s.updateBatch num keys) := by
  induction keys generalizing s with
  | nil => rfl
  | cons key rest ih =>
      have hfirst := Nat.lt_of_le_of_lt (nextSeq_le_updateBatch (s.add num key 1) rest) hseq
      rw [updateBatchChecked, hs.addChecked_eq key 1 hfirst, Checked.ok_bind]
      exact ih (hs.add key 1) hseq

/-! ### Ageing -/

/-- All counts and all listed estimates divided by the base of the decay. -/
def decayChecked (num : Numerics) (s : Sketch) : Checked Sketch := do
  let scale := num.scale (1.0 / decayBase)
  let (_, grid) ← s.grid.attenuateChecked scale
  let (_, board) ← s.board.decayChecked scale
  return { s with grid, board }

theorem Sound.decayChecked_eq (hs : s.Sound num) :
    s.decayChecked num = .ok (s.decay num) := by
  rw [decayChecked]
  simp only [hs.addressable_grid.attenuateChecked_eq, Checked.ok_bind,
    hs.addressable_board.decayChecked_eq]
  rfl

/-! ### Merging -/

/-- The receiver merged with another sketch. -/
def mergeChecked (mine theirs : Sketch) : Checked (Except MergeError Sketch) := do
  if !mine.configuration.agrees theirs.configuration then
    return .error (.incompatible mine.configuration theirs.configuration)
  else if theirs.isEmpty then return .ok mine
  else
    let grid ← mine.grid.mergeChecked theirs.grid
    let board ← Leaderboard.emptyChecked mine.accuracy.k
    let board ← board.offerAllChecked grid.estimateChecked
      ((mine.board.ranking.reverse ++ theirs.board.ranking.reverse).map Prod.fst)
    return .ok { mine with grid, board, total := saturatingTotal mine.total theirs.total }

theorem Sound.length_ranking_le (hs : s.Sound num) : s.board.ranking.length ≤ s.accuracy.k :=
  hs.image_valid.length_le

/-- The merged leaderboard is filled anew, by at most as many offers as both sides list keys. -/
theorem Sound.mergeChecked_eq {mine theirs : Sketch} (hmine : mine.Sound num)
    (htheirs : theirs.Sound num) : mine.mergeChecked theirs = .ok (mine.merge theirs) := by
  rw [mergeChecked, Sketch.merge]
  cases hagrees : mine.configuration.agrees theirs.configuration with
  | false => rfl
  | true =>
      rw [Bool.not_true, if_neg Bool.false_ne_true, if_neg Bool.false_ne_true]
      by_cases hempty : theirs.isEmpty = true
      · rw [if_pos hempty, if_pos hempty]
        rfl
      · obtain ⟨haccuracy, hshape⟩ := hmine.configuration_eq htheirs hagrees
        obtain ⟨hk, hmany, -, -, -, -, -, -, hcount⟩ := Accuracy.shape_eq_ok hmine.shape
        have hgrid : (mine.grid.merge theirs.grid).Addressable :=
          ⟨(hmine.grid.merge htheirs.grid hshape).size, hcount, hmine.width_ne_zero⟩
        have hfew : 0 + ((mine.board.ranking.reverse ++ theirs.board.ranking.reverse).map
            Prod.fst).length < 2 ^ 64 := by
          have hmax : maxWord32 < 2 ^ 32 := by decide
          have hmineFew := hmine.length_ranking_le
          have htheirFew := htheirs.length_ranking_le
          rw [← haccuracy] at htheirFew
          simp only [List.length_map, List.length_append, List.length_reverse]
          omega
        have hestimate : ∀ key, (mine.grid.merge theirs.grid).estimateChecked key =
            .ok ((mine.grid.merge theirs.grid).estimate key) :=
          fun _ => hgrid.estimateChecked_eq
        have hoffers :=
          (Leaderboard.addressable_empty hk hmany).offerAllChecked_eq hestimate hfew
        rw [if_neg hempty, if_neg hempty, Grid.mergeChecked_eq hshape, Checked.ok_bind,
          Leaderboard.emptyChecked_eq hk, Checked.ok_bind, hoffers, Checked.ok_bind]
        rw [List.map_append, List.map_append, List.map_map, List.map_map]
        rfl

/-! ### Safety -/

/-- Each operation on a sketch goes through step by step, and does what the operation does. What is
not listed looks at no index and calculates with no word. -/
structure Safe (num : Numerics) (s : Sketch) : Prop where
  /-- The places of a key are cells of the grid. -/
  index_lt : ∀ key row, row < s.grid.depth →
    s.grid.index row (s.grid.locate key row).column < s.grid.cells.size
  estimate : ∀ key, s.estimateChecked key = .ok (s.estimate key)
  add : ∀ key count, (s.add num key count).board.nextSeq < 2 ^ 64 →
    s.addChecked num key count = .ok (s.add num key count)
  updateBatch : ∀ keys, (s.updateBatch num keys).board.nextSeq < 2 ^ 64 →
    s.updateBatchChecked num keys = .ok (s.updateBatch num keys)
  decay : s.decayChecked num = .ok (s.decay num)
  merge : ∀ theirs, Reachable num theirs → s.mergeChecked theirs = .ok (s.merge theirs)
  statistics : s.statisticsChecked = .ok s.statistics
  toBytes : s.toBytes.length < 2 ^ 63 → s.toBytesChecked = .ok s.toBytes

theorem Sound.safe (hln : num.LogBounded) (hs : s.Sound num) : s.Safe num where
  index_lt _ _ hrow :=
    (hs.addressable_grid.indexChecked_eq hrow hs.addressable_grid.column_lt).2
  estimate _ := hs.addressable_grid.estimateChecked_eq
  add := hs.addChecked_eq
  updateBatch := hs.updateBatchChecked_eq
  decay := hs.decayChecked_eq
  merge _ htheirs := hs.mergeChecked_eq htheirs.sound
  statistics := hs.statisticsChecked_eq hln
  toBytes := toBytesChecked_eq

/-- No operation on a sketch that can be reached stops at a fault, and neither does creating a sketch
or reading one from bytes, whatever the parameters and the bytes are. -/
theorem operations_never_fault (hln : num.LogBounded) :
    (∀ s, Reachable num s → s.Safe num) ∧
      (∀ accuracy seed, createChecked num accuracy seed = .ok (create num accuracy seed)) ∧
      ∀ bytes seed, bytes.length < 2 ^ 63 →
        ofBytesChecked num bytes seed = .ok (ofBytes num bytes seed) :=
  ⟨fun _ hs => hs.sound.safe hln, createChecked_eq num, fun _ seed hlength =>
    ofBytesChecked_eq hln hlength seed⟩

/-- Real functions whose logarithm is that of two at every finite float, and infinite at
infinity. -/
def boundedNumerics : Numerics :=
  { halfNumerics with ln := fun x => if x.isFinite then 0.6931471805599453 else x }

theorem logBounded_boundedNumerics : boundedNumerics.LogBounded where
  finite x _ hfinite := by
    show (if x.isFinite then 0.6931471805599453 else x : Float) ≤ 710.0
    rw [if_pos hfinite]
    decide +kernel
  infinite := by
    show (if (1.0 / 0.0 : Float).isFinite then 0.6931471805599453 else 1.0 / 0.0 : Float) = 1.0 / 0.0
    rw [if_neg (by decide +kernel)]

theorem create_newSketch_bounded : create boundedNumerics ⟨2, 0.5, 0.5⟩ 1 = .ok newSketch := rfl

/-- A sketch that lists as many keys as it can. -/
def fullSketch : Sketch :=
  (newSketch.add boundedNumerics [1] 3).add boundedNumerics [2] 3

/-- A key takes the cell of a listed one, and its place in the ranking too. Merged with itself, the
sketch ranks both keys anew and then ages. Its encoding lists two keys, and both are read back. -/
theorem operations_never_fault_fullSketch :
    boundedNumerics.LogBounded ∧ Reachable boundedNumerics fullSketch ∧
      fullSketch.topK = [([2], 3), ([1], 3)] ∧
      fullSketch.addChecked boundedNumerics [6] 4 = .ok (fullSketch.add boundedNumerics [6] 4) ∧
      (fullSketch.add boundedNumerics [6] 4).topK = [([6], 4), ([2], 3)] ∧
      fullSketch.mergeChecked fullSketch = .ok (.ok (fullSketch.absorb fullSketch)) ∧
      (fullSketch.absorb fullSketch).topK = [([2], 6), ([1], 6)] ∧
      (fullSketch.absorb fullSketch).decayChecked boundedNumerics =
        .ok ((fullSketch.absorb fullSketch).decay boundedNumerics) ∧
      ((fullSketch.absorb fullSketch).decay boundedNumerics).topK = [([2], 5), ([1], 5)] ∧
      fullSketch.toBytesChecked = .ok fullSketch.toBytes ∧
      ofBytesChecked boundedNumerics fullSketch.toBytes 1 =
        .ok (ofBytes boundedNumerics fullSketch.toBytes 1) ∧
      (ofBytes boundedNumerics fullSketch.toBytes 1).toOption.map topK = some fullSketch.topK := by
  have hfull : Reachable boundedNumerics fullSketch :=
    ((Reachable.create create_newSketch_bounded).add [1] 3).add [2] 3
  have hmerge : fullSketch.merge fullSketch = .ok (fullSketch.absorb fullSketch) :=
    hfull.sound.merge_eq_absorb hfull.sound rfl (by decide +kernel)
  have hmerged : Reachable boundedNumerics (fullSketch.absorb fullSketch) := hfull.merge hfull hmerge
  have hlength : fullSketch.toBytes.length < 2 ^ 63 := by decide +kernel
  obtain ⟨hsafe, -, hbytes⟩ := operations_never_fault logBounded_boundedNumerics
  exact ⟨logBounded_boundedNumerics, hfull, by decide +kernel,
    (hsafe _ hfull).add [6] 4 (by decide +kernel), by decide +kernel,
    hmerge ▸ (hsafe _ hfull).merge _ hfull, by decide +kernel, (hsafe _ hmerged).decay,
    by decide +kernel, (hsafe _ hfull).toBytes hlength, hbytes _ 1 hlength, by decide +kernel⟩

end FlowSketch.Sketch
