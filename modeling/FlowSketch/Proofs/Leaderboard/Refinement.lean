import FlowSketch.Proofs.Leaderboard.WellFormed

/-!
# FlowSketch.Proofs.Leaderboard.Refinement

**A leaderboard cannot be told from its roster.** Both are asked the same requests in turn: offers,
scalings by a factor, and clearing. After each request everything that can be seen of a leaderboard
is looked at (`View`). The transcripts agree, answers and views alike, for every capacity and every
list of requests (`transcript_eq_roster`).

The simulation relation is "well formed, and the roster is the roster of the leaderboard". One
request keeps it and gives equal answers (`respond_roster`), and related states look alike
(`view_roster`). Ages are natural numbers, so no list of requests is too long.
-/

namespace FlowSketch

/-! ### Requests, answers and views -/

/-- What may be asked of a leaderboard that changes it. -/
inductive Request where
  | offer (key : Key) (estimate : UInt64)
  | decay (factor : Float)
  | clear

/-- What is answered. -/
inductive Answer where
  | offered (response : Response)
  | dropped (count : Nat)
  | cleared

/-- Everything that can be seen of a leaderboard. -/
structure View where
  capacity : Nat
  size : Nat
  isEmpty : Bool
  contains : Key → Bool
  get? : Key → Option UInt64
  minEstimate? : Option UInt64
  ranking : List (Key × UInt64)

/-- The answers to some requests in turn, each with what can be seen after it. -/
def transcript {σ : Type} (respond : σ → Request → Answer × σ) (view : σ → View) :
    σ → List Request → List (Answer × View)
  | _, [] => []
  | s, request :: requests =>
    let (answer, s) := respond s request
    (answer, view s) :: transcript respond view s requests

namespace Leaderboard

def view (b : Leaderboard) : View where
  capacity := b.capacity
  size := b.size
  isEmpty := b.isEmpty
  contains := b.contains
  get? := b.get?
  minEstimate? := b.minEstimate?
  ranking := b.ranking

def respond (num : Numerics) (b : Leaderboard) : Request → Answer × Leaderboard
  | .offer key estimate =>
    let (response, b) := b.offer key estimate
    (.offered response, b)
  | .decay factor => (.dropped (b.droppedBy (num.scale factor)), b.decay (num.scale factor))
  | .clear => (.cleared, b.clear)

end Leaderboard

namespace Roster

/-- What can be seen of a roster: the length of the list, what a search for a key finds, the
estimate of the least entry, and the sorted list. -/
def view (r : Roster) : View where
  capacity := r.capacity
  size := r.entries.length
  isEmpty := r.entries.isEmpty
  contains key := (r.find? key).isSome
  get? key := (r.find? key).map Entry.estimate
  minEstimate? := r.lightest?.map Entry.estimate
  ranking := r.ranking

/-- The answers of a roster. What a scaling drops is what the list is shorter by. -/
def respond (num : Numerics) (r : Roster) : Request → Answer × Roster
  | .offer key estimate =>
    let (response, r) := r.offer key estimate
    (.offered response, r)
  | .decay factor =>
    let decayed := r.decay (num.scale factor)
    (.dropped (r.entries.length - decayed.entries.length), decayed)
  | .clear => (.cleared, r.clear)

end Roster

/-! ### The ranking -/

namespace Leaderboard

theorem rankedEntries_perm (b : Leaderboard) : b.rankedEntries.Perm b.roster.entries :=
  Entry.rank_perm b.slots.toList

/-- The weights of a ranking do not rise. -/
theorem heavy_first_rankedEntries (b : Leaderboard) :
    b.rankedEntries.Pairwise fun x y => y.weight ≤ x.weight :=
  (Entry.pairwise_rank _).imp fun h => Entry.ranksBefore_iff_weight.mp h

/-- The ranking shows exactly the entries. -/
theorem mem_ranking {b : Leaderboard} {x : Key × UInt64} :
    x ∈ b.ranking ↔ ∃ e ∈ b.roster.entries, e.listed = x := by
  rw [ranking, List.mem_map]
  simp only [b.rankedEntries_perm.mem_iff]

/-- The keys of the ranking are those of the entries. -/
theorem key_mem_ranking {b : Leaderboard} {key : Key} :
    key ∈ b.ranking.map Prod.fst ↔ ∃ e ∈ b.roster.entries, e.key = key := by
  rw [List.mem_map]
  constructor
  · intro h
    obtain ⟨x, hx, rfl⟩ := h
    obtain ⟨e, he, rfl⟩ := mem_ranking.mp hx
    exact ⟨e, he, rfl⟩
  · intro h
    obtain ⟨e, he, rfl⟩ := h
    exact ⟨e.listed, mem_ranking.mpr ⟨e, he, rfl⟩, rfl⟩

theorem map_fst_ranking (b : Leaderboard) :
    b.ranking.map Prod.fst = b.rankedEntries.map Entry.key := by
  rw [ranking, List.map_map]
  rfl

theorem length_ranking (b : Leaderboard) : b.ranking.length = b.roster.entries.length := by
  rw [ranking, List.length_map, b.rankedEntries_perm.length_eq]

/-- The estimates of a ranking do not rise. -/
theorem pairwise_ranking (b : Leaderboard) : b.ranking.Pairwise fun x y => y.2 ≤ x.2 :=
  List.pairwise_map.mpr (b.heavy_first_rankedEntries.imp Entry.estimate_le_of_weight)

end Leaderboard

/-! ### One request -/

namespace Leaderboard.WellFormed

variable {b : Leaderboard}

/-- An offer gets the answer that the roster gives, and does to the roster what the roster does. -/
theorem roster_offer (hb : b.WellFormed) (key : Key) (estimate : UInt64) :
    b.roster.offer key estimate =
      ((b.offer key estimate).1, (b.offer key estimate).2.roster) := by
  have hlength : b.roster.entries.length = b.slots.size := Array.length_toList
  cases hindex : b.index[key]? with
  | some slot =>
      -- the key is listed: only a strictly larger estimate is written
      obtain ⟨-, -, hfind⟩ := hb.find?_of_index hindex
      by_cases hle : estimate ≤ (b.entry slot).estimate
      · have hnot : ¬ (b.entry slot).estimate < estimate := UInt64.not_lt.mpr hle
        simp [Roster.offer, Leaderboard.offer, hindex, hfind, hle, hnot]
      · have hlt : (b.entry slot).estimate < estimate := UInt64.not_le.mp hle
        simp [Roster.offer, Leaderboard.offer, hindex, hfind, hle, hlt,
          hb.roster_raise hindex estimate]
  | none =>
      have hfind := hb.find?_of_index_none hindex
      by_cases hzero : estimate = 0
      · simp [Roster.offer, Leaderboard.offer, hindex, hfind, hzero]
      · by_cases hroom : b.slots.size < b.capacity
        · have hroom' : b.roster.entries.length < b.roster.capacity := by
            rwa [hlength]
          simp [Roster.offer, Leaderboard.offer, hindex, hfind, hzero, hroom, hroom',
            roster_enlist]
        · -- there is no room: the top of the heap is the entry that the roster gives up
          have hfull : ¬ b.roster.entries.length < b.roster.capacity := by
            rwa [hlength]
          have htop := hb.lightest?_roster
          cases hleast : b.heap.lightest? with
          | none =>
              rw [hleast, Option.map_none] at htop
              simp [Roster.offer, Leaderboard.offer, hindex, hfind, hzero, hroom, hfull, hleast,
                htop]
          | some slot =>
              rw [hleast, Option.map_some] at htop
              by_cases hle : estimate ≤ (b.entry slot).estimate
              · have hnot : ¬ (b.entry slot).estimate < estimate := UInt64.not_lt.mpr hle
                simp [Roster.offer, Leaderboard.offer, hindex, hfind, hzero, hroom, hfull, hleast,
                  htop, hle, hnot]
              · have hlt : (b.entry slot).estimate < estimate := UInt64.not_le.mp hle
                have hslot : slot < b.slots.size :=
                  (SlotHeap.lighter_lightest (weakOrder_lighterSlot b.slots) hb.consistent
                    hb.ordered hleast).1
                simp [Roster.offer, Leaderboard.offer, hindex, hfind, hzero, hroom, hfull, hleast,
                  htop, hle, hlt, hb.roster_displace hslot]

theorem offer (hb : b.WellFormed) (key : Key) (estimate : UInt64) :
    (b.offer key estimate).2.WellFormed := by
  unfold Leaderboard.offer
  split
  · rename_i slot hindex
    split
    · exact hb
    · rename_i hle
      exact hb.raise hindex (UInt64.not_le.mp hle)
  · rename_i hindex
    split
    · exact hb
    · rename_i hpos
      split
      · rename_i hroom
        exact hb.enlist hindex hpos hroom
      · split
        · exact hb
        · rename_i slot htop
          dsimp only
          split
          · exact hb
          · rename_i hle
            exact hb.displace htop hindex (UInt64.not_le.mp hle)

theorem respond (hb : b.WellFormed) (num : Numerics) (request : Request) :
    (b.respond num request).2.WellFormed := by
  cases request with
  | offer key estimate => exact hb.offer key estimate
  | decay factor => exact hb.decay (num.scale factor)
  | clear => exact wellFormed_empty b.capacity

/-- A request gets the answer that the roster gives, and does to the roster what the roster
does. -/
theorem respond_roster (hb : b.WellFormed) (num : Numerics) (request : Request) :
    b.roster.respond num request =
      ((b.respond num request).1, (b.respond num request).2.roster) := by
  cases request with
  | offer key estimate =>
      simp only [Roster.respond, Leaderboard.respond, hb.roster_offer]
  | decay factor =>
      simp only [Roster.respond, Leaderboard.respond, roster_decay, droppedBy_eq]
  | clear => rfl

/-! ### Where entries come from -/

theorem capacity_offer (hb : b.WellFormed) (key : Key) (estimate : UInt64) :
    (b.offer key estimate).2.capacity = b.capacity := by
  have h := Roster.capacity_offer b.roster key estimate
  rw [hb.roster_offer] at h
  exact h

theorem capacity_respond (hb : b.WellFormed) (num : Numerics) (request : Request) :
    (b.respond num request).2.capacity = b.capacity := by
  cases request with
  | offer key estimate => exact hb.capacity_offer key estimate
  | decay factor => rfl
  | clear => rfl

theorem mem_offer (hb : b.WellFormed) {key : Key} {estimate : UInt64} {e : Entry}
    (he : e ∈ (b.offer key estimate).2.roster.entries) :
    e ∈ b.roster.entries ∨ e.listed = (key, estimate) := by
  apply Roster.mem_offer
  rw [hb.roster_offer]
  exact he

/-- What offers in a row keep, and where the entries come from that they lead to. -/
theorem offerAll (hb : b.WellFormed) (offers : List (Key × UInt64)) :
    (b.offerAll offers).WellFormed ∧ (b.offerAll offers).capacity = b.capacity ∧
      ∀ e ∈ (b.offerAll offers).roster.entries, e ∈ b.roster.entries ∨ e.listed ∈ offers := by
  induction offers generalizing b with
  | nil => exact ⟨hb, rfl, fun e he => .inl he⟩
  | cons first rest ih =>
      obtain ⟨hwf, hcapacity, hmem⟩ := ih (hb.offer first.1 first.2)
      refine ⟨hwf, hcapacity.trans (hb.capacity_offer first.1 first.2), ?_⟩
      intro e he
      rcases hmem e he with he | he
      · rcases hb.mem_offer he with he | he
        · exact .inl he
        · right
          rw [he]
          exact List.mem_cons_self
      · exact .inr (List.mem_cons_of_mem _ he)

/-! ### One look -/

theorem get?_roster (hb : b.WellFormed) (key : Key) :
    b.get? key = (b.roster.find? key).map Entry.estimate := by
  unfold get?
  cases hindex : b.index[key]? with
  | none => rw [hb.find?_of_index_none hindex, Option.map_none, Option.map_none]
  | some slot =>
      rw [(hb.find?_of_index hindex).2.2, Option.map_some, Option.map_some]

theorem contains_roster (hb : b.WellFormed) (key : Key) :
    b.contains key = (b.roster.find? key).isSome := by
  rw [contains, Std.TreeMap.contains_eq_isSome_getElem?]
  cases hindex : b.index[key]? with
  | none => rw [hb.find?_of_index_none hindex, Option.isSome_none, Option.isSome_none]
  | some slot => rw [(hb.find?_of_index hindex).2.2, Option.isSome_some, Option.isSome_some]

/-- The index knows exactly the keys of the entries. -/
theorem contains_iff (hb : b.WellFormed) {key : Key} :
    b.contains key = true ↔ ∃ e ∈ b.roster.entries, e.key = key := by
  rw [hb.contains_roster, Roster.find?, List.find?_isSome]
  simp only [decide_eq_true_eq]

/-- No key is ranked twice. -/
theorem nodup_ranking (hb : b.WellFormed) : (b.ranking.map Prod.fst).Nodup := by
  rw [map_fst_ranking]
  exact (b.rankedEntries_perm.map Entry.key).nodup_iff.mpr hb.legal.keys_nodup

/-- The ranking sorts the roster. -/
theorem ranking_roster (hb : b.WellFormed) : b.roster.ranking = b.ranking :=
  hb.legal.ranking_eq b.rankedEntries_perm b.heavy_first_rankedEntries

/-- A leaderboard looks like its roster. -/
theorem view_roster (hb : b.WellFormed) : b.roster.view = b.view := by
  have hcontains : (fun key => (b.roster.find? key).isSome) = b.contains :=
    funext fun key => (hb.contains_roster key).symm
  have hget : (fun key => (b.roster.find? key).map Entry.estimate) = b.get? :=
    funext fun key => (hb.get?_roster key).symm
  have hleast : b.roster.lightest?.map Entry.estimate = b.minEstimate? := by
    rw [hb.lightest?_roster, Option.map_map]
    rfl
  have hempty : b.roster.entries.isEmpty = b.isEmpty := Array.isEmpty_toList
  unfold Roster.view Leaderboard.view
  rw [hcontains, hget, hleast, hempty, hb.ranking_roster]
  rfl

/-! ### Many requests -/

/-- From a well-formed leaderboard on, the transcripts agree. -/
theorem transcript_roster (hb : b.WellFormed) (num : Numerics) (requests : List Request) :
    transcript (Roster.respond num) Roster.view b.roster requests =
      transcript (Leaderboard.respond num) Leaderboard.view b requests := by
  induction requests generalizing b with
  | nil => rfl
  | cons request requests ih =>
      -- the answer agrees, the state after it is related, and so the rest agrees
      have hnext := hb.respond num request
      simp only [transcript, hb.respond_roster num request]
      rw [hnext.view_roster, ih hnext]

end Leaderboard.WellFormed

/-- A leaderboard of any capacity and the plain list of entries of that capacity look alike at the
start, give the same answers to every list of requests, and look alike after each of them. -/
theorem transcript_eq_roster (num : Numerics) (capacity : Nat) (requests : List Request) :
    (Leaderboard.empty capacity).view = (Roster.empty capacity).view ∧
      transcript (Leaderboard.respond num) Leaderboard.view (.empty capacity) requests =
        transcript (Roster.respond num) Roster.view (.empty capacity) requests := by
  have hempty := Leaderboard.wellFormed_empty capacity
  exact ⟨hempty.view_roster.symm, (hempty.transcript_roster num requests).symm⟩

end FlowSketch
