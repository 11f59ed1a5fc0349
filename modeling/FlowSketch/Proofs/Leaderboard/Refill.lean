import FlowSketch.Proofs.Leaderboard.Refinement
import FlowSketch.Sketch.Persistence

/-!
# FlowSketch.Proofs.Leaderboard.Refill

**Filling a leaderboard from a ranking.** A ranking shows keys and estimates but not ages. It is put
back from the lowest rank up: every key is admitted in turn, so that the ages grow as the estimates
do not fall, and the ranking of the outcome is the one that was put back, ties included
(`ranking_admitAll`).

An admission has one way to happen (`offer_admitted`), which also says when a whole ranking goes in:
the keys are distinct, each has a count, and there is room for all of them (`admitAll_succeeds`). Of
these three, the first is also what a ranking that went in has shown (`nodup_of_admitAll`).
-/

namespace FlowSketch

open Sketch (admitAll)

namespace Leaderboard

variable {b b' : Leaderboard} {key : Key} {estimate : UInt64}

/-- A key is admitted only if it was not listed, has a count, and finds a free slot. -/
theorem offer_admitted (h : b.offer key estimate = (.admitted, b')) :
    b.index[key]? = none ∧ estimate ≠ 0 ∧ b.slots.size < b.capacity ∧
      b' = b.enlist key estimate := by
  unfold offer at h
  cases hindex : b.index[key]? with
  | some slot =>
      simp only [hindex] at h
      split at h <;> cases h
  | none =>
      simp only [hindex] at h
      split at h
      · cases h
      · rename_i hpos
        split at h
        · rename_i hroom
          cases h
          exact ⟨rfl, hpos, hroom, rfl⟩
        · split at h
          · cases h
          · split at h <;> cases h

/-- A key that is not listed and has a count takes a free slot. -/
theorem offer_fresh (hindex : b.index[key]? = none) (hpos : estimate ≠ 0)
    (hroom : b.slots.size < b.capacity) :
    b.offer key estimate = (.admitted, b.enlist key estimate) := by
  simp only [offer, hindex]
  rw [if_neg hpos, if_pos hroom]

theorem index_enlist_of_ne {other : Key} (hne : other ≠ key) (h : b.index[other]? = none) :
    (b.enlist key estimate).index[other]? = none := by
  change (b.index.insert key b.slots.size)[other]? = none
  rw [Std.TreeMap.getElem?_insert, h]
  simp [Ne.symm hne]

/-! ### Admitting a whole list -/

/-- The entries that keys get when they are admitted in turn. -/
def numbered (start : Nat) : List (Key × UInt64) → List Entry
  | [] => []
  | (key, estimate) :: rest => { key, estimate, seq := start } :: numbered (start + 1) rest

theorem map_listed_numbered (start : Nat) (listed : List (Key × UInt64)) :
    (numbered start listed).map Entry.listed = listed := by
  induction listed generalizing start with
  | nil => rfl
  | cons first rest ih => simp [numbered, ih, Entry.listed]

theorem map_key_numbered (start : Nat) (listed : List (Key × UInt64)) :
    (numbered start listed).map Entry.key = listed.map Prod.fst := by
  conv_rhs => rw [← map_listed_numbered start listed, List.map_map]
  rfl

/-- The ages count up from the start. -/
theorem le_seq_of_mem_numbered {start : Nat} {listed : List (Key × UInt64)} {e : Entry}
    (he : e ∈ numbered start listed) : start ≤ e.seq := by
  induction listed generalizing start with
  | nil => cases he
  | cons first rest ih =>
      rcases List.mem_cons.mp he with rfl | he
      · exact Nat.le_refl _
      · exact Nat.le_of_succ_le (ih he)

/-- Estimates that do not fall make weights that rise: where estimates tie, the ages decide. -/
theorem pairwise_weight_numbered {listed : List (Key × UInt64)}
    (hascending : listed.Pairwise fun a b => a.2 ≤ b.2) (start : Nat) :
    (numbered start listed).Pairwise fun a b => a.weight ≤ b.weight := by
  induction listed generalizing start with
  | nil => exact .nil
  | cons first rest ih =>
      obtain ⟨hfirst, hrest⟩ := List.pairwise_cons.mp hascending
      refine List.pairwise_cons.mpr ⟨fun e he => ?_, ih hrest (start + 1)⟩
      have hlisted : e.listed ∈ rest := by
        rw [← map_listed_numbered (start + 1) rest]
        exact List.mem_map_of_mem he
      have hestimate : first.2.toNat ≤ e.estimate.toNat := hfirst e.listed hlisted
      have hseq : start + 1 ≤ e.seq := le_seq_of_mem_numbered he
      simp only [Entry.weight, Prod.Lex.toLex_le_toLex]
      omega

/-- What a filled leaderboard holds: what was there, then the keys in the order of admission. -/
theorem admitAll_slots {listed : List (Key × UInt64)} (hb : b.WellFormed)
    (h : admitAll b listed = some b') :
    b'.WellFormed ∧ b'.capacity = b.capacity ∧
      b'.slots.toList = b.slots.toList ++ numbered b.nextSeq listed := by
  induction listed generalizing b with
  | nil =>
      cases h
      exact ⟨hb, rfl, by simp [numbered]⟩
  | cons first rest ih =>
      unfold admitAll at h
      split at h
      · rename_i next hoffer
        obtain ⟨hindex, hpos, hroom, rfl⟩ := offer_admitted hoffer
        obtain ⟨hwf, hcapacity, hslots⟩ := ih (hb.enlist hindex hpos hroom) h
        refine ⟨hwf, hcapacity, ?_⟩
        rw [hslots]
        simp [enlist, numbered]
      · cases h

/-- A ranking that is put back from the lowest rank up comes out as it was. -/
theorem ranking_admitAll {capacity : Nat} {ranking : List (Key × UInt64)}
    (hdescending : ranking.Pairwise fun a b => b.2 ≤ a.2)
    (h : admitAll (empty capacity) ranking.reverse = some b') : b'.ranking = ranking := by
  obtain ⟨hwf, -, hslots⟩ := admitAll_slots (wellFormed_empty capacity) h
  have hentries : b'.roster.entries = numbered 0 ranking.reverse := hslots
  have hascending := pairwise_weight_numbered (List.pairwise_reverse.mpr hdescending) 0
  -- read backwards, the new entries stand from heavy to light
  rw [← hwf.ranking_roster, hwf.legal.ranking_eq (List.reverse_perm _) ?_, hentries,
    List.map_reverse, map_listed_numbered, List.reverse_reverse]
  rw [hentries]
  exact List.pairwise_reverse.mpr hascending

/-- A list that goes in has distinct keys: the second time a key is not admitted. -/
theorem nodup_of_admitAll {capacity : Nat} {listed : List (Key × UInt64)}
    (h : admitAll (empty capacity) listed = some b') : (listed.map Prod.fst).Nodup := by
  obtain ⟨hwf, -, hslots⟩ := admitAll_slots (wellFormed_empty capacity) h
  have hentries : b'.roster.entries = numbered 0 listed := hslots
  have hnodup := hwf.legal.keys_nodup
  rwa [hentries, map_key_numbered] at hnodup

/-- A list goes in if its keys are distinct and new, each has a count, and there is room. -/
theorem admitAll_succeeds {listed : List (Key × UInt64)} (hnodup : (listed.map Prod.fst).Nodup)
    (hnew : ∀ x ∈ listed, b.index[x.1]? = none) (hpos : ∀ x ∈ listed, x.2 ≠ 0)
    (hroom : b.slots.size + listed.length ≤ b.capacity) :
    ∃ filled, admitAll b listed = some filled := by
  induction listed generalizing b with
  | nil => exact ⟨b, rfl⟩
  | cons first rest ih =>
      obtain ⟨hfirst, hrest⟩ := List.nodup_cons.mp hnodup
      have hlength : b.slots.size + (rest.length + 1) ≤ b.capacity := hroom
      have hoffer := offer_fresh (hnew first List.mem_cons_self) (hpos first List.mem_cons_self)
        (by omega)
      simp only [admitAll, hoffer]
      apply ih hrest
      · intro x hx
        refine index_enlist_of_ne ?_ (hnew x (List.mem_cons_of_mem _ hx))
        intro hkey
        rw [← hkey] at hfirst
        exact hfirst (List.mem_map_of_mem hx)
      · exact fun x hx => hpos x (List.mem_cons_of_mem _ hx)
      · simp only [enlist, Array.size_push]
        omega

end Leaderboard

end FlowSketch
