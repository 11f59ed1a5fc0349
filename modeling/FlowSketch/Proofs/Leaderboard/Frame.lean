import FlowSketch.Proofs.Leaderboard.Refinement

/-!
# FlowSketch.Proofs.Leaderboard.Frame

**An offer leaves the other keys where they are.** What an offer writes is the entry of the key that is
offered: it is raised, or it is new. An entry that is not written keeps its estimate and its age, and so
its place among the others that are not written, whatever the slots and the heap go through. One other
key may have to leave for a new one, and it is the last of the ranking (`besides_offer`).
-/

namespace FlowSketch

/-- Entries without that of a key. -/
def Entry.besides (key : Key) (entries : List Entry) : List Entry :=
  entries.filter fun e => e.key ≠ key

theorem Entry.besides_cons (key : Key) (e : Entry) (rest : List Entry) :
    besides key (e :: rest) = if e.key = key then besides key rest else e :: besides key rest := by
  unfold besides
  by_cases hkey : e.key = key
  · simp [hkey]
  · simp [hkey]

namespace Roster

/-! ### One offer to a roster -/

theorem besides_raise (entries : List Entry) (key : Key) (estimate : UInt64) :
    Entry.besides key (entries.map fun e => if e.key = key then { e with estimate } else e) =
      Entry.besides key entries := by
  induction entries with
  | nil => rfl
  | cons e rest ih =>
      rw [List.map_cons, Entry.besides_cons, Entry.besides_cons, ih]
      by_cases hkey : e.key = key
      · simp [hkey]
      · simp [hkey]

/-- Where a new key stands in the place of an entry, all but that entry are left besides it. -/
theorem besides_replace {entries : List Entry} {old new : Entry}
    (hnew : ∀ e ∈ entries, e.key ≠ new.key) :
    Entry.besides new.key (entries.map fun e => if e = old then new else e) =
      entries.filter fun e => e != old := by
  induction entries with
  | nil => rfl
  | cons e rest ih =>
      rw [List.map_cons, Entry.besides_cons, ih fun a ha => hnew a (List.mem_cons_of_mem e ha)]
      by_cases hold : e = old
      · simp [hold]
      · simp [hold, hnew e List.mem_cons_self]

/-- An offer leaves the entries of the other keys, or a key that was not listed takes the place of the
lightest entry, which is lighter than the key and for which there was no room besides. -/
theorem besides_offer (r : Roster) (key : Key) (estimate : UInt64) :
    Entry.besides key (r.offer key estimate).2.entries = Entry.besides key r.entries ∨
      ∃ least, r.capacity ≤ r.entries.length ∧ r.find? key = none ∧ r.lightest? = some least ∧
        least.estimate < estimate ∧ (r.offer key estimate).2.entries =
          r.entries.map fun e => if e = least then r.newcomer key estimate else e := by
  unfold offer
  split
  · split
    · exact .inl (besides_raise r.entries key estimate)
    · exact .inl rfl
  · rename_i hfind
    split
    · exact .inl rfl
    · split
      · -- the entry that is appended is the key's own
        left
        rw [Entry.besides, List.filter_append]
        simp [newcomer, Entry.besides]
      · rename_i hfull
        split
        · exact .inl rfl
        · rename_i least hleast
          split
          · rename_i hlt
            exact .inr ⟨least, Nat.le_of_not_lt hfull, hfind, hleast, hlt, rfl⟩
          · exact .inl rfl

end Roster

/-! ### One offer to a leaderboard -/

namespace Leaderboard

variable {b after : Leaderboard} {key : Key}

/-- A key that was not listed is listed at an estimate instead of the last entry of a full ranking,
which was the least by estimate and age and had a smaller estimate. -/
structure Supplants (b after : Leaderboard) (key : Key) (estimate : UInt64) (least : Entry) :
    Prop where
  full : b.ranking.length = b.capacity
  unlisted : b.contains key = false
  listed : (key, estimate) ∈ after.ranking
  lightest : ∀ e ∈ b.rankedEntries, e = least ∨ least.lighter e = true
  smaller : least.estimate < estimate
  others : b.rankedEntries = Entry.besides key after.rankedEntries ++ [least]

theorem besides_rankedEntries_perm (b : Leaderboard) (key : Key) :
    (Entry.besides key b.rankedEntries).Perm (Entry.besides key b.roster.entries) :=
  b.rankedEntries_perm.filter _

/-- Where the entries besides that of a key are kept, they are ranked as before. -/
theorem WellFormed.besides_rankedEntries (hb : b.WellFormed)
    (h : Entry.besides key after.roster.entries = Entry.besides key b.roster.entries) :
    Entry.besides key after.rankedEntries = Entry.besides key b.rankedEntries := by
  refine (hb.legal.eq_of_heavy_first ?_ (b.heavy_first_rankedEntries.filter _)
    (after.heavy_first_rankedEntries.filter _) ?_).symm
  · intro e he
    exact b.rankedEntries_perm.subset (List.mem_of_mem_filter he)
  · refine (b.besides_rankedEntries_perm key).trans ?_
    rw [← h]
    exact (after.besides_rankedEntries_perm key).symm

/-- Where a new key has taken the place of the lightest entry, the others are ranked as before. -/
theorem WellFormed.besides_append_lightest (hb : b.WellFormed) {least new : Entry}
    (hleast : b.roster.lightest? = some least) (hfind : b.roster.find? new.key = none)
    (h : after.roster.entries = b.roster.entries.map fun e => if e = least then new else e) :
    b.rankedEntries = Entry.besides new.key after.rankedEntries ++ [least] := by
  have hmem : least ∈ b.roster.entries := List.argmin_mem hleast
  have hrest : (Entry.besides new.key after.rankedEntries).Perm (b.roster.entries.erase least) := by
    rw [(List.Nodup.of_map _ hb.legal.keys_nodup).erase_eq_filter]
    refine (after.besides_rankedEntries_perm new.key).trans (List.Perm.of_eq ?_)
    rw [h]
    exact Roster.besides_replace (Roster.Legal.find?_eq_none_iff.mp hfind)
  refine hb.legal.eq_of_heavy_first (fun e he => b.rankedEntries_perm.subset he)
    b.heavy_first_rankedEntries ?_ ?_
  · -- the lightest entry may stand last
    refine List.pairwise_append.mpr ⟨after.heavy_first_rankedEntries.filter _,
      List.pairwise_singleton _ _, ?_⟩
    intro a ha e he
    rw [List.mem_singleton.mp he]
    exact List.le_of_mem_argmin (List.mem_of_mem_erase (hrest.subset ha)) hleast
  · refine b.rankedEntries_perm.trans ((List.perm_cons_erase hmem).trans ?_)
    exact (hrest.symm.cons least).trans (List.perm_append_singleton least _).symm

/-- An offer leaves the other entries and their order, or the key takes the rank of the last one. -/
theorem WellFormed.besides_offer (hb : b.WellFormed) (key : Key) (estimate : UInt64) :
    Entry.besides key (b.offer key estimate).2.rankedEntries = Entry.besides key b.rankedEntries ∨
      ∃ least, b.Supplants (b.offer key estimate).2 key estimate least := by
  have hoffer := b.roster.besides_offer key estimate
  rw [hb.roster_offer] at hoffer
  rcases hoffer with hkept | ⟨least, hfull, hfind, hleast, hlt, hentries⟩
  · exact .inl (hb.besides_rankedEntries hkept)
  · have hmem : least ∈ b.roster.entries := List.argmin_mem hleast
    refine .inr ⟨least, ?_, ?_, ?_, ?_, hlt, hb.besides_append_lightest hleast hfind hentries⟩
    · rw [length_ranking]
      exact Nat.le_antisymm hb.legal.length_le hfull
    · rw [hb.contains_roster, hfind]
      rfl
    · refine mem_ranking.mpr ⟨b.roster.newcomer key estimate, ?_, rfl⟩
      rw [hentries]
      exact List.mem_map.mpr ⟨least, hmem, if_pos rfl⟩
    · intro e he
      have hlisted := b.rankedEntries_perm.subset he
      have hle : least.weight ≤ e.weight := List.le_of_mem_argmin hlisted hleast
      rcases lt_or_eq_of_le hle with hlighter | hsame
      · exact .inr (Entry.lighter_iff_weight.mpr hlighter)
      · exact .inl (hb.legal.weight_inj hlisted hmem hsame.symm)

end Leaderboard

end FlowSketch
