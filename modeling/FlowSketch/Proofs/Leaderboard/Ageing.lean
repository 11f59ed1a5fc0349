import FlowSketch.Proofs.Leaderboard.Refill

/-!
# FlowSketch.Proofs.Leaderboard.Ageing

**What scaling again and again does to a ranking.** Which keys are left, and with which estimates,
follows from the ranking alone (`ranking_decay_perm`): two leaderboards that show the same keys and
estimates go on doing so. The order is another matter. Scaling makes different estimates equal, and
keys that have come to tie are ordered by their ages, which a ranking does not show.

So the order is described relative to a list of keys (`TiesFollow`): where estimates are equal, the
keys stand as they do in that list. Together with the estimates this leaves no choice
(`eq_of_tiesFollow`). Ages never change (`WellFormed.iterate_decay`), therefore a leaderboard whose
ages agree with its ranks, as they do after it was filled from a ranking, breaks every later tie as
it ranked the keys at first (`WellFormed.tiesFollow_iterate_decay`).
-/

namespace FlowSketch

/-! ### Ties -/

/-- Where estimates are equal, the keys stand in the order in which a list names them. -/
def TiesFollow (keys : List Key) (listed : List (Key × UInt64)) : Prop :=
  listed.Pairwise fun x y => x.2 = y.2 → keys.idxOf x.1 < keys.idxOf y.1

instance (keys : List Key) (listed : List (Key × UInt64)) : Decidable (TiesFollow keys listed) :=
  inferInstanceAs (Decidable (List.Pairwise _ listed))

/-- Keys from heavy to light whose ties follow one list are in one order. -/
theorem eq_of_tiesFollow {keys : List Key} {xs ys : List (Key × UInt64)} (hperm : xs.Perm ys)
    (hxs : xs.Pairwise fun x y => y.2 ≤ x.2) (hys : ys.Pairwise fun x y => y.2 ≤ x.2)
    (hxties : TiesFollow keys xs) (hyties : TiesFollow keys ys) : xs = ys := by
  refine List.Perm.eq_of_pairwise ?_ (hxs.and hxties) (hys.and hyties) hperm
  intro x y _ _ hxy hyx
  -- each is no heavier than the other, so they tie, and each would stand before the other
  have htie : x.2 = y.2 := UInt64.le_antisymm hyx.1 hxy.1
  exact absurd (hyx.2 htie.symm) (Nat.lt_asymm (hxy.2 htie))

namespace Leaderboard

variable {b b' : Leaderboard} {scale : UInt64 → UInt64}

/-! ### What is left -/

/-- Listed keys with their estimates scaled, without those that come to nothing. -/
def survivors (scale : UInt64 → UInt64) (listed : List (Key × UInt64)) : List (Key × UInt64) :=
  (listed.map fun x => (x.1, scale x.2)).filter fun x => x.2 ≠ 0

theorem ranking_perm (b : Leaderboard) : b.ranking.Perm (b.roster.entries.map Entry.listed) :=
  b.rankedEntries_perm.map Entry.listed

/-- What is shown after a scaling follows from what was shown before. -/
theorem ranking_decay_perm (scale : UInt64 → UInt64) (b : Leaderboard) :
    (b.decay scale).ranking.Perm (survivors scale b.ranking) := by
  have hentries : (b.decay scale).roster.entries.map Entry.listed =
      survivors scale (b.roster.entries.map Entry.listed) := by
    rw [WellFormed.roster_decay, Roster.decay, survivors, List.map_map, List.filter_map,
      List.filter_map, List.map_map]
    rfl
  refine (ranking_perm _).trans ?_
  rw [hentries]
  exact ((ranking_perm b).symm.map _).filter _

theorem ranking_iterate_decay_perm (scale : UInt64 → UInt64) (h : b.ranking.Perm b'.ranking)
    (n : Nat) : ((decay scale)^[n] b).ranking.Perm ((decay scale)^[n] b').ranking := by
  induction n generalizing b b' with
  | zero => exact h
  | succ n ih =>
      refine ih ((ranking_decay_perm scale b).trans ?_)
      exact ((h.map _).filter _).trans (ranking_decay_perm scale b').symm

/-- Scaling changes neither keys nor ages. -/
theorem WellFormed.iterate_decay (hb : b.WellFormed) (scale : UInt64 → UInt64) (n : Nat) :
    ((Leaderboard.decay scale)^[n] b).WellFormed ∧
      ∀ e ∈ ((Leaderboard.decay scale)^[n] b).roster.entries, ∃ a ∈ b.roster.entries,
        a.key = e.key ∧ a.seq = e.seq := by
  induction n generalizing b with
  | zero => exact ⟨hb, fun e he => ⟨e, he, rfl, rfl⟩⟩
  | succ n ih =>
      obtain ⟨hwf, hmem⟩ := ih (hb.decay scale)
      refine ⟨hwf, fun e he => ?_⟩
      obtain ⟨a, ha, hkey, hseq⟩ := hmem e he
      rw [roster_decay] at ha
      obtain ⟨old, hold, rfl⟩ := Roster.mem_decay ha
      exact ⟨old, hold, hkey, hseq⟩

/-! ### In which order -/

/-- In a list from heavy to light without repeated keys, the key of a heavier entry stands before
that of a lighter one. -/
theorem idxOf_key_lt {entries : List Entry}
    (hsorted : entries.Pairwise fun x y => y.weight ≤ x.weight)
    (hnodup : (entries.map Entry.key).Nodup) {a c : Entry} (ha : a ∈ entries) (hc : c ∈ entries)
    (h : c.weight < a.weight) :
    (entries.map Entry.key).idxOf a.key < (entries.map Entry.key).idxOf c.key := by
  induction entries with
  | nil => cases ha
  | cons first rest ih =>
      obtain ⟨hfirst, hrest⟩ := List.pairwise_cons.mp hsorted
      obtain ⟨hfresh, hnodupRest⟩ := List.nodup_cons.mp hnodup
      have hlater : ∀ e ∈ rest, first.key ≠ e.key := fun e he heq =>
        hfresh (heq ▸ List.mem_map_of_mem he)
      -- the lighter entry is not the first one, since none is heavier than that
      have hcrest : c ∈ rest := by
        refine (List.mem_cons.mp hc).resolve_left fun heq => ?_
        subst heq
        rcases List.mem_cons.mp ha with rfl | ha
        · exact lt_irrefl _ h
        · exact absurd (hfirst a ha) (not_le.mpr h)
      rw [List.map_cons, List.idxOf_cons_ne _ (hlater c hcrest)]
      rcases List.mem_cons.mp ha with rfl | ha
      · rw [List.idxOf_cons_self]
        exact Nat.succ_pos _
      · rw [List.idxOf_cons_ne _ (hlater a ha)]
        exact Nat.succ_lt_succ (ih hrest hnodupRest ha hcrest)

namespace WellFormed

/-- The ranking shows heavier keys before lighter ones. -/
theorem idxOf_ranking_lt (hb : b.WellFormed) {a c : Entry} (ha : a ∈ b.roster.entries)
    (hc : c ∈ b.roster.entries) (h : c.weight < a.weight) :
    (b.ranking.map Prod.fst).idxOf a.key < (b.ranking.map Prod.fst).idxOf c.key := by
  have hperm := b.rankedEntries_perm
  have hnodup := hb.nodup_ranking
  rw [map_fst_ranking] at hnodup ⊢
  exact idxOf_key_lt b.heavy_first_rankedEntries hnodup (hperm.mem_iff.mpr ha)
    (hperm.mem_iff.mpr hc) h

/-- The ranking shows a key before another one exactly if its entry is the heavier one. -/
theorem idxOf_ranking_lt_iff (hb : b.WellFormed) {a c : Entry} (ha : a ∈ b.roster.entries)
    (hc : c ∈ b.roster.entries) :
    (b.ranking.map Prod.fst).idxOf a.key < (b.ranking.map Prod.fst).idxOf c.key ↔
      c.weight < a.weight := by
  refine ⟨fun hbefore => ?_, hb.idxOf_ranking_lt ha hc⟩
  rcases lt_trichotomy c.weight a.weight with hlt | heq | hgt
  · exact hlt
  · rw [hb.legal.weight_inj hc ha heq] at hbefore
    exact absurd hbefore (Nat.lt_irrefl _)
  · exact absurd (hb.idxOf_ranking_lt hc ha hgt) (Nat.lt_asymm hbefore)

/-- Ties in a ranking follow a list of keys if of every two entries that tie the younger one stands
first in that list. -/
theorem tiesFollow_ranking (hb : b.WellFormed) {keys : List Key}
    (h : ∀ x ∈ b.roster.entries, ∀ y ∈ b.roster.entries, x.estimate = y.estimate →
      y.seq < x.seq → keys.idxOf x.key < keys.idxOf y.key) : TiesFollow keys b.ranking := by
  have hperm := b.rankedEntries_perm
  have hages : b.rankedEntries.Pairwise fun x y => x.seq ≠ y.seq :=
    List.pairwise_map.mp ((hperm.map Entry.seq).nodup_iff.mpr hb.legal.seqs_nodup)
  refine List.pairwise_map.mpr ?_
  refine List.Pairwise.imp_of_mem ?_ (b.heavy_first_rankedEntries.and hages)
  intro x y hx hy hbefore htie
  have hseq : y.seq ≤ x.seq := by
    have hweight := hbefore.1
    rw [Entry.weight, Entry.weight, Prod.Lex.toLex_le_toLex] at hweight
    have hnat : x.estimate.toNat = y.estimate.toNat := congrArg UInt64.toNat htie
    omega
  exact h x (hperm.mem_iff.mp hx) y (hperm.mem_iff.mp hy) htie
    (Nat.lt_of_le_of_ne hseq (Ne.symm hbefore.2))

/-- After scalings the ties follow the old ranking, if of every two entries that tie then, the
younger one was heavier before. -/
theorem tiesFollow_iterate_decay (hb : b.WellFormed) (scale : UInt64 → UInt64) (n : Nat)
    (h : ∀ a ∈ b.roster.entries, ∀ c ∈ b.roster.entries, ∀ v,
      (a.key, v) ∈ ((Leaderboard.decay scale)^[n] b).ranking →
      (c.key, v) ∈ ((Leaderboard.decay scale)^[n] b).ranking →
      c.seq < a.seq → c.weight < a.weight) :
    TiesFollow (b.ranking.map Prod.fst) ((Leaderboard.decay scale)^[n] b).ranking := by
  obtain ⟨hwf, hmem⟩ := hb.iterate_decay scale n
  refine hwf.tiesFollow_ranking fun x hx y hy htie hseq => ?_
  obtain ⟨a, ha, hakey, haseq⟩ := hmem x hx
  obtain ⟨c, hc, hckey, hcseq⟩ := hmem y hy
  rw [← hakey, ← hckey]
  refine hb.idxOf_ranking_lt ha hc (h a ha c hc x.estimate ?_ ?_ (by omega))
  · rw [hakey]
    exact mem_ranking.mpr ⟨x, hx, rfl⟩
  · rw [hckey, htie]
    exact mem_ranking.mpr ⟨y, hy, rfl⟩

/-- After scalings the ties follow the old ranking, if all of them were ties before. -/
theorem tiesFollow_of_old_ties (hb : b.WellFormed) (scale : UInt64 → UInt64) (n : Nat)
    (h : ∀ x ∈ b.ranking, ∀ y ∈ b.ranking, ∀ v,
      (x.1, v) ∈ ((Leaderboard.decay scale)^[n] b).ranking →
      (y.1, v) ∈ ((Leaderboard.decay scale)^[n] b).ranking → x.2 = y.2) :
    TiesFollow (b.ranking.map Prod.fst) ((Leaderboard.decay scale)^[n] b).ranking := by
  refine hb.tiesFollow_iterate_decay scale n fun a ha c hc v hav hcv hseq => ?_
  have htie : a.estimate = c.estimate :=
    h a.listed (mem_ranking.mpr ⟨a, ha, rfl⟩) c.listed (mem_ranking.mpr ⟨c, hc, rfl⟩) v hav hcv
  exact Entry.lighter_iff_weight.mp (Entry.lighter_iff.mpr (.inr ⟨htie.symm, hseq⟩))

end WellFormed

/-! ### Filled leaderboards -/

/-- The keys that are admitted in turn get rising ages. -/
theorem pairwise_seq_numbered (start : Nat) (listed : List (Key × UInt64)) :
    (numbered start listed).Pairwise fun a c => a.seq < c.seq := by
  induction listed generalizing start with
  | nil => exact .nil
  | cons first rest ih =>
      exact List.pairwise_cons.mpr ⟨fun e he => le_seq_of_mem_numbered he, ih (start + 1)⟩

/-- Where ages rise along a list, the younger of two entries stands later in it. -/
theorem rel_of_seq_lt {R : Entry → Entry → Prop} {entries : List Entry}
    (hages : entries.Pairwise fun a c => a.seq < c.seq) (h : entries.Pairwise R) {a c : Entry}
    (ha : a ∈ entries) (hc : c ∈ entries) (hseq : a.seq < c.seq) : R a c := by
  refine List.Pairwise.forall_of_forall_of_flip (R := fun x y : Entry => x.seq < y.seq → R x y)
    ?_ ?_ ?_ ha hc hseq
  · intro x _ hself
    exact absurd hself (Nat.lt_irrefl _)
  · refine h.imp ?_
    intro x y hxy _
    exact hxy
  · refine hages.imp ?_
    intro x y hxy hyx
    exact absurd hyx (Nat.lt_asymm hxy)

variable {capacity : Nat} {ranking : List (Key × UInt64)}

/-- In a leaderboard that was filled from a ranking the younger of two entries is the heavier
one. -/
theorem weight_lt_of_filled
    (hdescending : ranking.Pairwise fun x y => y.2 ≤ x.2)
    (h : Sketch.admitAll (empty capacity) ranking.reverse = some b) {a c : Entry}
    (ha : a ∈ b.roster.entries) (hc : c ∈ b.roster.entries) (hseq : c.seq < a.seq) :
    c.weight < a.weight := by
  obtain ⟨-, -, hslots⟩ := admitAll_slots (wellFormed_empty capacity) h
  have hentries : b.roster.entries = numbered 0 ranking.reverse := hslots
  rw [hentries] at ha hc
  have hweights := pairwise_weight_numbered (List.pairwise_reverse.mpr hdescending) 0
  have hle : c.weight ≤ a.weight :=
    rel_of_seq_lt (pairwise_seq_numbered 0 ranking.reverse) hweights hc ha hseq
  refine lt_of_le_of_ne hle fun heq => ?_
  exact absurd (Entry.weight_eq_iff.mp heq).2 (Nat.ne_of_lt hseq)

/-- A leaderboard that was filled from a ranking breaks all later ties as that ranking does. -/
theorem tiesFollow_filled (hdescending : ranking.Pairwise fun x y => y.2 ≤ x.2)
    (h : Sketch.admitAll (empty capacity) ranking.reverse = some b) (scale : UInt64 → UInt64)
    (n : Nat) : TiesFollow (ranking.map Prod.fst) ((decay scale)^[n] b).ranking := by
  obtain ⟨hwf, -, -⟩ := admitAll_slots (wellFormed_empty capacity) h
  have hties := hwf.tiesFollow_iterate_decay scale n fun a ha c hc _ _ _ hseq =>
    weight_lt_of_filled hdescending h ha hc hseq
  rwa [ranking_admitAll hdescending h] at hties

/-- Of two leaderboards that show the same keys and estimates one has its ties follow a list of
keys. The other one ranks the same exactly if it does so too. -/
theorem ranking_eq_iff_tiesFollow {keys : List Key} (hperm : b'.ranking.Perm b.ranking)
    (hties : TiesFollow keys b'.ranking) : b'.ranking = b.ranking ↔ TiesFollow keys b.ranking :=
  ⟨fun h => h ▸ hties,
    fun h => eq_of_tiesFollow hperm b'.pairwise_ranking b.pairwise_ranking hties h⟩

/-- Leaderboards that show the same keys and estimates show the same sequence of estimates. -/
theorem map_snd_ranking_of_perm (h : b'.ranking.Perm b.ranking) :
    b'.ranking.map Prod.snd = b.ranking.map Prod.snd :=
  List.Perm.eq_of_pairwise (fun _ _ _ _ hvw hwv => UInt64.le_antisymm hwv hvw)
    (List.pairwise_map.mpr b'.pairwise_ranking) (List.pairwise_map.mpr b.pairwise_ranking)
    (h.map Prod.snd)

end Leaderboard

end FlowSketch
