import FlowSketch.Proofs.Leaderboard.Ageing
import FlowSketch.Proofs.Leaderboard.Standing

/-!
# FlowSketch.Proofs.Leaderboard.Rebuild

**Building a leaderboard anew from two lists of offers.** Keys that are offered to an empty
leaderboard with room for all of them are admitted in the order of the offers, except those that are
offered at zero (`admitAll_offerAll`). So their ages follow that order.

A second list may displace some of them. It does not renew any: an offer that is not above the peak of
its key changes nothing (`Roster.Tracks.offer_eq_self`), so a key that was displaced stays out, and the
entry of a key of the first list is the one it got then (`mem_of_offered`). Among the keys of the first
list that tie in the end, the one that was offered later ranks first (`idxOf_lt_of_offered`).
-/

namespace FlowSketch

open Sketch (admitAll)

/-! ### Offers that change nothing -/

/-- An offer that is not above the peak of its key changes nothing, whether the key is listed, was
forgotten or has no peak at all. -/
theorem Roster.Tracks.offer_eq_self {r : Roster} {M : Peaks} {key : Key} {estimate : UInt64}
    (h : r.Tracks M) (hle : estimate ≤ M key) : (r.offer key estimate).2 = r := by
  unfold Roster.offer
  split
  · rename_i e hfind
    obtain ⟨hmem, rfl⟩ := Legal.mem_of_find? hfind
    rw [if_neg]
    rw [UInt64.not_lt, h.listed e hmem]
    exact hle
  · rename_i hfind
    have hnew := Legal.find?_eq_none_iff.mp hfind
    split
    · rfl
    · rename_i hpos
      have hpeak : M key ≠ 0 := by
        intro hzero
        rw [hzero] at hle
        exact hpos (UInt64.le_zero_iff.mp hle)
      -- the key was forgotten, so the roster is full and shows nothing below the peak
      obtain ⟨hfull, hleast⟩ := h.forgotten key hnew hpeak
      rw [if_neg (Nat.not_lt.mpr (Nat.le_of_eq hfull.symm))]
      split
      · rfl
      · rename_i least hsome
        rw [if_neg]
        exact UInt64.not_lt.mpr (UInt64.le_trans hle (hleast least (List.argmin_mem hsome)))

namespace Leaderboard

variable {b filled : Leaderboard} {M : Peaks}

theorem WellFormed.roster_offer_eq_self (hb : b.WellFormed) (h : b.roster.Tracks M) {key : Key}
    {estimate : UInt64} (hle : estimate ≤ M key) : (b.offer key estimate).2.roster = b.roster := by
  have hoffer := h.offer_eq_self hle
  rwa [hb.roster_offer] at hoffer

/-- Offers that are not above the peak of a key give it no new entry. -/
theorem WellFormed.mem_of_offerAll (hb : b.WellFormed) (h : b.roster.Tracks M)
    {offers : List (Key × UInt64)} {e : Entry} (he : e ∈ (b.offerAll offers).roster.entries)
    (hle : ∀ x ∈ offers, x.1 = e.key → x.2 ≤ M e.key) : e ∈ b.roster.entries := by
  induction offers generalizing b M with
  | nil => exact he
  | cons first rest ih =>
      have hnext : e ∈ (b.offer first.1 first.2).2.roster.entries := by
        refine ih (hb.offer first.1 first.2) (hb.tracks_offer h first.1 first.2) he ?_
        intro x hx hkey
        exact UInt64.le_trans (hle x (List.mem_cons_of_mem _ hx) hkey) (M.le_raise _ _ _)
      by_cases hkey : first.1 = e.key
      · rwa [hb.roster_offer_eq_self h (hkey ▸ hle first List.mem_cons_self hkey)] at hnext
      · rcases hb.mem_offer hnext with hold | hlisted
        · exact hold
        · exact absurd (Entry.listed_eq_iff.mp hlisted).1.symm hkey

/-! ### The first list -/

/-- Distinct new keys that are offered with room for all of them are admitted, except those that are
offered at zero. -/
theorem admitAll_offerAll {listed : List (Key × UInt64)} (hnodup : (listed.map Prod.fst).Nodup)
    (hnew : ∀ x ∈ listed, b.index[x.1]? = none)
    (hroom : b.slots.size + listed.length ≤ b.capacity) :
    admitAll b (listed.filter fun x => x.2 ≠ 0) = some (b.offerAll listed) := by
  induction listed generalizing b with
  | nil => rfl
  | cons first rest ih =>
      obtain ⟨hfirst, hrest⟩ := List.nodup_cons.mp hnodup
      have hindex := hnew first List.mem_cons_self
      have hlength : b.slots.size + (rest.length + 1) ≤ b.capacity := hroom
      have hnewRest : ∀ x ∈ rest, b.index[x.1]? = none := fun x hx =>
        hnew x (List.mem_cons_of_mem _ hx)
      show _ = some ((b.offer first.1 first.2).2.offerAll rest)
      by_cases hzero : first.2 = 0
      · have hignored : (b.offer first.1 first.2).2 = b := by
          simp only [offer, hindex]
          rw [if_pos hzero]
        rw [hignored, List.filter_cons_of_neg (by simp [hzero])]
        exact ih hrest hnewRest (by omega)
      · have hoffer := offer_fresh hindex hzero (by omega)
        rw [List.filter_cons_of_pos (by simp [hzero]), admitAll]
        simp only [hoffer]
        refine ih hrest (fun x hx => index_enlist_of_ne ?_ (hnewRest x hx)) ?_
        · intro hkey
          exact hfirst (hkey ▸ List.mem_map_of_mem hx)
        · simp only [enlist, Array.size_push]
          omega

/-- If the keys of a list stand in some relation, each to all later ones, then the entries that the
list leads to do so by age. -/
theorem rel_of_offered {R : Key → Key → Prop} {listed : List (Key × UInt64)} {capacity : Nat}
    (h : listed.Pairwise fun x y => R x.1 y.1) (hnodup : (listed.map Prod.fst).Nodup)
    (hroom : listed.length ≤ capacity) {a c : Entry}
    (ha : a ∈ ((empty capacity).offerAll listed).roster.entries)
    (hc : c ∈ ((empty capacity).offerAll listed).roster.entries) (hseq : a.seq < c.seq) :
    R a.key c.key := by
  have hadmitted : admitAll (empty capacity) (listed.filter fun x => x.2 ≠ 0) =
      some ((empty capacity).offerAll listed) :=
    admitAll_offerAll hnodup (fun x _ => rfl) (by simpa [empty] using hroom)
  obtain ⟨-, -, hslots⟩ := admitAll_slots (wellFormed_empty capacity) hadmitted
  have hentries : ((empty capacity).offerAll listed).roster.entries =
      numbered 0 (listed.filter fun x => x.2 ≠ 0) := hslots
  rw [hentries] at ha hc
  refine rel_of_seq_lt (R := fun x y : Entry => R x.key y.key) (pairwise_seq_numbered 0 _) ?_ ha hc
    hseq
  rw [← List.pairwise_map (f := Entry.key), map_key_numbered, List.pairwise_map]
  exact h.filter _

/-! ### Both lists -/

/-- If both lists are offered at heights that depend on the key alone, the entry of a key of the first
list dates from that list. -/
theorem mem_of_offered {first second : List (Key × UInt64)} {capacity : Nat} {N : Peaks}
    (hfirst : ∀ x ∈ first, x.2 = N x.1) (hsecond : ∀ x ∈ second, x.2 = N x.1) {e : Entry}
    (hkey : e.key ∈ first.map Prod.fst)
    (he : e ∈ ((empty capacity).offerAll (first ++ second)).roster.entries) :
    e ∈ ((empty capacity).offerAll first).roster.entries := by
  have hempty := wellFormed_empty capacity
  have htracks := hempty.tracks_offerAll (Roster.tracks_empty capacity) first
  rw [offerAll, List.foldl_append] at he
  refine (hempty.offerAll first).1.mem_of_offerAll htracks he fun offered hoffered hsame => ?_
  rw [Peaks.raiseAll_apply hfirst UInt64.zero_le, if_pos hkey, hsecond offered hoffered, hsame]
  exact UInt64.le_refl _

/-- Two lists of offers are made to an empty leaderboard, the keys of the first one distinct and with
room for all of them, and both at heights that depend on the key alone. If two keys of the first list
tie in the end, then the one that was offered later ranks first. -/
theorem idxOf_lt_of_offered {R : Key → Key → Prop} {first second : List (Key × UInt64)}
    {capacity : Nat} {N : Peaks} (hR : ∀ x y, R x y → ¬ R y x) (h : first.Pairwise fun x y => R x.1 y.1)
    (hnodup : (first.map Prod.fst).Nodup) (hroom : first.length ≤ capacity)
    (hfirst : ∀ x ∈ first, x.2 = N x.1) (hsecond : ∀ x ∈ second, x.2 = N x.1) {earlier later : Key}
    {v : UInt64} (hearlier : earlier ∈ first.map Prod.fst) (hlater : later ∈ first.map Prod.fst)
    (hrel : R earlier later)
    (hv : (earlier, v) ∈ ((empty capacity).offerAll (first ++ second)).ranking)
    (hv' : (later, v) ∈ ((empty capacity).offerAll (first ++ second)).ranking) :
    (((empty capacity).offerAll (first ++ second)).ranking.map Prod.fst).idxOf later <
      (((empty capacity).offerAll (first ++ second)).ranking.map Prod.fst).idxOf earlier := by
  obtain ⟨hwf, -, -⟩ := (wellFormed_empty capacity).offerAll (first ++ second)
  obtain ⟨x, hx, hxlisted⟩ := mem_ranking.mp hv
  obtain ⟨y, hy, hylisted⟩ := mem_ranking.mp hv'
  obtain ⟨rfl, hxv⟩ := Entry.listed_eq_iff.mp hxlisted
  obtain ⟨rfl, hyv⟩ := Entry.listed_eq_iff.mp hylisted
  have hxOld := mem_of_offered hfirst hsecond hearlier hx
  have hyOld := mem_of_offered hfirst hsecond hlater hy
  have hages : x.seq < y.seq := by
    rcases Nat.lt_trichotomy x.seq y.seq with hlt | heq | hgt
    · exact hlt
    · have hsame := List.inj_on_of_nodup_map hwf.legal.seqs_nodup hx hy heq
      rw [hsame] at hrel
      exact absurd hrel (hR _ _ hrel)
    · exact absurd (rel_of_offered h hnodup hroom hyOld hxOld hgt) (hR _ _ hrel)
  refine hwf.idxOf_ranking_lt hy hx ?_
  exact Entry.lighter_iff_weight.mp (Entry.lighter_iff.mpr (.inr ⟨hxv.trans hyv.symm, hages⟩))

end Leaderboard

end FlowSketch
