import FlowSketch.Proofs.Leaderboard.Peaks
import Mathlib.Data.Finset.Card

/-!
# FlowSketch.Proofs.Leaderboard.Standing

**How many peaks a leaderboard shows.** A roster that tracks peaks lists as many keys as have a peak,
or as many as it has room for (`Roster.Tracks.length_eq`). With room for all of them it lists exactly
the keys that have a peak, so what it shows is determined by the peaks and not by the offers that led
to them (`WellFormed.mem_ranking_iff`). Without that room only the keys that tie for the last rank are
open: the sequence of estimates is the same (`WellFormed.map_snd_ranking_eq`).

In particular it does not matter whether a key was offered whenever its count went up, or once and
at the end: offers at the peaks of all keys that have one lead to these peaks (`raiseAll_eq`).
-/

namespace FlowSketch

/-- What reaches a height is above it or at it. -/
theorem countP_le_eq_add_count (estimates : List UInt64) (v : UInt64) :
    estimates.countP (fun w => v ≤ w) = estimates.countP (fun w => v < w) + estimates.count v := by
  induction estimates with
  | nil => rfl
  | cons first rest ih =>
      have hfirst : (if v ≤ first then 1 else 0) =
          (if v < first then 1 else 0) + if first = v then 1 else 0 := by
        simp only [UInt64.le_iff_toNat_le, UInt64.lt_iff_toNat_lt, ← UInt64.toNat_inj]
        split_ifs <;> omega
      simp only [List.countP_cons, List.count_cons, decide_eq_true_eq, beq_iff_eq, ih]
      omega

namespace Roster.Tracks

variable {r : Roster} {M : Peaks} {S : Finset Key} {key : Key}

theorem peak_ne_zero (h : r.Tracks M) (hr : r.Legal) {e : Entry} (he : e ∈ r.entries) :
    M e.key ≠ 0 := by
  rw [← h.listed e he]
  exact hr.positive e he

/-- The keys that are listed, no two of them equal, are among those that have a peak. -/
theorem listed_subset (h : r.Tracks M) (hr : r.Legal) (hS : ∀ key, key ∈ S ↔ M key ≠ 0) :
    (r.entries.map Entry.key).toFinset ⊆ S ∧
      (r.entries.map Entry.key).toFinset.card = r.entries.length := by
  refine ⟨?_, ?_⟩
  · intro key hkey
    obtain ⟨e, he, rfl⟩ := List.mem_map.mp (List.mem_toFinset.mp hkey)
    exact (hS e.key).mpr (h.peak_ne_zero hr he)
  · rw [List.toFinset_card_of_nodup hr.keys_nodup, List.length_map]

/-- A key with a peak that is not listed leaves no room, and is one more than those listed. -/
theorem of_not_listed (h : r.Tracks M) (hr : r.Legal) (hS : ∀ key, key ∈ S ↔ M key ≠ 0)
    (hpeak : M key ≠ 0) (hnew : ∀ e ∈ r.entries, e.key ≠ key) :
    r.entries.length = r.capacity ∧ r.entries.length < S.card := by
  obtain ⟨hsubset, hcard⟩ := h.listed_subset hr hS
  have hproper : (r.entries.map Entry.key).toFinset ⊂ S := by
    refine Finset.ssubset_iff_subset_ne.mpr ⟨hsubset, fun heq => ?_⟩
    have hmem := (hS key).mpr hpeak
    rw [← heq] at hmem
    obtain ⟨e, he, hkey⟩ := List.mem_map.mp (List.mem_toFinset.mp hmem)
    exact hnew e he hkey
  refine ⟨(h.forgotten key hnew hpeak).1, ?_⟩
  rw [← hcard]
  exact Finset.card_lt_card hproper

/-- With room for all keys that have a peak, all of them are listed. -/
theorem exists_entry (h : r.Tracks M) (hr : r.Legal) (hS : ∀ key, key ∈ S ↔ M key ≠ 0)
    (hroom : S.card ≤ r.capacity) (hpeak : M key ≠ 0) : ∃ e ∈ r.entries, e.key = key := by
  by_contra hnone
  have hnew : ∀ e ∈ r.entries, e.key ≠ key := fun e he hkey => hnone ⟨e, he, hkey⟩
  obtain ⟨hfull, hmore⟩ := h.of_not_listed hr hS hpeak hnew
  omega

/-- As many keys are listed as have a peak, or as there is room for. -/
theorem length_eq (h : r.Tracks M) (hr : r.Legal) (hS : ∀ key, key ∈ S ↔ M key ≠ 0) :
    r.entries.length = min r.capacity S.card := by
  obtain ⟨hsubset, hcard⟩ := h.listed_subset hr hS
  have hlength := Finset.card_le_card hsubset
  rw [hcard] at hlength
  have hcapacity := hr.length_le
  by_cases hall : S.card ≤ r.entries.length
  · omega
  · -- a key with a peak is missing from the list
    rw [← hcard] at hall
    obtain ⟨key, hmem, hmissing⟩ := Finset.exists_mem_notMem_of_card_lt_card (Nat.lt_of_not_le hall)
    have hnew : ∀ e ∈ r.entries, e.key ≠ key := fun e he hkey =>
      hmissing (List.mem_toFinset.mpr (List.mem_map.mpr ⟨e, he, hkey⟩))
    have hfull := (h.of_not_listed hr hS ((hS key).mp hmem) hnew).1
    omega

/-! ### Two rosters for the same peaks -/

/-- Of two rosters that track the same peaks, the one with no less room shows no fewer estimates above
any threshold: if it lacks a key that the other one shows there, it is full and shows nothing below
that key's peak. -/
theorem countP_le {r' : Roster} (h : r.Tracks M) (h' : r'.Tracks M) (hr' : r'.Legal)
    (hcapacity : r'.capacity ≤ r.capacity) {test : UInt64 → Bool}
    (hmono : ∀ v w, v ≤ w → test v = true → test w = true) :
    (r'.entries.map Entry.estimate).countP test ≤ (r.entries.map Entry.estimate).countP test := by
  rw [List.countP_map, List.countP_map]
  by_cases hall : ∀ e ∈ r'.entries, test e.estimate = true → ∃ a ∈ r.entries, a.key = e.key
  · -- the keys that the other roster shows above the threshold are shown there by this one too
    have hkeys : (r'.entries.filter (test ∘ Entry.estimate)).map Entry.key ⊆
        (r.entries.filter (test ∘ Entry.estimate)).map Entry.key := by
      intro key hkey
      obtain ⟨e, he, rfl⟩ := List.mem_map.mp hkey
      obtain ⟨hmem, hpasses⟩ := List.mem_filter.mp he
      obtain ⟨a, ha, hsame⟩ := hall e hmem hpasses
      refine List.mem_map.mpr ⟨a, List.mem_filter.mpr ⟨ha, ?_⟩, hsame⟩
      rw [Function.comp_apply, h.listed a ha, hsame, ← h'.listed e hmem]
      exact hpasses
    have hnodup : ((r'.entries.filter (test ∘ Entry.estimate)).map Entry.key).Nodup :=
      hr'.keys_nodup.sublist (List.filter_sublist.map Entry.key)
    have hlength := (List.subperm_of_subset hnodup hkeys).length_le
    rw [List.length_map, List.length_map] at hlength
    rw [List.countP_eq_length_filter, List.countP_eq_length_filter]
    exact hlength
  · obtain ⟨e, he⟩ := not_forall.mp hall
    obtain ⟨hmem, he⟩ := Classical.not_imp.mp he
    obtain ⟨hpasses, hmissing⟩ := Classical.not_imp.mp he
    obtain ⟨hfull, hleast⟩ := h.forgotten e.key (fun a ha hkey => hmissing ⟨a, ha, hkey⟩)
      (h'.peak_ne_zero hr' hmem)
    have hevery : ∀ a ∈ r.entries, (test ∘ Entry.estimate) a = true := by
      intro a ha
      refine hmono e.estimate a.estimate ?_ hpasses
      rw [h'.listed e hmem]
      exact hleast a ha
    calc r'.entries.countP (test ∘ Entry.estimate) ≤ r'.entries.length := List.countP_le_length
      _ ≤ r'.capacity := hr'.length_le
      _ ≤ r.entries.length := hcapacity.trans (Nat.le_of_eq hfull.symm)
      _ = r.entries.countP (test ∘ Entry.estimate) := (List.countP_eq_length.mpr hevery).symm

/-- Rosters of one capacity that track the same peaks show the same estimates. Where keys tie they may
show different ones. -/
theorem estimates_perm {r' : Roster} (h : r.Tracks M) (hr : r.Legal) (h' : r'.Tracks M)
    (hr' : r'.Legal) (hcapacity : r.capacity = r'.capacity) :
    (r.entries.map Entry.estimate).Perm (r'.entries.map Entry.estimate) := by
  have hcount : ∀ test : UInt64 → Bool, (∀ v w, v ≤ w → test v = true → test w = true) →
      (r.entries.map Entry.estimate).countP test =
        (r'.entries.map Entry.estimate).countP test := fun test hmono =>
    Nat.le_antisymm (h'.countP_le h hr (Nat.le_of_eq hcapacity) hmono)
      (h.countP_le h' hr' (Nat.le_of_eq hcapacity.symm) hmono)
  rw [List.perm_iff_count]
  intro v
  have hreach := hcount (fun w => v ≤ w) fun a b hab ha =>
    decide_eq_true (UInt64.le_trans (of_decide_eq_true ha) hab)
  have habove := hcount (fun w => v < w) fun a b hab ha =>
    decide_eq_true (UInt64.lt_of_lt_of_le (of_decide_eq_true ha) hab)
  rw [countP_le_eq_add_count, countP_le_eq_add_count, habove] at hreach
  exact Nat.add_left_cancel hreach

end Roster.Tracks

/-! ### A single offer -/

namespace Roster

/-- What a roster shows of every key, as peaks. -/
def shown (r : Roster) : Peaks := fun key => (r.find? key).elim 0 Entry.estimate

/-- A roster tracks what it shows. -/
theorem Legal.tracks_shown {r : Roster} (hr : r.Legal) : r.Tracks r.shown where
  listed := by
    intro e he
    cases hfind : r.find? e.key with
    | none => exact absurd rfl (Legal.find?_eq_none_iff.mp hfind e he)
    | some found =>
        obtain ⟨hmem, hkey⟩ := Legal.mem_of_find? hfind
        rw [shown, hfind, hr.key_inj he hmem hkey.symm]
        rfl
  forgotten := by
    intro key hnew hpeak
    rw [shown, Legal.find?_eq_none_iff.mpr hnew] at hpeak
    exact absurd rfl hpeak

end Roster

/-- A key that was just offered with a count is listed with no less than that, or the leaderboard is
full of entries with no less than that. -/
theorem Leaderboard.WellFormed.listed_or_full {b : Leaderboard} (hb : b.WellFormed) (key : Key)
    {estimate : UInt64} (hpos : estimate ≠ 0) :
    (∃ e ∈ (b.offer key estimate).2.roster.entries, e.key = key ∧ estimate ≤ e.estimate) ∨
      (b.offer key estimate).2.roster.entries.length = b.capacity ∧
        ∀ e ∈ (b.offer key estimate).2.roster.entries, estimate ≤ e.estimate := by
  have htracks := hb.tracks_offer hb.legal.tracks_shown key estimate
  have hpeak := b.roster.shown.offered_le_raise key estimate
  by_cases hlisted : ∃ e ∈ (b.offer key estimate).2.roster.entries, e.key = key
  · obtain ⟨e, he, hkey⟩ := hlisted
    refine .inl ⟨e, he, hkey, ?_⟩
    rw [htracks.listed e he, hkey]
    exact hpeak
  · have hpeak_ne : b.roster.shown.raise key estimate key ≠ 0 := by
      intro hzero
      rw [hzero] at hpeak
      exact hpos (UInt64.le_zero_iff.mp hpeak)
    obtain ⟨hfull, hleast⟩ := htracks.forgotten key (fun e he hkey => hlisted ⟨e, he, hkey⟩) hpeak_ne
    exact .inr ⟨hfull.trans (hb.capacity_offer key estimate),
      fun e he => UInt64.le_trans hpeak (hleast e he)⟩

/-! ### Offers at the peaks -/

namespace Peaks

/-- Several keys were offered. -/
def raiseAll (M : Peaks) (offers : List (Key × UInt64)) : Peaks :=
  offers.foldl (fun M offered => M.raise offered.1 offered.2) M

/-- Keys that are offered at one height have that height afterwards, if they were not above it. -/
theorem raiseAll_apply {M N : Peaks} {offers : List (Key × UInt64)}
    (hoffers : ∀ x ∈ offers, x.2 = N x.1) {key : Key} (hle : M key ≤ N key) :
    M.raiseAll offers key = if key ∈ offers.map Prod.fst then N key else M key := by
  induction offers generalizing M with
  | nil => rfl
  | cons first rest ih =>
      have hfirst := hoffers first List.mem_cons_self
      have hnext : M.raise first.1 first.2 key =
          if key = first.1 then N key else M key := by
        by_cases hkey : key = first.1
        · subst hkey
          rw [if_pos rfl, hfirst, raise_of_le hle]
        · rw [if_neg hkey, raise_of_ne hkey]
      have hle' : M.raise first.1 first.2 key ≤ N key := by
        rw [hnext]
        split
        · exact UInt64.le_refl _
        · exact hle
      have hrest := ih (fun x hx => hoffers x (List.mem_cons_of_mem _ hx)) hle'
      rw [raiseAll, List.foldl_cons, ← raiseAll, hrest, hnext, List.map_cons]
      by_cases hkey : key = first.1
      · rw [if_pos hkey, ite_self, if_pos (hkey ▸ List.mem_cons_self)]
      · simp only [List.mem_cons, hkey, false_or, if_false]

/-- Offering all keys that have a peak, each at its peak, leads to these peaks. -/
theorem raiseAll_eq {N : Peaks} {offers : List (Key × UInt64)}
    (hoffers : ∀ x ∈ offers, x.2 = N x.1)
    (hall : ∀ key, N key ≠ 0 → key ∈ offers.map Prod.fst) : none.raiseAll offers = N := by
  funext key
  rw [raiseAll_apply hoffers UInt64.zero_le]
  split
  · rfl
  · rename_i hmissing
    by_contra hpeak
    exact hmissing (hall key fun hzero => hpeak hzero.symm)

end Peaks

namespace Leaderboard.WellFormed

variable {b : Leaderboard} {M : Peaks} {S : Finset Key}

theorem tracks_offerAll (hb : b.WellFormed) (h : b.roster.Tracks M)
    (offers : List (Key × UInt64)) : (b.offerAll offers).roster.Tracks (M.raiseAll offers) := by
  unfold Leaderboard.offerAll Peaks.raiseAll
  induction offers generalizing b M with
  | nil => exact h
  | cons first rest ih => exact ih (hb.offer first.1 first.2) (hb.tracks_offer h first.1 first.2)

/-- With room for all keys that have a peak, the ranking shows these keys at their peaks. -/
theorem mem_ranking_iff (hb : b.WellFormed) (h : b.roster.Tracks M)
    (hS : ∀ key, key ∈ S ↔ M key ≠ 0) (hroom : S.card ≤ b.capacity) {x : Key × UInt64} :
    x ∈ b.ranking ↔ M x.1 ≠ 0 ∧ x.2 = M x.1 := by
  rw [mem_ranking]
  constructor
  · intro hx
    obtain ⟨e, he, rfl⟩ := hx
    exact ⟨h.peak_ne_zero hb.legal he, h.listed e he⟩
  · intro hx
    obtain ⟨hpeak, hestimate⟩ := hx
    obtain ⟨e, he, hkey⟩ := h.exists_entry hb.legal hS hroom hpeak
    refine ⟨e, he, Entry.listed_eq_iff.mpr ⟨hkey, ?_⟩⟩
    rw [hestimate, ← hkey]
    exact h.listed e he

/-- Leaderboards of one capacity that track the same peaks rank the same sequence of estimates. -/
theorem map_snd_ranking_eq {b' : Leaderboard} (hb : b.WellFormed) (h : b.roster.Tracks M)
    (hb' : b'.WellFormed) (h' : b'.roster.Tracks M) (hcapacity : b.capacity = b'.capacity) :
    b.ranking.map Prod.snd = b'.ranking.map Prod.snd := by
  have hentries : ∀ b : Leaderboard,
      (b.ranking.map Prod.snd).Perm (b.roster.entries.map Entry.estimate) := by
    intro b
    rw [ranking, List.map_map]
    exact b.rankedEntries_perm.map _
  refine List.Perm.eq_of_pairwise (fun v w _ _ hwv hvw => UInt64.le_antisymm hvw hwv)
    (List.pairwise_map.mpr b.pairwise_ranking) (List.pairwise_map.mpr b'.pairwise_ranking) ?_
  exact (hentries b).trans ((h.estimates_perm hb.legal h' hb'.legal hcapacity).trans
    (hentries b').symm)

end Leaderboard.WellFormed

end FlowSketch
