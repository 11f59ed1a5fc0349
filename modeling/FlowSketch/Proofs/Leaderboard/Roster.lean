import FlowSketch.Leaderboard
import FlowSketch.Numerics
import Mathlib.Data.List.MinMax
import Mathlib.Data.List.Nodup
import Mathlib.Data.Prod.Lex

/-!
# FlowSketch.Proofs.Leaderboard.Roster

**A leaderboard without machinery.** A roster is a plain list of entries: a key is found by search,
the entry to leave is the least of the list, and the ranking sorts the list when it is asked for. It
says what a leaderboard means, without slots, heap or index.

A roster that has grown from the empty one is `Legal`: its keys and its ages are distinct, every
estimate is positive, and there are no more entries than its capacity. Distinct ages make the
weights distinct (`weight_inj`), so the least entry and the ranking leave no choice.
-/

namespace FlowSketch

/-! ### Weights -/

/-- What entries are compared by: the estimate first, then the age. -/
def Entry.weight (e : Entry) : ℕ ×ₗ ℕ :=
  toLex (e.estimate.toNat, e.seq)

namespace Entry

/-- The test for being lighter compares weights. -/
theorem lighter_iff_weight {a b : Entry} : a.lighter b = true ↔ a.weight < b.weight := by
  rw [lighter_iff, weight, weight, Prod.Lex.toLex_lt_toLex, UInt64.lt_iff_toNat_lt,
    ← UInt64.toNat_inj]

theorem lighter_eq_false_iff {a b : Entry} : a.lighter b = false ↔ b.weight ≤ a.weight := by
  rw [← not_lt, ← lighter_iff_weight, Bool.not_eq_true]

theorem ranksBefore_iff_weight {a b : Entry} : a.ranksBefore b = true ↔ b.weight ≤ a.weight := by
  rw [ranksBefore_iff, lighter_iff_weight, not_lt]

/-- Entries of one weight have one estimate and one age. -/
theorem weight_eq_iff {a b : Entry} :
    a.weight = b.weight ↔ a.estimate = b.estimate ∧ a.seq = b.seq := by
  simp [weight, UInt64.toNat_inj]

/-- A larger estimate is a larger weight, whatever the ages. -/
theorem weight_lt_of_estimate {a b : Entry} (h : a.estimate < b.estimate) : a.weight < b.weight :=
  lighter_iff_weight.mp (lighter_iff.mpr (.inl h))

theorem listed_eq_iff {e : Entry} {key : Key} {estimate : UInt64} :
    e.listed = (key, estimate) ↔ e.key = key ∧ e.estimate = estimate :=
  Prod.mk_inj

/-- What weighs no less has no smaller estimate. -/
theorem estimate_le_of_weight {a b : Entry} (h : a.weight ≤ b.weight) : a.estimate ≤ b.estimate :=
  UInt64.not_lt.mp fun hlt => absurd (weight_lt_of_estimate hlt) (not_lt.mpr h)

/-- Between two entries of which one is younger, that one is heavier unless its estimate is
smaller. -/
theorem weight_lt_iff_of_younger {a b : Entry} (h : b.seq < a.seq) :
    b.weight < a.weight ↔ b.estimate ≤ a.estimate := by
  rw [weight, weight, Prod.Lex.toLex_lt_toLex, UInt64.le_iff_toNat_le]
  omega

end Entry

/-! ### Rosters -/

/-- A bounded list of entries, in no particular order. -/
structure Roster where
  capacity : Nat
  entries : List Entry
  /-- The number of admissions so far. -/
  nextSeq : Nat

namespace Roster

/-- The roster without entries. -/
def empty (capacity : Nat) : Roster where
  capacity := capacity
  entries := []
  nextSeq := 0

/-- The entry of a key. -/
def find? (r : Roster) (key : Key) : Option Entry :=
  r.entries.find? fun e => e.key = key

/-- The entry of least weight. -/
def lightest? (r : Roster) : Option Entry :=
  r.entries.argmin Entry.weight

/-- The entry that a key would be admitted with. -/
def newcomer (r : Roster) (key : Key) (estimate : UInt64) : Entry where
  key := key
  estimate := estimate
  seq := r.nextSeq

/-- A listed key only moves up, zero is never admitted, a free place is taken, and otherwise the
lightest entry makes room for a strictly larger estimate. -/
def offer (r : Roster) (key : Key) (estimate : UInt64) : Response × Roster :=
  match r.find? key with
  | some e =>
    if e.estimate < estimate then
      (.raised, { r with
        entries := r.entries.map fun e => if e.key = key then { e with estimate } else e })
    else (.ignored, r)
  | none =>
    if estimate = 0 then (.ignored, r)
    else if r.entries.length < r.capacity then
      (.admitted, { r with
        entries := r.entries ++ [r.newcomer key estimate], nextSeq := r.nextSeq + 1 })
    else
      match r.lightest? with
      | none => (.ignored, r)
      | some least =>
        if least.estimate < estimate then
          (.displaced least.key least.estimate, { r with
            entries := r.entries.map fun e => if e = least then r.newcomer key estimate else e
            nextSeq := r.nextSeq + 1 })
        else (.ignored, r)

/-- Every estimate is scaled, and what comes to zero is dropped. -/
def decay (scale : UInt64 → UInt64) (r : Roster) : Roster :=
  { r with
    entries := (r.entries.map fun e => { e with estimate := scale e.estimate }).filter
      fun e => e.estimate ≠ 0 }

/-- The roster as it was before the first admission. -/
def clear (r : Roster) : Roster :=
  empty r.capacity

/-- The listed keys with their estimates, sorted by estimate and age, both descending. -/
def ranking (r : Roster) : List (Key × UInt64) :=
  (r.entries.mergeSort fun a b => b.weight ≤ a.weight).map Entry.listed

/-! ### Where entries come from -/

/-- After an offer an entry is an old one, or it shows the key at the estimate offered. -/
theorem mem_offer {r : Roster} {key : Key} {estimate : UInt64} {e : Entry}
    (he : e ∈ (r.offer key estimate).2.entries) :
    e ∈ r.entries ∨ e.listed = (key, estimate) := by
  unfold offer at he
  split at he
  · split at he
    · obtain ⟨a, ha, rfl⟩ := List.mem_map.mp he
      by_cases hkey : a.key = key
      · right
        rw [if_pos hkey, Entry.listed, hkey]
      · left
        rwa [if_neg hkey]
    · exact .inl he
  · split at he
    · exact .inl he
    · split at he
      · rcases List.mem_append.mp he with he | he
        · exact .inl he
        · right
          rw [List.mem_singleton.mp he]
          rfl
      · split at he
        · exact .inl he
        · rename_i least _
          split at he
          · obtain ⟨a, ha, rfl⟩ := List.mem_map.mp he
            by_cases hleast : a = least
            · right
              rw [if_pos hleast]
              rfl
            · left
              rwa [if_neg hleast]
          · exact .inl he

theorem capacity_offer (r : Roster) (key : Key) (estimate : UInt64) :
    (r.offer key estimate).2.capacity = r.capacity := by
  unfold offer
  split
  · split <;> rfl
  · split
    · rfl
    · split
      · rfl
      · split
        · rfl
        · split <;> rfl

/-- After scaling an entry is an old one with its estimate scaled. -/
theorem mem_decay {r : Roster} {scale : UInt64 → UInt64} {e : Entry}
    (he : e ∈ (r.decay scale).entries) :
    ∃ a ∈ r.entries, e = { a with estimate := scale a.estimate } := by
  obtain ⟨a, ha, rfl⟩ := List.mem_map.mp (List.mem_of_mem_filter he)
  exact ⟨a, ha, rfl⟩

/-! ### Legal rosters -/

/-- What holds of a roster that has grown from the empty one. -/
structure Legal (r : Roster) : Prop where
  /-- No key is listed twice. -/
  keys_nodup : (r.entries.map Entry.key).Nodup
  /-- No two keys were admitted at one time. -/
  seqs_nodup : (r.entries.map Entry.seq).Nodup
  /-- Every entry was admitted before now. -/
  seq_lt : ∀ e ∈ r.entries, e.seq < r.nextSeq
  /-- Nothing is listed without a count. -/
  positive : ∀ e ∈ r.entries, e.estimate ≠ 0
  /-- No more is listed than there is room for. -/
  length_le : r.entries.length ≤ r.capacity

theorem legal_empty (capacity : Nat) : (empty capacity).Legal where
  keys_nodup := List.nodup_nil
  seqs_nodup := List.nodup_nil
  seq_lt := fun _ he => absurd he List.not_mem_nil
  positive := fun _ he => absurd he List.not_mem_nil
  length_le := Nat.zero_le _

namespace Legal

variable {r : Roster}

theorem key_inj (hr : r.Legal) {a b : Entry} (ha : a ∈ r.entries) (hb : b ∈ r.entries)
    (h : a.key = b.key) : a = b :=
  List.inj_on_of_nodup_map hr.keys_nodup ha hb h

/-- Distinct ages leave no two entries of one weight. -/
theorem weight_inj (hr : r.Legal) {a b : Entry} (ha : a ∈ r.entries) (hb : b ∈ r.entries)
    (h : a.weight = b.weight) : a = b :=
  List.inj_on_of_nodup_map hr.seqs_nodup ha hb (Entry.weight_eq_iff.mp h).2

/-- An entry that no other one is lighter than is the lightest. -/
theorem lightest?_eq (hr : r.Legal) {e : Entry} (he : e ∈ r.entries)
    (hleast : ∀ a ∈ r.entries, e.weight ≤ a.weight) : r.lightest? = some e := by
  have hne : r.lightest? ≠ none := by
    rw [lightest?, ne_eq, List.argmin_eq_none]
    exact List.ne_nil_of_mem he
  obtain ⟨least, hsome⟩ := Option.ne_none_iff_exists'.mp hne
  have hmem : least ∈ r.entries := List.argmin_mem hsome
  have hle : least.weight ≤ e.weight := List.le_of_mem_argmin he hsome
  rw [hsome, hr.weight_inj hmem he (le_antisymm hle (hleast least hmem))]

/-- Distinct weights leave one order from heavy to light. -/
theorem eq_of_heavy_first (hr : r.Legal) {xs ys : List Entry} (hlisted : ∀ e ∈ xs, e ∈ r.entries)
    (hxs : xs.Pairwise fun a b => b.weight ≤ a.weight)
    (hys : ys.Pairwise fun a b => b.weight ≤ a.weight) (hperm : xs.Perm ys) : xs = ys :=
  List.Perm.eq_of_pairwise (fun a b ha hb hab hba => hr.weight_inj (hlisted a ha)
    (hlisted b (hperm.mem_iff.mpr hb)) (le_antisymm hba hab)) hxs hys hperm

/-- Whatever lists the entries from heavy to light is the ranking. -/
theorem ranking_eq (hr : r.Legal) {ranked : List Entry} (hperm : ranked.Perm r.entries)
    (hsorted : ranked.Pairwise fun a b => b.weight ≤ a.weight) :
    r.ranking = ranked.map Entry.listed := by
  have hmerge : (r.entries.mergeSort fun a b => decide (b.weight ≤ a.weight)).Pairwise
      fun a b => b.weight ≤ a.weight := by
    refine List.Pairwise.imp (fun h => of_decide_eq_true h) (List.pairwise_mergeSort ?_ ?_ _)
    · intro a b c hab hbc
      simp only [decide_eq_true_eq] at hab hbc ⊢
      exact le_trans hbc hab
    · intro a b
      simp only [Bool.or_eq_true, decide_eq_true_eq]
      exact le_total b.weight a.weight
  have hmergePerm := List.mergeSort_perm r.entries fun a b => decide (b.weight ≤ a.weight)
  rw [ranking, hr.eq_of_heavy_first (fun e he => hmergePerm.subset he) hmerge hsorted
    (hmergePerm.trans hperm.symm)]

/-! ### What the requests keep -/

theorem find?_eq_none_iff {key : Key} : r.find? key = none ↔ ∀ e ∈ r.entries, e.key ≠ key := by
  simp [find?]

theorem mem_of_find? {key : Key} {e : Entry} (h : r.find? key = some e) :
    e ∈ r.entries ∧ e.key = key :=
  ⟨List.mem_of_find?_eq_some h, by simpa using List.find?_some h⟩

/-- An entry put in the place of another one keeps any feature distinct that no entry shares
with it. -/
theorem nodup_map_replace {β : Type} {feature : Entry → β} {entries : List Entry}
    {old new : Entry} (hnodup : (entries.map feature).Nodup)
    (hfresh : ∀ e ∈ entries, feature e ≠ feature new) :
    ((entries.map fun e => if e = old then new else e).map feature).Nodup := by
  rw [List.map_map]
  refine List.Nodup.map_on ?_ (List.Nodup.of_map feature hnodup)
  intro a ha b hb hab
  simp only [Function.comp_apply] at hab
  by_cases hao : a = old
  · by_cases hbo : b = old
    · rw [hao, hbo]
    · rw [if_pos hao, if_neg hbo] at hab
      exact absurd hab.symm (hfresh b hb)
  · rw [if_neg hao] at hab
    by_cases hbo : b = old
    · rw [if_pos hbo] at hab
      exact absurd hab (hfresh a ha)
    · rw [if_neg hbo] at hab
      exact List.inj_on_of_nodup_map hnodup ha hb hab

/-- A larger estimate for a listed key. -/
theorem raise (hr : r.Legal) {key : Key} {estimate : UInt64} (hpos : estimate ≠ 0) :
    ({ r with
      entries := r.entries.map fun e => if e.key = key then { e with estimate } else e } :
      Roster).Legal where
  keys_nodup := by
    have hkeys : Entry.key ∘ (fun e : Entry => if e.key = key then { e with estimate } else e) =
        Entry.key := by
      funext e
      simp only [Function.comp_apply]
      split <;> rfl
    rw [List.map_map, hkeys]
    exact hr.keys_nodup
  seqs_nodup := by
    have hseqs : Entry.seq ∘ (fun e : Entry => if e.key = key then { e with estimate } else e) =
        Entry.seq := by
      funext e
      simp only [Function.comp_apply]
      split <;> rfl
    rw [List.map_map, hseqs]
    exact hr.seqs_nodup
  seq_lt := by
    intro e he
    obtain ⟨a, ha, rfl⟩ := List.mem_map.mp he
    have hlt := hr.seq_lt a ha
    split <;> exact hlt
  positive := by
    intro e he
    obtain ⟨a, ha, rfl⟩ := List.mem_map.mp he
    split
    · exact hpos
    · exact hr.positive a ha
  length_le := by
    rw [List.length_map]
    exact hr.length_le

/-- A key that was not listed takes a free place. -/
theorem append (hr : r.Legal) {key : Key} {estimate : UInt64} (hpos : estimate ≠ 0)
    (hnew : r.find? key = none) (hroom : r.entries.length < r.capacity) :
    ({ r with
      entries := r.entries ++ [r.newcomer key estimate], nextSeq := r.nextSeq + 1 } :
      Roster).Legal where
  keys_nodup := by
    rw [List.map_append, List.map_singleton]
    refine List.Nodup.append hr.keys_nodup (List.nodup_singleton _) ?_
    rw [List.disjoint_singleton]
    intro hmem
    obtain ⟨e, he, hkey⟩ := List.mem_map.mp hmem
    exact find?_eq_none_iff.mp hnew e he hkey
  seqs_nodup := by
    rw [List.map_append, List.map_singleton]
    refine List.Nodup.append hr.seqs_nodup (List.nodup_singleton _) ?_
    rw [List.disjoint_singleton]
    intro hmem
    obtain ⟨e, he, hseq⟩ := List.mem_map.mp hmem
    exact absurd hseq (Nat.ne_of_lt (hr.seq_lt e he))
  seq_lt := by
    intro e he
    rcases List.mem_append.mp he with he | he
    · exact Nat.lt_succ_of_lt (hr.seq_lt e he)
    · rw [List.mem_singleton.mp he]
      exact Nat.lt_succ_self r.nextSeq
  positive := by
    intro e he
    rcases List.mem_append.mp he with he | he
    · exact hr.positive e he
    · rw [List.mem_singleton.mp he]
      exact hpos
  length_le := by
    rw [List.length_append, List.length_singleton]
    exact hroom

/-- A key that was not listed takes the place of another one. -/
theorem replace (hr : r.Legal) {key : Key} {estimate : UInt64} {old : Entry} (hpos : estimate ≠ 0)
    (hnew : r.find? key = none) :
    ({ r with
      entries := r.entries.map fun e => if e = old then r.newcomer key estimate else e
      nextSeq := r.nextSeq + 1 } : Roster).Legal where
  keys_nodup := nodup_map_replace hr.keys_nodup (find?_eq_none_iff.mp hnew)
  seqs_nodup := nodup_map_replace hr.seqs_nodup fun e he => Nat.ne_of_lt (hr.seq_lt e he)
  seq_lt := by
    intro e he
    obtain ⟨a, ha, rfl⟩ := List.mem_map.mp he
    split
    · exact Nat.lt_succ_self r.nextSeq
    · exact Nat.lt_succ_of_lt (hr.seq_lt a ha)
  positive := by
    intro e he
    obtain ⟨a, ha, rfl⟩ := List.mem_map.mp he
    split
    · exact hpos
    · exact hr.positive a ha
  length_le := by
    rw [List.length_map]
    exact hr.length_le

theorem decay (hr : r.Legal) (scale : UInt64 → UInt64) : (r.decay scale).Legal := by
  have hkeys : Entry.key ∘ (fun e : Entry => { e with estimate := scale e.estimate }) =
      Entry.key := rfl
  have hseqs : Entry.seq ∘ (fun e : Entry => { e with estimate := scale e.estimate }) =
      Entry.seq := rfl
  refine ⟨?_, ?_, ?_, ?_, ?_⟩
  · refine List.Nodup.sublist (List.filter_sublist.map Entry.key) ?_
    rw [List.map_map, hkeys]
    exact hr.keys_nodup
  · refine List.Nodup.sublist (List.filter_sublist.map Entry.seq) ?_
    rw [List.map_map, hseqs]
    exact hr.seqs_nodup
  · intro e he
    obtain ⟨a, ha, rfl⟩ := List.mem_map.mp (List.mem_of_mem_filter he)
    exact hr.seq_lt a ha
  · intro e he
    exact of_decide_eq_true (List.mem_filter.mp he).2
  · refine Nat.le_trans (List.length_filter_le _ _) ?_
    rw [List.length_map]
    exact hr.length_le

end Legal

end Roster

end FlowSketch
