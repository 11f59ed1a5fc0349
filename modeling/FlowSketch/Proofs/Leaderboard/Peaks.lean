import FlowSketch.Proofs.Leaderboard.Refinement

/-!
# FlowSketch.Proofs.Leaderboard.Peaks

**What a leaderboard has forgotten does not matter.** Beside a leaderboard we keep a map without
bounds (`Peaks`): for every key there is, the largest estimate it was offered at, scaled whenever
the leaderboard is. A leaderboard has room for few of these keys, but what it shows is what the map
says, and a key that it does not show is not above the lightest entry (`after_shows_peaks`).

The invariant is `Roster.Tracks`. Of a key that is not listed it says that its peak is zero, or that
the roster is full and no entry is below that peak. An offer keeps it, since the lightest estimate
only rises while keys come and go. A scaling keeps it too: where it drops an entry and so makes
room, every forgotten peak, being no larger, comes to zero with that entry.
-/

namespace FlowSketch

/-- Scaling keeps counts in their order and leaves zero alone, whatever the factor. -/
structure Numerics.ScalesInOrder (num : Numerics) : Prop where
  zero : ∀ factor, num.scale factor 0 = 0
  mono : ∀ factor v w, v ≤ w → num.scale factor v ≤ num.scale factor w

/-! ### Peaks -/

/-- The largest estimate of every key. -/
abbrev Peaks := Key → UInt64

namespace Peaks

/-- Nothing was offered yet. -/
def none : Peaks := fun _ => 0

/-- A key was offered at an estimate. -/
def raise (M : Peaks) (key : Key) (estimate : UInt64) : Peaks := fun other =>
  if other = key then max (M other) estimate else M other

/-- What a request to the leaderboard does to the peaks. -/
def respond (num : Numerics) (M : Peaks) : Request → Peaks
  | .offer key estimate => M.raise key estimate
  | .decay factor => fun key => num.scale factor (M key)
  | .clear => none

/-- The peaks after some requests in turn. -/
def after (num : Numerics) (M : Peaks) (requests : List Request) : Peaks :=
  requests.foldl (respond num) M

variable {M : Peaks} {key other : Key} {estimate : UInt64}

theorem raise_of_ne (h : other ≠ key) : M.raise key estimate other = M other :=
  if_neg h

theorem raise_self (M : Peaks) (key : Key) (estimate : UInt64) :
    M.raise key estimate key = if M key ≤ estimate then estimate else M key := by
  rw [raise, if_pos rfl, UInt64.max_def]

theorem raise_of_le (h : M key ≤ estimate) : M.raise key estimate key = estimate := by
  rw [raise_self, if_pos h]

/-- An offer lowers no peak. -/
theorem le_raise (M : Peaks) (key : Key) (estimate : UInt64) (other : Key) :
    M other ≤ M.raise key estimate other := by
  by_cases hother : other = key
  · subst hother
    rw [raise_self]
    split
    · rename_i hle
      exact hle
    · exact UInt64.le_refl _
  · rw [raise_of_ne hother]
    exact UInt64.le_refl _

/-- The peak of a key is not below what it was last offered at. -/
theorem offered_le_raise (M : Peaks) (key : Key) (estimate : UInt64) :
    estimate ≤ M.raise key estimate key := by
  rw [raise_self]
  split
  · exact UInt64.le_refl _
  · rename_i hnot
    exact UInt64.le_of_lt (UInt64.not_le.mp hnot)

/-- An offer that is not above the peak changes no peak. -/
theorem raise_eq_self (h : estimate ≤ M key) : M.raise key estimate = M := by
  funext other
  by_cases hother : other = key
  · subst hother
    rw [raise_self]
    split
    · rename_i hle
      exact UInt64.le_antisymm h hle
    · rfl
  · exact raise_of_ne hother

end Peaks

/-! ### Rosters that track peaks -/

namespace Roster

/-- Entries show the peaks of their keys, and the peak of a key without an entry is zero or not above
any entry of a full roster. -/
structure Tracks (r : Roster) (M : Peaks) : Prop where
  listed : ∀ e ∈ r.entries, e.estimate = M e.key
  forgotten : ∀ key, (∀ e ∈ r.entries, e.key ≠ key) → M key ≠ 0 →
    r.entries.length = r.capacity ∧ ∀ e ∈ r.entries, M key ≤ e.estimate

theorem tracks_empty (capacity : Nat) : (empty capacity).Tracks .none where
  listed := fun _ he => absurd he List.not_mem_nil
  forgotten := fun _ _ hpeak => absurd rfl hpeak

namespace Tracks

variable {r : Roster} {M : Peaks} {key : Key} {estimate : UInt64}

/-! ### One offer -/

/-- A listed key is given a larger estimate. -/
theorem raise (h : r.Tracks M) (hle : ∀ e ∈ r.entries, e.key = key → e.estimate ≤ estimate)
    (hlisted : ∃ e ∈ r.entries, e.key = key) :
    ({ r with
      entries := r.entries.map fun e => if e.key = key then { e with estimate } else e } :
      Roster).Tracks (M.raise key estimate) := by
  refine ⟨?_, ?_⟩
  · intro e he
    obtain ⟨a, ha, rfl⟩ := List.mem_map.mp he
    by_cases hkey : a.key = key
    · have hpeak : M key ≤ estimate := by
        rw [← hkey, ← h.listed a ha]
        exact hle a ha hkey
      simp only [hkey]
      exact (Peaks.raise_of_le hpeak).symm
    · simp only [if_neg hkey]
      rw [Peaks.raise_of_ne hkey]
      exact h.listed a ha
  · intro other hother hpeak
    have hmem : ∀ a ∈ r.entries, a.key ≠ other := by
      intro a ha
      have hne := hother _ (List.mem_map_of_mem ha)
      split at hne <;> exact hne
    have hne : other ≠ key := by
      obtain ⟨a, ha, hkey⟩ := hlisted
      exact fun heq => hmem a ha (hkey.trans heq.symm)
    rw [Peaks.raise_of_ne hne] at hpeak ⊢
    obtain ⟨hfull, hleast⟩ := h.forgotten other hmem hpeak
    refine ⟨by rw [List.length_map]; exact hfull, ?_⟩
    intro e he
    obtain ⟨a, ha, rfl⟩ := List.mem_map.mp he
    split
    · rename_i hkey
      exact UInt64.le_trans (hleast a ha) (hle a ha hkey)
    · exact hleast a ha

/-- While there is room, no peak is forgotten. -/
theorem peak_eq_zero (h : r.Tracks M) (hroom : r.entries.length < r.capacity)
    (hnew : ∀ e ∈ r.entries, e.key ≠ key) : M key = 0 := by
  by_contra hpeak
  exact Nat.ne_of_lt hroom (h.forgotten key hnew hpeak).1

/-- A key that was not listed takes a free place. -/
theorem append (h : r.Tracks M) (hroom : r.entries.length < r.capacity)
    (hnew : ∀ e ∈ r.entries, e.key ≠ key) :
    ({ r with
      entries := r.entries ++ [r.newcomer key estimate], nextSeq := r.nextSeq + 1 } :
      Roster).Tracks (M.raise key estimate) := by
  refine ⟨?_, ?_⟩
  · intro e he
    rcases List.mem_append.mp he with he | he
    · rw [Peaks.raise_of_ne (hnew e he)]
      exact h.listed e he
    · rw [List.mem_singleton.mp he]
      refine (Peaks.raise_of_le ?_).symm
      rw [h.peak_eq_zero hroom hnew]
      exact UInt64.zero_le
  · intro other hother hpeak
    have hne : other ≠ key := fun heq =>
      hother (r.newcomer key estimate) (List.mem_append_right _ List.mem_cons_self) heq.symm
    rw [Peaks.raise_of_ne hne] at hpeak
    exact absurd (h.peak_eq_zero hroom fun e he => hother e (List.mem_append_left _ he)) hpeak

/-- A key that was not listed does not get in. -/
theorem ignore (h : r.Tracks M) (hfull : r.entries.length = r.capacity)
    (hnew : ∀ e ∈ r.entries, e.key ≠ key) (hle : ∀ e ∈ r.entries, estimate ≤ e.estimate) :
    r.Tracks (M.raise key estimate) := by
  refine ⟨?_, ?_⟩
  · intro e he
    rw [Peaks.raise_of_ne (hnew e he)]
    exact h.listed e he
  · intro other hother hpeak
    refine ⟨hfull, fun e he => ?_⟩
    by_cases hne : other = key
    · subst hne
      rw [Peaks.raise_self]
      split
      · exact hle e he
      · rename_i hpeak'
        refine (h.forgotten other hother fun hzero => hpeak' ?_).2 e he
        rw [hzero]
        exact UInt64.zero_le
    · rw [Peaks.raise_of_ne hne] at hpeak ⊢
      exact (h.forgotten other hother hpeak).2 e he

/-- A key that was not listed takes the place of the lightest entry. What is forgotten with that
entry is its estimate, and no other one is below it. -/
theorem replace (h : r.Tracks M) (hfull : r.entries.length = r.capacity)
    (hnew : ∀ e ∈ r.entries, e.key ≠ key) {least : Entry} (hmem : least ∈ r.entries)
    (hleast : ∀ e ∈ r.entries, least.estimate ≤ e.estimate) (hlt : least.estimate < estimate) :
    ({ r with
      entries := r.entries.map fun e => if e = least then r.newcomer key estimate else e
      nextSeq := r.nextSeq + 1 } : Roster).Tracks (M.raise key estimate) := by
  refine ⟨?_, ?_⟩
  · intro e he
    obtain ⟨a, ha, rfl⟩ := List.mem_map.mp he
    by_cases heq : a = least
    · have hpeak : M key ≤ estimate := by
        by_cases hzero : M key = 0
        · rw [hzero]
          exact UInt64.zero_le
        · exact UInt64.le_trans ((h.forgotten key hnew hzero).2 least hmem) (UInt64.le_of_lt hlt)
      rw [if_pos heq]
      exact (Peaks.raise_of_le hpeak).symm
    · rw [if_neg heq, Peaks.raise_of_ne (hnew a ha)]
      exact h.listed a ha
  · intro other hother hpeak
    have hne : other ≠ key := by
      intro heq
      refine hother _ (List.mem_map_of_mem hmem) ?_
      rw [if_pos rfl]
      exact heq.symm
    rw [Peaks.raise_of_ne hne] at hpeak ⊢
    -- the key was forgotten before, or it has just been displaced
    have hpeakLe : M other ≤ least.estimate := by
      by_cases hkey : least.key = other
      · rw [← hkey, h.listed least hmem]
        exact UInt64.le_refl _
      · refine (h.forgotten other (fun a ha hother' => ?_) hpeak).2 least hmem
        have hne' : a ≠ least := fun heq => hkey (heq ▸ hother')
        refine hother _ (List.mem_map_of_mem ha) ?_
        rw [if_neg hne']
        exact hother'
    refine ⟨by rw [List.length_map]; exact hfull, ?_⟩
    intro e he
    obtain ⟨a, ha, rfl⟩ := List.mem_map.mp he
    split
    · exact UInt64.le_trans hpeakLe (UInt64.le_of_lt hlt)
    · exact UInt64.le_trans hpeakLe (hleast a ha)

theorem offer (h : r.Tracks M) (hr : r.Legal) (key : Key) (estimate : UInt64) :
    (r.offer key estimate).2.Tracks (M.raise key estimate) := by
  unfold Roster.offer
  split
  · rename_i e hfind
    obtain ⟨hmem, hkey⟩ := Legal.mem_of_find? hfind
    split
    · rename_i hlt
      refine h.raise (fun a ha hkey' => ?_) ⟨e, hmem, hkey⟩
      rw [hr.key_inj ha hmem (hkey'.trans hkey.symm)]
      exact UInt64.le_of_lt hlt
    · rename_i hle
      rw [Peaks.raise_eq_self]
      · exact h
      · rw [← hkey, ← h.listed e hmem]
        exact UInt64.not_lt.mp hle
  · rename_i hfind
    have hnew := Legal.find?_eq_none_iff.mp hfind
    split
    · rename_i hzero
      rw [Peaks.raise_eq_self]
      · exact h
      · rw [hzero]
        exact UInt64.zero_le
    · split
      · rename_i hroom
        exact h.append hroom hnew
      · rename_i hroom
        have hfull : r.entries.length = r.capacity :=
          Nat.le_antisymm hr.length_le (Nat.le_of_not_lt hroom)
        split
        · rename_i hnone
          have hnil : r.entries = [] := List.argmin_eq_none.mp hnone
          refine h.ignore hfull hnew fun e he => ?_
          rw [hnil] at he
          cases he
        · rename_i least hsome
          have hmem : least ∈ r.entries := List.argmin_mem hsome
          have hleast : ∀ e ∈ r.entries, least.estimate ≤ e.estimate := fun e he =>
            Entry.estimate_le_of_weight (List.le_of_mem_argmin he hsome)
          split
          · rename_i hlt
            exact h.replace hfull hnew hmem hleast hlt
          · rename_i hle
            exact h.ignore hfull hnew fun e he =>
              UInt64.le_trans (UInt64.not_lt.mp hle) (hleast e he)

/-! ### One scaling -/

theorem decay (h : r.Tracks M) {scale : UInt64 → UInt64}
    (hmono : ∀ v w, v ≤ w → scale v ≤ scale w) (hzero : scale 0 = 0) :
    (r.decay scale).Tracks fun key => scale (M key) := by
  refine ⟨?_, ?_⟩
  · intro e he
    obtain ⟨a, ha, rfl⟩ := mem_decay he
    exact congrArg scale (h.listed a ha)
  · intro key hkey hpeak
    have hold : M key ≠ 0 := by
      intro hpeakZero
      rw [hpeakZero] at hpeak
      exact hpeak hzero
    have hnonzero : ∀ a ∈ r.entries, M key ≤ a.estimate → scale a.estimate ≠ 0 := by
      intro a _ hle hdropped
      have hle' := hmono _ _ hle
      rw [hdropped] at hle'
      exact hpeak (UInt64.le_zero_iff.mp hle')
    -- an entry of the key would have survived, so there was none
    have hforgotten : ∀ a ∈ r.entries, a.key ≠ key := by
      intro a ha heq
      refine hkey { a with estimate := scale a.estimate } ?_ heq
      refine List.mem_filter.mpr ⟨List.mem_map_of_mem ha, decide_eq_true (hnonzero a ha ?_)⟩
      rw [h.listed a ha, heq]
      exact UInt64.le_refl _
    obtain ⟨hfull, hleast⟩ := h.forgotten key hforgotten hold
    -- the forgotten peak survives, and so does every entry, none of which is below it
    have hkept : (r.decay scale).entries =
        r.entries.map fun e => { e with estimate := scale e.estimate } := by
      refine List.filter_eq_self.mpr fun e he => ?_
      obtain ⟨a, ha, rfl⟩ := List.mem_map.mp he
      exact decide_eq_true (hnonzero a ha (hleast a ha))
    rw [hkept]
    refine ⟨by rw [List.length_map]; exact hfull, ?_⟩
    intro e he
    obtain ⟨a, ha, rfl⟩ := List.mem_map.mp he
    exact hmono _ _ (hleast a ha)

end Tracks

end Roster

/-! ### Many requests -/

namespace Leaderboard

/-- The leaderboard after some requests in turn. -/
def after (num : Numerics) (b : Leaderboard) (requests : List Request) : Leaderboard :=
  requests.foldl (fun b request => (b.respond num request).2) b

variable {b : Leaderboard} {M : Peaks} {num : Numerics}

theorem WellFormed.tracks_offer (hb : b.WellFormed) (h : b.roster.Tracks M) (key : Key)
    (estimate : UInt64) : (b.offer key estimate).2.roster.Tracks (M.raise key estimate) := by
  have hoffer := h.offer hb.legal key estimate
  rwa [hb.roster_offer] at hoffer

theorem WellFormed.tracks_respond (hb : b.WellFormed) (hscale : num.ScalesInOrder)
    (h : b.roster.Tracks M) (request : Request) :
    (b.respond num request).2.roster.Tracks (M.respond num request) := by
  cases request with
  | offer key estimate => exact hb.tracks_offer h key estimate
  | decay factor =>
      show (b.decay _).roster.Tracks _
      rw [WellFormed.roster_decay]
      exact h.decay (hscale.mono factor) (hscale.zero factor)
  | clear => exact Roster.tracks_empty b.capacity

/-- A run of requests keeps the machinery and the capacity. -/
theorem WellFormed.after (hb : b.WellFormed) (num : Numerics) (requests : List Request) :
    (b.after num requests).WellFormed ∧ (b.after num requests).capacity = b.capacity := by
  induction requests generalizing b with
  | nil => exact ⟨hb, rfl⟩
  | cons request requests ih =>
      obtain ⟨hwf, hcapacity⟩ := ih (hb.respond num request)
      exact ⟨hwf, hcapacity.trans (hb.capacity_respond num request)⟩

theorem WellFormed.tracks_after (hb : b.WellFormed)
    (hscale : num.ScalesInOrder) (h : b.roster.Tracks M) (requests : List Request) :
    (b.after num requests).WellFormed ∧
      (b.after num requests).roster.Tracks (M.after num requests) ∧
      (b.after num requests).capacity = b.capacity := by
  refine ⟨(hb.after num requests).1, ?_, (hb.after num requests).2⟩
  induction requests generalizing b M with
  | nil => exact h
  | cons request requests ih =>
      exact ih (hb.respond num request) (hb.tracks_respond hscale h request)

/-- The least listed estimate, as soon as something is listed. -/
theorem WellFormed.exists_minEstimate (hb : b.WellFormed) (hne : b.size ≠ 0) :
    ∃ e ∈ b.roster.entries, b.minEstimate? = some e.estimate := by
  have hview : b.roster.lightest?.map Entry.estimate = b.minEstimate? :=
    congrArg View.minEstimate? hb.view_roster
  cases hleast : b.roster.lightest? with
  | none =>
      have hnil : b.roster.entries = [] := List.argmin_eq_none.mp hleast
      have hlength : b.roster.entries.length = b.size := Array.length_toList
      rw [hnil] at hlength
      exact absurd hlength.symm hne
  | some e =>
      rw [hleast] at hview
      exact ⟨e, List.argmin_mem hleast, hview.symm⟩

/-- After any requests a listed key shows its peak, which is not zero, and a key that is not listed
has no peak, or the leaderboard is full and no listed estimate is below that peak. -/
theorem after_shows_peaks (hscale : num.ScalesInOrder) {capacity : Nat} (hcapacity : 1 ≤ capacity)
    (requests : List Request) (key : Key) :
    (∀ estimate, ((empty capacity).after num requests).get? key = some estimate →
      estimate = Peaks.none.after num requests key ∧ 0 < Peaks.none.after num requests key) ∧
    (((empty capacity).after num requests).get? key = none →
      Peaks.none.after num requests key = 0 ∨
        ((empty capacity).after num requests).size = capacity ∧
        ∃ least, ((empty capacity).after num requests).minEstimate? = some least ∧
          Peaks.none.after num requests key ≤ least) := by
  obtain ⟨hwf, htracks, hcap⟩ := (wellFormed_empty capacity).tracks_after hscale
    (Roster.tracks_empty capacity) requests
  generalize (empty capacity).after num requests = b at *
  generalize Peaks.none.after num requests = M at *
  have hsize : b.roster.entries.length = b.size := Array.length_toList
  constructor
  · intro estimate hget
    rw [hwf.get?_roster] at hget
    obtain ⟨e, hfind, rfl⟩ := Option.map_eq_some_iff.mp hget
    obtain ⟨hmem, rfl⟩ := Roster.Legal.mem_of_find? hfind
    have hpeak := htracks.listed e hmem
    exact ⟨hpeak, UInt64.pos_iff_ne_zero.mpr (hpeak ▸ hwf.legal.positive e hmem)⟩
  · intro hget
    rw [hwf.get?_roster, Option.map_eq_none_iff] at hget
    by_cases hzero : M key = 0
    · exact .inl hzero
    · obtain ⟨hfull, hleast⟩ :=
        htracks.forgotten key (Roster.Legal.find?_eq_none_iff.mp hget) hzero
      have hfull' : b.size = capacity := by
        rw [← hsize, hfull]
        exact hcap
      obtain ⟨e, hmem, hmin⟩ := hwf.exists_minEstimate (by omega)
      exact .inr ⟨hfull', e.estimate, hmin, hleast e hmem⟩

/-- Real functions that scale every count to its half. -/
def halving : Numerics :=
  { Numerics.machine with scale := fun _ count => count / 2 }

theorem scalesInOrder_halving : halving.ScalesInOrder where
  zero := fun _ => rfl
  mono := by
    intro _ v w hle
    rw [UInt64.le_iff_toNat_le] at hle ⊢
    show (v / 2).toNat ≤ (w / 2).toNat
    rw [UInt64.toNat_div, UInt64.toNat_div]
    exact Nat.div_le_div_right hle

/-- A displaced key that was offered again, after a scaling, at no more than what is listed. -/
def displacedThenOffered : List Request :=
  [.offer [1] 3, .offer [2] 5, .decay 0.5, .offer [1] 2]

theorem after_shows_peaks_displaced :
    halving.ScalesInOrder ∧ 1 ≤ 1 ∧
      ((empty 1).after halving displacedThenOffered).get? [1] = none ∧
      Peaks.none.after halving displacedThenOffered [1] = 2 ∧
      (Peaks.none.after halving displacedThenOffered [1] = 0 ∨
        ((empty 1).after halving displacedThenOffered).size = 1 ∧
        ∃ least, ((empty 1).after halving displacedThenOffered).minEstimate? = some least ∧
          Peaks.none.after halving displacedThenOffered [1] ≤ least) := by
  have hget : ((empty 1).after halving displacedThenOffered).get? [1] = none := by decide +kernel
  exact ⟨scalesInOrder_halving, Nat.le_refl 1, hget, by decide +kernel,
    (after_shows_peaks scalesInOrder_halving (Nat.le_refl 1) displacedThenOffered [1]).2 hget⟩

end Leaderboard

end FlowSketch
