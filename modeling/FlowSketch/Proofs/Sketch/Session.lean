import FlowSketch.Proofs.Grid.Undisputed
import FlowSketch.Proofs.Sketch.Reachable

/-!
# FlowSketch.Proofs.Sketch.Session

**Randomness settles collisions and nothing else.** A session is a sequence of commands on sketches
that stand in numbered slots. Its transcript holds the replies, the answers to all queries among
them. A session is peaceful if no key that it records stands, at the time of recording, at a place
of another key. The transcript of a peaceful session depends neither on the seeds of the sketches
that it creates or reads from bytes, nor on the random streams of the sketches that it starts with
(`transcript_reseed`).

What carries this is that exchanging the random stream of a sketch (`reseed`) commutes with every
operation. For all operations but recording that is so by definition, since they do not touch the
stream; a recording without a rival leaves it as it is. So stores that differ in random streams only
(`Alike`) stay such stores, and a session that is peaceful in one of them is peaceful in the other.
-/

namespace FlowSketch.Sketch

variable {num : Numerics} {s : Sketch}

/-! ### Exchanging the random stream -/

/-- The sketch with another random stream. -/
def reseed (s : Sketch) (random : Xoshiro) : Sketch :=
  { s with random }

/-- Every key is undisputed when its turn comes. -/
def Undisputed (num : Numerics) (s : Sketch) : List Key → Prop
  | [] => True
  | key :: rest => s.grid.Undisputed key ∧ (s.update num key).Undisputed num rest

instance decidableUndisputed (num : Numerics) (s : Sketch) :
    (keys : List Key) → Decidable (s.Undisputed num keys)
  | [] => inferInstanceAs (Decidable True)
  | key :: rest =>
    have := decidableUndisputed num (s.update num key) rest
    inferInstanceAs (Decidable (s.grid.Undisputed key ∧ _))

theorem create_reseed (num : Numerics) (accuracy : Accuracy) (seed seed' : UInt64) :
    create num accuracy seed' =
      (create num accuracy seed).map fun s => s.reseed (.ofSeed seed') := by
  show Except.bind (accuracy.shape num) _ = Except.map _ (Except.bind (accuracy.shape num) _)
  cases accuracy.shape num with
  | error cause => rfl
  | ok shape => rfl

theorem ofBytes_reseed (num : Numerics) (bytes : List UInt8) (seed seed' : UInt64) :
    ofBytes num bytes seed' = (ofBytes num bytes seed).map fun s => s.reseed (.ofSeed seed') := by
  show Except.bind (Image.decode num bytes) _ = Except.map _ (Except.bind (Image.decode num bytes) _)
  cases Image.decode num bytes with
  | error cause => rfl
  | ok image =>
      show ofImage image seed' = Except.map _ (ofImage image seed)
      unfold ofImage
      cases admitAll (.empty image.accuracy.k) image.ranking.reverse with
      | none => rfl
      | some board => rfl

/-- A recording that meets no other key comes to the same with any random stream, and draws nothing
from it. -/
theorem Sound.add_reseed (hs : s.Sound num) {key : Key} {count : UInt64}
    (h : count ≠ 0 → s.grid.Undisputed key) (random : Xoshiro) :
    (s.reseed random).add num key count = (s.add num key count).reseed random := by
  by_cases hzero : count = 0
  · rw [Sketch.add, Sketch.add, if_pos hzero, if_pos hzero]
  · obtain ⟨readings, after, hrecord⟩ :=
      Grid.record_undisputed (σ := Xoshiro) (h hzero) hs.grid.size (increment count)
    have hdraw : ∀ random', (s.reseed random').recorded num key count =
        ⟨readings, after, random'⟩ := fun random' => hrecord (num.gap decayBase) random'
    have hsame : s.recorded num key count = ⟨readings, after, s.random⟩ := hdraw s.random
    rw [add_of_ne_zero key hzero, add_of_ne_zero key hzero, hdraw, hsame]
    rfl

theorem Sound.updateBatch_reseed (hs : s.Sound num) {keys : List Key}
    (h : s.Undisputed num keys) (random : Xoshiro) :
    (s.reseed random).updateBatch num keys = (s.updateBatch num keys).reseed random := by
  induction keys generalizing s with
  | nil => rfl
  | cons key rest ih =>
      obtain ⟨hfirst, hrest⟩ := h
      show ((s.reseed random).add num key 1).updateBatch num rest = _
      rw [hs.add_reseed (fun _ => hfirst)]
      exact ih (hs.add key 1) hrest

theorem merge_reseed (mine theirs : Sketch) (random random' : Xoshiro) :
    (mine.reseed random).merge (theirs.reseed random') =
      (mine.merge theirs).map fun s => s.reseed random := by
  show (if !mine.configuration.agrees theirs.configuration then _ else if theirs.isEmpty then _
    else _) = Except.map _ (if !mine.configuration.agrees theirs.configuration then _
      else if theirs.isEmpty then _ else _)
  split
  · rfl
  · split
    · rfl
    · rfl

/-- Whether keys are undisputed does not depend on the random stream. -/
theorem Sound.undisputed_reseed (hs : s.Sound num) {keys : List Key} (h : s.Undisputed num keys)
    (random : Xoshiro) : (s.reseed random).Undisputed num keys := by
  induction keys generalizing s with
  | nil => trivial
  | cons key rest ih =>
      obtain ⟨hfirst, hrest⟩ := h
      refine ⟨hfirst, ?_⟩
      rw [update, hs.add_reseed (fun _ => hfirst)]
      exact ih (hs.add key 1) hrest

/-! ### Queries -/

/-- What can be asked of a sketch. -/
inductive Query where
  | estimate (key : Key)
  | exceedsThreshold (key : Key) (threshold : UInt64)
  | contains (key : Key)
  | topK
  | heavyHitters (threshold : UInt64)
  | isEmpty
  | statistics
  | display
  | toBytes

/-- The answer to a query. -/
inductive Answer where
  | count (n : UInt64)
  | flag (b : Bool)
  | ranked (listed : List (Key × UInt64))
  | statistics (stats : Statistics)
  | text (line : String)
  | bytes (bytes : List UInt8)
deriving DecidableEq

/-- What a sketch answers. -/
def answer (s : Sketch) : Query → Answer
  | .estimate key => .count (s.estimate key)
  | .exceedsThreshold key threshold => .flag (s.exceedsThreshold key threshold)
  | .contains key => .flag (s.contains key)
  | .topK => .ranked s.topK
  | .heavyHitters threshold => .ranked (s.heavyHitters threshold)
  | .isEmpty => .flag s.isEmpty
  | .statistics => .statistics s.statistics
  | .display => .text s.display
  | .toBytes => .bytes s.toBytes

theorem answer_reseed (s : Sketch) (random : Xoshiro) (query : Query) :
    (s.reseed random).answer query = s.answer query := by
  cases query <;> rfl

/-! ### Sessions -/

/-- A command of a session. -/
inductive Command where
  /-- A new sketch is put into a slot. -/
  | create (slot : Nat) (accuracy : Accuracy)
  /-- The sketch that bytes hold is put into a slot. -/
  | load (slot : Nat) (bytes : List UInt8)
  | add (slot : Nat) (key : Key) (count : UInt64)
  | updateBatch (slot : Nat) (keys : List Key)
  | decay (slot : Nat)
  /-- The sketch in a slot takes in the one in another slot. -/
  | merge (slot other : Nat)
  | clear (slot : Nat)
  | ask (slot : Nat) (query : Query)

/-- The reply to a command. -/
inductive Reply where
  | done
  | answered (answer : Answer)
  | refused (cause : ParameterError)
  | rejected (cause : DecodeError)
  | unmerged (cause : MergeError)
  /-- There is no sketch in the slot. -/
  | absent

/-- The answer that a reply holds. -/
def Reply.answer? : Reply → Option Answer
  | .answered answer => some answer
  | .done | .refused _ | .rejected _ | .unmerged _ | .absent => none

/-- The sketches of a session by their slots. -/
abbrev Store := Nat → Option Sketch

namespace Store

/-- The store with a sketch in a slot. -/
def set (store : Store) (slot : Nat) (s : Sketch) : Store :=
  fun i => if i = slot then some s else store i

/-- A slot receives a sketch, unless there is a reason not to. -/
def put {ε : Type} (store : Store) (slot : Nat) (failed : ε → Reply) :
    Except ε Sketch → Reply × Store
  | .ok s => (.done, store.set slot s)
  | .error cause => (failed cause, store)

/-- Something is done with the sketch in a slot. -/
def withSketch (store : Store) (slot : Nat) (use : Sketch → Reply × Store) : Reply × Store :=
  match store slot with
  | some s => use s
  | none => (.absent, store)

/-- One command, with a seed for the sketch that it may bring in. -/
def step (num : Numerics) (seed : UInt64) (store : Store) : Command → Reply × Store
  | .create slot accuracy => store.put slot .refused (create num accuracy seed)
  | .load slot bytes => store.put slot .rejected (ofBytes num bytes seed)
  | .add slot key count =>
    store.withSketch slot fun s => (.done, store.set slot (s.add num key count))
  | .updateBatch slot keys =>
    store.withSketch slot fun s => (.done, store.set slot (s.updateBatch num keys))
  | .decay slot => store.withSketch slot fun s => (.done, store.set slot (s.decay num))
  | .merge slot other =>
    store.withSketch slot fun mine => store.withSketch other fun theirs =>
      store.put slot .unmerged (mine.merge theirs)
  | .clear slot => store.withSketch slot fun s => (.done, store.set slot s.clear)
  | .ask slot query => store.withSketch slot fun s => (.answered (s.answer query), store)

/-- The replies to the commands of a session. The seeds are numbered by the commands. -/
def transcript (num : Numerics) : (seeds : Nat → UInt64) → Store → List Command → List Reply
  | _, _, [] => []
  | seeds, store, c :: rest =>
    let after := store.step num (seeds 0) c
    after.1 :: transcript num (fun i => seeds (i + 1)) after.2 rest

/-- The sketches after the commands of a session. -/
def after (num : Numerics) : (seeds : Nat → UInt64) → Store → List Command → Store
  | _, store, [] => store
  | seeds, store, c :: rest =>
    after num (fun i => seeds (i + 1)) (store.step num (seeds 0) c).2 rest

/-- The keys that a command records are undisputed. A count of zero is no recording. -/
def Undisputed (num : Numerics) (store : Store) : Command → Prop
  | .add slot key count => ∀ s ∈ store slot, count ≠ 0 → s.grid.Undisputed key
  | .updateBatch slot keys => ∀ s ∈ store slot, s.Undisputed num keys
  | .create .. | .load .. | .decay _ | .merge .. | .clear _ | .ask .. => True

instance (num : Numerics) (store : Store) (c : Command) : Decidable (store.Undisputed num c) :=
  match c with
  | .add slot key count =>
    inferInstanceAs (Decidable (∀ s ∈ store slot, count ≠ 0 → s.grid.Undisputed key))
  | .updateBatch slot keys => inferInstanceAs (Decidable (∀ s ∈ store slot, s.Undisputed num keys))
  | .create .. | .load .. | .decay _ | .merge .. | .clear _ | .ask .. =>
    inferInstanceAs (Decidable True)

/-- No command of a session records a disputed key. -/
def Peaceful (num : Numerics) : (seeds : Nat → UInt64) → Store → List Command → Prop
  | _, _, [] => True
  | seeds, store, c :: rest =>
    store.Undisputed num c ∧
      Peaceful num (fun i => seeds (i + 1)) (store.step num (seeds 0) c).2 rest

instance decidablePeaceful (num : Numerics) (seeds : Nat → UInt64) (store : Store) :
    (commands : List Command) → Decidable (store.Peaceful num seeds commands)
  | [] => inferInstanceAs (Decidable True)
  | c :: rest =>
    have := decidablePeaceful num (fun i => seeds (i + 1)) (store.step num (seeds 0) c).2 rest
    inferInstanceAs (Decidable (store.Undisputed num c ∧ _))

/-- The sketches with other random streams. -/
def reseed (store : Store) (randoms : Nat → Xoshiro) : Store :=
  fun slot => (store slot).map fun s => s.reseed (randoms slot)

/-- All sketches of a store are sound. -/
def Sound (num : Numerics) (store : Store) : Prop :=
  ∀ slot, ∀ s ∈ store slot, s.Sound num

variable {store : Store} {slot : Nat}

/-! ### One command -/

theorem Sound.set (hstore : store.Sound num) (hs : s.Sound num) : (store.set slot s).Sound num := by
  intro i t ht
  change t ∈ (if i = slot then some s else store i) at ht
  split at ht
  · cases ht
    exact hs
  · exact hstore i t ht

theorem Sound.put {ε : Type} (hstore : store.Sound num) {failed : ε → Reply}
    {result : Except ε Sketch} (h : ∀ s, result = .ok s → s.Sound num) :
    (store.put slot failed result).2.Sound num := by
  cases result with
  | error cause => exact hstore
  | ok s => exact hstore.set (h s rfl)

theorem Sound.withSketch (hstore : store.Sound num) {use : Sketch → Reply × Store}
    (h : ∀ s, s.Sound num → (use s).2.Sound num) : (store.withSketch slot use).2.Sound num := by
  unfold Store.withSketch
  cases hslot : store slot with
  | none => exact hstore
  | some s => exact h s (hstore slot s hslot)

/-- Every command keeps all sketches sound. -/
theorem Sound.step (hstore : store.Sound num) (seed : UInt64) (c : Command) :
    (store.step num seed c).2.Sound num := by
  cases c with
  | create slot accuracy => exact hstore.put fun s hs => sound_create hs
  | load slot bytes => exact hstore.put fun s hs => sound_ofBytes hs
  | add slot key count => exact hstore.withSketch fun s hs => hstore.set (hs.add key count)
  | updateBatch slot keys => exact hstore.withSketch fun s hs => hstore.set (hs.updateBatch keys)
  | decay slot => exact hstore.withSketch fun s hs => hstore.set hs.decay
  | merge slot other =>
      exact hstore.withSketch fun mine hmine => hstore.withSketch fun theirs htheirs =>
        hstore.put fun s hs => hmine.merge htheirs hs
  | clear slot => exact hstore.withSketch fun s hs => hstore.set hs.clear
  | ask slot query => exact hstore.withSketch fun s hs => hstore

/-- The second store differs from the first one in random streams only. -/
def Alike (store store' : Store) : Prop :=
  ∀ slot, ∃ random, store' slot = (store slot).map fun s => s.reseed random

/-- The replies are the same, and the stores differ in random streams only. -/
def SameReply (after after' : Reply × Store) : Prop :=
  after'.1 = after.1 ∧ after.2.Alike after'.2

variable {store' : Store}

theorem alike_refl (store : Store) : store.Alike store := by
  intro slot
  cases hslot : store slot with
  | none => exact ⟨default, rfl⟩
  | some s => exact ⟨s.random, rfl⟩

theorem Alike.symm (h : store.Alike store') : store'.Alike store := by
  intro slot
  obtain ⟨random, hrandom⟩ := h slot
  rw [hrandom]
  cases hslot : store slot with
  | none => exact ⟨random, rfl⟩
  | some s => exact ⟨s.random, rfl⟩

theorem Alike.set (h : store.Alike store') (s : Sketch) (random : Xoshiro) :
    (store.set slot s).Alike (store'.set slot (s.reseed random)) := by
  intro i
  by_cases hi : i = slot
  · exact ⟨random, by simp [Store.set, hi]⟩
  · obtain ⟨random', hrandom'⟩ := h i
    exact ⟨random', by simp [Store.set, hi, hrandom']⟩

theorem Alike.put {ε : Type} (h : store.Alike store') (failed : ε → Reply)
    (result : Except ε Sketch) (random : Xoshiro) :
    SameReply (store.put slot failed result)
      (store'.put slot failed (result.map fun s => s.reseed random)) := by
  cases result with
  | error cause => exact ⟨rfl, h⟩
  | ok s => exact ⟨rfl, h.set s random⟩

theorem Alike.withSketch (h : store.Alike store') {use use' : Sketch → Reply × Store}
    (huse : ∀ s ∈ store slot, ∀ random, SameReply (use s) (use' (s.reseed random))) :
    SameReply (store.withSketch slot use) (store'.withSketch slot use') := by
  unfold Store.withSketch
  obtain ⟨random, hrandom⟩ := h slot
  cases hslot : store slot with
  | none =>
      rw [hslot] at hrandom
      rw [hrandom]
      exact ⟨rfl, h⟩
  | some s =>
      rw [hslot] at hrandom
      rw [hrandom]
      exact huse s hslot random

/-- A command that records no disputed key is answered the same by stores that differ in their
random streams only, and leaves such stores. -/
theorem Alike.step (h : store.Alike store') (hstore : store.Sound num) {c : Command}
    (hc : store.Undisputed num c) (seed seed' : UInt64) :
    SameReply (store.step num seed c) (store'.step num seed' c) := by
  cases c with
  | create slot accuracy =>
      rw [Store.step, Store.step, create_reseed num accuracy seed seed']
      exact h.put _ _ _
  | load slot bytes =>
      rw [Store.step, Store.step, ofBytes_reseed num bytes seed seed']
      exact h.put _ _ _
  | add slot key count =>
      refine h.withSketch fun s hs random => ⟨rfl, ?_⟩
      rw [(hstore slot s hs).add_reseed (hc s hs)]
      exact h.set _ random
  | updateBatch slot keys =>
      refine h.withSketch fun s hs random => ⟨rfl, ?_⟩
      rw [(hstore slot s hs).updateBatch_reseed (hc s hs)]
      exact h.set _ random
  | decay slot => exact h.withSketch fun s _ random => ⟨rfl, h.set (s.decay num) random⟩
  | merge slot other =>
      refine h.withSketch fun mine _ random => h.withSketch fun theirs _ random' => ?_
      rw [merge_reseed]
      exact h.put _ _ random
  | clear slot => exact h.withSketch fun s _ random => ⟨rfl, h.set s.clear random⟩
  | ask slot query =>
      exact h.withSketch fun s _ random => ⟨congrArg Reply.answered (answer_reseed s random query), h⟩

/-- A command that records no disputed key in a store records none in one that differs in random
streams only. -/
theorem Alike.undisputed (h : store.Alike store') (hstore : store.Sound num) {c : Command}
    (hc : store.Undisputed num c) : store'.Undisputed num c := by
  have hsketch : ∀ slot, ∀ s' ∈ store' slot, ∃ s ∈ store slot, ∃ random, s' = s.reseed random := by
    intro slot s' hs'
    obtain ⟨random, hrandom⟩ := h slot
    rw [hrandom] at hs'
    obtain ⟨s, hs, rfl⟩ := Option.map_eq_some_iff.mp hs'
    exact ⟨s, hs, random, rfl⟩
  cases c with
  | add slot key count =>
      intro s' hs' hcount
      obtain ⟨s, hs, random, rfl⟩ := hsketch slot s' hs'
      exact hc s hs hcount
  | updateBatch slot keys =>
      intro s' hs'
      obtain ⟨s, hs, random, rfl⟩ := hsketch slot s' hs'
      exact (hstore slot s hs).undisputed_reseed (hc s hs) random
  | create slot accuracy => trivial
  | load slot bytes => trivial
  | decay slot => trivial
  | merge slot other => trivial
  | clear slot => trivial
  | ask slot query => trivial

/-! ### Whole sessions -/

/-- A session that is peaceful in one store is so in the other, with any seeds. -/
theorem Alike.peaceful (h : store.Alike store') (hstore : store.Sound num) {seeds : Nat → UInt64}
    {commands : List Command} (hpeaceful : store.Peaceful num seeds commands)
    (seeds' : Nat → UInt64) : store'.Peaceful num seeds' commands := by
  induction commands generalizing store store' seeds seeds' with
  | nil => trivial
  | cons c rest ih =>
      obtain ⟨hfirst, hrest⟩ := hpeaceful
      obtain ⟨-, hafter⟩ := h.step hstore hfirst (seeds 0) (seeds' 0)
      exact ⟨h.undisputed hstore hfirst, ih hafter (hstore.step (seeds 0) c) hrest _⟩

/-- A peaceful session leaves stores that differ in random streams only. -/
theorem Alike.after (h : store.Alike store') (hstore : store.Sound num) {seeds : Nat → UInt64}
    {commands : List Command} (hpeaceful : store.Peaceful num seeds commands)
    (seeds' : Nat → UInt64) :
    (store.after num seeds commands).Alike (store'.after num seeds' commands) := by
  induction commands generalizing store store' seeds seeds' with
  | nil => exact h
  | cons c rest ih =>
      obtain ⟨hfirst, hrest⟩ := hpeaceful
      obtain ⟨-, hafter⟩ := h.step hstore hfirst (seeds 0) (seeds' 0)
      exact ih hafter (hstore.step (seeds 0) c) hrest _

theorem Alike.transcript (h : store.Alike store') (hstore : store.Sound num)
    {seeds : Nat → UInt64} {commands : List Command} (hpeaceful : store.Peaceful num seeds commands)
    (seeds' : Nat → UInt64) :
    store'.transcript num seeds' commands = store.transcript num seeds commands := by
  induction commands generalizing store store' seeds seeds' with
  | nil => rfl
  | cons c rest ih =>
      obtain ⟨hfirst, hrest⟩ := hpeaceful
      obtain ⟨hreply, hafter⟩ := h.step hstore hfirst (seeds 0) (seeds' 0)
      rw [Store.transcript, Store.transcript, hreply, ih hafter (hstore.step (seeds 0) c) hrest]

/-- The replies of a session in which no recording meets a place of another key do not depend on
randomness: other seeds for the sketches that are created and read, and other random streams of the
sketches to begin with, lead to the same replies. -/
theorem transcript_reseed (hreachable : ∀ slot, ∀ s ∈ store slot, Reachable num s)
    {seeds : Nat → UInt64} {commands : List Command} (hpeaceful : store.Peaceful num seeds commands)
    (seeds' : Nat → UInt64) (randoms : Nat → Xoshiro) :
    (store.reseed randoms).transcript num seeds' commands =
      store.transcript num seeds commands :=
  have halike : store.Alike (store.reseed randoms) := fun slot => ⟨randoms slot, rfl⟩
  halike.transcript (fun slot s hs => (hreachable slot s hs).sound) hpeaceful seeds'

/-- A sketch is created, another one is read from bytes, both go on, and they are merged. -/
def peacefulSession : List Command :=
  [.create 0 ⟨2, 0.5, 0.5⟩, .add 0 [1] 3, .load 1 tiedSketch.toBytes, .updateBatch 1 [[1], [2]],
    .merge 0 1, .decay 0, .ask 0 .topK, .ask 0 .toBytes]

/-- The session says the same with the seeds `1` and `2`. -/
theorem transcript_reseed_peacefulSession :
    Peaceful halfNumerics (fun _ => 1) (fun _ => none) peacefulSession ∧
      ((transcript halfNumerics (fun _ => 1) (fun _ => none) peacefulSession).filterMap
        Reply.answer?).head? = some (.ranked [([1], 6), ([2], 3)]) ∧
      transcript halfNumerics (fun _ => 2) (fun _ => none) peacefulSession =
        transcript halfNumerics (fun _ => 1) (fun _ => none) peacefulSession := by
  have hpeaceful : Peaceful halfNumerics (fun _ => 1) (fun _ => none) peacefulSession := by
    decide +kernel
  refine ⟨hpeaceful, by decide +kernel, ?_⟩
  exact transcript_reseed (fun _ s hs => absurd hs (Option.not_mem_none s)) hpeaceful (fun _ => 2)
    fun _ => .ofSeed 2

end Store

end FlowSketch.Sketch
