import PortableFS.Restore.Content
import PortableFS.Restore.Mode

/-!
# What a thread may rely on between its instructions

A thread of the restore mode relies on facts about the map and about one file, each guarded by a
lock it holds or true for good once it is true. `Evolves` says what any step of the machine can
do, and from it every guarded fact survives the steps of other threads. `Typed` says which facts
an instruction needs and which it leaves behind; the programs of all calls are typed.
-/

namespace PortableFS.Restore

open Base.ByteFile List

namespace Machine

variable (A : Archive) (s : Machine)

/-- The chunks whose bytes are on disk. -/
def hydratedKeys : Finset ChunkKey :=
  match s.map with
  | some m => m.hydrated
  | none => ∅

/-- The chunks that are durably marked. -/
def durableKeys : Finset ChunkKey :=
  match s.map with
  | some m => m.durable
  | none => ∅

/-- What a file should hold: the user operations in order over its sealed content. -/
def content (entry : Entry) : List UInt8 := A.content entry (s.log entry)

/-- What a file held at its last `fdatasync`. -/
def stableContent (entry : Entry) : List UInt8 := A.content entry (s.stableLog entry)

/-- Every stored chunk is durably marked. -/
def AllDurable : Prop := ∀ key ∈ A.order, key ∈ s.durableKeys

end Machine

/-- The thread has cut the chunk off its file and is about to mark it. -/
def Thread.Closing (A : Archive) (th : Thread) (key : ChunkKey) : Prop :=
  ∃ keys size rest, (th.prog = .sync key.entry :: .beyond key.entry keys size :: rest ∨
    th.prog = .beyond key.entry keys size :: rest) ∧ key ∈ keys ∧ size ≤ A.chunkStart key

/-- Some thread has cut the chunk off its file and is about to mark it. -/
def Machine.Closing (A : Archive) (s : Machine) (key : ChunkKey) : Prop :=
  ∃ t th, s.threads t = some th ∧ th.Closing A key

/-- What a thread relies on. -/
inductive Fact where
  /-- The chunk is not on disk. -/
  | cold (key : ChunkKey)
  | hydrated (key : ChunkKey)
  | durable (key : ChunkKey)
  /-- The file has its content where the chunk has sealed bytes. -/
  | installed (key : ChunkKey)
  /-- Also the synced file has. -/
  | flushed (key : ChunkKey)
  /-- A hydrated chunk whose bytes are synced. -/
  | settled (key : ChunkKey)
  /-- The file is not longer than that. -/
  | shortened (entry : Entry) (size : Nat)
  /-- Also the synced file is not. -/
  | shortSynced (entry : Entry) (size : Nat)
  /-- No chunk that is not durable reaches beyond that. -/
  | sized (entry : Entry) (size : Nat)
  /-- A chunk that is not durable and reaches beyond that starts beyond that, up to one chunk. -/
  | tail (entry : Entry) (size : Nat) (but : Option ChunkKey)
  /-- The store has dropped the file. -/
  | gone (entry : Entry)
  | allDurable

/-- The lock under which the fact is stable. -/
def Fact.guard : Fact → Option Lock
  | .cold key => some (.shard (chunkLock key))
  | .installed key => some (.entry key.entry)
  | .flushed key => some (.entry key.entry)
  | .shortened entry _ => some (.entry entry)
  | .shortSynced entry _ => some (.entry entry)
  | _ => none

/-- The chunks of a file that are not durable and not about to be. -/
def Machine.Open (A : Archive) (s : Machine) (entry : Entry) (key : ChunkKey) : Prop :=
  key ∈ A.order ∧ key.entry = entry ∧ key ∉ s.durableKeys ∧ ¬s.Closing A key

/-- The fact is true of the machine. Facts about a file end with its descriptor, and those about
its bytes matter no more once every chunk is durable. -/
def Fact.Holds (A : Archive) (s : Machine) : Fact → Prop
  | .cold key => key ∉ s.hydratedKeys
  | .hydrated key => key ∈ s.hydratedKeys
  | .durable key => key ∈ s.durableKeys
  | .installed key => s.present key.entry = true →
    s.AllDurable A ∨ A.Agrees key (s.disk key.entry) (s.content A key.entry)
  | .flushed key => s.present key.entry = true →
    s.AllDurable A ∨ (A.Agrees key (s.disk key.entry) (s.content A key.entry) ∧
      A.Agrees key (s.stable key.entry) (s.stableContent A key.entry))
  | .settled key => key ∈ A.order ∧ key ∈ s.hydratedKeys ∧ (s.present key.entry = true →
    A.Agrees key (s.stable key.entry) (s.stableContent A key.entry))
  | .shortened entry size => s.present entry = true →
    s.AllDurable A ∨ (s.disk entry).length ≤ size
  | .shortSynced entry size => s.present entry = true →
    s.AllDurable A ∨ ((s.disk entry).length ≤ size ∧ (s.stable entry).length ≤ size)
  | .sized entry size => s.present entry = true → s.storageFailed = false →
    ∀ key, s.Open A entry key → ∀ x, (A.sealedAt key x).isSome → x < size
  | .tail entry size but => s.present entry = true → s.storageFailed = false →
    ∀ key, s.Open A entry key → some key ≠ but → ∀ x, (A.sealedAt key x).isSome → size ≤ x →
      size ≤ A.chunkStart key
  | .gone entry => s.present entry = false
  | .allDurable => s.AllDurable A

/-- A file and its content did not change. -/
def Machine.SameFile (A : Archive) (s s' : Machine) (entry : Entry) : Prop :=
  s'.disk entry = s.disk entry ∧ s'.content A entry = s.content A entry

/-- What every step of a machine does: marks and storage failures stay, dropped files stay
dropped, a synced file stays or becomes the file as it is, and a chunk that was about to be
marked still is, unless it is marked or the storage has failed. -/
structure Machine.Evolves (A : Archive) (s s' : Machine) : Prop where
  present : ∀ entry, s'.present entry = true → s.present entry = true
  hydrated : s.hydratedKeys ⊆ s'.hydratedKeys
  durable : s.durableKeys ⊆ s'.durableKeys
  storage : s'.storageFailed = false → s.storageFailed = false
  stable : ∀ entry,
    (s'.stable entry = s.stable entry ∧ s'.stableContent A entry = s.stableContent A entry) ∨
      (s'.stable entry = s'.disk entry ∧ s'.stableContent A entry = s'.content A entry ∧
        s.SameFile A s' entry)
  closing : ∀ key ∈ A.order, s.Closing A key →
    s'.Closing A key ∨ key ∈ s'.durableKeys ∨ s'.storageFailed = true

section Evolves

variable {A : Archive} {s s' : Machine}

theorem Machine.Evolves.allDurable (h : s.Evolves A s') (hall : s.AllDurable A) : s'.AllDurable A :=
  fun key hkey => h.durable (hall key hkey)

theorem Machine.Evolves.open (h : s.Evolves A s') (hs : s'.storageFailed = false) {entry : Entry}
    {key : ChunkKey} (ho : s'.Open A entry key) : s.Open A entry key := by
  obtain ⟨hkey, hentry, hdur, hclosing⟩ := ho
  refine ⟨hkey, hentry, fun hd => hdur (h.durable hd), fun hc => ?_⟩
  rcases h.closing key hkey hc with hc' | hd | hf
  · exact hclosing hc'
  · exact hdur hd
  · rw [hf] at hs
    exact absurd hs.symm Bool.false_ne_true

/-- A fact survives a step that does not mark the chunk it calls cold and does not change the
file it is about. -/
theorem Fact.Holds.evolve {f : Fact} (hf : f.Holds A s) (h : s.Evolves A s')
    (hwarm : ∀ entry, s.present entry = true →
      A.Warm entry (s.disk entry) (s.content A entry) s.hydratedKeys)
    (hcold : ∀ key, f = .cold key → key ∉ s'.hydratedKeys)
    (hfile : ∀ entry, f.guard = some (.entry entry) → s.SameFile A s' entry ∨ s.AllDurable A) :
    f.Holds A s' := by
  cases f with
  | cold key => exact hcold key rfl
  | hydrated key => exact h.hydrated hf
  | durable key => exact h.durable hf
  | gone entry =>
    by_contra hp
    have hs := h.present entry (Bool.eq_true_of_not_eq_false hp)
    rw [show s.present entry = false from hf] at hs
    exact Bool.false_ne_true hs
  | allDurable => exact h.allDurable hf
  | installed key =>
    intro hp
    rcases hf (h.present _ hp) with hall | hagree
    · exact .inl (h.allDurable hall)
    rcases hfile key.entry rfl with ⟨hdisk, hcontent⟩ | hall
    · right
      rw [hdisk, hcontent]
      exact hagree
    · exact .inl (h.allDurable hall)
  | flushed key =>
    intro hp
    rcases hf (h.present _ hp) with hall | ⟨hagree, hstable⟩
    · exact .inl (h.allDurable hall)
    rcases hfile key.entry rfl with ⟨hdisk, hcontent⟩ | hall
    · right
      rcases h.stable key.entry with ⟨hs, hc⟩ | ⟨hs, hc, -⟩
      · rw [hdisk, hcontent, hs, hc]
        exact ⟨hagree, hstable⟩
      · rw [hs, hc, hdisk, hcontent]
        exact ⟨hagree, hagree⟩
    · exact .inl (h.allDurable hall)
  | settled key =>
    obtain ⟨hkey, hhyd, hagree⟩ := hf
    refine ⟨hkey, h.hydrated hhyd, fun hp => ?_⟩
    have hp' := h.present _ hp
    rcases h.stable key.entry with ⟨hs, hc⟩ | ⟨hs, hc, hdisk, hcontent⟩
    · rw [hs, hc]
      exact hagree hp'
    · rw [hs, hc, hdisk, hcontent]
      exact (hwarm key.entry hp').agrees hkey rfl hhyd
  | shortened entry size =>
    intro hp
    rcases hf (h.present _ hp) with hall | hlen
    · exact .inl (h.allDurable hall)
    rcases hfile entry rfl with ⟨hdisk, -⟩ | hall
    · right
      rw [hdisk]
      exact hlen
    · exact .inl (h.allDurable hall)
  | shortSynced entry size =>
    intro hp
    rcases hf (h.present _ hp) with hall | ⟨hlen, hstable⟩
    · exact .inl (h.allDurable hall)
    rcases hfile entry rfl with ⟨hdisk, -⟩ | hall
    · right
      rw [hdisk]
      rcases h.stable entry with ⟨hs, -⟩ | ⟨hs, -, -⟩
      · rw [hs]
        exact ⟨hlen, hstable⟩
      · rw [hs, hdisk]
        exact ⟨hlen, hlen⟩
    · exact .inl (h.allDurable hall)
  | sized | tail =>
    intro hp hs key ho
    exact hf (h.present _ hp) (h.storage hs) key (h.open hs ho)

end Evolves

/-- What a hydration of the chunk achieves. -/
def wanted (key : ChunkKey) (durable : Bool) : Fact :=
  if durable then .durable key else .hydrated key

/-- The fact that a sync of the file makes of another. -/
inductive Fact.BySync (A : Archive) (entry : Entry) (facts : List Fact) : Fact → Prop where
  | flushed {key : ChunkKey} (h : key.entry = entry) (hf : .installed key ∈ facts) :
      BySync A entry facts (.flushed key)
  | settled {key : ChunkKey} (hkey : key ∈ A.order) (h : key.entry = entry)
      (hf : .hydrated key ∈ facts) : BySync A entry facts (.settled key)
  | shortSynced {size : Nat} (hf : .shortened entry size ∈ facts) :
      BySync A entry facts (.shortSynced entry size)

/-- The locks of all stored chunks of a file are held. -/
def HoldsFile (A : Archive) (held : List Lock) (entry : Entry) : Prop :=
  ∀ key ∈ A.order, key.entry = entry → .shard (chunkLock key) ∈ held

/-- A program that may run with the given locks and facts and ends with the facts `goal` and no
lock. -/
inductive Typed (cfg : Config) (A : Archive) (goal : List Fact) :
    List Lock → List Fact → List Instr → Prop where
  | done {facts : List Fact} (h : goal ⊆ facts) : Typed cfg A goal [] facts []
  | acquire {held : List Lock} {facts : List Fact} {lock : Lock} {rest : List Instr}
      (hfree : lock ∉ held) (h : Typed cfg A goal (lock :: held) facts rest) :
      Typed cfg A goal held facts (.acquire lock :: rest)
  | release {held : List Lock} {facts facts' : List Fact} {lock : Lock} {rest : List Instr}
      (hheld : lock ∈ held) (hsub : facts' ⊆ facts) (hguard : ∀ f ∈ facts', f.guard ≠ some lock)
      (h : Typed cfg A goal (held.erase lock) facts' rest) :
      Typed cfg A goal held facts (.release lock :: rest)
  | hydrate {held : List Lock} {facts facts' : List Fact} {key : ChunkKey} {durable : Bool}
      {rest : List Instr} (hkey : key ∈ A.order) (hshard : .shard (chunkLock key) ∈ held)
      (hentry : .entry key.entry ∉ held) (hsub : facts' ⊆ facts) (hnot : .cold key ∉ facts')
      (h : Typed cfg A goal held (wanted key durable :: facts') rest) :
      Typed cfg A goal held facts (.hydrate key durable :: rest)
  | fetch {held : List Lock} {facts facts' : List Fact} {key : ChunkKey} {durable : Bool}
      {rest : List Instr} (hkey : key ∈ A.order) (hshard : .shard (chunkLock key) ∈ held)
      (hentry : .entry key.entry ∉ held) (hcold : .cold key ∈ facts) (hsub : facts' ⊆ facts)
      (hnot : .cold key ∉ facts')
      (h : Typed cfg A goal held (wanted key durable :: facts') rest) :
      Typed cfg A goal held facts (.fetch key durable :: rest)
  | install {held : List Lock} {facts facts' : List Fact} {key : ChunkKey} {rest : List Instr}
      (hkey : key ∈ A.order) (hshard : .shard (chunkLock key) ∈ held)
      (hentry : .entry key.entry ∈ held) (hcold : .cold key ∈ facts) (hsub : facts' ⊆ facts)
      (hguard : ∀ f ∈ facts', f.guard ≠ some (.entry key.entry))
      (h : Typed cfg A goal held (.installed key :: facts') rest) :
      Typed cfg A goal held facts (.install key :: rest)
  | sync {held : List Lock} {facts facts' : List Fact} {entry : Entry} {rest : List Instr}
      (hfacts : ∀ f ∈ facts', f ∈ facts ∨ f.BySync A entry facts)
      (h : Typed cfg A goal held facts' rest) :
      Typed cfg A goal held facts (.sync entry :: rest)
  | mark {held : List Lock} {facts facts' : List Fact} {keys : List ChunkKey}
      {userEntry : Option Entry} {rest : List Instr} (hnodup : keys.Nodup)
      (hkeys : ∀ key ∈ keys, key ∈ A.order ∧ .shard (chunkLock key) ∈ held ∧
        (.flushed key ∈ facts ∨ .settled key ∈ facts ∨ .gone key.entry ∈ facts))
      (huser : ∀ entry, userEntry = some entry → entry.toNat < cfg.entries)
      (hsub : facts' ⊆ facts) (hnot : ∀ key ∈ keys, .cold key ∉ facts')
      (h : Typed cfg A goal held (keys.map .durable ++ facts') rest) :
      Typed cfg A goal held facts (.mark keys userEntry :: rest)
  | markLazy {held : List Lock} {facts facts' : List Fact} {key : ChunkKey} {rest : List Instr}
      (hkey : key ∈ A.order) (hshard : .shard (chunkLock key) ∈ held)
      (hinstalled : .installed key ∈ facts) (hsub : facts' ⊆ facts) (hnot : .cold key ∉ facts')
      (h : Typed cfg A goal held (.hydrated key :: facts') rest) :
      Typed cfg A goal held facts (.markLazy key :: rest)
  | clearBlocked {held : List Lock} {facts : List Fact} {rest : List Instr}
      (h : Typed cfg A goal held facts rest) :
      Typed cfg A goal held facts (.clearBlocked :: rest)
  | boundary {held : List Lock} {facts facts' : List Fact} {entry : Entry}
      {oldSize newSize : Nat} {rest : List Instr} (hsized : .sized entry oldSize ∈ facts)
      (hheld : HoldsFile A held entry) (hentry : .entry entry ∉ held)
      (hbound : entry.toNat < cfg.entries) (hsub : facts' ⊆ facts)
      (hnot : ∀ key, .cold key ∉ facts')
      (h : ∀ but : Option ChunkKey, Typed cfg A goal held
        (.tail entry newSize but :: (but.toList.map .durable ++ facts')) rest) :
      Typed cfg A goal held facts (.boundary entry oldSize newSize :: rest)
  | applyRange {held : List Lock} {facts facts' : List Fact} {entry : Entry} {op : RangeOp}
      {rest : List Instr} (hentry : .entry entry ∈ held)
      (hkeys : ∀ key ∈ A.order, key.entry = entry →
        (.durable key ∈ facts ∧ .shard (chunkLock key) ∈ held) ∨ A.Outside key op.lo op.hi)
      (hsub : facts' ⊆ facts) (hguard : ∀ f ∈ facts', f.guard ≠ some (.entry entry))
      (h : Typed cfg A goal held facts' rest) :
      Typed cfg A goal held facts (.apply (some entry) (.range op) :: rest)
  | applyTruncate {held : List Lock} {facts facts' : List Fact} {entry : Entry} {size : Nat}
      {but : Option ChunkKey} {rest : List Instr} (hentry : .entry entry ∈ held)
      (hheld : HoldsFile A held entry) (htail : .tail entry size but ∈ facts)
      (hbut : ∀ key, but = some key → .durable key ∈ facts) (hsub : facts' ⊆ facts)
      (hguard : ∀ f ∈ facts', f.guard ≠ some (.entry entry))
      (h : Typed cfg A goal held (.shortened entry size :: facts')
        (.sync entry :: .beyond entry (A.order.filter (·.entry = entry)) size :: rest)) :
      Typed cfg A goal held facts (.apply (some entry) (.truncate size) :: .sync entry ::
        .beyond entry (A.order.filter (·.entry = entry)) size :: rest)
  | applyMetadata {held : List Lock} {facts : List Fact} {entry : Option Entry}
      {rest : List Instr} (h : Typed cfg A goal held facts rest) :
      Typed cfg A goal held facts (.apply entry .metadata :: rest)
  | applyUnbound {held : List Lock} {facts : List Fact} {op : FileOp} {rest : List Instr}
      (h : Typed cfg A goal held facts rest) :
      Typed cfg A goal held facts (.apply none op :: rest)
  | applyConverged {held : List Lock} {facts facts' : List Fact} {entry : Entry} {op : FileOp}
      {rest : List Instr} (hall : .allDurable ∈ facts) (hsub : facts' ⊆ facts)
      (hguard : ∀ f ∈ facts', f.guard ≠ some (.entry entry))
      (h : Typed cfg A goal held facts' rest) :
      Typed cfg A goal held facts (.apply (some entry) op :: rest)
  | beyond {held : List Lock} {facts facts' : List Fact} {entry : Entry} {size : Nat}
      {rest : List Instr} (hentry : .entry entry ∈ held) (hheld : HoldsFile A held entry)
      (hbound : entry.toNat < cfg.entries) (hshort : .shortSynced entry size ∈ facts)
      (hsub : facts' ⊆ facts) (hnot : ∀ key, .cold key ∉ facts')
      (h : Typed cfg A goal held facts' rest) :
      Typed cfg A goal held facts
        (.beyond entry (A.order.filter (·.entry = entry)) size :: rest)
  | reap {held : List Lock} {facts facts' : List Fact} {key : ChunkKey} {rest : List Instr}
      (hkey : key ∈ A.order) (hshard : .shard (chunkLock key) ∈ held)
      (hentry : .entry key.entry ∉ held) (hsub : facts' ⊆ facts) (hnot : .cold key ∉ facts')
      (h : Typed cfg A goal held facts' rest) :
      Typed cfg A goal held facts (.reap key :: rest)

section Typed

variable {cfg : Config} {A : Archive} {goal : List Fact} {held : List Lock} {facts : List Fact}
  {rest : List Instr}

theorem Typed.done_inv (h : Typed cfg A goal held facts []) : goal ⊆ facts := by
  cases h with
  | done h => exact h

/-- What an instruction at the head of a typed program needs. -/
def Typed.Head (cfg : Config) (A : Archive) (goal : List Fact) (held : List Lock)
    (facts : List Fact) (rest : List Instr) : Instr → Prop
  | .acquire lock => lock ∉ held ∧ Typed cfg A goal (lock :: held) facts rest
  | .release lock => ∃ facts', lock ∈ held ∧ facts' ⊆ facts ∧
      (∀ f ∈ facts', f.guard ≠ some lock) ∧ Typed cfg A goal (held.erase lock) facts' rest
  | .hydrate key durable => ∃ facts', key ∈ A.order ∧ .shard (chunkLock key) ∈ held ∧
      .entry key.entry ∉ held ∧ facts' ⊆ facts ∧ .cold key ∉ facts' ∧
      Typed cfg A goal held (wanted key durable :: facts') rest
  | .fetch key durable => ∃ facts', key ∈ A.order ∧ .shard (chunkLock key) ∈ held ∧
      .entry key.entry ∉ held ∧ .cold key ∈ facts ∧ facts' ⊆ facts ∧ .cold key ∉ facts' ∧
      Typed cfg A goal held (wanted key durable :: facts') rest
  | .install key => ∃ facts', key ∈ A.order ∧ .shard (chunkLock key) ∈ held ∧
      .entry key.entry ∈ held ∧ .cold key ∈ facts ∧ facts' ⊆ facts ∧
      (∀ f ∈ facts', f.guard ≠ some (.entry key.entry)) ∧
      Typed cfg A goal held (.installed key :: facts') rest
  | .sync entry => ∃ facts', (∀ f ∈ facts', f ∈ facts ∨ f.BySync A entry facts) ∧
      Typed cfg A goal held facts' rest
  | .mark keys userEntry => ∃ facts', keys.Nodup ∧
      (∀ key ∈ keys, key ∈ A.order ∧ .shard (chunkLock key) ∈ held ∧
        (.flushed key ∈ facts ∨ .settled key ∈ facts ∨ .gone key.entry ∈ facts)) ∧
      (∀ entry, userEntry = some entry → entry.toNat < cfg.entries) ∧ facts' ⊆ facts ∧
      (∀ key ∈ keys, .cold key ∉ facts') ∧
      Typed cfg A goal held (keys.map .durable ++ facts') rest
  | .markLazy key => ∃ facts', key ∈ A.order ∧ .shard (chunkLock key) ∈ held ∧
      .installed key ∈ facts ∧ facts' ⊆ facts ∧ .cold key ∉ facts' ∧
      Typed cfg A goal held (.hydrated key :: facts') rest
  | .clearBlocked => Typed cfg A goal held facts rest
  | .boundary entry oldSize newSize => ∃ facts', .sized entry oldSize ∈ facts ∧
      HoldsFile A held entry ∧ .entry entry ∉ held ∧ entry.toNat < cfg.entries ∧
      facts' ⊆ facts ∧ (∀ key, .cold key ∉ facts') ∧
      ∀ but : Option ChunkKey, Typed cfg A goal held
        (.tail entry newSize but :: (but.toList.map .durable ++ facts')) rest
  | .beyond entry keys size => ∃ facts', keys = A.order.filter (·.entry = entry) ∧
      .entry entry ∈ held ∧ HoldsFile A held entry ∧ entry.toNat < cfg.entries ∧
      .shortSynced entry size ∈ facts ∧ facts' ⊆ facts ∧ (∀ key, .cold key ∉ facts') ∧
      Typed cfg A goal held facts' rest
  | .reap key => ∃ facts', key ∈ A.order ∧ .shard (chunkLock key) ∈ held ∧
      .entry key.entry ∉ held ∧ facts' ⊆ facts ∧ .cold key ∉ facts' ∧
      Typed cfg A goal held facts' rest
  | .apply _ _ => True

theorem Typed.head {i : Instr} (h : Typed cfg A goal held facts (i :: rest)) :
    Typed.Head cfg A goal held facts rest i := by
  cases h with
  | acquire hfree h => exact ⟨hfree, h⟩
  | release hheld hsub hguard h => exact ⟨_, hheld, hsub, hguard, h⟩
  | hydrate hkey hshard hentry hsub hnot h => exact ⟨_, hkey, hshard, hentry, hsub, hnot, h⟩
  | fetch hkey hshard hentry hcold hsub hnot h =>
    exact ⟨_, hkey, hshard, hentry, hcold, hsub, hnot, h⟩
  | install hkey hshard hentry hcold hsub hguard h =>
    exact ⟨_, hkey, hshard, hentry, hcold, hsub, hguard, h⟩
  | sync hfacts h => exact ⟨_, hfacts, h⟩
  | mark hnodup hkeys huser hsub hnot h => exact ⟨_, hnodup, hkeys, huser, hsub, hnot, h⟩
  | markLazy hkey hshard hinstalled hsub hnot h =>
    exact ⟨_, hkey, hshard, hinstalled, hsub, hnot, h⟩
  | clearBlocked h => exact h
  | boundary hsized hheld hentry hbound hsub hnot h =>
    exact ⟨_, hsized, hheld, hentry, hbound, hsub, hnot, h⟩
  | beyond hentry hheld hbound hshort hsub hnot h =>
    exact ⟨_, rfl, hentry, hheld, hbound, hshort, hsub, hnot, h⟩
  | reap hkey hshard hentry hsub hnot h => exact ⟨_, hkey, hshard, hentry, hsub, hnot, h⟩
  | applyRange | applyTruncate | applyMetadata | applyUnbound | applyConverged => trivial

/-- The ways in which a typed thread applies an operation to a file. -/
inductive Applies (cfg : Config) (A : Archive) (goal : List Fact) (held : List Lock)
    (facts : List Fact) (entry : Entry) (rest : List Instr) : FileOp → Prop where
  | metadata (h : Typed cfg A goal held facts rest) :
      Applies cfg A goal held facts entry rest .metadata
  | converged {op : FileOp} {facts' : List Fact} (hall : .allDurable ∈ facts)
      (hsub : facts' ⊆ facts) (hguard : ∀ f ∈ facts', f.guard ≠ some (.entry entry))
      (h : Typed cfg A goal held facts' rest) : Applies cfg A goal held facts entry rest op
  | range {op : RangeOp} {facts' : List Fact} (hentry : .entry entry ∈ held)
      (hkeys : ∀ key ∈ A.order, key.entry = entry →
        (.durable key ∈ facts ∧ .shard (chunkLock key) ∈ held) ∨ A.Outside key op.lo op.hi)
      (hsub : facts' ⊆ facts) (hguard : ∀ f ∈ facts', f.guard ≠ some (.entry entry))
      (h : Typed cfg A goal held facts' rest) :
      Applies cfg A goal held facts entry rest (.range op)
  | truncate {size : Nat} {but : Option ChunkKey} {facts' : List Fact} {rest' : List Instr}
      (hentry : .entry entry ∈ held) (hheld : HoldsFile A held entry)
      (htail : .tail entry size but ∈ facts) (hbut : ∀ key, but = some key → .durable key ∈ facts)
      (hsub : facts' ⊆ facts) (hguard : ∀ f ∈ facts', f.guard ≠ some (.entry entry))
      (hrest : rest = .sync entry :: .beyond entry (A.order.filter (·.entry = entry)) size :: rest')
      (h : Typed cfg A goal held (.shortened entry size :: facts') rest) :
      Applies cfg A goal held facts entry rest (.truncate size)

variable {op : FileOp}

theorem Typed.apply_inv {entry : Entry}
    (h : Typed cfg A goal held facts (.apply (some entry) op :: rest)) :
    Applies cfg A goal held facts entry rest op := by
  cases h with
  | applyRange hentry hkeys hsub hguard hrest =>
    exact .range hentry hkeys hsub hguard hrest
  | applyTruncate hentry hheld htail hbut hsub hguard hrest =>
    exact .truncate hentry hheld htail hbut hsub hguard rfl hrest
  | applyMetadata hrest => exact .metadata hrest
  | applyConverged hall hsub hguard hrest => exact .converged hall hsub hguard hrest

theorem Typed.applyUnbound_inv (h : Typed cfg A goal held facts (.apply none op :: rest)) :
    Typed cfg A goal held facts rest := by
  cases h with
  | applyMetadata hrest => exact hrest
  | applyUnbound hrest => exact hrest

/-- More facts do no harm. -/
theorem Typed.weaken {prog : List Instr} (h : Typed cfg A goal held facts prog)
    {more : List Fact} (hsub : facts ⊆ more) : Typed cfg A goal held more prog := by
  induction h generalizing more with
  | done h => exact .done (List.Subset.trans h hsub)
  | acquire hfree _ ih => exact .acquire hfree (ih hsub)
  | release hheld hsub' hguard h _ => exact .release hheld (List.Subset.trans hsub' hsub) hguard h
  | hydrate hkey hshard hentry hsub' hnot h _ =>
    exact .hydrate hkey hshard hentry (List.Subset.trans hsub' hsub) hnot h
  | fetch hkey hshard hentry hcold hsub' hnot h _ =>
    exact .fetch hkey hshard hentry (hsub hcold) (List.Subset.trans hsub' hsub) hnot h
  | install hkey hshard hentry hcold hsub' hguard h _ =>
    exact .install hkey hshard hentry (hsub hcold) (List.Subset.trans hsub' hsub) hguard h
  | @sync held facts facts' entry rest hfacts h _ =>
    refine .sync (fun f hf => ?_) h
    rcases hfacts f hf with hin | hby
    · exact .inl (hsub hin)
    right
    cases hby with
    | flushed he hfact => exact .flushed he (hsub hfact)
    | settled hkey he hfact => exact .settled hkey he (hsub hfact)
    | shortSynced hfact => exact .shortSynced (hsub hfact)
  | mark hnodup hkeys huser hsub' hnot h _ =>
    refine .mark hnodup (fun key hk => ?_) huser (List.Subset.trans hsub' hsub) hnot h
    obtain ⟨hkey, hshard, hwhy⟩ := hkeys key hk
    refine ⟨hkey, hshard, ?_⟩
    rcases hwhy with hf | hf | hf
    · exact .inl (hsub hf)
    · exact .inr (.inl (hsub hf))
    · exact .inr (.inr (hsub hf))
  | markLazy hkey hshard hinstalled hsub' hnot h _ =>
    exact .markLazy hkey hshard (hsub hinstalled) (List.Subset.trans hsub' hsub) hnot h
  | clearBlocked _ ih => exact .clearBlocked (ih hsub)
  | boundary hsized hheld hentry hbound hsub' hnot h _ =>
    exact .boundary (hsub hsized) hheld hentry hbound (List.Subset.trans hsub' hsub) hnot h
  | applyRange hentry hkeys hsub' hguard h _ =>
    refine .applyRange hentry (fun key hkey he => ?_) (List.Subset.trans hsub' hsub) hguard h
    rcases hkeys key hkey he with ⟨hd, hs⟩ | hout
    · exact .inl ⟨hsub hd, hs⟩
    · exact .inr hout
  | applyTruncate hentry hheld htail hbut hsub' hguard h _ =>
    exact .applyTruncate hentry hheld (hsub htail) (fun key hk => hsub (hbut key hk))
      (List.Subset.trans hsub' hsub) hguard h
  | applyMetadata _ ih => exact .applyMetadata (ih hsub)
  | applyUnbound _ ih => exact .applyUnbound (ih hsub)
  | applyConverged hall hsub' hguard h _ =>
    exact .applyConverged (hsub hall) (List.Subset.trans hsub' hsub) hguard h
  | beyond hentry hheld hbound hshort hsub' hnot h _ =>
    exact .beyond hentry hheld hbound (hsub hshort) (List.Subset.trans hsub' hsub) hnot h
  | reap hkey hshard hentry hsub' hnot h _ =>
    exact .reap hkey hshard hentry (List.Subset.trans hsub' hsub) hnot h

/-- Marking one chunk. -/
theorem typed_markOne {key : ChunkKey} {why : Fact} (hkey : key ∈ A.order)
    (hshard : .shard (chunkLock key) ∈ held) (hnot : .cold key ∉ facts)
    (hwhy : why = .flushed key ∨ why = .settled key ∨ why = .gone key.entry)
    (h : Typed cfg A goal held (.durable key :: facts) rest) :
    Typed cfg A goal held (why :: facts) (.mark [key] none :: rest) := by
  refine .mark (nodup_singleton key) ?_ (fun entry he => absurd he.symm (Option.some_ne_none entry))
    (subset_cons_of_subset _ (.refl facts)) ?_ h
  · intro k hk
    obtain rfl := mem_singleton.mp hk
    refine ⟨hkey, hshard, ?_⟩
    rcases hwhy with rfl | rfl | rfl <;> simp
  · intro k hk
    obtain rfl := mem_singleton.mp hk
    exact hnot

/-- Releasing all locks, last one first, keeps unguarded facts. -/
theorem typed_release (hnodup : held.Nodup) (hgoal : goal ⊆ facts)
    (hguard : ∀ f ∈ goal, f.guard = none) : Typed cfg A goal held facts (held.map .release) := by
  induction held generalizing facts with
  | nil => exact .done hgoal
  | cons lock held ih =>
    obtain ⟨-, hnodup⟩ := nodup_cons.mp hnodup
    refine .release mem_cons_self hgoal ?_ ?_
    · intro f hf
      rw [hguard f hf]
      exact (Option.some_ne_none lock).symm
    · rw [erase_cons_head]
      exact ih hnodup (.refl goal)

/-- Taking locks one after the other. -/
theorem typed_acquire {locks : List Lock} (hnodup : locks.Nodup)
    (hfree : ∀ lock ∈ locks, lock ∉ held)
    (h : Typed cfg A goal (locks.reverse ++ held) facts rest) :
    Typed cfg A goal held facts (locks.map .acquire ++ rest) := by
  induction locks generalizing held with
  | nil => exact h
  | cons lock locks ih =>
    obtain ⟨hnot, hnodup⟩ := nodup_cons.mp hnodup
    refine .acquire (hfree lock mem_cons_self) (ih hnodup ?_ ?_)
    · intro l hl hin
      rcases mem_cons.mp hin with rfl | hin
      · exact hnot hl
      · exact hfree l (mem_cons_of_mem _ hl) hin
    · rwa [reverse_cons, append_assoc] at h

/-- Hydrating chunks durably, one after the other. -/
theorem typed_hydrate {keys : List ChunkKey}
    (hkeys : ∀ key ∈ keys, key ∈ A.order ∧ .shard (chunkLock key) ∈ held ∧ .entry key.entry ∉ held)
    (hnot : ∀ key, .cold key ∉ facts)
    (h : Typed cfg A goal held (keys.map .durable ++ facts) rest) :
    Typed cfg A goal held facts (keys.map (.hydrate · true) ++ rest) := by
  induction keys generalizing facts with
  | nil => exact h
  | cons key keys ih =>
    obtain ⟨hkey, hshard, hentry⟩ := hkeys key mem_cons_self
    refine .hydrate hkey hshard hentry (.refl facts) (hnot key)
      (ih (fun k hk => hkeys k (mem_cons_of_mem _ hk)) ?_ ?_)
    · intro k hk
      rcases mem_cons.mp hk with hk | hk
      · cases hk
      · exact hnot k hk
    refine h.weaken ?_
    intro f hf
    simp only [map_cons, cons_append, mem_cons, mem_append, wanted, if_true]
      at hf ⊢
    tauto

end Typed

/-- The shards of some chunks, as locks. -/
def shardLocks (keys : List ChunkKey) : List Lock := (Machine.shardsOf keys).map .shard

variable {keys : List ChunkKey}

theorem mem_shardLocks {lock : Lock} :
    lock ∈ shardLocks keys ↔ ∃ key ∈ keys, lock = .shard (chunkLock key) := by
  unfold shardLocks Machine.shardsOf
  simp only [mem_map, mem_insertionSort, mem_dedup]
  constructor
  · rintro ⟨n, ⟨key, hkey, rfl⟩, rfl⟩
    exact ⟨key, hkey, rfl⟩
  · rintro ⟨key, hkey, rfl⟩
    exact ⟨_, ⟨key, hkey, rfl⟩, rfl⟩

theorem nodup_shardLocks (keys : List ChunkKey) : (shardLocks keys).Nodup := by
  unfold shardLocks Machine.shardsOf
  apply List.Nodup.map
  · intro a b h
    exact Lock.shard.inj h
  · exact (perm_insertionSort _ _).nodup_iff.mpr (nodup_dedup _)

section Programs

variable {cfg : Config} {A : Archive} {goal : List Fact} {facts : List Fact}

/-- A program between `lockKeys` and `unlockLocks`. -/
theorem typed_locked {body : List Instr} (h : Typed cfg A goal (shardLocks keys).reverse facts
      (body ++ (shardLocks keys).reverse.map .release)) :
    Typed cfg A goal [] facts (Machine.locked keys body) := by
  have hshape : Machine.locked keys body = (shardLocks keys).map .acquire ++
      (body ++ (shardLocks keys).reverse.map .release) := by
    unfold Machine.locked shardLocks
    rw [append_assoc, map_map, ← map_reverse, map_map]
    rfl
  rw [hshape]
  apply typed_acquire (nodup_shardLocks keys)
  · intro lock _
    exact not_mem_nil
  · rwa [append_nil]

/-- `EnsureHydrated` over its keys. -/
theorem typed_recallKeys (hkeys : ∀ key ∈ keys, key ∈ A.order)
    (hfacts : ∀ f ∈ facts, f.guard = none) (hgoal : goal ⊆ keys.map .hydrated ++ facts) :
    Typed cfg A goal [] facts (Machine.recallKeys keys) := by
  induction keys generalizing facts with
  | nil => exact .done hgoal
  | cons key keys ih =>
    have hguard : ∀ f ∈ Fact.hydrated key :: facts, f.guard = none := by
      exact forall_mem_cons.mpr ⟨rfl, hfacts⟩
    have hnot : .cold key ∉ facts := fun hin =>
      absurd (hfacts _ hin) (Option.some_ne_none _)
    refine .acquire not_mem_nil (.hydrate (hkeys key mem_cons_self)
      mem_cons_self (by simp) (.refl facts) hnot
        (.release mem_cons_self (.refl (.hydrated key :: facts)) ?_ ?_))
    · intro f hf
      rw [hguard f hf]
      exact (Option.some_ne_none _).symm
    rw [erase_cons_head]
    apply ih (fun k hk => hkeys k (mem_cons_of_mem _ hk)) hguard
    refine List.Subset.trans hgoal ?_
    intro f hf
    simp only [map_cons, cons_append, mem_cons, mem_append] at hf ⊢
    tauto

/-- What a call promises when it returns without an error: the chunks of its range are on disk. -/
def Call.Reaches (cfg : Config) (A : Archive) (goal : List Fact) : Call → Prop
  | .ensureHydrated id offset length => ∀ entry, cfg.bindings id = some entry →
    ∀ key ∈ A.order, key.entry = entry →
      .hydrated key ∈ goal ∨ .allDurable ∈ goal ∨ A.Outside key offset (offset + length)
  | _ => True

variable {s : Machine} {entry : Entry} {offset length : Nat}

/-- The keys of a range are its stored chunks, and all that have a byte in it. -/
theorem keysForRange_spec (horder : s.info.order = A.order)
    (hchunk : s.info.chunkSize = A.chunkSize)
    (h : s.keysForRange entry offset length = .ok keys) :
    (∀ key ∈ keys, key ∈ A.order ∧ key.entry = entry) ∧ ∀ key ∈ A.order, key.entry = entry →
        key ∈ keys ∨ A.Outside key offset (offset + length) := by
  unfold Machine.keysForRange at h
  dsimp only at h
  rw [horder, hchunk] at h
  split_ifs at h with hinit hlen hrange hlast
  · cases h
    refine ⟨nofun, fun key _ _ => .inr ?_⟩
    intro x _ _
    omega
  cases h
  constructor
  · intro key hk
    obtain ⟨hmem, horder'⟩ := mem_filter.mp hk
    obtain ⟨chunk, -, rfl⟩ := mem_map.mp hmem
    exact ⟨of_decide_eq_true horder', rfl⟩
  · intro key hkey hentry
    by_cases hout : A.Outside key offset (offset + length)
    · exact .inr hout
    left
    unfold Archive.Outside at hout
    push Not at hout
    obtain ⟨x, hstart, hend, hlo, hhi⟩ := hout
    have hdiv := Archive.div_of_chunk hstart hend
    refine mem_filter.mpr ⟨mem_map.mpr ⟨key.chunk.toNat, ?_, ?_⟩, decide_eq_true hkey⟩
    · have hfirst : offset / A.chunkSize.toNat ≤ x / A.chunkSize.toNat :=
        Nat.div_le_div_right hlo
      have hlast : x / A.chunkSize.toNat ≤ (offset + length - 1) / A.chunkSize.toNat :=
        Nat.div_le_div_right (by omega)
      rw [List.mem_range'_1]
      omega
    · rw [UInt32.ofNat_toNat, ← hentry]

/-- The program is typed, from facts that hold now, and ends with what the call promises. -/
def Startable (cfg : Config) (A : Archive) (s : Machine) (call : Call) (prog : List Instr) : Prop :=
  ∃ goal facts, (∀ f ∈ facts, f.Holds A s ∧ f.guard = none) ∧ call.Reaches cfg A goal ∧
    Typed cfg A goal [] facts prog

variable {prog : List Instr} {call : Call}

private theorem startable_of_typed
    (hcall : call.Reaches cfg A []) (h : Typed cfg A [] [] [] prog) : Startable cfg A s call prog :=
  ⟨[], [], nofun, hcall, h⟩

private theorem typed_nil : Typed cfg A [] [] facts [] := .done (nil_subset _)

private theorem startable_converged (hall : s.AllDurable A) (hcall : call.Reaches cfg A [])
    (entry : Option Entry) (op : FileOp) : Startable cfg A s call [.apply entry op] := by
  refine ⟨[], [.allDurable], ?_, hcall, ?_⟩
  · intro f hf
    rw [mem_singleton.mp hf]
    exact ⟨hall, rfl⟩
  cases entry with
  | none => exact .applyUnbound typed_nil
  | some entry =>
    exact .applyConverged mem_cons_self (nil_subset _)
      nofun typed_nil

private theorem not_entry_mem_shardLocks : .entry entry ∉ (shardLocks keys).reverse := by
  intro hin
  obtain ⟨key, -, hlock⟩ := mem_shardLocks.mp (mem_reverse.mp hin)
  cases hlock

variable {key : ChunkKey}

private theorem shard_mem_shardLocks (h : key ∈ keys) :
    .shard (chunkLock key) ∈ (shardLocks keys).reverse :=
  mem_reverse.mpr (mem_shardLocks.mpr ⟨key, h, rfl⟩)

private theorem typed_unlock (entry : Entry) :
    Typed cfg A [] (.entry entry :: (shardLocks keys).reverse) facts
      (.release (.entry entry) :: (shardLocks keys).reverse.map .release) := by
  refine .release mem_cons_self (nil_subset _)
    nofun ?_
  rw [erase_cons_head]
  exact typed_release (nodup_reverse.mpr (nodup_shardLocks keys)) (.refl [])
    nofun

variable {id : Identity}

section

variable (horder : s.info.order = A.order)
include horder

private theorem startable_ensureHydrated
    (hchunk : s.info.chunkSize = A.chunkSize) (hconv : s.converged = true → s.AllDurable A)
 (h : s.program cfg (.ensureHydrated id offset length) = .ok prog) :
    Startable cfg A s (.ensureHydrated id offset length) prog := by
  unfold Machine.program at h
  dsimp only at h
  by_cases hstart : s.converged = true ∨ length = 0
  · rw [if_pos hstart] at h
    cases h
    rcases hstart with hc | rfl
    · refine ⟨[.allDurable], [.allDurable], ?_,
        fun entry _ key _ _ => .inr (.inl mem_cons_self), .done (.refl _)⟩
      intro f hf
      rw [mem_singleton.mp hf]
      exact ⟨hconv hc, rfl⟩
    · refine startable_of_typed (fun entry _ key _ _ => .inr (.inr ?_)) typed_nil
      intro x _ _
      omega
  rw [if_neg hstart] at h
  split at h
  · cases h
  next herr =>
  cases hbind : cfg.bindings id with
  | none =>
    rw [hbind] at h
    cases h
    refine startable_of_typed (fun entry he => ?_) typed_nil
    rw [hbind] at he
    cases he
  | some entry =>
    rw [hbind] at h
    dsimp only at h
    cases hkeys : s.keysForRange entry offset length with
    | error error =>
      rw [hkeys] at h
      cases h
    | ok keys =>
      rw [hkeys] at h
      cases h
      obtain ⟨hstored, hall⟩ := keysForRange_spec horder hchunk hkeys
      refine ⟨keys.map .hydrated, [], nofun, ?_, ?_⟩
      · intro entry' he key hkey hentry
        rw [hbind] at he
        cases he
        rcases hall key hkey hentry with hin | hout
        · exact .inl (mem_map_of_mem hin)
        · exact .inr (.inr hout)
      · apply typed_recallKeys (fun key hk => (hstored key hk).1)
          (fun f hf => absurd hf not_mem_nil)
        rw [append_nil]
        exact .refl _

private theorem startable_write (hchunk : s.info.chunkSize = A.chunkSize)
    (hconv : s.converged = true → s.AllDurable A) {op : RangeOp}
    (h : s.program cfg (.write id op) = .ok prog) : Startable cfg A s (.write id op) prog := by
  unfold Machine.program at h
  dsimp only at h
  by_cases hc : s.converged = true
  · rw [if_pos hc] at h
    cases h
    exact startable_converged (hconv hc) (by trivial) _ _
  rw [if_neg hc] at h
  by_cases hlen : op.hi - op.lo = 0
  · rw [if_pos hlen] at h
    split at h
    · cases h
    · cases h
      exact startable_of_typed trivial (.applyMetadata typed_nil)
  rw [if_neg hlen] at h
  cases hbind : cfg.bindings id with
  | none =>
    rw [hbind] at h
    cases h
    exact startable_of_typed trivial (.applyUnbound typed_nil)
  | some entry =>
    rw [hbind] at h
    dsimp only at h
    cases hkeys : s.keysForRange entry op.lo (op.hi - op.lo) with
    | error error =>
      rw [hkeys] at h
      cases h
    | ok keys =>
      rw [hkeys] at h
      cases h
      obtain ⟨hstored, hall⟩ := keysForRange_spec horder hchunk hkeys
      have hend : op.lo + (op.hi - op.lo) = op.hi := by omega
      rw [hend] at hall
      refine startable_of_typed (by trivial) (typed_locked ?_)
      rw [append_assoc]
      apply typed_hydrate
      · intro key hk
        exact ⟨(hstored key hk).1, shard_mem_shardLocks hk, not_entry_mem_shardLocks⟩
      · exact nofun
      refine .mark nodup_nil nofun ?_ (.refl _) nofun
        (.acquire not_entry_mem_shardLocks (.applyRange mem_cons_self ?_
          (nil_subset _) nofun (typed_unlock entry)))
      · intro entry' he
        cases he
        exact cfg.bindings_lt id entry hbind
      intro key hkey hentry
      rcases hall key hkey hentry with hin | hout
      · left
        refine ⟨?_, mem_cons_of_mem _ (shard_mem_shardLocks hin)⟩
        exact mem_append_right _ (mem_append_left _ (mem_map_of_mem hin))
      · exact .inr hout

private theorem startable_truncate (hconv : s.converged = true → s.AllDurable A)
    (hsized : ∀ entry, (Fact.sized entry (s.disk entry).length).Holds A s) {newSize : Nat}
    (h : s.program cfg (.truncate id newSize) = .ok prog) :
    Startable cfg A s (.truncate id newSize) prog := by
  unfold Machine.program at h
  dsimp only at h
  by_cases hc : s.converged = true
  · rw [if_pos hc] at h
    cases h
    exact startable_converged (hconv hc) (by trivial) _ _
  rw [if_neg hc] at h
  cases hbind : cfg.bindings id with
  | none =>
    rw [hbind] at h
    cases h
    exact startable_of_typed trivial (.applyUnbound typed_nil)
  | some entry =>
    rw [hbind] at h
    dsimp only at h
    rw [horder] at h
    cases h
    have hbound := cfg.bindings_lt id entry hbind
    have hheld : HoldsFile A (shardLocks (A.order.filter (·.entry = entry))).reverse entry := by
      intro key hkey hentry
      exact shard_mem_shardLocks (mem_filter.mpr ⟨hkey, decide_eq_true hentry⟩)
    have hheld' : HoldsFile A
        (.entry entry :: (shardLocks (A.order.filter (·.entry = entry))).reverse) entry :=
      fun key hkey hentry => mem_cons_of_mem _ (hheld key hkey hentry)
    refine ⟨[], [.sized entry (s.disk entry).length], ?_, trivial, typed_locked ?_⟩
    · intro f hf
      rw [mem_singleton.mp hf]
      exact ⟨hsized entry, rfl⟩
    refine .boundary mem_cons_self hheld not_entry_mem_shardLocks hbound
      (nil_subset _) nofun (fun but => ?_)
    refine .acquire not_entry_mem_shardLocks (.applyTruncate mem_cons_self hheld'
      mem_cons_self ?_ (nil_subset _) nofun ?_)
    · rintro key rfl
      exact mem_cons_of_mem _ mem_cons_self
    have hsync : ∀ f ∈ [Fact.shortSynced entry newSize],
        f ∈ [Fact.shortened entry newSize] ∨ f.BySync A entry [.shortened entry newSize] := by
      intro f hf
      rw [mem_singleton.mp hf]
      exact .inr (.shortSynced mem_cons_self)
    exact .sync hsync (.beyond mem_cons_self hheld' hbound mem_cons_self
      (nil_subset _) nofun (typed_unlock entry))

end

private theorem startable_userMutation (hconv : s.converged = true → s.AllDurable A)
    (h : s.program cfg (.userMutation id) = .ok prog) :
    Startable cfg A s (.userMutation id) prog := by
  unfold Machine.program at h
  dsimp only at h
  by_cases hc : s.converged = true
  · rw [if_pos hc] at h
    cases h
    exact startable_converged (hconv hc) (by trivial) _ _
  rw [if_neg hc] at h
  cases hbind : cfg.bindings id with
  | none =>
    rw [hbind] at h
    cases h
    exact startable_of_typed trivial (.applyUnbound typed_nil)
  | some entry =>
    rw [hbind] at h
    dsimp only at h
    split at h
    · cases h
    cases h
    refine startable_of_typed trivial (.acquire not_mem_nil (.mark nodup_nil
      nofun ?_ (.refl _)
      nofun (.applyMetadata (.release mem_cons_self (nil_subset _) nofun ?_))))
    · intro entry' he
      cases he
      exact cfg.bindings_lt id entry hbind
    · rw [erase_cons_head]
      exact typed_nil

private theorem startable_drain (horder : s.info.order = A.order)
    (h : s.program cfg (.drain key) = .ok prog) : Startable cfg A s (.drain key) prog := by
  unfold Machine.program at h
  dsimp only at h
  split at h
  · next hstart =>
    cases h
    refine startable_of_typed trivial (.acquire not_mem_nil (.reap (horder ▸ hstart.2.1)
      mem_cons_self (by simp) (nil_subset _) not_mem_nil
        (.release mem_cons_self (nil_subset _)
          nofun ?_)))
    rw [erase_cons_head]
    exact typed_nil
  · cases h
    exact startable_of_typed trivial typed_nil

/-- Every call starts with a typed program. -/
theorem startable_program (horder : s.info.order = A.order)
    (hchunk : s.info.chunkSize = A.chunkSize) (hconv : s.converged = true → s.AllDurable A)
    (hsized : ∀ entry, (Fact.sized entry (s.disk entry).length).Holds A s)
    (h : s.program cfg call = .ok prog) : Startable cfg A s call prog := by
  cases call with
  | ensureHydrated id offset length => exact startable_ensureHydrated horder hchunk hconv h
  | write id op => exact startable_write horder hchunk hconv h
  | truncate id newSize => exact startable_truncate horder hconv hsized h
  | userMutation id => exact startable_userMutation hconv h
  | drain key => exact startable_drain horder h

end Programs

end PortableFS.Restore
