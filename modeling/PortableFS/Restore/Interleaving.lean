import PortableFS.Restore.Facts
import PortableFS.Restore.MapDurability

/-!
# Every interleaving of a restoring volume

The invariant of the restore mode: every file is its content up to cold chunks, its synced state
up to chunks that are not durably marked, and a chunk that is not marked still has its sealed
bytes in the content of its file. Each instruction of each thread keeps it, given what the thread
relies on; a failed fetch, `PWrite`, `RestoreMtime` or `Fdatasync` ends a thread without breaking
it. Only failures of the map file are excluded.
-/

namespace PortableFS.Restore

open Base.ByteFile Function List

/-- The map of a mode whose map file never failed: it records every mark once, marks only stored
chunks and bound entries, and a durable chunk is hydrated. -/
def HydrationMap.Sane (cfg : Config) (A : Archive) (config : MapConfig) (m : HydrationMap) : Prop :=
  ∃ records : List MapRecord, m.Exact config records ∧ records.Nodup ∧
    (∀ key, .chunk key ∈ records → key ∈ A.order) ∧
    (∀ entry, .user entry ∈ records → entry.toNat < cfg.entries) ∧ m.durable ⊆ m.hydrated

section Sane

variable {cfg : Config} {A : Archive} {config : MapConfig} {m : HydrationMap}

/-- Records without repetition of stored chunks and bound entries fit the bound of the map. -/
theorem length_le_of_records {records : List MapRecord} (hnodup : records.Nodup)
    (hchunk : ∀ key, .chunk key ∈ records → key ∈ A.order)
    (huser : ∀ entry, .user entry ∈ records → entry.toNat < cfg.entries) :
    records.length ≤ A.order.length + cfg.entries := by
  have hsub : records ⊆ A.order.map .chunk ++
      (range cfg.entries).map fun n => .user (UInt32.ofNat n) := by
    intro r hr
    cases r with
    | chunk key => exact mem_append_left _ (mem_map_of_mem (hchunk key hr))
    | user entry =>
      refine mem_append_right _ (mem_map.mpr ⟨entry.toNat, ?_, ?_⟩)
      · exact mem_range.mpr (huser entry hr)
      · rw [UInt32.ofNat_toNat]
  have hle := (subperm_of_subset hnodup hsub).length_le
  simpa using hle

variable {keys : List ChunkKey}

private theorem nodup_newRecords (hnodup : keys.Nodup)
    (userEntry : Option Entry) : (m.newRecords keys userEntry).Nodup := by
  unfold HydrationMap.newRecords
  refine List.Nodup.append ?_ ?_ ?_
  · exact (hnodup.filter _).map fun a b h => MapRecord.chunk.inj h
  · refine List.Nodup.map (fun a b h => MapRecord.user.inj h) (List.Nodup.filter _ ?_)
    cases userEntry with
    | none => exact nodup_nil
    | some entry => exact nodup_singleton entry
  · intro r hr hr'
    obtain ⟨key, -, rfl⟩ := mem_map.mp hr
    obtain ⟨entry, -, h⟩ := mem_map.mp hr'
    cases h

/-- A mark of stored chunks by a bound entry succeeds and keeps the map sane. -/
theorem HydrationMap.Sane.mark (h : m.Sane cfg A config)
    (hmax : A.order.length + cfg.entries ≤ config.maxRecords)
    {userEntry : Option Entry} (hnodup : keys.Nodup) (hkeys : ∀ key ∈ keys, key ∈ A.order)
    (huser : ∀ entry, userEntry = some entry → entry.toNat < cfg.entries) :
    ∃ m', m.markDurable keys userEntry .none = (m', .ok ()) ∧ m'.Sane cfg A config ∧
      m'.hydrated = m.hydrated ∪ keys.toFinset ∧ m'.durable = m.durable ∪ keys.toFinset := by
  obtain ⟨records, hexact, hrecords, hchunk, hentry, hsub⟩ := h
  have hall : (records ++ m.newRecords keys userEntry).Nodup := by
    refine List.Nodup.append hrecords (nodup_newRecords hnodup userEntry) ?_
    intro r hr hr'
    cases r with
    | chunk key => exact (mem_newRecords_chunk.mp hr').2 ((hexact.durable key).mpr hr)
    | user entry => exact (mem_newRecords_user.mp hr').2 ((hexact.modified entry).mpr hr)
  have hchunk' : ∀ key, .chunk key ∈ records ++ m.newRecords keys userEntry → key ∈ A.order := by
    intro key hk
    rcases mem_append.mp hk with hk | hk
    · exact hchunk key hk
    · exact hkeys key (mem_newRecords_chunk.mp hk).1
  have hentry' : ∀ entry, .user entry ∈ records ++ m.newRecords keys userEntry →
      entry.toNat < cfg.entries := by
    intro entry he
    rcases mem_append.mp he with he | he
    · exact hentry entry he
    · exact huser entry (mem_newRecords_user.mp he).1
  have hfit := length_le_of_records hall hchunk' hentry'
  rw [length_append] at hfit
  obtain ⟨m', hm', hexact', hh, hd, -⟩ :=
    hexact.markDurable hsub keys userEntry (hfit.trans hmax)
  refine ⟨m', hm', ⟨_, hexact', hall, hchunk', hentry', ?_⟩, hh, hd⟩
  rw [hh, hd]
  exact Finset.union_subset_union_left hsub

theorem HydrationMap.Sane.markLazy (h : m.Sane cfg A config) (key : ChunkKey) :
    (m.markLazy key).Sane cfg A config := by
  obtain ⟨records, hexact, hrecords, hchunk, hentry, hsub⟩ := h
  exact ⟨records, { hexact with }, hrecords, hchunk, hentry,
    hsub.trans (Finset.subset_insert key m.hydrated)⟩

end Sane

/-- Every file the store holds is its content up to cold chunks, also as last synced, and chunks
that are not marked nor about to be have their sealed bytes in the content. -/
def Machine.ContentOk (A : Archive) (s : Machine) : Prop :=
  ∀ entry, s.present entry = true →
    A.Warm entry (s.disk entry) (s.content A entry) s.hydratedKeys ∧
      A.Warm entry (s.stable entry) (s.stableContent A entry) s.durableKeys ∧
      (s.storageFailed = false → ∀ key, s.Open A entry key → A.Intact key (s.content A entry))

/-- The thread has typed work left and the facts it relies on hold, each under a lock it holds. -/
def Thread.Ok (cfg : Config) (A : Archive) (s : Machine) (th : Thread) : Prop :=
  th.held.Nodup ∧ ∃ goal facts,
    (∀ f ∈ facts, f.Holds A s ∧ ∀ lock, f.guard = some lock → lock ∈ th.held) ∧
      (th.error = none → th.call.Reaches cfg A goal) ∧
      Typed cfg A goal th.held facts th.prog

/-- The invariant of a mode that has INFO. -/
structure Machine.Inv (cfg : Config) (A : Archive) (s : Machine) : Prop where
  initialized : s.initialized = true
  order : s.info.order = A.order
  chunkSize : s.info.chunkSize = A.chunkSize
  fits : A.order.length ≤ cfg.maxStoredChunks
  map : ∃ m, s.map = some m ∧ m.Sane cfg A (Machine.mapConfig cfg s.info)
  panicked : s.panicked = false
  converged : s.converged = true → s.AllDurable A
  owns : ∀ t th, s.threads t = some th → ∀ lock ∈ th.held, s.locks lock = some t
  content : s.ContentOk A
  threads : ∀ t th, s.threads t = some th → th.Ok cfg A s

namespace Machine

variable {cfg : Config} {A : Archive} {s s' : Machine} {t : Tid} {th th' : Thread}

theorem Inv.warm (h : s.Inv cfg A) (entry : Entry) (hp : s.present entry = true) :
    A.Warm entry (s.disk entry) (s.content A entry) s.hydratedKeys :=
  (h.content entry hp).1

/-- What a step of one thread has to show; the other threads follow. `mine` are locks that no
other thread holds. -/
theorem Inv.advance (h : s.Inv cfg A) {mine : List Lock}
    (hmine : ∀ u thu, u ≠ t → s.threads u = some thu → ∀ lock ∈ thu.held, lock ∉ mine)
    (hmode : SameMode s s') (hthreads : s'.threads = update s.threads t (some th'))
    (hlocks : ∀ lock u, u ≠ t → s.locks lock = some u → s'.locks lock = some u)
    (howns : ∀ lock ∈ th'.held, s'.locks lock = some t) (hev : s.Evolves A s')
    (hcold : ∀ key, key ∈ s'.hydratedKeys → key ∉ s.hydratedKeys → .shard (chunkLock key) ∈ mine)
    (hfile : ∀ entry, s.SameFile A s' entry ∨ .entry entry ∈ mine ∨ s.AllDurable A)
    (hmap : ∃ m, s'.map = some m ∧ m.Sane cfg A (mapConfig cfg s'.info))
    (hpanic : s'.panicked = false) (hcontent : s'.ContentOk A) (hok : th'.Ok cfg A s') :
    s'.Inv cfg A := by
  have hself : s'.threads t = some th' := by rw [hthreads, update_self]
  have hother : ∀ u, u ≠ t → s'.threads u = s.threads u := by
    intro u hu
    rw [hthreads, update_of_ne hu]
  refine ⟨hmode.initialized.trans h.initialized, by rw [hmode.info]; exact h.order,
    by rw [hmode.info]; exact h.chunkSize, h.fits, hmap, hpanic, ?_, ?_, hcontent, ?_⟩
  · intro hc
    exact hev.allDurable (h.converged (hmode.converged ▸ hc))
  · intro u thu hu lock hlock
    by_cases hut : u = t
    · subst hut
      rw [hself] at hu
      cases hu
      exact howns lock hlock
    · rw [hother u hut] at hu
      exact hlocks lock u hut (h.owns u thu hu lock hlock)
  intro u thu hu
  by_cases hut : u = t
  · subst hut
    rw [hself] at hu
    cases hu
    exact hok
  rw [hother u hut] at hu
  obtain ⟨hnodup, goal, facts, hfacts, hgoal, hty⟩ := h.threads u thu hu
  refine ⟨hnodup, goal, facts, fun f hf => ⟨?_, (hfacts f hf).2⟩, hgoal, hty⟩
  have hexcl : ∀ lock, f.guard = some lock → lock ∉ mine :=
    fun lock hguard => hmine u thu hut hu lock ((hfacts f hf).2 lock hguard)
  refine (hfacts f hf).1.evolve hev h.warm ?_ ?_
  · rintro key rfl hin
    exact hexcl _ rfl (hcold key hin (hfacts _ hf).1)
  intro entry hguard
  rcases hfile entry with hsame | hheld | hall
  · exact .inl hsame
  · exact absurd hheld (hexcl _ hguard)
  · exact .inr hall

/-- No two threads hold one lock. -/
theorem Inv.exclusive (h : s.Inv cfg A) (hth : s.threads t = some th) :
    ∀ u thu, u ≠ t → s.threads u = some thu → ∀ lock ∈ thu.held, lock ∉ th.held := by
  intro u thu hut hu lock hlock hheld
  have hmine := h.owns u thu hu lock hlock
  rw [h.owns t th hth lock hheld] at hmine
  exact hut (Option.some.inj hmine).symm

variable {key : ChunkKey} {i : Instr} {rest : List Instr}

/-- The instruction at the head of a thread that is about to mark a chunk. -/
theorem closing_head (h : th.Closing A key) (hprog : th.prog = i :: rest) :
    (i = .sync key.entry ∧ ∃ keys size rest', rest = .beyond key.entry keys size :: rest' ∧
      key ∈ keys ∧ size ≤ A.chunkStart key) ∨
    ∃ keys size, i = .beyond key.entry keys size ∧ key ∈ keys ∧ size ≤ A.chunkStart key := by
  obtain ⟨keys, size, rest', hp | hp, hkey, hsize⟩ := h
  · rw [hprog] at hp
    obtain ⟨rfl, rfl⟩ := cons.inj hp
    exact .inl ⟨rfl, keys, size, rest', rfl, hkey, hsize⟩
  · rw [hprog] at hp
    obtain ⟨rfl, rfl⟩ := cons.inj hp
    exact .inr ⟨keys, size, rfl, hkey, hsize⟩

theorem not_closing_of_head (hprog : th.prog = i :: rest)
    (hsync : ∀ entry, i ≠ .sync entry := by simp)
    (hbeyond : ∀ entry keys size, i ≠ .beyond entry keys size := by simp)
    (key : ChunkKey) : ¬th.Closing A key := by
  intro hc
  rcases closing_head hc hprog with ⟨hi, -⟩ | ⟨keys, size, hi, -⟩
  · exact hsync _ hi
  · exact hbeyond _ _ _ hi

private theorem closing_holds {goal : List Fact} {held : List Lock} {facts : List Fact}
    (hc : th.Closing A key) (hty : Typed cfg A goal held facts th.prog) :
    .entry key.entry ∈ held := by
  obtain ⟨keys, size, rest, hp | hp, -⟩ := hc
  · rw [hp] at hty
    cases hty with
    | sync _ h =>
      cases h with
      | beyond hentry _ _ _ _ _ _ => exact hentry
  · rw [hp] at hty
    cases hty with
    | beyond hentry _ _ _ _ _ _ => exact hentry

/-- No other thread is about to mark a chunk of a file whose lock the thread holds. -/
theorem Inv.not_closing (h : s.Inv cfg A) (hth : s.threads t = some th)
    (hheld : .entry key.entry ∈ th.held) (hnot : ¬th.Closing A key) : ¬s.Closing A key := by
  rintro ⟨u, thu, hu, hc⟩
  by_cases hut : u = t
  · subst hut
    rw [hth] at hu
    cases hu
    exact hnot hc
  · obtain ⟨-, goal, facts, -, -, hty⟩ := h.threads u thu hu
    exact h.exclusive hth u thu hut hu _ (closing_holds hc hty) hheld

theorem closing_update (hth : s.threads t = some th)
    (hthreads : s'.threads = update s.threads t (some th'))
    (hown : th.Closing A key → th'.Closing A key ∨ key ∈ s'.durableKeys ∨ s'.storageFailed = true)
    (hc : s.Closing A key) : s'.Closing A key ∨ key ∈ s'.durableKeys ∨ s'.storageFailed = true := by
  obtain ⟨u, thu, hu, hclosing⟩ := hc
  by_cases hut : u = t
  · subst hut
    rw [hth] at hu
    cases hu
    rcases hown hclosing with hc' | hrest
    · exact .inl ⟨u, th', by rw [hthreads, update_self], hc'⟩
    · exact .inr hrest
  · exact .inl ⟨u, thu, by rw [hthreads, update_of_ne hut]; exact hu, hclosing⟩

/-- Files, what they should hold and the map are the same; a file may have been dropped and the
storage may have failed. -/
structure SameData (A : Archive) (s s' : Machine) : Prop where
  map : s'.map = s.map
  disk : s'.disk = s.disk
  content : s'.content A = s.content A
  stable : s'.stable = s.stable
  stableLog : s'.stableLog = s.stableLog
  present : ∀ entry, s'.present entry = true → s.present entry = true
  storage : s'.storageFailed = false → s.storageFailed = false

section

variable (h : SameData A s s')
include h

theorem SameData.hydratedKeys : s'.hydratedKeys = s.hydratedKeys := by
  unfold Machine.hydratedKeys
  rw [h.map]

theorem SameData.durableKeys : s'.durableKeys = s.durableKeys := by
  unfold Machine.durableKeys
  rw [h.map]

theorem SameData.stableContent (entry : Entry) :
    s'.stableContent A entry = s.stableContent A entry := by
  unfold Machine.stableContent
  rw [h.stableLog]

theorem SameData.sameFile (entry : Entry) : s.SameFile A s' entry :=
  ⟨by rw [h.disk], by rw [h.content]⟩

theorem SameData.evolves (hclosing : ∀ key, s.Closing A key →
      s'.Closing A key ∨ key ∈ s'.durableKeys ∨ s'.storageFailed = true) : s.Evolves A s' where
  present := h.present
  hydrated := h.hydratedKeys.ge
  durable := h.durableKeys.ge
  storage := h.storage
  stable entry := .inl ⟨by rw [h.stable], h.stableContent entry⟩
  closing key _ := hclosing key

theorem SameData.contentOk (hev : s.Evolves A s') (hs : s.ContentOk A) : s'.ContentOk A := by
  intro entry hp
  obtain ⟨hdisk, hstable, hintact⟩ := hs entry (hev.present entry hp)
  rw [h.disk, h.stable, h.content, h.stableContent, h.hydratedKeys, h.durableKeys]
  exact ⟨hdisk, hstable, fun hf key ho => hintact (h.storage hf) key (hev.open hf ho)⟩

/-- Facts survive a step that leaves files and map alone. -/
theorem SameData.holds (hev : s.Evolves A s') (hs : s.Inv cfg A) {f : Fact}
    (hf : f.Holds A s) : f.Holds A s' := by
  refine hf.evolve hev hs.warm ?_ (fun entry _ => .inl (h.sameFile entry))
  rintro key rfl
  rw [h.hydratedKeys]
  exact hf

end

/-- A thread moves on over the same files and map. -/
theorem Inv.quiet (h : s.Inv cfg A) (hth : s.threads t = some th) (hmode : SameMode s s')
    (hdata : SameData A s s') (hpanic : s'.panicked = s.panicked)
    (hthreads : s'.threads = update s.threads t (some th'))
    (hlocks : ∀ lock u, u ≠ t → s.locks lock = some u → s'.locks lock = some u)
    (howns : ∀ lock ∈ th'.held, s'.locks lock = some t)
    (hclosing : ∀ key, th.Closing A key → th'.Closing A key ∨ s'.storageFailed = true)
    (hok : (∀ f : Fact, f.Holds A s → f.Holds A s') → th'.Ok cfg A s') : s'.Inv cfg A := by
  have hev : s.Evolves A s' := by
    refine hdata.evolves fun key hc => closing_update hth hthreads (fun hown => ?_) hc
    rcases hclosing key hown with hc' | hf
    · exact .inl hc'
    · exact .inr (.inr hf)
  refine h.advance (h.exclusive hth) hmode hthreads hlocks howns hev ?_
    (fun entry => .inl (hdata.sameFile entry)) ?_ (hpanic.trans h.panicked)
    (hdata.contentOk hev h.content) (hok fun f hf => hdata.holds hev h hf)
  · intro key hin hnot
    rw [hdata.hydratedKeys] at hin
    exact absurd hin hnot
  · rw [hdata.map, hmode.info]
    exact h.map

/-- A thread gives up over the same files and map. -/
theorem Inv.gaveUp (h : s.Inv cfg A) (hth : s.threads t = some th) (hmode : SameMode s s')
    (hdata : SameData A s s') (hpanic : s'.panicked = s.panicked) {error : RestoreError}
    (hthreads : s'.threads = update s.threads t
      (some { th with prog := th.held.map .release, error := some error }))
    (hlocks : s'.locks = s.locks) (hclosing : ∀ key, th.Closing A key → s'.storageFailed = true) :
    s'.Inv cfg A := by
  obtain ⟨hnodup, -⟩ := h.threads t th hth
  refine h.quiet hth hmode hdata hpanic hthreads (fun lock u _ hu => by rw [hlocks]; exact hu)
    (fun lock hl => by rw [hlocks]; exact h.owns t th hth lock hl)
    (fun key hc => .inr (hclosing key hc)) (fun _ => ?_)
  exact ⟨hnodup, [], [], nofun,
    fun he => absurd he (Option.some_ne_none error), typed_release hnodup (.refl []) nofun⟩

end Machine

end PortableFS.Restore
