import PortableFS.Restore.Map

/-!
# What the hydration map keeps through failures and crashes

`vcs/internal/restoremode/map.go:37` (`openHydrationMap`), `:92` (`replay`) and `:165`
(`markDurable`). The file of a map is a header and whole records, up to a torn rest that only a
failed append leaves. As long as no call appends behind such a rest, or beyond the records that
`replay` accepts, every crash leaves a file that reopens with all acknowledged marks.
-/

namespace PortableFS.Restore

open Base.Frames HydrationMap List

/-- The sets after a list of records. -/
theorem HydrationMap.takeAll_encode (m : HydrationMap) (index : Nat) (records : List MapRecord) :
    m.takeAll index (records.map MapRecord.encode) = .ok (records.foldl take m) := by
  induction records generalizing m index with
  | nil => rfl
  | cons r rs ih =>
    rw [map_cons, takeAll, parseMapRecord_encode]
    exact ih (m.take r) (index + 1)

/-- What taking records leaves alone, and what it adds. -/
private structure Taken (m m' : HydrationMap) (records : List MapRecord) : Prop where
  config : m'.toMapConfig = m.toMapConfig
  bytes : m'.bytes = m.bytes
  synced : m'.synced = m.synced
  hydrated : ∀ key, key ∈ m'.hydrated ↔ key ∈ m.hydrated ∨ .chunk key ∈ records
  durable : ∀ key, key ∈ m'.durable ↔ key ∈ m.durable ∨ .chunk key ∈ records
  modified : ∀ entry, entry ∈ m'.modified ↔ entry ∈ m.modified ∨ .user entry ∈ records

private theorem HydrationMap.taken_take (m : HydrationMap) (r : MapRecord) :
    Taken m (m.take r) [r] := by
  cases r with
  | chunk key =>
    refine ⟨rfl, rfl, rfl, ?_, ?_, ?_⟩
    · simp [take, or_comm]
    · simp [take, or_comm]
    · simp [take]
  | user entry =>
    refine ⟨rfl, rfl, rfl, ?_, ?_, ?_⟩
    · simp [take]
    · simp [take]
    · simp [take, or_comm]

private theorem Taken.trans {m₁ m₂ m₃ : HydrationMap} {rs rs' : List MapRecord}
    (h : Taken m₁ m₂ rs) (h' : Taken m₂ m₃ rs') : Taken m₁ m₃ (rs ++ rs') where
  config := h'.config.trans h.config
  bytes := h'.bytes.trans h.bytes
  synced := h'.synced.trans h.synced
  hydrated key := by rw [h'.hydrated, h.hydrated, mem_append, or_assoc]
  durable key := by rw [h'.durable, h.durable, mem_append, or_assoc]
  modified entry := by rw [h'.modified, h.modified, mem_append, or_assoc]

private theorem HydrationMap.taken_foldl (m : HydrationMap) (records : List MapRecord) :
    Taken m (records.foldl take m) records := by
  induction records generalizing m with
  | nil => constructor <;> simp
  | cons r rs ih => exact (m.taken_take r).trans (ih (m.take r))

theorem length_mapHeader (config : MapConfig) : (mapHeader config).length = mapHeaderBytes := by
  simp [mapHeader, mapMagic, length_putUint32, mapHeaderBytes]

private theorem mapHeader_fields (config : MapConfig) : let header := mapHeader config
    header.take 16 = mapMagic ∧ uint32 ((header.drop 16).take 4) = mapVersion ∧
      uint32 ((header.drop 20).take 4) = config.chunkSize ∧
      header.drop 24 = config.digest.toList := by
  refine ⟨rfl, ?_, ?_, rfl⟩
  · exact uint32_putUint32 mapVersion []
  · exact uint32_putUint32 config.chunkSize []

/-- A file is a header for this configuration and the given whole records, and maybe a torn
rest. -/
def Holds (config : MapConfig) (bytes : List UInt8) (records : List MapRecord) : Prop :=
  bytes.take mapHeaderBytes = mapHeader config ∧
    frames mapRecordBytes (bytes.drop mapHeaderBytes) = records.map MapRecord.encode

section Holds

variable {config : MapConfig} {bytes : List UInt8} {records : List MapRecord}

section

variable (h : Holds config bytes records)
include h

theorem Holds.header_le : mapHeaderBytes ≤ bytes.length := by
  have hlen := congrArg List.length h.1
  rw [length_mapHeader, length_take] at hlen
  omega

theorem Holds.count : (bytes.length - mapHeaderBytes) / mapRecordBytes = records.length := by
  have hlen := congrArg List.length h.2
  rwa [length_frames, length_drop, length_map] at hlen

/-- A cut above the header leaves the records that lie below it. -/
theorem Holds.take {n : Nat} (hn : mapHeaderBytes ≤ n) :
    Holds config (bytes.take n) (records.take ((n - mapHeaderBytes) / mapRecordBytes)) := by
  constructor
  · rw [take_take, Nat.min_eq_left hn]
    exact h.1
  · rw [drop_take, frames_take, h.2, map_take]

end

private theorem length_of_mem_encode {records : List MapRecord} {f : List UInt8}
    (hf : f ∈ records.map MapRecord.encode) : f.length = mapRecordBytes := by
  obtain ⟨r, -, rfl⟩ := mem_map.mp hf
  exact r.length_encode

theorem length_encodeAll (records : List MapRecord) :
    (encodeAll records).length = mapRecordBytes * records.length := by
  rw [encodeAll, length_flatten_frames fun _ hf => length_of_mem_encode hf, length_map]

/-- Appending a part of encoded records behind whole ones. -/
theorem Holds.append (h : Holds config bytes records)
    (hwhole : (bytes.length - mapHeaderBytes) % mapRecordBytes = 0) (more : List MapRecord)
    (n : Nat) :
    Holds config (bytes ++ (encodeAll more).take n)
      (records ++ more.take (n / mapRecordBytes)) := by
  have hle := h.header_le
  have hmore : frames mapRecordBytes (encodeAll more) = more.map MapRecord.encode :=
    frames_flatten (by decide) fun _ hf => length_of_mem_encode hf
  constructor
  · rw [take_append_of_le_length hle]
    exact h.1
  · rw [drop_append_of_le_length hle,
      frames_append (by decide) (by rwa [length_drop]), h.2, frames_take, hmore,
      map_append, map_take]

end Holds

/-- The file of the map holds the given records and nothing else, all of it synced, and the map
knows them: its state while no append and no sync has failed. -/
structure HydrationMap.Exact (config : MapConfig) (records : List MapRecord)
    (m : HydrationMap) : Prop where
  config : m.toMapConfig = config
  holds : Holds m.toMapConfig m.bytes records
  whole : m.bytes.length = mapHeaderBytes + records.length * mapRecordBytes
  synced : m.synced = m.bytes.length
  count : m.records = records.length
  durable : ∀ key, key ∈ m.durable ↔ .chunk key ∈ records
  modified : ∀ entry, entry ∈ m.modified ↔ .user entry ∈ records

/-- A map as `openHydrationMap` leaves it over the given records. -/
structure Reopened (config : MapConfig) (records : List MapRecord) (m : HydrationMap) : Prop
    extends m.Exact config records where
  hydrated : ∀ key, key ∈ m.hydrated ↔ .chunk key ∈ records

/-- The bounds that `openHydrationMap` asks for. -/
def MapConfig.Valid (config : MapConfig) : Prop := config.chunkSize ≠ 0 ∧ config.maxRecords ≠ 0

variable {config : MapConfig} {bytes : List UInt8} {records : List MapRecord}

/-- A file of whole records, torn or not, reopens with exactly these records. -/
theorem openHydrationMap_of_holds (hvalid : config.Valid)
    (h : Holds config bytes records) (hbound : records.length ≤ config.maxRecords) :
    ∃ m, openHydrationMap config bytes = .ok m ∧ Reopened config records m := by
  obtain ⟨hsize, hmax⟩ := hvalid
  have hle := h.header_le
  have hpos : bytes.length ≠ 0 := by
    have : 0 < mapHeaderBytes := by decide
    omega
  obtain ⟨hmagic, hversion, hchunk, hdigest⟩ := mapHeader_fields config
  -- the torn rest goes, every whole record stays
  have hcut : Holds config
      (bytes.take (mapHeaderBytes + records.length * mapRecordBytes)) records := by
    have ht := h.take (Nat.le_add_right mapHeaderBytes (records.length * mapRecordBytes))
    rwa [Nat.add_sub_cancel_left, Nat.mul_div_cancel _ (by decide), take_length] at ht
  have hlen : (bytes.take (mapHeaderBytes + records.length * mapRecordBytes)).length =
      mapHeaderBytes + records.length * mapRecordBytes := by
    have hfit := Nat.div_mul_le_self (bytes.length - mapHeaderBytes) mapRecordBytes
    rw [h.count] at hfit
    rw [length_take]
    omega
  unfold openHydrationMap
  rw [if_neg (by tauto), if_neg hpos]
  unfold replay
  dsimp only
  rw [if_neg (by omega), h.1, hmagic, hversion, hchunk, hdigest, if_neg (by tauto), h.count,
    if_neg (by omega), hcut.2, takeAll_encode]
  refine ⟨_, rfl, ?_⟩
  obtain ⟨h1, h4, h5, hh, hd, hu⟩ := taken_foldl
    ⟨config, bytes.take (mapHeaderBytes + records.length * mapRecordBytes),
      (bytes.take (mapHeaderBytes + records.length * mapRecordBytes)).length, 0, ∅, ∅, ∅⟩ records
  refine ⟨⟨h1, ?_, ?_, ?_, rfl, ?_, ?_⟩, ?_⟩
  · rw [h4, h1]
    exact hcut
  · rw [h4]
    exact hlen
  · rw [h5, h4]
  · intro key
    simpa using hd key
  · intro entry
    simpa using hu entry
  · intro key
    simpa using hh key

/-- A map with the marks that were asked for and those that were acknowledged. -/
structure MapRun where
  map : HydrationMap
  acked : Finset ChunkKey
  passed : Finset ChunkKey
  ackedUsers : Finset Entry
  passedUsers : Finset Entry

/-- A call of `markDurable`, recorded with its answer. -/
def MapRun.mark (r : MapRun) (keys : List ChunkKey) (userEntry : Option Entry) (fault : Fault) :
    MapRun :=
  let called := { r with
    map := (r.map.markDurable keys userEntry fault).1
    passed := r.passed ∪ keys.toFinset
    passedUsers := r.passedUsers ∪ userEntry.toFinset }
  match (r.map.markDurable keys userEntry fault).2 with
  | .ok _ => { called with
      acked := r.acked ∪ keys.toFinset
      ackedUsers := r.ackedUsers ∪ userEntry.toFinset }
  | .error _ => called

/-- The bytes that are left after a crash: `keep` of them, but all that were synced. -/
def HydrationMap.crash (m : HydrationMap) (keep : Nat) : List UInt8 :=
  m.bytes.take (max m.synced keep)

/-- The file of the map reopened after a crash. -/
def HydrationMap.reopen (m : HydrationMap) (keep : Nat) : Except MapError HydrationMap :=
  openHydrationMap m.toMapConfig (m.crash keep)

/-- Whenever a call appends, the file holds whole records only, and with the new ones no more
than `replay` accepts. Without failures this always holds; a failed append or sync leaves bytes
that the next call does not account for. -/
def HydrationMap.Appendable (m : HydrationMap) (keys : List ChunkKey)
    (userEntry : Option Entry) : Prop :=
  m.newRecords keys userEntry ≠ [] →
    m.records + (m.newRecords keys userEntry).length ≤ m.maxRecords →
    (m.bytes.length - mapHeaderBytes) % mapRecordBytes = 0 ∧
      (m.bytes.length - mapHeaderBytes) / mapRecordBytes +
        (m.newRecords keys userEntry).length ≤ m.maxRecords

instance (m : HydrationMap) (keys : List ChunkKey) (userEntry : Option Entry) :
    Decidable (m.Appendable keys userEntry) :=
  inferInstanceAs (Decidable (_ → _ → _))

/-- The histories of a map in which every call that appends finds whole records and room for its
own: calls of `markDurable` that may fail in every way, lazy marks, and crashes after which the
map is reopened. -/
inductive MapRun.Reached (config : MapConfig) : MapRun → Prop where
  | opened {m : HydrationMap} (h : openHydrationMap config [] = .ok m) :
      Reached config ⟨m, ∅, ∅, ∅, ∅⟩
  | mark {r : MapRun} (h : Reached config r) (keys : List ChunkKey) (userEntry : Option Entry)
      (fault : Fault) (hroom : r.map.Appendable keys userEntry) :
      Reached config (r.mark keys userEntry fault)
  | lazy {r : MapRun} (h : Reached config r) (key : ChunkKey) :
      Reached config { r with map := r.map.markLazy key }
  | crash {r : MapRun} {m : HydrationMap} (h : Reached config r) (keep : Nat)
      (hm : r.map.reopen keep = .ok m) : Reached config { r with map := m }

/-- The file holds the records `records`, the first `safe` of them synced; these contain every
acknowledged mark, and no record is of a mark that was never asked for. -/
structure MapRun.Kept (r : MapRun) (records : List MapRecord) (safe : Nat) : Prop where
  valid : r.map.toMapConfig.Valid
  holds : Holds r.map.toMapConfig r.map.bytes records
  bound : records.length ≤ r.map.maxRecords
  safeLe : safe ≤ records.length
  synced : r.map.synced = mapHeaderBytes + safe * mapRecordBytes
  acked : ∀ key ∈ r.acked, .chunk key ∈ records.take safe
  durable : ∀ key ∈ r.map.durable, .chunk key ∈ records.take safe
  passed : ∀ key, .chunk key ∈ records → key ∈ r.passed
  ackedUsers : ∀ entry ∈ r.ackedUsers, .user entry ∈ records.take safe
  modified : ∀ entry ∈ r.map.modified, .user entry ∈ records.take safe
  passedUsers : ∀ entry, .user entry ∈ records → entry ∈ r.passedUsers

variable {m : HydrationMap} {keys : List ChunkKey} {userEntry : Option Entry} {key : ChunkKey}

theorem HydrationMap.mem_newRecords_chunk
    : .chunk key ∈ m.newRecords keys userEntry ↔ key ∈ keys ∧ key ∉ m.durable := by
  simp [newRecords, isDurable]

variable {entry : Entry}

theorem HydrationMap.mem_newRecords_user :
    .user entry ∈ m.newRecords keys userEntry ↔ userEntry = some entry ∧ entry ∉ m.modified := by
  simp [newRecords, isModified]

/-- A call on a map without failures, whose new records fit: it succeeds and adds its marks. -/
theorem HydrationMap.Exact.markDurable (h : m.Exact config records)
    (hsub : m.durable ⊆ m.hydrated) (keys : List ChunkKey) (userEntry : Option Entry)
    (hfit : records.length + (m.newRecords keys userEntry).length ≤ config.maxRecords) :
    ∃ m', m.markDurable keys userEntry .none = (m', .ok ()) ∧
      m'.Exact config (records ++ m.newRecords keys userEntry) ∧
      m'.hydrated = m.hydrated ∪ keys.toFinset ∧ m'.durable = m.durable ∪ keys.toFinset ∧
      m'.modified = m.modified ∪ userEntry.toFinset := by
  unfold HydrationMap.markDurable
  by_cases hnone : m.newRecords keys userEntry = []
  · -- every mark is there already
    have hkeys : keys.toFinset ⊆ m.durable := by
      intro key hk
      by_contra hd
      have hnew : .chunk key ∈ m.newRecords keys userEntry :=
        mem_newRecords_chunk.mpr ⟨mem_toFinset.mp hk, hd⟩
      rw [hnone] at hnew
      exact not_mem_nil hnew
    have huser : userEntry.toFinset ⊆ m.modified := by
      intro entry he
      by_contra hd
      have hnew : .user entry ∈ m.newRecords keys userEntry :=
        mem_newRecords_user.mpr ⟨Option.mem_toFinset.mp he, hd⟩
      rw [hnone] at hnew
      exact not_mem_nil hnew
    refine ⟨m, if_pos hnone, ?_, ?_, ?_, ?_⟩
    · rw [hnone, append_nil]
      exact h
    · exact (Finset.union_eq_left.mpr (hkeys.trans hsub)).symm
    · exact (Finset.union_eq_left.mpr hkeys).symm
    · exact (Finset.union_eq_left.mpr huser).symm
  · have hmax : m.maxRecords = config.maxRecords := congrArg MapConfig.maxRecords h.config
    have hroom : ¬m.maxRecords < m.records + (m.newRecords keys userEntry).length := by
      rw [h.count, hmax]
      omega
    rw [if_neg hnone, if_neg hroom]
    refine ⟨_, rfl, ?_, rfl, rfl, rfl⟩
    · have hmod : (m.bytes.length - mapHeaderBytes) % mapRecordBytes = 0 := by
        rw [h.whole, Nat.add_sub_cancel_left, Nat.mul_mod_left]
      have happ := h.holds.append hmod (m.newRecords keys userEntry)
        (encodeAll (m.newRecords keys userEntry)).length
      rw [take_length, length_encodeAll, Nat.mul_div_cancel_left _ (by decide), take_length] at happ
      refine ⟨h.config, happ, ?_, rfl, ?_, ?_, ?_⟩
      · change (m.bytes ++ encodeAll _).length = _
        rw [length_append, h.whole, length_encodeAll, length_append, Nat.add_mul,
          Nat.mul_comm mapRecordBytes]
        omega
      · change m.records + _ = _
        rw [h.count, length_append]
      · intro key
        change key ∈ m.durable ∪ keys.toFinset ↔ _
        rw [Finset.mem_union, mem_append, h.durable, mem_newRecords_chunk, h.durable, mem_toFinset]
        tauto
      intro entry
      change entry ∈ m.modified ∪ userEntry.toFinset ↔ _
      rw [Finset.mem_union, mem_append, h.modified, mem_newRecords_user, h.modified,
        Option.mem_toFinset, Option.mem_def]
      tauto

section Kept

variable {r : MapRun} {records : List MapRecord} {safe : Nat} {keys : List ChunkKey}
  {userEntry : Option Entry}

/-- Reopening after a crash gives a map over a prefix of the records that has all synced ones. -/
theorem MapRun.Kept.reopen (h : r.Kept records safe) (keep : Nat) :
    ∃ m n, r.map.reopen keep = .ok m ∧ safe ≤ n ∧
      Reopened r.map.toMapConfig (records.take n) m := by
  have hn : mapHeaderBytes ≤ max r.map.synced keep := by
    rw [h.synced]
    omega
  have hbound : (records.take
      ((max r.map.synced keep - mapHeaderBytes) / mapRecordBytes)).length ≤ r.map.maxRecords :=
    Nat.le_trans (List.length_take_le' _ _) h.bound
  obtain ⟨m, hm, hopen⟩ := openHydrationMap_of_holds h.valid (h.holds.take hn) hbound
  refine ⟨m, _, hm, ?_, hopen⟩
  rw [Nat.le_div_iff_mul_le (by decide), h.synced]
  omega

/-- A map reopened over the records that survived keeps the invariant, with all of them synced. -/
theorem MapRun.Kept.of_reopened (h : r.Kept records safe) {n : Nat} (hn : safe ≤ n)
    (hm : Reopened r.map.toMapConfig (records.take n) m) :
    MapRun.Kept { r with map := m } (records.take n) (records.take n).length := by
  obtain ⟨⟨hconfig, hholds, hwhole, hsynced, -, hdurable, hmodified⟩, -⟩ := hm
  have hsub : records.take safe ⊆ records.take n := take_subset_take_left records hn
  refine ⟨hconfig ▸ h.valid, hholds, ?_, le_rfl, hsynced.trans hwhole, ?_, ?_, ?_, ?_, ?_, ?_⟩
  · have hmax : m.maxRecords = r.map.maxRecords := congrArg MapConfig.maxRecords hconfig
    exact Nat.le_trans (List.length_take_le' _ _) (hmax ▸ h.bound)
  · intro key hk
    rw [take_length]
    exact hsub (h.acked key hk)
  · intro key hk
    rw [take_length]
    exact (hdurable key).mp hk
  · intro key hk
    exact h.passed key (mem_of_mem_take hk)
  · intro entry he
    rw [take_length]
    exact hsub (h.ackedUsers entry he)
  · intro entry he
    rw [take_length]
    exact (hmodified entry).mp he
  · intro entry he
    exact h.passedUsers entry (mem_of_mem_take he)

/-- The marks a call asks for, before its answer. -/
private def MapRun.asked (r : MapRun) (keys : List ChunkKey) (userEntry : Option Entry) : MapRun :=
  { r with
    passed := r.passed ∪ keys.toFinset
    passedUsers := r.passedUsers ∪ userEntry.toFinset }

section

variable (h : r.Kept records safe)
include h

private theorem MapRun.Kept.asked (keys : List ChunkKey)
    (userEntry : Option Entry) : (r.asked keys userEntry).Kept records safe :=
  { h with
    passed := fun key hk => Finset.mem_union_left _ (h.passed key hk)
    passedUsers := fun entry he => Finset.mem_union_left _ (h.passedUsers entry he) }

private theorem MapRun.Kept.grown
    {more : List MapRecord} (hholds : Holds r.map.toMapConfig bytes (records ++ more))
    (hbound : (records ++ more).length ≤ r.map.maxRecords)
    (hmore : more ⊆ r.map.newRecords keys userEntry) :
    MapRun.Kept { r.asked keys userEntry with map := { r.map with bytes := bytes } }
      (records ++ more) safe := by
  have htake : (records ++ more).take safe = records.take safe :=
    take_append_of_le_length h.safeLe
  refine ⟨h.valid, hholds, hbound, ?_, h.synced, ?_, ?_, ?_, ?_, ?_, ?_⟩
  · rw [length_append]
    exact Nat.le_add_right_of_le h.safeLe
  · rw [htake]
    exact h.acked
  · rw [htake]
    exact h.durable
  · intro key hk
    rcases mem_append.mp hk with hk | hk
    · exact Finset.mem_union_left _ (h.passed key hk)
    · have hnew := mem_newRecords_chunk.mp (hmore hk)
      exact Finset.mem_union_right _ (mem_toFinset.mpr hnew.1)
  · rw [htake]
    exact h.ackedUsers
  · rw [htake]
    exact h.modified
  intro entry he
  rcases mem_append.mp he with he | he
  · exact Finset.mem_union_left _ (h.passedUsers entry he)
  · have hnew := mem_newRecords_user.mp (hmore he)
    refine Finset.mem_union_right _ ?_
    rw [hnew.1]
    exact Finset.mem_singleton_self entry

private theorem MapRun.Kept.mem_chunk (userEntry : Option Entry) (hk : key ∈ keys) :
    .chunk key ∈ records.take safe ∨ .chunk key ∈ r.map.newRecords keys userEntry := by
  by_cases hd : key ∈ r.map.durable
  · exact .inl (h.durable key hd)
  · exact .inr (mem_newRecords_chunk.mpr ⟨hk, hd⟩)

private theorem MapRun.Kept.mem_user (keys : List ChunkKey) (he : userEntry = some entry) :
    .user entry ∈ records.take safe ∨ .user entry ∈ r.map.newRecords keys userEntry := by
  by_cases hd : entry ∈ r.map.modified
  · exact .inl (h.modified entry hd)
  · exact .inr (mem_newRecords_user.mpr ⟨he, hd⟩)

private theorem MapRun.Kept.acknowledged
    (hm : m = { r.map with bytes := bytes, synced := bytes.length }.noteDurable
      keys userEntry (r.map.newRecords keys userEntry).length)
    (hlen : bytes.length = mapHeaderBytes +
      (records ++ r.map.newRecords keys userEntry).length * mapRecordBytes)
    (hholds : Holds r.map.toMapConfig bytes (records ++ r.map.newRecords keys userEntry))
    (hbound : (records ++ r.map.newRecords keys userEntry).length ≤ r.map.maxRecords) :
    MapRun.Kept
      { r.asked keys userEntry with
        map := m
        acked := r.acked ∪ keys.toFinset
        ackedUsers := r.ackedUsers ∪ userEntry.toFinset }
      (records ++ r.map.newRecords keys userEntry)
      (records ++ r.map.newRecords keys userEntry).length := by
  have hchunk : ∀ key ∈ keys, .chunk key ∈ records ++ r.map.newRecords keys userEntry := by
    intro key hk
    rcases h.mem_chunk userEntry hk with hold | hnew
    · exact mem_append_left _ (mem_of_mem_take hold)
    · exact mem_append_right _ hnew
  have huser : ∀ entry, userEntry = some entry →
      .user entry ∈ records ++ r.map.newRecords keys userEntry := by
    intro entry he
    rcases h.mem_user keys he with hold | hnew
    · exact mem_append_left _ (mem_of_mem_take hold)
    · exact mem_append_right _ hnew
  have hgrown := h.grown hholds hbound (.refl _)
  subst hm
  refine ⟨h.valid, hholds, hbound, le_rfl, hlen, ?_, ?_, hgrown.passed, ?_, ?_, hgrown.passedUsers⟩
  all_goals rw [take_length]
  · intro key hk
    rcases Finset.mem_union.mp hk with hk | hk
    · exact mem_append_left _ (mem_of_mem_take (h.acked key hk))
    · exact hchunk key (mem_toFinset.mp hk)
  · intro key hk
    rcases Finset.mem_union.mp hk with hk | hk
    · exact mem_append_left _ (mem_of_mem_take (h.durable key hk))
    · exact hchunk key (mem_toFinset.mp hk)
  · intro entry he
    rcases Finset.mem_union.mp he with he | he
    · exact mem_append_left _ (mem_of_mem_take (h.ackedUsers entry he))
    · exact huser entry (Option.mem_toFinset.mp he)
  · intro entry he
    rcases Finset.mem_union.mp he with he | he
    · exact mem_append_left _ (mem_of_mem_take (h.modified entry he))
    · exact huser entry (Option.mem_toFinset.mp he)

private theorem MapRun.Kept.nothingNew (hnone : r.map.newRecords keys userEntry = []) : MapRun.Kept
      { r.asked keys userEntry with
        acked := r.acked ∪ keys.toFinset
        ackedUsers := r.ackedUsers ∪ userEntry.toFinset }
      records safe := by
  have hasked := h.asked keys userEntry
  refine ⟨h.valid, h.holds, h.bound, h.safeLe, h.synced, ?_, h.durable, hasked.passed, ?_,
    h.modified, hasked.passedUsers⟩
  · intro key hk
    rcases Finset.mem_union.mp hk with hk | hk
    · exact h.acked key hk
    · rcases h.mem_chunk userEntry (mem_toFinset.mp hk) with hold | hnew
      · exact hold
      · rw [hnone] at hnew
        exact absurd hnew not_mem_nil
  · intro entry he
    rcases Finset.mem_union.mp he with he | he
    · exact h.ackedUsers entry he
    · rcases h.mem_user keys (Option.mem_toFinset.mp he) with hold | hnew
      · exact hold
      · rw [hnone] at hnew
        exact absurd hnew not_mem_nil

/-- A call keeps the invariant, whatever the file system does with its bytes. -/
theorem MapRun.Kept.mark (fault : Fault) (hroom : r.map.Appendable keys userEntry) :
    ∃ records' safe', (r.mark keys userEntry fault).Kept records' safe' := by
  unfold MapRun.mark HydrationMap.markDurable
  by_cases hnone : r.map.newRecords keys userEntry = []
  · rw [if_pos hnone]
    exact ⟨records, safe, h.nothingNew hnone⟩
  rw [if_neg hnone]
  by_cases hfull : r.map.maxRecords < r.map.records + (r.map.newRecords keys userEntry).length
  · rw [if_pos hfull]
    exact ⟨records, safe, h.asked keys userEntry⟩
  rw [if_neg hfull]
  obtain ⟨hwhole, hfit⟩ := hroom hnone (not_lt.mp hfull)
  rw [h.holds.count] at hfit
  have hall : Holds r.map.toMapConfig (r.map.bytes ++ encodeAll (r.map.newRecords keys userEntry))
      (records ++ r.map.newRecords keys userEntry) := by
    have happ := h.holds.append hwhole (r.map.newRecords keys userEntry)
      (encodeAll (r.map.newRecords keys userEntry)).length
    rwa [take_length, length_encodeAll, Nat.mul_div_cancel_left _ (by decide), take_length] at happ
  have hbound : (records ++ r.map.newRecords keys userEntry).length ≤ r.map.maxRecords := by
    rw [length_append]
    exact hfit
  cases fault with
  | append written =>
    refine ⟨_, safe, h.grown (h.holds.append hwhole _ written) ?_ (take_subset _ _)⟩
    rw [length_append, length_take]
    omega
  | sync => exact ⟨_, safe, h.grown hall hbound (.refl _)⟩
  | none =>
    refine ⟨_, _, h.acknowledged rfl ?_ hall hbound⟩
    have hle := h.holds.header_le
    have hcount := h.holds.count
    have hdiv := Nat.div_add_mod (r.map.bytes.length - mapHeaderBytes) mapRecordBytes
    rw [hcount, hwhole] at hdiv
    rw [length_append, length_append, length_encodeAll, Nat.add_mul, Nat.mul_comm
      records.length, Nat.mul_comm (r.map.newRecords keys userEntry).length]
    omega

end

end Kept

private theorem MapRun.mark_config (r : MapRun) (keys : List ChunkKey) (userEntry : Option Entry)
    (fault : Fault) : (r.mark keys userEntry fault).map.toMapConfig = r.map.toMapConfig := by
  have hmark : (r.mark keys userEntry fault).map = (r.map.markDurable keys userEntry fault).1 := by
    unfold MapRun.mark
    split <;> rfl
  rw [hmark]
  unfold HydrationMap.markDurable
  dsimp only
  split_ifs
  · rfl
  · rfl
  · cases fault <;> rfl

/-- A new file holds its header and no record. -/
theorem openHydrationMap_nil (h : openHydrationMap config [] = .ok m) :
    config.Valid ∧ m = ⟨config, mapHeader config, (mapHeader config).length, 0, ∅, ∅, ∅⟩ := by
  unfold openHydrationMap at h
  by_cases hvalid : config.chunkSize = 0 ∨ config.maxRecords = 0
  · rw [if_pos hvalid] at h
    cases h
  · rw [if_neg hvalid, if_pos length_nil] at h
    exact ⟨not_or.mp hvalid, (Except.ok.inj h).symm⟩

theorem holds_mapHeader (config : MapConfig) : Holds config (mapHeader config) [] := by
  have hlen := length_mapHeader config
  constructor
  · exact take_of_length_le hlen.le
  · rw [drop_of_length_le hlen.le, frames_nil]
    rfl

/-- Every history keeps the invariant. -/
theorem MapRun.Reached.kept {r : MapRun} (h : Reached config r) :
    r.map.toMapConfig = config ∧ ∃ records safe, r.Kept records safe := by
  induction h with
  | @opened m hm =>
    obtain ⟨hvalid, rfl⟩ := openHydrationMap_nil hm
    refine ⟨rfl, [], 0, hvalid, holds_mapHeader config, Nat.zero_le _, Nat.le_refl 0,
      length_mapHeader config, ?_, ?_, ?_, ?_, ?_, ?_⟩
    all_goals simp
  | mark _ keys userEntry fault hroom ih =>
    obtain ⟨hc, records, safe, hk⟩ := ih
    exact ⟨(MapRun.mark_config _ keys userEntry fault).trans hc, hk.mark fault hroom⟩
  | lazy _ key ih =>
    obtain ⟨hc, records, safe, hk⟩ := ih
    exact ⟨hc, records, safe, { hk with }⟩
  | @crash r m _ keep hm ih =>
    obtain ⟨hc, records, safe, hk⟩ := ih
    obtain ⟨m', n, hm', hn, hopen⟩ := hk.reopen keep
    obtain rfl : m' = m := Except.ok.inj (hm'.symm.trans hm)
    exact ⟨hopen.config.trans hc, _, _, hk.of_reopened hn hopen⟩

/-- However its appends and syncs fail, and wherever a crash cuts it beyond its last successful
sync, the map reopens; it has every acknowledged mark and none that was never asked for, within
the bound that the appends respect. -/
theorem MapRun.Reached.reopen_durable {config : MapConfig} {r : MapRun} (h : Reached config r)
    (keep : Nat) :
    ∃ m, r.map.reopen keep = .ok m ∧ m.toMapConfig = config ∧
      r.acked ⊆ m.durable ∧ m.durable ⊆ r.passed ∧
      r.ackedUsers ⊆ m.modified ∧ m.modified ⊆ r.passedUsers ∧
      m.records = (m.bytes.length - mapHeaderBytes) / mapRecordBytes ∧
      m.records ≤ config.maxRecords := by
  obtain ⟨hc, records, safe, hk⟩ := h.kept
  obtain ⟨m, n, hm, hn, hopen⟩ := hk.reopen keep
  have hsub : records.take safe ⊆ records.take n := take_subset_take_left records hn
  refine ⟨m, hm, hopen.config.trans hc, ?_, ?_, ?_, ?_, ?_, ?_⟩
  · intro key hkey
    exact (hopen.durable key).mpr (hsub (hk.acked key hkey))
  · intro key hkey
    exact hk.passed key (mem_of_mem_take ((hopen.durable key).mp hkey))
  · intro entry he
    exact (hopen.modified entry).mpr (hsub (hk.ackedUsers entry he))
  · intro entry he
    exact hk.passedUsers entry (mem_of_mem_take ((hopen.modified entry).mp he))
  · rw [hopen.holds.count, hopen.count]
  · rw [hopen.count, ← hc]
    exact Nat.le_trans (List.length_take_le' _ _) hk.bound

/-- A map for chunks of four bytes and two records. -/
private def tinyConfig : MapConfig := ⟨4, Vector.replicate 32 0, 2⟩

private def tinyMap : HydrationMap :=
  ⟨tinyConfig, mapHeader tinyConfig, (mapHeader tinyConfig).length, 0, ∅, ∅, ∅⟩

/-- An append failed after its first byte; the next call succeeded behind it. -/
private def tornRun : MapRun :=
  ((MapRun.mk tinyMap ∅ ∅ ∅ ∅).mark [⟨0, 0⟩] none (.append 1)).mark [⟨0, 0⟩] none .none

/-- A sync failed twice and was then retried with success. -/
private def uncountedRun : MapRun :=
  (((MapRun.mk tinyMap ∅ ∅ ∅ ∅).mark [⟨0, 0⟩] none .sync).mark [⟨0, 0⟩] none .sync).mark
    [⟨0, 0⟩] none .none

/-- A call that succeeds behind a torn append leaves a file that `replay` calls corrupt, and calls
that succeed after failed syncs leave more records than `replay` accepts. -/
theorem reopen_fails_after_failed_calls : openHydrationMap tinyConfig [] = .ok tinyMap ∧
      ⟨0, 0⟩ ∈ tornRun.acked ∧
      tornRun.map.reopen tornRun.map.bytes.length = .error (.corruptRecord 0) ∧
      ⟨0, 0⟩ ∈ uncountedRun.acked ∧
      uncountedRun.map.reopen uncountedRun.map.bytes.length = .error .exceedsBound := by
  decide +kernel

/-- A mark is acknowledged, a second one torn: the reopened map has the first. -/
theorem reopen_durable_torn :
    ∃ m, (((MapRun.mk tinyMap ∅ ∅ ∅ ∅).mark [⟨0, 0⟩] none .none).mark [⟨0, 1⟩] none
        (.append 7)).map.reopen 100 = .ok m ∧ ⟨0, 0⟩ ∈ m.durable := by
  have hreached : MapRun.Reached tinyConfig
      (((MapRun.mk tinyMap ∅ ∅ ∅ ∅).mark [⟨0, 0⟩] none .none).mark [⟨0, 1⟩] none (.append 7)) := by
    apply MapRun.Reached.mark
    · apply MapRun.Reached.mark
      · exact MapRun.Reached.opened rfl
      · decide +kernel
    · decide +kernel
  obtain ⟨m, hm, -, hacked, -⟩ := hreached.reopen_durable 100
  exact ⟨m, hm, hacked (by decide +kernel)⟩

end PortableFS.Restore
