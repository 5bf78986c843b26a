import PortableFS.Base.Frames
import PortableFS.Restore.Types

/-!
# The hydration map

`vcs/internal/restoremode/map.go`: an append-only file of a 56-byte header and 16-byte records,
each with its own checksum, together with the sets it holds in memory. A call that appends may
fail after any prefix of its bytes, or in the sync; neither failure closes the map. The test
hook of the source is left out.
-/

namespace PortableFS.Restore

open Base.Frames

/-- One bit of the reflected CRC-32 division; polynomial `crc32.IEEE`. -/
def crcBit (crc : UInt32) : UInt32 :=
  if crc &&& 1 = 1 then (crc >>> 1) ^^^ 0xEDB88320 else crc >>> 1

/-- One byte of the division. -/
def crcByte (crc : UInt32) (byte : UInt8) : UInt32 :=
  Nat.iterate crcBit 8 (crc ^^^ byte.toUInt32)

/-- `crc32.ChecksumIEEE`. -/
def checksumIEEE (bytes : List UInt8) : UInt32 := ~~~(bytes.foldl crcByte 0xFFFFFFFF)

-- The check value of the CRC-32 of this polynomial: the digits from 1 to 9.
example : checksumIEEE [49, 50, 51, 52, 53, 54, 55, 56, 57] = 0xCBF43926 := by decide +kernel

/-- `map.go:15`: `PFS-RESTORE-MAP` and a zero byte. -/
def mapMagic : List UInt8 := [80, 70, 83, 45, 82, 69, 83, 84, 79, 82, 69, 45, 77, 65, 80, 0]

/-- `map.go:16`. -/
def mapVersion : UInt32 := 1

/-- `map.go:17`. -/
def mapHeaderBytes : Nat := 16 + 4 + 4 + 32

/-- `map.go:18`. -/
def mapRecordBytes : Nat := 16

/-- `map.go:19`. -/
def mapRecordChunk : UInt8 := 1

/-- `map.go:20`. -/
def mapRecordUser : UInt8 := 2

/-- The first twelve bytes of a record. -/
def recordBody (kind : UInt8) (entry chunk : UInt32) : List UInt8 :=
  [kind, 0, 0, 0] ++ putUint32 entry ++ putUint32 chunk

/-- `map.go:207`. -/
def encodeMapRecord (kind : UInt8) (entry chunk : UInt32) : List UInt8 :=
  recordBody kind entry chunk ++ putUint32 (checksumIEEE (recordBody kind entry chunk))

/-- What a record says: the chunk is durable, or the user modified the entry. -/
inductive MapRecord where
  | chunk (key : ChunkKey)
  | user (entry : Entry)
deriving DecidableEq

/-- The bytes of the record. -/
def MapRecord.encode : MapRecord → List UInt8
  | .chunk key => encodeMapRecord mapRecordChunk key.entry key.chunk
  | .user entry => encodeMapRecord mapRecordUser entry 0

/-- The failures of the map. -/
inductive MapError where
  | invalidBounds
  | truncatedHeader
  | differentState
  | exceedsBound
  | corruptRecord (index : Nat)
  | invalidUserRecord (index : Nat)
  | unknownRecord (index : Nat)
  | boundReached
  | append
  | sync
deriving DecidableEq

/-- The checks of one record in `replay`, `map.go:119`. -/
def parseMapRecord (index : Nat) (record : List UInt8) : Except MapError MapRecord :=
  let entry := uint32 ((record.drop 4).take 4)
  let chunk := uint32 ((record.drop 8).take 4)
  if uint32 (record.drop 12) ≠ checksumIEEE (record.take 12) ∨ record.getD 1 0 ≠ 0 ∨
      record.getD 2 0 ≠ 0 ∨ record.getD 3 0 ≠ 0 then
    .error (.corruptRecord index)
  else if record.getD 0 0 = mapRecordChunk then .ok (.chunk ⟨entry, chunk⟩)
  else if record.getD 0 0 = mapRecordUser then
    if chunk ≠ 0 then .error (.invalidUserRecord index) else .ok (.user entry)
  else .error (.unknownRecord index)

/-- What a map is opened with: the arguments of `openHydrationMap` besides the path. -/
structure MapConfig where
  chunkSize : UInt32
  digest : Vector UInt8 32
  maxRecords : Nat
deriving DecidableEq

/-- `map.go:23`. The file is only ever appended to, so its bytes stand for the
file and its position; `synced` is its length at the last sync that succeeded, which is what a
crash must keep. -/
structure HydrationMap extends MapConfig where
  bytes : List UInt8
  synced : Nat
  records : Nat
  hydrated : Finset ChunkKey
  durable : Finset ChunkKey
  modified : Finset Entry
deriving DecidableEq

/-- The header `writeHeader` writes, `map.go:73`. -/
def mapHeader (config : MapConfig) : List UInt8 :=
  mapMagic ++ putUint32 mapVersion ++ putUint32 config.chunkSize ++ config.digest.toList

/-- One record of `replay` taken into the sets. -/
def HydrationMap.take (m : HydrationMap) : MapRecord → HydrationMap
  | .chunk key =>
    { m with hydrated := insert key m.hydrated, durable := insert key m.durable }
  | .user entry => { m with modified := insert entry m.modified }

/-- The loop of `replay` over the records from `index` on. -/
def HydrationMap.takeAll (m : HydrationMap) (index : Nat) :
    List (List UInt8) → Except MapError HydrationMap
  | [] => .ok m
  | record :: rest => do
    let r ← parseMapRecord index record
    (m.take r).takeAll (index + 1) rest

/-- `map.go:92`. -/
def HydrationMap.replay (m : HydrationMap) : Except MapError HydrationMap :=
  let header := m.bytes.take mapHeaderBytes
  let tail := m.bytes.length - mapHeaderBytes
  let complete := tail / mapRecordBytes
  if m.bytes.length < mapHeaderBytes then .error .truncatedHeader
  else if header.take 16 ≠ mapMagic ∨ uint32 ((header.drop 16).take 4) ≠ mapVersion ∨
      uint32 ((header.drop 20).take 4) ≠ m.chunkSize ∨ header.drop 24 ≠ m.digest.toList then
    .error .differentState
  else if m.maxRecords < complete then .error .exceedsBound
  else do
    -- a torn tail is cut off; with no torn tail this is the file itself
    let cut := m.bytes.take (mapHeaderBytes + complete * mapRecordBytes)
    let replayed ← ({ m with bytes := cut, synced := cut.length }).takeAll 0
      (frames mapRecordBytes (cut.drop mapHeaderBytes))
    return { replayed with records := complete }

/-- `map.go:37`, of a file that holds `bytes`. A file that is opened is new
or what a crash left, so its bytes are on disk. -/
def openHydrationMap (config : MapConfig) (bytes : List UInt8) : Except MapError HydrationMap :=
  if config.chunkSize = 0 ∨ config.maxRecords = 0 then .error .invalidBounds
  else if bytes.length = 0 then
    .ok ⟨config, mapHeader config, (mapHeader config).length, 0, ∅, ∅, ∅⟩
  else HydrationMap.replay ⟨config, bytes, bytes.length, 0, ∅, ∅, ∅⟩

/-- `map.go:141`. -/
def HydrationMap.isHydrated (m : HydrationMap) (key : ChunkKey) : Bool := key ∈ m.hydrated

/-- `map.go:147`. -/
def HydrationMap.isDurable (m : HydrationMap) (key : ChunkKey) : Bool := key ∈ m.durable

/-- `map.go:153`. -/
def HydrationMap.isModified (m : HydrationMap) (entry : Entry) : Bool := entry ∈ m.modified

/-- `map.go:159`. -/
def HydrationMap.markLazy (m : HydrationMap) (key : ChunkKey) : HydrationMap :=
  { m with hydrated := insert key m.hydrated }

/-- What the file system does with the bytes of one call: takes them, fails after the first
`written` of them, or takes them and fails the sync. -/
inductive Fault where
  | none
  | append (written : Nat)
  | sync
deriving DecidableEq

/-- The records `markDurable` appends, `map.go:168`: those the map does not have yet. -/
def HydrationMap.newRecords (m : HydrationMap) (keys : List ChunkKey) (userEntry : Option Entry) :
    List MapRecord :=
  (keys.filter fun key => !m.isDurable key).map .chunk ++
    (userEntry.toList.filter fun entry => !m.isModified entry).map .user

/-- The sets and the count once the records are on disk, `map.go:191`. -/
def HydrationMap.noteDurable (m : HydrationMap) (keys : List ChunkKey)
    (userEntry : Option Entry) (count : Nat) : HydrationMap :=
  { m with
    hydrated := m.hydrated ∪ keys.toFinset
    durable := m.durable ∪ keys.toFinset
    modified := m.modified ∪ userEntry.toFinset
    records := m.records + count }

/-- The bytes of records, one after the other. -/
def encodeAll (records : List MapRecord) : List UInt8 := (records.map MapRecord.encode).flatten

/-- `map.go:165`. -/
def HydrationMap.markDurable (m : HydrationMap) (keys : List ChunkKey) (userEntry : Option Entry)
    (fault : Fault) : HydrationMap × Except MapError Unit :=
  let records := m.newRecords keys userEntry
  if records = [] then (m, .ok ())
  else if m.maxRecords < m.records + records.length then (m, .error .boundReached)
  else
    match fault with
    | .append written =>
      ({ m with bytes := m.bytes ++ (encodeAll records).take written }, .error .append)
    | .sync => ({ m with bytes := m.bytes ++ encodeAll records }, .error .sync)
    | .none =>
      let written := m.bytes ++ encodeAll records
      ({ m with bytes := written, synced := written.length }.noteDurable keys userEntry
        records.length, .ok ())

theorem length_recordBody (kind : UInt8) (entry chunk : UInt32) :
    (recordBody kind entry chunk).length = 12 := rfl

theorem length_encodeMapRecord (kind : UInt8) (entry chunk : UInt32) :
    (encodeMapRecord kind entry chunk).length = mapRecordBytes := rfl

theorem MapRecord.length_encode (r : MapRecord) : r.encode.length = mapRecordBytes := by
  cases r with
  | chunk | user => exact length_encodeMapRecord _ _ _

private theorem encodeMapRecord_fields (kind : UInt8) (entry chunk : UInt32) :
    let record := encodeMapRecord kind entry chunk
    record.take 12 = recordBody kind entry chunk ∧
      uint32 (record.drop 12) = checksumIEEE (recordBody kind entry chunk) ∧
      uint32 ((record.drop 4).take 4) = entry ∧ uint32 ((record.drop 8).take 4) = chunk := by
  refine ⟨?_, ?_, ?_, ?_⟩
  · exact List.take_left' (length_recordBody kind entry chunk)
  · rw [encodeMapRecord, List.drop_left' (length_recordBody kind entry chunk)]
    have h := uint32_putUint32 (checksumIEEE (recordBody kind entry chunk)) []
    rwa [List.append_nil] at h
  · exact uint32_putUint32 entry []
  · exact uint32_putUint32 chunk []

private theorem parseMapRecord_encodeMapRecord (index : Nat) (kind : UInt8) (entry chunk : UInt32) :
    parseMapRecord index (encodeMapRecord kind entry chunk) =
      if kind = mapRecordChunk then .ok (.chunk ⟨entry, chunk⟩)
      else if kind = mapRecordUser then
        if chunk ≠ 0 then .error (.invalidUserRecord index) else .ok (.user entry)
      else .error (.unknownRecord index) := by
  obtain ⟨hbody, hsum, hentry, hchunk⟩ := encodeMapRecord_fields kind entry chunk
  have hkind : (encodeMapRecord kind entry chunk).getD 0 0 = kind := rfl
  have hzero : ∀ i ∈ [1, 2, 3], (encodeMapRecord kind entry chunk).getD i 0 = 0 := by
    simp [encodeMapRecord, recordBody]
  have hpass : ¬(uint32 ((encodeMapRecord kind entry chunk).drop 12) ≠
      checksumIEEE ((encodeMapRecord kind entry chunk).take 12) ∨
      (encodeMapRecord kind entry chunk).getD 1 0 ≠ 0 ∨
      (encodeMapRecord kind entry chunk).getD 2 0 ≠ 0 ∨
      (encodeMapRecord kind entry chunk).getD 3 0 ≠ 0) := by
    rw [hbody, hsum, hzero 1 (by simp), hzero 2 (by simp), hzero 3 (by simp)]
    simp
  unfold parseMapRecord
  rw [if_neg hpass, hkind, hentry, hchunk]

/-- A record is read back as what was written. -/
theorem parseMapRecord_encode (index : Nat) (r : MapRecord) :
    parseMapRecord index r.encode = .ok r := by
  cases r with
  | chunk key => exact parseMapRecord_encodeMapRecord index mapRecordChunk key.entry key.chunk
  | user entry => exact parseMapRecord_encodeMapRecord index mapRecordUser entry 0

end PortableFS.Restore
