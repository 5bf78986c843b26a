import PortableFS.Hydrator.Protocol

/-!
# The authority's side of the socket

`vcs/internal/restoremode/protocol.go` and `vcs/internal/restoremode/client.go`: the decoders of the
replies and the requests built from them. The connection is a function from the bytes of a request to
the bytes that come back; the pool of connections, deadlines and cancellation are left out.
-/

namespace PortableFS.Hydrator.Authority

open PortableFS.Base PortableFS.Archive

/-- What a request of the client fails with. -/
inductive ClientError where
  /-- `ErrProtocol` with a text, which is empty for the bare error. -/
  | protocol (text : String)
  /-- The hydrator called the request invalid, `protocol.go:231`. -/
  | rejected (detail : List UInt8)
  /-- A `stateError` of `ErrBlocked`. -/
  | blocked (detail : List UInt8)
  /-- A `stateError` of `ErrCorrupt`. -/
  | corrupt (detail : List UInt8)
  /-- The connection gave too few bytes, `client.go:156`. -/
  | transport
  /-- The bound on pages of `info`, `client.go:187`. -/
  | pageBound
deriving DecidableEq

/-- `protocol.go:267`: what is left, and whether a read failed. -/
structure WireDecoder where
  left : List UInt8
  err : Bool

/-- `protocol.go:273`. -/
def WireDecoder.take (d : WireDecoder) (n : ℕ) : List UInt8 × WireDecoder :=
  if d.err ∨ d.left.length < n then ([], { d with err := true })
  else (d.left.take n, { d with left := d.left.drop n })

/-- `protocol.go:283`; no bytes give zero. -/
def WireDecoder.u32 (d : WireDecoder) : UInt32 × WireDecoder :=
  ((UInt32.ofNat (ofLittleEndian (d.take 4).1)), (d.take 4).2)

/-- `protocol.go:291`; no bytes give zero. -/
def WireDecoder.u64 (d : WireDecoder) : UInt64 × WireDecoder :=
  ((UInt64.ofNat (ofLittleEndian (d.take 8).1)), (d.take 8).2)

/-- Sixteen bytes copied into an array, `protocol.go:91`. -/
def WireDecoder.array16 (d : WireDecoder) : Vector UInt8 16 × WireDecoder :=
  ((Vector.ofFn fun i => (d.take 16).1.getD i 0), (d.take 16).2)

/-- A hexadecimal digit. -/
def hexDigit (n : ℕ) : Char := "0123456789abcdef".toList.getD n '?'

/-- `hex.EncodeToString`. -/
def hexEncode (bytes : List UInt8) : List Char :=
  bytes.flatMap fun byte => [hexDigit (byte.toNat / 16), hexDigit (byte.toNat % 16)]

/-- `protocol.go:262`. -/
def formatUUID (value : Vector UInt8 16) : List Char :=
  let raw := hexEncode value.toList
  raw.take 8 ++ ('-' :: ((raw.drop 8).take 4 ++ ('-' :: ((raw.drop 12).take 4 ++
    ('-' :: ((raw.drop 16).take 4 ++ ('-' :: raw.drop 20)))))))

/-- `protocol.go:32`, without the order it collects. -/
structure InfoPage where
  formatVersion : UInt32
  volumeID : List Char
  sealedEpoch : UInt64
  attempt : List Char
  chunkSize : UInt32
  entryCount : UInt32
  chunkCount : UInt64
  logicalBytes : UInt64
  logicalInodes : UInt64
  storedBytes : UInt64
  sealedInodes : UInt64
  priorityPackIndex : UInt32
  priorityPackOffset : UInt64
  drainCount : UInt64
  priorityDrainCount : UInt64
  pageSize : UInt32
deriving DecidableEq

/-- `protocol.go:52`. -/
def infoPayloadBytes : ℕ := 4 + 16 + 8 + 16 + 4 + 4 + 8 + 8 + 8 + 8 + 8 + 4 + 8 + 8 + 8 + 4

/-- `protocol.go:83`. -/
def unmarshalInfoPage (raw : List UInt8) : Except ClientError InfoPage :=
  if raw.length ≠ infoPayloadBytes then .error (.protocol "malformed INFO_OK length")
  else
    let (formatVersion, d) := WireDecoder.u32 { left := raw, err := false }
    let (volume, d) := d.array16
    let (sealedEpoch, d) := d.u64
    let (attempt, d) := d.array16
    let (chunkSize, d) := d.u32
    let (entryCount, d) := d.u32
    let (chunkCount, d) := d.u64
    let (logicalBytes, d) := d.u64
    let (logicalInodes, d) := d.u64
    let (storedBytes, d) := d.u64
    let (sealedInodes, d) := d.u64
    let (priorityPackIndex, d) := d.u32
    let (priorityPackOffset, d) := d.u64
    let (drainCount, d) := d.u64
    let (priorityDrainCount, d) := d.u64
    let (pageSize, d) := d.u32
    if d.err ∨ d.left ≠ [] then .error (.protocol "malformed INFO_OK")
    else .ok {
      formatVersion
      volumeID := formatUUID volume
      sealedEpoch
      attempt := formatUUID attempt
      chunkSize
      entryCount
      chunkCount
      logicalBytes
      logicalInodes
      storedBytes
      sealedInodes
      priorityPackIndex
      priorityPackOffset
      drainCount
      priorityDrainCount
      pageSize }

/-- `drainPage`, `protocol.go:115`. -/
structure DrainReply where
  cursor : UInt64
  order : List (UInt32 × UInt32)
  more : Bool
deriving DecidableEq

/-- The pairs of a page, `protocol.go:148`. -/
def readPairs : ℕ → WireDecoder → List (UInt32 × UInt32) × WireDecoder
  | 0, d => ([], d)
  | n + 1, d =>
    let (entry, d) := d.u32
    let (chunk, d) := d.u32
    let (rest, d) := readPairs n d
    ((entry, chunk) :: rest, d)

/-- `protocol.go:137`. -/
def unmarshalDrainPage (raw : List UInt8) : Except ClientError DrainReply :=
  if raw.length < 13 then .error (.protocol "")
  else
    let (cursor, d) := WireDecoder.u64 { left := raw, err := false }
    let (count, d) := d.u32
    if 8192 < count ∨ raw.length ≠ 8 + 4 + count.toNat * 8 + 1 then .error (.protocol "")
    else
      let (order, d) := readPairs count.toNat d
      let (more, _) := d.take 1
      if more.length ≠ 1 ∨ 1 < more.headD 0 then .error (.protocol "")
      else .ok { cursor, order, more := more.headD 0 = 1 }

/-- `Extent` and `Chunk`, `types.go:135`. -/
structure ChunkReply where
  extents : List (UInt64 × List UInt8)
  bytes : UInt64
deriving DecidableEq

/-- The spans of a chunk, `protocol.go:189`, with the total of their lengths. The first span of a
chunk has no predecessor. -/
def readSpans (chunkSize : UInt32) :
    ℕ → ℕ → UInt64 → UInt64 → WireDecoder → List (UInt64 × UInt64) × UInt64 × WireDecoder
  | _, 0, total, _, d => ([], total, d)
  | i, n + 1, total, priorEnd, d =>
    let (off, d) := d.u64
    let (length, d) := d.u64
    let stop := off + length
    let bad := length = 0 ∨ stop < off ∨ chunkSize.toUInt64 < stop ∨ (0 < i ∧ off ≤ priorEnd)
    let total := total + length
    let (rest, sum, d) := readSpans chunkSize (i + 1) n total stop
      { d with err := d.err ∨ bad ∨ chunkSize.toUInt64 < total }
    ((off, length) :: rest, sum, d)

/-- The bytes of each span in turn, `protocol.go:205`. -/
def splitSpans : List (UInt64 × UInt64) → List UInt8 → List (UInt64 × List UInt8)
  | [], _ => []
  | (off, length) :: rest, data =>
    (off, data.take length.toNat) :: splitSpans rest (data.drop length.toNat)

/-- `protocol.go:180`. -/
def unmarshalChunk (raw : List UInt8) (chunkSize : UInt32) : Except ClientError ChunkReply :=
  let (count, d) := WireDecoder.u32 { left := raw, err := false }
  if 1048576 < count ∨ raw.length < count.toNat * 16 then
    .error (.protocol "invalid CHUNK extent count")
  else
    let (spans, total, d) := readSpans chunkSize 0 count.toNat 0 0 d
    if d.err ∨ total ≠ UInt64.ofNat d.left.length then .error (.protocol "malformed CHUNK")
    else .ok { extents := splitSpans spans d.left, bytes := total }

/-- `protocol.go:220`. -/
def parseProtocolError (raw : List UInt8) : ClientError :=
  if raw.length < 1 ∨ 1025 < raw.length then .protocol ""
  else if raw.headD 0 = 1 then .blocked raw.tail
  else if raw.headD 0 = 2 then .corrupt raw.tail
  else if raw.headD 0 = 3 then .rejected raw.tail
  else .protocol ""

/-- `client.go:255`. -/
def writeHydratorFrame (max : UInt32) (typ : UInt8) (payload : List UInt8) :
    Except ClientError (List UInt8) :=
  if max.toNat < payload.length + 1 then .error (.protocol "")
  else .ok (appendUint32 (UInt32.ofNat (payload.length + 1)) ++ (typ :: payload))

/-- `client.go:283`. -/
def readHydratorFrame (max : UInt32) : Reader ClientError (UInt8 × List UInt8) := do
  let rawLength ← Reader.take (fun _ _ => .transport) 4
  let length := ofLittleEndian rawLength
  Reader.require (length ≠ 0 ∧ length ≤ max.toNat) (.protocol s!"frame length {length}")
  let raw ← Reader.take (fun _ _ => .transport) length
  return (raw.headD 0, raw.tail)

section Connection

/- The limit on frames and the connection. -/
variable (maxFrame : UInt32) (exchange : List UInt8 → List UInt8)

/-- `client.go:115`. -/
def roundTrip (typ : UInt8) (payload : List UInt8) : Except ClientError (UInt8 × List UInt8) := do
  let request ← writeHydratorFrame maxFrame typ payload
  let (reply, _) ← (readHydratorFrame maxFrame).run (exchange request)
  if reply.1 = typeErr then .error (parseProtocolError reply.2) else .ok reply

/-- The paging loop of `info`, `client.go:185`, with the pages it may still ask for. -/
def collectPages (first : InfoPage) :
    ℕ → UInt64 → List (UInt32 × UInt32) → Except ClientError (List (UInt32 × UInt32))
  | pages, next, order =>
    if first.drainCount ≤ next then .ok order
    else
      match pages with
      | 0 => .error .pageBound
      | pages + 1 => do
        let (typ, raw) ← roundTrip maxFrame exchange typeInfoNext (appendUint64 next)
        if typ ≠ typeDrainPage then .error (.protocol "")
        else
          let page ← unmarshalDrainPage raw
          if page.cursor ≠ next ∨ page.order.length = 0 ∨
              first.pageSize.toNat < page.order.length then .error (.protocol "")
          else
            let next := next + UInt64.ofNat page.order.length
            if first.drainCount < next ∨ page.more ≠ decide (next < first.drainCount) then
              .error (.protocol "")
            else collectPages first pages next (order ++ page.order)

/-- `client.go:167`: the header and the drain order. -/
def info (maxDrainPairs : UInt64) : Except ClientError (InfoPage × List (UInt32 × UInt32)) := do
  let (typ, raw) ← roundTrip maxFrame exchange typeInfo []
  if typ ≠ typeInfoOK then .error (.protocol "")
  else
    let first ← unmarshalInfoPage raw
    if first.pageSize ≠ 8192 ∨ maxDrainPairs < first.drainCount ∨
        2 ^ 63 - 1 < first.drainCount.toNat then .error (.protocol "")
    else
      let order ← collectPages maxFrame exchange first (2 ^ 20 + 1) 0 []
      if order.length ≠ first.drainCount.toNat then .error (.protocol "")
      else .ok (first, order)

/-- `client.go:213`. -/
def fetch (entry chunk chunkSize : UInt32) : Except ClientError ChunkReply := do
  let (typ, raw) ← roundTrip maxFrame exchange typeFetch (appendUint32 entry ++ appendUint32 chunk)
  if typ ≠ typeChunk then .error (.protocol "") else unmarshalChunk raw chunkSize

end Connection

end PortableFS.Hydrator.Authority
