import PortableFS.Archive.Codec

/-!
# The socket protocol of the hydrator

`vcs/internal/hydrator/protocol.go`: frames, the payloads the hydrator writes and those it reads. A
message type is its byte, since a peer may send any. What is written to a connection is the list of
the bytes written; what is read is taken from the front of a list.
-/

namespace PortableFS.Hydrator

open PortableFS.Base PortableFS.Archive

/-- `protocol.go:31`. -/
def maxFrameBytes : ℕ := 16 * 2 ^ 20 + 64 * 2 ^ 10

/-- `protocol.go:42`. -/
def drainPageSize : ℕ := 8192

/-- `protocol.go:49`. -/
def typeInfo : UInt8 := 1

/-- `protocol.go:50`. -/
def typeInfoOK : UInt8 := 2

/-- `protocol.go:51`. -/
def typeFetch : UInt8 := 3

/-- `protocol.go:52`. -/
def typeChunk : UInt8 := 4

/-- `protocol.go:53`. -/
def typeErr : UInt8 := 5

/-- `protocol.go:54`. -/
def typeHealth : UInt8 := 6

/-- `protocol.go:55`. -/
def typeHealthOK : UInt8 := 7

/-- `protocol.go:56`. -/
def typeInfoNext : UInt8 := 8

/-- `protocol.go:57`. -/
def typeDrainPage : UInt8 := 9

/-- `String` of a message type, `protocol.go:60`. -/
def messageText (kind : UInt8) : String :=
  if kind = typeInfo then "INFO"
  else if kind = typeInfoOK then "INFO_OK"
  else if kind = typeFetch then "FETCH"
  else if kind = typeChunk then "CHUNK"
  else if kind = typeErr then "ERR"
  else if kind = typeHealth then "HEALTH"
  else if kind = typeHealthOK then "HEALTH_OK"
  else if kind = typeInfoNext then "INFO_NEXT"
  else if kind = typeDrainPage then "DRAIN_PAGE"
  else s!"type({kind})"

/-- `protocol.go:88`. -/
inductive ErrorClass where
  | blocked
  | corrupt
  | invalid
deriving DecidableEq

/-- The byte of an error class, `protocol.go:91`. -/
def ErrorClass.byte : ErrorClass → UInt8
  | .blocked => 1
  | .corrupt => 2
  | .invalid => 3

/-- The text of `ErrProtocol` with what is wrong. -/
def violation (what : String) : String := "hydrator: protocol violation: " ++ what

/-- `protocol.go:115`. -/
def maxErrorMessageBytes : ℕ := 1024

/-- Why reading a frame fails: the stream ended, or the frame violates the contract. -/
inductive FrameError where
  | ended
  | protocol (text : String)
deriving DecidableEq

/-- `protocol.go:119`: the bytes written. -/
def writeFrame (kind : UInt8) (payload : List UInt8) : Except String (List UInt8) :=
  if maxFrameBytes < payload.length + 1 then
    .error (violation
      s!"a {messageText kind} frame of {payload.length + 1} bytes exceeds the cap")
  else .ok (appendUint32 (UInt32.ofNat (payload.length + 1)) ++ (kind :: payload))

/-- `io.ReadFull` of `n` bytes. -/
def readFull (n : ℕ) : Reader FrameError (List UInt8) := Reader.take (fun _ _ => .ended) n

/-- `protocol.go:139`. -/
def readFrame : Reader FrameError (UInt8 × List UInt8) := do
  let header ← readFull 4
  let length := ofLittleEndian header
  Reader.require (1 ≤ length)
    (.protocol (violation s!"frame length {length} is below the one-byte type"))
  Reader.require (length ≤ maxFrameBytes)
    (.protocol (violation s!"frame length {length} exceeds the {maxFrameBytes} byte cap"))
  let body ← readFull length
  return (body.headD 0, body.tail)

/-- `protocol.go:168`. -/
structure Info where
  formatVersion : UInt32
  volumeID : Vector UInt8 16
  sealedEpoch : UInt64
  attempt : Vector UInt8 16
  chunkSizeBytes : UInt32
  entryCount : UInt32
  chunkCount : UInt64
  logicalBytes : UInt64
  logicalInodes : UInt64
  sealedAllocatedBytes : UInt64
  sealedInodes : UInt64
  priorityPackIndex : UInt32
  priorityPackOffset : UInt64
  drainCount : UInt64
  priorityDrainCount : UInt64
  pageSize : UInt32
deriving DecidableEq

/-- `Encode` of the INFO_OK payload, `protocol.go:193`. -/
def Info.encode (i : Info) : List UInt8 :=
  appendUint32 i.formatVersion ++ (i.volumeID.toList ++ (appendUint64 i.sealedEpoch ++
    (i.attempt.toList ++ (appendUint32 i.chunkSizeBytes ++ (appendUint32 i.entryCount ++
    (appendUint64 i.chunkCount ++ (appendUint64 i.logicalBytes ++ (appendUint64 i.logicalInodes ++
    (appendUint64 i.sealedAllocatedBytes ++ (appendUint64 i.sealedInodes ++
    (appendUint32 i.priorityPackIndex ++ (appendUint64 i.priorityPackOffset ++
    (appendUint64 i.drainCount ++ (appendUint64 i.priorityDrainCount ++
    appendUint32 i.pageSize))))))))))))))

/-- `protocol.go:242`. -/
structure DrainPair where
  entryIndex : UInt32
  chunkIndex : UInt32
deriving DecidableEq

/-- One pair as it is written, `protocol.go:263`. -/
def DrainPair.encode (pair : DrainPair) : List UInt8 :=
  appendUint32 pair.entryIndex ++ appendUint32 pair.chunkIndex

/-- `protocol.go:251`. -/
structure DrainPage where
  cursor : UInt64
  pairs : List DrainPair
  more : Bool
deriving DecidableEq

/-- `Encode` of the DRAIN_PAGE payload, `protocol.go:258`. -/
def DrainPage.encode (p : DrainPage) : List UInt8 :=
  appendUint64 p.cursor ++ (appendUint32 (UInt32.ofNat p.pairs.length) ++
    (p.pairs.flatMap DrainPair.encode ++ [if p.more then 1 else 0]))

/-- `protocol.go:303`. -/
def decodeFetch (payload : List UInt8) : Except String (UInt32 × UInt32) :=
  if payload.length ≠ 8 then
    .error (violation s!"FETCH payload is {payload.length} bytes, expected 8")
  else
    .ok (UInt32.ofNat (ofLittleEndian (payload.take 4)),
      UInt32.ofNat (ofLittleEndian (payload.drop 4)))

/-- `protocol.go:316`. -/
def decodeCursor (payload : List UInt8) : Except String UInt64 :=
  if payload.length ≠ 8 then
    .error (violation s!"INFO_NEXT payload is {payload.length} bytes, expected 8")
  else .ok (UInt64.ofNat (ofLittleEndian payload))

/-- `protocol.go:331`. -/
structure Chunk where
  extents : List Extent
  data : List UInt8
deriving DecidableEq

/-- `Encode` of the CHUNK payload, `protocol.go:337`. -/
def Chunk.encode (c : Chunk) : List UInt8 :=
  appendUint32 (UInt32.ofNat c.extents.length) ++ (c.extents.flatMap appendExtent ++ c.data)

/-- `protocol.go:388`. The message is cut at a byte count. -/
def encodeError (cls : ErrorClass) (message : String) : List UInt8 :=
  cls.byte :: message.toUTF8.data.toList.take maxErrorMessageBytes

end PortableFS.Hydrator
