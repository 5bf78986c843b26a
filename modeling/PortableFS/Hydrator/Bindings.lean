import PortableFS.Hydrator.Protocol

/-!
# The binding table

The table of restored inode identities: `EncodeBindings` of `vcs/internal/hydrator/bindings.go` writes
it, `LoadBindings` of `vcs/internal/restoremode/bindings.go` reads it. The file is the list of its
bytes; SHA-256 is a parameter.
-/

namespace PortableFS.Hydrator

open PortableFS.Base PortableFS.Archive

/-- `bindings.go:28`: `PFSRBND1`. -/
def bindingsMagic : List UInt8 := [80, 70, 83, 82, 66, 78, 68, 49]

/-- `bindings.go:29`. -/
def bindingsVersion : UInt32 := 1

/-- `bindingRecord`, `bindings.go:30`. -/
def bindingRecordBytes : ℕ := 4 + 16

/-- `bindingsHeader`, `bindings.go:31`. -/
def bindingHeaderBytes : ℕ := bindingsMagic.length + 4 + 4

/-- `bindings.go:36`. -/
structure Binding where
  entryIndex : UInt32
  identity : Vector UInt8 16
deriving DecidableEq

/-- One record, `bindings.go:61`. -/
def Binding.encode (binding : Binding) : List UInt8 :=
  appendUint32 binding.entryIndex ++ binding.identity.toList

/-- The loop of `EncodeBindings`, `bindings.go:56`, with the index before, if any. -/
def encodeBindingList : ℕ → Option UInt32 → List Binding → Except String (List UInt8)
  | _, _, [] => .ok []
  | index, previous, binding :: rest =>
    if previous.any (binding.entryIndex ≤ ·) then
      .error ("hydrator: invalid: " ++ s!"binding {index} is not in entry order")
    else do
      let records ← encodeBindingList (index + 1) (some binding.entryIndex) rest
      return binding.encode ++ records

/-- `bindings.go:44`. -/
def encodeBindings (sha256 : List UInt8 → Digest) (bindings : List Binding) :
    Except String (List UInt8) :=
  if bindings.length = 0 then
    .error "hydrator: invalid: a restored volume always has at least its root entry"
  else if maxEntries < bindings.length then
    .error ("hydrator: invalid: " ++
      s!"{bindings.length} bindings exceed the {maxEntries} entry bound")
  else do
    let records ← encodeBindingList 0 none bindings
    let out := bindingsMagic ++ (appendUint32 bindingsVersion ++
      (appendUint32 (UInt32.ofNat bindings.length) ++ records))
    return out ++ (sha256 out).toList

namespace Authority

/-- `restoremode/bindings.go:19`. -/
structure Bindings where
  identities : List (Vector UInt8 16)
  byIdentity : List (Vector UInt8 16 × UInt32)
  digest : Digest

/-- The loop of `LoadBindings`, `restoremode/bindings.go:57`. -/
def loadRecords (count : ℕ) :
    ℕ → ℕ → Option UInt32 → List UInt8 → Bindings → Except String Bindings
  | _, 0, _, _, b => .ok b
  | i, n + 1, prior, body, b =>
    let record := body.take bindingRecordBytes
    let entry := UInt32.ofNat (ofLittleEndian (record.take 4))
    let identity : Vector UInt8 16 := Vector.ofFn fun k => (record.drop 4).getD k 0
    if prior.any (entry ≤ ·) then
      .error s!"restoremode: binding index {entry} is not after {prior.getD 0}"
    else if count ≤ entry.toNat then
      .error s!"restoremode: binding index {entry} is outside the entry count"
    else if identity = Vector.replicate 16 0 then
      .error s!"restoremode: binding {i} has zero identity"
    else
      loadRecords count (i + 1) n (some entry) (body.drop bindingRecordBytes)
        { b with
          identities := b.identities.set entry.toNat identity
          byIdentity :=
            if (b.byIdentity.lookup identity).isSome then b.byIdentity
            else b.byIdentity ++ [(identity, entry)] }

/-- `restoremode/bindings.go:25`, of a regular file with these bytes. -/
def loadBindings (sha256 : List UInt8 → Digest) (file : List UInt8) (maxEntries : UInt32) :
    Except String Bindings :=
  if maxEntries = 0 then .error "restoremode: bindings bound must be positive"
  else if file.length < bindingHeaderBytes + 32 then
    .error "restoremode: invalid restore bindings size or type"
  else
    let raw := file.take (bindingHeaderBytes + maxEntries.toNat * bindingRecordBytes + 32 + 1)
    if raw.length ≠ file.length then .error "restoremode: incomplete restore bindings"
    else if raw.take 8 ≠ bindingsMagic ∨
        UInt32.ofNat (ofLittleEndian ((raw.drop 8).take 4)) ≠ bindingsVersion then
      .error "restoremode: invalid restore bindings header"
    else
      let count := UInt32.ofNat (ofLittleEndian ((raw.drop 12).take 4))
      if count = 0 ∨ maxEntries < count ∨
          raw.length ≠ bindingHeaderBytes + count.toNat * bindingRecordBytes + 32 then
        .error "restoremode: invalid restore bindings count"
      else
        let body := raw.take (raw.length - 32)
        let digest := sha256 body
        if digest.toList ≠ raw.drop (raw.length - 32) then
          .error "restoremode: restore bindings SHA-256 seal mismatch"
        else loadRecords count.toNat 0 count.toNat none (body.drop bindingHeaderBytes)
          { identities := List.replicate count.toNat (Vector.replicate 16 0), byIdentity := []
            digest }

/-- `restoremode/bindings.go:108`. -/
def Bindings.identity (b : Bindings) (entry : UInt32) : Option (Vector UInt8 16) :=
  b.identities[entry.toNat]?

/-- `restoremode/bindings.go:100`. -/
def Bindings.entry (b : Bindings) (identity : Vector UInt8 16) : Option UInt32 :=
  b.byIdentity.lookup identity

end Authority

end PortableFS.Hydrator
