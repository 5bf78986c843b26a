import PortableFS.Writeback.Buffer

/-!
# Reading through the buffer

Module `writeback`, `vcs/internal/writeback/read.go:14–68` and `buffer.go:361–372`. A read takes the
extents of the file, fetches the base from the remote and lays the extents over it.
-/

namespace PortableFS.Writeback

/-- Read the base: a short result is the end of the file; `types.go:166–168`. -/
abbrev Fetch := Nat → Nat → Except Error (List UInt8)

/-- Overwrite part of a slice. -/
def overwrite (out : List UInt8) (pos : Nat) (data : List UInt8) : List UInt8 :=
  out.take pos ++ data ++ out.drop (pos + data.length)

/-- Lay one span over the result; `read.go:55–65`. -/
def Span.lay (off n : Nat) (out : List UInt8) (s : Span) : List UInt8 :=
  let lo := max off s.lo
  let hi := min (off + n) s.hi
  if hi ≤ lo then out
  else
    match s.data with
    | none => overwrite out (lo - off) (List.replicate (hi - lo) 0)
    | some d => overwrite out (lo - off) ((d.take (hi - s.lo)).drop (lo - s.lo))

/-- How many bytes a read returns over this many bytes of the base; `read.go:47–52`. -/
def File.readLength (f : File) (off length base : Nat) : Nat :=
  if f.exact then length
  else if off < f.size then max base (min length (f.size - off))
  else base

/-- Read a file that is not empty at the offset; `read.go:36–67`. -/
def File.readOver (f : File) (id : Identity) (off length : Nat) (dirty : List Span) (fetch : Fetch) :
    Except Error (List UInt8) :=
  let length := if f.exact then min length (f.size - off) else length
  match fetch off length with
  | .error e => .error (.fetch id e)
  | .ok base =>
    if length < base.length then .error (.excess id)
    else
      let n := f.readLength off length base.length
      .ok (dirty.foldl (Span.lay off n) (base ++ List.replicate (n - base.length) 0))

namespace Buffer

/-- `read.go:14–68`. A file that does not exist reads as a new one. -/
def read (b : Buffer) (cancelled : Bool) (id : Identity) (off length : Int) (fetch : Fetch) :
    Except Error (List UInt8) :=
  if off < 0 ∨ length < 0 ∨ maxInt64 - off < length then .error .invalid
  else if cancelled then .error .context
  else if length = 0 then .ok []
  else
    let f := b.fileOf id
    let dirty := spans off.toNat (off.toNat + length.toNat) f.extents.root
    if f.exact ∧ f.size ≤ off.toNat then .ok []
    else f.readOver id off.toNat length.toNat dirty fetch

/-- `buffer.go:361–372`. -/
def size (b : Buffer) (id : Identity) (base : Nat) : Nat :=
  match b.files.lookup id with
  | none => base
  | some f => if f.exact then f.size else max base f.size

end Buffer
end PortableFS.Writeback
