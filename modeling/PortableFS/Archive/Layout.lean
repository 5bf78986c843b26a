import PortableFS.Archive.CodecBijection

/-!
# The bytes of packs
-/

namespace PortableFS.Archive

open Base List

/-- Bytes of one pack from an offset on, each as its pack and its offset. -/
def packBytes (pack offset length : ℕ) : List (ℕ × ℕ) := (range' offset length).map (pack, ·)

variable {byte : ℕ × ℕ}

end PortableFS.Archive
