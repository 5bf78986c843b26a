import PortableFS.Writeback.Runs

/-!
# Cumulative notifications

Module `writeback`, `vcs/internal/writeback/flush.go:217–287`. A notification takes records from the
top of a heap as long as their sequence is reached. The heaps keep their order whatever records drops
took out of the middle, so exactly the records that are reached advance.
-/

namespace PortableFS.Writeback

open Base List SlotHeap

namespace Buffer

variable {b : Buffer}

section Loops

variable {l : List HeapItem} {s : Nat} (hl : IsHeap HeapItem.applied l)
include hl

end Loops

end Buffer

namespace Heap.Built

variable {h : Heap} {members : List HeapItem}

end Heap.Built
end PortableFS.Writeback
