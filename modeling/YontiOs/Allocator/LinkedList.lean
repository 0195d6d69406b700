import YontiOs.Allocator.Tlsf
import YontiOs.Machinery.Layout
import YontiOs.Machinery.Packing

/-!
# Allocator/LinkedList — the first-fit heap, as the kernel's source has it

`LinkedListAllocator` with the memory its nodes are in.  A free region has its `ListNode` in its
first 16 bytes: the region's size, and the next region, `None` being the null pointer.  The head is
a node outside the heap of which only the link is read.

Every function returns `none` where the debug build panics: an overflow, a failed assertion, an
`expect` or `unwrap` on nothing.  That a node is aligned is an assertion of the source.  A walk
through more nodes than there are addresses has met one of them twice and never ends; that is `none`
too.
-/

namespace YontiOs.LinkedList

/-- `mem::size_of::<ListNode>()`. -/
def nodeSize : ℕ := 16

/-- `mem::align_of::<ListNode>()`. -/
def nodeAlign : ℕ := 8

structure ListNode where
  size : ℕ
  next : Option ℕ
deriving DecidableEq, Repr

/-- The node at `a`. -/
@[irreducible] def node (m : Mem) (a : ℕ) : ListNode :=
  ⟨m.readLE a 8, Tlsf.pointer (m.readLE (a + 8) 8)⟩

/-- The memory after `v` was stored at `a`. -/
def putNode (m : Mem) (a : ℕ) (v : ListNode) : Mem :=
  (m.writeLE a 8 v.size).writeLE (a + 8) 8 (v.next.getD 0)

/-- The memory after the link of the node at `a` was set. -/
def putNext (m : Mem) (a : ℕ) (next : Option ℕ) : Mem := m.writeLE (a + 8) 8 (next.getD 0)

/-- `size_align(layout)`: room for a node, and its alignment. -/
def sizeAlign (layout : Layout) : Option (ℕ × ℕ) := do
  let layout := (← layout.alignTo nodeAlign).padToAlign
  some (max layout.size nodeSize, layout.align)

/-- `alloc_from_region(region, size, align)`: the start of an allocation in the region, if it fits
and leaves nothing behind it, or enough for a node. -/
def allocFromRegion (region : Extent) (size align : ℕ) : Option (Option ℕ) := do
  let allocStart ← alignUp region.start align
  match Word.add allocStart size with
  | none => some none
  | some allocEnd =>
    let regionEnd ← Word.add region.start region.size
    if regionEnd < allocEnd then some none
    else
      let excessSize := regionEnd - allocEnd
      if 0 < excessSize ∧ excessSize < nodeSize then some none else some (some allocStart)

/-- The allocator, and the memory it manages; `head` is `head.next`. -/
structure LinkedListAllocator where
  head : Option ℕ
  mem : Mem

namespace LinkedListAllocator

/-- `LinkedListAllocator::new`, over memory of any content. -/
def new (mem : Mem) : LinkedListAllocator := ⟨none, mem⟩

/-- The link of the node at `current`, `none` being the head. -/
def next (s : LinkedListAllocator) : Option ℕ → Option ℕ
  | none => s.head
  | some a => (node s.mem a).next

/-- `current.next = v`. -/
def setNext (s : LinkedListAllocator) (v : Option ℕ) : Option ℕ → LinkedListAllocator
  | none => { s with head := v }
  | some a => { s with mem := putNext s.mem a v }

/-- The free region whose node is at `a`. -/
def region (s : LinkedListAllocator) (a : ℕ) : Extent := ⟨a, (node s.mem a).size⟩

/-- `add_free_region(addr, size)`; a reference to address 0 is `None`. -/
def addFreeRegion (s : LinkedListAllocator) (addr size : ℕ) : Option LinkedListAllocator := do
  if (← alignUp addr nodeAlign) = addr ∧ nodeSize ≤ size then
    some ⟨Tlsf.pointer addr, putNode s.mem addr ⟨size, s.head⟩⟩
  else none

/-- `init(heap_start, heap_size)`. -/
def init (s : LinkedListAllocator) (heapStart heapSize : ℕ) : Option LinkedListAllocator :=
  s.addFreeRegion heapStart heapSize

/-- The loop of `find_region`, with `current` the node before the region it looks at. -/
def findFrom (s : LinkedListAllocator) (size align : ℕ) :
    ℕ → Option ℕ → Option (Option (ℕ × ℕ) × LinkedListAllocator)
  | 0, _ => none
  | fuel + 1, current =>
    match s.next current with
    | none => some (none, s)
    | some a => do
      match ← allocFromRegion (s.region a) size align with
      | some allocStart =>
        let next := s.next (some a)
        let s := s.setNext none (some a)
        let region ← s.next current
        some (some (region, allocStart), s.setNext next current)
      | none => s.findFrom size align fuel (some a)

/-- `find_region(size, align)`: the region it takes off the list, and the start of the allocation
in it. -/
def findRegion (s : LinkedListAllocator) (size align : ℕ) :
    Option (Option (ℕ × ℕ) × LinkedListAllocator) :=
  s.findFrom size align (2 ^ 64) none

/-- `alloc(layout)`: a pointer, null if no region fits. -/
def alloc (s : LinkedListAllocator) (layout : Layout) : Option (ℕ × LinkedListAllocator) := do
  let (size, align) ← sizeAlign layout
  match ← s.findRegion size align with
  | (some (a, allocStart), s) =>
    let allocEnd ← Word.add allocStart size
    let excessSize ← Word.sub (← Word.add a (s.region a).size) allocEnd
    if 0 < excessSize then some (allocStart, ← s.addFreeRegion allocEnd excessSize)
    else some (allocStart, s)
  | (none, s) => some (0, s)

/-- `dealloc(ptr, layout)`. -/
def dealloc (s : LinkedListAllocator) (ptr : ℕ) (layout : Layout) : Option LinkedListAllocator := do
  let (size, _) ← sizeAlign layout
  s.addFreeRegion ptr size

end LinkedListAllocator

/-! ## Clients -/

/-- A live allocation. -/
structure Alloc where
  ptr : ℕ
  layout : Layout
deriving DecidableEq, Repr

/-- The memory an allocation owns: its pointer, and the adjusted size of its layout. -/
def Alloc.extent (a : Alloc) : Extent := ⟨a.ptr, ((sizeAlign a.layout).getD (0, 0)).1⟩

/-- The heap, and the live allocations. -/
structure Sys where
  heap : LinkedListAllocator
  live : List Alloc

/-- What clients do. -/
inductive Op where
  | alloc (layout : Layout)
  | dealloc (a : Alloc)
  | store (addr : ℕ) (byte : UInt8)

/-- One operation; `none` is a panic. -/
def Sys.exec (s : Sys) : Op → Option Sys
  | .alloc layout => do
    let (ptr, heap) ← s.heap.alloc layout
    if ptr = 0 then some ⟨heap, s.live⟩ else some ⟨heap, ⟨ptr, layout⟩ :: s.live⟩
  | .dealloc a => do
    some ⟨← s.heap.dealloc a.ptr a.layout, s.live.erase a⟩
  | .store addr byte =>
    some ⟨{ s.heap with mem := Function.update s.heap.mem addr byte }, s.live⟩

/-- Clients give back live allocations, with their own layouts, and store into live allocations. -/
def Sys.Owns (s : Sys) : Op → Prop
  | .alloc _ => True
  | .dealloc a => a ∈ s.live
  | .store addr _ => ∃ a ∈ s.live, a.ptr ≤ addr ∧ addr < a.extent.stop

instance (s : Sys) (op : Op) : Decidable (s.Owns op) :=
  match op with
  | .alloc _ => inferInstanceAs (Decidable True)
  | .dealloc a => inferInstanceAs (Decidable (a ∈ s.live))
  | .store addr _ => inferInstanceAs (Decidable (∃ a ∈ s.live, a.ptr ≤ addr ∧ addr < a.extent.stop))

end YontiOs.LinkedList
