import YontiOs.Machinery.AlignedRange
import YontiOs.Machinery.Mem
import YontiOs.Machinery.Word

/-!
# Memory/Buddy — the physical frame allocator, as the kernel runs it

`BuddyAllocator` with the memory its free lists are threaded through: the first two words of a free
block's first frame are the links `next` and `prev`.  Every function returns `none` where the debug
build panics: an overflow, a failed assertion, a bitmap index out of range, a physical address of
more than 52 bits, a link at an address that is no multiple of 8.

The loop of `deallocate_frame_order` is `coalesce`.  It also returns the `remove_free` calls it
makes, each with the state it is made in, which the code does not keep.
-/

namespace YontiOs.Buddy

open AlignedRange

def maxOrder : ℕ := 10
def maxTrackedFrames : ℕ := 131072
def bitmapU64Len : ℕ := maxTrackedFrames / 64
def nullLink : ℕ := 2 ^ 64 - 1
def frameSize : ℕ := 4096

/-- The kinds of region a boot loader reports. -/
inductive MemoryRegionKind where
  | usable
  | bootloader
  | unknownUefi (tag : ℕ)
  | unknownBios (tag : ℕ)
deriving DecidableEq, Repr

/-- A region of physical memory, `end_` excluded. -/
structure MemoryRegion where
  start : ℕ
  end_ : ℕ
  kind : MemoryRegionKind
deriving DecidableEq, Repr

/-- The allocator, and the memory its links are in. -/
structure BuddyAllocator where
  freeLists : ℕ → Option ℕ
  bitmap : ℕ → BitVec 64
  totalFrames : ℕ
  basePhys : ℕ
  physMemOffset : ℕ
  allocatedCount : ℕ
  mem : Mem

/-- `floor_log2(x)`. -/
def floorLog2 (x : ℕ) : ℕ := if x = 0 then 0 else x.log2

namespace BuddyAllocator

/-! ## Bitmap helpers -/

/-- `bitmap_index(idx)`: a word and a mask. -/
def bitmapIndex (idx : ℕ) : ℕ × BitVec 64 := (idx / 64, 1#64 <<< (idx % 64))

def isFree (s : BuddyAllocator) (idx : ℕ) : Option Bool :=
  let (word, bit) := bitmapIndex idx
  if word < bitmapU64Len then some (s.bitmap word &&& bit != 0) else none

/-- `is_range_free(start, count)`, stopping at the first frame that is not. -/
def isRangeFree (s : BuddyAllocator) (start count : ℕ) : Option Bool := do
  if s.totalFrames < (← Word.add start count) then some false
  else (List.range count).allM fun i => s.isFree (start + i)

def markFree (s : BuddyAllocator) (idx : ℕ) : Option BuddyAllocator :=
  let (word, bit) := bitmapIndex idx
  if word < bitmapU64Len then
    some { s with bitmap := Function.update s.bitmap word (s.bitmap word ||| bit) }
  else none

def markAllocated (s : BuddyAllocator) (idx : ℕ) : Option BuddyAllocator :=
  let (word, bit) := bitmapIndex idx
  if word < bitmapU64Len then
    some { s with bitmap := Function.update s.bitmap word (s.bitmap word &&& ~~~bit) }
  else none

def markRangeAllocated (s : BuddyAllocator) (start count : ℕ) : Option BuddyAllocator :=
  (List.range count).foldlM (fun s i => s.markAllocated (start + i)) s

def markRangeFree (s : BuddyAllocator) (start count : ℕ) : Option BuddyAllocator :=
  (List.range count).foldlM (fun s i => s.markFree (start + i)) s

/-! ## Address conversion -/

def idxToPhys (s : BuddyAllocator) (idx : ℕ) : Option ℕ := do
  Word.add s.basePhys (← Word.mul idx frameSize)

def physToIdx (s : BuddyAllocator) (phys : ℕ) : Option ℕ := do
  some ((← Word.sub phys s.basePhys) / frameSize)

def frameIdxToPtr (s : BuddyAllocator) (idx : ℕ) : Option ℕ := do
  Word.add (← s.idxToPhys idx) s.physMemOffset

/-! ## Free list helpers -/

def isAlignedForOrder (idx order : ℕ) : Bool := idx &&& (2 ^ order - 1) == 0

/-- `frame_idx_to_ptr(idx) as *mut usize`, for the links behind it to be read or written. -/
def linksAt (s : BuddyAllocator) (idx : ℕ) : Option ℕ := do
  let header ← s.frameIdxToPtr idx
  deref 8 header
  some header

/-- A link word as an index. -/
def link (w : ℕ) : Option ℕ := if w = nullLink then none else some w

/-- `*(header as *mut usize)`, the link forwards. -/
def nextAt (m : Mem) (header : ℕ) : ℕ := m.readLE header 8

/-- `*(header as *mut usize).add(1)`, the link backwards. -/
def prevAt (m : Mem) (header : ℕ) : ℕ := m.readLE (header + 8) 8

def setNext (s : BuddyAllocator) (header w : ℕ) : BuddyAllocator :=
  { s with mem := s.mem.writeLE header 8 w }

def setPrev (s : BuddyAllocator) (header w : ℕ) : BuddyAllocator :=
  { s with mem := s.mem.writeLE (header + 8) 8 w }

/-- `self.free_lists[order] = v`. -/
def setList (s : BuddyAllocator) (order : ℕ) (v : Option ℕ) : BuddyAllocator :=
  { s with freeLists := Function.update s.freeLists order v }

/-- `insert_free(idx, order)`: push a block on its list. -/
def insertFree (s : BuddyAllocator) (idx order : ℕ) : Option BuddyAllocator :=
  if isAlignedForOrder idx order then do
    let s ← s.markRangeFree idx (2 ^ order)
    let header ← s.linksAt idx
    let oldHead := s.freeLists order
    let s := s.setNext header (oldHead.getD nullLink)
    let s := s.setPrev header nullLink
    let s ← match oldHead with
      | some old => do some (s.setPrev (← s.linksAt old) idx)
      | none => some s
    some (s.setList order (some idx))
  else none

/-- `pop_free(order)`: take the head of a list. -/
def popFree (s : BuddyAllocator) (order : ℕ) : Option (Option ℕ × BuddyAllocator) :=
  match s.freeLists order with
  | none => some (none, s)
  | some idx => do
    let header ← s.linksAt idx
    let next := nextAt s.mem header
    let s ← if next ≠ nullLink then do some (s.setPrev (← s.linksAt next) nullLink)
      else some s
    let s := s.setList order (link next)
    some (some idx, ← s.markRangeAllocated idx (2 ^ order))

/-- `remove_free(idx, order)`: unlink a block from its list. -/
def removeFree (s : BuddyAllocator) (idx order : ℕ) : Option BuddyAllocator := do
  let header ← s.linksAt idx
  let next := nextAt s.mem header
  let prev := prevAt s.mem header
  let s ← if prev ≠ nullLink then do some (s.setNext (← s.linksAt prev) next)
    else some (s.setList order (link next))
  if next ≠ nullLink then do some (s.setPrev (← s.linksAt next) prev)
  else some s

/-! ## Allocation and deallocation -/

/-- The split loop of `allocate_frame_order`, from `d` orders above the requested one. -/
def split (s : BuddyAllocator) (idx order : ℕ) : ℕ → Option BuddyAllocator
  | 0 => some s
  | d + 1 => do
    let s ← s.insertFree (← Word.add idx (2 ^ (order + d))) (order + d)
    s.split idx order d

/-- The end of `allocate_frame_order`: count the frames and name the first by its address, of which
`PhysAddr::new` accepts 52 bits. -/
def handOut (s : BuddyAllocator) (idx order : ℕ) : Option (Option ℕ × BuddyAllocator) := do
  let s := { s with allocatedCount := ← Word.add s.allocatedCount (2 ^ order) }
  let phys ← s.idxToPhys idx
  if phys < 2 ^ 52 then some (some (phys / frameSize * frameSize), s) else none

/-- `allocate_frame_order(order)`: the frame's physical address. -/
def allocateFrameOrder (s : BuddyAllocator) (order : ℕ) : Option (Option ℕ × BuddyAllocator) :=
  if maxOrder < order then some (none, s)
  else
    match (List.range' order (maxOrder + 1 - order)).find? fun k => (s.freeLists k).isSome with
    | none => some (none, s)
    | some allocOrder => do
      match ← s.popFree allocOrder with
      | (none, s) => some (none, s)
      | (some idx, s) => do
        let s ← s.split idx order (allocOrder - order)
        s.handOut idx order

/-- `allocate_frame()`. -/
def allocateFrame (s : BuddyAllocator) : Option (Option ℕ × BuddyAllocator) :=
  s.allocateFrameOrder 0

/-- `free_frames()`. -/
def freeFrames (s : BuddyAllocator) : Option ℕ := Word.sub s.totalFrames s.allocatedCount

/-- What the merge loop does to a free buddy: unlink it and clear its bits. -/
def takeBuddy (s : BuddyAllocator) (idx order : ℕ) : Option BuddyAllocator := do
  (← s.removeFree idx order).markRangeAllocated idx (2 ^ order)

/-- A call of `remove_free`, with the state it is made in. -/
structure RemoveCall where
  state : BuddyAllocator
  idx : ℕ
  order : ℕ

/-- The merge loop of `deallocate_frame_order`, with `d` orders left below the largest: the
`remove_free` calls it makes, and the block and the state it ends with. -/
def coalesce (s : BuddyAllocator) (idx order : ℕ) :
    ℕ → List RemoveCall × Option (ℕ × ℕ × BuddyAllocator)
  | 0 => ([], some (idx, order, s))
  | d + 1 =>
    let buddyIdx := buddy idx order
    if s.totalFrames ≤ buddyIdx then ([], some (idx, order, s))
    else
      match s.isRangeFree buddyIdx (2 ^ order) with
      | none => ([], none)
      | some false => ([], some (idx, order, s))
      | some true =>
        let rest := match s.takeBuddy buddyIdx order with
          | none => ([], none)
          | some s' => s'.coalesce (min idx buddyIdx) (order + 1) d
        (⟨s, buddyIdx, order⟩ :: rest.1, rest.2)

/-- The part of `deallocate_frame_order(frame, order)` up to the merge loop's end. -/
def merge (s : BuddyAllocator) (frame order : ℕ) :
    List RemoveCall × Option (ℕ × ℕ × BuddyAllocator) :=
  match Word.sub s.allocatedCount (2 ^ order), s.physToIdx frame with
  | some count, some idx =>
    coalesce { s with allocatedCount := count } idx order (maxOrder - order)
  | _, _ => ([], none)

/-- `deallocate_frame_order(frame, order)`. -/
def deallocateFrameOrder (s : BuddyAllocator) (frame order : ℕ) : Option BuddyAllocator :=
  if maxOrder < order then some s
  else do
    let (idx, order, s) ← (s.merge frame order).2
    s.insertFree idx order

/-- The `remove_free` calls of `deallocate_frame_order(frame, order)`, whether it returns or not. -/
def removeCalls (s : BuddyAllocator) (frame order : ℕ) : List RemoveCall :=
  if maxOrder < order then [] else (s.merge frame order).1

/-! ## Construction -/

/-- The largest order up to a bound that an index is aligned for. -/
def alignedOrder (pos : ℕ) : ℕ → ℕ
  | 0 => 0
  | k + 1 => if isAlignedForOrder pos (k + 1) then k + 1 else alignedOrder pos k

/-- The order `new` carves at `pos`: it fits the region and is aligned. -/
def carveOrder (pos stop : ℕ) : ℕ := alignedOrder pos (min maxOrder (floorLog2 (stop - pos)))

/-- The carving loop of `new`, with at most `d` blocks to go. -/
def carve (s : BuddyAllocator) (pos stop : ℕ) : ℕ → Option BuddyAllocator
  | 0 => some s
  | d + 1 =>
    if pos < stop then do
      let order := carveOrder pos stop
      let s ← if ← s.isFree pos then s.insertFree pos order else some s
      s.carve (pos + 2 ^ order) stop d
    else some s

/-- The frame indices of a region. -/
def frameRange (s : BuddyAllocator) (r : MemoryRegion) : Option (ℕ × ℕ) := do
  some ((← Word.sub r.start s.basePhys) / frameSize, (← Word.sub r.end_ s.basePhys) / frameSize)

/-- Mark the frames of one region. -/
def markRegion (s : BuddyAllocator) (r : MemoryRegion) : Option BuddyAllocator := do
  let (startIdx, endIdx) ← s.frameRange r
  (List.range' startIdx (endIdx - startIdx)).foldlM
    (fun s idx => if idx < s.totalFrames then s.markFree idx else some s) s

/-- Carve one region into blocks. -/
def carveRegion (s : BuddyAllocator) (r : MemoryRegion) : Option BuddyAllocator := do
  let (pos, stop) ← s.frameRange r
  if s.totalFrames ≤ pos then some s
  else s.carve pos (min stop s.totalFrames) (min stop s.totalFrames - pos)

/-- The regions `new` uses. -/
def usableRegions (regions : List MemoryRegion) : List MemoryRegion :=
  regions.filter (·.kind = .usable)

/-- `BuddyAllocator::new(memory_regions, physical_memory_offset)`. -/
def new (regions : List MemoryRegion) (offset : ℕ) (mem : Mem) : Option BuddyAllocator :=
  let usable := usableRegions regions
  if usable = [] then none
  else do
    let base := usable.foldl (fun b r => min b r.start) (2 ^ 64 - 1)
    let lastEnd := usable.foldl (fun e r => max e r.end_) 0
    let total := (← Word.sub lastEnd base) / frameSize
    let total := if maxTrackedFrames < total then maxTrackedFrames else total
    let s : BuddyAllocator := ⟨fun _ => none, fun _ => 0, total, base, offset, 0, mem⟩
    let s ← usable.foldlM markRegion s
    usable.foldlM carveRegion s

end BuddyAllocator

end YontiOs.Buddy
