import YontiOs.Machinery.Mem
import YontiOs.Machinery.Word

/-!
# Allocator/Tlsf — the two-level segregated fit heap, as the kernel runs it

`TlsfAllocator` with the memory its raw pointers reach.  A block is the address of its header; a
`FreeNode` sits right behind the header of a free block.  Every function returns `none` where the
debug build panics: an overflow, a failed `debug_assert!`, `expect` on an empty list, an index out
of range, `NonNull::new_unchecked` on null, a pointer dereferenced that is not a multiple of its
type's alignment.  A pointer a function dereferences several times is checked once.

`free` is cut at its comments: `coalesceForward`, `coalesceBackward`, and the tag of the next block.
`find_block` is cut into the choice of a size class (`chooseClass`), which reads only, and the `pop`
of its head.
-/

namespace YontiOs

/-- `align_up(addr, align)`. -/
def alignUp (addr align : ℕ) : Option ℕ :=
  if align.isPowerOfTwo then do
    let top ← Word.sub (← Word.add addr align) 1
    some (BitVec.ofNat 64 top &&& ~~~ BitVec.ofNat 64 (align - 1)).toNat
  else none

namespace Tlsf

/-! ## Headers and free nodes -/

def headerSize : ℕ := 8
def minBlockSize : ℕ := 32
def minFl : ℕ := 5
def flCount : ℕ := 19
def slCount : ℕ := 32
def freeFlag : BitVec 32 := 1
def prevFreeFlag : BitVec 32 := 2

/-- The tag in front of every block. -/
structure BlockHeader where
  prevPhysSize : BitVec 32
  sizeAndFlags : BitVec 32
deriving DecidableEq, Repr

namespace BlockHeader

def size (h : BlockHeader) : ℕ := (h.sizeAndFlags &&& ~~~3#32).toNat

def isFree (h : BlockHeader) : Bool := h.sizeAndFlags &&& freeFlag != 0

def prevIsFree (h : BlockHeader) : Bool := h.sizeAndFlags &&& prevFreeFlag != 0

/-- `set`, with its assertion that the size fits the field. -/
def set (h : BlockHeader) (size : ℕ) (free prevFree : Bool) : Option BlockHeader :=
  if size ≤ 2 ^ 32 - 1 then
    some { h with
      sizeAndFlags := BitVec.ofNat 32 size ||| (if free then freeFlag else 0) |||
        (if prevFree then prevFreeFlag else 0) }
  else none

def markFree (h : BlockHeader) (free : Bool) : BlockHeader :=
  if free then { h with sizeAndFlags := h.sizeAndFlags ||| freeFlag }
  else { h with sizeAndFlags := h.sizeAndFlags &&& ~~~freeFlag }

def markPrevFree (h : BlockHeader) (prevFree : Bool) : BlockHeader :=
  if prevFree then { h with sizeAndFlags := h.sizeAndFlags ||| prevFreeFlag }
  else { h with sizeAndFlags := h.sizeAndFlags &&& ~~~prevFreeFlag }

end BlockHeader

/-- The links of a free block; `none` is the null pointer. -/
structure FreeNode where
  prev : Option ℕ
  next : Option ℕ
deriving DecidableEq, Repr

/-- The header at `a`. -/
def header (m : Mem) (a : ℕ) : BlockHeader :=
  ⟨BitVec.ofNat 32 (m.readLE a 4), BitVec.ofNat 32 (m.readLE (a + 4) 4)⟩

/-- A header is dereferenced: its fields are of type `u32`. -/
def derefHeader (a : ℕ) : Option Unit := deref 4 a

/-- The memory after `h` was stored at `a`. -/
def putHeader (m : Mem) (a : ℕ) (h : BlockHeader) : Mem :=
  (m.writeLE a 4 h.prevPhysSize.toNat).writeLE (a + 4) 4 h.sizeAndFlags.toNat

/-- A word of memory read as `Option<NonNull<_>>`. -/
def pointer (w : ℕ) : Option ℕ := if w = 0 then none else some w

/-- The free node at `n`. -/
def node (m : Mem) (n : ℕ) : FreeNode := ⟨pointer (m.readLE n 8), pointer (m.readLE (n + 8) 8)⟩

/-- The memory after `v` was stored at `n`. -/
def putNode (m : Mem) (n : ℕ) (v : FreeNode) : Mem :=
  (m.writeLE n 8 (v.prev.getD 0)).writeLE (n + 8) 8 (v.next.getD 0)

/-- `block.as_ptr().add(1)`: the node behind a block's header. -/
def nodeOf (block : ℕ) : ℕ := block + headerSize

/-- The node behind a block's header is dereferenced: its fields are pointers. -/
def derefNode (block : ℕ) : Option Unit := deref 8 (nodeOf block)

/-- `NonNull::new_unchecked`. -/
def nonNull (a : ℕ) : Option ℕ := if a = 0 then none else some a

/-! ## Size classes -/

/-- `usize::leading_zeros`. -/
def leadingZeros (size : ℕ) : ℕ := if size = 0 then 64 else 63 - size.log2

/-- `mapping(size)`: the first and second level of a size's class. -/
def mapping (size : ℕ) : Option (ℕ × ℕ) := do
  let fl ← Word.sub (64 - leadingZeros size) 1
  let scaled ← Word.mul (size ^^^ 2 ^ fl) slCount
  some (min (fl - minFl) (flCount - 1), min (scaled >>> fl) (slCount - 1))

/-- The allocator, and the memory it manages. -/
structure TlsfAllocator where
  heapStart : ℕ
  heapEnd : ℕ
  flBitmap : BitVec 32
  slBitmaps : ℕ → BitVec 32
  freeLists : ℕ → ℕ → Option ℕ
  mem : Mem

namespace TlsfAllocator

/-- `TlsfAllocator::new`, over memory of any content. -/
def new (mem : Mem) : TlsfAllocator := ⟨0, 0, 0, fun _ => 0, fun _ _ => none, mem⟩

/-- `self.free_lists[fli][sl] = v`. -/
def setList (s : TlsfAllocator) (fli sl : ℕ) (v : Option ℕ) : TlsfAllocator :=
  { s with freeLists := Function.update s.freeLists fli (Function.update (s.freeLists fli) sl v) }

/-- Store a header. -/
def setHeader (s : TlsfAllocator) (a : ℕ) (h : BlockHeader) : TlsfAllocator :=
  { s with mem := putHeader s.mem a h }

/-- Store a free node. -/
def setNode (s : TlsfAllocator) (n : ℕ) (v : FreeNode) : TlsfAllocator :=
  { s with mem := putNode s.mem n v }

/-! ## The free lists -/

/-- `insert(block, size)`: push a block on the list of its class. -/
def insert (s : TlsfAllocator) (block size : ℕ) : Option TlsfAllocator := do
  let (fli, sl) ← mapping size
  derefNode block
  let s ←
    match s.freeLists fli sl with
    | some head => do
      let s := s.setNode (nodeOf block) ⟨none, some head⟩
      derefNode head
      some (s.setNode (nodeOf head) { node s.mem (nodeOf head) with prev := some block })
    | none => some (s.setNode (nodeOf block) ⟨none, none⟩)
  let s := s.setList fli sl (some block)
  some { s with
    slBitmaps := Function.update s.slBitmaps fli (Word.setBit (s.slBitmaps fli) sl)
    flBitmap := Word.setBit s.flBitmap fli }

/-- The bitmap bits of an emptied list. -/
def clearBits (s : TlsfAllocator) (fli sl : ℕ) : TlsfAllocator :=
  let row := Word.clearBit (s.slBitmaps fli) sl
  { s with
    slBitmaps := Function.update s.slBitmaps fli row
    flBitmap := if row = 0 then Word.clearBit s.flBitmap fli else s.flBitmap }

/-- `remove(block)`: unlink a block from the list its size names. -/
def remove (s : TlsfAllocator) (block : ℕ) : Option TlsfAllocator := do
  derefHeader block
  let (fli, sl) ← mapping (header s.mem block).size
  derefNode block
  match node s.mem (nodeOf block) with
  | ⟨none, none⟩ => some ((s.setList fli sl none).clearBits fli sl)
  | ⟨none, some next⟩ =>
    let s := s.setList fli sl (some next)
    derefNode next
    some (s.setNode (nodeOf next) { node s.mem (nodeOf next) with prev := none })
  | ⟨some prev, none⟩ =>
    derefNode prev
    some (s.setNode (nodeOf prev) { node s.mem (nodeOf prev) with next := none })
  | ⟨some prev, some next⟩ =>
    derefNode prev
    let s := s.setNode (nodeOf prev) { node s.mem (nodeOf prev) with next := some next }
    derefNode next
    some (s.setNode (nodeOf next) { node s.mem (nodeOf next) with prev := some prev })

/-- `pop(fli, sl)`: take the head of a list. -/
def pop (s : TlsfAllocator) (fli sl : ℕ) : Option (ℕ × TlsfAllocator) :=
  if fli < flCount ∧ sl < slCount then do
    let block ← s.freeLists fli sl
    some (block, ← s.remove block)
  else none

/-! ## Allocation -/

/-- The test `find_block` makes on a second-level bucket: its bit is set and its head fits. -/
def suits (s : TlsfAllocator) (fli needed sl2 : ℕ) : Bool :=
  (s.slBitmaps fli).getLsbD sl2 &&
    match s.freeLists fli sl2 with
    | some b => decide (needed ≤ (header s.mem b).size)
    | none => false

/-- The loop of `find_block` over the buckets of one first level. -/
def scan (s : TlsfAllocator) (fli sl needed : ℕ) : Option ℕ :=
  let slMap := s.slBitmaps fli &&& BitVec.allOnes 32 <<< sl
  if slMap ≠ 0 then
    let start := Word.trailingZeros slMap
    (List.range' start (slCount - start)).find? (s.suits fli needed)
  else none

/-- The heads that loop looks at: those up to the first that fits. -/
def peeked (s : TlsfAllocator) (fli sl needed : ℕ) : List ℕ :=
  let slMap := s.slBitmaps fli &&& BitVec.allOnes 32 <<< sl
  if slMap ≠ 0 then
    let start := Word.trailingZeros slMap
    let buckets := List.range' start (slCount - start)
    (buckets.take (buckets.findIdx (s.suits fli needed) + 1)).filterMap fun sl2 =>
      if (s.slBitmaps fli).getLsbD sl2 then s.freeLists fli sl2 else none
  else []

/-- The class `find_block` pops from: the first bucket of this first level whose head fits, else the
first bucket of the next non-empty first level. -/
def chooseClass (s : TlsfAllocator) (fli sl needed : ℕ) : Option (ℕ × ℕ) :=
  match s.scan fli sl needed with
  | some sl2 => some (fli, sl2)
  | none =>
    let flMap := s.flBitmap &&& BitVec.allOnes 32 <<< (fli + 1)
    if flMap ≠ 0 then
      let fl2 := Word.trailingZeros flMap
      some (fl2, Word.trailingZeros (s.slBitmaps fl2))
    else none

/-- `find_block(fli, sl, needed)`. -/
def findBlock (s : TlsfAllocator) (fli sl needed : ℕ) : Option (Option ℕ × TlsfAllocator) := do
  (s.peeked fli sl needed).forM derefHeader
  match s.chooseClass fli sl needed with
  | some (fl2, sl2) =>
    let (b, s) ← s.pop fl2 sl2
    some (some b, s)
  | none => some (none, s)

/-- The tags `alloc_from` writes when the rest of the block is split off, and the list the rest
goes on. -/
def splitBlock (s : TlsfAllocator) (block total rest : ℕ) : Option TlsfAllocator := do
  let h := header s.mem block
  let s := s.setHeader block (← h.set total false h.prevIsFree)
  let remAddr ← Word.add block total
  derefHeader remAddr
  let rem ← { header s.mem remAddr with prevPhysSize := BitVec.ofNat 32 total }.set rest true false
  let s := s.setHeader remAddr rem
  let next ← Word.add remAddr rest
  derefHeader next
  let s := s.setHeader next
    ({ header s.mem next with prevPhysSize := BitVec.ofNat 32 rest }.markPrevFree true)
  s.insert (← nonNull remAddr) rest

/-- The tags `alloc_from` writes when the block is handed out whole. -/
def takeBlock (s : TlsfAllocator) (block size : ℕ) : Option TlsfAllocator := do
  let s := s.setHeader block ((header s.mem block).markFree false)
  let next ← Word.add block size
  derefHeader next
  some (s.setHeader next ((header s.mem next).markPrevFree false))

/-- `alloc_from(block, user_size, align)`: the user pointer, null if the block is too small. -/
def allocFrom (s : TlsfAllocator) (block userSize align : ℕ) : Option (ℕ × TlsfAllocator) := do
  derefHeader block
  let h := header s.mem block
  let blockSize := h.size
  let userStart ← Word.add block headerSize
  let alignedStart ← alignUp userStart align
  let frontPadding ← Word.sub alignedStart userStart
  let total ← alignUp (← Word.add (← Word.add headerSize frontPadding) userSize) 8
  let total := max total minBlockSize
  if blockSize < total then
    let s := s.setHeader block (← h.set blockSize true h.prevIsFree)
    some (0, ← s.insert block blockSize)
  else if (← Word.add total minBlockSize) ≤ blockSize then
    some (alignedStart, ← s.splitBlock block total (← Word.sub blockSize total))
  else some (alignedStart, ← s.takeBlock block blockSize)

/-- The block size `malloc` asks `find_block` for. -/
def neededFor (size align : ℕ) : Option ℕ := do
  let worstPadding := align - headerSize
  let needed ← alignUp (← Word.add (← Word.add headerSize worstPadding) size) 8
  some (max needed minBlockSize)

/-- `malloc(size, align)`: a pointer, null if no block fits. -/
def malloc (s : TlsfAllocator) (size align : ℕ) : Option (ℕ × TlsfAllocator) := do
  let align := max align headerSize
  let needed ← neededFor size align
  let (fli, sl) ← mapping needed
  let fli := min fli (flCount - 1)
  match ← s.findBlock fli sl needed with
  | (some block, s) => s.allocFrom block size align
  | (none, s) => some (0, s)

/-! ## Release -/

/-- The test of forward coalescing: `&&` looks at a header below the end of the heap only. -/
def nextIsFree (s : TlsfAllocator) (next : ℕ) : Option Bool :=
  if next < s.heapEnd then do
    derefHeader next
    some (header s.mem next).isFree
  else some false

/-- `free`, forward coalescing: the free block behind `addr` is unlinked and swallowed. -/
def coalesceForward (s : TlsfAllocator) (addr size : ℕ) : Option (ℕ × TlsfAllocator) := do
  let next ← Word.add addr size
  if ← s.nextIsFree next then
    let s ← s.remove (← nonNull next)
    let size ← Word.add size (header s.mem next).size
    let h := header s.mem addr
    some (size, s.setHeader addr (← h.set size true h.prevIsFree))
  else some (size, s)

/-- `free`, backward coalescing: the free block before `addr` is unlinked and grows. -/
def coalesceBackward (s : TlsfAllocator) (addr size : ℕ) : Option (ℕ × ℕ × TlsfAllocator) := do
  let h := header s.mem addr
  if h.prevIsFree then
    let prevSize := h.prevPhysSize.toNat
    let prev ← Word.sub addr prevSize
    let s ← s.remove (← nonNull prev)
    let size ← Word.add size prevSize
    let h := header s.mem prev
    some (prev, size, s.setHeader prev (← h.set size true h.prevIsFree))
  else some (addr, size, s)

/-- `free(ptr)`. -/
def free (s : TlsfAllocator) (ptr : ℕ) : Option TlsfAllocator :=
  if ptr = 0 then some s
  else do
    let addr ← Word.sub ptr headerSize
    derefHeader addr
    let h := header s.mem addr
    let s := s.setHeader addr (h.markFree true)
    let (size, s) ← s.coalesceForward addr h.size
    let (addr, size, s) ← s.coalesceBackward addr size
    let next ← Word.add addr size
    derefHeader next
    let s := s.setHeader next
      ({ header s.mem next with prevPhysSize := BitVec.ofNat 32 size }.markPrevFree true)
    s.insert (← nonNull addr) size

/-! ## Initialisation -/

/-- `init(heap_start, heap_size)`: one free block, and the sentinel behind it. -/
def init (s : TlsfAllocator) (heapStart heapSize : ℕ) : Option TlsfAllocator := do
  let heapEnd ← Word.add heapStart heapSize
  let s := { s with heapStart := heapStart, heapEnd := heapEnd }
  derefHeader heapStart
  let first ← { header s.mem heapStart with prevPhysSize := 0 }.set heapSize true false
  let s := s.setHeader heapStart first
  derefHeader heapEnd
  let last ← { header s.mem heapEnd with
    prevPhysSize := BitVec.ofNat 32 heapSize }.set 0 false true
  let s := s.setHeader heapEnd last
  s.insert (← nonNull heapStart) heapSize

end TlsfAllocator

end Tlsf

end YontiOs
