import Koharu.Arch.Pmap
import Koharu.Lib.WordMemory
import Koharu.Mm.Tlsf

/-!
# The heap in memory

`kernel/lib/tlsf.c`, with the headers of the blocks where they are: in memory, between the blocks,
and with the links of the free blocks inside of these. A function is not defined where an assertion
of the source fails, as `assert` does not return then, nor where an index is outside of its array.

The fields of `control_t` that no pointer points to are fields of `TlsfMem`; `block_null`, the first
one, is in memory at the address `control`.

* `TlsfMem`: memory, with the bitmaps and the heads of the lists;
* `tlsfMalloc`, `tlsfMemalign`, `tlsfFree`, `tlsfRealloc`, `tlsfAddPool`, `tlsfCreate`: the
  interface.
-/

namespace Koharu

open Tlsf WordMemory

/-- A heap: memory, and the control structure. -/
structure TlsfMem where
  mem : Addr → BitVec 8
  flBitmap : BitVec 32
  slBitmap : ℕ → BitVec 32
  blocks : ℕ → Fin 32 → Addr

namespace TlsfMem

/-- `tlsf_assert`. -/
def tlsfAssert (p : Prop) [Decidable p] : Option Unit := if p then some () else none

/-- The first index of an access to `sl_bitmap` or `blocks`. -/
def checkIndex (fl : ℕ) : Option Unit := if fl < flIndexCount then some () else none

/-! ### Headers

Memory is bytes, and a header is two words in it. Reads and writes are those of the source, field by
field. -/

section Headers

variable (m : TlsfMem) (block : Addr)

/-- A word of memory. -/
def getWord (a : Addr) : BitVec 64 := load m.mem a

/-- A word of memory is set. -/
def setWord (a : Addr) (v : BitVec 64) : TlsfMem := { m with mem := store m.mem a v }

/-- `block->prev_phys_block`. -/
def prevPhysBlock : Addr := m.getWord block

/-- `block->size`. -/
def size : Size := m.getWord (block + 8#64)

/-- `block->next_free`. -/
def nextFree : Addr := m.getWord (block + 16#64)

/-- `block->prev_free`. -/
def prevFree : Addr := m.getWord (block + 24#64)

/-- `block->prev_phys_block = p`. -/
def setPrevPhysBlock (p : Addr) : TlsfMem := m.setWord block p

/-- `block->size = v`. -/
def setSize (v : Size) : TlsfMem := m.setWord (block + 8#64) v

/-- `block->next_free = p`. -/
def setNextFree (p : Addr) : TlsfMem := m.setWord (block + 16#64) p

/-- `block->prev_free = p`. -/
def setPrevFree (p : Addr) : TlsfMem := m.setWord (block + 24#64) p

/-- `block_header_free_bit`. -/
def blockHeaderFreeBit : Size := 1#64

/-- `block_header_prev_free_bit`. -/
def blockHeaderPrevFreeBit : Size := 2#64

/-- `block_size`. -/
def blockSize : Size := m.size block &&& ~~~(blockHeaderFreeBit ||| blockHeaderPrevFreeBit)

/-- `block_set_size`. -/
def blockSetSize (v : Size) : TlsfMem :=
  m.setSize block (v ||| (m.size block &&& (blockHeaderFreeBit ||| blockHeaderPrevFreeBit)))

/-- `block_is_last`. -/
def blockIsLast : Bool := m.blockSize block = 0

/-- `block_is_free`. -/
def blockIsFree : Bool := m.size block &&& blockHeaderFreeBit ≠ 0

/-- `block_set_free`. -/
def blockSetFree : TlsfMem := m.setSize block (m.size block ||| blockHeaderFreeBit)

/-- `block_set_used`. -/
def blockSetUsed : TlsfMem := m.setSize block (m.size block &&& ~~~blockHeaderFreeBit)

/-- `block_is_prev_free`. -/
def blockIsPrevFree : Bool := m.size block &&& blockHeaderPrevFreeBit ≠ 0

/-- `block_set_prev_free`. -/
def blockSetPrevFree : TlsfMem := m.setSize block (m.size block ||| blockHeaderPrevFreeBit)

/-- `block_set_prev_used`. -/
def blockSetPrevUsed : TlsfMem := m.setSize block (m.size block &&& ~~~blockHeaderPrevFreeBit)

/-- `block_from_ptr`. -/
def blockFromPtr (ptr : Addr) : Addr := ptr - blockStartOffset

/-- `block_to_ptr`. -/
def blockToPtr : Addr := block + blockStartOffset

/-- `offset_to_block`. -/
def offsetToBlock (ptr : Addr) (size : Size) : Addr := ptr + size

/-- `block_prev`. -/
def blockPrev : Option Addr := do
  tlsfAssert (m.blockIsPrevFree block = true)
  some (m.prevPhysBlock block)

/-- `block_next`. -/
def blockNext : Option Addr := do
  let next := offsetToBlock (blockToPtr block) (m.blockSize block - blockHeaderOverhead)
  tlsfAssert (m.blockIsLast block = false)
  some next

/-- `block_link_next`. -/
def blockLinkNext : Option (Addr × TlsfMem) := do
  let next ← m.blockNext block
  some (next, m.setPrevPhysBlock next block)

/-- `block_mark_as_free`. -/
def blockMarkAsFree : Option TlsfMem := do
  let r ← m.blockLinkNext block
  some ((r.2.blockSetPrevFree r.1).blockSetFree block)

/-- `block_mark_as_used`. -/
def blockMarkAsUsed : Option TlsfMem := do
  let next ← m.blockNext block
  some ((m.blockSetPrevUsed next).blockSetUsed block)

/-- `align_up`. -/
def alignUpTo (x align : Size) : Option Size := do
  tlsfAssert (align &&& (align - 1) = 0)
  some ((x + (align - 1)) &&& ~~~(align - 1))

/-- `align_ptr`. -/
def alignPtr (ptr : Addr) (align : Size) : Option Addr := do
  let aligned := (ptr + (align - 1)) &&& ~~~(align - 1)
  tlsfAssert (align &&& (align - 1) = 0)
  some aligned

/-- `adjust_request_size`. -/
def adjustRequestSizeTo (size align : Size) : Option Size :=
  if size = 0 then some 0
  else do
    let aligned ← alignUpTo size align
    some (if aligned < blockSizeMax then if aligned > blockSizeMin then aligned else blockSizeMin
      else 0)

end Headers

/-! ### Lists of free blocks

The functions on the lists, with their assertions: one that fails has no result. -/

section Lists

variable (control : Addr) (m : TlsfMem)

/-- `tlsf_ffs` of a map of the second level, as an index. -/
def ffsIndex (map : BitVec 32) : Fin 32 := ⟨ffs map % 32, Nat.mod_lt _ (Nat.succ_pos 31)⟩

/-- `search_suitable_block`: the first block of the list that the search ends at, or `NULL`, and the
indices of the list. -/
def searchSuitableBlock (k : Tlsf.Class) : Option (Addr × Tlsf.Class) := do
  checkIndex k.1
  let slMap := fromBit (m.slBitmap k.1) k.2
  if slMap = 0 then
    let flMap := fromBit m.flBitmap (k.1 + 1)
    if flMap = 0 then some (0, k)
    else
      let fl := ffs flMap
      checkIndex fl
      tlsfAssert (m.slBitmap fl ≠ 0)
      let sl := ffsIndex (m.slBitmap fl)
      some (m.blocks fl sl, (fl, sl))
  else
    let sl := ffsIndex slMap
    some (m.blocks k.1 sl, (k.1, sl))

/-- `control->blocks[fl][sl] = block`. -/
def setHead (k : Tlsf.Class) (block : Addr) : TlsfMem :=
  { m with blocks := Function.update m.blocks k.1 (Function.update (m.blocks k.1) k.2 block) }

/-- `control->sl_bitmap[fl] = map`. -/
def setSlBitmap (fl : ℕ) (map : BitVec 32) : TlsfMem :=
  { m with slBitmap := Function.update m.slBitmap fl map }

/-- `remove_free_block`. -/
def removeFreeBlock (block : Addr) (k : Tlsf.Class) : Option TlsfMem := do
  let prev := m.prevFree block
  let next := m.nextFree block
  tlsfAssert (prev ≠ 0)
  tlsfAssert (next ≠ 0)
  let m := (m.setPrevFree next prev).setNextFree prev next
  checkIndex k.1
  if m.blocks k.1 k.2 = block then
    let m := m.setHead k next
    if next = control then
      let m := m.setSlBitmap k.1 (m.slBitmap k.1 &&& ~~~BitVec.twoPow 32 k.2)
      -- the last block of the class clears its bit, the last of the row the row's bit
      if m.slBitmap k.1 = 0 then
        some { m with flBitmap := m.flBitmap &&& ~~~BitVec.twoPow 32 k.1 }
      else some m
    else some m
  else some m

/-- `insert_free_block`. -/
def insertFreeBlock (block : Addr) (k : Tlsf.Class) : Option TlsfMem := do
  checkIndex k.1
  let current := m.blocks k.1 k.2
  tlsfAssert (current ≠ 0)
  tlsfAssert (block ≠ 0)
  let m := ((m.setNextFree block current).setPrevFree block control).setPrevFree current block
  tlsfAssert (blockToPtr block = Tlsf.alignUp (blockToPtr block))
  let m := m.setHead k block
  let m := { m with flBitmap := m.flBitmap ||| BitVec.twoPow 32 k.1 }
  some (m.setSlBitmap k.1 (m.slBitmap k.1 ||| BitVec.twoPow 32 k.2))

/-- `block_remove`. -/
def blockRemove (block : Addr) : Option TlsfMem :=
  m.removeFreeBlock control block (mappingInsert (m.blockSize block))

/-- `block_insert`. -/
def blockInsert (block : Addr) : Option TlsfMem :=
  m.insertFreeBlock control block (mappingInsert (m.blockSize block))

/-! ### Blocks are split and merged

The functions on neighbouring blocks. Their asserts are kept, also where they hold trivially. -/

/-- `block_can_split`. -/
def blockCanSplit (block : Addr) (size : Size) : Bool :=
  m.blockSize block ≥ sizeofBlockHeader + size

/-- `block_split`. -/
def blockSplit (block : Addr) (size : Size) : Option (Addr × TlsfMem) := do
  let remaining := offsetToBlock (blockToPtr block) (size - blockHeaderOverhead)
  let remainSize := m.blockSize block - (size + blockHeaderOverhead)
  tlsfAssert (blockToPtr remaining = Tlsf.alignUp (blockToPtr remaining))
  tlsfAssert (m.blockSize block = remainSize + size + blockHeaderOverhead)
  let m := m.blockSetSize remaining remainSize
  tlsfAssert (m.blockSize remaining ≥ blockSizeMin)
  let m := m.blockSetSize block size
  let m ← m.blockMarkAsFree remaining
  some (remaining, m)

/-- `block_absorb`, which returns its argument `prev`. -/
def blockAbsorb (prev block : Addr) : Option TlsfMem := do
  tlsfAssert (m.blockIsLast prev = false)
  let m := m.setSize prev (m.size prev + (m.blockSize block + blockHeaderOverhead))
  let r ← m.blockLinkNext prev
  some r.2

/-- `block_merge_prev`. -/
def blockMergePrev (block : Addr) : Option (Addr × TlsfMem) :=
  if m.blockIsPrevFree block = true then do
    let prev ← m.blockPrev block
    tlsfAssert (prev ≠ 0)
    tlsfAssert (m.blockIsFree prev = true)
    let m ← m.blockRemove control prev
    let m ← m.blockAbsorb prev block
    some (prev, m)
  else some (block, m)

/-- `block_merge_next`, which returns its argument. -/
def blockMergeNext (block : Addr) : Option TlsfMem := do
  let next ← m.blockNext block
  tlsfAssert (next ≠ 0)
  if m.blockIsFree next = true then
    tlsfAssert (m.blockIsLast block = false)
    let m ← m.blockRemove control next
    m.blockAbsorb block next
  else some m

/-- `block_trim_free`. -/
def blockTrimFree (block : Addr) (size : Size) : Option TlsfMem := do
  tlsfAssert (m.blockIsFree block = true)
  if m.blockCanSplit block size = true then
    let r ← m.blockSplit block size
    let linked ← r.2.blockLinkNext block
    (linked.2.blockSetPrevFree r.1).blockInsert control r.1
  else some m

/-- `block_trim_used`. -/
def blockTrimUsed (block : Addr) (size : Size) : Option TlsfMem := do
  tlsfAssert (m.blockIsFree block = false)
  if m.blockCanSplit block size = true then
    let r ← m.blockSplit block size
    let m ← (r.2.blockSetPrevUsed r.1).blockMergeNext control r.1
    m.blockInsert control r.1
  else some m

/-- `block_trim_free_leading`. -/
def blockTrimFreeLeading (block : Addr) (size : Size) : Option (Addr × TlsfMem) :=
  if m.blockCanSplit block size = true then do
    let r ← m.blockSplit block (size - blockHeaderOverhead)
    let linked ← (r.2.blockSetPrevFree r.1).blockLinkNext block
    let m ← linked.2.blockInsert control block
    some (r.1, m)
  else some (block, m)

/-- `block_locate_free`. -/
def blockLocateFree (size : Size) : Option (Addr × TlsfMem) :=
  if size = 0 then some (0, m)
  else if (mappingSearch size).1 < flIndexCount then do
    let r ← m.searchSuitableBlock (mappingSearch size)
    if r.1 = 0 then some (0, m)
    else
      tlsfAssert (m.blockSize r.1 ≥ size)
      let m ← m.removeFreeBlock control r.1 r.2
      some (r.1, m)
  else some (0, m)

/-- `block_prepare_used`. -/
def blockPrepareUsed (block : Addr) (size : Size) : Option (Addr × TlsfMem) :=
  if block = 0 then some (0, m)
  else do
    tlsfAssert (size ≠ 0)
    let m ← m.blockTrimFree control block size
    let m ← m.blockMarkAsUsed block
    some (blockToPtr block, m)

/-! ### The interface

The functions that `kmem.c` calls, and those that a client may call. -/

/-- `tlsf_block_size`. -/
def tlsfBlockSize (ptr : Addr) : Size := if ptr = 0 then 0 else m.blockSize (blockFromPtr ptr)

/-- `tlsf_add_pool`. -/
def tlsfAddPool (mem bytes : BitVec 64) : Option (Addr × TlsfMem) :=
  let poolBytes := (bytes - poolOverhead) - ((bytes - poolOverhead) &&& 7#64)
  if mem.toInt % alignSize ≠ 0 then some (0, m)
  else if poolBytes < blockSizeMin ∨ poolBytes > blockSizeMax then some (0, m)
  else do
    let block := offsetToBlock mem (-blockHeaderOverhead)
    let m := ((m.blockSetSize block poolBytes).blockSetFree block).blockSetPrevUsed block
    let m ← m.blockInsert control block
    let r ← m.blockLinkNext block
    some (mem, ((r.2.blockSetSize r.1 0).blockSetUsed r.1).blockSetPrevFree r.1)

/-- `control_construct`. -/
def controlConstruct : TlsfMem :=
  let m := (m.setNextFree control control).setPrevFree control control
  { m with flBitmap := 0, slBitmap := fun _ => 0, blocks := fun _ _ => control }

/-- `tlsf_create`, which returns its argument, or `NULL`. -/
def tlsfCreate : Addr × TlsfMem :=
  if control.toInt % alignSize ≠ 0 then (0, m) else (control, controlConstruct control m)

/-- `tlsf_size`. -/
def tlsfSize : Size := 6536#64

/-- `tlsf_create_with_pool`. -/
def tlsfCreateWithPool (bytes : Size) : Option (Addr × TlsfMem) := do
  let r := tlsfCreate control m
  let m ← r.2.tlsfAddPool r.1 (control + tlsfSize) (bytes - tlsfSize)
  some (r.1, m.2)

/-- `tlsf_malloc`. -/
def tlsfMalloc (size : Size) : Option (Addr × TlsfMem) := do
  let adjust := adjustRequestSize size
  let r ← m.blockLocateFree control adjust
  r.2.blockPrepareUsed control r.1 adjust

/-- The pointer in a block that `tlsf_memalign` returns. -/
def alignedPtr (ptr : Addr) (align : Size) : Option Addr := do
  let aligned ← alignPtr ptr align
  let gap := aligned - ptr
  if gap ≠ 0 ∧ gap < sizeofBlockHeader then
    let gapRemain := sizeofBlockHeader - gap
    let offset := if gapRemain > align then gapRemain else align
    alignPtr (aligned + offset) align
  else some aligned

/-- `tlsf_memalign`. -/
def tlsfMemalign (align size : Size) : Option (Addr × TlsfMem) := do
  let adjust := adjustRequestSize size
  let sizeWithGap ← adjustRequestSizeTo (adjust + align + sizeofBlockHeader) align
  let alignedSize := if adjust ≠ 0 ∧ align > 8#64 then sizeWithGap else adjust
  let r ← m.blockLocateFree control alignedSize
  if r.1 = 0 then r.2.blockPrepareUsed control r.1 adjust
  else
    let ptr := blockToPtr r.1
    let aligned ← alignedPtr ptr align
    let gap := aligned - ptr
    if gap ≠ 0 then
      tlsfAssert (gap ≥ sizeofBlockHeader)
      let r ← r.2.blockTrimFreeLeading control r.1 gap
      r.2.blockPrepareUsed control r.1 adjust
    else r.2.blockPrepareUsed control r.1 adjust

/-- `tlsf_free`. -/
def tlsfFree (ptr : Addr) : Option TlsfMem :=
  if ptr = 0 then some m
  else do
    let block := blockFromPtr ptr
    tlsfAssert (m.blockIsFree block = false)
    let m ← m.blockMarkAsFree block
    let r ← m.blockMergePrev control block
    let m ← r.2.blockMergeNext control r.1
    m.blockInsert control r.1

/-- The loop of `memcpy`, from the bytes at `dst` and `src` on. -/
def memcpy : Addr → Addr → ℕ → (Addr → BitVec 8) → Addr → BitVec 8
  | _, _, 0, mem => mem
  | dst, src, count + 1, mem =>
      memcpy (dst + 1#64) (src + 1#64) count (Function.update mem dst (mem src))

/-- `tlsf_realloc`. -/
def tlsfRealloc (ptr : Addr) (size : Size) : Option (Addr × TlsfMem) :=
  if ptr ≠ 0 ∧ size = 0 then (m.tlsfFree control ptr).map fun m => (0, m)
  else if ptr = 0 then m.tlsfMalloc control size
  else do
    let block := blockFromPtr ptr
    let next ← m.blockNext block
    let cursize := m.blockSize block
    let combined := cursize + m.blockSize next + blockHeaderOverhead
    let adjust := adjustRequestSize size
    tlsfAssert (m.blockIsFree block = false)
    if adjust > cursize ∧ (m.blockIsFree next = false ∨ adjust > combined) then
      let r ← m.tlsfMalloc control size
      if r.1 = 0 then some r
      else
        let minsize := if cursize < size then cursize else size
        let m := { r.2 with mem := memcpy r.1 ptr minsize.toNat r.2.mem }
        (m.tlsfFree control ptr).map fun m => (r.1, m)
    else if adjust > cursize then
      -- into the free block behind
      let m ← m.blockMergeNext control block
      let m ← m.blockMarkAsUsed block
      (m.blockTrimUsed control block adjust).map fun m => (ptr, m)
    else (m.blockTrimUsed control block adjust).map fun m => (ptr, m)

end Lists

end TlsfMem

end Koharu
