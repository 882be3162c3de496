import Mathlib.Data.Nat.Notation

/-! # The list allocator of p1

`Allocator` keeps a buffer and a linked list of blocks. A list node is identified by its address,
which is never used again after the node is erased; a `Pointer` holds such an address or `NULL`,
and reading through the address of an erased node has no meaning (`none`). Sizes are natural
numbers: every sum the code forms is a sum of lengths of listed blocks, so `size_t` does not wrap.

Three accesses rely on how the list behaves beyond what the standard promises, and are read as it
behaves. `it--` on the first element followed by `it++` reaches the new first element; `it--` on
the node just erased reaches its former predecessor; a write through the iterator of an erased
node reaches no listed block. A loop that erases while it iterates is then a recursion over the
elements not yet visited. `Pointer::set_block` has no return statement; its callers do not use what it
returns, and it is taken to return.
-/

namespace SphereMultithreading.Model.P1

/-- The codes an `AllocError` carries. -/
inductive AllocErrorType where
  | InvalidFree
  | NoMemory
deriving DecidableEq, Repr

/-- The exception thrown by the allocator. -/
structure AllocError where
  type : AllocErrorType
  message : String
deriving DecidableEq, Repr

/-- A list node: its address and the block it holds. `state` is set while the block is used. -/
structure MemoryBlock where
  addr : ℕ
  offset : ℕ
  length : ℕ
  state : Bool
deriving DecidableEq, Repr

namespace MemoryBlock

/-- The constructor leaves a block free. -/
def new (addr offset length : ℕ) : MemoryBlock := ⟨addr, offset, length, false⟩

def isFree (b : MemoryBlock) : Bool := !b.state

end MemoryBlock

/-- `p_block`: the address of a list node, or `NULL`. -/
structure Pointer where
  pBlock : Option ℕ
deriving DecidableEq, Repr

/-- The buffer, the list of blocks and the address the next list node will get. -/
structure Allocator where
  pBuffer : ℕ → UInt8
  blocks : List MemoryBlock
  nextAddr : ℕ

/-- Copies `n` bytes as if through a temporary, so the ranges may overlap. -/
def memmove (buffer : ℕ → UInt8) (dst src n : ℕ) : ℕ → UInt8 := fun i =>
  if dst ≤ i ∧ i < dst + n then buffer (src + (i - dst)) else buffer i

/-! ## List nodes -/

/-- Writes through the address of a node. -/
def update (addr : ℕ) (f : MemoryBlock → MemoryBlock) (blocks : List MemoryBlock) :
    List MemoryBlock :=
  blocks.map fun b => if b.addr = addr then f b else b

/-- `insert` before the successor of the node at the address. -/
def insertAfter (addr : ℕ) (block : MemoryBlock) : List MemoryBlock → List MemoryBlock
  | [] => []
  | b :: rest => if b.addr = addr then b :: block :: rest else b :: insertAfter addr block rest

namespace Allocator

/-- The node a non-null pointer designates, while it is listed. -/
def block? (a : Allocator) (addr : ℕ) : Option MemoryBlock := a.blocks.find? (·.addr = addr)

/-- `Pointer::get`, as an offset into the buffer. -/
def get (a : Allocator) (p : Pointer) : Option ℕ :=
  (p.pBlock.bind a.block?).map fun block => block.offset

/-- The search of `find_block`: the first block at the offset, `none` for `end()`. -/
def findBlock (a : Allocator) (offset : ℕ) : Option MemoryBlock :=
  a.blocks.find? (·.offset = offset)

/-- A single free block spans the buffer. -/
def new (buffer : ℕ → UInt8) (size : ℕ) : Allocator := ⟨buffer, [.new 0 0 size], 1⟩

/-! ## `merge_empty_blocks` -/

/-- `if (p_block) p_block->set_length(length_total)`. -/
def closeRun (pBlock : Option MemoryBlock) (lengthTotal : ℕ) : List MemoryBlock :=
  match pBlock with
  | none => []
  | some b => [{ b with length := lengthTotal }]

/-- The loop of `merge_empty_blocks`. `pBlock` is the listed block last made `p_block`; it is the
predecessor of the blocks not yet visited, and its length is written when the run ends. A free
block whose length equals the accumulated one becomes `p_block`, leaving the former one as it is;
every other free block is erased. -/
def mergeLoop : Option MemoryBlock → ℕ → List MemoryBlock → List MemoryBlock
  | pBlock, lengthTotal, [] => closeRun pBlock lengthTotal
  | pBlock, lengthTotal, b :: rest =>
      if b.isFree then
        if lengthTotal + b.length = b.length then
          pBlock.toList ++ mergeLoop (some b) (lengthTotal + b.length) rest
        else mergeLoop pBlock (lengthTotal + b.length) rest
      else closeRun pBlock lengthTotal ++ b :: mergeLoop none 0 rest

def mergeEmptyBlocks (a : Allocator) : Allocator := { a with blocks := mergeLoop none 0 a.blocks }

/-! ## `alloc` and `free` -/

/-- The loop of `alloc`: the first free block that is long enough is marked used, and what is left
of it becomes a new block behind it. -/
def allocLoop (fresh N : ℕ) : List MemoryBlock → Option (List MemoryBlock × ℕ)
  | [] => none
  | b :: rest =>
      if b.isFree ∧ N ≤ b.length then
        if N < b.length then
          some ({ b with state := true, length := N } ::
            .new fresh (b.offset + N) (b.length - N) :: rest, b.addr)
        else some ({ b with state := true } :: rest, b.addr)
      else (allocLoop fresh N rest).map fun (blocks, addr) => (b :: blocks, addr)

def alloc (a : Allocator) (N : ℕ) : Except AllocError Pointer × Allocator :=
  match allocLoop a.nextAddr N a.blocks with
  | none => (.error ⟨.NoMemory, "ERROR in alloc, no memory!\n"⟩, a)
  | some (blocks, addr) =>
      (.ok ⟨some addr⟩, { a with blocks := blocks, nextAddr := a.nextAddr + 1 })

/-- The pointer is passed by reference: its final value is returned beside the result. -/
def free (a : Allocator) (p : Pointer) : Option (Except AllocError Unit × Pointer × Allocator) :=
  match p.pBlock with
  | none => some (.error ⟨.InvalidFree, "ERROR in free, pointer is NULL!\n"⟩, p, a)
  | some addr => do
      let _ ← a.block? addr
      let a := { a with blocks := update addr (fun b => { b with state := false }) a.blocks }
      some (.ok (), ⟨none⟩, a.mergeEmptyBlocks)

/-! ## `realloc` -/

/-- Free blocks and the block being resized count as room. -/
def Joins (own : ℕ) (b : MemoryBlock) : Prop := b.isFree ∨ b.addr = own

instance (own : ℕ) (b : MemoryBlock) : Decidable (Joins own b) := inferInstanceAs (Decidable (_ ∨ _))

/-- The search of `realloc`: the candidate block (`none` for `end()`) and the length of the run
that starts there. A run is judged when a used block ends it. -/
def candidateLoop (own N : ℕ) : Option ℕ → ℕ → List MemoryBlock → Option ℕ × ℕ
  | candidate, blockLength, [] => (candidate, blockLength)
  | candidate, blockLength, b :: rest =>
      if Joins own b then
        candidateLoop own N (if blockLength = 0 then some b.addr else candidate)
          (blockLength + b.length) rest
      else if N ≤ blockLength then (candidate, blockLength)
      else candidateLoop own N none 0 rest

/-- The erasing loop of `realloc`: it starts behind the candidate and has no other end than the
end of the list. -/
def eraseMerged (own candidate : ℕ) : List MemoryBlock → List MemoryBlock
  | [] => []
  | b :: rest =>
      if b.addr = candidate then b :: rest.filter (fun c => ¬ Joins own c)
      else b :: eraseMerged own candidate rest

/-- The shrinking branch of `realloc`. -/
def shrink (a : Allocator) (itBlock : MemoryBlock) (N : ℕ) : Allocator :=
  { a with
    blocks := insertAfter itBlock.addr
      (.new a.nextAddr (itBlock.offset + N) (itBlock.length - N))
      (update itBlock.addr (fun b => { b with length := N }) a.blocks)
    nextAddr := a.nextAddr + 1 }

/-- The growing branch of `realloc`, once a candidate is found: the blocks merged into it are
erased, it takes the requested length and is marked used, the old block is marked free, the rest
of the run becomes a new block, and the contents move. -/
def grow (a : Allocator) (itBlock itBlockNew : MemoryBlock) (blockLength N : ℕ) : Allocator :=
  { pBuffer := memmove a.pBuffer itBlockNew.offset itBlock.offset itBlock.length
    blocks := insertAfter itBlockNew.addr
      (.new a.nextAddr (itBlockNew.offset + N) (blockLength - N))
      (update itBlock.addr (fun b => { b with state := false })
        (update itBlockNew.addr (fun b => { b with length := N, state := true })
          (eraseMerged itBlock.addr itBlockNew.addr a.blocks)))
    nextAddr := a.nextAddr + 1 }

/-- `none` when a pointer to an erased node is read or `end()` is dereferenced. -/
def realloc (a : Allocator) (p : Pointer) (N : ℕ) :
    Option (Except AllocError Unit × Pointer × Allocator) :=
  match p.pBlock with
  | none =>
      match a.alloc N with
      | (.ok q, a) => some (.ok (), q, a)
      | (.error e, a) => some (.error e, p, a)
  | some addr => do
      let block ← a.block? addr
      let itBlock ← a.findBlock block.offset
      if itBlock.length = N then some (.ok (), p, a)
      else if N < itBlock.length then some (.ok (), p, (a.shrink itBlock N).mergeEmptyBlocks)
      else
        let (candidate, blockLength) := candidateLoop itBlock.addr N none 0 a.blocks
        if blockLength < N then
          some (.error ⟨.NoMemory, "ERROR in realloc, no memory!\n"⟩, p, a)
        else do
          let itBlockNew ← candidate.bind a.block?
          some (.ok (), ⟨some itBlockNew.addr⟩,
            (a.grow itBlock itBlockNew blockLength N).mergeEmptyBlocks)

/-! ## `defrag` -/

/-- The loop of `defrag`: free blocks are erased and counted, used blocks slide down to the running
offset with their bytes. Returns the buffer, the kept blocks, the final offset and the free length. -/
def defragLoop : (ℕ → UInt8) → ℕ → ℕ → List MemoryBlock → (ℕ → UInt8) × List MemoryBlock × ℕ × ℕ
  | buffer, blockLength, blockOffset, [] => (buffer, [], blockOffset, blockLength)
  | buffer, blockLength, blockOffset, b :: rest =>
      if b.isFree then defragLoop buffer (blockLength + b.length) blockOffset rest
      else
        let (buffer, kept, offset, length) :=
          defragLoop (memmove buffer blockOffset b.offset b.length) blockLength
            (blockOffset + b.length) rest
        (buffer, { b with offset := blockOffset } :: kept, offset, length)

def defrag (a : Allocator) : Allocator :=
  let (buffer, kept, offset, length) := defragLoop a.pBuffer 0 0 a.blocks
  ⟨buffer, kept ++ [.new a.nextAddr offset length], a.nextAddr + 1⟩

end Allocator

end SphereMultithreading.Model.P1
