import LispMachine.AvlCode

/-!
The allocator of `alloc.c`, as operations on memory.

A block is a run of words. A free block is a node of the tree at `fmds_ptr`, with the length of
the block as its data; a used block begins with its length, and the words after it are the
user's. All the lengths count the whole block.
-/

namespace LispMachine.Alloc

open LispMachine.Memory LispMachine.AvlCode LispMachine.Lib.BalTree

def umdsSz : ℕ := 1
def hdsSz : ℕ := 8
def minAllocSz : ℕ := 4

/-! ### The header of the heap -/

def heapEnd (heap : ℕ) : ℕ := heap
def prev (heap : ℕ) : ℕ := heap + 1
def next (heap : ℕ) : ℕ := heap + 2
def fmdsPtr (heap : ℕ) : ℕ := heap + 3
def gcSet (heap : ℕ) : ℕ := heap + 4
def trueNumAlloced (heap : ℕ) : ℕ := heap + 5
def gcNumAlloced (heap : ℕ) : ℕ := heap + 6
def wordsUsed (heap : ℕ) : ℕ := heap + 7

/-! ### The operations -/

/-- `get_mem_sz` -/
def getMemSz (m : Mem) (addr : ℕ) : ℕ := wsub (m (psub addr umdsSz)) umdsSz

/-- `alloc`: the memory afterwards and the address returned. -/
def alloc (m : Mem) (heap memSz : ℕ) : Option (Mem × ℕ) :=
  let memSz := wadd memSz umdsSz
  let memSz := if memSz < minAllocSz then minAllocSz else memSz
  let tr := fmdsPtr heap
  (avlMinGe m fuel (m.ptr tr) memSz).bind fun minGe =>
    if minGe = 0 then some (m, 0)
    else
      let oldSz := data m minGe
      (avlDeleteNode m tr minGe).bind fun (m, deleted) =>
        let m := if deleted ≠ minGe then avlMove m tr deleted minGe else m
        (if wadd memSz minAllocSz ≤ oldSz then
          let newSz := wsub oldSz memSz
          let newPtr := padd minGe memSz
          (avlInsertNode avlMemCmp m tr newPtr newSz).map fun (m, _) => (m, memSz)
        else some (m, oldSz)).map fun (m, memSz) =>
          let addr := minGe + 1
          let m := m.set minGe memSz
          let m := m.set (trueNumAlloced heap) (wadd (m (trueNumAlloced heap)) 1)
          (m.set (wordsUsed heap) (wadd (m (wordsUsed heap)) memSz), addr)

/-- The address from which on `free` takes no address for one of the heap:
`(word*)h_info + h_info->heap_end`, where `heap_end` is a byte address already. -/
def freeLimit (m : Mem) (heap : ℕ) : ℕ := padd heap (m (heapEnd heap))

/-- `free` -/
def free (m : Mem) (heap addr : ℕ) : Option Mem :=
  if addr < padd heap hdsSz ∨ freeLimit m heap ≤ addr then some m
  else
    let tr := fmdsPtr heap
    let freedMem := psub addr umdsSz
    let fmSz := m freedMem
    (avlMerge m tr freedMem fmSz).map fun m =>
      let m := m.set (trueNumAlloced heap) (wsub (m (trueNumAlloced heap)) 1)
      m.set (wordsUsed heap) (wsub (m (wordsUsed heap)) fmSz)

/-- The copying of `realloc`, from the word `i` on. -/
def reallocCopy (newAddr addr memSz : ℕ) : ℕ → Mem → ℕ → Option Mem
  | 0, _, _ => none
  | n + 1, m, i =>
    if i < min (wsub (m (psub addr umdsSz)) 1) memSz then
      reallocCopy newAddr addr memSz n (m.set (newAddr + i) (m (addr + i))) (i + 1)
    else some m

/-- `realloc` -/
def realloc (m : Mem) (heap addr memSz : ℕ) : Option (Mem × ℕ) :=
  (alloc m heap memSz).bind fun (m, newAddr) =>
    if newAddr = 0 then some (m, 0)
    else
      (reallocCopy newAddr addr memSz fuel m 0).bind fun m =>
        (free m heap addr).map fun m => (m, newAddr)

end LispMachine.Alloc
