import OctoOS.Lib.Prog
import OctoOS.E820
import Mathlib.Logic.Function.Basic

set_option autoImplicit false

/-! # The kernel heap (`kernel/heap.c`)

The functions are programs over loads and stores of header words, in the order the C code makes
them. A `struct block` at `b` has its `size` at `b`, `free` at `b + 4` and `next` at `b + 8`; all
blocks lie a multiple of four apart, so that words at different addresses never overlap. -/

namespace OctoOS

open Atomic

/-- One access to a header word. -/
inductive HeapOp where
  | load (a : ℕ)
  | store (a v : ℕ)

/-- Loads answer with the word, stores with nothing. -/
def HeapOp.Ans : HeapOp → Type
  | .load _ => ℕ
  | .store _ _ => Unit

def heapSig : Sig := ⟨HeapOp, HeapOp.Ans⟩

/-- The header words in memory. -/
abbrev HeapMem := ℕ → ℕ

def heapHandler : Handler heapSig HeapMem
  | .load a, m => .ok (m a, m)
  | .store a v, m => .ok ((), Function.update m a v)

def load (a : ℕ) : Prog heapSig ℕ := perform (S := heapSig) (.load a)

def store (a v : ℕ) : Prog heapSig Unit := perform (S := heapSig) (.store a v)

/-- `sizeof(struct block)`. -/
def blockHeader : ℕ := 12

/-- `HEAP_MAX_SIZE`. -/
def heapMaxSize : ℕ := 8 * 1024 * 1024

/-- `ALIGN_UP(x)`, on `uint32_t`. -/
def alignUp (x : ℕ) : ℕ := w32 (x + 7) / 8 * 8

/-- More iterations than a loop over distinct 32-bit addresses can make. -/
def heapLoopBound : ℕ := 2 ^ 32

/-- `heap_head`, `heap_total` and the memory the blocks live in. -/
structure Heap where
  head : ℕ
  total : ℕ
  mem : HeapMem

/-- `heap_init`. With no usable entry the statics keep their initial zero. -/
def heapInit (map : List E820Entry) (mem : HeapMem) : Heap :=
  let best := e820Best map
  if best.2 = 0 then ⟨0, 0, mem⟩
  else
    let bestLen := if heapMaxSize < best.2 then heapMaxSize else best.2
    let head := w32 best.1
    let total := w32 bestLen
    let mem := Function.update mem head (sub32 total blockHeader)
    let mem := Function.update mem (head + 4) 1
    let mem := Function.update mem (head + 8) 0
    ⟨head, total, mem⟩

/-- The split in `kmalloc`: `b` keeps `size` bytes and the rest becomes a free block. -/
def kmallocSplit (size b : ℕ) : Prog heapSig Unit := do
  let rest := w32 (b + blockHeader + size)
  store rest (sub32 (sub32 (← load b) size) blockHeader)
  store (rest + 4) 1
  store (rest + 8) (← load (b + 8))
  store b size
  store (b + 8) rest

/-- What `kmalloc` does with the block `b` it settles on. -/
def kmallocTake (size b : ℕ) : Prog heapSig ℕ := do
  if w32 (size + blockHeader + 8) ≤ (← load b) then kmallocSplit size b
  store (b + 4) 0
  return w32 (b + blockHeader)

/-- The loop of `kmalloc` from block `b`. -/
def kmallocLoop (size : ℕ) : ℕ → ℕ → Prog heapSig ℕ
  | 0, _ => .stop .diverges
  | fuel + 1, b =>
    if b = 0 then return 0
    else do
      if (← load (b + 4)) = 0 then kmallocLoop size fuel (← load (b + 8))
      else do
        if (← load b) < size then kmallocLoop size fuel (← load (b + 8))
        else kmallocTake size b

/-- `kmalloc`, with `heap_head` given. -/
def kmallocProg (head size : ℕ) : Prog heapSig ℕ :=
  if head = 0 ∨ size = 0 then return 0
  else kmallocLoop (alignUp size) heapLoopBound head

/-- The inner loop of `kfree`: merge the free blocks behind `p` into it. -/
def kfreeMerge (p : ℕ) : ℕ → Prog heapSig Unit
  | 0 => .stop .diverges
  | fuel + 1 => do
    if (← load (p + 4)) = 0 then return ()
    else do
      let next ← load (p + 8)
      if next = 0 then return ()
      else do
        if (← load (next + 4)) = 0 then return ()
        else do
          store p (w32 ((← load p) + (blockHeader + (← load next))))
          store (p + 8) (← load (next + 8))
          kfreeMerge p fuel

/-- The outer loop of `kfree` from block `p`. -/
def kfreeLoop : ℕ → ℕ → Prog heapSig Unit
  | 0, _ => .stop .diverges
  | fuel + 1, p =>
    if p = 0 then return ()
    else do
      kfreeMerge p heapLoopBound
      kfreeLoop fuel (← load (p + 8))

/-- `kfree`, with `heap_head` given. -/
def kfreeProg (head ptr : ℕ) : Prog heapSig Unit :=
  if ptr = 0 then return ()
  else do
    store (sub32 ptr blockHeader + 4) 1
    kfreeLoop heapLoopBound head

/-- `struct heap_stats`. -/
structure HeapStats where
  total : ℕ
  used : ℕ
  free : ℕ
  largestFree : ℕ
  blocks : ℕ
  deriving DecidableEq, Repr

/-- The loop of `heap_get_stats` from block `b`. -/
def heapStatsLoop : ℕ → ℕ → HeapStats → Prog heapSig HeapStats
  | 0, _, _ => .stop .diverges
  | fuel + 1, b, st =>
    if b = 0 then return st
    else do
      let size ← load b
      let st := { st with blocks := w32 (st.blocks + 1) }
      let free ← load (b + 4)
      let next ← load (b + 8)
      if free = 0 then heapStatsLoop fuel next { st with used := w32 (st.used + size) }
      else
        heapStatsLoop fuel next { st with
          free := w32 (st.free + size),
          largestFree := if st.largestFree < size then size else st.largestFree }

namespace Heap

/-- `kmalloc` run to its end: the pointer (0 for `NULL`) and the heap after the call. -/
def kmalloc (h : Heap) (size : ℕ) : Except Stop (ℕ × Heap) :=
  ((kmallocProg h.head size).run heapHandler h.mem).map (fun r => (r.1, { h with mem := r.2 }))

/-- `kfree` run to its end. -/
def kfree (h : Heap) (ptr : ℕ) : Except Stop Heap :=
  ((kfreeProg h.head ptr).run heapHandler h.mem).map (fun r => { h with mem := r.2 })

/-- `heap_get_stats`. -/
def getStats (h : Heap) : Except Stop HeapStats :=
  ((heapStatsLoop heapLoopBound h.head ⟨h.total, 0, 0, 0, 0⟩).run heapHandler h.mem).map Prod.fst

end Heap

end OctoOS
