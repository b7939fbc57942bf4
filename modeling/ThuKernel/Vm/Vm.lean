-- The page allocator of kalloc.c and the page tables of vm.c. The free list
-- and the tables live in the memory they manage, as in the C code.
import ThuKernel.Lib.Prog
import ThuKernel.Vm.Riscv

namespace ThuKernel

/-- The memory, and `kmem.freelist`. -/
structure Mm where
  mem : Bytes
  freelist : Nat

/-! ## kalloc.c -/

/-- Returns 0 when no page is left. -/
def kalloc : Prog Mm Nat := do
  let s ← get
  let l := s.freelist
  if l = 0 then pure 0
  else do
    set { mem := s.mem.fill l PGSIZE 5, freelist := s.mem.get64 l : Mm }
    pure l

def kfree (lk : Link) (pa : Nat) : Prog Mm Unit := do
  if pa % PGSIZE ≠ 0 ∨ pa < lk.ekernel ∨ PHYSTOP ≤ pa then Prog.panic "kfree"
  else modify fun s => { mem := (s.mem.fill pa PGSIZE 1).put64 pa s.freelist, freelist := pa }

/-! ## vm.c -/

def memset (dst : Nat) (c : Byte) (n : Nat) : Prog Mm Unit :=
  modify fun s => { s with mem := s.mem.fill dst n c }

def storePte (pte v : Nat) : Prog Mm Unit :=
  modify fun s => { s with mem := s.mem.put64 pte v }

/-- The loop of `walk`, from the table of a level down to level 0. -/
def walkFrom (va : Nat) (alloc : Bool) : (level : Nat) → (pagetable : Nat) → Prog Mm (Option Nat)
  | 0, pagetable => pure (some (pagetable + 8 * PX 0 va))
  | level + 1, pagetable => do
    let s ← get
    let pte := pagetable + 8 * PX (level + 1) va
    let v := s.mem.get64 pte
    if v.testBit 0 then walkFrom va alloc level (PTE2PA v)
    else if alloc = false then pure none
    else do
      let child ← kalloc
      if child = 0 then pure none
      else do
        memset child 0 PGSIZE
        storePte pte (PA2PTE child ||| PTE_V)
        walkFrom va alloc level child

/-- The address of the PTE of `va`. With `alloc`, missing table pages are
created. `none` is the null pointer. -/
def walk (pagetable va : Nat) (alloc : Bool) : Prog Mm (Option Nat) :=
  if MAXVA ≤ va then Prog.panic "walk" else walkFrom va alloc 2 pagetable

/-- The physical address of a user page, or 0 if not mapped. -/
def walkaddr (pagetable va : Nat) : Prog Mm Nat :=
  if MAXVA ≤ va then pure 0
  else do
    match ← walk pagetable va false with
    | none => pure 0
    | some pte => do
      let s ← get
      let v := s.mem.get64 pte
      if v.testBit 0 = false then pure 0
      else if v.testBit 4 = false then pure 0
      else pure (PTE2PA v)

/-- The physical address of a user address. With no page, the offset alone. -/
def useraddr (pagetable va : Nat) : Prog Mm Nat := do
  let pa ← walkaddr pagetable va
  pure (pa ||| (va &&& 0xFFF))

def mappagesLoop (pagetable perm last : Nat) : (fuel : Nat) → (a pa : Nat) → Prog Mm Int
  | 0, _, _ => Prog.fault "mappages: past the last address"
  | n + 1, a, pa => do
    match ← walk pagetable a true with
    | none => pure (-1)
    | some pte => do
      let s ← get
      if (s.mem.get64 pte).testBit 0 then pure (-1)
      else do
        storePte pte (PA2PTE pa ||| perm ||| PTE_V)
        if a = last then pure 0
        else mappagesLoop pagetable perm last n (a + PGSIZE) ((pa + PGSIZE) % 2 ^ 64)

/-- Every turn but the last moves up one page, and `walk` panics at `MAXVA`,
so the loop has no more turns than there are pages below `MAXVA`. -/
def mappages (pagetable va size pa perm : Nat) : Prog Mm Int :=
  mappagesLoop pagetable perm (PGROUNDDOWN ((va + size + 2 ^ 64 - 1) % 2 ^ 64))
    (MAXVA / PGSIZE + 1) (PGROUNDDOWN va) pa

def uvmunmapLoop (lk : Link) (pagetable stop : Nat) (do_free : Bool) :
    (fuel : Nat) → (a : Nat) → Prog Mm Unit
  | 0, _ => Prog.fault "uvmunmap: past the last address"
  | n + 1, a =>
    if a < stop then do
      match ← walk pagetable a false with
      | none => Prog.panic "uvmunmap: walk"
      | some pte => do
        let s ← get
        let v := s.mem.get64 pte
        if v.testBit 0 = false then Prog.panic "uvmunmap: not mapped"
        else if PTE_FLAGS v = PTE_V then Prog.panic "uvmunmap: not a leaf"
        else do
          Prog.when do_free (kfree lk (PTE2PA v))
          storePte pte 0
          uvmunmapLoop lk pagetable stop do_free n (a + PGSIZE)
    else pure ()

def uvmunmap (lk : Link) (pagetable va npages : Nat) (do_free : Bool) : Prog Mm Unit :=
  if va % PGSIZE ≠ 0 then Prog.panic "uvmunmap: not aligned"
  else uvmunmapLoop lk pagetable ((va + npages * PGSIZE) % 2 ^ 64) do_free
    (MAXVA / PGSIZE + 1) va

/-- Returns 0 if out of memory. -/
def uvmcreate : Prog Mm Nat := do
  let pagetable ← kalloc
  if pagetable = 0 then pure 0
  else do
    memset pagetable 0 PGSIZE
    pure pagetable

/-- Frees a table of `depth` levels and the tables below it. -/
def freewalk (lk : Link) : (depth : Nat) → (pagetable : Nat) → Prog Mm Unit
  | 0, _ => Prog.fault "freewalk: below the last level"
  | depth + 1, pagetable => do
    Prog.forUp (fun i => do
      let s ← get
      let pte := s.mem.get64 (pagetable + 8 * i)
      Prog.when (pte.testBit 0 ∧ pte &&& (PTE_R ||| PTE_W ||| PTE_X) = 0) do
        -- this PTE points to a lower-level page table.
        freewalk lk depth (PTE2PA pte)
        storePte (pagetable + 8 * i) 0) 0 512
    kfree lk pagetable

def uvmfree (lk : Link) (pagetable sz : Nat) : Prog Mm Unit := do
  Prog.when (0 < sz) (uvmunmap lk pagetable 0 (PGROUNDUP sz / PGSIZE) true)
  freewalk lk 3 pagetable

/-- `memmove(dst, src, n)` inside the memory. -/
def memmove (dst src n : Nat) : Prog Mm Unit :=
  modify fun s => { s with mem := s.mem.store dst (s.mem.load src n) }

def uvmcopyLoop (lk : Link) (old new sz : Nat) : (fuel : Nat) → (i : Nat) → Prog Mm Int
  | 0, _ => Prog.fault "uvmcopy: past the last address"
  | n + 1, i =>
    if i < sz then do
      match ← walk old i false with
      | none => Prog.panic "uvmcopy: pte should exist"
      | some pte => do
        let s ← get
        let v := s.mem.get64 pte
        if v.testBit 0 = false then Prog.panic "uvmcopy: page not present"
        else do
          let mem ← kalloc
          if mem = 0 then do
            uvmunmap lk new 0 (i / PGSIZE) true
            pure (-1)
          else do
            memmove mem (PTE2PA v) PGSIZE
            let r ← mappages new i PGSIZE mem (PTE_FLAGS v)
            if r ≠ 0 then do
              kfree lk mem
              uvmunmap lk new 0 (i / PGSIZE) true
              pure (-1)
            else uvmcopyLoop lk old new sz n (i + PGSIZE)
    else pure 0

def uvmcopy (lk : Link) (old new sz : Nat) : Prog Mm Int :=
  uvmcopyLoop lk old new sz (MAXVA / PGSIZE + 1) 0

/-! ## Copies between the kernel and user pages -/

/-- The loop of `copyout`: `src` is what is left to copy. -/
def copyoutLoop (pagetable : Nat) : (fuel : Nat) → (dstva : Nat) → (src : List Byte) → Prog Mm Int
  | 0, _, _ => Prog.fault "copyout: more turns than bytes"
  | fuel + 1, dstva, src =>
    if src.length = 0 then pure 0
    else do
      let va0 := PGROUNDDOWN dstva
      let pa0 ← walkaddr pagetable va0
      if pa0 = 0 then pure (-1)
      else do
        let n := min (PGSIZE - (dstva - va0)) src.length
        modify fun s => { s with mem := s.mem.store (pa0 + (dstva - va0)) (src.take n) }
        copyoutLoop pagetable fuel ((va0 + PGSIZE) % 2 ^ 64) (src.drop n)

/-- Copies bytes to a user address, a 64-bit number. Returns 0 on success, -1
on error. -/
def copyout (pagetable dstva : Nat) (src : List Byte) : Prog Mm Int :=
  copyoutLoop pagetable (src.length + 1) (dstva % 2 ^ 64) src

/-- The loop of `copyin`: the bytes are those that reach `dst`. -/
def copyinLoop (pagetable : Nat) : (fuel : Nat) → (srcva len : Nat) → Prog Mm (Int × List Byte)
  | 0, _, _ => Prog.fault "copyin: more turns than bytes"
  | fuel + 1, srcva, len =>
    if len = 0 then pure (0, [])
    else do
      let va0 := PGROUNDDOWN srcva
      let pa0 ← walkaddr pagetable va0
      if pa0 = 0 then pure (-1, [])
      else do
        let n := min (PGSIZE - (srcva - va0)) len
        let s ← get
        let here := s.mem.load (pa0 + (srcva - va0)) n
        let (r, rest) ← copyinLoop pagetable fuel ((va0 + PGSIZE) % 2 ^ 64) (len - n)
        pure (r, here ++ rest)

/-- Copies bytes from a user address. With an error, the bytes before the
first page that is not mapped have reached `dst` all the same. -/
def copyin (pagetable srcva len : Nat) : Prog Mm (Int × List Byte) :=
  copyinLoop pagetable (len + 1) (srcva % 2 ^ 64) len

/-- The inner loop of `copyinstr`: at most `n` bytes from `p` on, with whether
a NUL came. -/
def copyChars (mem : Bytes) (p : Nat) : (n : Nat) → List Byte × Bool
  | 0 => ([], false)
  | n + 1 =>
    if mem p = 0 then ([0], true)
    else
      let (rest, got_null) := copyChars mem (p + 1) n
      (mem p :: rest, got_null)

/-- The outer loop of `copyinstr`: the result, and the bytes that reach `dst`. -/
def copyinstrLoop (pagetable : Nat) : (fuel : Nat) → (srcva max len : Nat) →
    Prog Mm (Int × List Byte)
  | 0, _, _, _ => Prog.fault "copyinstr: more turns than bytes"
  | fuel + 1, srcva, max, len =>
    if max = 0 then pure ((len : Int), [])
    else do
      let va0 := PGROUNDDOWN srcva
      let pa0 ← walkaddr pagetable va0
      if pa0 = 0 then pure (-1, [])
      else do
        let n := min (PGSIZE - (srcva - va0)) max
        let s ← get
        let (here, got_null) := copyChars s.mem (pa0 + (srcva - va0)) n
        if got_null then pure ((len + here.length - 1 : Nat), here)
        else do
          let (r, rest) ← copyinstrLoop pagetable fuel ((va0 + PGSIZE) % 2 ^ 64) (max - n) (len + n)
          pure (r, here ++ rest)

/-- Copies a string of at most `max` bytes from a user address. Returns its
length, or -1. -/
def copyinstr (pagetable srcva max : Nat) : Prog Mm (Int × List Byte) :=
  copyinstrLoop pagetable (max + 1) (srcva % 2 ^ 64) max 0

end ThuKernel
