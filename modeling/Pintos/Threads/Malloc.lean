import Pintos.StateExcept
import Pintos.Transition
import Pintos.Lib.Bitmap
import Mathlib.Data.List.Count
import Mathlib.Data.List.Nodup
import Mathlib.Tactic.IntervalCases

/-!
# The kernel allocator of `threads/malloc.c`

A request of at most 1 kB is rounded up to the block size of one of the
descriptors, 16 to 1024 bytes. A descriptor hands out blocks from its free list;
when the list is empty it takes a page from the page allocator, an arena, whose
header is followed by `blocks_per_arena` blocks, and puts them all on the list.
A freed block goes back on the list, and when that leaves every block of its
arena free, the blocks are taken off the list and the page goes back. A larger
request takes a run of pages, a big block, whose header records the page count.

The state is the descriptor table, the arena headers by page, the kernel pool
of `palloc.c` with its map of used pages, and the bytes of memory. The arena
headers and the free-list links are kept beside the bytes rather than in them,
and a page given back to the pool loses its header (the `0xcc` fill of
`palloc_free_multiple` overwrites its magic). `size_t` arithmetic is 32-bit
(`UInt32`); addresses are kernel virtual addresses inside the pool. The
descriptor locks serialise the calls, which are modelled as atomic.
-/

namespace Pintos.Malloc

open StateExcept SE Pintos.Lib

/-- `PGSIZE`. -/
def PGSIZE : Nat := 4096

/-- `sizeof (struct arena)`: `magic`, `desc` and `free_cnt`, four bytes each. -/
def ARENA_SIZE : Nat := 12

/-- `pg_ofs (va)`. -/
def pg_ofs (va : Nat) : Nat := va % PGSIZE

/-- `pg_round_down (va)`. -/
def pg_round_down (va : Nat) : Nat := va / PGSIZE * PGSIZE

/-- `struct desc`, without its lock. -/
structure Desc where
  block_size : Nat
  blocks_per_arena : Nat
  free_list : List Nat
  deriving Inhabited

/-- `struct arena` at the start of a page whose `magic` is `ARENA_MAGIC`: `desc`
is the index of the owning descriptor, `none` for a big block, whose `free_cnt`
is its number of pages. -/
structure Arena where
  desc : Option Nat
  free_cnt : Nat
  deriving DecidableEq

/-- `kernel_pool` of `palloc.c`: the address of its first page and its map of
used pages. -/
structure Pool where
  base : Nat
  used_map : List Bool

structure Heap where
  descs : Nat → Desc
  desc_cnt : Nat
  arenas : Nat → Option Arena
  pool : Pool
  mem : Nat → UInt8

/-- A failed `ASSERT`, or `NOT_REACHED`. -/
inductive MStop
  | panic
  deriving DecidableEq

abbrev MallocM (α : Type) := SE Heap MStop α

def ASSERT (c : Bool) : MallocM Unit := if c then pure () else throw .panic

/-! ## Memory and the page allocator -/

/-- The bytes `m` with the `n` from `p` on set to `v`. -/
def fill (m : Nat → UInt8) (p : Nat) (v : UInt8) (n : Nat) : Nat → UInt8 :=
  fun x => if p ≤ x ∧ x < p + n then v else m x

/-- The bytes `m` with the `n` from `dst` on read from those from `src` on. -/
def copy (m : Nat → UInt8) (dst src n : Nat) : Nat → UInt8 :=
  fun x => if dst ≤ x ∧ x < dst + n then m (src + (x - dst)) else m x

/-- `memset (p, v, n)`. -/
def memset (p : Nat) (v : UInt8) (n : Nat) : MallocM Unit :=
  modify fun s => { s with mem := fill s.mem p v n }

/-- `memcpy (dst, src, n)`. -/
def memcpy (dst src n : Nat) : MallocM Unit :=
  modify fun s => { s with mem := copy s.mem dst src n }

/-- The heap with the header at `a` set to `ar`. -/
def Heap.setArena (s : Heap) (a : Nat) (ar : Option Arena) : Heap :=
  { s with arenas := Function.update s.arenas a ar }

/-- The heap with the free list of descriptor `k` set to `l`. -/
def Heap.setList (s : Heap) (k : Nat) (l : List Nat) : Heap :=
  { s with descs := Function.update s.descs k { s.descs k with free_list := l } }

/-- The heap with the pool's map of used pages set to `m`. -/
def Heap.setUsed (s : Heap) (m : List Bool) : Heap :=
  { s with pool := { s.pool with used_map := m } }

def set_arena (a : Nat) (ar : Option Arena) : MallocM Unit :=
  modify (·.setArena a ar)

def set_free_list (k : Nat) (l : List Nat) : MallocM Unit :=
  modify (·.setList k l)

/-- `palloc_get_multiple (0, page_cnt)` from the kernel pool; `none` is a null
pointer. -/
def palloc_get_multiple (page_cnt : Nat) : MallocM (Option Nat) := do
  if page_cnt = 0 then pure none
  else do
    let s ← get
    match bitmap_scan_and_flip s.pool.used_map 0 page_cnt false with
    | (some page_idx, used_map) => do
      modify (·.setUsed used_map)
      pure (some (s.pool.base + PGSIZE * page_idx))
    | (none, _) => pure none

/-- `palloc_free_multiple (pages, page_cnt)` into the kernel pool. The `0xcc`
fill overwrites the arena header at `pages`. -/
def palloc_free_multiple (pages page_cnt : Nat) : MallocM Unit := do
  ASSERT (pg_ofs pages == 0)
  if pages = 0 ∨ page_cnt = 0 then pure ()
  else do
    let s ← get
    -- `page_from_pool (&kernel_pool, pages)`, or `NOT_REACHED ()`
    ASSERT (s.pool.base ≤ pages && pages < s.pool.base + PGSIZE * s.pool.used_map.length)
    let page_idx := pages / PGSIZE - s.pool.base / PGSIZE
    memset pages 0xcc (PGSIZE * page_cnt)
    set_arena pages none
    ASSERT (bitmap_all s.pool.used_map page_idx page_cnt)
    modify (·.setUsed (bitmap_set_multiple s.pool.used_map page_idx page_cnt false))

/-! ## `malloc.c` -/

/-- The loop of `malloc_init`: `for (block_size = 16; block_size < PGSIZE / 2;
block_size *= 2)`, filling `descs[desc_cnt++]`, for at most `fuel` rounds. -/
def malloc_init_loop : Nat → Nat → MallocM Unit
  | 0, _ => throw .panic
  | fuel + 1, block_size =>
    if block_size < PGSIZE / 2 then do
      let s ← get
      -- `struct desc *d = &descs[desc_cnt++];`, then its fields
      modify fun s => { s with desc_cnt := s.desc_cnt + 1 }
      modify fun t => { t with
        descs := Function.update t.descs s.desc_cnt
          ⟨block_size, (PGSIZE - ARENA_SIZE) / block_size, []⟩ }
      -- `ASSERT (desc_cnt <= sizeof descs / sizeof *descs)`
      ASSERT (s.desc_cnt + 1 ≤ 10)
      malloc_init_loop fuel (block_size * 2)
    else pure ()

/-- `malloc_init ()`. -/
def malloc_init : MallocM Unit :=
  malloc_init_loop 10 16

/-- `block_to_arena (b)`. -/
def block_to_arena (b : Nat) : MallocM (Nat × Arena) := do
  let a := pg_round_down b
  ASSERT (a != 0)
  let s ← get
  match s.arenas a with
  | none => throw .panic
  | some ar => do
    match ar.desc with
    | some k =>
      ASSERT ((UInt32.ofNat (pg_ofs b) - UInt32.ofNat ARENA_SIZE) %
        UInt32.ofNat (s.descs k).block_size == 0)
    | none => ASSERT (pg_ofs b == ARENA_SIZE)
    pure (a, ar)

/-- `arena_to_block (a, idx)`. -/
def arena_to_block (a idx : Nat) : MallocM Nat := do
  ASSERT (a != 0)
  let s ← get
  match s.arenas a with
  | none => throw .panic
  | some ar =>
    match ar.desc with
    | none => throw .panic
    | some k => do
      ASSERT (idx < (s.descs k).blocks_per_arena)
      pure (a + ARENA_SIZE + idx * (s.descs k).block_size)

/-- `list_pop_front (&d->free_list)`, on the sequence of the list. -/
def pop_free_list (k : Nat) : MallocM Nat := do
  let s ← get
  match (s.descs k).free_list with
  | [] => throw .panic
  | b :: rest => do
    set_free_list k rest
    pure b

/-- The smallest descriptor whose blocks hold `size` bytes, or `desc_cnt`: the
loop `for (d = descs; d < descs + desc_cnt; d++) if (d->block_size >= size) break;`. -/
def find_desc (descs : Nat → Desc) (desc_cnt : Nat) (size : Nat) : Nat :=
  ((List.range desc_cnt).find? fun k => size ≤ (descs k).block_size).getD desc_cnt

/-- Put a new arena's blocks on the free list of descriptor `k`: `for (i = 0; i <
d->blocks_per_arena; i++) list_push_back (&d->free_list, &arena_to_block (a, i)->free_elem);` -/
def push_blocks (k a : Nat) (n : Nat) : MallocM Unit :=
  forRange (fun i => do
    let b ← arena_to_block a i
    let s ← get
    set_free_list k ((s.descs k).free_list ++ [b])) n

/-- `malloc (size)`; `none` is a null pointer. -/
def malloc (size : UInt32) : MallocM (Option Nat) := do
  -- A null pointer satisfies a request for 0 bytes.
  if size = 0 then pure none
  else do
    let s ← get
    let k := find_desc s.descs s.desc_cnt size.toNat
    if k = s.desc_cnt then do
      -- SIZE is too big for any descriptor: `DIV_ROUND_UP (size + sizeof *a, PGSIZE)` pages.
      let page_cnt : UInt32 := (size + UInt32.ofNat ARENA_SIZE + UInt32.ofNat PGSIZE - 1) /
        UInt32.ofNat PGSIZE
      match ← palloc_get_multiple page_cnt.toNat with
      | none => pure none
      | some a => do
        set_arena a (some ⟨none, page_cnt.toNat⟩)
        pure (some (a + ARENA_SIZE))
    else do
      let bpa := (s.descs k).blocks_per_arena
      -- If the free list is empty, create a new arena.
      let fresh ← if (s.descs k).free_list = [] then do
          match ← palloc_get_multiple 1 with
          | none => pure false
          | some a => do
            set_arena a (some ⟨some k, bpa⟩)
            push_blocks k a bpa
            pure true
        else pure true
      if fresh then do
        -- Get a block from free list and return it.
        let b ← pop_free_list k
        let (a, ar) ← block_to_arena b
        set_arena a (some { ar with free_cnt := ar.free_cnt - 1 })
        pure (some b)
      else pure none

/-- Take an empty arena's blocks off the free list of descriptor `k`: `for (i = 0;
i < d->blocks_per_arena; i++) list_remove (&arena_to_block (a, i)->free_elem);` -/
def remove_blocks (k a : Nat) (n : Nat) : MallocM Unit :=
  forRange (fun i => do
    let b ← arena_to_block a i
    let s ← get
    set_free_list k ((s.descs k).free_list.erase b)) n

/-- `free (p)`. -/
def free (p : Option Nat) : MallocM Unit := do
  match p with
  | none => pure ()
  | some b => do
    let (a, ar) ← block_to_arena b
    match ar.desc with
    | some k => do
      let s ← get
      let d := s.descs k
      -- Clear the block to help detect use-after-free bugs.
      memset b 0xcc d.block_size
      set_free_list k (b :: d.free_list)
      let free_cnt := ar.free_cnt + 1
      set_arena a (some { ar with free_cnt := free_cnt })
      -- If the arena is now entirely unused, free it.
      if d.blocks_per_arena ≤ free_cnt then do
        ASSERT (free_cnt == d.blocks_per_arena)
        remove_blocks k a d.blocks_per_arena
        palloc_free_multiple a 1
      else pure ()
    | none =>
      -- It's a big block.  Free its pages.
      palloc_free_multiple a ar.free_cnt

/-- `calloc (a, b)`. -/
def calloc (a b : UInt32) : MallocM (Option Nat) := do
  let size := a * b
  if size < a || size < b then pure none
  else do
    let p ← malloc size
    match p with
    | some q => do
      memset q 0 size.toNat
      pure p
    | none => pure none

/-- `block_size (block)`. -/
def block_size (b : Nat) : MallocM Nat := do
  let (_, ar) ← block_to_arena b
  let s ← get
  match ar.desc with
  | some k => pure (s.descs k).block_size
  | none => pure (PGSIZE * ar.free_cnt - pg_ofs b)

/-- `realloc (old_block, new_size)`. -/
def realloc (old_block : Option Nat) (new_size : UInt32) : MallocM (Option Nat) := do
  if new_size = 0 then do
    free old_block
    pure none
  else do
    let new_block ← malloc new_size
    match old_block, new_block with
    | some o, some n => do
      let old_size ← block_size o
      let min_size := if new_size.toNat < old_size then new_size.toNat else old_size
      memcpy n o min_size
      free (some o)
      pure new_block
    | _, _ => pure new_block

/-! ## The layout of arenas -/

/-- A descriptor as `malloc_init` sets it up: its blocks follow the header in one page. -/
structure DescOk (d : Desc) : Prop where
  pos : 0 < d.block_size
  fits : d.block_size ≤ PGSIZE - ARENA_SIZE
  per_arena : d.blocks_per_arena = (PGSIZE - ARENA_SIZE) / d.block_size

theorem DescOk.blocks_pos {d : Desc} (h : DescOk d) : 0 < d.blocks_per_arena := by
  rw [h.per_arena]
  exact Nat.div_pos h.fits h.pos

/-- The `i`th block of an arena ends inside its page. -/
theorem DescOk.block_end {d : Desc} {i : Nat} (h : DescOk d) (hi : i < d.blocks_per_arena) :
    ARENA_SIZE + i * d.block_size + d.block_size ≤ PGSIZE := by
  have h1 : (i + 1) * d.block_size ≤ d.blocks_per_arena * d.block_size :=
    Nat.mul_le_mul_right _ hi
  have h2 : d.blocks_per_arena * d.block_size ≤ PGSIZE - ARENA_SIZE := by
    rw [h.per_arena]
    exact Nat.div_mul_le_self _ _
  rw [Nat.succ_mul] at h1
  unfold PGSIZE ARENA_SIZE at *
  omega

theorem pg_round_down_add {a off : Nat} (ha : a % PGSIZE = 0) (hoff : off < PGSIZE) :
    pg_round_down (a + off) = a := by
  unfold pg_round_down PGSIZE at *
  omega

theorem pg_ofs_add {a off : Nat} (ha : a % PGSIZE = 0) (hoff : off < PGSIZE) :
    pg_ofs (a + off) = off := by
  unfold pg_ofs PGSIZE at *
  omega

/-- `b` is the `i`th block of the arena at `a` of descriptor `d`. -/
def IsBlock (d : Desc) (a b : Nat) : Prop :=
  ∃ i < d.blocks_per_arena, b = a + ARENA_SIZE + i * d.block_size

theorem IsBlock.page {d : Desc} {a b : Nat} (hd : DescOk d) (ha : a % PGSIZE = 0)
    (hb : IsBlock d a b) : pg_round_down b = a := by
  obtain ⟨i, hi, rfl⟩ := hb
  have := hd.block_end hi
  have := hd.pos
  rw [Nat.add_assoc]
  exact pg_round_down_add ha (by unfold PGSIZE ARENA_SIZE at *; omega)

/-- The pages an arena takes: one for a descriptor's, `free_cnt` for a big block. -/
def Arena.npages (ar : Arena) : Nat :=
  match ar.desc with
  | some _ => 1
  | none => ar.free_cnt

/-- The `n` pages from `a` on are pages of the pool marked used. -/
def Used (p : Pool) (a n : Nat) : Prop :=
  ∃ idx, a = p.base + PGSIZE * idx ∧ ∀ j < n, p.used_map[idx + j]? = some true

/-- How many of the addresses `l` lie in the page at `a`. -/
def pageCount (l : List Nat) (a : Nat) : Nat :=
  l.countP fun b => pg_round_down b == a

/-- What the allocator keeps true between calls, for the blocks `live` it has
handed out: the arenas lie in used pages of the pool and apart from each other;
each block of a descriptor's arena is on the free list or live, and its
`free_cnt` counts the ones on the list and is below `blocks_per_arena`; a big
block's one block is live. -/
structure Inv (s : Heap) (live : List Nat) : Prop where
  base : s.pool.base % PGSIZE = 0 ∧ 0 < s.pool.base
  descs : ∀ k < s.desc_cnt, DescOk (s.descs k)
  used : ∀ a ar, s.arenas a = some ar → 0 < ar.npages ∧ Used s.pool a ar.npages
  apart : ∀ a a' ar ar', s.arenas a = some ar → s.arenas a' = some ar' → a < a' →
    a + PGSIZE * ar.npages ≤ a'
  small : ∀ a k c, s.arenas a = some ⟨some k, c⟩ → k < s.desc_cnt ∧
    c = pageCount (s.descs k).free_list a ∧
    c + pageCount live a = (s.descs k).blocks_per_arena ∧ c < (s.descs k).blocks_per_arena
  big : ∀ a n, s.arenas a = some ⟨none, n⟩ → a + ARENA_SIZE ∈ live
  free_nodup : ∀ k, (s.descs k).free_list.Nodup
  free_block : ∀ k b, b ∈ (s.descs k).free_list → k < s.desc_cnt ∧
    ∃ c, s.arenas (pg_round_down b) = some ⟨some k, c⟩ ∧ IsBlock (s.descs k) (pg_round_down b) b
  live_nodup : live.Nodup
  live_block : ∀ b ∈ live,
    (∃ k c, s.arenas (pg_round_down b) = some ⟨some k, c⟩ ∧
      IsBlock (s.descs k) (pg_round_down b) b ∧ b ∉ (s.descs k).free_list) ∨
    (∃ n, s.arenas (pg_round_down b) = some ⟨none, n⟩ ∧ pg_ofs b = ARENA_SIZE)

/-! ## What the functions do -/

section Eval

variable {s : Heap}

@[simp] theorem ASSERT_apply (c : Bool) (s : Heap) :
    ASSERT c s = if c then (.ok (), s) else (.error .panic, s) := by
  cases c <;> rfl

@[simp] theorem setArena_arenas (s : Heap) (a : Nat) (ar : Option Arena) :
    (s.setArena a ar).arenas = Function.update s.arenas a ar := rfl

@[simp] theorem setArena_descs (s : Heap) (a : Nat) (ar : Option Arena) :
    (s.setArena a ar).descs = s.descs := rfl

@[simp] theorem setArena_desc_cnt (s : Heap) (a : Nat) (ar : Option Arena) :
    (s.setArena a ar).desc_cnt = s.desc_cnt := rfl

@[simp] theorem setArena_pool (s : Heap) (a : Nat) (ar : Option Arena) :
    (s.setArena a ar).pool = s.pool := rfl

theorem setList_descs (s : Heap) (k : Nat) (l : List Nat) :
    (s.setList k l).descs = Function.update s.descs k { s.descs k with free_list := l } := rfl

@[simp] theorem setList_arenas (s : Heap) (k : Nat) (l : List Nat) :
    (s.setList k l).arenas = s.arenas := rfl

@[simp] theorem setList_desc_cnt (s : Heap) (k : Nat) (l : List Nat) :
    (s.setList k l).desc_cnt = s.desc_cnt := rfl

@[simp] theorem setList_pool (s : Heap) (k : Nat) (l : List Nat) :
    (s.setList k l).pool = s.pool := rfl

@[simp] theorem setUsed_pool (s : Heap) (m : List Bool) :
    (s.setUsed m).pool = { s.pool with used_map := m } := rfl

@[simp] theorem setUsed_arenas (s : Heap) (m : List Bool) : (s.setUsed m).arenas = s.arenas := rfl

@[simp] theorem setUsed_descs (s : Heap) (m : List Bool) : (s.setUsed m).descs = s.descs := rfl

@[simp] theorem setUsed_desc_cnt (s : Heap) (m : List Bool) :
    (s.setUsed m).desc_cnt = s.desc_cnt := rfl

@[simp] theorem setList_block_size (s : Heap) (k k' : Nat) (l : List Nat) :
    ((s.setList k l).descs k').block_size = (s.descs k').block_size := by
  by_cases h : k' = k
  · subst h
    simp [setList_descs]
  · simp [setList_descs, h]

@[simp] theorem setList_blocks_per_arena (s : Heap) (k k' : Nat) (l : List Nat) :
    ((s.setList k l).descs k').blocks_per_arena = (s.descs k').blocks_per_arena := by
  by_cases h : k' = k
  · subst h
    simp [setList_descs]
  · simp [setList_descs, h]

@[simp] theorem setList_free_list (s : Heap) (k k' : Nat) (l : List Nat) :
    ((s.setList k l).descs k').free_list = if k' = k then l else (s.descs k').free_list := by
  by_cases h : k' = k
  · subst h
    simp [setList_descs]
  · simp [setList_descs, h]

theorem DescOk.setList {s : Heap} {k k' : Nat} {l : List Nat} (h : DescOk (s.descs k')) :
    DescOk ((s.setList k l).descs k') :=
  ⟨by simpa using h.pos, by simpa using h.fits, by simpa using h.per_arena⟩

theorem IsBlock.setList {s : Heap} {k k' a b : Nat} {l : List Nat}
    (h : IsBlock (s.descs k') a b) : IsBlock ((s.setList k l).descs k') a b := by
  simpa [IsBlock] using h

theorem setList_setList (s : Heap) (k : Nat) (l l' : List Nat) :
    (s.setList k l).setList k l' = s.setList k l' := by
  simp only [Heap.setList, Function.update_self, Function.update_idem]

theorem setList_setArena (s : Heap) (k a : Nat) (l : List Nat) (ar : Option Arena) :
    (s.setArena a ar).setList k l = (s.setList k l).setArena a ar := rfl

theorem setArena_setArena (s : Heap) (a : Nat) (ar ar' : Option Arena) :
    (s.setArena a ar).setArena a ar' = s.setArena a ar' := by
  simp only [Heap.setArena, Function.update_idem]

/-- The alignment check of `block_to_arena` passes for the `i`th block. -/
theorem align_check {i bs : Nat} (hlt : ARENA_SIZE + i * bs < PGSIZE) (hbs : 0 < bs)
    (hbs' : bs ≤ PGSIZE) :
    ((UInt32.ofNat (ARENA_SIZE + i * bs) - UInt32.ofNat ARENA_SIZE) % UInt32.ofNat bs == 0) =
      true := by
  unfold ARENA_SIZE PGSIZE at *
  have hx : (UInt32.ofNat (12 + i * bs)).toNat = 12 + i * bs := UInt32.toNat_ofNat_of_lt' (by
    simp only [UInt32.size]; omega)
  have h12 : (UInt32.ofNat 12).toNat = 12 := rfl
  have hb : (UInt32.ofNat bs).toNat = bs := UInt32.toNat_ofNat_of_lt' (by
    simp only [UInt32.size]; omega)
  have hle : UInt32.ofNat 12 ≤ UInt32.ofNat (12 + i * bs) := by
    rw [UInt32.le_iff_toNat_le, hx, h12]
    omega
  rw [beq_iff_eq, ← UInt32.toNat_inj, UInt32.toNat_mod, UInt32.toNat_sub_of_le _ _ hle, hx, h12, hb]
  simp

theorem block_to_arena_small {a b k c : Nat} (ha : s.arenas a = some ⟨some k, c⟩)
    (hal : a % PGSIZE = 0) (hpos : 0 < a) (hd : DescOk (s.descs k))
    (hb : IsBlock (s.descs k) a b) :
    block_to_arena b s = (.ok (a, ⟨some k, c⟩), s) := by
  have hpage := hb.page hd hal
  obtain ⟨i, hi, rfl⟩ := hb
  have hend := hd.block_end hi
  have hofs : pg_ofs (a + ARENA_SIZE + i * (s.descs k).block_size) =
      ARENA_SIZE + i * (s.descs k).block_size := by
    rw [Nat.add_assoc]
    exact pg_ofs_add hal (by have := hd.pos; omega)
  have hne : (a != 0) = true := bne_iff_ne.mpr (Nat.pos_iff_ne_zero.mp hpos)
  have hchk := align_check (i := i) (by have := hd.pos; omega) hd.pos
    (by have := hd.fits; unfold PGSIZE ARENA_SIZE at *; omega)
  simp only [block_to_arena, bind_apply, get_apply, ASSERT_apply, hpage, hne, ha, hofs, hchk,
    if_true, pure_apply]

theorem block_to_arena_big {a n : Nat} (ha : s.arenas a = some ⟨none, n⟩)
    (hal : a % PGSIZE = 0) (hpos : 0 < a) :
    block_to_arena (a + ARENA_SIZE) s = (.ok (a, ⟨none, n⟩), s) := by
  have hpage : pg_round_down (a + ARENA_SIZE) = a := pg_round_down_add hal (by decide)
  have hofs : pg_ofs (a + ARENA_SIZE) = ARENA_SIZE := pg_ofs_add hal (by decide)
  have hne : (a != 0) = true := bne_iff_ne.mpr (Nat.pos_iff_ne_zero.mp hpos)
  simp [block_to_arena, bind_apply, hpage, hne, ha, hofs]

theorem arena_to_block_eq {a i k c : Nat} (ha : s.arenas a = some ⟨some k, c⟩) (hpos : 0 < a)
    (hi : i < (s.descs k).blocks_per_arena) :
    arena_to_block a i s = (.ok (a + ARENA_SIZE + i * (s.descs k).block_size), s) := by
  have hne : (a != 0) = true := bne_iff_ne.mpr (Nat.pos_iff_ne_zero.mp hpos)
  simp [arena_to_block, bind_apply, hne, ha, hi]

theorem pop_free_list_eq {k b : Nat} {rest : List Nat} (hl : (s.descs k).free_list = b :: rest) :
    pop_free_list k s = (.ok b, s.setList k rest) := by
  simp [pop_free_list, set_free_list, bind_apply, hl]

/-- The first `n` blocks of the arena at `a` of descriptor `d`. -/
def blocks (d : Desc) (a n : Nat) : List Nat :=
  (List.range n).map fun i => a + ARENA_SIZE + i * d.block_size

theorem push_blocks_eq {a k c : Nat} (ha : s.arenas a = some ⟨some k, c⟩) (hpos : 0 < a) :
    ∀ n ≤ (s.descs k).blocks_per_arena, push_blocks k a n s =
      (.ok (), s.setList k ((s.descs k).free_list ++ blocks (s.descs k) a n))
  | 0, _ => by simp [push_blocks, forRange_zero, blocks, Heap.setList]
  | n + 1, hn => by
    have ih := push_blocks_eq ha hpos n (by omega)
    unfold push_blocks at ih ⊢
    rw [forRange_succ, bind_apply, ih]
    dsimp only
    have ha' : (s.setList k ((s.descs k).free_list ++ blocks (s.descs k) a n)).arenas a =
      some ⟨some k, c⟩ := ha
    rw [bind_apply, arena_to_block_eq ha' hpos (by simp [Heap.setList]; omega)]
    simp [set_free_list, Heap.setList, blocks, List.range_succ, bind_apply]

theorem remove_blocks_eq {a k c : Nat} (ha : s.arenas a = some ⟨some k, c⟩) (hpos : 0 < a) :
    ∀ n ≤ (s.descs k).blocks_per_arena, remove_blocks k a n s =
      (.ok (), s.setList k ((blocks (s.descs k) a n).foldl List.erase (s.descs k).free_list))
  | 0, _ => by simp [remove_blocks, forRange_zero, blocks, Heap.setList]
  | n + 1, hn => by
    have ih := remove_blocks_eq ha hpos n (by omega)
    unfold remove_blocks at ih ⊢
    rw [forRange_succ, bind_apply, ih]
    dsimp only
    have ha' : (s.setList k ((blocks (s.descs k) a n).foldl List.erase (s.descs k).free_list)).arenas
      a = some ⟨some k, c⟩ := ha
    rw [bind_apply, arena_to_block_eq ha' hpos (by simp; omega)]
    simp [set_free_list, Heap.setList, blocks, List.range_succ, bind_apply]

/-- Erasing the elements of `xs` one by one from a list without repetitions keeps
the elements not in `xs`. -/
theorem foldl_erase_eq_filter {l : List Nat} (hl : l.Nodup) :
    ∀ xs : List Nat, xs.foldl List.erase l = l.filter fun b => b ∉ xs
  | [] => (List.filter_eq_self.mpr fun _ _ => by simp).symm
  | x :: xs => by
    rw [List.foldl_cons, foldl_erase_eq_filter (hl.erase x) xs, hl.erase_eq_filter x,
      List.filter_filter]
    refine List.filter_congr fun b _ => ?_
    by_cases hb : b = x
    · simp [hb]
    · simp [hb]

theorem palloc_get_multiple_some {n idx : Nat} (hn : n ≠ 0)
    (hscan : bitmap_scan s.pool.used_map 0 n false = some idx) :
    palloc_get_multiple n s = (.ok (some (s.pool.base + PGSIZE * idx)),
      s.setUsed (bitmap_set_multiple s.pool.used_map idx n true)) := by
  simp [palloc_get_multiple, hn, bind_apply, bitmap_scan_and_flip, hscan]

theorem palloc_get_multiple_none {n : Nat}
    (hscan : n = 0 ∨ bitmap_scan s.pool.used_map 0 n false = none) :
    palloc_get_multiple n s = (.ok none, s) := by
  rcases hscan with hn | hscan
  · simp [palloc_get_multiple, hn]
  · by_cases hn : n = 0
    · simp [palloc_get_multiple, hn]
    · simp [palloc_get_multiple, hn, bind_apply, bitmap_scan_and_flip, hscan]

theorem palloc_free_multiple_eq {pages n idx : Nat} (hbase : s.pool.base % PGSIZE = 0)
    (hn : 0 < n) (hpos : 0 < pages) (hpages : pages = s.pool.base + PGSIZE * idx)
    (hused : ∀ j < n, s.pool.used_map[idx + j]? = some true) :
    palloc_free_multiple pages n s = (.ok (),
      (({ s with mem := fill s.mem pages 0xcc (PGSIZE * n) }).setArena pages none).setUsed
        (bitmap_set_multiple s.pool.used_map idx n false)) := by
  have hlen : idx + n ≤ s.pool.used_map.length := by
    have := hused (n - 1) (by omega)
    have := (List.getElem?_eq_some_iff.mp this).1
    omega
  have hofs : (pg_ofs pages == 0) = true := by
    rw [beq_iff_eq, hpages]
    unfold pg_ofs PGSIZE at *
    omega
  have hin : (decide (s.pool.base ≤ pages) && decide (pages < s.pool.base + PGSIZE *
      s.pool.used_map.length)) = true := by
    rw [hpages]
    simp only [Bool.and_eq_true, decide_eq_true_eq]
    unfold PGSIZE at *
    constructor <;> omega
  have hidx : pages / PGSIZE - s.pool.base / PGSIZE = idx := by
    rw [hpages]
    unfold PGSIZE at *
    omega
  have hall : bitmap_all s.pool.used_map idx n = true := bitmap_all_iff.mpr hused
  simp [palloc_free_multiple, bind_apply, hofs, Nat.pos_iff_ne_zero.mp hpos,
    Nat.pos_iff_ne_zero.mp hn, hin, hidx, hall, memset, set_arena, Heap.setUsed, Heap.setArena]

theorem find_desc_spec (descs : Nat → Desc) (cnt size : Nat) :
    (find_desc descs cnt size < cnt ∧ size ≤ (descs (find_desc descs cnt size)).block_size) ∨
    (find_desc descs cnt size = cnt ∧ ∀ k < cnt, (descs k).block_size < size) := by
  unfold find_desc
  cases h : (List.range cnt).find? (fun k => decide (size ≤ (descs k).block_size)) with
  | none =>
    right
    refine ⟨rfl, fun k hk => ?_⟩
    have := List.find?_eq_none.mp h k (List.mem_range.mpr hk)
    simpa using this
  | some k =>
    left
    have hk := List.mem_range.mp (List.mem_of_find?_eq_some h)
    have hp := List.find?_some h
    simp only [decide_eq_true_eq] at hp
    exact ⟨hk, hp⟩

end Eval

theorem pageCount_cons (x : Nat) (l : List Nat) (a : Nat) :
    pageCount (x :: l) a = pageCount l a + if pg_round_down x = a then 1 else 0 := by
  simp [pageCount, List.countP_cons]

theorem pageCount_cons_of_ne {x a : Nat} (l : List Nat) (hx : pg_round_down x ≠ a) :
    pageCount (x :: l) a = pageCount l a := by
  simp [pageCount_cons, hx]

theorem pageCount_cons_self {x a : Nat} (l : List Nat) (hx : pg_round_down x = a) :
    pageCount (x :: l) a = pageCount l a + 1 := by
  simp [pageCount_cons, hx]

theorem pageCount_erase_self {l : List Nat} {x a : Nat} (hx : x ∈ l) (hpg : pg_round_down x = a) :
    pageCount (l.erase x) a + 1 = pageCount l a := by
  have hpos : 0 < pageCount l a := List.countP_pos_iff.mpr ⟨x, hx, by simp [hpg]⟩
  simp only [pageCount, List.countP_erase, hx, hpg, beq_self_eq_true, and_self, if_true] at hpos ⊢
  omega

theorem pageCount_erase_of_ne (l : List Nat) {x a : Nat} (hpg : pg_round_down x ≠ a) :
    pageCount (l.erase x) a = pageCount l a := by
  simp [pageCount, List.countP_erase, hpg]

/-- Dropping elements of other pages keeps the count of a page. -/
theorem pageCount_filter {l : List Nat} {q : Nat → Bool} {a : Nat}
    (hq : ∀ x ∈ l, q x = false → pg_round_down x ≠ a) :
    pageCount (l.filter q) a = pageCount l a := by
  simp only [pageCount, List.countP_filter]
  refine List.countP_congr fun x hx => ?_
  cases hqx : q x
  · simp [hq x hx hqx]
  · simp

theorem pageCount_eq_length {l : List Nat} {a : Nat} (hl : ∀ x ∈ l, pg_round_down x = a) :
    pageCount l a = l.length :=
  List.countP_eq_length.mpr fun x hx => by simp [hl x hx]

theorem pageCount_eq_zero {l : List Nat} {a : Nat} (hl : ∀ x ∈ l, pg_round_down x ≠ a) :
    pageCount l a = 0 :=
  List.countP_eq_zero.mpr fun x hx => by simp [hl x hx]

theorem mem_blocks {d : Desc} {a n x : Nat} :
    x ∈ blocks d a n ↔ ∃ i < n, x = a + ARENA_SIZE + i * d.block_size := by
  simp only [blocks, List.mem_map, List.mem_range]
  exact exists_congr fun i => and_congr_right fun _ => eq_comm

theorem blocks_nodup {d : Desc} {a n : Nat} (hbs : 0 < d.block_size) : (blocks d a n).Nodup :=
  List.Nodup.map (fun i j hij => Nat.eq_of_mul_eq_mul_right hbs (by omega)) List.nodup_range

/-- The blocks of a whole arena, as `malloc` puts them on the free list. -/
theorem IsBlock.of_mem_blocks {d : Desc} {a x : Nat} (hx : x ∈ blocks d a d.blocks_per_arena) :
    IsBlock d a x :=
  mem_blocks.mp hx

theorem blocks_eq_cons {d : Desc} {a n : Nat} (hn : 0 < n) :
    blocks d a n = (a + ARENA_SIZE) :: (blocks d a n).tail := by
  obtain ⟨m, rfl⟩ : ∃ m, n = m + 1 := ⟨n - 1, by omega⟩
  simp [blocks, List.range_succ_eq_map]

/-! ## Facts the invariant gives -/

section InvFacts

variable {s : Heap} {live : List Nat}

theorem Inv.arena_page (h : Inv s live) {a : Nat} {ar : Arena} (ha : s.arenas a = some ar) :
    a % PGSIZE = 0 ∧ 0 < a := by
  obtain ⟨-, idx, rfl, -⟩ := h.used a ar ha
  have := h.base
  unfold PGSIZE at *
  constructor <;> omega

/-- A run of pages whose bits are clear in the pool's map overlaps no arena. -/
theorem Inv.free_run (h : Inv s live) {idx n : Nat} (hn : 0 < n)
    (hfree : ∀ j < n, s.pool.used_map[idx + j]? = some false) {a : Nat} {ar : Arena}
    (ha : s.arenas a = some ar) :
    s.pool.base + PGSIZE * idx + PGSIZE * n ≤ a ∨ a + PGSIZE * ar.npages ≤ s.pool.base + PGSIZE * idx := by
  obtain ⟨hpos, idx', rfl, hused⟩ := h.used a ar ha
  by_cases hlt : idx + n ≤ idx'
  · left
    unfold PGSIZE
    omega
  · right
    by_cases hin : idx' + ar.npages ≤ idx
    · unfold PGSIZE
      omega
    · -- the page at the larger of the two indices would be both used and free
      have hu := hused (max idx idx' - idx') (by omega)
      have hf := hfree (max idx idx' - idx) (by omega)
      rw [show idx' + (max idx idx' - idx') = max idx idx' by omega] at hu
      rw [show idx + (max idx idx' - idx) = max idx idx' by omega, hu] at hf
      cases hf

/-- No arena starts at the first page of a free run. -/
theorem Inv.arena_none (h : Inv s live) {idx n : Nat} (hn : 0 < n)
    (hfree : ∀ j < n, s.pool.used_map[idx + j]? = some false) :
    s.arenas (s.pool.base + PGSIZE * idx) = none := by
  cases ha : s.arenas (s.pool.base + PGSIZE * idx) with
  | none => rfl
  | some ar =>
    have := (h.used _ _ ha).1
    rcases h.free_run hn hfree ha with hle | hle <;> unfold PGSIZE at hle <;> omega

/-- Two arenas are at the same page or their pages are apart. -/
theorem Inv.disjoint (h : Inv s live) {a a' : Nat} {ar ar' : Arena}
    (ha : s.arenas a = some ar) (ha' : s.arenas a' = some ar') (hne : a ≠ a') :
    a + PGSIZE * ar.npages ≤ a' ∨ a' + PGSIZE * ar'.npages ≤ a := by
  rcases Nat.lt_or_gt_of_ne hne with hlt | hlt
  · exact .inl (h.apart a a' ar ar' ha ha' hlt)
  · exact .inr (h.apart a' a ar' ar ha' ha hlt)

/-- An element of a free list is a block of an arena of its descriptor. -/
theorem Inv.free_arena (h : Inv s live) {k b : Nat} (hb : b ∈ (s.descs k).free_list) :
    ∃ c, s.arenas (pg_round_down b) = some ⟨some k, c⟩ :=
  ((h.free_block k b hb).2).imp fun _ hc => hc.1

/-- A live block is not on a free list. -/
theorem Inv.live_not_free (h : Inv s live) {k b : Nat} (hb : b ∈ live) :
    b ∉ (s.descs k).free_list := by
  intro hfree
  obtain ⟨c, hc, -⟩ := (h.free_block k b hfree).2
  rcases h.live_block b hb with ⟨k', c', hc', -, hnot⟩ | ⟨n, hn, -⟩
  · rw [hc] at hc'
    cases hc'
    exact hnot hfree
  · rw [hc] at hn
    cases hn

theorem Inv.free_page_ne (h : Inv s live) {a : Nat} (hnone : s.arenas a = none) {k x : Nat}
    (hx : x ∈ (s.descs k).free_list) : pg_round_down x ≠ a := by
  rintro rfl
  obtain ⟨c, hc⟩ := h.free_arena hx
  rw [hc] at hnone
  cases hnone

theorem Inv.live_page_ne (h : Inv s live) {a : Nat} (hnone : s.arenas a = none) {x : Nat}
    (hx : x ∈ live) : pg_round_down x ≠ a := by
  rintro rfl
  rcases h.live_block x hx with ⟨k, c, hc, -⟩ | ⟨n, hn, -⟩
  · rw [hc] at hnone
    cases hnone
  · rw [hn] at hnone
    cases hnone

/-- A live block whose arena header, descriptor layout and absence from the free
lists are kept stays a live block. -/
theorem Inv.live_block_frame (h : Inv s live) {s' : Heap} {x : Nat} (hx : x ∈ live)
    (harena : s'.arenas (pg_round_down x) = s.arenas (pg_round_down x))
    (hdesc : ∀ k, IsBlock (s.descs k) (pg_round_down x) x → IsBlock (s'.descs k) (pg_round_down x) x)
    (hfree : ∀ k, x ∉ (s'.descs k).free_list) :
    (∃ k c, s'.arenas (pg_round_down x) = some ⟨some k, c⟩ ∧
      IsBlock (s'.descs k) (pg_round_down x) x ∧ x ∉ (s'.descs k).free_list) ∨
    (∃ n, s'.arenas (pg_round_down x) = some ⟨none, n⟩ ∧ pg_ofs x = ARENA_SIZE) := by
  rw [harena]
  rcases h.live_block x hx with ⟨k, c, hc, hblock, -⟩ | hbig
  · exact .inl ⟨k, c, hc, hdesc k hblock, hfree k⟩
  · exact .inr hbig

theorem Used.set_true {p : Pool} {a n i c : Nat} (hu : Used p a n) :
    Used { p with used_map := bitmap_set_multiple p.used_map i c true } a n := by
  obtain ⟨idx, ha, hbits⟩ := hu
  refine ⟨idx, ha, fun j hj => ?_⟩
  rw [getElem?_bitmap_set_multiple, hbits j hj]
  simp

/-- A new arena on a run of `n` pages, marked used: all arenas still lie in used pages. -/
theorem Inv.add_used (h : Inv s live) {idx n : Nat} {r : Arena} (hn : r.npages = n) (hpos : 0 < n)
    (hlen : idx + n ≤ s.pool.used_map.length) :
    ∀ a₁ ar₁, Function.update s.arenas (s.pool.base + PGSIZE * idx) (some r) a₁ = some ar₁ →
      0 < ar₁.npages ∧
        Used { s.pool with used_map := bitmap_set_multiple s.pool.used_map idx n true } a₁ ar₁.npages := by
  intro a₁ ar₁ h₁
  by_cases ha₁ : a₁ = s.pool.base + PGSIZE * idx
  · subst ha₁
    rw [Function.update_self, Option.some_inj] at h₁
    subst h₁
    refine ⟨hn ▸ hpos, idx, rfl, fun j hj => ?_⟩
    exact getElem?_bitmap_set_multiple_of_mem (by omega) (by omega) (by omega)
  · rw [Function.update_of_ne ha₁] at h₁
    obtain ⟨hp, hu⟩ := h.used a₁ ar₁ h₁
    exact ⟨hp, hu.set_true⟩

/-- A new arena on a run of free pages lies apart from the others. -/
theorem Inv.add_apart (h : Inv s live) {idx n : Nat} {r : Arena} (hn : r.npages = n)
    (hpos : 0 < n) (hfree : ∀ j < n, s.pool.used_map[idx + j]? = some false) :
    ∀ a₁ a₂ ar₁ ar₂, Function.update s.arenas (s.pool.base + PGSIZE * idx) (some r) a₁ = some ar₁ →
      Function.update s.arenas (s.pool.base + PGSIZE * idx) (some r) a₂ = some ar₂ → a₁ < a₂ →
      a₁ + PGSIZE * ar₁.npages ≤ a₂ := by
  intro a₁ a₂ ar₁ ar₂ h₁ h₂ hlt
  by_cases ha₁ : a₁ = s.pool.base + PGSIZE * idx <;> by_cases ha₂ : a₂ = s.pool.base + PGSIZE * idx
  · omega
  · subst ha₁
    rw [Function.update_self, Option.some_inj] at h₁
    rw [Function.update_of_ne ha₂] at h₂
    subst h₁
    rw [hn]
    rcases h.free_run hpos hfree h₂ with hle | hle <;> omega
  · subst ha₂
    rw [Function.update_of_ne ha₁] at h₁
    rcases h.free_run hpos hfree h₁ with hle | hle <;> omega
  · rw [Function.update_of_ne ha₁] at h₁
    rw [Function.update_of_ne ha₂] at h₂
    exact h.apart _ _ _ _ h₁ h₂ hlt

/-- `malloc` of a size some descriptor serves, with blocks on its free list: the
front block is handed out and its arena's `free_cnt` goes down. -/
theorem malloc_pop (h : Inv s live) {size : UInt32} {k b : Nat} {rest : List Nat}
    (hsize : size ≠ 0) (hk : find_desc s.descs s.desc_cnt size.toNat = k) (hkc : k ≠ s.desc_cnt)
    (hl : (s.descs k).free_list = b :: rest) :
    ∃ c, s.arenas (pg_round_down b) = some ⟨some k, c⟩ ∧
      malloc size s = (.ok (some b),
        (s.setList k rest).setArena (pg_round_down b) (some ⟨some k, c - 1⟩)) := by
  have hb : b ∈ (s.descs k).free_list := hl ▸ List.mem_cons_self
  obtain ⟨hkd, c, hc, hblock⟩ := h.free_block k b hb
  obtain ⟨hal, hpos⟩ := h.arena_page hc
  have hc' : (s.setList k rest).arenas (pg_round_down b) = some ⟨some k, c⟩ := hc
  have hbta := block_to_arena_small hc' hal hpos (h.descs k hkd).setList hblock.setList
  refine ⟨c, hc, ?_⟩
  simp [malloc, bind_apply, hsize, hk, hkc, hl, pop_free_list_eq hl, hbta, set_arena]

/-- Changing the header of an arena without changing how many pages it takes keeps
the arenas in used pages and apart. -/
theorem Inv.update_used (h : Inv s live) {a : Nat} {ar ar' : Arena} (ha : s.arenas a = some ar)
    (hn : ar'.npages = ar.npages) :
    ∀ a₁ ar₁, Function.update s.arenas a (some ar') a₁ = some ar₁ →
      0 < ar₁.npages ∧ Used s.pool a₁ ar₁.npages := by
  intro a₁ ar₁ h₁
  by_cases ha₁ : a₁ = a
  · subst ha₁
    rw [Function.update_self, Option.some_inj] at h₁
    rw [← h₁, hn]
    exact h.used _ _ ha
  · rw [Function.update_of_ne ha₁] at h₁
    exact h.used _ _ h₁

theorem Inv.update_apart (h : Inv s live) {a : Nat} {ar ar' : Arena} (ha : s.arenas a = some ar)
    (hn : ar'.npages = ar.npages) :
    ∀ a₁ a₂ ar₁ ar₂, Function.update s.arenas a (some ar') a₁ = some ar₁ →
      Function.update s.arenas a (some ar') a₂ = some ar₂ → a₁ < a₂ →
      a₁ + PGSIZE * ar₁.npages ≤ a₂ := by
  intro a₁ a₂ ar₁ ar₂ h₁ h₂ hlt
  have h₁' : s.arenas a₁ = some (if a₁ = a then ar else ar₁) ∧ ar₁.npages =
      (if a₁ = a then ar else ar₁).npages := by
    by_cases ha₁ : a₁ = a
    · subst ha₁
      rw [Function.update_self, Option.some_inj] at h₁
      simp [ha, ← h₁, hn]
    · rw [Function.update_of_ne ha₁] at h₁
      simp [ha₁, h₁]
  have h₂' : s.arenas a₂ = some (if a₂ = a then ar else ar₂) := by
    by_cases ha₂ : a₂ = a
    · simp [ha₂, ha]
    · rw [Function.update_of_ne ha₂] at h₂
      simp [ha₂, h₂]
  rw [h₁'.2]
  exact h.apart _ _ _ _ h₁'.1 h₂' hlt

/-- Handing out the front block of a free list keeps the invariant. -/
theorem inv_malloc_pop (h : Inv s live) {k b c : Nat} {rest : List Nat}
    (hl : (s.descs k).free_list = b :: rest) (hc : s.arenas (pg_round_down b) = some ⟨some k, c⟩) :
    Inv ((s.setList k rest).setArena (pg_round_down b) (some ⟨some k, c - 1⟩)) (b :: live) where
  base := h.base
  descs k' hk' := (h.descs k' hk').setList
  used := h.update_used hc rfl
  apart := h.update_apart hc rfl
  small a' k' c' hs := by
    have hb : b ∈ (s.descs k).free_list := hl ▸ List.mem_cons_self
    by_cases ha' : a' = pg_round_down b
    · subst ha'
      simp only [setArena_arenas, Function.update_self, Option.some_inj, Arena.mk.injEq,
        Option.some_inj] at hs
      obtain ⟨rfl, rfl⟩ := hs
      obtain ⟨hk, hcount, hsum, hlt⟩ := h.small _ _ _ hc
      rw [hl, pageCount_cons_self rest rfl] at hcount
      simp only [setArena_descs, setArena_desc_cnt, setList_desc_cnt, setList_blocks_per_arena,
        setList_free_list, if_true, pageCount_cons_self live rfl]
      refine ⟨hk, by omega, by omega, by omega⟩
    · rw [setArena_arenas, Function.update_of_ne ha'] at hs
      obtain ⟨hk, hcount, hsum, hlt⟩ := h.small _ _ _ hs
      have hne : pg_round_down b ≠ a' := Ne.symm ha'
      refine ⟨hk, ?_, ?_, by simpa using hlt⟩
      · by_cases hkk : k' = k
        · subst hkk
          simp [hcount, hl, pageCount_cons_of_ne rest hne]
        · simp [hcount, hkk]
      · rw [pageCount_cons_of_ne live hne]
        simpa using hsum
  big a' n hs := by
    have ha' : a' ≠ pg_round_down b := by
      rintro rfl
      rw [setArena_arenas, Function.update_self] at hs
      cases hs
    rw [setArena_arenas, Function.update_of_ne ha'] at hs
    exact List.mem_cons_of_mem b (h.big a' n hs)
  free_nodup k' := by
    by_cases hkk : k' = k
    · subst hkk
      have := h.free_nodup k'
      rw [hl] at this
      simpa using (List.nodup_cons.mp this).2
    · simpa [hkk] using h.free_nodup k'
  free_block k' x hx := by
    have hx' : x ∈ (s.descs k').free_list := by
      by_cases hkk : k' = k
      · subst hkk
        simp only [setArena_descs, setList_free_list, if_true] at hx
        rw [hl]
        exact List.mem_cons_of_mem b hx
      · simpa [hkk] using hx
    obtain ⟨hk, c', hc', hblock⟩ := h.free_block k' x hx'
    refine ⟨hk, ?_⟩
    by_cases hpx : pg_round_down x = pg_round_down b
    · rw [hpx] at hc'
      rw [hc] at hc'
      cases hc'
      refine ⟨c - 1, by simp [hpx], hblock.setList⟩
    · exact ⟨c', by simp [hpx, hc'], hblock.setList⟩
  live_nodup := List.nodup_cons.mpr ⟨fun hb => h.live_not_free hb (hl ▸ List.mem_cons_self),
    h.live_nodup⟩
  live_block x hx := by
    rcases List.mem_cons.mp hx with rfl | hx
    · obtain ⟨-, -, -, hblock⟩ := h.free_block k x (hl ▸ List.mem_cons_self)
      have hnd := h.free_nodup k
      rw [hl] at hnd
      exact .inl ⟨k, c - 1, by simp, hblock.setList, by simpa using (List.nodup_cons.mp hnd).1⟩
    · have hnot : ∀ k', x ∉ ((s.setList k rest).descs k').free_list := by
        intro k' hx'
        by_cases hkk : k' = k
        · subst hkk
          simp only [setList_free_list, if_true] at hx'
          exact h.live_not_free hx (hl ▸ List.mem_cons_of_mem b hx')
        · exact h.live_not_free hx (k := k') (by simpa [hkk] using hx')
      rcases h.live_block x hx with ⟨k', c', hc', hblock, -⟩ | ⟨n, hn, hofs⟩
      · by_cases hpx : pg_round_down x = pg_round_down b
        · rw [hpx, hc] at hc'
          cases hc'
          exact .inl ⟨k, c - 1, by simp [hpx], hblock.setList, hnot k⟩
        · exact .inl ⟨k', c', by simp [hpx, hc'], hblock.setList, hnot k'⟩
      · have hpx : pg_round_down x ≠ pg_round_down b := by
          intro e
          rw [e, hc] at hn
          cases hn
        exact .inr ⟨n, by simp [hpx, hn], hofs⟩

/-- `malloc` of a size some descriptor serves, with its free list empty and a free
page in the pool: the page becomes an arena, whose first block is handed out and
whose other blocks go on the free list. -/
theorem malloc_fresh (h : Inv s live) {size : UInt32} {k idx : Nat}
    (hsize : size ≠ 0) (hk : find_desc s.descs s.desc_cnt size.toNat = k) (hkc : k < s.desc_cnt)
    (hl : (s.descs k).free_list = [])
    (hscan : bitmap_scan s.pool.used_map 0 1 false = some idx) :
    malloc size s = (.ok (some (s.pool.base + PGSIZE * idx + ARENA_SIZE)),
      ((s.setUsed (bitmap_set_multiple s.pool.used_map idx 1 true)).setList k
        (blocks (s.descs k) (s.pool.base + PGSIZE * idx) (s.descs k).blocks_per_arena).tail).setArena
        (s.pool.base + PGSIZE * idx) (some ⟨some k, (s.descs k).blocks_per_arena - 1⟩)) := by
  have hd : DescOk (s.descs k) := h.descs k hkc
  have hbpa := hd.blocks_pos
  obtain ⟨hal, hpos⟩ : (s.pool.base + PGSIZE * idx) % PGSIZE = 0 ∧ 0 < s.pool.base + PGSIZE * idx := by
    have := h.base; unfold PGSIZE at *; omega
  have hps := palloc_get_multiple_some (s := s) (by decide) hscan
  generalize s.pool.base + PGSIZE * idx = a at hal hpos hps ⊢
  simp only [malloc, bind_apply, hsize, if_false, get_apply, hk, Nat.ne_of_lt hkc, hl,
    if_true, hps, set_arena, modify_apply]
  -- the new arena's blocks go on the empty list, and the first comes off again
  set s₁ := (s.setUsed (bitmap_set_multiple s.pool.used_map idx 1 true)).setArena a
    (some ⟨some k, (s.descs k).blocks_per_arena⟩)
  have ha₁ : s₁.arenas a = some ⟨some k, (s.descs k).blocks_per_arena⟩ := by simp [s₁]
  rw [push_blocks_eq ha₁ hpos _ (by simp [s₁])]
  have hl₂ : ((s₁.setList k ((s₁.descs k).free_list ++
      blocks (s₁.descs k) a (s.descs k).blocks_per_arena)).descs k).free_list =
      (a + ARENA_SIZE) :: (blocks (s.descs k) a (s.descs k).blocks_per_arena).tail := by
    simpa [s₁, hl] using blocks_eq_cons hbpa
  simp only [pure_apply, if_true, bind_apply, pop_free_list_eq hl₂]
  rw [block_to_arena_small (c := (s.descs k).blocks_per_arena) (by simp [s₁]) hal hpos
    (DescOk.setList (DescOk.setList (s := s₁) hd)) ⟨0, by simpa [s₁] using hbpa, by simp⟩]
  simp only [s₁, setList_setArena, setList_setList, modify_apply, setArena_setArena]

/-- Making a new arena for descriptor `k` on a free page, handing out its first
block and putting the others on the empty free list keeps the invariant. -/
theorem inv_malloc_fresh (h : Inv s live) {k idx : Nat} (hkc : k < s.desc_cnt)
    (hl : (s.descs k).free_list = []) (hscan : bitmap_scan s.pool.used_map 0 1 false = some idx) :
    Inv (((s.setUsed (bitmap_set_multiple s.pool.used_map idx 1 true)).setList k
        (blocks (s.descs k) (s.pool.base + PGSIZE * idx) (s.descs k).blocks_per_arena).tail).setArena
        (s.pool.base + PGSIZE * idx) (some ⟨some k, (s.descs k).blocks_per_arena - 1⟩))
      ((s.pool.base + PGSIZE * idx + ARENA_SIZE) :: live) := by
  obtain ⟨-, hlen, hfree⟩ := bitmap_scan_run hscan
  have hnone := h.arena_none Nat.one_pos hfree
  have hd := h.descs k hkc
  obtain ⟨hal, hpos⟩ : (s.pool.base + PGSIZE * idx) % PGSIZE = 0 ∧
      0 < s.pool.base + PGSIZE * idx := by
    have := h.base; unfold PGSIZE at *; omega
  have hused := h.add_used (r := ⟨some k, (s.descs k).blocks_per_arena - 1⟩) rfl Nat.one_pos hlen
  have hapart := h.add_apart (r := ⟨some k, (s.descs k).blocks_per_arena - 1⟩) rfl Nat.one_pos hfree
  generalize s.pool.base + PGSIZE * idx = a at hnone hal hpos hused hapart ⊢
  -- the new arena's blocks lie in its page, and no old block does
  have hnd := blocks_nodup (a := a) (n := (s.descs k).blocks_per_arena) hd.pos
  rw [blocks_eq_cons hd.blocks_pos] at hnd
  have hpage : pg_round_down (a + ARENA_SIZE) = a := pg_round_down_add hal (by decide)
  have htail : ∀ x ∈ (blocks (s.descs k) a (s.descs k).blocks_per_arena).tail,
      IsBlock (s.descs k) a x ∧ pg_round_down x = a := fun x hx =>
    have hb := IsBlock.of_mem_blocks (List.mem_of_mem_tail hx)
    ⟨hb, hb.page hd hal⟩
  have hlive : ∀ x ∈ live, pg_round_down x ≠ a := fun x hx => h.live_page_ne hnone hx
  have hfree' : ∀ k' x, x ∈ (s.descs k').free_list → pg_round_down x ≠ a :=
    fun _ _ hx => h.free_page_ne hnone hx
  exact {
    base := by simpa using h.base
    descs := fun k' hk' => DescOk.setList (s := s.setUsed _) (h.descs k' hk')
    used := hused
    apart := hapart
    small := fun a₁ k₁ c₁ h₁ => by
      by_cases ha₁ : a₁ = a
      · subst ha₁
        simp only [setArena_arenas, Function.update_self, Option.some_inj, Arena.mk.injEq] at h₁
        obtain ⟨rfl, rfl⟩ := h₁
        have hcount : pageCount (blocks (s.descs k) a₁ (s.descs k).blocks_per_arena).tail a₁ =
            (s.descs k).blocks_per_arena - 1 := by
          rw [pageCount_eq_length fun x hx => (htail x hx).2]
          simp [blocks]
        simp only [setArena_descs, setArena_desc_cnt, setList_desc_cnt, setUsed_desc_cnt,
          setList_blocks_per_arena, setUsed_descs, setList_free_list, if_true, hcount,
          pageCount_cons_self live hpage, pageCount_eq_zero hlive]
        have := hd.blocks_pos
        exact ⟨hkc, trivial, by omega, by omega⟩
      · simp only [setArena_arenas, Function.update_of_ne ha₁, setList_arenas,
          setUsed_arenas] at h₁
        obtain ⟨hk, hcount, hsum, hlt⟩ := h.small _ _ _ h₁
        refine ⟨hk, ?_, ?_, by simpa using hlt⟩
        · by_cases hkk : k₁ = k
          · subst hkk
            have hz : pageCount (blocks (s.descs k₁) a (s.descs k₁).blocks_per_arena).tail a₁ = 0 :=
              pageCount_eq_zero fun x hx => (htail x hx).2 ▸ Ne.symm ha₁
            rw [hl] at hcount
            simp only [setArena_descs, setList_free_list, setUsed_descs, if_true, hz, hcount]
            rfl
          · simp [hcount, hkk]
        · rw [pageCount_cons_of_ne live (by rw [hpage]; exact Ne.symm ha₁)]
          simpa using hsum
    big := fun a₁ n h₁ => by
      have ha₁ : a₁ ≠ a := by
        rintro rfl
        simp at h₁
      simp only [setArena_arenas, Function.update_of_ne ha₁, setList_arenas, setUsed_arenas] at h₁
      exact List.mem_cons_of_mem _ (h.big a₁ n h₁)
    free_nodup := fun k' => by
      by_cases hkk : k' = k
      · subst hkk
        simpa using (List.nodup_cons.mp hnd).2
      · simpa [hkk] using h.free_nodup k'
    free_block := fun k' x hx => by
      by_cases hkk : k' = k
      · subst hkk
        simp only [setArena_descs, setList_free_list, setUsed_descs, if_true] at hx
        obtain ⟨hblock, hx⟩ := htail x hx
        refine ⟨by simpa using hkc, (s.descs k').blocks_per_arena - 1, by simp [hx], ?_⟩
        rw [hx]
        exact IsBlock.setList (s := s.setUsed _) hblock
      · simp only [setArena_descs, setList_free_list, setUsed_descs, hkk, if_false] at hx
        obtain ⟨hk, c, hc, hblock⟩ := h.free_block k' x hx
        exact ⟨by simpa using hk, c, by simp [hfree' k' x hx, hc],
          IsBlock.setList (s := s.setUsed _) hblock⟩
    live_nodup := List.nodup_cons.mpr ⟨fun hx => hlive _ hx hpage, h.live_nodup⟩
    live_block := fun x hx => by
      rcases List.mem_cons.mp hx with rfl | hx
      · refine .inl ⟨k, (s.descs k).blocks_per_arena - 1, by simp [hpage], ?_,
          by simpa using (List.nodup_cons.mp hnd).1⟩
        rw [hpage]
        exact IsBlock.setList (s := s.setUsed _) ⟨0, hd.blocks_pos, by simp⟩
      · refine h.live_block_frame hx (by simp [hlive x hx]) (fun k' hb => IsBlock.setList hb)
          fun k' hx' => ?_
        by_cases hkk : k' = k
        · subst hkk
          simp only [setArena_descs, setList_free_list, setUsed_descs, if_true] at hx'
          exact hlive x hx (htail x hx').2
        · simp only [setArena_descs, setList_free_list, setUsed_descs, hkk, if_false] at hx'
          exact h.live_not_free hx hx' }

/-- `malloc` of a size no descriptor serves, with a run of `n` free pages in the
pool, `n` the page count `malloc` computes: the run becomes a big block. -/
theorem malloc_big {size : UInt32} {n idx : Nat} (hsize : size ≠ 0)
    (hk : find_desc s.descs s.desc_cnt size.toNat = s.desc_cnt)
    (hn : ((size + UInt32.ofNat ARENA_SIZE + UInt32.ofNat PGSIZE - 1) / UInt32.ofNat PGSIZE).toNat = n)
    (hn0 : n ≠ 0) (hscan : bitmap_scan s.pool.used_map 0 n false = some idx) :
    malloc size s = (.ok (some (s.pool.base + PGSIZE * idx + ARENA_SIZE)),
      (s.setUsed (bitmap_set_multiple s.pool.used_map idx n true)).setArena
        (s.pool.base + PGSIZE * idx) (some ⟨none, n⟩)) := by
  simp only [malloc, bind_apply, hsize, if_false, get_apply, hk, if_true, hn,
    palloc_get_multiple_some hn0 hscan, set_arena, modify_apply, pure_apply]

/-- Making a big block on a run of free pages keeps the invariant. -/
theorem inv_malloc_big (h : Inv s live) {n idx : Nat} (hn0 : n ≠ 0)
    (hscan : bitmap_scan s.pool.used_map 0 n false = some idx) :
    Inv ((s.setUsed (bitmap_set_multiple s.pool.used_map idx n true)).setArena
        (s.pool.base + PGSIZE * idx) (some ⟨none, n⟩))
      ((s.pool.base + PGSIZE * idx + ARENA_SIZE) :: live) := by
  obtain ⟨-, hlen, hfree⟩ := bitmap_scan_run hscan
  have hpos' : 0 < n := Nat.pos_of_ne_zero hn0
  have hnone := h.arena_none hpos' hfree
  obtain ⟨hal, hpos⟩ : (s.pool.base + PGSIZE * idx) % PGSIZE = 0 ∧
      0 < s.pool.base + PGSIZE * idx := by
    have := h.base; unfold PGSIZE at *; omega
  have hused := h.add_used (r := ⟨none, n⟩) rfl hpos' hlen
  have hapart := h.add_apart (r := ⟨none, n⟩) rfl hpos' hfree
  generalize s.pool.base + PGSIZE * idx = a at hnone hal hpos hused hapart ⊢
  have hpage : pg_round_down (a + ARENA_SIZE) = a := pg_round_down_add hal (by decide)
  have hlive : ∀ x ∈ live, pg_round_down x ≠ a := fun x hx => h.live_page_ne hnone hx
  exact {
    base := by simpa using h.base
    descs := h.descs
    used := hused
    apart := hapart
    small := fun a₁ k₁ c₁ h₁ => by
      have ha₁ : a₁ ≠ a := by
        rintro rfl
        simp at h₁
      simp only [setArena_arenas, Function.update_of_ne ha₁, setUsed_arenas] at h₁
      rw [pageCount_cons_of_ne live (by rw [hpage]; exact Ne.symm ha₁)]
      exact h.small a₁ k₁ c₁ h₁
    big := fun a₁ n₁ h₁ => by
      by_cases ha₁ : a₁ = a
      · subst ha₁
        exact List.mem_cons_self
      · simp only [setArena_arenas, Function.update_of_ne ha₁, setUsed_arenas] at h₁
        exact List.mem_cons_of_mem _ (h.big a₁ n₁ h₁)
    free_nodup := h.free_nodup
    free_block := fun k x hx => by
      obtain ⟨hk, c, hc, hblock⟩ := h.free_block k x hx
      exact ⟨hk, c, by simp [h.free_page_ne hnone hx, hc], hblock⟩
    live_nodup := List.nodup_cons.mpr ⟨fun hx => hlive _ hx hpage, h.live_nodup⟩
    live_block := fun x hx => by
      rcases List.mem_cons.mp hx with rfl | hx
      · exact .inr ⟨n, by simp [hpage], pg_ofs_add hal (by decide)⟩
      · exact h.live_block_frame hx (by simp [hlive x hx]) (fun _ hb => hb)
          fun _ => h.live_not_free hx }

/-- What `malloc` can do from a state of the invariant: return null and change
nothing, pop the front block of the free list of a descriptor that serves the size,
make a new arena for such a descriptor, or make a big block when no descriptor
serves the size. -/
theorem malloc_cases (h : Inv s live) (size : UInt32) :
    malloc size s = (.ok none, s) ∨
    (∃ k b rest c, size.toNat ≤ (s.descs k).block_size ∧ (s.descs k).free_list = b :: rest ∧
      s.arenas (pg_round_down b) = some ⟨some k, c⟩ ∧
      malloc size s = (.ok (some b),
        (s.setList k rest).setArena (pg_round_down b) (some ⟨some k, c - 1⟩))) ∨
    (∃ k idx, k < s.desc_cnt ∧ size.toNat ≤ (s.descs k).block_size ∧
      (s.descs k).free_list = [] ∧ bitmap_scan s.pool.used_map 0 1 false = some idx ∧
      malloc size s = (.ok (some (s.pool.base + PGSIZE * idx + ARENA_SIZE)),
        ((s.setUsed (bitmap_set_multiple s.pool.used_map idx 1 true)).setList k
          (blocks (s.descs k) (s.pool.base + PGSIZE * idx) (s.descs k).blocks_per_arena).tail).setArena
          (s.pool.base + PGSIZE * idx) (some ⟨some k, (s.descs k).blocks_per_arena - 1⟩))) ∨
    (∃ n idx, ((size + UInt32.ofNat ARENA_SIZE + UInt32.ofNat PGSIZE - 1) /
        UInt32.ofNat PGSIZE).toNat = n ∧ n ≠ 0 ∧
      bitmap_scan s.pool.used_map 0 n false = some idx ∧
      malloc size s = (.ok (some (s.pool.base + PGSIZE * idx + ARENA_SIZE)),
        (s.setUsed (bitmap_set_multiple s.pool.used_map idx n true)).setArena
          (s.pool.base + PGSIZE * idx) (some ⟨none, n⟩))) := by
  by_cases hsize : size = 0
  · exact .inl (by simp [malloc, hsize, pure_apply])
  rcases find_desc_spec s.descs s.desc_cnt size.toNat with ⟨hkc, hfits⟩ | ⟨hk, -⟩
  · -- a descriptor serves the size: pop its free list, after making an arena if it is empty
    cases hl : (s.descs (find_desc s.descs s.desc_cnt size.toNat)).free_list with
    | cons b rest =>
      obtain ⟨c, hc, hm⟩ := malloc_pop h hsize rfl (Nat.ne_of_lt hkc) hl
      exact .inr (.inl ⟨_, b, rest, c, hfits, hl, hc, hm⟩)
    | nil =>
      cases hscan : bitmap_scan s.pool.used_map 0 1 false with
      | some idx =>
        exact .inr (.inr (.inl ⟨_, idx, hkc, hfits, hl, rfl, malloc_fresh h hsize rfl hkc hl hscan⟩))
      | none =>
        refine .inl ?_
        simp [malloc, bind_apply, hsize, Nat.ne_of_lt hkc, hl,
          palloc_get_multiple_none (.inr hscan), pure_apply]
  · -- a big block
    generalize hn : ((size + UInt32.ofNat ARENA_SIZE + UInt32.ofNat PGSIZE - 1) /
      UInt32.ofNat PGSIZE).toNat = n
    by_cases hn0 : n = 0
    · refine .inl ?_
      simp only [malloc, bind_apply, hsize, if_false, get_apply, hk, if_true, hn,
        palloc_get_multiple_none (.inl hn0), pure_apply]
    cases hscan : bitmap_scan s.pool.used_map 0 n false with
    | some idx => exact .inr (.inr (.inr ⟨n, idx, rfl, hn0, hscan, malloc_big hsize hk hn hn0 hscan⟩))
    | none =>
      refine .inl ?_
      simp only [malloc, bind_apply, hsize, if_false, get_apply, hk, if_true, hn,
        palloc_get_multiple_none (.inr hscan), pure_apply]

/-- `malloc` stops on no path from a state of the invariant, and keeps it, with the
block it returns live. -/
theorem malloc_inv (h : Inv s live) (size : UInt32) :
    ∃ r s', malloc size s = (.ok r, s') ∧ Inv s' (r.toList ++ live) := by
  rcases malloc_cases h size with hm | ⟨k, b, rest, c, -, hl, hc, hm⟩ |
      ⟨k, idx, hkc, -, hl, hscan, hm⟩ | ⟨n, idx, -, hn0, hscan, hm⟩
  · exact ⟨none, s, hm, h⟩
  · exact ⟨some b, _, hm, inv_malloc_pop h hl hc⟩
  · exact ⟨_, _, hm, inv_malloc_fresh h hkc hl hscan⟩
  · exact ⟨_, _, hm, inv_malloc_big h hn0 hscan⟩

/-- Without a wrap, `malloc`'s page count is `DIV_ROUND_UP (size + sizeof *a, PGSIZE)`. -/
theorem page_cnt_toNat {size : UInt32} (hwrap : size.toNat + ARENA_SIZE + PGSIZE - 1 < 2 ^ 32) :
    ((size + UInt32.ofNat ARENA_SIZE + UInt32.ofNat PGSIZE - 1) / UInt32.ofNat PGSIZE).toNat =
      (size.toNat + ARENA_SIZE + PGSIZE - 1) / PGSIZE := by
  unfold ARENA_SIZE PGSIZE at *
  have h12 : (UInt32.ofNat 12).toNat = 12 := rfl
  have h4096 : (UInt32.ofNat 4096).toNat = 4096 := rfl
  have h1 : (1 : UInt32).toNat = 1 := rfl
  simp only [UInt32.toNat_div, UInt32.toNat_add, UInt32.toNat_sub, h12, h4096, h1]
  omega

/-- The invariant does not read the bytes of memory. -/
theorem Inv.mem (h : Inv s live) (m : Nat → UInt8) : Inv { s with mem := m } live :=
  ⟨h.base, h.descs, h.used, h.apart, h.small, h.big, h.free_nodup, h.free_block, h.live_nodup,
    h.live_block⟩

theorem pg_round_down_add_pg_ofs (x : Nat) : pg_round_down x + pg_ofs x = x := by
  unfold pg_round_down pg_ofs
  rw [Nat.add_comm]
  exact Nat.mod_add_div' x PGSIZE

/-- A free-list element still has an arena of its descriptor after the count of one
arena changes. -/
theorem Inv.free_arena_recount (h : Inv s live) {a k c d : Nat}
    (ha : s.arenas a = some ⟨some k, c⟩) {k' x : Nat} (hx : x ∈ (s.descs k').free_list) :
    ∃ c'', Function.update s.arenas a (some ⟨some k, d⟩) (pg_round_down x) = some ⟨some k', c''⟩ := by
  obtain ⟨c₀, hc₀⟩ := h.free_arena hx
  by_cases hpx : pg_round_down x = a
  · rw [hpx, ha] at hc₀
    cases hc₀
    exact ⟨d, by simp [hpx]⟩
  · exact ⟨c₀, by simp [hpx, hc₀]⟩

/-- A live block stays a live block after the count of one arena changes, when the
descriptors' layout is kept and the block is on no free list. -/
theorem Inv.live_block_recount (h : Inv s live) {a k c d : Nat}
    (ha : s.arenas a = some ⟨some k, c⟩) {s' : Heap}
    (harenas : s'.arenas = Function.update s.arenas a (some ⟨some k, d⟩))
    (hdesc : ∀ k b, IsBlock (s.descs k) (pg_round_down b) b → IsBlock (s'.descs k) (pg_round_down b) b)
    {x : Nat} (hx : x ∈ live) (hfree : ∀ k, x ∉ (s'.descs k).free_list) :
    (∃ k c, s'.arenas (pg_round_down x) = some ⟨some k, c⟩ ∧
      IsBlock (s'.descs k) (pg_round_down x) x ∧ x ∉ (s'.descs k).free_list) ∨
    (∃ n, s'.arenas (pg_round_down x) = some ⟨none, n⟩ ∧ pg_ofs x = ARENA_SIZE) := by
  by_cases hpx : pg_round_down x = a
  · rcases h.live_block x hx with ⟨k₁, c₁, hc₁, hblock, -⟩ | ⟨n, hn, -⟩
    · rw [hpx, ha] at hc₁
      cases hc₁
      exact .inl ⟨k, d, by simp [harenas, hpx], hdesc k x hblock, hfree k⟩
    · rw [hpx, ha] at hn
      cases hn
  · exact h.live_block_frame hx (by simp [harenas, hpx]) (hdesc · x) hfree

/-- Taking away the arena at the run of `n` pages from `idx` and clearing their bits
leaves the other arenas in used pages. -/
theorem Inv.remove_used (h : Inv s live) {idx n : Nat} {ar : Arena}
    (ha : s.arenas (s.pool.base + PGSIZE * idx) = some ar) (hn : ar.npages = n) :
    ∀ a₁ ar₁, Function.update s.arenas (s.pool.base + PGSIZE * idx) none a₁ = some ar₁ →
      0 < ar₁.npages ∧
        Used { s.pool with used_map := bitmap_set_multiple s.pool.used_map idx n false } a₁ ar₁.npages := by
  intro a₁ ar₁ h₁
  have ha₁ : a₁ ≠ s.pool.base + PGSIZE * idx := by
    rintro rfl
    simp at h₁
  rw [Function.update_of_ne ha₁] at h₁
  obtain ⟨hp, idx₁, rfl, hbits⟩ := h.used a₁ ar₁ h₁
  refine ⟨hp, idx₁, rfl, fun j hj => ?_⟩
  -- the cleared run lies outside the arena's pages, the two arenas being apart
  have hout : ¬ (idx ≤ idx₁ + j ∧ idx₁ + j < idx + n) := by
    have hpos := (h.used _ _ ha).1
    rcases h.disjoint h₁ ha ha₁ with hle | hle <;> unfold PGSIZE at hle <;> omega
  rw [getElem?_bitmap_set_multiple_of_not_mem hout, hbits j hj]

theorem Inv.remove_apart (h : Inv s live) (a : Nat) :
    ∀ a₁ a₂ ar₁ ar₂, Function.update s.arenas a none a₁ = some ar₁ →
      Function.update s.arenas a none a₂ = some ar₂ → a₁ < a₂ →
      a₁ + PGSIZE * ar₁.npages ≤ a₂ := by
  intro a₁ a₂ ar₁ ar₂ h₁ h₂ hlt
  have ha₁ : a₁ ≠ a := by rintro rfl; simp at h₁
  have ha₂ : a₂ ≠ a := by rintro rfl; simp at h₂
  rw [Function.update_of_ne ha₁] at h₁
  rw [Function.update_of_ne ha₂] at h₂
  exact h.apart _ _ _ _ h₁ h₂ hlt

/-- `free` of a block of a descriptor's arena that keeps another block in use:
the block is filled with `0xcc` and pushed on the free list. -/
theorem free_keep {b k c : Nat} (ha : s.arenas (pg_round_down b) = some ⟨some k, c⟩)
    (hal : pg_round_down b % PGSIZE = 0) (hpos : 0 < pg_round_down b) (hd : DescOk (s.descs k))
    (hb : IsBlock (s.descs k) (pg_round_down b) b) (hkeep : c + 1 < (s.descs k).blocks_per_arena) :
    free (some b) s = (.ok (),
      ({ s with mem := fill s.mem b 0xcc (s.descs k).block_size }.setList k
        (b :: (s.descs k).free_list)).setArena (pg_round_down b) (some ⟨some k, c + 1⟩)) := by
  generalize pg_round_down b = a at ha hal hpos hb
  simp only [free, bind_apply, block_to_arena_small ha hal hpos hd hb, get_apply, memset,
    modify_apply, set_free_list, set_arena, if_neg (Nat.not_le.mpr hkeep), pure_apply]

/-- `free` of the last block in use of a descriptor's arena: the block goes on the
free list, then all the arena's blocks come off it and the page goes back to the
pool. -/
theorem free_release {b k c idx : Nat} (ha : s.arenas (pg_round_down b) = some ⟨some k, c⟩)
    (hbase : s.pool.base % PGSIZE = 0) (hpos : 0 < pg_round_down b)
    (hidx : pg_round_down b = s.pool.base + PGSIZE * idx)
    (hused : s.pool.used_map[idx]? = some true) (hd : DescOk (s.descs k))
    (hb : IsBlock (s.descs k) (pg_round_down b) b) (hlast : c + 1 = (s.descs k).blocks_per_arena) :
    free (some b) s = (.ok (),
      (({ s with
          mem := fill (fill s.mem b 0xcc (s.descs k).block_size) (pg_round_down b) 0xcc PGSIZE }.setList k
        ((blocks (s.descs k) (pg_round_down b) (s.descs k).blocks_per_arena).foldl List.erase
          (b :: (s.descs k).free_list))).setArena (pg_round_down b) none).setUsed
        (bitmap_set_multiple s.pool.used_map idx 1 false)) := by
  have hal : pg_round_down b % PGSIZE = 0 := by rw [hidx]; unfold PGSIZE at *; omega
  generalize pg_round_down b = a at ha hal hpos hb hidx ⊢
  set s₁ := ({ s with mem := fill s.mem b 0xcc (s.descs k).block_size }.setList k
    (b :: (s.descs k).free_list)).setArena a (some ⟨some k, c + 1⟩)
  have ha₁ : s₁.arenas a = some ⟨some k, c + 1⟩ := by simp [s₁]
  have hremove := remove_blocks_eq ha₁ hpos (s.descs k).blocks_per_arena (by simp [s₁])
  set s₂ := s₁.setList k ((blocks (s₁.descs k) a (s.descs k).blocks_per_arena).foldl List.erase
    (s₁.descs k).free_list)
  have hfree := palloc_free_multiple_eq (s := s₂) (n := 1) (by simpa [s₂, s₁] using hbase)
    Nat.one_pos hpos (by simpa [s₂, s₁] using hidx)
    (fun j hj => by simpa [s₂, s₁, show j = 0 by omega] using hused)
  have hchk : (c + 1 == (s.descs k).blocks_per_arena) = true := beq_iff_eq.mpr hlast
  simp only [free, bind_apply, block_to_arena_small ha hal hpos hd hb, get_apply, memset,
    modify_apply, set_free_list, set_arena, if_pos (Nat.le_of_eq hlast.symm), ASSERT_apply, hchk,
    if_true]
  rw [hremove]
  dsimp only
  rw [hfree]
  simp only [s₂, s₁, Heap.setList, Heap.setArena, Heap.setUsed, Function.update_idem,
    Function.update_self, PGSIZE, Nat.mul_one]
  -- the blocks depend only on the block size, which the free list's change keeps
  rfl

/-- `free` of a big block: its pages go back to the pool. -/
theorem free_big {a n idx : Nat} (ha : s.arenas a = some ⟨none, n⟩)
    (hbase : s.pool.base % PGSIZE = 0) (hpos : 0 < a) (hn : 0 < n)
    (hidx : a = s.pool.base + PGSIZE * idx)
    (hused : ∀ j < n, s.pool.used_map[idx + j]? = some true) :
    free (some (a + ARENA_SIZE)) s = (.ok (),
      (({ s with mem := fill s.mem a 0xcc (PGSIZE * n) }).setArena a none).setUsed
        (bitmap_set_multiple s.pool.used_map idx n false)) := by
  have hal : a % PGSIZE = 0 := by rw [hidx]; unfold PGSIZE at *; omega
  simp only [free, bind_apply, block_to_arena_big ha hal hpos,
    palloc_free_multiple_eq hbase hn hpos hidx hused]

/-- Putting a block back on its free list when its arena keeps a block in use keeps
the invariant, without the block. -/
theorem inv_free_keep (h : Inv s live) {b k c : Nat} (hb : b ∈ live)
    (ha : s.arenas (pg_round_down b) = some ⟨some k, c⟩)
    (hblock : IsBlock (s.descs k) (pg_round_down b) b) (hkeep : c + 1 < (s.descs k).blocks_per_arena) :
    Inv ((s.setList k (b :: (s.descs k).free_list)).setArena (pg_round_down b) (some ⟨some k, c + 1⟩))
      (live.erase b) := by
  have hnot : b ∉ (s.descs k).free_list := h.live_not_free hb
  obtain ⟨hk, hcount, hsum, -⟩ := h.small _ _ _ ha
  have herase := pageCount_erase_self hb rfl
  have hmem : ∀ x, x ∈ live.erase b ↔ x ≠ b ∧ x ∈ live := fun x => h.live_nodup.mem_erase_iff
  generalize hA : pg_round_down b = a at ha hblock herase hcount hsum
  exact {
    base := h.base
    descs := fun k' hk' => (h.descs k' hk').setList
    used := h.update_used ha rfl
    apart := h.update_apart ha rfl
    small := fun a₁ k₁ c₁ h₁ => by
      by_cases ha₁ : a₁ = a
      · subst ha₁
        simp only [setArena_arenas, Function.update_self, Option.some_inj, Arena.mk.injEq,
          Option.some_inj] at h₁
        obtain ⟨rfl, rfl⟩ := h₁
        simp only [setArena_descs, setArena_desc_cnt, setList_desc_cnt, setList_blocks_per_arena,
          setList_free_list, if_true, pageCount_cons_self _ hA]
        exact ⟨hk, by omega, by omega, hkeep⟩
      · rw [setArena_arenas, Function.update_of_ne ha₁] at h₁
        obtain ⟨hk₁, hcount₁, hsum₁, hlt₁⟩ := h.small _ _ _ h₁
        have hne : pg_round_down b ≠ a₁ := hA ▸ Ne.symm ha₁
        refine ⟨hk₁, ?_, ?_, by simpa using hlt₁⟩
        · by_cases hkk : k₁ = k
          · subst hkk
            simp [hcount₁, pageCount_cons_of_ne _ hne]
          · simp [hcount₁, hkk]
        · rw [pageCount_erase_of_ne live hne]
          simpa using hsum₁
    big := fun a₁ n h₁ => by
      have ha₁ : a₁ ≠ a := by
        rintro rfl
        simp at h₁
      rw [setArena_arenas, Function.update_of_ne ha₁] at h₁
      have hpage : pg_round_down (a₁ + ARENA_SIZE) = a₁ :=
        pg_round_down_add (h.arena_page h₁).1 (by decide)
      refine (hmem _).mpr ⟨fun e => ha₁ ?_, h.big a₁ n h₁⟩
      rw [← hpage, e, hA]
    free_nodup := fun k' => by
      by_cases hkk : k' = k
      · subst hkk
        simpa using List.nodup_cons.mpr ⟨hnot, h.free_nodup k'⟩
      · simpa [hkk] using h.free_nodup k'
    free_block := fun k' x hx => by
      have hx' : x = b ∧ k' = k ∨ x ∈ (s.descs k').free_list := by
        by_cases hkk : k' = k
        · subst hkk
          simpa using hx
        · simpa [hkk] using hx
      rcases hx' with ⟨rfl, rfl⟩ | hx'
      · exact ⟨hk, c + 1, by simp [hA], hA ▸ hblock.setList⟩
      · obtain ⟨hk', -, -, hblock'⟩ := h.free_block k' x hx'
        obtain ⟨c'', hc''⟩ := h.free_arena_recount (d := c + 1) ha hx'
        exact ⟨hk', c'', hc'', hblock'.setList⟩
    live_nodup := h.live_nodup.erase b
    live_block := fun x hx => by
      obtain ⟨hxb, hx⟩ := (hmem x).mp hx
      refine h.live_block_recount (d := c + 1) ha ?_ ?_ hx fun k' hx' => ?_
      · rfl
      · exact fun _ _ hb => hb.setList
      by_cases hkk : k' = k
      · subst hkk
        simp only [setArena_descs, setList_free_list, if_true, List.mem_cons] at hx'
        exact hx'.elim hxb (h.live_not_free hx)
      · simp only [setArena_descs, setList_free_list, hkk, if_false] at hx'
        exact h.live_not_free hx hx' }

/-- Freeing the last block in use of an arena and giving its page back keeps the
invariant, without the block. -/
theorem inv_free_release (h : Inv s live) {b k c idx : Nat} (hb : b ∈ live)
    (ha : s.arenas (pg_round_down b) = some ⟨some k, c⟩)
    (hidx : pg_round_down b = s.pool.base + PGSIZE * idx)
    (hblock : IsBlock (s.descs k) (pg_round_down b) b) (hlast : c + 1 = (s.descs k).blocks_per_arena) :
    Inv (((s.setList k ((blocks (s.descs k) (pg_round_down b) (s.descs k).blocks_per_arena).foldl
        List.erase (b :: (s.descs k).free_list))).setArena (pg_round_down b) none).setUsed
        (bitmap_set_multiple s.pool.used_map idx 1 false)) (live.erase b) := by
  have hnot : b ∉ (s.descs k).free_list := h.live_not_free hb
  obtain ⟨hk, -, hsum, -⟩ := h.small _ _ _ ha
  have herase := pageCount_erase_self hb rfl
  have hmem : ∀ x, x ∈ live.erase b ↔ x ≠ b ∧ x ∈ live := fun x => h.live_nodup.mem_erase_iff
  have hd := h.descs k hk
  have hused := h.remove_used (hidx ▸ ha) rfl
  rw [foldl_erase_eq_filter (List.nodup_cons.mpr ⟨hnot, h.free_nodup k⟩)]
  generalize hA : pg_round_down b = a at ha hblock herase hsum hidx ⊢
  rw [← hidx] at hused
  have hal : a % PGSIZE = 0 := (h.arena_page ha).1
  -- the arena's blocks are the ones in its page; the freed block was its last live one
  have hB : ∀ x ∈ blocks (s.descs k) a (s.descs k).blocks_per_arena, pg_round_down x = a :=
    fun x hx => (IsBlock.of_mem_blocks hx).page hd hal
  have hbB : b ∈ blocks (s.descs k) a (s.descs k).blocks_per_arena := mem_blocks.mpr hblock
  have hfreeA : ∀ k' x, x ∈ (s.descs k').free_list → pg_round_down x = a →
      x ∈ blocks (s.descs k) a (s.descs k).blocks_per_arena ∧ k' = k := by
    intro k' x hx hpx
    obtain ⟨-, c₀, hc₀, hblock'⟩ := h.free_block k' x hx
    rw [hpx, ha] at hc₀
    cases hc₀
    exact ⟨mem_blocks.mpr (hpx ▸ hblock'), rfl⟩
  have hliveA : ∀ x ∈ live.erase b, pg_round_down x ≠ a := by
    intro x hx hpx
    have hpos : 0 < pageCount (live.erase b) a := List.countP_pos_iff.mpr ⟨x, hx, by simp [hpx]⟩
    omega
  have hne : ∀ a₁, a₁ ≠ a → pg_round_down b ≠ a₁ := fun a₁ ha₁ => hA ▸ Ne.symm ha₁
  exact {
    base := by simpa using h.base
    descs := fun k' hk' => (h.descs k' hk').setList
    used := hused
    apart := h.remove_apart a
    small := fun a₁ k₁ c₁ h₁ => by
      have ha₁ : a₁ ≠ a := by rintro rfl; simp at h₁
      simp only [setUsed_arenas, setArena_arenas, Function.update_of_ne ha₁, setList_arenas] at h₁
      obtain ⟨hk₁, hcount₁, hsum₁, hlt₁⟩ := h.small _ _ _ h₁
      refine ⟨hk₁, ?_, ?_, by simpa using hlt₁⟩
      · by_cases hkk : k₁ = k
        · subst hkk
          have hkeep : ∀ x ∈ b :: (s.descs k₁).free_list,
              decide (x ∉ blocks (s.descs k₁) a (s.descs k₁).blocks_per_arena) = false →
              pg_round_down x ≠ a₁ := fun x _ hq => by
            rw [hB x (by simpa using hq)]
            exact Ne.symm ha₁
          simp only [setUsed_descs, setArena_descs, setList_free_list, if_true]
          rw [pageCount_filter hkeep, pageCount_cons_of_ne _ (hne a₁ ha₁), hcount₁]
        · simp [hcount₁, hkk]
      · rw [pageCount_erase_of_ne live (hne a₁ ha₁)]
        simpa using hsum₁
    big := fun a₁ n h₁ => by
      have ha₁ : a₁ ≠ a := by rintro rfl; simp at h₁
      simp only [setUsed_arenas, setArena_arenas, Function.update_of_ne ha₁, setList_arenas] at h₁
      have hpage : pg_round_down (a₁ + ARENA_SIZE) = a₁ :=
        pg_round_down_add (h.arena_page h₁).1 (by decide)
      refine (hmem _).mpr ⟨fun e => ha₁ ?_, h.big a₁ n h₁⟩
      rw [← hpage, e, hA]
    free_nodup := fun k' => by
      by_cases hkk : k' = k
      · subst hkk
        simpa using (List.nodup_cons.mpr ⟨hnot, h.free_nodup k'⟩).filter _
      · simpa [hkk] using h.free_nodup k'
    free_block := fun k' x hx => by
      -- what stays on a free list lies outside the page given back
      have hx' : x ∈ (s.descs k').free_list ∧ pg_round_down x ≠ a := by
        by_cases hkk : k' = k
        · subst hkk
          simp only [setUsed_descs, setArena_descs, setList_free_list, if_true, List.mem_filter,
            List.mem_cons, decide_eq_true_eq] at hx
          obtain ⟨rfl | hx, hxB⟩ := hx
          · exact absurd hbB hxB
          · exact ⟨hx, fun hpx => hxB (hfreeA k' x hx hpx).1⟩
        · simp only [setUsed_descs, setArena_descs, setList_free_list, hkk, if_false] at hx
          exact ⟨hx, fun hpx => hkk (hfreeA k' x hx hpx).2⟩
      obtain ⟨hk', c₀, hc₀, hblock'⟩ := h.free_block k' x hx'.1
      exact ⟨hk', c₀, by simp [hx'.2, hc₀], hblock'.setList⟩
    live_nodup := h.live_nodup.erase b
    live_block := fun x hx => by
      have hpx := hliveA x hx
      obtain ⟨hxb, hx⟩ := (hmem x).mp hx
      refine h.live_block_frame hx (by simp [hpx]) (fun _ hb => hb.setList) fun k' hx' => ?_
      by_cases hkk : k' = k
      · subst hkk
        simp only [setUsed_descs, setArena_descs, setList_free_list, if_true, List.mem_filter,
          List.mem_cons] at hx'
        exact hx'.1.elim hxb (h.live_not_free hx)
      · simp only [setUsed_descs, setArena_descs, setList_free_list, hkk, if_false] at hx'
        exact h.live_not_free hx hx' }

/-- Giving a big block's pages back keeps the invariant, without the block. -/
theorem inv_free_big (h : Inv s live) {a n idx : Nat} (hb : a + ARENA_SIZE ∈ live)
    (ha : s.arenas a = some ⟨none, n⟩) (hidx : a = s.pool.base + PGSIZE * idx) :
    Inv ((s.setArena a none).setUsed (bitmap_set_multiple s.pool.used_map idx n false))
      (live.erase (a + ARENA_SIZE)) := by
  have hmem : ∀ x, x ∈ live.erase (a + ARENA_SIZE) ↔ x ≠ a + ARENA_SIZE ∧ x ∈ live :=
    fun x => h.live_nodup.mem_erase_iff
  have hal : a % PGSIZE = 0 := (h.arena_page ha).1
  have hpage : pg_round_down (a + ARENA_SIZE) = a := pg_round_down_add hal (by decide)
  have hused := h.remove_used (hidx ▸ ha) rfl
  rw [← hidx] at hused
  -- no free-list element and no other live block lies in the big block's pages
  have hfreeA : ∀ k x, x ∈ (s.descs k).free_list → pg_round_down x ≠ a := by
    intro k x hx hpx
    obtain ⟨c, hc⟩ := h.free_arena hx
    rw [hpx, ha] at hc
    cases hc
  have hliveA : ∀ x, x ≠ a + ARENA_SIZE → x ∈ live → pg_round_down x ≠ a := by
    intro x hxb hx hpx
    rcases h.live_block x hx with ⟨k, c, hc, -⟩ | ⟨n', -, hofs⟩
    · rw [hpx, ha] at hc
      cases hc
    · have := pg_round_down_add_pg_ofs x
      rw [hpx, hofs] at this
      exact hxb this.symm
  exact {
    base := by simpa using h.base
    descs := h.descs
    used := hused
    apart := h.remove_apart a
    small := fun a₁ k₁ c₁ h₁ => by
      have ha₁ : a₁ ≠ a := by rintro rfl; simp at h₁
      simp only [setUsed_arenas, setArena_arenas, Function.update_of_ne ha₁] at h₁
      rw [pageCount_erase_of_ne live (by rw [hpage]; exact Ne.symm ha₁)]
      exact h.small a₁ k₁ c₁ h₁
    big := fun a₁ n₁ h₁ => by
      have ha₁ : a₁ ≠ a := by rintro rfl; simp at h₁
      simp only [setUsed_arenas, setArena_arenas, Function.update_of_ne ha₁] at h₁
      exact (hmem _).mpr ⟨fun e => ha₁ (by omega), h.big a₁ n₁ h₁⟩
    free_nodup := h.free_nodup
    free_block := fun k x hx => by
      obtain ⟨hk, c, hc, hblock⟩ := h.free_block k x hx
      exact ⟨hk, c, by simp [hfreeA k x hx, hc], hblock⟩
    live_nodup := h.live_nodup.erase _
    live_block := fun x hx => by
      obtain ⟨hxb, hx⟩ := (hmem x).mp hx
      exact h.live_block_frame hx (by simp [hliveA x hxb hx]) (fun _ hb => hb)
        fun _ => h.live_not_free hx }

/-- `free` of a live block stops on no path from a state of the invariant, and keeps
it, without the block. -/
theorem free_inv (h : Inv s live) {b : Nat} (hb : b ∈ live) :
    ∃ s', free (some b) s = (.ok (), s') ∧ Inv s' (live.erase b) := by
  rcases h.live_block b hb with ⟨k, c, ha, hblock, -⟩ | ⟨n, ha, hofs⟩
  · obtain ⟨hal, hpos⟩ := h.arena_page ha
    obtain ⟨hk, -, -, hlt⟩ := h.small _ _ _ ha
    by_cases hkeep : c + 1 < (s.descs k).blocks_per_arena
    · exact ⟨_, free_keep ha hal hpos (h.descs k hk) hblock hkeep,
        inv_free_keep (h.mem _) hb ha hblock hkeep⟩
    · -- the block was the arena's last one in use
      have hlast : c + 1 = (s.descs k).blocks_per_arena := by omega
      obtain ⟨-, idx, hidx, hbits⟩ := (h.used _ _ ha)
      have hused : s.pool.used_map[idx]? = some true := by simpa using hbits 0 Nat.one_pos
      exact ⟨_, free_release ha h.base.1 hpos hidx hused (h.descs k hk) hblock hlast,
        inv_free_release (h.mem _) hb ha hidx hblock hlast⟩
  · -- a big block is its arena's header address plus the header
    have hb' : b = pg_round_down b + ARENA_SIZE := by
      rw [← hofs, pg_round_down_add_pg_ofs]
    obtain ⟨hal, hpos⟩ := h.arena_page ha
    obtain ⟨hn, idx, hidx, hbits⟩ := (h.used _ _ ha)
    rw [hb'] at hb ⊢
    exact ⟨_, free_big ha h.base.1 hpos hn hidx hbits, inv_free_big (h.mem _) hb ha hidx⟩

theorem block_size_small {b k c : Nat} (ha : s.arenas (pg_round_down b) = some ⟨some k, c⟩)
    (hal : pg_round_down b % PGSIZE = 0) (hpos : 0 < pg_round_down b) (hd : DescOk (s.descs k))
    (hb : IsBlock (s.descs k) (pg_round_down b) b) :
    block_size b s = (.ok (s.descs k).block_size, s) := by
  simp [block_size, bind_apply, block_to_arena_small ha hal hpos hd hb]

theorem block_size_big {a n : Nat} (ha : s.arenas a = some ⟨none, n⟩) (hal : a % PGSIZE = 0)
    (hpos : 0 < a) : block_size (a + ARENA_SIZE) s = (.ok (PGSIZE * n - ARENA_SIZE), s) := by
  have hofs : pg_ofs (a + ARENA_SIZE) = ARENA_SIZE := pg_ofs_add hal (by decide)
  simp [block_size, bind_apply, block_to_arena_big ha hal hpos, hofs]

/-- `block_size` of a live block stops on no path and changes nothing. -/
theorem block_size_live (h : Inv s live) {b : Nat} (hb : b ∈ live) :
    ∃ n, block_size b s = (.ok n, s) := by
  rcases h.live_block b hb with ⟨k, c, ha, hblock, -⟩ | ⟨n, ha, hofs⟩
  · obtain ⟨hal, hpos⟩ := h.arena_page ha
    obtain ⟨hk, -⟩ := h.small _ _ _ ha
    exact ⟨_, block_size_small ha hal hpos (h.descs k hk) hblock⟩
  · obtain ⟨hal, hpos⟩ := h.arena_page ha
    rw [← pg_round_down_add_pg_ofs b, hofs]
    exact ⟨_, block_size_big ha hal hpos⟩

/-- Unless `size + sizeof (struct arena)` wraps, the block `malloc` returns holds at
least `size` bytes. -/
theorem malloc_block_size (h : Inv s live) {size : UInt32}
    (hwrap : size.toNat + ARENA_SIZE + PGSIZE - 1 < 2 ^ 32) {p : Nat} {s' : Heap}
    (hm : malloc size s = (.ok (some p), s')) :
    ∃ n, (block_size p s').1 = .ok n ∧ size.toNat ≤ n := by
  rcases malloc_cases h size with hm' | ⟨k, b, rest, c, hfits, hl, hc, hm'⟩ |
      ⟨k, idx, hkc, hfits, hl, hscan, hm'⟩ | ⟨n, idx, hn, hn0, hscan, hm'⟩ <;>
    rw [hm'] at hm <;> cases hm
  · -- the front block of the list: a block of descriptor `k`
    obtain ⟨hk, -, -, hblock⟩ := h.free_block k p (hl ▸ List.mem_cons_self)
    obtain ⟨hal, hpos⟩ := h.arena_page hc
    have hbs := block_size_small
      (s := (s.setList k rest).setArena (pg_round_down p) (some ⟨some k, c - 1⟩)) (c := c - 1)
      (by simp) hal hpos (h.descs k hk).setList hblock.setList
    exact ⟨_, by rw [hbs], by simpa using hfits⟩
  · -- the first block of a new arena of descriptor `k`
    have hd := h.descs k hkc
    obtain ⟨hal, hpos⟩ : (s.pool.base + PGSIZE * idx) % PGSIZE = 0 ∧
        0 < s.pool.base + PGSIZE * idx := by
      have := h.base; unfold PGSIZE at *; omega
    generalize s.pool.base + PGSIZE * idx = a at hal hpos ⊢
    have hpage : pg_round_down (a + ARENA_SIZE) = a := pg_round_down_add hal (by decide)
    have hbs := block_size_small
      (s := ((s.setUsed (bitmap_set_multiple s.pool.used_map idx 1 true)).setList k
          (blocks (s.descs k) a (s.descs k).blocks_per_arena).tail).setArena
          a (some ⟨some k, (s.descs k).blocks_per_arena - 1⟩))
      (b := a + ARENA_SIZE) (c := (s.descs k).blocks_per_arena - 1)
      (by simp [hpage]) (by rw [hpage]; exact hal) (by rw [hpage]; exact hpos)
      (DescOk.setList (s := s.setUsed _) hd)
      (by rw [hpage]; exact IsBlock.setList (s := s.setUsed _) ⟨0, hd.blocks_pos, by simp⟩)
    exact ⟨_, by rw [hbs], by simpa using hfits⟩
  · -- a big block of `n` pages
    obtain ⟨hal, hpos⟩ : (s.pool.base + PGSIZE * idx) % PGSIZE = 0 ∧
        0 < s.pool.base + PGSIZE * idx := by
      have := h.base; unfold PGSIZE at *; omega
    rw [page_cnt_toNat hwrap] at hn
    have hbs := block_size_big
      (s := (s.setUsed (bitmap_set_multiple s.pool.used_map idx n true)).setArena
        (s.pool.base + PGSIZE * idx) (some ⟨none, n⟩)) (n := n) (by simp) hal hpos
    refine ⟨_, by rw [hbs], ?_⟩
    unfold PGSIZE ARENA_SIZE at *
    omega

/-- A live block of `n` bytes lies inside the pages of its arena, after the header. -/
theorem Inv.live_extent (h : Inv s live) {b n : Nat} (hb : b ∈ live)
    (hs : (block_size b s).1 = .ok n) :
    ∃ ar, s.arenas (pg_round_down b) = some ar ∧ pg_round_down b < b ∧
      b + n ≤ pg_round_down b + PGSIZE * ar.npages := by
  rcases h.live_block b hb with ⟨k, c, ha, hblock, -⟩ | ⟨m, ha, hofs⟩
  · obtain ⟨hal, hpos⟩ := h.arena_page ha
    obtain ⟨hk, -⟩ := h.small _ _ _ ha
    have hd := h.descs k hk
    rw [block_size_small ha hal hpos hd hblock] at hs
    cases hs
    obtain ⟨i, hi, hbi⟩ := hblock
    have hend := hd.block_end hi
    refine ⟨_, ha, by unfold ARENA_SIZE at *; omega, ?_⟩
    show b + (s.descs k).block_size ≤ pg_round_down b + PGSIZE * 1
    omega
  · obtain ⟨hal, hpos⟩ := h.arena_page ha
    have hm : 0 < m := (h.used _ _ ha).1
    have hb' := pg_round_down_add_pg_ofs b
    rw [hofs] at hb'
    rw [← hb', block_size_big ha hal hpos] at hs
    cases hs
    refine ⟨_, ha, by unfold ARENA_SIZE at *; omega, ?_⟩
    show b + (PGSIZE * m - ARENA_SIZE) ≤ pg_round_down b + PGSIZE * m
    unfold PGSIZE ARENA_SIZE at *
    omega

/-- Two live blocks of one page are two blocks of one arena, at different indices. -/
theorem Inv.same_page_disjoint (h : Inv s live) {b₁ b₂ n₁ n₂ : Nat} (hb₁ : b₁ ∈ live)
    (hb₂ : b₂ ∈ live) (hne : b₁ ≠ b₂) (hpg : pg_round_down b₁ = pg_round_down b₂)
    (hs₁ : (block_size b₁ s).1 = .ok n₁) (hs₂ : (block_size b₂ s).1 = .ok n₂) :
    b₁ + n₁ ≤ b₂ ∨ b₂ + n₂ ≤ b₁ := by
  rcases h.live_block b₁ hb₁ with ⟨k, c, ha₁, hblock₁, -⟩ | ⟨m, ha₁, hofs₁⟩ <;>
    rcases h.live_block b₂ hb₂ with ⟨k₂, c₂, ha₂, hblock₂, -⟩ | ⟨m₂, ha₂, hofs₂⟩ <;>
    rw [← hpg, ha₁] at ha₂ <;> cases ha₂
  · -- two blocks of one arena: their indices differ
    obtain ⟨hal, hpos⟩ := h.arena_page ha₁
    obtain ⟨hk, -⟩ := h.small _ _ _ ha₁
    have hd := h.descs k hk
    rw [block_size_small ha₁ hal hpos hd hblock₁] at hs₁
    rw [← hpg] at hblock₂
    rw [block_size_small (hpg ▸ ha₁) (hpg ▸ hal) (hpg ▸ hpos) hd (hpg ▸ hblock₂)] at hs₂
    cases hs₁
    cases hs₂
    obtain ⟨i₁, -, hb₁'⟩ := hblock₁
    obtain ⟨i₂, -, hb₂'⟩ := hblock₂
    rcases Nat.lt_or_gt_of_ne (fun e : i₁ = i₂ => hne (by rw [hb₁', hb₂', e])) with hlt | hlt
    · left
      have := Nat.mul_le_mul_right (s.descs k).block_size (Nat.succ_le_of_lt hlt)
      rw [Nat.succ_mul] at this
      omega
    · right
      have := Nat.mul_le_mul_right (s.descs k).block_size (Nat.succ_le_of_lt hlt)
      rw [Nat.succ_mul] at this
      omega
  · -- a big block is the one block of its pages
    have e₁ := pg_round_down_add_pg_ofs b₁
    have e₂ := pg_round_down_add_pg_ofs b₂
    exact absurd (by rw [← e₁, ← e₂, hpg, hofs₁, hofs₂]) hne

/-- Live blocks are pairwise disjoint. -/
theorem Inv.live_disjoint (h : Inv s live) {b₁ b₂ n₁ n₂ : Nat} (hb₁ : b₁ ∈ live)
    (hb₂ : b₂ ∈ live) (hne : b₁ ≠ b₂)
    (hs₁ : (block_size b₁ s).1 = .ok n₁) (hs₂ : (block_size b₂ s).1 = .ok n₂) :
    b₁ + n₁ ≤ b₂ ∨ b₂ + n₂ ≤ b₁ := by
  by_cases hpg : pg_round_down b₁ = pg_round_down b₂
  · exact h.same_page_disjoint hb₁ hb₂ hne hpg hs₁ hs₂
  · obtain ⟨ar₁, ha₁, hlo₁, hhi₁⟩ := h.live_extent hb₁ hs₁
    obtain ⟨ar₂, ha₂, hlo₂, hhi₂⟩ := h.live_extent hb₂ hs₂
    rcases h.disjoint ha₁ ha₂ hpg with hle | hle <;> omega

theorem calloc_inv (h : Inv s live) (a b : UInt32) :
    ∃ r s', calloc a b s = (.ok r, s') ∧ Inv s' (r.toList ++ live) := by
  by_cases hov : (a * b < a || a * b < b) = true
  · exact ⟨none, s, by simp [calloc, hov], h⟩
  obtain ⟨r, s', hm, hinv⟩ := malloc_inv h (a * b)
  cases r with
  | none => exact ⟨none, s', by simp [calloc, hov, bind_apply, hm], hinv⟩
  | some q =>
    exact ⟨some q, { s' with mem := fill s'.mem q 0 (a * b).toNat },
      by simp [calloc, hov, bind_apply, hm, memset], hinv.mem _⟩

end InvFacts

/-! ## Runs of calls -/

/-- The heap `malloc_init` sets up on a pool and memory. -/
def boot (pool : Pool) (mem : Nat → UInt8) : Heap :=
  (malloc_init ⟨fun _ => default, 0, fun _ => none, pool, mem⟩).2

/-- A call of a client of the allocator: one of the four functions, or a store of
a byte into a block. -/
inductive MCall
  | malloc (size : UInt32)
  | calloc (a b : UInt32)
  | realloc (p : Option Nat) (new_size : UInt32)
  | free (p : Option Nat)
  | store (p off : Nat) (v : UInt8)

/-- The allocator with the blocks it has handed out and not taken back. -/
structure MSys where
  heap : Heap
  live : List Nat

/-- The blocks live after `realloc (p, new_size)` returned `r`: `p` is freed when
`new_size` is zero or the new block was obtained. -/
def realloc_live (live : List Nat) (p : Option Nat) (new_size : UInt32) (r : Option Nat) :
    List Nat :=
  r.toList ++ match p with
    | some o => if new_size = 0 ∨ r.isSome then live.erase o else live
    | none => live

theorem realloc_inv (h : Inv s live) (p : Option Nat) (hp : p.all (· ∈ live)) (new_size : UInt32) :
    ∃ r s', realloc p new_size s = (.ok r, s') ∧ Inv s' (realloc_live live p new_size r) := by
  by_cases h0 : new_size = 0
  · -- `realloc (p, 0)` is `free (p)`
    cases p with
    | none => exact ⟨none, s, by simp [realloc, h0, free, bind_apply], by simpa [realloc_live] using h⟩
    | some o =>
      obtain ⟨s', hf, hinv⟩ := free_inv h (by simpa using hp)
      exact ⟨none, s', by simp [realloc, h0, bind_apply, hf], by simpa [realloc_live, h0] using hinv⟩
  obtain ⟨r, s₁, hm, h₁⟩ := malloc_inv h new_size
  cases p with
  | none =>
    refine ⟨r, s₁, ?_, by simpa [realloc_live] using h₁⟩
    cases r <;> simp [realloc, h0, bind_apply, hm]
  | some o =>
    have ho : o ∈ live := by simpa using hp
    cases r with
    | none =>
      exact ⟨none, s₁, by simp [realloc, h0, bind_apply, hm], by simpa [realloc_live, h0] using h₁⟩
    | some q =>
      -- the old block is copied into the new one and then freed
      have ho₁ : o ∈ q :: live := List.mem_cons_of_mem q ho
      have hne : o ≠ q := fun e => (List.nodup_cons.mp h₁.live_nodup).1 (e ▸ ho)
      obtain ⟨n, hbs⟩ := block_size_live h₁ ho₁
      obtain ⟨s₂, hf, h₂⟩ := free_inv (h₁.mem (copy s₁.mem q o
        (if new_size.toNat < n then new_size.toNat else n))) ho₁
      refine ⟨some q, s₂, ?_, ?_⟩
      · simp [realloc, h0, bind_apply, hm, hbs, memcpy, hf]
      · simpa [realloc_live, List.erase_cons, Ne.symm hne] using h₂

/-- One call. `free` and `realloc` are called on a live block or null, and a store
stays inside a live block; a call that stops is not a step. -/
def m_step (w : MSys) : MCall → Option MSys
  | .malloc size =>
    match malloc size w.heap with
    | (.ok r, s) => some ⟨s, r.toList ++ w.live⟩
    | (.error _, _) => none
  | .calloc a b =>
    match calloc a b w.heap with
    | (.ok r, s) => some ⟨s, r.toList ++ w.live⟩
    | (.error _, _) => none
  | .realloc p new_size =>
    if p.all (· ∈ w.live) then
      match realloc p new_size w.heap with
      | (.ok r, s) => some ⟨s, realloc_live w.live p new_size r⟩
      | (.error _, _) => none
    else none
  | .free p =>
    if p.all (· ∈ w.live) then
      match free p w.heap with
      | (.ok (), s) => some ⟨s, match p with
        | some b => w.live.erase b
        | none => w.live⟩
      | (.error _, _) => none
    else none
  | .store p off v =>
    match block_size p w.heap with
    | (.ok n, _) =>
      if p ∈ w.live ∧ off < n then
        some { w with heap := { w.heap with mem := Function.update w.heap.mem (p + off) v } }
      else none
    | (.error _, _) => none

/-- `malloc_init` makes the seven descriptors of 16 to 1024 bytes, with empty lists. -/
theorem boot_desc_cnt (pool : Pool) (mem : Nat → UInt8) : (boot pool mem).desc_cnt = 7 := rfl

theorem boot_descs (pool : Pool) (mem : Nat → UInt8) {k : Nat} (hk : k < 7) :
    (boot pool mem).descs k = ⟨16 * 2 ^ k, (PGSIZE - ARENA_SIZE) / (16 * 2 ^ k), []⟩ := by
  interval_cases k <;> rfl

theorem boot_descs_ge (pool : Pool) (mem : Nat → UInt8) {k : Nat} (hk : 7 ≤ k) :
    (boot pool mem).descs k = default := by
  obtain ⟨h0, h1, h2, h3, h4, h5, h6⟩ :
      k ≠ 0 ∧ k ≠ 1 ∧ k ≠ 2 ∧ k ≠ 3 ∧ k ≠ 4 ∧ k ≠ 5 ∧ k ≠ 6 := by omega
  simp [boot, malloc_init, malloc_init_loop, bind_apply, PGSIZE, h0, h1, h2, h3, h4, h5, h6]

theorem inv_boot {pool : Pool} (hbase : pool.base % PGSIZE = 0 ∧ 0 < pool.base) (mem : Nat → UInt8) :
    Inv (boot pool mem) [] where
  base := hbase
  descs k hk := by
    rw [boot_desc_cnt] at hk
    rw [boot_descs pool mem hk]
    refine ⟨Nat.mul_pos (by decide) (Nat.two_pow_pos k), ?_, rfl⟩
    interval_cases k <;> decide
  used _ _ h := by cases h
  apart _ _ _ _ h := by cases h
  small _ _ _ h := by cases h
  big _ _ h := by cases h
  free_nodup k := by
    by_cases hk : k < 7
    · simp [boot_descs pool mem hk]
    · rw [boot_descs_ge pool mem (Nat.not_lt.mp hk)]
      exact List.nodup_nil
  free_block k b hb := by
    by_cases hk : k < 7
    · simp [boot_descs pool mem hk] at hb
    · rw [boot_descs_ge pool mem (Nat.not_lt.mp hk)] at hb
      exact absurd hb List.not_mem_nil
  live_nodup := List.nodup_nil
  live_block _ h := by cases h

/-- Every call keeps the invariant, with the blocks the run has handed out. -/
theorem m_step_stable : Transition.Stable m_step fun w => Inv w.heap w.live := by
  intro w c w' h hstep
  cases c with
  | malloc size =>
    obtain ⟨r, s', hm, hinv⟩ := malloc_inv h size
    simp only [m_step, hm, Option.some.injEq] at hstep
    subst hstep
    exact hinv
  | calloc a b =>
    obtain ⟨r, s', hm, hinv⟩ := calloc_inv h a b
    simp only [m_step, hm, Option.some.injEq] at hstep
    subst hstep
    exact hinv
  | realloc p new_size =>
    by_cases hp : p.all (· ∈ w.live) = true
    · obtain ⟨r, s', hr, hinv⟩ := realloc_inv h p hp new_size
      simp only [m_step, hp, if_true, hr, Option.some.injEq] at hstep
      subst hstep
      exact hinv
    · simp [m_step, hp] at hstep
  | free p =>
    by_cases hp : p.all (· ∈ w.live) = true
    · cases p with
      | none =>
        simp only [m_step, hp, if_true, free, pure_apply, Option.some.injEq] at hstep
        subst hstep
        exact h
      | some b =>
        obtain ⟨s', hf, hinv⟩ := free_inv h (by simpa using hp)
        simp only [m_step, hp, if_true, hf, Option.some.injEq] at hstep
        subst hstep
        exact hinv
    · simp [m_step, hp] at hstep
  | store p off v =>
    -- a store changes only bytes of memory
    simp only [m_step] at hstep
    split at hstep
    · split at hstep
      · cases hstep
        exact h.mem _
      · cases hstep
    · cases hstep

/-- The invariant holds in every state that calls from the initial heap reach. -/
theorem inv_reachable {pool : Pool} (hbase : pool.base % PGSIZE = 0 ∧ 0 < pool.base)
    (mem : Nat → UInt8) {w : MSys} (hw : Transition.Reachable m_step ⟨boot pool mem, []⟩ w) :
    Inv w.heap w.live :=
  m_step_stable.reachable (inv_boot hbase mem) hw

/-- What the allocator guarantees in every reachable state: live blocks are pairwise
disjoint, each lies after the header in the pages of one arena that the pool marks
used, and each arena of a descriptor counts in `free_cnt` exactly its blocks on the
free list and still holds a live block, so that an arena is given back at the
`free` of its last live block. -/
theorem malloc_layout {pool : Pool} (hbase : pool.base % PGSIZE = 0 ∧ 0 < pool.base)
    (mem : Nat → UInt8) {w : MSys} (hw : Transition.Reachable m_step ⟨boot pool mem, []⟩ w) :
    (∀ b₁ ∈ w.live, ∀ b₂ ∈ w.live, b₁ ≠ b₂ → ∀ n₁ n₂, (block_size b₁ w.heap).1 = .ok n₁ →
      (block_size b₂ w.heap).1 = .ok n₂ → b₁ + n₁ ≤ b₂ ∨ b₂ + n₂ ≤ b₁) ∧
    (∀ b ∈ w.live, ∃ n ar, (block_size b w.heap).1 = .ok n ∧
      w.heap.arenas (pg_round_down b) = some ar ∧ Used w.heap.pool (pg_round_down b) ar.npages ∧
      pg_round_down b < b ∧ b + n ≤ pg_round_down b + PGSIZE * ar.npages) ∧
    (∀ a k c, w.heap.arenas a = some ⟨some k, c⟩ →
      c = pageCount (w.heap.descs k).free_list a ∧ 0 < pageCount w.live a) := by
  have h := inv_reachable hbase mem hw
  refine ⟨fun b₁ hb₁ b₂ hb₂ hne n₁ n₂ hs₁ hs₂ => h.live_disjoint hb₁ hb₂ hne hs₁ hs₂, ?_, ?_⟩
  · intro b hb
    obtain ⟨n, hs⟩ := block_size_live h hb
    obtain ⟨ar, ha, hlo, hhi⟩ := h.live_extent hb (by rw [hs])
    exact ⟨n, ar, by rw [hs], ha, (h.used _ _ ha).2, hlo, hhi⟩
  · intro a k c ha
    obtain ⟨-, hcount, hsum, hlt⟩ := h.small a k c ha
    exact ⟨hcount, by omega⟩

/-- A pool of eight pages from address 4096. -/
def pool₀ : Pool := ⟨4096, List.replicate 8 false⟩

def sys₀ : MSys := ⟨boot pool₀ fun _ => 0, []⟩

/-- After `malloc (5000)`, `malloc (2000)`, `malloc (1024)` and the `free` of the second
block, the blocks at 16396 and 4108 are live, and the layout holds of them. -/
theorem malloc_layout_three_calls :
    (pool₀.base % PGSIZE = 0 ∧ 0 < pool₀.base) ∧
    ∃ w, Transition.run m_step sys₀ [.malloc 5000, .malloc 2000, .malloc 1024, .free (some 12300)] =
      some w ∧ w.live = [16396, 4108] ∧
    (∀ b₁ ∈ w.live, ∀ b₂ ∈ w.live, b₁ ≠ b₂ → ∀ n₁ n₂, (block_size b₁ w.heap).1 = .ok n₁ →
      (block_size b₂ w.heap).1 = .ok n₂ → b₁ + n₁ ≤ b₂ ∨ b₂ + n₂ ≤ b₁) ∧
    (∀ b ∈ w.live, ∃ n ar, (block_size b w.heap).1 = .ok n ∧
      w.heap.arenas (pg_round_down b) = some ar ∧ Used w.heap.pool (pg_round_down b) ar.npages ∧
      pg_round_down b < b ∧ b + n ≤ pg_round_down b + PGSIZE * ar.npages) ∧
    (∀ a k c, w.heap.arenas a = some ⟨some k, c⟩ →
      c = pageCount (w.heap.descs k).free_list a ∧ 0 < pageCount w.live a) := by
  have hbase : pool₀.base % PGSIZE = 0 ∧ 0 < pool₀.base := ⟨by decide, by decide⟩
  obtain ⟨w, hw, hlive⟩ := Transition.exists_run_of_map m_step sys₀
    [.malloc 5000, .malloc 2000, .malloc 1024, .free (some 12300)] MSys.live
    (v := [16396, 4108]) (by decide +kernel)
  exact ⟨hbase, w, hw, hlive, malloc_layout hbase _ (Transition.reachable_of_run hw)⟩

/-- In every reachable state, a `malloc (size)` whose `size + sizeof (struct arena)`
does not wrap returns `NULL` or a block of at least `size` bytes. -/
theorem malloc_returns_enough {pool : Pool} (hbase : pool.base % PGSIZE = 0 ∧ 0 < pool.base)
    (mem : Nat → UInt8) {w : MSys} (hw : Transition.Reachable m_step ⟨boot pool mem, []⟩ w)
    {size : UInt32} (hwrap : size.toNat + ARENA_SIZE + PGSIZE - 1 < 2 ^ 32) {p : Nat}
    {s' : Heap} (hm : malloc size w.heap = (.ok (some p), s')) :
    ∃ n, (block_size p s').1 = .ok n ∧ size.toNat ≤ n :=
  malloc_block_size (inv_reachable hbase mem hw) hwrap hm

/-- After `malloc (5000)`, `malloc (100)` returns the block at 12300, which holds at
least 100 bytes. -/
theorem malloc_returns_enough_after_page :
    (pool₀.base % PGSIZE = 0 ∧ 0 < pool₀.base) ∧
    ∃ w, Transition.run m_step sys₀ [.malloc 5000] = some w ∧
      (100 : UInt32).toNat + ARENA_SIZE + PGSIZE - 1 < 2 ^ 32 ∧
      (malloc 100 w.heap).1 = .ok (some 12300) ∧
      ∃ n, (block_size 12300 (malloc 100 w.heap).2).1 = .ok n ∧ (100 : UInt32).toNat ≤ n := by
  have hbase : pool₀.base % PGSIZE = 0 ∧ 0 < pool₀.base := ⟨by decide, by decide⟩
  obtain ⟨w, hw, hp⟩ := Transition.exists_run_of_map m_step sys₀ [.malloc 5000]
    (fun w => (malloc 100 w.heap).1) (v := .ok (some 12300)) (by decide +kernel)
  have hm : malloc 100 w.heap = (.ok (some 12300), (malloc 100 w.heap).2) := Prod.ext hp rfl
  exact ⟨hbase, w, hw, by decide, hp,
    malloc_returns_enough hbase _ (Transition.reachable_of_run hw) (by decide) hm⟩

/-- Two pages for `p` (8180 bytes at 4108), one for `t` at 12300, a 1 kB block `u`
at 16396; `t` is freed and a byte 1 stored at the start of `u`. -/
def calls₀ : List MCall :=
  [.malloc 5000, .malloc 2000, .malloc 1024, .free (some 12300), .store 16396 0 1]

/-- `realloc (p, 0xffffffff)` of a block of 8180 bytes: `malloc`'s page count
`DIV_ROUND_UP (size + sizeof *a, PGSIZE)` wraps to one page, so the new block at 12300
has 4084 bytes, and the `memcpy` of `min (new_size, old_size)` = 8180 bytes runs past
it over the live block `u`, whose first byte becomes 0. -/
theorem realloc_overflow_clobbers_live_block :
    (Transition.run m_step sys₀ calls₀).map (fun w =>
        (w.live, (block_size 4108 w.heap).1.toOption, w.heap.mem 16396)) =
      some ([16396, 4108], some 8180, 1) ∧
    (Transition.run m_step sys₀ (calls₀ ++ [.realloc (some 4108) 0xFFFFFFFF])).map (fun w =>
        (w.live, (block_size 12300 w.heap).1.toOption, w.heap.mem 16396)) =
      some ([12300, 16396], some 4084, 0) := by
  decide +kernel

/-- `malloc (0xffffffff)` returns a block of 4084 bytes, and `calloc (65537, 65537)`,
whose product 4295098369 exceeds `SIZE_MAX`, is not refused: the 32-bit product 131073
passes the check `size < a || size < b`, and a block of 135156 bytes comes back. -/
theorem malloc_calloc_wrap :
    (Transition.run m_step sys₀ [.malloc 0xFFFFFFFF]).map (fun w =>
        (w.live, (block_size 4108 w.heap).1.toOption)) = some ([4108], some 4084) ∧
    2 ^ 32 ≤ 65537 * 65537 ∧
    (Transition.run m_step ⟨boot ⟨4096, List.replicate 64 false⟩ fun _ => 0, []⟩
        [.calloc 65537 65537]).map (fun w =>
        (w.live, (block_size 4108 w.heap).1.toOption)) = some ([4108], some 135156) := by
  decide +kernel

end Pintos.Malloc
