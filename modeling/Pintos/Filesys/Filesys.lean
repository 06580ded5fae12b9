import Mathlib.Data.List.Basic
import Mathlib.Logic.Function.Basic
import Pintos.StateExcept
import Pintos.Lib.Bitmap

/-!
# The file system

`filesys/filesys.c`, `directory.c`, `inode.c`, `free-map.c` and `file.c`, run by
one thread `t` on the state the threads share: the free map, the inode headers on
disk, the entries of the root directory, the list of open inodes, the holders of
the three global locks, and the outcomes of the next memory allocations.

A `struct inode *` is the sector of its header, since `inode_open` keeps one
inode per sector; a `struct file *` is the sector of its inode, and a
`struct dir *` of the root is `true`. `lock_acquire` of a lock the thread
already holds fails its assertion; of a lock another thread holds, it puts the
thread to sleep, which stops the run with `blocked`.

Not modelled: file contents and positions, the semaphores of an inode (see
`ReadersWriters`), and the bounce buffers of `inode_read_at` and
`inode_write_at`, whose allocations are taken to succeed, so that directory
reads and writes and the free map's `bitmap_write` succeed.
-/

namespace Pintos.Filesys

open StateExcept SE Pintos.Lib

inductive LockId
  | dir_lock
  | filesys_lock
  | free_map_lock
  deriving DecidableEq, Repr

/-- `struct inode_disk`, without its magic number. -/
structure InodeDisk where
  start : Nat
  length : Nat
  deriving DecidableEq, Repr

/-- An open `struct inode`. -/
structure Inode where
  sector : Nat
  open_cnt : Nat
  removed : Bool
  data : InodeDisk
  deriving DecidableEq, Repr

/-- `struct dir_entry`. -/
structure DirEntry where
  inode_sector : Nat
  name : List UInt8
  in_use : Bool
  deriving DecidableEq, Repr

structure FsState where
  /-- One bit per sector, set when the sector is in use. -/
  free_map : List Bool
  /-- The `inode_disk` in each sector (zeros where none was written). -/
  disk : Nat → InodeDisk
  /-- The entries of the root directory's file. -/
  root : List DirEntry
  open_inodes : List Inode
  holder : LockId → Option Nat
  /-- The outcomes of the next `malloc`s and `calloc`s; those after succeed. -/
  alloc : List Bool

inductive FsStop
  | blocked (l : LockId)
  | panic
  deriving DecidableEq, Repr

/-- File-system code run by one thread. -/
abbrev FsM (α : Type) := SE FsState FsStop α

def NAME_MAX : Nat := 14

def FREE_MAP_SECTOR : Nat := 0

def ROOT_DIR_SECTOR : Nat := 1

def BLOCK_SECTOR_SIZE : Nat := 512

/-- `sizeof (struct dir_entry)`: a sector number, `NAME_MAX + 1` characters and
`in_use`. -/
def DIR_ENTRY_SIZE : Nat := 20

/-- `bytes_to_sectors (size)`, that is `DIV_ROUND_UP (size, BLOCK_SECTOR_SIZE)`. -/
def bytes_to_sectors (size : Nat) : Nat := (size + BLOCK_SECTOR_SIZE - 1) / BLOCK_SECTOR_SIZE

/-- `lookup (dir, name, ...)`: the first entry in use with the name, and its slot. -/
def lookup : List DirEntry → List UInt8 → Option (DirEntry × Nat)
  | [], _ => none
  | e :: es, name =>
    if e.in_use ∧ e.name = name then some (e, 0) else (lookup es name).map fun r => (r.1, r.2 + 1)

/-- The slot `dir_add`'s loop stops at: the first entry not in use, and `none`
for the end of the file. -/
def free_slot : List DirEntry → Option Nat
  | [] => none
  | e :: es => if e.in_use then (free_slot es).map (· + 1) else some 0

section Thread

variable (t : Nat)

/-! ## Locks and memory -/

def lock_acquire (l : LockId) : FsM Unit := do
  let s ← get
  match s.holder l with
  | some u => if u = t then throw .panic else throw (.blocked l)
  | none => modify fun s => { s with holder := Function.update s.holder l (some t) }

def lock_release (l : LockId) : FsM Unit := do
  let s ← get
  if s.holder l = some t then modify fun s => { s with holder := Function.update s.holder l none }
  else throw .panic

/-- One `malloc` or `calloc`: `true` when it returns memory. -/
def malloc : FsM Bool := do
  let s ← get
  match s.alloc with
  | [] => pure true
  | ok :: rest => do
    modify fun s => { s with alloc := rest }
    pure ok

/-! ## `free-map.c` -/

/-- `free_map_allocate (cnt, &sector)`, with the sector found. -/
def free_map_allocate (cnt : Nat) : FsM (Option Nat) := do
  lock_acquire t .free_map_lock
  let s ← get
  let r := bitmap_scan_and_flip s.free_map 0 cnt false
  modify fun s => { s with free_map := r.2 }
  lock_release t .free_map_lock
  pure r.1

def free_map_release (sector cnt : Nat) : FsM Unit := do
  lock_acquire t .free_map_lock
  let s ← get
  -- `ASSERT (bitmap_all (free_map, sector, cnt))`
  if bitmap_all s.free_map sector cnt then
    modify fun s => { s with free_map := bitmap_set_multiple s.free_map sector cnt false }
    lock_release t .free_map_lock
  else throw .panic

/-! ## `inode.c` -/

def inode_create (sector : Nat) (length : Int) : FsM Bool := do
  lock_acquire t .filesys_lock
  if length < 0 then throw .panic
  let ok ← malloc
  let success ← if ok then do
      match ← free_map_allocate t (bytes_to_sectors length.toNat) with
      | some start => do
        modify fun s => { s with disk := Function.update s.disk sector ⟨start, length.toNat⟩ }
        pure true
      | none => pure false
    else pure false
  lock_release t .filesys_lock
  pure success

def inode_open (sector : Nat) : FsM (Option Nat) := do
  lock_acquire t .filesys_lock
  let s ← get
  if (s.open_inodes.find? (·.sector == sector)).isSome then
    -- `inode_reopen`
    modify fun s => { s with open_inodes := s.open_inodes.map fun i =>
      if i.sector = sector then { i with open_cnt := i.open_cnt + 1 } else i }
    lock_release t .filesys_lock
    pure (some sector)
  else
    let ok ← malloc
    if ok then
      modify fun s => { s with open_inodes := ⟨sector, 1, false, s.disk sector⟩ :: s.open_inodes }
      lock_release t .filesys_lock
      pure (some sector)
    -- `return NULL` with `filesys_lock` still held
    else pure none

def inode_close : Option Nat → FsM Unit
  | none => pure ()
  | some sector => do
    lock_acquire t .filesys_lock
    let s ← get
    match s.open_inodes.find? (·.sector == sector) with
    | none => throw .panic
    | some i =>
      if i.open_cnt = 1 then
        modify fun s => { s with open_inodes := s.open_inodes.filter (·.sector != sector) }
        if i.removed then
          free_map_release t i.sector 1
          free_map_release t i.data.start (bytes_to_sectors i.data.length)
      else
        modify fun s => { s with open_inodes := s.open_inodes.map fun j =>
          if j.sector = sector then { j with open_cnt := j.open_cnt - 1 } else j }
      lock_release t .filesys_lock

/-- `inode_reopen (inode)`: one more opener, counted without taking `filesys_lock`. -/
def inode_reopen : Option Nat → FsM (Option Nat)
  | none => pure none
  | some sector => do
    modify fun s => { s with open_inodes := s.open_inodes.map fun i =>
      if i.sector = sector then { i with open_cnt := i.open_cnt + 1 } else i }
    pure (some sector)

def inode_remove (sector : Nat) : FsM Unit := do
  lock_acquire t .filesys_lock
  modify fun s => { s with open_inodes := s.open_inodes.map fun i =>
    if i.sector = sector then { i with removed := true } else i }
  lock_release t .filesys_lock

/-! ## `directory.c` and `file.c` -/

/-- `dir_open (inode)`: `true` for a directory. -/
def dir_open (inode : Option Nat) : FsM Bool := do
  let ok ← malloc
  if inode.isSome ∧ ok then pure true
  else do
    inode_close t inode
    pure false

def dir_open_root : FsM Bool := do
  let inode ← inode_open t ROOT_DIR_SECTOR
  dir_open t inode

/-- `dir_reopen (dir)` of the root directory: `dir_open (inode_reopen (dir->inode))`. -/
def dir_reopen : FsM Bool := do
  dir_open t (← inode_reopen (some ROOT_DIR_SECTOR))

def dir_close (dir : Bool) : FsM Unit :=
  if dir then inode_close t (some ROOT_DIR_SECTOR) else pure ()

def dir_lookup (name : List UInt8) : FsM (Option Nat) := do
  let s ← get
  match lookup s.root name with
  | some (e, _) => inode_open t e.inode_sector
  | none => pure none

def dir_add (name : List UInt8) (inode_sector : Nat) : FsM Bool := do
  lock_acquire t .dir_lock
  -- an empty or over-long name: `return false`, before `done` releases the lock
  if name = [] ∨ NAME_MAX < name.length then return false
  let s ← get
  let success ← if (lookup s.root name).isSome then pure false
    else match free_slot s.root with
      | some ofs => do
        modify fun s => { s with root := s.root.set ofs ⟨inode_sector, name, true⟩ }
        pure true
      | none => pure false
  lock_release t .dir_lock
  pure success

def dir_remove (name : List UInt8) : FsM Bool := do
  lock_acquire t .dir_lock
  let s ← get
  let r ← match lookup s.root name with
    | none => pure (false, none)
    | some (e, ofs) => do
      match ← inode_open t e.inode_sector with
      | none => pure (false, none)
      | some inode => do
        modify fun s => { s with root := s.root.set ofs { e with in_use := false } }
        inode_remove t inode
        pure (true, some inode)
  inode_close t r.2
  lock_release t .dir_lock
  pure r.1

def file_open (inode : Option Nat) : FsM (Option Nat) := do
  let ok ← malloc
  if inode.isSome ∧ ok then pure inode
  else do
    inode_close t inode
    pure none

/-- `file_reopen (file)`: `file_open (inode_reopen (file->inode))`. -/
def file_reopen (file : Nat) : FsM (Option Nat) := do
  file_open t (← inode_reopen (some file))

def file_close (file : Option Nat) : FsM Unit := inode_close t file

/-! ## `filesys.c` -/

def filesys_create (name : List UInt8) (initial_size : Int) : FsM Bool := do
  let dir ← dir_open_root t
  -- `dir != NULL && free_map_allocate (1, &inode_sector) && inode_create (...) && dir_add (...)`
  let r ← if dir then do
      match ← free_map_allocate t 1 with
      | none => pure (false, 0)
      | some inode_sector => do
        if ← inode_create t inode_sector initial_size then
          pure (← dir_add t name inode_sector, inode_sector)
        else pure (false, inode_sector)
    else pure (false, 0)
  if ¬ r.1 ∧ r.2 ≠ 0 then free_map_release t r.2 1
  dir_close t dir
  pure r.1

def filesys_open (name : List UInt8) : FsM (Option Nat) := do
  let dir ← dir_open_root t
  let inode ← if dir then dir_lookup t name else pure none
  dir_close t dir
  file_open t inode

def filesys_remove (name : List UInt8) : FsM Bool := do
  let dir ← dir_open_root t
  let success ← if dir then dir_remove t name else pure false
  dir_close t dir
  pure success

/-- The first half of `filesys_open`, up to the entry that `dir_lookup`'s
`lookup` reads: the root directory, and the sector the entry names. -/
def filesys_open_lookup (name : List UInt8) : FsM (Bool × Option Nat) := do
  let dir ← dir_open_root t
  if dir then
    let s ← get
    pure (dir, (lookup s.root name).map (·.1.inode_sector))
  else pure (dir, none)

/-- The rest of `filesys_open`: `dir_lookup`'s `inode_open` of the sector,
`dir_close` and `file_open`. -/
def filesys_open_finish (dir : Bool) (sector : Option Nat) : FsM (Option Nat) := do
  let inode ← match sector with
    | some sector => inode_open t sector
    | none => pure none
  dir_close t dir
  file_open t inode

/-- `filesys_open` is its two halves in sequence. -/
theorem filesys_open_split (name : List UInt8) :
    filesys_open t name = filesys_open_lookup t name >>= fun r => filesys_open_finish t r.1 r.2 := by
  funext s
  simp only [filesys_open, filesys_open_lookup, filesys_open_finish, dir_lookup, bind_apply]
  rcases dir_open_root t s with ⟨_ | ⟨_ | _⟩, s'⟩
  · rfl
  · rfl
  · simp only [if_true, bind_apply, get_apply, pure_apply]
    rcases lookup s'.root name with _ | ⟨e, ofs⟩
    · rfl
    · rfl

/-- `do_format` and then `free_map_open`, as `filesys_init (true)` runs them on a
disk of `sectors` sectors. -/
def filesys_format (sectors : Nat) : FsM Unit := do
  -- `free_map_create`
  unless ← inode_create t FREE_MAP_SECTOR (bitmap_file_size sectors) do throw .panic
  let free_map_file ← file_open t (← inode_open t FREE_MAP_SECTOR)
  if free_map_file.isNone then throw .panic
  -- `dir_create (ROOT_DIR_SECTOR, 16)`: sixteen entries not in use
  unless ← inode_create t ROOT_DIR_SECTOR (16 * DIR_ENTRY_SIZE) do throw .panic
  modify fun s => { s with root := List.replicate 16 ⟨0, [], false⟩ }
  -- `free_map_close`, then `free_map_open`
  file_close t free_map_file
  let free_map_file ← file_open t (← inode_open t FREE_MAP_SECTOR)
  if free_map_file.isNone then throw .panic

end Thread

/-- The state `free_map_init` leaves on a disk of `sectors` sectors: the free
map's and the root directory's header sectors marked, nothing else. -/
def fs_init (sectors : Nat) : FsState where
  free_map := bitmap_mark (bitmap_mark (List.replicate sectors false) FREE_MAP_SECTOR)
    ROOT_DIR_SECTOR
  disk := fun _ => ⟨0, 0⟩
  root := []
  open_inodes := []
  holder := fun _ => none
  alloc := []

/-- A formatted file system of `sectors` sectors, with the free map file open. -/
def formatted (sectors : Nat) : FsState := (filesys_format 0 sectors (fs_init sectors)).2

end Pintos.Filesys
