import Mathlib
import Pintos.Filesys.Filesys
import Pintos.ByteMap

/-!
# Reading and writing an inode's data

`inode_read_at` and `inode_write_at` of `filesys/inode.c` over `fs_device`, taken to be
an array of sectors of `BLOCK_SECTOR_SIZE` bytes that `block_read` and `block_write` read
and overwrite whole. Both loops move the data one sector at a time: a whole sector
directly between the disk and the caller's buffer, a part of one through a bounce buffer,
and the write reads the sector in first when the part leaves some of it. An `off_t` is an
`Int`: with a size, an offset and a length that are not negative no sum in the loops
leaves the range of an `off_t`.

With the bounce buffer to hand and data that lie in sectors that a `block_sector_t` can
name, both loops move `max 0 (min size (L - offset))` bytes (`read_loop_spec`,
`write_loop_spec`): the read copies the data from `offset` on into the front of the buffer,
and the write changes exactly those data bytes (`write_data`), read-modify-writing the sector
a part of one lies in.

Not modelled: the semaphores of `inode_read_at` and `inode_write_at` (see
`ReadersWriters`); `malloc_ok` says whether the `malloc` of the bounce buffer succeeds.
-/

namespace Pintos.Filesys

open ByteMap

/-- `block_read (fs_device, sector, buffer + ofs)`. -/
def block_read (disk : Nat → Nat → UInt8) (sector : Nat) (buffer : Nat → UInt8) (ofs : Nat) :
    Nat → UInt8 :=
  copy buffer ofs (disk sector) 0 BLOCK_SECTOR_SIZE

/-- `block_write (fs_device, sector, buffer + ofs)`. -/
def block_write (disk : Nat → Nat → UInt8) (sector : Nat) (buffer : Nat → UInt8) (ofs : Nat) :
    Nat → Nat → UInt8 :=
  Function.update disk sector (copy (disk sector) 0 buffer ofs BLOCK_SECTOR_SIZE)

/-- `byte_to_sector (inode, pos)`: sector `start + pos / BLOCK_SECTOR_SIZE` as a
`block_sector_t`, and `-1` from the end of the data on. -/
def byte_to_sector (inode : Inode) (pos : Int) : Nat :=
  if pos < inode.data.length then
    (((inode.data.start : Int) + pos.tdiv BLOCK_SECTOR_SIZE) % 2 ^ 32).toNat
  else 2 ^ 32 - 1

/-- The bytes of a new bounce buffer: they are read only after `block_read` or `memset`
has written them. -/
def fresh_bounce : Nat → UInt8 := fun _ => 0

/-- `chunk_size` in the loops of `inode_read_at` and `inode_write_at`: the least of the
bytes left to move, left in the inode and left in the sector. -/
def chunk_size (inode : Inode) (size offset : Int) : Int :=
  let sector_ofs := offset.tmod BLOCK_SECTOR_SIZE
  let inode_left := (inode.data.length : Int) - offset
  let sector_left := (BLOCK_SECTOR_SIZE : Int) - sector_ofs
  let min_left := if inode_left < sector_left then inode_left else sector_left
  if size < min_left then size else min_left

/-- The `while` loop of `inode_read_at`: `size` bytes left to read from `offset`, with
`bytes_read` of them in `buffer`, and the bounce buffer (`none` before its `malloc`). -/
def read_loop (disk : Nat → Nat → UInt8) (inode : Inode) (malloc_ok : Bool)
    (size offset bytes_read : Int) (bounce : Option (Nat → UInt8)) (buffer : Nat → UInt8) :
    Int × (Nat → UInt8) :=
  if 0 < size then
    let sector_idx := byte_to_sector inode offset
    let sector_ofs := offset.tmod BLOCK_SECTOR_SIZE
    let chunk := chunk_size inode size offset
    if chunk ≤ 0 then (bytes_read, buffer)
    else if sector_ofs = 0 ∧ chunk = BLOCK_SECTOR_SIZE then
      -- a whole sector, read straight into the caller's buffer
      read_loop disk inode malloc_ok (size - chunk) (offset + chunk) (bytes_read + chunk) bounce
        (block_read disk sector_idx buffer bytes_read.toNat)
    else
      match bounce, malloc_ok with
      | none, false => (bytes_read, buffer)
      | bounce, _ =>
        let b := block_read disk sector_idx (bounce.getD fresh_bounce) 0
        read_loop disk inode malloc_ok (size - chunk) (offset + chunk) (bytes_read + chunk)
          (some b) (copy buffer bytes_read.toNat b sector_ofs.toNat chunk.toNat)
  else (bytes_read, buffer)
termination_by size.toNat
decreasing_by all_goals omega

/-- The `while` loop of `inode_write_at`: `size` bytes of `buffer` left to write at
`offset`, with `bytes_written` of them written to `disk`. -/
def write_loop (inode : Inode) (malloc_ok : Bool) (buffer : Nat → UInt8)
    (size offset bytes_written : Int) (bounce : Option (Nat → UInt8))
    (disk : Nat → Nat → UInt8) : Int × (Nat → Nat → UInt8) :=
  if 0 < size then
    let sector_idx := byte_to_sector inode offset
    let sector_ofs := offset.tmod BLOCK_SECTOR_SIZE
    let sector_left := (BLOCK_SECTOR_SIZE : Int) - sector_ofs
    let chunk := chunk_size inode size offset
    if chunk ≤ 0 then (bytes_written, disk)
    else if sector_ofs = 0 ∧ chunk = BLOCK_SECTOR_SIZE then
      -- a whole sector, written straight from the caller's buffer
      write_loop inode malloc_ok buffer (size - chunk) (offset + chunk) (bytes_written + chunk)
        bounce (block_write disk sector_idx buffer bytes_written.toNat)
    else
      match bounce, malloc_ok with
      | none, false => (bytes_written, disk)
      | bounce, _ =>
        -- the sector read in when the chunk leaves some of it, and zeros otherwise
        let b := if 0 < sector_ofs ∨ chunk < sector_left then
            block_read disk sector_idx (bounce.getD fresh_bounce) 0
          else copy (bounce.getD fresh_bounce) 0 (fun _ => 0) 0 BLOCK_SECTOR_SIZE
        let b := copy b sector_ofs.toNat buffer bytes_written.toNat chunk.toNat
        write_loop inode malloc_ok buffer (size - chunk) (offset + chunk) (bytes_written + chunk)
          (some b) (block_write disk sector_idx b 0)
  else (bytes_written, disk)
termination_by size.toNat
decreasing_by all_goals omega

/-- `inode_read_at (inode, buffer, size, offset)`: the bytes read, and the buffer. -/
def inode_read_at (disk : Nat → Nat → UInt8) (inode : Inode) (malloc_ok : Bool)
    (buffer : Nat → UInt8) (size offset : Int) : Int × (Nat → UInt8) :=
  read_loop disk inode malloc_ok size offset 0 none buffer

/-- `inode_write_at (inode, buffer, size, offset)`: the bytes written, and the disk. -/
def inode_write_at (disk : Nat → Nat → UInt8) (inode : Inode) (malloc_ok : Bool)
    (buffer : Nat → UInt8) (size offset : Int) : Int × (Nat → Nat → UInt8) :=
  write_loop inode malloc_ok buffer size offset 0 none disk

/-- The byte at `pos` of the inode's data: in sector `start + pos / BLOCK_SECTOR_SIZE`. -/
def data_byte (disk : Nat → Nat → UInt8) (inode : Inode) (pos : Nat) : UInt8 :=
  disk (inode.data.start + pos / BLOCK_SECTOR_SIZE) (pos % BLOCK_SECTOR_SIZE)

section Chunks

variable {disk : Nat → Nat → UInt8} {inode : Inode} {size offset : Int}

theorem chunk_size_le (inode : Inode) (size offset : Int) : chunk_size inode size offset ≤ size := by
  unfold chunk_size
  dsimp only
  split_ifs <;> omega

theorem tmod_sector (hoff : 0 ≤ offset) : offset.tmod BLOCK_SECTOR_SIZE = offset % 512 :=
  Int.tmod_eq_emod_of_nonneg hoff

theorem chunk_size_eq (hoff : 0 ≤ offset) :
    chunk_size inode size offset =
      min size (min (inode.data.length - offset) (512 - offset % 512)) := by
  unfold chunk_size
  rw [tmod_sector hoff]
  simp only [BLOCK_SECTOR_SIZE]
  split_ifs <;> omega

/-- Inside the data, `byte_to_sector` does not wrap when the data's sectors are numbers of
sectors. -/
theorem byte_to_sector_eq (hd : inode.data.start + bytes_to_sectors inode.data.length ≤ 2 ^ 32)
    (hoff : 0 ≤ offset) (hlt : offset < inode.data.length) :
    byte_to_sector inode offset = inode.data.start + offset.toNat / 512 := by
  rw [byte_to_sector, if_pos hlt, Int.tdiv_eq_ediv_of_nonneg hoff]
  simp only [bytes_to_sectors, BLOCK_SECTOR_SIZE] at hd ⊢
  omega

theorem block_read_apply {sector k : Nat} {buffer : Nat → UInt8} (hk : k < 512) :
    block_read disk sector buffer 0 k = disk sector k := by
  rw [block_read, copy_apply_of_mem (Nat.zero_le k) (by simpa [BLOCK_SECTOR_SIZE] using hk)]
  simp

/-- `n` bytes of the sector of `offset`, from the place of `offset` in it on, are the data
from `offset` on. -/
theorem copy_sector (hd : inode.data.start + bytes_to_sectors inode.data.length ≤ 2 ^ 32)
    (hoff : 0 ≤ offset) (hlt : offset < inode.data.length) {n : Nat}
    (hn : (offset % 512).toNat + n ≤ 512) (buffer : Nat → UInt8) (b : Nat) :
    copy buffer b (disk (byte_to_sector inode offset)) (offset % 512).toNat n =
      copy buffer b (data_byte disk inode) offset.toNat n := by
  refine copy_congr fun j hj => ?_
  rw [data_byte, byte_to_sector_eq hd hoff hlt]
  simp only [BLOCK_SECTOR_SIZE]
  congr 1 <;> omega

/-- The arithmetic of one turn of either loop: a chunk `c` moved at `offset`, after `done`
bytes, leaves the rest of the `max 0 (min size (L - offset))` bytes to move. -/
theorem chunk_advance {L size offset done c : Int} (hoff : 0 ≤ offset) (hdone : 0 ≤ done)
    (hc : 0 < c) (hcs : c ≤ size) (hcl : c ≤ L - offset) :
    (done + c).toNat = done.toNat + c.toNat ∧ (offset + c).toNat = offset.toNat + c.toNat ∧
      c.toNat + (max 0 (min (size - c) (L - (offset + c)))).toNat =
        (max 0 (min size (L - offset))).toNat ∧
      done + c + max 0 (min (size - c) (L - (offset + c))) =
        done + max 0 (min size (L - offset)) := by
  omega

end Chunks

section Read

variable {disk : Nat → Nat → UInt8} {inode : Inode}

/-- Whatever the offset and the `malloc`, the loop reads at most `size` bytes. -/
theorem read_loop_fst_mem (malloc_ok : Bool) (size offset bytes_read : Int)
    (bounce : Option (Nat → UInt8)) (buffer : Nat → UInt8) :
    bytes_read ≤ (read_loop disk inode malloc_ok size offset bytes_read bounce buffer).1 ∧
      (read_loop disk inode malloc_ok size offset bytes_read bounce buffer).1 ≤
        bytes_read + max 0 size := by
  induction size, offset, bytes_read, bounce, buffer using read_loop.induct disk inode malloc_ok with
  | case1 size offset bytes_read bounce buffer hpos chunk hchunk =>
    simp only [chunk] at hchunk
    rw [read_loop, if_pos hpos]
    dsimp only
    rw [if_pos hchunk]
    omega
  | case2 size offset bytes_read bounce buffer hpos sector_idx sector_ofs chunk hchunk hfull ih =>
    simp only [sector_idx, sector_ofs, chunk] at hchunk hfull ih
    rw [read_loop, if_pos hpos]
    dsimp only
    rw [if_neg hchunk, if_pos hfull]
    have hle := chunk_size_le inode size offset
    omega
  | case3 size offset bytes_read buffer hpos sector_ofs chunk hchunk hfull hmalloc =>
    simp only [sector_ofs, chunk] at hchunk hfull
    rw [read_loop, if_pos hpos]
    dsimp only
    rw [if_neg hchunk, if_neg hfull, hmalloc]
    dsimp only
    omega
  | case4 size offset bytes_read buffer hpos sector_idx sector_ofs chunk hchunk hfull bounce b
      hmalloc ih =>
    simp only [sector_idx, sector_ofs, chunk, b] at hchunk hfull ih
    rw [read_loop, if_pos hpos]
    dsimp only
    rw [if_neg hchunk, if_neg hfull]
    have hle := chunk_size_le inode size offset
    split
    case h_1 => contradiction
    case h_2 => omega
  | case5 size offset bytes_read bounce buffer hpos =>
    rw [read_loop, if_neg hpos]
    omega

/-- One chunk read into the buffer after `bytes_read`, then the rest: the data from
`offset` on, in one copy. -/
theorem read_chunk_then {size offset bytes_read c : Int} (buffer : Nat → UInt8)
    (hoff : 0 ≤ offset) (hbr : 0 ≤ bytes_read) (hc : 0 < c) (hcs : c ≤ size)
    (hcl : c ≤ inode.data.length - offset) :
    (bytes_read + c + max 0 (min (size - c) (inode.data.length - (offset + c))),
      copy (copy buffer bytes_read.toNat (data_byte disk inode) offset.toNat c.toNat)
        (bytes_read + c).toNat (data_byte disk inode) (offset + c).toNat
        (max 0 (min (size - c) (inode.data.length - (offset + c)))).toNat) =
    (bytes_read + max 0 (min size (inode.data.length - offset)),
      copy buffer bytes_read.toNat (data_byte disk inode) offset.toNat
        (max 0 (min size (inode.data.length - offset))).toNat) := by
  obtain ⟨hbr', hoff', hm, hsum⟩ := chunk_advance hoff hbr hc hcs hcl
  rw [hbr', hoff', copy_append, hm, hsum]

theorem read_loop_spec (hd : inode.data.start + bytes_to_sectors inode.data.length ≤ 2 ^ 32)
    {size offset bytes_read : Int} (hsize : 0 ≤ size) (hoff : 0 ≤ offset) (hbr : 0 ≤ bytes_read)
    (bounce : Option (Nat → UInt8)) (buffer : Nat → UInt8) :
    read_loop disk inode true size offset bytes_read bounce buffer =
      (bytes_read + max 0 (min size (inode.data.length - offset)),
        copy buffer bytes_read.toNat (data_byte disk inode) offset.toNat
          (max 0 (min size (inode.data.length - offset))).toNat) := by
  induction size, offset, bytes_read, bounce, buffer using read_loop.induct disk inode true with
  | case1 size offset bytes_read bounce buffer hpos chunk hchunk =>
    simp only [chunk] at hchunk
    -- nothing left in the inode
    rw [read_loop, if_pos hpos]
    dsimp only
    rw [if_pos hchunk]
    rw [chunk_size_eq hoff] at hchunk
    have hm : max 0 (min size (inode.data.length - offset)) = 0 := by omega
    rw [hm, Int.add_zero, Int.toNat_zero, copy_zero]
  | case2 size offset bytes_read bounce buffer hpos sector_idx sector_ofs chunk hchunk hfull ih =>
    simp only [sector_idx, sector_ofs, chunk] at hchunk hfull ih
    -- a whole sector
    rw [read_loop, if_pos hpos]
    dsimp only
    rw [if_neg hchunk, if_pos hfull]
    have hc : chunk_size inode size offset =
        min size (min (inode.data.length - offset) (512 - offset % 512)) := chunk_size_eq hoff
    rw [tmod_sector hoff] at hfull
    rw [ih (by omega) (by omega) (by omega), block_read]
    have hzero : (0 : Nat) = (offset % 512).toNat := by omega
    have h512 : BLOCK_SECTOR_SIZE = (chunk_size inode size offset).toNat := by
      simp only [BLOCK_SECTOR_SIZE] at hfull ⊢
      omega
    rw [hzero, h512, copy_sector hd hoff (by omega) (by omega)]
    exact read_chunk_then buffer hoff hbr (by omega) (by omega) (by omega)
  | case3 => contradiction
  | case4 size offset bytes_read buffer hpos sector_idx sector_ofs chunk hchunk hfull bounce b hmalloc ih =>
    simp only [sector_idx, sector_ofs, chunk, b] at hchunk hfull ih
    -- part of a sector, through the bounce buffer
    rw [read_loop, if_pos hpos]
    dsimp only
    rw [if_neg hchunk, if_neg hfull]
    have hc : chunk_size inode size offset =
        min size (min (inode.data.length - offset) (512 - offset % 512)) := chunk_size_eq hoff
    split
    case h_1 => contradiction
    case h_2 =>
      rw [ih (by omega) (by omega) (by omega), tmod_sector hoff]
      -- the bounce buffer holds the sector, of which the chunk is copied
      have hcopy : ∀ bnc, copy buffer bytes_read.toNat
          (block_read disk (byte_to_sector inode offset) bnc 0)
          (offset % 512).toNat (chunk_size inode size offset).toNat =
          copy buffer bytes_read.toNat (data_byte disk inode) offset.toNat
            (chunk_size inode size offset).toNat := fun bnc => by
        rw [← copy_sector hd hoff (by omega) (by omega)]
        exact copy_congr fun j hj => block_read_apply (by omega)
      rw [hcopy]
      exact read_chunk_then buffer hoff hbr (by omega) (by omega) (by omega)
  | case5 size offset bytes_read bounce buffer hpos =>
    rw [read_loop, if_neg hpos]
    have hm : max 0 (min size (inode.data.length - offset)) = 0 := by omega
    rw [hm, Int.add_zero, Int.toNat_zero, copy_zero]

end Read

section Write

variable {disk : Nat → Nat → UInt8} {inode : Inode}

/-- The disk with `n` bytes of `buffer`, from `b` on, written into the inode's data at
`offset`: byte `k` of sector `s` is the data byte `(s - start) * BLOCK_SECTOR_SIZE + k`. -/
def write_data (disk : Nat → Nat → UInt8) (inode : Inode) (offset : Nat)
    (buffer : Nat → UInt8) (b n : Nat) : Nat → Nat → UInt8 := fun s k =>
  let pos := (s - inode.data.start) * BLOCK_SECTOR_SIZE + k
  if inode.data.start ≤ s ∧ k < BLOCK_SECTOR_SIZE ∧ offset ≤ pos ∧ pos < offset + n then
    buffer (b + (pos - offset))
  else disk s k

@[simp] theorem write_data_zero (offset : Nat) (buffer : Nat → UInt8) (b : Nat) :
    write_data disk inode offset buffer b 0 = disk := by
  funext s k
  simp only [write_data]
  rw [if_neg (by omega)]

/-- Writing `m` bytes and then the `n` after them is writing `m + n` bytes. -/
theorem write_data_append (offset : Nat) (buffer : Nat → UInt8) (b m n : Nat) :
    write_data (write_data disk inode offset buffer b m) inode (offset + m) buffer (b + m) n =
      write_data disk inode offset buffer b (m + n) := by
  funext s k
  simp only [write_data]
  split_ifs <;> first | omega | (congr 1; omega) | rfl

/-- The data bytes after a write: the buffer's in the range written, the old ones elsewhere. -/
theorem data_byte_write_data (offset : Nat) (buffer : Nat → UInt8) (b n pos : Nat) :
    data_byte (write_data disk inode offset buffer b n) inode pos =
      if offset ≤ pos ∧ pos < offset + n then buffer (b + (pos - offset))
      else data_byte disk inode pos := by
  have hpos : (inode.data.start + pos / 512 - inode.data.start) * 512 + pos % 512 = pos := by
    omega
  simp only [data_byte, write_data, BLOCK_SECTOR_SIZE, hpos]
  split_ifs <;> first | rfl | omega

/-- A write inside the data leaves the sectors outside them as they were. -/
theorem write_data_of_not_mem {offset : Nat} (buffer : Nat → UInt8) (b : Nat) {n s : Nat}
    (hn : n = 0 ∨ offset + n ≤ inode.data.length)
    (hs : s < inode.data.start ∨ inode.data.start + bytes_to_sectors inode.data.length ≤ s) :
    write_data disk inode offset buffer b n s = disk s := by
  funext k
  simp only [write_data]
  rw [if_neg]
  simp only [bytes_to_sectors, BLOCK_SECTOR_SIZE] at hs ⊢
  omega

theorem block_write_apply (sector : Nat) (buffer : Nat → UInt8) (ofs s k : Nat) :
    block_write disk sector buffer ofs s k =
      if s = sector ∧ k < BLOCK_SECTOR_SIZE then buffer (ofs + k) else disk s k := by
  rw [block_write, Function.update_apply]
  by_cases hs : s = sector
  · subst hs
    by_cases hk : k < BLOCK_SECTOR_SIZE
    · rw [if_pos rfl, copy_apply_of_mem (Nat.zero_le k) (by omega), if_pos ⟨rfl, hk⟩]
      simp
    · rw [if_pos rfl, copy_apply_of_not_mem (by omega), if_neg (by omega)]
  · rw [if_neg hs, if_neg (by omega)]

/-- Writing the sector of `offset` from a buffer `Y` that holds, from `ofs` on, the sector
with `n` bytes of `buffer` in place of those from `offset` on, writes those bytes into the
data. -/
theorem block_write_sector (hd : inode.data.start + bytes_to_sectors inode.data.length ≤ 2 ^ 32)
    {offset : Int} (hoff : 0 ≤ offset) (hlt : offset < inode.data.length) {n : Nat}
    (hn : (offset % 512).toNat + n ≤ 512) (buffer : Nat → UInt8) (b : Nat)
    {Y : Nat → UInt8} {ofs : Nat}
    (hY : ∀ k, k < 512 → Y (ofs + k) =
      if (offset % 512).toNat ≤ k ∧ k < (offset % 512).toNat + n then
        buffer (b + (k - (offset % 512).toNat))
      else disk (byte_to_sector inode offset) k) :
    block_write disk (byte_to_sector inode offset) Y ofs =
      write_data disk inode offset.toNat buffer b n := by
  funext s k
  rw [block_write_apply, byte_to_sector_eq hd hoff hlt]
  simp only [write_data]
  split_ifs with hsk hw hw <;> simp only [BLOCK_SECTOR_SIZE] at hsk hw ⊢
  · -- a byte of the range written: the data byte at `k` in its sector is `offset / 512 * 512 + k`
    rw [hY k hsk.2, if_pos (by omega)]
    congr 1
    omega
  · -- a byte of the sector of `offset` outside the range
    rw [hY k hsk.2, if_neg (by omega), byte_to_sector_eq hd hoff hlt, hsk.1]
  · -- the range written lies in the one sector
    omega

/-- One chunk written at `offset`, then the rest: the bytes from `offset` on, in one write. -/
theorem write_chunk_then {size offset bytes_written c : Int} (buffer : Nat → UInt8)
    (hoff : 0 ≤ offset) (hbw : 0 ≤ bytes_written) (hc : 0 < c) (hcs : c ≤ size)
    (hcl : c ≤ inode.data.length - offset) :
    (bytes_written + c + max 0 (min (size - c) (inode.data.length - (offset + c))),
      write_data (write_data disk inode offset.toNat buffer bytes_written.toNat c.toNat) inode
        (offset + c).toNat buffer (bytes_written + c).toNat
        (max 0 (min (size - c) (inode.data.length - (offset + c)))).toNat) =
    (bytes_written + max 0 (min size (inode.data.length - offset)),
      write_data disk inode offset.toNat buffer bytes_written.toNat
        (max 0 (min size (inode.data.length - offset))).toNat) := by
  obtain ⟨hbw', hoff', hm, hsum⟩ := chunk_advance hoff hbw hc hcs hcl
  rw [hbw', hoff', write_data_append, hm, hsum]

theorem write_loop_spec (hd : inode.data.start + bytes_to_sectors inode.data.length ≤ 2 ^ 32)
    (buffer : Nat → UInt8) {size offset bytes_written : Int} (hsize : 0 ≤ size)
    (hoff : 0 ≤ offset) (hbw : 0 ≤ bytes_written) (bounce : Option (Nat → UInt8))
    (disk : Nat → Nat → UInt8) :
    write_loop inode true buffer size offset bytes_written bounce disk =
      (bytes_written + max 0 (min size (inode.data.length - offset)),
        write_data disk inode offset.toNat buffer bytes_written.toNat
          (max 0 (min size (inode.data.length - offset))).toNat) := by
  induction size, offset, bytes_written, bounce, disk using write_loop.induct inode true buffer with
  | case1 size offset bytes_written bounce disk hpos chunk hchunk =>
    simp only [chunk] at hchunk
    -- nothing left in the inode
    rw [write_loop, if_pos hpos]
    dsimp only
    rw [if_pos hchunk]
    rw [chunk_size_eq hoff] at hchunk
    have hm : max 0 (min size (inode.data.length - offset)) = 0 := by omega
    rw [hm, Int.add_zero, Int.toNat_zero, write_data_zero]
  | case2 size offset bytes_written bounce disk hpos sector_idx sector_ofs chunk hchunk hfull ih =>
    simp only [sector_idx, sector_ofs, chunk] at hchunk hfull ih
    -- a whole sector, from the caller's buffer
    rw [write_loop, if_pos hpos]
    dsimp only
    rw [if_neg hchunk, if_pos hfull]
    have hc : chunk_size inode size offset =
        min size (min (inode.data.length - offset) (512 - offset % 512)) := chunk_size_eq hoff
    rw [tmod_sector hoff] at hfull
    simp only [BLOCK_SECTOR_SIZE] at hfull
    have hblock : block_write disk (byte_to_sector inode offset) buffer bytes_written.toNat =
        write_data disk inode offset.toNat buffer bytes_written.toNat
          (chunk_size inode size offset).toNat :=
      block_write_sector hd hoff (by omega) (by omega) buffer _ fun k hk => by
        rw [if_pos (by omega)]
        congr 1
        omega
    rw [ih (by omega) (by omega) (by omega), hblock]
    exact write_chunk_then buffer hoff hbw (by omega) (by omega) (by omega)
  | case3 => contradiction
  | case4 size offset bytes_written disk hpos sector_idx sector_ofs sector_left chunk hchunk hfull
      bounce b b' hmalloc ih =>
    simp only [sector_idx, sector_ofs, sector_left, chunk, b, b'] at hchunk hfull ih
    -- part of a sector, through the bounce buffer
    rw [write_loop, if_pos hpos]
    dsimp only
    rw [if_neg hchunk, if_neg hfull]
    have hc : chunk_size inode size offset =
        min size (min (inode.data.length - offset) (512 - offset % 512)) := chunk_size_eq hoff
    split
    case h_1 => contradiction
    case h_2 =>
      -- the sector is read in first, as the chunk leaves some of it
      have hcond : 0 < offset.tmod BLOCK_SECTOR_SIZE ∨
          chunk_size inode size offset < BLOCK_SECTOR_SIZE - offset.tmod BLOCK_SECTOR_SIZE := by
        rw [tmod_sector hoff] at hfull ⊢
        simp only [BLOCK_SECTOR_SIZE] at hfull ⊢
        omega
      rw [dif_pos hcond] at ih
      rw [if_pos hcond, ih (by omega) (by omega) (by omega), tmod_sector hoff]
      have hblock : ∀ bnc, block_write disk (byte_to_sector inode offset)
          (copy (block_read disk (byte_to_sector inode offset) bnc 0) (offset % 512).toNat
            buffer bytes_written.toNat (chunk_size inode size offset).toNat) 0 =
          write_data disk inode offset.toNat buffer bytes_written.toNat
            (chunk_size inode size offset).toNat := fun bnc =>
        block_write_sector hd hoff (by omega) (by omega) buffer _ fun k hk => by
          rw [Nat.zero_add]
          by_cases hin : (offset % 512).toNat ≤ k ∧
              k < (offset % 512).toNat + (chunk_size inode size offset).toNat
          · rw [copy_apply_of_mem hin.1 hin.2, if_pos hin]
          · rw [copy_apply_of_not_mem hin, if_neg hin, block_read_apply hk]
      rw [hblock]
      exact write_chunk_then buffer hoff hbw (by omega) (by omega) (by omega)
  | case5 size offset bytes_written bounce disk hpos =>
    rw [write_loop, if_neg hpos]
    have hm : max 0 (min size (inode.data.length - offset)) = 0 := by omega
    rw [hm, Int.add_zero, Int.toNat_zero, write_data_zero]

end Write

/-- With the bounce buffer to hand, `inode_write_at` writes `max 0 (min size (L - offset))`
bytes of the buffer into the data at `offset` and touches no sector outside the data, and
`inode_read_at` reads as many bytes of the data from `offset` on into the front of the
buffer. -/
theorem inode_write_at_read_at (disk : Nat → Nat → UInt8) (inode : Inode)
    (hd : inode.data.start + bytes_to_sectors inode.data.length ≤ 2 ^ 32)
    (buffer : Nat → UInt8) (size offset : Int) (hsize : 0 ≤ size) (hoff : 0 ≤ offset) :
    let n := max 0 (min size (inode.data.length - offset))
    let write := inode_write_at disk inode true buffer size offset
    let read := inode_read_at disk inode true buffer size offset
    write.1 = n ∧
      (∀ pos, data_byte write.2 inode pos =
        if offset.toNat ≤ pos ∧ pos < offset.toNat + n.toNat then buffer (pos - offset.toNat)
        else data_byte disk inode pos) ∧
      (∀ s, s < inode.data.start ∨ inode.data.start + bytes_to_sectors inode.data.length ≤ s →
        write.2 s = disk s) ∧
      read.1 = n ∧
      ∀ i, read.2 i = if i < n.toNat then data_byte disk inode (offset.toNat + i) else buffer i := by
  intro n write read
  have hw : write = (n, write_data disk inode offset.toNat buffer 0 n.toNat) := by
    have hloop := write_loop_spec hd buffer hsize hoff (Int.le_refl 0) none disk
    rwa [Int.zero_add, Int.toNat_zero] at hloop
  have hr : read = (n, copy buffer 0 (data_byte disk inode) offset.toNat n.toNat) := by
    have hloop : read_loop disk inode true size offset 0 none buffer = _ :=
      read_loop_spec hd hsize hoff (Int.le_refl 0) none buffer
    rwa [Int.zero_add, Int.toNat_zero] at hloop
  refine ⟨by rw [hw], fun pos => ?_, fun s hs => ?_, by rw [hr], fun i => ?_⟩
  · rw [hw, data_byte_write_data, Nat.zero_add]
  · rw [hw]
    exact write_data_of_not_mem buffer 0 (by omega) hs
  · rw [hr]
    simp [copy]

theorem inode_write_at_read_at_mid_sector :
    5 + bytes_to_sectors 700 ≤ 2 ^ 32 ∧ (0 : Int) ≤ 600 ∧ (0 : Int) ≤ 300 ∧
      let inode : Inode := ⟨1, 1, false, ⟨5, 700⟩⟩
      let disk : Nat → Nat → UInt8 := fun _ _ => 0
      let buffer : Nat → UInt8 := fun i => i.toUInt8
      let n := max 0 (min 600 ((700 : Nat) - 300 : Int))
      let write := inode_write_at disk inode true buffer 600 300
      let read := inode_read_at disk inode true buffer 600 300
      write.1 = n ∧
        (∀ pos, data_byte write.2 inode pos =
          if (300 : Int).toNat ≤ pos ∧ pos < (300 : Int).toNat + n.toNat then
            buffer (pos - (300 : Int).toNat)
          else data_byte disk inode pos) ∧
        (∀ s, s < 5 ∨ 5 + bytes_to_sectors 700 ≤ s → write.2 s = disk s) ∧
        read.1 = n ∧
        ∀ i, read.2 i =
          if i < n.toNat then data_byte disk inode ((300 : Int).toNat + i) else buffer i :=
  ⟨by decide, by decide, by decide,
    inode_write_at_read_at (fun _ _ => 0) ⟨1, 1, false, ⟨5, 700⟩⟩ (by decide) (fun i => i.toUInt8)
      600 300 (by decide) (by decide)⟩

end Pintos.Filesys
