import Mathlib
import Pintos.Filesys.InodeIO

/-!
# Open files

`filesys/file.c`: a `struct file` is an inode and a position `pos`. `file_read` and
`file_write` move data at `pos` with `inode_read_at` and `inode_write_at` and advance
`pos` by the bytes they moved; `file_seek` sets `pos` and `file_tell` reports it. The
`struct file`s are found by their addresses (`Files.file`), and every read and write
goes to the one `fs_device` (`Files.disk`); two files may share an inode.

Each call keeps the length of every file and the position of every other file
(`file_length_file_read` and the lemmas beside it). With the bounce buffer to hand, a
read or a write at a position that is not negative moves `max 0 (min size (L - pos))`
bytes of the data from `pos` on (`file_read_spec`, `file_write_spec`). `file_calls_spec`
gathers these.

Not modelled: the `ASSERT`s that the file is not `NULL` and that a new position is not
negative; `file_open`, `file_close` and `file_reopen` (see `Pintos.Filesys.Filesys`); and
`file_read_at` and `file_write_at`, which no system call uses.
-/

namespace Pintos.Filesys

open ByteMap

/-- `struct file`. -/
structure File where
  inode : Inode
  pos : Int
  deriving DecidableEq, Repr

/-- The `struct file`s by their addresses, and `fs_device`. -/
structure Files where
  disk : Nat → Nat → UInt8
  file : Nat → File

namespace Files

/-- `file->pos = pos`. -/
def set_pos (w : Files) (f : Nat) (pos : Int) : Files :=
  { w with file := Function.update w.file f { w.file f with pos := pos } }

@[simp] theorem set_pos_file_self (w : Files) (f : Nat) (pos : Int) :
    (w.set_pos f pos).file f = { w.file f with pos := pos } :=
  Function.update_self ..

theorem set_pos_file_of_ne (w : Files) {f g : Nat} (pos : Int) (h : g ≠ f) :
    (w.set_pos f pos).file g = w.file g :=
  Function.update_of_ne h ..

/-- A new position changes no file's inode. -/
@[simp] theorem set_pos_inode (w : Files) (f g : Nat) (pos : Int) :
    ((w.set_pos f pos).file g).inode = (w.file g).inode := by
  by_cases h : g = f
  · subst h
    simp
  · rw [set_pos_file_of_ne w pos h]

end Files

section Calls

variable (malloc_ok : Bool) (w : Files) (f : Nat)

/-- `file_read (file, buffer, size)`: the bytes read, and the buffer. -/
def file_read (buffer : Nat → UInt8) (size : Int) : Int × (Nat → UInt8) × Files :=
  let (bytes_read, buffer) :=
    inode_read_at w.disk (w.file f).inode malloc_ok buffer size (w.file f).pos
  (bytes_read, buffer, w.set_pos f ((w.file f).pos + bytes_read))

/-- `file_write (file, buffer, size)`: the bytes written. -/
def file_write (buffer : Nat → UInt8) (size : Int) : Int × Files :=
  let (bytes_written, disk) :=
    inode_write_at w.disk (w.file f).inode malloc_ok buffer size (w.file f).pos
  (bytes_written, { w.set_pos f ((w.file f).pos + bytes_written) with disk := disk })

/-- `file_length (file)`: `inode_length`, the length kept in the inode. -/
def file_length : Int := (w.file f).inode.data.length

/-- `file_seek (file, new_pos)`. -/
def file_seek (new_pos : Int) : Files := w.set_pos f new_pos

/-- `file_tell (file)`. -/
def file_tell : Int := (w.file f).pos

end Calls

section Positions

variable {malloc_ok : Bool} {w : Files} {f : Nat}

/-- A read advances the position by the bytes it returns. -/
@[simp] theorem file_tell_file_read (buffer : Nat → UInt8) (size : Int) :
    file_tell (file_read malloc_ok w f buffer size).2.2 f =
      file_tell w f + (file_read malloc_ok w f buffer size).1 := by
  simp [file_read, file_tell]

@[simp] theorem file_tell_file_write (buffer : Nat → UInt8) (size : Int) :
    file_tell (file_write malloc_ok w f buffer size).2 f =
      file_tell w f + (file_write malloc_ok w f buffer size).1 := by
  simp [file_write, file_tell, Files.set_pos]

@[simp] theorem file_tell_file_seek (new_pos : Int) :
    file_tell (file_seek w f new_pos) f = new_pos := by
  simp [file_seek, file_tell]

/-- The other files keep their positions. -/
theorem file_tell_file_read_of_ne {g : Nat} (h : g ≠ f) (buffer : Nat → UInt8) (size : Int) :
    file_tell (file_read malloc_ok w f buffer size).2.2 g = file_tell w g := by
  simp only [file_read, file_tell]
  rw [Files.set_pos_file_of_ne w _ h]

theorem file_tell_file_write_of_ne {g : Nat} (h : g ≠ f) (buffer : Nat → UInt8) (size : Int) :
    file_tell (file_write malloc_ok w f buffer size).2 g = file_tell w g := by
  simp only [file_write, file_tell]
  exact congrArg File.pos (Files.set_pos_file_of_ne w _ h)

theorem file_tell_file_seek_of_ne {g : Nat} (h : g ≠ f) (new_pos : Int) :
    file_tell (file_seek w f new_pos) g = file_tell w g := by
  simp only [file_seek, file_tell]
  rw [Files.set_pos_file_of_ne w _ h]

/-- No call changes the length of a file. -/
@[simp] theorem file_length_file_read (g : Nat) (buffer : Nat → UInt8) (size : Int) :
    file_length (file_read malloc_ok w f buffer size).2.2 g = file_length w g := by
  simp [file_read, file_length]

@[simp] theorem file_length_file_write (g : Nat) (buffer : Nat → UInt8) (size : Int) :
    file_length (file_write malloc_ok w f buffer size).2 g = file_length w g := by
  simp only [file_write, file_length]
  exact congrArg (fun i : Inode => (i.data.length : Int)) (Files.set_pos_inode w f g _)

@[simp] theorem file_length_file_seek (g : Nat) (new_pos : Int) :
    file_length (file_seek w f new_pos) g = file_length w g := by
  simp [file_seek, file_length]

/-- Whatever the position and the `malloc`, a read returns at most `size` bytes. -/
theorem file_read_fst_mem (buffer : Nat → UInt8) (size : Int) :
    0 ≤ (file_read malloc_ok w f buffer size).1 ∧
      (file_read malloc_ok w f buffer size).1 ≤ max 0 size := by
  have h : 0 ≤ (read_loop w.disk (w.file f).inode malloc_ok size (w.file f).pos 0 none buffer).1 ∧
      (read_loop w.disk (w.file f).inode malloc_ok size (w.file f).pos 0 none buffer).1 ≤
        0 + max 0 size := read_loop_fst_mem malloc_ok size _ 0 none buffer
  simp only [file_read, inode_read_at]
  omega

end Positions

section Data

variable {w : Files} {f : Nat}

/-- With the bounce buffer to hand, a read at `pos` returns the data from `pos` on. -/
theorem file_read_spec
    (hd : (w.file f).inode.data.start + bytes_to_sectors (w.file f).inode.data.length ≤ 2 ^ 32)
    (hpos : 0 ≤ file_tell w f) (buffer : Nat → UInt8) {size : Int} (hsize : 0 ≤ size) :
    let n := max 0 (min size (file_length w f - file_tell w f))
    file_read true w f buffer size =
      (n, copy buffer 0 (data_byte w.disk (w.file f).inode) (file_tell w f).toNat n.toNat,
        w.set_pos f (file_tell w f + n)) := by
  intro n
  have hloop : read_loop w.disk (w.file f).inode true size (w.file f).pos 0 none buffer = _ :=
    read_loop_spec hd hsize hpos (Int.le_refl 0) none buffer
  rw [Int.zero_add, Int.toNat_zero] at hloop
  simp only [file_read, inode_read_at]
  rw [hloop]
  rfl

/-- With the bounce buffer to hand, a write at `pos` puts the buffer's first bytes into
the data from `pos` on. -/
theorem file_write_spec
    (hd : (w.file f).inode.data.start + bytes_to_sectors (w.file f).inode.data.length ≤ 2 ^ 32)
    (hpos : 0 ≤ file_tell w f) (buffer : Nat → UInt8) {size : Int} (hsize : 0 ≤ size) :
    let n := max 0 (min size (file_length w f - file_tell w f))
    file_write true w f buffer size =
      (n, { w.set_pos f (file_tell w f + n) with
        disk := write_data w.disk (w.file f).inode (file_tell w f).toNat buffer 0 n.toNat }) := by
  intro n
  have hloop : write_loop (w.file f).inode true buffer size (w.file f).pos 0 none w.disk = _ :=
    write_loop_spec hd buffer hsize hpos (Int.le_refl 0) none w.disk
  rw [Int.zero_add, Int.toNat_zero] at hloop
  simp only [file_write, inode_write_at]
  rw [hloop]
  rfl

/-- What the calls of `file.c` do. With the bounce buffer to hand, a read or a write of
`size ≥ 0` bytes at a position that is not negative moves the
`n = max 0 (min size (length - pos))` bytes from `pos` on and advances `pos` by `n`; and
no call changes the length of a file or the position of another file. -/
theorem file_calls_spec
    (hd : (w.file f).inode.data.start + bytes_to_sectors (w.file f).inode.data.length ≤ 2 ^ 32)
    (hpos : 0 ≤ file_tell w f) (buffer : Nat → UInt8) {size : Int} (hsize : 0 ≤ size) :
    (file_read true w f buffer size =
      (max 0 (min size (file_length w f - file_tell w f)),
        copy buffer 0 (data_byte w.disk (w.file f).inode) (file_tell w f).toNat
          (max 0 (min size (file_length w f - file_tell w f))).toNat,
        w.set_pos f (file_tell w f + max 0 (min size (file_length w f - file_tell w f))))) ∧
    (file_write true w f buffer size =
      (max 0 (min size (file_length w f - file_tell w f)),
        { w.set_pos f (file_tell w f + max 0 (min size (file_length w f - file_tell w f))) with
          disk := write_data w.disk (w.file f).inode (file_tell w f).toNat buffer 0
            (max 0 (min size (file_length w f - file_tell w f))).toNat })) ∧
    ∀ (malloc_ok : Bool) (g : Nat) (buffer' : Nat → UInt8) (size' new_pos : Int),
      file_length (file_read malloc_ok w f buffer' size').2.2 g = file_length w g ∧
      file_length (file_write malloc_ok w f buffer' size').2 g = file_length w g ∧
      file_length (file_seek w f new_pos) g = file_length w g ∧
      (g ≠ f → file_tell (file_read malloc_ok w f buffer' size').2.2 g = file_tell w g ∧
        file_tell (file_write malloc_ok w f buffer' size').2 g = file_tell w g ∧
        file_tell (file_seek w f new_pos) g = file_tell w g) :=
  ⟨file_read_spec hd hpos buffer hsize, file_write_spec hd hpos buffer hsize,
    fun _ g _ _ _ => ⟨file_length_file_read g _ _, file_length_file_write g _ _,
      file_length_file_seek g _, fun h => ⟨file_tell_file_read_of_ne h _ _,
        file_tell_file_write_of_ne h _ _, file_tell_file_seek_of_ne h _⟩⟩⟩

/-- One file of ten bytes, in sectors 1 on, at position 3. -/
def ten_bytes_at_three : Files := ⟨fun _ _ => 0, fun _ => ⟨⟨0, 1, false, ⟨1, 10⟩⟩, 3⟩⟩

/-- Twenty bytes asked for at position 3 of ten: seven are moved. -/
theorem file_calls_spec_ten_bytes :
    (ten_bytes_at_three.file 0).inode.data.start +
      bytes_to_sectors (ten_bytes_at_three.file 0).inode.data.length ≤ 2 ^ 32 ∧
    0 ≤ file_tell ten_bytes_at_three 0 ∧ (0 : Int) ≤ 20 ∧
    max 0 (min 20 (file_length ten_bytes_at_three 0 - file_tell ten_bytes_at_three 0)) = 7 ∧
    (file_read true ten_bytes_at_three 0 (fun _ => 0) 20 =
      (max 0 (min 20 (file_length ten_bytes_at_three 0 - file_tell ten_bytes_at_three 0)),
        copy (fun _ => 0) 0 (data_byte ten_bytes_at_three.disk (ten_bytes_at_three.file 0).inode)
          (file_tell ten_bytes_at_three 0).toNat
          (max 0 (min 20 (file_length ten_bytes_at_three 0 -
            file_tell ten_bytes_at_three 0))).toNat,
        ten_bytes_at_three.set_pos 0 (file_tell ten_bytes_at_three 0 +
          max 0 (min 20 (file_length ten_bytes_at_three 0 - file_tell ten_bytes_at_three 0))))) ∧
    (file_write true ten_bytes_at_three 0 (fun _ => 0) 20 =
      (max 0 (min 20 (file_length ten_bytes_at_three 0 - file_tell ten_bytes_at_three 0)),
        { ten_bytes_at_three.set_pos 0 (file_tell ten_bytes_at_three 0 +
            max 0 (min 20 (file_length ten_bytes_at_three 0 - file_tell ten_bytes_at_three 0))) with
          disk := write_data ten_bytes_at_three.disk (ten_bytes_at_three.file 0).inode
            (file_tell ten_bytes_at_three 0).toNat (fun _ => 0) 0
            (max 0 (min 20 (file_length ten_bytes_at_three 0 -
              file_tell ten_bytes_at_three 0))).toNat })) ∧
    ∀ (malloc_ok : Bool) (g : Nat) (buffer' : Nat → UInt8) (size' new_pos : Int),
      file_length (file_read malloc_ok ten_bytes_at_three 0 buffer' size').2.2 g =
        file_length ten_bytes_at_three g ∧
      file_length (file_write malloc_ok ten_bytes_at_three 0 buffer' size').2 g =
        file_length ten_bytes_at_three g ∧
      file_length (file_seek ten_bytes_at_three 0 new_pos) g = file_length ten_bytes_at_three g ∧
      (g ≠ 0 → file_tell (file_read malloc_ok ten_bytes_at_three 0 buffer' size').2.2 g =
          file_tell ten_bytes_at_three g ∧
        file_tell (file_write malloc_ok ten_bytes_at_three 0 buffer' size').2 g =
          file_tell ten_bytes_at_three g ∧
        file_tell (file_seek ten_bytes_at_three 0 new_pos) g = file_tell ten_bytes_at_three g) :=
  ⟨by decide, by decide, by decide, by decide,
    file_calls_spec (w := ten_bytes_at_three) (f := 0) (by decide) (by decide) _ (by decide)⟩

end Data

end Pintos.Filesys
