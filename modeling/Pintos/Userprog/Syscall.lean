import Mathlib
import Pintos.StateExcept
import Pintos.Userprog.FdTable

/-!
# The system call handler

`syscall_handler` of `userprog/syscall.c`, with its validation helpers and the
calls it dispatches to. Kernel code runs in `K`, a state monad with early exit
over the calling thread's memory, its fd table, the rest of the system (`world`)
and a ghost trace of the user addresses the kernel validated and accessed.

A run of the handler returns the new value of `eax` (`none` where the call
leaves it) or stops: `exit status` (every failed validation is `exit (-1)`),
`halt`, or a kernel panic. A failed `ASSERT` panics, and so does a page fault in
kernel code: `kill` in `userprog/exception.c` calls `PANIC` for `SEL_KCSEG`.

Memory is one byte map over the 32-bit address space, with the page directory's
view of which addresses are mapped and which are writable. `threads/start.S`
sets `CR0_WP`, so a kernel store to a read-only user page faults too. Page 0 is
never mapped (`validate_segment` refuses it).

Not modelled here: the process layer, the file system, the contents and
positions of files, the console and the keyboard. The handler reaches them
through `Env`, one function per service over `world`. Kernel code that takes a
validated `const char *` (`strlcpy` in `process_execute`, `strlen` in `dir_add`,
`strcmp` in `dir_lookup`) reads the string up to its terminator, as `read_cstring`
does; `strcmp` may stop earlier, inside the validated bytes. The name `remove`
passes on was never validated, so there the reads are the code's own:
`dir_remove` asserts that the pointer is not `NULL`, and `lookup`'s `strcmp`
reads it against the name of each entry in use of the root directory.
-/

namespace Pintos.Syscall

open StateExcept SE

/-- `PHYS_BASE` of `threads/vaddr.h`: user addresses are below it. -/
def PHYS_BASE : Nat := 0xC0000000

/-- Pointer arithmetic on a 32-bit `void *`. -/
def ptr_add (p i : Nat) : Nat := (p + i) % 2 ^ 32

theorem ptr_add_ptr_add (p i j : Nat) : ptr_add (ptr_add p i) j = ptr_add p (i + j) := by
  unfold ptr_add
  omega

/-- Below `PHYS_BASE` the next byte does not wrap around. -/
theorem ptr_add_one_of_lt {p : Nat} (h : p < 0xC0000000) : ptr_add p 1 = p + 1 := by
  unfold ptr_add
  omega

/-- The `int` held in a 32-bit word (two's complement). -/
def toInt (w : Nat) : Int := if w < 2 ^ 31 then w else (w : Int) - 2 ^ 32

/-- An `unsigned` size passed on as an `off_t` is never larger as a count. -/
theorem toInt_toNat_le (w : Nat) : (toInt w).toNat ≤ w := by
  unfold toInt
  split <;> omega

/-- The 32-bit word that holds an `int` or an `unsigned` (as stored into `eax`). -/
def toWord (x : Int) : Nat := (x % 2 ^ 32).toNat

/-- The address space as the kernel sees it while it runs for the thread. -/
structure Mem where
  mapped : Nat → Bool
  writable : Nat → Bool
  byte : Nat → UInt8
  null_unmapped : mapped 0 = false

/-- A byte written by the kernel. -/
def Mem.write (m : Mem) (p : Nat) (b : UInt8) : Mem :=
  { m with byte := Function.update m.byte p b }

@[simp] theorem Mem.write_mapped (m : Mem) (p : Nat) (b : UInt8) :
    (m.write p b).mapped = m.mapped := rfl

@[simp] theorem Mem.write_writable (m : Mem) (p : Nat) (b : UInt8) :
    (m.write p b).writable = m.writable := rfl

theorem Mem.write_byte (m : Mem) (p : Nat) (b : UInt8) (q : Nat) :
    (m.write p b).byte q = if q = p then b else m.byte q :=
  Function.update_apply ..

/-- The four bytes at `p`, little-endian. -/
def Mem.word (m : Mem) (p : Nat) : Nat :=
  (m.byte p).toNat + 2 ^ 8 * (m.byte (ptr_add p 1)).toNat +
    2 ^ 16 * (m.byte (ptr_add p 2)).toNat + 2 ^ 24 * (m.byte (ptr_add p 3)).toNat

/-- Ghost events: a `validate_pointer` that passed, and kernel reads and writes. -/
inductive Access
  | check (p : Nat)
  | load (p : Nat)
  | store (p : Nat)
  deriving DecidableEq, Repr

inductive Panic
  | assertion
  | pageFault (p : Nat)
  deriving DecidableEq, Repr

/-- How kernel code stops without returning to its caller. -/
inductive Stop
  | exit (status : Int)
  | halt
  | panic (why : Panic)
  deriving DecidableEq, Repr

/-- A stop that is not a crash of the kernel. -/
def Stop.Benign : Stop → Prop
  | .exit _ => True
  | .halt => True
  | .panic _ => False

structure KState (W File : Type) where
  mem : Mem
  fds : Fds File
  world : W
  /-- Ghost: the accesses so far, newest first. -/
  trace : List Access

/-- Kernel code running on behalf of the calling thread. -/
abbrev K (W File α : Type) := SE (KState W File) Stop α

/-- The services outside `userprog/syscall.c` that the calls use. -/
structure Env (W File : Type) where
  process_execute : List UInt8 → W → Int × W
  process_wait : Int → W → Int × W
  filesys_create : List UInt8 → Int → W → Bool × W
  /-- `dir_open_root` in `filesys_remove`: the names of the root directory's entries
  in use, in the order `lookup` reads them, or `none` where it fails. -/
  dir_open_root : W → Option (List (List UInt8))
  /-- The rest of `dir_remove` once `lookup` found the entry of this name. -/
  dir_remove : List UInt8 → W → Bool × W
  filesys_open : List UInt8 → W → Option File × W
  file_length : File → W → Int
  /-- Reads at most `size` bytes (none for a negative `off_t`). -/
  file_read : File → Int → W → List UInt8 × W
  /-- Writes a prefix of the bytes it is offered; returns how many. -/
  file_write : File → List UInt8 → W → Int × W
  file_seek : File → Int → W → W
  file_tell : File → W → Int
  input_getc : W → UInt8 × W
  putbuf : List UInt8 → W → W
  timer_msleep : Int → W → W
  file_read_length : ∀ f size w, (file_read f size w).1.length ≤ size.toNat

variable {W File α : Type}

namespace KState

def log (s : KState W File) (a : Access) : KState W File := { s with trace := a :: s.trace }

@[simp] theorem log_mem (s : KState W File) (a : Access) : (s.log a).mem = s.mem := rfl
@[simp] theorem log_fds (s : KState W File) (a : Access) : (s.log a).fds = s.fds := rfl
@[simp] theorem log_trace (s : KState W File) (a : Access) :
    (s.log a).trace = a :: s.trace := rfl

end KState

def record (a : Access) : K W File Unit := modify fun s => s.log a

/-- Apply a service of `Env` to the world. -/
def service (f : W → α × W) : K W File α := do
  let s ← get
  let (r, w) := f s.world
  modify fun s => { s with world := w }
  pure r

/-- `exit (status)`: the process ends, the handler does not return. -/
def exit (status : Int) : K W File α := throw (.exit status)

/-- `halt`: `shutdown_power_off` does not return. -/
def halt : K W File α := throw .halt

def is_kernel_vaddr (p : Nat) : Bool := decide (p ≥ PHYS_BASE)

def validate_pointer (ptr : Nat) : K W File Unit := do
  let s ← get
  if ptr = 0 then exit (-1)
  else if is_kernel_vaddr ptr then exit (-1)
  else if s.mem.mapped ptr = false then exit (-1)
  else record (.check ptr)

/-- A kernel read of the byte at `p`. -/
def load (p : Nat) : K W File UInt8 := do
  record (.load p)
  let s ← get
  if s.mem.mapped p then pure (s.mem.byte p) else throw (.panic (.pageFault p))

/-- A kernel write of the byte at `p`. -/
def store (p : Nat) (b : UInt8) : K W File Unit := do
  record (.store p)
  let s ← get
  if s.mem.mapped p ∧ s.mem.writable p then modify fun s => { s with mem := s.mem.write p b }
  else throw (.panic (.pageFault p))

/-- `*(int *) p`. -/
def load_word (p : Nat) : K W File Nat := do
  let b0 ← load p
  let b1 ← load (ptr_add p 1)
  let b2 ← load (ptr_add p 2)
  let b3 ← load (ptr_add p 3)
  pure (b0.toNat + 2 ^ 8 * b1.toNat + 2 ^ 16 * b2.toNat + 2 ^ 24 * b3.toNat)

/-- `*(int *) p = w`. -/
def store_word (p w : Nat) : K W File Unit := do
  store p (UInt8.ofNat w)
  store (ptr_add p 1) (UInt8.ofNat (w / 2 ^ 8))
  store (ptr_add p 2) (UInt8.ofNat (w / 2 ^ 16))
  store (ptr_add p 3) (UInt8.ofNat (w / 2 ^ 24))

/-- The `n` bytes from `p`, read in order. -/
def load_bytes (p : Nat) : Nat → K W File (List UInt8)
  | 0 => pure []
  | n + 1 => do
    let bs ← load_bytes p n
    let b ← load (ptr_add p n)
    pure (bs ++ [b])

/-- The bytes `bs` written from `p` on, in order. -/
def store_bytes (p : Nat) (bs : List UInt8) : K W File Unit :=
  forRange (fun i => store (ptr_add p i) (bs.getD i 0)) bs.length

/-- A `const char *` read by kernel code, up to its terminator. Page 0 is never
mapped, so a string that is never terminated faults before `fuel` runs out. -/
def read_cstring : Nat → Nat → K W File (List UInt8)
  | 0, _ => pure []
  | fuel + 1, p => do
    let c ← load p
    if c = 0 then pure []
    else do
      let rest ← read_cstring fuel (ptr_add p 1)
      pure (c :: rest)

/-- `strcmp (a, b)` of `lib/string.c`, for a pointer `a` and a kernel string `b`:
the loop reads `a` up to its terminator or the first byte that differs from `b`
(the comparison after the loop reads that byte again). -/
def strcmp (a : Nat) : List UInt8 → K W File Int
  | [] => do
    let c ← load a
    pure (if c = 0 then 0 else 1)
  | b :: bs => do
    let c ← load a
    if c ≠ 0 ∧ c = b then strcmp (ptr_add a 1) bs
    else pure (if c < b then -1 else if c > b then 1 else 0)

/-- `lookup` of `filesys/directory.c` over the names of the entries in use: the
first that `strcmp` finds equal to the string at `name`. -/
def Directory.lookup (name : Nat) : List (List UInt8) → K W File (Option (List UInt8))
  | [] => pure none
  | e :: es => do
    if (← strcmp name e) = 0 then pure (some e) else Directory.lookup name es

/-- `validate_buffer`: every byte of `buffer[0 .. size)`. -/
def validate_buffer (buffer size : Nat) : K W File Unit :=
  forRange (fun i => validate_pointer (ptr_add buffer i)) size

/-- The `while` loop of `validate_string`, from `str` on; it runs until a
validation fails, at `PHYS_BASE` at the latest. -/
def validate_string_loop : Nat → Nat → K W File Unit
  | 0, _ => pure ()
  | fuel + 1, str => do
    let c ← load str
    if c = 0 then pure ()
    else do
      validate_pointer (ptr_add str 1)
      validate_string_loop fuel (ptr_add str 1)

def validate_string (str : Nat) : K W File Unit := do
  if str = 0 then exit (-1)
  validate_pointer str
  validate_string_loop PHYS_BASE str

/-- `validate_set_args`: the `amount` argument words from `esp`, byte by byte. -/
def validate_set_args (esp amount : Nat) : K W File Unit :=
  forRange (fun i => validate_pointer (ptr_add esp i)) (amount * 4)

/-- The loop of `retrive_args1`: before reading the word above `arg_ptr` it
validates `arg_ptr` itself. -/
def retrive_args_loop (esp : Nat) : Nat → K W File (List Nat)
  | 0 => pure []
  | i + 1 => do
    let argv ← retrive_args_loop esp i
    validate_pointer (ptr_add esp (4 * i))
    let a ← load_word (ptr_add esp (4 * (i + 1)))
    pure (argv ++ [a])

def retrive_args1 (esp argc : Nat) : K W File (List Nat) := do
  validate_set_args (ptr_add esp 4) argc
  retrive_args_loop esp argc

def get_file (fd : Int) : K W File (Option File) := do
  let s ← get
  pure (s.fds.get_file fd)

/-! ## The calls -/

section Calls

variable (env : Env W File)

def exec (cmd_line : Nat) : K W File Int := do
  validate_string cmd_line
  let cmd ← read_cstring (2 ^ 32) cmd_line
  service (env.process_execute cmd)

def wait (pid : Int) : K W File Int :=
  service (env.process_wait pid)

/-- `initial_size` is `unsigned`; `filesys_create` takes an `off_t`. -/
def create (file initial_size : Nat) : K W File Bool := do
  validate_string file
  let name ← read_cstring (2 ^ 32) file
  service (env.filesys_create name (toInt initial_size))

/-- Unlike `create` and `open`, `remove` does not validate its name: it passes the
pointer to `filesys_remove`, which opens the root directory, and `dir_remove`
asserts `name != NULL` before `lookup` compares it with the entries in use. -/
def remove (file : Nat) : K W File Bool := do
  let s ← get
  match env.dir_open_root s.world with
  | none => pure false
  | some names => do
    if file = 0 then throw (.panic .assertion)
    match ← Directory.lookup file names with
    | none => pure false
    | some name => service (env.dir_remove name)

def «open» (file_name : Nat) : K W File Int := do
  validate_string file_name
  let s ← get
  if s.fds.next_fd ≥ MAX_FDS then pure (-1)
  else do
    let name ← read_cstring (2 ^ 32) file_name
    let opened ← service (env.filesys_open name)
    let s ← get
    let (fd, t) := s.fds.open opened
    modify fun s => { s with fds := t }
    pure fd

def close (fd : Int) : K W File Unit :=
  modify fun s => { s with fds := (s.fds.close fd).1 }

def write (fd : Int) (buffer size : Nat) : K W File Int := do
  validate_buffer buffer size
  if fd = 1 then do
    let bs ← load_bytes buffer size
    modify fun s => { s with world := env.putbuf bs s.world }
    pure (toInt size)
  else do
    match ← get_file fd with
    | none => pure (-1)
    | some f => do
      let bs ← load_bytes buffer size
      service (env.file_write f bs)

/-- From the keyboard, each byte is stored as an `int`: `*(int *)(buffer + i)`. -/
def read (fd : Int) (buffer size : Nat) : K W File Int := do
  validate_buffer buffer size
  if fd = 0 then do
    forRange (fun i => do
      let c ← service env.input_getc
      store_word (ptr_add buffer i) c.toNat
      let b ← load (ptr_add buffer i)
      modify fun s => { s with world := env.putbuf [b] s.world }) size
    pure (toInt size)
  else do
    match ← get_file fd with
    | none => pure (-1)
    | some f => do
      let bs ← service (env.file_read f (toInt size))
      store_bytes buffer bs
      pure bs.length

def filesize (fd : Int) : K W File Int := do
  let s ← get
  match s.fds.filesize_file fd with
  | none => pure (-1)
  | some f => pure (env.file_length f s.world)

/-- `seek` asserts that `fd` is open. `position` is `unsigned`, compared with the
`off_t` length as `unsigned`. -/
def seek (fd : Int) (position : Nat) : K W File Unit := do
  match ← get_file fd with
  | none => throw (.panic .assertion)
  | some f => do
    let s ← get
    if position > toWord (env.file_length f s.world) then pure ()
    else modify fun s => { s with world := env.file_seek f (toInt position) s.world }

/-- `tell` returns `unsigned`: -1 is the word `2 ^ 32 - 1`. -/
def tell (fd : Int) : K W File Nat := do
  match ← get_file fd with
  | none => pure (toWord (-1))
  | some f => do
    let s ← get
    pure (toWord (env.file_tell f s.world))

def sleep (millis : Int) : K W File Unit :=
  modify fun s => { s with world := env.timer_msleep millis s.world }

end Calls

/-! ## The handler -/

/-- The system call numbers of `lib/syscall-nr.h`, in order. -/
inductive SyscallNr
  | HALT | EXIT | EXEC | WAIT | CREATE | REMOVE | OPEN | FILESIZE | READ | WRITE | SEEK
  | TELL | CLOSE | SLEEP | MMAP | MUNMAP | CHDIR | MKDIR | READDIR | ISDIR | INUMBER
  deriving DecidableEq, Repr

def SyscallNr.all : List SyscallNr :=
  [.HALT, .EXIT, .EXEC, .WAIT, .CREATE, .REMOVE, .OPEN, .FILESIZE, .READ, .WRITE, .SEEK,
    .TELL, .CLOSE, .SLEEP, .MMAP, .MUNMAP, .CHDIR, .MKDIR, .READDIR, .ISDIR, .INUMBER]

def SyscallNr.ofInt (n : Int) : Option SyscallNr :=
  if n < 0 then none else SyscallNr.all[n.toNat]?

/-- `syscall_handler`, for the user stack pointer `f->esp`. -/
def syscall_handler (env : Env W File) (esp : UInt32) : K W File (Option Nat) := do
  forRange (fun i => validate_pointer (ptr_add esp.toNat i)) 4
  let syscall_num ← load_word esp.toNat
  match SyscallNr.ofInt (toInt syscall_num) with
  | some .HALT => halt
  | some .EXIT => do
    let argv ← retrive_args1 esp.toNat 1
    exit (toInt (argv.getD 0 0))
  | some .EXEC => do
    let argv ← retrive_args1 esp.toNat 1
    let r ← exec env (argv.getD 0 0)
    pure (some (toWord r))
  | some .WAIT => do
    let argv ← retrive_args1 esp.toNat 1
    let r ← wait env (toInt (argv.getD 0 0))
    pure (some (toWord r))
  | some .CREATE => do
    let argv ← retrive_args1 esp.toNat 2
    let r ← create env (argv.getD 0 0) (argv.getD 1 0)
    pure (some (if r then 1 else 0))
  | some .REMOVE => do
    let argv ← retrive_args1 esp.toNat 1
    let r ← remove env (argv.getD 0 0)
    pure (some (if r then 1 else 0))
  | some .OPEN => do
    let argv ← retrive_args1 esp.toNat 1
    let r ← «open» env (argv.getD 0 0)
    pure (some (toWord r))
  | some .FILESIZE => do
    let argv ← retrive_args1 esp.toNat 1
    let r ← filesize env (toInt (argv.getD 0 0))
    pure (some (toWord r))
  | some .READ => do
    let argv ← retrive_args1 esp.toNat 3
    let r ← read env (toInt (argv.getD 0 0)) (argv.getD 1 0) (argv.getD 2 0)
    pure (some (toWord r))
  | some .WRITE => do
    let argv ← retrive_args1 esp.toNat 3
    let r ← write env (toInt (argv.getD 0 0)) (argv.getD 1 0) (argv.getD 2 0)
    pure (some (toWord r))
  | some .SEEK => do
    let argv ← retrive_args1 esp.toNat 2
    seek env (toInt (argv.getD 0 0)) (argv.getD 1 0)
    pure none
  | some .TELL => do
    let argv ← retrive_args1 esp.toNat 1
    let r ← tell env (toInt (argv.getD 0 0))
    pure (some r)
  | some .CLOSE => do
    let argv ← retrive_args1 esp.toNat 1
    close (toInt (argv.getD 0 0))
    pure none
  | some .SLEEP => do
    let argv ← retrive_args1 esp.toNat 1
    sleep env (toInt (argv.getD 0 0))
    pure none
  | _ => exit (-1)

end Pintos.Syscall
