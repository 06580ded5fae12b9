import Mathlib
import Pintos.Userprog.SyscallSafety
import Pintos.Filesys.File

/-!
# Reading, writing and seeking through the system calls

`read`, `write`, `seek` and `tell` of `userprog/syscall.c` over the open files of
`filesys/file.c`. `file_env` gives `Env` the file services of `file.c`, a `struct
file *` being an address in `Files`, and keeps the other services of a given `Env`.

`seek` compares the position with the length and returns before `file_seek` when it is
past the end, so that the position stays where it was (`seek_past_end`); up to the end
it moves (`seek_within`). A `read` or a `write` of a file that returns `k` has moved the
position by `k` (`read_moves_position`, `write_moves_position`), and a read stores nothing
outside its buffer (`read_file_frame`). `fd_calls_spec` gathers these.

Every kernel access below is to a byte that passes its check, so the accesses are
computed outright (`validate_pointer_of_valid`, `load_of_mapped`, `store_of_writable`)
and their frames come from `Keeps`. From the keyboard, `read` stores each byte through
an `int *`: four bytes at `buffer + i`, the last three of them zero. The next store
overwrites three of them, and the last store leaves three zero bytes after the buffer.
-/

namespace Pintos.Syscall

open StateExcept SE Filesys

variable {W File β : Type}

/-! ## Kernel accesses that pass -/

section Accesses

variable {s : KState W File} {p : Nat}

theorem validate_pointer_of_valid (h : Valid s.mem p) :
    validate_pointer p s = (.ok (), s.log (.check p)) := by
  obtain ⟨h0, hk, hm⟩ := h
  have hk' : is_kernel_vaddr p = false := by
    simp only [is_kernel_vaddr, PHYS_BASE] at hk ⊢
    simpa using hk
  simp [validate_pointer, bind_apply, h0, hk', hm, record]

theorem load_of_mapped (h : s.mem.mapped p = true) :
    load p s = (.ok (s.mem.byte p), s.log (.load p)) := by
  simp [load, bind_apply, record, h]

theorem store_of_writable (hm : s.mem.mapped p = true) (hw : s.mem.writable p = true) (b : UInt8) :
    store p b s = (.ok (), { s.log (.store p) with mem := s.mem.write p b }) := by
  simp [store, bind_apply, record, hm, hw]

theorem get_file_apply (fd : Int) : get_file fd s = (.ok (s.fds.get_file fd), s) := rfl

/-- Services run on the world alone. -/
theorem service_apply {α : Type} (f : W → α × W) :
    service f s = (.ok (f s.world).1, { s with world := (f s.world).2 }) := rfl

/-- `validate_buffer` over a buffer that passes: only the trace grows. -/
theorem validate_buffer_of_valid {buffer size : Nat}
    (h : ∀ i < size, Valid s.mem (ptr_add buffer i)) :
    ∃ tr, validate_buffer buffer size s = (.ok (), { s with trace := tr }) := by
  induction size with
  | zero => exact ⟨s.trace, rfl⟩
  | succ n ih =>
    obtain ⟨tr, htr⟩ := ih fun i hi => h i (by omega)
    refine ⟨.check (ptr_add buffer n) :: tr, ?_⟩
    rw [validate_buffer] at htr ⊢
    rw [forRange_succ, bind_of_ok htr]
    exact validate_pointer_of_valid (h n (by omega))

end Accesses

/-! ## Frames of the accesses -/

section Frames

variable {f : KState W File → β}

/-- A part of the state that the ghost trace does not touch. -/
def TraceFree (f : KState W File → β) : Prop := ∀ s a, f (s.log a) = f s

theorem keeps_record (hf : TraceFree f) (a : Access) : Keeps f (record a : K W File Unit) :=
  keeps_modify fun s => hf s a

theorem keeps_validate_pointer (hf : TraceFree f) (p : Nat) : Keeps f (validate_pointer p) := by
  refine keeps_bind keeps_get fun s => ?_
  refine keeps_ite (fun _ => keeps_throw _) fun _ => ?_
  refine keeps_ite (fun _ => keeps_throw _) fun _ => ?_
  exact keeps_ite (fun _ => keeps_throw _) fun _ => keeps_record hf _

theorem keeps_load (hf : TraceFree f) (p : Nat) : Keeps f (load p) := by
  refine keeps_bind (keeps_record hf _) fun _ => keeps_bind keeps_get fun s => ?_
  exact keeps_ite (fun _ => keeps_pure _) fun _ => keeps_throw _

/-- A store keeps what does not see the byte stored. -/
theorem keeps_store (hf : TraceFree f) {p : Nat} {b : UInt8}
    (hm : ∀ s, f { s with mem := s.mem.write p b } = f s) : Keeps f (store p b) := by
  refine keeps_bind (keeps_record hf _) fun _ => keeps_bind keeps_get fun s => ?_
  exact keeps_ite (fun _ => keeps_modify hm) fun _ => keeps_throw _

theorem keeps_validate_buffer (hf : TraceFree f) (buffer size : Nat) :
    Keeps f (validate_buffer buffer size) :=
  keeps_forRange (fun _ => keeps_validate_pointer hf _) size

theorem keeps_load_bytes (hf : TraceFree f) (p : Nat) : ∀ n, Keeps f (load_bytes p n)
  | 0 => keeps_pure _
  | n + 1 => keeps_bind (keeps_load_bytes hf p n) fun _ =>
      keeps_bind (keeps_load hf _) fun _ => keeps_pure _

theorem traceFree_world : TraceFree fun s : KState W File => s.world := fun _ _ => rfl

theorem traceFree_fds : TraceFree fun s : KState W File => s.fds := fun _ _ => rfl

theorem traceFree_byte (q : Nat) : TraceFree fun s : KState W File => s.mem.byte q :=
  fun _ _ => rfl

/-- `store_bytes` leaves the world alone, and every byte it does not store to. -/
theorem keeps_store_bytes (hf : TraceFree f) (p : Nat) (bs : List UInt8)
    (hm : ∀ i < bs.length, ∀ s, f { s with mem := s.mem.write (ptr_add p i) (bs.getD i 0) } = f s) :
    Keeps f (store_bytes p bs) := by
  unfold store_bytes
  -- only the iterations below `bs.length` run
  suffices ∀ n ≤ bs.length, Keeps f (forRange (fun i => store (ptr_add p i) (bs.getD i 0)) n) from
    this _ (Nat.le_refl _)
  intro n hn
  induction n with
  | zero => exact keeps_pure ()
  | succ n ih =>
    rw [forRange_succ]
    exact keeps_bind (ih (by omega)) fun _ => keeps_store hf (hm n (by omega))

end Frames

/-! ## The file services of `file.c` -/

/-- The services of `filesys/file.c` over `Files`, and those of `env` for the rest.
`file_read` reads into the caller's buffer, of which it returns the bytes it read. -/
def file_env (malloc_ok : Bool) (env : Env Files Nat) : Env Files Nat :=
  { env with
    file_length := fun f w => file_length w f
    file_read := fun f size w =>
      let r := file_read malloc_ok w f (fun _ => 0) size
      ((List.range r.1.toNat).map r.2.1, r.2.2)
    file_write := fun f bs w => file_write malloc_ok w f (fun i => bs.getD i 0) (toInt bs.length)
    file_seek := fun f new_pos w => file_seek w f new_pos
    file_tell := fun f w => file_tell w f
    file_read_length := fun f size w => by
      have h := @file_read_fst_mem malloc_ok w f (fun _ => 0) size
      simp only [List.length_map, List.length_range]
      omega }

section FileEnv

variable {malloc_ok : Bool} {env : Env Files Nat}

/-- A read of the file service moves the position by the number of bytes it returns. -/
theorem file_tell_file_env_read (f : Nat) (size : Int) (w : Files) :
    file_tell ((file_env malloc_ok env).file_read f size w).2 f =
      file_tell w f + ((file_env malloc_ok env).file_read f size w).1.length := by
  have hn := (@file_read_fst_mem malloc_ok w f (fun _ => 0) size).1
  simp only [file_env, List.length_map, List.length_range, file_tell_file_read]
  omega

end FileEnv

/-- A process with a file of ten bytes open as fd 2, at position 0. -/
def ten_bytes_open : KState Files Nat where
  mem := ⟨fun _ => false, fun _ => false, fun _ => 0, rfl⟩
  fds := ⟨[⟨2, 0⟩], 3⟩
  world := ⟨fun _ _ => 0, fun _ => ⟨⟨0, 1, false, ⟨1, 10⟩⟩, 0⟩⟩
  trace := []

/-- The services that are not `file.c`'s, answered without effect. -/
def quiet_rest : Env Files Nat where
  process_execute _ w := (2, w)
  process_wait _ w := (0, w)
  filesys_create _ _ w := (true, w)
  dir_open_root _ := some []
  dir_remove _ w := (true, w)
  filesys_open _ w := (some 0, w)
  file_length _ _ := 0
  file_read _ _ w := ([], w)
  file_write _ _ w := (0, w)
  file_seek _ _ w := w
  file_tell _ _ := 0
  input_getc w := (0x61, w)
  putbuf _ w := w
  timer_msleep _ w := w
  file_read_length _ _ _ := Nat.zero_le _

/-! ## Positions -/

theorem toWord_toInt {p : Nat} (h : p < 2 ^ 32) : toWord (toInt p) = p := by
  unfold toWord toInt
  split <;> omega

theorem toWord_lt (x : Int) : toWord x < 2 ^ 32 := by
  unfold toWord
  omega

section Positions

variable {malloc_ok : Bool} {env : Env Files Nat} {s s' : KState Files Nat} {fd : Int} {f : Nat}

theorem tell_of_open (hf : s.fds.get_file fd = some f) :
    tell (file_env malloc_ok env) fd s = (.ok (toWord (file_tell s.world f)), s) := by
  simp [tell, get_file, bind_apply, hf, file_env]

/-- Past the end, `seek` returns before `file_seek`: nothing changes. -/
theorem seek_past_end {p : Nat} (hf : s.fds.get_file fd = some f)
    (hp : toWord (file_length s.world f) < p) :
    seek (file_env malloc_ok env) fd p s = (.ok (), s) := by
  simp [seek, get_file, bind_apply, hf, file_env, hp]

theorem seek_within {p : Nat} (hf : s.fds.get_file fd = some f)
    (hp : p ≤ toWord (file_length s.world f)) :
    seek (file_env malloc_ok env) fd p s =
      (.ok (), { s with world := file_seek s.world f (toInt p) }) := by
  simp [seek, get_file, bind_apply, hf, file_env, Nat.not_lt.mpr hp]

/-- Up to the end of the file, `tell` reports the position `seek` set. -/
theorem tell_after_seek_within {p : Nat} (hf : s.fds.get_file fd = some f)
    (hp : p ≤ toWord (file_length s.world f)) :
    (do seek (file_env malloc_ok env) fd p; tell (file_env malloc_ok env) fd) s =
      (.ok p, { s with world := file_seek s.world f (toInt p) }) := by
  rw [bind_of_ok (seek_within hf hp)]
  rw [tell_of_open (s := { s with world := file_seek s.world f (toInt p) }) hf,
    file_tell_file_seek, toWord_toInt (Nat.lt_of_le_of_lt hp (toWord_lt _))]

/-- A `read` of a file that returns `k` has moved the file's position by `k`. -/
theorem read_moves_position {buffer size : Nat} {k : Int} (hfd : fd ≠ 0)
    (hf : s.fds.get_file fd = some f)
    (h : read (file_env malloc_ok env) fd buffer size s = (.ok k, s')) :
    file_tell s'.world f = file_tell s.world f + k := by
  obtain ⟨_, s₁, hv, h⟩ := bind_eq_ok h
  have hw₁ := (keeps_validate_buffer traceFree_world buffer size).eq hv
  have hfds₁ := (keeps_validate_buffer traceFree_fds buffer size).eq hv
  rw [if_neg hfd, bind_of_ok (get_file_apply fd), hfds₁, hf] at h
  obtain ⟨bs, s₂, hbs, h⟩ := bind_eq_ok h
  rw [service_apply, Prod.mk.injEq, Except.ok.injEq] at hbs
  obtain ⟨_, s₃, hst, h⟩ := bind_eq_ok h
  have hw₃ := (keeps_store_bytes traceFree_world buffer bs fun _ _ _ => rfl).eq hst
  rw [pure_apply, Prod.mk.injEq, Except.ok.injEq] at h
  obtain ⟨rfl, rfl⟩ := h
  obtain ⟨rfl, rfl⟩ := hbs
  dsimp only at hw₃
  rw [hw₃, file_tell_file_env_read, hw₁]

/-- A `write` to a file that returns `k` has moved the file's position by `k`. -/
theorem write_moves_position {buffer size : Nat} {k : Int} (hfd : fd ≠ 1)
    (hf : s.fds.get_file fd = some f)
    (h : write (file_env malloc_ok env) fd buffer size s = (.ok k, s')) :
    file_tell s'.world f = file_tell s.world f + k := by
  obtain ⟨_, s₁, hv, h⟩ := bind_eq_ok h
  have hw₁ := (keeps_validate_buffer traceFree_world buffer size).eq hv
  have hfds₁ := (keeps_validate_buffer traceFree_fds buffer size).eq hv
  rw [if_neg hfd, bind_of_ok (get_file_apply fd), hfds₁, hf] at h
  obtain ⟨bs, s₂, hlb, h⟩ := bind_eq_ok h
  have hw₂ := (keeps_load_bytes traceFree_world buffer size).eq hlb
  rw [service_apply, Prod.mk.injEq, Except.ok.injEq] at h
  obtain ⟨rfl, rfl⟩ := h
  dsimp only [file_env]
  rw [file_tell_file_write, hw₂, hw₁]

end Positions

/-! ## Reading the keyboard -/

theorem ptr_add_of_lt {p i : Nat} (h : p + i < 2 ^ 32) : ptr_add p i = p + i := by
  unfold ptr_add
  omega

section Keyboard

variable {s : KState W File}

/-- `*(int *) p = w` to four writable bytes below `2 ^ 32`. -/
theorem store_word_of_writable {p w : Nat} (hp : p + 4 ≤ 2 ^ 32)
    (hmw : ∀ k < 4, s.mem.mapped (p + k) = true ∧ s.mem.writable (p + k) = true) :
    ∃ tr, store_word p w s = (.ok (), { s with
      mem := (((s.mem.write p (UInt8.ofNat w)).write (p + 1) (UInt8.ofNat (w / 2 ^ 8))).write
        (p + 2) (UInt8.ofNat (w / 2 ^ 16))).write (p + 3) (UInt8.ofNat (w / 2 ^ 24)),
      trace := tr }) := by
  obtain ⟨hm₀, hw₀⟩ : s.mem.mapped p = true ∧ s.mem.writable p = true := hmw 0 (by omega)
  obtain ⟨hm₁, hw₁⟩ := hmw 1 (by omega)
  obtain ⟨hm₂, hw₂⟩ := hmw 2 (by omega)
  obtain ⟨hm₃, hw₃⟩ := hmw 3 (by omega)
  refine ⟨.store (p + 3) :: .store (p + 2) :: .store (p + 1) :: .store p :: s.trace, ?_⟩
  unfold store_word
  rw [ptr_add_of_lt (by omega), ptr_add_of_lt (by omega), ptr_add_of_lt (by omega)]
  -- each store finds its byte writable in the memory the stores before it left
  simp only [bind_apply, store_of_writable, Mem.write_mapped, Mem.write_writable, hm₀, hw₀, hm₁,
    hw₁, hm₂, hw₂, hm₃, hw₃]
  rfl

/-- What one iteration of the keyboard loop of `read` does to memory: a byte at
`buffer + i` and zeros in the three bytes after it. -/
def StoresWord (buffer i : Nat) (m m' : Mem) : Prop :=
  m'.mapped = m.mapped ∧ m'.writable = m.writable ∧ ∃ c : UInt8, ∀ q,
    m'.byte q = if q = buffer + i then c
      else if buffer + i < q ∧ q < buffer + i + 4 then 0 else m.byte q

/-- One iteration of the keyboard loop of `read`. -/
theorem keyboard_step (env : Env W File) {buffer i : Nat} {t : KState W File}
    (hend : buffer + i + 4 ≤ 2 ^ 32)
    (hmw : ∀ k < 4, t.mem.mapped (buffer + i + k) = true ∧ t.mem.writable (buffer + i + k) = true) :
    ∃ t', (do
        let c ← service env.input_getc
        store_word (ptr_add buffer i) c.toNat
        let b ← load (ptr_add buffer i)
        modify fun s : KState W File => { s with world := env.putbuf [b] s.world }) t =
        (.ok (), t') ∧
      StoresWord buffer i t.mem t'.mem := by
  have hp : ptr_add buffer i = buffer + i := ptr_add_of_lt (by omega)
  obtain ⟨tr, hst⟩ := store_word_of_writable (s := { t with world := (env.input_getc t.world).2 })
    (w := (env.input_getc t.world).1.toNat) hend hmw
  have hc : (env.input_getc t.world).1.toNat < 2 ^ 8 := UInt8.toNat_lt _
  refine ⟨?t', ?run, ?stores⟩
  case run =>
    rw [bind_of_ok (service_apply _), hp, bind_of_ok hst,
      bind_of_ok (load_of_mapped (by simpa using (hmw 0 (by omega)).1)), modify_apply]
  case stores =>
    refine ⟨rfl, rfl, (env.input_getc t.world).1, fun q => ?_⟩
    -- the three high bytes of a character are zero
    have h8 : (env.input_getc t.world).1.toNat / 2 ^ 8 = 0 := by omega
    have h16 : (env.input_getc t.world).1.toNat / 2 ^ 16 = 0 := by omega
    have h24 : (env.input_getc t.world).1.toNat / 2 ^ 24 = 0 := by omega
    simp only [KState.log_mem, Mem.write_byte, h8, h16, h24, UInt8.ofNat_toNat]
    split_ifs <;> first | rfl | omega

/-- The keyboard loop of `read`, for `n` iterations whose words stay in writable memory:
from `buffer` on it writes `n + 3` bytes, the last three of them zero. -/
theorem forRange_stores_words (buffer : Nat) {body : Nat → K W File Unit} {n : Nat}
    (hbody : ∀ i < n, ∀ t : KState W File, t.mem.mapped = s.mem.mapped →
      t.mem.writable = s.mem.writable →
      ∃ t', body i t = (.ok (), t') ∧ StoresWord buffer i t.mem t'.mem) :
    ∃ s', forRange body n s = (.ok (), s') ∧ s'.mem.mapped = s.mem.mapped ∧
      s'.mem.writable = s.mem.writable ∧
      (∀ q, q < buffer ∨ buffer + n + 3 ≤ q → s'.mem.byte q = s.mem.byte q) ∧
      (0 < n → ∀ j < 3, s'.mem.byte (buffer + n + j) = 0) := by
  induction n with
  | zero => exact ⟨s, rfl, rfl, rfl, fun _ _ => rfl, fun h => absurd h (Nat.lt_irrefl 0)⟩
  | succ n ih =>
    obtain ⟨s', hrun, hm, hw, hframe, -⟩ := ih fun i hi => hbody i (by omega)
    obtain ⟨t', hstep, hm', hw', c, hbyte⟩ := hbody n (by omega) s' hm hw
    refine ⟨t', ?_, hm'.trans hm, hw'.trans hw, fun q hq => ?_, fun _ j hj => ?_⟩
    · rw [forRange_succ, bind_of_ok hrun, hstep]
    · -- below the buffer, or past the bytes this iteration stored
      rw [hbyte q, if_neg (by omega), if_neg (by omega), hframe q (by omega)]
    · rw [hbyte, if_neg (by omega), if_pos (by omega)]

end Keyboard

/-- `read (0, buffer, size)` into writable memory with room for three bytes after the
buffer: it returns `size` and writes from `buffer` on `size + 3` bytes, the last three
of them zero. -/
theorem read_keyboard_past_buffer (env : Env W File) (s : KState W File) {buffer size : Nat}
    (hsize : 0 < size) (hbuf : 0 < buffer) (hend : buffer + size + 3 ≤ PHYS_BASE)
    (hmw : ∀ q, buffer ≤ q → q < buffer + size + 3 →
      s.mem.mapped q = true ∧ s.mem.writable q = true) :
    ∃ s', read env 0 buffer size s = (.ok (toInt size), s') ∧
      (∀ j < 3, s'.mem.byte (buffer + size + j) = 0) ∧
      ∀ q, q < buffer ∨ buffer + size + 3 ≤ q → s'.mem.byte q = s.mem.byte q := by
  have hP : PHYS_BASE < 2 ^ 32 := by decide
  -- `validate_buffer` passes on every byte of the buffer
  obtain ⟨tr, hv⟩ : ∃ tr, validate_buffer buffer size s = (.ok (), { s with trace := tr }) :=
    validate_buffer_of_valid fun i hi => by
      rw [ptr_add_of_lt (by omega)]
      exact ⟨by omega, by omega, (hmw _ (by omega) (by omega)).1⟩
  -- then every word the loop stores lies in the writable bytes
  obtain ⟨s', hloop, -, -, hframe, hzero⟩ :=
    forRange_stores_words (s := { s with trace := tr }) buffer (n := size) fun i hi t hm hw =>
      keyboard_step env (by omega) fun k hk => by
        rw [hm, hw]
        exact hmw _ (by omega) (by omega)
  refine ⟨s', ?_, hzero hsize, hframe⟩
  rw [read, bind_of_ok hv, if_pos rfl, bind_of_ok hloop, pure_apply]

/-- `char buffer[10]` at the start of a writable page, followed by a byte 42. -/
def keyboard_mem : Mem where
  mapped q := decide (0x8049000 ≤ q ∧ q < 0x804A000)
  writable q := decide (0x8049000 ≤ q ∧ q < 0x804A000)
  byte q := if q = 0x804900A then 42 else 0
  null_unmapped := by decide

theorem read_keyboard_past_buffer_ten :
    0 < 10 ∧ 0 < 0x8049000 ∧ 0x8049000 + 10 + 3 ≤ PHYS_BASE ∧
      (∀ q, 0x8049000 ≤ q → q < 0x8049000 + 10 + 3 →
        keyboard_mem.mapped q = true ∧ keyboard_mem.writable q = true) ∧
      keyboard_mem.byte (0x8049000 + 10) = 42 ∧
      ∃ s', read quietEnv 0 0x8049000 10 ⟨keyboard_mem, Fds.init, (), []⟩ = (.ok (toInt 10), s') ∧
        (∀ j < 3, s'.mem.byte (0x8049000 + 10 + j) = 0) ∧
        ∀ q, q < 0x8049000 ∨ 0x8049000 + 10 + 3 ≤ q → s'.mem.byte q = keyboard_mem.byte q := by
  have hmw : ∀ q, 0x8049000 ≤ q → q < 0x8049000 + 10 + 3 →
      keyboard_mem.mapped q = true ∧ keyboard_mem.writable q = true := fun q h₁ h₂ => by
    simp only [keyboard_mem, decide_eq_true_eq]
    omega
  exact ⟨by decide, by decide, by decide, hmw, rfl,
    read_keyboard_past_buffer quietEnv ⟨keyboard_mem, Fds.init, (), []⟩ (by decide) (by decide)
      (by decide) hmw⟩

/-- `read` of a file stores at most `size` bytes, from `buffer` on: every other byte
keeps its value. -/
theorem read_file_frame (env : Env W File) {s s' : KState W File} {fd : Int} {buffer size q : Nat}
    {k : Int} (hfd : fd ≠ 0) (hq : ∀ i < size, q ≠ ptr_add buffer i)
    (h : read env fd buffer size s = (.ok k, s')) : s'.mem.byte q = s.mem.byte q := by
  obtain ⟨_, s₁, hv, h⟩ := bind_eq_ok h
  have hb₁ := (keeps_validate_buffer (traceFree_byte q) buffer size).eq hv
  rw [if_neg hfd, bind_of_ok (get_file_apply fd)] at h
  rcases hg : s₁.fds.get_file fd with _ | g
  · -- no file: nothing is stored
    rw [hg] at h
    dsimp only at h
    rw [pure_apply, Prod.mk.injEq] at h
    rw [← h.2, hb₁]
  · rw [hg] at h
    dsimp only at h
    obtain ⟨bs, s₂, hbs, h⟩ := bind_eq_ok h
    rw [service_apply, Prod.mk.injEq, Except.ok.injEq] at hbs
    obtain ⟨_, s₃, hst, h⟩ := bind_eq_ok h
    rw [pure_apply, Prod.mk.injEq] at h
    -- `file_read` returns at most `size` bytes, stored below `buffer + size`
    have hlen : bs.length ≤ size := hbs.1 ▸ Nat.le_trans (env.file_read_length g _ s₁.world)
      (toInt_toNat_le size)
    have hkeep := (keeps_store_bytes (traceFree_byte q) buffer bs fun i hi t => by
      simp only [Mem.write_byte]
      rw [if_neg (hq i (by omega))]).eq hst
    rw [← h.2, hkeep, ← hbs.2, hb₁]

/-- The calls on a file open as `fd`: `seek` within the file sets the position that
`tell` then reports; a `read` or a `write` that returns `k` has moved the position by
`k`; and a `read` stores nowhere but in its buffer. -/
theorem fd_calls_spec {malloc_ok : Bool} {env : Env Files Nat} {s : KState Files Nat} {fd : Int}
    {f : Nat} (hf : s.fds.get_file fd = some f) :
    (∀ p ≤ toWord (file_length s.world f),
      (do seek (file_env malloc_ok env) fd p; tell (file_env malloc_ok env) fd) s =
        (.ok p, { s with world := file_seek s.world f (toInt p) })) ∧
    (∀ buffer size k (t : KState Files Nat), fd ≠ 0 →
      read (file_env malloc_ok env) fd buffer size s = (.ok k, t) →
        file_tell t.world f = file_tell s.world f + k ∧
        ∀ q, (∀ i < size, q ≠ ptr_add buffer i) → t.mem.byte q = s.mem.byte q) ∧
    (∀ buffer size k (t : KState Files Nat), fd ≠ 1 →
      write (file_env malloc_ok env) fd buffer size s = (.ok k, t) →
        file_tell t.world f = file_tell s.world f + k) :=
  ⟨fun _ hp => tell_after_seek_within hf hp,
    fun _ _ _ _ hfd h => ⟨read_moves_position hfd hf h, fun _ hq => read_file_frame _ hfd hq h⟩,
    fun _ _ _ _ hfd h => write_moves_position hfd hf h⟩

theorem fd_calls_spec_ten_bytes :
    ten_bytes_open.fds.get_file 2 = some 0 ∧
    (∀ p ≤ toWord (file_length ten_bytes_open.world 0),
      (do seek (file_env true quiet_rest) 2 p; tell (file_env true quiet_rest) 2) ten_bytes_open =
        (.ok p, { ten_bytes_open with world := file_seek ten_bytes_open.world 0 (toInt p) })) ∧
    (∀ buffer size k (t : KState Files Nat), (2 : Int) ≠ 0 →
      read (file_env true quiet_rest) 2 buffer size ten_bytes_open = (.ok k, t) →
        file_tell t.world 0 = file_tell ten_bytes_open.world 0 + k ∧
        ∀ q, (∀ i < size, q ≠ ptr_add buffer i) → t.mem.byte q = ten_bytes_open.mem.byte q) ∧
    (∀ buffer size k (t : KState Files Nat), (2 : Int) ≠ 1 →
      write (file_env true quiet_rest) 2 buffer size ten_bytes_open = (.ok k, t) →
        file_tell t.world 0 = file_tell ten_bytes_open.world 0 + k) :=
  ⟨rfl, fd_calls_spec rfl⟩

theorem tell_after_seek_past_end (malloc_ok : Bool) (env : Env Files Nat) :
    filesize (file_env malloc_ok env) 2 ten_bytes_open = (.ok 10, ten_bytes_open) ∧
      (do seek (file_env malloc_ok env) 2 20; tell (file_env malloc_ok env) 2) ten_bytes_open =
        (.ok 0, ten_bytes_open) := by
  have hf : ten_bytes_open.fds.get_file 2 = some 0 := rfl
  refine ⟨rfl, ?_⟩
  rw [bind_of_ok (seek_past_end hf (by decide)), tell_of_open hf]
  rfl

end Pintos.Syscall
