import Pintos.Census
import Pintos.Transition

/-!
# The readers-writers protocol of an inode

`inode_read_at` and `inode_write_at` on one inode, run by the threads of a
finite type `τ`, each thread at a statement of one of them. A step is one
statement of one thread; `sema_down` on a semaphore whose value is 0 is not
enabled, which is how `sema_down`'s loop around `thread_block` behaves, and
`sema_up` increments the value (the woken thread then retries its `sema_down`).
The read and write loops touch none of the shared variables, so each is one
position. The semaphore values and `current_readers` are `unsigned`; the
invariant shows that a decrement never meets 0, so they are modelled as `Nat`.

The invariant `Inv` counts threads by position (`Census.count`): `readers_lock`
plus the threads that hold it is 1; `current_readers` is the number of threads
between the increment and the decrement; `writers_lock`, plus the writers, plus
one while the readers hold it, is 1.
-/

namespace Pintos.Filesys.ReadersWriters

open Census Transition

/-- Where a thread is in `inode_read_at` or `inode_write_at`. -/
inductive Pc
  /-- In neither function. -/
  | idle
  /-- `if (inode->current_readers == 0)`, holding `readers_lock`. -/
  | read_check
  /-- `sema_down (&inode->writers_lock)`. -/
  | read_wait
  /-- `inode->current_readers++`. -/
  | read_inc
  /-- `sema_up (&inode->readers_lock)`. -/
  | read_up
  /-- The read loop; then `sema_down (&inode->readers_lock)`. -/
  | reading
  /-- `inode->current_readers--`. -/
  | read_dec
  /-- `if (inode->current_readers == 0)`. -/
  | read_check_last
  /-- `sema_up (&inode->writers_lock)`. -/
  | read_up_writers
  /-- `sema_up (&inode->readers_lock)`, then return. -/
  | read_done
  /-- The write loop; then `sema_up (&inode->writers_lock)`. -/
  | writing
  deriving DecidableEq, Repr

/-- The shared variables of the inode and the position of every thread. -/
structure St (τ : Type) where
  pc : τ → Pc
  readers_lock : Nat
  writers_lock : Nat
  current_readers : Nat

inductive Act (τ : Type)
  /-- Call `inode_read_at`: its first `sema_down (&inode->readers_lock)`. -/
  | read (t : τ)
  /-- Call `inode_write_at`: its `sema_down (&inode->writers_lock)`. -/
  | write (t : τ)
  /-- The next statement of a thread inside one of the functions. -/
  | next (t : τ)

variable {τ : Type} [DecidableEq τ]

def step (s : St τ) : Act τ → Option (St τ)
  | .read t =>
    if s.pc t = .idle ∧ 0 < s.readers_lock then
      some { s with
        pc := Function.update s.pc t .read_check
        readers_lock := s.readers_lock - 1 }
    else none
  | .write t =>
    if s.pc t = .idle ∧ 0 < s.writers_lock then
      some { s with
        pc := Function.update s.pc t .writing
        writers_lock := s.writers_lock - 1 }
    else none
  | .next t =>
    match s.pc t with
    | .idle => none
    | .read_check =>
      some { s with
        pc := Function.update s.pc t (if s.current_readers = 0 then .read_wait else .read_inc) }
    | .read_wait =>
      if 0 < s.writers_lock then
        some { s with
          pc := Function.update s.pc t .read_inc
          writers_lock := s.writers_lock - 1 }
      else none
    | .read_inc =>
      some { s with
        pc := Function.update s.pc t .read_up
        current_readers := s.current_readers + 1 }
    | .read_up =>
      some { s with
        pc := Function.update s.pc t .reading
        readers_lock := s.readers_lock + 1 }
    | .reading =>
      if 0 < s.readers_lock then
        some { s with
          pc := Function.update s.pc t .read_dec
          readers_lock := s.readers_lock - 1 }
      else none
    | .read_dec =>
      some { s with
        pc := Function.update s.pc t .read_check_last
        current_readers := s.current_readers - 1 }
    | .read_check_last =>
      some { s with
        pc := Function.update s.pc t
          (if s.current_readers = 0 then .read_up_writers else .read_done) }
    | .read_up_writers =>
      some { s with
        pc := Function.update s.pc t .read_done
        writers_lock := s.writers_lock + 1 }
    | .read_done =>
      some { s with
        pc := Function.update s.pc t .idle
        readers_lock := s.readers_lock + 1 }
    | .writing =>
      some { s with
        pc := Function.update s.pc t .idle
        writers_lock := s.writers_lock + 1 }

/-- `inode_open`'s `sema_init`s and `current_readers = 0`, with no thread inside. -/
def init : St τ := ⟨fun _ => .idle, 1, 1, 0⟩

/-! ## Classes of positions -/

/-- Holding `readers_lock`. -/
def holds_readers_lock : Pc → Bool
  | .read_check | .read_wait | .read_inc | .read_up
  | .read_dec | .read_check_last | .read_up_writers | .read_done => true
  | _ => false

/-- Between `current_readers++` and `current_readers--`. -/
def counted : Pc → Bool
  | .read_up | .reading | .read_dec => true
  | _ => false

def writing : Pc → Bool
  | .writing => true
  | _ => false

def is_reading : Pc → Bool
  | .reading => true
  | _ => false

/-- The reader that may hold `writers_lock` for all readers while
`current_readers` is 0: the first one in, and the last one out. -/
def owning : Pc → Bool
  | .read_inc | .read_check_last | .read_up_writers => true
  | _ => false

/-- The positions reached only when `current_readers` was read as 0. -/
def zeroed : Pc → Bool
  | .read_wait | .read_up_writers => true
  | _ => false

theorem holds_of_owning {p : Pc} (h : owning p = true) : holds_readers_lock p = true := by
  cases p <;> simp_all [owning, holds_readers_lock]

theorem holds_of_zeroed {p : Pc} (h : zeroed p = true) : holds_readers_lock p = true := by
  cases p <;> simp_all [zeroed, holds_readers_lock]

theorem counted_of_is_reading {p : Pc} (h : is_reading p = true) : counted p = true := by
  cases p <;> simp_all [is_reading, counted]

/-! ## The invariant -/

variable [Fintype τ]

structure Inv (s : St τ) : Prop where
  readers_lock : s.readers_lock + count s.pc holds_readers_lock = 1
  current_readers : s.current_readers = count s.pc counted
  writers_lock :
    s.writers_lock + count s.pc writing + min 1 (s.current_readers + count s.pc owning) = 1
  zeroed : count s.pc zeroed = 0 ∨ s.current_readers = 0

omit [DecidableEq τ] in
theorem inv_init : Inv (init : St τ) := by
  have hidle : ∀ P : Pc → Bool, P .idle = false → count (fun _ : τ => Pc.idle) P = 0 :=
    fun _ hP => count_eq_zero.mpr fun _ => hP
  refine ⟨?_, ?_, ?_, Or.inr rfl⟩
  · show 1 + count (fun _ : τ => Pc.idle) holds_readers_lock = 1
    rw [hidle _ rfl]
  · show 0 = count (fun _ : τ => Pc.idle) counted
    rw [hidle _ rfl]
  · show 1 + count (fun _ : τ => Pc.idle) writing + min 1 (0 + count (fun _ : τ => Pc.idle) owning) = 1
    rw [hidle _ rfl, hidle _ rfl]
    omega

/-- One thread moves from `p` to `p'`: it leaves the classes of `p` and enters
those of `p'`; every other thread stays where it is. -/
theorem moves {s : St τ} {t : τ} {p : Pc} (hp : s.pc t = p) (p' : Pc) :
    let f := Function.update s.pc t p'
    count f holds_readers_lock + (holds_readers_lock p).toNat =
        count s.pc holds_readers_lock + (holds_readers_lock p').toNat ∧
      count f counted + (counted p).toNat = count s.pc counted + (counted p').toNat ∧
      count f writing + (writing p).toNat = count s.pc writing + (writing p').toNat ∧
      count f owning + (owning p).toNat = count s.pc owning + (owning p').toNat ∧
      count f zeroed + (zeroed p).toNat = count s.pc zeroed + (zeroed p').toNat := by
  subst hp
  exact ⟨count_update t p', count_update t p', count_update t p', count_update t p',
    count_update t p'⟩

/-- The thread holding `readers_lock` is the only one in any class inside it. -/
theorem Inv.alone {s : St τ} (hs : Inv s) {t : τ} (ht : holds_readers_lock (s.pc t) = true)
    {Q : Pc → Bool} (hQ : ∀ p, Q p = true → holds_readers_lock p = true) :
    count s.pc Q = (Q (s.pc t)).toNat :=
  count_of_alone hQ (by have := hs.readers_lock; omega) ht

theorem inv_step : Stable step (Inv (τ := τ)) := by
  intro s a s' hs h
  have hrl := hs.readers_lock
  have hcr := hs.current_readers
  have hwl := hs.writers_lock
  have hz := hs.zeroed
  cases a with
  | read t =>
    simp only [step] at h
    split at h
    · rename_i hg
      obtain rfl := Option.some.inj h
      obtain ⟨h1, h2, h3, h4, h5⟩ := moves hg.1 .read_check
      simp only [holds_readers_lock, counted, writing, owning, zeroed, Bool.toNat_true,
        Bool.toNat_false] at h1 h2 h3 h4 h5
      refine ⟨?_, ?_, ?_, ?_⟩ <;> dsimp only <;> omega
    · cases h
  | write t =>
    simp only [step] at h
    split at h
    · rename_i hg
      obtain rfl := Option.some.inj h
      obtain ⟨h1, h2, h3, h4, h5⟩ := moves hg.1 .writing
      simp only [holds_readers_lock, counted, writing, owning, zeroed, Bool.toNat_true,
        Bool.toNat_false] at h1 h2 h3 h4 h5
      refine ⟨?_, ?_, ?_, ?_⟩ <;> dsimp only <;> omega
    · cases h
  | next t =>
    cases hp : s.pc t with
    | idle => simp [step, hp] at h
    | read_check =>
      simp only [step, hp] at h
      obtain rfl := Option.some.inj h
      by_cases h0 : s.current_readers = 0
      · obtain ⟨h1, h2, h3, h4, h5⟩ := moves hp .read_wait
        simp only [holds_readers_lock, counted, writing, owning, zeroed, Bool.toNat_true,
          Bool.toNat_false] at h1 h2 h3 h4 h5
        simp only [h0, ↓reduceIte]
        refine ⟨?_, ?_, ?_, ?_⟩ <;> dsimp only <;> omega
      · obtain ⟨h1, h2, h3, h4, h5⟩ := moves hp .read_inc
        simp only [holds_readers_lock, counted, writing, owning, zeroed, Bool.toNat_true,
          Bool.toNat_false] at h1 h2 h3 h4 h5
        simp only [h0, ↓reduceIte]
        refine ⟨?_, ?_, ?_, ?_⟩ <;> dsimp only <;> omega
    | read_wait =>
      simp only [step, hp] at h
      split at h
      · obtain rfl := Option.some.inj h
        obtain ⟨h1, h2, h3, h4, h5⟩ := moves hp .read_inc
        simp only [holds_readers_lock, counted, writing, owning, zeroed, Bool.toNat_true,
          Bool.toNat_false] at h1 h2 h3 h4 h5
        refine ⟨?_, ?_, ?_, ?_⟩ <;> dsimp only <;> omega
      · cases h
    | read_inc =>
      simp only [step, hp] at h
      obtain rfl := Option.some.inj h
      obtain ⟨h1, h2, h3, h4, h5⟩ := moves hp .read_up
      simp only [holds_readers_lock, counted, writing, owning, zeroed, Bool.toNat_true,
        Bool.toNat_false] at h1 h2 h3 h4 h5
      -- the thread holds `readers_lock`, so no thread is at a `zeroed` position
      have hZ : count s.pc zeroed = 0 := by
        have h := hs.alone (t := t) (by rw [hp]; rfl) fun _ => holds_of_zeroed
        rwa [hp] at h
      refine ⟨?_, ?_, ?_, ?_⟩ <;> dsimp only <;> omega
    | read_up =>
      simp only [step, hp] at h
      obtain rfl := Option.some.inj h
      obtain ⟨h1, h2, h3, h4, h5⟩ := moves hp .reading
      simp only [holds_readers_lock, counted, writing, owning, zeroed, Bool.toNat_true,
        Bool.toNat_false] at h1 h2 h3 h4 h5
      refine ⟨?_, ?_, ?_, ?_⟩ <;> dsimp only <;> omega
    | reading =>
      simp only [step, hp] at h
      split at h
      · obtain rfl := Option.some.inj h
        obtain ⟨h1, h2, h3, h4, h5⟩ := moves hp .read_dec
        simp only [holds_readers_lock, counted, writing, owning, zeroed, Bool.toNat_true,
          Bool.toNat_false] at h1 h2 h3 h4 h5
        refine ⟨?_, ?_, ?_, ?_⟩ <;> dsimp only <;> omega
      · cases h
    | read_dec =>
      simp only [step, hp] at h
      obtain rfl := Option.some.inj h
      obtain ⟨h1, h2, h3, h4, h5⟩ := moves hp .read_check_last
      simp only [holds_readers_lock, counted, writing, owning, zeroed, Bool.toNat_true,
        Bool.toNat_false] at h1 h2 h3 h4 h5
      -- the thread holds `readers_lock`, so no thread is at a `zeroed` position
      have hZ : count s.pc zeroed = 0 := by
        have h := hs.alone (t := t) (by rw [hp]; rfl) fun _ => holds_of_zeroed
        rwa [hp] at h
      refine ⟨?_, ?_, ?_, ?_⟩ <;> dsimp only <;> omega
    | read_check_last =>
      simp only [step, hp] at h
      obtain rfl := Option.some.inj h
      by_cases h0 : s.current_readers = 0
      · obtain ⟨h1, h2, h3, h4, h5⟩ := moves hp .read_up_writers
        simp only [holds_readers_lock, counted, writing, owning, zeroed, Bool.toNat_true,
          Bool.toNat_false] at h1 h2 h3 h4 h5
        simp only [h0, ↓reduceIte]
        refine ⟨?_, ?_, ?_, ?_⟩ <;> dsimp only <;> omega
      · obtain ⟨h1, h2, h3, h4, h5⟩ := moves hp .read_done
        simp only [holds_readers_lock, counted, writing, owning, zeroed, Bool.toNat_true,
          Bool.toNat_false] at h1 h2 h3 h4 h5
        simp only [h0, ↓reduceIte]
        refine ⟨?_, ?_, ?_, ?_⟩ <;> dsimp only <;> omega
    | read_up_writers =>
      simp only [step, hp] at h
      obtain rfl := Option.some.inj h
      obtain ⟨h1, h2, h3, h4, h5⟩ := moves hp .read_done
      simp only [holds_readers_lock, counted, writing, owning, zeroed, Bool.toNat_true,
        Bool.toNat_false] at h1 h2 h3 h4 h5
      -- the thread holds `readers_lock`, so it is the only one at an `owning` position
      have hO : count s.pc owning = 1 := by
        have h := hs.alone (t := t) (by rw [hp]; rfl) fun _ => holds_of_owning
        rwa [hp] at h
      refine ⟨?_, ?_, ?_, ?_⟩ <;> dsimp only <;> omega
    | read_done =>
      simp only [step, hp] at h
      obtain rfl := Option.some.inj h
      obtain ⟨h1, h2, h3, h4, h5⟩ := moves hp .idle
      simp only [holds_readers_lock, counted, writing, owning, zeroed, Bool.toNat_true,
        Bool.toNat_false] at h1 h2 h3 h4 h5
      refine ⟨?_, ?_, ?_, ?_⟩ <;> dsimp only <;> omega
    | writing =>
      simp only [step, hp] at h
      obtain rfl := Option.some.inj h
      obtain ⟨h1, h2, h3, h4, h5⟩ := moves hp .idle
      simp only [holds_readers_lock, counted, writing, owning, zeroed, Bool.toNat_true,
        Bool.toNat_false] at h1 h2 h3 h4 h5
      refine ⟨?_, ?_, ?_, ?_⟩ <;> dsimp only <;> omega

theorem Inv.reachable {s : St τ} (h : Reachable step init s) : Inv s :=
  inv_step.reachable inv_init h

/-- In every reachable state: no writer, or one writer and no reader in the read
loop; `current_readers` counts the readers between its increment and its
decrement; `writers_lock` is at most 1. -/
theorem inode_rw_exclusion (s : St τ) (h : Reachable step init s) :
    (count s.pc writing = 0 ∨ count s.pc writing = 1 ∧ count s.pc is_reading = 0) ∧
    s.current_readers = count s.pc counted ∧ s.writers_lock ≤ 1 := by
  have hs := Inv.reachable h
  have hwl := hs.writers_lock
  have hcr := hs.current_readers
  have hread : count s.pc is_reading ≤ count s.pc counted :=
    count_mono fun _ => counted_of_is_reading
  refine ⟨?_, hcr, by omega⟩
  by_cases hw : count s.pc writing = 0
  · exact Or.inl hw
  · exact Or.inr ⟨by omega, by omega⟩

/-- Two threads: `true` writes and returns, then `false` enters `inode_read_at`, takes
`writers_lock` for the readers and is in its read loop. -/
def reader_after_writer : St Bool :=
  (run step init [.write true, .next true, .read false, .next false, .next false,
    .next false, .next false]).getD init

/-- There, with a reader in the loop, the writer's `sema_down` is not enabled. -/
theorem inode_rw_exclusion_reader_after_writer :
    Reachable step init reader_after_writer ∧ reader_after_writer.pc false = .reading ∧
      (step reader_after_writer (.write true)).isNone ∧
      ((count reader_after_writer.pc writing = 0 ∨
        count reader_after_writer.pc writing = 1 ∧ count reader_after_writer.pc is_reading = 0) ∧
      reader_after_writer.current_readers = count reader_after_writer.pc counted ∧
      reader_after_writer.writers_lock ≤ 1) := by
  have hreach : Reachable step init reader_after_writer :=
    reachable_of_run (show run step init [.write true, .next true, .read false, .next false,
      .next false, .next false, .next false] = some reader_after_writer from rfl)
  exact ⟨hreach, rfl, rfl, inode_rw_exclusion reader_after_writer hreach⟩

end Pintos.Filesys.ReadersWriters
