import Pintos.RingBuffer

/-!
# The interrupt queue of `devices/intq.c`

A `struct intq` is a ring buffer of `INTQ_BUFSIZE` bytes shared by kernel threads and
interrupt handlers. Every call runs with interrupts off. A thread that finds the queue
empty in `intq_getc` (full in `intq_putc`) takes `q->lock`, records itself in
`not_empty` (`not_full`) and blocks in `wait`, still holding the lock; the next call
the other way `signal`s it. Woken, it releases the lock and checks the queue again. An
interrupt handler must not find the queue empty (full): the `ASSERT (!intr_context ())`
in the loop fails.

The model is a step function over the queue, its lock and the threads that use it:
each event is one stretch of code with interrupts off, from a call or a wake-up to the
return or the next block. A thread's `phase` says where it is blocked or was woken:
in `sema_down` of the lock or in `wait`. A failed `ASSERT` is `none`. Two ghost lists
record the bytes `intq_putc` has written into the buffer and those `intq_getc` has
returned, in order.

In every reachable state the bytes returned and those still in the buffer are the bytes
written (`Inv.fifo`), and a thread recorded in `not_empty` (`not_full`) is woken by the
next step that writes (takes) a byte (`step_wakes_not_empty`, `step_wakes_not_full`).
But `lock_acquire` is followed by `wait` without a second look at the queue. A thread
that blocked on the lock while another held it in `wait` may find, when it gets the
lock, that the queue is no longer full (empty), and then `wait`'s `ASSERT` fails
(`resume_lock_assert`).
-/

namespace Pintos.Devices.InterruptQueue

def INTQ_BUFSIZE : Nat := 64

/-- `next (pos)`. -/
def next (pos : Nat) : Nat := (pos + 1) % INTQ_BUFSIZE

/-- `struct intq`, with its `struct lock`: the holder, and the value and waiters of the
lock's semaphore. -/
structure Intq (τ : Type) where
  holder : Option τ
  value : Nat
  waiters : List τ
  not_full : Option τ
  not_empty : Option τ
  buf : Nat → UInt8
  head : Nat
  tail : Nat

variable {τ : Type}

/-- `intq_init (q)`; the buffer keeps what it held. -/
def intq_init (buf : Nat → UInt8) : Intq τ := ⟨none, 1, [], none, none, buf, 0, 0⟩

def intq_empty (q : Intq τ) : Bool := q.head == q.tail

def intq_full (q : Intq τ) : Bool := next q.head == q.tail

/-- The bytes in the queue, oldest first. -/
def Intq.contents (q : Intq τ) : List UInt8 :=
  RingBuffer.contents INTQ_BUFSIZE q.buf q.head q.tail

/-- The members `not_empty` and `not_full`, which `wait` and `signal` take the address of. -/
inductive Waiter
  | not_empty | not_full
  deriving DecidableEq

def Intq.waiter (q : Intq τ) : Waiter → Option τ
  | .not_empty => q.not_empty
  | .not_full => q.not_full

def Intq.set_waiter (q : Intq τ) : Waiter → Option τ → Intq τ
  | .not_empty, t => { q with not_empty := t }
  | .not_full, t => { q with not_full := t }

/-- What a waiter waits out: `intq_empty` for `not_empty`, `intq_full` for `not_full`. -/
def waits_while (q : Intq τ) : Waiter → Bool
  | .not_empty => intq_empty q
  | .not_full => intq_full q

/-- A call in progress: `intq_getc`, or `intq_putc` with its byte. -/
inductive Call
  | getc | putc (byte : UInt8)
  deriving DecidableEq

/-- The member a call waits on. -/
def Call.waiter : Call → Waiter
  | .getc => .not_empty
  | .putc _ => .not_full

/-- Where a thread is: in none of the calls, in `sema_down` of the lock, or in `wait`. -/
inductive Phase
  | idle | lock (c : Call) | wait (c : Call)
  deriving DecidableEq

/-- The queue, the threads, and the ghosts `put` and `got`. -/
structure St (τ : Type) where
  q : Intq τ
  phase : τ → Phase
  blocked : τ → Bool
  put : List UInt8
  got : List UInt8

namespace Intq

variable (q : Intq τ) (w : Waiter) (t : Option τ)

@[simp] theorem holder_set_waiter : (q.set_waiter w t).holder = q.holder := by cases w <;> rfl
@[simp] theorem value_set_waiter : (q.set_waiter w t).value = q.value := by cases w <;> rfl
@[simp] theorem waiters_set_waiter : (q.set_waiter w t).waiters = q.waiters := by cases w <;> rfl
@[simp] theorem buf_set_waiter : (q.set_waiter w t).buf = q.buf := by cases w <;> rfl
@[simp] theorem head_set_waiter : (q.set_waiter w t).head = q.head := by cases w <;> rfl
@[simp] theorem tail_set_waiter : (q.set_waiter w t).tail = q.tail := by cases w <;> rfl
@[simp] theorem contents_set_waiter : (q.set_waiter w t).contents = q.contents := by
  cases w <;> rfl
@[simp] theorem waiter_set_waiter_self : (q.set_waiter w t).waiter w = t := by cases w <;> rfl

variable {q w}

theorem waiter_set_waiter_of_ne {w' : Waiter} (h : w' ≠ w) :
    (q.set_waiter w t).waiter w' = q.waiter w' := by
  cases w <;> cases w' <;> first | rfl | exact absurd rfl h

end Intq

variable [DecidableEq τ]

def init (buf : Nat → UInt8) : St τ := ⟨intq_init buf, fun _ => .idle, fun _ => false, [], []⟩

/-- `thread_block ()` by `t`, which stops at `p`. -/
def thread_block (s : St τ) (t : τ) (p : Phase) : St τ :=
  { s with blocked := Function.update s.blocked t true, phase := Function.update s.phase t p }

/-- `thread_unblock (t)`, which asserts that `t` is blocked. -/
def thread_unblock (s : St τ) (t : τ) : Option (St τ) :=
  if s.blocked t then some { s with blocked := Function.update s.blocked t false } else none

/-- `wait (q, waiter)` by `t` in call `c`. -/
def wait (s : St τ) (t : τ) (c : Call) : Option (St τ) :=
  if waits_while s.q c.waiter then
    some (thread_block { s with q := s.q.set_waiter c.waiter (some t) } t (.wait c))
  else none

/-- `signal (q, waiter)`. -/
def signal (s : St τ) (w : Waiter) : Option (St τ) :=
  if waits_while s.q w then none
  else match s.q.waiter w with
    | none => some s
    | some t => (thread_unblock s t).map fun s => { s with q := s.q.set_waiter w none }

/-- `sema_down (&q->lock.semaphore)`, the rest of `lock_acquire`, and `wait`, by `t` in
call `c`. -/
def sema_down_wait (s : St τ) (t : τ) (c : Call) : Option (St τ) :=
  if s.q.value = 0 then
    some (thread_block { s with q := { s.q with waiters := s.q.waiters ++ [t] } } t (.lock c))
  else wait { s with q := { s.q with value := s.q.value - 1, holder := some t } } t c

/-- `lock_acquire (&q->lock)`, which asserts that `t` does not hold it, then `wait`. -/
def lock_acquire_wait (s : St τ) (t : τ) (c : Call) : Option (St τ) :=
  if s.q.holder = some t then none else sema_down_wait s t c

/-- `lock_release (&q->lock)` by `t`: `sema_up` wakes the first waiter. -/
def lock_release (s : St τ) (t : τ) : Option (St τ) :=
  if s.q.holder ≠ some t then none
  else match s.q.waiters with
    | [] => some { s with q := { s.q with holder := none, value := s.q.value + 1 } }
    | w :: ws => (thread_unblock s w).map fun s =>
        { s with q := { s.q with holder := none, waiters := ws, value := s.q.value + 1 } }

/-- `byte = q->buf[q->tail]; q->tail = next (q->tail)`, and the byte is returned. -/
def take (s : St τ) : St τ :=
  { s with q := { s.q with tail := next s.q.tail }, got := s.got ++ [s.q.buf s.q.tail] }

/-- `q->buf[q->head] = byte; q->head = next (q->head)`. -/
def write (s : St τ) (byte : UInt8) : St τ :=
  { s with q := { s.q with buf := Function.update s.q.buf s.q.head byte, head := next s.q.head },
           put := s.put ++ [byte] }

/-- What follows the `while` loop of a call. -/
def call_body (s : St τ) : Call → Option (St τ)
  | .getc => signal (take s) .not_full
  | .putc byte => signal (write s byte) .not_empty

/-- The `while` loop of a call by thread `t`, and what follows it. -/
def call_loop (s : St τ) (t : τ) (c : Call) : Option (St τ) :=
  if waits_while s.q c.waiter then lock_acquire_wait s t c else call_body s c

/-- `intq_getc (q)` by thread `t`. -/
def intq_getc (s : St τ) (t : τ) : Option (St τ) := call_loop s t .getc

/-- `intq_putc (q, byte)` by thread `t`. -/
def intq_putc (s : St τ) (t : τ) (byte : UInt8) : Option (St τ) := call_loop s t (.putc byte)

/-- A call from an interrupt handler: a queue it would wait on fails the `ASSERT`. -/
def intq_call_irq (s : St τ) (c : Call) : Option (St τ) :=
  if waits_while s.q c.waiter then none else call_body s c

/-- `t`, woken, runs on from where it blocked: in `sema_down`'s loop, or back from
`wait`, when it releases the lock and checks the queue again. -/
def resume (s : St τ) (t : τ) : Option (St τ) :=
  match s.phase t with
  | .idle => some s
  | .lock c => sema_down_wait s t c
  | .wait c => (lock_release s t).bind fun s =>
      call_loop { s with phase := Function.update s.phase t .idle } t c

inductive Event (τ : Type)
  | getc (t : τ)
  | putc (t : τ) (byte : UInt8)
  | run (t : τ)
  | irq_getc
  | irq_putc (byte : UInt8)

/-- One stretch with interrupts off. A thread calls only when it is running and in no
call, and runs on only when it is not blocked; otherwise nothing happens. -/
def step (s : St τ) : Event τ → Option (St τ)
  | .getc t => if s.phase t = .idle ∧ s.blocked t = false then intq_getc s t else some s
  | .putc t byte =>
    if s.phase t = .idle ∧ s.blocked t = false then intq_putc s t byte else some s
  | .run t => if s.blocked t then some s else resume s t
  | .irq_getc => intq_call_irq s .getc
  | .irq_putc byte => intq_call_irq s (.putc byte)

def exec (s : St τ) : List (Event τ) → Option (St τ)
  | [] => some s
  | e :: es => (step s e).bind fun s => exec s es

/-- How far the calls a waiter waits for have got: the bytes written, for `not_empty`,
and the bytes returned, for `not_full`. -/
def St.progress (s : St τ) : Waiter → Nat
  | .not_empty => s.put.length
  | .not_full => s.got.length


section Inversion

variable {s s' : St τ} {t : τ} {c : Call} {w : Waiter}

@[simp] theorem thread_block_q (p : Phase) : (thread_block s t p).q = s.q := rfl
@[simp] theorem thread_block_put (p : Phase) : (thread_block s t p).put = s.put := rfl
@[simp] theorem thread_block_got (p : Phase) : (thread_block s t p).got = s.got := rfl

theorem signal_some (h : signal s w = some s') :
    waits_while s.q w = false ∧
      (s.q.waiter w = none ∧ s' = s ∨
        ∃ u, s.q.waiter w = some u ∧ s.blocked u = true ∧
          s' = { s with q := s.q.set_waiter w none, blocked := Function.update s.blocked u false }) := by
  unfold signal at h
  split_ifs at h with hw
  refine ⟨by simpa using hw, ?_⟩
  cases hslot : s.q.waiter w with
  | none =>
    rw [hslot] at h
    exact Or.inl ⟨rfl, (Option.some.inj h).symm⟩
  | some u =>
    rw [hslot] at h
    by_cases hb : s.blocked u = true
    · simp only [thread_unblock, hb, if_true, Option.map_some] at h
      exact Or.inr ⟨u, rfl, hb, (Option.some.inj h).symm⟩
    · simp only [thread_unblock, hb, Bool.false_eq_true, if_false, Option.map_none,
        reduceCtorEq] at h

theorem lock_release_some (h : lock_release s t = some s') :
    s.q.holder = some t ∧ ∃ (us : List τ) (b : τ → Bool),
      s' = { s with q := { s.q with holder := none, waiters := us, value := s.q.value + 1 },
                    blocked := b } ∧
      (s.q.waiters = [] ∧ us = [] ∧ b = s.blocked ∨
        ∃ u, s.q.waiters = u :: us ∧ s.blocked u = true ∧ b = Function.update s.blocked u false) := by
  unfold lock_release at h
  split_ifs at h with hholder
  refine ⟨not_not.mp hholder, ?_⟩
  cases hws : s.q.waiters with
  | nil =>
    rw [hws] at h
    exact ⟨[], s.blocked, by rw [← hws]; exact (Option.some.inj h).symm, Or.inl ⟨rfl, rfl, rfl⟩⟩
  | cons u us =>
    rw [hws] at h
    by_cases hb : s.blocked u = true
    · simp only [thread_unblock, hb, if_true, Option.map_some] at h
      exact ⟨us, _, (Option.some.inj h).symm, Or.inr ⟨u, rfl, hb, rfl⟩⟩
    · simp only [thread_unblock, hb, Bool.false_eq_true, if_false, Option.map_none,
        reduceCtorEq] at h

theorem sema_down_wait_some (h : sema_down_wait s t c = some s') :
    s.q.value = 0 ∧
        s' = thread_block { s with q := { s.q with waiters := s.q.waiters ++ [t] } } t (.lock c) ∨
      s.q.value ≠ 0 ∧ waits_while s.q c.waiter = true ∧
        s' = thread_block { s with q := (Intq.set_waiter
          { s.q with value := s.q.value - 1, holder := some t } c.waiter (some t)) } t (.wait c) := by
  unfold sema_down_wait at h
  split_ifs at h with hv
  · exact Or.inl ⟨hv, (Option.some.inj h).symm⟩
  · unfold wait at h
    split_ifs at h with hw
    exact Or.inr ⟨hv, hw, (Option.some.inj h).symm⟩

end Inversion


/-- What holds in every reachable state. -/
structure Inv (s : St τ) : Prop where
  head_lt : s.q.head < INTQ_BUFSIZE
  tail_lt : s.q.tail < INTQ_BUFSIZE
  /-- The bytes returned, then those in the buffer, are the bytes written. -/
  fifo : s.got ++ s.q.contents = s.put
  value_eq : s.q.value = if s.q.holder = none then 1 else 0
  /-- The lock's holder is the one thread in `wait`, blocked or woken. -/
  holder_iff : ∀ t, s.q.holder = some t ↔ ∃ c, s.phase t = .wait c
  waiter_blocked : ∀ w t, s.q.waiter w = some t →
    s.blocked t = true ∧ ∃ c : Call, c.waiter = w ∧ s.phase t = .wait c
  waiters_blocked : ∀ t ∈ s.q.waiters, s.blocked t = true ∧ ∃ c, s.phase t = .lock c
  waiters_nodup : s.q.waiters.Nodup

section Invariant

variable {s s' : St τ} {t : τ} {c : Call} {w : Waiter}

omit [DecidableEq τ] in
theorem Inv.initial (buf : Nat → UInt8) : Inv (init buf : St τ) where
  head_lt := by simp [init, intq_init, INTQ_BUFSIZE]
  tail_lt := by simp [init, intq_init, INTQ_BUFSIZE]
  fifo := by simp [init, intq_init, Intq.contents, RingBuffer.contents, RingBuffer.count,
    RingBuffer.window]
  value_eq := rfl
  holder_iff := fun t => by simp [init, intq_init]
  waiter_blocked := fun w t h => by cases w <;> cases h
  waiters_blocked := fun t h => absurd h List.not_mem_nil
  waiters_nodup := List.nodup_nil

omit [DecidableEq τ] in
/-- With the lock free, no member records a thread. -/
theorem Inv.waiter_eq_none (hi : Inv s) (h : s.q.holder = none) (w : Waiter) :
    s.q.waiter w = none := by
  cases hw : s.q.waiter w with
  | none => rfl
  | some u =>
    obtain ⟨-, c, -, hc⟩ := hi.waiter_blocked w u hw
    have hu := (hi.holder_iff u).mpr ⟨c, hc⟩
    rw [h] at hu
    cases hu

omit [DecidableEq τ] in
theorem Inv.not_mem_waiters (hi : Inv s) (hrun : s.blocked t = false) : t ∉ s.q.waiters := by
  intro hmem
  have hb := (hi.waiters_blocked t hmem).1
  rw [hrun] at hb
  cases hb

omit [DecidableEq τ] in
theorem Inv.contents_take (hi : Inv s) (hne : intq_empty s.q = false) :
    s.q.contents = s.q.buf s.q.tail :: (take s).q.contents :=
  RingBuffer.contents_pop hi.head_lt hi.tail_lt (by simpa [intq_empty] using hne)

omit [DecidableEq τ] in
theorem Inv.contents_write (hi : Inv s) (hnf : intq_full s.q = false) (b : UInt8) :
    (write s b).q.contents = s.q.contents ++ [b] :=
  RingBuffer.contents_push hi.head_lt hi.tail_lt (by simpa [intq_full, next] using hnf) b

omit [DecidableEq τ] in
theorem Inv.after_take (hi : Inv s) (hne : intq_empty s.q = false) : Inv (take s) where
  head_lt := hi.head_lt
  tail_lt := Nat.mod_lt _ (by decide)
  fifo := by
    show (s.got ++ [s.q.buf s.q.tail]) ++ (take s).q.contents = s.put
    rw [List.append_assoc, List.singleton_append, ← hi.contents_take hne, hi.fifo]
  value_eq := hi.value_eq
  holder_iff := hi.holder_iff
  waiter_blocked := hi.waiter_blocked
  waiters_blocked := hi.waiters_blocked
  waiters_nodup := hi.waiters_nodup

omit [DecidableEq τ] in
theorem Inv.after_write (hi : Inv s) (hnf : intq_full s.q = false) (b : UInt8) : Inv (write s b) where
  head_lt := Nat.mod_lt _ (by decide)
  tail_lt := hi.tail_lt
  fifo := by
    show s.got ++ (write s b).q.contents = s.put ++ [b]
    rw [hi.contents_write hnf, ← List.append_assoc, hi.fifo]
  value_eq := hi.value_eq
  holder_iff := hi.holder_iff
  waiter_blocked := hi.waiter_blocked
  waiters_blocked := hi.waiters_blocked
  waiters_nodup := hi.waiters_nodup

theorem Inv.after_signal (hi : Inv s) (h : signal s w = some s') : Inv s' := by
  obtain ⟨-, ⟨-, rfl⟩ | ⟨u, hu, -, rfl⟩⟩ := signal_some h
  · exact hi
  · obtain ⟨c, hcw, hc⟩ := (hi.waiter_blocked w u hu).2
    -- `u` waits on `w`: it is recorded in no other member and is not on the lock
    have hother : ∀ w' v, w' ≠ w → s.q.waiter w' = some v → v ≠ u := by
      rintro w' v hw' hv rfl
      obtain ⟨c', hcw', hc'⟩ := (hi.waiter_blocked w' v hv).2
      rw [hc] at hc'
      cases hc'
      exact hw' (hcw'.symm.trans hcw)
    exact {
      head_lt := by simpa using hi.head_lt
      tail_lt := by simpa using hi.tail_lt
      fifo := by simpa using hi.fifo
      value_eq := by simpa using hi.value_eq
      holder_iff := by simpa using hi.holder_iff
      waiter_blocked := by
        intro w' v hv
        by_cases hw' : w' = w
        · subst hw'
          simp at hv
        · rw [Intq.waiter_set_waiter_of_ne _ hw'] at hv
          dsimp only
          rw [Function.update_of_ne (hother w' v hw' hv)]
          exact hi.waiter_blocked w' v hv
      waiters_blocked := by
        intro v hv
        rw [Intq.waiters_set_waiter] at hv
        have hvu : v ≠ u := by
          rintro rfl
          obtain ⟨c', hc'⟩ := (hi.waiters_blocked v hv).2
          rw [hc] at hc'
          cases hc'
        dsimp only
        rw [Function.update_of_ne hvu]
        exact hi.waiters_blocked v hv
      waiters_nodup := by simpa using hi.waiters_nodup }

theorem Inv.after_call_body (hi : Inv s) (hnw : waits_while s.q c.waiter = false)
    (h : call_body s c = some s') : Inv s' := by
  cases c with
  | getc => exact (hi.after_take hnw).after_signal h
  | putc b => exact (hi.after_write hnw b).after_signal h

/-- `sema_down` and `wait` by a running thread outside `wait`. -/
theorem Inv.after_sema_down_wait (hi : Inv s) (hrun : s.blocked t = false)
    (hnw : ∀ c', s.phase t ≠ .wait c') (h : sema_down_wait s t c = some s') : Inv s' := by
  have htw := hi.not_mem_waiters hrun
  have hnh : s.q.holder ≠ some t := fun hh => by
    obtain ⟨c', hc'⟩ := (hi.holder_iff t).mp hh
    exact hnw c' hc'
  rcases sema_down_wait_some h with ⟨-, rfl⟩ | ⟨hv, -, rfl⟩
  · -- the lock is held: `t` joins its semaphore's waiters
    exact {
      head_lt := hi.head_lt
      tail_lt := hi.tail_lt
      fifo := hi.fifo
      value_eq := hi.value_eq
      holder_iff := by
        intro u
        by_cases hu : u = t
        · subst hu
          simp only [thread_block, Function.update_self]
          exact ⟨fun hh => absurd hh hnh, fun ⟨_, hc'⟩ => by cases hc'⟩
        · simp only [thread_block, Function.update_of_ne hu]
          exact hi.holder_iff u
      waiter_blocked := by
        intro w' u hu
        have hut : u ≠ t := by
          rintro rfl
          have hb := (hi.waiter_blocked w' u hu).1
          rw [hrun] at hb
          cases hb
        simp only [thread_block, Function.update_of_ne hut]
        exact hi.waiter_blocked w' u hu
      waiters_blocked := by
        intro u hu
        rcases List.mem_append.mp hu with hu | hu
        · have hut : u ≠ t := fun h => htw (h ▸ hu)
          simp only [thread_block, Function.update_of_ne hut]
          exact hi.waiters_blocked u hu
        · rw [List.mem_singleton] at hu
          subst hu
          simp [thread_block]
      waiters_nodup := by
        show (s.q.waiters ++ [t]).Nodup
        rw [List.nodup_append]
        refine ⟨hi.waiters_nodup, List.nodup_cons.mpr ⟨List.not_mem_nil, List.nodup_nil⟩, fun a ha b hb => ?_⟩
        rw [List.mem_singleton] at hb
        subst hb
        exact fun hab => htw (hab ▸ ha) }
  · -- the lock is free: `t` takes it and waits on its member
    have hfree : s.q.holder = none := by
      by_contra hh
      rw [hi.value_eq, if_neg hh] at hv
      exact hv rfl
    have hvalue : s.q.value = 1 := by rw [hi.value_eq, if_pos hfree]
    exact {
      head_lt := by simpa using hi.head_lt
      tail_lt := by simpa using hi.tail_lt
      fifo := by simpa [Intq.contents] using hi.fifo
      value_eq := by simp [thread_block, hvalue]
      holder_iff := by
        intro u
        by_cases hu : u = t
        · subst hu
          simp [thread_block]
        · simp only [thread_block, Intq.holder_set_waiter, Function.update_of_ne hu]
          constructor
          · intro hh
            exact absurd (Option.some.inj hh).symm hu
          · intro hw
            rw [(hi.holder_iff u).mpr hw] at hfree
            cases hfree
      waiter_blocked := by
        intro w' u hu
        by_cases hw' : w' = c.waiter
        · subst hw'
          simp only [thread_block_q, Intq.waiter_set_waiter_self, Option.some.injEq] at hu
          subst hu
          simp [thread_block]
        · rw [thread_block_q, Intq.waiter_set_waiter_of_ne _ hw'] at hu
          change s.q.waiter w' = some u at hu
          rw [hi.waiter_eq_none hfree w'] at hu
          cases hu
      waiters_blocked := by
        intro u hu
        replace hu : u ∈ s.q.waiters := by simpa [thread_block] using hu
        have hut : u ≠ t := fun h => htw (h ▸ hu)
        simp only [thread_block, Function.update_of_ne hut]
        exact hi.waiters_blocked u hu
      waiters_nodup := by simpa [thread_block] using hi.waiters_nodup }

/-- `lock_release` by the thread in `wait`, back at the top of its call's loop. -/
theorem Inv.after_lock_release (hi : Inv s) (hrun : s.blocked t = false)
    (h : lock_release s t = some s') : Inv { s' with phase := Function.update s'.phase t .idle } := by
  obtain ⟨hholder, us, b, rfl, hcases⟩ := lock_release_some h
  have hvalue : s.q.value = 0 := by
    rw [hi.value_eq, if_neg (by rw [hholder]; exact Option.some_ne_none t)]
  -- `t` was the one thread in `wait`, and, running, it is recorded in no member
  have honly : ∀ u c', s.phase u = .wait c' → u = t := fun u c' hu =>
    Option.some.inj (((hi.holder_iff u).mpr ⟨c', hu⟩).symm.trans hholder)
  have hnone : ∀ w, s.q.waiter w = none := by
    intro w
    cases hw : s.q.waiter w with
    | none => rfl
    | some u =>
      obtain ⟨hb, c', -, hc'⟩ := hi.waiter_blocked w u hw
      rw [honly u c' hc', hrun] at hb
      cases hb
  exact {
    head_lt := hi.head_lt
    tail_lt := hi.tail_lt
    fifo := hi.fifo
    value_eq := by simp [hvalue]
    holder_iff := by
      intro u
      simp only [reduceCtorEq, false_iff, not_exists]
      intro c' hc'
      by_cases hu : u = t
      · subst hu
        simp at hc'
      · rw [Function.update_of_ne hu] at hc'
        exact hu (honly u c' hc')
    waiter_blocked := by
      intro w u hu
      change s.q.waiter w = some u at hu
      rw [hnone w] at hu
      cases hu
    waiters_blocked := by
      intro u hu
      rcases hcases with ⟨-, rfl, -⟩ | ⟨v, hws, -, rfl⟩
      · exact absurd hu List.not_mem_nil
      · have hnd := hi.waiters_nodup
        rw [hws] at hnd
        have huv : u ≠ v := fun h => (List.nodup_cons.mp hnd).1 (h ▸ hu)
        obtain ⟨hb, c', hc'⟩ := hi.waiters_blocked u (by rw [hws]; exact List.mem_cons_of_mem v hu)
        have hut : u ≠ t := by
          rintro rfl
          obtain ⟨c'', hc''⟩ := (hi.holder_iff u).mp hholder
          rw [hc'] at hc''
          cases hc''
        simp only [Function.update_of_ne huv, Function.update_of_ne hut]
        exact ⟨hb, c', hc'⟩
    waiters_nodup := by
      rcases hcases with ⟨-, rfl, -⟩ | ⟨v, hws, -, -⟩
      · exact List.nodup_nil
      · have hnd := hi.waiters_nodup
        rw [hws] at hnd
        exact (List.nodup_cons.mp hnd).2 }

theorem Inv.after_call_loop (hi : Inv s) (hidle : s.phase t = .idle) (hrun : s.blocked t = false)
    (h : call_loop s t c = some s') : Inv s' := by
  unfold call_loop at h
  split_ifs at h with hw
  · unfold lock_acquire_wait at h
    split_ifs at h
    exact hi.after_sema_down_wait hrun (fun c' hc' => by rw [hidle] at hc'; cases hc') h
  · exact hi.after_call_body (by simpa using hw) h

theorem lock_release_blocked (h : lock_release s t = some s') {u : τ} (hu : s.blocked u = false) :
    s'.blocked u = false := by
  obtain ⟨-, us, b, rfl, hcases⟩ := lock_release_some h
  rcases hcases with ⟨-, -, rfl⟩ | ⟨v, -, -, rfl⟩
  · exact hu
  · by_cases huv : u = v
    · subst huv
      exact Function.update_self ..
    · exact (Function.update_of_ne huv ..).trans hu

theorem Inv.after_resume (hi : Inv s) (hrun : s.blocked t = false) (h : resume s t = some s') :
    Inv s' := by
  unfold resume at h
  split at h
  · cases h
    exact hi
  · rename_i c hc
    exact hi.after_sema_down_wait hrun (fun c' hc' => by rw [hc] at hc'; cases hc') h
  · obtain ⟨s₁, hrel, hloop⟩ := Option.bind_eq_some_iff.mp h
    exact (hi.after_lock_release hrun hrel).after_call_loop (by simp)
      (lock_release_blocked hrel hrun) hloop

theorem Inv.after_step {e : Event τ} (hi : Inv s) (h : step s e = some s') : Inv s' := by
  cases e with
  | getc t =>
    simp only [step] at h
    split_ifs at h with hen
    · exact hi.after_call_loop hen.1 hen.2 h
    · cases h
      exact hi
  | putc t b =>
    simp only [step] at h
    split_ifs at h with hen
    · exact hi.after_call_loop hen.1 hen.2 h
    · cases h
      exact hi
  | run t =>
    simp only [step] at h
    split_ifs at h with hb
    · cases h
      exact hi
    · exact hi.after_resume (by simpa using hb) h
  | irq_getc =>
    simp only [step, intq_call_irq] at h
    split_ifs at h with hw
    exact hi.after_call_body (by simpa using hw) h
  | irq_putc b =>
    simp only [step, intq_call_irq] at h
    split_ifs at h with hw
    exact hi.after_call_body (by simpa using hw) h

/-- The invariant holds along every run. -/
theorem Inv.after_exec {es : List (Event τ)} (hi : Inv s) (h : exec s es = some s') : Inv s' := by
  induction es generalizing s with
  | nil =>
    cases h
    exact hi
  | cons e es ih =>
    obtain ⟨s₁, hstep, hrest⟩ := Option.bind_eq_some_iff.mp h
    exact ih (hi.after_step hstep) hrest

end Invariant

section Wakeup

variable {s s' : St τ} {t : τ} {c : Call} {w : Waiter}

theorem signal_progress (h : signal s w = some s') : s'.progress = s.progress := by
  obtain ⟨-, ⟨-, rfl⟩ | ⟨u, -, -, rfl⟩⟩ := signal_some h
  · rfl
  · funext w'
    cases w' <;> rfl

/-- `signal` wakes the thread the member records and clears the member. -/
theorem signal_wakes (h : signal s w = some s') (ht : s.q.waiter w = some t) :
    s'.blocked t = false ∧ s'.q.waiter w = none := by
  obtain ⟨-, ⟨hnone, -⟩ | ⟨u, hu, -, rfl⟩⟩ := signal_some h
  · rw [hnone] at ht
    cases ht
  · rw [ht] at hu
    cases hu
    exact ⟨Function.update_self .., Intq.waiter_set_waiter_self ..⟩

theorem sema_down_wait_progress (h : sema_down_wait s t c = some s') : s'.progress = s.progress := by
  rcases sema_down_wait_some h with ⟨-, rfl⟩ | ⟨-, -, rfl⟩ <;>
  · funext w'
    cases w' <;> rfl

theorem lock_release_frame (h : lock_release s t = some s') :
    s'.progress = s.progress ∧ ∀ w, s'.q.waiter w = s.q.waiter w := by
  obtain ⟨-, us, b, rfl, -⟩ := lock_release_some h
  refine ⟨?_, fun w => ?_⟩
  · funext w'
    cases w' <;> rfl
  · cases w <;> rfl

/-- A step either leaves what `w`'s waiter waits for as it was, or ends in `signal` of `w`
on a state whose member `w` is the one before the step. -/
def SignalsAfter (s s' : St τ) (w : Waiter) : Prop :=
  s'.progress w = s.progress w ∨ ∃ s₀ : St τ, s₀.q.waiter w = s.q.waiter w ∧ signal s₀ w = some s'

theorem call_body_signals (h : call_body s c = some s') (w : Waiter) : SignalsAfter s s' w := by
  cases c with
  | getc =>
    cases w with
    | not_empty => exact Or.inl (by rw [signal_progress h]; rfl)
    | not_full => exact Or.inr ⟨take s, rfl, h⟩
  | putc b =>
    cases w with
    | not_empty => exact Or.inr ⟨write s b, rfl, h⟩
    | not_full => exact Or.inl (by rw [signal_progress h]; rfl)

theorem call_loop_signals (h : call_loop s t c = some s') (w : Waiter) : SignalsAfter s s' w := by
  unfold call_loop at h
  split_ifs at h
  · unfold lock_acquire_wait at h
    split_ifs at h
    exact Or.inl (by rw [sema_down_wait_progress h])
  · exact call_body_signals h w

theorem resume_signals (h : resume s t = some s') (w : Waiter) : SignalsAfter s s' w := by
  unfold resume at h
  split at h
  · cases h
    exact Or.inl rfl
  · exact Or.inl (by rw [sema_down_wait_progress h])
  · obtain ⟨s₁, hrel, hloop⟩ := Option.bind_eq_some_iff.mp h
    obtain ⟨hprog, hwaiter⟩ := lock_release_frame hrel
    rcases call_loop_signals hloop w with heq | ⟨s₀, hs₀, hsig⟩
    · refine Or.inl (heq.trans ?_)
      rw [← hprog]
      cases w <;> rfl
    · exact Or.inr ⟨s₀, hs₀.trans (hwaiter w), hsig⟩

theorem step_signals {e : Event τ} (h : step s e = some s') (w : Waiter) : SignalsAfter s s' w := by
  cases e with
  | getc t =>
    simp only [step] at h
    split_ifs at h
    · exact call_loop_signals h w
    · cases h
      exact Or.inl rfl
  | putc t b =>
    simp only [step] at h
    split_ifs at h
    · exact call_loop_signals h w
    · cases h
      exact Or.inl rfl
  | run t =>
    simp only [step] at h
    split_ifs at h
    · cases h
      exact Or.inl rfl
    · exact resume_signals h w
  | irq_getc =>
    simp only [step, intq_call_irq] at h
    split_ifs at h
    exact call_body_signals h w
  | irq_putc b =>
    simp only [step, intq_call_irq] at h
    split_ifs at h
    exact call_body_signals h w

/-- A thread recorded in a member is woken, and the member cleared, by the next step that
moves what it waits for: a byte written for `not_empty`, a byte taken for `not_full`. -/
theorem step_wakes {e : Event τ} (h : step s e = some s') (ht : s.q.waiter w = some t)
    (hp : s.progress w < s'.progress w) : s'.blocked t = false ∧ s'.q.waiter w = none := by
  rcases step_signals h w with heq | ⟨s₀, hs₀, hsig⟩
  · omega
  · exact signal_wakes hsig (hs₀.trans ht)

end Wakeup

/-- A thread woken from the lock's semaphore takes the free lock and calls `wait` without
looking at the queue again: when the queue no longer makes it wait, `wait`'s `ASSERT`
fails. -/
theorem resume_lock_assert {s : St τ} {t : τ} {c : Call} (hrun : s.blocked t = false)
    (hc : s.phase t = .lock c) (hv : s.q.value ≠ 0) (hw : waits_while s.q c.waiter = false) :
    step s (.run t) = none := by
  have hw' : waits_while ({ s.q with value := s.q.value - 1, holder := some t } : Intq τ)
      c.waiter = false := by
    revert hw
    cases c.waiter <;> exact id
  simp [step, hrun, resume, hc, sema_down_wait, hv, wait, hw']

/-- Thread 0 waits in `intq_getc` on the empty queue. 63 interrupt handlers put a byte each:
the first wakes thread 0, and then the queue is full. Thread 1 calls `intq_putc`, finds
the queue full and blocks on the lock, which thread 0 still holds. Thread 0 runs: it
releases the lock, which wakes thread 1, and takes a byte. -/
def lock_handoff : List (Event (Fin 2)) :=
  .getc 0 :: List.replicate 63 (.irq_putc 0) ++ [.putc 1 7, .run 0]

/-- In every run the bytes `intq_getc` returns, then those in the buffer, are the bytes
`intq_putc` wrote, in order; the buffer holds at most `INTQ_BUFSIZE - 1` of them; and a
thread recorded in a member is woken by the next step that writes (for `not_empty`) or
takes (for `not_full`) a byte. But a thread woken from `q->lock` calls `wait` without
checking the queue again, and `wait`'s `ASSERT` fails when the queue no longer makes it
wait: after `lock_handoff`, thread 1 does so when it runs. -/
theorem intq_in_order_until_lock_handoff :
    (∀ (buf : Nat → UInt8) (es : List (Event τ)) s, exec (init buf) es = some s →
      s.got ++ s.q.contents = s.put ∧ s.q.contents.length ≤ INTQ_BUFSIZE - 1 ∧
      ∀ e s' w t, step s e = some s' → s.q.waiter w = some t → s.progress w < s'.progress w →
        s'.blocked t = false ∧ s'.q.waiter w = none) ∧
    (∀ (s : St τ) t c, s.blocked t = false → s.phase t = .lock c → s.q.value ≠ 0 →
      waits_while s.q c.waiter = false → step s (.run t) = none) ∧
    (exec (init (fun _ => 0)) lock_handoff).isSome = true ∧
      (exec (init (fun _ => 0)) (lock_handoff ++ [.run 1])).isNone = true := by
  refine ⟨fun buf es s h => ?_, fun s t c => resume_lock_assert, by decide, by decide⟩
  have hi := (Inv.initial buf).after_exec h
  refine ⟨hi.fifo, ?_, fun e s' w t hstep ht hp => step_wakes hstep ht hp⟩
  rw [Intq.contents, RingBuffer.length_contents]
  exact Nat.le_sub_one_of_lt (RingBuffer.count_lt hi.tail_lt)

end Pintos.Devices.InterruptQueue
