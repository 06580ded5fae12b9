import Pintos.Devices.Timer
import Pintos.Census

/-!
# Kernel threads: `threads/thread.c`, `threads/synch.c` and the sleep list of `devices/timer.c`

The scheduler and the synchronisation primitives as one state machine over threads
`τ`, semaphores `σ`, locks `L` and condition variables `C`. The state is the part of
the kernel these files read and write: each page's `struct thread` (its `status` and
`tid`), `ready_list`, `all_list`, the running thread, every semaphore's `value` and
`waiters`, every lock's `holder`, every condition's `waiters`, `tid_lock` and
`next_tid`, `ticks` and `sleeping_threads`.

A step is what runs between two points where interrupts are on: a call of one of the
functions by the running thread's own code, the next stretch of a call already under
way, an iteration of the idle loop, or a timer interrupt (with the `thread_yield` its
handler makes when the time slice is over). Stretches that run with interrupts off are
one step. Where a thread blocked, or was preempted, is its `pc`; the continuation of
`sema_down` inside `lock_acquire`, `cond_wait` and `allocate_tid` is part of it. When
`schedule` switches to a thread inside `sema_down`'s loop, interrupts are still off
there, and the step after the switch is that thread's next loop test (`intr_level`).
A failed `ASSERT` is `none`.

Merged with a neighbouring stretch, as they touch only data the caller's lock
protects or that nobody else reads: `cond_wait`'s `sema_init` and `list_push_back`
with `lock_release`'s `holder = NULL`; `cond_signal`'s `list_pop_front` with its
`sema_up`; the store of `next_tid++` with `lock_release (&tid_lock)`'s
`holder = NULL`; `t->tid = tid` with `thread_unblock (t)`. The load and the store of
`next_tid++` are two steps.

Not modelled: the boot (`thread_init`, `thread_start`: the initial state is the one
`thread_start` returns to), `process_exit` in `thread_exit`, the statistics of
`thread_tick`, names, priorities and stacks, `palloc`'s own lock (getting a page is
atomic, and fails by not being a step), `intq.c`'s direct `thread_block`, and
interrupt handlers other than the timer's.
-/

namespace Pintos.Threads

open Function Pintos.Lib

/-- `enum thread_status`. -/
inductive thread_status
  | THREAD_RUNNING
  | THREAD_READY
  | THREAD_BLOCKED
  | THREAD_DYING
  deriving DecidableEq, Repr

/-- `enum intr_level`. -/
inductive intr_level
  | INTR_OFF
  | INTR_ON
  deriving DecidableEq, Repr

open thread_status intr_level

/-- `TIME_SLICE`: the timer ticks a thread runs before the interrupt handler yields. -/
def TIME_SLICE : Nat := 4

/-- The locks: `tid_lock` of `thread.c` and those `L` of the rest of the kernel. -/
inductive Lock (L : Type)
  | tid_lock
  | lock (l : L)
  deriving DecidableEq

/-- The semaphores: those `σ` of the kernel, the one in every `struct lock`, and the one
in the `struct semaphore_elem` that `cond_wait` keeps on the stack of its thread. -/
inductive Sema (τ σ L : Type)
  | sema (m : σ)
  | lock (l : Lock L)
  | waiter (t : τ)
  deriving DecidableEq

/-- Where `lock_acquire` returns to: its caller, or `allocate_tid` in `thread_create` of `t`. -/
inductive AcquireK (τ : Type)
  | ret
  | allocate_tid (t : τ)
  deriving DecidableEq

/-- Where `lock_release` returns to: its caller, `cond_wait` (which goes on to
`sema_down (&waiter.semaphore)`), or `allocate_tid` returning `tid` for `t`. -/
inductive ReleaseK (τ : Type)
  | ret
  | cond_wait
  | allocate_tid (t : τ) (tid : Nat)
  deriving DecidableEq

/-- Where a thread goes on when it next runs. -/
inductive Pc (τ σ L C : Type)
  /-- In its own code, between calls of the functions modelled here. -/
  | free
  /-- `sema_down (sema)` at its loop test. -/
  | sema_down (m : σ)
  /-- Calling `lock_acquire (lock)`: its `ASSERT`, then `sema_down`. -/
  | lock_acquire_call (l : Lock L) (k : AcquireK τ)
  /-- `lock_acquire` at the loop test of `sema_down (&lock->semaphore)`. -/
  | lock_acquire (l : Lock L) (k : AcquireK τ)
  /-- `lock_acquire` after `sema_down`: `lock->holder = thread_current ()`. -/
  | lock_hold (l : Lock L) (k : AcquireK τ)
  /-- `lock_release` after `lock->holder = NULL`: `sema_up (&lock->semaphore)`. -/
  | lock_release (l : Lock L) (k : ReleaseK τ)
  /-- `cond_wait` at the loop test of `sema_down (&waiter.semaphore)`; then `lock_acquire (lock)`. -/
  | cond_wait (l : Lock L)
  /-- `cond_broadcast`'s loop test. -/
  | cond_broadcast (c : C) (l : L)
  /-- `allocate_tid` holding `tid_lock`: the load of `next_tid` in `tid = next_tid++`. -/
  | tid_load (t : τ)
  /-- The store of `next_tid++`, then `lock_release (&tid_lock)`. -/
  | tid_store (t : τ) (tid : Nat)
  /-- `thread_create` after `allocate_tid` returned `tid`: `t->tid = tid`, then
  `thread_unblock (t)`. -/
  | thread_unblock (t : τ) (tid : Nat)
  /-- `timer_sleep` after `t->thread_sleep_time = start + ticks`: `list_insert_ordered`
  and `thread_block ()`. -/
  | timer_sleep_insert
  /-- In `timer_sleep`'s `thread_block ()`. -/
  | timer_sleep
  /-- A new thread, which starts in `kernel_thread ()`. -/
  | kernel_thread
  deriving DecidableEq

/-- The part of the kernel that `thread.c` and `synch.c` read and write. -/
structure St (τ σ L C : Type) where
  /-- `running_thread ()`: the thread whose stack the CPU is on. -/
  current : τ
  /-- `t->status`; `none` where the page holds no `struct thread`. -/
  status : τ → Option thread_status
  pc : τ → Pc τ σ L C
  /-- The interrupt level the next step starts with. -/
  intr_level : intr_level
  ready_list : List τ
  all_list : List τ
  idle_thread : τ
  initial_thread : τ
  /-- `thread_ticks`: timer ticks since the last switch. -/
  thread_ticks : Nat
  ticks : Nat
  thread_sleep_time : τ → Int32
  sleeping_threads : List τ
  value : Sema τ σ L → Nat
  waiters : Sema τ σ L → List τ
  holder : Lock L → Option τ
  /-- The threads whose `semaphore_elem` is on `cond->waiters`. -/
  cond_waiters : C → List τ
  next_tid : Nat
  tid : τ → Nat

variable {τ σ L C : Type}

/-- Where `lock_acquire` goes on after setting the holder. -/
def AcquireK.next : AcquireK τ → Pc τ σ L C
  | .ret => .free
  | .allocate_tid t => .tid_load t

/-- Where `lock_release` of `l` goes on after `sema_up`. -/
def ReleaseK.next (l : Lock L) : ReleaseK τ → Pc τ σ L C
  | .ret => .free
  | .cond_wait => .cond_wait l
  | .allocate_tid t tid => .thread_unblock t tid

/-- Where a thread is at the first point with interrupts on after `schedule` switched to
it: a new thread is in its thread function, a sleeper has returned from `timer_sleep`. -/
def Pc.resumed : Pc τ σ L C → Pc τ σ L C
  | .kernel_thread => .free
  | .timer_sleep => .free
  | p => p

/-- At a loop test of `sema_down`, which runs with interrupts off. -/
def Pc.in_sema_down : Pc τ σ L C → Bool
  | .sema_down _ | .lock_acquire _ _ | .cond_wait _ => true
  | _ => false

variable [DecidableEq τ]

namespace St

variable (s : St τ σ L C)

/-- The running thread goes on at `p`. -/
def goto (p : Pc τ σ L C) : St τ σ L C := { s with pc := update s.pc s.current p }

end St

/-- `next_thread_to_run ()`: the front of `ready_list`, and the rest; `idle_thread` when
the list is empty. -/
def next_thread_to_run (s : St τ σ L C) : τ × List τ :=
  match s.ready_list with
  | [] => (s.idle_thread, [])
  | t :: l => (t, l)

/-- `switch_threads (cur, next)`: the CPU is on `next`'s stack, and `next` goes on where it
stopped, with interrupts off when that is inside `sema_down`. -/
def switch_threads (s : St τ σ L C) (next : τ) (rest : List τ) : St τ σ L C :=
  { s with
    current := next
    ready_list := rest
    pc := update s.pc next (s.pc next).resumed
    intr_level := if (s.pc next).in_sema_down then INTR_OFF else INTR_ON }

/-- `thread_schedule_tail (prev)`: the new running thread is marked running and starts a
time slice, and a dying `prev` other than `initial_thread` is freed. -/
def thread_schedule_tail (s : St τ σ L C) (prev : Option τ) : Option (St τ σ L C) :=
  let s := { s with status := update s.status s.current (some THREAD_RUNNING), thread_ticks := 0 }
  match prev with
  | some p =>
    if s.status p = some THREAD_DYING ∧ p ≠ s.initial_thread then
      if p = s.current then none else some { s with status := update s.status p none }
    else some s
  | none => some s

/-- `schedule ()`, after the running thread has left `THREAD_RUNNING`. -/
def schedule (s : St τ σ L C) : Option (St τ σ L C) :=
  let next := (next_thread_to_run s).1
  if s.status s.current = some THREAD_RUNNING ∨ s.status next = none then none
  else
    thread_schedule_tail (switch_threads s next (next_thread_to_run s).2)
      (if s.current = next then none else some s.current)

/-- `schedule` switches to `next_thread_to_run ()`, which runs; the thread it leaves is
freed when it is dying and not `initial_thread`. -/
theorem schedule_eq_some {s s' : St τ σ L C} :
    schedule s = some s' ↔
      s.status s.current ≠ some THREAD_RUNNING ∧ s.status (next_thread_to_run s).1 ≠ none ∧
      s' = { switch_threads s (next_thread_to_run s).1 (next_thread_to_run s).2 with
        status := fun t =>
          if t = (next_thread_to_run s).1 then some THREAD_RUNNING
          else if t = s.current ∧ s.status t = some THREAD_DYING ∧ t ≠ s.initial_thread then none
          else s.status t
        thread_ticks := 0 } := by
  unfold schedule
  by_cases hc : s.status s.current = some THREAD_RUNNING
  · simp [hc]
  by_cases hn : s.status (next_thread_to_run s).1 = none
  · simp [hn]
  simp only [hc, hn, or_self, if_false, ne_eq, not_false_eq_true, true_and]
  generalize (next_thread_to_run s).1 = n at *
  by_cases hcn : s.current = n
  · simp only [hcn, if_true, thread_schedule_tail, Option.some.injEq]
    constructor <;> intro h <;> subst h <;> congr 1 <;> funext t <;>
      by_cases ht : t = n <;> simp [switch_threads, ht]
  · have hprev : (update s.status n (some THREAD_RUNNING)) s.current = s.status s.current :=
      update_of_ne hcn _ _
    by_cases hd : s.status s.current = some THREAD_DYING ∧ s.current ≠ s.initial_thread
    · obtain ⟨hdy, hini⟩ := hd
      simp only [hcn, if_false, thread_schedule_tail, switch_threads, hprev, hdy, ne_eq, hini,
        not_false_eq_true, and_self, if_true, Option.some.injEq]
      constructor <;> intro h <;> subst h <;> congr 1 <;> funext t <;>
        by_cases ht : t = n <;> by_cases htc : t = s.current <;> simp_all
    · simp only [hcn, if_false, thread_schedule_tail, switch_threads, hprev, if_neg hd,
        Option.some.injEq]
      have hkeep : ∀ t, t ≠ n → update s.status n (some THREAD_RUNNING) t =
          if t = s.current ∧ s.status t = some THREAD_DYING ∧ t ≠ s.initial_thread then none
          else s.status t := by
        intro t ht
        rw [update_of_ne ht]
        by_cases htc : t = s.current
        · subst htc
          rw [if_neg fun h => hd ⟨h.2.1, h.2.2⟩]
        · rw [if_neg fun h => htc h.1]
      have hstatus : update s.status n (some THREAD_RUNNING) = fun t =>
          if t = n then some THREAD_RUNNING
          else if t = s.current ∧ s.status t = some THREAD_DYING ∧ t ≠ s.initial_thread then none
          else s.status t := by
        funext t
        by_cases ht : t = n
        · simp [ht]
        · rw [if_neg ht]
          exact hkeep t ht
      rw [hstatus]
      exact eq_comm

/-- `thread_block ()`. -/
def thread_block (s : St τ σ L C) : Option (St τ σ L C) :=
  schedule { s with status := update s.status s.current (some THREAD_BLOCKED) }

/-- `thread_unblock (t)`: `ASSERT (t->status == THREAD_BLOCKED)`, then to the back of
`ready_list`. -/
def thread_unblock (s : St τ σ L C) (t : τ) : Option (St τ σ L C) :=
  if s.status t = some THREAD_BLOCKED then
    some { s with
      ready_list := s.ready_list ++ [t]
      status := update s.status t (some THREAD_READY) }
  else none

theorem thread_unblock_eq_some {s s' : St τ σ L C} {t : τ} :
    thread_unblock s t = some s' ↔
      s.status t = some THREAD_BLOCKED ∧
      s' = { s with
        ready_list := s.ready_list ++ [t]
        status := update s.status t (some THREAD_READY) } := by
  unfold thread_unblock
  split_ifs with h <;> simp [h, eq_comm]

/-- `thread_yield ()`: the running thread goes to the back of `ready_list`, unless it is
the idle thread. -/
def thread_yield (s : St τ σ L C) : Option (St τ σ L C) :=
  schedule
    { s with
      ready_list := if s.current = s.idle_thread then s.ready_list else s.ready_list ++ [s.current]
      status := update s.status s.current (some THREAD_READY) }

/-- `thread_exit ()`: off `all_list`, dying, and never scheduled again. -/
def thread_exit (s : St τ σ L C) : Option (St τ σ L C) :=
  schedule
    { s with
      all_list := s.all_list.erase s.current
      status := update s.status s.current (some THREAD_DYING) }

/-! ## `synch.c` -/

variable [DecidableEq σ] [DecidableEq L]

/-- A loop test of `sema_down (m)` by the running thread, which is at `p`: take the
semaphore and go on at `k`, or go to the back of the waiters and block. -/
def sema_down_loop (s : St τ σ L C) (m : Sema τ σ L) (p k : Pc τ σ L C) :
    Option (St τ σ L C) :=
  if s.value m = 0 then
    thread_block { s.goto p with waiters := update s.waiters m (s.waiters m ++ [s.current]) }
  else some { s.goto k with value := update s.value m (s.value m - 1), intr_level := INTR_ON }

/-- `sema_try_down (m)`, and whether it succeeded. -/
def sema_try_down (s : St τ σ L C) (m : Sema τ σ L) : St τ σ L C × Bool :=
  if 0 < s.value m then ({ s with value := update s.value m (s.value m - 1) }, true)
  else (s, false)

/-- `sema_up (m)`: unblock the front waiter, if any, and increment the value. -/
def sema_up (s : St τ σ L C) (m : Sema τ σ L) : Option (St τ σ L C) :=
  let woken : Option (St τ σ L C) :=
    match s.waiters m with
    | [] => some s
    | t :: rest => thread_unblock { s with waiters := update s.waiters m rest } t
  woken.map fun s => { s with value := update s.value m (s.value m + 1) }

/-- `lock_held_by_current_thread (lock)`. -/
def lock_held_by_current_thread (s : St τ σ L C) (l : Lock L) : Bool :=
  decide (s.holder l = some s.current)

/-- `lock_acquire (lock)`, returning to `k`: its `ASSERT`, then `sema_down`. -/
def lock_acquire (s : St τ σ L C) (l : Lock L) (k : AcquireK τ) : Option (St τ σ L C) :=
  if lock_held_by_current_thread s l then none
  else sema_down_loop s (.lock l) (.lock_acquire l k) (.lock_hold l k)

/-- `lock->holder = thread_current ()`, and back to `k`. -/
def lock_hold (s : St τ σ L C) (l : Lock L) (k : AcquireK τ) : St τ σ L C :=
  St.goto { s with holder := update s.holder l (some s.current) } k.next

/-- `lock_try_acquire (lock)`: on success, the holder is set in the next step. -/
def lock_try_acquire (s : St τ σ L C) (l : Lock L) : Option (St τ σ L C) :=
  if lock_held_by_current_thread s l then none
  else
    let r := sema_try_down s (.lock l)
    some (if r.2 then r.1.goto (.lock_hold l .ret) else r.1)

/-- `lock_release (lock)`, returning to `k`: its `ASSERT` and `lock->holder = NULL`. -/
def lock_release (s : St τ σ L C) (l : Lock L) (k : ReleaseK τ) : Option (St τ σ L C) :=
  if lock_held_by_current_thread s l then
    some (St.goto { s with holder := update s.holder l none } (.lock_release l k))
  else none

/-- The end of `lock_release (lock)`: `sema_up (&lock->semaphore)`, and back to `k`. -/
def lock_release_up (s : St τ σ L C) (l : Lock L) (k : ReleaseK τ) : Option (St τ σ L C) :=
  (sema_up s (.lock l)).map fun s' => s'.goto (k.next l)

variable [DecidableEq C]

/-- `cond_wait (cond, lock)` up to `lock_release`'s `sema_up`: the waiter's semaphore is
initialised to 0 and put on `cond->waiters`, and the lock is released. -/
def cond_wait (s : St τ σ L C) (c : C) (l : L) : Option (St τ σ L C) :=
  if lock_held_by_current_thread s (.lock l) then
    lock_release
      { s with
        value := update s.value (.waiter s.current) 0
        waiters := update s.waiters (.waiter s.current) []
        cond_waiters := update s.cond_waiters c (s.cond_waiters c ++ [s.current]) }
      (.lock l) .cond_wait
  else none

/-- `cond_signal (cond, lock)`: `sema_up` of the front waiter's semaphore. -/
def cond_signal (s : St τ σ L C) (c : C) (l : L) : Option (St τ σ L C) :=
  if lock_held_by_current_thread s (.lock l) then
    match s.cond_waiters c with
    | [] => some s
    | t :: rest => sema_up { s with cond_waiters := update s.cond_waiters c rest } (.waiter t)
  else none

/-- An iteration of `cond_broadcast (cond, lock)`'s loop. -/
def cond_broadcast (s : St τ σ L C) (c : C) (l : L) : Option (St τ σ L C) :=
  match s.cond_waiters c with
  | [] => some (s.goto .free)
  | _ :: _ => (cond_signal s c l).map fun s' => s'.goto (.cond_broadcast c l)

/-! ## Creation and sleep -/

/-- `thread_create` on the page `t` that `palloc_get_page` returned: `init_thread` makes
it a blocked thread on `all_list` with `tid` 0, and `allocate_tid` is called. -/
def thread_create (s : St τ σ L C) (t : τ) : Option (St τ σ L C) :=
  if s.status t = none then
    some (St.goto
      { s with
        status := update s.status t (some THREAD_BLOCKED)
        all_list := s.all_list ++ [t]
        tid := update s.tid t 0
        pc := update s.pc t .kernel_thread }
      (.lock_acquire_call .tid_lock (.allocate_tid t)))
  else none

/-- `thread_sleep_time_comparator`: the `int` comparison of the two wake-up ticks. -/
def thread_sleep_time_comparator (s : St τ σ L C) (a b : τ) : Bool :=
  decide (s.thread_sleep_time a < s.thread_sleep_time b)

/-- `timer_sleep (ticks)` with interrupts on: `t->thread_sleep_time = start + ticks`. -/
def timer_sleep (s : St τ σ L C) (ticks : Int) : St τ σ L C :=
  St.goto
    { s with
      thread_sleep_time :=
        update s.thread_sleep_time s.current (Int32.ofInt (s.ticks + ticks)) }
    .timer_sleep_insert

/-- The end of `timer_sleep`: `list_insert_ordered` into `sleeping_threads`, `thread_block ()`. -/
def timer_sleep_insert (s : St τ σ L C) : Option (St τ σ L C) :=
  thread_block
    { s.goto .timer_sleep with
      sleeping_threads :=
        list_insert_ordered (thread_sleep_time_comparator s) s.current s.sleeping_threads }

/-- `thread_unblock` of each thread of a list, in order. -/
def thread_unblock_all (s : St τ σ L C) : List τ → Option (St τ σ L C)
  | [] => some s
  | t :: ts => (thread_unblock s t).bind fun s => thread_unblock_all s ts

omit [DecidableEq σ] [DecidableEq L] [DecidableEq C] in
/-- Unblocking a list of threads one after the other succeeds when they are distinct and
all blocked, and puts them at the back of `ready_list` in order. -/
theorem thread_unblock_all_eq_some {s s' : St τ σ L C} {ts : List τ} :
    thread_unblock_all s ts = some s' ↔
      ts.Nodup ∧ (∀ t ∈ ts, s.status t = some THREAD_BLOCKED) ∧
      s' = { s with
        ready_list := s.ready_list ++ ts
        status := fun t => if t ∈ ts then some THREAD_READY else s.status t } := by
  induction ts generalizing s with
  | nil => simp [thread_unblock_all, eq_comm]
  | cons t ts ih =>
    rw [thread_unblock_all]
    cases hu : thread_unblock s t with
    | none =>
      have ht : s.status t ≠ some THREAD_BLOCKED := fun ht => by
        simp [thread_unblock, ht] at hu
      simp only [Option.bind_none, reduceCtorEq, false_iff, not_and]
      exact fun _ hall => absurd (hall t List.mem_cons_self) ht
    | some s₁ =>
      obtain ⟨ht, rfl⟩ := thread_unblock_eq_some.mp hu
      rw [Option.bind_some, ih]
      -- `t` is `READY` after its unblock, so the rest being `BLOCKED` keeps `t` out of it
      have hrest : (∀ u ∈ ts, update s.status t (some THREAD_READY) u = some THREAD_BLOCKED) ↔
          t ∉ ts ∧ ∀ u ∈ ts, s.status u = some THREAD_BLOCKED := by
        constructor
        · intro h
          refine ⟨fun htm => by simpa using h t htm, fun u hm => ?_⟩
          have hne : u ≠ t := fun hut => by subst hut; simpa using h u hm
          simpa [update_of_ne hne] using h u hm
        · rintro ⟨htn, h⟩ u hm
          have hne : u ≠ t := fun hut => htn (hut ▸ hm)
          rw [update_of_ne hne]
          exact h u hm
      have hstatus : (fun u => if u ∈ ts then some THREAD_READY
            else update s.status t (some THREAD_READY) u) =
          fun u => if u ∈ t :: ts then some THREAD_READY else s.status u := by
        funext u
        by_cases hut : u = t
        · simp [hut]
        · simp [hut]
      simp only [hrest, hstatus, List.nodup_cons, List.mem_cons, forall_eq_or_imp, ht,
        List.append_assoc, List.singleton_append, true_and]
      tauto

/-- `timer_interrupt`: `ticks++`, `thread_tick`'s `++thread_ticks`, the threads at the front
of `sleeping_threads` whose tick has come are unblocked, and the handler yields when the
time slice is over. -/
def timer_interrupt (s : St τ σ L C) : Option (St τ σ L C) :=
  let s := { s with ticks := s.ticks + 1, thread_ticks := s.thread_ticks + 1 }
  let r := Devices.Timer.wake_sleeping s.ticks s.thread_sleep_time s.sleeping_threads
  (thread_unblock_all { s with sleeping_threads := r.2 } r.1).bind fun s =>
    if TIME_SLICE ≤ s.thread_ticks then thread_yield s else some s

/-! ## Steps -/

/-- The next stretch of a call under way in the running thread. -/
def resume (s : St τ σ L C) : Option (St τ σ L C) :=
  match s.pc s.current with
  | .sema_down m => sema_down_loop s (.sema m) (.sema_down m) .free
  | .lock_acquire_call l k => lock_acquire s l k
  | .lock_acquire l k => sema_down_loop s (.lock l) (.lock_acquire l k) (.lock_hold l k)
  | .lock_hold l k => some (lock_hold s l k)
  | .lock_release l k => lock_release_up s l k
  | .cond_wait l => sema_down_loop s (.waiter s.current) (.cond_wait l) (.lock_acquire_call l .ret)
  | .cond_broadcast c l => cond_broadcast s c l
  | .tid_load t => some (s.goto (.tid_store t s.next_tid))
  | .tid_store t tid => lock_release { s with next_tid := tid + 1 } .tid_lock (.allocate_tid t tid)
  | .thread_unblock t tid =>
    (thread_unblock { s with tid := update s.tid t tid } t).map fun s' => s'.goto .free
  | .timer_sleep_insert => timer_sleep_insert s
  | .free => none
  | .timer_sleep => none
  | .kernel_thread => none

/-- The calls a thread's own code makes. -/
inductive Call (τ σ L C : Type)
  | thread_create (t : τ)
  | thread_yield
  | thread_exit
  | sema_down (m : σ)
  | sema_try_down (m : σ)
  | sema_up (m : σ)
  | lock_acquire (l : L)
  | lock_try_acquire (l : L)
  | lock_release (l : L)
  | cond_wait (c : C) (l : L)
  | cond_signal (c : C) (l : L)
  | cond_broadcast (c : C) (l : L)
  | timer_sleep (ticks : Int)

/-- The first stretch of a call. -/
def call (s : St τ σ L C) : Call τ σ L C → Option (St τ σ L C)
  | .thread_create t => thread_create s t
  | .thread_yield => thread_yield s
  | .thread_exit => thread_exit s
  | .sema_down m => sema_down_loop s (.sema m) (.sema_down m) .free
  | .sema_try_down m => some (sema_try_down s (.sema m)).1
  | .sema_up m => sema_up s (.sema m)
  | .lock_acquire l => lock_acquire s (.lock l) .ret
  | .lock_try_acquire l => lock_try_acquire s (.lock l)
  | .lock_release l => lock_release s (.lock l) .ret
  | .cond_wait c l => cond_wait s c l
  | .cond_signal c l => cond_signal s c l
  | .cond_broadcast c l => cond_broadcast s c l
  | .timer_sleep ticks => some (timer_sleep s ticks)

inductive Act (τ σ L C : Type)
  /-- The running thread's own code calls a function. -/
  | call (c : Call τ σ L C)
  /-- The running thread goes on with the call under way. -/
  | resume
  /-- An iteration of `idle ()`'s loop: `thread_block ()`. -/
  | idle
  | timer_interrupt

/-- Only `resume` runs with interrupts off; only the idle thread runs the idle loop, and
it makes no calls. -/
def step (s : St τ σ L C) : Act τ σ L C → Option (St τ σ L C)
  | .call c =>
    if s.intr_level = INTR_ON ∧ s.current ≠ s.idle_thread ∧ s.pc s.current = .free then
      call s c
    else none
  | .resume => resume s
  | .idle =>
    if s.intr_level = INTR_ON ∧ s.current = s.idle_thread then thread_block s else none
  | .timer_interrupt => if s.intr_level = INTR_ON then timer_interrupt s else none

/-- The state `thread_start ()` returns to: `main` (`initial_thread`, tid 1) runs, and the
idle thread (tid 2) has signalled `idle_started` and blocked; the semaphores hold `value`,
the locks are free, and nobody waits or sleeps. -/
def init (main idle : τ) (value : σ → Nat) : St τ σ L C where
  current := main
  status t := if t = main then some THREAD_RUNNING else if t = idle then some THREAD_BLOCKED else none
  pc _ := .free
  intr_level := INTR_ON
  ready_list := []
  all_list := [main, idle]
  idle_thread := idle
  initial_thread := main
  thread_ticks := 0
  ticks := 0
  thread_sleep_time _ := 0
  sleeping_threads := []
  value
    | .sema m => value m
    | .lock _ => 1
    | .waiter _ => 0
  waiters _ := []
  holder _ := none
  cond_waiters _ := []
  next_tid := 3
  tid t := if t = main then 1 else if t = idle then 2 else 0

end Pintos.Threads
