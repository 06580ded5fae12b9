import Mathlib
import Pintos.Lib.List
import Pintos.Transition

/-!
# The sleeping threads of `devices/timer.c`

`timer_sleep (ticks)` stores the tick to wake at, `start + ticks`, in the
thread's `int thread_sleep_time`, inserts the thread into `sleeping_threads`
ordered by that field and blocks. Each `timer_interrupt` increments `ticks` and
unblocks threads from the front of the list while `ticks >= thread_sleep_time`.

The model is a step function over the part of the kernel these touch. A call of
`timer_sleep` is two steps: up to `intr_disable ()` it runs with interrupts on,
so interrupts, and other threads' calls, may come between the read of
`timer_ticks ()` and the insertion; the insertion and the block are atomic.
`thread_sleep_time` is an `Int32`: the `int64_t` sum keeps its low 32 bits when
it is stored.

Two ghost fields, not in the code, number the insertions, so that the order in
which threads went to sleep can be stated. The invariant is that
`sleeping_threads` is ordered by stored wake-up tick and, among equal ones, by
insertion (`Inv.sorted`). From it, an interrupt unblocks exactly the sleeping
threads whose stored tick has come, in that order (`timer_interrupt_spec`).
When `start + ticks` is past `INT_MAX` the stored tick is negative, and the
thread is unblocked by the next interrupt (`timer_sleep_wakes_early`).
-/

namespace Pintos.Devices.Timer

open Pintos.Lib Transition

/-- What `timer_sleep` and `timer_interrupt` read and write, for threads `τ`. -/
structure St (τ : Type) where
  /-- `ticks`, the timer ticks since boot. -/
  ticks : Nat
  thread_sleep_time : τ → Int32
  sleeping_threads : List τ
  /-- The threads inside `timer_sleep` that have stored their wake-up tick and
  not yet disabled interrupts. -/
  sleep_pending : τ → Bool
  /-- The threads the last `timer_interrupt` unblocked, in the order it did. -/
  unblocked : List τ
  /-- Ghost: the number of insertions into `sleeping_threads` so far. -/
  inserts : Nat
  /-- Ghost: the number of each thread's last insertion. -/
  entered : τ → Nat

variable {τ : Type} [DecidableEq τ]

def init : St τ := ⟨0, fun _ => 0, [], fun _ => false, [], 0, fun _ => 0⟩

/-- `thread_sleep_time_comparator`: the `int` comparison of the two fields. -/
def thread_sleep_time_comparator (s : St τ) (a b : τ) : Bool :=
  decide (s.thread_sleep_time a < s.thread_sleep_time b)

/-- `timer_sleep` with interrupts on: `start = timer_ticks ()` and
`t->thread_sleep_time = start + ticks`. -/
def timer_sleep_start (s : St τ) (t : τ) (ticks : Int) : St τ :=
  { s with
    thread_sleep_time := Function.update s.thread_sleep_time t (Int32.ofInt (s.ticks + ticks))
    sleep_pending := Function.update s.sleep_pending t true }

/-- `timer_sleep` from `intr_disable ()`: `list_insert_ordered` and `thread_block`. -/
def timer_sleep_block (s : St τ) (t : τ) : St τ :=
  { s with
    sleeping_threads := list_insert_ordered (thread_sleep_time_comparator s) t s.sleeping_threads
    sleep_pending := Function.update s.sleep_pending t false
    inserts := s.inserts + 1
    entered := Function.update s.entered t s.inserts }

/-- The loop of `timer_interrupt`: while the front thread's `thread_sleep_time`
has come, pop and unblock it. The threads unblocked, and the rest of the list. -/
def wake_sleeping (ticks : Nat) (thread_sleep_time : τ → Int32) : List τ → List τ × List τ
  | [] => ([], [])
  | t :: l =>
    if (thread_sleep_time t).toInt ≤ ticks then
      let r := wake_sleeping ticks thread_sleep_time l
      (t :: r.1, r.2)
    else ([], t :: l)

def timer_interrupt (s : St τ) : St τ :=
  let r := wake_sleeping (s.ticks + 1) s.thread_sleep_time s.sleeping_threads
  { s with ticks := s.ticks + 1, sleeping_threads := r.2, unblocked := r.1 }

inductive Act (τ : Type) where
  | sleep (t : τ) (ticks : Int)
  | block (t : τ)
  | interrupt

/-- A thread calls `timer_sleep` when it is neither asleep nor inside the call. -/
def step (s : St τ) : Act τ → Option (St τ)
  | .sleep t ticks =>
    if t ∈ s.sleeping_threads ∨ s.sleep_pending t = true then none
    else some (timer_sleep_start s t ticks)
  | .block t => if s.sleep_pending t = true then some (timer_sleep_block s t) else none
  | .interrupt => some (timer_interrupt s)

/-! ## The order of `sleeping_threads` -/

/-- The stored wake-up tick, as `timer_interrupt` compares it with `ticks`. -/
def St.wake_tick (s : St τ) (t : τ) : Int := (s.thread_sleep_time t).toInt

/-- `a` goes before `b`: an earlier stored tick, or the same one and an earlier insertion. -/
def Before (s : St τ) (a b : τ) : Prop :=
  s.wake_tick a < s.wake_tick b ∨ s.wake_tick a = s.wake_tick b ∧ s.entered a < s.entered b

structure Inv (s : St τ) : Prop where
  sorted : s.sleeping_threads.Pairwise (Before s)
  entered_lt : ∀ t ∈ s.sleeping_threads, s.entered t < s.inserts
  not_pending : ∀ t ∈ s.sleeping_threads, s.sleep_pending t = false

omit [DecidableEq τ] in
theorem thread_sleep_time_comparator_eq (s : St τ) (a b : τ) :
    thread_sleep_time_comparator s a b = decide (s.wake_tick a < s.wake_tick b) := by
  rw [thread_sleep_time_comparator, decide_eq_decide]
  exact Int32.lt_iff_toInt_lt

omit [DecidableEq τ] in
theorem wake_sleeping_eq (ticks : Nat) (f : τ → Int32) (l : List τ) :
    wake_sleeping ticks f l =
      (l.takeWhile fun t => decide ((f t).toInt ≤ ticks),
        l.dropWhile fun t => decide ((f t).toInt ≤ ticks)) := by
  induction l with
  | nil => rfl
  | cons t l ih =>
    by_cases hdue : (f t).toInt ≤ ticks
    · simp [wake_sleeping, hdue, ih]
    · simp [wake_sleeping, hdue]

omit [DecidableEq τ] in
theorem inv_init : Inv (init : St τ) :=
  ⟨List.Pairwise.nil, nofun, nofun⟩

/-- Storing the wake-up tick of a thread that is not asleep reorders nothing. -/
theorem inv_sleep_start {s : St τ} (hs : Inv s) {t : τ} (ht : t ∉ s.sleeping_threads)
    (ticks : Int) : Inv (timer_sleep_start s t ticks) := by
  have hne : ∀ a ∈ s.sleeping_threads, a ≠ t := fun a ha h => ht (h ▸ ha)
  refine ⟨hs.sorted.imp_of_mem fun ha hb hab => ?_, hs.entered_lt, fun a ha => ?_⟩
  · simpa [Before, St.wake_tick, timer_sleep_start, hne _ ha, hne _ hb] using hab
  · simpa [timer_sleep_start, hne a ha] using hs.not_pending a ha

/-- The inserted thread goes after every thread whose tick is not later than its
own, all of which entered before it, and before every later one. -/
theorem inv_sleep_block {s : St τ} (hs : Inv s) {t : τ} (ht : s.sleep_pending t = true) :
    Inv (timer_sleep_block s t) := by
  have hne : ∀ a ∈ s.sleeping_threads, a ≠ t := fun a ha h => by
    subst h
    rw [hs.not_pending _ ha] at ht
    exact Bool.false_ne_true ht
  have hbefore : ∀ {a b}, a ∈ s.sleeping_threads → b ∈ s.sleeping_threads →
      Before s a b → Before (timer_sleep_block s t) a b := fun ha hb hab => by
    simpa [Before, St.wake_tick, timer_sleep_block, hne _ ha, hne _ hb] using hab
  refine ⟨pairwise_list_insert_ordered (hs.sorted.imp_of_mem hbefore) ?_ ?_ ?_, ?_, ?_⟩
  · intro a ha hless
    rw [thread_sleep_time_comparator_eq, decide_eq_false_iff_not] at hless
    have hlt := hs.entered_lt a ha
    simp only [Before, St.wake_tick, timer_sleep_block, Function.update_self,
      Function.update_of_ne (hne a ha)] at hless ⊢
    omega
  · intro a _ hless
    rw [thread_sleep_time_comparator_eq, decide_eq_true_iff] at hless
    exact Or.inl hless
  · intro a b hab hless
    rw [thread_sleep_time_comparator_eq, decide_eq_true_iff] at hless ⊢
    rcases hab with hab | ⟨hab, -⟩
    · exact lt_trans hless hab
    · exact hab ▸ hless
  · intro a ha
    rcases mem_list_insert_ordered.mp ha with rfl | ha
    · simp [timer_sleep_block]
    · have hlt := hs.entered_lt a ha
      simp only [timer_sleep_block, Function.update_of_ne (hne a ha)]
      omega
  · intro a ha
    rcases mem_list_insert_ordered.mp ha with rfl | ha
    · simp [timer_sleep_block]
    · simpa [timer_sleep_block, hne a ha] using hs.not_pending a ha

omit [DecidableEq τ] in
/-- The loop of `timer_interrupt` unblocks exactly the threads whose tick has
come, and keeps the others in their order. -/
theorem timer_interrupt_eq {s : St τ} (hs : Inv s) :
    (timer_interrupt s).unblocked =
        s.sleeping_threads.filter (fun t => decide (s.wake_tick t ≤ s.ticks + 1)) ∧
      (timer_interrupt s).sleeping_threads =
        s.sleeping_threads.filter (fun t => !decide (s.wake_tick t ≤ s.ticks + 1)) := by
  have hdown : ∀ a b, Before s a b → decide (s.wake_tick b ≤ s.ticks + 1) = true →
      decide (s.wake_tick a ≤ s.ticks + 1) = true := by
    intro a b hab hb
    rw [decide_eq_true_iff] at hb ⊢
    rcases hab with hab | ⟨hab, -⟩ <;> omega
  obtain ⟨htake, hdrop⟩ := takeWhile_eq_filter hs.sorted hdown
  simp only [timer_interrupt, wake_sleeping_eq, St.wake_tick] at htake hdrop ⊢
  exact ⟨htake, hdrop⟩

omit [DecidableEq τ] in
theorem before_timer_interrupt (s : St τ) : Before (timer_interrupt s) = Before s := rfl

omit [DecidableEq τ] in
theorem inv_interrupt {s : St τ} (hs : Inv s) : Inv (timer_interrupt s) := by
  have hsub : (timer_interrupt s).sleeping_threads.Sublist s.sleeping_threads := by
    rw [(timer_interrupt_eq hs).2]
    exact List.filter_sublist
  refine ⟨?_, fun a ha => hs.entered_lt a (hsub.subset ha),
    fun a ha => hs.not_pending a (hsub.subset ha)⟩
  rw [before_timer_interrupt]
  exact hs.sorted.sublist hsub

theorem inv_step : Stable step (Inv (τ := τ)) := by
  intro s a s' hs h
  cases a with
  | sleep t ticks =>
    simp only [step] at h
    split at h
    · cases h
    · obtain rfl := Option.some.inj h
      exact inv_sleep_start hs (fun ht => by simp_all) ticks
  | block t =>
    simp only [step] at h
    split at h
    · obtain rfl := Option.some.inj h
      exact inv_sleep_block hs ‹_›
    · cases h
  | interrupt =>
    obtain rfl := Option.some.inj h
    exact inv_interrupt hs

theorem Inv.reachable {s : St τ} (h : Reachable step init s) : Inv s :=
  inv_step.reachable inv_init h

/-! ## What every run keeps -/

/-- Thread `false` has gone to sleep for 5 ticks, then thread `true` for 3. -/
def two_asleep : St Bool :=
  (run step init [.sleep false 5, .block false, .sleep true 3, .block true]).getD init

theorem two_asleep_reachable : Reachable step init two_asleep :=
  reachable_of_run (show run step init [.sleep false 5, .block false, .sleep true 3,
    .block true] = some two_asleep from rfl)

/-- `sleeping_threads` is sorted by `thread_sleep_time` in every reachable state. -/
theorem sleeping_threads_sorted {s : St τ} (h : Reachable step init s) :
    s.sleeping_threads.Pairwise fun a b => s.thread_sleep_time a ≤ s.thread_sleep_time b :=
  (Inv.reachable h).sorted.imp fun hab => by
    rw [Int32.le_iff_toInt_le]
    rcases hab with hab | ⟨hab, -⟩
    · exact le_of_lt hab
    · exact le_of_eq hab

theorem sleeping_threads_sorted_two :
    two_asleep.sleeping_threads.Pairwise fun a b =>
      two_asleep.thread_sleep_time a ≤ two_asleep.thread_sleep_time b :=
  sleeping_threads_sorted two_asleep_reachable

/-- From every reachable state, an interrupt unblocks a sleeping thread exactly
when its stored tick has come, and then in the order of stored ticks, threads
with equal ones in the order they went to sleep; the others stay asleep. -/
theorem timer_interrupt_spec {s : St τ} (h : Reachable step init s) :
    (∀ t, t ∈ (timer_interrupt s).unblocked ↔
      t ∈ s.sleeping_threads ∧ s.wake_tick t ≤ s.ticks + 1) ∧
    (∀ t, t ∈ (timer_interrupt s).sleeping_threads ↔
      t ∈ s.sleeping_threads ∧ (s.ticks : Int) + 1 < s.wake_tick t) ∧
    (timer_interrupt s).unblocked.Pairwise (Before s) := by
  have hs := Inv.reachable h
  obtain ⟨hunblocked, hsleeping⟩ := timer_interrupt_eq hs
  refine ⟨fun t => by simp [hunblocked], fun t => by simp [hsleeping], ?_⟩
  rw [hunblocked]
  exact hs.sorted.sublist List.filter_sublist

theorem timer_interrupt_spec_two :
    (∀ t, t ∈ (timer_interrupt two_asleep).unblocked ↔
      t ∈ two_asleep.sleeping_threads ∧ two_asleep.wake_tick t ≤ two_asleep.ticks + 1) ∧
    (∀ t, t ∈ (timer_interrupt two_asleep).sleeping_threads ↔
      t ∈ two_asleep.sleeping_threads ∧ (two_asleep.ticks : Int) + 1 < two_asleep.wake_tick t) ∧
    (timer_interrupt two_asleep).unblocked.Pairwise (Before two_asleep) :=
  timer_interrupt_spec two_asleep_reachable

/-- At tick 0 a thread calls `timer_sleep (2^31)`: the sum is representable in
`int64_t` but stored as `INT_MIN`, and the first interrupt unblocks the thread
at tick 1. -/
theorem timer_sleep_wakes_early :
    ∃ s, run step (init : St (Fin 1)) [.sleep 0 (2 ^ 31), .block 0, .interrupt] = some s ∧
      s.unblocked = [0] ∧ s.ticks = 1 ∧ (s.ticks : Int) < 0 + 2 ^ 31 :=
  ⟨_, rfl, by decide, rfl, by decide⟩

end Pintos.Devices.Timer
