import Pintos.Threads.Thread

/-!
# The scheduler's invariant

In every reachable state of `Threads.step`, exactly one thread has status
`THREAD_RUNNING`, the one the CPU is on; a thread is on `ready_list` exactly when it is
ready and not the idle thread; a thread is on a semaphore's `waiters` exactly when it is
blocked in that semaphore's `sema_down` loop, and on `sleeping_threads` exactly when it
is blocked in `timer_sleep`; every other blocked thread is the idle thread or a new
thread whose creator has not unblocked it yet. As `pc` names one semaphore at most,
each thread's `elem` is on at most one of these lists.

The invariant is per thread (`Placed`), plus the lists having no duplicates. A step
changes the place of one or two threads, and `Frame` carries `Placed` over for all the
others. `schedule` is where the running thread changes: `Pre` is what holds when it is
called, after the running thread has set its new status, and `Pre.schedule` gives the
invariant back.
-/

namespace Pintos.Threads

open Function Pintos.Lib thread_status intr_level

variable {τ σ L C : Type}

/-- A status of a live thread: neither freed nor dying. -/
def alive : Option thread_status → Bool
  | some THREAD_RUNNING | some THREAD_READY | some THREAD_BLOCKED => true
  | _ => false

namespace Pc

/-- The semaphore whose `sema_down` loop thread `t` at `p` is in. -/
def down_on (t : τ) : Pc τ σ L C → Option (Sema τ σ L)
  | .sema_down m => some (.sema m)
  | .lock_acquire l _ => some (.lock l)
  | .cond_wait _ => some (.waiter t)
  | _ => none

/-- The thread whose creation a thread at `p` is in the middle of. -/
def creating : Pc τ σ L C → Option τ
  | .lock_acquire_call _ (.allocate_tid t) | .lock_acquire _ (.allocate_tid t)
  | .lock_hold _ (.allocate_tid t) | .lock_release _ (.allocate_tid t _)
  | .tid_load t | .tid_store t _ | .thread_unblock t _ => some t
  | _ => none

/-- A blocked thread at `p` waits for another to unblock it. -/
def waits : Pc τ σ L C → Bool
  | .sema_down _ | .lock_acquire _ _ | .cond_wait _ | .timer_sleep | .kernel_thread => true
  | _ => false

variable (p : Pc τ σ L C)

@[simp] theorem creating_resumed : p.resumed.creating = p.creating := by cases p <;> rfl
@[simp] theorem in_sema_down_resumed : p.resumed.in_sema_down = p.in_sema_down := by
  cases p <;> rfl
@[simp] theorem resumed_resumed : p.resumed.resumed = p.resumed := by cases p <;> rfl

/-- The places of one `lock_acquire` name the creation its caller is in. -/
theorem creating_acquire (l : Lock L) (k : AcquireK τ) :
    (lock_acquire l k : Pc τ σ L C).creating = (lock_acquire_call l k : Pc τ σ L C).creating ∧
      (lock_hold l k : Pc τ σ L C).creating = (lock_acquire_call l k : Pc τ σ L C).creating ∧
      (k.next : Pc τ σ L C).creating = (lock_acquire_call l k : Pc τ σ L C).creating := by
  cases k <;> exact ⟨rfl, rfl, rfl⟩

/-- `lock_release` returns into the creation its caller is in. -/
theorem creating_release (l : Lock L) (k : ReleaseK τ) :
    (k.next l : Pc τ σ L C).creating = (lock_release l k : Pc τ σ L C).creating := by
  cases k <;> rfl

/-- Only `cond_wait` waits on a `semaphore_elem`, its own thread's. -/
theorem eq_of_down_on_waiter {t u : τ} {p : Pc τ σ L C} (h : p.down_on t = some (.waiter u)) :
    t = u := by
  cases p <;> simp_all [down_on]

end Pc

@[simp] theorem AcquireK.next_resumed (k : AcquireK τ) :
    (k.next : Pc τ σ L C).resumed = k.next := by
  cases k <;> rfl

@[simp] theorem ReleaseK.next_resumed (l : Lock L) (k : ReleaseK τ) :
    (k.next l : Pc τ σ L C).resumed = k.next l := by
  cases k <;> rfl

/-- What the lists say of thread `t` agrees with its status and with where it is. -/
structure Placed (s : St τ σ L C) (t : τ) : Prop where
  mem_ready : t ∈ s.ready_list ↔ s.status t = some THREAD_READY ∧ t ≠ s.idle_thread
  mem_waiters : ∀ m, t ∈ s.waiters m ↔
    s.status t = some THREAD_BLOCKED ∧ (s.pc t).down_on t = some m
  mem_sleeping : t ∈ s.sleeping_threads ↔
    s.status t = some THREAD_BLOCKED ∧ s.pc t = .timer_sleep
  created : s.status t = some THREAD_BLOCKED ∧ s.pc t = .kernel_thread ↔
    ∃ u, (s.pc u).creating = some t
  blocked : s.status t = some THREAD_BLOCKED → t = s.idle_thread ∨ (s.pc t).waits
  mem_all : t ∈ s.all_list ↔ alive (s.status t)
  free_pc : alive (s.status t) = false → s.pc t = .free

/-- The invariant of the lists, whichever thread runs. -/
structure Core (s : St τ σ L C) : Prop where
  placed : ∀ t, Placed s t
  ready_nodup : s.ready_list.Nodup
  waiters_nodup : ∀ m, (s.waiters m).Nodup
  sleeping_nodup : s.sleeping_threads.Nodup
  all_nodup : s.all_list.Nodup
  creator_unique : ∀ u v t, (s.pc u).creating = some t → (s.pc v).creating = some t → u = v
  idle_alive : alive (s.status s.idle_thread)
  idle_pc : s.pc s.idle_thread = .free

/-- The scheduler's invariant: the lists, and exactly one thread running, the current one. -/
structure Inv (s : St τ σ L C) : Prop extends Core s where
  running : ∀ t, s.status t = some THREAD_RUNNING ↔ t = s.current
  dying : ∀ t, s.status t = some THREAD_DYING → t = s.initial_thread
  intr_off : s.intr_level = INTR_OFF → (s.pc s.current).in_sema_down
  current_pc : (s.pc s.current).resumed = s.pc s.current

/-- What holds when `schedule` is called: the running thread has left `THREAD_RUNNING`,
for the list its new status asks for, and may be dying. -/
structure Pre (s : St τ σ L C) : Prop extends Core s where
  not_running : ∀ t, s.status t ≠ some THREAD_RUNNING
  dying : ∀ t, s.status t = some THREAD_DYING → t = s.initial_thread ∨ t = s.current

/-- `s'` is `s` but for the threads `X`, as far as places go. -/
structure Frame (X : τ → Prop) (s s' : St τ σ L C) : Prop where
  status : ∀ u, ¬ X u → s'.status u = s.status u
  pc : ∀ u, ¬ X u → s'.pc u = s.pc u
  ready : ∀ u, ¬ X u → (u ∈ s'.ready_list ↔ u ∈ s.ready_list)
  waiters : ∀ u, ¬ X u → ∀ m, (u ∈ s'.waiters m ↔ u ∈ s.waiters m)
  sleeping : ∀ u, ¬ X u → (u ∈ s'.sleeping_threads ↔ u ∈ s.sleeping_threads)
  all : ∀ u, ¬ X u → (u ∈ s'.all_list ↔ u ∈ s.all_list)
  idle : s'.idle_thread = s.idle_thread
  creating : ∀ v u, ¬ X u → ((s'.pc v).creating = some u ↔ (s.pc v).creating = some u)

/-- A thread outside the frame keeps its place. -/
theorem Placed.frame {X : τ → Prop} {s s' : St τ σ L C} {u : τ} (h : Placed s u)
    (hf : Frame X s s') (hu : ¬ X u) : Placed s' u where
  mem_ready := by rw [hf.ready u hu, hf.status u hu, hf.idle]; exact h.mem_ready
  mem_waiters m := by rw [hf.waiters u hu, hf.status u hu, hf.pc u hu]; exact h.mem_waiters m
  mem_sleeping := by rw [hf.sleeping u hu, hf.status u hu, hf.pc u hu]; exact h.mem_sleeping
  created := by
    rw [hf.status u hu, hf.pc u hu, h.created]
    exact exists_congr fun v => (hf.creating v u hu).symm
  blocked := by rw [hf.status u hu, hf.pc u hu, hf.idle]; exact h.blocked
  mem_all := by rw [hf.all u hu, hf.status u hu]; exact h.mem_all
  free_pc := by rw [hf.status u hu, hf.pc u hu]; exact h.free_pc

/-- A running thread is placed when it is on none of the lists but `all_list`, and nobody
is creating it. -/
theorem Placed.of_running {s : St τ σ L C} {t : τ} (hr : s.status t = some THREAD_RUNNING)
    (hready : t ∉ s.ready_list) (hwait : ∀ m, t ∉ s.waiters m)
    (hsleep : t ∉ s.sleeping_threads) (hcre : ∀ u, (s.pc u).creating ≠ some t)
    (hall : t ∈ s.all_list) : Placed s t where
  mem_ready := by simp [hr, hready]
  mem_waiters m := by simp [hr, hwait m]
  mem_sleeping := by simp [hr, hsleep]
  created := by simp [hr, hcre]
  blocked := by simp [hr]
  mem_all := by simp [hr, hall, alive]
  free_pc := by simp [hr, alive]

/-- A ready thread is placed when it is on `ready_list` unless it is the idle thread, on
none of the other lists but `all_list`, and nobody is creating it. -/
theorem Placed.of_ready {s : St τ σ L C} {t : τ} (hr : s.status t = some THREAD_READY)
    (hready : t ∈ s.ready_list ↔ t ≠ s.idle_thread) (hwait : ∀ m, t ∉ s.waiters m)
    (hsleep : t ∉ s.sleeping_threads) (hcre : ∀ u, (s.pc u).creating ≠ some t)
    (hall : t ∈ s.all_list) : Placed s t where
  mem_ready := by simp [hr, hready]
  mem_waiters m := by simp [hr, hwait m]
  mem_sleeping := by simp [hr, hsleep]
  created := by simp [hr, hcre]
  blocked := by simp [hr]
  mem_all := by simp [hr, hall, alive]
  free_pc := by simp [hr, alive]

/-- A thread that is not blocked is on no semaphore's waiters or `sleeping_threads`, and
nobody is creating it. -/
theorem Placed.off_lists {s : St τ σ L C} {t : τ} (h : Placed s t)
    (hb : s.status t ≠ some THREAD_BLOCKED) :
    (∀ m, t ∉ s.waiters m) ∧ t ∉ s.sleeping_threads ∧ ∀ u, (s.pc u).creating ≠ some t :=
  ⟨fun m hm => hb ((h.mem_waiters m).mp hm).1, fun hm => hb (h.mem_sleeping.mp hm).1,
    fun u hu => hb (h.created.mpr ⟨u, hu⟩).1⟩

/-- `next_thread_to_run` takes the idle thread, or the front of `ready_list`, which is ready. -/
theorem Core.exists_next {s : St τ σ L C} (hs : Core s) :
    ∃ n r, next_thread_to_run s = (n, r) ∧ n ∉ r ∧ (∀ t, t ≠ n → (t ∈ r ↔ t ∈ s.ready_list)) ∧
      (n = s.idle_thread ∨ s.status n = some THREAD_READY ∧ n ≠ s.idle_thread) := by
  unfold Pintos.Threads.next_thread_to_run
  cases h : s.ready_list with
  | nil => exact ⟨_, _, rfl, List.not_mem_nil, fun _ _ => Iff.rfl, Or.inl rfl⟩
  | cons n r =>
    have hnodup := hs.ready_nodup
    rw [h] at hnodup
    have hn := (hs.placed n).mem_ready.mp (by simp [h])
    exact ⟨n, r, rfl, (List.nodup_cons.mp hnodup).1, fun t ht => by simp [ht], Or.inr hn⟩

/-- The thread `schedule` switches to is alive: the idle thread, or a ready one. -/
theorem Core.next_alive {s : St τ σ L C} (hs : Core s) :
    alive (s.status (next_thread_to_run s).1) = true := by
  obtain ⟨n, r, hnr, -, -, hn⟩ := hs.exists_next
  rw [hnr]
  rcases hn with rfl | ⟨hready, -⟩
  · exact hs.idle_alive
  · rw [hready]
    rfl

/-- The thread `schedule` switches to is neither waiting nor sleeping, nor being created. -/
theorem Core.next_not_waiting {s : St τ σ L C} (hs : Core s) {n : τ}
    (hn : n = s.idle_thread ∨ s.status n = some THREAD_READY ∧ n ≠ s.idle_thread) :
    s.status n ≠ some THREAD_BLOCKED ∨ s.pc n = .free := by
  rcases hn with rfl | ⟨hready, -⟩
  · exact Or.inr hs.idle_pc
  · exact Or.inl (by rw [hready]; exact fun h => by cases h)

theorem Core.rest_nodup {s : St τ σ L C} (hs : Core s) : (next_thread_to_run s).2.Nodup := by
  unfold Pintos.Threads.next_thread_to_run
  have hnodup := hs.ready_nodup
  split
  · exact List.nodup_nil
  · rename_i n r h
    rw [h] at hnodup
    exact (List.nodup_cons.mp hnodup).2

variable [DecidableEq τ]

theorem creating_update_resumed (f : τ → Pc τ σ L C) (n u : τ) :
    (update f n (f n).resumed u).creating = (f u).creating := by
  by_cases hu : u = n
  · subst hu
    simp
  · rw [update_of_ne hu]

/-- `schedule` from a state where the running thread has given up running leaves exactly
one thread running, the one it switched to, and keeps the lists. -/
theorem Pre.schedule {s s' : St τ σ L C} (hs : Pre s) (h : schedule s = some s') : Inv s' := by
  obtain ⟨-, -, rfl⟩ := schedule_eq_some.mp h
  clear h
  have hrnodup := hs.rest_nodup
  obtain ⟨n, r, hnr, hnotin, hrest, hn⟩ := hs.exists_next
  rw [hnr] at hrnodup ⊢
  have hnw := hs.next_not_waiting hn
  have hcre : ∀ u, (update s.pc n (s.pc n).resumed u).creating = (s.pc u).creating :=
    creating_update_resumed s.pc n
  have hnalive : alive (s.status n) = true := by
    simpa [hnr] using hs.next_alive
  have hplaced : ∀ t, Placed { switch_threads s n r with
      status := fun t =>
        if t = n then some THREAD_RUNNING
        else if t = s.current ∧ s.status t = some THREAD_DYING ∧ t ≠ s.initial_thread then none
        else s.status t
      thread_ticks := 0 } t := by
    intro t
    have ht := hs.placed t
    by_cases htn : t = n
    · subst htn
      have hnot : ¬ (s.status t = some THREAD_BLOCKED ∧ s.pc t ≠ .free) := fun h =>
        hnw.elim (fun h' => h' h.1) fun h' => h.2 h'
      refine ⟨?_, fun m => ?_, ?_, ?_, ?_, ?_, ?_⟩ <;>
        simp only [switch_threads, if_true, update_self, hcre, Option.some.injEq, reduceCtorEq,
          false_and, iff_false, false_iff]
      · exact hnotin
      · intro hm
        obtain ⟨hb, hd⟩ := (ht.mem_waiters m).mp hm
        exact hnot ⟨hb, fun hf => by simp [hf, Pc.down_on] at hd⟩
      · intro hm
        obtain ⟨hb, hp⟩ := ht.mem_sleeping.mp hm
        exact hnot ⟨hb, by rw [hp]; exact fun h => by cases h⟩
      · rw [← ht.created]
        exact fun h => hnot ⟨h.1, by rw [h.2]; exact fun h => by cases h⟩
      · exact fun h => by cases h
      · rw [ht.mem_all, hnalive]
        rfl
      · exact fun h => by cases h
    have hpc : update s.pc n (s.pc n).resumed t = s.pc t := update_of_ne htn _ _
    by_cases hfree : t = s.current ∧ s.status t = some THREAD_DYING ∧ t ≠ s.initial_thread
    · -- the dying thread `schedule` left is freed
      have hdy := hfree.2.1
      refine ⟨?_, fun m => ?_, ?_, ?_, ?_, ?_, ?_⟩ <;>
        simp only [switch_threads, if_neg htn, if_pos hfree, hpc, hcre, reduceCtorEq, false_and,
          iff_false, false_iff]
      · rw [hrest t htn, ht.mem_ready, hdy]
        simp
      · rw [ht.mem_waiters m, hdy]
        simp
      · rw [ht.mem_sleeping, hdy]
        simp
      · rw [← ht.created, hdy]
        simp
      · exact fun h => by cases h
      · rw [ht.mem_all, hdy]
        simp [alive]
      · exact fun _ => ht.free_pc (by rw [hdy]; rfl)
    · refine ⟨?_, fun m => ?_, ?_, ?_, ?_, ?_, ?_⟩ <;>
        simp only [switch_threads, if_neg htn, if_neg hfree, hpc, hcre]
      · exact (hrest t htn).trans ht.mem_ready
      · exact ht.mem_waiters m
      · exact ht.mem_sleeping
      · exact ht.created
      · exact ht.blocked
      · exact ht.mem_all
      · exact ht.free_pc
  have hfree_not : ∀ t, s.status t ≠ some THREAD_DYING →
      ¬ (t = s.current ∧ s.status t = some THREAD_DYING ∧ t ≠ s.initial_thread) :=
    fun t ht h => ht h.2.1
  have hidle_dying : s.status s.idle_thread ≠ some THREAD_DYING := fun h => by
    have := hs.idle_alive
    rw [h] at this
    exact absurd this (by decide)
  refine ⟨⟨hplaced, hrnodup, hs.waiters_nodup, hs.sleeping_nodup, hs.all_nodup, ?_, ?_, ?_⟩,
    fun t => ?_, fun t ht => ?_, ?_, ?_⟩ <;> simp only [switch_threads] at *
  · intro u v t hu hv
    rw [hcre] at hu hv
    exact hs.creator_unique u v t hu hv
  · by_cases hi : s.idle_thread = n
    · simp [hi, alive]
    · have hnf := hfree_not _ hidle_dying
      simp only [hi, hnf, ↓reduceIte]
      exact hs.idle_alive
  · by_cases hi : s.idle_thread = n
    · rw [hi, update_self, ← hi, hs.idle_pc]
      rfl
    · rw [update_of_ne hi]
      exact hs.idle_pc
  · by_cases htn : t = n
    · simp [htn]
    · simp only [if_neg htn]
      split_ifs
      · simp [htn]
      · simpa [htn] using hs.not_running t
  · by_cases htn : t = n
    · simp [htn] at ht
    · by_cases hfree : t = s.current ∧ s.status t = some THREAD_DYING ∧ t ≠ s.initial_thread
      · simp [if_neg htn, if_pos hfree] at ht
      · simp only [if_neg htn, if_neg hfree] at ht
        rcases hs.dying t ht with h | h
        · exact h
        · by_contra hne
          exact hfree ⟨h, ht, hne⟩
  · rw [update_self, Pc.in_sema_down_resumed]
    intro h
    split_ifs at h with hin
    · exact hin
  · simp

/-- `schedule`'s `ASSERT`s hold where it is called: the running thread has left
`THREAD_RUNNING`, and the thread it switches to exists. -/
theorem Pre.schedule_some {s : St τ σ L C} (hs : Pre s) :
    ∃ s', Threads.schedule s = some s' := by
  have hnext : s.status (next_thread_to_run s).1 ≠ none := fun h => by
    have := hs.next_alive
    rw [h] at this
    cases this
  exact ⟨_, schedule_eq_some.mpr ⟨hs.not_running _, hnext, rfl⟩⟩

/-! ## The running thread -/

/-- The fields `Inv` reads. -/
def St.core (s : St τ σ L C) :=
  (s.current, s.status, s.pc, s.intr_level, s.ready_list, s.all_list, s.idle_thread,
    s.initial_thread, s.sleeping_threads, s.waiters)

omit [DecidableEq τ] in
/-- `Core` reads only the statuses, the places and the lists. -/
theorem Core.congr {s s' : St τ σ L C} (hs : Core s) (h1 : s'.status = s.status)
    (h2 : s'.pc = s.pc) (h3 : s'.ready_list = s.ready_list) (h4 : s'.waiters = s.waiters)
    (h5 : s'.sleeping_threads = s.sleeping_threads) (h6 : s'.all_list = s.all_list)
    (h7 : s'.idle_thread = s.idle_thread) : Core s' := by
  obtain ⟨⟩ := s
  obtain ⟨⟩ := s'
  dsimp only at h1 h2 h3 h4 h5 h6 h7
  subst h1 h2 h3 h4 h5 h6 h7
  exact ⟨fun t => ⟨(hs.placed t).1, (hs.placed t).2, (hs.placed t).3, (hs.placed t).4,
    (hs.placed t).5, (hs.placed t).6, (hs.placed t).7⟩, hs.ready_nodup, hs.waiters_nodup,
    hs.sleeping_nodup, hs.all_nodup, hs.creator_unique, hs.idle_alive, hs.idle_pc⟩

omit [DecidableEq τ] in
/-- `Inv` reads only the scheduler's fields: values, holders, tids and ticks may change. -/
theorem Inv.of_core_eq {s s' : St τ σ L C} (hs : Inv s) (h : s'.core = s.core) : Inv s' := by
  simp only [St.core, Prod.mk.injEq] at h
  obtain ⟨h1, h2, h3, h4, h5, h6, h7, h8, h9, h10⟩ := h
  refine ⟨hs.toCore.congr h2 h3 h5 h10 h9 h6 h7, ?_, ?_, ?_, ?_⟩
  · rw [h1, h2]
    exact hs.running
  · rw [h2, h8]
    exact hs.dying
  · rw [h1, h3, h4]
    exact hs.intr_off
  · rw [h1, h3]
    exact hs.current_pc

section Running

variable {s : St τ σ L C}

omit [DecidableEq τ] in
theorem Inv.current_running (hs : Inv s) : s.status s.current = some THREAD_RUNNING :=
  (hs.running _).mpr rfl

omit [DecidableEq τ] in
theorem Inv.current_mem_all (hs : Inv s) : s.current ∈ s.all_list :=
  (hs.placed s.current).mem_all.mpr (by rw [hs.current_running]; rfl)

omit [DecidableEq τ] in
/-- The running thread is on none of the lists but `all_list`, and nobody creates it. -/
theorem Inv.current_off_lists (hs : Inv s) :
    s.current ∉ s.ready_list ∧ (∀ m, s.current ∉ s.waiters m) ∧
      s.current ∉ s.sleeping_threads ∧ ∀ u, (s.pc u).creating ≠ some s.current := by
  have hc := hs.placed s.current
  have hr := hs.current_running
  obtain ⟨hw, hsl, hcr⟩ := hc.off_lists (by rw [hr]; exact fun h => by cases h)
  exact ⟨fun h => by simpa [hr] using hc.mem_ready.mp h, hw, hsl, hcr⟩

/-- Only the running thread changes status, to `st`: nobody runs. -/
theorem Inv.not_running_update (hs : Inv s) {st : thread_status} (hst : st ≠ THREAD_RUNNING)
    (t : τ) : update s.status s.current (some st) t ≠ some THREAD_RUNNING := by
  by_cases ht : t = s.current
  · simpa [ht] using hst
  · rw [update_of_ne ht]
    exact fun h => ht ((hs.running t).mp h)

theorem Inv.dying_update (hs : Inv s) (st : thread_status) (t : τ)
    (ht : update s.status s.current (some st) t = some THREAD_DYING) :
    t = s.initial_thread ∨ t = s.current := by
  by_cases htc : t = s.current
  · exact Or.inr htc
  · rw [update_of_ne htc] at ht
    exact Or.inl (hs.dying t ht)

/-- The running thread moves on to `p`, no first-run point, and keeps on with the creation
it is in the middle of, if any. -/
theorem Inv.goto (hs : Inv s) {p : Pc τ σ L C} (hcre : p.creating = (s.pc s.current).creating)
    (hres : p.resumed = p) (hidle : s.current = s.idle_thread → p = .free)
    (hoff : s.intr_level = INTR_OFF → p.in_sema_down) : Inv (s.goto p) := by
  obtain ⟨hready, hwait, hsleep, hcreated⟩ := hs.current_off_lists
  have hcre' : ∀ v, ((s.goto p).pc v).creating = (s.pc v).creating := by
    intro v
    by_cases hv : v = s.current
    · subst hv
      simp [St.goto, hcre]
    · simp [St.goto, update_of_ne hv]
  have hf : Frame (· = s.current) s (s.goto p) :=
    ⟨fun _ _ => rfl, fun _ hu => update_of_ne hu _ _, fun _ _ => Iff.rfl, fun _ _ _ => Iff.rfl,
      fun _ _ => Iff.rfl, fun _ _ => Iff.rfl, rfl, fun v _ _ => by rw [hcre' v]⟩
  refine ⟨⟨fun t => ?_, hs.ready_nodup, hs.waiters_nodup, hs.sleeping_nodup, hs.all_nodup,
    fun u v t hu hv => ?_, hs.idle_alive, ?_⟩, hs.running, hs.dying, ?_, ?_⟩
  · by_cases ht : t = s.current
    · subst ht
      exact Placed.of_running hs.current_running hready hwait hsleep
        (fun u => by rw [hcre' u]; exact hcreated u) hs.current_mem_all
    · exact (hs.placed t).frame hf ht
  · rw [hcre'] at hu hv
    exact hs.creator_unique u v t hu hv
  · by_cases hi : s.idle_thread = s.current
    · simp [St.goto, hi, hidle hi.symm]
    · simp [St.goto, update_of_ne hi, hs.idle_pc]
  · intro h
    simpa [St.goto] using hoff h
  · simpa [St.goto] using hres

/-- `Inv.goto` for a thread other than the idle thread, with interrupts on. -/
theorem Inv.goto_on (hs : Inv s) {p : Pc τ σ L C} (hcre : p.creating = (s.pc s.current).creating)
    (hres : p.resumed = p) (hidle : s.current ≠ s.idle_thread) (hon : s.intr_level = INTR_ON) :
    Inv (s.goto p) :=
  hs.goto hcre hres (fun h => absurd h hidle) (fun h => by rw [hon] at h; cases h)

omit [DecidableEq τ] in
/-- A thread inside a call is not the idle thread, which makes none. -/
theorem Inv.not_idle_of_pc (hs : Inv s) (hpc : s.pc s.current ≠ .free) :
    s.current ≠ s.idle_thread :=
  fun hi => hpc (hi ▸ hs.idle_pc)

omit [DecidableEq τ] in
/-- Interrupts are on where the running thread is not inside `sema_down`. -/
theorem Inv.intr_on_of_pc (hs : Inv s) (h : (s.pc s.current).in_sema_down = false) :
    s.intr_level = INTR_ON := by
  cases hl : s.intr_level
  · simpa [h] using hs.intr_off hl
  · rfl

omit [DecidableEq τ] in
theorem Inv.intr_on (hs : Inv s) : Inv { s with intr_level := INTR_ON } :=
  ⟨hs.toCore.congr rfl rfl rfl rfl rfl rfl rfl, hs.running, hs.dying,
    (fun h => by cases h), hs.current_pc⟩

/-- What `thread_yield` hands `schedule`: the running thread is ready, at the back of
`ready_list` unless it is the idle thread. -/
theorem Inv.yield_pre (hs : Inv s) : Pre { s with
    ready_list := if s.current = s.idle_thread then s.ready_list else s.ready_list ++ [s.current]
    status := update s.status s.current (some THREAD_READY) } := by
  obtain ⟨hready, hwait, hsleep, hcreated⟩ := hs.current_off_lists
  have hmem : ∀ u, u ≠ s.current → (u ∈ (if s.current = s.idle_thread then s.ready_list
      else s.ready_list ++ [s.current]) ↔ u ∈ s.ready_list) := by
    intro u hu
    split_ifs <;> simp [hu]
  refine ⟨⟨fun t => ?_, ?_, hs.waiters_nodup, hs.sleeping_nodup, hs.all_nodup, hs.creator_unique,
    ?_, hs.idle_pc⟩, hs.not_running_update (by decide), hs.dying_update _⟩
  · by_cases ht : t = s.current
    · subst ht
      refine Placed.of_ready (by simp) ?_ hwait hsleep hcreated hs.current_mem_all
      split_ifs with hi
      · simpa [hi] using hi ▸ hready
      · simp [hi]
    · exact (hs.placed t).frame ⟨fun u hu => update_of_ne hu _ _, fun _ _ => rfl, hmem,
        fun _ _ _ => Iff.rfl, fun _ _ => Iff.rfl, fun _ _ => Iff.rfl, rfl, fun _ _ _ => Iff.rfl⟩ ht
  · split_ifs
    · exact hs.ready_nodup
    · exact hs.ready_nodup.append (List.nodup_singleton _) (List.disjoint_singleton.mpr hready)
  · by_cases hi : s.idle_thread = s.current
    · simp [hi, alive]
    · simpa [update_of_ne hi] using hs.idle_alive

/-- `thread_yield` from any state of the invariant keeps it. -/
theorem Inv.thread_yield (hs : Inv s) {s' : St τ σ L C} (h : thread_yield s = some s') :
    Inv s' :=
  Pre.schedule hs.yield_pre h

/-- What `thread_exit` by a thread in its own code, not the idle thread, hands `schedule`. -/
theorem Inv.exit_pre (hs : Inv s) (hpc : s.pc s.current = .free)
    (hidle : s.current ≠ s.idle_thread) : Pre { s with
      all_list := s.all_list.erase s.current
      status := update s.status s.current (some THREAD_DYING) } := by
  obtain ⟨hready, hwait, hsleep, hcreated⟩ := hs.current_off_lists
  refine ⟨⟨fun t => ?_, hs.ready_nodup, hs.waiters_nodup, hs.sleeping_nodup,
    hs.all_nodup.erase _, hs.creator_unique, ?_, hs.idle_pc⟩,
    hs.not_running_update (by decide), hs.dying_update _⟩
  · by_cases ht : t = s.current
    · -- the dying thread is on no list, not even `all_list`
      subst ht
      exact ⟨by simp [hready], fun m => by simp [hwait m], by simp [hsleep], by simp [hcreated],
        by simp, by simp [hs.all_nodup.not_mem_erase, alive], fun _ => hpc⟩
    · exact (hs.placed t).frame ⟨fun u hu => update_of_ne hu _ _, fun _ _ => rfl,
        fun _ _ => Iff.rfl, fun _ _ _ => Iff.rfl, fun _ _ => Iff.rfl,
        fun _ hu => List.mem_erase_of_ne hu, rfl, fun _ _ _ => Iff.rfl⟩ ht
  · simpa [update_of_ne (Ne.symm hidle)] using hs.idle_alive

/-- `thread_exit` by a thread in its own code, not the idle thread, keeps the invariant. -/
theorem Inv.thread_exit (hs : Inv s) (hpc : s.pc s.current = .free)
    (hidle : s.current ≠ s.idle_thread) {s' : St τ σ L C} (h : thread_exit s = some s') :
    Inv s' :=
  Pre.schedule (hs.exit_pre hpc hidle) h

/-- What the idle thread's `thread_block ()` hands `schedule`: it is the one blocked thread
that is on no list. -/
theorem Inv.block_idle_pre (hs : Inv s) (hidle : s.current = s.idle_thread) :
    Pre { s with status := update s.status s.current (some THREAD_BLOCKED) } := by
  obtain ⟨hready, hwait, hsleep, hcreated⟩ := hs.current_off_lists
  have hpc : s.pc s.current = .free := hidle ▸ hs.idle_pc
  refine ⟨⟨fun t => ?_, hs.ready_nodup, hs.waiters_nodup, hs.sleeping_nodup, hs.all_nodup,
    hs.creator_unique, by simp [← hidle, alive], hs.idle_pc⟩,
    hs.not_running_update (by decide), hs.dying_update _⟩
  · by_cases ht : t = s.current
    · subst ht
      exact ⟨by simp [hready], fun m => by simp [hwait m, hpc, Pc.down_on],
        by simp [hsleep, hpc], by simp [hpc, hcreated], fun _ => Or.inl hidle,
        by simp [hs.current_mem_all, alive], by simp [alive]⟩
    · exact (hs.placed t).frame ⟨fun u hu => update_of_ne hu _ _, fun _ _ => rfl,
        fun _ _ => Iff.rfl, fun _ _ _ => Iff.rfl, fun _ _ => Iff.rfl, fun _ _ => Iff.rfl, rfl,
        fun _ _ _ => Iff.rfl⟩ ht

theorem Inv.thread_block_idle (hs : Inv s) (hidle : s.current = s.idle_thread)
    {s' : St τ σ L C} (h : thread_block s = some s') : Inv s' :=
  Pre.schedule (hs.block_idle_pre hidle) h

omit [DecidableEq τ] in
theorem Pc.waits_of_down_on {t : τ} {p : Pc τ σ L C} {m : Sema τ σ L}
    (h : p.down_on t = some m) : p.waits := by
  cases p <;> simp_all [down_on, waits]

omit [DecidableEq τ] in
/-- A waiting place is a `sema_down` loop, `timer_sleep`'s block, or a new thread's start. -/
theorem Pc.waits_cases {p : Pc τ σ L C} (h : p.waits) (t : τ) :
    (∃ m, p.down_on t = some m) ∨ p = .timer_sleep ∨ p = .kernel_thread := by
  cases p <;> simp_all [waits, down_on]


end Running

section Semaphores

variable [DecidableEq σ] [DecidableEq L] {s : St τ σ L C}

/-- The running thread, not the idle thread, blocks in the `sema_down` loop at `p`, at the
back of the waiters of `m`: what `thread_block` hands `schedule`. -/
theorem Inv.block_waiters_pre (hs : Inv s) {m : Sema τ σ L} {p : Pc τ σ L C}
    (hp : p.down_on s.current = some m) (hcre : p.creating = (s.pc s.current).creating)
    (hidle : s.current ≠ s.idle_thread) : Pre { s.goto p with
      waiters := update s.waiters m (s.waiters m ++ [s.current])
      status := update s.status s.current (some THREAD_BLOCKED) } := by
  obtain ⟨hready, hwait, hsleep, hcreated⟩ := hs.current_off_lists
  have hcre' : ∀ v, ((s.goto p).pc v).creating = (s.pc v).creating := by
    intro v
    by_cases hv : v = s.current
    · subst hv
      simp [St.goto, hcre]
    · simp [St.goto, update_of_ne hv]
  have hnotsleep : p ≠ .timer_sleep := by rintro rfl; simp [Pc.down_on] at hp
  have hnotnew : p ≠ .kernel_thread := by rintro rfl; simp [Pc.down_on] at hp
  refine ⟨⟨fun t => ?_, hs.ready_nodup, fun m' => ?_, hs.sleeping_nodup, hs.all_nodup,
    fun u v t hu hv => ?_, ?_, ?_⟩, ?_, ?_⟩ <;> simp only [St.goto] at *
  · by_cases ht : t = s.current
    · subst ht
      refine ⟨by simp [hready], fun m' => ?_, by simp [hsleep, hnotsleep], ?_, fun _ => Or.inr ?_,
        by simp [hs.current_mem_all, alive], by simp [alive]⟩
      · by_cases hm : m' = m
        · subst hm
          simp [hp]
        · simp [update_of_ne hm, hwait m', hp, Ne.symm hm]
      · simp only [update_self, hnotnew, and_false, false_iff, not_exists]
        intro u hu
        exact hcreated u (by rw [← hcre' u]; simpa [St.goto] using hu)
      · simpa using Pc.waits_of_down_on hp
    · refine (hs.placed t).frame ⟨fun u hu => update_of_ne hu _ _, fun u hu => update_of_ne hu _ _,
        fun _ _ => Iff.rfl, fun u hu m' => ?_, fun _ _ => Iff.rfl, fun _ _ => Iff.rfl, rfl,
        fun v u _ => by rw [← hcre' v]⟩ ht
      by_cases hm : m' = m
      · subst hm
        simp [hu]
      · simp [update_of_ne hm]
  · by_cases hm : m' = m
    · subst hm
      simpa using hs.waiters_nodup m'|>.append (List.nodup_singleton _)
        (List.disjoint_singleton.mpr (hwait m'))
    · simpa [update_of_ne hm] using hs.waiters_nodup m'
  · rw [hcre' u] at hu
    rw [hcre' v] at hv
    exact hs.creator_unique u v t hu hv
  · simpa [update_of_ne (Ne.symm hidle)] using hs.idle_alive
  · simpa [update_of_ne (Ne.symm hidle)] using hs.idle_pc
  · exact hs.not_running_update (by decide)
  · exact hs.dying_update _

theorem Inv.thread_block_waiters (hs : Inv s) {m : Sema τ σ L} {p : Pc τ σ L C}
    (hp : p.down_on s.current = some m) (hcre : p.creating = (s.pc s.current).creating)
    (hidle : s.current ≠ s.idle_thread) {s' : St τ σ L C}
    (h : thread_block { s.goto p with
      waiters := update s.waiters m (s.waiters m ++ [s.current]) } = some s') : Inv s' :=
  Pre.schedule (hs.block_waiters_pre hp hcre hidle) h

/-- The front waiter of `m` is blocked, and waking it, as `sema_up` does, keeps the invariant. -/
theorem Inv.wake_waiter (hs : Inv s) {m : Sema τ σ L} {t : τ} {rest : List τ}
    (hw : s.waiters m = t :: rest) :
    s.status t = some THREAD_BLOCKED ∧
      Inv { s with
        waiters := update s.waiters m rest
        ready_list := s.ready_list ++ [t]
        status := update s.status t (some THREAD_READY) } := by
  have ht := hs.placed t
  obtain ⟨hb, hd⟩ := (ht.mem_waiters m).mp (by simp [hw])
  have hidle : t ≠ s.idle_thread := by
    rintro rfl
    simp [hs.idle_pc, Pc.down_on] at hd
  have hcur : t ≠ s.current := by
    rintro rfl
    simp [hs.current_running] at hb
  have hrest : t ∉ rest := by
    have := hs.waiters_nodup m
    rw [hw] at this
    exact (List.nodup_cons.mp this).1
  have hnotready : t ∉ s.ready_list := fun h => by simp [(ht.mem_ready.mp h).1] at hb
  refine ⟨hb, ⟨⟨fun u => ?_, ?_, fun m' => ?_, hs.sleeping_nodup, hs.all_nodup, hs.creator_unique,
    by simpa [update_of_ne (Ne.symm hidle)] using hs.idle_alive, hs.idle_pc⟩, fun u => ?_,
    fun u hu => ?_, hs.intr_off, hs.current_pc⟩⟩
  · by_cases hu : u = t
    · subst hu
      refine Placed.of_ready (by simp) (by simp [hidle]) (fun m' hm' => ?_)
        (fun hsl => by simp [ht.mem_sleeping.mp hsl |>.2, Pc.down_on] at hd)
        (fun v hv => by simp [(ht.created.mpr ⟨v, hv⟩).2, Pc.down_on] at hd)
        (ht.mem_all.mpr (by rw [hb]; rfl))
      by_cases hm : m' = m
      · subst hm
        simp [hrest] at hm'
      · simp only [update_of_ne hm] at hm'
        obtain ⟨-, hd'⟩ := (ht.mem_waiters m').mp hm'
        exact hm (Option.some.inj (hd'.symm.trans hd))
    · refine (hs.placed u).frame ⟨fun v hv => update_of_ne hv _ _, fun _ _ => rfl,
        fun v hv => by simp [hv], fun v hv m' => ?_, fun _ _ => Iff.rfl, fun _ _ => Iff.rfl, rfl,
        fun _ _ _ => Iff.rfl⟩ hu
      by_cases hm : m' = m
      · subst hm
        simp [hw, hv]
      · simp [update_of_ne hm]
  · exact hs.ready_nodup.append (List.nodup_singleton _) (List.disjoint_singleton.mpr hnotready)
  · by_cases hm : m' = m
    · subst hm
      have := hs.waiters_nodup m'
      rw [hw] at this
      simpa using (List.nodup_cons.mp this).2
    · simpa [update_of_ne hm] using hs.waiters_nodup m'
  · by_cases hu : u = t
    · subst hu
      simp [hcur]
    · simpa [update_of_ne hu] using hs.running u
  · by_cases hut : u = t
    · subst hut
      simp at hu
    · exact hs.dying u (by simpa [update_of_ne hut] using hu)

/-- What `sema_up` can do: increment the value, after waking the front waiter if any. -/
theorem sema_up_cases {m : Sema τ σ L} {s' : St τ σ L C} (h : sema_up s m = some s') :
    (s.waiters m = [] ∧ s' = { s with value := update s.value m (s.value m + 1) }) ∨
      ∃ t rest, s.waiters m = t :: rest ∧ s' = { s with
        waiters := update s.waiters m rest
        ready_list := s.ready_list ++ [t]
        status := update s.status t (some THREAD_READY)
        value := update s.value m (s.value m + 1) } := by
  unfold Threads.sema_up at h
  obtain ⟨s₁, h₁, rfl⟩ := Option.map_eq_some_iff.mp h
  cases hw : s.waiters m with
  | nil =>
    simp only [hw, Option.some.injEq] at h₁
    exact Or.inl ⟨rfl, by rw [h₁]⟩
  | cons t rest =>
    simp only [hw] at h₁
    obtain ⟨-, rfl⟩ := thread_unblock_eq_some.mp h₁
    exact Or.inr ⟨t, rest, rfl, rfl⟩

/-- `sema_up` runs on the running thread's stack and moves no place. -/
theorem sema_up_sched {m : Sema τ σ L} {s' : St τ σ L C} (h : sema_up s m = some s') :
    s'.current = s.current ∧ s'.pc = s.pc ∧ s'.intr_level = s.intr_level ∧
      s'.idle_thread = s.idle_thread := by
  rcases sema_up_cases h with ⟨-, rfl⟩ | ⟨t, rest, -, rfl⟩ <;> exact ⟨rfl, rfl, rfl, rfl⟩

/-- `sema_up` keeps the invariant. -/
theorem Inv.sema_up (hs : Inv s) {m : Sema τ σ L} {s' : St τ σ L C}
    (h : sema_up s m = some s') : Inv s' := by
  rcases sema_up_cases h with ⟨-, rfl⟩ | ⟨t, rest, hw, rfl⟩
  · exact hs.of_core_eq rfl
  · exact (hs.wake_waiter hw).2.of_core_eq rfl

omit [DecidableEq σ] [DecidableEq L] in
/-- `thread_create` by a thread in its own code, on a page that holds no thread, keeps the
invariant: the new thread is blocked, on `all_list` only, and its creator names it. -/
theorem Inv.thread_create (hs : Inv s) (hidle : s.current ≠ s.idle_thread)
    (hpc : s.pc s.current = .free) {t : τ} {s' : St τ σ L C}
    (h : Threads.thread_create s t = some s') : Inv s' := by
  unfold Threads.thread_create at h
  split_ifs at h with hnone
  obtain rfl := Option.some.inj h
  obtain ⟨hready, hwait, hsleep, hcreated⟩ := hs.current_off_lists
  have ht := hs.placed t
  have hdead : alive (s.status t) = false := by rw [hnone]; rfl
  have htc : t ≠ s.current := fun h => by simp [h, hs.current_running] at hnone
  have hti : t ≠ s.idle_thread := fun h => by
    have := hs.idle_alive
    rw [← h, hdead] at this
    exact Bool.false_ne_true this
  have hnotall : t ∉ s.all_list := fun h => by simp [ht.mem_all.mp h] at hdead
  obtain ⟨hwt, hslt, hcrt⟩ := ht.off_lists (by rw [hnone]; exact fun h => by cases h)
  have hnotready : t ∉ s.ready_list := fun h => by simp [(ht.mem_ready.mp h).1] at hnone
  -- only the creator's place names the new thread
  have hcre : ∀ v, (update (update s.pc t .kernel_thread) s.current
      (.lock_acquire_call .tid_lock (.allocate_tid t)) v).creating =
      if v = s.current then some t else (s.pc v).creating := by
    intro v
    by_cases hvc : v = s.current
    · simp [hvc, Pc.creating]
    · by_cases hvt : v = t
      · subst hvt
        simp [hvc, Pc.creating, ht.free_pc hdead]
      · simp [hvc, hvt]
  have hf : Frame (fun u => u = t ∨ u = s.current) s (St.goto { s with
      status := update s.status t (some THREAD_BLOCKED)
      all_list := s.all_list ++ [t]
      tid := update s.tid t 0
      pc := update s.pc t .kernel_thread } (.lock_acquire_call .tid_lock (.allocate_tid t))) := by
    refine ⟨fun u hu => ?_, fun u hu => ?_, fun _ _ => Iff.rfl, fun _ _ _ => Iff.rfl,
      fun _ _ => Iff.rfl, fun u hu => ?_, rfl, fun v u hu => ?_⟩ <;>
      simp only [not_or] at hu <;> simp only [St.goto]
    · exact update_of_ne hu.1 _ _
    · rw [update_of_ne hu.2, update_of_ne hu.1]
    · simp [hu.1]
    · rw [hcre v]
      split_ifs with hvc
      · subst hvc
        simp [hpc, Pc.creating, Ne.symm hu.1]
      · rfl
  refine ⟨⟨fun u => ?_, hs.ready_nodup, hs.waiters_nodup, hs.sleeping_nodup,
    hs.all_nodup.append (List.nodup_singleton _) (List.disjoint_singleton.mpr hnotall),
    fun u v w hu hv => ?_, ?_, ?_⟩, fun u => ?_, fun u hu => ?_, ?_, ?_⟩
  · simp only [St.goto]
    by_cases hut : u = t
    · -- the new thread
      subst hut
      refine ⟨by simp [hnotready], fun m => by simp [hwt m, htc, Pc.down_on], by simp [hslt, htc],
        ⟨fun _ => ⟨s.current, by simp [Pc.creating]⟩, fun _ => by simp [htc]⟩,
        fun _ => Or.inr (by simp [htc, Pc.waits]),
        by simp [alive], by simp [alive]⟩
    · by_cases huc : u = s.current
      · subst huc
        refine Placed.of_running (by simp [hut, hs.current_running]) hready hwait hsleep
          (fun v hv => ?_) (by simp [hs.current_mem_all])
        rw [hcre v] at hv
        split_ifs at hv with hvc
        · exact htc (Option.some.inj hv)
        · exact hcreated v hv
      · exact (hs.placed u).frame hf (by simp [hut, huc])
  · simp only [St.goto] at hu hv
    rw [hcre u] at hu
    rw [hcre v] at hv
    split_ifs at hu hv with huc hvc hvc
    · rw [huc, hvc]
    · obtain rfl := Option.some.inj hu
      exact absurd hv (hcrt v)
    · obtain rfl := Option.some.inj hv
      exact absurd hu (hcrt u)
    · exact hs.creator_unique u v w hu hv
  · simpa [St.goto, update_of_ne (Ne.symm hti)] using hs.idle_alive
  · simp only [St.goto]
    rw [update_of_ne (Ne.symm hidle), update_of_ne (Ne.symm hti)]
    exact hs.idle_pc
  · simp only [St.goto]
    by_cases hut : u = t
    · subst hut
      simp [htc]
    · simpa [update_of_ne hut] using hs.running u
  · simp only [St.goto] at hu
    by_cases hut : u = t
    · subst hut
      simp at hu
    · exact hs.dying u (by simpa [update_of_ne hut] using hu)
  · intro hoff
    exact absurd hoff (by simp [St.goto, hs.intr_on_of_pc (by simp [hpc, Pc.in_sema_down])])
  · simp [St.goto, Pc.resumed]

omit [DecidableEq σ] [DecidableEq L] in
/-- The end of `thread_create`: the new thread goes to the back of `ready_list`, and its
creator returns to its own code. -/
theorem Inv.thread_create_done (hs : Inv s) {t : τ} {tid : Nat}
    (hpc : s.pc s.current = .thread_unblock t tid) {s' : St τ σ L C}
    (h : (thread_unblock { s with tid := update s.tid t tid } t).map
      (fun s' => s'.goto .free) = some s') : Inv s' := by
  obtain ⟨s₁, h₁, rfl⟩ := Option.map_eq_some_iff.mp h
  obtain ⟨-, rfl⟩ := thread_unblock_eq_some.mp h₁
  obtain ⟨hready, hwait, hsleep, hcreated⟩ := hs.current_off_lists
  have ht := hs.placed t
  have hmine : (s.pc s.current).creating = some t := by simp [hpc, Pc.creating]
  obtain ⟨hb, hnew⟩ := ht.created.mpr ⟨s.current, hmine⟩
  have htc : t ≠ s.current := fun h => by simp [h, hs.current_running] at hb
  have hti : t ≠ s.idle_thread := fun h => by simp [h, hs.idle_pc] at hnew
  have hnotready : t ∉ s.ready_list := fun h => by simp [(ht.mem_ready.mp h).1] at hb
  -- the creator is the only thread that names `t`, and it names nobody once it returns
  have hcre : ∀ v, (update s.pc s.current .free v).creating =
      if v = s.current then none else (s.pc v).creating := by
    intro v
    by_cases hvc : v = s.current
    · simp [hvc, Pc.creating]
    · simp [hvc]
  have hnone : ∀ v, (update s.pc s.current .free v).creating ≠ some t := by
    intro v hv
    rw [hcre v] at hv
    split_ifs at hv with hvc
    · exact hvc (hs.creator_unique v s.current t hv hmine)
  have hf : Frame (fun u => u = t ∨ u = s.current) s (St.goto { s with
      tid := update s.tid t tid
      ready_list := s.ready_list ++ [t]
      status := update s.status t (some THREAD_READY) } .free) := by
    refine ⟨fun u hu => ?_, fun u hu => ?_, fun u hu => ?_, fun _ _ _ => Iff.rfl,
      fun _ _ => Iff.rfl, fun _ _ => Iff.rfl, rfl, fun v u hu => ?_⟩ <;>
      simp only [not_or] at hu <;> simp only [St.goto]
    · exact update_of_ne hu.1 _ _
    · exact update_of_ne hu.2 _ _
    · simp [hu.1]
    · rw [hcre v]
      split_ifs with hvc
      · subst hvc
        simp [hmine, Ne.symm hu.1]
      · rfl
  have hon := hs.intr_on_of_pc (by simp [hpc, Pc.in_sema_down])
  refine ⟨⟨fun u => ?_, ?_, hs.waiters_nodup, hs.sleeping_nodup, hs.all_nodup,
    fun u v w hu hv => ?_, ?_, ?_⟩, fun u => ?_, fun u hu => ?_, ?_, ?_⟩
  · simp only [St.goto]
    by_cases hut : u = t
    · -- the new thread is ready
      subst hut
      exact Placed.of_ready (by simp) (by simp [hti])
        (fun m hm => by
          have hd := ((ht.mem_waiters m).mp hm).2
          rw [hnew] at hd
          simp [Pc.down_on] at hd)
        (fun hm => by simp [ht.mem_sleeping.mp hm |>.2] at hnew) hnone
        (ht.mem_all.mpr (by rw [hb]; rfl))
    · by_cases huc : u = s.current
      · subst huc
        refine Placed.of_running (by simp [hut, hs.current_running]) (by simp [hready, Ne.symm htc])
          hwait hsleep (fun v hv => ?_) hs.current_mem_all
        rw [hcre v] at hv
        split_ifs at hv with hvc
        · exact hcreated v hv
      · exact (hs.placed u).frame hf (by simp [hut, huc])
  · exact hs.ready_nodup.append (List.nodup_singleton _) (List.disjoint_singleton.mpr hnotready)
  · simp only [St.goto] at hu hv
    rw [hcre u] at hu
    rw [hcre v] at hv
    split_ifs at hu hv
    exact hs.creator_unique u v w hu hv
  · simpa [St.goto, update_of_ne (Ne.symm hti)] using hs.idle_alive
  · simp only [St.goto]
    rw [update_of_ne (Ne.symm fun h => by simp [h, hs.idle_pc] at hpc)]
    exact hs.idle_pc
  · simp only [St.goto]
    by_cases hut : u = t
    · subst hut
      simp [htc]
    · simpa [update_of_ne hut] using hs.running u
  · simp only [St.goto] at hu
    by_cases hut : u = t
    · subst hut
      simp at hu
    · exact hs.dying u (by simpa [update_of_ne hut] using hu)
  · intro hoff
    exact absurd hoff (by simp [St.goto, hon])
  · simp [St.goto, Pc.resumed]

/-! ## The sleep list -/

omit [DecidableEq σ] [DecidableEq L] in
/-- The end of `timer_sleep`: the running thread goes into `sleeping_threads` and blocks. -/
theorem Inv.sleep_insert_pre (hs : Inv s) (hpc : s.pc s.current = .timer_sleep_insert) :
    Pre { s.goto .timer_sleep with
      sleeping_threads :=
        list_insert_ordered (thread_sleep_time_comparator s) s.current s.sleeping_threads
      status := update s.status s.current (some THREAD_BLOCKED) } := by
  obtain ⟨hready, hwait, hsleep, hcreated⟩ := hs.current_off_lists
  have hidle : s.current ≠ s.idle_thread := fun h => by simp [h, hs.idle_pc] at hpc
  have hcre' : ∀ v, ((s.goto .timer_sleep).pc v).creating = (s.pc v).creating := by
    intro v
    by_cases hv : v = s.current
    · subst hv
      simp [St.goto, hpc, Pc.creating]
    · simp [St.goto, update_of_ne hv]
  have hmem : ∀ u, u ∈ list_insert_ordered (thread_sleep_time_comparator s) s.current
      s.sleeping_threads ↔ u = s.current ∨ u ∈ s.sleeping_threads :=
    fun _ => mem_list_insert_ordered
  refine ⟨⟨fun t => ?_, hs.ready_nodup, hs.waiters_nodup, ?_, hs.all_nodup,
    fun u v t hu hv => ?_, ?_, ?_⟩, ?_, ?_⟩ <;> simp only [St.goto] at *
  · by_cases ht : t = s.current
    · subst ht
      refine ⟨by simp [hready], fun m => by simp [hwait m, Pc.down_on], by simp [hmem],
        ?_, fun _ => Or.inr (by simp [Pc.waits]), by simp [hs.current_mem_all, alive],
        by simp [alive]⟩
      simp only [update_self, reduceCtorEq, and_false, false_iff, not_exists]
      intro u hu
      exact hcreated u (by rw [← hcre' u]; exact hu)
    · refine (hs.placed t).frame ⟨fun u hu => update_of_ne hu _ _, fun u hu => update_of_ne hu _ _,
        fun _ _ => Iff.rfl, fun _ _ _ => Iff.rfl, fun u hu => by simp [hmem, hu], fun _ _ => Iff.rfl,
        rfl, fun v u _ => by rw [← hcre' v]⟩ ht
  · rw [list_insert_ordered_eq_orderedInsert]
    exact (List.perm_orderedInsert _ _ _).nodup_iff.mpr
      (List.nodup_cons.mpr ⟨hsleep, hs.sleeping_nodup⟩)
  · rw [hcre' u] at hu
    rw [hcre' v] at hv
    exact hs.creator_unique u v t hu hv
  · simpa [update_of_ne (Ne.symm hidle)] using hs.idle_alive
  · simpa [update_of_ne (Ne.symm hidle)] using hs.idle_pc
  · exact hs.not_running_update (by decide)
  · exact hs.dying_update _

omit [DecidableEq σ] [DecidableEq L] in
theorem Inv.timer_sleep_insert (hs : Inv s) (hpc : s.pc s.current = .timer_sleep_insert)
    {s' : St τ σ L C} (h : timer_sleep_insert s = some s') : Inv s' :=
  Pre.schedule (hs.sleep_insert_pre hpc) h

omit [DecidableEq σ] [DecidableEq L] in
/-- Unblocking a front part `ts` of `sleeping_threads`, taken off the list, keeps the
invariant; and the unblocks succeed. -/
theorem Inv.wake_sleepers (hs : Inv s) {ts rest : List τ} (hsplit : ts ++ rest = s.sleeping_threads) :
    ∃ s', thread_unblock_all { s with sleeping_threads := rest } ts = some s' ∧ Inv s' := by
  have hnodup : (ts ++ rest).Nodup := hsplit ▸ hs.sleeping_nodup
  have hasleep : ∀ u ∈ ts, s.status u = some THREAD_BLOCKED ∧ s.pc u = .timer_sleep := fun u hu =>
    (hs.placed u).mem_sleeping.mp (hsplit ▸ List.mem_append_left rest hu)
  have hidle : s.idle_thread ∉ ts := fun hi => by
    have := (hasleep _ hi).2
    rw [hs.idle_pc] at this
    cases this
  have hcur : s.current ∉ ts := fun hc => by
    have := (hasleep _ hc).1
    rw [hs.current_running] at this
    cases this
  refine ⟨_, thread_unblock_all_eq_some.mpr ⟨(List.nodup_append.mp hnodup).1,
    fun u hu => (hasleep u hu).1, rfl⟩, ?_⟩
  have hnotready : ∀ u ∈ ts, u ∉ s.ready_list := fun u hu hr => by
    have := ((hs.placed u).mem_ready.mp hr).1
    rw [(hasleep u hu).1] at this
    cases this
  refine ⟨⟨fun u => ?_, ?_, hs.waiters_nodup, (List.nodup_append.mp hnodup).2.1, hs.all_nodup,
    hs.creator_unique, by simpa [hidle] using hs.idle_alive, hs.idle_pc⟩, fun u => ?_,
    fun u hu => ?_, hs.intr_off, hs.current_pc⟩
  · by_cases hu : u ∈ ts
    · obtain ⟨hb, hp⟩ := hasleep u hu
      have hu' := hs.placed u
      refine Placed.of_ready (by simp [hu]) (by
          simp only [List.mem_append, hu, or_true, true_iff]
          rintro rfl
          exact hidle hu)
        (fun m hm => by simpa [hp, Pc.down_on] using ((hu'.mem_waiters m).mp hm).2)
        (fun hm => (List.nodup_append.mp hnodup).2.2 u hu u hm rfl)
        (fun v hv => by simpa [hp] using (hu'.created.mpr ⟨v, hv⟩).2)
        (hu'.mem_all.mpr (by rw [hb]; rfl))
    · exact (hs.placed u).frame ⟨fun v hv => by simp [hv], fun _ _ => rfl, fun v hv => by simp [hv],
        fun _ _ _ => Iff.rfl, fun v hv => by simp [← hsplit, hv], fun _ _ => Iff.rfl, rfl,
        fun _ _ _ => Iff.rfl⟩ hu
  · exact hs.ready_nodup.append (List.nodup_append.mp hnodup).1
      fun u hr hu => hnotready u hu hr
  · by_cases hts : u ∈ ts
    · simp [hts, show u ≠ s.current from fun h => hcur (h ▸ hts)]
    · simpa [hts] using hs.running u
  · by_cases hts : u ∈ ts
    · simp [hts] at hu
    · exact hs.dying u (by simpa [hts] using hu)

omit [DecidableEq σ] [DecidableEq L] in
/-- The sleepers the timer interrupt wakes are blocked, and waking them keeps the
invariant. -/
theorem Inv.timer_wake (hs : Inv s) :
    ∃ s₂, thread_unblock_all { s with
        ticks := s.ticks + 1
        thread_ticks := s.thread_ticks + 1
        sleeping_threads := (Devices.Timer.wake_sleeping (s.ticks + 1) s.thread_sleep_time
          s.sleeping_threads).2 }
      (Devices.Timer.wake_sleeping (s.ticks + 1) s.thread_sleep_time
        s.sleeping_threads).1 = some s₂ ∧ Inv s₂ := by
  have hs₁ : Inv { s with ticks := s.ticks + 1, thread_ticks := s.thread_ticks + 1 } :=
    hs.of_core_eq rfl
  refine hs₁.wake_sleepers ?_
  rw [Devices.Timer.wake_sleeping_eq]
  exact List.takeWhile_append_dropWhile

omit [DecidableEq σ] [DecidableEq L] in
/-- The timer interrupt keeps the invariant. -/
theorem Inv.timer_interrupt (hs : Inv s) {s' : St τ σ L C} (h : Threads.timer_interrupt s = some s') :
    Inv s' := by
  obtain ⟨s₂, h₂, hs₂⟩ := hs.timer_wake
  unfold Threads.timer_interrupt at h
  dsimp only at h
  rw [h₂, Option.bind_some] at h
  split_ifs at h
  · exact hs₂.thread_yield h
  · exact Option.some.inj h ▸ hs₂

omit [DecidableEq σ] [DecidableEq L] in
/-- The timer interrupt never trips an `ASSERT`: the sleepers it wakes are blocked, and the
yield at the end of a time slice finds a thread to run. -/
theorem Inv.timer_interrupt_some (hs : Inv s) : ∃ s', Threads.timer_interrupt s = some s' := by
  obtain ⟨s₂, h₂, hs₂⟩ := hs.timer_wake
  unfold Threads.timer_interrupt
  dsimp only
  rw [h₂, Option.bind_some]
  split_ifs
  · exact hs₂.yield_pre.schedule_some
  · exact ⟨s₂, rfl⟩

end Semaphores

/-! ## Locks and condition variables -/

section Locks

variable [DecidableEq σ] [DecidableEq L] {s : St τ σ L C}

/-- A loop test of `sema_down (m)` by a thread other than the idle thread, at `p` in the
loop and going on at `k`, keeps the invariant: the thread blocks on the waiters of `m`,
or takes `m` and turns interrupts back on. -/
theorem Inv.sema_down_loop (hs : Inv s) {m : Sema τ σ L} {p k : Pc τ σ L C}
    (hp : p.down_on s.current = some m) (hpcre : p.creating = (s.pc s.current).creating)
    (hkcre : k.creating = (s.pc s.current).creating) (hkres : k.resumed = k)
    (hidle : s.current ≠ s.idle_thread) {s' : St τ σ L C}
    (h : Threads.sema_down_loop s m p k = some s') : Inv s' := by
  unfold Threads.sema_down_loop at h
  split_ifs at h
  · exact hs.thread_block_waiters hp hpcre hidle h
  · obtain rfl := Option.some.inj h
    exact (hs.intr_on.goto_on hkcre hkres hidle rfl).of_core_eq rfl

/-- The loop test of `sema_down` never trips an `ASSERT`: when the thread blocks, `schedule`
finds a thread to run. -/
theorem Inv.sema_down_loop_some (hs : Inv s) {m : Sema τ σ L} {p k : Pc τ σ L C}
    (hp : p.down_on s.current = some m) (hpcre : p.creating = (s.pc s.current).creating)
    (hidle : s.current ≠ s.idle_thread) : ∃ s', Threads.sema_down_loop s m p k = some s' := by
  unfold Threads.sema_down_loop
  split_ifs
  · exact (hs.block_waiters_pre hp hpcre hidle).schedule_some
  · exact ⟨_, rfl⟩

/-- `sema_up` never trips `thread_unblock`'s `ASSERT`: the front waiter is blocked. -/
theorem Inv.sema_up_some (hs : Inv s) (m : Sema τ σ L) : ∃ s', Threads.sema_up s m = some s' := by
  unfold Threads.sema_up
  cases hw : s.waiters m with
  | nil => exact ⟨_, rfl⟩
  | cons t rest =>
    obtain ⟨hb, -⟩ := hs.wake_waiter hw
    simp [thread_unblock, hb]

/-- `lock_acquire`, called from a place in the creation its continuation is in. -/
theorem Inv.lock_acquire (hs : Inv s) {l : Lock L} {k : AcquireK τ}
    (hcre : (Pc.lock_acquire_call l k : Pc τ σ L C).creating = (s.pc s.current).creating)
    (hidle : s.current ≠ s.idle_thread) {s' : St τ σ L C}
    (h : Threads.lock_acquire s l k = some s') : Inv s' := by
  unfold Threads.lock_acquire at h
  split_ifs at h
  obtain ⟨hacq, hhold, -⟩ := Pc.creating_acquire (σ := σ) (C := C) l k
  exact hs.sema_down_loop rfl (hacq.trans hcre) (hhold.trans hcre) rfl hidle h

omit [DecidableEq σ] in
/-- `lock->holder = thread_current ()`, and back to where `lock_acquire` was called. -/
theorem Inv.lock_hold (hs : Inv s) {l : Lock L} {k : AcquireK τ}
    (hpc : s.pc s.current = .lock_hold l k) : Inv (Threads.lock_hold s l k) := by
  have hidle := hs.not_idle_of_pc (by rw [hpc]; exact fun h => by cases h)
  have hon := hs.intr_on_of_pc (by rw [hpc]; rfl)
  obtain ⟨-, hhold, hnext⟩ := Pc.creating_acquire (σ := σ) (C := C) l k
  have h₁ : Inv { s with holder := update s.holder l (some s.current) } := hs.of_core_eq rfl
  exact h₁.goto_on (by rw [hnext, ← hhold, ← hpc]) (k.next_resumed) hidle hon

/-- `lock_try_acquire` by a thread in its own code. -/
theorem Inv.lock_try_acquire (hs : Inv s) (hpc : s.pc s.current = .free)
    (hidle : s.current ≠ s.idle_thread) (hon : s.intr_level = INTR_ON) {l : Lock L}
    {s' : St τ σ L C} (h : Threads.lock_try_acquire s l = some s') : Inv s' := by
  unfold Threads.lock_try_acquire at h
  split_ifs at h
  obtain rfl := Option.some.inj h
  by_cases hv : 0 < s.value (.lock l)
  · -- it took the semaphore, and sets the holder in its next step
    simp only [sema_try_down, hv, ↓reduceIte]
    have h₁ : Inv { s with value := update s.value (.lock l) (s.value (.lock l) - 1) } :=
      hs.of_core_eq rfl
    exact h₁.goto_on (by simp [hpc, Pc.creating]) rfl hidle hon
  · simpa only [sema_try_down, hv, ↓reduceIte, Bool.false_eq_true] using hs

omit [DecidableEq σ] in
/-- `lock_release`, called from a place in the creation its continuation is in. -/
theorem Inv.lock_release (hs : Inv s) {l : Lock L} {k : ReleaseK τ}
    (hcre : (Pc.lock_release l k : Pc τ σ L C).creating = (s.pc s.current).creating)
    (hidle : s.current ≠ s.idle_thread) (hon : s.intr_level = INTR_ON) {s' : St τ σ L C}
    (h : Threads.lock_release s l k = some s') : Inv s' := by
  unfold Threads.lock_release at h
  split_ifs at h
  obtain rfl := Option.some.inj h
  have h₁ : Inv { s with holder := update s.holder l none } := hs.of_core_eq rfl
  exact h₁.goto_on hcre rfl hidle hon

/-- The end of `lock_release`: `sema_up`, and back to the caller. -/
theorem Inv.lock_release_up (hs : Inv s) {l : Lock L} {k : ReleaseK τ}
    (hpc : s.pc s.current = .lock_release l k) {s' : St τ σ L C}
    (h : Threads.lock_release_up s l k = some s') : Inv s' := by
  unfold Threads.lock_release_up at h
  obtain ⟨s₁, h₁, rfl⟩ := Option.map_eq_some_iff.mp h
  obtain ⟨hcur, hpc₁, hlevel, hidle₁⟩ := sema_up_sched h₁
  have hidle := hs.not_idle_of_pc (by rw [hpc]; exact fun h => by cases h)
  have hon := hs.intr_on_of_pc (by rw [hpc]; rfl)
  refine (hs.sema_up h₁).goto_on ?_ (ReleaseK.next_resumed l k) (by rw [hcur, hidle₁]; exact hidle)
    (by rw [hlevel]; exact hon)
  rw [hpc₁, hcur, hpc]
  exact Pc.creating_release l k

variable [DecidableEq C]

omit [DecidableEq σ] [DecidableEq L] [DecidableEq C] [DecidableEq τ] in
/-- Nobody waits on the running thread's own `semaphore_elem`. -/
theorem Inv.waiters_current (hs : Inv s) : s.waiters (.waiter s.current) = [] := by
  refine List.eq_nil_iff_forall_not_mem.mpr fun t ht => ?_
  obtain ⟨hb, hd⟩ := ((hs.placed t).mem_waiters _).mp ht
  obtain rfl := Pc.eq_of_down_on_waiter hd
  rw [hs.current_running] at hb
  cases hb

/-- `cond_wait` by a thread in its own code, up to its `sema_down`. -/
theorem Inv.cond_wait (hs : Inv s) (hpc : s.pc s.current = .free)
    (hidle : s.current ≠ s.idle_thread) (hon : s.intr_level = INTR_ON) {c : C} {l : L}
    {s' : St τ σ L C} (h : Threads.cond_wait s c l = some s') : Inv s' := by
  unfold Threads.cond_wait at h
  split_ifs at h
  -- the waiter's semaphore is new: its list is already empty
  have hw : update s.waiters (.waiter s.current) [] = s.waiters := by
    rw [← hs.waiters_current]
    exact update_eq_self _ _
  have h₁ : Inv { s with
      value := update s.value (.waiter s.current) 0
      waiters := update s.waiters (.waiter s.current) []
      cond_waiters := update s.cond_waiters c (s.cond_waiters c ++ [s.current]) } :=
    hs.of_core_eq (by simp only [St.core, hw])
  exact h₁.lock_release (by simp [hpc, Pc.creating]) hidle hon h

/-- What `cond_signal` can do: nothing, or `sema_up` of the front waiter's semaphore. -/
theorem cond_signal_cases {c : C} {l : L} {s' : St τ σ L C}
    (h : Threads.cond_signal s c l = some s') :
    s' = s ∨ ∃ t rest, s.cond_waiters c = t :: rest ∧
      sema_up { s with cond_waiters := update s.cond_waiters c rest } (.waiter t) = some s' := by
  unfold Threads.cond_signal at h
  split_ifs at h
  cases hc : s.cond_waiters c with
  | nil =>
    simp only [hc, Option.some.injEq] at h
    exact Or.inl h.symm
  | cons t rest =>
    simp only [hc] at h
    exact Or.inr ⟨t, rest, rfl, h⟩

theorem cond_signal_sched {c : C} {l : L} {s' : St τ σ L C}
    (h : Threads.cond_signal s c l = some s') :
    s'.current = s.current ∧ s'.pc = s.pc ∧ s'.intr_level = s.intr_level ∧
      s'.idle_thread = s.idle_thread := by
  rcases cond_signal_cases h with rfl | ⟨t, rest, -, h'⟩
  · exact ⟨rfl, rfl, rfl, rfl⟩
  · have h₁ := sema_up_sched h'
    exact h₁

/-- `cond_signal` keeps the invariant. -/
theorem Inv.cond_signal (hs : Inv s) {c : C} {l : L} {s' : St τ σ L C}
    (h : Threads.cond_signal s c l = some s') : Inv s' := by
  rcases cond_signal_cases h with rfl | ⟨t, rest, -, h'⟩
  · exact hs
  · refine Inv.sema_up ?_ h'
    exact hs.of_core_eq rfl

/-- An iteration of `cond_broadcast`'s loop, from its call or its loop test. -/
theorem Inv.cond_broadcast (hs : Inv s) (hcre : (s.pc s.current).creating = none)
    (hidle : s.current ≠ s.idle_thread) (hon : s.intr_level = INTR_ON) {c : C} {l : L}
    {s' : St τ σ L C} (h : Threads.cond_broadcast s c l = some s') : Inv s' := by
  unfold Threads.cond_broadcast at h
  split at h
  · obtain rfl := Option.some.inj h
    exact hs.goto_on hcre.symm rfl hidle hon
  · obtain ⟨s₁, h₁, rfl⟩ := Option.map_eq_some_iff.mp h
    obtain ⟨hcur, hpc₁, hlevel, hidle₁⟩ := cond_signal_sched h₁
    refine (hs.cond_signal h₁).goto_on ?_ rfl (by rw [hcur, hidle₁]; exact hidle)
      (by rw [hlevel]; exact hon)
    rw [hpc₁, hcur, hcre]
    rfl

end Locks

/-! ## Every step -/

section Steps

variable [DecidableEq σ] [DecidableEq L] [DecidableEq C] {s : St τ σ L C}

/-- The next stretch of the call under way keeps the invariant. -/
theorem Inv.resume (hs : Inv s) {s' : St τ σ L C} (h : Threads.resume s = some s') : Inv s' := by
  -- the idle thread makes no calls, so it has nothing to resume
  have hidle : s.current ≠ s.idle_thread := fun hi => by
    simp [Threads.resume, hi, hs.idle_pc] at h
  unfold Threads.resume at h
  cases hpc : s.pc s.current with
  | free => simp [hpc] at h
  | sema_down m =>
    simp only [hpc] at h
    exact hs.sema_down_loop rfl (by rw [hpc]) (by rw [hpc]; rfl) rfl hidle h
  | lock_acquire_call l k =>
    simp only [hpc] at h
    exact hs.lock_acquire (by rw [hpc]) hidle h
  | lock_acquire l k =>
    simp only [hpc] at h
    obtain ⟨hacq, hhold, -⟩ := Pc.creating_acquire (σ := σ) (C := C) l k
    exact hs.sema_down_loop rfl (by rw [hpc]) (by rw [hpc, hhold, hacq]) rfl hidle h
  | lock_hold l k =>
    simp only [hpc, Option.some.injEq] at h
    exact h ▸ hs.lock_hold hpc
  | lock_release l k =>
    simp only [hpc] at h
    exact hs.lock_release_up hpc h
  | cond_wait l =>
    simp only [hpc] at h
    exact hs.sema_down_loop rfl (by rw [hpc]) (by rw [hpc]; rfl) rfl hidle h
  | cond_broadcast c l =>
    simp only [hpc] at h
    exact hs.cond_broadcast (by rw [hpc]; rfl) hidle (hs.intr_on_of_pc (by rw [hpc]; rfl)) h
  | tid_load t =>
    simp only [hpc, Option.some.injEq] at h
    subst h
    exact hs.goto_on (by rw [hpc]; rfl) rfl hidle (hs.intr_on_of_pc (by rw [hpc]; rfl))
  | tid_store t tid =>
    simp only [hpc] at h
    refine Inv.lock_release (s := { s with next_tid := tid + 1 }) ?_ ?_ hidle
      (hs.intr_on_of_pc (by rw [hpc]; rfl)) h
    · exact hs.of_core_eq rfl
    · show _ = (s.pc s.current).creating
      rw [hpc]
      rfl
  | thread_unblock t tid =>
    simp only [hpc] at h
    exact hs.thread_create_done hpc h
  | timer_sleep_insert =>
    simp only [hpc] at h
    exact hs.timer_sleep_insert hpc h
  | timer_sleep => simp [hpc] at h
  | kernel_thread => simp [hpc] at h

/-- A call by a thread other than the idle thread, from its own code with interrupts on,
keeps the invariant. -/
theorem Inv.call (hs : Inv s) (hon : s.intr_level = INTR_ON) (hidle : s.current ≠ s.idle_thread)
    (hpc : s.pc s.current = .free) {c : Call τ σ L C} {s' : St τ σ L C}
    (h : Threads.call s c = some s') : Inv s' := by
  have hcre : (s.pc s.current).creating = none := by rw [hpc]; rfl
  cases c with
  | thread_create t => exact hs.thread_create hidle hpc h
  | thread_yield => exact hs.thread_yield h
  | thread_exit => exact hs.thread_exit hpc hidle h
  | sema_down m => exact hs.sema_down_loop rfl (by rw [hcre]; rfl) (by rw [hcre]; rfl) rfl hidle h
  | sema_try_down m =>
    simp only [Threads.call, Option.some.injEq] at h
    subst h
    unfold sema_try_down
    split_ifs
    · exact hs.of_core_eq rfl
    · exact hs
  | sema_up m => exact hs.sema_up h
  | lock_acquire l => exact hs.lock_acquire (by rw [hcre]; rfl) hidle h
  | lock_try_acquire l => exact hs.lock_try_acquire hpc hidle hon h
  | lock_release l => exact hs.lock_release (by rw [hcre]; rfl) hidle hon h
  | cond_wait c l => exact hs.cond_wait hpc hidle hon h
  | cond_signal c l => exact hs.cond_signal h
  | cond_broadcast c l => exact hs.cond_broadcast hcre hidle hon h
  | timer_sleep ticks =>
    simp only [Threads.call, Option.some.injEq] at h
    subst h
    have h₁ : Inv { s with
        thread_sleep_time :=
          update s.thread_sleep_time s.current (Int32.ofInt (s.ticks + ticks)) } :=
      hs.of_core_eq rfl
    exact h₁.goto_on hcre.symm rfl hidle hon

/-- Every step keeps the invariant. -/
theorem inv_step : Transition.Stable step (Inv (τ := τ) (σ := σ) (L := L) (C := C)) := by
  intro s a s' hs h
  cases a with
  | call c =>
    simp only [Threads.step] at h
    split_ifs at h with hg
    exact hs.call hg.1 hg.2.1 hg.2.2 h
  | resume => exact hs.resume h
  | idle =>
    simp only [Threads.step] at h
    split_ifs at h with hg
    exact hs.thread_block_idle hg.2 h
  | timer_interrupt =>
    simp only [Threads.step] at h
    split_ifs at h
    exact hs.timer_interrupt h

omit [DecidableEq σ] [DecidableEq L] [DecidableEq C] in
/-- The state `thread_start` returns to satisfies the invariant: `main` runs, and the idle
thread is the one blocked thread. -/
theorem inv_init {main idle : τ} (hmi : main ≠ idle) (value : σ → Nat) :
    Inv (init (L := L) (C := C) main idle value) := by
  -- every list but `all_list` is empty and every place is `free`, so each thread's fields
  -- come down to its status
  have hplaced : ∀ t, Placed (init (L := L) (C := C) main idle value) t := by
    intro t
    by_cases hm : t = main
    · subst hm
      exact Placed.of_running (by simp [init]) List.not_mem_nil (fun _ => List.not_mem_nil)
        List.not_mem_nil (fun _ => by simp [init, Pc.creating]) (by simp [init])
    by_cases hi : t = idle
    · -- the idle thread is blocked, on no list
      subst hi
      exact ⟨by simp [init], fun _ => by simp [init, hm, Pc.down_on], by simp [init],
        by simp [init, hm, Pc.creating], fun _ => Or.inl rfl, by simp [init, hm, alive],
        fun _ => rfl⟩
    · -- no thread lives on page `t`
      have hnone : (init (L := L) (C := C) main idle value).status t = none := by
        simp [init, hm, hi]
      exact ⟨by simp [init, hi], fun _ => by simp [init, Pc.down_on], by simp [init],
        by simp [init, Pc.creating], fun hb => by simp [hnone] at hb,
        by simp [init, hm, hi, alive], fun _ => rfl⟩
  refine ⟨⟨hplaced, List.nodup_nil, fun _ => List.nodup_nil, List.nodup_nil,
    by simp [init, hmi], fun u v t hu => ?_, by simp [init, Ne.symm hmi, alive], rfl⟩,
    fun t => ?_, fun t ht => ?_, (fun h => by cases h), rfl⟩
  · simp [init, Pc.creating] at hu
  · by_cases hm : t = main
    · simp [init, hm]
    · by_cases hi : t = idle <;> simp [init, hm, hi]
  · by_cases hm : t = main
    · exact hm
    · by_cases hi : t = idle <;> simp [init, hm, hi, Ne.symm hmi] at ht

/-- The invariant holds in every state that some run reaches from `init`. -/
theorem Inv.reachable {main idle : τ} (hmi : main ≠ idle) {value : σ → Nat} {s : St τ σ L C}
    (h : Transition.Reachable step (init main idle value) s) : Inv s :=
  inv_step.reachable (inv_init hmi value) h

end Steps

/-! ## What every run keeps -/

/-- Boot with three thread pages: `main` on page 0, the idle thread on page 1. -/
def boot : St (Fin 3) Unit Unit Unit := init 0 1 fun _ => 1

/-- The calls of `main` after boot: `thread_create` of a thread on page 2, run to its end
(`allocate_tid` under `tid_lock`, then `thread_unblock`), and `timer_sleep (5)`. -/
def create_then_sleep : List (Act (Fin 3) Unit Unit Unit) :=
  [.call (.thread_create (Fin.last 2))] ++ List.replicate 6 .resume ++
    [.call (.timer_sleep 5), .resume]

/-- After them thread 2 runs and `main` is on `sleeping_threads`. -/
def main_asleep : St (Fin 3) Unit Unit Unit := (Transition.run step boot create_then_sleep).getD boot

theorem main_asleep_reachable : Transition.Reachable step boot main_asleep :=
  Transition.reachable_of_run (show Transition.run step boot create_then_sleep = some main_asleep
    from rfl)

section Runs

variable [DecidableEq σ] [DecidableEq L] [DecidableEq C] {main idle : τ} {value : σ → Nat}
  {s : St τ σ L C}

/-- In every reachable state exactly one thread runs, the one the CPU is on; `ready_list`
holds each ready thread but the idle thread once; `all_list` holds each live thread once. -/
theorem scheduler_lists_exact (hmi : main ≠ idle)
    (h : Transition.Reachable step (init main idle value) s) :
    (∀ t, s.status t = some THREAD_RUNNING ↔ t = s.current) ∧
      (∀ t, t ∈ s.ready_list ↔ s.status t = some THREAD_READY ∧ t ≠ s.idle_thread) ∧
      s.ready_list.Nodup ∧ (∀ t, t ∈ s.all_list ↔ alive (s.status t)) ∧ s.all_list.Nodup := by
  have hs := Inv.reachable hmi h
  exact ⟨hs.running, fun t => (hs.placed t).mem_ready, hs.ready_nodup,
    fun t => (hs.placed t).mem_all, hs.all_nodup⟩

theorem scheduler_lists_exact_asleep :
    (0 : Fin 3) ≠ 1 ∧ main_asleep.ready_list = [] ∧ main_asleep.sleeping_threads = [0] ∧
      (∀ t, main_asleep.status t = some THREAD_RUNNING ↔ t = main_asleep.current) ∧
      (∀ t, t ∈ main_asleep.ready_list ↔
        main_asleep.status t = some THREAD_READY ∧ t ≠ main_asleep.idle_thread) ∧
      main_asleep.ready_list.Nodup ∧ (∀ t, t ∈ main_asleep.all_list ↔ alive (main_asleep.status t)) ∧
      main_asleep.all_list.Nodup :=
  ⟨by decide, by decide, by decide, scheduler_lists_exact (by decide) main_asleep_reachable⟩

/-- No blocked thread is lost: every blocked thread but the idle thread is on the waiters of
exactly one semaphore, the one whose `sema_down` it is in, or on `sleeping_threads`, or is a
new thread that its creator names and is about to unblock. -/
theorem blocked_thread_waits (hmi : main ≠ idle)
    (h : Transition.Reachable step (init main idle value) s) {t : τ}
    (hb : s.status t = some THREAD_BLOCKED) :
    t = s.idle_thread ∨ (∃ m, t ∈ s.waiters m ∧ ∀ m', t ∈ s.waiters m' → m' = m) ∨
      t ∈ s.sleeping_threads ∨ ∃ u, (s.pc u).creating = some t := by
  have ht := (Inv.reachable hmi h).placed t
  rcases ht.blocked hb with hi | hw
  · exact Or.inl hi
  rcases Pc.waits_cases hw t with ⟨m, hm⟩ | hsl | hnew
  · refine Or.inr (Or.inl ⟨m, (ht.mem_waiters m).mpr ⟨hb, hm⟩, fun m' hm' => ?_⟩)
    exact Option.some.inj (((ht.mem_waiters m').mp hm').2.symm.trans hm)
  · exact Or.inr (Or.inr (Or.inl (ht.mem_sleeping.mpr ⟨hb, hsl⟩)))
  · exact Or.inr (Or.inr (Or.inr (ht.created.mp ⟨hb, hnew⟩)))

theorem blocked_thread_waits_asleep :
    (0 : Fin 3) ≠ 1 ∧ main_asleep.status 0 = some THREAD_BLOCKED ∧
      ((0 : Fin 3) = main_asleep.idle_thread ∨
        (∃ m, 0 ∈ main_asleep.waiters m ∧ ∀ m', 0 ∈ main_asleep.waiters m' → m' = m) ∨
        0 ∈ main_asleep.sleeping_threads ∨ ∃ u, (main_asleep.pc u).creating = some 0) :=
  ⟨by decide, by decide, blocked_thread_waits (by decide) main_asleep_reachable (by decide)⟩

/-- The timer interrupt never trips an `ASSERT` of `thread.c`: the sleepers it wakes are
blocked, and the yield at the end of a time slice finds a thread to run. -/
theorem timer_interrupt_never_fails (hmi : main ≠ idle)
    (h : Transition.Reachable step (init main idle value) s) (hon : s.intr_level = INTR_ON) :
    ∃ s', step s .timer_interrupt = some s' := by
  rw [Threads.step, if_pos hon]
  exact (Inv.reachable hmi h).timer_interrupt_some

theorem timer_interrupt_never_fails_asleep :
    (0 : Fin 3) ≠ 1 ∧ main_asleep.intr_level = INTR_ON ∧
      ∃ s', step main_asleep .timer_interrupt = some s' :=
  ⟨by decide, by decide, timer_interrupt_never_fails (by decide) main_asleep_reachable (by decide)⟩

end Runs

end Pintos.Threads
