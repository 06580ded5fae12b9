import Pintos.Threads.Synch

/-!
# Thread identifiers

`allocate_tid` reads and increments `next_tid` holding `tid_lock`, and `thread_create`
stores the result in the new thread. In every reachable state the threads that have a tid
have different ones, all below `next_tid`; a tid handed out and not stored yet is below
`next_tid` and nobody's; and the thread between the load and the store of `next_tid++` read
the current `next_tid` (`Tids`). The last rests on `tid_lock`: it is the one thread there.

A step that hands out no tid is `Quiet`: every step but the load, the store and the end of
`thread_create`.
-/

namespace Pintos.Threads

open Function Pintos.Lib thread_status intr_level

variable {τ σ L C : Type}

/-- The tid `allocate_tid` has handed the thread at `p` and that `thread_create` has not
stored yet. -/
def Pc.pending_tid : Pc τ σ L C → Option Nat
  | .lock_release _ (.allocate_tid _ tid) | .thread_unblock _ tid => some tid
  | _ => none

@[simp] theorem Pc.pending_tid_resumed (p : Pc τ σ L C) :
    p.resumed.pending_tid = p.pending_tid := by
  cases p <;> rfl

theorem Pc.resumed_eq_tid_store {p : Pc τ σ L C} {t : τ} {n : Nat} :
    p.resumed = .tid_store t n ↔ p = .tid_store t n := by
  cases p <;> simp [Pc.resumed]

/-- `lock_release` hands its caller the tid it was holding for it. -/
theorem ReleaseK.pending_next (l : Lock L) (k : ReleaseK τ) :
    (k.next l : Pc τ σ L C).pending_tid = (Pc.lock_release l k : Pc τ σ L C).pending_tid := by
  cases k <;> rfl

theorem AcquireK.next_quiet (k : AcquireK τ) :
    (k.next : Pc τ σ L C).pending_tid = none ∧ ∀ t n, (k.next : Pc τ σ L C) ≠ .tid_store t n := by
  cases k <;> exact ⟨rfl, fun _ _ h => by cases h⟩

theorem ReleaseK.next_ne_tid_store (l : Lock L) (k : ReleaseK τ) (t : τ) (n : Nat) :
    (k.next l : Pc τ σ L C) ≠ .tid_store t n := by
  cases k <;> exact fun h => by cases h

/-- The page `t` holds a thread that has its tid: `init_thread` sets the tid to 0, and
`thread_create` stores the one `allocate_tid` returned. -/
def St.named (s : St τ σ L C) (t : τ) : Prop := s.status t ≠ none ∧ s.tid t ≠ 0

/-- The tids given out so far are all different and below `next_tid`. -/
structure Tids (s : St τ σ L C) : Prop where
  next_pos : 0 < s.next_tid
  named_lt : ∀ t, s.named t → s.tid t < s.next_tid
  named_inj : ∀ t u, s.named t → s.named u → s.tid t = s.tid u → t = u
  pending_lt : ∀ u n, (s.pc u).pending_tid = some n → 0 < n ∧ n < s.next_tid
  pending_fresh : ∀ u n t, (s.pc u).pending_tid = some n → s.named t → s.tid t ≠ n
  pending_inj : ∀ u v n, (s.pc u).pending_tid = some n → (s.pc v).pending_tid = some n → u = v
  storing : ∀ u t n, s.pc u = .tid_store t n → n = s.next_tid

/-- A step that hands out no tid: the threads with a tid keep it, no thread comes to hold a
tid, and a thread that comes to be about to store `next_tid` has just read it. -/
structure Quiet (s s' : St τ σ L C) : Prop where
  named : ∀ t, s'.named t → s.named t ∧ s'.tid t = s.tid t
  next_tid : s'.next_tid = s.next_tid
  pending : ∀ u n, (s'.pc u).pending_tid = some n → (s.pc u).pending_tid = some n
  storing : ∀ u t n, s'.pc u = .tid_store t n → s.pc u = .tid_store t n ∨ n = s.next_tid

/-- The fields `Tids` reads. -/
def St.tids (s : St τ σ L C) := (s.status, s.tid, s.next_tid, s.pc)

section Quiet

variable {s s' s'' : St τ σ L C}

theorem Quiet.refl (s : St τ σ L C) : Quiet s s :=
  ⟨fun _ h => ⟨h, rfl⟩, rfl, fun _ _ => id, fun _ _ _ => Or.inl⟩

theorem Quiet.trans (h₁ : Quiet s s') (h₂ : Quiet s' s'') : Quiet s s'' where
  named t ht := ⟨(h₁.named t (h₂.named t ht).1).1,
    (h₂.named t ht).2.trans (h₁.named t (h₂.named t ht).1).2⟩
  next_tid := h₂.next_tid.trans h₁.next_tid
  pending u n h := h₁.pending u n (h₂.pending u n h)
  storing u t n h := (h₂.storing u t n h).elim (h₁.storing u t n) fun hn =>
    Or.inr (hn.trans h₁.next_tid)

theorem Tids.quiet (ht : Tids s) (hq : Quiet s s') : Tids s' where
  next_pos := hq.next_tid ▸ ht.next_pos
  named_lt t h := by
    rw [(hq.named t h).2, hq.next_tid]
    exact ht.named_lt t (hq.named t h).1
  named_inj t u h₁ h₂ he := by
    rw [(hq.named t h₁).2, (hq.named u h₂).2] at he
    exact ht.named_inj t u (hq.named t h₁).1 (hq.named u h₂).1 he
  pending_lt u n h := hq.next_tid ▸ ht.pending_lt u n (hq.pending u n h)
  pending_fresh u n t h hn := by
    rw [(hq.named t hn).2]
    exact ht.pending_fresh u n t (hq.pending u n h) (hq.named t hn).1
  pending_inj u v n hu hv := ht.pending_inj u v n (hq.pending u n hu) (hq.pending v n hv)
  storing u t n h := by
    rw [hq.next_tid]
    exact (hq.storing u t n h).elim (ht.storing u t n) id

/-- Statuses, places and tids untouched: values, holders, lists and ticks may change. -/
theorem Quiet.of_tids_eq (h : s'.tids = s.tids) : Quiet s s' := by
  simp only [St.tids, Prod.mk.injEq] at h
  obtain ⟨h1, h2, h3, h4⟩ := h
  refine ⟨fun t ht => ⟨?_, by rw [h2]⟩, h3, fun u n => by rw [h4]; exact id,
    fun u t n => by rw [h4]; exact Or.inl⟩
  simp only [St.named, h1, h2] at ht ⊢
  exact ht

/-- Only statuses change, and none to a thread on a page that held none. -/
theorem Quiet.of_status (h : ∀ u, s'.status u ≠ none → s.status u ≠ none)
    (htid : s'.tid = s.tid) (hnext : s'.next_tid = s.next_tid) (hpc : s'.pc = s.pc) :
    Quiet s s' := by
  refine ⟨fun t ht => ⟨⟨h t ht.1, ?_⟩, by rw [htid]⟩, hnext, fun u n => by rw [hpc]; exact id,
    fun u t n => by rw [hpc]; exact Or.inl⟩
  rw [← htid]
  exact ht.2

/-- A step whose first part keeps what `Tids` reads. -/
theorem Quiet.of_tids_trans (hq : Quiet s' s'') (h : s'.tids = s.tids) : Quiet s s'' :=
  (Quiet.of_tids_eq h).trans hq

theorem update_ne_none [DecidableEq τ] {f : τ → Option thread_status} {t u : τ}
    (ht : f t ≠ none) (st : thread_status) (h : update f t (some st) u ≠ none) : f u ≠ none := by
  by_cases hut : u = t
  · rw [hut]
    exact ht
  · rwa [update_of_ne hut] at h

variable [DecidableEq τ]

/-- The running thread moves on to `p`, which holds the tid its place held, if any. -/
theorem Quiet.goto {p : Pc τ σ L C}
    (hp : ∀ n, p.pending_tid = some n → (s.pc s.current).pending_tid = some n)
    (hst : ∀ t n, p = .tid_store t n → s.pc s.current = .tid_store t n ∨ n = s.next_tid) :
    Quiet s (s.goto p) := by
  refine ⟨fun _ h => ⟨h, rfl⟩, rfl, fun u n h => ?_, fun u t n h => ?_⟩ <;>
    simp only [St.goto] at h
  · by_cases hu : u = s.current
    · rw [hu, update_self] at h
      rw [hu]
      exact hp n h
    · rwa [update_of_ne hu] at h
  · by_cases hu : u = s.current
    · rw [hu, update_self] at h
      rw [hu]
      exact hst t n h
    · rw [update_of_ne hu] at h
      exact Or.inl h

/-- The running thread moves on to a place that holds no tid and stores none. -/
theorem Quiet.goto_none {p : Pc τ σ L C} (hp : p.pending_tid = none)
    (hst : ∀ t n, p ≠ .tid_store t n) : Quiet s (s.goto p) :=
  Quiet.goto (fun n h => by rw [hp] at h; cases h) (fun t n h => absurd h (hst t n))

/-- `schedule` gives a status only to the thread it switches to, which had one. -/
theorem Quiet.schedule (h : Threads.schedule s = some s') : Quiet s s' := by
  obtain ⟨-, hn, rfl⟩ := schedule_eq_some.mp h
  have hpc : ∀ u, (update s.pc (next_thread_to_run s).1 (s.pc (next_thread_to_run s).1).resumed
      u).resumed = (s.pc u).resumed := by
    intro u
    by_cases hu : u = (next_thread_to_run s).1
    · rw [hu, update_self, Pc.resumed_resumed]
    · rw [update_of_ne hu]
  refine ⟨fun t ht => ⟨⟨?_, ht.2⟩, rfl⟩, rfl, fun u n hu => ?_, fun u t n hu => ?_⟩
  · have h1 := ht.1
    simp only at h1
    by_cases htn : t = (next_thread_to_run s).1
    · rw [htn]
      exact hn
    · -- a thread the switch frees had a status before
      rw [if_neg htn] at h1
      split_ifs at h1
      · exact absurd rfl h1
      · exact h1
  · simp only [switch_threads] at hu
    rwa [← Pc.pending_tid_resumed, hpc, Pc.pending_tid_resumed] at hu
  · simp only [switch_threads] at hu
    rw [← Pc.resumed_eq_tid_store, hpc, Pc.resumed_eq_tid_store] at hu
    exact Or.inl hu

/-- `schedule` after the running thread's status is set: `thread_block`, `thread_yield` and
`thread_exit`. -/
theorem Quiet.schedule_set (hcur : s.status s.current ≠ none) {ready all : List τ}
    {st : thread_status} (h : Threads.schedule { s with
      ready_list := ready
      all_list := all
      status := update s.status s.current (some st) } = some s') : Quiet s s' := by
  have h₁ : Quiet s { s with
      ready_list := ready
      all_list := all
      status := update s.status s.current (some st) } :=
    Quiet.of_status (fun _ => update_ne_none hcur _) rfl rfl rfl
  exact h₁.trans (Quiet.schedule h)

theorem Quiet.thread_block (hcur : s.status s.current ≠ none)
    (h : Threads.thread_block s = some s') : Quiet s s' :=
  Quiet.schedule_set hcur h

theorem Quiet.thread_unblock_all {ts : List τ} (h : Threads.thread_unblock_all s ts = some s') :
    Quiet s s' := by
  obtain ⟨-, hb, rfl⟩ := thread_unblock_all_eq_some.mp h
  refine Quiet.of_status (fun u hu => ?_) rfl rfl rfl
  by_cases hm : u ∈ ts
  · simp [hb u hm]
  · simpa [hm] using hu

theorem Quiet.thread_yield (hcur : s.status s.current ≠ none)
    (h : Threads.thread_yield s = some s') : Quiet s s' :=
  Quiet.schedule_set hcur h

theorem Quiet.thread_exit (hcur : s.status s.current ≠ none)
    (h : Threads.thread_exit s = some s') : Quiet s s' :=
  Quiet.schedule_set hcur h

/-- A new thread's tid is 0 until its creator stores one, and it holds none. -/
theorem Quiet.thread_create {t : τ} (h : Threads.thread_create s t = some s') : Quiet s s' := by
  unfold Threads.thread_create at h
  split_ifs at h
  obtain rfl := Option.some.inj h
  have h₁ : Quiet s { s with
      status := update s.status t (some THREAD_BLOCKED)
      all_list := s.all_list ++ [t]
      tid := update s.tid t 0
      pc := update s.pc t .kernel_thread } := by
    refine ⟨fun u hu => ?_, rfl, fun u n hu => ?_, fun u v n hu => ?_⟩
    · have hut : u ≠ t := fun e => hu.2 (by rw [e]; exact update_self ..)
      exact ⟨⟨by simpa [update_of_ne hut] using hu.1, by simpa [update_of_ne hut] using hu.2⟩,
        update_of_ne hut _ _⟩
    · have hut : u ≠ t := fun e => by rw [e] at hu; simp [Pc.pending_tid] at hu
      simpa [update_of_ne hut] using hu
    · have hut : u ≠ t := fun e => by rw [e] at hu; simp at hu
      exact Or.inl (by simpa [update_of_ne hut] using hu)
  exact h₁.trans (Quiet.goto_none rfl fun _ _ h => by cases h)

section Locks

variable [DecidableEq σ] [DecidableEq L]

/-- A loop test of `sema_down`, whichever way it goes, from a place to places that are quiet. -/
theorem Quiet.sema_down_loop (hcur : s.status s.current ≠ none) {m : Sema τ σ L}
    {p k : Pc τ σ L C} (hp : Quiet s (s.goto p)) (hk : Quiet s (s.goto k))
    (h : Threads.sema_down_loop s m p k = some s') : Quiet s s' := by
  unfold Threads.sema_down_loop at h
  split_ifs at h
  · have h₁ : Quiet s { s.goto p with
        waiters := update s.waiters m (s.waiters m ++ [s.current]) } :=
      hp.trans (Quiet.of_tids_eq rfl)
    exact h₁.trans (Quiet.thread_block hcur h)
  · obtain rfl := Option.some.inj h
    exact hk.trans (Quiet.of_tids_eq rfl)

theorem Quiet.sema_up (hs : Inv s) {m : Sema τ σ L} (h : Threads.sema_up s m = some s') :
    Quiet s s' := by
  rcases sema_up_cases h with ⟨-, rfl⟩ | ⟨t, rest, hw, rfl⟩
  · exact Quiet.of_tids_eq rfl
  · exact Quiet.of_status (fun _ => update_ne_none (by simp [(hs.wake_waiter hw).1]) _) rfl rfl rfl

theorem Quiet.lock_acquire (hcur : s.status s.current ≠ none) {l : Lock L} {k : AcquireK τ}
    (h : Threads.lock_acquire s l k = some s') : Quiet s s' := by
  unfold Threads.lock_acquire at h
  split_ifs at h
  exact Quiet.sema_down_loop hcur (Quiet.goto_none rfl fun _ _ h => by cases h)
    (Quiet.goto_none rfl fun _ _ h => by cases h) h

omit [DecidableEq σ] in
theorem Quiet.lock_hold {l : Lock L} {k : AcquireK τ} : Quiet s (Threads.lock_hold s l k) :=
  Quiet.of_tids_trans (Quiet.goto_none k.next_quiet.1 k.next_quiet.2) rfl

theorem Quiet.lock_try_acquire {l : Lock L} (h : Threads.lock_try_acquire s l = some s') :
    Quiet s s' := by
  unfold Threads.lock_try_acquire at h
  split_ifs at h
  obtain rfl := Option.some.inj h
  by_cases hv : 0 < s.value (.lock l)
  · simp only [sema_try_down, hv, ↓reduceIte]
    exact Quiet.of_tids_trans (Quiet.goto_none rfl fun _ _ h => by cases h) rfl
  · simpa only [sema_try_down, hv, ↓reduceIte, Bool.false_eq_true] using Quiet.refl s

omit [DecidableEq σ] in
/-- `lock_release` from a place that holds no tid. -/
theorem Quiet.lock_release {l : Lock L} {k : ReleaseK τ}
    (hk : (Pc.lock_release l k : Pc τ σ L C).pending_tid = none)
    (h : Threads.lock_release s l k = some s') : Quiet s s' := by
  unfold Threads.lock_release at h
  split_ifs at h
  obtain rfl := Option.some.inj h
  exact Quiet.of_tids_trans (Quiet.goto_none hk fun _ _ h => by cases h) rfl

/-- The end of `lock_release`: the tid it held, if any, goes on with its caller. -/
theorem Quiet.lock_release_up (hs : Inv s) {l : Lock L} {k : ReleaseK τ}
    (hpc : s.pc s.current = .lock_release l k) (h : Threads.lock_release_up s l k = some s') :
    Quiet s s' := by
  obtain ⟨s₁, h₁, rfl⟩ := Option.map_eq_some_iff.mp h
  obtain ⟨hc, hp, -, -⟩ := sema_up_sched h₁
  refine (Quiet.sema_up hs h₁).trans (Quiet.goto (fun n hn => ?_) fun t n he => ?_)
  · rw [hp, hc, hpc, ← ReleaseK.pending_next]
    exact hn
  · exact absurd he (ReleaseK.next_ne_tid_store l k t n)

omit [DecidableEq σ] [DecidableEq L] in
theorem Quiet.timer_sleep_insert (hcur : s.status s.current ≠ none)
    (h : Threads.timer_sleep_insert s = some s') : Quiet s s' := by
  have h₁ : Quiet s { s.goto .timer_sleep with
      sleeping_threads :=
        list_insert_ordered (thread_sleep_time_comparator s) s.current s.sleeping_threads } :=
    (Quiet.goto_none rfl fun _ _ h => by cases h).trans (Quiet.of_tids_eq rfl)
  exact h₁.trans (Quiet.thread_block hcur h)

omit [DecidableEq σ] [DecidableEq L] in
theorem Quiet.timer_interrupt (hs : Inv s) (h : Threads.timer_interrupt s = some s') :
    Quiet s s' := by
  obtain ⟨s₂, h₂, hs₂⟩ := hs.timer_wake
  have h₁ : Quiet s s₂ := Quiet.of_tids_trans (Quiet.thread_unblock_all h₂) rfl
  unfold Threads.timer_interrupt at h
  dsimp only at h
  rw [h₂, Option.bind_some] at h
  split_ifs at h
  · exact h₁.trans (Quiet.thread_yield (by simp [hs₂.current_running]) h)
  · exact Option.some.inj h ▸ h₁

variable [DecidableEq C]

theorem Quiet.cond_wait {c : C} {l : L} (h : Threads.cond_wait s c l = some s') :
    Quiet s s' := by
  unfold Threads.cond_wait at h
  split_ifs at h
  exact Quiet.of_tids_trans (Quiet.lock_release rfl h) rfl

theorem Quiet.cond_signal (hs : Inv s) {c : C} {l : L}
    (h : Threads.cond_signal s c l = some s') : Quiet s s' := by
  rcases cond_signal_cases h with rfl | ⟨t, rest, -, h'⟩
  · exact Quiet.refl _
  · have hs₁ : Inv { s with cond_waiters := update s.cond_waiters c rest } := hs.of_core_eq rfl
    exact Quiet.of_tids_trans (Quiet.sema_up hs₁ h') rfl

theorem Quiet.cond_broadcast (hs : Inv s) {c : C} {l : L}
    (h : Threads.cond_broadcast s c l = some s') : Quiet s s' := by
  unfold Threads.cond_broadcast at h
  split at h
  · obtain rfl := Option.some.inj h
    exact Quiet.goto_none rfl fun _ _ h => by cases h
  · obtain ⟨s₁, h₁, rfl⟩ := Option.map_eq_some_iff.mp h
    exact (Quiet.cond_signal hs h₁).trans (Quiet.goto_none rfl fun _ _ h => by cases h)

end Locks

end Quiet

/-! ## The three steps that hand out a tid -/

section Issue

variable [DecidableEq τ] {s : St τ σ L C}

/-- The store of `next_tid++`, by the one thread between the load and the store: the tid it
read is handed to the place `p`, and `next_tid` moves past it. -/
theorem Tids.issue (ht : Tids s) (hone : ∀ u t n, s.pc u = .tid_store t n → u = s.current)
    {p : Pc τ σ L C} (hp : p.pending_tid = some s.next_tid) (hst : ∀ t n, p ≠ .tid_store t n) :
    Tids { s.goto p with next_tid := s.next_tid + 1 } := by
  refine ⟨Nat.succ_pos _, fun v hv => Nat.lt_succ_of_lt (ht.named_lt v hv), ht.named_inj,
    fun u m hu => ?_, fun u m v hu hv => ?_, fun u v m hu hv => ?_, fun u t m hu => ?_⟩ <;>
    simp only [St.goto] at hu
  · by_cases huc : u = s.current
    · rw [huc, update_self, hp, Option.some.injEq] at hu
      subst hu
      exact ⟨ht.next_pos, Nat.lt_succ_self _⟩
    · rw [update_of_ne huc] at hu
      exact ⟨(ht.pending_lt u m hu).1, Nat.lt_succ_of_lt (ht.pending_lt u m hu).2⟩
  · by_cases huc : u = s.current
    · rw [huc, update_self, hp, Option.some.injEq] at hu
      subst hu
      exact (ht.named_lt v hv).ne
    · rw [update_of_ne huc] at hu
      exact ht.pending_fresh u m v hu hv
  · -- the new tid is the running thread's alone: every other one is below it
    simp only [St.goto] at hv
    have hnew : ∀ w, w ≠ s.current → (s.pc w).pending_tid ≠ some s.next_tid := fun w _ hw =>
      (ht.pending_lt w _ hw).2.ne rfl
    by_cases huc : u = s.current <;> by_cases hvc : v = s.current
    · rw [huc, hvc]
    · rw [huc, update_self, hp] at hu
      rw [update_of_ne hvc, ← hu] at hv
      exact absurd hv (hnew v hvc)
    · rw [hvc, update_self, hp] at hv
      rw [update_of_ne huc, ← hv] at hu
      exact absurd hu (hnew u huc)
    · rw [update_of_ne huc] at hu
      rw [update_of_ne hvc] at hv
      exact ht.pending_inj u v m hu hv
  · by_cases huc : u = s.current
    · rw [huc, update_self] at hu
      exact absurd hu (hst t m)
    · rw [update_of_ne huc] at hu
      exact absurd (hone u t m hu) huc

/-- `t->tid = tid`, by the thread that held `tid`, which moves on to `p`. -/
theorem Tids.name (ht : Tids s) {n : Nat} (hn : (s.pc s.current).pending_tid = some n)
    {p : Pc τ σ L C} (hp : p.pending_tid = none) (hst : ∀ t n, p ≠ .tid_store t n) (t : τ) :
    Tids { s.goto p with tid := update s.tid t n } := by
  -- `t` is the one thread whose tid changes
  have hself : update s.tid t n t = n := update_self ..
  have hother : ∀ v, v ≠ t → update s.tid t n v = s.tid v := fun v hvt => update_of_ne hvt _ _
  have hnamed : ∀ v, v ≠ t → St.named { s.goto p with tid := update s.tid t n } v → s.named v :=
    fun v hvt hv => ⟨hv.1, by rw [← hother v hvt]; exact hv.2⟩
  -- and the running thread gives its tid away
  have hpend : ∀ u m, (update s.pc s.current p u).pending_tid = some m →
      u ≠ s.current ∧ (s.pc u).pending_tid = some m := by
    intro u m hu
    by_cases huc : u = s.current
    · rw [huc, update_self, hp] at hu
      cases hu
    · rw [update_of_ne huc] at hu
      exact ⟨huc, hu⟩
  refine ⟨ht.next_pos, fun v hv => ?_, fun v w hv hw he => ?_, fun u m hu => ?_,
    fun u m v hu hv => ?_, fun u v m hu hv => ?_, fun u t' m hu => ?_⟩
  · show update s.tid t n v < s.next_tid
    by_cases hvt : v = t
    · rw [hvt, hself]
      exact (ht.pending_lt _ n hn).2
    · rw [hother v hvt]
      exact ht.named_lt v (hnamed v hvt hv)
  · change update s.tid t n v = update s.tid t n w at he
    by_cases hvt : v = t <;> by_cases hwt : w = t
    · rw [hvt, hwt]
    · rw [hvt, hself, hother w hwt] at he
      exact absurd he.symm (ht.pending_fresh _ n w hn (hnamed w hwt hw))
    · rw [hwt, hself, hother v hvt] at he
      exact absurd he (ht.pending_fresh _ n v hn (hnamed v hvt hv))
    · rw [hother v hvt, hother w hwt] at he
      exact ht.named_inj v w (hnamed v hvt hv) (hnamed w hwt hw) he
  · exact ht.pending_lt u m (hpend u m hu).2
  · obtain ⟨huc, hu⟩ := hpend u m hu
    show update s.tid t n v ≠ m
    by_cases hvt : v = t
    · -- another thread holds `m`, so it is not the tid stored
      rw [hvt, hself]
      rintro rfl
      exact huc (ht.pending_inj u _ _ hu hn)
    · rw [hother v hvt]
      exact ht.pending_fresh u m v hu (hnamed v hvt hv)
  · exact ht.pending_inj u v m (hpend u m hu).2 (hpend v m hv).2
  · change update s.pc s.current p u = _ at hu
    by_cases huc : u = s.current
    · rw [huc, update_self] at hu
      exact absurd hu (hst t' m)
    · rw [update_of_ne huc] at hu
      exact ht.storing u t' m hu

end Issue

/-! ## Every step -/

section Steps

variable [DecidableEq τ] [Fintype τ] [DecidableEq σ] [DecidableEq L] [DecidableEq C]
  {s s' : St τ σ L C}

omit [DecidableEq σ] [DecidableEq C] in
/-- The store of `next_tid++` and `lock_release (&tid_lock)`: `tid_lock` is the running
thread's, so it is the one thread between the load and the store. -/
theorem Tids.tid_store (ht : Tids s) (hy : Synch s) {t : τ} {n : Nat}
    (hpc : s.pc s.current = .tid_store t n)
    (h : Threads.lock_release { s with next_tid := n + 1 } .tid_lock (.allocate_tid t n) =
      some s') : Tids s' := by
  have hn : n = s.next_tid := ht.storing _ _ _ hpc
  subst hn
  have hcur := (hy.allocating s.current).mpr (by rw [hpc]; rfl)
  have hone : ∀ u t n, s.pc u = .tid_store t n → u = s.current := fun u _ _ hu =>
    Option.some.inj (((hy.allocating u).mpr (by rw [hu]; rfl)).symm.trans hcur)
  unfold Threads.lock_release at h
  split_ifs at h
  obtain rfl := Option.some.inj h
  exact (ht.issue hone rfl fun _ _ h => by cases h).quiet (Quiet.of_tids_eq rfl)

omit [Fintype τ] [DecidableEq σ] [DecidableEq L] [DecidableEq C] in
/-- The end of `thread_create`: `t->tid = tid`, and `thread_unblock (t)`. -/
theorem Tids.thread_unblock (ht : Tids s) {t : τ} {n : Nat}
    (hpc : s.pc s.current = .thread_unblock t n)
    (h : (Threads.thread_unblock { s with tid := update s.tid t n } t).map
      (fun s' => s'.goto .free) = some s') : Tids s' := by
  obtain ⟨s₁, h₁, rfl⟩ := Option.map_eq_some_iff.mp h
  obtain ⟨hb, rfl⟩ := thread_unblock_eq_some.mp h₁
  have hb' : s.status t = some THREAD_BLOCKED := hb
  have hX := ht.name (by rw [hpc]; rfl) (p := .free) rfl (fun _ _ h => by cases h) t
  exact hX.quiet (Quiet.of_status (fun _ => update_ne_none (by simp [hb']) _) rfl rfl rfl)

omit [Fintype τ] in
/-- A call hands out no tid. -/
theorem Quiet.call (hs : Inv s) {c : Call τ σ L C} (h : Threads.call s c = some s') :
    Quiet s s' := by
  have hcur : s.status s.current ≠ none := by simp [hs.current_running]
  cases c with
  | thread_create t => exact Quiet.thread_create h
  | thread_yield => exact Quiet.thread_yield hcur h
  | thread_exit => exact Quiet.thread_exit hcur h
  | sema_down m =>
    exact Quiet.sema_down_loop hcur (Quiet.goto_none rfl fun _ _ h => by cases h)
      (Quiet.goto_none rfl fun _ _ h => by cases h) h
  | sema_try_down m =>
    simp only [Threads.call, Option.some.injEq] at h
    subst h
    unfold sema_try_down
    split_ifs
    · exact Quiet.of_tids_eq rfl
    · exact Quiet.refl s
  | sema_up m => exact Quiet.sema_up hs h
  | lock_acquire l => exact Quiet.lock_acquire hcur h
  | lock_try_acquire l => exact Quiet.lock_try_acquire h
  | lock_release l => exact Quiet.lock_release rfl h
  | cond_wait c l => exact Quiet.cond_wait h
  | cond_signal c l => exact Quiet.cond_signal hs h
  | cond_broadcast c l => exact Quiet.cond_broadcast hs h
  | timer_sleep ticks =>
    simp only [Threads.call, Option.some.injEq] at h
    subst h
    exact Quiet.of_tids_trans (Quiet.goto_none rfl fun _ _ h => by cases h) rfl

/-- The next stretch of the call under way keeps `Tids`: only the load, the store and the
end of `thread_create` touch the tids. -/
theorem Tids.resume (ht : Tids s) (hs : Inv s) (hy : Synch s)
    (h : Threads.resume s = some s') : Tids s' := by
  have hcur : s.status s.current ≠ none := by simp [hs.current_running]
  have hquiet : ∀ {p : Pc τ σ L C}, p.pending_tid = none → (∀ t n, p ≠ .tid_store t n) →
      Quiet s (s.goto p) := Quiet.goto_none
  unfold Threads.resume at h
  cases hpc : s.pc s.current with
  | free => simp [hpc] at h
  | sema_down m =>
    simp only [hpc] at h
    exact ht.quiet (Quiet.sema_down_loop hcur (hquiet rfl fun _ _ h => by cases h)
      (hquiet rfl fun _ _ h => by cases h) h)
  | lock_acquire_call l k =>
    simp only [hpc] at h
    exact ht.quiet (Quiet.lock_acquire hcur h)
  | lock_acquire l k =>
    simp only [hpc] at h
    exact ht.quiet (Quiet.sema_down_loop hcur (hquiet rfl fun _ _ h => by cases h)
      (hquiet rfl fun _ _ h => by cases h) h)
  | lock_hold l k =>
    simp only [hpc, Option.some.injEq] at h
    subst h
    exact ht.quiet Quiet.lock_hold
  | lock_release l k =>
    simp only [hpc] at h
    exact ht.quiet (Quiet.lock_release_up hs hpc h)
  | cond_wait l =>
    simp only [hpc] at h
    exact ht.quiet (Quiet.sema_down_loop hcur (hquiet rfl fun _ _ h => by cases h)
      (hquiet rfl fun _ _ h => by cases h) h)
  | cond_broadcast c l =>
    simp only [hpc] at h
    exact ht.quiet (Quiet.cond_broadcast hs h)
  | tid_load t =>
    -- the load of `next_tid`: the thread is about to store what it read
    simp only [hpc, Option.some.injEq] at h
    subst h
    exact ht.quiet (Quiet.goto (fun _ h => by cases h) fun _ _ h => by cases h; exact Or.inr rfl)
  | tid_store t n =>
    simp only [hpc] at h
    exact ht.tid_store hy hpc h
  | thread_unblock t n =>
    simp only [hpc] at h
    exact ht.thread_unblock hpc h
  | timer_sleep_insert =>
    simp only [hpc] at h
    exact ht.quiet (Quiet.timer_sleep_insert hcur h)
  | timer_sleep => simp [hpc] at h
  | kernel_thread => simp [hpc] at h

/-- Every step keeps `Tids`, with the scheduler's and the locks' invariants. -/
theorem tids_step :
    Transition.Stable step fun s : St τ σ L C => (Inv s ∧ Synch s) ∧ Tids s := by
  intro s a s' hs h
  refine ⟨synch_step s a s' hs.1 h, ?_⟩
  have hcur : s.status s.current ≠ none := by simp [hs.1.1.current_running]
  cases a with
  | call c =>
    simp only [Threads.step] at h
    split_ifs at h
    exact hs.2.quiet (Quiet.call hs.1.1 h)
  | resume => exact hs.2.resume hs.1.1 hs.1.2 h
  | idle =>
    simp only [Threads.step] at h
    split_ifs at h
    exact hs.2.quiet (Quiet.thread_block hcur h)
  | timer_interrupt =>
    simp only [Threads.step] at h
    split_ifs at h
    exact hs.2.quiet (Quiet.timer_interrupt hs.1.1 h)

omit [Fintype τ] [DecidableEq σ] [DecidableEq L] [DecidableEq C] in
/-- `thread_start` returns with tid 1 for `main` and tid 2 for the idle thread. -/
theorem tids_init {main idle : τ} (hmi : main ≠ idle) (value : σ → Nat) :
    Tids (init (L := L) (C := C) main idle value) := by
  have hnamed : ∀ t, (init (L := L) (C := C) main idle value).named t → t = main ∨ t = idle := by
    intro t ht
    by_cases hm : t = main
    · exact Or.inl hm
    · by_cases hi : t = idle
      · exact Or.inr hi
      · exact absurd (by simp [init, hm, hi]) ht.1
  refine ⟨by simp [init], fun t ht => ?_, fun t u ht hu he => ?_, (fun _ _ h => by cases h),
    (fun _ _ _ h _ => by cases h), (fun _ _ _ h _ => by cases h), (fun _ _ _ h => by cases h)⟩
  · rcases hnamed t ht with rfl | rfl <;> simp [init, Ne.symm hmi]
  · rcases hnamed t ht with rfl | rfl <;> rcases hnamed u hu with rfl | rfl <;>
      simp_all [init, Ne.symm hmi]

/-- `Tids` holds in every state that some run reaches from `init`. -/
theorem Tids.reachable {main idle : τ} (hmi : main ≠ idle) {value : σ → Nat}
    (h : Transition.Reachable step (init main idle value) s) : Tids s :=
  (tids_step.reachable ⟨Synch.reachable hmi .init, tids_init hmi value⟩ h).2

end Steps

/-- `holding_two` after `lock->holder = thread_current ()`, the load and the store of
`next_tid++`: tid 3 is on its way to thread 2, in `lock_release (&tid_lock)`. -/
def issuing_two : St (Fin 3) Unit Unit Unit :=
  (Transition.run step holding_two [.resume, .resume, .resume]).getD holding_two

theorem issuing_two_reachable : Transition.Reachable step boot issuing_two :=
  holding_two_reachable.of_run
    (show Transition.run step holding_two [.resume, .resume, .resume] = some issuing_two from rfl)

section Runs

variable [DecidableEq τ] [Fintype τ] [DecidableEq σ] [DecidableEq L] [DecidableEq C]
  {main idle : τ} {value : σ → Nat} {s : St τ σ L C}

/-- No two live threads share a tid: of the threads on their pages, those `thread_create`
has given a tid have different ones, whatever the interleaving of the threads that create. -/
theorem tid_unique (hmi : main ≠ idle) (h : Transition.Reachable step (init main idle value) s)
    {t u : τ} (ht : s.status t ≠ none) (hu : s.status u ≠ none) (h0 : s.tid t ≠ 0)
    (he : s.tid t = s.tid u) : t = u :=
  (Tids.reachable hmi h).named_inj t u ⟨ht, h0⟩ ⟨hu, he ▸ h0⟩ he

/-- After `thread_create`, the three live threads have the tids 1, 2 and 3. -/
theorem tid_unique_asleep :
    (0 : Fin 3) ≠ 1 ∧ main_asleep.tid 0 = 1 ∧ main_asleep.tid 1 = 2 ∧ main_asleep.tid 2 = 3 ∧
      main_asleep.status 2 ≠ none ∧ main_asleep.tid 2 ≠ 0 ∧ (2 : Fin 3) = 2 :=
  ⟨by decide, by decide, by decide, by decide, by decide, by decide,
    tid_unique (s := main_asleep) (t := 2) (u := 2) (by decide) main_asleep_reachable (by decide)
      (by decide) (by decide) rfl⟩

/-- The tid `allocate_tid` has returned to a creator, until `thread_create` stores it, is
positive, below `next_tid`, that creator's alone, and no live thread's. -/
theorem allocated_tid_fresh (hmi : main ≠ idle)
    (h : Transition.Reachable step (init main idle value) s) {u : τ} {n : Nat}
    (hu : (s.pc u).pending_tid = some n) :
    0 < n ∧ n < s.next_tid ∧ (∀ v, (s.pc v).pending_tid = some n → v = u) ∧
      ∀ t, s.status t ≠ none → s.tid t ≠ n := by
  have ht := Tids.reachable hmi h
  refine ⟨(ht.pending_lt u n hu).1, (ht.pending_lt u n hu).2,
    fun v hv => ht.pending_inj v u n hv hu, fun t hst => ?_⟩
  -- a thread still without its tid has tid 0, and the tid handed out is positive
  by_cases h0 : s.tid t = 0
  · rw [h0]
    exact (ht.pending_lt u n hu).1.ne
  · exact ht.pending_fresh u n t hu ⟨hst, h0⟩

theorem allocated_tid_fresh_issuing :
    (0 : Fin 3) ≠ 1 ∧ (issuing_two.pc 0).pending_tid = some 3 ∧
      (0 < 3 ∧ 3 < issuing_two.next_tid ∧
        (∀ v, (issuing_two.pc v).pending_tid = some 3 → v = 0) ∧
        ∀ t, issuing_two.status t ≠ none → issuing_two.tid t ≠ 3) :=
  ⟨by decide, by decide, allocated_tid_fresh (by decide) issuing_two_reachable (by decide)⟩

end Runs

end Pintos.Threads
