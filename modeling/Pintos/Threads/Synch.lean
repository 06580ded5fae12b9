import Pintos.Census
import Pintos.Threads.Scheduler

/-!
# Locks and `tid_lock`

Every lock's semaphore counts its owner: its value, plus the threads between a successful
`sema_down` and `lock->holder = thread_current ()` or between `lock->holder = NULL` and
`sema_up`, plus one while the holder is set, is 1 (`Synch.census`, by `Census.count` over
a finite type of thread pages). `tid_lock` is held exactly by the thread between the load
and the store of `next_tid++`; a thread on its way to `lock_acquire (l)` does not hold `l`;
a thread in `cond_broadcast`'s loop holds the lock it was given.

With these the running thread, inside any call, always has a next step: none of the
`ASSERT`s on the way fails (`Synch.resume_some`).
-/

namespace Pintos.Threads

open Function thread_status intr_level

variable {τ σ L C : Type}

/-- `tid_lock` is taken only by `allocate_tid`, the other locks only by their callers. -/
def AcquireK.fits : Lock L → AcquireK τ → Bool
  | .tid_lock, .allocate_tid _ => true
  | .lock _, .ret => true
  | _, _ => false

/-- `tid_lock` is released only by `allocate_tid`, the other locks by their callers and by
`cond_wait`. -/
def ReleaseK.fits : Lock L → ReleaseK τ → Bool
  | .tid_lock, .allocate_tid _ _ => true
  | .lock _, .ret | .lock _, .cond_wait => true
  | _, _ => false

namespace Pc

variable [DecidableEq L]

/-- Between taking the semaphore of `l` and setting its holder, or between clearing the
holder and giving the semaphore back. -/
def owns (l : Lock L) : Pc τ σ L C → Bool
  | .lock_hold l' _ | .lock_release l' _ => l' = l
  | _ => false

/-- Inside `allocate_tid`, holding `tid_lock`. -/
def allocating : Pc τ σ L C → Bool
  | .tid_load _ | .tid_store _ _ => true
  | _ => false

/-- On the way to `lock_acquire (l)`, whose `ASSERT` asks that the thread not hold `l`. -/
def acquiring (l : Lock L) : Pc τ σ L C → Bool
  | .lock_acquire_call l' _ | .lock_acquire l' _ | .cond_wait l' => l' = l
  | _ => false

/-- Every lock's continuation fits the lock. -/
def fits : Pc τ σ L C → Bool
  | .lock_acquire_call l k | .lock_acquire l k | .lock_hold l k => k.fits l
  | .lock_release l k => k.fits l
  | .cond_wait l => l != .tid_lock
  | _ => true

/-- Outside the lock functions. -/
def plain : Pc τ σ L C → Bool
  | .free | .sema_down _ | .thread_unblock _ _ | .timer_sleep_insert | .timer_sleep
  | .kernel_thread => true
  | _ => false

variable (p : Pc τ σ L C)

@[simp] theorem owns_resumed (l : Lock L) : p.resumed.owns l = p.owns l := by cases p <;> rfl
omit [DecidableEq L] in
@[simp] theorem allocating_resumed : p.resumed.allocating = p.allocating := by cases p <;> rfl
@[simp] theorem acquiring_resumed (l : Lock L) : p.resumed.acquiring l = p.acquiring l := by
  cases p <;> rfl
@[simp] theorem fits_resumed : p.resumed.fits = p.fits := by cases p <;> rfl

omit [DecidableEq L] in
theorem resumed_eq_cond_broadcast {c : C} {l : L} :
    p.resumed = .cond_broadcast c l ↔ p = .cond_broadcast c l := by
  cases p <;> simp [resumed]

variable {p}

theorem plain_spec (h : p.plain) :
    (∀ l, p.owns l = false) ∧ p.allocating = false ∧ p.fits ∧ (∀ l, p.acquiring l = false) ∧
      ∀ c l, p ≠ .cond_broadcast c l := by
  cases p <;> simp_all [plain, owns, allocating, fits, acquiring]

end Pc

section Continuations

variable [DecidableEq L] {l : Lock L}

omit [DecidableEq L] in
/-- Where `lock_acquire` goes on: to its caller, or, for `tid_lock`, to the load of
`next_tid`. -/
theorem AcquireK.next_of_fits {k : AcquireK τ} (hk : k.fits l) :
    (l ≠ .tid_lock ∧ (k.next : Pc τ σ L C) = .free) ∨
      (l = .tid_lock ∧ ∃ t, (k.next : Pc τ σ L C) = .tid_load t) := by
  cases l <;> cases k <;> simp_all [AcquireK.fits, AcquireK.next]

/-- Where `lock_release` goes on takes no part in locking, but for `cond_wait`'s
`lock_acquire` of the same lock. -/
theorem ReleaseK.next_spec {k : ReleaseK τ} (hk : k.fits l) :
    (∀ l', (k.next l : Pc τ σ L C).owns l' = false) ∧ (k.next l : Pc τ σ L C).allocating = false ∧
      (k.next l : Pc τ σ L C).fits ∧ (∀ l', (k.next l : Pc τ σ L C).acquiring l' → l' = l) ∧
      ∀ c l', (k.next l : Pc τ σ L C) ≠ .cond_broadcast c l' := by
  cases l <;> cases k <;> simp_all [ReleaseK.fits, ReleaseK.next, Pc.owns, Pc.allocating,
    Pc.fits, Pc.acquiring]

end Continuations

variable [DecidableEq τ] [Fintype τ] [DecidableEq L]

/-- What the locks' fields and the places agree on. -/
structure Synch (s : St τ σ L C) : Prop where
  census : ∀ l, s.value (.lock l) + Census.count s.pc (Pc.owns l) + (s.holder l).isSome.toNat = 1
  fits : ∀ t, (s.pc t).fits
  allocating : ∀ t, s.holder .tid_lock = some t ↔ (s.pc t).allocating
  acquiring : ∀ t l, (s.pc t).acquiring l → s.holder l ≠ some t
  broadcasting : ∀ t c l, s.pc t = .cond_broadcast c l → s.holder (.lock l) = some t

/-- The fields `Synch` reads. -/
def St.locks (s : St τ σ L C) := (s.pc, s.holder, fun l => s.value (.lock l))

section Frame

variable {s s' : St τ σ L C}

omit [DecidableEq τ] in
/-- A thread between the semaphore and the holder has the lock to itself: the holder is
unset and the value is 0. -/
theorem Synch.of_owns (hs : Synch s) {t : τ} {l : Lock L} (h : (s.pc t).owns l) :
    s.holder l = none ∧ s.value (.lock l) = 0 := by
  have hpos : 0 < Census.count s.pc (Pc.owns l) := Census.count_pos.mpr ⟨t, h⟩
  have := hs.census l
  cases hh : s.holder l with
  | none =>
    simp only [hh, Option.isSome_none, Bool.toNat_false] at this
    exact ⟨rfl, by omega⟩
  | some u =>
    simp only [hh, Option.isSome_some, Bool.toNat_true] at this
    omega

omit [DecidableEq τ] in
/-- `Synch` reads the places only up to `resumed`: a first run changes nothing. -/
theorem Synch.resumed_congr (hs : Synch s) (hpc : ∀ t, (s'.pc t).resumed = (s.pc t).resumed)
    (hholder : s'.holder = s.holder) (hvalue : ∀ l, s'.value (.lock l) = s.value (.lock l)) :
    Synch s' := by
  have hview : ∀ (f : τ → Pc τ σ L C) l,
      Census.count f (Pc.owns l) = Census.count (fun t => (f t).resumed) (Pc.owns l) := by
    intro f l
    simp [Census.count]
  have hcount : ∀ l, Census.count s'.pc (Pc.owns l) = Census.count s.pc (Pc.owns l) := by
    intro l
    rw [hview s'.pc, hview s.pc, funext hpc]
  refine ⟨fun l => ?_, fun t => ?_, fun t => ?_, fun t l h => ?_, fun t c l h => ?_⟩
  · rw [hvalue, hcount, hholder]
    exact hs.census l
  · rw [← Pc.fits_resumed, hpc, Pc.fits_resumed]
    exact hs.fits t
  · rw [hholder, ← Pc.allocating_resumed, hpc, Pc.allocating_resumed]
    exact hs.allocating t
  · rw [← Pc.acquiring_resumed, hpc, Pc.acquiring_resumed] at h
    rw [hholder]
    exact hs.acquiring t l h
  · rw [← Pc.resumed_eq_cond_broadcast, hpc, Pc.resumed_eq_cond_broadcast] at h
    rw [hholder]
    exact hs.broadcasting t c l h

omit [DecidableEq τ] in
theorem Synch.of_locks_eq (hs : Synch s) (h : s'.locks = s.locks) : Synch s' := by
  simp only [St.locks, Prod.mk.injEq] at h
  obtain ⟨hpc, hholder, hvalue⟩ := h
  exact hs.resumed_congr (fun t => by rw [hpc]) hholder (fun l => congrFun hvalue l)

/-- The value of a semaphore that is no lock's changes. -/
theorem Synch.value_update [DecidableEq σ] (hs : Synch s) {m : Sema τ σ L} (hm : ∀ l, m ≠ .lock l) (n : Nat) :
    Synch { s with value := update s.value m n } :=
  hs.resumed_congr (fun _ => rfl) rfl fun l => update_of_ne (Ne.symm (hm l)) _ _

/-- `schedule` moves no place but to a first-run point. -/
theorem Synch.schedule (hs : Synch s) (h : Threads.schedule s = some s') : Synch s' := by
  obtain ⟨-, -, rfl⟩ := schedule_eq_some.mp h
  refine hs.resumed_congr (fun t => ?_) rfl fun _ => rfl
  simp only [switch_threads]
  by_cases ht : t = (next_thread_to_run s).1
  · rw [ht, update_self, Pc.resumed_resumed]
  · rw [update_of_ne ht]

theorem Synch.thread_block (hs : Synch s) (h : Threads.thread_block s = some s') : Synch s' := by
  refine Synch.schedule ?_ h
  exact hs.of_locks_eq rfl

/-- The running thread moves on to `p`, and the semaphores' values become `v`: each lock's
value gives up what the thread takes of it. `p` asks of the holders only what they give it. -/
theorem Synch.goto_value (hs : Synch s) {p : Pc τ σ L C} {v : Sema τ σ L → Nat}
    (hcensus : ∀ l, v (.lock l) + (p.owns l).toNat =
      s.value (.lock l) + ((s.pc s.current).owns l).toNat)
    (halloc : p.allocating = (s.pc s.current).allocating) (hfits : p.fits)
    (hacq : ∀ l, p.acquiring l → s.holder l ≠ some s.current)
    (hbc : ∀ c l, p = .cond_broadcast c l → s.holder (.lock l) = some s.current) :
    Synch { s.goto p with value := v } := by
  refine ⟨fun l => ?_, fun t => ?_, fun t => ?_, fun t l => ?_, fun t c l => ?_⟩ <;>
    simp only [St.goto]
  · have hc := Census.count_update (P := Pc.owns l) (f := s.pc) s.current p
    have := hs.census l
    have := hcensus l
    omega
  · by_cases ht : t = s.current
    · rw [ht, update_self]
      exact hfits
    · rw [update_of_ne ht]
      exact hs.fits t
  · by_cases ht : t = s.current
    · rw [ht, update_self, halloc]
      exact hs.allocating s.current
    · rw [update_of_ne ht]
      exact hs.allocating t
  · by_cases ht : t = s.current
    · rw [ht, update_self]
      exact hacq l
    · rw [update_of_ne ht]
      exact hs.acquiring t l
  · by_cases ht : t = s.current
    · rw [ht, update_self]
      exact hbc c l
    · rw [update_of_ne ht]
      exact hs.broadcasting t c l

/-- The running thread moves on to `p`, which owns what its place owned. -/
theorem Synch.goto (hs : Synch s) {p : Pc τ σ L C}
    (hown : ∀ l, p.owns l = (s.pc s.current).owns l)
    (halloc : p.allocating = (s.pc s.current).allocating) (hfits : p.fits)
    (hacq : ∀ l, p.acquiring l → s.holder l ≠ some s.current)
    (hbc : ∀ c l, p = .cond_broadcast c l → s.holder (.lock l) = some s.current) :
    Synch (s.goto p) :=
  hs.goto_value (v := s.value) (fun l => by rw [hown l]) halloc hfits hacq hbc

/-- The running thread moves between two places outside the lock functions. -/
theorem Synch.goto_plain (hs : Synch s) {p : Pc τ σ L C} (h₀ : (s.pc s.current).plain)
    (h : p.plain) : Synch (s.goto p) := by
  obtain ⟨hown₀, halloc₀, -, -, -⟩ := Pc.plain_spec h₀
  obtain ⟨hown, halloc, hfits, hacq, hbc⟩ := Pc.plain_spec h
  refine hs.goto (fun l => by rw [hown, hown₀]) (by rw [halloc, halloc₀]) hfits
    (fun l h => absurd h (by rw [hacq]; exact Bool.false_ne_true)) (fun c l h => absurd h (hbc c l))

end Frame

/-! ## The lock functions -/

section Locks

variable [DecidableEq σ] {s s' : St τ σ L C} {l : Lock L}

omit [Fintype τ] in
theorem lock_value_update (v : Sema τ σ L → Nat) (n : Nat) {l' : Lock L} (hl : l' ≠ l) :
    update v (.lock l) n (.lock l') = v (.lock l') :=
  update_of_ne (fun h => hl (Sema.lock.inj h)) _ _

/-- A successful `sema_down` of the semaphore of `l`, from outside the lock functions or on
the way to `lock_acquire (l)`: the running thread owns `l`. -/
theorem Synch.take (hs : Synch s) {k : AcquireK τ} (hv : s.value (.lock l) ≠ 0)
    (hk : k.fits l) (hown : ∀ l', (s.pc s.current).owns l' = false)
    (halloc : (s.pc s.current).allocating = false) :
    Synch { s.goto (.lock_hold l k) with
      value := update s.value (.lock l) (s.value (.lock l) - 1) } := by
  refine hs.goto_value (fun l' => ?_) (by rw [halloc]; rfl) hk (fun _ h => by simp [Pc.acquiring] at h)
    (fun _ _ h => by cases h)
  rw [hown l']
  by_cases hl : l' = l
  · subst hl
    simp only [update_self, Pc.owns, decide_true, Bool.toNat_true, Bool.toNat_false]
    omega
  · simp [lock_value_update _ _ hl, Pc.owns, Ne.symm hl]

/-- The end of `lock_release (l)`: the semaphore of `l` is given back. -/
theorem Synch.give (hs : Synch s) {k : ReleaseK τ} (hpc : s.pc s.current = .lock_release l k) :
    Synch { s.goto (k.next l) with value := update s.value (.lock l) (s.value (.lock l) + 1) } := by
  have hk : k.fits l := by
    have := hs.fits s.current
    rwa [hpc] at this
  obtain ⟨hown, halloc, hfits, hacq, hbc⟩ := ReleaseK.next_spec (σ := σ) (C := C) hk
  obtain ⟨hfree, -⟩ := hs.of_owns (t := s.current) (l := l) (by rw [hpc]; simp [Pc.owns])
  refine hs.goto_value (fun l' => ?_) (by rw [halloc, hpc]; rfl) hfits
    (fun l' h => by rw [hacq l' h, hfree]; exact fun h => by cases h) (fun c l' h => absurd h (hbc c l'))
  rw [hown l', hpc]
  by_cases hl : l' = l
  · subst hl
    simp [Pc.owns]
  · simp [lock_value_update _ _ hl, Pc.owns, Ne.symm hl]

omit [DecidableEq σ] in
/-- `lock->holder = thread_current ()` after a successful `sema_down`: the lock was free, and
the running thread goes back to its caller, or on in `allocate_tid` holding `tid_lock`. -/
theorem Synch.lock_hold (hs : Synch s) {k : AcquireK τ} (hpc : s.pc s.current = .lock_hold l k) :
    Synch (Threads.lock_hold s l k) := by
  have hown : (s.pc s.current).owns l := by rw [hpc]; simp [Pc.owns]
  obtain ⟨hfree, -⟩ := hs.of_owns hown
  have hk : k.fits l := by
    have := hs.fits s.current
    rwa [hpc] at this
  have hnext := AcquireK.next_of_fits (σ := σ) (C := C) hk
  -- the place `k.next` takes no part in locking but `allocate_tid`'s
  have hplace : (∀ l', (k.next : Pc τ σ L C).owns l' = false) ∧ (k.next : Pc τ σ L C).fits ∧
      (∀ l', (k.next : Pc τ σ L C).acquiring l' = false) ∧
      ∀ c l', (k.next : Pc τ σ L C) ≠ .cond_broadcast c l' := by
    rcases hnext with ⟨-, h⟩ | ⟨-, t₀, h⟩ <;> rw [h] <;>
      exact ⟨fun _ => rfl, rfl, fun _ => rfl, fun _ _ h => by cases h⟩
  obtain ⟨hown', hfits', hacq', hbc'⟩ := hplace
  unfold Threads.lock_hold
  refine ⟨fun l' => ?_, fun t => ?_, fun t => ?_, fun t l' => ?_, fun t c l' => ?_⟩ <;>
    simp only [St.goto]
  · have hc := Census.count_update (P := Pc.owns l') (f := s.pc) s.current k.next
    have := hs.census l'
    rw [hown' l', hpc] at hc
    by_cases hl : l' = l
    · subst hl
      simp only [update_self, hfree, Pc.owns, decide_true, Option.isSome_some,
        Option.isSome_none, Bool.toNat_true, Bool.toNat_false] at hc this ⊢
      omega
    · simp only [update_of_ne hl, Pc.owns, Ne.symm hl, decide_false, Bool.toNat_false] at hc ⊢
      omega
  · by_cases ht : t = s.current
    · rw [ht, update_self]
      exact hfits'
    · rw [update_of_ne ht]
      exact hs.fits t
  · rcases hnext with ⟨hl, h⟩ | ⟨rfl, t₀, h⟩
    · -- another lock: `tid_lock`'s holder stays, and the thread goes back to its caller
      rw [update_of_ne (Ne.symm hl)]
      by_cases ht : t = s.current
      · rw [ht, update_self, h]
        have := hs.allocating s.current
        rwa [hpc] at this
      · rw [update_of_ne ht]
        exact hs.allocating t
    · -- `tid_lock`: the thread goes on to load `next_tid`, and nobody else held it
      rw [update_self]
      by_cases ht : t = s.current
      · rw [ht, update_self, h]
        simp [Pc.allocating]
      · rw [update_of_ne ht, ← hs.allocating t, hfree]
        simp [Ne.symm ht]
  · by_cases ht : t = s.current
    · rw [ht, update_self, hacq' l']
      exact fun h => by cases h
    · rw [update_of_ne ht]
      intro h
      by_cases hl : l' = l
      · rw [hl, update_self]
        simpa using Ne.symm ht
      · rw [update_of_ne hl]
        exact hs.acquiring t l' h
  · by_cases ht : t = s.current
    · rw [ht, update_self]
      exact fun h => absurd h (hbc' c l')
    · rw [update_of_ne ht]
      intro h
      have hold := hs.broadcasting t c l' h
      by_cases hl : Lock.lock l' = l
      · rw [hl, hfree] at hold
        cases hold
      · rw [update_of_ne hl]
        exact hold

omit [DecidableEq σ] in
/-- `lock_release (l)` by its holder, from a place that is inside `allocate_tid` only when
`l` is `tid_lock`: the holder is cleared, and the running thread owns `l` until `sema_up`. -/
theorem Synch.lock_release (hs : Synch s) {k : ReleaseK τ}
    (hheld : s.holder l = some s.current) (hk : k.fits l)
    (hown : ∀ l', (s.pc s.current).owns l' = false)
    (halloc : l ≠ .tid_lock → (s.pc s.current).allocating = false) :
    Synch (St.goto { s with holder := update s.holder l none } (.lock_release l k)) := by
  refine ⟨fun l' => ?_, fun t => ?_, fun t => ?_, fun t l' => ?_, fun t c l' => ?_⟩ <;>
    simp only [St.goto]
  · have hc := Census.count_update (P := Pc.owns l') (f := s.pc) s.current (.lock_release l k)
    have := hs.census l'
    rw [hown l'] at hc
    by_cases hl : l' = l
    · subst hl
      simp only [update_self, hheld, Pc.owns, decide_true, Option.isSome_some,
        Option.isSome_none, Bool.toNat_true, Bool.toNat_false] at hc this ⊢
      omega
    · simp only [update_of_ne hl, Pc.owns, Ne.symm hl, decide_false, Bool.toNat_false] at hc ⊢
      omega
  · by_cases ht : t = s.current
    · rw [ht, update_self]
      exact hk
    · rw [update_of_ne ht]
      exact hs.fits t
  · by_cases hl : l = .tid_lock
    · -- the thread gives `tid_lock` up; nobody else was inside `allocate_tid`
      subst hl
      rw [update_self]
      by_cases ht : t = s.current
      · rw [ht, update_self]
        simp [Pc.allocating]
      · rw [update_of_ne ht, ← hs.allocating t, hheld]
        simp [Ne.symm ht]
    · rw [update_of_ne (Ne.symm hl)]
      by_cases ht : t = s.current
      · rw [ht, update_self, hs.allocating s.current, halloc hl]
        rfl
      · rw [update_of_ne ht]
        exact hs.allocating t
  · by_cases ht : t = s.current
    · rw [ht, update_self]
      simp [Pc.acquiring]
    · rw [update_of_ne ht]
      intro h
      by_cases hl' : l' = l
      · rw [hl', update_self]
        exact fun h => by cases h
      · rw [update_of_ne hl']
        exact hs.acquiring t l' h
  · by_cases ht : t = s.current
    · rw [ht, update_self]
      exact fun h => by cases h
    · rw [update_of_ne ht]
      intro h
      have hold := hs.broadcasting t c l' h
      by_cases hl : Lock.lock l' = l
      · rw [hl, hheld] at hold
        exact absurd (Option.some.inj hold).symm ht
      · rw [update_of_ne hl]
        exact hold

/-- A loop test of `sema_down`: the running thread blocks at `p`, or takes the semaphore and
goes on at `k`. -/
theorem Synch.sema_down_loop {m : Sema τ σ L} {p k : Pc τ σ L C} (hblock : Synch (s.goto p))
    (hpass : s.value m ≠ 0 →
      Synch { s.goto k with value := update s.value m (s.value m - 1) })
    (h : Threads.sema_down_loop s m p k = some s') : Synch s' := by
  unfold Threads.sema_down_loop at h
  split_ifs at h with hv
  · refine Synch.thread_block ?_ h
    exact hblock.of_locks_eq rfl
  · obtain rfl := Option.some.inj h
    exact (hpass hv).of_locks_eq rfl

/-- The loop test of `sema_down` in `lock_acquire (l)`, by a thread that does not hold `l`. -/
theorem Synch.acquire_loop (hs : Synch s) {k : AcquireK τ} (hnot : s.holder l ≠ some s.current)
    (hk : k.fits l) (hown : ∀ l', (s.pc s.current).owns l' = false)
    (halloc : (s.pc s.current).allocating = false)
    (h : Threads.sema_down_loop s (.lock l) (.lock_acquire l k) (.lock_hold l k) = some s') :
    Synch s' := by
  refine Synch.sema_down_loop ?_ (fun hv => hs.take hv hk hown halloc) h
  refine hs.goto (fun l' => by rw [hown]; rfl) (by rw [halloc]; rfl) hk (fun l' hl => ?_)
    (fun _ _ h => by cases h)
  have : l = l' := by simpa [Pc.acquiring] using hl
  exact this ▸ hnot

omit [Fintype τ] [DecidableEq L] [DecidableEq σ] in
theorem not_held {s : St τ σ L C} (h : lock_held_by_current_thread s l = false) :
    s.holder l ≠ some s.current := by
  simpa [lock_held_by_current_thread] using h

omit [Fintype τ] [DecidableEq L] [DecidableEq σ] in
theorem held {s : St τ σ L C} (h : lock_held_by_current_thread s l = true) :
    s.holder l = some s.current := by
  simpa [lock_held_by_current_thread] using h

/-- `lock_acquire (l)` from a place outside the lock functions. -/
theorem Synch.lock_acquire (hs : Synch s) {k : AcquireK τ} (hk : k.fits l)
    (hown : ∀ l', (s.pc s.current).owns l' = false)
    (halloc : (s.pc s.current).allocating = false)
    (h : Threads.lock_acquire s l k = some s') : Synch s' := by
  unfold Threads.lock_acquire at h
  split_ifs at h with hheld
  exact hs.acquire_loop (not_held (Bool.eq_false_iff.mpr hheld)) hk hown halloc h

omit [DecidableEq σ] in
theorem Synch.lock_release_some (hs : Synch s) {k : ReleaseK τ} (hk : k.fits l)
    (hown : ∀ l', (s.pc s.current).owns l' = false)
    (halloc : l ≠ .tid_lock → (s.pc s.current).allocating = false)
    (h : Threads.lock_release s l k = some s') : Synch s' := by
  unfold Threads.lock_release at h
  split_ifs at h with hheld
  obtain rfl := Option.some.inj h
  exact hs.lock_release (held hheld) hk hown halloc

/-- `lock_try_acquire (l)` from a place outside the lock functions. -/
theorem Synch.lock_try_acquire (hs : Synch s) (hk : (AcquireK.ret : AcquireK τ).fits l)
    (hown : ∀ l', (s.pc s.current).owns l' = false) (halloc : (s.pc s.current).allocating = false)
    (h : Threads.lock_try_acquire s l = some s') : Synch s' := by
  unfold Threads.lock_try_acquire at h
  split_ifs at h
  obtain rfl := Option.some.inj h
  by_cases hv : 0 < s.value (.lock l)
  · simp only [sema_try_down, hv, ↓reduceIte]
    exact (hs.take (Nat.pos_iff_ne_zero.mp hv) hk hown halloc).of_locks_eq rfl
  · simpa only [sema_try_down, hv, ↓reduceIte, Bool.false_eq_true] using hs

/-- `sema_up` of a semaphore that is no lock's. -/
theorem Synch.sema_up (hs : Synch s) {m : Sema τ σ L} (hm : ∀ l, m ≠ .lock l)
    (h : Threads.sema_up s m = some s') : Synch s' := by
  rcases sema_up_cases h with ⟨-, rfl⟩ | ⟨t, rest, -, rfl⟩
  · exact hs.value_update hm _
  · exact (hs.value_update hm _).of_locks_eq rfl

/-- The end of `lock_release (l)`. -/
theorem Synch.lock_release_up (hs : Synch s) {k : ReleaseK τ}
    (hpc : s.pc s.current = .lock_release l k) (h : Threads.lock_release_up s l k = some s') :
    Synch s' := by
  unfold Threads.lock_release_up at h
  obtain ⟨s₁, h₁, rfl⟩ := Option.map_eq_some_iff.mp h
  refine (hs.give hpc).of_locks_eq ?_
  rcases sema_up_cases h₁ with ⟨-, rfl⟩ | ⟨t, rest, -, rfl⟩ <;> rfl

variable [DecidableEq C]

omit [Fintype τ] in
/-- `cond_signal` asks that the lock be held, and keeps the holders and the places. -/
theorem cond_signal_locks {c : C} {l : L} (h : Threads.cond_signal s c l = some s') :
    s.holder (.lock l) = some s.current ∧ s'.pc = s.pc ∧ s'.holder = s.holder ∧
      ∀ l', s'.value (.lock l') = s.value (.lock l') := by
  have hheld : s.holder (.lock l) = some s.current := by
    unfold Threads.cond_signal at h
    split_ifs at h with hh
    exact held hh
  refine ⟨hheld, ?_⟩
  rcases cond_signal_cases h with rfl | ⟨t, rest, -, h'⟩
  · exact ⟨rfl, rfl, fun _ => rfl⟩
  · rcases sema_up_cases h' with ⟨-, rfl⟩ | ⟨u, rest', -, rfl⟩ <;>
      exact ⟨rfl, rfl, fun l' => by simp⟩

theorem Synch.cond_signal (hs : Synch s) {c : C} {l : L}
    (h : Threads.cond_signal s c l = some s') : Synch s' := by
  obtain ⟨-, hpc, hholder, hvalue⟩ := cond_signal_locks h
  exact hs.resumed_congr (fun t => by rw [hpc]) hholder hvalue

/-- An iteration of `cond_broadcast`'s loop, from its call or its loop test. -/
theorem Synch.cond_broadcast (hs : Synch s) {c : C} {l : L}
    (hown : ∀ l', (s.pc s.current).owns l' = false)
    (halloc : (s.pc s.current).allocating = false)
    (h : Threads.cond_broadcast s c l = some s') : Synch s' := by
  unfold Threads.cond_broadcast at h
  split at h
  · obtain rfl := Option.some.inj h
    exact hs.goto (fun l' => by rw [hown]; rfl) (by rw [halloc]; rfl) rfl (fun _ h => by cases h)
      (fun _ _ h => by cases h)
  · obtain ⟨s₁, h₁, rfl⟩ := Option.map_eq_some_iff.mp h
    obtain ⟨hheld, hpc, hholder, -⟩ := cond_signal_locks h₁
    have hcur : s₁.current = s.current := (cond_signal_sched h₁).1
    refine (hs.cond_signal h₁).goto (fun l' => ?_) ?_ rfl (fun _ h => by cases h)
      (fun c' l' hc => ?_)
    · rw [hpc, hcur, hown]
      rfl
    · rw [hpc, hcur, halloc]
      rfl
    · obtain ⟨-, rfl⟩ := Pc.cond_broadcast.inj hc
      rw [hholder, hcur]
      exact hheld

end Locks

/-! ## Every step -/

section Steps

variable [DecidableEq σ] [DecidableEq C] {s s' : St τ σ L C}

/-- A call by the running thread from its own code. -/
theorem Synch.call (hy : Synch s) (hs : Inv s) (hpc : s.pc s.current = .free)
    {c : Call τ σ L C} (h : Threads.call s c = some s') : Synch s' := by
  have hplain : (s.pc s.current).plain := by rw [hpc]; rfl
  have hown : ∀ l, (s.pc s.current).owns l = false := fun _ => by rw [hpc]; rfl
  have halloc : (s.pc s.current).allocating = false := by rw [hpc]; rfl
  cases c with
  | thread_create t =>
    simp only [Threads.call, Threads.thread_create] at h
    split_ifs at h with hnone
    obtain rfl := Option.some.inj h
    -- the page held no thread, so its place was `free`
    have htpc : s.pc t = .free := (hs.placed t).free_pc (by rw [hnone]; rfl)
    have htc : s.current ≠ t := fun h => by simp [← h, hs.current_running] at hnone
    have h₁ : Synch { s with
        status := update s.status t (some THREAD_BLOCKED)
        all_list := s.all_list ++ [t]
        tid := update s.tid t 0
        pc := update s.pc t .kernel_thread } := by
      refine hy.resumed_congr (fun u => ?_) rfl fun _ => rfl
      dsimp only
      by_cases hu : u = t
      · rw [hu, update_self, htpc]
        rfl
      · rw [update_of_ne hu]
    have hpc₁ : update s.pc t .kernel_thread s.current = .free := by rw [update_of_ne htc, hpc]
    refine h₁.goto (fun l => ?_) ?_ rfl (fun l hl => ?_) (fun _ _ h => by cases h) <;>
      simp only [hpc₁]
    · rfl
    · rfl
    · -- the creator does not hold `tid_lock`: it is not inside `allocate_tid`
      obtain rfl : Lock.tid_lock = l := by simpa [Pc.acquiring] using hl
      rw [Ne, hy.allocating, halloc]
      exact Bool.false_ne_true
  | thread_yield =>
    refine Synch.schedule ?_ h
    exact hy.of_locks_eq rfl
  | thread_exit =>
    refine Synch.schedule ?_ h
    exact hy.of_locks_eq rfl
  | sema_down m =>
    simp only [Threads.call] at h
    refine Synch.sema_down_loop (hy.goto_plain hplain rfl) (fun _ => ?_) h
    exact (hy.goto_plain hplain rfl).value_update (fun _ => by simp) _
  | sema_try_down m =>
    simp only [Threads.call, Option.some.injEq] at h
    subst h
    unfold sema_try_down
    split_ifs
    · exact hy.value_update (fun _ => by simp) _
    · exact hy
  | sema_up m =>
    simp only [Threads.call] at h
    exact hy.sema_up (fun _ => by simp) h
  | lock_acquire l => exact hy.lock_acquire rfl hown halloc h
  | lock_try_acquire l => exact hy.lock_try_acquire rfl hown halloc h
  | lock_release l => exact hy.lock_release_some rfl hown (fun _ => halloc) h
  | cond_wait c l =>
    simp only [Threads.call, Threads.cond_wait] at h
    split_ifs at h
    have h₁ : Synch { s with
        value := update s.value (.waiter s.current) 0
        waiters := update s.waiters (.waiter s.current) []
        cond_waiters := update s.cond_waiters c (s.cond_waiters c ++ [s.current]) } :=
      (hy.value_update (m := .waiter s.current) (fun _ => by simp) 0).of_locks_eq rfl
    exact h₁.lock_release_some rfl hown (fun _ => halloc) h
  | cond_signal c l => exact hy.cond_signal h
  | cond_broadcast c l => exact hy.cond_broadcast hown halloc h
  | timer_sleep ticks =>
    simp only [Threads.call, Option.some.injEq] at h
    subst h
    have h₁ : Synch { s with
        thread_sleep_time :=
          update s.thread_sleep_time s.current (Int32.ofInt (s.ticks + ticks)) } :=
      hy.of_locks_eq rfl
    exact h₁.goto_plain hplain rfl

/-- The next stretch of the call under way. -/
theorem Synch.resume (hy : Synch s) (h : Threads.resume s = some s') : Synch s' := by
  unfold Threads.resume at h
  have hfits := hy.fits s.current
  cases hpc : s.pc s.current with
  | free => simp [hpc] at h
  | sema_down m =>
    simp only [hpc] at h
    have hplain : (s.pc s.current).plain := by rw [hpc]; rfl
    refine Synch.sema_down_loop (hy.goto_plain hplain rfl) (fun _ => ?_) h
    exact (hy.goto_plain hplain rfl).value_update (fun _ => by simp) _
  | lock_acquire_call l k =>
    simp only [hpc] at h
    rw [hpc] at hfits
    exact hy.lock_acquire hfits (fun _ => by rw [hpc]; rfl) (by rw [hpc]; rfl) h
  | lock_acquire l k =>
    simp only [hpc] at h
    rw [hpc] at hfits
    exact hy.acquire_loop (hy.acquiring s.current l (by rw [hpc]; simp [Pc.acquiring])) hfits
      (fun _ => by rw [hpc]; rfl) (by rw [hpc]; rfl) h
  | lock_hold l k =>
    simp only [hpc, Option.some.injEq] at h
    exact h ▸ hy.lock_hold hpc
  | lock_release l k =>
    simp only [hpc] at h
    exact hy.lock_release_up hpc h
  | cond_wait l =>
    simp only [hpc] at h
    -- `cond_wait` is given a lock of the kernel, which the thread gave up
    obtain ⟨l', rfl⟩ : ∃ l', l = .lock l' := by
      rw [hpc] at hfits
      cases l with
      | tid_lock => simp [Pc.fits] at hfits
      | lock l' => exact ⟨l', rfl⟩
    have hnot := hy.acquiring s.current (.lock l') (by rw [hpc]; simp [Pc.acquiring])
    -- both places ask only that the thread not hold the lock
    have hacq : ∀ (p : Pc τ σ L C), (∀ l, p.acquiring l → l = .lock l') →
        ∀ l, p.acquiring l → s.holder l ≠ some s.current := fun p hp l hl => hp l hl ▸ hnot
    refine Synch.sema_down_loop ?_ (fun _ => ?_) h
    · rw [hpc] at hfits
      exact hy.goto (p := .cond_wait (.lock l')) (fun _ => by rw [hpc]) (by rw [hpc]) hfits
        (hacq _ fun l hl => by simpa [Pc.acquiring, eq_comm] using hl) (fun _ _ h => by cases h)
    · refine (hy.goto (p := .lock_acquire_call (.lock l') .ret) (fun _ => by rw [hpc]; rfl)
        (by rw [hpc]; rfl) rfl (hacq _ fun l hl => ?_) (fun _ _ h => by cases h)).value_update
        (fun _ => by simp) _
      simpa [Pc.acquiring, eq_comm] using hl
  | cond_broadcast c l =>
    simp only [hpc] at h
    exact hy.cond_broadcast (fun _ => by rw [hpc]; rfl) (by rw [hpc]; rfl) h
  | tid_load t =>
    simp only [hpc, Option.some.injEq] at h
    subst h
    exact hy.goto (fun _ => by rw [hpc]; rfl) (by rw [hpc]; rfl) rfl (fun _ => by simp [Pc.acquiring])
      (fun _ _ h => by cases h)
  | tid_store t tid =>
    simp only [hpc] at h
    have h₁ : Synch { s with next_tid := tid + 1 } := hy.of_locks_eq rfl
    exact h₁.lock_release_some rfl (fun _ => by simp [hpc]; rfl) (fun h => absurd rfl h) h
  | thread_unblock t tid =>
    simp only [hpc] at h
    obtain ⟨s₁, h₁, rfl⟩ := Option.map_eq_some_iff.mp h
    obtain ⟨-, rfl⟩ := thread_unblock_eq_some.mp h₁
    have h₂ : Synch { s with
        tid := update s.tid t tid
        ready_list := s.ready_list ++ [t]
        status := update s.status t (some THREAD_READY) } := hy.of_locks_eq rfl
    exact h₂.goto_plain (by simp [hpc]; rfl) rfl
  | timer_sleep_insert =>
    simp only [hpc] at h
    refine Synch.thread_block ?_ h
    exact (hy.goto_plain (by rw [hpc]; rfl) rfl).of_locks_eq rfl
  | timer_sleep => simp [hpc] at h
  | kernel_thread => simp [hpc] at h

omit [DecidableEq σ] [DecidableEq C] in
/-- The timer interrupt: the unblocks move no place, and the yield only schedules. -/
theorem Synch.timer_interrupt (hy : Synch s) (h : Threads.timer_interrupt s = some s') :
    Synch s' := by
  unfold Threads.timer_interrupt at h
  obtain ⟨s₂, h₂, h'⟩ := Option.bind_eq_some_iff.mp h
  obtain ⟨-, -, rfl⟩ := thread_unblock_all_eq_some.mp h₂
  split_ifs at h'
  · refine Synch.schedule ?_ h'
    exact hy.of_locks_eq rfl
  · obtain rfl := Option.some.inj h'
    exact hy.of_locks_eq rfl

/-- Every step keeps the scheduler's invariant and the locks'. -/
theorem synch_step : Transition.Stable step fun s : St τ σ L C => Inv s ∧ Synch s := by
  rintro s a s' ⟨hs, hy⟩ h
  refine ⟨inv_step s a s' hs h, ?_⟩
  cases a with
  | call c =>
    simp only [Threads.step] at h
    split_ifs at h with hg
    exact hy.call hs hg.2.2 h
  | resume => exact hy.resume h
  | idle =>
    simp only [Threads.step] at h
    split_ifs at h
    exact hy.thread_block h
  | timer_interrupt =>
    simp only [Threads.step] at h
    split_ifs at h
    exact hy.timer_interrupt h

omit [DecidableEq σ] [DecidableEq C] in
/-- At boot every lock is free and every thread in its own code. -/
theorem synch_init (main idle : τ) (value : σ → Nat) :
    Synch (init (L := L) (C := C) main idle value) := by
  have hcount : ∀ l, Census.count (init (L := L) (C := C) main idle value).pc (Pc.owns l) = 0 :=
    fun _ => Census.count_eq_zero.mpr fun _ => rfl
  refine ⟨fun l => ?_, fun _ => rfl, fun t => ?_, fun _ _ h => ?_, fun _ _ _ h => ?_⟩
  · rw [hcount]
    simp [init]
  · simp [init, Pc.allocating]
  · simp [init, Pc.acquiring] at h
  · simp [init] at h

theorem Synch.reachable {main idle : τ} (hmi : main ≠ idle) {value : σ → Nat} {s : St τ σ L C}
    (h : Transition.Reachable step (init main idle value) s) : Inv s ∧ Synch s :=
  synch_step.reachable ⟨inv_init hmi value, synch_init main idle value⟩ h

end Steps

/-! ## Progress: the `ASSERT`s of the kernel's own code -/

section Progress

variable [DecidableEq σ] [DecidableEq C] {s : St τ σ L C}

omit [Fintype τ] [DecidableEq L] [DecidableEq σ] [DecidableEq C] in
theorem held_iff {l : Lock L} :
    lock_held_by_current_thread s l = true ↔ s.holder l = some s.current := by
  simp [lock_held_by_current_thread]

omit [Fintype τ] in
/-- `cond_signal` by the holder of the lock never trips an `ASSERT`. -/
theorem Inv.cond_signal_some (hs : Inv s) {c : C} {l : L}
    (hheld : s.holder (.lock l) = some s.current) : ∃ s', Threads.cond_signal s c l = some s' := by
  unfold Threads.cond_signal
  rw [if_pos (held_iff.mpr hheld)]
  cases hc : s.cond_waiters c with
  | nil => exact ⟨s, rfl⟩
  | cons t rest =>
    have hs₁ : Inv { s with cond_waiters := update s.cond_waiters c rest } := hs.of_core_eq rfl
    exact hs₁.sema_up_some (.waiter t)

/-- The running thread, inside a call, always has its next step: none of the `ASSERT`s on
the way fails. -/
theorem Synch.resume_some (hy : Synch s) (hs : Inv s) (hpc : s.pc s.current ≠ .free) :
    ∃ s', Threads.resume s = some s' := by
  have hidle := hs.not_idle_of_pc hpc
  unfold Threads.resume
  cases hp : s.pc s.current with
  | free => exact absurd hp hpc
  | sema_down m =>
    dsimp only
    exact hs.sema_down_loop_some rfl (by rw [hp]) hidle
  | lock_acquire_call l k =>
    -- `thread_create`'s `lock_acquire (&tid_lock)`: the creator holds no lock it acquires
    have hnot := hy.acquiring s.current l (by rw [hp]; simp [Pc.acquiring])
    have hheld : lock_held_by_current_thread s l = false := by
      simpa [lock_held_by_current_thread] using hnot
    simp only [Threads.lock_acquire, hheld, Bool.false_eq_true, ↓reduceIte]
    exact hs.sema_down_loop_some rfl (by rw [hp]; exact (Pc.creating_acquire l k).1) hidle
  | lock_acquire l k =>
    dsimp only
    exact hs.sema_down_loop_some rfl (by rw [hp]) hidle
  | lock_hold l k =>
    dsimp only
    exact ⟨_, rfl⟩
  | lock_release l k =>
    obtain ⟨s₁, h₁⟩ := hs.sema_up_some (.lock l)
    simp only [Threads.lock_release_up, h₁, Option.map_some]
    exact ⟨_, rfl⟩
  | cond_wait l =>
    dsimp only
    exact hs.sema_down_loop_some rfl (by rw [hp]) hidle
  | cond_broadcast c l =>
    dsimp only
    unfold Threads.cond_broadcast
    split
    · exact ⟨_, rfl⟩
    · obtain ⟨s₁, h₁⟩ := hs.cond_signal_some (c := c) (hy.broadcasting s.current c l hp)
      simp only [h₁, Option.map_some]
      exact ⟨_, rfl⟩
  | tid_load t =>
    dsimp only
    exact ⟨_, rfl⟩
  | tid_store t tid =>
    -- the thread holds `tid_lock` there
    have hheld := (hy.allocating s.current).mpr (by rw [hp]; rfl)
    simp only [Threads.lock_release, lock_held_by_current_thread, hheld, decide_true,
      ↓reduceIte]
    exact ⟨_, rfl⟩
  | thread_unblock t tid =>
    -- the new thread is still blocked: only its creator unblocks it
    have hb := ((hs.placed t).created.mpr ⟨s.current, by rw [hp]; rfl⟩).1
    simp only [thread_unblock, hb, ↓reduceIte, Option.map_some]
    exact ⟨_, rfl⟩
  | timer_sleep_insert =>
    dsimp only
    exact (hs.sleep_insert_pre hp).schedule_some
  | timer_sleep =>
    have := hs.current_pc
    rw [hp] at this
    cases this
  | kernel_thread =>
    have := hs.current_pc
    rw [hp] at this
    cases this

/-- What a caller must ensure for the `ASSERT`s of a call: `palloc_get_page` gave
`thread_create` a page that holds no thread; the thread does not hold a lock it acquires,
and holds the lock it releases, waits on or signals with, and the one it broadcasts with
when some thread waits. -/
def Call.pre (s : St τ σ L C) : Call τ σ L C → Bool
  | .thread_create t => s.status t = none
  | .lock_acquire l | .lock_try_acquire l => s.holder (.lock l) ≠ some s.current
  | .lock_release l | .cond_wait _ l | .cond_signal _ l => s.holder (.lock l) = some s.current
  | .cond_broadcast c l => s.cond_waiters c = [] ∨ s.holder (.lock l) = some s.current
  | _ => true

omit [Fintype τ] [DecidableEq L] [DecidableEq σ] [DecidableEq C] in
theorem exists_if_held {l : Lock L} {x : Option (St τ σ L C)} :
    (∃ s', (if lock_held_by_current_thread s l then x else none) = some s') ↔
      s.holder l = some s.current ∧ ∃ s', x = some s' := by
  by_cases hh : s.holder l = some s.current <;> simp [lock_held_by_current_thread, hh]

omit [Fintype τ] [DecidableEq L] [DecidableEq σ] [DecidableEq C] in
theorem exists_if_not_held {l : Lock L} {x : Option (St τ σ L C)} :
    (∃ s', (if lock_held_by_current_thread s l then none else x) = some s') ↔
      s.holder l ≠ some s.current ∧ ∃ s', x = some s' := by
  by_cases hh : s.holder l = some s.current <;> simp [lock_held_by_current_thread, hh]

omit [Fintype τ] in
/-- A call from a thread's own code fails exactly when its caller broke the precondition
that its `ASSERT`s state. -/
theorem Inv.call_some_iff (hs : Inv s) (hidle : s.current ≠ s.idle_thread)
    (hpc : s.pc s.current = .free) (c : Call τ σ L C) :
    (∃ s', Threads.call s c = some s') ↔ c.pre s := by
  have hcre : (s.pc s.current).creating = none := by rw [hpc]; rfl
  cases c with
  | thread_create t =>
    simp only [Threads.call, Threads.thread_create, Call.pre, decide_eq_true_eq]
    split_ifs with h <;> simp [h]
  | thread_yield => exact ⟨fun _ => rfl, fun _ => hs.yield_pre.schedule_some⟩
  | thread_exit => exact ⟨fun _ => rfl, fun _ => (hs.exit_pre hpc hidle).schedule_some⟩
  | sema_down m =>
    exact ⟨fun _ => rfl, fun _ => hs.sema_down_loop_some (p := .sema_down m) rfl hcre.symm hidle⟩
  | sema_try_down m => exact ⟨fun _ => rfl, fun _ => ⟨_, rfl⟩⟩
  | sema_up m => exact ⟨fun _ => rfl, fun _ => hs.sema_up_some _⟩
  | lock_acquire l =>
    simp only [Threads.call, Threads.lock_acquire, Call.pre, decide_eq_true_eq]
    rw [exists_if_not_held]
    exact ⟨fun h => h.1, fun h => ⟨h, hs.sema_down_loop_some (p := .lock_acquire (.lock l) .ret)
      rfl hcre.symm hidle⟩⟩
  | lock_try_acquire l =>
    simp only [Threads.call, Threads.lock_try_acquire, Call.pre, decide_eq_true_eq]
    rw [exists_if_not_held]
    exact ⟨fun h => h.1, fun h => ⟨h, _, rfl⟩⟩
  | lock_release l =>
    simp only [Threads.call, Threads.lock_release, Call.pre, decide_eq_true_eq]
    rw [exists_if_held]
    exact ⟨fun h => h.1, fun h => ⟨h, _, rfl⟩⟩
  | cond_wait c l =>
    simp only [Threads.call, Threads.cond_wait, Call.pre, decide_eq_true_eq]
    rw [exists_if_held]
    -- `lock_release`'s `ASSERT` asks again what `cond_wait`'s did
    refine ⟨fun h => h.1, fun h => ⟨h, ?_⟩⟩
    unfold Threads.lock_release
    exact exists_if_held.mpr ⟨h, _, rfl⟩
  | cond_signal c l =>
    simp only [Threads.call, Call.pre, decide_eq_true_eq]
    exact ⟨fun h => h.elim fun _ h => (cond_signal_locks h).1, fun h => hs.cond_signal_some h⟩
  | cond_broadcast c l =>
    simp only [Threads.call, Threads.cond_broadcast, Call.pre, decide_eq_true_eq]
    cases hc : s.cond_waiters c with
    | nil => simp
    | cons t rest =>
      simp only [reduceCtorEq, false_or, Option.map_eq_some_iff]
      constructor
      · rintro ⟨_, s₁, h₁, -⟩
        exact (cond_signal_locks h₁).1
      · intro h
        obtain ⟨s₁, h₁⟩ := hs.cond_signal_some (c := c) h
        exact ⟨_, s₁, h₁, rfl⟩
  | timer_sleep ticks => exact ⟨fun _ => rfl, fun _ => ⟨_, rfl⟩⟩

end Progress

/-! ## What every run keeps -/

/-- `main` has called `thread_create` on page 2, and is about to take `tid_lock`. -/
def creating_two : St (Fin 3) Unit Unit Unit :=
  (step boot (.call (.thread_create (Fin.last 2)))).getD boot

theorem creating_two_reachable : Transition.Reachable step boot creating_two :=
  .step (.call (.thread_create (Fin.last 2))) .init rfl

/-- Then it has taken `tid_lock`'s semaphore, and is about to set the holder. -/
def holding_two : St (Fin 3) Unit Unit Unit := (step creating_two .resume).getD creating_two

theorem holding_two_reachable : Transition.Reachable step boot holding_two :=
  creating_two_reachable.step .resume rfl

section Runs

variable [DecidableEq σ] [DecidableEq C] {main idle : τ} {value : σ → Nat} {s : St τ σ L C}

/-- In every reachable state a thread inside a call always has its next step: none of the
`ASSERT`s on the way, in `lock_acquire`, `lock_release`, `cond_signal`, `thread_unblock` and
`schedule`, fails. -/
theorem resume_never_fails (hmi : main ≠ idle)
    (h : Transition.Reachable step (init main idle value) s) (hpc : s.pc s.current ≠ .free) :
    ∃ s', step s .resume = some s' :=
  (Synch.reachable hmi h).2.resume_some (Synch.reachable hmi h).1 hpc

theorem resume_never_fails_creating :
    (0 : Fin 3) ≠ 1 ∧ creating_two.pc creating_two.current ≠ .free ∧
      ∃ s', step creating_two .resume = some s' :=
  ⟨by decide, by decide, resume_never_fails (by decide) creating_two_reachable (by decide)⟩

omit [Fintype τ] in
/-- In every reachable state a call by a thread in its own code fails exactly when the
caller broke the precondition its `ASSERT`s state. -/
theorem call_fails_iff_precondition (hmi : main ≠ idle)
    (h : Transition.Reachable step (init main idle value) s) (hon : s.intr_level = INTR_ON)
    (hidle : s.current ≠ s.idle_thread) (hpc : s.pc s.current = .free) (c : Call τ σ L C) :
    (∃ s', step s (.call c) = some s') ↔ c.pre s := by
  rw [Threads.step, if_pos ⟨hon, hidle, hpc⟩]
  exact (Inv.reachable hmi h).call_some_iff hidle hpc c

/-- Thread 2, running while `main` sleeps, may call `lock_acquire` of the free lock. -/
theorem call_fails_iff_precondition_asleep :
    (0 : Fin 3) ≠ 1 ∧ main_asleep.intr_level = INTR_ON ∧
      main_asleep.current ≠ main_asleep.idle_thread ∧ main_asleep.pc main_asleep.current = .free ∧
      ((∃ s', step main_asleep (.call (.lock_acquire ())) = some s') ↔
        (Call.lock_acquire () : Call (Fin 3) Unit Unit Unit).pre main_asleep) :=
  ⟨by decide, by decide, by decide, by decide,
    call_fails_iff_precondition (by decide) main_asleep_reachable (by decide) (by decide)
      (by decide) _⟩

/-- The kernel never gets stuck: in every reachable state the timer can interrupt, or, with
interrupts off, the running thread goes on in `sema_down`. -/
theorem kernel_never_stuck (hmi : main ≠ idle)
    (h : Transition.Reachable step (init main idle value) s) :
    ∃ a s', step s a = some s' := by
  have hs := Inv.reachable hmi h
  cases hl : s.intr_level with
  | INTR_OFF =>
    -- interrupts are off only inside `sema_down`, which is not the thread's own code
    have hpc : s.pc s.current ≠ .free := fun hf => by
      simpa [hf, Pc.in_sema_down] using hs.intr_off hl
    exact ⟨.resume, (Synch.reachable hmi h).2.resume_some hs hpc⟩
  | INTR_ON =>
    refine ⟨.timer_interrupt, ?_⟩
    rw [Threads.step, if_pos hl]
    exact hs.timer_interrupt_some

theorem kernel_never_stuck_creating :
    (0 : Fin 3) ≠ 1 ∧ ∃ a s', step creating_two a = some s' :=
  ⟨by decide, kernel_never_stuck (by decide) creating_two_reachable⟩

/-- Lock exclusion: for every lock, at most one thread holds it or is between its `sema_down`
and its `sema_up`, and the lock's semaphore is 0 while one does. -/
theorem lock_exclusive (hmi : main ≠ idle)
    (h : Transition.Reachable step (init main idle value) s) (l : Lock L) {t u : τ}
    (ht : s.holder l = some t ∨ (s.pc t).owns l) (hu : s.holder l = some u ∨ (s.pc u).owns l) :
    t = u ∧ s.value (.lock l) = 0 := by
  have hcensus := (Synch.reachable hmi h).2.census l
  -- an owner outside the holder field is counted
  have hcount : ∀ v, (s.pc v).owns l → 1 ≤ Census.count s.pc (Pc.owns l) :=
    fun v hv => Census.count_pos.mpr ⟨v, hv⟩
  rcases ht with ht | ht <;> rcases hu with hu | hu
  · rw [ht] at hcensus
    exact ⟨Option.some.inj (ht.symm.trans hu), by simp at hcensus; omega⟩
  · rw [ht] at hcensus
    have := hcount u hu
    simp at hcensus
    omega
  · rw [hu] at hcensus
    have := hcount t ht
    simp at hcensus
    omega
  · have := hcount t ht
    refine ⟨Census.eq_of_count_le_one (by omega) ht hu, by omega⟩

theorem lock_exclusive_holding :
    (0 : Fin 3) ≠ 1 ∧ (holding_two.pc 0).owns .tid_lock ∧
      ((0 : Fin 3) = 0 ∧ holding_two.value (.lock .tid_lock) = 0) :=
  ⟨by decide, by decide,
    lock_exclusive (by decide) holding_two_reachable .tid_lock (Or.inr (by decide)) (Or.inr (by decide))⟩

end Runs

end Pintos.Threads
