import Pintos.Filesys.Filesys

/-!
# The global locks on return

`Locks H H' x`: run from a state where the locks are held as `H` and every
allocation to come succeeds, `x`, if it returns, returns with the locks held as
`H'`. Every function below returns with the locks as on entry, with two
exceptions: `dir_add` with an empty or over-long name returns holding
`dir_lock`, and `inode_open` whose `malloc` fails returns holding `filesys_lock`
(which `AllocOk` rules out). A call that sleeps on a lock or panics does not
return, so it satisfies every `Locks` statement.
-/

namespace Pintos.Filesys

open StateExcept SE

variable {α β : Type}

/-- Every allocation still to come succeeds. -/
def AllocOk (s : FsState) : Prop := ∀ b ∈ s.alloc, b = true

/-- From the holders `H`, `x` returns with the holders `H'` and a result that
satisfies `Q`. -/
def LocksQ (H H' : LockId → Option Nat) (x : FsM α) (Q : α → Prop) : Prop :=
  Triple (fun s => s.holder = H ∧ AllocOk s) x (fun a s => Q a ∧ s.holder = H' ∧ AllocOk s)
    (fun _ _ => True)

/-- From the holders `H`, `x` returns with the holders `H'`. -/
def Locks (H H' : LockId → Option Nat) (x : FsM α) : Prop := LocksQ H H' x fun _ => True

section Rules

variable {H H' H'' : LockId → Option Nat}

theorem locksQ_pure {a : α} {Q : α → Prop} (h : Q a) : LocksQ H H (pure a : FsM α) Q := by
  unfold LocksQ
  exact triple_pure fun _ hs => ⟨h, hs⟩

theorem locks_pure (a : α) : Locks H H (pure a : FsM α) := locksQ_pure trivial

theorem locksQ_bind {x : FsM α} {f : α → FsM β} {Q : α → Prop} {R : β → Prop}
    (hx : LocksQ H H' x Q) (hf : ∀ a, Q a → LocksQ H' H'' (f a) R) :
    LocksQ H H'' (x >>= f) R :=
  triple_bind hx fun a s hs => hf a hs.1 s hs.2

theorem locks_bind {x : FsM α} {f : α → FsM β} (hx : Locks H H' x)
    (hf : ∀ a, Locks H' H'' (f a)) : Locks H H'' (x >>= f) :=
  locksQ_bind hx fun a _ => hf a

theorem locksQ_get_bind {f : FsState → FsM α} {Q : α → Prop} (h : ∀ s, LocksQ H H' (f s) Q) :
    LocksQ H H' (get >>= f) Q := by
  unfold LocksQ at h ⊢
  exact triple_bind (triple_get (Q := fun _ s => s.holder = H ∧ AllocOk s) fun _ hs => hs) h

theorem locks_modify {f : FsState → FsState}
    (hf : ∀ s, (f s).holder = s.holder ∧ (f s).alloc = s.alloc) : Locks H H (modify f) := by
  unfold Locks LocksQ
  refine triple_modify fun s hs => ⟨trivial, ?_, ?_⟩
  · rw [(hf s).1]
    exact hs.1
  · unfold AllocOk
    rw [(hf s).2]
    exact hs.2

theorem locksQ_ite {c : Prop} [Decidable c] {x y : FsM α} {Q : α → Prop}
    (hx : c → LocksQ H H' x Q) (hy : ¬ c → LocksQ H H' y Q) :
    LocksQ H H' (if c then x else y) Q :=
  triple_ite hx hy

theorem locks_throw {e : FsStop} {Q : α → Prop} : LocksQ H H' (throw e : FsM α) Q := by
  unfold LocksQ
  exact triple_throw fun _ _ => trivial

theorem locks_throw_bind {e : FsStop} {f : α → FsM β} {Q : β → Prop} :
    LocksQ H H' (throw e >>= f) Q := by
  unfold LocksQ
  exact triple_bind (R := fun _ _ => False) (triple_throw fun _ _ => trivial) fun _ _ h => h.elim

theorem locks_acquire (t : Nat) (l : LockId) :
    Locks H (Function.update H l (some t)) (lock_acquire t l) := by
  refine locksQ_get_bind fun s => ?_
  rcases s.holder l with _ | u
  · unfold LocksQ
    exact triple_modify fun s' hs => ⟨trivial, by rw [hs.1], hs.2⟩
  · dsimp only
    by_cases hu : u = t
    · rw [if_pos hu]
      exact locks_throw
    · rw [if_neg hu]
      exact locks_throw

theorem locks_release (t : Nat) (l : LockId) :
    Locks H (Function.update H l none) (lock_release t l) := by
  refine locksQ_get_bind fun s => locksQ_ite (fun _ => ?_) fun _ => locks_throw
  unfold LocksQ
  exact triple_modify fun s' hs => ⟨trivial, by rw [hs.1], hs.2⟩

/-- `malloc` returns memory when every allocation succeeds. -/
theorem locks_malloc : LocksQ H H malloc (· = true) := by
  intro s ⟨hH, hok⟩
  rcases ha : s.alloc with _ | ⟨ok, rest⟩
  · simp only [malloc, bind_apply, get_apply, ha, pure_apply]
    exact ⟨trivial, hH, hok⟩
  · have hok' : ok = true := hok ok (by rw [ha]; exact List.mem_cons_self)
    have hrest : AllocOk { s with alloc := rest } :=
      fun b hb => hok b (by rw [ha]; exact List.mem_cons_of_mem _ hb)
    simp only [malloc, bind_apply, get_apply, ha, modify_apply, pure_apply]
    exact ⟨hok', hH, hrest⟩

/-- A lock taken from the free state and released again leaves the holders as they were. -/
theorem update_release {l : LockId} (hl : H l = none) (t : Nat) :
    Function.update (Function.update H l (some t)) l none = H := by
  rw [Function.update_idem, ← hl, Function.update_eq_self]

theorem locks_release_of {l : LockId} (hl : H l = none) (t : Nat) :
    Locks (Function.update H l (some t)) H (lock_release t l) := by
  have h := locks_release (H := Function.update H l (some t)) t l
  rwa [update_release hl] at h

/-- The common exit: the result is fixed, then the lock is released. -/
theorem locks_release_return {l : LockId} (hl : H l = none) (t : Nat) (a : α) :
    Locks (Function.update H l (some t)) H
      (pure a >>= fun r => lock_release t l >>= fun _ => pure r) :=
  locks_bind (locks_pure a) fun _ => locks_bind (locks_release_of hl t) fun _ => locks_pure _

/-- A lock some thread holds stops `lock_acquire`: it sleeps or panics. -/
theorem locks_acquire_held {l : LockId} (hl : H l ≠ none) (t : Nat) (f : Unit → FsM α)
    (Q : α → Prop) : LocksQ H H' (lock_acquire t l >>= f) Q := by
  rintro s ⟨hH, -⟩
  obtain ⟨u, hu⟩ := Option.ne_none_iff_exists'.mp hl
  have hsu : s.holder l = some u := by rw [hH, hu]
  by_cases hut : u = t
  · simp [lock_acquire, bind_apply, hsu, hut]
  · simp [lock_acquire, bind_apply, hsu, hut]

end Rules

/-! ## The functions -/

section Functions

variable {H : LockId → Option Nat} (t : Nat)

theorem free_map_allocate_locks (cnt : Nat) : Locks H H (free_map_allocate t cnt) := by
  by_cases hl : H .free_map_lock = none
  · refine locks_bind (locks_acquire t _) fun _ => locksQ_get_bind fun s => ?_
    refine locks_bind (locks_modify fun _ => ⟨rfl, rfl⟩) fun _ => ?_
    exact locks_bind (locks_release_of hl t) fun _ => locks_pure _
  · exact locks_acquire_held hl t _ _

theorem free_map_release_locks (sector cnt : Nat) : Locks H H (free_map_release t sector cnt) := by
  by_cases hl : H .free_map_lock = none
  · refine locks_bind (locks_acquire t _) fun _ => locksQ_get_bind fun s => ?_
    refine locksQ_ite (fun _ => ?_) fun _ => locks_throw
    exact locks_bind (locks_modify fun _ => ⟨rfl, rfl⟩) fun _ => locks_release_of hl t
  · exact locks_acquire_held hl t _ _

theorem inode_create_locks (sector : Nat) (length : Int) :
    Locks H H (inode_create t sector length) := by
  by_cases hl : H .filesys_lock = none
  · have hdone := locks_release_return hl t (α := Bool)
    refine locks_bind (locks_acquire t _) fun _ => ?_
    dsimp only
    refine locksQ_ite (fun _ => locks_throw_bind) fun _ => ?_
    refine locksQ_bind locks_malloc fun ok _ => locksQ_ite (fun _ => ?_) fun _ => hdone false
    refine locks_bind (free_map_allocate_locks t _) fun r => ?_
    cases r with
    | none => exact hdone false
    | some start => exact locks_bind (locks_modify fun _ => ⟨rfl, rfl⟩) fun _ => hdone true
  · exact locks_acquire_held hl t _ _

theorem inode_open_locks (sector : Nat) : Locks H H (inode_open t sector) := by
  by_cases hl : H .filesys_lock = none
  · refine locks_bind (locks_acquire t _) fun _ => locksQ_get_bind fun s => ?_
    refine locksQ_ite (fun _ => ?_) fun _ => ?_
    · exact locks_bind (locks_modify fun _ => ⟨rfl, rfl⟩) fun _ =>
        locks_bind (locks_release_of hl t) fun _ => locks_pure _
    · -- `malloc` succeeds, so the path that keeps the lock is not taken
      refine locksQ_bind locks_malloc fun ok hok => ?_
      subst hok
      rw [if_pos rfl]
      exact locks_bind (locks_modify fun _ => ⟨rfl, rfl⟩) fun _ =>
        locks_bind (locks_release_of hl t) fun _ => locks_pure _
  · exact locks_acquire_held hl t _ _

theorem inode_close_locks (inode : Option Nat) : Locks H H (inode_close t inode) := by
  rcases inode with _ | sector
  · exact locks_pure _
  by_cases hl : H .filesys_lock = none
  · refine locks_bind (locks_acquire t _) fun _ => locksQ_get_bind fun s => ?_
    split
    · exact locks_throw
    dsimp only
    refine locksQ_ite (fun _ => ?_) fun _ =>
      locks_bind (locks_modify fun _ => ⟨rfl, rfl⟩) fun _ => locks_release_of hl t
    -- the last close: the sectors of a removed inode go back to the free map
    refine locks_bind (locks_modify fun _ => ⟨rfl, rfl⟩) fun _ => ?_
    refine locksQ_ite (fun _ => ?_) fun _ => locks_release_of hl t
    exact locks_bind (free_map_release_locks t _ _) fun _ =>
      locks_bind (free_map_release_locks t _ _) fun _ => locks_release_of hl t
  · exact locks_acquire_held hl t _ _

theorem inode_remove_locks (sector : Nat) : Locks H H (inode_remove t sector) := by
  by_cases hl : H .filesys_lock = none
  · exact locks_bind (locks_acquire t _) fun _ =>
      locks_bind (locks_modify fun _ => ⟨rfl, rfl⟩) fun _ => locks_release_of hl t
  · exact locks_acquire_held hl t _ _

theorem dir_open_locks (inode : Option Nat) : Locks H H (dir_open t inode) :=
  locksQ_bind locks_malloc fun _ _ => locksQ_ite (fun _ => locks_pure _) fun _ =>
    locks_bind (inode_close_locks t _) fun _ => locks_pure _

theorem dir_open_root_locks : Locks H H (dir_open_root t) :=
  locks_bind (inode_open_locks t _) fun _ => dir_open_locks t _

theorem dir_close_locks (dir : Bool) : Locks H H (dir_close t dir) :=
  locksQ_ite (fun _ => inode_close_locks t _) fun _ => locks_pure _

theorem dir_lookup_locks (name : List UInt8) : Locks H H (dir_lookup t name) := by
  refine locksQ_get_bind fun s => ?_
  split
  · exact inode_open_locks t _
  · exact locks_pure _

theorem dir_add_locks {name : List UInt8} (hname : ¬ (name = [] ∨ NAME_MAX < name.length))
    (inode_sector : Nat) : Locks H H (dir_add t name inode_sector) := by
  by_cases hl : H .dir_lock = none
  · refine locks_bind (locks_acquire t _) fun _ => ?_
    dsimp only
    rw [if_neg hname]
    refine locksQ_get_bind fun s => locksQ_ite (fun _ => locks_release_return hl t _) fun _ => ?_
    split
    · exact locks_bind (locks_modify fun _ => ⟨rfl, rfl⟩) fun _ => locks_release_return hl t _
    · exact locks_release_return hl t _
  · exact locks_acquire_held hl t _ _

theorem dir_remove_locks (name : List UInt8) : Locks H H (dir_remove t name) := by
  by_cases hl : H .dir_lock = none
  · -- every path ends at `done`: the inode is closed, then the lock released
    have hdone : ∀ r : Bool × Option Nat, Locks (Function.update H .dir_lock (some t)) H
        (pure r >>= fun r => inode_close t r.2 >>= fun _ =>
          lock_release t .dir_lock >>= fun _ => pure r.1) :=
      fun r => locks_bind (locks_pure r) fun _ => locks_bind (inode_close_locks t _) fun _ =>
        locks_bind (locks_release_of hl t) fun _ => locks_pure _
    refine locks_bind (locks_acquire t _) fun _ => locksQ_get_bind fun s => ?_
    dsimp only
    split
    · exact hdone _
    refine locks_bind (inode_open_locks t _) fun inode => ?_
    cases inode with
    | none => exact hdone _
    | some inode =>
      exact locks_bind (locks_modify fun _ => ⟨rfl, rfl⟩) fun _ =>
        locks_bind (inode_remove_locks t _) fun _ => hdone _
  · exact locks_acquire_held hl t _ _

theorem file_open_locks (inode : Option Nat) : Locks H H (file_open t inode) :=
  locksQ_bind locks_malloc fun _ _ => locksQ_ite (fun _ => locks_pure _) fun _ =>
    locks_bind (inode_close_locks t _) fun _ => locks_pure _

theorem filesys_create_locks {name : List UInt8} (hname : ¬ (name = [] ∨ NAME_MAX < name.length))
    (initial_size : Int) : Locks H H (filesys_create t name initial_size) := by
  refine locks_bind (dir_open_root_locks t) fun dir => ?_
  -- the cleanup after the chain of `&&`: the header sector, then the directory
  have hdone : ∀ r : Bool × Nat, Locks H H (pure r >>= fun r =>
      if ¬ r.1 = true ∧ r.2 ≠ 0 then free_map_release t r.2 1 >>= fun _ =>
        dir_close t dir >>= fun _ => pure r.1
      else dir_close t dir >>= fun _ => pure r.1) := fun r =>
    locks_bind (locks_pure r) fun _ => locksQ_ite
      (fun _ => locks_bind (free_map_release_locks t _ _) fun _ =>
        locks_bind (dir_close_locks t dir) fun _ => locks_pure _)
      fun _ => locks_bind (dir_close_locks t dir) fun _ => locks_pure _
  dsimp only
  refine locksQ_ite (fun _ => ?_) fun _ => hdone _
  refine locks_bind (free_map_allocate_locks t 1) fun sector => ?_
  cases sector with
  | none => exact hdone _
  | some inode_sector =>
    refine locks_bind (inode_create_locks t _ _) fun ok => locksQ_ite (fun _ => ?_) fun _ => hdone _
    exact locks_bind (dir_add_locks t hname _) fun _ => hdone _

theorem filesys_create_locks_named :
    ¬ (([97] : List UInt8) = [] ∨ NAME_MAX < ([97] : List UInt8).length) ∧
      Locks (fun _ => none) (fun _ => none) (filesys_create 0 [97] 512) :=
  ⟨by decide, filesys_create_locks 0 (by decide) 512⟩

theorem filesys_open_locks (name : List UInt8) : Locks H H (filesys_open t name) := by
  refine locks_bind (dir_open_root_locks t) fun dir => ?_
  have hdone : ∀ inode, Locks H H (dir_close t dir >>= fun _ => file_open t inode) :=
    fun _ => locks_bind (dir_close_locks t dir) fun _ => file_open_locks t _
  dsimp only
  exact locksQ_ite (fun _ => locks_bind (dir_lookup_locks t name) fun _ => hdone _) fun _ =>
    locks_bind (locks_pure _) fun _ => hdone _

theorem filesys_remove_locks (name : List UInt8) : Locks H H (filesys_remove t name) := by
  refine locks_bind (dir_open_root_locks t) fun dir => ?_
  have hdone : ∀ success : Bool, Locks H H (dir_close t dir >>= fun _ => pure success) :=
    fun _ => locks_bind (dir_close_locks t dir) fun _ => locks_pure _
  dsimp only
  exact locksQ_ite (fun _ => locks_bind (dir_remove_locks t name) fun _ => hdone _) fun _ =>
    locks_bind (locks_pure _) fun _ => hdone _

end Functions

/-! ## The paths that keep a lock -/

section Leaks

variable (t : Nat)

/-- `dir_add` with an empty or over-long name returns `false` holding `dir_lock`. -/
theorem dir_add_invalid_name {name : List UInt8} (hname : name = [] ∨ NAME_MAX < name.length)
    (inode_sector : Nat) (s : FsState) (hl : s.holder .dir_lock = none) :
    dir_add t name inode_sector s =
      (.ok false, { s with holder := Function.update s.holder .dir_lock (some t) }) := by
  simp [dir_add, lock_acquire, bind_apply, hl, hname]

/-- A lock left held stops every later `lock_acquire` of it: another thread
sleeps, and the holder fails its assertion. -/
theorem lock_acquire_of_held {l : LockId} {u : Nat} (s : FsState) (hu : s.holder l = some u) :
    (lock_acquire t l s).1 = .error (if u = t then .panic else .blocked l) := by
  by_cases hut : u = t
  · simp [lock_acquire, bind_apply, hu, hut]
  · simp [lock_acquire, bind_apply, hu, hut]

end Leaks

theorem failure_paths_keep_locks :
    (filesys_create 0 [] 0 (formatted 16)).1 = .ok false ∧
    (filesys_create 0 [] 0 (formatted 16)).2.holder .dir_lock = some 0 ∧
    (filesys_create 1 [97] 0 (filesys_create 0 [] 0 (formatted 16)).2).1 =
      .error (.blocked .dir_lock) ∧
    (filesys_create 0 [97] 0 (filesys_create 0 [] 0 (formatted 16)).2).1 = .error .panic ∧
    (filesys_open 0 [97] { (formatted 16) with alloc := [false] }).1 = .ok none ∧
    (filesys_open 0 [97] { (formatted 16) with alloc := [false] }).2.holder .filesys_lock = some 0 ∧
    (filesys_open 1 [97] (filesys_open 0 [97] { (formatted 16) with alloc := [false] }).2).1 =
      .error (.blocked .filesys_lock) := by
  decide

end Pintos.Filesys
