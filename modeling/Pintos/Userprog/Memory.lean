import Pintos.StateExcept
import Pintos.Transition
import Pintos.Userprog.Syscall

/-!
# Kernel memory over process lifetimes

The pages and heap blocks that `process_execute`, `start_process`, `load`,
`open`, `close` and `process_exit` take from `palloc_get_page` and `malloc` and
give back. `Alloc` names each by what it holds and by the process it is held
for; processes are numbered by the `process_execute` call that made them. The
ledger `live` says which are handed out and not freed.

Each step is one call, run by one thread, with the outcome of each allocation
in it as a parameter: any `palloc_get_page` or `malloc` may return `NULL`. A
write through a `NULL` pointer faults in page 0, which is never mapped, and
`kill` panics on a fault in kernel code; after a panic nothing runs. Between
steps the threads interleave freely: a child may load and exit before its
parent's `process_execute` reads `alive_count`, as in `Pintos.Process`.

Not modelled: `process_wait`, which allocates and frees nothing; `load` past
`pagedir_create` (what it allocates goes into the page directory or is freed
before it returns, so its outcome is a parameter); the inode behind an open
file, which `file_close` gives back with the `struct file` (`Alloc.file`).

The ledger is a function of the process table (`Inv.ledger`): the command-line
copy lives while the parent waits in `process_execute`, the thread page and
the open files while the process lives, the page directory while
`t->pagedir` is set. Three things outlive every process: the `struct
shared_mem` (both `free`s are commented out), the `argv` page of a successful
`start_process`, and the `struct file_descriptor` of a file left open at exit
(`leaks_after_exit`).
-/

namespace Pintos.Memory

open StateExcept SE Transition Syscall

/-- `TID_ERROR` of `threads/thread.h`. -/
def TID_ERROR : Int := -1

/-- `offsetof (struct shared_mem, sema_exec)` on the 80x86: four 4-byte fields,
then `alive_count_lock`, a holder and a semaphore (a value and a list of two
`list_elem`s), 24 bytes. -/
def SEMA_EXEC_OFS : Nat := 40

/-- The kernel allocations of process lifetimes, by what they hold and for whom. -/
inductive Alloc
  /-- `cl_copy`, the page `process_execute` of process `p` copies the command line into. -/
  | cmd_line (p : Nat)
  /-- The `struct shared_mem` of process `c` and its parent. -/
  | shared_mem (c : Nat)
  /-- The page of `struct thread` and the kernel stack (`thread_create`). -/
  | thread (c : Nat)
  /-- The `argv` page of `start_process`. -/
  | argv (c : Nat)
  /-- The page directory, with its page tables and user pages (`load`). -/
  | pagedir (c : Nat)
  /-- A `struct file_descriptor` (`open`). -/
  | fd_entry (c : Nat) (fd : Int)
  /-- The `struct file` of a descriptor (`file_open`). -/
  | file (c : Nat) (fd : Int)
  deriving DecidableEq, Repr

def Alloc.owner : Alloc → Nat
  | .cmd_line p | .shared_mem p | .thread p | .argv p | .pagedir p => p
  | .fd_entry p _ | .file p _ => p

/-- Where the process of a `process_execute` call is. -/
inductive Status
  /-- No process: the call has not happened, or gave everything back. -/
  | unborn
  /-- The call allocated the `struct shared_mem` and failed to copy the command line. -/
  | no_thread
  /-- Made by `thread_create`; `start_process` has not reached `sema_up (sema_exec)`. -/
  | loading
  /-- `load` failed; past `sema_up (sema_exec)`, before `thread_exit`. -/
  | load_failed
  | running
  /-- In `process_execute`, blocked in `sema_down (sema_exec)` for process `c`. -/
  | exec_wait (c : Nat)
  | exited
  deriving DecidableEq, Repr

def Status.alive : Status → Bool
  | .loading | .load_failed | .running | .exec_wait _ => true
  | .unborn | .no_thread | .exited => false

/-- The `struct shared_mem` of the call's process is allocated. -/
def Status.has_record : Status → Bool
  | .unborn => false
  | _ => true

def Status.is_exec_wait : Status → Bool
  | .exec_wait _ => true
  | _ => false

@[simp] theorem Status.alive_exited : Status.exited.alive = false := rfl

@[simp] theorem Status.is_exec_wait_exited : Status.exited.is_exec_wait = false := rfl

@[simp] theorem Status.has_record_exited : Status.exited.has_record = true := rfl

structure Proc where
  status : Status
  /-- Ghost: `load` returned true. -/
  loaded : Bool
  /-- `t->pagedir != NULL`. -/
  pagedir : Bool
  /-- `alive_count` of the process's `struct shared_mem`. -/
  alive_count : Int
  child_relations : List Nat
  fds : Fds Unit
  /-- What the last system call returned to user code. -/
  ret : Int

def Proc.unborn : Proc := ⟨.unborn, false, false, 0, [], Fds.init, 0⟩

/-- The allocations a process holds, read off its state. -/
def Proc.holds (q : Proc) : Alloc → Bool
  | .cmd_line _ => q.status.is_exec_wait
  | .shared_mem _ => q.status.has_record
  | .thread _ => q.status.alive
  | .argv _ => q.loaded
  | .pagedir _ => q.pagedir
  | .fd_entry _ fd => (q.fds.abs fd).isSome
  | .file _ fd => (q.fds.abs fd).isSome && q.status.alive

structure St where
  procs : Nat → Proc
  /-- The number the next `process_execute` call gives its process. -/
  next_proc : Nat
  /-- Handed out by `palloc_get_page` or `malloc` and not freed. -/
  live : Alloc → Bool
  /-- The `PANIC` that stopped the kernel, once one has. -/
  panic : Option Panic

/-- What the ledger holds when it agrees with the process table. -/
def ledger (procs : Nat → Proc) (a : Alloc) : Bool := (procs a.owner).holds a

/-- Process 0 runs a loaded program. -/
def init : St where
  procs := Function.update (fun _ => Proc.unborn) 0 ⟨.running, true, true, 2, [], Fds.init, 0⟩
  next_proc := 1
  live := ledger (Function.update (fun _ => Proc.unborn) 0 ⟨.running, true, true, 2, [], Fds.init, 0⟩)
  panic := none

/-- Kernel code: it returns, or panics. -/
abbrev KM (α : Type) := SE St Panic α

/-! ## Primitives -/

def get_proc (p : Nat) : KM Proc := do pure ((← get).procs p)

def update_proc (p : Nat) (f : Proc → Proc) : KM Unit :=
  modify fun s => { s with procs := Function.update s.procs p (f (s.procs p)) }

def set_ret (p : Nat) (r : Int) : KM Unit := update_proc p fun q => { q with ret := r }

/-- An allocation that returns memory (`ok`) or `NULL`. -/
def allocate (a : Alloc) (ok : Bool) : KM Bool := do
  if ok then modify fun s => { s with live := Function.update s.live a true }
  pure ok

def release (a : Alloc) : KM Unit := modify fun s => { s with live := Function.update s.live a false }

def palloc_get_page (a : Alloc) (ok : Bool) : KM Bool := allocate a ok

def malloc (a : Alloc) (ok : Bool) : KM Bool := allocate a ok

def palloc_free_page (a : Alloc) : KM Unit := release a

def free (a : Alloc) : KM Unit := release a

/-- A kernel write at offset `ofs` of what an allocation returned: through `NULL`
it faults in page 0. -/
def deref (ok : Bool) (ofs : Nat) : KM Unit := if ok then pure () else throw (.pageFault ofs)

/-! ## The calls -/

/-- `process_execute` up to `sema_down (&sm->sema_exec)`: the `malloc` of the
record, the copy of the command line and the page of `thread_create`. -/
def process_execute (p : Nat) (sm copied created : Bool) : KM Unit := do
  let c := (← get).next_proc
  modify fun s => { s with next_proc := c + 1 }
  let sm ← malloc (.shared_mem c) sm
  -- `sema_init (&sm->sema_exec, 0)` is the first write through `sm`
  deref sm SEMA_EXEC_OFS
  update_proc c fun q => { q with status := .no_thread, alive_count := 1 }
  let cl_copy ← palloc_get_page (.cmd_line p) copied
  if !cl_copy then set_ret p TID_ERROR
  else
    let t ← palloc_get_page (.thread c) created
    if !t then
      palloc_free_page (.cmd_line p)
      free (.shared_mem c)
      update_proc c fun q => { q with status := .unborn }
      set_ret p TID_ERROR
    else
      update_proc c fun q => { q with status := .loading }
      update_proc p fun q => { q with status := .exec_wait c }

/-- `process_execute` after `sema_down (&sm->sema_exec)`. -/
def process_execute_finish (p c : Nat) : KM Unit := do
  let child ← get_proc c
  update_proc p fun q => { q with status := .running }
  if child.alive_count = 1 then
    palloc_free_page (.cmd_line p)
    set_ret p TID_ERROR
  else
    update_proc p fun q => { q with child_relations := q.child_relations ++ [c] }
    palloc_free_page (.cmd_line p)
    set_ret p c

/-- `load`: `pagedir_create`, then the rest, whose outcome is `rest`. -/
def load (c : Nat) (pd rest : Bool) : KM Bool := do
  let pd ← palloc_get_page (.pagedir c) pd
  if !pd then pure false
  else
    update_proc c fun q => { q with pagedir := true }
    pure rest

/-- `start_process` up to `sema_up (sema_exec)`. -/
def start_process (c : Nat) (argv pd rest : Bool) : KM Unit := do
  let argv ← palloc_get_page (.argv c) argv
  -- `argv[0] = strtok_r (cmd_line, " ", &save_ptr)`
  deref argv 0
  let success ← load c pd rest
  if success then
    update_proc c fun q =>
      { q with alive_count := q.alive_count + 1, loaded := true, status := .running }
  else
    palloc_free_page (.argv c)
    update_proc c fun q => { q with status := .load_failed }

/-- `open` past `validate_string`. `found`: the name is in the directory;
`file` is the `calloc` of `file_open`, `entry` the `malloc` of the descriptor. -/
def «open» (p : Nat) (found file entry : Bool) : KM Unit := do
  let q ← get_proc p
  if q.fds.next_fd ≥ MAX_FDS then set_ret p (-1)
  else
    let f ← if found then malloc (.file p q.fds.next_fd) file else pure false
    if !f then set_ret p (-1)
    else
      let e ← malloc (.fd_entry p q.fds.next_fd) entry
      -- `fd_entry->fd = cur->next_fd`
      deref e 0
      update_proc p fun q => { q with fds := (q.fds.open (some ())).2, ret := q.fds.next_fd }

/-- `close (fd)`: `file_close`, `list_remove` and `free` of the entry found. -/
def close (p : Nat) (fd : Int) : KM Unit := do
  let q ← get_proc p
  match (q.fds.close fd).2 with
  | none => pure ()
  | some () =>
    release (.file p fd)
    update_proc p fun q => { q with fds := (q.fds.close fd).1 }
    free (.fd_entry p fd)

/-- The loop of `process_exit` over `file_descriptors`: `file_close` of each
entry's file; the entry stays, its `list_remove` is commented out. -/
def close_files (p : Nat) : List (FileDescriptor Unit) → (Alloc → Bool) → Alloc → Bool
  | [], live => live
  | e :: es, live => close_files p es (Function.update live (.file p e.fd) false)

/-- The loop of `process_exit` over `child_relations`: each record's count is
decremented and the records that reach 0 are unlinked; their `free` is commented out. -/
def leave_children (p : Nat) : List Nat → (Nat → Proc) → Nat → Proc
  | [], procs => procs
  | c :: cs, procs =>
    let procs := Function.update procs c { procs c with alive_count := (procs c).alive_count - 1 }
    let procs := if (procs c).alive_count = 0 then
        Function.update procs p { procs p with child_relations := (procs p).child_relations.erase c }
      else procs
    leave_children p cs procs

/-- `thread_exit` of a user process: `process_exit`, then the next thread's
`thread_schedule_tail` frees the page. The process's own record is decremented
and, at 0, not freed (the `free` is commented out). -/
def process_exit (p : Nat) : KM Unit := do
  update_proc p fun q => { q with alive_count := q.alive_count - 1 }
  let q ← get_proc p
  modify fun s => { s with live := close_files p q.fds.file_descriptors s.live }
  modify fun s => { s with procs := leave_children p q.child_relations s.procs }
  if q.pagedir then
    update_proc p fun q => { q with pagedir := false }
    -- `pagedir_destroy`
    release (.pagedir p)
  update_proc p fun q => { q with status := .exited }
  palloc_free_page (.thread p)

/-! ## Steps -/

inductive Act
  /-- Process `p` calls `exec`; the outcomes of its three allocations. -/
  | exec (p : Nat) (sm copied created : Bool)
  /-- Process `p` returns from `sema_down (sema_exec)` for child `c`. -/
  | exec_finish (p c : Nat)
  /-- Child `c` runs `start_process`; the outcomes of its allocations and of `load`. -/
  | start (c : Nat) (argv pd rest : Bool)
  | «open» (p : Nat) (found file entry : Bool)
  | close (p : Nat) (fd : Int)
  /-- Process `p` calls `exit` or is killed, or its `load` failed. -/
  | exit (p : Nat)
  deriving DecidableEq, Repr

def Act.enabled (s : St) : Act → Bool
  | .exec p .. => (s.procs p).status = .running
  | .exec_finish p c =>
    (s.procs p).status = .exec_wait c && (s.procs c).status != .loading
  | .start c .. => (s.procs c).status = .loading
  | .open p .. | .close p _ => (s.procs p).status = .running
  | .exit p => (s.procs p).status = .running || (s.procs p).status = .load_failed

def Act.run : Act → KM Unit
  | .exec p sm copied created => process_execute p sm copied created
  | .exec_finish p c => process_execute_finish p c
  | .start c argv pd rest => start_process c argv pd rest
  | .open p found file entry => Memory.«open» p found file entry
  | .close p fd => Memory.close p fd
  | .exit p => process_exit p

/-- One call; a panic stops the kernel. -/
def step (s : St) (a : Act) : Option St :=
  if s.panic.isSome || !a.enabled s then none
  else match a.run s with
    | (.ok (), t) => some t
    | (.error e, t) => some { t with panic := some e }

/-! ## What the primitives do -/

@[simp] theorem get_proc_apply (p : Nat) (s : St) : get_proc p s = (.ok (s.procs p), s) := rfl

@[simp] theorem update_proc_apply (p : Nat) (f : Proc → Proc) (s : St) :
    update_proc p f s =
      (.ok (), { s with procs := Function.update s.procs p (f (s.procs p)) }) := rfl

@[simp] theorem set_ret_apply (p : Nat) (r : Int) (s : St) :
    set_ret p r s =
      (.ok (), { s with procs := Function.update s.procs p { s.procs p with ret := r } }) := rfl

@[simp] theorem allocate_apply (a : Alloc) (ok : Bool) (s : St) :
    allocate a ok s =
      (.ok ok, if ok then { s with live := Function.update s.live a true } else s) := by
  cases ok <;> rfl

@[simp] theorem palloc_get_page_eq (a : Alloc) (ok : Bool) :
    palloc_get_page a ok = allocate a ok := rfl

@[simp] theorem malloc_eq (a : Alloc) (ok : Bool) : malloc a ok = allocate a ok := rfl

@[simp] theorem palloc_free_page_eq (a : Alloc) : palloc_free_page a = release a := rfl

@[simp] theorem free_eq (a : Alloc) : free a = release a := rfl

@[simp] theorem release_apply (a : Alloc) (s : St) :
    release a s = (.ok (), { s with live := Function.update s.live a false }) := rfl

@[simp] theorem deref_true (ofs : Nat) (s : St) : deref true ofs s = (.ok (), s) := rfl

@[simp] theorem deref_false (ofs : Nat) (s : St) :
    deref false ofs s = (.error (.pageFault ofs), s) := rfl

theorem close_files_apply (p : Nat) (l : List (FileDescriptor Unit)) (live : Alloc → Bool)
    (a : Alloc) : close_files p l live a = (live a && !(l.any fun e => a == .file p e.fd)) := by
  induction l generalizing live with
  | nil => simp [close_files]
  | cons e es ih =>
    rw [close_files, ih, Function.update_apply]
    by_cases ha : a = .file p e.fd
    · simp [ha]
    · simp [ha, beq_false_of_ne ha]

/-! ## The ledger agrees with the process table -/

/-- The fields of a process that `Proc.holds` and `Fds.Wf` read are unchanged. -/
structure Proc.Alike (q q' : Proc) : Prop where
  status : q'.status = q.status
  loaded : q'.loaded = q.loaded
  pagedir : q'.pagedir = q.pagedir
  fds : q'.fds = q.fds

theorem Proc.Alike.holds {q q' : Proc} (h : q.Alike q') : q'.holds = q.holds := by
  funext a
  cases a <;> simp [Proc.holds, h.status, h.loaded, h.pagedir, h.fds]

theorem Proc.Alike.refl (q : Proc) : q.Alike q := ⟨rfl, rfl, rfl, rfl⟩

theorem Proc.Alike.trans {q q' q'' : Proc} (h : q.Alike q') (h' : q'.Alike q'') :
    q.Alike q'' :=
  ⟨h'.status.trans h.status, h'.loaded.trans h.loaded, h'.pagedir.trans h.pagedir,
    h'.fds.trans h.fds⟩

theorem Proc.Alike.with_alive_count (q : Proc) (n : Int) :
    q.Alike { q with alive_count := n } := ⟨rfl, rfl, rfl, rfl⟩

theorem Proc.Alike.with_child_relations (q : Proc) (l : List Nat) :
    q.Alike { q with child_relations := l } := ⟨rfl, rfl, rfl, rfl⟩

/-- Changing a process by a map that keeps its fields alike. -/
theorem Proc.alike_update {f : Proc → Proc} (hf : ∀ x : Proc, x.Alike (f x)) (procs : Nat → Proc)
    (r q : Nat) : (procs q).Alike (Function.update procs r (f (procs r)) q) := by
  rw [Function.update_apply]
  split
  · subst q
    exact hf _
  · exact Proc.Alike.refl _

/-- The loop over `child_relations` changes counts and lists only. -/
theorem leave_children_alike (p : Nat) (cs : List Nat) (procs : Nat → Proc) (q : Nat) :
    (procs q).Alike (leave_children p cs procs q) := by
  induction cs generalizing procs with
  | nil => exact Proc.Alike.refl _
  | cons c cs ih =>
    simp only [leave_children]
    refine Proc.Alike.trans ?_ (ih _)
    have h1 := Proc.alike_update (f := fun x => { x with alive_count := x.alive_count - 1 })
      (fun x => Proc.Alike.with_alive_count x _) procs c q
    split
    · exact h1.trans (Proc.alike_update
        (f := fun x => { x with child_relations := x.child_relations.erase c })
        (fun x => Proc.Alike.with_child_relations x _) _ p q)
    · exact h1

theorem leave_children_of_not_mem {p q : Nat} (hqp : q ≠ p) {cs : List Nat} (hq : q ∉ cs)
    (procs : Nat → Proc) : leave_children p cs procs q = procs q := by
  induction cs generalizing procs with
  | nil => rfl
  | cons c cs ih =>
    have hqc : q ≠ c := fun h => hq (h ▸ List.mem_cons_self)
    simp only [leave_children]
    rw [ih (fun h => hq (List.mem_cons_of_mem c h))]
    split <;> simp [Function.update_apply, hqc, hqp]

/-- The loop only unlinks children. -/
theorem mem_of_mem_leave_children {p q d : Nat} {cs : List Nat} {procs : Nat → Proc}
    (hd : d ∈ (leave_children p cs procs q).child_relations) : d ∈ (procs q).child_relations := by
  induction cs generalizing procs with
  | nil => exact hd
  | cons c cs ih =>
    simp only [leave_children] at hd
    have hd := ih hd
    -- the count update keeps every list, the unlink shrinks the parent's
    have hcount : ∀ r, (Function.update procs c
        { procs c with alive_count := (procs c).alive_count - 1 } r).child_relations =
        (procs r).child_relations := fun r => by
      rw [Function.update_apply]
      split <;> simp_all
    split at hd
    · by_cases hqp : q = p
      · subst hqp
        simp only [Function.update_self] at hd
        rw [hcount q] at hd
        exact List.mem_of_mem_erase hd
      · rwa [Function.update_of_ne hqp, hcount] at hd
    · rwa [hcount] at hd

/-- A step that changes the processes `touched` and the allocations they own
keeps the ledger if it keeps it for them. -/
theorem ledger_frame {s t : St} (h : s.live = ledger s.procs) (touched : Nat → Prop)
    (hprocs : ∀ q, ¬ touched q → (t.procs q).holds = (s.procs q).holds)
    (hlive : ∀ a, ¬ touched a.owner → t.live a = s.live a)
    (htouched : ∀ a, touched a.owner → t.live a = (t.procs a.owner).holds a) :
    t.live = ledger t.procs := by
  funext a
  by_cases ha : touched a.owner
  · exact htouched a ha
  · rw [hlive a ha, h, ledger, ledger, hprocs _ ha]

/-- What every process keeps: a loading one has not loaded, and its table is well formed. -/
structure Proc.Ok (q : Proc) : Prop where
  loading : q.status = .loading → q.loaded = false ∧ q.pagedir = false
  exited : q.status = .exited → q.pagedir = false
  wf : q.fds.Wf

theorem Proc.Alike.ok {q q' : Proc} (h : q.Alike q') (hq : q.Ok) : q'.Ok :=
  ⟨fun hl => by
    rw [h.loaded, h.pagedir]
    exact hq.loading (h.status ▸ hl),
   fun he => h.pagedir ▸ hq.exited (h.status ▸ he), h.fds ▸ hq.wf⟩

theorem Proc.ok_unborn : Proc.unborn.Ok := ⟨nofun, nofun, Fds.wf_init⟩

structure Inv (s : St) : Prop where
  ledger : s.live = ledger s.procs
  fresh : ∀ c, s.next_proc ≤ c → s.procs c = Proc.unborn
  ok : ∀ c, (s.procs c).Ok
  waiting : ∀ p c, (s.procs p).status = .exec_wait c → c < s.next_proc
  children : ∀ p, ∀ c ∈ (s.procs p).child_relations, c < s.next_proc

theorem Inv.live_eq {s : St} (hs : Inv s) (a : Alloc) : s.live a = (s.procs a.owner).holds a :=
  congrFun hs.ledger a

/-- A process that runs was made before the next one. -/
theorem Inv.lt_of_alive {s : St} (hs : Inv s) {p : Nat} (hp : (s.procs p).status.alive = true) :
    p < s.next_proc := by
  by_contra hge
  rw [hs.fresh p (Nat.le_of_not_lt hge)] at hp
  exact Bool.false_ne_true hp

/-- A step that changes no allocation and no field the ledger reads. -/
theorem Inv.of_alike {s t : St} (hs : Inv s) (hlive : t.live = s.live)
    (hnext : t.next_proc = s.next_proc) (hfresh : ∀ q, s.next_proc ≤ q → t.procs q = s.procs q)
    (halike : ∀ q, (s.procs q).Alike (t.procs q))
    (hchildren : ∀ p, ∀ c ∈ (t.procs p).child_relations, c < s.next_proc) : Inv t where
  ledger := by
    funext a
    rw [hlive, hs.ledger, Memory.ledger, Memory.ledger, (halike _).holds]
  fresh q hq := by
    rw [hfresh q (hnext ▸ hq)]
    exact hs.fresh q (hnext ▸ hq)
  ok q := (halike q).ok (hs.ok q)
  waiting p c hp := hnext ▸ hs.waiting p c ((halike p).status ▸ hp)
  children p c hc := hnext ▸ hchildren p c hc

/-- A system call that only returns a value to a process made before. -/
theorem Inv.set_ret {s : St} (hs : Inv s) {p : Nat} (hp : p < s.next_proc) (r : Int) :
    Inv { s with procs := Function.update s.procs p { s.procs p with ret := r } } := by
  refine hs.of_alike rfl rfl (fun q hq => ?_)
    (Proc.alike_update (f := fun x => { x with ret := r }) (fun _ => ⟨rfl, rfl, rfl, rfl⟩) _ p)
    (fun q d hd => hs.children q d ?_)
  · simp [show q ≠ p by omega]
  · by_cases hqp : q = p
    · subst hqp
      simpa using hd
    · simpa [Function.update_apply, hqp] using hd

theorem inv_process_execute {s t : St} (hs : Inv s) {p : Nat} (hp : (s.procs p).status = .running)
    {sm copied created : Bool} (h : process_execute p sm copied created s = (.ok (), t)) :
    Inv t := by
  have hpl : p < s.next_proc := hs.lt_of_alive (by rw [hp]; rfl)
  have hpc : p ≠ s.next_proc := Nat.ne_of_lt hpl
  have hc := hs.fresh s.next_proc (Nat.le_refl _)
  cases sm
  · simp [process_execute, bind_apply] at h
  -- the four outcomes of the two checked allocations
  cases copied <;> cases created <;> simp [process_execute, bind_apply] at h <;> subst h
  all_goals
    refine ⟨ledger_frame hs.ledger (fun q => q = p ∨ q = s.next_proc) ?_ ?_ ?_, ?_, ?_, ?_, ?_⟩
    · intro q hq
      simp only [not_or] at hq
      simp [Function.update_apply, hq.1, hq.2]
    · intro a ha
      simp only [not_or] at ha
      cases a <;> simp_all [Alloc.owner]
    · intro a ha
      rcases ha with ha | ha <;> cases a <;> simp only [Alloc.owner] at ha <;> subst ha <;>
        simp [Alloc.owner, hs.live_eq, Proc.holds, hp, hc, hpc,
          Ne.symm hpc, Proc.unborn, Status.alive, Status.is_exec_wait, Status.has_record]
    · intro q hq
      dsimp only at hq
      have hqp : q ≠ p := by omega
      have hqc : q ≠ s.next_proc := by omega
      simp [Function.update_apply, hqp, hqc, hs.fresh q (by omega)]
    · intro q
      by_cases hqc : q = s.next_proc
      · subst hqc
        constructor
        · simp [Function.update_apply, Ne.symm hpc, hc, Proc.unborn]
        · simp [Function.update_apply, Ne.symm hpc, hc, Proc.unborn]
        · simpa [Function.update_apply, Ne.symm hpc, hc, Proc.unborn] using Fds.wf_init (F := Unit)
      · by_cases hqp : q = p
        · subst hqp
          exact ⟨by simp [hqc, hp], by simp [hqc, hp],
            by simpa [Function.update_apply, hqc] using (hs.ok q).wf⟩
        · simpa [Function.update_apply, hqp, hqc] using hs.ok q
    · intro q d hq
      dsimp only
      by_cases hqc : q = s.next_proc
      · subst hqc
        simp [Function.update_apply, Ne.symm hpc, hc, Proc.unborn] at hq
      · by_cases hqp : q = p
        · subst hqp
          simp [hqc, hp] at hq <;> omega
        · have := hs.waiting q d (by simpa [Function.update_apply, hqp, hqc] using hq)
          omega
    · intro q d hd
      dsimp only
      by_cases hqc : q = s.next_proc
      · subst hqc
        simp [Function.update_apply, Ne.symm hpc, hc, Proc.unborn] at hd
      · by_cases hqp : q = p
        · subst hqp
          have := hs.children q d (by simpa [Function.update_apply, hqc] using hd)
          omega
        · have := hs.children q d (by simpa [Function.update_apply, hqp, hqc] using hd)
          omega

theorem inv_process_execute_finish {s t : St} (hs : Inv s) {p c : Nat}
    (hp : (s.procs p).status = .exec_wait c) (h : process_execute_finish p c s = (.ok (), t)) :
    Inv t := by
  have hpl : p < s.next_proc := hs.lt_of_alive (by rw [hp]; rfl)
  have hcl := hs.waiting p c hp
  -- the child failed (or already exited), or it is listed
  by_cases hac : (s.procs c).alive_count = 1 <;>
    simp [process_execute_finish, bind_apply, hac] at h <;> subst h
  all_goals
    refine ⟨ledger_frame hs.ledger (fun q => q = p) ?_ ?_ ?_, ?_, ?_, ?_, ?_⟩
    · intro q hq
      simp [hq]
    · intro a ha
      cases a <;> simp_all [Alloc.owner]
    · intro a ha
      cases a <;> simp only [Alloc.owner] at ha <;> subst ha <;>
        simp [Alloc.owner, hs.live_eq, Proc.holds, hp, Status.alive, Status.is_exec_wait,
          Status.has_record]
    · intro q hq
      dsimp only at hq
      have hqp : q ≠ p := by omega
      simp [hqp, hs.fresh q hq]
    · intro q
      by_cases hqp : q = p
      · subst hqp
        exact ⟨by simp, by simp, by simpa using (hs.ok q).wf⟩
      · simpa [Function.update_apply, hqp] using hs.ok q
    · intro q d hq
      by_cases hqp : q = p
      · subst hqp
        simp at hq
      · exact hs.waiting q d (by simpa [Function.update_apply, hqp] using hq)
    · intro q d hd
      by_cases hqp : q = p
      · subst hqp
        simp at hd
        -- when the child is listed, it is the new element
        first
          | exact hs.children q d hd
          | exact hd.elim (hs.children q d) (· ▸ hcl)
      · exact hs.children q d (by simpa [Function.update_apply, hqp] using hd)

theorem inv_start_process {s t : St} (hs : Inv s) {c : Nat} (hc : (s.procs c).status = .loading)
    {argv pd rest : Bool} (h : start_process c argv pd rest s = (.ok (), t)) : Inv t := by
  have hcl : c < s.next_proc := hs.lt_of_alive (by rw [hc]; rfl)
  obtain ⟨hloaded, hpagedir⟩ := (hs.ok c).loading hc
  cases argv
  · simp [start_process, bind_apply] at h
  -- no page directory, `load` fails later, or it succeeds
  cases pd <;> cases rest <;> simp [start_process, load, bind_apply] at h <;> subst h
  all_goals
    refine ⟨ledger_frame hs.ledger (fun q => q = c) ?_ ?_ ?_, ?_, ?_, ?_, ?_⟩
    · intro q hq
      simp [hq]
    · intro a ha
      cases a <;> simp_all [Alloc.owner]
    · intro a ha
      cases a <;> simp only [Alloc.owner] at ha <;> subst ha <;>
        simp [Alloc.owner, hs.live_eq, Proc.holds, hc, hloaded, hpagedir, Status.alive,
          Status.is_exec_wait, Status.has_record]
    · intro q hq
      dsimp only at hq
      have hqc : q ≠ c := by omega
      simp [hqc, hs.fresh q hq]
    · intro q
      by_cases hqc : q = c
      · subst hqc
        exact ⟨by simp, by simp, by simpa using (hs.ok q).wf⟩
      · simpa [Function.update_apply, hqc] using hs.ok q
    · intro q d hq
      by_cases hqc : q = c
      · subst hqc
        simp at hq
      · exact hs.waiting q d (by simpa [Function.update_apply, hqc] using hq)
    · intro q d hd
      by_cases hqc : q = c
      · subst hqc
        exact hs.children q d (by simpa using hd)
      · exact hs.children q d (by simpa [Function.update_apply, hqc] using hd)

theorem inv_open {s t : St} (hs : Inv s) {p : Nat} (hp : (s.procs p).status = .running)
    {found file entry : Bool} (h : «open» p found file entry s = (.ok (), t)) : Inv t := by
  have hpl : p < s.next_proc := hs.lt_of_alive (by rw [hp]; rfl)
  have hwf := (hs.ok p).wf
  -- `next_fd` is at `MAX_FDS`, the name is not found, or the `calloc` fails: `-1`
  by_cases hmax : MAX_FDS ≤ (s.procs p).fds.next_fd
  · simp [«open», bind_apply, hmax] at h
    subst h
    exact hs.set_ret hpl _
  cases found
  · simp [«open», bind_apply, hmax] at h
    subst h
    exact hs.set_ret hpl _
  cases file
  · simp [«open», bind_apply, hmax] at h
    subst h
    exact hs.set_ret hpl _
  cases entry
  · simp [«open», bind_apply, hmax] at h
  simp [«open», bind_apply, hmax] at h
  subst h
  -- the table maps the fresh number `next_fd`
  obtain ⟨-, -, hnone | hge⟩ | ⟨_, -, -, -, -, habs, -⟩ := Fds.open_spec hwf (some ())
  · cases hnone
  · exact absurd hge hmax
  refine ⟨ledger_frame hs.ledger (fun q => q = p) ?_ ?_ ?_, ?_, ?_, ?_, ?_⟩
  · intro q hq
    simp [hq]
  · intro a ha
    cases a <;> simp_all [Alloc.owner]
  · intro a ha
    cases a <;> simp only [Alloc.owner] at ha
    -- the entry and the file of the new number
    case fd_entry c fd =>
      subst c
      by_cases hfd : fd = (s.procs p).fds.next_fd <;>
        simp [Alloc.owner, hs.live_eq, Proc.holds, habs, hfd]
    case file c fd =>
      subst c
      by_cases hfd : fd = (s.procs p).fds.next_fd <;>
        simp [Alloc.owner, hs.live_eq, Proc.holds, habs, hfd, hp,
          Status.alive]
    all_goals
      subst ha
      simp [Alloc.owner, hs.live_eq, Proc.holds, hp]
  · intro q hq
    dsimp only at hq
    have hqp : q ≠ p := by omega
    simp [hqp, hs.fresh q hq]
  · intro q
    by_cases hqp : q = p
    · subst hqp
      exact ⟨by simp [hp], by simp [hp], by simpa using Fds.wf_open hwf (some ())⟩
    · simpa [Function.update_apply, hqp] using hs.ok q
  · intro q d hq
    by_cases hqp : q = p
    · subst hqp
      simp [hp] at hq
    · exact hs.waiting q d (by simpa [Function.update_apply, hqp] using hq)
  · intro q d hd
    by_cases hqp : q = p
    · subst hqp
      exact hs.children q d (by simpa using hd)
    · exact hs.children q d (by simpa [Function.update_apply, hqp] using hd)

theorem inv_close {s t : St} (hs : Inv s) {p : Nat} (hp : (s.procs p).status = .running)
    {fd : Int} (h : close p fd s = (.ok (), t)) : Inv t := by
  have hpl : p < s.next_proc := hs.lt_of_alive (by rw [hp]; rfl)
  have hwf := (hs.ok p).wf
  obtain ⟨habs, hclosed, -⟩ := Fds.close_spec hwf fd
  -- no entry has the number, or the first one is removed
  cases hf : (s.procs p).fds.abs fd with
  | none =>
    simp [close, bind_apply, hclosed, hf] at h
    subst h
    exact hs
  | some u =>
    simp [close, bind_apply, hclosed, hf] at h
    subst h
    refine ⟨ledger_frame hs.ledger (fun q => q = p) ?_ ?_ ?_, ?_, ?_, ?_, ?_⟩
    · intro q hq
      simp [hq]
    · intro a ha
      cases a <;> simp_all [Alloc.owner]
    · intro a ha
      cases a <;> simp only [Alloc.owner] at ha
      case fd_entry c g =>
        subst c
        by_cases hg : g = fd <;> simp [Alloc.owner, hs.live_eq, Proc.holds, habs, hg]
      case file c g =>
        subst c
        by_cases hg : g = fd <;> simp [Alloc.owner, hs.live_eq, Proc.holds, habs, hg]
      all_goals
        subst ha
        simp [Alloc.owner, hs.live_eq, Proc.holds]
    · intro q hq
      dsimp only at hq
      have hqp : q ≠ p := by omega
      simp [hqp, hs.fresh q hq]
    · intro q
      by_cases hqp : q = p
      · subst hqp
        exact ⟨by simp [hp], by simp [hp], by simpa using Fds.wf_close hwf fd⟩
      · simpa [Function.update_apply, hqp] using hs.ok q
    · intro q d hq
      by_cases hqp : q = p
      · subst hqp
        simp [hp] at hq
      · exact hs.waiting q d (by simpa [Function.update_apply, hqp] using hq)
    · intro q d hd
      by_cases hqp : q = p
      · subst hqp
        exact hs.children q d (by simpa using hd)
      · exact hs.children q d (by simpa [Function.update_apply, hqp] using hd)

/-- `process_exit` closes the file of every number the table maps. -/
theorem any_file_of_abs {t : Fds Unit} {fd : Int} (h : (t.abs fd).isSome = true) (p : Nat) :
    (t.file_descriptors.any fun e => Alloc.file p fd == Alloc.file p e.fd) = true := by
  obtain ⟨u, hu⟩ := Option.isSome_iff_exists.mp h
  obtain ⟨e, he, hfd⟩ := lookup_mem hu
  exact List.any_eq_true.mpr ⟨e, he, by simp [hfd]⟩

theorem inv_process_exit {s t : St} (hs : Inv s) {p : Nat}
    (hp : (s.procs p).status = .running ∨ (s.procs p).status = .load_failed)
    (h : process_exit p s = (.ok (), t)) : Inv t := by
  have hpl : p < s.next_proc := hs.lt_of_alive (by rcases hp with hp | hp <;> rw [hp] <;> rfl)
  have hwait : (s.procs p).status.is_exec_wait = false := by
    rcases hp with hp | hp <;> rw [hp] <;> rfl
  have hrec : (s.procs p).status.has_record = true := by rcases hp with hp | hp <;> rw [hp] <;> rfl
  have hok := hs.ok p
  have hchildren := hs.children p
  -- name the exiting process's fields, so that the table after its loops is one term
  rcases hq : s.procs p with ⟨st, ld, pd, ac, cr, fds, ret⟩
  rw [hq] at hwait hrec hok hchildren
  dsimp only at hwait hrec hok hchildren
  have halike : ∀ q, (s.procs q).Alike
      (leave_children p cr (Function.update s.procs p ⟨st, ld, pd, ac - 1, cr, fds, ret⟩) q) := by
    intro q
    have h1 := Proc.alike_update (f := fun x => { x with alive_count := ac - 1 })
      (fun x => Proc.Alike.with_alive_count x _) s.procs p q
    rw [hq] at h1
    exact h1.trans (leave_children_alike _ _ _ q)
  have hchild : ∀ q d, d ∈ (leave_children p cr
      (Function.update s.procs p ⟨st, ld, pd, ac - 1, cr, fds, ret⟩) q).child_relations →
      d < s.next_proc := by
    intro q d hd
    have hd := mem_of_mem_leave_children hd
    by_cases hqp : q = p
    · subst hqp
      exact hchildren d (by simpa using hd)
    · exact hs.children q d (by simpa [Function.update_of_ne hqp] using hd)
  -- with a page directory or without one
  cases pd <;> simp [process_exit, bind_apply, hq] at h <;> subst h
  all_goals
    refine ⟨ledger_frame hs.ledger (fun q => q = p) ?_ ?_ ?_, ?_, ?_, ?_, ?_⟩
    · intro q hq
      simp [Function.update_of_ne hq, (halike q).holds]
    · intro a ha
      cases a <;> simp_all [Alloc.owner, close_files_apply]
    · intro a ha
      cases a <;> simp only [Alloc.owner] at ha
      -- the files of the table are closed, the entries stay
      case file c fd =>
        subst c
        have hlf := hs.live_eq (.file p fd)
        cases habs : (fds.abs fd).isSome
        · simp [close_files_apply, hlf, hq, Proc.holds, habs, Alloc.owner]
        · simp [close_files_apply, any_file_of_abs habs, Proc.holds, Alloc.owner]
      all_goals
        subst ha
        simp [close_files_apply, hs.live_eq, hq, Proc.holds, Alloc.owner, hwait, hrec,
          (halike _).loaded, (halike _).fds, (halike _).pagedir]
    · intro q hq
      dsimp only at hq
      have hqp : q ≠ p := by omega
      have hnot : q ∉ cr := fun hm => by
        have := hchildren q hm
        omega
      simp [Function.update_of_ne hqp, leave_children_of_not_mem hqp hnot, hs.fresh q hq]
    · intro q
      by_cases hqp : q = p
      · subst hqp
        exact ⟨by simp, by simp [(halike q).pagedir, hq], by simpa [(halike q).fds, hq] using hok.wf⟩
      · simpa [Function.update_of_ne hqp] using (halike q).ok (hs.ok q)
    · intro q d hqd
      by_cases hqp : q = p
      · subst hqp
        simp at hqd
      · exact hs.waiting q d (by simpa [Function.update_of_ne hqp, (halike q).status] using hqd)
    · intro q d hd
      by_cases hqp : q = p
      · subst hqp
        exact hchild q d (by simpa using hd)
      · exact hchild q d (by simpa [Function.update_of_ne hqp] using hd)

theorem inv_init : Inv init where
  ledger := rfl
  fresh c hc := by
    have hc0 : c ≠ 0 := by
      simp only [init] at hc
      omega
    simp [init, hc0]
  ok c := by
    by_cases hc : c = 0
    · subst hc
      exact ⟨by simp [init], by simp [init], by simpa [init] using Fds.wf_init (F := Unit)⟩
    · simpa [init, hc] using Proc.ok_unborn
  waiting p c hp := by
    by_cases h0 : p = 0
    · subst h0
      simp [init] at hp
    · simp [init, h0, Proc.unborn] at hp
  children p c hc := by
    by_cases h0 : p = 0
    · subst h0
      simp [init] at hc
    · simp [init, h0, Proc.unborn] at hc

/-- Each enabled call that returns keeps the invariant; after a panic nothing runs. -/
theorem inv_step : Stable step fun s => s.panic = none → Inv s := by
  intro s a t hs h
  unfold step at h
  cases hp : s.panic with
  | some e => simp [hp] at h
  | none =>
  cases hen : a.enabled s with
  | false => simp [hp, hen] at h
  | true =>
  have hs := hs hp
  rw [if_neg (by simp [hp, hen])] at h
  split at h
  case h_2 e t' hrun =>
    obtain rfl := Option.some.inj h
    intro hpanic
    simp at hpanic
  case h_1 t' hrun =>
    obtain rfl := Option.some.inj h
    intro _
    cases a with
    | exec p sm copied created =>
      exact inv_process_execute hs (by simpa [Act.enabled] using hen) hrun
    | exec_finish p c =>
      exact inv_process_execute_finish hs (by simp_all [Act.enabled]) hrun
    | start c argv pd rest =>
      exact inv_start_process hs (by simpa [Act.enabled] using hen) hrun
    | «open» p found file entry =>
      exact inv_open hs (by simpa [Act.enabled] using hen) hrun
    | close p fd =>
      exact inv_close hs (by simpa [Act.enabled] using hen) hrun
    | exit p =>
      have hp : (s.procs p).status = .running ∨ (s.procs p).status = .load_failed := by
        simpa only [Act.enabled, Bool.or_eq_true, decide_eq_true_eq] using hen
      exact inv_process_exit hs hp hrun

theorem Inv.reachable {s : St} (h : Reachable step init s) (hs : s.panic = none) : Inv s :=
  inv_step.reachable (fun _ => inv_init) h hs

/-! ## What every run leaves allocated -/

/-- In every run without a panic the ledger is the one the process table says. -/
theorem ledger_reachable {s : St} (h : Reachable step init s) (hs : s.panic = none) :
    s.live = ledger s.procs :=
  (Inv.reachable h hs).ledger

theorem ledger_reachable_started :
    ∃ s, run step init [.exec 0 true true true, .start 1 true true true, .open 1 true true true] =
      some s ∧ s.panic = none ∧ s.live = ledger s.procs := by
  have hrun : run step init [.exec 0 true true true, .start 1 true true true,
      .open 1 true true true] = some ((run step init [.exec 0 true true true,
        .start 1 true true true, .open 1 true true true]).getD init) := rfl
  exact ⟨_, hrun, rfl, ledger_reachable (reachable_of_run hrun) rfl⟩

/-- What an exited process leaves allocated: its `struct shared_mem`, its `argv`
page if `load` succeeded, and the entries of the files it left open. -/
theorem leaks_after_exit {s : St} (h : Reachable step init s) (hs : s.panic = none) {c : Nat}
    (hc : (s.procs c).status = .exited) (a : Alloc) (ha : a.owner = c) :
    s.live a = true ↔ a = .shared_mem c ∨ (a = .argv c ∧ (s.procs c).loaded = true) ∨
      ∃ fd, a = .fd_entry c fd ∧ ((s.procs c).fds.abs fd).isSome = true := by
  have hinv := Inv.reachable h hs
  have hpd := (hinv.ok c).exited hc
  rw [hinv.live_eq, ha]
  cases a <;> simp only [Alloc.owner] at ha <;> subst ha <;> simp [Proc.holds, hc, hpd]

/-- A call whose copy of the command line failed leaves its record allocated. -/
theorem no_thread_leaks {s : St} (h : Reachable step init s) (hs : s.panic = none) {c : Nat}
    (hc : (s.procs c).status = .no_thread) : s.live (.shared_mem c) = true := by
  rw [(Inv.reachable h hs).live_eq, Alloc.owner, Proc.holds, hc]
  rfl

/-- Process 0's `exec` fails to copy its command line: `TID_ERROR` is returned and the
record of process 1 stays allocated. -/
theorem no_thread_leaks_copy_failed :
    ∃ s, run step init [.exec 0 true false true] = some s ∧ s.panic = none ∧
      (s.procs 0).ret = TID_ERROR ∧ (s.procs 1).status = .no_thread ∧
      s.live (.shared_mem 1) = true := by
  have hrun : run step init [.exec 0 true false true] =
      some ((run step init [.exec 0 true false true]).getD init) := rfl
  exact ⟨_, hrun, rfl, rfl, rfl, no_thread_leaks (reachable_of_run hrun) rfl rfl⟩

/-- Process 0 runs a child that loads; the child exits, then process 0 exits. -/
def execThenExit : List Act :=
  [.exec 0 true true true, .start 1 true true true, .exec_finish 0 1, .exit 1, .exit 0]

/-- After `execThenExit`, of what was allocated for the child the record and the
`argv` page stay allocated, while before the run nothing was. -/
theorem exec_leaks_child_memory :
    ∃ s, Reachable step init s ∧ s.panic = none ∧ (s.procs 0).status = .exited ∧
      (s.procs 1).status = .exited ∧ (∀ a, a.owner = 1 → init.live a = false) ∧
      ∀ a, a.owner = 1 → (s.live a = true ↔ a = .shared_mem 1 ∨ a = .argv 1) := by
  obtain ⟨s, hs, hp⟩ := exists_reachable_of_run step init execThenExit
    (fun s => decide (s.panic = none ∧ (s.procs 0).status = .exited ∧
      (s.procs 1).status = .exited ∧ (s.procs 1).loaded = true ∧
      (s.procs 1).fds.file_descriptors = [])) (by decide)
  obtain ⟨hpanic, h0, h1, hloaded, hfds⟩ := of_decide_eq_true hp
  refine ⟨s, hs, hpanic, h0, h1, fun a ha => ?_, fun a ha => ?_⟩
  · cases a <;> simp only [Alloc.owner] at ha <;> subst ha <;>
      simp [init, ledger, Alloc.owner, Proc.holds, Proc.unborn, Status.alive, Status.is_exec_wait,
        Status.has_record]
  · -- the child opened nothing, so it leaves no descriptor entry
    have hnone : ∀ fd, (s.procs 1).fds.abs fd = none := fun fd => by simp [Fds.abs, hfds, lookup]
    rw [leaks_after_exit hs hpanic h1 a ha]
    simp [hloaded, hnone]

/-! ## When an allocation returns `NULL` -/

/-- An enabled call that faults stops the kernel on that fault. -/
theorem step_of_fault {s : St} {a : Act} {e : Panic} (hp : s.panic = none)
    (hen : a.enabled s = true) (h : (a.run s).1 = .error e) :
    step s a = some { (a.run s).2 with panic := some e } := by
  unfold step
  rw [if_neg (by simp [hp, hen])]
  rcases hr : a.run s with ⟨r, t⟩
  rw [hr] at h
  subst h
  rfl

/-- `process_execute` does not check the `malloc` of the record: `sema_init`
writes through `NULL`. -/
theorem null_record_panics (s : St) (p : Nat) (copied created : Bool) :
    (process_execute p false copied created s).1 = .error (.pageFault SEMA_EXEC_OFS) := by
  simp [process_execute, bind_apply]

/-- `start_process` does not check the `argv` page: `argv[0] = ...` writes through `NULL`. -/
theorem null_argv_panics (s : St) (c : Nat) (pd rest : Bool) :
    (start_process c false pd rest s).1 = .error (.pageFault 0) := by
  simp [start_process, bind_apply]

/-- `open` does not check the `malloc` of the entry: `fd_entry->fd = ...` writes through `NULL`. -/
theorem null_entry_panics (s : St) (p : Nat) (h : ¬ MAX_FDS ≤ (s.procs p).fds.next_fd) :
    («open» p true true false s).1 = .error (.pageFault 0) := by
  simp [«open», bind_apply, h]

/-- The checked allocations of `process_execute` fail cleanly: `TID_ERROR` and
the caller's lists as they were. A failed `thread_create` gives the record and
the copy back; a failed copy of the command line keeps the record. -/
theorem exec_null_returns_error (s : St) (p : Nat) (hp : p ≠ s.next_proc) {copied created : Bool}
    (hfail : copied = false ∨ created = false) :
    let r := process_execute p true copied created s
    r.1 = .ok () ∧ (r.2.procs p).ret = TID_ERROR ∧
      (r.2.procs p).child_relations = (s.procs p).child_relations ∧
      (r.2.procs p).fds = (s.procs p).fds ∧
      r.2.live = if copied then
          Function.update (Function.update s.live (.shared_mem s.next_proc) false) (.cmd_line p) false
        else Function.update s.live (.shared_mem s.next_proc) true := by
  rcases hfail with rfl | rfl
  · simp [process_execute, bind_apply, hp]
  · cases copied
    · simp [process_execute, bind_apply, hp]
    · refine ⟨by simp [process_execute, bind_apply], by simp [process_execute, bind_apply, hp],
        by simp [process_execute, bind_apply, hp], by simp [process_execute, bind_apply, hp], ?_⟩
      funext a
      simp only [process_execute, bind_apply, get_apply, modify_apply, malloc_eq, allocate_apply,
        deref_true, update_proc_apply, palloc_get_page_eq, palloc_free_page_eq, free_eq,
        release_apply, set_ret_apply, if_true, Bool.not_true, Bool.not_false, Bool.false_eq_true,
        if_false, Function.update_apply]
      split_ifs <;> simp_all

/-- Process 0 has started process 1, which loaded and opened a file. -/
def started : St :=
  (run step init [.exec 0 true true true, .start 1 true true true, .open 1 true true true]).getD init

/-- Process 1 calls `exec` and the copy of the command line fails. -/
theorem exec_null_returns_error_started :
    1 ≠ started.next_proc ∧
    let r := process_execute 1 true false true started
    r.1 = .ok () ∧ (r.2.procs 1).ret = TID_ERROR ∧
      (r.2.procs 1).child_relations = (started.procs 1).child_relations ∧
      (r.2.procs 1).fds = (started.procs 1).fds ∧
      r.2.live = if false then
          Function.update (Function.update started.live (.shared_mem started.next_proc) false)
            (.cmd_line 1) false
        else Function.update started.live (.shared_mem started.next_proc) true :=
  ⟨by decide, exec_null_returns_error started 1 (by decide) (Or.inl rfl)⟩

/-- `open` fails cleanly when `next_fd` is at `MAX_FDS`, the name is not found,
or `file_open`'s `calloc` fails. -/
theorem open_null_returns_error (s : St) (p : Nat) {found file : Bool} (entry : Bool)
    (hfail : found = false ∨ file = false) :
    let r := «open» p found file entry s
    r.1 = .ok () ∧ (r.2.procs p).ret = -1 ∧ (r.2.procs p).fds = (s.procs p).fds ∧
      r.2.live = s.live := by
  by_cases hmax : MAX_FDS ≤ (s.procs p).fds.next_fd
  · simp [«open», bind_apply, hmax]
  · rcases hfail with rfl | rfl
    · simp [«open», bind_apply, hmax]
    · cases found <;> simp [«open», bind_apply, hmax]

/-- Process 1, which holds one open file, opens a name that is not found. -/
theorem open_null_returns_error_started :
    (false = false ∨ true = false) ∧
    let r := «open» 1 false true true started
    r.1 = .ok () ∧ (r.2.procs 1).ret = -1 ∧ (r.2.procs 1).fds = (started.procs 1).fds ∧
      r.2.live = started.live :=
  ⟨Or.inl rfl, open_null_returns_error started 1 true (Or.inl rfl)⟩

/-- The first allocation of each kind returns `NULL` right after boot: the record
of `exec`, the `argv` page of the child, the entry of `open`. Each panics. -/
theorem out_of_memory_panics :
    (∃ s, run step init [.exec 0 false true true] = some s ∧
      s.panic = some (.pageFault SEMA_EXEC_OFS)) ∧
    (∃ s, run step init [.exec 0 true true true, .start 1 false true true] = some s ∧
      s.panic = some (.pageFault 0)) ∧
    (∃ s, run step init [.open 0 true true false] = some s ∧ s.panic = some (.pageFault 0)) := by
  -- the child's `start_process` runs in the state its parent's `exec` left
  have hexec : step init (.exec 0 true true true) =
      some ((Act.exec 0 true true true).run init).2 := rfl
  -- each run ends in the step whose unchecked allocation faults
  have hrecord := step_of_fault (a := .exec 0 false true true) rfl rfl
    (null_record_panics init 0 true true)
  have hargv := step_of_fault (a := .start 1 false true true)
    (s := ((Act.exec 0 true true true).run init).2) rfl rfl (null_argv_panics _ 1 true true)
  have hentry := step_of_fault (a := .open 0 true true false) rfl rfl
    (null_entry_panics init 0 (by decide))
  exact ⟨⟨_, (run_cons_of_step hrecord []).trans (run_nil _), rfl⟩,
    ⟨_, (run_cons_of_step hexec _).trans ((run_cons_of_step hargv []).trans (run_nil _)), rfl⟩,
    ⟨_, (run_cons_of_step hentry []).trans (run_nil _), rfl⟩⟩

end Pintos.Memory