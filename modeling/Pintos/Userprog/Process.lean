import Pintos.Transition
import Mathlib.Data.List.Basic

/-!
# The parent/child handshake of `userprog/process.c`

One user process (the parent) and the children it starts with `process_execute`.
Every child shares a `struct shared_mem` with the parent: `sema_exec` tells the
parent that loading is over, `alive_count` (under `alive_count_lock`) counts the
live ends of the relation, and `sema_wait` tells a waiting parent that the
child has died.

The state is explicit: a control point for the parent and for every child, the
shared records, and the parent's `child_relations` list. A label is one atomic
step of one thread. A locked `alive_count` section is one step. A `sema_down`
is a step that is enabled only when the value is positive; a thread on the
semaphore's waiter list is one whose step is not enabled, and `sema_up` only
decides which waiter runs first, which no property below depends on.

Steps of the parent that touch only fields that no other thread writes
(`child_tid`, `waited`, `waiting`, the list) are merged with the neighbouring
locked section. So is the read of `exit_status` after the section: a child
writes it only before its own decrement.

Not modelled: the `malloc` of the record (the code does not check it), the
grandchildren (a child's own `child_relations` loop touches other records), the
file descriptors and the page directory. The field `cmd_line` is read only by
`start_process`, which this model does not tokenise.
-/

namespace Pintos.Process

/-- `TID_ERROR` of `threads/thread.h`. -/
def TID_ERROR : Int := -1

/-- The fields of `struct shared_mem` that the handshake reads and writes. -/
structure SharedMem where
  child_tid : Int
  exit_status : Int
  alive_count : Int
  /-- The value of `sema_exec`. -/
  sema_exec : Nat
  /-- The value of `sema_wait`. -/
  sema_wait : Nat
  waited : Bool
  deriving DecidableEq, Repr

/-- Where a child thread is in `start_process`, `exit` and `process_exit`. -/
inductive ChildPc where
  /-- `start_process` before `load` returns. -/
  | loading
  /-- `load` succeeded and `alive_count` was incremented; before `sema_up (sema_exec)`. -/
  | loaded
  /-- `load` failed and `exit_status = -1` is stored; before `sema_up (sema_exec)`. -/
  | failed
  /-- The user program runs. -/
  | running
  /-- In `process_exit`, before the `alive_count` section. -/
  | exiting
  /-- The count stayed nonzero after the decrement; before `sema_up (sema_wait)`. -/
  | signalling
  /-- Past the handshake part of `process_exit`. -/
  | exited
  deriving DecidableEq, Repr

structure Child where
  tid : Int
  sm : SharedMem
  pc : ChildPc
  /-- Ghost: the value `load` returned, once it has returned. -/
  loadOk : Bool
  /-- Ghost: the parent's `process_exit` has decremented this record's count. -/
  parentLeft : Bool
  deriving DecidableEq, Repr

/-- Where the parent is in `process_execute`, `process_wait` and `process_exit`. -/
inductive ParentPc where
  /-- Running user code; the next system call may be `exec`, `wait` or `exit`. -/
  | running
  /-- `process_execute` at `sema_down (&sm->sema_exec)` for child `k`. -/
  | execLoad (k : Nat)
  /-- `process_execute` after `sema_down`, at the `alive_count` section. -/
  | execCheck (k : Nat)
  /-- `process_wait (tid)` at `sema_down (&childs_sm->sema_wait)` for child `k`. -/
  | waitBlocked (k : Nat) (tid : Int)
  /-- `process_exit` in its loop over `child_relations`; `rest` is still to visit. -/
  | exitLoop (rest : List Nat)
  | exited
  deriving DecidableEq, Repr

/-- Ghost record of what the parent's calls returned. -/
inductive Ret where
  /-- `process_execute` returned `r`; `k` is the child it created, if any. -/
  | execute (k : Option Nat) (r : Int)
  /-- `process_wait (tid)` returned `r`. -/
  | wait (tid r : Int)
  deriving DecidableEq, Repr

structure State where
  pc : ParentPc
  /-- `cur->waiting` of the parent. -/
  waiting : Bool
  /-- The parent's `child_relations`, as indices into `children`. -/
  child_relations : List Nat
  children : List Child
  /-- The tid that `allocate_tid` hands out next. -/
  next_tid : Nat
  log : List Ret
  deriving DecidableEq, Repr

/-- One atomic step of the parent or of child `k`. -/
inductive Act where
  /-- `exec`: `waited` is the uninitialised field of the `malloc`ed record,
  `copied` the result of `palloc_get_page`, `created` that of `thread_create`. -/
  | parentExec (waited copied created : Bool)
  | parentWait (tid : Int)
  | parentExit
  /-- The parent's next step inside a call it is executing. -/
  | parentNext
  /-- `load` returns `success` in child `k`. -/
  | childLoad (k : Nat) (success : Bool)
  /-- Child `k`'s next step inside `start_process` or `process_exit`. -/
  | childNext (k : Nat)
  /-- The user program of child `k` calls `exit (status)`. -/
  | childExit (k : Nat) (status : Int)
  /-- The kernel kills child `k` (`thread_exit` without `exit`). -/
  | childKill (k : Nat)
  deriving DecidableEq, Repr

namespace State

def initial (tid : Nat) : State :=
  ⟨.running, false, [], [], tid, []⟩

def child? (s : State) (k : Nat) : Option Child := s.children[k]?

def modifyChild (s : State) (k : Nat) (f : Child → Child) : State :=
  { s with children := s.children.modify k f }

def modifySm (s : State) (k : Nat) (f : SharedMem → SharedMem) : State :=
  s.modifyChild k fun c => { c with sm := f c.sm }

def record (s : State) (r : Ret) : State := { s with log := s.log ++ [r] }

end State

/-- The record that `process_execute` fills in before `thread_create`. -/
def freshSharedMem (waited : Bool) : SharedMem :=
  ⟨TID_ERROR, -1, 1, 0, 0, waited⟩

/-- `process_execute` up to `sema_down (&sm->sema_exec)`. -/
def process_execute (s : State) (waited copied created : Bool) : State :=
  if !copied then s.record (.execute none TID_ERROR)
  else if !created then s.record (.execute none TID_ERROR)
  else
    { s with
      pc := .execLoad s.children.length
      children := s.children ++ [⟨s.next_tid, freshSharedMem waited, .loading, false, false⟩]
      next_tid := s.next_tid + 1 }

/-- `process_execute` after `sema_down`: the `alive_count == 1` test decides
between `TID_ERROR` and listing the child. -/
def execute_check (s : State) (k : Nat) (c : Child) : State :=
  if c.sm.alive_count = 1 then
    { s.record (.execute (some k) TID_ERROR) with pc := .running }
  else
    { (s.modifySm k fun sm => { sm with child_tid := c.tid }).record (.execute (some k) c.tid) with
      pc := .running
      child_relations := s.child_relations ++ [k] }

/-- The loop of `process_wait` that looks for the record with `child_tid == tid`. -/
def find_child (s : State) (tid : Int) : Option Nat :=
  s.child_relations.find? fun k => (s.child? k).map (·.sm.child_tid) == some tid

/-- `process_wait (tid)` up to its `sema_down`, or to an early return. -/
def process_wait (s : State) (tid : Int) : State :=
  if tid = TID_ERROR then s.record (.wait tid (-1))
  else if s.waiting then s.record (.wait tid (-1))
  else match find_child s tid with
    | none => s.record (.wait tid (-1))
    | some k => match s.child? k with
      | none => s.record (.wait tid (-1))
      | some c =>
        if c.sm.waited then s.record (.wait tid (-1))
        -- the already-dead fast path returns without setting `waited`
        else if c.sm.alive_count = 1 then s.record (.wait tid c.sm.exit_status)
        else
          { s.modifySm k (fun sm => { sm with waited := true }) with
            waiting := true
            pc := .waitBlocked k tid }

/-- One iteration of the loop of the parent's `process_exit` over `child_relations`. -/
def exit_iteration (s : State) (k : Nat) (rest : List Nat) : State :=
  let s' := s.modifyChild k fun c =>
    { c with sm := { c.sm with alive_count := c.sm.alive_count - 1 }, parentLeft := true }
  let left := (s'.child? k).map (·.sm.alive_count) == some 0
  { s' with
    pc := .exitLoop rest
    child_relations := if left then s.child_relations.erase k else s.child_relations }

/-- The parent's next step inside the call it is executing. -/
def parent_next (s : State) : Option State :=
  match s.pc with
  | .execLoad k => do
    let c ← s.child? k
    if c.sm.sema_exec = 0 then none
    else some { s.modifySm k (fun sm => { sm with sema_exec := sm.sema_exec - 1 }) with
      pc := .execCheck k }
  | .execCheck k => do
    let c ← s.child? k
    some (execute_check s k c)
  | .waitBlocked k tid => do
    let c ← s.child? k
    if c.sm.sema_wait = 0 then none
    else some { (s.modifySm k fun sm => { sm with sema_wait := sm.sema_wait - 1 }).record
        (.wait tid c.sm.exit_status) with
      waiting := false
      pc := .running }
  | .exitLoop (k :: rest) => some (exit_iteration s k rest)
  | .exitLoop [] => some { s with pc := .exited }
  | _ => none

/-- Child `k`'s next step: the `sema_up` calls and the locked decrement of `process_exit`. -/
def child_next (s : State) (k : Nat) : Option State := do
  let c ← s.child? k
  match c.pc with
  | .loaded => some ((s.modifySm k fun sm => { sm with sema_exec := sm.sema_exec + 1 }).modifyChild k
      fun c => { c with pc := .running })
  | .failed => some ((s.modifySm k fun sm => { sm with sema_exec := sm.sema_exec + 1 }).modifyChild k
      fun c => { c with pc := .exiting })
  | .exiting =>
    let pc' : ChildPc := if c.sm.alive_count - 1 = 0 then .exited else .signalling
    some ((s.modifySm k fun sm => { sm with alive_count := sm.alive_count - 1 }).modifyChild k
      fun c => { c with pc := pc' })
  | .signalling => some ((s.modifySm k fun sm => { sm with sema_wait := sm.sema_wait + 1 }).modifyChild k
      fun c => { c with pc := .exited })
  | _ => none

/-- `start_process` after `load` returns: the increment on success, `exit_status = -1` on failure. -/
def start_process (s : State) (k : Nat) (success : Bool) : Option State := do
  let c ← s.child? k
  if c.pc ≠ .loading then none
  else if success then
    some ((s.modifySm k fun sm => { sm with alive_count := sm.alive_count + 1 }).modifyChild k
      fun c => { c with pc := .loaded, loadOk := true })
  else
    some ((s.modifySm k fun sm => { sm with exit_status := -1 }).modifyChild k
      fun c => { c with pc := .failed })

/-- `exit (status)` of `userprog/syscall.c` stores the status, then `thread_exit`. -/
def exit (s : State) (k : Nat) (status : Int) : Option State := do
  let c ← s.child? k
  if c.pc ≠ .running then none
  else some ((s.modifySm k fun sm => { sm with exit_status := status }).modifyChild k
    fun c => { c with pc := .exiting })

def step (s : State) : Act → Option State
  | .parentExec waited copied created =>
    if s.pc = .running then some (process_execute s waited copied created) else none
  | .parentWait tid => if s.pc = .running then some (process_wait s tid) else none
  | .parentExit =>
    if s.pc = .running then some { s with pc := .exitLoop s.child_relations } else none
  | .parentNext => parent_next s
  | .childLoad k success => start_process s k success
  | .childNext k => child_next s k
  | .childExit k status => exit s k status
  | .childKill k => do
    let c ← s.child? k
    if c.pc ≠ .running then none
    else some (s.modifyChild k fun c => { c with pc := .exiting })

abbrev Reachable (tid : Nat) : State → Prop := Transition.Reachable step (State.initial tid)

/-! ## `process_execute` decides on a count the child may already have changed -/

/-- `load` fails; the child raises `sema_exec` and runs its `process_exit`, which
takes `alive_count` to 0, before the parent reads the count. -/
def failedLoadRace : List Act :=
  [.parentExec false true true, .childLoad 0 false, .childNext 0, .childNext 0, .parentNext,
    .parentNext]

/-- `load` succeeds; the child's program exits, and its decrement brings
`alive_count` back to 1, before the parent reads the count. -/
def quickExitRace : List Act :=
  [.parentExec false true true, .childLoad 0 true, .childNext 0, .childExit 0 0, .childNext 0,
    .parentNext, .parentNext]

/-- Both answers of `process_execute` can be wrong: it returns the tid of a child
whose `load` failed and lists that child, and it returns `TID_ERROR` for a child
whose `load` succeeded. -/
theorem process_execute_misreports_load :
    (∃ s, Reachable 3 s ∧ s.log = [.execute (some 0) 3] ∧
      (s.child? 0).map (·.loadOk) = some false ∧ 0 ∈ s.child_relations) ∧
    (∃ s, Reachable 3 s ∧ s.log = [.execute (some 0) TID_ERROR] ∧
      (s.child? 0).map (·.loadOk) = some true) := by
  constructor
  · obtain ⟨s, hs, hp⟩ := Transition.exists_reachable_of_run step
      (State.initial 3) failedLoadRace (fun s => decide (s.log = [.execute (some 0) 3] ∧
        (s.child? 0).map (·.loadOk) = some false ∧ 0 ∈ s.child_relations)) (by decide)
    exact ⟨s, hs, of_decide_eq_true hp⟩
  · obtain ⟨s, hs, hp⟩ := Transition.exists_reachable_of_run step
      (State.initial 3) quickExitRace (fun s => decide (s.log = [.execute (some 0) TID_ERROR] ∧
        (s.child? 0).map (·.loadOk) = some true)) (by decide)
    exact ⟨s, hs, of_decide_eq_true hp⟩

/-- The child exits with status 81 before the parent's first `wait`. -/
def waitTwiceAfterExit : List Act :=
  [.parentExec false true true, .childLoad 0 true, .childNext 0, .parentNext, .parentNext,
    .childExit 0 81, .childNext 0, .childNext 0, .parentWait 3, .parentWait 3]

/-- The already-dead fast path of `process_wait` does not set `waited`, so a
second `wait` on the same tid returns the status again instead of -1. -/
theorem process_wait_twice_returns_status_twice :
    ∃ s, Reachable 3 s ∧ s.log = [.execute (some 0) 3, .wait 3 81, .wait 3 81] := by
  obtain ⟨s, hs, hp⟩ := Transition.exists_reachable_of_run step
    (State.initial 3) waitTwiceAfterExit (fun s => decide (s.log = [.execute (some 0) 3, .wait 3 81, .wait 3 81])) (by decide)
  exact ⟨s, hs, of_decide_eq_true hp⟩


/-! ## Frame lemmas -/

namespace State

variable (s : State) (k j : Nat)

@[simp] theorem modifyChild_waiting (f : Child → Child) :
    (s.modifyChild k f).waiting = s.waiting := rfl
@[simp] theorem modifyChild_log (f : Child → Child) : (s.modifyChild k f).log = s.log := rfl
@[simp] theorem modifyChild_length (f : Child → Child) :
    (s.modifyChild k f).children.length = s.children.length := by
  simp [modifyChild]

theorem modifySm_eq (f : SharedMem → SharedMem) :
    s.modifySm k f = s.modifyChild k fun c => { c with sm := f c.sm } := rfl

@[simp] theorem modifySm_pc (f : SharedMem → SharedMem) : (s.modifySm k f).pc = s.pc := rfl
@[simp] theorem modifySm_child_relations (f : SharedMem → SharedMem) :
    (s.modifySm k f).child_relations = s.child_relations := rfl
@[simp] theorem modifySm_length (f : SharedMem → SharedMem) :
    (s.modifySm k f).children.length = s.children.length := by
  simp [modifySm_eq]

@[simp] theorem child?_modifyChild_self (f : Child → Child) :
    (s.modifyChild k f).child? k = (s.child? k).map f := by
  simp [modifyChild, child?]

theorem child?_modifyChild_ne (f : Child → Child) {k j : Nat} (h : j ≠ k) :
    (s.modifyChild j f).child? k = s.child? k := by
  simp [modifyChild, child?, h]

theorem child?_modifyChild (f : Child → Child) :
    (s.modifyChild j f).child? k = if j = k then (s.child? k).map f else s.child? k := by
  split
  · subst j
    exact s.child?_modifyChild_self k f
  · exact s.child?_modifyChild_ne f ‹_›

@[simp] theorem record_child_relations (r : Ret) :
    (s.record r).child_relations = s.child_relations := rfl

theorem child?_lt {s : State} {k : Nat} {c : Child} (h : s.child? k = some c) :
    k < s.children.length := by
  unfold child? at h
  exact (List.getElem?_eq_some_iff.mp h).1

end State

/-- The steps a child can take touch its own record only: the parent's control
point and list and every other child are unchanged. -/
def ChildFrame (s t : State) (j : Nat) : Prop :=
  t.pc = s.pc ∧ t.child_relations = s.child_relations ∧ t.log = s.log ∧
    t.children.length = s.children.length ∧ ∀ k, k ≠ j → t.child? k = s.child? k

theorem ChildFrame.modifyChild (s : State) (j : Nat) (f : Child → Child) :
    ChildFrame s (s.modifyChild j f) j :=
  ⟨rfl, rfl, rfl, by simp, fun _ hk => s.child?_modifyChild_ne f (Ne.symm hk)⟩

theorem ChildFrame.trans {s t u : State} {j : Nat} (h₁ : ChildFrame s t j)
    (h₂ : ChildFrame t u j) : ChildFrame s u j :=
  ⟨h₂.1.trans h₁.1, h₂.2.1.trans h₁.2.1, h₂.2.2.1.trans h₁.2.2.1,
    h₂.2.2.2.1.trans h₁.2.2.2.1, fun k hk => (h₂.2.2.2.2 k hk).trans (h₁.2.2.2.2 k hk)⟩

theorem ChildFrame.modifySm_modifyChild (s : State) (j : Nat) (f : SharedMem → SharedMem)
    (g : Child → Child) : ChildFrame s ((s.modifySm j f).modifyChild j g) j :=
  (ChildFrame.modifyChild s j _).trans (ChildFrame.modifyChild _ j g)

theorem start_process_frame {s t : State} {j : Nat} {b : Bool}
    (h : start_process s j b = some t) : ChildFrame s t j := by
  simp only [start_process, Option.bind_eq_bind, Option.bind_eq_some_iff] at h
  obtain ⟨c, -, h⟩ := h
  split at h
  · cases h
  · split at h <;> (cases h; exact ChildFrame.modifySm_modifyChild ..)

theorem child_next_frame {s t : State} {j : Nat} (h : child_next s j = some t) :
    ChildFrame s t j := by
  simp only [child_next, Option.bind_eq_bind, Option.bind_eq_some_iff] at h
  obtain ⟨c, -, h⟩ := h
  split at h <;> first | (cases h; exact ChildFrame.modifySm_modifyChild ..) | cases h

theorem exit_frame {s t : State} {j : Nat} {status : Int} (h : exit s j status = some t) :
    ChildFrame s t j := by
  simp only [exit, Option.bind_eq_bind, Option.bind_eq_some_iff] at h
  obtain ⟨c, -, h⟩ := h
  split at h
  · cases h
  · cases h
    exact ChildFrame.modifySm_modifyChild ..

/-- The step of a label that names child `j` only changes child `j`. -/
def Act.child? : Act → Option Nat
  | .childLoad k _ | .childNext k | .childExit k _ | .childKill k => some k
  | _ => none

theorem step_child_frame {s t : State} {a : Act} {j : Nat} (ha : a.child? = some j)
    (h : step s a = some t) : ChildFrame s t j := by
  cases a with
  | childLoad k b => cases ha; exact start_process_frame h
  | childNext k => cases ha; exact child_next_frame h
  | childExit k status => cases ha; exact exit_frame h
  | childKill k =>
    cases ha
    simp only [step, Option.bind_eq_bind, Option.bind_eq_some_iff] at h
    obtain ⟨c, -, h⟩ := h
    split at h
    · cases h
    · cases h
      exact ChildFrame.modifyChild ..
  | _ => cases ha

end Pintos.Process
