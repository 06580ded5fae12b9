import Pintos.Filesys.Filesys
import Pintos.Transition

/-!
# Calls of several threads

Threads call `filesys_create`, `filesys_remove`, `filesys_open` and
`file_close`, interleaved. Each call is one atomic step, except `filesys_open`,
which is two: `dir_lookup` reads the directory entry, and the `inode_open` of the
sector it names comes later, with no lock held in between (the `dir_lock` calls
of `dir_lookup` are commented out). A step is enabled when its code returns: a
thread that would sleep on a lock or panic takes no step.
-/

namespace Pintos.Filesys

open StateExcept SE Transition

structure Sys where
  fs : FsState
  /-- The files each thread has open, by the sector of their inode. -/
  files : Nat → List Nat
  /-- A thread inside `filesys_open`: its root directory and the sector found. -/
  opening : Nat → Option (Bool × Option Nat)

inductive Act
  | create (t : Nat) (name : List UInt8) (size : Int)
  | remove (t : Nat) (name : List UInt8)
  | open_lookup (t : Nat) (name : List UInt8)
  | open_finish (t : Nat)
  | close (t : Nat) (file : Nat)

/-- A call run to its end: its result and state, or `none` when it does not return. -/
def exec {α : Type} (x : FsM α) (s : FsState) : Option (α × FsState) :=
  match x s with
  | (.ok a, s') => some (a, s')
  | (.error _, _) => none

def step (w : Sys) : Act → Option Sys
  | .create t name size =>
    (exec (filesys_create t name size) w.fs).map fun r => { w with fs := r.2 }
  | .remove t name => (exec (filesys_remove t name) w.fs).map fun r => { w with fs := r.2 }
  | .open_lookup t name =>
    if (w.opening t).isNone then
      (exec (filesys_open_lookup t name) w.fs).map fun r =>
        { w with fs := r.2, opening := Function.update w.opening t (some r.1) }
    else none
  | .open_finish t =>
    match w.opening t with
    | some (dir, sector) =>
      (exec (filesys_open_finish t dir sector) w.fs).map fun r =>
        { fs := r.2
          files := Function.update w.files t (r.1.toList ++ w.files t)
          opening := Function.update w.opening t none }
    | none => none
  | .close t file =>
    if file ∈ w.files t then
      (exec (file_close t (some file)) w.fs).map fun r =>
        { w with fs := r.2, files := Function.update w.files t ((w.files t).erase file) }
    else none

/-- A formatted disk of `sectors` sectors, with no call under way. -/
def sys_init (sectors : Nat) : Sys := ⟨formatted sectors, fun _ => [], fun _ => none⟩

theorem exec_bind {α β : Type} (x : FsM α) (f : α → FsM β) (s : FsState) :
    exec (x >>= f) s = (exec x s).bind fun r => exec (f r.1) r.2 := by
  unfold exec
  rw [bind_apply]
  rcases x s with ⟨_ | a, s'⟩ <;> rfl

/-- Taken back to back, the two steps of `filesys_open` are one call of it: the
thread ends with the file `filesys_open` returns, and is no longer inside the call. -/
theorem open_steps_compose {w : Sys} {t : Nat} {name : List UInt8} (hidle : w.opening t = none) :
    (step w (.open_lookup t name)).bind (fun w' => step w' (.open_finish t)) =
      (exec (filesys_open t name) w.fs).map fun r =>
        { w with fs := r.2, files := Function.update w.files t (r.1.toList ++ w.files t) } := by
  rw [filesys_open_split, exec_bind]
  simp only [step, hidle, Option.isNone_none, if_true]
  rcases exec (filesys_open_lookup t name) w.fs with _ | ⟨r, s'⟩
  · rfl
  · -- the second step finds what the first left in `opening`, and clears it
    have hclear : Function.update (Function.update w.opening t (some r)) t none = w.opening := by
      rw [Function.update_idem, ← hidle, Function.update_eq_self]
    simp only [Option.map_some, Option.bind_some, Function.update_self, hclear]

/-- Thread 1 has created `"a"` on a formatted disk. -/
def a_created : Sys := (step (sys_init 16) (.create 1 [97] 0)).getD (sys_init 16)

theorem open_steps_compose_a_created :
    a_created.opening 0 = none ∧
    (step a_created (.open_lookup 0 [97])).bind (fun w' => step w' (.open_finish 0)) =
      (exec (filesys_open 0 [97]) a_created.fs).map fun r =>
        { a_created with
          fs := r.2, files := Function.update a_created.files 0 (r.1.toList ++ a_created.files 0) } :=
  ⟨rfl, open_steps_compose rfl⟩

/-- Thread 1 creates `"a"`; thread 0's `filesys_open ("a")` reads its entry;
thread 1 removes `"a"`, which closes its inode for the last time and frees its
sectors; thread 0 then opens the inode of the freed header sector. -/
def openRemoveRace : List Act :=
  [.create 1 [97] 0, .open_lookup 0 [97], .remove 1 [97], .open_finish 0]

theorem open_returns_freed_inode :
    (∃ w, Reachable step (sys_init 16) w ∧ 4 ∈ w.files 0 ∧ w.fs.free_map.getD 4 false = false) ∧
    (∃ w, Reachable step (sys_init 16) w ∧ 4 ∈ w.files 0 ∧
      (lookup w.fs.root [98]).map (·.1.inode_sector) = some 4) := by
  constructor
  · obtain ⟨w, hw, hp⟩ := exists_reachable_of_run step (sys_init 16) openRemoveRace
      (fun w => decide (4 ∈ w.files 0 ∧ w.fs.free_map.getD 4 false = false)) (by decide)
    exact ⟨w, hw, of_decide_eq_true hp⟩
  · -- a later `filesys_create ("b")` takes the freed sector as its header
    obtain ⟨w, hw, hp⟩ := exists_reachable_of_run step (sys_init 16)
      (openRemoveRace ++ [.create 1 [98] 0])
      (fun w => decide (4 ∈ w.files 0 ∧ (lookup w.fs.root [98]).map (·.1.inode_sector) = some 4))
      (by decide)
    exact ⟨w, hw, of_decide_eq_true hp⟩

end Pintos.Filesys
