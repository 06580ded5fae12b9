import Mathlib
import Pintos.Transition

/-!
# The file descriptor table of `userprog/syscall.c`

Each thread keeps its open files in `file_descriptors`, a list of
`struct file_descriptor` entries, and the next number to hand out in `next_fd`
(2 after `init_thread`, since 0 and 1 are the console). `open` appends an entry
and increments `next_fd`; `close` removes the first entry with the number and
closes its file; `get_file` returns the file of the first entry with the number.
Numbers are never handed out twice.

`struct file` is a type parameter: the table only stores and returns the
pointers. `filesys_open`'s result is an argument of `open`; the `malloc` of the
entry is taken to succeed (the code does not check it).

The table refines a finite map from numbers to files (`Fds.abs`), and over
every sequence of calls it holds the files of the opens that have not been
closed. An open fails once `next_fd` reaches `MAX_FDS`, however many of the
files opened so far are still open.
-/

namespace Pintos.Syscall

/-- `MAX_FDS` of `userprog/syscall.c`. -/
def MAX_FDS : Int := 130

structure FileDescriptor (F : Type) where
  fd : Int
  file : F
  deriving DecidableEq, Repr

/-- The fields of `struct thread` that hold a process's open files. -/
structure Fds (F : Type) where
  file_descriptors : List (FileDescriptor F)
  next_fd : Int
  deriving DecidableEq, Repr

variable {F : Type}

/-- The loop of `get_file` and `close`: the file of the first entry with number `fd`. -/
def lookup (fd : Int) : List (FileDescriptor F) → Option F
  | [] => none
  | e :: es => if e.fd = fd then some e.file else lookup fd es

/-- `list_remove` of the first entry with number `fd`. -/
def list_remove (fd : Int) : List (FileDescriptor F) → List (FileDescriptor F)
  | [] => []
  | e :: es => if e.fd = fd then es else e :: list_remove fd es

namespace Fds

/-- The table of a new thread (`init_thread`). -/
def init : Fds F := ⟨[], 2⟩

def get_file (t : Fds F) (fd : Int) : Option F :=
  if fd < 2 ∨ fd ≥ MAX_FDS then none else lookup fd t.file_descriptors

/-- `close`; the second component is the file passed to `file_close`, if any. -/
def close (t : Fds F) (fd : Int) : Fds F × Option F :=
  if fd < 2 ∨ fd ≥ MAX_FDS then (t, none)
  else match lookup fd t.file_descriptors with
    | none => (t, none)
    | some f => ({ t with file_descriptors := list_remove fd t.file_descriptors }, some f)

/-- The file `filesize` works on: its own range check, then `get_file`. -/
def filesize_file (t : Fds F) (fd : Int) : Option F :=
  if fd < 2 ∨ fd ≥ MAX_FDS then none else t.get_file fd

end Fds

/-- `open` after `validate_string`. `opened` is what `filesys_open` returns; it is
only called when `next_fd < MAX_FDS`. The first component is the return value. -/
def Fds.open (t : Fds F) (opened : Option F) : Int × Fds F :=
  if t.next_fd ≥ MAX_FDS then (-1, t)
  else match opened with
    | none => (-1, t)
    | some f => (t.next_fd, ⟨t.file_descriptors ++ [⟨t.next_fd, f⟩], t.next_fd + 1⟩)

/-- A system call on the table. `read`, `write`, `seek`, `tell` and `filesize`
only look their number up (`use_file`). -/
inductive Call (F : Type) where
  | open_file (opened : Option F)
  | close_file (fd : Int)
  | use_file (fd : Int)
  deriving DecidableEq, Repr

/-- One call; the number is what the call returned (`open`) or 0 (`void` calls). -/
def Fds.call (t : Fds F) : Call F → Fds F × Int
  | .open_file opened => ((t.open opened).2, (t.open opened).1)
  | .close_file fd => ((t.close fd).1, 0)
  | .use_file _ => (t, 0)

/-- A sequence of calls, with each call paired with its return value. -/
def Fds.calls (t : Fds F) : List (Call F) → Fds F × List (Call F × Int)
  | [] => (t, [])
  | c :: cs =>
    let r := t.call c
    let rest := r.1.calls cs
    (rest.1, (c, r.2) :: rest.2)

end Pintos.Syscall

namespace Pintos.Syscall

variable {F : Type}

/-! ## The loops over the list -/

theorem lookup_eq_none {fd : Int} {l : List (FileDescriptor F)} (h : ∀ e ∈ l, e.fd ≠ fd) :
    lookup fd l = none := by
  induction l with
  | nil => rfl
  | cons e es ih =>
    have he : e.fd ≠ fd := h e (List.mem_cons_self ..)
    simp only [lookup, he, if_false]
    exact ih fun e' he' => h e' (List.mem_cons_of_mem _ he')

theorem lookup_append_fresh (g fd : Int) (f : F) {l : List (FileDescriptor F)}
    (hfresh : ∀ e ∈ l, e.fd ≠ fd) :
    lookup g (l ++ [⟨fd, f⟩]) = if fd = g then some f else lookup g l := by
  induction l with
  | nil => simp [lookup]
  | cons e es ih =>
    have hes : ∀ e ∈ es, e.fd ≠ fd := fun e' he' => hfresh e' (List.mem_cons_of_mem _ he')
    by_cases heg : e.fd = g
    · have hne : fd ≠ g := fun h => hfresh e (List.mem_cons_self ..) (heg.trans h.symm)
      simp [lookup, heg, hne]
    · simp [lookup, heg, ih hes]

theorem mem_of_mem_list_remove {fd : Int} {l : List (FileDescriptor F)} {e : FileDescriptor F}
    (h : e ∈ list_remove fd l) : e ∈ l := by
  induction l with
  | nil => simp [list_remove] at h
  | cons x xs ih =>
    simp only [list_remove] at h
    split at h
    · exact List.mem_cons_of_mem _ h
    · rcases List.mem_cons.mp h with rfl | h
      · exact List.mem_cons_self ..
      · exact List.mem_cons_of_mem _ (ih h)

theorem nodup_list_remove (fd : Int) {l : List (FileDescriptor F)} (h : (l.map (·.fd)).Nodup) :
    ((list_remove fd l).map (·.fd)).Nodup := by
  induction l with
  | nil => simp [list_remove]
  | cons x xs ih =>
    rw [List.map_cons, List.nodup_cons] at h
    simp only [list_remove]
    split
    · exact h.2
    · rw [List.map_cons, List.nodup_cons]
      refine ⟨fun hx => h.1 ?_, ih h.2⟩
      obtain ⟨e, he, hfd⟩ := List.mem_map.mp hx
      exact List.mem_map.mpr ⟨e, mem_of_mem_list_remove he, hfd⟩

/-- With distinct numbers, removing the entry of `fd` unmaps `fd` and nothing else. -/
theorem lookup_list_remove (g fd : Int) {l : List (FileDescriptor F)} (h : (l.map (·.fd)).Nodup) :
    lookup g (list_remove fd l) = if g = fd then none else lookup g l := by
  induction l with
  | nil => simp [list_remove, lookup]
  | cons x xs ih =>
    rw [List.map_cons, List.nodup_cons] at h
    simp only [list_remove]
    by_cases hx : x.fd = fd
    · simp only [hx, if_true]
      by_cases hg : g = fd
      · subst g
        simp only [if_true]
        exact lookup_eq_none fun e he hfd => h.1 (List.mem_map.mpr ⟨e, he, hfd.trans hx.symm⟩)
      · have hfg : fd ≠ g := fun h => hg h.symm
        simp [lookup, hx, hg, hfg]
    · simp only [hx, if_false, lookup, ih h.2]
      by_cases hg : g = fd
      · subst g
        simp [hx]
      · simp [hg]

theorem lookup_mem {fd : Int} {l : List (FileDescriptor F)} {f : F} (h : lookup fd l = some f) :
    ∃ e ∈ l, e.fd = fd := by
  induction l with
  | nil => simp [lookup] at h
  | cons x xs ih =>
    simp only [lookup] at h
    split at h
    · exact ⟨x, List.mem_cons_self .., ‹_›⟩
    · obtain ⟨e, he, hfd⟩ := ih h
      exact ⟨e, List.mem_cons_of_mem _ he, hfd⟩

/-! ## The table refines a finite map -/

namespace Fds

/-- The map from numbers to files that the table stands for. -/
def abs (t : Fds F) : Int → Option F := fun fd => lookup fd t.file_descriptors

@[simp] theorem abs_init (fd : Int) : (init : Fds F).abs fd = none := rfl

/-- Numbers are distinct, at least 2 and below `next_fd`, which stays in `[2, MAX_FDS]`. -/
structure Wf (t : Fds F) : Prop where
  nodup : (t.file_descriptors.map (·.fd)).Nodup
  bounds : ∀ e ∈ t.file_descriptors, 2 ≤ e.fd ∧ e.fd < t.next_fd
  next_ge : 2 ≤ t.next_fd
  next_le : t.next_fd ≤ MAX_FDS

theorem wf_init : (init : Fds F).Wf :=
  ⟨List.nodup_nil, by simp [init], by simp [init], by simp [init, MAX_FDS]⟩

/-- Outside `[2, next_fd)` the map is empty. -/
theorem abs_eq_none_of_out {t : Fds F} (h : t.Wf) {fd : Int} (hfd : fd < 2 ∨ t.next_fd ≤ fd) :
    t.abs fd = none := by
  refine lookup_eq_none fun e he heq => ?_
  have hb := h.bounds e he
  omega

/-- `get_file` reads the map: its range check only excludes numbers the map does not hold. -/
theorem get_file_eq_abs {t : Fds F} (h : t.Wf) (fd : Int) : t.get_file fd = t.abs fd := by
  unfold get_file
  split
  · rename_i hout
    have hle := h.next_le
    exact (abs_eq_none_of_out h (by unfold MAX_FDS at *; omega)).symm
  · rfl

end Fds

end Pintos.Syscall

namespace Pintos.Syscall

variable {F : Type}

namespace Fds

/-- `open` either fails and leaves the table as it was, or maps the fresh number
`next_fd` to the opened file and moves `next_fd` past it. -/
theorem open_spec {t : Fds F} (h : t.Wf) (opened : Option F) :
    ((t.open opened).1 = -1 ∧ (t.open opened).2 = t ∧ (opened = none ∨ MAX_FDS ≤ t.next_fd)) ∨
    (∃ f, opened = some f ∧ t.next_fd < MAX_FDS ∧ (t.open opened).1 = t.next_fd ∧
      t.abs t.next_fd = none ∧
      (t.open opened).2.abs = Function.update t.abs t.next_fd (some f) ∧
      (t.open opened).2.next_fd = t.next_fd + 1) := by
  unfold Fds.open
  split
  · exact Or.inl ⟨rfl, rfl, Or.inr ‹_›⟩
  · rename_i hlt
    cases opened with
    | none => exact Or.inl ⟨rfl, rfl, Or.inl rfl⟩
    | some f =>
      have hfresh : ∀ e ∈ t.file_descriptors, e.fd ≠ t.next_fd := fun e he => by
        have := h.bounds e he
        omega
      refine Or.inr ⟨f, rfl, by omega, rfl, lookup_eq_none hfresh, ?_, rfl⟩
      funext g
      simp only [abs, lookup_append_fresh g t.next_fd f hfresh, Function.update_apply]
      by_cases hg : g = t.next_fd
      · simp [hg]
      · simp [hg, Ne.symm hg]

theorem wf_open {t : Fds F} (h : t.Wf) (opened : Option F) : (t.open opened).2.Wf := by
  unfold Fds.open
  split
  · exact h
  · rename_i hlt
    cases opened with
    | none => exact h
    | some f =>
      dsimp only
      have hfresh : t.next_fd ∉ t.file_descriptors.map (·.fd) := fun hm => by
        obtain ⟨e, he, hfd⟩ := List.mem_map.mp hm
        have := h.bounds e he
        omega
      constructor
      · rw [List.map_append, List.nodup_append]
        refine ⟨h.nodup, List.nodup_cons.mpr ⟨List.not_mem_nil, List.nodup_nil⟩, ?_⟩
        intro a ha b hb hab
        simp only [List.map_cons, List.map_nil, List.mem_singleton] at hb
        subst hb hab
        exact hfresh ha
      · intro e he
        rcases List.mem_append.mp he with he | he
        · have := h.bounds e he
          exact ⟨this.1, by dsimp only; omega⟩
        · rw [List.mem_singleton] at he
          subst e
          exact ⟨h.next_ge, by dsimp only; omega⟩
      · have := h.next_ge
        dsimp only
        omega
      · dsimp only
        omega

/-- `close (fd)` unmaps `fd` and nothing else, and closes the file `fd` was mapped to. -/
theorem close_spec {t : Fds F} (h : t.Wf) (fd : Int) :
    (t.close fd).1.abs = Function.update t.abs fd none ∧ (t.close fd).2 = t.abs fd ∧
      (t.close fd).1.next_fd = t.next_fd := by
  unfold close
  split
  · rename_i hout
    have hnone : t.abs fd = none := abs_eq_none_of_out h (by have := h.next_le; omega)
    refine ⟨?_, hnone.symm, rfl⟩
    show t.abs = _
    rw [← hnone, Function.update_eq_self]
  · split
    · rename_i hnone
      have habs : t.abs fd = none := hnone
      refine ⟨?_, habs.symm, rfl⟩
      show t.abs = _
      rw [← habs, Function.update_eq_self]
    · rename_i f hf
      refine ⟨?_, hf.symm, rfl⟩
      funext g
      simp only [abs, lookup_list_remove g fd h.nodup, Function.update_apply]

theorem wf_close {t : Fds F} (h : t.Wf) (fd : Int) : (t.close fd).1.Wf := by
  unfold close
  split
  · exact h
  · split
    · exact h
    · exact ⟨nodup_list_remove fd h.nodup, fun e he => h.bounds e (mem_of_mem_list_remove he),
        h.next_ge, h.next_le⟩

theorem wf_call {t : Fds F} (h : t.Wf) (c : Call F) : (t.call c).1.Wf := by
  cases c with
  | open_file opened => exact wf_open h opened
  | close_file fd => exact wf_close h fd
  | use_file fd => exact h

end Fds

end Pintos.Syscall

namespace Pintos.Syscall

variable {F : Type}

/-! ## Over whole histories -/

/-- What a call, with the value it returned, does to the map of open files: an
open that returned a number maps it to the opened file, a close unmaps its number. -/
def Call.effect (m : Int → Option F) : Call F × Int → Int → Option F
  | (.open_file (some f), r) => if r = -1 then m else Function.update m r (some f)
  | (.open_file none, _) => m
  | (.close_file fd, _) => Function.update m fd none
  | (.use_file _, _) => m

/-- The files that the opens of a history left open: each number maps to the file
of the open that returned it, unless a close of the number came after. -/
def liveFiles (h : List (Call F × Int)) : Int → Option F := h.foldl Call.effect fun _ => none

/-- The number of opens in a history that returned a number. -/
def successfulOpens : List (Call F × Int) → Nat
  | [] => 0
  | (.open_file _, r) :: h => (if r = -1 then 0 else 1) + successfulOpens h
  | _ :: h => successfulOpens h

namespace Fds

theorem call_abs {t : Fds F} (h : t.Wf) (c : Call F) :
    (t.call c).1.abs = Call.effect t.abs (c, (t.call c).2) := by
  cases c with
  | open_file opened =>
    rcases open_spec h opened with ⟨hr, ht, -⟩ | ⟨f, rfl, -, hr, -, habs, -⟩
    · simp only [call, hr, ht]
      cases opened <;> simp [Call.effect]
    · have hne : t.next_fd ≠ -1 := by have := h.next_ge; omega
      simp only [call, hr, Call.effect, hne, if_false]
      exact habs
  | close_file fd => exact (close_spec h fd).1
  | use_file fd => rfl

theorem call_next_fd {t : Fds F} (h : t.Wf) (c : Call F) :
    (t.call c).1.next_fd = t.next_fd + successfulOpens [(c, (t.call c).2)] := by
  cases c with
  | open_file opened =>
    rcases open_spec h opened with ⟨hr, ht, -⟩ | ⟨f, rfl, -, hr, -, -, hnext⟩
    · simp [call, hr, ht, successfulOpens]
    · have hne : t.next_fd ≠ -1 := by have := h.next_ge; omega
      simp only [call, hr, successfulOpens, hne, if_false, hnext]
      omega
  | close_file fd => simp [call, (close_spec h fd).2.2, successfulOpens]
  | use_file fd => simp [call, successfulOpens]

theorem successfulOpens_cons (p : Call F × Int) (h : List (Call F × Int)) :
    successfulOpens (p :: h) = successfulOpens [p] + successfulOpens h := by
  rcases p with ⟨c, r⟩
  cases c <;> simp [successfulOpens]

/-- The run lemma: along any sequence of calls the table stays well formed, stands
for the map the history leaves, and `next_fd` counts the successful opens. -/
theorem calls_spec {t : Fds F} (h : t.Wf) (cs : List (Call F)) :
    (t.calls cs).1.Wf ∧ (t.calls cs).1.abs = (t.calls cs).2.foldl Call.effect t.abs ∧
      (t.calls cs).1.next_fd = t.next_fd + successfulOpens (t.calls cs).2 := by
  induction cs generalizing t with
  | nil => exact ⟨h, rfl, by simp [calls, successfulOpens]⟩
  | cons c cs ih =>
    obtain ⟨hwf, habs, hnext⟩ := ih (wf_call h c)
    refine ⟨hwf, ?_, ?_⟩
    · simp only [calls, List.foldl_cons, ← call_abs h c]
      exact habs
    · simp only [calls]
      rw [hnext, successfulOpens_cons (c, (t.call c).2), call_next_fd h c]
      omega

end Fds

end Pintos.Syscall

namespace Pintos.Syscall

variable {F : Type}

namespace Fds

theorem calls_append_fst (t : Fds F) (cs ds : List (Call F)) :
    (t.calls (cs ++ ds)).1 = ((t.calls cs).1.calls ds).1 := by
  induction cs generalizing t with
  | nil => rfl
  | cons c cs ih => exact ih (t.call c).1

end Fds

/-- Over every sequence of calls from a new thread's table: the numbers in the
list are distinct and in `[2, MAX_FDS)`; `get_file` returns the file of the open
that returned the number unless a close of it came after, and nothing otherwise;
`close` unmaps exactly its number; and an `open` fails, leaving the table as it
was, exactly when `filesys_open` fails or the process has already made 128
successful opens, however many of those files it has closed. -/
theorem fd_table_tracks_open_files (cs : List (Call F)) :
    ((Fds.init.calls cs).1.file_descriptors.map (·.fd)).Nodup ∧
    (∀ e ∈ (Fds.init.calls cs).1.file_descriptors, 2 ≤ e.fd ∧ e.fd < MAX_FDS) ∧
    (∀ fd, (Fds.init.calls cs).1.get_file fd = liveFiles (Fds.init.calls cs).2 fd) ∧
    (∀ fd g, ((Fds.init.calls cs).1.close fd).1.get_file g =
      if g = fd then none else (Fds.init.calls cs).1.get_file g) ∧
    (∀ opened, ((Fds.init.calls cs).1.open opened).1 = -1 ↔
      (opened = none ∨ 128 ≤ successfulOpens (Fds.init.calls cs).2)) ∧
    (∀ opened, ((Fds.init.calls cs).1.open opened).1 = -1 →
      ((Fds.init.calls cs).1.open opened).2 = (Fds.init.calls cs).1) := by
  obtain ⟨hwf, habs, hnext⟩ := Fds.calls_spec (Fds.wf_init (F := F)) cs
  set t := (Fds.init.calls cs).1
  set h := (Fds.init.calls cs).2
  have hnext' : t.next_fd = 2 + successfulOpens h := hnext
  refine ⟨hwf.nodup, fun e he => ?_, fun fd => ?_, fun fd g => ?_, fun opened => ?_,
    fun opened hfail => ?_⟩
  · have := hwf.bounds e he
    have := hwf.next_le
    omega
  · rw [Fds.get_file_eq_abs hwf, habs]
    rfl
  · rw [Fds.get_file_eq_abs (Fds.wf_close hwf fd), (Fds.close_spec hwf fd).1,
      Fds.get_file_eq_abs hwf, Function.update_apply]
  · rcases Fds.open_spec hwf opened with ⟨hr, -, hwhy⟩ | ⟨f, rfl, hlt, hr, -⟩
    · refine iff_of_true hr ?_
      rcases hwhy with hnone | hle
      · exact Or.inl hnone
      · right
        unfold MAX_FDS at hle
        omega
    · have hne : t.next_fd ≠ -1 := by have := hwf.next_ge; omega
      rw [hr]
      refine iff_of_false hne ?_
      rintro (hnone | hle)
      · cases hnone
      · unfold MAX_FDS at hlt
        omega
  · rcases Fds.open_spec hwf opened with ⟨-, ht, -⟩ | ⟨f, -, -, hr, -⟩
    · exact ht
    · have := hwf.next_ge
      omega

/-- `n` times: open a file, then close the number the open returned. -/
def openCloseCycles (f : F) : Nat → List (Call F)
  | 0 => []
  | n + 1 => openCloseCycles f n ++ [.open_file (some f), .close_file (2 + n)]

/-- After `n ≤ 128` open/close cycles the list is empty again, but `next_fd` has
moved `n` places: numbers are never reused. -/
theorem calls_openCloseCycles (f : F) {n : Nat} (hn : n ≤ 128) :
    (Fds.init.calls (openCloseCycles f n)).1 = ⟨[], 2 + n⟩ := by
  induction n with
  | zero => rfl
  | succ n ih =>
    rw [openCloseCycles, Fds.calls_append_fst, ih (by omega)]
    have hlt : ¬ MAX_FDS ≤ 2 + (n : Int) := by unfold MAX_FDS; omega
    have hge : ¬ 2 + (n : Int) < 2 := by omega
    simp [Fds.calls, Fds.call, Fds.open, Fds.close, lookup, list_remove, hlt, hge]
    omega

/-- A process that has opened and closed a file 128 times holds no open file,
and its next `open` of an existing file still returns -1. -/
theorem open_fails_with_no_file_open :
    ((Fds.init : Fds Unit).calls (openCloseCycles () 128)).1.file_descriptors = [] ∧
    (((Fds.init : Fds Unit).calls (openCloseCycles () 128)).1.open (some ())).1 = -1 := by
  rw [calls_openCloseCycles () (Nat.le_refl 128)]
  exact ⟨rfl, by simp [Fds.open, MAX_FDS]⟩

end Pintos.Syscall
