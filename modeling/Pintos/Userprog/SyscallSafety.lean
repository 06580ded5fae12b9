import Mathlib
import Pintos.Userprog.Syscall

/-!
# What the handler validates before it touches memory

`Good m tr`: every kernel access in the ghost trace follows a passed
`validate_pointer` of its address, and every address that passed is a mapped user
address. `Safe P x Q` is the judgment the proofs use: from a state satisfying
`P` and `Good`, kernel code `x` keeps `Good`, returns with `Q`, and stops only
through `exit` or `halt`, never by a panic.

The main result, `syscall_handler_safe`, is that judgment for the whole handler,
for every stack pointer, memory, fd table and world, except on the paths named
by `Unsafe`: `remove`, `seek` of an fd that is not open, and `read` from the
keyboard or into a page that is not writable.
-/

namespace Pintos.Syscall

open StateExcept SE

variable {W File α β : Type}

/-- `validate_pointer` passes on `p`. -/
def Valid (m : Mem) (p : Nat) : Prop := p ≠ 0 ∧ p < PHYS_BASE ∧ m.mapped p = true

/-- Every kernel access in the trace (newest first) follows a check of its address. -/
def Checked : List Access → Prop
  | [] => True
  | .check _ :: tr => Checked tr
  | .load p :: tr => .check p ∈ tr ∧ Checked tr
  | .store p :: tr => .check p ∈ tr ∧ Checked tr

structure Good (m : Mem) (tr : List Access) : Prop where
  checked : Checked tr
  valid : ∀ p, .check p ∈ tr → Valid m p

/-- From `P`, `x` keeps `Good`, returns with `Q`, and stops only without a panic. -/
def Safe (P : KState W File → Prop) (x : K W File α) (Q : α → KState W File → Prop) : Prop :=
  Triple (fun s => P s ∧ Good s.mem s.trace) x (fun a s => Q a s ∧ Good s.mem s.trace)
    (fun e s => e.Benign ∧ Good s.mem s.trace)

/-- A frame condition: logging one more access does not disturb it. -/
def LogStable (P : KState W File → Prop) : Prop := ∀ s a, P s → P (s.log a)

/-! ## The invariant under single accesses -/

section Good

variable {m : Mem} {tr : List Access} {p : Nat}

theorem Good.log_check (h : Good m tr) (hp : Valid m p) : Good m (.check p :: tr) := by
  constructor
  · exact h.checked
  · intro q hq
    rcases List.mem_cons.mp hq with hq | hq
    · cases hq
      exact hp
    · exact h.valid q hq

theorem Good.log_load (h : Good m tr) (hp : .check p ∈ tr) : Good m (.load p :: tr) := by
  constructor
  · exact ⟨hp, h.checked⟩
  · intro q hq
    rcases List.mem_cons.mp hq with hq | hq
    · cases hq
    · exact h.valid q hq

theorem Good.log_store (h : Good m tr) (hp : .check p ∈ tr) : Good m (.store p :: tr) := by
  constructor
  · exact ⟨hp, h.checked⟩
  · intro q hq
    rcases List.mem_cons.mp hq with hq | hq
    · cases hq
    · exact h.valid q hq

/-- A kernel store changes bytes, not the page directory. -/
theorem Good.write (h : Good m tr) (q : Nat) (b : UInt8) : Good (m.write q b) tr :=
  ⟨h.checked, h.valid⟩

end Good

/-! ## Rules of `Safe` -/

section Rules

variable {P P' : KState W File → Prop} {Q Q' : α → KState W File → Prop}

theorem safe_pure {a : α} (h : ∀ s, P s → Q a s) : Safe P (pure a) Q :=
  triple_pure fun s hs => ⟨h s hs.1, hs.2⟩

theorem safe_bind {x : K W File α} {f : α → K W File β} {R : α → KState W File → Prop}
    {Q : β → KState W File → Prop} (hx : Safe P x R) (hf : ∀ a, Safe (R a) (f a) Q) :
    Safe P (x >>= f) Q :=
  triple_bind hx hf

theorem Safe.conseq {x : K W File α} (h : Safe P x Q) (hP : ∀ s, P' s → P s)
    (hQ : ∀ a s, Q a s → Q' a s) : Safe P' x Q' :=
  Triple.conseq h (fun s hs => ⟨hP s hs.1, hs.2⟩) (fun a s hq => ⟨hQ a s hq.1, hq.2⟩)
    (fun _ _ => id)

theorem Safe.pre {x : K W File α} (h : Safe P x Q) (hP : ∀ s, P' s → P s) : Safe P' x Q :=
  h.conseq hP fun _ _ => id

/-- A fact about no state in particular can be moved out of the precondition. -/
theorem safe_of_prop {c : Prop} {x : K W File α} (h : c → Safe P x Q) :
    Safe (fun s => c ∧ P s) x Q :=
  fun s hs => h hs.1.1 s ⟨hs.1.2, hs.2⟩

/-- A precondition may name the memory it starts from. -/
theorem safe_of_mem {x : K W File α} (h : ∀ m, Safe (fun s => P s ∧ s.mem = m) x Q) :
    Safe P x Q :=
  fun s hs => h s.mem s ⟨⟨hs.1, rfl⟩, hs.2⟩

/-- Code after `exit` is never reached. -/
theorem safe_false {x : K W File α} : Safe (fun _ => False) x Q :=
  fun _ hs => hs.1.elim

theorem safe_exit {status : Int} : Safe P (exit status : K W File α) Q :=
  triple_throw fun _ hs => ⟨trivial, hs.2⟩

theorem safe_halt : Safe P (halt : K W File α) Q :=
  triple_throw fun _ hs => ⟨trivial, hs.2⟩

theorem safe_get {Q : KState W File → KState W File → Prop} (h : ∀ s, P s → Q s s) :
    Safe P get Q :=
  triple_get fun s hs => ⟨h s hs.1, hs.2⟩

/-- A change of state outside memory and trace. -/
theorem safe_modify {f : KState W File → KState W File} {Q : Unit → KState W File → Prop}
    (hf : ∀ s, (f s).mem = s.mem ∧ (f s).trace = s.trace) (h : ∀ s, P s → Q () (f s)) :
    Safe P (modify f) Q :=
  triple_modify fun s hs => ⟨h s hs.1, by rw [(hf s).1, (hf s).2]; exact hs.2⟩

theorem safe_service {f : W → α × W}
    (h : ∀ s, P s → Q (f s.world).1 { s with world := (f s.world).2 }) :
    Safe P (service f) Q := by
  refine safe_bind (safe_get (Q := fun t s => P s ∧ t = s) fun s hs => ⟨hs, rfl⟩) fun t => ?_
  refine safe_bind (safe_modify (Q := fun _ s => Q (f t.world).1 s) (fun _ => ⟨rfl, rfl⟩) ?_)
    fun _ => safe_pure fun _ => id
  rintro s ⟨hs, rfl⟩
  exact h t hs

/-- Name the state `get` returns. -/
theorem safe_get_bind {f : KState W File → K W File α}
    (h : ∀ t, Safe (fun s => P s ∧ s = t) (f t) Q) : Safe P (get >>= f) Q :=
  safe_bind (safe_get (Q := fun t s => P s ∧ s = t) fun _ hs => ⟨hs, rfl⟩) h

theorem safe_record {a : Access} {Q : Unit → KState W File → Prop}
    (h : ∀ s, P s → Good s.mem s.trace → Q () (s.log a) ∧ Good s.mem (a :: s.trace)) :
    Safe P (record a) Q :=
  triple_modify fun s hs => h s hs.1 hs.2

theorem safe_ite {c : Prop} [Decidable c] {x y : K W File α} (hx : c → Safe P x Q)
    (hy : ¬ c → Safe P y Q) : Safe P (if c then x else y) Q :=
  triple_ite hx hy

theorem safe_forRange {body : Nat → K W File Unit} {I : Nat → KState W File → Prop} {n : Nat}
    (hbody : ∀ k, k < n → Safe (I k) (body k) (fun _ => I (k + 1))) :
    Safe (I 0) (forRange body n) (fun _ => I n) :=
  triple_forRange hbody

end Rules

/-! ## Accesses -/

section Access

variable {P : KState W File → Prop}

theorem LogStable.and {P Q : KState W File → Prop} (hP : LogStable P) (hQ : LogStable Q) :
    LogStable fun s => P s ∧ Q s :=
  fun s a h => ⟨hP s a h.1, hQ s a h.2⟩

theorem logStable_mem (f : Mem → Prop) : LogStable fun s : KState W File => f s.mem :=
  fun _ _ => id

theorem logStable_fds (f : Fds File → Prop) : LogStable fun s : KState W File => f s.fds :=
  fun _ _ => id

theorem logStable_check (q : Nat) : LogStable fun s : KState W File => .check q ∈ s.trace :=
  fun _ a h => List.mem_cons_of_mem a h

/-- Checks of a whole range survive later accesses. -/
theorem logStable_checks (f : Nat → Nat) (n : Nat) :
    LogStable fun s : KState W File => ∀ i < n, .check (f i) ∈ s.trace :=
  fun _ a h i hi => List.mem_cons_of_mem a (h i hi)

theorem validate_pointer_safe (hP : LogStable P) (p : Nat) :
    Safe P (validate_pointer p) (fun _ s => P s ∧ .check p ∈ s.trace) := by
  refine safe_get_bind fun t => ?_
  -- the three guards of `validate_pointer`, each an `exit (-1)`
  refine safe_ite (fun _ => safe_exit) fun h0 => ?_
  refine safe_ite (fun _ => safe_exit) fun hk => ?_
  refine safe_ite (fun _ => safe_exit) fun hm => ?_
  refine safe_record fun s ⟨hs, hst⟩ hg => ?_
  subst hst
  have hv : Valid s.mem p := by
    refine ⟨h0, ?_, ?_⟩
    · simpa [is_kernel_vaddr] using hk
    · simpa using hm
  exact ⟨⟨hP s _ hs, List.mem_cons_self⟩, hg.log_check hv⟩

theorem load_safe (hP : LogStable P) (p : Nat) :
    Safe (fun s => P s ∧ .check p ∈ s.trace) (load p) (fun b s => P s ∧ b = s.mem.byte p) := by
  refine safe_bind (safe_record (Q := fun _ s => P s ∧ s.mem.mapped p = true)
    fun s ⟨hs, hp⟩ hg => ⟨⟨hP s _ hs, (hg.valid p hp).2.2⟩, hg.log_load hp⟩) fun _ => ?_
  refine safe_get_bind fun t => safe_ite (fun _ => safe_pure ?_) fun hm => ?_
  · rintro s ⟨⟨hs, -⟩, rfl⟩
    exact ⟨hs, rfl⟩
  · rintro s ⟨⟨⟨-, hmapped⟩, rfl⟩, -⟩
    exact absurd hmapped hm

/-- A kernel store to a checked, writable byte; `P` must survive the store. -/
theorem store_safe (p : Nat) (b : UInt8)
    (hP : ∀ s, P s → P { s.log (.store p) with mem := s.mem.write p b }) :
    Safe (fun s => P s ∧ .check p ∈ s.trace ∧ s.mem.writable p = true) (store p b)
      (fun _ s => P s) := by
  refine safe_bind (safe_record (Q := fun _ s => P { s with mem := s.mem.write p b } ∧
    s.mem.mapped p = true ∧ s.mem.writable p = true)
    fun s ⟨hs, hp, hw⟩ hg => ⟨⟨hP s hs, (hg.valid p hp).2.2, hw⟩, hg.log_store hp⟩) fun _ => ?_
  refine safe_get_bind fun t => safe_ite (fun _ => ?_) fun hm => ?_
  · refine triple_modify ?_
    rintro s ⟨⟨⟨hs, -⟩, rfl⟩, hg⟩
    exact ⟨hs, hg.write p b⟩
  · rintro s ⟨⟨⟨-, hmapped, hw⟩, rfl⟩, -⟩
    exact absurd ⟨hmapped, hw⟩ hm

/-- The four bytes of a word, all checked. -/
def WordChecked (p : Nat) (tr : List Access) : Prop :=
  .check p ∈ tr ∧ .check (ptr_add p 1) ∈ tr ∧ .check (ptr_add p 2) ∈ tr ∧
    .check (ptr_add p 3) ∈ tr

/-- A load from a memory the frame `F` fixes: the continuation gets the byte itself. -/
theorem load_bind_safe {F : KState W File → Prop} {m : Mem} {p : Nat} {f : UInt8 → K W File β}
    {Q : β → KState W File → Prop} (hF : LogStable F) (hm : ∀ s, F s → s.mem = m)
    (hp : ∀ s, F s → .check p ∈ s.trace) (h : Safe F (f (m.byte p)) Q) :
    Safe F (load p >>= f) Q := by
  refine safe_bind ((load_safe hF p).pre fun s hs => ⟨hs, hp s hs⟩) fun b => ?_
  rintro s ⟨⟨hs, hb⟩, hg⟩
  rw [hm s hs] at hb
  subst hb
  exact h s ⟨hs, hg⟩

theorem load_word_safe {F : KState W File → Prop} {m : Mem} {p : Nat} (hF : LogStable F)
    (hm : ∀ s, F s → s.mem = m) (hp : ∀ s, F s → WordChecked p s.trace) :
    Safe F (load_word p) (fun w s => F s ∧ w = m.word p) := by
  refine load_bind_safe hF hm (fun s hs => (hp s hs).1) ?_
  refine load_bind_safe hF hm (fun s hs => (hp s hs).2.1) ?_
  refine load_bind_safe hF hm (fun s hs => (hp s hs).2.2.1) ?_
  refine load_bind_safe hF hm (fun s hs => (hp s hs).2.2.2) ?_
  exact safe_pure fun s hs => ⟨hs, rfl⟩

end Access

/-! ## Loops over user memory -/

section Loops

/-- The bytes from `q` up to and including the first terminator all passed
`validate_pointer`; in particular the string is terminated. -/
inductive StrChecked (m : Mem) (tr : List Access) : Nat → Prop
  | nul {q : Nat} : .check q ∈ tr → m.byte q = 0 → StrChecked m tr q
  | cons {q : Nat} : .check q ∈ tr → m.byte q ≠ 0 → StrChecked m tr (ptr_add q 1) →
      StrChecked m tr q

theorem StrChecked.log {m : Mem} {tr : List Access} {q : Nat} (h : StrChecked m tr q)
    (a : Access) : StrChecked m (a :: tr) q := by
  induction h with
  | nul hq h0 => exact .nul (List.mem_cons_of_mem a hq) h0
  | cons hq h0 _ ih => exact .cons (List.mem_cons_of_mem a hq) h0 ih

theorem StrChecked.check_head {m : Mem} {tr : List Access} {q : Nat} :
    StrChecked m tr q → .check q ∈ tr
  | .nul hq _ => hq
  | .cons hq _ _ => hq

theorem StrChecked.tail {m : Mem} {tr : List Access} {q : Nat} (h0 : m.byte q ≠ 0) :
    StrChecked m tr q → StrChecked m tr (ptr_add q 1)
  | .nul _ h => absurd h h0
  | .cons _ _ h => h

variable {P : KState W File → Prop}

/-- `for (i = 0; i < n; i++) validate_pointer (base + i);`, the shape of
`validate_buffer`, `validate_set_args` and the handler's own first loop. -/
theorem validate_range_safe (hP : LogStable P) (base n : Nat) :
    Safe P (forRange (fun i => validate_pointer (ptr_add base i)) n)
      (fun _ s => P s ∧ ∀ i < n, .check (ptr_add base i) ∈ s.trace) := by
  refine (safe_forRange (I := fun k s => P s ∧ ∀ i < k, .check (ptr_add base i) ∈ s.trace)
    fun k _ => ?_).pre fun s hs => ⟨hs, fun i hi => absurd hi (Nat.not_lt_zero i)⟩
  refine (validate_pointer_safe (hP.and (logStable_checks _ k)) _).conseq (fun _ => id) ?_
  rintro _ s ⟨⟨hs, hprev⟩, hnew⟩
  refine ⟨hs, fun i hi => ?_⟩
  rcases Nat.lt_succ_iff_lt_or_eq.mp hi with hi | rfl
  · exact hprev i hi
  · exact hnew

theorem load_bytes_safe (hP : LogStable P) (p n : Nat) :
    Safe (fun s => P s ∧ ∀ i < n, .check (ptr_add p i) ∈ s.trace) (load_bytes p n)
      (fun _ s => P s) := by
  induction n generalizing P with
  | zero => exact safe_pure fun _ hs => hs.1
  | succ n ih =>
    have hF := hP.and (logStable_checks (ptr_add p) (n + 1))
    refine safe_bind ((ih hF).pre fun s hs => ⟨hs, fun i hi => hs.2 i (by omega)⟩) fun _ => ?_
    refine safe_bind ((load_safe hF _).pre fun s hs => ⟨hs, hs.2 n (by omega)⟩) fun _ => ?_
    exact safe_pure fun _ hs => hs.1.1

theorem store_bytes_safe (p : Nat) (bs : List UInt8) :
    Safe (fun s : KState W File => ∀ i < bs.length,
        .check (ptr_add p i) ∈ s.trace ∧ s.mem.writable (ptr_add p i) = true)
      (store_bytes p bs) (fun _ _ => True) := by
  refine (safe_forRange (I := fun _ s => ∀ i < bs.length,
      .check (ptr_add p i) ∈ s.trace ∧ s.mem.writable (ptr_add p i) = true)
    fun k hk => ?_).conseq (fun _ => id) fun _ _ _ => trivial
  refine (store_safe _ _ ?_).pre fun s hs => ⟨hs, hs k hk⟩
  intro s hs i hi
  exact ⟨List.mem_cons_of_mem _ (hs i hi).1, (hs i hi).2⟩

/-- `validate_string`'s loop checks the string up to its terminator. It cannot run
out of fuel: each round checks one more byte, and none at or above `PHYS_BASE`
passes. -/
theorem validate_string_loop_safe (m : Mem) (fuel q : Nat) (hP : LogStable P)
    (hfuel : PHYS_BASE ≤ fuel + q) :
    Safe (fun s => P s ∧ s.mem = m ∧ .check q ∈ s.trace) (validate_string_loop fuel q)
      (fun _ s => P s ∧ s.mem = m ∧ StrChecked m s.trace q) := by
  induction fuel generalizing q P with
  | zero =>
    rintro s ⟨⟨-, -, hq⟩, hg⟩
    have := (hg.valid q hq).2.1
    omega
  | succ fuel ih =>
    have hF := hP.and ((logStable_mem (fun m' => m' = m)).and (logStable_check q))
    refine load_bind_safe hF (fun s hs => hs.2.1) (fun s hs => hs.2.2) ?_
    refine safe_ite (fun h0 => safe_pure fun s hs => ⟨hs.1, hs.2.1, .nul hs.2.2 h0⟩) fun h0 => ?_
    refine safe_bind (validate_pointer_safe hF _) fun _ => ?_
    rintro s ⟨⟨⟨hs, hm, hq⟩, hq1⟩, hg⟩
    have hnext : ptr_add q 1 = q + 1 := ptr_add_one_of_lt (hg.valid q hq).2.1
    -- the rest of the string, with the check of `q` carried in the frame
    have hrest := ih (ptr_add q 1) (hP.and (logStable_check q)) (by omega)
    refine (hrest.conseq (fun s hs => hs) ?_) s ⟨⟨⟨hs, hq⟩, hm, hq1⟩, hg⟩
    rintro _ t ⟨⟨ht, htq⟩, htm, hstr⟩
    exact ⟨ht, htm, .cons htq h0 hstr⟩

theorem validate_string_safe (m : Mem) (str : Nat) (hP : LogStable P) :
    Safe (fun s => P s ∧ s.mem = m) (validate_string str)
      (fun _ s => P s ∧ s.mem = m ∧ StrChecked m s.trace str) := by
  have hF := hP.and (logStable_mem (fun m' => m' = m))
  -- `if (str == NULL) exit (-1);` joins the rest of the body
  refine safe_ite (fun _ => safe_bind (safe_exit (Q := fun _ _ => False)) fun _ => safe_false)
    fun _ => ?_
  refine safe_bind ((validate_pointer_safe hF str).pre fun _ => id) fun _ => ?_
  exact (validate_string_loop_safe m PHYS_BASE str hP (by omega)).pre
    fun s hs => ⟨hs.1.1, hs.1.2, hs.2⟩

/-- Kernel code reads a validated string only where it was validated. -/
theorem read_cstring_safe (m : Mem) (fuel q : Nat) (hP : LogStable P) :
    Safe (fun s => P s ∧ s.mem = m ∧ StrChecked m s.trace q) (read_cstring fuel q)
      (fun _ s => P s ∧ s.mem = m) := by
  induction fuel generalizing q with
  | zero => exact safe_pure fun _ hs => ⟨hs.1, hs.2.1⟩
  | succ fuel ih =>
    have hF : LogStable fun s : KState W File => P s ∧ s.mem = m ∧ StrChecked m s.trace q :=
      hP.and ((logStable_mem (fun m' => m' = m)).and fun _ a h => h.log a)
    refine load_bind_safe hF (fun s hs => hs.2.1) (fun s hs => hs.2.2.check_head) ?_
    refine safe_ite (fun _ => safe_pure fun _ hs => ⟨hs.1, hs.2.1⟩) fun h0 => ?_
    refine safe_bind ((ih (ptr_add q 1)).pre fun s hs => ⟨hs.1, hs.2.1, hs.2.2.tail h0⟩)
      fun _ => safe_pure fun _ hs => hs

/-- The `i`-th argument word above the syscall number at `esp`. -/
def arg_word (m : Mem) (esp i : Nat) : Nat := m.word (ptr_add esp (4 * (i + 1)))

/-- `validate_set_args` checked the bytes of every argument word. -/
theorem wordChecked_arg {tr : List Access} {esp argc n : Nat} (hn : n < argc)
    (h : ∀ j < argc * 4, .check (ptr_add (ptr_add esp 4) j) ∈ tr) :
    WordChecked (ptr_add esp (4 * (n + 1))) tr := by
  have hword : ∀ k, k < 4 → ptr_add (ptr_add esp (4 * (n + 1))) k =
      ptr_add (ptr_add esp 4) (4 * n + k) := by
    intro k _
    rw [ptr_add_ptr_add, ptr_add_ptr_add]
    congr 1
    omega
  have hfirst : ptr_add esp (4 * (n + 1)) = ptr_add (ptr_add esp 4) (4 * n) := by
    rw [ptr_add_ptr_add]
    congr 1
    omega
  refine ⟨?_, ?_, ?_, ?_⟩
  · rw [hfirst]
    exact h _ (by omega)
  · rw [hword 1 (by omega)]
    exact h _ (by omega)
  · rw [hword 2 (by omega)]
    exact h _ (by omega)
  · rw [hword 3 (by omega)]
    exact h _ (by omega)

theorem retrive_args_loop_safe (m : Mem) (esp argc : Nat) (hP : LogStable P) (n : Nat)
    (hn : n ≤ argc) :
    Safe (fun s => P s ∧ s.mem = m ∧ ∀ j < argc * 4, .check (ptr_add (ptr_add esp 4) j) ∈ s.trace)
      (retrive_args_loop esp n)
      (fun argv s => (P s ∧ s.mem = m ∧
        ∀ j < argc * 4, .check (ptr_add (ptr_add esp 4) j) ∈ s.trace) ∧
        argv = (List.range n).map (arg_word m esp)) := by
  have hF := hP.and ((logStable_mem (fun m' => m' = m)).and
    (logStable_checks (ptr_add (ptr_add esp 4)) (argc * 4)))
  induction n with
  | zero => exact safe_pure fun _ hs => ⟨hs, rfl⟩
  | succ n ih =>
    refine safe_bind (ih (by omega)) fun argv => ?_
    refine (safe_of_prop fun hargv => ?_).pre fun s hs => ⟨hs.2, hs.1⟩
    subst hargv
    refine safe_bind (validate_pointer_safe hF _) fun _ => ?_
    refine safe_bind ((load_word_safe hF (fun s hs => hs.2.1)
      fun s hs => wordChecked_arg (by omega) hs.2.2).pre fun s hs => hs.1) fun a => ?_
    refine safe_pure fun s hs => ⟨hs.1, ?_⟩
    rw [hs.2, List.range_succ, List.map_append]
    rfl

theorem retrive_args1_safe (m : Mem) (esp argc : Nat) (hP : LogStable P) :
    Safe (fun s => P s ∧ s.mem = m) (retrive_args1 esp argc)
      (fun argv s => (P s ∧ s.mem = m) ∧ argv = (List.range argc).map (arg_word m esp)) := by
  have hF := hP.and (logStable_mem (fun m' => m' = m))
  refine safe_bind (validate_range_safe hF (ptr_add esp 4) (argc * 4)) fun _ => ?_
  refine (retrive_args_loop_safe m esp argc hP argc (Nat.le_refl argc)).conseq
    (fun s hs => ⟨hs.1.1, hs.1.2, hs.2⟩) fun _ _ h => ⟨⟨h.1.1, h.1.2.1⟩, h.2⟩

end Loops

/-! ## The calls -/

section Calls

variable (env : Env W File) {P : KState W File → Prop}

theorem logStable_true : LogStable fun _ : KState W File => True :=
  fun _ _ _ => trivial

/-- A safe call whose result is then returned. -/
theorem safe_call_pure {x : K W File α} {g : α → β}
    (h : Safe (fun _ => True) x (fun _ _ => True)) :
    Safe P (x >>= fun r => pure (g r)) (fun _ _ => True) :=
  safe_bind (h.pre fun _ _ => trivial) fun _ => safe_pure fun _ _ => trivial

theorem get_file_safe (fd : Int) :
    Safe P (get_file fd) (fun f s => P s ∧ f = s.fds.get_file fd) :=
  safe_get_bind fun _ => safe_pure fun _ hs => ⟨hs.1, by rw [hs.2]⟩

theorem exec_safe (cmd_line : Nat) : Safe (fun _ => True) (exec env cmd_line) (fun _ _ => True) := by
  refine safe_of_mem fun m => ?_
  refine safe_bind (validate_string_safe m cmd_line logStable_true) fun _ => ?_
  refine safe_bind (read_cstring_safe m _ cmd_line logStable_true) fun _ => ?_
  exact safe_service fun _ _ => trivial

theorem create_safe (file initial_size : Nat) :
    Safe (fun _ => True) (create env file initial_size) (fun _ _ => True) := by
  refine safe_of_mem fun m => ?_
  refine safe_bind (validate_string_safe m file logStable_true) fun _ => ?_
  refine safe_bind (read_cstring_safe m _ file logStable_true) fun _ => ?_
  exact safe_service fun _ _ => trivial

theorem open_safe (file_name : Nat) :
    Safe (fun _ => True) («open» env file_name) (fun _ _ => True) := by
  refine safe_of_mem fun m => ?_
  refine safe_bind (validate_string_safe m file_name logStable_true) fun _ => ?_
  -- the `next_fd` guard, then the name is read only if the table has room
  refine safe_get_bind fun _ => safe_ite (fun _ => safe_pure fun _ _ => trivial) fun _ => ?_
  refine safe_bind ((read_cstring_safe m _ file_name logStable_true).pre fun _ hs => hs.1)
    fun _ => ?_
  refine safe_bind (safe_service (Q := fun _ _ => True) fun _ _ => trivial) fun opened => ?_
  refine safe_get_bind fun t => ?_
  split
  exact safe_bind (safe_modify (Q := fun _ _ => True) (fun _ => ⟨rfl, rfl⟩) fun _ _ => trivial)
    fun _ => safe_pure fun _ _ => trivial

theorem close_safe (fd : Int) : Safe P (close fd : K W File Unit) (fun _ _ => True) :=
  safe_modify (fun _ => ⟨rfl, rfl⟩) fun _ _ => trivial

theorem write_safe (fd : Int) (buffer size : Nat) :
    Safe (fun _ => True) (write env fd buffer size) (fun _ _ => True) := by
  refine safe_bind (validate_range_safe logStable_true buffer size) fun _ => ?_
  refine safe_ite (fun _ => ?_) fun _ => ?_
  · -- `putbuf` of the validated buffer
    refine safe_bind (load_bytes_safe logStable_true buffer size) fun _ => ?_
    exact safe_bind (safe_modify (Q := fun _ _ => True) (fun _ => ⟨rfl, rfl⟩) fun _ _ => trivial)
      fun _ => safe_pure fun _ _ => trivial
  · refine safe_bind (get_file_safe fd) fun f => ?_
    rcases f with _ | f
    · exact safe_pure fun _ _ => trivial
    · refine safe_bind ((load_bytes_safe logStable_true buffer size).pre fun _ hs => hs.1)
        fun _ => ?_
      exact safe_service fun _ _ => trivial

/-- `read` from a file into a writable buffer. -/
theorem read_safe (m : Mem) (fd : Int) (buffer size : Nat) (hfd : fd ≠ 0)
    (hw : ∀ i < size, m.writable (ptr_add buffer i) = true) :
    Safe (fun s => s.mem = m) (read env fd buffer size) (fun _ _ => True) := by
  have hF : LogStable fun s : KState W File => s.mem = m := logStable_mem (fun m' => m' = m)
  refine safe_bind (validate_range_safe hF buffer size) fun _ => ?_
  refine safe_ite (fun h => absurd h hfd) fun _ => ?_
  refine safe_bind (get_file_safe fd) fun f => ?_
  rcases f with _ | f
  · exact safe_pure fun _ _ => trivial
  · -- `file_read` returns at most `size` bytes, stored into the validated buffer
    refine safe_bind (safe_service (Q := fun bs s => bs.length ≤ size ∧ s.mem = m ∧
      ∀ i < size, .check (ptr_add buffer i) ∈ s.trace) fun s hs =>
        ⟨Nat.le_trans (env.file_read_length f _ s.world) (toInt_toNat_le size), hs.1⟩) fun bs => ?_
    refine safe_bind ((store_bytes_safe buffer bs).pre fun s hs i hi => ?_)
      fun _ => safe_pure fun _ _ => trivial
    obtain ⟨hlen, hm, hchecks⟩ := hs
    refine ⟨hchecks i (by omega), ?_⟩
    rw [hm]
    exact hw i (by omega)

theorem filesize_safe (fd : Int) : Safe P (filesize env fd) (fun _ _ => True) := by
  refine safe_get_bind fun t => ?_
  split <;> exact safe_pure fun _ _ => trivial

/-- `seek` of an fd that is open. -/
theorem seek_safe (t : Fds File) (fd : Int) (position : Nat) (hfd : t.get_file fd ≠ none) :
    Safe (fun s => s.fds = t) (seek env fd position) (fun _ _ => True) := by
  refine safe_bind (get_file_safe fd) fun f => ?_
  rcases f with _ | f
  · rintro s ⟨⟨hs, hf⟩, -⟩
    rw [hs] at hf
    exact absurd hf.symm hfd
  · refine safe_get_bind fun _ => safe_ite (fun _ => safe_pure fun _ _ => trivial) fun _ => ?_
    exact safe_modify (fun _ => ⟨rfl, rfl⟩) fun _ _ => trivial

theorem tell_safe (fd : Int) : Safe P (tell env fd) (fun _ _ => True) := by
  refine safe_bind (get_file_safe fd) fun f => ?_
  rcases f with _ | f
  · exact safe_pure fun _ _ => trivial
  · exact safe_get_bind fun _ => safe_pure fun _ _ => trivial

theorem sleep_safe (millis : Int) : Safe P (sleep env millis) (fun _ _ => True) :=
  safe_modify (fun _ => ⟨rfl, rfl⟩) fun _ _ => trivial

end Calls

/-! ## The handler -/

section Handler

variable (env : Env W File)

/-- The calls the handler does not make safe, read off the stack as the handler
reads it: `remove`, whose name is never validated; `seek` of an fd that is not
open, which fails `ASSERT (f != NULL)`; and `read` from the keyboard, which
stores an `int` per byte, or into a buffer with a page that is not writable. -/
def Unsafe (esp : UInt32) (m : Mem) (t : Fds File) : Prop :=
  match SyscallNr.ofInt (toInt (m.word esp.toNat)) with
  | some .REMOVE => True
  | some .SEEK => t.get_file (toInt (arg_word m esp.toNat 0)) = none
  | some .READ => toInt (arg_word m esp.toNat 0) = 0 ∨
      ∃ i < arg_word m esp.toNat 2, m.writable (ptr_add (arg_word m esp.toNat 1) i) = false
  | _ => False

/-- Fetch `argc` arguments, then run code that is safe on their values. -/
theorem args_then_safe (m : Mem) (t : Fds File) {esp argc : Nat}
    {k : List Nat → K W File (Option Nat)}
    (hk : ∀ argv, argv = (List.range argc).map (arg_word m esp) →
      Safe (fun s => s.fds = t ∧ s.mem = m) (k argv) (fun _ _ => True)) :
    Safe (fun s => s.fds = t ∧ s.mem = m) (retrive_args1 esp argc >>= k) (fun _ _ => True) := by
  refine safe_bind (retrive_args1_safe m esp argc (logStable_fds (fun t' => t' = t)))
    fun argv => ?_
  exact (safe_of_prop fun hargv => hk argv hargv).pre fun s hs => ⟨hs.2, hs.1⟩


theorem syscall_handler_safe_at (esp : UInt32) (m : Mem) (t : Fds File)
    (hu : ¬ Unsafe esp m t) :
    Safe (fun s => s.fds = t ∧ s.mem = m) (syscall_handler env esp) (fun _ _ => True) := by
  have hF : LogStable fun s : KState W File => s.fds = t ∧ s.mem = m :=
    (logStable_fds (fun t' => t' = t)).and (logStable_mem (fun m' => m' = m))
  refine safe_bind (validate_range_safe hF esp.toNat 4) fun _ => ?_
  -- the syscall number: its four bytes were just validated
  have hesp : ptr_add esp.toNat 0 = esp.toNat := Nat.mod_eq_of_lt esp.toNat_lt
  refine safe_bind (load_word_safe (p := esp.toNat) (hF.and (logStable_checks _ 4))
    (fun s hs => hs.1.2) fun s hs => ⟨hesp ▸ hs.2 0 (by omega), hs.2 1 (by omega),
      hs.2 2 (by omega), hs.2 3 (by omega)⟩) fun w => ?_
  refine (safe_of_prop fun hw => ?_).pre fun s hs => ⟨hs.2, hs.1.1⟩
  subst hw
  unfold Unsafe at hu
  rcases hnum : SyscallNr.ofInt (toInt (m.word esp.toNat)) with _ | nr
  · -- not a system call number: the `default` branch
    exact safe_exit
  rw [hnum] at hu
  cases nr
  case HALT => exact safe_halt
  -- each call: fetch its arguments, then the call's own lemma
  case EXIT =>
    refine args_then_safe m t ?_
    exact fun _ _ => safe_exit
  case EXEC =>
    refine args_then_safe m t ?_
    exact fun _ _ => safe_call_pure (exec_safe env _)
  case WAIT =>
    refine args_then_safe m t ?_
    exact fun _ _ => safe_call_pure (safe_service fun _ _ => trivial)
  case CREATE =>
    refine args_then_safe m t ?_
    exact fun _ _ => safe_call_pure (create_safe env _ _)
  case REMOVE => exact absurd trivial hu
  case OPEN =>
    refine args_then_safe m t ?_
    exact fun _ _ => safe_call_pure (open_safe env _)
  case FILESIZE =>
    refine args_then_safe m t ?_
    exact fun _ _ => safe_call_pure (filesize_safe env _)
  case READ =>
    refine args_then_safe m t ?_
    rintro argv rfl
    -- neither the keyboard nor a read-only page
    have hfd : toInt (arg_word m esp.toNat 0) ≠ 0 := fun h => hu (Or.inl h)
    have hw : ∀ i < arg_word m esp.toNat 2,
        m.writable (ptr_add (arg_word m esp.toNat 1) i) = true := by
      intro i hi
      by_contra hne
      exact hu (Or.inr ⟨i, hi, by simpa using hne⟩)
    exact safe_bind ((read_safe env m _ _ _ hfd hw).pre fun _ hs => hs.2)
      fun _ => safe_pure fun _ _ => trivial
  case WRITE =>
    refine args_then_safe m t ?_
    exact fun _ _ => safe_call_pure (write_safe env _ _ _)
  case SEEK =>
    refine args_then_safe m t ?_
    rintro argv rfl
    exact safe_bind ((seek_safe env t _ _ hu).pre fun _ hs => hs.1)
      fun _ => safe_pure fun _ _ => trivial
  case TELL =>
    refine args_then_safe m t ?_
    exact fun _ _ => safe_call_pure (tell_safe env _)
  case CLOSE =>
    refine args_then_safe m t ?_
    exact fun _ _ => safe_bind (close_safe _) fun _ => safe_pure fun _ _ => trivial
  case SLEEP =>
    refine args_then_safe m t ?_
    exact fun _ _ => safe_bind (sleep_safe env _) fun _ => safe_pure fun _ _ => trivial
  -- `MMAP` to `INUMBER`: the `default` branch
  all_goals exact safe_exit

/-- For every stack pointer, memory, fd table and world, the handler keeps every
kernel access behind a passed `validate_pointer` and ends without a panic, except
on the paths `Unsafe` names. -/
theorem syscall_handler_safe (esp : UInt32) :
    Safe (fun s => ¬ Unsafe esp s.mem s.fds) (syscall_handler env esp) (fun _ _ => True) :=
  fun s hs => syscall_handler_safe_at env esp s.mem s.fds hs.1 s ⟨⟨rfl, rfl⟩, hs.2⟩

end Handler

/-! ## Where the handler crashes

A process image: a read-only code page at `0x8048000`, a writable data page after
it, nothing mapped above that up to the stack page, and the stack page below
`PHYS_BASE`, whose top four words hold a system call. The services succeed and
do nothing, the root directory holds one file, `a`, and the fd table is a new
thread's. -/

/-- The user stack pointer: four words below `PHYS_BASE`. -/
def crashEsp : UInt32 := 0xBFFFFFF0

def crashMem (words : List Nat) : Mem where
  mapped p := decide (0x8048000 ≤ p ∧ p < 0x804A000 ∨ PHYS_BASE - 4096 ≤ p)
  writable p := decide (0x8049000 ≤ p ∧ p < 0x804A000 ∨ PHYS_BASE - 4096 ≤ p)
  byte p :=
    if crashEsp.toNat ≤ p ∧ p < crashEsp.toNat + 16 then
      UInt8.ofNat (words.getD ((p - crashEsp.toNat) / 4) 0 / 2 ^ (8 * ((p - crashEsp.toNat) % 4)))
    else 0
  null_unmapped := by decide

def quietEnv : Env Unit Unit where
  process_execute _ w := (2, w)
  process_wait _ w := (0, w)
  filesys_create _ _ w := (true, w)
  dir_open_root _ := some [[0x61]]
  dir_remove _ w := (true, w)
  filesys_open _ w := (some (), w)
  file_length _ _ := 0
  file_read _ _ w := ([], w)
  file_write _ _ w := (0, w)
  file_seek _ _ w := w
  file_tell _ _ := 0
  input_getc w := (0x61, w)
  putbuf _ w := w
  timer_msleep _ w := w
  file_read_length _ _ _ := Nat.zero_le _

def crashState (words : List Nat) : KState Unit Unit := ⟨crashMem words, Fds.init, (), []⟩

/-- Each unsafe path crashes the kernel: `seek (5, 0)` with nothing open fails
`ASSERT (f != NULL)`; `remove (NULL)` fails `dir_remove`'s `ASSERT (name != NULL)`,
and `remove` of an unmapped name faults in `strcmp` against the file `a`;
`read (0, buffer, 1)` faults one page past a buffer that ends a page, and on a
read-only page. -/
theorem syscall_handler_crashes :
    (syscall_handler quietEnv crashEsp (crashState [10, 5, 0])).1 =
      .error (.panic .assertion) ∧
    (syscall_handler quietEnv crashEsp (crashState [5, 0])).1 =
      .error (.panic .assertion) ∧
    (syscall_handler quietEnv crashEsp (crashState [5, 0x804A000])).1 =
      .error (.panic (.pageFault 0x804A000)) ∧
    (syscall_handler quietEnv crashEsp (crashState [8, 0, 0x8049FFF, 1])).1 =
      .error (.panic (.pageFault 0x804A000)) ∧
    (syscall_handler quietEnv crashEsp (crashState [8, 0, 0x8048000, 1])).1 =
      .error (.panic (.pageFault 0x8048000)) := by
  decide

end Pintos.Syscall
