import Mathlib
import Pintos.Lib.String
import Pintos.Userprog.Syscall

/-!
# Argument passing

How a command line becomes a process: `process_execute` copies it into a page;
`init_thread` names the thread after it, and `load` opens the file of that name;
`start_process` splits the copy with `strtok_r` into at most `MAX_ARGC` tokens;
`push_args` lays them out on the new user stack for `main (argc, argv)`.

The page and the thread name are byte buffers as in `Pintos.Lib`. The user stack
is a byte map written downwards from `PHYS_BASE`, with a ghost record of the
ranges written and of the entries of the local array `argv_addr` written.
Bytes the code leaves as they were (the rest of the page after the copied
string, the padding on the stack) are never read by what follows.
-/

namespace Pintos.Args

open Pintos.Lib ListWords
open Pintos.Syscall (PHYS_BASE)

def PGSIZE : Nat := 4096

def MAX_ARGC : Nat := 32

/-- `" "`: the delimiters of every `strtok_r` call in argument passing. -/
def SPACE : List UInt8 := [32]

/-- `process_execute`: `strlcpy (cl_copy, cmd_line, PGSIZE)` into a new page. -/
def cmd_page (cmd_line : List UInt8) : List UInt8 :=
  strlcpy (List.replicate PGSIZE 0) cmd_line PGSIZE

/-- The name `init_thread` gives the thread, which `load` then opens: the
command line cut to `sizeof t->name = 16` bytes, then a `strtok_r` on the name
in place, whose token is not used. -/
def thread_name (name : List UInt8) : List UInt8 :=
  cstr (strtok_r (some 0) SPACE (strlcpy (List.replicate 16 NUL) name 16) 0).2.1 0

/-- The `for` loop of `start_process`: from `argc`, one more token per round with
`strtok_r (NULL, " ", &save_ptr)`, until `MAX_ARGC` tokens or a `NULL`, which is
stored too. Returns `argc`, `argv` and the page. -/
def start_process_loop :
    Nat → Nat → List (Option Nat) → List UInt8 → Nat → Nat × List (Option Nat) × List UInt8
  | 0, argc, argv, buf, _ => (argc, argv, buf)
  | fuel + 1, argc, argv, buf, save_ptr =>
    if argc < MAX_ARGC then
      let r := strtok_r none SPACE buf save_ptr
      if r.1 = none then (argc, argv ++ [r.1], r.2.1)
      else start_process_loop fuel (argc + 1) (argv ++ [r.1]) r.2.1 r.2.2
    else (argc, argv, buf)

/-- The tokenising part of `start_process`, on the page `cmd_line`. -/
def start_process_args (cmd_line : List UInt8) : Nat × List (Option Nat) × List UInt8 :=
  let r := strtok_r (some 0) SPACE cmd_line 0
  start_process_loop MAX_ARGC 1 [r.1] r.2.1 r.2.2

/-! ## Tokenising -/

/-- The tokens found so far: each entry of `argv` points at its word, which ends
at or before `save`. -/
def Found (buf : List UInt8) (save : Nat) (argv : List (Option Nat))
    (ws : List (List UInt8)) : Prop :=
  List.Forall₂ (fun o w => ∃ q, o = some q ∧ cstr buf q = w ∧ q + w.length ≤ save) argv ws

/-- Writes past the save pointer keep the tokens found. -/
theorem Found.frame {buf buf' : List UInt8} {save save' : Nat} {argv : List (Option Nat)}
    {ws : List (List UInt8)} (h : Found buf save argv ws) (hs : save ≤ save')
    (hbuf : buf' = buf ∨ ∃ e, save < e ∧ buf' = buf.set e NUL) : Found buf' save' argv ws := by
  refine h.imp fun o w ⟨q, ho, hq, hle⟩ => ⟨q, ho, ?_, by omega⟩
  rcases hbuf with rfl | ⟨e, he, rfl⟩
  · exact hq
  · rw [cstr_set_of_lt NUL (by rw [hq]; omega), hq]

theorem map_cstr_of_found {buf : List UInt8} {save : Nat} {argv : List (Option Nat)}
    {ws : List (List UInt8)} (h : Found buf save argv ws) :
    argv.map (Option.map (cstr buf)) = ws.map some := by
  induction h with
  | nil => rfl
  | cons hr _ ih =>
    obtain ⟨q, rfl, hq, -⟩ := hr
    simp [hq, ih]

/-- One more token, ending at or before the save pointer. -/
theorem Found.snoc {buf : List UInt8} {save q : Nat} {argv : List (Option Nat)}
    {ws : List (List UInt8)} {t : List UInt8} (h : Found buf save argv ws)
    (hq : cstr buf q = t) (hle : q + t.length ≤ save) :
    Found buf save (argv ++ [some q]) (ws ++ [t]) :=
  List.rel_append h (List.Forall₂.cons ⟨q, rfl, hq, hle⟩ List.Forall₂.nil)

/-- With `MAX_ARGC` tokens the loop does not run. -/
theorem start_process_loop_full {argc : Nat} (h : MAX_ARGC ≤ argc) (fuel : Nat)
    (argv : List (Option Nat)) (buf : List UInt8) (save : Nat) :
    start_process_loop fuel argc argv buf save = (argc, argv, buf) := by
  cases fuel with
  | zero => rfl
  | succ fuel => simp [start_process_loop, Nat.not_lt.mpr h]

/-- The loop of `start_process`, from a position where the rest of the command
line is `str`: it adds the words of `str` until it has `MAX_ARGC`, and stores the
`NULL` that stopped it, if one did. -/
theorem start_process_loop_spec {junk : List UInt8} (fuel : Nat) {argc : Nat}
    {argv : List (Option Nat)} {buf str : List UInt8} {save : Nat} {ws : List (List UInt8)}
    (hbuf : buf.drop save = str ++ NUL :: junk) (hstr : NUL ∉ str)
    (hfound : Found buf save argv ws) (hfuel : MAX_ARGC ≤ fuel + argc) :
    ∃ argv₁, (start_process_loop fuel argc argv buf save).1 =
        argc + min (words (isDelim SPACE) str).length (MAX_ARGC - argc) ∧
      (start_process_loop fuel argc argv buf save).2.1 = argv₁ ++
        (if (words (isDelim SPACE) str).length < MAX_ARGC - argc then [none] else []) ∧
      argv₁.map (Option.map (cstr (start_process_loop fuel argc argv buf save).2.2)) =
        (ws ++ (words (isDelim SPACE) str).take (MAX_ARGC - argc)).map some := by
  induction fuel generalizing argc argv buf str save ws with
  | zero =>
    have hfull : MAX_ARGC - argc = 0 := by omega
    rw [start_process_loop_full (by omega)]
    exact ⟨argv, by simp [hfull], by simp [hfull], by simp [hfull, map_cstr_of_found hfound]⟩
  | succ fuel ih =>
    by_cases hlt : argc < MAX_ARGC
    · rcases strtok_r_spec (s := none) SPACE hbuf hstr rfl with
        ⟨-, hw, htok⟩ | ⟨t, ws', q, buf', p', str', hw, htok, hq, hqpos, hle, hset, hdrop, hstr', hws', -⟩
      · -- a `NULL`: stored, and the loop stops
        have hrun : start_process_loop (fuel + 1) argc argv buf save = (argc, argv ++ [none], buf) := by
          simp [start_process_loop, hlt, htok]
        rw [hrun, hw]
        exact ⟨argv, by simp, by rw [List.length_nil, if_pos (Nat.sub_pos_of_lt hlt)],
          by simp [map_cstr_of_found hfound]⟩
      · -- a token: stored, and the loop goes on after it
        have hrun : start_process_loop (fuel + 1) argc argv buf save =
            start_process_loop fuel (argc + 1) (argv ++ [some q]) buf' p' := by
          simp [start_process_loop, hlt, htok]
        have hsave : save ≤ p' := by omega
        have hframe : buf' = buf ∨ ∃ e, save < e ∧ buf' = buf.set e NUL := by
          rcases hset with rfl | ⟨e, he, -, -, -, rfl⟩
          · exact Or.inl rfl
          · exact Or.inr ⟨e, he, rfl⟩
        have hfound' : Found buf' p' (argv ++ [some q]) (ws ++ [t]) :=
          (hfound.frame hsave hframe).snoc hq hle
        have hfuel' : MAX_ARGC ≤ fuel + (argc + 1) := by omega
        obtain ⟨argv₁, hargc, hargv, hstrs⟩ := ih hdrop hstr' hfound' hfuel'
        rw [hws'] at hargc hargv hstrs
        have hleft : MAX_ARGC - argc = MAX_ARGC - (argc + 1) + 1 := by omega
        rw [hrun, hw]
        refine ⟨argv₁, ?_, ?_, ?_⟩
        · rw [hargc, List.length_cons]
          omega
        · simp only [hargv, List.length_cons, hleft, Nat.add_lt_add_iff_right]
        · rw [hstrs, hleft, List.take_succ_cons, List.append_assoc, List.singleton_append]
    · -- `MAX_ARGC` tokens already
      have hfull : MAX_ARGC - argc = 0 := by omega
      rw [start_process_loop_full (by omega)]
      exact ⟨argv, by simp [hfull], by simp [hfull], by simp [hfull, map_cstr_of_found hfound]⟩

/-- `start_process` on a page holding the command line `str`: `argc` is the
number of its words, capped at `MAX_ARGC`; the first `argc` entries of `argv`
point at those words; and `argv [argc]` is `NULL` when there were fewer. -/
theorem start_process_args_spec {buf str junk : List UInt8} (hbuf : buf = str ++ NUL :: junk)
    (hstr : NUL ∉ str) (hne : words (isDelim SPACE) str ≠ []) :
    ∃ argv₁, (start_process_args buf).1 = min (words (isDelim SPACE) str).length MAX_ARGC ∧
      (start_process_args buf).2.1 = argv₁ ++
        (if (words (isDelim SPACE) str).length < MAX_ARGC then [none] else []) ∧
      argv₁.map (Option.map (cstr (start_process_args buf).2.2)) =
        ((words (isDelim SPACE) str).take MAX_ARGC).map some := by
  have hdrop : buf.drop 0 = str ++ NUL :: junk := hbuf
  rcases strtok_r_spec SPACE hdrop hstr (show (some 0).getD 0 = 0 from rfl) with
    ⟨-, hw, -⟩ | ⟨t, ws, q, buf', p', str', hw, htok, hq, -, hle, -, hdrop', hstr', hws', -⟩
  · exact absurd hw hne
  · have hfound : Found buf' p' [some q] [t] := Found.snoc List.Forall₂.nil hq hle
    obtain ⟨argv₁, hargc, hargv, hstrs⟩ :=
      start_process_loop_spec MAX_ARGC hdrop' hstr' hfound (show MAX_ARGC ≤ MAX_ARGC + 1 by omega)
    rw [hws'] at hargc hargv hstrs
    have hrun : start_process_args buf = start_process_loop MAX_ARGC 1 [some q] buf' p' := by
      simp [start_process_args, htok]
    rw [hrun, hw]
    refine ⟨argv₁, ?_, ?_, ?_⟩
    · rw [hargc, List.length_cons]
      simp only [MAX_ARGC]
      omega
    · rw [hargv]
      simp only [List.length_cons, MAX_ARGC]
      congr 2
      exact propext (by omega)
    · rw [hstrs]
      rfl

/-- A command line without a word: `argc` is 1 and `argv [0]` is `NULL`. -/
theorem start_process_args_blank {buf str junk : List UInt8} (hbuf : buf = str ++ NUL :: junk)
    (hstr : NUL ∉ str) (hblank : words (isDelim SPACE) str = []) :
    (start_process_args buf).1 = 1 ∧ (start_process_args buf).2.1 = [none, none] := by
  have hdrop : buf.drop 0 = str ++ NUL :: junk := hbuf
  rcases strtok_r_spec SPACE hdrop hstr (show (some 0).getD 0 = 0 from rfl) with
    ⟨-, -, htok⟩ | ⟨t, ws, -, -, -, -, hw, -⟩
  · -- the loop's first call finds the terminator too
    have hend : buf.drop (0 + str.length) = [] ++ NUL :: junk := by
      rw [Nat.zero_add, hbuf, List.drop_left]
      rfl
    have hrun : start_process_args buf =
        start_process_loop (31 + 1) 1 [none] buf (0 + str.length) := by
      rw [start_process_args, htok]
      rfl
    rcases strtok_r_spec (s := none) SPACE hend List.not_mem_nil rfl with
      ⟨-, -, htok'⟩ | ⟨t, ws, -, -, -, -, hw, -⟩
    · rw [hrun, start_process_loop, if_pos (by decide), htok']
      exact ⟨rfl, rfl⟩
    · simp at hw
  · rw [hblank] at hw
    exact absurd hw (List.cons_ne_nil t ws).symm

/-! ## The thread name -/

/-- The page `process_execute` fills: the command line cut to `PGSIZE - 1`
characters, and a terminator. -/
theorem cmd_page_eq (cmd_line : List UInt8) :
    ∃ junk, cmd_page cmd_line = cmd_line.take (PGSIZE - 1) ++ NUL :: junk :=
  ⟨_, strlcpy_of_pos (by decide)⟩

/-- The string on the page is the command line, when it fits. -/
theorem cstr_cmd_page {cmd_line : List UInt8} (hnul : NUL ∉ cmd_line)
    (hshort : cmd_line.length < PGSIZE) : cstr (cmd_page cmd_line) 0 = cmd_line := by
  obtain ⟨junk, hpage⟩ := cmd_page_eq cmd_line
  rw [List.take_of_length_le (by simp only [PGSIZE] at hshort ⊢; omega)] at hpage
  exact cstr_of_drop (by rw [List.drop_zero, hpage]) hnul

/-- The name `init_thread` gives a thread named `name`: the spaces in front of its
first 15 characters, then the first word of those. -/
theorem thread_name_spec {name : List UInt8} (hname : NUL ∉ name) :
    thread_name name = (name.take 15).takeWhile (isDelim SPACE) ++
      (words (isDelim SPACE) (name.take 15)).headD [] := by
  have hbuf : (strlcpy (List.replicate 16 NUL) name 16).drop 0 =
      name.take 15 ++ NUL :: (List.replicate 16 NUL).drop (min 15 name.length + 1) :=
    strlcpy_of_pos (by decide)
  have hstr : NUL ∉ name.take 15 := fun h => hname (List.mem_of_mem_take h)
  rcases strtok_r_spec SPACE hbuf hstr (show (some 0).getD 0 = 0 from rfl) with
    ⟨hall, hw, htok⟩ | ⟨t, ws, q, buf', p', str', hw, htok, hq, hqpos, -, hset, -⟩
  · -- spaces only: the name is left as it was
    rw [thread_name, htok, hw, List.takeWhile_eq_self_iff.mpr hall]
    simpa using cstr_of_drop hbuf hstr
  · -- the terminator `strtok_r` writes ends the name after its first word
    rw [thread_name, htok, hw, List.headD_cons]
    set lead := (name.take 15).takeWhile (isDelim SPACE) with hlead
    have hlead_nul : NUL ∉ lead := fun h => hstr ((List.takeWhile_sublist _).subset h)
    have hlead_take : (name.take 15).take lead.length = lead :=
      take_length_takeWhile _ _
    have hprefix : (buf'.drop 0).take lead.length = lead := by
      have hbuf_take : (strlcpy (List.replicate 16 NUL) name 16).take lead.length = lead := by
        rw [← List.drop_zero (l := strlcpy _ _ _), hbuf, List.take_append_of_le_length
          (List.takeWhile_sublist _).length_le, hlead_take]
      rcases hset with rfl | ⟨e, -, he, -, -, rfl⟩
      · exact hbuf_take
      · rw [List.drop_zero, List.take_set_of_le (by omega)]
        exact hbuf_take
    rw [cstr_of_take hprefix hlead_nul, Nat.zero_add, ← hq, hqpos, Nat.zero_add]

/-! ## The user stack -/

/-- The four bytes of a word, little-endian: what `memcpy` copies from a pointer
or an `unsigned`. -/
def wordBytes (w : Nat) : List UInt8 :=
  [UInt8.ofNat w, UInt8.ofNat (w / 2 ^ 8), UInt8.ofNat (w / 2 ^ 16), UInt8.ofNat (w / 2 ^ 24)]

/-- The user stack while `push_args` runs, with its local array `argv_addr`.
Ghost: the ranges `(address, length)` written, and the indices of `argv_addr`
written, newest first. -/
structure Stack where
  esp : Nat
  mem : Nat → UInt8
  argv_addr : Nat → Nat
  writes : List (Nat × Nat)
  slots : List Nat

/-- `*esp -= n; memcpy (*esp, src, n)` for the `n` bytes `bs`. -/
def Stack.push (st : Stack) (bs : List UInt8) : Stack :=
  { st with
    esp := st.esp - bs.length
    mem := fun x =>
      if st.esp - bs.length ≤ x ∧ x < st.esp then bs.getD (x - (st.esp - bs.length)) 0
      else st.mem x
    writes := (st.esp - bs.length, bs.length) :: st.writes }

/-- `argv_addr [i] = v`. -/
def Stack.set_slot (st : Stack) (i v : Nat) : Stack :=
  { st with argv_addr := Function.update st.argv_addr i v, slots := i :: st.slots }

/-- `*esp -= (size_t) *esp % 4`: the padding is not written. -/
def Stack.align (st : Stack) : Stack := { st with esp := st.esp - st.esp % 4 }

/-- The first loop of `push_args`: for `i` from `argc - 1` down to `0`, push the
string `argv [i]` with its terminator and keep its address in `argv_addr [i]`. -/
def push_strings (argv : List (List UInt8)) : Nat → Stack → Stack
  | 0, st => st
  | i + 1, st =>
    let st := st.push (argv.getD i [] ++ [NUL])
    push_strings argv i (st.set_slot i st.esp)

/-- The second loop: for `i` from `argc` down to `0`, push `argv_addr [i]`. -/
def push_pointers : Nat → Stack → Stack
  | 0, st => st.push (wordBytes (st.argv_addr 0))
  | i + 1, st => push_pointers i (st.push (wordBytes (st.argv_addr (i + 1))))

/-- `push_args (&esp, argc, argv)` on the strings of `argv`, with the word
`argv [argc]` of `start_process`'s array, which it copies as the return address,
as `ret`. -/
def push_args (argc : Nat) (argv : List (List UInt8)) (ret : Nat) (st : Stack) : Stack :=
  let st := ((push_strings argv argc st).align).set_slot argc 0
  let st := push_pointers argc st
  ((st.push (wordBytes st.esp)).push (wordBytes argc)).push (wordBytes ret)

/-- The word at `a`, little-endian, as `main` reads `argc`, `argv` and `argv [i]`. -/
def Stack.word (st : Stack) (a : Nat) : Nat :=
  (st.mem a).toNat + 2 ^ 8 * (st.mem (a + 1)).toNat + 2 ^ 16 * (st.mem (a + 2)).toNat +
    2 ^ 24 * (st.mem (a + 3)).toNat

/-- The `n` bytes at `a`. -/
def Stack.bytes (st : Stack) (a n : Nat) : List UInt8 := (List.range n).map fun k => st.mem (a + k)

/-! ## What the stack holds -/

/-- The strings `argv [0 .. i)` with their terminators, in address order. -/
def strImage (argv : List (List UInt8)) (i : Nat) : List UInt8 :=
  ((argv.take i).map (· ++ [NUL])).flatten

/-- The words `f 0, ..., f n`, in address order. -/
def ptrImage (f : Nat → Nat) : Nat → List UInt8
  | 0 => wordBytes (f 0)
  | n + 1 => ptrImage f n ++ wordBytes (f (n + 1))

/-- The stack from `esp` up to `top` holds `img`, where `none` is a byte left as
it was, and every write so far lies in that range. -/
structure Holds (st : Stack) (top : Nat) (img : List (Option UInt8)) : Prop where
  esp_add : st.esp + img.length = top
  byte : ∀ i b, img[i]? = some (some b) → st.mem (st.esp + i) = b
  writes : ∀ w ∈ st.writes, st.esp ≤ w.1 ∧ w.1 + w.2 ≤ top

@[simp] theorem length_wordBytes (w : Nat) : (wordBytes w).length = 4 := rfl

/-- Reading back a word: the bytes decode to it below `2 ^ 32`. -/
theorem wordBytes_decode {w : Nat} (hw : w < 2 ^ 32) :
    (UInt8.ofNat w).toNat + 2 ^ 8 * (UInt8.ofNat (w / 2 ^ 8)).toNat +
      2 ^ 16 * (UInt8.ofNat (w / 2 ^ 16)).toNat + 2 ^ 24 * (UInt8.ofNat (w / 2 ^ 24)).toNat = w := by
  simp only [UInt8.toNat_ofNat']
  omega

@[simp] theorem length_ptrImage (f : Nat → Nat) (n : Nat) :
    (ptrImage f n).length = 4 * (n + 1) := by
  induction n with
  | zero => rfl
  | succ n ih =>
    rw [ptrImage, List.length_append, ih, length_wordBytes]
    omega

theorem strImage_succ {argv : List (List UInt8)} {i : Nat} (hi : i < argv.length) :
    strImage argv (i + 1) = strImage argv i ++ (argv.getD i [] ++ [NUL]) := by
  rw [strImage, strImage, List.take_add_one, List.getD_eq_getElem?_getD,
    List.getElem?_eq_getElem hi, Option.getD_some]
  simp only [Option.toList_some, List.map_append, List.map_cons, List.map_nil,
    List.flatten_append, List.flatten_cons, List.flatten_nil, List.append_nil]

section Holds

variable {st : Stack} {top : Nat} {img : List (Option UInt8)}

theorem Holds.push (h : Holds st top img) {bs : List UInt8} (hbs : bs.length ≤ st.esp) :
    Holds (st.push bs) top (bs.map some ++ img) := by
  have htop := h.esp_add
  constructor
  · simp only [Stack.push, List.length_append, List.length_map]
    omega
  · intro i b hi
    simp only [Stack.push]
    by_cases hlt : i < bs.length
    · -- one of the bytes just written
      rw [List.getElem?_append_left (by simpa using hlt), List.getElem?_map,
        List.getElem?_eq_getElem hlt] at hi
      simp only [Option.map_some, Option.some.injEq] at hi
      rw [if_pos (by omega), Nat.add_sub_cancel_left, List.getD_eq_getElem?_getD,
        List.getElem?_eq_getElem hlt, Option.getD_some, hi]
    · -- a byte above them, as it was
      rw [List.getElem?_append_right (by simpa using hlt), List.length_map] at hi
      rw [if_neg (by omega), show st.esp - bs.length + i = st.esp + (i - bs.length) by omega]
      exact h.byte _ b hi
  · intro w hw
    rcases List.mem_cons.mp hw with rfl | hw
    · constructor <;> simp only [Stack.push] <;> omega
    · have := h.writes w hw
      simp only [Stack.push]
      omega

theorem Holds.align (h : Holds st top img) :
    Holds st.align top (List.replicate (st.esp % 4) none ++ img) := by
  have htop := h.esp_add
  have hmod : st.esp % 4 ≤ st.esp := Nat.mod_le _ _
  constructor
  · simp only [Stack.align, List.length_append, List.length_replicate]
    omega
  · intro i b hi
    by_cases hlt : i < st.esp % 4
    · rw [List.getElem?_append_left (by simpa using hlt), List.getElem?_replicate_of_lt hlt] at hi
      cases hi
    · rw [List.getElem?_append_right (by simpa using hlt), List.length_replicate] at hi
      simp only [Stack.align]
      rw [show st.esp - st.esp % 4 + i = st.esp + (i - st.esp % 4) by omega]
      exact h.byte _ b hi
  · intro w hw
    have := h.writes w hw
    simp only [Stack.align]
    omega

theorem Holds.set_slot (h : Holds st top img) (i v : Nat) : Holds (st.set_slot i v) top img :=
  ⟨h.esp_add, h.byte, h.writes⟩

/-- A word that the image holds is read back. -/
theorem Holds.word_at {pre rest : List (Option UInt8)} {w : Nat}
    (h : Holds st top (pre ++ (wordBytes w).map some ++ rest)) (hw : w < 2 ^ 32) :
    st.word (st.esp + pre.length) = w := by
  have hbyte : ∀ k, k < 4 → ∀ b, (wordBytes w)[k]? = some b →
      st.mem (st.esp + pre.length + k) = b := by
    intro k hk b hb
    rw [Nat.add_assoc]
    apply h.byte
    rw [List.append_assoc, List.getElem?_append_right (by omega), Nat.add_sub_cancel_left,
      List.getElem?_append_left (by simpa using hk), List.getElem?_map, hb]
    rfl
  have h0 := hbyte 0 (by decide) _ rfl
  rw [Nat.add_zero] at h0
  rw [Stack.word, h0, hbyte 1 (by decide) _ rfl, hbyte 2 (by decide) _ rfl,
    hbyte 3 (by decide) _ rfl]
  exact wordBytes_decode hw

/-- Bytes that the image holds are read back. -/
theorem Holds.bytes_at {pre rest : List (Option UInt8)} {bs : List UInt8}
    (h : Holds st top (pre ++ bs.map some ++ rest)) :
    st.bytes (st.esp + pre.length) bs.length = bs := by
  apply List.ext_getElem (by simp [Stack.bytes])
  intro k hk hk'
  simp only [Stack.bytes, List.getElem_map, List.getElem_range]
  rw [Nat.add_assoc]
  apply h.byte
  rw [List.append_assoc, List.getElem?_append_right (by omega), Nat.add_sub_cancel_left,
    List.getElem?_append_left (by simpa using hk'), List.getElem?_map, List.getElem?_eq_getElem hk']
  rfl

end Holds

/-! ## The loops of `push_args` -/

section Loops

variable {argv : List (List UInt8)} {st : Stack} {top : Nat} {img : List (Option UInt8)}

theorem length_strImage_succ {i : Nat} (hi : i < argv.length) :
    (strImage argv (i + 1)).length = (strImage argv i).length + ((argv.getD i []).length + 1) := by
  rw [strImage_succ hi, List.length_append, List.length_append, List.length_singleton]

/-- String `j` sits in the strings of `argv [0 .. i)` right after those before it. -/
theorem strImage_split {i j : Nat} (hj : j < i) (hi : i ≤ argv.length) :
    ∃ post, strImage argv i = strImage argv j ++ (argv.getD j [] ++ [NUL]) ++ post := by
  induction i with
  | zero => omega
  | succ i ih =>
    rw [strImage_succ (by omega)]
    by_cases hji : j = i
    · exact ⟨[], by rw [hji, List.append_nil]⟩
    · obtain ⟨post, hpost⟩ := ih (by omega) (by omega)
      exact ⟨post ++ (argv.getD i [] ++ [NUL]), by rw [hpost]; simp⟩

/-- Word `j` of `f 0, ..., f n` sits `4 * j` bytes in. -/
theorem ptrImage_split (f : Nat → Nat) {n j : Nat} (hj : j ≤ n) :
    ∃ pre post, ptrImage f n = pre ++ wordBytes (f j) ++ post ∧ pre.length = 4 * j := by
  induction n with
  | zero =>
    obtain rfl : j = 0 := by omega
    exact ⟨[], [], by simp [ptrImage], rfl⟩
  | succ n ih =>
    by_cases hjn : j = n + 1
    · subst hjn
      exact ⟨ptrImage f n, [], by simp [ptrImage], by simp⟩
    · obtain ⟨pre, post, hsplit, hpre⟩ := ih (by omega)
      exact ⟨pre, post ++ wordBytes (f (n + 1)), by rw [ptrImage, hsplit]; simp, hpre⟩

/-- One round of the first loop: push string `i`, keep its address. -/
theorem push_strings_succ (i : Nat) (st : Stack) :
    push_strings argv (i + 1) st =
      push_strings argv i ((st.push (argv.getD i [] ++ [NUL])).set_slot i
        (st.esp - ((argv.getD i []).length + 1))) := by
  simp [push_strings, Stack.push]

@[simp] theorem set_slot_esp (st : Stack) (i v : Nat) : (st.set_slot i v).esp = st.esp := rfl

@[simp] theorem set_slot_argv_addr (st : Stack) (i v : Nat) :
    (st.set_slot i v).argv_addr = Function.update st.argv_addr i v := rfl

@[simp] theorem push_argv_addr (st : Stack) (bs : List UInt8) :
    (st.push bs).argv_addr = st.argv_addr := rfl

@[simp] theorem align_esp (st : Stack) : st.align.esp = st.esp - st.esp % 4 := rfl

@[simp] theorem push_esp (st : Stack) (bs : List UInt8) :
    (st.push bs).esp = st.esp - bs.length := rfl

/-- The first loop lowers `esp` by the length of the strings. -/
theorem push_strings_esp {i : Nat} (hi : i ≤ argv.length)
    (hfit : (strImage argv i).length ≤ st.esp) :
    (push_strings argv i st).esp + (strImage argv i).length = st.esp := by
  induction i generalizing st with
  | zero => rfl
  | succ i ih =>
    have hlen := @length_strImage_succ argv i (by omega)
    rw [push_strings_succ, hlen]
    have hroom : (strImage argv i).length ≤
        ((st.push (argv.getD i [] ++ [NUL])).set_slot i (st.esp - ((argv.getD i []).length + 1))).esp := by
      simp only [set_slot_esp, push_esp, List.length_append, List.length_singleton]
      omega
    have hnext := @ih ((st.push (argv.getD i [] ++ [NUL])).set_slot i
      (st.esp - ((argv.getD i []).length + 1))) (by omega) hroom
    simp only [set_slot_esp, push_esp, List.length_append, List.length_singleton] at hnext
    omega

/-- The first loop pushes the strings `argv [0 .. i)`, in address order. -/
theorem push_strings_holds {i : Nat} (hi : i ≤ argv.length) (h : Holds st top img)
    (hfit : (strImage argv i).length ≤ st.esp) :
    Holds (push_strings argv i st) top ((strImage argv i).map some ++ img) := by
  induction i generalizing st img with
  | zero => simpa [push_strings, strImage] using h
  | succ i ih =>
    have hlen := @length_strImage_succ argv i (by omega)
    have hroom : (argv.getD i [] ++ [NUL]).length ≤ st.esp := by
      rw [List.length_append, List.length_singleton]
      omega
    have hpush := (h.push hroom).set_slot i (st.esp - ((argv.getD i []).length + 1))
    have hnext := ih (by omega) hpush (by
      simp only [set_slot_esp, push_esp, List.length_append, List.length_singleton]
      omega)
    rw [push_strings_succ, strImage_succ (by omega), List.map_append, List.append_assoc]
    exact hnext

/-- After the first loop, `argv_addr [j]` is the address of string `j`. -/
theorem push_strings_addr {i : Nat} (hi : i ≤ argv.length)
    (hfit : (strImage argv i).length ≤ st.esp) (j : Nat) :
    (push_strings argv i st).argv_addr j =
      if j < i then (push_strings argv i st).esp + (strImage argv j).length
      else st.argv_addr j := by
  induction i generalizing st with
  | zero => simp [push_strings]
  | succ i ih =>
    have hlen := @length_strImage_succ argv i (by omega)
    have hfit1 : (strImage argv i).length ≤ st.esp - ((argv.getD i []).length + 1) := by omega
    have hroom : (strImage argv i).length ≤
        ((st.push (argv.getD i [] ++ [NUL])).set_slot i (st.esp - ((argv.getD i []).length + 1))).esp := by
      simp only [set_slot_esp, push_esp, List.length_append, List.length_singleton]
      omega
    have hesp := push_strings_esp (by omega) hroom
    simp only [set_slot_esp, push_esp, List.length_append, List.length_singleton] at hesp
    rw [push_strings_succ, ih (by omega) hroom]
    by_cases hji : j < i
    · rw [if_pos hji, if_pos (by omega)]
    · -- string `i` was the round's own; later rounds leave its slot alone
      rw [if_neg hji, set_slot_argv_addr, push_argv_addr, Function.update_apply]
      by_cases hj : j = i
      · rw [if_pos hj, if_pos (by omega), hj]
        omega
      · rw [if_neg hj, if_neg (by omega)]

theorem push_strings_slots (i : Nat) (st : Stack) :
    (push_strings argv i st).slots = List.range i ++ st.slots := by
  induction i generalizing st with
  | zero => rfl
  | succ i ih =>
    rw [push_strings_succ, ih, List.range_succ]
    simp [Stack.set_slot, Stack.push]

/-- The second loop pushes `argv_addr [0 .. n]`, in address order. -/
theorem push_pointers_holds {n : Nat} (h : Holds st top img) (hfit : 4 * (n + 1) ≤ st.esp) :
    Holds (push_pointers n st) top ((ptrImage st.argv_addr n).map some ++ img) := by
  induction n generalizing st img with
  | zero => exact h.push (by simpa using hfit)
  | succ n ih =>
    have hpush := h.push (show (wordBytes (st.argv_addr (n + 1))).length ≤ st.esp by
      rw [length_wordBytes]
      omega)
    have := ih hpush (by rw [push_esp, length_wordBytes]; omega)
    rw [push_pointers, ptrImage, List.map_append, List.append_assoc]
    exact this

theorem push_pointers_argv_addr (n : Nat) (st : Stack) :
    (push_pointers n st).argv_addr = st.argv_addr ∧ (push_pointers n st).slots = st.slots := by
  induction n generalizing st with
  | zero => exact ⟨rfl, rfl⟩
  | succ n ih => exact ih _

theorem push_pointers_esp (n : Nat) (st : Stack) :
    (push_pointers n st).esp = st.esp - 4 * (n + 1) := by
  induction n generalizing st with
  | zero => rfl
  | succ n ih =>
    rw [push_pointers, ih, push_esp, length_wordBytes]
    omega

end Loops

/-! ## The stack `push_args` builds -/

/-- The stack `setup_stack` makes: a zeroed page, with `esp` at `PHYS_BASE`. -/
def stack0 : Stack := ⟨PHYS_BASE, fun _ => 0, fun _ => 0, [], []⟩

section PushArgs

variable {argc : Nat} {argv : List (List UInt8)} {st : Stack}

/-- The stack `push_args` leaves, from `esp` up: the return address, `argc`,
`argv`, the pointers `argv_addr [0 .. argc]`, the padding and the strings. -/
theorem push_args_holds (ret : Nat) (hlen : argv.length = argc) (hwrites : st.writes = [])
    (hfit : (strImage argv argc).length + 4 * argc + 19 ≤ st.esp) :
    Holds (push_args argc argv ret st) st.esp
      ((wordBytes ret ++ wordBytes argc ++
          wordBytes (push_pointers argc ((push_strings argv argc st).align.set_slot argc 0)).esp ++
          ptrImage ((push_strings argv argc st).align.set_slot argc 0).argv_addr argc).map some ++
        List.replicate ((push_strings argv argc st).esp % 4) none ++
        (strImage argv argc).map some) := by
  have h0 : Holds st st.esp [] := ⟨by simp, by simp, by simp [hwrites]⟩
  have hesp1 := push_strings_esp (le_of_eq hlen.symm) (show (strImage argv argc).length ≤ st.esp by omega)
  have h3 := ((push_strings_holds (le_of_eq hlen.symm) h0 (by omega)).align).set_slot argc 0
  have hpad : (push_strings argv argc st).esp % 4 < 4 := Nat.mod_lt _ (by decide)
  have h4 := push_pointers_holds (n := argc) h3 (by rw [set_slot_esp, align_esp]; omega)
  have hesp4 := push_pointers_esp argc ((push_strings argv argc st).align.set_slot argc 0)
  rw [set_slot_esp, align_esp] at hesp4
  set st4 := push_pointers argc ((push_strings argv argc st).align.set_slot argc 0)
  -- the last three words: `argv`, `argc` and the return address
  have h5 := h4.push (show (wordBytes st4.esp).length ≤ st4.esp by rw [length_wordBytes]; omega)
  have h6 := h5.push (show (wordBytes argc).length ≤ (st4.push (wordBytes st4.esp)).esp by
    simp only [push_esp, length_wordBytes]
    omega)
  have h7 := h6.push (show (wordBytes ret).length ≤
      ((st4.push (wordBytes st4.esp)).push (wordBytes argc)).esp by
    simp only [push_esp, length_wordBytes]
    omega)
  simpa [push_args, List.append_assoc] using h7

/-- Where `push_args` leaves `esp`: below the strings, the padding to a multiple of
4, the `argc + 1` pointers and three more words. -/
theorem push_args_esp (ret : Nat) (hlen : argv.length = argc)
    (hfit : (strImage argv argc).length + 4 * argc + 19 ≤ st.esp) :
    (push_args argc argv ret st).esp + 12 + 4 * (argc + 1) +
      (st.esp - (strImage argv argc).length) % 4 + (strImage argv argc).length = st.esp := by
  have hesp1 := push_strings_esp (le_of_eq hlen.symm) (show (strImage argv argc).length ≤ st.esp by omega)
  have hpad : (push_strings argv argc st).esp % 4 < 4 := Nat.mod_lt _ (by decide)
  have hesp4 := push_pointers_esp argc ((push_strings argv argc st).align.set_slot argc 0)
  rw [set_slot_esp, align_esp] at hesp4
  have hrun : (push_args argc argv ret st).esp =
      (push_pointers argc ((push_strings argv argc st).align.set_slot argc 0)).esp - 12 := by
    simp only [push_args, push_esp, length_wordBytes]
    omega
  rw [show st.esp - (strImage argv argc).length = (push_strings argv argc st).esp by omega]
  omega

/-- The three words at the final `esp`: the return address, `argc`, and `argv`,
which points just above them and is aligned. -/
theorem push_args_words (ret : Nat) (hlen : argv.length = argc) (hwrites : st.writes = [])
    (hfit : (strImage argv argc).length + 4 * argc + 19 ≤ st.esp) (htop : st.esp ≤ 2 ^ 32)
    (hret : ret < 2 ^ 32) :
    (push_args argc argv ret st).word (push_args argc argv ret st).esp = ret ∧
    (push_args argc argv ret st).word ((push_args argc argv ret st).esp + 4) = argc ∧
    (push_args argc argv ret st).word ((push_args argc argv ret st).esp + 8) =
      (push_args argc argv ret st).esp + 12 ∧
    ((push_args argc argv ret st).esp + 12) % 4 = 0 := by
  have h := push_args_holds ret hlen hwrites hfit
  have hesp := push_args_esp ret hlen hfit
  have hesp1 := push_strings_esp (le_of_eq hlen.symm)
    (show (strImage argv argc).length ≤ st.esp by omega)
  have hesp4 := push_pointers_esp argc ((push_strings argv argc st).align.set_slot argc 0)
  rw [set_slot_esp, align_esp] at hesp4
  have hpad : (push_strings argv argc st).esp % 4 < 4 := Nat.mod_lt _ (by decide)
  -- `argv` is the `esp` after the pointers, twelve bytes above the final one
  have hargv : (push_pointers argc ((push_strings argv argc st).align.set_slot argc 0)).esp =
      (push_args argc argv ret st).esp + 12 := by
    rw [show st.esp - (strImage argv argc).length = (push_strings argv argc st).esp by omega]
      at hesp
    omega
  rw [hargv] at h
  refine ⟨?_, ?_, ?_, ?_⟩
  · have h0 := (show Holds _ _ ([] ++ (wordBytes ret).map some ++ _) by simpa using h).word_at hret
    simpa using h0
  · have h4 := (show Holds _ _ ((wordBytes ret).map some ++ (wordBytes argc).map some ++ _) by
      simpa using h).word_at (show argc < 2 ^ 32 by omega)
    simpa using h4
  · have h8 := (show Holds _ _ ((wordBytes ret ++ wordBytes argc).map some ++
        (wordBytes ((push_args argc argv ret st).esp + 12)).map some ++ _) by
      simpa using h).word_at (show (push_args argc argv ret st).esp + 12 < 2 ^ 32 by omega)
    simpa using h8
  · rw [← hargv, hesp4]
    omega

/-- `argv_addr` as the second loop reads it: the address of string `i` for
`i < argc`, and the null pointer at `argc`. -/
theorem push_args_argv_addr (hlen : argv.length = argc)
    (hfit : (strImage argv argc).length ≤ st.esp) {i : Nat} (hi : i ≤ argc) :
    ((push_strings argv argc st).align.set_slot argc 0).argv_addr i =
      if i < argc then (push_strings argv argc st).esp + (strImage argv i).length else 0 := by
  rw [set_slot_argv_addr, Function.update_apply]
  by_cases hia : i = argc
  · rw [if_pos hia, if_neg (by omega)]
  · rw [if_neg hia, if_pos (by omega)]
    exact (push_strings_addr (le_of_eq hlen.symm) hfit i).trans (if_pos (by omega))

/-- The array `argv` points at: for `i < argc`, `argv [i]` points at string `i`
with its terminator, and `argv [argc]` is a null pointer. -/
theorem push_args_argv (ret : Nat) (hlen : argv.length = argc) (hwrites : st.writes = [])
    (hfit : (strImage argv argc).length + 4 * argc + 19 ≤ st.esp) (htop : st.esp ≤ 2 ^ 32) :
    (∀ i < argc, (push_args argc argv ret st).bytes
        ((push_args argc argv ret st).word ((push_args argc argv ret st).esp + 12 + 4 * i))
        ((argv.getD i []).length + 1) = argv.getD i [] ++ [NUL]) ∧
    (push_args argc argv ret st).word ((push_args argc argv ret st).esp + 12 + 4 * argc) = 0 := by
  have h := push_args_holds ret hlen hwrites hfit
  have hesp := push_args_esp ret hlen hfit
  have hesp1 := push_strings_esp (le_of_eq hlen.symm)
    (show (strImage argv argc).length ≤ st.esp by omega)
  rw [show st.esp - (strImage argv argc).length = (push_strings argv argc st).esp by omega]
    at hesp
  -- the word `argv [i]` is `argv_addr [i]`
  have hptr : ∀ i ≤ argc,
      (push_args argc argv ret st).word ((push_args argc argv ret st).esp + 12 + 4 * i) =
        ((push_strings argv argc st).align.set_slot argc 0).argv_addr i := by
    intro i hi
    have haddr := push_args_argv_addr hlen (show (strImage argv argc).length ≤ st.esp by omega) hi
    have hS : i < argc → (strImage argv i).length < (strImage argv argc).length := by
      intro hia
      obtain ⟨post, hpost⟩ := strImage_split hia (le_of_eq hlen.symm)
      rw [hpost]
      simp only [List.length_append, List.length_singleton]
      omega
    obtain ⟨pre, post, hsplit, hpre⟩ :=
      ptrImage_split ((push_strings argv argc st).align.set_slot argc 0).argv_addr hi
    rw [hsplit] at h
    have hword := (show Holds _ _ ((wordBytes ret ++ wordBytes argc ++
        wordBytes (push_pointers argc ((push_strings argv argc st).align.set_slot argc 0)).esp ++
        pre).map some ++
        (wordBytes (((push_strings argv argc st).align.set_slot argc 0).argv_addr i)).map some ++
        _) by simpa using h).word_at (by
      rw [haddr]
      split
      · have := hS ‹_›
        omega
      · omega)
    simp only [List.length_append, List.length_map, length_wordBytes, hpre] at hword
    convert hword using 2
    omega
  refine ⟨fun i hi => ?_, ?_⟩
  · rw [hptr i (by omega), push_args_argv_addr hlen (by omega) (by omega), if_pos hi]
    obtain ⟨post, hpost⟩ := strImage_split hi (le_of_eq hlen.symm)
    rw [hpost] at h
    have hstr := (show Holds _ _ ((wordBytes ret ++ wordBytes argc ++
        wordBytes (push_pointers argc ((push_strings argv argc st).align.set_slot argc 0)).esp ++
        ptrImage ((push_strings argv argc st).align.set_slot argc 0).argv_addr argc).map some ++
        List.replicate ((push_strings argv argc st).esp % 4) none ++
        (strImage argv i).map some ++ (argv.getD i [] ++ [NUL]).map some ++ post.map some) by
      simpa using h).bytes_at
    have hpos : (push_args argc argv ret st).esp + ((wordBytes ret ++ wordBytes argc ++
        wordBytes (push_pointers argc ((push_strings argv argc st).align.set_slot argc 0)).esp ++
        ptrImage ((push_strings argv argc st).align.set_slot argc 0).argv_addr argc).map some ++
        List.replicate ((push_strings argv argc st).esp % 4) none ++
        (strImage argv i).map some).length =
        (push_strings argv argc st).esp + (strImage argv i).length := by
      simp only [List.length_append, List.length_map, length_wordBytes, length_ptrImage,
        List.length_replicate]
      omega
    rw [hpos] at hstr
    simpa using hstr
  · rw [hptr argc le_rfl, push_args_argv_addr hlen (by omega) le_rfl, if_neg (Nat.lt_irrefl _)]

/-- Every range `push_args` writes lies between its final `esp` and where `esp`
started; the last one, the return address, starts at the final `esp`. -/
theorem push_args_writes (ret : Nat) (hlen : argv.length = argc) (hwrites : st.writes = [])
    (hfit : (strImage argv argc).length + 4 * argc + 19 ≤ st.esp) :
    ((push_args argc argv ret st).esp, 4) ∈ (push_args argc argv ret st).writes ∧
    ∀ w ∈ (push_args argc argv ret st).writes,
      (push_args argc argv ret st).esp ≤ w.1 ∧ w.1 + w.2 ≤ st.esp :=
  ⟨List.mem_cons_self, (push_args_holds ret hlen hwrites hfit).writes⟩

/-- The slots of `argv_addr` that `push_args` writes: `0 .. argc - 1` in the
first loop, then `argc`. -/
theorem push_args_slots (argc : Nat) (argv : List (List UInt8)) (ret : Nat) (st : Stack) :
    (push_args argc argv ret st).slots = argc :: (List.range argc ++ st.slots) := by
  show (push_pointers argc ((push_strings argv argc st).align.set_slot argc 0)).slots = _
  rw [(push_pointers_argv_addr _ _).2]
  show argc :: (push_strings argv argc st).slots = _
  rw [push_strings_slots]

/-- `push_args` from `PHYS_BASE` writes only inside the page below it exactly
when the stack it builds fits in a page. -/
theorem push_args_in_page_iff (ret : Nat) (hlen : argv.length = argc) (hwrites : st.writes = [])
    (hfit : (strImage argv argc).length + 4 * argc + 19 ≤ st.esp) (hesp : st.esp = PHYS_BASE) :
    (∀ w ∈ (push_args argc argv ret st).writes, PHYS_BASE - PGSIZE ≤ w.1 ∧ w.1 + w.2 ≤ PHYS_BASE) ↔
      12 + 4 * (argc + 1) + (PHYS_BASE - (strImage argv argc).length) % 4 +
        (strImage argv argc).length ≤ PGSIZE := by
  have hw := push_args_writes ret hlen hwrites hfit
  have hsize := push_args_esp ret hlen hfit
  rw [hesp] at hsize hw
  constructor
  · intro hpage
    have := hpage _ hw.1
    simp only [PHYS_BASE, PGSIZE] at this hsize ⊢
    omega
  · intro hle w hmem
    have := hw.2 w hmem
    simp only [PHYS_BASE, PGSIZE] at this hsize hle ⊢
    omega

end PushArgs

/-- `echo x`, pushed from `PHYS_BASE`. -/
theorem push_args_in_page_iff_echo :
    [[101, 99, 104, 111], [120]].length = 2 ∧ stack0.writes = [] ∧
    (strImage [[101, 99, 104, 111], [120]] 2).length + 4 * 2 + 19 ≤ stack0.esp ∧
    stack0.esp = PHYS_BASE ∧
    ((∀ w ∈ (push_args 2 [[101, 99, 104, 111], [120]] 0 stack0).writes,
        PHYS_BASE - PGSIZE ≤ w.1 ∧ w.1 + w.2 ≤ PHYS_BASE) ↔
      12 + 4 * (2 + 1) + (PHYS_BASE - (strImage [[101, 99, 104, 111], [120]] 2).length) % 4 +
        (strImage [[101, 99, 104, 111], [120]] 2).length ≤ PGSIZE) :=
  ⟨rfl, rfl, by decide, rfl, @push_args_in_page_iff 2 _ stack0 0 rfl rfl (by decide) rfl⟩

/-! ## From the command line to the stack -/

/-- `start_process` once `load` has succeeded: the tokens of the page, pushed by
`push_args` onto the stack `st` that `setup_stack` made, with the word
`argv [argc]` of its array as `ret`. Returns `argc` and the stack, or `none` where
one of the first `argc` entries of `argv` is `NULL`: `strlen (NULL)` faults in the
kernel. -/
def start_process_stack (page : List UInt8) (ret : Nat) (st : Stack) : Option (Nat × Stack) :=
  let r := start_process_args page
  let argv := r.2.1.take r.1
  if argv.all Option.isSome then
    some (r.1, push_args r.1 (argv.map fun o => cstr r.2.2 (o.getD 0)) ret st)
  else none

theorem length_strImage_le (argv : List (List UInt8)) (n : Nat) :
    (strImage argv n).length ≤ (argv.map List.length).sum + n := by
  induction argv generalizing n with
  | nil => simp [strImage]
  | cons w argv ih =>
    cases n with
    | zero => simp [strImage]
    | succ n =>
      have hrest := ih n
      have hcons : strImage (w :: argv) (n + 1) = (w ++ [NUL]) ++ strImage argv n := by
        simp [strImage]
      rw [hcons, List.length_append, List.length_append, List.length_singleton, List.map_cons,
        List.sum_cons]
      omega

/-- The entries of `argv` that `start_process` found are all tokens. -/
theorem isSome_of_map_cstr {page : List UInt8} {argv : List (Option Nat)}
    {ws : List (List UInt8)} (h : argv.map (Option.map (cstr page)) = ws.map some) :
    ∀ o ∈ argv, o.isSome := by
  intro o ho
  have hmem : Option.map (cstr page) o ∈ ws.map some := h ▸ List.mem_map_of_mem ho
  obtain ⟨w, -, hw⟩ := List.mem_map.mp hmem
  cases o with
  | none => cases hw
  | some q => rfl

/-- After a successful `load`, `start_process` builds with `push_args` the stack
of the first `MAX_ARGC` words of the command line. -/
theorem start_process_stack_spec {cmd_line : List UInt8} (hnul : NUL ∉ cmd_line)
    (hshort : cmd_line.length < PGSIZE) (hne : words (isDelim SPACE) cmd_line ≠ [])
    (ret : Nat) (st : Stack) :
    start_process_stack (cmd_page cmd_line) ret st =
      some (min (words (isDelim SPACE) cmd_line).length MAX_ARGC,
        push_args (min (words (isDelim SPACE) cmd_line).length MAX_ARGC)
          ((words (isDelim SPACE) cmd_line).take MAX_ARGC) ret st) := by
  obtain ⟨junk, hpage⟩ := cmd_page_eq cmd_line
  rw [List.take_of_length_le (by simp only [PGSIZE] at hshort ⊢; omega)] at hpage
  obtain ⟨argv₁, hargc, hargv, hstrs⟩ := start_process_args_spec hpage hnul hne
  have hlen₁ : argv₁.length = min (words (isDelim SPACE) cmd_line).length MAX_ARGC := by
    have := congrArg List.length hstrs
    simp only [List.length_map, List.length_take] at this
    omega
  have htake : ((start_process_args (cmd_page cmd_line)).2.1.take
      (start_process_args (cmd_page cmd_line)).1) = argv₁ := by
    rw [hargv, hargc, List.take_left' hlen₁]
  have hsome := isSome_of_map_cstr hstrs
  -- all entries are tokens, so reading each as a string is `Option.map` without the `some`
  have hstrings : argv₁.map (fun o => cstr (start_process_args (cmd_page cmd_line)).2.2 (o.getD 0)) =
      (words (isDelim SPACE) cmd_line).take MAX_ARGC := by
    apply List.map_injective_iff.mpr fun _ _ h => Option.some.inj h
    rw [← hstrs, List.map_map]
    apply List.map_congr_left
    intro o ho
    obtain ⟨q, rfl⟩ := Option.isSome_iff_exists.mp (hsome o ho)
    rfl
  have hall : argv₁.all Option.isSome = true := List.all_eq_true.mpr hsome
  simp only [start_process_stack]
  rw [htake, if_pos hall, hstrings, hargc]

/-- The stack `start_process` hands to the program decodes, under the 80x86
calling convention, to `argc` = the number of words of the command line capped
at `MAX_ARGC`, and `argv [i]` = word `i` with its terminator for every `i < argc`,
with `argv [argc]` null and `argv` aligned. Every range written lies between the
final `esp` and `PHYS_BASE`, and the slots of `argv_addr` written are
`0 .. argc`. -/
theorem start_process_stack_decodes {cmd_line : List UInt8} (hnul : NUL ∉ cmd_line)
    (hshort : cmd_line.length < PGSIZE) (hne : words (isDelim SPACE) cmd_line ≠ [])
    (ret : Nat) (hret : ret < 2 ^ 32) (st : Stack) (hesp : st.esp = PHYS_BASE)
    (hwrites : st.writes = []) :
    ∃ argc st', start_process_stack (cmd_page cmd_line) ret st = some (argc, st') ∧
      argc = min (words (isDelim SPACE) cmd_line).length MAX_ARGC ∧
      st'.word st'.esp = ret ∧ st'.word (st'.esp + 4) = argc ∧
      st'.word (st'.esp + 8) = st'.esp + 12 ∧ (st'.esp + 12) % 4 = 0 ∧
      (∀ i < argc, st'.bytes (st'.word (st'.esp + 12 + 4 * i))
          (((words (isDelim SPACE) cmd_line).getD i []).length + 1) =
        (words (isDelim SPACE) cmd_line).getD i [] ++ [NUL]) ∧
      st'.word (st'.esp + 12 + 4 * argc) = 0 ∧
      (∀ w ∈ st'.writes, st'.esp ≤ w.1 ∧ w.1 + w.2 ≤ PHYS_BASE) ∧
      st'.slots = argc :: (List.range argc ++ st.slots) := by
  set ws := words (isDelim SPACE) cmd_line with hws
  have hlen : (ws.take MAX_ARGC).length = min ws.length MAX_ARGC := by
    rw [List.length_take]
    omega
  -- the strings fit far below `PHYS_BASE`
  have hfit : (strImage (ws.take MAX_ARGC) (min ws.length MAX_ARGC)).length +
      4 * min ws.length MAX_ARGC + 19 ≤ st.esp := by
    have htake : strImage (ws.take MAX_ARGC) (min ws.length MAX_ARGC) =
        strImage ws (min ws.length MAX_ARGC) := by
      rw [strImage, strImage, List.take_take, Nat.min_eq_left (Nat.min_le_right _ _)]
    have hstr := length_strImage_le ws (min ws.length MAX_ARGC)
    have hwords : (ws.map List.length).sum ≤ cmd_line.length := sum_length_words_le cmd_line
    rw [htake, hesp]
    simp only [PHYS_BASE, PGSIZE, MAX_ARGC] at hstr hwords hshort ⊢
    omega
  have htop : st.esp ≤ 2 ^ 32 := by
    rw [hesp, PHYS_BASE]
    omega
  obtain ⟨hret', hargc', hargv', halign⟩ := push_args_words ret hlen hwrites hfit htop hret
  obtain ⟨hstrs, hnull⟩ := push_args_argv ret hlen hwrites hfit htop
  refine ⟨_, _, start_process_stack_spec hnul hshort hne ret st, rfl, hret', hargc', hargv',
    halign, fun i hi => ?_, hnull, ?_, push_args_slots _ _ _ _⟩
  · have hget : (ws.take MAX_ARGC).getD i [] = ws.getD i [] := by
      rw [List.getD_eq_getElem?_getD, List.getD_eq_getElem?_getD, List.getElem?_take,
        if_pos (by omega)]
    rw [← hget]
    exact hstrs i hi
  · rw [← hesp]
    exact (push_args_writes ret hlen hwrites hfit).2

/-- `" echo x"`. -/
def echo_line : List UInt8 := [32, 101, 99, 104, 111, 32, 120]

/-- `"echo a a ... a"`, 32 words. -/
def many_line : List UInt8 := [101, 99, 104, 111] ++ (List.replicate 31 [32, 97]).flatten

/-- `"echo "` and a word of `n` characters `a`. -/
def long_line (n : Nat) : List UInt8 := [101, 99, 104, 111, 32] ++ List.replicate n 97

theorem words_long_line {n : Nat} (hn : 0 < n) :
    words (isDelim SPACE) (long_line n) = [[101, 99, 104, 111], List.replicate n 97] := by
  show words _ (([101, 99, 104, 111] : List UInt8) ++ 32 :: List.replicate n 97) = _
  have hrep : List.replicate n (97 : UInt8) ≠ [] := by
    rw [Ne, List.replicate_eq_nil_iff]
    omega
  rw [words_word_sep (by decide) (by decide +kernel) (by decide : isDelim SPACE 32 = true),
    words_word hrep fun a ha => by rw [List.eq_of_mem_replicate ha]; decide]

/-- A second word of 4067 characters or more fills the stack page with the
strings alone: the words below them are written under the page. -/
theorem long_line_overflows {n : Nat} (hn : 4067 ≤ n) (hshort : n + 5 < PGSIZE) :
    ∃ st', start_process_stack (cmd_page (long_line n)) 0 stack0 = some (2, st') ∧
      ∃ w ∈ st'.writes, w.1 < PHYS_BASE - PGSIZE := by
  have hw := words_long_line (show 0 < n by omega)
  have hnul : NUL ∉ long_line n := by
    intro h
    rcases List.mem_append.mp h with h | h
    · exact absurd h (by decide)
    · exact absurd (List.eq_of_mem_replicate h) (by decide)
  have hshort' : (long_line n).length < PGSIZE := by
    simp only [long_line, List.length_append, List.length_replicate, List.length_cons,
      List.length_nil]
    omega
  have hne : words (isDelim SPACE) (long_line n) ≠ [] := by
    rw [hw]
    exact List.cons_ne_nil _ _
  refine ⟨push_args 2 [[101, 99, 104, 111], List.replicate n 97] 0 stack0,
    by rw [start_process_stack_spec hnul hshort' hne, hw]; rfl, ?_⟩
  -- the strings alone take `n + 6` bytes
  have hS : (strImage [[101, 99, 104, 111], List.replicate n 97] 2).length = n + 6 := by
    simp only [strImage, List.take_succ_cons, List.take_zero, List.map_cons, List.map_nil,
      List.flatten_cons, List.flatten_nil, List.length_append, List.length_replicate,
      List.length_cons, List.length_nil]
    omega
  have hfit : (strImage [[101, 99, 104, 111], List.replicate n 97] 2).length + 4 * 2 + 19 ≤
      stack0.esp := by
    rw [hS]
    simp only [stack0, PHYS_BASE, PGSIZE] at hshort ⊢
    omega
  have hesp := @push_args_esp 2 _ stack0 0 rfl hfit
  refine ⟨_, (@push_args_writes 2 _ stack0 0 rfl rfl hfit).1, ?_⟩
  rw [hS] at hesp
  simp only [stack0, PHYS_BASE, PGSIZE] at hesp ⊢
  omega

theorem argument_passing_diverges :
    -- a space in front: the thread, and the file `load` opens, is " echo"; `argv [0]` is "echo"
    thread_name (cstr (cmd_page echo_line) 0) = [32, 101, 99, 104, 111] ∧
    (∃ st', start_process_stack (cmd_page echo_line) 0 stack0 = some (2, st') ∧
      st'.bytes (st'.word (st'.esp + 12)) 5 = [101, 99, 104, 111, 0]) ∧
    -- 32 words: `argv_addr [32]`, past the array, is written
    (∃ st', start_process_stack (cmd_page many_line) 0 stack0 = some (32, st') ∧
      32 ∈ st'.slots) ∧
    -- a long word: the return address is written below the stack page
    (∃ st', start_process_stack (cmd_page (long_line 4090)) 0 stack0 = some (2, st') ∧
      ∃ w ∈ st'.writes, w.1 < PHYS_BASE - PGSIZE) ∧
    -- spaces only: `argv [0]` is `NULL`, and `strlen (NULL)` faults
    start_process_stack (cmd_page [32]) 0 stack0 = none := by
  refine ⟨?_, ?_, ?_, ?_, ?_⟩
  · -- the name keeps the spaces in front of the first word
    rw [cstr_cmd_page (by decide) (by decide), thread_name_spec (by decide)]
    decide
  · have hw : words (isDelim SPACE) echo_line = [[101, 99, 104, 111], [120]] := by decide
    obtain ⟨argc, st', hrun, hargc, -, -, -, -, hstrs, -⟩ :=
      start_process_stack_decodes (show NUL ∉ echo_line by decide) (by decide)
        (by rw [hw]; simp) 0 (by decide) stack0 rfl rfl
    rw [hw] at hargc hstrs
    obtain rfl : argc = 2 := hargc
    exact ⟨st', hrun, by simpa [NUL] using hstrs 0 (by decide)⟩
  · have hw : words (isDelim SPACE) many_line =
        [101, 99, 104, 111] :: List.replicate 31 [97] := by decide
    obtain ⟨argc, st', hrun, hargc, -, -, -, -, -, -, -, hslots⟩ :=
      start_process_stack_decodes (show NUL ∉ many_line by decide) (by decide)
        (by rw [hw]; simp) 0 (by decide) stack0 rfl rfl
    rw [hw] at hargc
    obtain rfl : argc = 32 := hargc
    exact ⟨st', hrun, by rw [hslots]; exact List.mem_cons_self⟩
  · exact long_line_overflows (by decide) (by decide)
  · obtain ⟨junk, hpage⟩ := cmd_page_eq [32]
    have hblank := start_process_args_blank hpage (by decide) (by decide)
    simp [start_process_stack, hblank.1, hblank.2]

end Pintos.Args
