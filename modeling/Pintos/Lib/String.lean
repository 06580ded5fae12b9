import Pintos.ListWords
import Pintos.ByteMap
import Mathlib.Data.List.Forall2
import Mathlib.Data.List.GetD

/-!
# `strchr`, `strlcpy` and `strtok_r`

The string functions of `lib/string.c` that the argument passing uses, over a
byte buffer: a list of bytes (C `char`) in which a pointer is an index. Reading past
the end of the buffer gives a terminator, so that a buffer without one still
reads as a string. `strchr` takes its string as the characters before the
terminator.

`strtok_r_spec` says what one call of `strtok_r` does where the rest of the
string is `str`: it returns the first word of `str` (in the sense of
`ListWords.words`, with the delimiters as separators), ends it with a
terminator written past the current position, and leaves its save pointer where
the rest of the words begin.
-/

namespace Pintos.Lib

open ListWords

/-- The terminator `'\0'`. -/
def NUL : UInt8 := 0

/-- `strchr (string, c)`: the offset of the first `c`; the terminator counts, so
that `strchr (s, '\0')` finds it. -/
def strchr : List UInt8 → UInt8 → Option Nat
  | [], c => if c = NUL then some 0 else none
  | x :: xs, c =>
    if x = c then some 0 else if x = NUL then none else (strchr xs c).map (· + 1)

/-- The C string at `p`: the characters before the next terminator. -/
def cstr (buf : List UInt8) (p : Nat) : List UInt8 := (buf.drop p).takeWhile (· != NUL)

/-- `strlcpy (dst, src, size)` of the string `src` into the buffer `dst`. -/
def strlcpy (dst src : List UInt8) (size : Nat) : List UInt8 :=
  if 0 < size then
    src.take (min (size - 1) src.length) ++ NUL :: dst.drop (min (size - 1) src.length + 1)
  else dst

/-- `strchr (delimiters, c) != NULL`. -/
def isDelim (ds : List UInt8) (c : UInt8) : Bool := (strchr ds c).isSome

/-- The first loop of `strtok_r`, over the buffer from `s`: skip delimiters, and
stop at a terminator (where `strtok_r` returns `NULL`). -/
def skip_delimiters (ds : List UInt8) : List UInt8 → Nat → Nat
  | [], s => s
  | c :: cs, s => if isDelim ds c ∧ c ≠ NUL then skip_delimiters ds cs (s + 1) else s

/-- The second loop of `strtok_r`: skip to the next delimiter or terminator. -/
def skip_token (ds : List UInt8) : List UInt8 → Nat → Nat
  | [], s => s
  | c :: cs, s => if isDelim ds c then s else skip_token ds cs (s + 1)

/-- `strtok_r (s, delimiters, save_ptr)` on the buffer `buf`, with `NULL` as
`none`. Returns the token, the buffer and the new `*save_ptr`. -/
def strtok_r (s : Option Nat) (ds buf : List UInt8) (save_ptr : Nat) :
    Option Nat × List UInt8 × Nat :=
  let s := skip_delimiters ds (buf.drop (s.getD save_ptr)) (s.getD save_ptr)
  if buf.getD s NUL = NUL then (none, buf, s)
  else
    let e := skip_token ds (buf.drop s) s
    if buf.getD e NUL ≠ NUL then (some s, buf.set e NUL, e + 1) else (some s, buf, e)

/-- `strtok_r (s, delimiters, &save_ptr)` and then `n - 1` calls of
`strtok_r (NULL, delimiters, &save_ptr)`, as the loop in the comment on `strtok_r` and the
one in `start_process` make them: what the calls return, in order, and the buffer after
them. -/
def strtok_calls (ds : List UInt8) (s : Option Nat) (buf : List UInt8) (save_ptr : Nat) :
    Nat → List (Option Nat) × List UInt8
  | 0 => ([], buf)
  | n + 1 =>
    let r := strtok_r s ds buf save_ptr
    let rs := strtok_calls ds none r.2.1 r.2.2 n
    (r.1 :: rs.1, rs.2)

/-- The first loop of `memmove`, when `dst < src`: `while (size-- > 0) *dst++ = *src++;`.
Returns the final `dst` and the memory. -/
def memmove_forward (mem : Nat → UInt8) (dst src : Nat) : Nat → Nat × (Nat → UInt8)
  | 0 => (dst, mem)
  | size + 1 => memmove_forward (Function.update mem dst (mem src)) (dst + 1) (src + 1) size

/-- The second loop of `memmove`, from `dst += size; src += size;`:
`while (size-- > 0) *--dst = *--src;`. -/
def memmove_backward (mem : Nat → UInt8) (dst src : Nat) : Nat → Nat × (Nat → UInt8)
  | 0 => (dst, mem)
  | size + 1 =>
    memmove_backward (Function.update mem (dst - 1) (mem (src - 1))) (dst - 1) (src - 1) size

/-- `memmove (dst, src, size)` on memory as a map from addresses to bytes: what it returns,
`dst` as the loops leave it, and the memory. -/
def memmove (mem : Nat → UInt8) (dst src size : Nat) : Nat × (Nat → UInt8) :=
  if dst < src then memmove_forward mem dst src size
  else memmove_backward mem (dst + size) (src + size) size

/-! ## Lemmas -/

variable {ds : List UInt8}

/-- The terminator is always a delimiter. -/
theorem isDelim_nul (ds : List UInt8) : isDelim ds NUL = true := by
  induction ds with
  | nil => simp [isDelim, strchr]
  | cons x xs ih =>
    by_cases hx : x = NUL
    · simp [isDelim, strchr, hx]
    · simpa [isDelim, strchr, hx] using ih

theorem skip_delimiters_append {a : List UInt8} (ha : ∀ c ∈ a, isDelim ds c = true ∧ c ≠ NUL)
    (l : List UInt8) (s : Nat) :
    skip_delimiters ds (a ++ l) s = skip_delimiters ds l (s + a.length) := by
  induction a generalizing s with
  | nil => rfl
  | cons c a ih =>
    have hc := ha c List.mem_cons_self
    rw [List.cons_append, skip_delimiters, if_pos hc,
      ih (fun d hd => ha d (List.mem_cons_of_mem c hd)), List.length_cons]
    congr 1
    omega

theorem skip_delimiters_stop {c : UInt8} (hc : ¬ (isDelim ds c = true ∧ c ≠ NUL))
    (l : List UInt8) (s : Nat) : skip_delimiters ds (c :: l) s = s := by
  rw [skip_delimiters, if_neg hc]

theorem skip_token_append {a : List UInt8} (ha : ∀ c ∈ a, isDelim ds c = false)
    (l : List UInt8) (s : Nat) : skip_token ds (a ++ l) s = skip_token ds l (s + a.length) := by
  induction a generalizing s with
  | nil => rfl
  | cons c a ih =>
    have hc := ha c List.mem_cons_self
    rw [List.cons_append, skip_token, hc, if_neg Bool.false_ne_true,
      ih (fun d hd => ha d (List.mem_cons_of_mem c hd)), List.length_cons]
    congr 1
    omega

theorem skip_token_stop {c : UInt8} (hc : isDelim ds c = true) (l : List UInt8) (s : Nat) :
    skip_token ds (c :: l) s = s := by
  rw [skip_token, if_pos hc]

/-- A character read at an offset into the buffer's tail. -/
theorem getD_of_drop {buf l : List UInt8} {p : Nat} (h : buf.drop p = l) (k : Nat) :
    buf.getD (p + k) NUL = l.getD k NUL := by
  rw [List.getD_eq_getElem?_getD, List.getD_eq_getElem?_getD, ← h, List.getElem?_drop]

theorem cstr_of_drop {buf t l : List UInt8} {q : Nat} (h : buf.drop q = t ++ NUL :: l)
    (ht : NUL ∉ t) : cstr buf q = t := by
  rw [cstr, h, List.takeWhile_append_of_pos]
  · simp
  · intro c hc
    have : c ≠ NUL := fun hce => ht (hce ▸ hc)
    simpa using this

theorem takeWhile_set_of_lt (p : UInt8 → Bool) (l : List UInt8) {k : Nat} (x : UInt8)
    (hk : (l.takeWhile p).length < k) : (l.set k x).takeWhile p = l.takeWhile p := by
  induction l generalizing k with
  | nil => rfl
  | cons a l ih =>
    rcases k with _ | k
    · omega
    · by_cases ha : p a = true
      · rw [List.set_cons_succ, List.takeWhile_cons_of_pos ha, List.takeWhile_cons_of_pos ha]
        rw [List.takeWhile_cons_of_pos ha, List.length_cons] at hk
        rw [ih (by omega)]
      · rw [List.set_cons_succ, List.takeWhile_cons_of_neg ha, List.takeWhile_cons_of_neg ha]

/-- A write past the terminator of a string leaves the string as it was. -/
theorem cstr_set_of_lt {buf : List UInt8} {q e : Nat} (x : UInt8)
    (h : q + (cstr buf q).length < e) : cstr (buf.set e x) q = cstr buf q := by
  unfold cstr at h ⊢
  rw [List.drop_set, if_neg (by omega)]
  exact takeWhile_set_of_lt _ _ x (by omega)

/-- The characters in front that satisfy `p` are the first ones. -/
theorem take_length_takeWhile (p : UInt8 → Bool) (l : List UInt8) :
    l.take (l.takeWhile p).length = l.takeWhile p :=
  calc l.take (l.takeWhile p).length
      = (l.takeWhile p ++ l.dropWhile p).take (l.takeWhile p).length := by
        rw [List.takeWhile_append_dropWhile]
    _ = l.takeWhile p := List.take_left' rfl

/-- The string at `p` runs on through a prefix without a terminator. -/
theorem cstr_of_take {buf a : List UInt8} {p : Nat} (h : (buf.drop p).take a.length = a)
    (ha : NUL ∉ a) : cstr buf p = a ++ cstr buf (p + a.length) := by
  have hsplit : buf.drop p = a ++ buf.drop (p + a.length) := by
    have hta := List.take_append_drop a.length (buf.drop p)
    rw [h, List.drop_drop] at hta
    exact hta.symm
  unfold cstr
  rw [hsplit, List.takeWhile_append_of_pos]
  intro c hc
  have : c ≠ NUL := fun hce => ha (hce ▸ hc)
  simpa using this

/-- `strlcpy` into a buffer of positive size: at most `size - 1` characters, then
a terminator. -/
theorem strlcpy_of_pos {dst src : List UInt8} {size : Nat} (h : 0 < size) :
    strlcpy dst src size =
      src.take (size - 1) ++ NUL :: dst.drop (min (size - 1) src.length + 1) := by
  rw [strlcpy, if_pos h, ← List.take_eq_take_min]

/-- One call of `strtok_r` at a position `p` where the rest of the string is
`str`. Either `str` has no word, and the call returns `NULL` with the save
pointer at the terminator; or it returns its first word `t`, terminated, at the
offset `q` where the first word begins, and leaves the save pointer at `p'`, where
the rest `str'` begins that holds the other words. Its one write, if any, puts a
terminator on the delimiter right after `t`. -/
theorem strtok_r_spec (ds : List UInt8) {buf str junk : List UInt8} {p save : Nat} {s : Option Nat}
    (hbuf : buf.drop p = str ++ NUL :: junk) (hstr : NUL ∉ str) (hs : s.getD save = p) :
    ((∀ c ∈ str, isDelim ds c = true) ∧ words (isDelim ds) str = [] ∧
      strtok_r s ds buf save = (none, buf, p + str.length)) ∨
    ∃ t ws q buf' p' str', words (isDelim ds) str = t :: ws ∧
      strtok_r s ds buf save = (some q, buf', p') ∧ cstr buf' q = t ∧
      q = p + (str.takeWhile (isDelim ds)).length ∧ q + t.length ≤ p' ∧
      (buf' = buf ∨
        ∃ e, p < e ∧ q + t.length = e ∧ p' = e + 1 ∧ isDelim ds (buf.getD e NUL) = true ∧
          buf' = buf.set e NUL) ∧
      buf'.drop p' = str' ++ NUL :: junk ∧ NUL ∉ str' ∧ words (isDelim ds) str' = ws ∧
      (starts (isDelim ds) str).map (p + ·) = q :: (starts (isDelim ds) str').map (p' + ·) := by
  have hnul : ∀ c ∈ str, c ≠ NUL := fun c hc hce => hstr (hce ▸ hc)
  rcases seps_or_first_word (p := isDelim ds) str with hall | ⟨d, t, r, rfl, hd, htne, ht, hr⟩
  · -- only delimiters: `NULL`, with the save pointer at the terminator
    refine Or.inl ⟨hall, by simpa using words_seps_append hall [], ?_⟩
    have hskip : skip_delimiters ds (buf.drop p) p = p + str.length := by
      rw [hbuf, skip_delimiters_append (fun c hc => ⟨hall c hc, hnul c hc⟩),
        skip_delimiters_stop (by simp)]
    have hend : buf.getD (p + str.length) NUL = NUL := by
      rw [getD_of_drop hbuf]
      simp
    simp only [strtok_r, hs, hskip, hend, if_true]
  · -- a first word `t` after the delimiters `d`
    obtain ⟨a, t', rfl⟩ := List.exists_cons_of_ne_nil htne
    have ha : isDelim ds a = false := ht a List.mem_cons_self
    have hanul : a ≠ NUL := hnul a (by simp)
    have hdn : ∀ c ∈ d, isDelim ds c = true ∧ c ≠ NUL := fun c hc => ⟨hd c hc, hnul c (by simp [hc])⟩
    have hskip : skip_delimiters ds (buf.drop p) p = p + d.length := by
      rw [hbuf, List.append_assoc, List.append_assoc, skip_delimiters_append hdn,
        List.cons_append, skip_delimiters_stop (by simp [ha])]
    have hq : buf.getD (p + d.length) NUL = a := by
      rw [getD_of_drop hbuf]
      simp
    have hlead : ((d ++ (a :: t') ++ r).takeWhile (isDelim ds)).length = d.length := by
      rw [List.append_assoc, List.takeWhile_append_of_pos hd, List.cons_append,
        List.takeWhile_cons_of_neg (by simp [ha])]
      simp
    have hdropq : buf.drop (p + d.length) = (a :: t') ++ r ++ NUL :: junk := by
      rw [← List.drop_drop, hbuf, List.append_assoc, List.append_assoc, List.drop_left' rfl,
        List.append_assoc]
    -- the rest of the buffer after the word
    have hafter : buf.drop (p + d.length + (a :: t').length) = r ++ NUL :: junk := by
      rw [← List.drop_drop, hdropq, List.append_assoc, List.drop_left' rfl]
    rcases hr with rfl | ⟨c, r', rfl, hc⟩
    · -- the word ends the string: no write
      have htok : skip_token ds (buf.drop (p + d.length)) (p + d.length) =
          p + d.length + (a :: t').length := by
        rw [hdropq, List.append_nil, skip_token_append ht, skip_token_stop (isDelim_nul ds)]
      have hend : buf.getD (p + d.length + (a :: t').length) NUL = NUL := by
        rw [← Nat.add_zero (p + d.length + (a :: t').length), getD_of_drop hafter]
        rfl
      refine Or.inr ⟨a :: t', [], p + d.length, buf, p + d.length + (a :: t').length, [], ?_,
        ?_, ?_, by rw [hlead], by omega, Or.inl rfl, by simpa using hafter, by simp, rfl, ?_⟩
      · rw [List.append_nil, words_seps_append hd]
        exact words_word htne ht
      · simp only [strtok_r, hs, hskip, hq, hanul, if_false, htok, hend, ne_eq,
          not_true_eq_false]
      · exact cstr_of_drop (by simpa using hdropq) fun h => hstr (by simp [h])
      · rw [starts_seps_word_append hd htne ht]
        rfl
    · -- the word ends at the delimiter `c`, overwritten by a terminator
      have hcnul : c ≠ NUL := hnul c (by simp)
      have htok : skip_token ds (buf.drop (p + d.length)) (p + d.length) =
          p + d.length + (a :: t').length := by
        rw [hdropq, List.append_assoc, skip_token_append ht, List.cons_append,
          skip_token_stop hc]
      have hend : buf.getD (p + d.length + (a :: t').length) NUL = c := by
        rw [← Nat.add_zero (p + d.length + (a :: t').length), getD_of_drop hafter]
        rfl
      refine Or.inr ⟨a :: t', words (isDelim ds) r', p + d.length,
        buf.set (p + d.length + (a :: t').length) NUL, p + d.length + (a :: t').length + 1, r',
        ?_, ?_, ?_, by rw [hlead], by omega,
        Or.inr ⟨_, ?_, by simp, rfl, by rw [hend]; exact hc, rfl⟩, ?_,
        fun h => hstr (by simp [h]), rfl, ?_⟩
      · rw [List.append_assoc, words_seps_append hd, words_word_sep htne ht hc]
      · simp only [strtok_r, hs, hskip, hq, hanul, if_false, htok, hend, ne_eq, hcnul,
          not_false_eq_true, if_true]
      · refine cstr_of_drop (l := r' ++ NUL :: junk) ?_
          fun h => hstr (List.mem_append_left _ (List.mem_append_right _ h))
        rw [List.drop_set, if_neg (by omega), hdropq, Nat.add_sub_cancel_left,
          List.append_assoc, List.set_append_right _ _ (Nat.le_refl _), Nat.sub_self]
        simp
      · simp only [List.length_cons]
        omega
      · rw [List.drop_set_of_lt (by omega), ← List.drop_drop, hafter]
        rfl
      · -- the next words begin after `c`
        rw [starts_seps_word_append hd htne ht, startsAux_sep_cons hc, List.map_cons,
          List.map_map]
        congr 1
        refine List.map_congr_left fun x _ => ?_
        simp only [Function.comp_apply, List.length_cons]
        omega

theorem getD_set_of_ne {buf : List UInt8} {e i : Nat} (x : UInt8) (h : e ≠ i) :
    (buf.set e x).getD i NUL = buf.getD i NUL := by
  rw [List.getD_eq_getElem?_getD, List.getD_eq_getElem?_getD, List.getElem?_set_ne h]

/-- The bytes before the first terminator, read from two lists that agree up to it. -/
theorem takeWhile_congr_getD {l l' : List UInt8}
    (h : ∀ k, k ≤ (l.takeWhile (· != NUL)).length → l'.getD k NUL = l.getD k NUL) :
    l'.takeWhile (· != NUL) = l.takeWhile (· != NUL) := by
  induction l generalizing l' with
  | nil =>
    have h0 := h 0 (Nat.zero_le _)
    cases l' with
    | nil => rfl
    | cons a l' =>
      rw [List.getD_cons_zero] at h0
      simp [h0]
  | cons a l ih =>
    have h0 := h 0 (Nat.zero_le _)
    cases l' with
    | nil =>
      rw [List.getD_cons_zero] at h0
      simp [← h0]
    | cons b l' =>
      rw [List.getD_cons_zero, List.getD_cons_zero] at h0
      subst h0
      by_cases hb : (b != NUL) = true
      · rw [List.takeWhile_cons_of_pos (p := fun x => x != NUL) hb,
          List.takeWhile_cons_of_pos (p := fun x => x != NUL) hb, ih]
        intro k hk
        have := h (k + 1) (by
          rw [List.takeWhile_cons_of_pos (p := fun x => x != NUL) hb, List.length_cons]
          omega)
        rwa [List.getD_cons_succ, List.getD_cons_succ] at this
      · rw [List.takeWhile_cons_of_neg (p := fun x => x != NUL) hb,
          List.takeWhile_cons_of_neg (p := fun x => x != NUL) hb]

/-- A string is read from its bytes and its terminator only. -/
theorem cstr_congr {buf buf' : List UInt8} {q : Nat}
    (h : ∀ i, q ≤ i → i ≤ q + (cstr buf q).length → buf'.getD i NUL = buf.getD i NUL) :
    cstr buf' q = cstr buf q := by
  apply takeWhile_congr_getD
  intro k hk
  have := h (q + k) (Nat.le_add_right q k) (by unfold cstr; omega)
  rwa [getD_of_drop rfl, getD_of_drop rfl] at this

/-- The run lemma of the tokenising loop, from a position `p` where the rest of the string
is `str`: the calls return the words of `str` in order, each where it begins in the string
and terminated, and `NULL` once they run out. The only bytes written are the delimiters
right after the returned words, each overwritten by a terminator. -/
theorem strtok_calls_spec (ds : List UInt8) {buf str junk : List UInt8} {p save : Nat}
    {s : Option Nat} (hbuf : buf.drop p = str ++ NUL :: junk) (hstr : NUL ∉ str)
    (hs : s.getD save = p) (n : Nat) :
    ∃ qs : List Nat, qs = ((starts (isDelim ds) str).take n).map (p + ·) ∧
      (strtok_calls ds s buf save n).1 = qs.map some ++ List.replicate (n - qs.length) none ∧
      List.Forall₂ (fun q w => p ≤ q ∧ cstr (strtok_calls ds s buf save n).2 q = w ∧
          (buf.drop q).take w.length = w) qs ((words (isDelim ds) str).take n) ∧
      ∀ i, (strtok_calls ds s buf save n).2.getD i NUL ≠ buf.getD i NUL →
        p < i ∧ (strtok_calls ds s buf save n).2.getD i NUL = NUL ∧
        isDelim ds (buf.getD i NUL) = true ∧
        ∃ q w, (q, w) ∈ qs.zip ((words (isDelim ds) str).take n) ∧ i = q + w.length := by
  induction n generalizing s buf save p str with
  | zero => exact ⟨[], by simp, rfl, by simp, fun i hi => absurd rfl hi⟩
  | succ n ih =>
    rcases strtok_r_spec ds hbuf hstr hs with
      ⟨hall, hws, hr⟩ |
      ⟨t, ws, q, buf₁, p₁, str₁, hws, hr, hq, hqpos, hle, hset, hdrop, hstr₁, hws₁, hstarts⟩
    · -- no word: `NULL` now, at the terminator, and so ever after
      have hend : buf.drop (p + str.length) = [] ++ NUL :: junk := by
        rw [← List.drop_drop, hbuf, List.drop_left]
        rfl
      obtain ⟨qs, -, hres, hfa, hch⟩ := ih hend List.not_mem_nil (s := none) rfl
      simp only [words_nil, List.take_nil, List.forall₂_nil_right_iff] at hfa
      subst hfa
      refine ⟨[], by rw [starts_of_seps hall]; rfl, ?_, by simp [hws], ?_⟩
      · simp only [strtok_calls, hr, hres, List.map_nil, List.nil_append, List.length_nil,
          Nat.sub_zero]
        rfl
      · intro i hi
        obtain ⟨-, -, -, q, w, hmem, -⟩ := hch i (by simpa [strtok_calls, hr] using hi)
        simp at hmem
    · -- the word `t` at `q`; the later calls write only past `p₁`
      obtain ⟨qs, hqs, hres, hfa, hch⟩ := ih hdrop hstr₁ (s := none) rfl
      rw [hws₁] at hfa hch
      have hcalls : strtok_calls ds s buf save (n + 1) =
          (some q :: (strtok_calls ds none buf₁ p₁ n).1, (strtok_calls ds none buf₁ p₁ n).2) := by
        simp only [strtok_calls, hr]
      -- the buffer after all the calls agrees with `buf₁` up to `p₁`
      have hkeep : ∀ i, i ≤ p₁ →
          (strtok_calls ds none buf₁ p₁ n).2.getD i NUL = buf₁.getD i NUL := by
        intro i hi
        by_contra hne
        exact absurd (hch i hne).1 (by omega)
      -- `buf₁` agrees with `buf` up to the write after `t`
      have horig : (buf.drop q).take t.length = (buf₁.drop q).take t.length := by
        rcases hset with rfl | ⟨e, -, he, -, -, rfl⟩
        · rfl
        · rw [List.drop_set, if_neg (by omega), List.take_set_of_le (by omega)]
      have hcstr : cstr (strtok_calls ds none buf₁ p₁ n).2 q = t := by
        rw [← hq]
        exact cstr_congr fun i _ hi => hkeep i (by rw [hq] at hi; omega)
      refine ⟨q :: qs, ?_, ?_, ?_, ?_⟩
      · -- `q` is where the first word begins, and `qs` where the others do
        rw [List.map_take, hstarts, List.take_succ_cons, ← List.map_take, hqs]
      · rw [hcalls, hres]
        simp
      · rw [hcalls, hws, List.take_succ_cons, List.forall₂_cons]
        refine ⟨⟨by omega, hcstr, ?_⟩, ?_⟩
        · rw [horig, ← hq]
          exact take_length_takeWhile _ _
        · refine hfa.imp fun {q' w'} hqw => ⟨by omega, hqw.2.1, ?_⟩
          have htake := hqw.2.2
          rcases hset with rfl | ⟨e, -, -, he, -, rfl⟩
          · exact htake
          · rwa [List.drop_set_of_lt (by omega)] at htake
      · intro i hi
        rw [hcalls] at hi ⊢
        by_cases h₁ : (strtok_calls ds none buf₁ p₁ n).2.getD i NUL = buf₁.getD i NUL
        · -- the write after `t`
          rw [h₁] at hi ⊢
          rcases hset with rfl | ⟨e, hpe, he, -, hdelim, rfl⟩
          · exact absurd rfl hi
          · have hie : e = i := by
              by_contra hne
              exact hi (getD_set_of_ne NUL hne)
            subst hie
            have hlt : e < buf.length := by
              by_contra hge
              apply hi
              rw [List.getD_eq_default (buf.set e NUL) NUL (by rw [List.length_set]; omega),
                List.getD_eq_default buf NUL (by omega)]
            refine ⟨hpe, by simp [List.getD_eq_getElem?_getD, hlt], hdelim, q, t, ?_, he.symm⟩
            rw [hws, List.take_succ_cons, List.zip_cons_cons]
            exact List.mem_cons_self
        · -- a later write, past `p₁`
          obtain ⟨hpi, hnul, hdelim, q', w', hmem, hi'⟩ := hch i h₁
          have hsame : buf₁.getD i NUL = buf.getD i NUL := by
            rcases hset with rfl | ⟨e, -, he, -, -, rfl⟩
            · rfl
            · exact getD_set_of_ne NUL (by omega)
          refine ⟨by omega, hnul, hsame ▸ hdelim, q', w', ?_, hi'⟩
          rw [hws, List.take_succ_cons, List.zip_cons_cons]
          exact List.mem_cons_of_mem _ hmem

section Memmove

open ByteMap

/-- The forward loop copies the source as it was: it reads each source byte before any
write reaches it, since the writes stay below the reads. -/
theorem memmove_forward_eq (mem : Nat → UInt8) {dst src : Nat} (h : dst < src) (size : Nat) :
    memmove_forward mem dst src size = (dst + size, copy mem dst mem src size) := by
  induction size generalizing mem dst src with
  | zero => simp [memmove_forward]
  | succ size ih =>
    rw [memmove_forward, ih _ (by omega), Nat.add_right_comm, Nat.add_assoc dst]
    congr 1
    funext a
    by_cases ha : dst + 1 ≤ a ∧ a < dst + 1 + size
    · -- a later byte: its source is above `dst`, where nothing was written
      rw [copy_apply_of_mem ha.1 ha.2, copy_apply_of_mem (by omega) (by omega),
        Function.update_of_ne (by omega)]
      congr 1
      omega
    · rw [copy_apply_of_not_mem ha]
      by_cases hd : a = dst
      · subst hd
        rw [Function.update_self, copy_apply_of_mem (Nat.le_refl a) (by omega), Nat.sub_self,
          Nat.add_zero]
      · rw [Function.update_of_ne hd, copy_apply_of_not_mem (by omega)]

/-- The backward loop, from the ends of the ranges, copies the source as it was: the writes
stay above the reads. -/
theorem memmove_backward_eq (mem : Nat → UInt8) {dst src : Nat} (h : src ≤ dst) (size : Nat) :
    memmove_backward mem (dst + size) (src + size) size = (dst, copy mem dst mem src size) := by
  induction size generalizing mem with
  | zero => simp [memmove_backward]
  | succ size ih =>
    rw [memmove_backward, show dst + (size + 1) - 1 = dst + size by omega,
      show src + (size + 1) - 1 = src + size by omega, ih]
    congr 1
    funext a
    by_cases ha : dst ≤ a ∧ a < dst + size
    · -- an earlier byte: its source is below the last byte written
      rw [copy_apply_of_mem ha.1 ha.2, copy_apply_of_mem ha.1 (by omega),
        Function.update_of_ne (by omega)]
    · rw [copy_apply_of_not_mem ha]
      by_cases hd : a = dst + size
      · subst hd
        rw [Function.update_self, copy_apply_of_mem (Nat.le_add_right dst size) (by omega)]
        congr 1
        omega
      · rw [Function.update_of_ne hd, copy_apply_of_not_mem (by omega)]

/-- `memmove (dst, src, size)` leaves in `dst[0 .. size)` the bytes `src[0 .. size)` had
before the call, however the two ranges overlap, and changes no other byte. What it
returns is `dst` as the loop leaves it: `dst + size` when `dst < src`. -/
theorem memmove_copies_returns_end (mem : Nat → UInt8) (dst src size : Nat) :
    memmove mem dst src size =
      (if dst < src then dst + size else dst, copy mem dst mem src size) := by
  unfold memmove
  split
  · rename_i h
    rw [memmove_forward_eq mem h]
  · rename_i h
    rw [memmove_backward_eq mem (Nat.le_of_not_lt h)]

end Memmove

/-- `strtok_r (s, delimiters, &save_ptr)` on a string `str` at `s`, then
`strtok_r (NULL, delimiters, &save_ptr)` again and again. The `k`-th call returns `s`
plus the offset where the `k`-th maximal run of non-delimiters of `str` begins, and that
run is the string there, terminated in place; after the last run every call returns
`NULL`. The only bytes written are the delimiters right after the returned runs, and
each of them becomes a terminator. -/
theorem strtok_r_returns_words (ds : List UInt8) {buf str junk : List UInt8} {s : Nat}
    (hbuf : buf.drop s = str ++ NUL :: junk) (hstr : NUL ∉ str) (save_ptr n : Nat) :
    ∃ qs : List Nat, qs = ((starts (isDelim ds) str).take n).map (s + ·) ∧
      (strtok_calls ds (some s) buf save_ptr n).1 =
        qs.map some ++ List.replicate (n - qs.length) none ∧
      List.Forall₂ (fun q w => s ≤ q ∧ cstr (strtok_calls ds (some s) buf save_ptr n).2 q = w ∧
          (buf.drop q).take w.length = w) qs ((words (isDelim ds) str).take n) ∧
      ∀ i, (strtok_calls ds (some s) buf save_ptr n).2.getD i NUL ≠ buf.getD i NUL →
        s < i ∧ (strtok_calls ds (some s) buf save_ptr n).2.getD i NUL = NUL ∧
        isDelim ds (buf.getD i NUL) = true ∧
        ∃ q w, (q, w) ∈ qs.zip ((words (isDelim ds) str).take n) ∧ i = q + w.length :=
  strtok_calls_spec ds hbuf hstr (show (some s).getD save_ptr = s from rfl) n

/-- `" a b"` split at spaces: three calls return the runs `a` and `b` at offsets 1
and 3, then `NULL`. -/
theorem strtok_r_returns_words_spaces :
    List.drop 0 [32, 97, 32, 98, 0] = [32, 97, 32, 98] ++ NUL :: [] ∧ NUL ∉ [32, 97, 32, 98] ∧
      ∃ qs : List Nat, qs = ((starts (isDelim [32]) [32, 97, 32, 98]).take 3).map (0 + ·) ∧
        (strtok_calls [32] (some 0) [32, 97, 32, 98, 0] 0 3).1 =
          qs.map some ++ List.replicate (3 - qs.length) none ∧
        List.Forall₂ (fun q w => 0 ≤ q ∧
            cstr (strtok_calls [32] (some 0) [32, 97, 32, 98, 0] 0 3).2 q = w ∧
            (List.drop q [32, 97, 32, 98, 0]).take w.length = w) qs
          ((words (isDelim [32]) [32, 97, 32, 98]).take 3) ∧
        ∀ i, (strtok_calls [32] (some 0) [32, 97, 32, 98, 0] 0 3).2.getD i NUL ≠
            [32, 97, 32, 98, 0].getD i NUL →
          0 < i ∧ (strtok_calls [32] (some 0) [32, 97, 32, 98, 0] 0 3).2.getD i NUL = NUL ∧
          isDelim [32] ([32, 97, 32, 98, 0].getD i NUL) = true ∧
          ∃ q w, (q, w) ∈ qs.zip ((words (isDelim [32]) [32, 97, 32, 98]).take 3) ∧
            i = q + w.length :=
  ⟨rfl, by decide, strtok_r_returns_words [32] rfl (by decide) 0 3⟩

end Pintos.Lib
