import Pintos.PowerOfTwo
import Pintos.WeakOrderSet
import Mathlib.Data.List.Perm.Basic

/-!
# Hash tables

`lib/kernel/hash.c`: a hash table with chaining. An element `e` belongs in bucket
`hash (e) & (bucket_cnt - 1)` (`find_bucket`), whose list `find_elem` searches for an
element equal to `e`: neither is `less` than the other. The buckets are followed as the
sequences their lists stand for (`Pintos.Lib.ListLinks` follows the links themselves);
`hash` and `less`, with their `aux`, are parameters. After each insertion and deletion
`rehash` resizes the table to one bucket for every two elements, at least four, rounded
down to a power of two; when `malloc` of the new buckets fails it keeps the old ones.

The layout of a table (`Hash.Layout`) is what every function keeps whatever `hash` and
`less` are: a power of two of buckets, each element in the bucket `find_bucket` gives
it. `Hash.Inv` adds that there are at least four buckets, that no two elements are
equal, and that `elem_cnt` counts them. For a strict weak order `less` and a `hash` under
which equal elements hash alike, every call keeps `Hash.Inv` and acts on the set of
elements as the operations of `WeakOrderSet` do (`hash_step_refines`), and `hash_first`
and `hash_next` visit each element once (`hash_walk_first`).

Not modelled: `hash_destroy`, `hash_apply`, and the sample hash functions; the
`destructor` of `hash_clear`, which the caller supplies; the `ASSERT`s on null pointers.
-/

namespace Pintos.Lib

open WeakOrderSet
open scoped List

variable {α : Type*}

/-- `struct hash`, without `hash`, `less` and `aux`. -/
structure Hash (α : Type*) where
  elem_cnt : Nat
  bucket_cnt : Nat
  buckets : List (List α)

/-- `struct hash_iterator`, without the table. `elem` is `NULL` (`none`) or a place in the
list of bucket `bucket`, counted from its head: the head is `0`, the element at index `k`
is `k + 1`, and the tail is one past the last element. -/
structure HashIterator where
  bucket : Nat
  elem : Option Nat

/-- `BEST_ELEMS_PER_BUCKET`. -/
def BEST_ELEMS_PER_BUCKET : Nat := 2

/-- `turn_off_least_1bit (x)`. -/
def turn_off_least_1bit (x : Nat) : Nat := x &&& (x - 1)

/-- `is_power_of_2 (x)`. -/
def is_power_of_2 (x : Nat) : Bool := x != 0 && turn_off_least_1bit x == 0

theorem turn_off_least_1bit_ne_zero {x : Nat} (hx : x ≠ 0) (hp : ¬is_power_of_2 x = true) :
    turn_off_least_1bit x ≠ 0 := by
  simpa [is_power_of_2, hx] using hp

/-- The loop `while (!is_power_of_2 (new_bucket_cnt)) new_bucket_cnt =
turn_off_least_1bit (new_bucket_cnt);` of `rehash`, which starts from at least four. -/
def round_loop (n : Nat) (hn : n ≠ 0) : Nat :=
  if hp : is_power_of_2 n then n
  else round_loop (turn_off_least_1bit n) (turn_off_least_1bit_ne_zero hn hp)
termination_by n
decreasing_by exact PowerOfTwo.land_sub_one_lt hn

/-- The bucket count `rehash` computes for `elem_cnt` elements. -/
def new_bucket_cnt (elem_cnt : Nat) : Nat :=
  let n := elem_cnt / BEST_ELEMS_PER_BUCKET
  round_loop (if n < 4 then 4 else n) (by split <;> omega)

section Model

variable (hash : α → Nat) (less : α → α → Bool)

/-- `find_bucket (h, e)`: the index of the bucket `e` belongs in. -/
def find_bucket (h : Hash α) (e : α) : Nat := hash e &&& (h.bucket_cnt - 1)

/-- `find_elem (h, bucket, e)`: the first element of `bucket` equal to `e`. -/
def find_elem (bucket : List α) (e : α) : Option α :=
  bucket.find? fun hi => !less hi e && !less e hi

/-- `list_push_front (&h->buckets[bucket], e)`. -/
def Hash.push_front (h : Hash α) (bucket : Nat) (e : α) : Hash α :=
  { h with buckets := h.buckets.modify bucket (e :: ·) }

/-- `insert_elem (h, bucket, e)`. -/
def insert_elem (h : Hash α) (bucket : Nat) (e : α) : Hash α :=
  { h.push_front bucket e with elem_cnt := h.elem_cnt + 1 }

/-- `remove_elem (h, e)`: `list_remove` unlinks `e` from the list it is on. -/
def remove_elem [DecidableEq α] (h : Hash α) (e : α) : Hash α :=
  { h with elem_cnt := h.elem_cnt - 1, buckets := h.buckets.map (·.erase e) }

/-- The inner loop of `rehash` over one old bucket: each element, front to back, is
unlinked and pushed onto the front of its bucket in the new array. -/
def move_elems (h : Hash α) (old_bucket : List α) : Hash α :=
  old_bucket.foldl (fun h elem => h.push_front (find_bucket hash h elem) elem) h

/-- `rehash (h)`; `malloc_ok` says whether `malloc` of the new buckets succeeds. -/
def rehash (malloc_ok : Bool) (h : Hash α) : Hash α :=
  let new_bucket_cnt := new_bucket_cnt h.elem_cnt
  if new_bucket_cnt = h.bucket_cnt then h
  else if malloc_ok = false then h
  else
    h.buckets.foldl (move_elems hash)
      { h with bucket_cnt := new_bucket_cnt, buckets := List.replicate new_bucket_cnt [] }

/-- `hash_clear (h, destructor)`: `list_init` of every bucket. -/
def hash_clear (h : Hash α) : Hash α :=
  { h with buckets := List.replicate h.bucket_cnt [], elem_cnt := 0 }

/-- `hash_init (h, hash, less, aux)`: `none` when `malloc` of the four buckets fails. The
lists `malloc` returns are made empty by `hash_clear`. -/
def hash_init (malloc_ok : Bool) : Option (Hash α) :=
  if malloc_ok then some (hash_clear ⟨0, 4, List.replicate 4 []⟩) else none

/-- `hash_insert (h, new)`. -/
def hash_insert (malloc_ok : Bool) (h : Hash α) (new : α) : Option α × Hash α :=
  let bucket := find_bucket hash h new
  let old := find_elem less (h.buckets.getD bucket []) new
  let h := if old = none then insert_elem h bucket new else h
  (old, rehash hash malloc_ok h)

/-- `hash_replace (h, new)`. -/
def hash_replace [DecidableEq α] (malloc_ok : Bool) (h : Hash α) (new : α) :
    Option α × Hash α :=
  let bucket := find_bucket hash h new
  let old := find_elem less (h.buckets.getD bucket []) new
  let h := match old with
    | some old => remove_elem h old
    | none => h
  (old, rehash hash malloc_ok (insert_elem h bucket new))

/-- `hash_find (h, e)`. -/
def hash_find (h : Hash α) (e : α) : Option α :=
  find_elem less (h.buckets.getD (find_bucket hash h e) []) e

/-- `hash_delete (h, e)`. -/
def hash_delete [DecidableEq α] (malloc_ok : Bool) (h : Hash α) (e : α) : Option α × Hash α :=
  match find_elem less (h.buckets.getD (find_bucket hash h e) []) e with
  | some found => (some found, rehash hash malloc_ok (remove_elem h found))
  | none => (none, h)

/-- `hash_size (h)`. -/
def hash_size (h : Hash α) : Nat := h.elem_cnt

end Model

section Iteration

variable (h : Hash α)

/-- `hash_first (i, h)`: the head of the first bucket. -/
def hash_first : HashIterator := ⟨0, some 0⟩

/-- `hash_cur (i)`. -/
def hash_cur (i : HashIterator) : Option α :=
  i.elem.bind fun elem => (h.buckets.getD i.bucket [])[elem - 1]?

/-- The loop of `hash_next` from place `elem` of bucket `bucket`: at the tail of a bucket it
moves to the first place of the next one, until the buckets run out. -/
def next_loop (bucket elem : Nat) : HashIterator :=
  if elem = (h.buckets.getD bucket []).length + 1 then
    if h.bucket_cnt ≤ bucket + 1 then ⟨bucket + 1, none⟩
    else next_loop (bucket + 1) 1
  else ⟨bucket, some elem⟩
termination_by h.bucket_cnt - bucket

/-- `hash_next (i)`: the next element, or `none` after the last. Past the end the C code
follows a null pointer; the model stays there. -/
def hash_next (i : HashIterator) : Option α × HashIterator :=
  match i.elem with
  | some elem =>
    let i := next_loop h i.bucket (elem + 1)
    (hash_cur h i, i)
  | none => (none, i)

/-- The elements that `hash_first (&i, h); while (hash_next (&i)) …` visits, in at most
`fuel` calls of `hash_next`. -/
def hash_walk (i : HashIterator) : Nat → List α
  | 0 => []
  | fuel + 1 =>
    match hash_next h i with
    | (some e, i) => e :: hash_walk i fuel
    | (none, _) => []

end Iteration

section Rounding

/-- The loop of `rehash` rounds down to a power of two. -/
theorem round_loop_eq (n : Nat) (hn : n ≠ 0) : round_loop n hn = 2 ^ n.log2 := by
  induction n, hn using round_loop.induct with
  | case1 n hn hp =>
    rw [round_loop, dif_pos hp]
    simp only [is_power_of_2, turn_off_least_1bit, Bool.and_eq_true, bne_iff_ne, ne_eq,
      beq_iff_eq] at hp
    exact PowerOfTwo.eq_two_pow_log2 hn hp.2
  | case2 n hn hp ih =>
    rw [round_loop, dif_neg hp, ih]
    -- off a power of two the loop keeps the highest bit
    have hne : n ≠ 2 ^ n.log2 := by
      intro heq
      apply hp
      rw [is_power_of_2, turn_off_least_1bit, heq, PowerOfTwo.two_pow_land_sub_one]
      simp
    have hlt : 2 ^ n.log2 < n := Nat.lt_of_le_of_ne (Nat.log2_self_le hn) (Ne.symm hne)
    exact congrArg (2 ^ ·) (PowerOfTwo.log2_land_sub_one hlt)

theorem new_bucket_cnt_eq (elem_cnt : Nat) :
    new_bucket_cnt elem_cnt =
      2 ^ (if elem_cnt / 2 < 4 then 4 else elem_cnt / 2).log2 := by
  rw [new_bucket_cnt, round_loop_eq]
  rfl

theorem four_le_new_bucket_cnt (elem_cnt : Nat) : 4 ≤ new_bucket_cnt elem_cnt := by
  rw [new_bucket_cnt_eq]
  have hm : 4 ≤ if elem_cnt / 2 < 4 then 4 else elem_cnt / 2 := by
    split <;> omega
  have hlog : 2 ≤ (if elem_cnt / 2 < 4 then 4 else elem_cnt / 2).log2 :=
    (Nat.le_log2 (by omega)).mpr hm
  calc 4 = 2 ^ 2 := rfl
    _ ≤ _ := Nat.pow_le_pow_right (by decide) hlog

theorem new_bucket_cnt_pow2 (elem_cnt : Nat) : ∃ k, new_bucket_cnt elem_cnt = 2 ^ k :=
  ⟨_, new_bucket_cnt_eq elem_cnt⟩

end Rounding

section Layout

variable (hash : α → Nat)

/-- Where the elements of a table are, whatever `hash` and `less` are. -/
structure Hash.Layout (h : Hash α) : Prop where
  pow2 : ∃ k, h.bucket_cnt = 2 ^ k
  length_buckets : h.buckets.length = h.bucket_cnt
  placed : ∀ i (hi : i < h.buckets.length), ∀ e ∈ h.buckets[i], find_bucket hash h e = i

variable {hash} {h : Hash α} {e x : α} {i : Nat}

@[simp] theorem Hash.length_push_front :
    (h.push_front i e).buckets.length = h.buckets.length :=
  List.length_modify ..

/-- The empty buckets of a power of two. -/
theorem Hash.Layout.empty (elem_cnt : Nat) {n : Nat} (hn : ∃ k, n = 2 ^ k) :
    (⟨elem_cnt, n, List.replicate n []⟩ : Hash α).Layout hash where
  pow2 := hn
  length_buckets := List.length_replicate
  placed := by simp

theorem Hash.Layout.find_bucket_lt (hl : h.Layout hash) (e : α) :
    find_bucket hash h e < h.buckets.length := by
  obtain ⟨k, hk⟩ := hl.pow2
  rw [hl.length_buckets, find_bucket, hk, Nat.and_two_pow_sub_one_eq_mod]
  exact Nat.mod_lt _ (Nat.two_pow_pos k)

/-- Every element of the table is in the bucket it belongs in. -/
theorem Hash.Layout.mem_bucket (hl : h.Layout hash) (hx : x ∈ h.buckets.flatten) :
    x ∈ h.buckets.getD (find_bucket hash h x) [] := by
  obtain ⟨b, hb, hxb⟩ := List.mem_flatten.mp hx
  obtain ⟨i, hi, rfl⟩ := List.getElem_of_mem hb
  rw [hl.placed i hi x hxb, List.getD_eq_getElem _ _ hi]
  exact hxb

theorem Hash.flatten_push_front (hi : i < h.buckets.length) :
    (h.push_front i e).buckets.flatten ~ e :: h.buckets.flatten := by
  have hsplit := List.drop_eq_getElem_cons hi
  calc (h.push_front i e).buckets.flatten
      = (h.buckets.take i).flatten ++ e :: (h.buckets[i] ++ (h.buckets.drop (i + 1)).flatten) := by
        simp [Hash.push_front, List.modify_eq_take_cons_drop hi]
    _ ~ e :: ((h.buckets.take i).flatten ++ (h.buckets[i] ++ (h.buckets.drop (i + 1)).flatten)) :=
        List.perm_middle
    _ = e :: h.buckets.flatten := by
        rw [← List.flatten_cons, ← hsplit, ← List.flatten_append, List.take_append_drop]

/-- Pushing an element onto the bucket it belongs in keeps the layout. -/
theorem Hash.Layout.push_front (hl : h.Layout hash) (e : α) :
    (h.push_front (find_bucket hash h e) e).Layout hash where
  pow2 := hl.pow2
  length_buckets := by
    rw [Hash.length_push_front, hl.length_buckets]
    rfl
  placed := by
    intro j hj x hx
    simp only [Hash.push_front, List.getElem_modify] at hx
    split at hx
    · rcases List.mem_cons.mp hx with rfl | hx
      · assumption
      · exact hl.placed j _ x hx
    · exact hl.placed j _ x hx

/-- `insert_elem` lays out its element as `list_push_front` does. -/
theorem Hash.Layout.insert_elem (hl : h.Layout hash) (e : α) :
    (Lib.insert_elem h (find_bucket hash h e) e).Layout hash :=
  let hp := hl.push_front e
  ⟨hp.pow2, hp.length_buckets, hp.placed⟩

theorem move_elems_cons (h : Hash α) (x : α) (l : List α) :
    move_elems hash h (x :: l) = move_elems hash (h.push_front (find_bucket hash h x) x) l :=
  rfl

@[simp] theorem bucket_cnt_move_elems (h : Hash α) (l : List α) :
    (move_elems hash h l).bucket_cnt = h.bucket_cnt := by
  induction l generalizing h with
  | nil => rfl
  | cons x l ih => rw [move_elems_cons, ih]; rfl

@[simp] theorem elem_cnt_move_elems (h : Hash α) (l : List α) :
    (move_elems hash h l).elem_cnt = h.elem_cnt := by
  induction l generalizing h with
  | nil => rfl
  | cons x l ih => rw [move_elems_cons, ih]; rfl

theorem Hash.Layout.move_elems (hl : h.Layout hash) (l : List α) :
    (move_elems hash h l).Layout hash := by
  induction l generalizing h with
  | nil => exact hl
  | cons x l ih => exact ih (hl.push_front x)

/-- Moving elements into a table adds them to its elements. -/
theorem flatten_move_elems (hl : h.Layout hash) (l : List α) :
    (move_elems hash h l).buckets.flatten ~ l ++ h.buckets.flatten := by
  induction l generalizing h with
  | nil => exact List.Perm.refl _
  | cons x l ih =>
    calc (move_elems hash h (x :: l)).buckets.flatten
        ~ l ++ (h.push_front (find_bucket hash h x) x).buckets.flatten := ih (hl.push_front x)
      _ ~ l ++ x :: h.buckets.flatten :=
        (Hash.flatten_push_front (hl.find_bucket_lt x)).append_left l
      _ ~ x :: l ++ h.buckets.flatten := List.perm_middle

/-- An element of a bucket is an element of the table. -/
theorem mem_flatten_of_mem_getD {L : List (List α)} {i : Nat} (hx : x ∈ L.getD i []) :
    x ∈ L.flatten := by
  by_cases hi : i < L.length
  · rw [List.getD_eq_getElem _ _ hi] at hx
    exact List.mem_flatten.mpr ⟨L[i], List.getElem_mem hi, hx⟩
  · rw [List.getD_eq_default _ _ (Nat.le_of_not_lt hi)] at hx
    exact absurd hx List.not_mem_nil

section Remove

variable [DecidableEq α]

@[simp] theorem elem_cnt_remove_elem : (remove_elem h x).elem_cnt = h.elem_cnt - 1 := rfl

/-- `list_remove` unlinks `x` from the one list it is on. -/
theorem flatten_map_erase {L : List (List α)} (hnd : L.flatten.Nodup) :
    (L.map (·.erase x)).flatten = L.flatten.erase x := by
  induction L with
  | nil => rfl
  | cons b L ih =>
    rw [List.flatten_cons] at hnd
    rw [List.map_cons, List.flatten_cons, List.flatten_cons, ih hnd.of_append_right]
    by_cases hb : x ∈ b
    · -- then no later bucket holds `x`
      have hx : x ∉ L.flatten := fun hx => (List.nodup_append.mp hnd).2.2 x hb x hx rfl
      rw [List.erase_append_left _ hb, List.erase_of_not_mem hx]
    · rw [List.erase_of_not_mem hb, List.erase_append_right _ hb]

theorem flatten_remove_elem (hnd : h.buckets.flatten.Nodup) :
    (remove_elem h x).buckets.flatten = h.buckets.flatten.erase x :=
  flatten_map_erase hnd

theorem Hash.Layout.remove_elem (hl : h.Layout hash) (x : α) :
    (remove_elem h x).Layout hash where
  pow2 := hl.pow2
  length_buckets := by
    rw [Lib.remove_elem, List.length_map]
    exact hl.length_buckets
  placed := by
    intro j hj y hy
    simp only [Lib.remove_elem, List.getElem_map] at hy
    exact hl.placed j (by simpa [Lib.remove_elem] using hj) y (List.mem_of_mem_erase hy)

end Remove

section Rehash

variable {malloc_ok : Bool}

/-- What `rehash` can do: keep the table, or move every element, bucket by bucket, into
`new_bucket_cnt` empty buckets. -/
theorem rehash_cases (hash : α → Nat) (malloc_ok : Bool) (h : Hash α) :
    rehash hash malloc_ok h = h ∨
      rehash hash malloc_ok h = move_elems hash
        ⟨h.elem_cnt, new_bucket_cnt h.elem_cnt, List.replicate (new_bucket_cnt h.elem_cnt) []⟩
        h.buckets.flatten := by
  by_cases hsame : new_bucket_cnt h.elem_cnt = h.bucket_cnt
  · exact .inl (if_pos hsame)
  · cases malloc_ok
    · exact .inl ((if_neg hsame).trans (if_pos rfl))
    · exact .inr ((if_neg hsame).trans ((if_neg Bool.noConfusion).trans List.foldl_flatten.symm))

theorem Hash.Layout.rehash (hl : h.Layout hash) (malloc_ok : Bool) :
    (rehash hash malloc_ok h).Layout hash := by
  rcases rehash_cases hash malloc_ok h with hr | hr <;> rw [hr]
  · exact hl
  · exact (Hash.Layout.empty _ (new_bucket_cnt_pow2 _)).move_elems _

/-- `rehash` keeps the elements. -/
theorem flatten_rehash (malloc_ok : Bool) (h : Hash α) :
    (rehash hash malloc_ok h).buckets.flatten ~ h.buckets.flatten := by
  rcases rehash_cases hash malloc_ok h with hr | hr
  · rw [hr]
  · rw [hr]
    have hempty : (⟨h.elem_cnt, new_bucket_cnt h.elem_cnt,
        List.replicate (new_bucket_cnt h.elem_cnt) []⟩ : Hash α).Layout hash :=
      Hash.Layout.empty _ (new_bucket_cnt_pow2 h.elem_cnt)
    have hmove := flatten_move_elems hempty h.buckets.flatten
    rwa [List.flatten_replicate_nil, List.append_nil] at hmove

@[simp] theorem elem_cnt_rehash : (rehash hash malloc_ok h).elem_cnt = h.elem_cnt := by
  rcases rehash_cases hash malloc_ok h with hr | hr <;> rw [hr]
  rw [elem_cnt_move_elems]

theorem four_le_rehash (h4 : 4 ≤ h.bucket_cnt) : 4 ≤ (rehash hash malloc_ok h).bucket_cnt := by
  rcases rehash_cases hash malloc_ok h with hr | hr <;> rw [hr]
  · exact h4
  · rw [bucket_cnt_move_elems]
    exact four_le_new_bucket_cnt _

end Rehash

end Layout

section Invariant

variable (hash : α → Nat) (less : α → α → Bool)

/-- The invariant of a table that `hash_init` built. -/
structure Hash.Inv (h : Hash α) : Prop extends Hash.Layout hash h where
  four_le : 4 ≤ h.bucket_cnt
  distinct : h.buckets.flatten.Pairwise fun x y => ¬IncompRel (less · ·) x y
  elem_cnt : h.elem_cnt = h.buckets.flatten.length

/-- The set the table stands for. -/
def Hash.contents [DecidableEq α] (h : Hash α) : Finset α := h.buckets.flatten.toFinset

variable {hash less} {h : Hash α} {e x : α}

/-- `find_elem`'s test is that neither element is `less` than the other. -/
@[simp] theorem find_elem_test (a b : α) :
    (!less a b && !less b a) = true ↔ IncompRel (less · ·) a b := by
  simp [IncompRel]

theorem find_elem_some {bucket : List α} (hf : find_elem less bucket e = some x) :
    x ∈ bucket ∧ IncompRel (less · ·) x e := by
  have hfind : bucket.find? (fun hi => !less hi e && !less e hi) = some x := hf
  have htest := List.find?_some hfind
  exact ⟨List.mem_of_find?_eq_some hfind, (find_elem_test x e).mp htest⟩

theorem find_elem_none {bucket : List α} (hf : find_elem less bucket e = none) :
    ∀ x ∈ bucket, ¬IncompRel (less · ·) x e :=
  fun x hx hxe => List.find?_eq_none.mp hf x hx ((find_elem_test x e).mpr hxe)

/-- No two elements are equal: a symmetric relation. -/
theorem not_incompRel_symm {a b : α} (hab : ¬IncompRel (less · ·) a b) :
    ¬IncompRel (less · ·) b a :=
  fun hba => hab hba.symm

theorem Hash.Inv.nodup [IsStrictWeakOrder α (less · ·)] (hi : h.Inv hash less) :
    h.buckets.flatten.Nodup := by
  refine hi.distinct.imp ?_
  intro a b hab heq
  subst heq
  exact hab (IncompRel.refl _ a)

/-- A table with the same elements, laid out, with enough buckets and counted, keeps the
invariant. -/
theorem Hash.Inv.of_perm {h' : Hash α} (hi : h.Inv hash less) (hl : h'.Layout hash)
    (h4 : 4 ≤ h'.bucket_cnt) (hp : h'.buckets.flatten ~ h.buckets.flatten)
    (hc : h'.elem_cnt = h.elem_cnt) : h'.Inv hash less where
  toLayout := hl
  four_le := h4
  distinct := (hp.pairwise_iff not_incompRel_symm).mpr hi.distinct
  elem_cnt := by rw [hc, hi.elem_cnt, hp.length_eq]

theorem Hash.Inv.rehash (hi : h.Inv hash less) (malloc_ok : Bool) :
    (rehash hash malloc_ok h).Inv hash less :=
  hi.of_perm (hi.toLayout.rehash malloc_ok) (four_le_rehash hi.four_le)
    (flatten_rehash malloc_ok h) elem_cnt_rehash

section Contents

variable [DecidableEq α]

theorem Hash.Inv.reps (hi : h.Inv hash less) : Reps (less · ·) h.contents :=
  reps_toFinset hi.distinct

@[simp] theorem contents_rehash (malloc_ok : Bool) (h : Hash α) :
    (rehash hash malloc_ok h).contents = h.contents :=
  List.toFinset_eq_of_perm _ _ (flatten_rehash malloc_ok h)

/-- An element with no equal in the table, pushed onto its bucket, is one more element. -/
theorem Hash.Inv.insert_elem (hi : h.Inv hash less) (hf : Found (less · ·) h.contents e none) :
    (Lib.insert_elem h (find_bucket hash h e) e).Inv hash less ∧
      (Lib.insert_elem h (find_bucket hash h e) e).contents = Insert.insert e h.contents := by
  have hp : (Lib.insert_elem h (find_bucket hash h e) e).buckets.flatten ~
      e :: h.buckets.flatten :=
    Hash.flatten_push_front (hi.find_bucket_lt e)
  refine ⟨⟨hi.toLayout.insert_elem e, hi.four_le, ?_, ?_⟩, ?_⟩
  · rw [hp.pairwise_iff not_incompRel_symm, List.pairwise_cons]
    exact ⟨fun y hy hey => hf y (List.mem_toFinset.mpr hy) hey.symm, hi.distinct⟩
  · rw [hp.length_eq, List.length_cons, ← hi.elem_cnt]
    rfl
  · rw [Hash.contents, List.toFinset_eq_of_perm _ _ hp, List.toFinset_cons]
    rfl

/-- Removing an element of the table is one element less. -/
theorem Hash.Inv.remove_elem [IsStrictWeakOrder α (less · ·)] (hi : h.Inv hash less)
    (hx : x ∈ h.buckets.flatten) :
    (Lib.remove_elem h x).Inv hash less ∧ (Lib.remove_elem h x).contents = h.contents.erase x := by
  have hflat := flatten_remove_elem (x := x) hi.nodup
  refine ⟨⟨hi.toLayout.remove_elem x, hi.four_le, ?_, ?_⟩, ?_⟩
  · rw [hflat]
    exact hi.distinct.sublist List.erase_sublist
  · rw [hflat, List.length_erase_of_mem hx, elem_cnt_remove_elem, hi.elem_cnt]
  · ext y
    rw [Hash.contents, hflat, List.mem_toFinset, hi.nodup.mem_erase_iff, Finset.mem_erase,
      Hash.contents, List.mem_toFinset]

/-- The bucket of `e` holds every element equal to `e`, so `find_elem` there answers for the
whole table, when equal elements hash alike. -/
theorem Hash.Inv.found_find (hhash : ∀ a b, IncompRel (less · ·) a b → hash a = hash b)
    (hi : h.Inv hash less) (e : α) :
    Found (less · ·) h.contents e (find_elem less (h.buckets.getD (find_bucket hash h e) []) e) := by
  cases hf : find_elem less (h.buckets.getD (find_bucket hash h e) []) e with
  | some x =>
    obtain ⟨hx, hxe⟩ := find_elem_some hf
    exact ⟨List.mem_toFinset.mpr (mem_flatten_of_mem_getD hx), hxe⟩
  | none =>
    intro x hx hxe
    have hmem := hi.mem_bucket (List.mem_toFinset.mp hx)
    rw [find_bucket, hhash x e hxe] at hmem
    exact find_elem_none hf x hmem hxe

/-- `hash_clear` empties the table and keeps its buckets. -/
theorem Hash.Inv.hash_clear (hi : h.Inv hash less) :
    (Lib.hash_clear h).Inv hash less ∧ (Lib.hash_clear h).contents = ∅ := by
  have hflat : (Lib.hash_clear h).buckets.flatten = [] := List.flatten_replicate_nil
  refine ⟨⟨Hash.Layout.empty 0 hi.pow2, hi.four_le, ?_, ?_⟩, ?_⟩
  · rw [hflat]
    exact List.Pairwise.nil
  · rw [hflat]
    rfl
  · rw [Hash.contents, hflat]
    rfl

end Contents

end Invariant

/-- A call of the table's interface, with the outcome of `malloc` where the call runs
`rehash`. -/
inductive HashOp (α : Type*)
  | insert (new : α) (malloc_ok : Bool)
  | replace (new : α) (malloc_ok : Bool)
  | find (e : α)
  | delete (e : α) (malloc_ok : Bool)
  | clear

section Calls

variable (hash : α → Nat) (less : α → α → Bool) [DecidableEq α]

/-- One call: what it returns (`hash_clear` returns nothing) and the table after it. -/
def hash_step (h : Hash α) : HashOp α → Option α × Hash α
  | .insert new malloc_ok => hash_insert hash less malloc_ok h new
  | .replace new malloc_ok => hash_replace hash less malloc_ok h new
  | .find e => (hash_find hash less h e, h)
  | .delete e malloc_ok => hash_delete hash less malloc_ok h e
  | .clear => (none, hash_clear h)

/-- The results of a sequence of calls, and the table after them. -/
def hash_run (h : Hash α) : List (HashOp α) → List (Option α) × Hash α
  | [] => ([], h)
  | op :: ops =>
    let r := hash_step hash less h op
    let rs := hash_run r.2 ops
    (r.1 :: rs.1, rs.2)

end Calls

section SetModel

variable (lt : α → α → Prop) [DecidableRel lt] [DecidableEq α]

/-- What a call does to a set modulo the equivalence of `lt`. -/
def set_step (S : Finset α) : HashOp α → Finset α
  | .insert new _ => WeakOrderSet.insert lt S new
  | .replace new _ => WeakOrderSet.replace lt S new
  | .find _ => S
  | .delete e _ => WeakOrderSet.erase lt S e
  | .clear => ∅

/-- What a call may return on the set `S`. -/
def SetResult (S : Finset α) : HashOp α → Option α → Prop
  | .insert e _, r | .replace e _, r | .find e, r | .delete e _, r => Found lt S e r
  | .clear, r => r = none

/-- The set after a sequence of calls. -/
def set_run (S : Finset α) (ops : List (HashOp α)) : Finset α := ops.foldl (set_step lt) S

end SetModel

section Refinement

variable {hash : α → Nat} {less : α → α → Bool} [DecidableEq α] {h : Hash α}

theorem hash_insert_refines (hhash : ∀ a b, IncompRel (less · ·) a b → hash a = hash b)
    (hi : h.Inv hash less) (malloc_ok : Bool) (e : α) :
    Found (less · ·) h.contents e (hash_insert hash less malloc_ok h e).1 ∧
      (hash_insert hash less malloc_ok h e).2.Inv hash less ∧
      (hash_insert hash less malloc_ok h e).2.contents =
        WeakOrderSet.insert (less · ·) h.contents e := by
  have hf := hi.found_find hhash e
  simp only [hash_insert]
  cases hfe : find_elem less (h.buckets.getD (find_bucket hash h e) []) e with
  | none =>
    rw [hfe] at hf
    obtain ⟨hinv, hcont⟩ := hi.insert_elem hf
    rw [if_pos rfl]
    exact ⟨hf, hinv.rehash malloc_ok, by rw [contents_rehash, hcont, insert_of_found_none hf]⟩
  | some x =>
    rw [hfe] at hf
    rw [if_neg (Option.some_ne_none x)]
    exact ⟨hf, hi.rehash malloc_ok, by rw [contents_rehash, insert_of_found_some hf]⟩

variable [IsStrictWeakOrder α (less · ·)]

theorem hash_replace_refines (hhash : ∀ a b, IncompRel (less · ·) a b → hash a = hash b)
    (hi : h.Inv hash less) (malloc_ok : Bool) (e : α) :
    Found (less · ·) h.contents e (hash_replace hash less malloc_ok h e).1 ∧
      (hash_replace hash less malloc_ok h e).2.Inv hash less ∧
      (hash_replace hash less malloc_ok h e).2.contents =
        WeakOrderSet.replace (less · ·) h.contents e := by
  have hf := hi.found_find hhash e
  simp only [hash_replace]
  cases hfe : find_elem less (h.buckets.getD (find_bucket hash h e) []) e with
  | none =>
    rw [hfe] at hf
    obtain ⟨hinv, hcont⟩ := hi.insert_elem hf
    refine ⟨hf, hinv.rehash malloc_ok, ?_⟩
    rw [contents_rehash, hcont, WeakOrderSet.replace, erase_of_found_none hf]
  | some x =>
    rw [hfe] at hf
    obtain ⟨hinv₁, hcont₁⟩ := hi.remove_elem (List.mem_toFinset.mp hf.1)
    -- once `x` is gone, no element is equal to `e`
    have hf₁ : Found (less · ·) (remove_elem h x).contents e none := by
      intro y hy hye
      rw [hcont₁, Finset.mem_erase] at hy
      exact hy.1 (hi.reps.eq_of_incompRel hy.2 hf.1 hye hf.2)
    obtain ⟨hinv₂, hcont₂⟩ := hinv₁.insert_elem hf₁
    have hbucket : find_bucket hash (remove_elem h x) e = find_bucket hash h e := rfl
    rw [hbucket] at hinv₂ hcont₂
    refine ⟨hf, hinv₂.rehash malloc_ok, ?_⟩
    rw [contents_rehash, hcont₂, hcont₁, WeakOrderSet.replace, hi.reps.erase_eq hf]

theorem hash_delete_refines (hhash : ∀ a b, IncompRel (less · ·) a b → hash a = hash b)
    (hi : h.Inv hash less) (malloc_ok : Bool) (e : α) :
    Found (less · ·) h.contents e (hash_delete hash less malloc_ok h e).1 ∧
      (hash_delete hash less malloc_ok h e).2.Inv hash less ∧
      (hash_delete hash less malloc_ok h e).2.contents =
        WeakOrderSet.erase (less · ·) h.contents e := by
  have hf := hi.found_find hhash e
  simp only [hash_delete]
  cases hfe : find_elem less (h.buckets.getD (find_bucket hash h e) []) e with
  | none =>
    rw [hfe] at hf
    exact ⟨hf, hi, (erase_of_found_none hf).symm⟩
  | some x =>
    rw [hfe] at hf
    obtain ⟨hinv, hcont⟩ := hi.remove_elem (List.mem_toFinset.mp hf.1)
    exact ⟨hf, hinv.rehash malloc_ok, by rw [contents_rehash, hcont, hi.reps.erase_eq hf]⟩

/-- Every call keeps the invariant, does to the elements what the set operation does, and
returns what the set says. -/
theorem hash_step_refines (hhash : ∀ a b, IncompRel (less · ·) a b → hash a = hash b)
    (hi : h.Inv hash less) (op : HashOp α) :
    (hash_step hash less h op).2.Inv hash less ∧
      (hash_step hash less h op).2.contents = set_step (less · ·) h.contents op ∧
      SetResult (less · ·) h.contents op (hash_step hash less h op).1 := by
  cases op with
  | insert new malloc_ok =>
    obtain ⟨hr, hinv, hc⟩ := hash_insert_refines hhash hi malloc_ok new
    exact ⟨hinv, hc, hr⟩
  | replace new malloc_ok =>
    obtain ⟨hr, hinv, hc⟩ := hash_replace_refines hhash hi malloc_ok new
    exact ⟨hinv, hc, hr⟩
  | find e => exact ⟨hi, rfl, hi.found_find hhash e⟩
  | delete e malloc_ok =>
    obtain ⟨hr, hinv, hc⟩ := hash_delete_refines hhash hi malloc_ok e
    exact ⟨hinv, hc, hr⟩
  | clear =>
    obtain ⟨hinv, hc⟩ := hi.hash_clear
    exact ⟨hinv, hc, rfl⟩

/-- The run lemma: over any sequence of calls. -/
theorem hash_run_refines (hhash : ∀ a b, IncompRel (less · ·) a b → hash a = hash b)
    (hi : h.Inv hash less) (ops : List (HashOp α)) :
    (hash_run hash less h ops).2.Inv hash less ∧
      (hash_run hash less h ops).2.contents = set_run (less · ·) h.contents ops := by
  induction ops generalizing h with
  | nil => exact ⟨hi, rfl⟩
  | cons op ops ih =>
    obtain ⟨hinv, hc, -⟩ := hash_step_refines hhash hi op
    obtain ⟨hinv', hc'⟩ := ih hinv
    refine ⟨hinv', ?_⟩
    rw [hash_run, hc', hc]
    rfl

end Refinement

section Walk

variable {h : Hash α}

/-- The elements after place `p` of bucket `b`, to the end of the table. -/
def Hash.rest (h : Hash α) (b p : Nat) : List α :=
  (h.buckets.getD b []).drop p ++ (h.buckets.drop (b + 1)).flatten

/-- From place `p` of bucket `b`, the loop of `hash_next` stops at the next element of the
table, if there is one, and there the rest is what followed it. -/
theorem next_loop_spec (hlen : h.buckets.length = h.bucket_cnt) (b p : Nat)
    (hb : b < h.bucket_cnt) (hp : p ≤ (h.buckets.getD b []).length) :
    match h.rest b p with
    | [] => (next_loop h b (p + 1)).elem = none
    | e :: r => ∃ b' p', next_loop h b (p + 1) = ⟨b', some (p' + 1)⟩ ∧ b' < h.bucket_cnt ∧
        (h.buckets.getD b' [])[p']? = some e ∧ p' + 1 ≤ (h.buckets.getD b' []).length ∧
        h.rest b' (p' + 1) = r := by
  rw [next_loop]
  by_cases hend : p = (h.buckets.getD b []).length
  · -- at the tail of bucket `b`: the rest is in the later buckets
    rw [if_pos (by omega)]
    have hrest : h.rest b p = (h.buckets.drop (b + 1)).flatten := by
      rw [Hash.rest, hend, List.drop_length, List.nil_append]
    by_cases hlast : h.bucket_cnt ≤ b + 1
    · rw [if_pos hlast, hrest, List.drop_eq_nil_of_le (by omega)]
      rfl
    · rw [if_neg hlast]
      have hnext := next_loop_spec hlen (b + 1) 0 (by omega) (Nat.zero_le _)
      have hfirst : h.rest (b + 1) 0 = (h.buckets.drop (b + 1)).flatten := by
        rw [Hash.rest, List.drop_zero, List.getD_eq_getElem _ _ (by omega), ← List.flatten_cons,
          ← List.drop_eq_getElem_cons]
      rwa [hrest, ← hfirst]
  · -- the next element of bucket `b`
    have hlt : p < (h.buckets.getD b []).length := by omega
    rw [if_neg (by omega)]
    have hrest : h.rest b p = (h.buckets.getD b [])[p] :: h.rest b (p + 1) := by
      rw [Hash.rest, Hash.rest, List.drop_eq_getElem_cons hlt, List.cons_append]
    rw [hrest]
    exact ⟨b, p, rfl, hb, List.getElem?_eq_getElem hlt, hlt, rfl⟩
termination_by h.bucket_cnt - b

/-- With fuel for one more call than there are elements left, the iteration returns the
rest of the table. -/
theorem hash_walk_rest (hlen : h.buckets.length = h.bucket_cnt) (fuel : Nat) {b p : Nat}
    (hb : b < h.bucket_cnt) (hp : p ≤ (h.buckets.getD b []).length)
    (hfuel : (h.rest b p).length < fuel) :
    hash_walk h ⟨b, some p⟩ fuel = h.rest b p := by
  induction fuel generalizing b p with
  | zero => exact absurd hfuel (Nat.not_lt_zero _)
  | succ fuel ih =>
    have hspec := next_loop_spec hlen b p hb hp
    rw [hash_walk, hash_next]
    cases hr : h.rest b p with
    | nil =>
      rw [hr] at hspec
      simp only [hash_cur, hspec, Option.bind_none]
    | cons e r =>
      rw [hr] at hspec hfuel
      obtain ⟨b', p', hnl, hb', hget, hp', hrest'⟩ := hspec
      simp only [hnl, hash_cur, Option.bind_some, Nat.add_sub_cancel, hget]
      rw [ih hb' hp' (by rw [hrest']; simp only [List.length_cons] at hfuel; omega), hrest']

/-- So from `hash_first`, `hash_next` visits every element of the table in bucket order,
then returns `NULL`. -/
theorem Hash.Inv.hash_walk_first {hash : α → Nat} {less : α → α → Bool}
    (hi : h.Inv hash less) : hash_walk h hash_first (h.elem_cnt + 1) = h.buckets.flatten := by
  have h0 : 0 < h.buckets.length := by
    have := hi.four_le
    have := hi.length_buckets
    omega
  have hrest : h.rest 0 0 = h.buckets.flatten := by
    rw [Hash.rest, List.drop_zero, List.getD_eq_getElem _ _ h0, ← List.flatten_cons,
      ← List.drop_eq_getElem_cons h0, List.drop_zero]
  rw [hash_first, hash_walk_rest hi.length_buckets _ (Nat.lt_of_lt_of_le (by decide) hi.four_le)
    (Nat.zero_le _)
    (by rw [hrest, ← hi.elem_cnt]; omega), hrest]

end Walk

/-- A table that `hash_init` built is empty and keeps the invariant. -/
theorem hash_init_inv {hash : α → Nat} {less : α → α → Bool} [DecidableEq α] {malloc_ok : Bool}
    {h₀ : Hash α} (hinit : hash_init malloc_ok = some h₀) :
    h₀.Inv hash less ∧ h₀.contents = ∅ := by
  cases malloc_ok with
  | false => exact absurd hinit (by simp [hash_init])
  | true =>
    simp only [hash_init, if_true, Option.some.injEq] at hinit
    subst hinit
    exact ⟨⟨Hash.Layout.empty 0 ⟨2, rfl⟩, Nat.le_refl 4, List.Pairwise.nil, rfl⟩, rfl⟩

/-- A table built by `hash_init` is a finite set modulo the equivalence of `less` under every
sequence of calls, whatever `malloc` does in `rehash`, for a strict weak order `less` and a
`hash` under which equal elements hash alike. After the calls the table keeps `Hash.Inv`:
a power of two of at least four buckets, each element in bucket
`hash (e) & (bucket_cnt - 1)`, no two elements equal and `elem_cnt` of them. Its elements
are the set the calls build, and the next call returns what that set says. `hash_first`
and `hash_next` visit the elements in order, each once, and then return `NULL`. -/
theorem hash_calls_act_on_set (hash : α → Nat) (less : α → α → Bool) [DecidableEq α]
    [IsStrictWeakOrder α (less · ·)]
    (hhash : ∀ a b, IncompRel (less · ·) a b → hash a = hash b) {h₀ : Hash α}
    (hinit : hash_init true = some h₀) (ops : List (HashOp α)) :
    let h := (hash_run hash less h₀ ops).2
    h.Inv hash less ∧ h.contents = set_run (less · ·) ∅ ops ∧
      (∀ op, SetResult (less · ·) h.contents op (hash_step hash less h op).1) ∧
      hash_walk h hash_first (h.elem_cnt + 1) = h.buckets.flatten ∧ h.buckets.flatten.Nodup := by
  intro h
  obtain ⟨hi₀, hc₀⟩ : h₀.Inv hash less ∧ h₀.contents = ∅ := hash_init_inv hinit
  obtain ⟨hi, hc⟩ := hash_run_refines hhash hi₀ ops
  refine ⟨hi, by rw [hc, hc₀], fun op => (hash_step_refines hhash hi op).2.2,
    hi.hash_walk_first, hi.nodup⟩

/-- Elements compared by their keys `a / 10`. -/
def key_less (a b : Nat) : Bool := decide (a / 10 < b / 10)

instance key_less_strictWeakOrder : IsStrictWeakOrder Nat (key_less · ·) where
  irrefl a := by simp [key_less]
  trans a b c := by
    simp only [key_less, decide_eq_true_eq]
    omega
  incomp_trans a b c := by
    simp only [key_less, decide_eq_true_eq]
    omega

theorem incompRel_key_less {a b : Nat} : IncompRel (key_less · ·) a b ↔ a / 10 = b / 10 := by
  simp only [IncompRel, key_less, decide_eq_true_eq]
  omega

theorem hash_calls_act_on_set_keys :
    (∀ a b, IncompRel (key_less · ·) a b → a / 10 = b / 10) ∧
      hash_init true = some (⟨0, 4, [[], [], [], []]⟩ : Hash Nat) ∧
      let h := (hash_run (· / 10) key_less ⟨0, 4, [[], [], [], []]⟩
        [.insert 10 true, .insert 11 true]).2
      h.Inv (· / 10) key_less ∧
        h.contents = set_run (key_less · ·) ∅ [.insert 10 true, .insert 11 true] ∧
        (∀ op, SetResult (key_less · ·) h.contents op (hash_step (· / 10) key_less h op).1) ∧
        hash_walk h hash_first (h.elem_cnt + 1) = h.buckets.flatten ∧ h.buckets.flatten.Nodup :=
  ⟨fun _ _ => incompRel_key_less.mp, rfl,
    hash_calls_act_on_set (· / 10) key_less (fun _ _ => incompRel_key_less.mp) rfl _⟩

/-- With a `hash` that equal elements do not share, such as the element itself, `10` and
`11` are equal under `key_less` but land in buckets 2 and 3: the second `hash_insert`
returns `NULL` although `10` is in the table, and the table ends with two equal elements. -/
theorem hash_insert_misses_equal_element :
    hash_init true = some (⟨0, 4, [[], [], [], []]⟩ : Hash Nat) ∧
      (hash_run id key_less ⟨0, 4, [[], [], [], []]⟩ [.insert 10 true, .insert 11 true]).1 =
        [none, none] ∧
      (hash_run id key_less ⟨0, 4, [[], [], [], []]⟩
        [.insert 10 true, .insert 11 true]).2.buckets = [[], [], [10], [11]] ∧
      IncompRel (key_less · ·) 10 11 := by
  refine ⟨rfl, ?_, ?_, incompRel_key_less.mpr rfl⟩
  all_goals
    simp only [hash_run, hash_step, hash_insert, rehash, new_bucket_cnt_eq]
    decide

end Pintos.Lib
