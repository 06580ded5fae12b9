import Mathlib.Data.List.Chain
import Mathlib.Data.List.Destutter
import Pintos.Lib.List

/-!
# The links of `lib/kernel/list.c`

Every `struct list_elem` has a `prev` and a `next` link, and a `struct list` is
its two header elements. `Holds L l xs` says that the links `L` make `l` the
well-formed list of the distinct elements `xs`: the head's `prev` and the tail's
`next` are null, and `next` and `prev` are inverse along the chain from the head
through `xs` to the tail.

The operations are written as the source writes them, one assignment at a time,
each reading the links as the assignments before it left them; a failed `ASSERT`
or a null pointer that is followed is `none`. Their loops take a `fuel` bound.
`list_insert` and `list_splice` share the four assignments that link a range in
before an element (`splice_in`), and `list_remove` and `list_splice` the two that
unlink one (`splice_out`); the main lemmas are about these two, and the
refinements of every operation to its sequence (`Pintos.Lib.list_insert_ordered`,
`Pintos.Lib.list_unique`, `List.reverse`) are built from them.
-/

namespace Pintos.Lib.ListLinks

variable {ι : Type}

/-- The `prev` and `next` links of every element; `none` is a null pointer. -/
structure Links (ι : Type) where
  prev : ι → Option ι
  next : ι → Option ι

namespace Links

/-- `L'` has the links of `L` at every element outside `S`. -/
def AgreeOff (L L' : Links ι) (S : List ι) : Prop :=
  ∀ x, x ∉ S → L'.prev x = L.prev x ∧ L'.next x = L.next x

theorem AgreeOff.refl (L : Links ι) (S : List ι) : AgreeOff L L S :=
  fun _ _ => ⟨rfl, rfl⟩

theorem AgreeOff.trans {L₁ L₂ L₃ : Links ι} {S T : List ι} (h₁ : AgreeOff L₁ L₂ S)
    (h₂ : AgreeOff L₂ L₃ T) : AgreeOff L₁ L₃ (S ++ T) := by
  intro x hx
  rw [List.mem_append, not_or] at hx
  obtain ⟨hp₁, hn₁⟩ := h₁ x hx.1
  obtain ⟨hp₂, hn₂⟩ := h₂ x hx.2
  exact ⟨hp₂.trans hp₁, hn₂.trans hn₁⟩

theorem AgreeOff.mono {L L' : Links ι} {S T : List ι} (h : AgreeOff L L' S) (hST : S ⊆ T) :
    AgreeOff L L' T :=
  fun x hx => h x fun hS => hx (hST hS)

end Links

open Links

/-- `u->next == v` and `v->prev == u`. -/
def Linked (L : Links ι) (u v : ι) : Prop :=
  L.next u = some v ∧ L.prev v = some u

/-- `struct list`: its header elements. -/
structure KList (ι : Type) where
  head : ι
  tail : ι

/-- The elements of the list from its head to its tail, when `xs` are the interior ones. -/
def KList.nodes (l : KList ι) (xs : List ι) : List ι :=
  l.head :: xs ++ [l.tail]

/-- The links make `l` the well-formed list of the distinct elements `xs`. -/
structure Holds (L : Links ι) (l : KList ι) (xs : List ι) : Prop where
  head_prev : L.prev l.head = none
  tail_next : L.next l.tail = none
  linked : (l.nodes xs).IsChain (Linked L)
  nodup : (l.nodes xs).Nodup

/-! ## Frames -/

/-- A chain of links survives new links that keep `next` wherever the chain reads
it (all its elements but the last) and `prev` wherever it reads that (all but the
first). -/
theorem IsChain.linked_frame {L L' : Links ι} :
    ∀ {ns : List ι}, ns.IsChain (Linked L) → (∀ u ∈ ns.dropLast, L'.next u = L.next u) →
      (∀ v ∈ ns.tail, L'.prev v = L.prev v) → ns.IsChain (Linked L')
  | [], _, _, _ => .nil
  | [u], _, _, _ => .singleton u
  | u :: v :: ns, h, hn, hp => by
    obtain ⟨⟨huv, hvu⟩, hrest⟩ := List.isChain_cons_cons.mp h
    have hnu : L'.next u = L.next u := hn u (by simp)
    have hpv : L'.prev v = L.prev v := hp v (by simp)
    refine .cons_cons ⟨hnu.trans huv, hpv.trans hvu⟩ (IsChain.linked_frame hrest ?_ ?_)
    · intro w hw
      exact hn w (by simp only [List.dropLast_cons_cons, List.mem_cons]; exact .inr hw)
    · intro w hw
      exact hp w (List.mem_of_mem_tail hw)

/-- A list holds under new links that agree with the old ones on its elements. -/
theorem Holds.agree {L L' : Links ι} {l : KList ι} {xs S : List ι} (h : Holds L l xs)
    (hL : AgreeOff L L' S) (hS : ∀ x ∈ l.nodes xs, x ∉ S) : Holds L' l xs where
  head_prev := (hL _ (hS _ (by simp [KList.nodes]))).1.trans h.head_prev
  tail_next := (hL _ (hS _ (by simp [KList.nodes]))).2.trans h.tail_next
  linked := IsChain.linked_frame h.linked
    (fun u hu => (hL u (hS u (List.dropLast_subset _ hu))).2)
    (fun v hv => (hL v (hS v (List.mem_of_mem_tail hv))).1)
  nodup := h.nodup

theorem Holds.prev_eq {L : Links ι} {l : KList ι} {xs : List ι} {P Q : List ι} {u v : ι}
    (h : Holds L l xs) (hns : l.nodes xs = P ++ u :: v :: Q) : L.prev v = some u :=
  (List.isChain_append_cons_cons.mp (hns ▸ h.linked)).2.1.2

theorem Holds.next_eq {L : Links ι} {l : KList ι} {xs : List ι} {P Q : List ι} {u v : ι}
    (h : Holds L l xs) (hns : l.nodes xs = P ++ u :: v :: Q) : L.next u = some v :=
  (List.isChain_append_cons_cons.mp (hns ▸ h.linked)).2.1.1

/-- The elements between the head and the tail are linked among themselves. -/
theorem Holds.chain_interior {L : Links ι} {l : KList ι} {xs : List ι} (h : Holds L l xs) :
    xs.IsChain (Linked L) :=
  h.linked.infix ⟨[l.head], [l.tail], rfl⟩

theorem Holds.chain_mid {L : Links ι} {l : KList ι} {as ms bs : List ι}
    (h : Holds L l (as ++ ms ++ bs)) : ms.IsChain (Linked L) :=
  h.linked.infix ⟨l.head :: as, bs ++ [l.tail], by simp [KList.nodes]⟩

/-! ## Linking a range in and out -/

variable [DecidableEq ι]

namespace Links

/-- `e->prev = p`. -/
def setPrev (L : Links ι) (e : ι) (p : Option ι) : Links ι :=
  ⟨Function.update L.prev e p, L.next⟩

/-- `e->next = n`. -/
def setNext (L : Links ι) (e : ι) (n : Option ι) : Links ι :=
  ⟨L.prev, Function.update L.next e n⟩

/-- `swap (&e->prev, &e->next)`. -/
def swap (L : Links ι) (e : ι) : Links ι :=
  (L.setPrev e (L.next e)).setNext e (L.prev e)

@[simp] theorem setPrev_prev (L : Links ι) (e x : ι) (p : Option ι) :
    (L.setPrev e p).prev x = if x = e then p else L.prev x :=
  Function.update_apply _ _ _ _

@[simp] theorem setPrev_next (L : Links ι) (e : ι) (p : Option ι) :
    (L.setPrev e p).next = L.next := rfl

@[simp] theorem setNext_next (L : Links ι) (e x : ι) (n : Option ι) :
    (L.setNext e n).next x = if x = e then n else L.next x :=
  Function.update_apply _ _ _ _

@[simp] theorem setNext_prev (L : Links ι) (e : ι) (n : Option ι) :
    (L.setNext e n).prev = L.prev := rfl

end Links


/-- `first->prev->next = last->next; last->next->prev = first->prev;`: the two
assignments with which `list_splice` unlinks the range `first` to `last`, and
`list_remove` one element. -/
def splice_out (first last : ι) (L : Links ι) : Option (Links ι) := do
  let p ← L.prev first
  let L := L.setNext p (L.next last)
  let n ← L.next last
  pure (L.setPrev n (L.prev first))

/-- `first->prev = before->prev; last->next = before; before->prev->next = first;
before->prev = last;`: the four assignments with which `list_splice` links the
range `first` to `last` in before `before`, and `list_insert` one element. -/
def splice_in (before first last : ι) (L : Links ι) : Option (Links ι) := do
  let L := L.setPrev first (L.prev before)
  let L := L.setNext last (some before)
  let p ← L.prev before
  let L := L.setNext p (some first)
  pure (L.setPrev before (some last))

theorem splice_out_eq {L : Links ι} {first last p n : ι} (hp : L.prev first = some p)
    (hn : L.next last = some n) :
    splice_out first last L = some ((L.setNext p (some n)).setPrev n (some p)) := by
  simp [splice_out, hp, hn]

theorem splice_in_eq {L : Links ι} {before first last p : ι} (hp : L.prev before = some p)
    (hbf : before ≠ first) :
    splice_in before first last L =
      some ((((L.setPrev first (some p)).setNext last (some before)).setNext p
        (some first)).setPrev before (some last)) := by
  simp [splice_in, hp, hbf]

omit [DecidableEq ι] in
theorem ne_of_mem_dropLast {ms : List ι} {u last : ι} (hnd : ms.Nodup)
    (hl : ms.getLast? = some last) (hu : u ∈ ms.dropLast) : u ≠ last := by
  obtain ⟨M, rfl⟩ := List.getLast?_eq_some_iff.mp hl
  rw [List.dropLast_concat] at hu
  grind

omit [DecidableEq ι] in
theorem ne_of_mem_tail {ms : List ι} {v first : ι} (hnd : ms.Nodup)
    (hf : ms.head? = some first) (hv : v ∈ ms.tail) : v ≠ first := by
  obtain ⟨M, rfl⟩ := List.head?_eq_some_iff.mp hf
  grind

/-- Unlinking the range between `p` and `n` links `p` to `n` and keeps the
chains on either side. -/
theorem splice_out_chain {L : Links ι} {P Q ms : List ι} {p n : ι}
    (h : (P ++ [p] ++ ms ++ n :: Q).IsChain (Linked L)) (hnd : (P ++ [p] ++ ms ++ n :: Q).Nodup) :
    (P ++ p :: n :: Q).IsChain (Linked ((L.setNext p (some n)).setPrev n (some p))) := by
  have hP : (P ++ [p]).IsChain (Linked L) := h.infix ⟨[], ms ++ n :: Q, by simp⟩
  have hQ : (n :: Q).IsChain (Linked L) := h.infix ⟨P ++ [p] ++ ms, [], by simp⟩
  refine List.isChain_append_cons_cons.mpr ⟨?_, ⟨by simp, by simp⟩, ?_⟩
  · refine IsChain.linked_frame hP (fun u hu => ?_) (fun v hv => ?_)
    · rw [List.dropLast_concat] at hu
      have hup : u ≠ p := by grind
      simp [hup]
    · have hv' := List.mem_of_mem_tail hv
      have hvn : v ≠ n := by grind
      simp [hvn]
  · refine IsChain.linked_frame hQ (fun u hu => ?_) (fun v hv => ?_)
    · have hu' := List.dropLast_subset _ hu
      have hup : u ≠ p := by grind
      simp [hup]
    · have hvn : v ≠ n := by grind
      simp [hvn]

/-- Linking the chain `ms` in between `p` and `before` keeps the chains on either
side and the chain of `ms`. -/
theorem splice_in_chain {L : Links ι} {P Q ms : List ι} {p before first last : ι}
    (h : (P ++ p :: before :: Q).IsChain (Linked L)) (hnd : (P ++ p :: before :: Q ++ ms).Nodup)
    (hms : ms.IsChain (Linked L)) (hf : ms.head? = some first) (hl : ms.getLast? = some last) :
    (P ++ [p] ++ ms ++ before :: Q).IsChain (Linked ((((L.setPrev first (some p)).setNext last
      (some before)).setNext p (some first)).setPrev before (some last))) := by
  obtain ⟨hP, -, hQ⟩ := List.isChain_append_cons_cons.mp h
  have hfirst : first ∈ ms := List.mem_of_mem_head? hf
  have hlast : last ∈ ms := List.mem_of_mem_getLast? hl
  have hmsnd : ms.Nodup := (List.nodup_append.mp hnd).2.1
  refine List.IsChain.append (List.IsChain.append ?_ ?_ ?_) ?_ ?_
  · refine IsChain.linked_frame hP (fun u hu => ?_) (fun v hv => ?_)
    · rw [List.dropLast_concat] at hu
      have hup : u ≠ p := by grind
      have hul : u ≠ last := by grind
      simp [hup, hul]
    · have hv' := List.mem_of_mem_tail hv
      have hvb : v ≠ before := by grind
      have hvf : v ≠ first := by grind
      simp [hvb, hvf]
  · refine IsChain.linked_frame hms (fun u hu => ?_) (fun v hv => ?_)
    · have hu' := List.dropLast_subset _ hu
      have hup : u ≠ p := by grind
      have hul : u ≠ last := ne_of_mem_dropLast hmsnd hl hu
      simp [hup, hul]
    · have hv' := List.mem_of_mem_tail hv
      have hvb : v ≠ before := by grind
      have hvf : v ≠ first := ne_of_mem_tail hmsnd hf hv
      simp [hvb, hvf]
  · intro x hx y hy
    have hxp : x = p := by simpa using hx.symm
    have hyf : y = first := by simpa [hf] using hy.symm
    have hfb : first ≠ before := by grind
    rw [hxp, hyf]
    simp [Linked, hfb]
  · refine IsChain.linked_frame hQ (fun u hu => ?_) (fun v hv => ?_)
    · have hu' := List.dropLast_subset _ hu
      have hup : u ≠ p := by grind
      have hul : u ≠ last := by grind
      simp [hup, hul]
    · have hvb : v ≠ before := by grind
      have hvf : v ≠ first := by grind
      simp [hvb, hvf]
  · intro x hx y hy
    rw [List.getLast?_append, hl] at hx
    have hxl : x = last := by simpa using hx.symm
    have hyb : y = before := by simpa using hy.symm
    have hlp : last ≠ p := by grind
    rw [hxl, hyb]
    simp [Linked, hlp]

/-! ## Where the links of a well-formed list point -/

omit [DecidableEq ι] in
theorem KList.nodes_append (l : KList ι) (as bs : List ι) :
    l.nodes (as ++ bs) = (l.head :: as) ++ (bs ++ [l.tail]) := by
  simp [KList.nodes]

omit [DecidableEq ι] in
theorem exists_concat_cons (l : KList ι) (as : List ι) : ∃ P p, l.head :: as = P ++ [p] :=
  ⟨_, _, (List.dropLast_append_getLast (List.cons_ne_nil _ _)).symm⟩

omit [DecidableEq ι] in
theorem exists_cons_concat (l : KList ι) (bs : List ι) : ∃ n Q, bs ++ [l.tail] = n :: Q :=
  List.exists_cons_of_ne_nil (by simp)

omit [DecidableEq ι] in
/-- An element's `next` is the element after it, or the tail. -/
theorem Holds.next_mid {L : Links ι} {l : KList ι} {as bs : List ι} {x : ι}
    (h : Holds L l (as ++ x :: bs)) : L.next x = (bs ++ [l.tail]).head? := by
  obtain ⟨n, Q, hnQ⟩ := exists_cons_concat l bs
  have hns : l.nodes (as ++ x :: bs) = (l.head :: as) ++ x :: n :: Q := by
    simp [KList.nodes, hnQ]
  rw [h.next_eq hns, hnQ, List.head?_cons]

omit [DecidableEq ι] in
/-- An element's `prev` is the element before it, or the head. -/
theorem Holds.prev_mid {L : Links ι} {l : KList ι} {as bs : List ι} {x : ι}
    (h : Holds L l (as ++ x :: bs)) : L.prev x = (l.head :: as).getLast? := by
  obtain ⟨P, p, hPp⟩ := exists_concat_cons l as
  have hns : l.nodes (as ++ x :: bs) = P ++ p :: x :: (bs ++ [l.tail]) := by
    rw [KList.nodes_append, ← List.cons_append, hPp]
    simp
  rw [h.prev_eq hns, hPp, List.getLast?_concat]

omit [DecidableEq ι] in
theorem Holds.next_head {L : Links ι} {l : KList ι} {xs : List ι} (h : Holds L l xs) :
    L.next l.head = (xs ++ [l.tail]).head? := by
  obtain ⟨n, Q, hnQ⟩ := exists_cons_concat l xs
  have hns : l.nodes xs = [] ++ l.head :: n :: Q := by
    rw [List.nil_append, ← hnQ]
    rfl
  rw [h.next_eq hns, hnQ, List.head?_cons]

omit [DecidableEq ι] in
theorem Holds.prev_tail {L : Links ι} {l : KList ι} {xs : List ι} (h : Holds L l xs) :
    L.prev l.tail = (l.head :: xs).getLast? := by
  obtain ⟨P, p, hPp⟩ := exists_concat_cons l xs
  have hns : l.nodes xs = P ++ p :: l.tail :: [] := by
    rw [KList.nodes, hPp]
    simp
  rw [h.prev_eq hns, hPp, List.getLast?_concat]

omit [DecidableEq ι] in
/-- Every element after the head has a `prev`. -/
theorem Holds.prev_isSome {L : Links ι} {l : KList ι} {xs : List ι} {x : ι} (h : Holds L l xs)
    (hx : x ∈ xs ++ [l.tail]) : (L.prev x).isSome := by
  rcases List.mem_append.mp hx with hx | hx
  · obtain ⟨as, bs, rfl⟩ := List.append_of_mem hx
    simp [h.prev_mid]
  · rw [List.mem_singleton.mp hx, h.prev_tail]
    simp

omit [DecidableEq ι] in
/-- Every element before the tail has a `next`. -/
theorem Holds.next_isSome {L : Links ι} {l : KList ι} {xs : List ι} {x : ι} (h : Holds L l xs)
    (hx : x ∈ l.head :: xs) : (L.next x).isSome := by
  rcases List.mem_cons.mp hx with hx | hx
  · rw [hx, h.next_head]
    simp
  · obtain ⟨as, bs, rfl⟩ := List.append_of_mem hx
    simp [h.next_mid]

/-! ## The two link updates on a well-formed list -/

/-- Unlinking a range of a list leaves the list of the elements around it, and
changes links only there. -/
theorem Holds.splice_out {L : Links ι} {l : KList ι} {as ms bs : List ι} {first last : ι}
    (h : Holds L l (as ++ ms ++ bs)) (hf : ms.head? = some first)
    (hl : ms.getLast? = some last) :
    ∃ L', splice_out first last L = some L' ∧ Holds L' l (as ++ bs) ∧
      AgreeOff L L' (l.nodes (as ++ bs)) := by
  obtain ⟨P, p, hPp⟩ := exists_concat_cons l as
  obtain ⟨n, Q, hnQ⟩ := exists_cons_concat l bs
  obtain ⟨M, hM⟩ := List.head?_eq_some_iff.mp hf
  obtain ⟨M', hM'⟩ := List.getLast?_eq_some_iff.mp hl
  have hns : l.nodes (as ++ ms ++ bs) = P ++ [p] ++ ms ++ n :: Q := by
    rw [List.append_assoc, KList.nodes_append, ← hnQ, ← hPp]
    simp
  have hns' : l.nodes (as ++ bs) = P ++ p :: n :: Q := by
    rw [KList.nodes_append, hPp, hnQ]
    simp
  have hnd := hns ▸ h.nodup
  have hpf : L.prev first = some p := h.prev_eq (P := P) (Q := M ++ n :: Q) (by rw [hns, hM]; simp)
  have hln : L.next last = some n :=
    h.next_eq (P := P ++ [p] ++ M') (Q := Q) (by rw [hns, hM']; simp)
  refine ⟨_, splice_out_eq hpf hln, ?_, fun x hx => ?_⟩
  · have hhead : l.head ∈ P ++ [p] := hPp ▸ List.mem_cons_self
    have htail : l.tail ∈ n :: Q := hnQ ▸ List.mem_append_right bs (List.mem_singleton_self _)
    have hhn : l.head ≠ n := by grind
    have htp : l.tail ≠ p := by grind
    refine ⟨by simp [hhn, h.head_prev], by simp [htp, h.tail_next], ?_, ?_⟩
    · rw [hns']
      exact splice_out_chain (hns ▸ h.linked) hnd
    · rw [hns']
      exact hnd.sublist (by simp)
  · have hxp : x ≠ p := by rw [hns'] at hx; grind
    have hxn : x ≠ n := by rw [hns'] at hx; grind
    simp [hxp, hxn]

/-- Linking a chain of elements outside a list in before one of its elements
gives the list with the chain inserted there, and changes links only at the
elements around the insertion and at the chain's ends. -/
theorem Holds.splice_in {L : Links ι} {l : KList ι} {ps qs ms : List ι} {before first last : ι}
    (h : Holds L l (ps ++ qs)) (hb : (qs ++ [l.tail]).head? = some before)
    (hms : ms.IsChain (Linked L)) (hf : ms.head? = some first) (hl : ms.getLast? = some last)
    (hnd : (l.nodes (ps ++ qs) ++ ms).Nodup) :
    ∃ L', splice_in before first last L = some L' ∧ Holds L' l (ps ++ ms ++ qs) ∧
      AgreeOff L L' (l.nodes (ps ++ qs) ++ ms) := by
  obtain ⟨P, p, hPp⟩ := exists_concat_cons l ps
  obtain ⟨Q, hQ⟩ := List.head?_eq_some_iff.mp hb
  have hns : l.nodes (ps ++ qs) = P ++ p :: before :: Q := by
    rw [KList.nodes_append, hPp, hQ]
    simp
  have hns' : l.nodes (ps ++ ms ++ qs) = P ++ [p] ++ ms ++ before :: Q := by
    rw [List.append_assoc, KList.nodes_append, ← hQ, ← hPp]
    simp
  rw [hns] at hnd
  have hfirst : first ∈ ms := List.mem_of_mem_head? hf
  have hlast : last ∈ ms := List.mem_of_mem_getLast? hl
  have hbf : before ≠ first := by grind
  refine ⟨_, splice_in_eq (h.prev_eq hns) hbf, ?_, fun x hx => ?_⟩
  · have hhead : l.head ∈ P ++ [p] := hPp ▸ List.mem_cons_self
    have htail : l.tail ∈ before :: Q := hQ ▸ List.mem_append_right qs (List.mem_singleton_self _)
    have hhb : l.head ≠ before := by grind
    have hhf : l.head ≠ first := by grind
    have htp : l.tail ≠ p := by grind
    have htl : l.tail ≠ last := by grind
    refine ⟨by simp [hhb, hhf, h.head_prev], by simp [htp, htl, h.tail_next], ?_, ?_⟩
    · rw [hns']
      exact splice_in_chain (hns ▸ h.linked) hnd hms hf hl
    · rw [hns']
      refine hnd.perm ?_
      simp only [List.append_assoc, List.cons_append, List.nil_append]
      exact ((@List.perm_append_comm _ (before :: Q) ms).cons p).append_left P
  · rw [hns] at hx
    have hxb : x ≠ before := by grind
    have hxf : x ≠ first := by grind
    have hxp : x ≠ p := by grind
    have hxl : x ≠ last := by grind
    simp [hxb, hxf, hxp, hxl]

/-! ## The operations -/

/-- `is_head (elem)`. -/
def is_head (L : Links ι) (e : ι) : Bool :=
  (L.prev e).isNone && (L.next e).isSome

/-- `is_interior (elem)`. -/
def is_interior (L : Links ι) (e : ι) : Bool :=
  (L.prev e).isSome && (L.next e).isSome

/-- `is_tail (elem)`. -/
def is_tail (L : Links ι) (e : ι) : Bool :=
  (L.prev e).isSome && (L.next e).isNone

/-- `list_begin (list)`. -/
def list_begin (l : KList ι) (L : Links ι) : Option ι :=
  L.next l.head

/-- `list_end (list)`. -/
def list_end (l : KList ι) : ι :=
  l.tail

/-- `list_next (elem)`. -/
def list_next (e : ι) (L : Links ι) : Option ι := do
  guard (is_head L e || is_interior L e)
  L.next e

/-- `list_prev (elem)`. -/
def list_prev (e : ι) (L : Links ι) : Option ι := do
  guard (is_interior L e || is_tail L e)
  L.prev e

/-- `list_empty (list)`. -/
def list_empty (l : KList ι) (L : Links ι) : Bool :=
  list_begin l L == some (list_end l)

/-- `list_front (list)`. -/
def list_front (l : KList ι) (L : Links ι) : Option ι := do
  guard (!list_empty l L)
  L.next l.head

/-- `list_back (list)`. -/
def list_back (l : KList ι) (L : Links ι) : Option ι := do
  guard (!list_empty l L)
  L.prev l.tail

/-- `list_insert (before, elem)`. -/
def list_insert (before elem : ι) (L : Links ι) : Option (Links ι) := do
  guard (is_interior L before || is_tail L before)
  splice_in before elem elem L

/-- `list_splice (before, first, last)`: `last` is first moved back to the last
element of the range. -/
def list_splice (before first last : ι) (L : Links ι) : Option (Links ι) := do
  guard (is_interior L before || is_tail L before)
  if first = last then pure L
  else do
    let last ← list_prev last L
    guard (is_interior L first)
    guard (is_interior L last)
    let L ← splice_out first last L
    splice_in before first last L

/-- `list_push_front (list, elem)`. -/
def list_push_front (l : KList ι) (elem : ι) (L : Links ι) : Option (Links ι) := do
  let b ← list_begin l L
  list_insert b elem L

/-- `list_push_back (list, elem)`. -/
def list_push_back (l : KList ι) (elem : ι) (L : Links ι) : Option (Links ι) :=
  list_insert (list_end l) elem L

/-- `list_remove (elem)`, with the element it returns. -/
def list_remove (elem : ι) (L : Links ι) : Option (Links ι × Option ι) := do
  guard (is_interior L elem)
  let L ← splice_out elem elem L
  pure (L, L.next elem)

/-- `list_pop_front (list)`. -/
def list_pop_front (l : KList ι) (L : Links ι) : Option (Links ι × ι) := do
  let front ← list_front l L
  let (L, _) ← list_remove front L
  pure (L, front)

/-- `list_pop_back (list)`. -/
def list_pop_back (l : KList ι) (L : Links ι) : Option (Links ι × ι) := do
  let back ← list_back l L
  let (L, _) ← list_remove back L
  pure (L, back)

omit [DecidableEq ι] in
theorem Holds.before_ok {L : Links ι} {l : KList ι} {xs : List ι} {x : ι} (h : Holds L l xs)
    (hx : x ∈ xs ++ [l.tail]) : (is_interior L x || is_tail L x) = true := by
  have hp := h.prev_isSome hx
  cases hn : L.next x <;> simp [is_interior, is_tail, hp, hn]

omit [DecidableEq ι] in
theorem Holds.interior_ok {L : Links ι} {l : KList ι} {xs : List ι} {x : ι} (h : Holds L l xs)
    (hx : x ∈ xs) : is_interior L x = true := by
  have hp := h.prev_isSome (List.mem_append_left _ hx)
  have hn := h.next_isSome (List.mem_cons_of_mem _ hx)
  simp [is_interior, hp, hn]

theorem Holds.not_empty {L : Links ι} {l : KList ι} {x : ι} {xs : List ι}
    (h : Holds L l (x :: xs)) : list_empty l L = false := by
  have hxt : x ≠ l.tail := by
    have := h.nodup
    simp only [KList.nodes, List.cons_append, List.nodup_cons, List.mem_cons, List.mem_append] at this
    grind
  simp [list_empty, list_begin, list_end, h.next_head, hxt]

/-- `list_insert` puts `elem` in the sequence just before `before`. -/
theorem list_insert_holds {L : Links ι} {l : KList ι} {ps qs : List ι} {before elem : ι}
    (h : Holds L l (ps ++ qs)) (hb : (qs ++ [l.tail]).head? = some before)
    (he : elem ∉ l.nodes (ps ++ qs)) :
    ∃ L', list_insert before elem L = some L' ∧ Holds L' l (ps ++ elem :: qs) ∧
      AgreeOff L L' (l.nodes (ps ++ qs) ++ [elem]) := by
  have hnd : (l.nodes (ps ++ qs) ++ [elem]).Nodup :=
    List.nodup_append.mpr ⟨h.nodup, List.nodup_singleton elem, by grind⟩
  obtain ⟨L', hL', hh, hagree⟩ := h.splice_in hb (List.isChain_singleton elem)
    (show [elem].head? = some elem from rfl) (show [elem].getLast? = some elem from rfl) hnd
  have hok := h.before_ok (x := before) (by
    have hb' := List.mem_of_mem_head? hb
    rw [List.append_assoc]
    exact List.mem_append_right ps hb')
  refine ⟨L', ?_, by simpa using hh, hagree⟩
  simp [list_insert, hok, hL']

/-- `list_remove` takes `elem` out of the sequence and returns what followed it. -/
theorem list_remove_holds {L : Links ι} {l : KList ι} {as bs : List ι} {elem : ι}
    (h : Holds L l (as ++ elem :: bs)) :
    ∃ L', list_remove elem L = some (L', (bs ++ [l.tail]).head?) ∧ Holds L' l (as ++ bs) ∧
      AgreeOff L L' (l.nodes (as ++ bs)) := by
  have h' : Holds L l (as ++ [elem] ++ bs) := by simpa using h
  obtain ⟨L', hL', hh, hagree⟩ := h'.splice_out
    (show [elem].head? = some elem from rfl) (show [elem].getLast? = some elem from rfl)
  have hin := h.interior_ok (List.mem_append_right as List.mem_cons_self)
  have helem : elem ∉ l.nodes (as ++ bs) := by
    have hnd := h.nodup
    unfold KList.nodes at hnd ⊢
    grind
  have hnext : L'.next elem = (bs ++ [l.tail]).head? := by
    rw [(hagree elem helem).2, h.next_mid]
  refine ⟨L', ?_, hh, hagree⟩
  simp [list_remove, hin, hL', hnext]

/-- `list_push_front` puts `elem` in front. -/
theorem list_push_front_holds {L : Links ι} {l : KList ι} {xs : List ι} {elem : ι}
    (h : Holds L l xs) (he : elem ∉ l.nodes xs) :
    ∃ L', list_push_front l elem L = some L' ∧ Holds L' l (elem :: xs) ∧
      AgreeOff L L' (l.nodes xs ++ [elem]) := by
  obtain ⟨b, hb⟩ := Option.isSome_iff_exists.mp (h.next_isSome List.mem_cons_self)
  have h' : Holds L l ([] ++ xs) := h
  obtain ⟨L', hL', hh, hagree⟩ := list_insert_holds h' (hb ▸ h.next_head).symm he
  refine ⟨L', ?_, hh, hagree⟩
  simp [list_push_front, list_begin, hb, hL']

/-- `list_push_back` puts `elem` at the back. -/
theorem list_push_back_holds {L : Links ι} {l : KList ι} {xs : List ι} {elem : ι}
    (h : Holds L l xs) (he : elem ∉ l.nodes xs) :
    ∃ L', list_push_back l elem L = some L' ∧ Holds L' l (xs ++ [elem]) ∧
      AgreeOff L L' (l.nodes xs ++ [elem]) := by
  obtain ⟨L', hL', hh, hagree⟩ :=
    list_insert_holds (show Holds L l (xs ++ []) by simpa using h) rfl (by simpa using he)
  exact ⟨L', hL', by simpa using hh, by simpa using hagree⟩

/-- `list_pop_front` takes the front element out and returns it. -/
theorem list_pop_front_holds {L : Links ι} {l : KList ι} {x : ι} {xs : List ι}
    (h : Holds L l (x :: xs)) :
    ∃ L', list_pop_front l L = some (L', x) ∧ Holds L' l xs ∧ AgreeOff L L' (l.nodes xs) := by
  obtain ⟨L', hL', hh, hagree⟩ := list_remove_holds (show Holds L l ([] ++ x :: xs) from h)
  refine ⟨L', ?_, hh, hagree⟩
  simp [list_pop_front, list_front, h.not_empty, h.next_head, hL']

/-- `list_pop_back` takes the back element out and returns it. -/
theorem list_pop_back_holds {L : Links ι} {l : KList ι} {x : ι} {xs : List ι}
    (h : Holds L l (xs ++ [x])) :
    ∃ L', list_pop_back l L = some (L', x) ∧ Holds L' l xs ∧ AgreeOff L L' (l.nodes xs) := by
  obtain ⟨L', hL', hh, hagree⟩ := list_remove_holds h
  have hne : list_empty l L = false := by
    cases xs with
    | nil => exact h.not_empty
    | cons y ys => exact (show Holds L l (y :: (ys ++ [x])) from h).not_empty
  have hback : (l.head :: (xs ++ [x])).getLast? = some x := by
    rw [← List.cons_append, List.getLast?_concat]
  refine ⟨L', ?_, by simpa using hh, by simpa using hagree⟩
  simp [list_pop_back, list_back, hne, h.prev_tail, hback, hL']

omit [DecidableEq ι] in
theorem Holds.prev_of_head? {L : Links ι} {l : KList ι} {as bs : List ι} {x : ι}
    (h : Holds L l (as ++ bs)) (hx : (bs ++ [l.tail]).head? = some x) :
    L.prev x = (l.head :: as).getLast? := by
  cases bs with
  | nil =>
    rw [List.nil_append, List.head?_singleton, Option.some_inj] at hx
    rw [← hx, h.prev_tail, List.append_nil]
  | cons b bs =>
    rw [List.cons_append, List.head?_cons, Option.some_inj] at hx
    rw [← hx, h.prev_mid]

omit [DecidableEq ι] in
/-- A chain of elements outside the ones new links change keeps its links. -/
theorem IsChain.agree {L L' : Links ι} {ns S : List ι} (h : ns.IsChain (Linked L))
    (hL : AgreeOff L L' S) (hS : ∀ x ∈ ns, x ∉ S) : ns.IsChain (Linked L') :=
  IsChain.linked_frame h (fun u hu => (hL u (hS u (List.dropLast_subset _ hu))).2)
    (fun v hv => (hL v (hS v (List.mem_of_mem_tail hv))).1)

/-- Past its checks, `list_splice` of a non-empty range unlinks it and links it in
before `before`. -/
theorem list_splice_eq {L : Links ι} {l : KList ι} {as ms bs : List ι} {before first last : ι}
    (h : Holds L l (as ++ ms ++ bs)) (hms : ms ≠ [])
    (hfirst : (ms ++ bs ++ [l.tail]).head? = some first)
    (hlast : (bs ++ [l.tail]).head? = some last)
    (hb : (is_interior L before || is_tail L before) = true) :
    list_splice before first last L =
      (splice_out first (ms.getLast hms) L).bind (splice_in before first (ms.getLast hms)) := by
  have hnd := h.nodup
  have hf : ms.head? = some first := by
    obtain ⟨m, ms', rfl⟩ := List.exists_cons_of_ne_nil hms
    simpa using hfirst
  have hfm : first ∈ ms := List.mem_of_mem_head? hf
  have hlm : last ∈ bs ++ [l.tail] := List.mem_of_mem_head? hlast
  have hlast' : ms.getLast hms ∈ ms := List.getLast_mem hms
  have hfl : first ≠ last := by
    unfold KList.nodes at hnd
    grind
  have hprev : list_prev last L = some (ms.getLast hms) := by
    have hok := h.before_ok (x := last) (by rw [List.append_assoc]; exact List.mem_append_right _ hlm)
    rw [List.append_assoc] at h
    have hp := (show Holds L l ((as ++ ms) ++ bs) by simpa using h).prev_of_head? hlast
    simp only [list_prev, hok, guard_true, hp]
    rw [← List.cons_append, List.getLast?_append_of_ne_nil _ hms, List.getLast?_eq_some_getLast hms]
    rfl
  have hif := h.interior_ok (x := first) (by simp [hfm])
  have hil := h.interior_ok (x := ms.getLast hms) (by simp [hlast'])
  simp [list_splice, hb, hfl, hprev, hif, hil]

/-- `list_splice` within one list: the range `ms` from `first` up to `last`
(exclusive) moves to just before `before`, which is outside the range. -/
theorem list_splice_holds {L : Links ι} {l : KList ι} {as ms bs ps qs : List ι}
    {before first last : ι} (h : Holds L l (as ++ ms ++ bs))
    (hfirst : (ms ++ bs ++ [l.tail]).head? = some first)
    (hlast : (bs ++ [l.tail]).head? = some last)
    (hpq : as ++ bs = ps ++ qs) (hb : (qs ++ [l.tail]).head? = some before) :
    ∃ L', list_splice before first last L = some L' ∧ Holds L' l (ps ++ ms ++ qs) ∧
      AgreeOff L L' (l.nodes (as ++ ms ++ bs)) := by
  have hnd := h.nodup
  have hbok : (is_interior L before || is_tail L before) = true := by
    refine h.before_ok ?_
    have hb' := List.mem_of_mem_head? hb
    have : before ∈ ps ++ qs ++ [l.tail] := by simp_all
    rw [← hpq] at this
    simp only [List.mem_append] at this ⊢
    tauto
  by_cases hms : ms = []
  · subst hms
    have hfl : first = last := by
      rw [List.nil_append] at hfirst
      exact Option.some_inj.mp (hfirst.symm.trans hlast)
    refine ⟨L, by simp [list_splice, hbok, hfl], ?_, AgreeOff.refl L _⟩
    simpa [← hpq] using h
  · have hf : ms.head? = some first := by
      obtain ⟨m, ms', rfl⟩ := List.exists_cons_of_ne_nil hms
      simpa using hfirst
    obtain ⟨L₁, hL₁, h₁, hagree₁⟩ :=
      h.splice_out hf (List.getLast?_eq_some_getLast hms)
    have hmsout : ∀ x ∈ ms, x ∉ l.nodes (as ++ bs) := by
      unfold KList.nodes at hnd ⊢
      grind
    have hchain : ms.IsChain (Linked L₁) :=
      IsChain.agree h.chain_mid hagree₁ hmsout
    have hnd₁ : (l.nodes (ps ++ qs) ++ ms).Nodup := by
      rw [← hpq]
      refine hnd.perm ?_
      have hperm : List.Perm (as ++ ms ++ (bs ++ [l.tail])) (as ++ (bs ++ [l.tail]) ++ ms) := by
        rw [List.append_assoc, List.append_assoc]
        exact List.perm_append_comm.append_left as
      simpa [KList.nodes] using hperm.cons l.head
    obtain ⟨L₂, hL₂, h₂, hagree₂⟩ :=
      (hpq ▸ h₁).splice_in hb hchain hf (List.getLast?_eq_some_getLast hms) hnd₁
    refine ⟨L₂, ?_, h₂, ?_⟩
    · rw [list_splice_eq h hms hfirst hlast hbok, hL₁, Option.bind_some, hL₂]
    · refine (hagree₁.trans hagree₂).mono ?_
      intro x hx
      rw [← hpq] at hx
      unfold KList.nodes at hx ⊢
      simp only [List.mem_append, List.mem_cons] at hx ⊢
      tauto

/-- `list_splice` between two lists: the range `ms` of the first, from `first`
up to `last` (exclusive), moves to just before `before` in the second. -/
theorem list_splice_holds₂ {L : Links ι} {l₁ l₂ : KList ι} {as ms bs ps qs : List ι}
    {before first last : ι} (h₁ : Holds L l₁ (as ++ ms ++ bs)) (h₂ : Holds L l₂ (ps ++ qs))
    (hdisj : ∀ x ∈ l₁.nodes (as ++ ms ++ bs), x ∉ l₂.nodes (ps ++ qs))
    (hfirst : (ms ++ bs ++ [l₁.tail]).head? = some first)
    (hlast : (bs ++ [l₁.tail]).head? = some last)
    (hb : (qs ++ [l₂.tail]).head? = some before) :
    ∃ L', list_splice before first last L = some L' ∧ Holds L' l₁ (as ++ bs) ∧
      Holds L' l₂ (ps ++ ms ++ qs) ∧
      AgreeOff L L' (l₁.nodes (as ++ ms ++ bs) ++ l₂.nodes (ps ++ qs)) := by
  have hnd := h₁.nodup
  have hbok : (is_interior L before || is_tail L before) = true := by
    refine h₂.before_ok ?_
    rw [List.append_assoc]
    exact List.mem_append_right _ (List.mem_of_mem_head? hb)
  by_cases hms : ms = []
  · subst hms
    have hfl : first = last := by
      rw [List.nil_append] at hfirst
      exact Option.some_inj.mp (hfirst.symm.trans hlast)
    refine ⟨L, by simp [list_splice, hbok, hfl], by simpa using h₁, by simpa using h₂,
      AgreeOff.refl L _⟩
  · have hf : ms.head? = some first := by
      obtain ⟨m, ms', rfl⟩ := List.exists_cons_of_ne_nil hms
      simpa using hfirst
    obtain ⟨L₁, hL₁, h₁', hagree₁⟩ :=
      h₁.splice_out hf (List.getLast?_eq_some_getLast hms)
    have hsub : ∀ x ∈ l₁.nodes (as ++ bs), x ∈ l₁.nodes (as ++ ms ++ bs) := by
      unfold KList.nodes
      intro x hx
      simp only [List.mem_append, List.mem_cons] at hx ⊢
      tauto
    have hms₁ : ∀ x ∈ ms, x ∈ l₁.nodes (as ++ ms ++ bs) := by
      unfold KList.nodes
      intro x hx
      simp [hx]
    have hmsout : ∀ x ∈ ms, x ∉ l₁.nodes (as ++ bs) := by
      unfold KList.nodes at hnd ⊢
      grind
    have hchain : ms.IsChain (Linked L₁) :=
      IsChain.agree h₁.chain_mid hagree₁ hmsout
    have h₂' : Holds L₁ l₂ (ps ++ qs) :=
      h₂.agree hagree₁ fun x hx hx₁ => hdisj x (hsub x hx₁) hx
    have hnd₂ : (l₂.nodes (ps ++ qs) ++ ms).Nodup :=
      List.nodup_append.mpr ⟨h₂.nodup, hnd.sublist (by
          rw [show l₁.nodes (as ++ ms ++ bs) = (l₁.head :: as) ++ ms ++ (bs ++ [l₁.tail]) by
            simp [KList.nodes]]
          exact (List.infix_append _ _ _).sublist),
        fun x hx y hy hxy => hdisj y (hms₁ y hy) (hxy ▸ hx)⟩
    obtain ⟨L₂, hL₂, h₂'', hagree₂⟩ :=
      h₂'.splice_in hb hchain hf (List.getLast?_eq_some_getLast hms) hnd₂
    refine ⟨L₂, ?_, ?_, h₂'', ?_⟩
    · rw [list_splice_eq h₁ hms hfirst hlast hbok, hL₁, Option.bind_some, hL₂]
    · refine h₁'.agree hagree₂ fun x hx hx₂ => ?_
      rcases List.mem_append.mp hx₂ with hx₂ | hx₂
      · exact hdisj x (hsub x hx) hx₂
      · exact hmsout x hx₂ hx
    · refine (hagree₁.trans hagree₂).mono ?_
      intro x hx
      simp only [List.mem_append] at hx ⊢
      rcases hx with hx | hx | hx
      · exact .inl (hsub x hx)
      · exact .inr hx
      · exact .inl (hms₁ x hx)

/-! ## `list_reverse` -/

/-- The loop of `list_reverse`: `for (e = list_begin (list); e != list_end (list);
e = e->prev) swap (&e->prev, &e->next);`, for at most `fuel` rounds. After the
swap, `e->prev` is the element that followed `e`. -/
def reverse_loop (tail : ι) : Nat → Option ι → Links ι → Option (Links ι)
  | 0, _, _ => none
  | _ + 1, none, _ => none
  | fuel + 1, some e, L =>
    if e = tail then some L
    else reverse_loop tail fuel ((L.swap e).prev e) (L.swap e)

/-- `list_reverse (list)`. -/
def list_reverse (fuel : Nat) (l : KList ι) (L : Links ι) : Option (Links ι) :=
  if list_empty l L then some L
  else do
    let L ← reverse_loop l.tail fuel (list_begin l L) L
    -- swap (&list->head.next, &list->tail.prev)
    let L := (L.setNext l.head (L.prev l.tail)).setPrev l.tail (L.next l.head)
    -- swap (&list->head.next->prev, &list->tail.prev->next)
    let a ← L.next l.head
    let z ← L.prev l.tail
    pure ((L.setPrev a (L.next z)).setNext z (L.prev a))

@[simp] theorem Links.swap_prev (L : Links ι) (e x : ι) :
    (L.swap e).prev x = if x = e then L.next e else L.prev x := by
  simp [Links.swap]

@[simp] theorem Links.swap_next (L : Links ι) (e x : ι) :
    (L.swap e).next x = if x = e then L.prev e else L.next x := by
  simp [Links.swap]

/-- Swapping the links of distinct elements one after another swaps each of them
once. -/
theorem foldl_swap_apply (x : ι) :
    ∀ (ys : List ι) (M : Links ι), ys.Nodup →
      (ys.foldl Links.swap M).prev x = (if x ∈ ys then M.next x else M.prev x) ∧
      (ys.foldl Links.swap M).next x = (if x ∈ ys then M.prev x else M.next x)
  | [], M, _ => by simp
  | y :: ys, M, hnd => by
    obtain ⟨hy, hys⟩ := List.nodup_cons.mp hnd
    obtain ⟨hp, hn⟩ := foldl_swap_apply x ys (M.swap y) hys
    rw [List.foldl_cons, hp, hn]
    by_cases hxy : x = y
    · subst hxy
      simp [hy]
    · simp [hxy]

/-- With enough fuel the loop swaps the links of every element from the one it
starts at up to the tail, following the old `next` links. -/
theorem reverse_loop_eq (tail : ι) :
    ∀ (ys : List ι) (fuel : Nat) (M : Links ι), ys.length < fuel →
      (ys ++ [tail]).IsChain (fun u v => M.next u = some v) → tail ∉ ys → ys.Nodup →
      reverse_loop tail fuel (ys ++ [tail]).head? M = some (ys.foldl Links.swap M)
  | [], fuel + 1, M, _, _, _, _ => by simp [reverse_loop]
  | y :: ys, fuel + 1, M, hfuel, hchain, htail, hnd => by
    obtain ⟨hy, hys⟩ := List.nodup_cons.mp hnd
    have hyt : y ≠ tail := fun h => htail (h ▸ List.mem_cons_self)
    have htys : tail ∉ ys := fun h => htail (List.mem_cons_of_mem y h)
    rw [List.cons_append, List.isChain_cons] at hchain
    have hnext : (M.swap y).prev y = (ys ++ [tail]).head? := by
      obtain ⟨n, Q, hnQ⟩ : ∃ n Q, ys ++ [tail] = n :: Q := List.exists_cons_of_ne_nil (by simp)
      rw [Links.swap_prev, if_pos rfl, hnQ]
      exact hchain.1 n (by rw [hnQ]; rfl)
    have hchain' : (ys ++ [tail]).IsChain (fun u v => (M.swap y).next u = some v) := by
      refine hchain.2.imp_of_mem_imp fun u v hu _ huv => ?_
      have huy : u ≠ y := by grind
      simpa [huy] using huv
    simp only [List.cons_append, List.head?_cons, reverse_loop, if_neg hyt, List.foldl_cons]
    rw [hnext]
    exact reverse_loop_eq tail ys fuel (M.swap y) (by simpa using hfuel) hchain' htys hys

omit [DecidableEq ι] in
/-- A chain of links read backwards is a chain of the links with `prev` and
`next` exchanged. -/
theorem IsChain.linked_reverse {L : Links ι} {ns : List ι} (h : ns.IsChain (Linked L)) :
    ns.reverse.IsChain (Linked ⟨L.next, L.prev⟩) :=
  List.isChain_reverse.mpr (h.imp fun _ _ huv => ⟨huv.2, huv.1⟩)

/-- `list_reverse` reverses the sequence, given more rounds of fuel than it has elements. -/
theorem list_reverse_holds {L : Links ι} {l : KList ι} {xs : List ι} {fuel : Nat}
    (h : Holds L l xs) (hfuel : xs.length < fuel) :
    ∃ L', list_reverse fuel l L = some L' ∧ Holds L' l xs.reverse ∧
      AgreeOff L L' (l.nodes xs) := by
  cases xs with
  | nil =>
    have hempty : list_empty l L = true := by
      simp [list_empty, list_begin, list_end, h.next_head]
    exact ⟨L, by simp [list_reverse, hempty], h, AgreeOff.refl L _⟩
  | cons x rest =>
    have hnd := h.nodup
    unfold KList.nodes at hnd
    set xs := x :: rest with hxs
    set y := xs.getLast (List.cons_ne_nil x rest) with hy
    have hyxs : y ∈ xs := List.getLast_mem _
    have hxh : x ≠ l.head := by grind
    have hyt : y ≠ l.tail := by grind
    have hht : l.head ≠ l.tail := by grind
    have hhxs : l.head ∉ xs := by grind
    have htxs : l.tail ∉ xs := by grind
    have hxsnd : xs.Nodup := by grind
    -- the loop swaps every element of the list
    have hloop : reverse_loop l.tail fuel (list_begin l L) L = some (xs.foldl Links.swap L) := by
      rw [list_begin, h.next_head]
      refine reverse_loop_eq l.tail xs fuel L hfuel ?_ htxs hxsnd
      exact (h.linked.suffix (List.suffix_append [l.head] _)).imp fun _ _ huv => huv.1
    have hM := fun z => foldl_swap_apply z xs L hxsnd
    have hMh := hM l.head
    have hMt := hM l.tail
    have hMx := hM x
    have hMy := hM y
    simp only [if_neg hhxs] at hMh
    simp only [if_neg htxs] at hMt
    simp only [if_pos (show x ∈ xs from List.mem_cons_self)] at hMx
    simp only [if_pos hyxs] at hMy
    generalize xs.foldl Links.swap L = M at hloop hM hMh hMt hMx hMy
    have hprev_tail : L.prev l.tail = some y := by
      rw [h.prev_tail, List.getLast?_cons, List.getLast?_eq_some_getLast (List.cons_ne_nil x rest)]
      rfl
    have hnext_y : L.next y = some l.tail := by
      have hsplit : xs = xs.dropLast ++ y :: [] := (List.dropLast_append_getLast _).symm
      rw [hsplit] at h
      rw [h.next_mid]
      rfl
    have hprev_x : L.prev x = some l.head := by
      rw [(show Holds L l ([] ++ x :: rest) from h).prev_mid]
      rfl
    have hnext_head : L.next l.head = some x := by
      rw [h.next_head]
      rfl
    have hreverse : list_reverse fuel l L = some (((((M.setNext l.head (some y)).setPrev l.tail
        (some x)).setPrev y (some l.head)).setNext x (some l.tail))) := by
      simp [list_reverse, h.not_empty, hloop, hMt.1, hMh.2, hprev_tail, hnext_head, hxh, hyt,
        hMx.2, hMy.1, hprev_x, hnext_y]
    have hxy : x ∈ xs.reverse.getLast? := by simp [hxs]
    have hyx : y ∈ xs.reverse.head? := by
      rw [List.head?_reverse, List.getLast?_eq_some_getLast (List.cons_ne_nil x rest)]
      rfl
    refine ⟨_, hreverse, ⟨?_, ?_, ?_, ?_⟩, fun z hz => ?_⟩
    · have hhy : l.head ≠ y := fun e => hhxs (e ▸ hyxs)
      simp [hhy, hht, hMh.1, h.head_prev]
    · have htx : l.tail ≠ x := fun e => htxs (e ▸ List.mem_cons_self)
      simp [htx, Ne.symm hht, hMt.2, h.tail_next]
    · -- the interior is the old chain read backwards, its ends are relinked
      have hmid : xs.reverse.IsChain (Linked ⟨L.next, L.prev⟩) :=
        IsChain.linked_reverse h.chain_interior
      refine List.IsChain.append (List.IsChain.append (.singleton _) ?_ ?_) (.singleton _) ?_
      · refine IsChain.linked_frame hmid (fun u hu => ?_) (fun v hv => ?_)
        · replace hu : u ∈ xs.reverse.dropLast := hu
          rw [List.dropLast_reverse, List.mem_reverse] at hu
          have hu' : u ∈ xs := List.mem_of_mem_tail hu
          have hux : u ≠ x := by grind
          have huh : u ≠ l.head := fun e => hhxs (e ▸ hu')
          simp [hux, huh, (hM u).2, hu']
        · replace hv : v ∈ xs.reverse.tail := hv
          rw [List.tail_reverse, List.mem_reverse] at hv
          have hv' : v ∈ xs := List.dropLast_subset _ hv
          have hvy : v ≠ y := ne_of_mem_dropLast hxsnd (List.getLast?_eq_some_getLast _) hv
          have hvt : v ≠ l.tail := fun e => htxs (e ▸ hv')
          simp [hvy, hvt, (hM v).1, hv']
      · intro a ha b hb
        rw [List.getLast?_singleton, Option.mem_some_iff] at ha
        replace hb : b ∈ xs.reverse.head? := hb
        rw [Option.mem_def.mp hyx, Option.mem_some_iff] at hb
        rw [← ha, ← hb]
        simp [Linked, Ne.symm hxh]
      · intro a ha b hb
        replace ha : a ∈ ([l.head] ++ xs.reverse).getLast? := ha
        rw [List.getLast?_append, Option.mem_def.mp hxy, Option.some_or, Option.mem_some_iff] at ha
        rw [List.head?_singleton, Option.mem_some_iff] at hb
        rw [← ha, ← hb]
        simp [Linked, Ne.symm hyt]
    · refine (h.nodup.perm ?_)
      simp only [KList.nodes, List.cons_append]
      exact (((List.reverse_perm xs).append_right _).cons _).symm
    · have hzxs : z ∉ xs := fun e => hz (by simp [KList.nodes, e])
      have hzh : z ≠ l.head := fun e => hz (by simp [KList.nodes, e])
      have hzt : z ≠ l.tail := fun e => hz (by simp [KList.nodes, e])
      have hzx : z ≠ x := fun e => hzxs (e ▸ List.mem_cons_self)
      have hzy : z ≠ y := fun e => hzxs (e ▸ hyxs)
      simp [hzxs, hzh, hzt, hzx, hzy, hM z]

/-! ## `list_insert_ordered` -/

/-- The loop of `list_insert_ordered`: `for (e = list_begin (list); e != list_end (list);
e = list_next (e)) if (less (elem, e, aux)) break;`, for at most `fuel` rounds; the
element it stops at. -/
def insert_ordered_loop (less : ι → ι → Bool) (elem tail : ι) :
    Nat → Option ι → Links ι → Option ι
  | 0, _, _ => none
  | _ + 1, none, _ => none
  | fuel + 1, some e, L =>
    if e = tail then some e
    else if less elem e then some e
    else insert_ordered_loop less elem tail fuel (list_next e L) L

/-- `list_insert_ordered (list, elem, less, aux)`. -/
def list_insert_ordered (fuel : Nat) (l : KList ι) (elem : ι) (less : ι → ι → Bool)
    (L : Links ι) : Option (Links ι) := do
  let e ← insert_ordered_loop less elem l.tail fuel (list_begin l L) L
  list_insert e elem L

omit [DecidableEq ι] in
theorem Holds.list_next_eq {L : Links ι} {l : KList ι} {as bs : List ι} {x : ι}
    (h : Holds L l (as ++ x :: bs)) : list_next x L = (bs ++ [l.tail]).head? := by
  have hin := h.interior_ok (x := x) (by simp)
  simp [list_next, hin, h.next_mid]

/-- With enough fuel the loop stops at the first element from `ys` on that `elem`
is `less` than, or at the tail. -/
theorem insert_ordered_loop_eq (less : ι → ι → Bool) (elem : ι) {L : Links ι} {l : KList ι} :
    ∀ (as ys : List ι) (fuel : Nat), Holds L l (as ++ ys) → ys.length < fuel →
      insert_ordered_loop less elem l.tail fuel (ys ++ [l.tail]).head? L =
        (ys.dropWhile (fun e => !less elem e) ++ [l.tail]).head?
  | _, [], fuel + 1, _, _ => by simp [insert_ordered_loop]
  | as, y :: ys, fuel + 1, h, hfuel => by
    have hyt : y ≠ l.tail := by
      have hnd := h.nodup
      unfold KList.nodes at hnd
      grind
    have hnext := h.list_next_eq
    cases hless : less elem y
    · have h' : Holds L l ((as ++ [y]) ++ ys) := by simpa using h
      simp only [List.cons_append, List.head?_cons, insert_ordered_loop, hyt, hless, if_false,
        Bool.false_eq_true, hnext, List.dropWhile_cons, Bool.not_false, if_true]
      exact insert_ordered_loop_eq less elem (as ++ [y]) ys fuel h' (by simpa using hfuel)
    · simp [insert_ordered_loop, hyt, hless]

/-- `list_insert_ordered` inserts `elem` as the sequence function does: before the
first element it is `less` than. -/
theorem list_insert_ordered_holds (less : ι → ι → Bool) {L : Links ι} {l : KList ι}
    {xs : List ι} {elem : ι} {fuel : Nat} (h : Holds L l xs) (he : elem ∉ l.nodes xs)
    (hfuel : xs.length < fuel) :
    ∃ L', list_insert_ordered fuel l elem less L = some L' ∧
      Holds L' l (Lib.list_insert_ordered less elem xs) ∧ AgreeOff L L' (l.nodes xs ++ [elem]) := by
  have hsplit := List.takeWhile_append_dropWhile (p := fun e => !less elem e) (l := xs)
  obtain ⟨e, he'⟩ : ∃ e, (xs.dropWhile (fun e => !less elem e) ++ [l.tail]).head? = some e :=
    Option.isSome_iff_exists.mp (by simp)
  have h' : Holds L l (xs.takeWhile (fun e => !less elem e) ++ xs.dropWhile (fun e => !less elem e)) :=
    by rwa [hsplit]
  obtain ⟨L', hL', hh, hagree⟩ := list_insert_holds h' he' (by rwa [hsplit])
  have hloop := insert_ordered_loop_eq less elem [] xs fuel h hfuel
  refine ⟨L', ?_, by rwa [Lib.list_insert_ordered_eq_takeWhile], by rwa [hsplit] at hagree⟩
  simp only [list_insert_ordered, list_begin, h.next_head, hloop, he']
  exact hL'

/-! ## `list_unique` -/

/-- `if (duplicates != NULL) list_push_back (duplicates, next);` -/
def push_duplicate (duplicates : Option (KList ι)) (next : ι) (L : Links ι) :
    Option (Links ι) :=
  match duplicates with
  | some d => list_push_back d next L
  | none => pure L

/-- The loop of `list_unique`: `while ((next = list_next (elem)) != list_end (list))
if (!less (elem, next, aux) && !less (next, elem, aux)) { list_remove (next);
if (duplicates != NULL) list_push_back (duplicates, next); } else elem = next;`,
for at most `fuel` rounds. -/
def unique_loop (less : ι → ι → Bool) (tail : ι) (duplicates : Option (KList ι)) :
    Nat → ι → Links ι → Option (Links ι)
  | 0, _, _ => none
  | fuel + 1, elem, L => do
    let next ← list_next elem L
    if next = tail then pure L
    else if !less elem next && !less next elem then do
      let (L, _) ← list_remove next L
      let L ← push_duplicate duplicates next L
      unique_loop less tail duplicates fuel elem L
    else unique_loop less tail duplicates fuel next L

/-- `list_unique (list, duplicates, less, aux)`; `none` is a null `duplicates`. -/
def list_unique (fuel : Nat) (l : KList ι) (duplicates : Option (KList ι))
    (less : ι → ι → Bool) (L : Links ι) : Option (Links ι) :=
  if list_empty l L then some L
  else do
    let elem ← list_begin l L
    unique_loop less l.tail duplicates fuel elem L

omit [DecidableEq ι] in
/-- `DUPLICATES`, when it is not null, is a list of `ds` apart from the list `l` of `xs`. -/
def DupsHold (L : Links ι) (l : KList ι) (xs : List ι) : Option (KList ι) → List ι → Prop
  | none, _ => True
  | some d, ds => Holds L d ds ∧ ∀ x ∈ d.nodes ds, x ∉ l.nodes xs

/-- One round that removes `next`: it leaves the list without it and `DUPLICATES`
with it at the back. -/
theorem unique_remove_step {L : Links ι} {l : KList ι} {duplicates : Option (KList ι)}
    {as bs ds : List ι} {next : ι} (h : Holds L l (as ++ next :: bs))
    (hd : DupsHold L l (as ++ next :: bs) duplicates ds) :
    ∃ L₁ r L', list_remove next L = some (L₁, r) ∧ push_duplicate duplicates next L₁ = some L' ∧
      Holds L' l (as ++ bs) ∧ DupsHold L' l (as ++ bs) duplicates (ds ++ [next]) := by
  obtain ⟨L₁, hL₁, h₁, hagree₁⟩ := list_remove_holds h
  have hnext : next ∉ l.nodes (as ++ bs) := by
    have hnd := h.nodup
    unfold KList.nodes at hnd ⊢
    grind
  have hsub : ∀ x ∈ l.nodes (as ++ bs), x ∈ l.nodes (as ++ next :: bs) := by
    intro x hx
    unfold KList.nodes at hx ⊢
    simp only [List.mem_cons, List.mem_append] at hx ⊢
    tauto
  cases duplicates with
  | none => exact ⟨L₁, _, L₁, hL₁, rfl, h₁, trivial⟩
  | some d =>
    obtain ⟨hd, hdisj⟩ := hd
    have hd₁ : Holds L₁ d ds :=
      hd.agree hagree₁ fun x hx hx₁ => hdisj x hx (hsub x hx₁)
    have hnd : next ∉ d.nodes ds := fun hx => hdisj next hx (by simp [KList.nodes])
    obtain ⟨L₂, hL₂, h₂, hagree₂⟩ := list_push_back_holds hd₁ hnd
    have hl₂ : Holds L₂ l (as ++ bs) := by
      refine h₁.agree hagree₂ fun x hx hx₂ => ?_
      rcases List.mem_append.mp hx₂ with hx₂ | hx₂
      · exact hdisj x hx₂ (hsub x hx)
      · exact hnext (List.mem_singleton.mp hx₂ ▸ hx)
    refine ⟨L₁, _, L₂, hL₁, hL₂, hl₂, h₂, fun x hx hxl => ?_⟩
    have hx' : x ∈ d.nodes ds ∨ x = next := by
      unfold KList.nodes at hx ⊢
      simp only [List.mem_cons, List.mem_append, List.mem_nil_iff, or_false] at hx ⊢
      tauto
    rcases hx' with hx' | rfl
    · exact hdisj x hx' (hsub x hxl)
    · exact hnext hxl

/-- With enough fuel the loop keeps what `Pintos.Lib.unique_from` keeps and moves
what it removes, in order, to the back of `DUPLICATES`. -/
theorem unique_loop_holds (less : ι → ι → Bool) {l : KList ι} {duplicates : Option (KList ι)} :
    ∀ (rest done ds : List ι) (elem : ι) (fuel : Nat) (L : Links ι),
      Holds L l (done ++ elem :: rest) → DupsHold L l (done ++ elem :: rest) duplicates ds →
      rest.length < fuel →
      ∃ L', unique_loop less l.tail duplicates fuel elem L = some L' ∧
        Holds L' l (done ++ (Lib.unique_from less elem rest).1) ∧
        DupsHold L' l (done ++ (Lib.unique_from less elem rest).1) duplicates
          (ds ++ (Lib.unique_from less elem rest).2)
  | [], done, ds, elem, fuel + 1, L, h, hd, _ => by
    have hnext := h.list_next_eq
    refine ⟨L, by simp [unique_loop, hnext], h, by simpa [Lib.unique_from] using hd⟩
  | next :: rest, done, ds, elem, fuel + 1, L, h, hd, hfuel => by
    have hnext := h.list_next_eq
    have hnt : next ≠ l.tail := by
      have hnd := h.nodup
      unfold KList.nodes at hnd
      grind
    have hfuel' : rest.length < fuel := by simpa using hfuel
    by_cases heq : (!less elem next && !less next elem) = true
    · -- `next` is removed and `elem` stays the element compared with
      have h' : Holds L l ((done ++ [elem]) ++ next :: rest) := by simpa using h
      have hd' : DupsHold L l ((done ++ [elem]) ++ next :: rest) duplicates ds := by simpa using hd
      obtain ⟨L₁, r, L₂, hL₁, hL₂, h₂, hd₂⟩ := unique_remove_step h' hd'
      obtain ⟨L', hL', h', hd'⟩ := unique_loop_holds less rest done (ds ++ [next]) elem fuel L₂
        (by simpa using h₂) (by simpa using hd₂) hfuel'
      refine ⟨L', ?_, ?_, ?_⟩
      · simp only [unique_loop, hnext, List.cons_append, List.head?_cons, Option.bind_eq_bind,
          Option.bind_some, hnt, if_false, heq, if_true, hL₁, hL₂]
        exact hL'
      · simpa [Lib.unique_from, heq] using h'
      · simpa [Lib.unique_from, heq] using hd'
    · -- `next` is kept and becomes the element compared with
      obtain ⟨L', hL', h', hd'⟩ := unique_loop_holds less rest (done ++ [elem]) ds next fuel L
        (by simpa using h) (by simpa using hd) hfuel'
      refine ⟨L', ?_, ?_, ?_⟩
      · simp only [unique_loop, hnext, List.cons_append, List.head?_cons, Option.bind_eq_bind,
          Option.bind_some, hnt, if_false, heq]
        exact hL'
      · simpa [Lib.unique_from, heq] using h'
      · simpa [Lib.unique_from, heq] using hd'

/-- `list_unique` keeps what the sequence function keeps and appends what it
removes, in order, to `DUPLICATES` when that is not null. -/
theorem list_unique_holds {L : Links ι} {l : KList ι} {duplicates : Option (KList ι)}
    {xs ds : List ι} {less : ι → ι → Bool} {fuel : Nat} (h : Holds L l xs)
    (hd : DupsHold L l xs duplicates ds) (hfuel : xs.length < fuel) :
    ∃ L', list_unique fuel l duplicates less L = some L' ∧
      Holds L' l (Lib.list_unique less xs).1 ∧
      DupsHold L' l (Lib.list_unique less xs).1 duplicates (ds ++ (Lib.list_unique less xs).2) := by
  cases xs with
  | nil =>
    have hempty : list_empty l L = true := by
      simp [list_empty, list_begin, list_end, h.next_head]
    exact ⟨L, by simp [list_unique, hempty], h, by simpa [Lib.list_unique] using hd⟩
  | cons x rest =>
    obtain ⟨L', hL', h', hd'⟩ := unique_loop_holds less rest [] ds x fuel L h hd
      (by simpa using Nat.lt_of_succ_lt hfuel)
    refine ⟨L', ?_, by simpa [Lib.list_unique] using h', by simpa [Lib.list_unique] using hd'⟩
    simp only [list_unique, h.not_empty, list_begin, h.next_head]
    exact hL'

/-! ## The refinement -/

/-- `list_init (list)`. -/
def list_init (l : KList ι) (L : Links ι) : Links ι :=
  (((L.setPrev l.head none).setNext l.head (some l.tail)).setPrev l.tail
    (some l.head)).setNext l.tail none

/-- A list that `list_init` set up is the empty list. -/
theorem list_init_holds (l : KList ι) (L : Links ι) (hne : l.head ≠ l.tail) :
    Holds (list_init l L) l [] where
  head_prev := by simp [list_init, hne]
  tail_next := by simp [list_init]
  linked := List.isChain_pair.mpr ⟨by simp [list_init, hne], by simp [list_init]⟩
  nodup := by simp [KList.nodes, hne]

/-- `list_unique` keeps the first of each run of adjacent elements that `less` cannot
tell apart and moves the others, in order, to the back of `DUPLICATES`; between them
they are the elements of the list. -/
theorem list_unique_keeps_first_of_runs {L : Links ι} {l : KList ι}
    {duplicates : Option (KList ι)} {xs ds : List ι} (less : ι → ι → Bool) {fuel : Nat}
    (h : Holds L l xs) (hd : DupsHold L l xs duplicates ds) (hfuel : xs.length < fuel) :
    ∃ L' removed, list_unique fuel l duplicates less L = some L' ∧
      Holds L' l (xs.destutter fun a b => (less a b || less b a) = true) ∧
      DupsHold L' l (xs.destutter fun a b => (less a b || less b a) = true) duplicates
        (ds ++ removed) ∧
      ((xs.destutter fun a b => (less a b || less b a) = true) ++ removed).Perm xs := by
  obtain ⟨L', hL', h', hd'⟩ := @list_unique_holds ι _ L l duplicates xs ds less fuel h hd hfuel
  have hperm := Lib.list_unique_perm less xs
  rw [Lib.list_unique_fst] at h' hd' hperm
  exact ⟨L', _, hL', h', hd', hperm⟩

/-- Two elements that `less` cannot tell apart, pushed onto a new list: `list_unique`
keeps the first and drops the second. -/
theorem list_unique_keeps_first_of_runs_two :
    ∃ L, (list_push_back ⟨0, 1⟩ 2 (list_init ⟨0, 1⟩ ⟨fun _ => none, fun _ => none⟩)).bind
        (list_push_back ⟨0, 1⟩ 3) = some L ∧ Holds L (⟨0, 1⟩ : KList Nat) [2, 3] ∧
      ([2, 3].destutter fun _ _ => (false : Bool) = true) = [2] ∧
      ∃ L' removed, list_unique 3 ⟨0, 1⟩ none (fun _ _ => false) L = some L' ∧
        Holds L' ⟨0, 1⟩ ([2, 3].destutter fun _ _ => (false : Bool) = true) ∧
        DupsHold L' ⟨0, 1⟩ ([2, 3].destutter fun _ _ => (false : Bool) = true) none
          ([] ++ removed) ∧
        (([2, 3].destutter fun _ _ => (false : Bool) = true) ++ removed).Perm [2, 3] := by
  have h₀ := list_init_holds (⟨0, 1⟩ : KList Nat) ⟨fun _ => none, fun _ => none⟩ (by decide)
  obtain ⟨L₁, hL₁, h₁, -⟩ :=
    list_push_back_holds h₀ (show (2 : Nat) ∉ KList.nodes ⟨0, 1⟩ [] by decide)
  obtain ⟨L₂, hL₂, h₂, -⟩ :=
    list_push_back_holds h₁ (show (3 : Nat) ∉ KList.nodes ⟨0, 1⟩ ([] ++ [2]) by decide)
  refine ⟨L₂, by rw [hL₁]; exact hL₂, h₂, by decide, ?_⟩
  exact list_unique_keeps_first_of_runs (fun _ _ => false) h₂ trivial (by decide)

/-- Every operation of `list.c` on well-formed lists keeps them well-formed and
changes their sequences of distinct elements as its sequence function does. -/
theorem list_refines_sequence :
    (∀ (L : Links ι) (l : KList ι) (ps qs : List ι) (before elem : ι),
      Holds L l (ps ++ qs) → (qs ++ [l.tail]).head? = some before → elem ∉ l.nodes (ps ++ qs) →
      ∃ L', list_insert before elem L = some L' ∧ Holds L' l (ps ++ elem :: qs)) ∧
    (∀ (L : Links ι) (l : KList ι) (as ms bs ps qs : List ι) (before first last : ι),
      Holds L l (as ++ ms ++ bs) → (ms ++ bs ++ [l.tail]).head? = some first →
      (bs ++ [l.tail]).head? = some last → as ++ bs = ps ++ qs →
      (qs ++ [l.tail]).head? = some before →
      ∃ L', list_splice before first last L = some L' ∧ Holds L' l (ps ++ ms ++ qs)) ∧
    (∀ (L : Links ι) (l₁ l₂ : KList ι) (as ms bs ps qs : List ι) (before first last : ι),
      Holds L l₁ (as ++ ms ++ bs) → Holds L l₂ (ps ++ qs) →
      (∀ x ∈ l₁.nodes (as ++ ms ++ bs), x ∉ l₂.nodes (ps ++ qs)) →
      (ms ++ bs ++ [l₁.tail]).head? = some first → (bs ++ [l₁.tail]).head? = some last →
      (qs ++ [l₂.tail]).head? = some before →
      ∃ L', list_splice before first last L = some L' ∧ Holds L' l₁ (as ++ bs) ∧
        Holds L' l₂ (ps ++ ms ++ qs)) ∧
    (∀ (L : Links ι) (l : KList ι) (xs : List ι) (elem : ι), Holds L l xs →
      elem ∉ l.nodes xs → ∃ L', list_push_front l elem L = some L' ∧ Holds L' l (elem :: xs)) ∧
    (∀ (L : Links ι) (l : KList ι) (xs : List ι) (elem : ι), Holds L l xs →
      elem ∉ l.nodes xs → ∃ L', list_push_back l elem L = some L' ∧ Holds L' l (xs ++ [elem])) ∧
    (∀ (L : Links ι) (l : KList ι) (as bs : List ι) (elem : ι), Holds L l (as ++ elem :: bs) →
      ∃ L', list_remove elem L = some (L', (bs ++ [l.tail]).head?) ∧ Holds L' l (as ++ bs)) ∧
    (∀ (L : Links ι) (l : KList ι) (x : ι) (xs : List ι), Holds L l (x :: xs) →
      ∃ L', list_pop_front l L = some (L', x) ∧ Holds L' l xs) ∧
    (∀ (L : Links ι) (l : KList ι) (x : ι) (xs : List ι), Holds L l (xs ++ [x]) →
      ∃ L', list_pop_back l L = some (L', x) ∧ Holds L' l xs) ∧
    (∀ (L : Links ι) (l : KList ι) (xs : List ι) (fuel : Nat), Holds L l xs →
      xs.length < fuel → ∃ L', list_reverse fuel l L = some L' ∧ Holds L' l xs.reverse) ∧
    (∀ (L : Links ι) (l : KList ι) (xs : List ι) (elem : ι) (less : ι → ι → Bool) (fuel : Nat),
      Holds L l xs → elem ∉ l.nodes xs → xs.length < fuel →
      ∃ L', list_insert_ordered fuel l elem less L = some L' ∧
        Holds L' l (Lib.list_insert_ordered less elem xs)) ∧
    (∀ (L : Links ι) (l : KList ι) (duplicates : Option (KList ι)) (xs ds : List ι)
      (less : ι → ι → Bool) (fuel : Nat),
      Holds L l xs → DupsHold L l xs duplicates ds → xs.length < fuel →
      ∃ L', list_unique fuel l duplicates less L = some L' ∧
        Holds L' l (Lib.list_unique less xs).1 ∧
        DupsHold L' l (Lib.list_unique less xs).1 duplicates (ds ++ (Lib.list_unique less xs).2)) := by
  refine ⟨?insert, ?splice, ?splice₂, ?push_front, ?push_back, ?remove, ?pop_front, ?pop_back,
    ?reverse, ?insert_ordered, ?unique⟩
  case insert =>
    intro L l ps qs before elem h hb he
    obtain ⟨L', hL', h', -⟩ := list_insert_holds h hb he
    exact ⟨L', hL', h'⟩
  case splice =>
    intro L l as ms bs ps qs before first last h hf hl hpq hb
    obtain ⟨L', hL', h', -⟩ := list_splice_holds h hf hl hpq hb
    exact ⟨L', hL', h'⟩
  case splice₂ =>
    intro L l₁ l₂ as ms bs ps qs before first last h₁ h₂ hdisj hf hl hb
    obtain ⟨L', hL', h₁', h₂', -⟩ := list_splice_holds₂ h₁ h₂ hdisj hf hl hb
    exact ⟨L', hL', h₁', h₂'⟩
  case push_front =>
    intro L l xs elem h he
    obtain ⟨L', hL', h', -⟩ := list_push_front_holds h he
    exact ⟨L', hL', h'⟩
  case push_back =>
    intro L l xs elem h he
    obtain ⟨L', hL', h', -⟩ := list_push_back_holds h he
    exact ⟨L', hL', h'⟩
  case remove =>
    intro L l as bs elem h
    obtain ⟨L', hL', h', -⟩ := list_remove_holds h
    exact ⟨L', hL', h'⟩
  case pop_front =>
    intro L l x xs h
    obtain ⟨L', hL', h', -⟩ := list_pop_front_holds h
    exact ⟨L', hL', h'⟩
  case pop_back =>
    intro L l x xs h
    obtain ⟨L', hL', h', -⟩ := list_pop_back_holds h
    exact ⟨L', hL', h'⟩
  case reverse =>
    intro L l xs fuel h hfuel
    obtain ⟨L', hL', h', -⟩ := list_reverse_holds h hfuel
    exact ⟨L', hL', h'⟩
  case insert_ordered =>
    intro L l xs elem less fuel h he hfuel
    obtain ⟨L', hL', h', -⟩ := list_insert_ordered_holds less h he hfuel
    exact ⟨L', hL', h'⟩
  case unique =>
    intro L l duplicates xs ds less fuel h hd hfuel
    exact list_unique_holds h hd hfuel

/-- The list with header elements 0 and 1 as `list_init` leaves it, then
`list_push_back` of 2, `list_push_front` of 3, and `list_pop_back`, which returns 2. -/
theorem list_refines_sequence_push_pop :
    ∃ L₁ L₂ L₃,
      list_push_back ⟨0, 1⟩ 2 (list_init ⟨0, 1⟩ ⟨fun _ => none, fun _ => none⟩) = some L₁ ∧
      list_push_front ⟨0, 1⟩ 3 L₁ = some L₂ ∧ list_pop_back ⟨0, 1⟩ L₂ = some (L₃, 2) ∧
      Holds L₃ (⟨0, 1⟩ : KList Nat) [3] := by
  obtain ⟨-, -, -, hfront, hback, -, -, hpop, -⟩ := list_refines_sequence (ι := Nat)
  have h₀ := list_init_holds (⟨0, 1⟩ : KList Nat) ⟨fun _ => none, fun _ => none⟩ (by decide)
  obtain ⟨L₁, hL₁, h₁⟩ := hback _ _ [] 2 h₀ (by decide)
  obtain ⟨L₂, hL₂, h₂⟩ := hfront _ _ [2] 3 h₁ (by decide)
  obtain ⟨L₃, hL₃, h₃⟩ := hpop _ _ 2 [3] h₂
  exact ⟨L₁, L₂, L₃, hL₁, hL₂, hL₃, h₃⟩

end Pintos.Lib.ListLinks
