import Mathlib

/-!
# Words of a list

`words p l`: the maximal nonempty runs of elements of `l` that are not
separators (`p a = true`), in order. The definition scans `l` once, keeping the
current word reversed, so that it computes and its equations come from
structural recursion. `starts p l` are the offsets at which the words begin. The
lemmas are the ones a scanner over such a list needs: separators in front are
skipped, and a word ends at the next separator or at the end of the list.
-/

namespace ListWords

variable {α : Type} (p : α → Bool)

/-- Scan the rest of the list with the current word `cur`, reversed. -/
def wordsAux : List α → List α → List (List α)
  | [], cur => if cur.isEmpty then [] else [cur.reverse]
  | a :: l, cur =>
    if p a then (if cur.isEmpty then wordsAux l [] else cur.reverse :: wordsAux l [])
    else wordsAux l (a :: cur)

/-- The maximal nonempty runs of non-separators. -/
def words (l : List α) : List (List α) := wordsAux p l []

/-- Scan the rest of the list from offset `i`; `inWord` says that the element
before `i` belongs to a word. -/
def startsAux : Nat → Bool → List α → List Nat
  | _, _, [] => []
  | i, inWord, a :: l =>
    if p a then startsAux (i + 1) false l
    else if inWord then startsAux (i + 1) true l
    else i :: startsAux (i + 1) true l

/-- The offsets at which the words begin: each non-separator at the front of the
list or right after a separator. -/
def starts (l : List α) : List Nat := startsAux p 0 false l

example : starts (· == 0) [0, 5, 0, 0, 6, 7, 0] = [1, 4] := by decide

variable {p}

@[simp] theorem words_nil : words p [] = [] := rfl

/-- Separators in front of the list are skipped. -/
theorem words_seps_append {d : List α} (hd : ∀ a ∈ d, p a = true) (l : List α) :
    words p (d ++ l) = words p l := by
  induction d with
  | nil => rfl
  | cons a d ih =>
    have ha : p a = true := hd a List.mem_cons_self
    simp only [words, List.cons_append, wordsAux, ha, List.isEmpty_nil, if_true]
    exact ih fun b hb => hd b (List.mem_cons_of_mem a hb)

/-- A run of non-separators is added to the current word. -/
theorem wordsAux_word_append {t : List α} (ht : ∀ a ∈ t, p a = false) (l cur : List α) :
    wordsAux p (t ++ l) cur = wordsAux p l (t.reverse ++ cur) := by
  induction t generalizing cur with
  | nil => rfl
  | cons a t ih =>
    have ha : p a = false := ht a List.mem_cons_self
    simp only [List.cons_append, wordsAux, ha, Bool.false_eq_true, if_false, List.reverse_cons,
      List.append_assoc]
    exact ih (fun b hb => ht b (List.mem_cons_of_mem a hb)) (a :: cur)

/-- A nonempty run of non-separators ended by a separator is the first word. -/
theorem words_word_sep {t : List α} (hne : t ≠ []) (ht : ∀ a ∈ t, p a = false) {c : α}
    (hc : p c = true) (r : List α) : words p (t ++ c :: r) = t :: words p r := by
  have hrev : t.reverse.isEmpty = false := by simpa using hne
  simp only [words, wordsAux_word_append ht, List.append_nil, wordsAux, hc, if_true, hrev,
    Bool.false_eq_true, if_false, List.reverse_reverse]

/-- A nonempty run of non-separators at the end of the list is its last word. -/
theorem words_word {t : List α} (hne : t ≠ []) (ht : ∀ a ∈ t, p a = false) :
    words p t = [t] := by
  have hrev : t.reverse.isEmpty = false := by simpa using hne
  have h := wordsAux_word_append ht [] []
  simp only [List.append_nil] at h
  simp only [words, h, wordsAux, hrev, Bool.false_eq_true, if_false, List.reverse_reverse]

/-- The words, with the current word, are no longer than the list and the word. -/
theorem sum_length_wordsAux_le (l cur : List α) :
    ((wordsAux p l cur).map List.length).sum ≤ l.length + cur.length := by
  induction l generalizing cur with
  | nil =>
    by_cases hcur : cur.isEmpty = true
    · simp [wordsAux, hcur]
    · simp [wordsAux, hcur]
  | cons a l ih =>
    have hl := ih []
    have hcons := ih (a :: cur)
    simp only [List.length_nil, Nat.add_zero, List.length_cons] at hl hcons
    by_cases ha : p a = true
    · by_cases hcur : cur.isEmpty = true
      · simp only [wordsAux, ha, hcur, if_true, List.length_cons]
        omega
      · simp only [wordsAux, ha, hcur, if_true, Bool.false_eq_true, if_false, List.map_cons,
          List.sum_cons, List.length_reverse, List.length_cons]
        omega
    · simp only [wordsAux, ha, Bool.false_eq_true, if_false, List.length_cons]
      omega

/-- The words together are no longer than the list. -/
theorem sum_length_words_le (l : List α) : ((words p l).map List.length).sum ≤ l.length := by
  simpa [words] using sum_length_wordsAux_le (p := p) l []

/-- Counting the offsets from `i + k` adds `k` to each. -/
theorem startsAux_add (i k : Nat) (inWord : Bool) (l : List α) :
    startsAux p (i + k) inWord l = (startsAux p i inWord l).map (· + k) := by
  induction l generalizing i inWord with
  | nil => rfl
  | cons a l ih =>
    have h := ih (i + 1)
    rw [Nat.add_right_comm] at h
    by_cases ha : p a = true
    · simp only [startsAux, ha, if_true, h]
    · cases inWord <;> simp [startsAux, ha, h]

/-- Separators in front move the offsets on. -/
theorem startsAux_seps_append {d : List α} (hd : ∀ a ∈ d, p a = true) (i : Nat) (l : List α) :
    startsAux p i false (d ++ l) = startsAux p (i + d.length) false l := by
  induction d generalizing i with
  | nil => rfl
  | cons a d ih =>
    have ha : p a = true := hd a List.mem_cons_self
    simp only [List.cons_append, startsAux, ha, if_true, List.length_cons]
    rw [ih (fun b hb => hd b (List.mem_cons_of_mem a hb)), Nat.add_right_comm, Nat.add_assoc]

/-- The rest of a word moves the offsets on. -/
theorem startsAux_word_append {t : List α} (ht : ∀ a ∈ t, p a = false) (i : Nat) (l : List α) :
    startsAux p i true (t ++ l) = startsAux p (i + t.length) true l := by
  induction t generalizing i with
  | nil => rfl
  | cons a t ih =>
    have ha : p a = false := ht a List.mem_cons_self
    simp only [List.cons_append, startsAux, ha, Bool.false_eq_true, if_false, if_true,
      List.length_cons]
    rw [ih (fun b hb => ht b (List.mem_cons_of_mem a hb)), Nat.add_right_comm, Nat.add_assoc]

/-- A separator ends the word before it; the next words begin after it. -/
theorem startsAux_sep_cons {c : α} (hc : p c = true) (i : Nat) (inWord : Bool) (r : List α) :
    startsAux p i inWord (c :: r) = (starts p r).map (· + (i + 1)) := by
  rw [startsAux, if_pos hc, starts, ← startsAux_add, Nat.zero_add]

/-- A list of separators has no word. -/
theorem starts_of_seps {l : List α} (h : ∀ a ∈ l, p a = true) : starts p l = [] := by
  have hl := startsAux_seps_append h 0 []
  rw [List.append_nil] at hl
  exact hl

/-- The first word begins after the separators in front, and the later ones in what
follows it. -/
theorem starts_seps_word_append {d t : List α} (hd : ∀ a ∈ d, p a = true) (htne : t ≠ [])
    (ht : ∀ a ∈ t, p a = false) (r : List α) :
    starts p (d ++ t ++ r) = d.length :: startsAux p (d.length + t.length) true r := by
  obtain ⟨a, t', rfl⟩ := List.exists_cons_of_ne_nil htne
  have ha : p a = false := ht a List.mem_cons_self
  rw [starts, List.append_assoc, startsAux_seps_append hd, Nat.zero_add, List.cons_append]
  simp only [startsAux, ha, Bool.false_eq_true, if_false]
  rw [startsAux_word_append (fun b hb => ht b (List.mem_cons_of_mem a hb)), List.length_cons,
    Nat.add_right_comm, Nat.add_assoc]

/-- A list is separators only, or separators, a first word, and then the end or a
separator. -/
theorem seps_or_first_word (l : List α) :
    (∀ a ∈ l, p a = true) ∨
    ∃ d t r, l = d ++ t ++ r ∧ (∀ a ∈ d, p a = true) ∧ t ≠ [] ∧ (∀ a ∈ t, p a = false) ∧
      (r = [] ∨ ∃ c r', r = c :: r' ∧ p c = true) := by
  induction l with
  | nil => exact Or.inl fun a ha => absurd ha List.not_mem_nil
  | cons a l ih =>
    by_cases ha : p a = true
    · -- a separator in front: it joins `d`
      rcases ih with hall | ⟨d, t, r, rfl, hd, htne, ht, hr⟩
      · refine Or.inl fun b hb => ?_
        rcases List.mem_cons.mp hb with rfl | hb
        · exact ha
        · exact hall b hb
      · refine Or.inr ⟨a :: d, t, r, rfl, fun b hb => ?_, htne, ht, hr⟩
        rcases List.mem_cons.mp hb with rfl | hb
        · exact ha
        · exact hd b hb
    · -- a word starts with `a`
      have ha' : p a = false := by simpa using ha
      have hword : ∀ b ∈ [a], p b = false := by simpa using ha'
      refine Or.inr ?_
      rcases ih with hall | ⟨d, t, r, rfl, hd, htne, ht, hr⟩
      · rcases l with _ | ⟨c, l⟩
        · exact ⟨[], [a], [], rfl, by simp, by simp, hword, Or.inl rfl⟩
        · exact ⟨[], [a], c :: l, rfl, by simp, by simp, hword,
            Or.inr ⟨c, l, rfl, hall c List.mem_cons_self⟩⟩
      · rcases d with _ | ⟨c, d⟩
        · refine ⟨[], a :: t, r, rfl, by simp, by simp, fun b hb => ?_, hr⟩
          rcases List.mem_cons.mp hb with rfl | hb
          · exact ha'
          · exact ht b hb
        · exact ⟨[], [a], c :: d ++ t ++ r, by simp, by simp, by simp, hword,
            Or.inr ⟨c, d ++ t ++ r, rfl, hd c List.mem_cons_self⟩⟩

end ListWords
