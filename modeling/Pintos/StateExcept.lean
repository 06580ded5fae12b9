import Mathlib.Logic.Basic

/-!
# A state monad with early exit, and triples for it

`SE σ ε α` runs on a state `σ` and either returns an `α` or stops with an `ε`;
in both cases the state it reached is kept, so that what happened before a stop
can still be inspected. `forRange body n` is the counted loop
`for (i = 0; i < n; i++) body (i);`.

`Triple P x Q E`: from a state satisfying `P`, `x` returns some `a` in a state
satisfying `Q a`, or stops with `e` in a state satisfying `E e`. The rules below
are the ones the proofs over kernel code use: one per combinator, the loop rule
with an invariant indexed by the loop counter, and consequence. `Keeps f x` is the
frame of a computation: `x` leaves the part `f` of the state alone, and a bind of
such computations does too.
-/

namespace StateExcept

/-- A computation on `σ` that may stop with an `ε`, keeping the state it reached. -/
def SE (σ ε α : Type) : Type := σ → Except ε α × σ

namespace SE

variable {σ ε α β : Type}

protected def pure (a : α) : SE σ ε α := fun s => (.ok a, s)

protected def bind (x : SE σ ε α) (f : α → SE σ ε β) : SE σ ε β := fun s =>
  match x s with
  | (.ok a, t) => f a t
  | (.error e, t) => (.error e, t)

instance : Monad (SE σ ε) where
  pure := SE.pure
  bind := SE.bind

def get : SE σ ε σ := fun s => (.ok s, s)

def modify (f : σ → σ) : SE σ ε Unit := fun s => (.ok (), f s)

def throw (e : ε) : SE σ ε α := fun s => (.error e, s)

/-- `for (i = 0; i < n; i++) body (i);` -/
def forRange (body : Nat → SE σ ε Unit) : Nat → SE σ ε Unit
  | 0 => pure ()
  | n + 1 => do forRange body n; body n

@[simp] theorem pure_apply (a : α) (s : σ) : (pure a : SE σ ε α) s = (.ok a, s) := rfl

theorem bind_apply (x : SE σ ε α) (f : α → SE σ ε β) (s : σ) :
    (x >>= f) s = match x s with
      | (.ok a, t) => f a t
      | (.error e, t) => (.error e, t) := rfl

@[simp] theorem get_apply (s : σ) : (get : SE σ ε σ) s = (.ok s, s) := rfl

@[simp] theorem modify_apply (f : σ → σ) (s : σ) : (modify f : SE σ ε Unit) s = (.ok (), f s) :=
  rfl

@[simp] theorem throw_apply (e : ε) (s : σ) : (throw e : SE σ ε α) s = (.error e, s) := rfl

/-- A bind whose first computation returns goes on from where it returned. -/
theorem bind_of_ok {x : SE σ ε α} {f : α → SE σ ε β} {s u : σ} {a : α} (h : x s = (.ok a, u)) :
    (x >>= f) s = f a u := by
  rw [bind_apply, h]

/-- A bind whose first computation fails fails with it. -/
theorem bind_of_error {x : SE σ ε α} {f : α → SE σ ε β} {s : σ} {e : ε} (h : (x s).1 = .error e) :
    ((x >>= f) s).1 = .error e := by
  rw [bind_apply]
  rcases hx : x s with ⟨r, u⟩
  rw [hx] at h
  subst h
  rfl

/-- A bind that returns ran its first computation to a return. -/
theorem bind_eq_ok {x : SE σ ε α} {f : α → SE σ ε β} {s t : σ} {b : β}
    (h : (x >>= f) s = (.ok b, t)) : ∃ a u, x s = (.ok a, u) ∧ f a u = (.ok b, t) := by
  rw [bind_apply] at h
  rcases hx : x s with ⟨e | a, u⟩
  · rw [hx] at h
    cases h
  · rw [hx] at h
    exact ⟨a, u, rfl, h⟩

theorem forRange_zero (body : Nat → SE σ ε Unit) : forRange body 0 = pure () := rfl

theorem forRange_succ (body : Nat → SE σ ε Unit) (n : Nat) :
    forRange body (n + 1) = (forRange body n >>= fun _ => body n) := rfl

/-! ## Triples -/

/-- From a state satisfying `P`, `x` returns `a` in a state satisfying `Q a`, or
stops with `e` in a state satisfying `E e`. -/
def Triple (P : σ → Prop) (x : SE σ ε α) (Q : α → σ → Prop) (E : ε → σ → Prop) : Prop :=
  ∀ s, P s → match x s with
    | (.ok a, t) => Q a t
    | (.error e, t) => E e t

variable {P P' : σ → Prop} {Q Q' : α → σ → Prop} {E E' : ε → σ → Prop}

theorem triple_pure {a : α} (h : ∀ s, P s → Q a s) : Triple P (pure a) Q E :=
  fun s hs => h s hs

theorem triple_bind {x : SE σ ε α} {f : α → SE σ ε β} {R : α → σ → Prop}
    {Q : β → σ → Prop} (hx : Triple P x R E) (hf : ∀ a, Triple (R a) (f a) Q E) :
    Triple P (x >>= f) Q E := by
  intro s hs
  have h := hx s hs
  rw [bind_apply]
  revert h
  rcases x s with ⟨a | a, t⟩
  · exact id
  · exact hf a t

theorem triple_throw {e : ε} (h : ∀ s, P s → E e s) : Triple P (throw e : SE σ ε α) Q E :=
  fun s hs => h s hs

theorem triple_get {Q : σ → σ → Prop} (h : ∀ s, P s → Q s s) : Triple P (get : SE σ ε σ) Q E :=
  fun s hs => h s hs

theorem triple_modify {f : σ → σ} {Q : Unit → σ → Prop} (h : ∀ s, P s → Q () (f s)) :
    Triple P (modify f : SE σ ε Unit) Q E :=
  fun s hs => h s hs

/-- A triple read at one run that returns. -/
theorem Triple.of_ok {x : SE σ ε α} (h : Triple P x Q E) {s t : σ} {a : α} (hs : P s)
    (hx : x s = (.ok a, t)) : Q a t := by
  have := h s hs
  rw [hx] at this
  exact this

/-- Reading the state: the rest runs from the state that was read. -/
theorem triple_get_bind {g : σ → SE σ ε α} (h : ∀ s₀, P s₀ → Triple (· = s₀) (g s₀) Q E) :
    Triple P (get >>= g) Q E :=
  fun s hs => h s hs s rfl

theorem Triple.conseq {x : SE σ ε α} (hx : Triple P x Q E) (hP : ∀ s, P' s → P s)
    (hQ : ∀ a s, Q a s → Q' a s) (hE : ∀ e s, E e s → E' e s) : Triple P' x Q' E' := by
  intro s hs
  have h := hx s (hP s hs)
  revert h
  rcases x s with ⟨a | a, t⟩
  · exact hE a t
  · exact hQ a t

theorem Triple.pre {x : SE σ ε α} (hx : Triple P x Q E) (hP : ∀ s, P' s → P s) :
    Triple P' x Q E :=
  hx.conseq hP (fun _ _ => id) (fun _ _ => id)

theorem triple_ite {c : Prop} [Decidable c] {x y : SE σ ε α} (hx : c → Triple P x Q E)
    (hy : ¬ c → Triple P y Q E) : Triple P (if c then x else y) Q E := by
  by_cases hc : c
  · rw [if_pos hc]
    exact hx hc
  · rw [if_neg hc]
    exact hy hc

/-- The loop rule: an invariant `I k` before iteration `k`, kept by every iteration. -/
theorem triple_forRange {body : Nat → SE σ ε Unit} {I : Nat → σ → Prop} {n : Nat}
    (hbody : ∀ k, k < n → Triple (I k) (body k) (fun _ => I (k + 1)) E) :
    Triple (I 0) (forRange body n) (fun _ => I n) E := by
  induction n with
  | zero => exact triple_pure fun _ => id
  | succ n ih =>
    rw [forRange_succ]
    refine triple_bind (ih fun k hk => hbody k (by omega)) fun _ => ?_
    exact hbody n (by omega)

/-! ## Frames -/

/-- `x` leaves the part `f` of the state as it was, whether it returns or stops. -/
def Keeps {β : Type} (f : σ → β) (x : SE σ ε α) : Prop := ∀ s, f (x s).2 = f s

section Keeps

variable {β γ : Type} {f : σ → β}

theorem keeps_pure (a : α) : Keeps f (pure a : SE σ ε α) := fun _ => rfl

theorem keeps_get : Keeps f (get : SE σ ε σ) := fun _ => rfl

theorem keeps_throw (e : ε) : Keeps f (throw e : SE σ ε α) := fun _ => rfl

theorem keeps_modify {m : σ → σ} (h : ∀ s, f (m s) = f s) : Keeps f (modify m : SE σ ε Unit) := h

theorem keeps_bind {x : SE σ ε α} {g : α → SE σ ε γ} (hx : Keeps f x) (hg : ∀ a, Keeps f (g a)) :
    Keeps f (x >>= g) := by
  intro s
  have hxs := hx s
  rw [bind_apply]
  revert hxs
  rcases x s with ⟨e | a, t⟩
  · exact id
  · exact fun h => (hg a t).trans h

theorem keeps_ite {c : Prop} [Decidable c] {x y : SE σ ε α} (hx : c → Keeps f x)
    (hy : ¬ c → Keeps f y) : Keeps f (if c then x else y) := by
  by_cases hc : c
  · rw [if_pos hc]
    exact hx hc
  · rw [if_neg hc]
    exact hy hc

theorem keeps_forRange {body : Nat → SE σ ε Unit} (h : ∀ i, Keeps f (body i)) (n : Nat) :
    Keeps f (forRange body n) := by
  induction n with
  | zero => exact keeps_pure ()
  | succ n ih =>
    rw [forRange_succ]
    exact keeps_bind ih fun _ => h n

/-- A frame read at one run. -/
theorem Keeps.eq {x : SE σ ε α} (h : Keeps f x) {s t : σ} {r : Except ε α} (hx : x s = (r, t)) :
    f t = f s := by
  have hs := h s
  rwa [hx] at hs

/-- A frame as a triple: what held of the part `f` before holds after. -/
theorem Keeps.triple {x : SE σ ε α} (h : Keeps f x) (P : β → Prop) {E : ε → σ → Prop}
    (hE : ∀ e s, P (f s) → E e s) : Triple (fun s => P (f s)) x (fun _ s => P (f s)) E := by
  intro s hs
  have hxs := h s
  revert hxs
  rcases x s with ⟨e | a, t⟩
  · exact fun ht => hE e t (ht ▸ hs)
  · intro ht
    show P (f t)
    exact ht ▸ hs

end Keeps

end SE

end StateExcept
