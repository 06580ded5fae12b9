import Mathlib.Data.List.Induction
import Mathlib.Logic.Function.Basic

/-!
# Stores and the writes made to them

A store is a function from keys to values, and a write replaces the value of one
key. `replay m ws` is the store `m` after the writes `ws`, first to last. What a
key holds after a run of writes is what the last write to it put there, or what
it held before the run if no write touched it (`replay_apply`); for a store of
`Option`s, a key is bound after the run exactly when its last write bound it
(`replay_eq_some`).
-/

namespace Pintos.Lib

variable {κ β : Type*} [DecidableEq κ]

/-- The store `m` after the writes `ws`, first to last. -/
def replay (m : κ → β) (ws : List (κ × β)) : κ → β :=
  ws.foldl (fun m w => Function.update m w.1 w.2) m

@[simp] theorem replay_nil (m : κ → β) : replay m [] = m := rfl

@[simp] theorem replay_append_write (m : κ → β) (ws : List (κ × β)) (k : κ) (v : β) :
    replay m (ws ++ [(k, v)]) = Function.update (replay m ws) k v := by
  simp [replay, List.foldl_append]

/-- The last write to `k` wins; with none, `k` keeps the value it had. -/
theorem replay_apply (m : κ → β) (ws : List (κ × β)) (k : κ) :
    replay m ws k = (((ws.filter (·.1 = k)).getLast?).map (·.2)).getD (m k) := by
  induction ws using List.reverseRecOn with
  | nil => simp
  | append_singleton ws w ih =>
    obtain ⟨k', v⟩ := w
    by_cases hk : k' = k
    · subst hk
      simp
    · simp [hk, ih, Function.update_of_ne (Ne.symm hk)]

/-- In a store of `Option`s, `k` is bound to `x` after the writes exactly when the
last write to `k` bound it to `x`, or no write touched `k` and it was bound to `x`
before. -/
theorem replay_eq_some (m : κ → Option β) (ws : List (κ × Option β)) (k : κ) (x : β) :
    replay m ws k = some x ↔
      (ws.filter (·.1 = k)).getLast? = some (k, some x) ∨
        (∀ w ∈ ws, w.1 ≠ k) ∧ m k = some x := by
  rw [replay_apply]
  cases hlast : (ws.filter (·.1 = k)).getLast? with
  | none =>
    have hnone : ∀ w ∈ ws, w.1 ≠ k := by
      rw [List.getLast?_eq_none_iff, List.filter_eq_nil_iff] at hlast
      simpa using hlast
    simp only [Option.map_none, Option.getD_none, reduceCtorEq, false_or]
    exact ⟨fun h => ⟨hnone, h⟩, And.right⟩
  | some w =>
    -- the last write to `k` is a write to `k`, so the original value is shadowed
    have hmem := List.mem_filter.mp (List.mem_of_getLast? hlast)
    obtain ⟨k', v⟩ := w
    have hk' : k' = k := by simpa using hmem.2
    subst hk'
    simp only [Option.map_some, Option.getD_some, Option.some.injEq, Prod.mk.injEq, true_and]
    constructor
    · exact Or.inl
    · rintro (h | ⟨hnone, -⟩)
      · exact h
      · exact absurd rfl (hnone _ hmem.1)

end Pintos.Lib
