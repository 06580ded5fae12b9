import Pintos.Userprog.Process

/-!
# What the handshake keeps, and what it loses

Over every interleaving of the parent and its children, each write to
`alive_count` is accounted for: the count is 1, plus one after a successful
`load`, minus one for each end of the relation whose `process_exit` has
decremented it. What the count does not say is whether the parent listed the
child: `process_execute` reads it after `sema_exec`, when the child may already
have run `process_exit`. A parent that then waits for a child whose load failed
sleeps on a `sema_wait` that nobody will raise.
-/

namespace Pintos.Process

/-! ## Every write to `alive_count` is accounted for -/

/-- The child's `process_exit` has passed its decrement of `alive_count`. -/
def Child.decremented (c : Child) : Bool :=
  match c.pc with
  | .signalling | .exited => true
  | _ => false

/-- `alive_count` is the initial 1, plus the increment of a successful load, minus
the child's decrement and the parent's decrement, each made at most once. -/
def Child.Accounted (c : Child) : Prop :=
  (c.pc = .loading → c.loadOk = false) ∧
  c.sm.alive_count = 1 + (if c.loadOk then 1 else 0) - (if c.decremented then 1 else 0)
    - (if c.parentLeft then 1 else 0)

/-- The parent's list names each child at most once, and its exit loop visits
each listed child once, before which the parent has decremented no count. -/
def ParentWf (s : State) : Prop :=
  s.child_relations.Nodup ∧ (∀ k ∈ s.child_relations, k < s.children.length) ∧
  match s.pc with
  | .execLoad k | .execCheck k =>
    k ∉ s.child_relations ∧ k < s.children.length ∧ ∀ j c, s.child? j = some c → c.parentLeft = false
  | .exitLoop rest => rest.Nodup ∧ ∀ k ∈ rest, ∃ c, s.child? k = some c ∧ c.parentLeft = false
  | .exited => True
  | _ => ∀ j c, s.child? j = some c → c.parentLeft = false

def Inv (s : State) : Prop := ParentWf s ∧ ∀ k c, s.child? k = some c → c.Accounted

theorem inv_initial (tid : Nat) : Inv (State.initial tid) := by
  refine ⟨⟨List.nodup_nil, by simp [State.initial], ?_⟩, ?_⟩ <;>
    simp [State.initial, State.child?]


/-- What a child's own step does to its own record: `parentLeft` stays, and the
count stays accounted for. -/
def OwnStep (s t : State) (j : Nat) : Prop :=
  ∃ c c', s.child? j = some c ∧ t.child? j = some c' ∧ c'.parentLeft = c.parentLeft ∧
    (c.Accounted → c'.Accounted)

theorem ownStep_of_modify {s : State} {j : Nat} {c : Child} (hc : s.child? j = some c)
    (f : SharedMem → SharedMem) (g : Child → Child) (hpl : (g { c with sm := f c.sm }).parentLeft = c.parentLeft)
    (hacc : c.Accounted → (g { c with sm := f c.sm }).Accounted) :
    OwnStep s ((s.modifySm j f).modifyChild j g) j :=
  ⟨c, _, hc, by simp [State.modifySm_eq, hc], hpl, hacc⟩

theorem step_own {s t : State} {a : Act} {j : Nat} (ha : a.child? = some j)
    (h : step s a = some t) : OwnStep s t j := by
  cases a with
  | childLoad k b =>
    cases ha
    simp only [step, start_process, Option.bind_eq_bind, Option.bind_eq_some_iff] at h
    obtain ⟨c, hc, h⟩ := h
    split at h
    · cases h
    · rename_i hpc
      have hload : c.pc = .loading := by simpa using hpc
      split at h
      · -- success: the locked increment
        cases h
        refine ownStep_of_modify hc _ _ rfl ?_
        rintro ⟨hl, hcount⟩
        simp [Child.Accounted, Child.decremented, hload, hl hload] at hcount ⊢
        omega
      · cases h
        refine ownStep_of_modify hc _ _ rfl ?_
        rintro ⟨hl, hcount⟩
        simp only [Child.Accounted, Child.decremented, hload, hl hload] at hcount ⊢
        simpa using hcount
  | childNext k =>
    cases ha
    simp only [step, child_next, Option.bind_eq_bind, Option.bind_eq_some_iff] at h
    obtain ⟨c, hc, h⟩ := h
    split at h
    next hpc =>
      cases h
      refine ownStep_of_modify hc _ _ rfl ?_
      rintro ⟨-, hcount⟩
      simpa [Child.Accounted, Child.decremented, hpc] using hcount
    next hpc =>
      cases h
      refine ownStep_of_modify hc _ _ rfl ?_
      rintro ⟨-, hcount⟩
      simpa [Child.Accounted, Child.decremented, hpc] using hcount
    next hpc =>
      -- the locked decrement of `process_exit`
      cases h
      refine ownStep_of_modify hc _ _ rfl ?_
      rintro ⟨-, hcount⟩
      simp only [Child.Accounted, Child.decremented, hpc] at hcount ⊢
      split <;> simp at hcount ⊢ <;> omega
    next hpc =>
      cases h
      refine ownStep_of_modify hc _ _ rfl ?_
      rintro ⟨-, hcount⟩
      simpa [Child.Accounted, Child.decremented, hpc] using hcount
    next => cases h
  | childExit k status =>
    cases ha
    simp only [step, exit, Option.bind_eq_bind, Option.bind_eq_some_iff] at h
    obtain ⟨c, hc, h⟩ := h
    split at h
    · cases h
    · rename_i hpc
      have hrun : c.pc = .running := by simpa using hpc
      cases h
      refine ownStep_of_modify hc _ _ rfl ?_
      rintro ⟨-, hcount⟩
      simpa [Child.Accounted, Child.decremented, hrun] using hcount
  | childKill k =>
    cases ha
    simp only [step, Option.bind_eq_bind, Option.bind_eq_some_iff] at h
    obtain ⟨c, hc, h⟩ := h
    split at h
    · cases h
    · rename_i hpc
      have hrun : c.pc = .running := by simpa using hpc
      cases h
      refine ⟨c, { c with pc := .exiting }, hc, by simp [hc], rfl, ?_⟩
      rintro ⟨-, hcount⟩
      simpa [Child.Accounted, Child.decremented, hrun] using hcount
  | _ => cases ha


theorem State.child?_modifySm (s : State) (j k : Nat) (f : SharedMem → SharedMem) :
    (s.modifySm j f).child? k =
      if j = k then (s.child? k).map (fun c => { c with sm := f c.sm }) else s.child? k := by
  rw [State.modifySm_eq, State.child?_modifyChild]

/-- A step that keeps the parent's control point, its list and the number of
children, and maps every child record to one with the same `parentLeft` that
is still accounted for, keeps the invariant. -/
theorem inv_of_children {s t : State} (hi : Inv s) (hpc : t.pc = s.pc)
    (hrel : t.child_relations = s.child_relations)
    (hlen : t.children.length = s.children.length)
    (hch : ∀ k c', t.child? k = some c' → ∃ c, s.child? k = some c ∧
      c'.parentLeft = c.parentLeft ∧ (c.Accounted → c'.Accounted)) : Inv t := by
  obtain ⟨⟨hnd, hlt, hpcwf⟩, hacc⟩ := hi
  have hleft : ∀ k c', t.child? k = some c' → (∀ j c, s.child? j = some c → c.parentLeft = false) →
      c'.parentLeft = false := by
    intro k c' hk hall
    obtain ⟨c, hc, hpl, -⟩ := hch k c' hk
    rw [hpl]
    exact hall k c hc
  refine ⟨⟨hrel ▸ hnd, by simpa [hrel, hlen] using hlt, ?_⟩, ?_⟩
  · rw [hpc, hrel, hlen]
    revert hpcwf
    cases s.pc with
    | execLoad k =>
      rintro ⟨hk, hklt, hall⟩
      exact ⟨hk, hklt, fun j c' hj => hleft j c' hj hall⟩
    | execCheck k =>
      rintro ⟨hk, hklt, hall⟩
      exact ⟨hk, hklt, fun j c' hj => hleft j c' hj hall⟩
    | exitLoop rest =>
      rintro ⟨hnd', hall⟩
      refine ⟨hnd', fun k hk => ?_⟩
      obtain ⟨c, hc, hpl⟩ := hall k hk
      have hkt : k < t.children.length := hlen ▸ State.child?_lt hc
      obtain ⟨c', hc'⟩ : ∃ c', t.child? k = some c' :=
        ⟨_, List.getElem?_eq_getElem hkt⟩
      obtain ⟨c₀, hc₀, hpl', -⟩ := hch k c' hc'
      rw [hc] at hc₀
      cases hc₀
      exact ⟨c', hc', hpl'.trans hpl⟩
    | exited => intro; trivial
    | running => exact fun hall j c' hj => hleft j c' hj hall
    | waitBlocked _ _ => exact fun hall j c' hj => hleft j c' hj hall
  · intro k c' hk
    obtain ⟨c, hc, -, himp⟩ := hch k c' hk
    exact himp (hacc k c hc)

theorem inv_record {s : State} (hi : Inv s) (r : Ret) : Inv (s.record r) :=
  inv_of_children hi rfl rfl rfl fun _ c' h => ⟨c', h, rfl, id⟩

/-- Changing a shared record in a field other than `alive_count` keeps every
record accounted for. -/
theorem modifySm_children (s : State) (j : Nat) (f : SharedMem → SharedMem)
    (hf : ∀ sm, (f sm).alive_count = sm.alive_count) :
    ∀ k c', (s.modifySm j f).child? k = some c' → ∃ c, s.child? k = some c ∧
      c'.parentLeft = c.parentLeft ∧ (c.Accounted → c'.Accounted) := by
  intro k c' hk
  rw [State.child?_modifySm] at hk
  split at hk
  · obtain ⟨c, hc, rfl⟩ := Option.map_eq_some_iff.mp hk
    refine ⟨c, hc, rfl, fun ⟨hl, hcount⟩ => ⟨hl, ?_⟩⟩
    show (f c.sm).alive_count = _
    rw [hf]
    exact hcount
  · exact ⟨c', hk, rfl, id⟩

theorem inv_child_step {s t : State} {a : Act} {j : Nat} (ha : a.child? = some j)
    (h : step s a = some t) (hi : Inv s) : Inv t := by
  obtain ⟨hpc, hrel, -, hlen, hother⟩ := step_child_frame ha h
  obtain ⟨c, c', hc, hc', hpl, himp⟩ := step_own ha h
  refine inv_of_children hi hpc hrel hlen fun k d hk => ?_
  by_cases hkj : k = j
  · subst k
    rw [hc'] at hk
    cases hk
    exact ⟨c, hc, hpl, himp⟩
  · exact ⟨d, (hother k hkj).symm.trans hk, rfl, id⟩


theorem inv_process_execute {s : State} (hi : Inv s) (hpc : s.pc = .running)
    (waited copied created : Bool) : Inv (process_execute s waited copied created) := by
  unfold process_execute
  split
  · exact inv_record hi _
  split
  · exact inv_record hi _
  obtain ⟨⟨hnd, hlt, hpcwf⟩, hacc⟩ := hi
  rw [hpc] at hpcwf
  have hget : ∀ k c, (s.children ++ [⟨s.next_tid, freshSharedMem waited, .loading, false, false⟩])[k]? = some c →
      s.child? k = some c ∨ c = ⟨s.next_tid, freshSharedMem waited, .loading, false, false⟩ := by
    intro k c hk
    rw [List.getElem?_append] at hk
    split at hk
    · exact Or.inl hk
    · right
      simp only [List.getElem?_singleton] at hk
      split at hk
      · exact (Option.some.inj hk).symm
      · cases hk
  refine ⟨⟨hnd, fun k hk => by simpa using Nat.lt_succ_of_lt (hlt k hk), ?_⟩, ?_⟩
  · refine ⟨fun hk => Nat.lt_irrefl _ (hlt _ hk), by simp, fun j c hj => ?_⟩
    rcases hget j c hj with hj | rfl
    · exact hpcwf j c hj
    · rfl
  · intro k c hk
    rcases hget k c hk with hk | rfl
    · exact hacc k c hk
    · exact ⟨fun _ => rfl, by simp [freshSharedMem, Child.decremented]⟩

theorem inv_process_wait {s : State} (hi : Inv s) (hpc : s.pc = .running) (tid : Int) :
    Inv (process_wait s tid) := by
  unfold process_wait
  split
  · exact inv_record hi _
  split
  · exact inv_record hi _
  split
  · exact inv_record hi _
  rename_i k _
  split
  · exact inv_record hi _
  rename_i c _
  split
  · exact inv_record hi _
  split
  · exact inv_record hi _
  -- the blocking path: only `waited`, `waiting` and the control point change
  have hwf := hi.1.2.2
  rw [hpc] at hwf
  have hch := modifySm_children s k (fun sm => { sm with waited := true })
    fun _ => rfl
  refine ⟨⟨hi.1.1, by simpa using hi.1.2.1, fun j c' hj => ?_⟩, fun j c' hj => ?_⟩
  · obtain ⟨c, hc, hpl, -⟩ := hch j c' hj
    rw [hpl]
    exact hwf j c hc
  · obtain ⟨c, hc, -, himp⟩ := hch j c' hj
    exact himp (hi.2 j c hc)


theorem inv_execute_check {s : State} (hi : Inv s) {k : Nat} (hpc : s.pc = .execCheck k)
    {c : Child} (hc : s.child? k = some c) : Inv (execute_check s k c) := by
  obtain ⟨⟨hnd, hlt, hpcwf⟩, hacc⟩ := hi
  rw [hpc] at hpcwf
  obtain ⟨hk, hklt, hall⟩ := hpcwf
  unfold execute_check
  split
  · exact ⟨⟨hnd, hlt, hall⟩, hacc⟩
  · -- the child is listed: `child_relations` grows by `k`, which it did not hold
    have hch := modifySm_children s k (fun sm => { sm with child_tid := c.tid })
      fun _ => rfl
    refine ⟨⟨?_, ?_, fun j c' hj => ?_⟩, fun j c' hj => ?_⟩
    · rw [List.nodup_append]
      refine ⟨hnd, List.nodup_cons.mpr ⟨List.not_mem_nil, List.nodup_nil⟩, fun a ha b hb => ?_⟩
      rw [List.mem_singleton] at hb
      subst hb
      exact fun hab => hk (hab ▸ ha)
    · intro j hj
      simp only [List.mem_append, List.mem_singleton] at hj
      rcases hj with hj | rfl
      · simpa [State.record] using hlt j hj
      · simpa [State.record] using hklt
    · obtain ⟨d, hd, hpl, -⟩ := hch j c' hj
      rw [hpl]
      exact hall j d hd
    · obtain ⟨d, hd, -, himp⟩ := hch j c' hj
      exact himp (hacc j d hd)

theorem inv_exit_iteration {s : State} (hi : Inv s) {k : Nat} {rest : List Nat}
    (hpc : s.pc = .exitLoop (k :: rest)) : Inv (exit_iteration s k rest) := by
  obtain ⟨⟨hnd, hlt, hpcwf⟩, hacc⟩ := hi
  rw [hpc] at hpcwf
  obtain ⟨hnd', hall⟩ := hpcwf
  obtain ⟨c, hc, hpl⟩ := hall k (List.mem_cons_self ..)
  have hkrest : k ∉ rest := (List.nodup_cons.mp hnd').1
  -- the record of `k`, after the decrement of the parent
  have hget : ∀ j c', (exit_iteration s k rest).child? j = some c' →
      (j = k ∧
        c' = { c with sm := { c.sm with alive_count := c.sm.alive_count - 1 }, parentLeft := true })
      ∨ (j ≠ k ∧ s.child? j = some c') := by
    intro j c' hj
    change (s.modifyChild k _).child? j = some c' at hj
    rw [State.child?_modifyChild] at hj
    by_cases hjk : k = j
    · subst j
      simp only [if_true, hc, Option.map_some, Option.some.injEq] at hj
      exact Or.inl ⟨rfl, hj.symm⟩
    · simp only [hjk, if_false] at hj
      exact Or.inr ⟨Ne.symm hjk, hj⟩
  refine ⟨⟨?_, fun j hj => ?_, ?_⟩, fun j c' hj => ?_⟩
  · simp only [exit_iteration]
    split
    · exact hnd.erase k
    · exact hnd
  · have hj' : j ∈ s.child_relations := by
      simp only [exit_iteration] at hj
      split at hj
      · exact List.mem_of_mem_erase hj
      · exact hj
    simpa [exit_iteration] using hlt j hj'
  · refine ⟨(List.nodup_cons.mp hnd').2, fun j hj => ?_⟩
    have hjk : j ≠ k := fun h => hkrest (h ▸ hj)
    obtain ⟨d, hd, hdl⟩ := hall j (List.mem_cons_of_mem _ hj)
    refine ⟨d, ?_, hdl⟩
    change (s.modifyChild k _).child? j = some d
    rw [State.child?_modifyChild_ne _ _ (Ne.symm hjk), hd]
  · rcases hget j c' hj with ⟨rfl, rfl⟩ | ⟨-, hj⟩
    · obtain ⟨hl, hcount⟩ := hacc j c hc
      refine ⟨hl, ?_⟩
      show c.sm.alive_count - 1 = 1 + (if c.loadOk then 1 else 0) -
        (if c.decremented then 1 else 0) - (if true then 1 else 0)
      simp only [hpl, Bool.false_eq_true, if_false, if_true] at hcount ⊢
      omega
    · exact hacc j c' hj

theorem inv_parent_next {s t : State} (h : parent_next s = some t) (hi : Inv s) : Inv t := by
  unfold parent_next at h
  split at h
  · -- `sema_down (&sm->sema_exec)` returns
    rename_i k hpc
    simp only [Option.bind_eq_bind, Option.bind_eq_some_iff] at h
    obtain ⟨c, hc, h⟩ := h
    split at h
    · cases h
    · cases h
      have hch := modifySm_children s k
        (fun sm => { sm with sema_exec := sm.sema_exec - 1 }) fun _ => rfl
      obtain ⟨⟨hnd, hlt, hpcwf⟩, hacc⟩ := hi
      rw [hpc] at hpcwf
      obtain ⟨hk, hklt, hall⟩ := hpcwf
      refine ⟨⟨hnd, by simpa using hlt, hk, by simpa using hklt, fun j c' hj => ?_⟩,
        fun j c' hj => ?_⟩
      · obtain ⟨d, hd, hpl, -⟩ := hch j c' hj
        rw [hpl]
        exact hall j d hd
      · obtain ⟨d, hd, -, himp⟩ := hch j c' hj
        exact himp (hacc j d hd)
  · rename_i k hpc
    simp only [Option.bind_eq_bind, Option.bind_eq_some_iff] at h
    obtain ⟨c, hc, h⟩ := h
    cases h
    exact inv_execute_check hi hpc hc
  · -- `sema_down (&childs_sm->sema_wait)` returns
    rename_i k tid hpc
    simp only [Option.bind_eq_bind, Option.bind_eq_some_iff] at h
    obtain ⟨c, hc, h⟩ := h
    split at h
    · cases h
    · cases h
      have hch := modifySm_children s k
        (fun sm => { sm with sema_wait := sm.sema_wait - 1 }) fun _ => rfl
      obtain ⟨⟨hnd, hlt, hpcwf⟩, hacc⟩ := hi
      rw [hpc] at hpcwf
      refine ⟨⟨hnd, by simpa [State.record] using hlt, fun j c' hj => ?_⟩, fun j c' hj => ?_⟩
      · obtain ⟨d, hd, hpl, -⟩ := hch j c' hj
        rw [hpl]
        exact hpcwf j d hd
      · obtain ⟨d, hd, -, himp⟩ := hch j c' hj
        exact himp (hacc j d hd)
  · rename_i k rest hpc
    cases h
    exact inv_exit_iteration hi hpc
  · cases h
    exact ⟨⟨hi.1.1, hi.1.2.1, trivial⟩, hi.2⟩
  · cases h

theorem inv_step {s t : State} {a : Act} (h : step s a = some t) (hi : Inv s) : Inv t := by
  cases a with
  | parentExec waited copied created =>
    simp only [step] at h
    split at h
    · cases h
      exact inv_process_execute hi ‹_› waited copied created
    · cases h
  | parentWait tid =>
    simp only [step] at h
    split at h
    · cases h
      exact inv_process_wait hi ‹_› tid
    · cases h
  | parentExit =>
    simp only [step] at h
    split at h
    · rename_i hpc
      cases h
      obtain ⟨⟨hnd, hlt, hpcwf⟩, hacc⟩ := hi
      rw [hpc] at hpcwf
      refine ⟨⟨hnd, hlt, hnd, fun k hk => ?_⟩, hacc⟩
      obtain ⟨c, hc⟩ : ∃ c, s.child? k = some c := ⟨_, List.getElem?_eq_getElem (hlt k hk)⟩
      exact ⟨c, hc, hpcwf k c hc⟩
    · cases h
  | parentNext => exact inv_parent_next h hi
  | childLoad k b => exact inv_child_step rfl h hi
  | childNext k => exact inv_child_step rfl h hi
  | childExit k status => exact inv_child_step rfl h hi
  | childKill k => exact inv_child_step rfl h hi

theorem inv_reachable {tid : Nat} {s : State} (h : Reachable tid s) : Inv s :=
  Transition.Stable.reachable (fun _ _ _ hi hs => inv_step hs hi) (inv_initial tid) h


open Transition

/-- Every write to `alive_count` of every child is accounted for, in every
reachable state: the count is 1, plus one after a successful `load`, minus one
for the child's `process_exit` and one for the parent's. -/
theorem alive_count_accounted {tid : Nat} {s : State} (h : Reachable tid s) {k : Nat}
    {c : Child} (hc : s.child? k = some c) :
    c.sm.alive_count = 1 + (if c.loadOk then 1 else 0) - (if c.decremented then 1 else 0)
      - (if c.parentLeft then 1 else 0) :=
  ((inv_reachable h).2 k c hc).2

theorem alive_count_accounted_loaded :
    ∃ s c, Reachable 3 s ∧ s.child? 0 = some c ∧
      c.sm.alive_count = 1 + (if c.loadOk then 1 else 0) - (if c.decremented then 1 else 0)
        - (if c.parentLeft then 1 else 0) := by
  have hrun : run step (State.initial 3) [.parentExec false true true, .childLoad 0 true] =
      some ((run step (State.initial 3) [.parentExec false true true, .childLoad 0 true]).getD
        (State.initial 3)) := rfl
  obtain ⟨c, hc⟩ : ∃ c, ((run step (State.initial 3)
      [.parentExec false true true, .childLoad 0 true]).getD (State.initial 3)).child? 0 =
        some c := ⟨_, rfl⟩
  exact ⟨_, c, reachable_of_run hrun, hc, alive_count_accounted (reachable_of_run hrun) hc⟩

/-! ## A lost wakeup is permanent -/

/-- The parent sleeps on `sema_wait` of child `k`, which has finished
`process_exit` without an `up`. -/
def LostWakeup (k : Nat) (tid : Int) (s : State) : Prop :=
  s.pc = .waitBlocked k tid ∧
    (s.child? k).any (fun c => c.pc == .exited && c.sm.sema_wait == 0) = true

instance (k : Nat) (tid : Int) : DecidablePred (LostWakeup k tid) :=
  fun _ => inferInstanceAs (Decidable (_ ∧ _))

/-- A child that has finished the handshake takes no more steps. -/
theorem step_exited_child {s : State} {k : Nat} {c : Child} (hc : s.child? k = some c)
    (hpc : c.pc = .exited) {a : Act} (ha : a.child? = some k) : step s a = none := by
  cases a with
  | childLoad j b => cases ha; simp [step, start_process, hc, hpc]
  | childNext j => cases ha; simp [step, child_next, hc, hpc]
  | childExit j status => cases ha; simp [step, exit, hc, hpc]
  | childKill j => cases ha; simp [step, hc, hpc]
  | _ => cases ha

theorem lostWakeup_stable (k : Nat) (tid : Int) : Stable step (LostWakeup k tid) := by
  rintro s a t ⟨hpc, hchild⟩ h
  obtain ⟨c, hc, hex, hsw⟩ : ∃ c, s.child? k = some c ∧ c.pc = .exited ∧ c.sm.sema_wait = 0 := by
    cases hs : s.child? k with
    | none => simp [hs] at hchild
    | some c =>
      simp only [hs, Option.any_some, Bool.and_eq_true, beq_iff_eq] at hchild
      exact ⟨c, rfl, hchild⟩
  cases hact : a.child? with
  | some j =>
    obtain ⟨htpc, -, -, -, hother⟩ := step_child_frame hact h
    by_cases hjk : j = k
    · subst j
      rw [step_exited_child hc hex hact] at h
      cases h
    · refine ⟨htpc.trans hpc, ?_⟩
      rw [hother k (Ne.symm hjk), hc]
      simp [hex, hsw]
  | none =>
    -- the parent sits in `sema_down`: its call steps are disabled, and so is the down
    cases a with
    | parentExec => simp [step, hpc] at h
    | parentWait => simp [step, hpc] at h
    | parentExit => simp [step, hpc] at h
    | parentNext => simp [step, parent_next, hpc, hc, hsw] at h
    | _ => cases hact

/-- From a lost wakeup no interleaving of any threads lets the parent return. -/
theorem lostWakeup_forever {k : Nat} {tid : Int} {s t : State} (hs : LostWakeup k tid s)
    {as : List Act} (h : run step s as = some t) : t.pc = .waitBlocked k tid :=
  ((lostWakeup_stable k tid).run hs h).1

end Pintos.Process

namespace Pintos.Process

open Transition

/-- The handshake loses a wakeup and lets `alive_count` disagree with the live
ends of a relation. After `failedLoadRace` the parent lists a child whose load
failed; its `wait` then sleeps on a `sema_wait` the dead child never raised, and
no interleaving wakes it. The same race followed by the parent's exit takes the
count to -1. After `quickExitRace` the parent never lists a child that loaded,
so its exit leaves the count at 1 when both ends have exited. -/
theorem handshake_loses_wakeup :
    (∃ s, Reachable 3 s ∧ LostWakeup 0 3 s ∧
      ∀ as t, run step s as = some t → t.pc = .waitBlocked 0 3) ∧
    (∃ s, Reachable 3 s ∧ (s.child? 0).map (·.sm.alive_count) = some (-1)) ∧
    (∃ s, Reachable 3 s ∧ s.pc = .exited ∧ (s.child? 0).map (·.pc) = some .exited ∧
      (s.child? 0).map (·.loadOk) = some true ∧ (s.child? 0).map (·.sm.alive_count) = some 1) := by
  refine ⟨?_, ?_, ?_⟩
  · obtain ⟨s, hs, hp⟩ := exists_reachable_of_run step (State.initial 3)
      (failedLoadRace ++ [.parentWait 3]) (fun s => decide (LostWakeup 0 3 s)) (by decide)
    have hlost : LostWakeup 0 3 s := of_decide_eq_true hp
    exact ⟨s, hs, hlost, fun _ _ h => lostWakeup_forever hlost h⟩
  · obtain ⟨s, hs, hp⟩ := exists_reachable_of_run step (State.initial 3)
      (failedLoadRace ++ [.parentExit, .parentNext])
      (fun s => decide ((s.child? 0).map (·.sm.alive_count) = some (-1))) (by decide)
    exact ⟨s, hs, of_decide_eq_true hp⟩
  · obtain ⟨s, hs, hp⟩ := exists_reachable_of_run step (State.initial 3)
      (quickExitRace ++ [.childNext 0, .parentExit, .parentNext])
      (fun s => decide (s.pc = .exited ∧ (s.child? 0).map (·.pc) = some .exited ∧
        (s.child? 0).map (·.loadOk) = some true ∧ (s.child? 0).map (·.sm.alive_count) = some 1))
      (by decide)
    exact ⟨s, hs, of_decide_eq_true hp⟩

end Pintos.Process
