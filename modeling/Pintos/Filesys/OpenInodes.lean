import Pintos.Filesys.Filesys
import Pintos.Transition

/-!
# The list of open inodes

`inode_open` keeps one `struct inode` per sector in `open_inodes`. It returns the listed
inode of a sector when there is one, with one more opener in `open_cnt`, and otherwise
pushes a new inode with `open_cnt` one; `inode_reopen` counts one more opener and
`inode_close` one fewer, taking the inode off the list when none is left. `file_open` and
`dir_open` take over the reference they are given and close it when their own allocation
fails.

The references are counted from the calls that made and dropped them. The log of a run
holds every open that returned an inode, every reopen and every close, and `refs` of a
sector is its opens and reopens less its closes. In every state a run reaches, the list
has one inode for each sector with references and `open_cnt` is their number
(`open_inodes_counted`): an inode leaves the list exactly at the close that drops its last
reference. A run stops at a call that panics or blocks. The `inode_open` whose `malloc`
fails returns `NULL` still holding `filesys_lock`, and the next call of the thread panics
(`listed_inode_open_panics`).
-/

namespace Pintos.Filesys.OpenInodes

open StateExcept SE Pintos.Filesys

def Listed (inodes : List Inode) (sector : Nat) : Prop := sector ∈ inodes.map (·.sector)

instance (inodes : List Inode) (sector : Nat) : Decidable (Listed inodes sector) :=
  inferInstanceAs (Decidable (sector ∈ inodes.map (·.sector)))

theorem find_isSome_iff (inodes : List Inode) (sector : Nat) :
    (inodes.find? (·.sector == sector)).isSome = true ↔ Listed inodes sector := by
  simp [Listed, List.find?_isSome]

/-- A call of `inode.c` that makes or drops a reference to the inode of a sector: an
`inode_open` that returned it, an `inode_reopen`, an `inode_close`. -/
inductive InodeCall
  | opened (sector : Nat)
  | reopened (sector : Nat)
  | closed (sector : Nat)
  deriving DecidableEq, Repr

def InodeCall.sector : InodeCall → Nat
  | .opened sector | .reopened sector | .closed sector => sector

/-- The references to the inode of `sector` that the calls of `log` leave: its opens and
reopens less its closes. -/
def refs (log : List InodeCall) (sector : Nat) : Nat :=
  log.count (.opened sector) + log.count (.reopened sector) - log.count (.closed sector)

/-- No inode was closed more often than it was opened and reopened. -/
def Valid (log : List InodeCall) : Prop :=
  ∀ sector, log.count (.closed sector) ≤ log.count (.opened sector) + log.count (.reopened sector)

/-- `open_inodes` lists one inode for each sector with references, and its `open_cnt` is
their number. -/
structure Counted (inodes : List Inode) (r : Nat → Nat) : Prop where
  nodup : (inodes.map (·.sector)).Nodup
  open_cnt_eq : ∀ i ∈ inodes, i.open_cnt = r i.sector
  listed_iff : ∀ sector, Listed inodes sector ↔ 0 < r sector

/-- What `inode_close` of a listed inode of `sector` does to the list: with `open_cnt` one
it takes the inode off, and otherwise counts one opener fewer. -/
def Closed (inodes inodes' : List Inode) (sector : Nat) : Prop :=
  ∃ i ∈ inodes, i.sector = sector ∧
    (i.open_cnt = 1 ∧ inodes' = inodes.filter (·.sector != sector) ∨
      i.open_cnt ≠ 1 ∧ inodes' = inodes.map fun j =>
        if j.sector = sector then { j with open_cnt := j.open_cnt - 1 } else j)

section Log

variable {log : List InodeCall} {sector : Nat}

@[simp] theorem refs_nil : refs [] sector = 0 := rfl

theorem valid_nil : Valid [] := fun _ => Nat.zero_le _

/-- A call about another sector leaves the references of this one. -/
theorem refs_append_of_ne {c : InodeCall} (h : c.sector ≠ sector) :
    refs (log ++ [c]) sector = refs log sector := by
  cases c <;> simp_all [refs, InodeCall.sector, List.count_append, eq_comm]

theorem refs_append_opened (hv : Valid log) :
    refs (log ++ [.opened sector]) sector = refs log sector + 1 := by
  have := hv sector
  simp [refs, List.count_append]
  omega

theorem refs_append_reopened (hv : Valid log) :
    refs (log ++ [.reopened sector]) sector = refs log sector + 1 := by
  have := hv sector
  simp [refs, List.count_append]
  omega

theorem refs_append_closed : refs (log ++ [.closed sector]) sector = refs log sector - 1 := by
  simp [refs, List.count_append]
  omega

/-- An open or a reopen keeps the log valid, and so does a close of a sector with
references. -/
theorem Valid.append {c : InodeCall} (hv : Valid log)
    (hc : ∀ sector, c = .closed sector → 0 < refs log sector) : Valid (log ++ [c]) := by
  intro x
  have hx := hv x
  cases c with
  | opened s | reopened s =>
    by_cases hs : s = x <;> simp [List.count_append, hs] <;> omega
  | closed s =>
    have hpos := hc s rfl
    by_cases hs : s = x
    · subst hs
      simp only [refs] at hpos
      simp [List.count_append]
      omega
    · simp [List.count_append, hs]
      omega

end Log

section Counted

variable {inodes : List Inode} {r r' : Nat → Nat} {sector : Nat}

theorem counted_nil : Counted [] (refs []) where
  nodup := List.nodup_nil
  open_cnt_eq := by simp
  listed_iff := by simp [Listed]

theorem Counted.pos (h : Counted inodes r) (hl : Listed inodes sector) : 0 < r sector :=
  (h.listed_iff sector).mp hl

/-- Setting `open_cnt` of the listed inode of `sector` to `f` of it, while its references go
the same way and stay positive, keeps the list counted. -/
theorem Counted.set_open_cnt (h : Counted inodes r) (f : Nat → Nat) (hpos : 0 < r sector)
    (hf : 0 < f (r sector)) (hself : r' sector = f (r sector))
    (hother : ∀ x, x ≠ sector → r' x = r x) :
    Counted (inodes.map fun i => if i.sector = sector then { i with open_cnt := f i.open_cnt } else i)
      r' := by
  -- the sectors on the list stay as they were
  have hsec : (inodes.map fun i =>
      if i.sector = sector then { i with open_cnt := f i.open_cnt } else i).map (·.sector) =
      inodes.map (·.sector) := by
    rw [List.map_map]
    refine List.map_congr_left fun i _ => ?_
    simp only [Function.comp]
    split <;> rfl
  refine ⟨hsec ▸ h.nodup, fun j hj => ?_, fun x => ?_⟩
  · obtain ⟨i, hi, rfl⟩ := List.mem_map.mp hj
    by_cases hs : i.sector = sector
    · simp only [hs, if_true, hself, h.open_cnt_eq i hi]
    · simp only [hs, if_false, hother _ hs, h.open_cnt_eq i hi]
  · rw [Listed, hsec, ← Listed, h.listed_iff]
    by_cases hx : x = sector
    · subst hx
      simp only [hpos, hself, hf]
    · rw [hother x hx]

/-- A new inode with `open_cnt` one for a sector without references keeps the list
counted. -/
theorem Counted.push (h : Counted inodes r) (hzero : r sector = 0) (hself : r' sector = 1)
    (hother : ∀ x, x ≠ sector → r' x = r x) (data : InodeDisk) :
    Counted (⟨sector, 1, false, data⟩ :: inodes) r' := by
  have hnot : ¬Listed inodes sector := fun hl => by simpa [hzero] using h.pos hl
  refine ⟨List.nodup_cons.mpr ⟨hnot, h.nodup⟩, fun j hj => ?_, fun x => ?_⟩
  · rcases List.mem_cons.mp hj with rfl | hj
    · exact hself.symm
    · have hs : j.sector ≠ sector := fun hs => hnot (List.mem_map.mpr ⟨j, hj, hs⟩)
      rw [h.open_cnt_eq j hj, hother _ hs]
  · by_cases hx : x = sector
    · subst hx
      simp [Listed, hself]
    · rw [hother x hx, ← h.listed_iff]
      simp [Listed, hx]

/-- A close of the listed inode of `sector`, whose references go down by one, keeps the
list counted: the inode leaves it exactly when they reach zero. -/
theorem Counted.closed {inodes' : List Inode} (h : Counted inodes r)
    (hc : Closed inodes inodes' sector) (hself : r' sector = r sector - 1)
    (hother : ∀ x, x ≠ sector → r' x = r x) : Counted inodes' r' := by
  obtain ⟨i, hi, hs, ⟨hlast, rfl⟩ | ⟨hmore, rfl⟩⟩ := hc
  · -- the last reference: off the list
    have hone : r sector = 1 := by rw [← hs, ← h.open_cnt_eq i hi, hlast]
    refine ⟨h.nodup.sublist ((List.filter_sublist).map _), fun j hj => ?_, fun x => ?_⟩
    · obtain ⟨hj, hjs⟩ := List.mem_filter.mp hj
      rw [h.open_cnt_eq j hj, hother _ (by simpa using hjs)]
    · by_cases hx : x = sector
      · subst hx
        simp [Listed, hself, hone]
      · rw [hother x hx, ← h.listed_iff]
        simp only [Listed, List.mem_map, List.mem_filter, bne_iff_ne, ne_eq]
        constructor
        · rintro ⟨j, ⟨hj, -⟩, rfl⟩
          exact ⟨j, hj, rfl⟩
        · rintro ⟨j, hj, rfl⟩
          exact ⟨j, ⟨hj, hx⟩, rfl⟩
  · -- more openers: one fewer
    have hpos : 0 < r sector := h.pos (List.mem_map.mpr ⟨i, hi, hs⟩)
    have hcnt : r sector ≠ 1 := by rw [← hs, ← h.open_cnt_eq i hi]; exact hmore
    exact h.set_open_cnt (fun n => n - 1) hpos (by omega) hself hother

end Counted

section Calls

variable (t : Nat) {β : Type} (f : FsState → β)

theorem lock_acquire_keeps (hf : ∀ s h, f { s with holder := h } = f s) (l : LockId) :
    Keeps f (lock_acquire t l) := by
  refine keeps_bind keeps_get fun s => ?_
  split
  · split <;> exact keeps_throw _
  · exact keeps_modify fun s => hf s _

theorem lock_release_keeps (hf : ∀ s h, f { s with holder := h } = f s) (l : LockId) :
    Keeps f (lock_release t l) := by
  refine keeps_bind keeps_get fun s => ?_
  exact keeps_ite (fun _ => keeps_modify fun s => hf s _) fun _ => keeps_throw _

theorem malloc_keeps (hf : ∀ s a, f { s with alloc := a } = f s) : Keeps f malloc := by
  refine keeps_bind keeps_get fun s => ?_
  split
  · exact keeps_pure _
  · exact keeps_bind (keeps_modify fun s => hf s _) fun _ => keeps_pure _

theorem free_map_release_keeps (hf : ∀ s h, f { s with holder := h } = f s)
    (hmap : ∀ s m, f { s with free_map := m } = f s) (sector cnt : Nat) :
    Keeps f (free_map_release t sector cnt) :=
  keeps_bind (lock_acquire_keeps t f hf _) fun _ => keeps_bind keeps_get fun _ =>
    keeps_ite (fun _ => keeps_bind (keeps_modify fun s => hmap s _) fun _ =>
      lock_release_keeps t f hf _) fun _ => keeps_throw _

/-- The way out of `inode_open`: a write to the state, `lock_release` and the result. -/
theorem modify_release_pure {γ : Type} {m : FsState → FsState} {l : LockId} {a r : γ}
    {fs fs' : FsState} (h : (modify m >>= fun _ => lock_release t l >>= fun _ => pure a) fs = (.ok r, fs')) :
    r = a ∧ fs'.open_inodes = (m fs).open_inodes := by
  rw [bind_apply, modify_apply] at h
  obtain ⟨_, fs₁, hrel, hpure⟩ := bind_eq_ok h
  rw [pure_apply, Prod.mk.injEq, Except.ok.injEq] at hpure
  exact ⟨hpure.1.symm, hpure.2 ▸ (lock_release_keeps t _ (fun _ _ => rfl) l).eq hrel⟩

theorem inode_open_cases {sector : Nat} {fs fs' : FsState} {r : Option Nat}
    (h : inode_open t sector fs = (.ok r, fs')) :
    (Listed fs.open_inodes sector ∧ r = some sector ∧
        fs'.open_inodes = fs.open_inodes.map fun i =>
          if i.sector = sector then { i with open_cnt := i.open_cnt + 1 } else i) ∨
      (¬Listed fs.open_inodes sector ∧ r = some sector ∧
        fs'.open_inodes = ⟨sector, 1, false, fs.disk sector⟩ :: fs.open_inodes) ∨
      (¬Listed fs.open_inodes sector ∧ r = none ∧ fs'.open_inodes = fs.open_inodes) := by
  obtain ⟨_, fs₁, hacq, hrest⟩ := bind_eq_ok h
  have ho₁ := (lock_acquire_keeps t FsState.open_inodes (fun _ _ => rfl) _).eq hacq
  have hd₁ := (lock_acquire_keeps t FsState.disk (fun _ _ => rfl) _).eq hacq
  rw [bind_apply, get_apply] at hrest
  dsimp only at hrest
  split at hrest
  case isTrue hfound =>
    -- `inode_reopen` of the listed inode
    rw [ho₁, find_isSome_iff] at hfound
    obtain ⟨rfl, hout⟩ := modify_release_pure t hrest
    exact Or.inl ⟨hfound, rfl, by rw [hout, ho₁]⟩
  case isFalse hfound =>
    rw [ho₁, find_isSome_iff] at hfound
    obtain ⟨ok, fs₂, hmalloc, hrest⟩ := bind_eq_ok hrest
    have ho₂ := (malloc_keeps FsState.open_inodes (fun _ _ => rfl)).eq hmalloc
    have hd₂ := (malloc_keeps FsState.disk (fun _ _ => rfl)).eq hmalloc
    split at hrest
    case isTrue =>
      obtain ⟨rfl, hout⟩ := modify_release_pure t hrest
      exact Or.inr (Or.inl ⟨hfound, rfl, by rw [hout, hd₂, hd₁, ho₂, ho₁]⟩)
    case isFalse =>
      -- `malloc` failed: `return NULL`, still holding `filesys_lock`
      rw [pure_apply, Prod.mk.injEq, Except.ok.injEq] at hrest
      obtain ⟨rfl, rfl⟩ := hrest
      exact Or.inr (Or.inr ⟨hfound, rfl, by rw [ho₂, ho₁]⟩)

theorem inode_close_cases {sector : Nat} {fs fs' : FsState}
    (h : inode_close t (some sector) fs = (.ok (), fs')) :
    Closed fs.open_inodes fs'.open_inodes sector := by
  obtain ⟨_, fs₁, hacq, hrest⟩ := bind_eq_ok h
  have ho₁ := (lock_acquire_keeps t FsState.open_inodes (fun _ _ => rfl) _).eq hacq
  rw [bind_apply, get_apply] at hrest
  dsimp only at hrest
  rcases hfind : fs₁.open_inodes.find? (·.sector == sector) with _ | i
  · -- no inode of the sector: the `inode` pointer is dangling
    rw [hfind] at hrest
    simp at hrest
  rw [hfind] at hrest
  dsimp only at hrest
  have hmem := List.mem_of_find?_eq_some hfind
  have hsec : i.sector = sector := by simpa using List.find?_some hfind
  rw [ho₁] at hmem
  refine ⟨i, hmem, hsec, ?_⟩
  by_cases hlast : i.open_cnt = 1
  · -- the last opener: off the list, and its sectors freed if it was removed
    rw [if_pos hlast, bind_apply, modify_apply] at hrest
    have ho₂ := Keeps.eq (keeps_ite (fun _ => keeps_bind
      (free_map_release_keeps t FsState.open_inodes (fun _ _ => rfl) (fun _ _ => rfl) _ _)
      fun _ => keeps_bind
        (free_map_release_keeps t FsState.open_inodes (fun _ _ => rfl) (fun _ _ => rfl) _ _)
        fun _ => lock_release_keeps t _ (fun _ _ => rfl) _)
      fun _ => lock_release_keeps t _ (fun _ _ => rfl) _) hrest
    exact Or.inl ⟨hlast, by rw [ho₂, ho₁]⟩
  · rw [if_neg hlast, bind_apply, modify_apply] at hrest
    have ho₂ := (lock_release_keeps t FsState.open_inodes (fun _ _ => rfl) _).eq hrest
    exact Or.inr ⟨hlast, by rw [ho₂, ho₁]⟩

/-- A `file_open` of a held inode keeps it, or closes it when its `calloc` fails. -/
theorem file_open_cases {sector : Nat} {fs fs' : FsState} {r : Option Nat}
    (h : file_open t (some sector) fs = (.ok r, fs')) :
    (r = some sector ∧ fs'.open_inodes = fs.open_inodes) ∨
      (r = none ∧ Closed fs.open_inodes fs'.open_inodes sector) := by
  obtain ⟨ok, fs₁, hmalloc, hrest⟩ := bind_eq_ok h
  have ho₁ := (malloc_keeps FsState.open_inodes (fun _ _ => rfl)).eq hmalloc
  split at hrest
  case isTrue =>
    rw [pure_apply, Prod.mk.injEq, Except.ok.injEq] at hrest
    obtain ⟨rfl, rfl⟩ := hrest
    exact Or.inl ⟨rfl, ho₁⟩
  case isFalse =>
    obtain ⟨_, fs₂, hclose, hpure⟩ := bind_eq_ok hrest
    rw [pure_apply, Prod.mk.injEq, Except.ok.injEq] at hpure
    obtain ⟨rfl, rfl⟩ := hpure
    exact Or.inr ⟨rfl, ho₁ ▸ inode_close_cases t hclose⟩

/-- A `dir_open` of a held inode keeps it, or closes it when its `calloc` fails. -/
theorem dir_open_cases {sector : Nat} {fs fs' : FsState} {b : Bool}
    (h : dir_open t (some sector) fs = (.ok b, fs')) :
    (b = true ∧ fs'.open_inodes = fs.open_inodes) ∨
      (b = false ∧ Closed fs.open_inodes fs'.open_inodes sector) := by
  obtain ⟨ok, fs₁, hmalloc, hrest⟩ := bind_eq_ok h
  have ho₁ := (malloc_keeps FsState.open_inodes (fun _ _ => rfl)).eq hmalloc
  split at hrest
  case isTrue =>
    rw [pure_apply, Prod.mk.injEq, Except.ok.injEq] at hrest
    obtain ⟨rfl, rfl⟩ := hrest
    exact Or.inl ⟨rfl, ho₁⟩
  case isFalse =>
    obtain ⟨_, fs₂, hclose, hpure⟩ := bind_eq_ok hrest
    rw [pure_apply, Prod.mk.injEq, Except.ok.injEq] at hpure
    obtain ⟨rfl, rfl⟩ := hpure
    exact Or.inr ⟨rfl, ho₁ ▸ inode_close_cases t hclose⟩

end Calls

/-! ## Runs of calls -/

/-- The calls that make or drop references: `file_open` and `dir_open` are given an inode
their caller holds. `file_reopen`, `dir_reopen` and `dir_open_root` are `inode_reopen` or
`inode_open` followed by one of these, and `file_close` and `dir_close` are
`inode_close`. -/
inductive RefOp
  | inode_open (sector : Nat)
  | inode_reopen (sector : Nat)
  | inode_close (sector : Nat)
  | file_open (sector : Nat)
  | dir_open (sector : Nat)
  deriving DecidableEq, Repr

/-- The file system, and the calls so far that opened, reopened or closed an inode. -/
structure World where
  fs : FsState
  log : List InodeCall

/-- One call by thread `t`, recorded in the log with the references it made and dropped;
`none` when it panics or blocks, or is given an inode its caller does not hold. -/
def ref_step (t : Nat) (w : World) : RefOp → Option World
  | .inode_open sector =>
    match inode_open t sector w.fs with
    | (.ok r, fs) => some ⟨fs, if r = some sector then w.log ++ [.opened sector] else w.log⟩
    | (.error _, _) => none
  | .inode_reopen sector =>
    if 0 < refs w.log sector then
      some ⟨(inode_reopen (some sector) w.fs).2, w.log ++ [.reopened sector]⟩
    else none
  | .inode_close sector =>
    if 0 < refs w.log sector then
      match inode_close t (some sector) w.fs with
      | (.ok _, fs) => some ⟨fs, w.log ++ [.closed sector]⟩
      | (.error _, _) => none
    else none
  | .file_open sector =>
    if 0 < refs w.log sector then
      match file_open t (some sector) w.fs with
      | (.ok r, fs) => some ⟨fs, if r = none then w.log ++ [.closed sector] else w.log⟩
      | (.error _, _) => none
    else none
  | .dir_open sector =>
    if 0 < refs w.log sector then
      match dir_open t (some sector) w.fs with
      | (.ok b, fs) => some ⟨fs, if b then w.log else w.log ++ [.closed sector]⟩
      | (.error _, _) => none
    else none

/-- The log is valid and the list counts its references. -/
def Inv (w : World) : Prop := Valid w.log ∧ Counted w.fs.open_inodes (refs w.log)

section Step

variable {log : List InodeCall} {inodes : List Inode} {sector : Nat}

/-- An open or reopen of a listed inode, counted in the log. -/
theorem Inv.reopen (hv : Valid log) (h : Counted inodes (refs log)) (hl : Listed inodes sector)
    (c : InodeCall) (hc : c = .opened sector ∨ c = .reopened sector) :
    Valid (log ++ [c]) ∧ Counted (inodes.map fun i =>
      if i.sector = sector then { i with open_cnt := i.open_cnt + 1 } else i) (refs (log ++ [c])) := by
  have hself : refs (log ++ [c]) sector = refs log sector + 1 := by
    rcases hc with rfl | rfl
    · exact refs_append_opened hv
    · exact refs_append_reopened hv
  refine ⟨(hv.append fun _ h' => by rcases hc with rfl | rfl <;> cases h'), ?_⟩
  refine h.set_open_cnt (fun n => n + 1) (h.pos hl) (Nat.succ_pos _) hself fun x hx => ?_
  exact refs_append_of_ne (by rcases hc with rfl | rfl <;> exact Ne.symm hx)

/-- A close of a held inode, counted in the log. -/
theorem Inv.close {inodes' : List Inode} (hv : Valid log) (h : Counted inodes (refs log))
    (hpos : 0 < refs log sector) (hc : Closed inodes inodes' sector) :
    Valid (log ++ [.closed sector]) ∧ Counted inodes' (refs (log ++ [.closed sector])) :=
  ⟨hv.append fun _ h' => by cases h'; exact hpos,
    h.closed hc refs_append_closed fun _ hx => refs_append_of_ne (Ne.symm hx)⟩

variable (t : Nat)

/-- Every call keeps the list counting the references of the log. -/
theorem inv_ref_step {w w' : World} {op : RefOp} (h : Inv w) (hs : ref_step t w op = some w') :
    Inv w' := by
  obtain ⟨hv, hc⟩ := h
  cases op with
  | inode_open sector =>
    simp only [ref_step] at hs
    split at hs
    case h_2 => cases hs
    case h_1 r fs hopen =>
      cases hs
      rcases inode_open_cases t hopen with ⟨hl, rfl, hout⟩ | ⟨hl, rfl, hout⟩ | ⟨-, rfl, hout⟩
      · -- the listed inode, once more
        simp only [if_true]
        dsimp only [Inv]
        rw [hout]
        exact Inv.reopen hv hc hl _ (Or.inl rfl)
      · -- a new inode
        simp only [if_true]
        dsimp only [Inv]
        rw [hout]
        have hzero : refs w.log sector = 0 := Nat.eq_zero_of_not_pos fun hp =>
          hl ((hc.listed_iff sector).mpr hp)
        refine ⟨(hv.append fun _ h' => by cases h'), ?_⟩
        refine hc.push hzero ?_ (fun x hx => ?_) _
        · rw [refs_append_opened hv, hzero]
        · exact refs_append_of_ne (Ne.symm hx)
      · simp only [reduceCtorEq, if_false]
        dsimp only [Inv]
        rw [hout]
        exact ⟨hv, hc⟩
  | inode_reopen sector =>
    simp only [ref_step] at hs
    split at hs
    case isFalse => cases hs
    case isTrue hpos =>
      cases hs
      exact Inv.reopen hv hc ((hc.listed_iff sector).mpr hpos) _ (Or.inr rfl)
  | inode_close sector =>
    simp only [ref_step] at hs
    split at hs
    case isFalse => cases hs
    case isTrue hpos =>
      split at hs
      case h_2 => cases hs
      case h_1 fs hclose =>
        cases hs
        exact Inv.close hv hc hpos (inode_close_cases t hclose)
  | file_open sector =>
    simp only [ref_step] at hs
    split at hs
    case isFalse => cases hs
    case isTrue hpos =>
      split at hs
      case h_2 => cases hs
      case h_1 r fs hopen =>
        cases hs
        rcases file_open_cases t hopen with ⟨rfl, hout⟩ | ⟨rfl, hclosed⟩
        · simp only [reduceCtorEq, if_false]
          dsimp only [Inv]
          rw [hout]
          exact ⟨hv, hc⟩
        · simp only [if_true]
          exact Inv.close hv hc hpos hclosed
  | dir_open sector =>
    simp only [ref_step] at hs
    split at hs
    case isFalse => cases hs
    case isTrue hpos =>
      split at hs
      case h_2 => cases hs
      case h_1 b fs hopen =>
        cases hs
        rcases dir_open_cases t hopen with ⟨rfl, hout⟩ | ⟨rfl, hclosed⟩
        · simp only [if_true]
          dsimp only [Inv]
          rw [hout]
          exact ⟨hv, hc⟩
        · simp only [Bool.false_eq_true, if_false]
          exact Inv.close hv hc hpos hclosed

theorem inv_stable : Transition.Stable (ref_step t) Inv := fun _ _ _ h hs => inv_ref_step t h hs

/-- From a file system with no inode open, every run of calls leaves `open_inodes` with one
inode for each sector with references, whose `open_cnt` is the number of its opens and
reopens less its closes, and so at least one. -/
theorem open_inodes_counted {fs : FsState} (h₀ : fs.open_inodes = []) {w : World}
    (hw : Transition.Reachable (ref_step t) ⟨fs, []⟩ w) : Counted w.fs.open_inodes (refs w.log) :=
  ((inv_stable t).reachable ⟨valid_nil, h₀ ▸ counted_nil⟩ hw).2

theorem open_inodes_counted_reopen :
    (fs_init 4).open_inodes = [] ∧
      ∃ w, Transition.run (ref_step 0) ⟨fs_init 4, []⟩ [.inode_open 1, .inode_reopen 1] = some w ∧
        Counted w.fs.open_inodes (refs w.log) := by
  obtain ⟨w, hw⟩ : ∃ w, Transition.run (ref_step 0) ⟨fs_init 4, []⟩
      [.inode_open 1, .inode_reopen 1] = some w := ⟨_, rfl⟩
  exact ⟨rfl, w, hw, open_inodes_counted 0 (show (fs_init 4).open_inodes = [] from rfl)
    (Transition.reachable_of_run hw)⟩

end Step

/-- The `inode_open` whose `malloc` fails returns `NULL` still holding `filesys_lock`. The
next `inode_open` of a listed inode then panics on `lock_acquire` instead of returning it,
and so does the `inode_close` that would take it off the list. -/
theorem listed_inode_open_panics :
    ∃ w, Transition.run (ref_step 0) ⟨{ fs_init 4 with alloc := [true, false] }, []⟩
        [.inode_open 1, .inode_open 2] = some w ∧
      Listed w.fs.open_inodes 1 ∧ refs w.log 1 = 1 ∧
      inode_open 0 1 w.fs = (.error .panic, w.fs) ∧
      inode_close 0 (some 1) w.fs = (.error .panic, w.fs) :=
  ⟨_, rfl, by decide, rfl, rfl, rfl⟩

end Pintos.Filesys.OpenInodes
