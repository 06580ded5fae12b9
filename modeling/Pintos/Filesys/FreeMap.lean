import Pintos.Filesys.Locks

/-!
# The free map across `filesys_create`

`MapsQ b x Q`: run from a state whose free map is `b`, where every allocation
succeeds and no open inode is marked removed, `x`, if it returns, returns `a`
with a free map `b'` such that `Q a b'`. None of the calls `filesys_create`
makes removes an inode, so `dir_close` never releases sectors there, and the
free map changes only in `free_map_allocate`, `free_map_release` and the data
range of `inode_create`.

`filesys_create_free_map` says what a failed create leaves: the free map as it
was, or the free map with a run of data sectors marked. The second happens
whenever `inode_create` has allocated data and `dir_add` then fails, because the
cleanup releases the header sector only.
-/

namespace Pintos.Filesys

open StateExcept SE Pintos.Lib

variable {α β : Type}

/-- No open inode is marked removed. -/
def NoneRemoved (s : FsState) : Prop := ∀ i ∈ s.open_inodes, i.removed = false

/-- From the free map `b`, `x` returns `a` with a free map `b'` such that `Q a b'`. -/
def MapsQ (b : List Bool) (x : FsM α) (Q : α → List Bool → Prop) : Prop :=
  Triple (fun s => s.free_map = b ∧ AllocOk s ∧ NoneRemoved s) x
    (fun a s => Q a s.free_map ∧ AllocOk s ∧ NoneRemoved s) (fun _ _ => True)

/-- From the free map `b`, `x` returns with the free map `b'`. -/
def Maps (b b' : List Bool) (x : FsM α) : Prop := MapsQ b x fun _ c => c = b'

section Rules

variable {b b' : List Bool}

theorem MapsQ.mono {x : FsM α} {Q Q' : α → List Bool → Prop} (h : MapsQ b x Q)
    (hQ : ∀ a c, Q a c → Q' a c) : MapsQ b x Q' :=
  Triple.conseq h (fun _ => id) (fun a _ hs => ⟨hQ a _ hs.1, hs.2⟩) fun _ _ => id

theorem mapsQ_pure {a : α} {Q : α → List Bool → Prop} (h : Q a b) :
    MapsQ b (pure a : FsM α) Q := by
  unfold MapsQ
  exact triple_pure fun s hs => ⟨hs.1 ▸ h, hs.2⟩

theorem maps_pure (a : α) : Maps b b (pure a : FsM α) := mapsQ_pure rfl

theorem mapsQ_bind {x : FsM α} {f : α → FsM β} {Q : α → List Bool → Prop}
    {R : β → List Bool → Prop} (hx : MapsQ b x Q) (hf : ∀ a c, Q a c → MapsQ c (f a) R) :
    MapsQ b (x >>= f) R :=
  triple_bind hx fun a s hs => hf a s.free_map hs.1 s ⟨rfl, hs.2⟩

theorem mapsQ_pure_bind {a : α} {f : α → FsM β} {R : β → List Bool → Prop}
    (h : MapsQ b (f a) R) : MapsQ b (pure a >>= f) R := by
  refine mapsQ_bind (mapsQ_pure (Q := fun a' c => a' = a ∧ c = b) ⟨rfl, rfl⟩) fun _ _ hac => ?_
  obtain ⟨rfl, rfl⟩ := hac
  exact h

theorem maps_bind {x : FsM α} {f : α → FsM β} {R : β → List Bool → Prop} (hx : Maps b b' x)
    (hf : ∀ a, MapsQ b' (f a) R) : MapsQ b (x >>= f) R :=
  mapsQ_bind hx fun a _ hc => hc ▸ hf a

/-- The state read by `get` is the current one, with its free map and its facts. -/
theorem mapsQ_get_bind {f : FsState → FsM α} {Q : α → List Bool → Prop}
    (h : ∀ s, s.free_map = b → AllocOk s → NoneRemoved s → MapsQ b (f s) Q) :
    MapsQ b (get >>= f) Q := by
  unfold MapsQ at h ⊢
  refine triple_bind (R := fun s' s => s' = s ∧ s.free_map = b ∧ AllocOk s ∧ NoneRemoved s)
    (triple_get fun _ hs => ⟨rfl, hs⟩) fun s' => ?_
  intro s ⟨hs', hb, hok, hrm⟩
  subst hs'
  exact h s' hb hok hrm s' ⟨hb, hok, hrm⟩

/-- A `modify` that leaves the allocations to come alone, removes no inode, and
changes the free map by `g`. -/
theorem maps_modify_map {f : FsState → FsState} (g : List Bool → List Bool)
    (hf : ∀ s, (f s).free_map = g s.free_map ∧ (f s).alloc = s.alloc ∧
      (NoneRemoved s → NoneRemoved (f s))) :
    Maps b (g b) (modify f) := by
  unfold Maps MapsQ
  refine triple_modify fun s ⟨hb, hok, hrm⟩ => ⟨?_, ?_, (hf s).2.2 hrm⟩
  · rw [(hf s).1, hb]
  · unfold AllocOk
    rw [(hf s).2.1]
    exact hok

theorem maps_modify {f : FsState → FsState}
    (hf : ∀ s, (f s).free_map = s.free_map ∧ (f s).alloc = s.alloc ∧ (f s).open_inodes = s.open_inodes) :
    Maps b b (modify f) :=
  maps_modify_map id fun s => ⟨(hf s).1, (hf s).2.1, fun h i hi => h i ((hf s).2.2 ▸ hi)⟩

theorem mapsQ_ite {c : Prop} [Decidable c] {x y : FsM α} {Q : α → List Bool → Prop}
    (hx : c → MapsQ b x Q) (hy : ¬ c → MapsQ b y Q) : MapsQ b (if c then x else y) Q :=
  triple_ite hx hy

theorem mapsQ_throw {e : FsStop} {Q : α → List Bool → Prop} : MapsQ b (throw e : FsM α) Q := by
  unfold MapsQ
  exact triple_throw fun _ _ => trivial

theorem mapsQ_throw_bind {e : FsStop} {f : α → FsM β} {Q : β → List Bool → Prop} :
    MapsQ b (throw e >>= f) Q := by
  unfold MapsQ
  exact triple_bind (R := fun _ _ => False) (triple_throw fun _ _ => trivial) fun _ _ h => h.elim

theorem maps_acquire (t : Nat) (l : LockId) : Maps b b (lock_acquire t l) := by
  refine mapsQ_get_bind fun s _ _ _ => ?_
  rcases s.holder l with _ | u
  · exact maps_modify fun _ => ⟨rfl, rfl, rfl⟩
  · dsimp only
    exact mapsQ_ite (fun _ => mapsQ_throw) fun _ => mapsQ_throw

theorem maps_release (t : Nat) (l : LockId) : Maps b b (lock_release t l) :=
  mapsQ_get_bind fun _ _ _ _ =>
    mapsQ_ite (fun _ => maps_modify fun _ => ⟨rfl, rfl, rfl⟩) fun _ => mapsQ_throw

/-- `malloc` returns memory when every allocation succeeds. -/
theorem maps_malloc : MapsQ b malloc fun ok c => ok = true ∧ c = b := by
  intro s ⟨hb, hok, hrm⟩
  rcases ha : s.alloc with _ | ⟨ok, rest⟩
  · simp only [malloc, bind_apply, get_apply, ha, pure_apply]
    exact ⟨⟨trivial, hb⟩, hok, hrm⟩
  · have hok' : ok = true := hok ok (by rw [ha]; exact List.mem_cons_self)
    have hrest : AllocOk { s with alloc := rest } :=
      fun b hb => hok b (by rw [ha]; exact List.mem_cons_of_mem _ hb)
    simp only [malloc, bind_apply, get_apply, ha, modify_apply, pure_apply]
    exact ⟨⟨hok', hb⟩, hrest, hrm⟩

end Rules

/-! ## The functions -/

section Functions

variable {b : List Bool} (t : Nat)

theorem free_map_allocate_maps (cnt : Nat) :
    MapsQ b (free_map_allocate t cnt) fun r c =>
      r = bitmap_scan b 0 cnt false ∧ c = (bitmap_scan_and_flip b 0 cnt false).2 := by
  refine maps_bind (maps_acquire t _) fun _ => mapsQ_get_bind fun s hb _ _ => ?_
  subst hb
  refine maps_bind (maps_modify_map (fun _ => (bitmap_scan_and_flip s.free_map 0 cnt false).2)
    fun _ => ⟨rfl, rfl, id⟩) fun _ => maps_bind (maps_release t _) fun _ => mapsQ_pure ⟨?_, rfl⟩
  unfold bitmap_scan_and_flip
  split <;> simp_all

theorem free_map_release_maps (sector cnt : Nat) :
    Maps b (bitmap_set_multiple b sector cnt false) (free_map_release t sector cnt) :=
  maps_bind (maps_acquire t _) fun _ => mapsQ_get_bind fun _ _ _ _ =>
    mapsQ_ite (fun _ => maps_bind (maps_modify_map (bitmap_set_multiple · sector cnt false)
      fun _ => ⟨rfl, rfl, id⟩) fun _ => maps_release t _) fun _ => mapsQ_throw

/-- `inode_create` returns `false` with the free map as it was, or `true` with
the data range it found marked. -/
theorem inode_create_maps (sector : Nat) (length : Int) :
    MapsQ b (inode_create t sector length) fun ok c => (ok = false ∧ c = b) ∨
      (ok = true ∧ ∃ start, bitmap_scan b 0 (bytes_to_sectors length.toNat) false = some start ∧
        c = bitmap_set_multiple b start (bytes_to_sectors length.toNat) true) := by
  have hdone : ∀ (ok : Bool) (c : List Bool), MapsQ c
      (pure ok >>= fun success => lock_release t .filesys_lock >>= fun _ => pure success)
      fun r c' => r = ok ∧ c' = c := fun _ _ =>
    mapsQ_pure_bind <| maps_bind (maps_release t _) fun _ => mapsQ_pure ⟨rfl, rfl⟩
  refine maps_bind (maps_acquire t _) fun _ => ?_
  dsimp only
  refine mapsQ_ite (fun _ => mapsQ_throw_bind) fun _ => ?_
  refine mapsQ_bind maps_malloc fun ok c ⟨hok, hc⟩ => ?_
  subst hok
  rw [hc, if_pos rfl]
  refine mapsQ_bind (free_map_allocate_maps t _) fun r c ⟨hr, hc⟩ => ?_
  cases hscan : bitmap_scan b 0 (bytes_to_sectors length.toNat) false with
  | none =>
    rw [hr, hscan]
    have hcb : c = b := by rw [hc, bitmap_scan_and_flip, hscan]
    exact (hdone false c).mono fun _ _ h => Or.inl ⟨h.1, h.2.trans hcb⟩
  | some start =>
    rw [hr, hscan]
    have hcb : c = bitmap_set_multiple b start (bytes_to_sectors length.toNat) true := by
      rw [hc, bitmap_scan_and_flip, hscan]
      rfl
    refine maps_bind (maps_modify fun _ => ⟨rfl, rfl, rfl⟩) fun _ => ?_
    exact (hdone true c).mono fun _ _ h => Or.inr ⟨h.1, start, rfl, h.2.trans hcb⟩

theorem inode_open_maps (sector : Nat) : Maps b b (inode_open t sector) := by
  refine maps_bind (maps_acquire t _) fun _ => mapsQ_get_bind fun s _ _ _ => ?_
  refine mapsQ_ite (fun _ => ?_) fun _ => ?_
  · -- `inode_reopen` counts one more opener and keeps `removed`
    refine maps_bind (maps_modify_map id fun s => ⟨rfl, rfl, fun h i hi => ?_⟩) fun _ =>
      maps_bind (maps_release t _) fun _ => mapsQ_pure rfl
    obtain ⟨j, hj, rfl⟩ := List.mem_map.mp hi
    split
    · exact h j hj
    · exact h j hj
  · refine mapsQ_bind maps_malloc fun ok c ⟨hok, hc⟩ => ?_
    subst hok hc
    rw [if_pos rfl]
    refine maps_bind (maps_modify_map id fun s => ⟨rfl, rfl, fun h i hi => ?_⟩) fun _ =>
      maps_bind (maps_release t _) fun _ => mapsQ_pure rfl
    rcases List.mem_cons.mp hi with rfl | hi
    · rfl
    · exact h i hi

/-- Closing an inode that is not removed never releases its sectors. -/
theorem inode_close_maps (inode : Option Nat) : Maps b b (inode_close t inode) := by
  rcases inode with _ | sector
  · exact maps_pure _
  refine maps_bind (maps_acquire t _) fun _ => mapsQ_get_bind fun s _ _ hrm => ?_
  split
  · exact mapsQ_throw
  rename_i i hfind
  have hi : i.removed = false := hrm i (List.mem_of_find?_eq_some hfind)
  dsimp only
  refine mapsQ_ite (fun _ => ?_) fun _ => ?_
  · refine maps_bind (maps_modify_map id fun s => ⟨rfl, rfl, fun h j hj => ?_⟩) fun _ => ?_
    · exact h j (List.mem_filter.mp hj).1
    rw [hi]
    exact mapsQ_ite (fun h => absurd h Bool.false_ne_true) fun _ => maps_release t _
  · refine maps_bind (maps_modify_map id fun s => ⟨rfl, rfl, fun h j hj => ?_⟩) fun _ =>
      maps_release t _
    obtain ⟨k, hk, rfl⟩ := List.mem_map.mp hj
    split
    · exact h k hk
    · exact h k hk

theorem dir_open_maps (inode : Option Nat) : Maps b b (dir_open t inode) :=
  mapsQ_bind maps_malloc fun _ _ ⟨_, hc⟩ => hc ▸ mapsQ_ite (fun _ => maps_pure _) fun _ =>
    maps_bind (inode_close_maps t _) fun _ => maps_pure _

theorem dir_open_root_maps : Maps b b (dir_open_root t) :=
  maps_bind (inode_open_maps t _) fun _ => dir_open_maps t _

theorem dir_close_maps (dir : Bool) : Maps b b (dir_close t dir) :=
  mapsQ_ite (fun _ => inode_close_maps t _) fun _ => maps_pure _

theorem dir_add_maps (name : List UInt8) (inode_sector : Nat) :
    Maps b b (dir_add t name inode_sector) := by
  have hdone : ∀ ok : Bool, Maps b b
      (pure ok >>= fun success => lock_release t .dir_lock >>= fun _ => pure success) :=
    fun ok => maps_bind (maps_pure ok) fun _ => maps_bind (maps_release t _) fun _ => maps_pure _
  refine maps_bind (maps_acquire t _) fun _ => ?_
  dsimp only
  refine mapsQ_ite (fun _ => maps_pure _) fun _ => mapsQ_get_bind fun s _ _ _ => ?_
  refine mapsQ_ite (fun _ => hdone _) fun _ => ?_
  split
  · exact maps_bind (maps_modify fun _ => ⟨rfl, rfl, rfl⟩) fun _ => hdone _
  · exact hdone _

end Functions

/-- What a `filesys_create` that returns `false` leaves in the free map: the map
as it was, or the map with a run of `bytes_to_sectors (initial_size)` sectors,
free before, now marked. -/
theorem filesys_create_free_map {b : List Bool} (t : Nat) (hb0 : b[FREE_MAP_SECTOR]? = some true)
    (name : List UInt8) (initial_size : Int) :
    MapsQ b (filesys_create t name initial_size) fun ok c => ok = false →
      c = b ∨ ∃ start, (∀ k < bytes_to_sectors initial_size.toNat, b[start + k]? = some false) ∧
        c = bitmap_set_multiple b start (bytes_to_sectors initial_size.toNat) true := by
  refine maps_bind (dir_open_root_maps t) fun dir => ?_
  -- the cleanup: the header sector goes back when the chain failed after allocating it
  have hdone : ∀ (r : Bool × Nat) (c : List Bool), MapsQ c (pure r >>= fun r =>
      if ¬ r.1 = true ∧ r.2 ≠ 0 then free_map_release t r.2 1 >>= fun _ =>
        dir_close t dir >>= fun _ => pure r.1
      else dir_close t dir >>= fun _ => pure r.1)
      fun ok c' => ok = r.1 ∧
        c' = if ¬ r.1 = true ∧ r.2 ≠ 0 then bitmap_set_multiple c r.2 1 false else c := by
    intro r c
    refine mapsQ_pure_bind (mapsQ_ite (fun hr => ?_) fun hr => ?_)
    · exact maps_bind (free_map_release_maps t _ _) fun _ => maps_bind (dir_close_maps t dir)
        fun _ => mapsQ_pure ⟨rfl, by rw [if_pos hr]⟩
    · exact maps_bind (dir_close_maps t dir) fun _ => mapsQ_pure ⟨rfl, by rw [if_neg hr]⟩
  have hkeep : ∀ c, c = b → MapsQ c (pure (false, 0) >>= fun r =>
      if ¬ r.1 = true ∧ r.2 ≠ 0 then free_map_release t r.2 1 >>= fun _ =>
        dir_close t dir >>= fun _ => pure r.1
      else dir_close t dir >>= fun _ => pure r.1)
      fun _ c' => c' = b := fun c hc =>
    (hdone (false, 0) c).mono fun _ _ h => by rw [h.2, if_neg (by simp), hc]
  dsimp only
  refine mapsQ_ite (fun _ => ?_) fun _ => (hkeep b rfl).mono fun _ _ h _ => Or.inl h
  refine mapsQ_bind (free_map_allocate_maps t 1) fun r fm ⟨hr, hc⟩ => ?_
  cases hscan : bitmap_scan b 0 1 false with
  | none =>
    rw [hr, hscan]
    exact (hkeep fm (by rw [hc, bitmap_scan_and_flip, hscan])).mono fun _ _ h _ => Or.inl h
  | some h =>
    rw [hr, hscan]
    have hcb : fm = bitmap_set_multiple b h 1 true := by
      rw [hc, bitmap_scan_and_flip, hscan]
      rfl
    obtain ⟨-, hlen, hrun⟩ := bitmap_scan_run hscan
    have hbh : b[h]? = some false := by simpa using hrun 0 Nat.one_pos
    -- the free map's own sector is marked, so the header is never sector 0
    have hh0 : h ≠ 0 := by
      rintro rfl
      rw [show FREE_MAP_SECTOR = 0 from rfl, hbh] at hb0
      cases hb0
    have hch : fm[h]? = some true := by
      rw [hcb]
      exact getElem?_bitmap_set_multiple_of_mem (Nat.le_refl h) (by omega) (by omega)
    refine mapsQ_bind (inode_create_maps t h initial_size) fun ok c2 hc2 => ?_
    rcases hc2 with ⟨rfl, hc2⟩ | ⟨rfl, d, hd, hc2⟩
    · -- `inode_create` failed: the header sector goes back
      rw [if_neg Bool.false_ne_true]
      refine (hdone (false, h) c2).mono fun _ _ hq _ => Or.inl ?_
      rw [hq.2, if_pos ⟨Bool.false_ne_true, hh0⟩, hc2, hcb]
      simpa using bitmap_set_multiple_restore (d := 0) (n := 0) (w := true) hbh (by omega)
    · -- the data range was free in `fm`, where the header is marked, so it misses the header
      obtain ⟨-, -, hdrun⟩ := bitmap_scan_run hd
      have hhd : ¬ (d ≤ h ∧ h < d + bytes_to_sectors initial_size.toNat) := by
        rintro ⟨h1, h2⟩
        have hbit := hdrun (h - d) (by omega)
        rw [Nat.add_sub_cancel' h1, hch] at hbit
        cases hbit
      rw [if_pos rfl]
      refine maps_bind (dir_add_maps t name h) fun added => ?_
      refine (hdone (added, h) c2).mono fun ok c' hq hok => Or.inr ⟨d, fun k hk => ?_, ?_⟩
      · have hne : ¬ (h ≤ d + k ∧ d + k < h + 1) := fun ⟨h1, h2⟩ => hhd ⟨by omega, by omega⟩
        have hbit := hdrun k hk
        rwa [hcb, getElem?_bitmap_set_multiple_of_not_mem hne] at hbit
      · -- `dir_add` failed: only the header sector goes back
        have hadded : added = false := hq.1.symm.trans hok
        rw [hq.2, hadded, if_pos ⟨Bool.false_ne_true, hh0⟩, hc2, hcb]
        exact bitmap_set_multiple_restore hbh hhd

theorem filesys_create_free_map_formatted :
    (formatted 16).free_map[FREE_MAP_SECTOR]? = some true ∧
    MapsQ (formatted 16).free_map (filesys_create 0 [97] 512) fun ok c => ok = false →
      c = (formatted 16).free_map ∨ ∃ start,
        (∀ k < bytes_to_sectors (512 : Int).toNat, (formatted 16).free_map[start + k]? = some false) ∧
        c = bitmap_set_multiple (formatted 16).free_map start (bytes_to_sectors (512 : Int).toNat)
          true :=
  ⟨by decide, filesys_create_free_map 0 (by decide) [97] 512⟩

theorem failed_create_leaks_data :
    (filesys_create 0 [97] 512 (formatted 16)).1 = .ok true ∧
    (filesys_create 0 [97] 512 (formatted 16)).2.free_map[7]? = some false ∧
    (filesys_create 0 [97] 512 (filesys_create 0 [97] 512 (formatted 16)).2).1 = .ok false ∧
    (filesys_create 0 [97] 512 (filesys_create 0 [97] 512 (formatted 16)).2).2.free_map =
      bitmap_set_multiple (filesys_create 0 [97] 512 (formatted 16)).2.free_map 7 1 true ∧
    (filesys_create 0 [] 512 (formatted 16)).1 = .ok false ∧
    (filesys_create 0 [] 512 (formatted 16)).2.free_map =
      bitmap_set_multiple (formatted 16).free_map 5 1 true := by
  decide

end Pintos.Filesys
