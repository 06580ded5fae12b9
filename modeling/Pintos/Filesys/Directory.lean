import Pintos.Filesys.Locks
import Pintos.Lib.List
import Pintos.Lib.Store
import Pintos.Transition

/-!
# The root directory as a finite map

A directory's file is a row of slots, each a `struct dir_entry` with an `in_use`
flag, and the file never grows. It stands for a finite map from names to inode
sectors, `dir_map`: each name to the sector of the entry `lookup` finds for it.

`DirWf` is what makes that map the one the entries hold: every entry in use has a
name of 1 to `NAME_MAX` characters, and no two entries in use share a name.
`dir_add`, which fills the first free slot, and `dir_remove`, which clears the
slot `lookup` found, keep it, and when they succeed they change the map by one
write (`dir_add_refines`, `dir_remove_refines`); `dir_lookup` reads the map
(`dir_lookup_spec`). Over every sequence of the three calls that return, the
directory stays well formed, keeps its size, and maps each name as the last
successful call on that name left it (`DirInv.reachable`, `dir_map_reachable`,
`dir_lookup_reachable`).

The calls that do not return are the ones that stop on a lock. Among them is
every `dir_add` or `dir_remove` of a thread after its `dir_add` of an invalid
name, which returns `false` still holding `dir_lock`
(`dir_add_stops_after_invalid_name`).

As in the model of `directory.c`, the bounce buffers of `inode_read_at` and
`inode_write_at` are taken to be allocated, so that the scans read every slot.
-/

namespace Pintos.Filesys

open StateExcept SE Transition Pintos.Lib

/-! ## The slot scans -/

/-- `lookup` finds an entry in use with the name, at the slot it reports. -/
theorem lookup_eq_some {root : List DirEntry} {name : List UInt8} {e : DirEntry} {ofs : Nat}
    (h : lookup root name = some (e, ofs)) :
    root[ofs]? = some e ∧ e.in_use = true ∧ e.name = name := by
  induction root generalizing ofs with
  | nil => simp [lookup] at h
  | cons f fs ih =>
    simp only [lookup] at h
    split at h
    case isTrue hf =>
      obtain ⟨rfl, rfl⟩ := Prod.mk.inj (Option.some.inj h)
      exact ⟨rfl, hf⟩
    case isFalse =>
      obtain ⟨⟨e', o⟩, hl, he⟩ := Option.map_eq_some_iff.mp h
      obtain ⟨rfl, rfl⟩ := Prod.mk.inj he
      simpa using ih hl

/-- `lookup` finds nothing exactly when no entry in use has the name. -/
theorem lookup_eq_none {root : List DirEntry} {name : List UInt8} :
    lookup root name = none ↔ ∀ e ∈ root, e.in_use = true → e.name ≠ name := by
  induction root with
  | nil => simp [lookup]
  | cons f fs ih =>
    simp only [lookup]
    split
    case isTrue hf => simp [hf]
    case isFalse hf =>
      rw [Option.map_eq_none_iff, ih]
      simp only [List.mem_cons, forall_eq_or_imp]
      exact ⟨fun h => ⟨fun hu hn => hf ⟨hu, hn⟩, h⟩, And.right⟩

/-- The slot `dir_add`'s scan stops at is one not in use. -/
theorem free_slot_eq_some {root : List DirEntry} {ofs : Nat} (h : free_slot root = some ofs) :
    ∃ f, root[ofs]? = some f ∧ f.in_use = false := by
  induction root generalizing ofs with
  | nil => simp [free_slot] at h
  | cons f fs ih =>
    simp only [free_slot] at h
    split at h
    case isTrue =>
      obtain ⟨o, hl, rfl⟩ := Option.map_eq_some_iff.mp h
      simpa using ih hl
    case isFalse hf =>
      cases h
      exact ⟨f, rfl, by simpa using hf⟩

/-- The scan runs to the end of the file exactly when every slot is in use. -/
theorem free_slot_eq_none {root : List DirEntry} :
    free_slot root = none ↔ ∀ e ∈ root, e.in_use = true := by
  induction root with
  | nil => simp [free_slot]
  | cons f fs ih =>
    simp only [free_slot]
    split
    case isTrue hf => simp [hf, ih]
    case isFalse hf => simp [hf]

/-! ## The map a directory stands for -/

/-- A well-formed directory: every entry in use has a name `dir_add` accepts, and
no two entries in use share a name. -/
structure DirWf (root : List DirEntry) : Prop where
  valid : ∀ e ∈ root, e.in_use = true → ¬ (e.name = [] ∨ NAME_MAX < e.name.length)
  distinct : ∀ (i j : Nat) (e f : DirEntry), root[i]? = some e → root[j]? = some f →
    e.in_use = true → f.in_use = true → e.name = f.name → i = j

/-- The map the entries stand for: each name to the sector of the entry `lookup`
finds for it. -/
def dir_map (root : List DirEntry) (name : List UInt8) : Option Nat :=
  (lookup root name).map (·.1.inode_sector)

theorem dir_map_eq_none {root : List DirEntry} {name : List UInt8} :
    dir_map root name = none ↔ lookup root name = none :=
  Option.map_eq_none_iff

/-- In a well-formed directory a name maps to `x` exactly when some entry in use
has that name and sector `x`: `lookup` can only find that one. -/
theorem dir_map_eq_some {root : List DirEntry} (hw : DirWf root) {name : List UInt8} {x : Nat} :
    dir_map root name = some x ↔
      ∃ (i : Nat) (e : DirEntry), root[i]? = some e ∧ e.in_use = true ∧ e.name = name ∧ e.inode_sector = x := by
  constructor
  · intro h
    obtain ⟨⟨e, ofs⟩, hl, rfl⟩ := Option.map_eq_some_iff.mp h
    obtain ⟨hi, hu, hn⟩ := lookup_eq_some hl
    exact ⟨ofs, e, hi, hu, hn, rfl⟩
  · rintro ⟨i, e, hi, hu, rfl, rfl⟩
    -- `lookup` finds some entry with the name, and the names are distinct
    cases hl : lookup root e.name with
    | none =>
      exact absurd rfl (lookup_eq_none.mp hl e (List.mem_of_getElem? hi) hu)
    | some r =>
      obtain ⟨hr, hru, hrn⟩ := lookup_eq_some hl
      obtain rfl := hw.distinct _ _ _ _ hr hi hru hu hrn
      obtain rfl := Option.some.inj (hr.symm.trans hi)
      simp [dir_map, hl]

/-- Writing an entry in use with a valid name no other entry in use has keeps a
directory well formed. -/
theorem DirWf.set_add {root : List DirEntry} (hw : DirWf root) {name : List UInt8}
    (hname : ¬ (name = [] ∨ NAME_MAX < name.length)) (habs : lookup root name = none)
    (ofs inode_sector : Nat) : DirWf (root.set ofs ⟨inode_sector, name, true⟩) where
  valid e he hu := by
    obtain ⟨j, hj⟩ := List.mem_iff_getElem?.mp he
    rcases getElem?_set_eq_some.mp hj with ⟨-, -, rfl⟩ | ⟨-, hj⟩
    · exact hname
    · exact hw.valid e (List.mem_of_getElem? hj) hu
  distinct i j e f hi hj hu hfu hn := by
    -- an old entry in use never has the new name
    have hold : ∀ (k : Nat) (g : DirEntry), root[k]? = some g → g.in_use = true → g.name ≠ name :=
      fun k g hk hgu => lookup_eq_none.mp habs g (List.mem_of_getElem? hk) hgu
    rcases getElem?_set_eq_some.mp hi with ⟨rfl, -, rfl⟩ | ⟨-, hi⟩
    · rcases getElem?_set_eq_some.mp hj with ⟨rfl, -, -⟩ | ⟨-, hj⟩
      · rfl
      · exact absurd hn.symm (hold j f hj hfu)
    · rcases getElem?_set_eq_some.mp hj with ⟨-, -, rfl⟩ | ⟨-, hj⟩
      · exact absurd hn (hold i e hi hu)
      · exact hw.distinct i j e f hi hj hu hfu hn

/-- Clearing `in_use` of an entry keeps a directory well formed. -/
theorem DirWf.set_remove {root : List DirEntry} (hw : DirWf root) (ofs : Nat) (e : DirEntry) :
    DirWf (root.set ofs { e with in_use := false }) where
  valid f hf hu := by
    obtain ⟨j, hj⟩ := List.mem_iff_getElem?.mp hf
    rcases getElem?_set_eq_some.mp hj with ⟨-, -, rfl⟩ | ⟨-, hj⟩
    · simp at hu
    · exact hw.valid f (List.mem_of_getElem? hj) hu
  distinct i j f g hi hj hu hgu hn := by
    rcases getElem?_set_eq_some.mp hi with ⟨-, -, rfl⟩ | ⟨-, hi⟩
    · simp at hu
    rcases getElem?_set_eq_some.mp hj with ⟨-, -, rfl⟩ | ⟨-, hj⟩
    · simp at hgu
    exact hw.distinct i j f g hi hj hu hgu hn

/-- Filling a free slot with a name not in the directory writes that name, and
only it, to the map. -/
theorem dir_map_set_add {root : List DirEntry} (hw : DirWf root) {name : List UInt8}
    (hname : ¬ (name = [] ∨ NAME_MAX < name.length)) (habs : lookup root name = none)
    {ofs : Nat} (hfree : ∃ f, root[ofs]? = some f ∧ f.in_use = false) (inode_sector : Nat) :
    dir_map (root.set ofs ⟨inode_sector, name, true⟩) =
      Function.update (dir_map root) name (some inode_sector) := by
  obtain ⟨f, hf, hfu⟩ := hfree
  have hofs : ofs < root.length := (List.getElem?_eq_some_iff.mp hf).1
  have hold : ∀ (k : Nat) (g : DirEntry), root[k]? = some g → g.in_use = true → g.name ≠ name :=
    fun k g hk hgu => lookup_eq_none.mp habs g (List.mem_of_getElem? hk) hgu
  funext n
  apply Option.ext
  intro x
  rw [dir_map_eq_some (hw.set_add hname habs ofs inode_sector)]
  by_cases hn : n = name
  · subst hn
    simp only [Function.update_self, Option.some.injEq]
    constructor
    · rintro ⟨i, e, hi, hu, he, rfl⟩
      rcases getElem?_set_eq_some.mp hi with ⟨-, -, rfl⟩ | ⟨-, hi⟩
      · rfl
      · exact absurd he (hold i e hi hu)
    · rintro rfl
      exact ⟨ofs, _, List.getElem?_set_self hofs, rfl, rfl, rfl⟩
  · rw [Function.update_of_ne hn, dir_map_eq_some hw]
    constructor
    · rintro ⟨i, e, hi, hu, rfl, rfl⟩
      rcases getElem?_set_eq_some.mp hi with ⟨-, -, rfl⟩ | ⟨-, hi⟩
      · exact absurd rfl hn
      · exact ⟨i, e, hi, hu, rfl, rfl⟩
    · rintro ⟨i, e, hi, hu, rfl, rfl⟩
      -- the slot filled was free, so the entry found is elsewhere
      have hio : i ≠ ofs := by
        rintro rfl
        obtain rfl := Option.some.inj (hi.symm.trans hf)
        simp [hu] at hfu
      exact ⟨i, e, by rw [List.getElem?_set_ne (Ne.symm hio)]; exact hi, hu, rfl, rfl⟩

/-- Clearing the entry `lookup` found for a name erases that name, and only it,
from the map. -/
theorem dir_map_set_remove {root : List DirEntry} (hw : DirWf root) {name : List UInt8}
    {e : DirEntry} {ofs : Nat} (hl : lookup root name = some (e, ofs)) :
    dir_map (root.set ofs { e with in_use := false }) = Function.update (dir_map root) name none := by
  obtain ⟨he, heu, hen⟩ := lookup_eq_some hl
  funext n
  apply Option.ext
  intro x
  rw [dir_map_eq_some (hw.set_remove ofs e)]
  by_cases hn : n = name
  · subst hn
    simp only [Function.update_self, reduceCtorEq, iff_false, not_exists, not_and]
    intro i f hi hu hfn _
    rcases getElem?_set_eq_some.mp hi with ⟨-, -, rfl⟩ | ⟨hio, hi⟩
    · simp at hu
    · -- the cleared entry was the only one in use with the name
      exact hio (hw.distinct i ofs f e hi he hu heu (hfn.trans hen.symm))
  · rw [Function.update_of_ne hn, dir_map_eq_some hw]
    constructor
    · rintro ⟨i, f, hi, hu, rfl, rfl⟩
      rcases getElem?_set_eq_some.mp hi with ⟨-, -, rfl⟩ | ⟨-, hi⟩
      · simp at hu
      · exact ⟨i, f, hi, hu, rfl, rfl⟩
    · rintro ⟨i, f, hi, hu, rfl, rfl⟩
      have hio : i ≠ ofs := by
        rintro rfl
        obtain rfl := Option.some.inj (hi.symm.trans he)
        exact hn hen
      exact ⟨i, f, by rw [List.getElem?_set_ne (Ne.symm hio)]; exact hi, hu, rfl, rfl⟩

/-! ## What the calls leave of the entries -/

section Thread

variable (t : Nat)

theorem lock_acquire_keeps_root (l : LockId) : Keeps FsState.root (lock_acquire t l) := by
  refine keeps_bind keeps_get fun s => ?_
  split
  · exact keeps_ite (fun _ => keeps_throw _) fun _ => keeps_throw _
  · exact keeps_modify fun _ => rfl

theorem lock_release_keeps_root (l : LockId) : Keeps FsState.root (lock_release t l) :=
  keeps_bind keeps_get fun _ => keeps_ite (fun _ => keeps_modify fun _ => rfl) fun _ => keeps_throw _

theorem malloc_keeps_root : Keeps FsState.root malloc := by
  refine keeps_bind keeps_get fun s => ?_
  split
  · exact keeps_pure _
  · exact keeps_bind (keeps_modify fun _ => rfl) fun _ => keeps_pure _

theorem free_map_release_keeps_root (sector cnt : Nat) :
    Keeps FsState.root (free_map_release t sector cnt) :=
  keeps_bind (lock_acquire_keeps_root t _) fun _ => keeps_bind keeps_get fun _ =>
    keeps_ite (fun _ => keeps_bind (keeps_modify fun _ => rfl) fun _ => lock_release_keeps_root t _)
      fun _ => keeps_throw _

theorem inode_open_keeps_root (sector : Nat) : Keeps FsState.root (inode_open t sector) := by
  refine keeps_bind (lock_acquire_keeps_root t _) fun _ => keeps_bind keeps_get fun _ => ?_
  refine keeps_ite (fun _ => ?_) fun _ => keeps_bind malloc_keeps_root fun ok => ?_
  · exact keeps_bind (keeps_modify fun _ => rfl) fun _ =>
      keeps_bind (lock_release_keeps_root t _) fun _ => keeps_pure _
  · exact keeps_ite (fun _ => keeps_bind (keeps_modify fun _ => rfl) fun _ =>
      keeps_bind (lock_release_keeps_root t _) fun _ => keeps_pure _) fun _ => keeps_pure _

theorem inode_close_keeps_root (inode : Option Nat) : Keeps FsState.root (inode_close t inode) := by
  rcases inode with _ | sector
  · exact keeps_pure _
  refine keeps_bind (lock_acquire_keeps_root t _) fun _ => keeps_bind keeps_get fun s => ?_
  split
  · exact keeps_throw _
  dsimp only
  refine keeps_ite (fun _ => keeps_bind (keeps_modify fun _ => rfl) fun _ => ?_) fun _ =>
    keeps_bind (keeps_modify fun _ => rfl) fun _ => lock_release_keeps_root t _
  refine keeps_ite (fun _ => ?_) fun _ => lock_release_keeps_root t _
  exact keeps_bind (free_map_release_keeps_root t _ _) fun _ =>
    keeps_bind (free_map_release_keeps_root t _ _) fun _ => lock_release_keeps_root t _

theorem inode_remove_keeps_root (sector : Nat) : Keeps FsState.root (inode_remove t sector) :=
  keeps_bind (lock_acquire_keeps_root t _) fun _ =>
    keeps_bind (keeps_modify fun _ => rfl) fun _ => lock_release_keeps_root t _

/-- What `dir_add` of `name` leaves of the entries `r`, with what it returns: `true`
and the name in the first free slot, or `false` and the entries as they were, when
the name is invalid or present or no slot is free. -/
def AddResult (r : List DirEntry) (name : List UInt8) (inode_sector : Nat) (b : Bool)
    (r' : List DirEntry) : Prop :=
  (b = true ∧ ¬ (name = [] ∨ NAME_MAX < name.length) ∧ lookup r name = none ∧
      ∃ ofs, free_slot r = some ofs ∧ r' = r.set ofs ⟨inode_sector, name, true⟩) ∨
    (b = false ∧ r' = r ∧
      ((name = [] ∨ NAME_MAX < name.length) ∨ (lookup r name).isSome ∨ free_slot r = none))

theorem dir_add_triple (name : List UInt8) (inode_sector : Nat) (r : List DirEntry) :
    Triple (fun s => s.root = r) (dir_add t name inode_sector)
      (fun b s => AddResult r name inode_sector b s.root) (fun _ _ => True) := by
  -- every way out but the invalid name passes `lock_release`, which keeps the entries
  have hdone : ∀ b, Triple (fun s => AddResult r name inode_sector b s.root)
      (pure b >>= fun success => lock_release t .dir_lock >>= fun _ => pure success)
      (fun b s => AddResult r name inode_sector b s.root) (fun _ _ => True) := fun b =>
    triple_bind (R := fun a s => a = b ∧ AddResult r name inode_sector b s.root)
      (triple_pure fun _ hs => ⟨rfl, hs⟩) fun a =>
    triple_bind ((lock_release_keeps_root t _).triple
      (fun r' => a = b ∧ AddResult r name inode_sector b r') fun _ _ _ => trivial) fun _ =>
    triple_pure fun _ hs => hs.1 ▸ hs.2
  refine triple_bind ((lock_acquire_keeps_root t _).triple (· = r) fun _ _ _ => trivial)
    fun _ => ?_
  refine triple_ite (fun hname => triple_pure fun s hs => Or.inr ⟨rfl, hs, Or.inl hname⟩)
    fun hname => triple_get_bind fun s₀ hs₀ => ?_
  dsimp only
  refine triple_ite (fun hl => (hdone false).pre fun s hs =>
    Or.inr ⟨rfl, hs ▸ hs₀, Or.inr (Or.inl (hs₀ ▸ hl))⟩) fun hl => ?_
  split
  case h_1 ofs hofs =>
    refine triple_bind (triple_modify fun s hs => ?_) fun _ => hdone true
    subst hs hs₀
    exact Or.inl ⟨rfl, hname, by simpa using hl, ofs, hofs, rfl⟩
  case h_2 hofs =>
    exact (hdone false).pre fun s hs =>
      Or.inr ⟨rfl, hs ▸ hs₀, Or.inr (Or.inr (hs₀ ▸ hofs))⟩

/-- What `dir_remove` of `name` leaves of the entries `r`, with what it returns:
`true` and the entry `lookup` found cleared, or `false` and the entries as they
were. -/
def RemoveResult (r : List DirEntry) (name : List UInt8) (b : Bool) (r' : List DirEntry) :
    Prop :=
  (b = true ∧ ∃ e ofs, lookup r name = some (e, ofs) ∧ r' = r.set ofs { e with in_use := false }) ∨
    (b = false ∧ r' = r)

theorem dir_remove_triple (name : List UInt8) (r : List DirEntry) :
    Triple (fun s => s.root = r) (dir_remove t name)
      (fun b s => RemoveResult r name b s.root) (fun _ _ => True) := by
  -- the way out closes the inode and releases the lock, which keep the entries
  have hdone : ∀ res : Bool × Option Nat, Triple (fun s => RemoveResult r name res.1 s.root)
      (pure res >>= fun res => inode_close t res.2 >>= fun _ =>
        lock_release t .dir_lock >>= fun _ => pure res.1)
      (fun b s => RemoveResult r name b s.root) (fun _ _ => True) := fun res =>
    triple_bind (R := fun a s => a = res ∧ RemoveResult r name res.1 s.root)
      (triple_pure fun _ hs => ⟨rfl, hs⟩) fun a =>
    triple_bind ((inode_close_keeps_root t _).triple
      (fun r' => a = res ∧ RemoveResult r name res.1 r') fun _ _ _ => trivial) fun _ =>
    triple_bind ((lock_release_keeps_root t _).triple
      (fun r' => a = res ∧ RemoveResult r name res.1 r') fun _ _ _ => trivial) fun _ =>
    triple_pure fun _ hs => hs.1 ▸ hs.2
  refine triple_bind ((lock_acquire_keeps_root t _).triple (· = r) fun _ _ _ => trivial)
    fun _ => triple_get_bind fun s₀ hs₀ => ?_
  dsimp only
  split
  case h_1 =>
    exact (hdone (false, none)).pre fun s hs => Or.inr ⟨rfl, hs ▸ hs₀⟩
  case h_2 e ofs hl =>
    refine triple_bind (((inode_open_keeps_root t _).triple (· = r) fun _ _ _ => trivial).pre
      fun s hs => hs ▸ hs₀) fun o => ?_
    split
    case h_1 =>
      exact (hdone (false, none)).pre fun s hs => Or.inr ⟨rfl, hs⟩
    case h_2 inode =>
      -- the one write to the entries: the slot found, cleared
      refine triple_bind (R := fun _ s => RemoveResult r name true s.root)
        (triple_modify fun s hs => Or.inl ⟨rfl, e, ofs, hs₀ ▸ hl, by rw [← hs]⟩) fun _ =>
        triple_bind ((inode_remove_keeps_root t _).triple (RemoveResult r name true)
          fun _ _ _ => trivial) fun _ => hdone (true, some inode)

/-- `inode_open` keeps the entries and returns the inode of its sector, or `NULL`
when its `malloc` fails. -/
theorem inode_open_triple (sector : Nat) (r : List DirEntry) :
    Triple (fun s => s.root = r) (inode_open t sector)
      (fun o s => (o = none ∨ o = some sector) ∧ s.root = r) (fun _ _ => True) := by
  -- `lock_release` and then the inode: the two ways an open returns it
  have hopened : ∀ m : FsState → FsState, (∀ s, (m s).root = s.root) →
      Triple (fun s => s.root = r)
        (modify m >>= fun _ => lock_release t .filesys_lock >>= fun _ => pure (some sector))
        (fun o s => (o = none ∨ o = some sector) ∧ s.root = r) (fun _ _ => True) :=
    fun m hm => triple_bind ((keeps_modify hm).triple (· = r) fun _ _ _ => trivial) fun _ =>
      triple_bind ((lock_release_keeps_root t _).triple (· = r) fun _ _ _ => trivial) fun _ =>
      triple_pure fun _ hs => ⟨Or.inr rfl, hs⟩
  refine triple_bind ((lock_acquire_keeps_root t _).triple (· = r) fun _ _ _ => trivial)
    fun _ => triple_get_bind fun s₀ hs₀ => ?_
  refine triple_ite (fun _ => (hopened _ fun _ => ?_).pre fun s (hs : s = s₀) => hs ▸ hs₀)
    fun _ => ?_
  · rfl
  refine triple_bind ((malloc_keeps_root.triple (· = r) fun _ _ _ => trivial).pre
    fun s (hs : s = s₀) => hs ▸ hs₀) fun ok => ?_
  refine triple_ite (fun _ => hopened _ fun _ => ?_) fun _ =>
    triple_pure fun _ hs => ⟨Or.inl rfl, hs⟩
  rfl

/-- With `filesys_lock` free and every allocation to come succeeding, `inode_open`
returns the inode. -/
theorem inode_open_returns (sector : Nat) {s : FsState} (hl : s.holder .filesys_lock = none)
    (hok : AllocOk s) : (inode_open t sector s).1 = .ok (some sector) := by
  simp only [inode_open, lock_acquire, bind_apply, get_apply, hl, modify_apply]
  split
  · simp [lock_release, bind_apply]
  · rcases halloc : s.alloc with _ | ⟨ok, rest⟩
    · simp [malloc, lock_release, bind_apply]
    · have hok' : ok = true := hok ok (by simp [halloc])
      simp [malloc, lock_release, bind_apply, hok']

/-- `dir_lookup` reads the map: it keeps the entries and returns the inode the map
gives the name, or `NULL` (for an unmapped name, or when `inode_open` fails). -/
theorem dir_lookup_triple (name : List UInt8) (r : List DirEntry) :
    Triple (fun s => s.root = r) (dir_lookup t name)
      (fun o s => (o = none ∨ o = dir_map r name) ∧ s.root = r) (fun _ _ => True) := by
  refine triple_get_bind fun s₀ hs₀ => ?_
  split
  case h_1 e ofs hl =>
    have hmap : dir_map r name = some e.inode_sector := by simp [dir_map, ← hs₀, hl]
    exact ((inode_open_triple t _ r).pre fun s (hs : s = s₀) => hs ▸ hs₀).conseq (fun _ => id)
      (fun o s ho => ⟨ho.1.imp_right fun (ho : o = _) => ho.trans hmap.symm, ho.2⟩) fun _ _ => id
  case h_2 =>
    exact triple_pure fun s hs => ⟨Or.inl rfl, hs ▸ hs₀⟩

/-- With `filesys_lock` free and every allocation to come succeeding, `dir_lookup`
returns what the map gives the name. -/
theorem dir_lookup_returns (name : List UInt8) {s : FsState}
    (hl : s.holder .filesys_lock = none) (hok : AllocOk s) :
    (dir_lookup t name s).1 = .ok (dir_map s.root name) := by
  simp only [dir_lookup, bind_apply, get_apply]
  rcases hlk : lookup s.root name with _ | ⟨e, ofs⟩
  · simp [dir_map, hlk]
  · simp only [dir_map, hlk]
    exact inode_open_returns t _ hl hok

/-! ## The map across one call -/

/-- A `dir_add` that returns keeps the directory well formed and its size, writes
the name to the map when it returns `true`, and returns `false` exactly when the
name is invalid, or already mapped, or every slot is in use. -/
theorem dir_add_refines {name : List UInt8} {inode_sector : Nat} {s s' : FsState} {b : Bool}
    (hw : DirWf s.root) (h : dir_add t name inode_sector s = (.ok b, s')) :
    DirWf s'.root ∧ s'.root.length = s.root.length ∧
      dir_map s'.root =
        (if b then Function.update (dir_map s.root) name (some inode_sector) else dir_map s.root) ∧
      (b = false ↔ (name = [] ∨ NAME_MAX < name.length) ∨ dir_map s.root name ≠ none ∨
        ∀ e ∈ s.root, e.in_use = true) := by
  rcases (dir_add_triple t name inode_sector s.root).of_ok rfl h with
    ⟨rfl, hname, habs, ofs, hofs, hroot⟩ | ⟨rfl, hroot, hfail⟩
  · have hfree := free_slot_eq_some hofs
    refine ⟨hroot ▸ hw.set_add hname habs ofs inode_sector, by simp [hroot], ?_, ?_⟩
    · rw [hroot, if_pos rfl]
      exact dir_map_set_add hw hname habs hfree inode_sector
    · -- a free slot exists, so none of the reasons to refuse holds
      obtain ⟨f, hf, hfu⟩ := hfree
      simp only [Bool.true_eq_false, false_iff, not_or, not_not, not_forall]
      exact ⟨not_or.mp hname, dir_map_eq_none.mpr habs, f, List.mem_of_getElem? hf, by simp [hfu]⟩
  · refine ⟨hroot ▸ hw, by rw [hroot], by rw [hroot, if_neg Bool.false_ne_true], ?_⟩
    simp only [true_iff]
    rcases hfail with hname | hpresent | hfull
    · exact Or.inl hname
    · exact Or.inr (Or.inl fun hnone => by simp [dir_map_eq_none.mp hnone] at hpresent)
    · exact Or.inr (Or.inr (free_slot_eq_none.mp hfull))

/-- A `dir_remove` that returns keeps the directory well formed and its size, and
when it returns `true` the name was mapped and is erased from the map. -/
theorem dir_remove_refines {name : List UInt8} {s s' : FsState} {b : Bool}
    (hw : DirWf s.root) (h : dir_remove t name s = (.ok b, s')) :
    DirWf s'.root ∧ s'.root.length = s.root.length ∧
      dir_map s'.root = (if b then Function.update (dir_map s.root) name none else dir_map s.root) ∧
      (b = true → dir_map s.root name ≠ none) := by
  rcases (dir_remove_triple t name s.root).of_ok rfl h with
    ⟨rfl, e, ofs, hl, hroot⟩ | ⟨rfl, hroot⟩
  · refine ⟨hroot ▸ hw.set_remove ofs e, by simp [hroot], ?_, fun _ => ?_⟩
    · rw [hroot, if_pos rfl]
      exact dir_map_set_remove hw hl
    · simp [dir_map, hl]
  · exact ⟨hroot ▸ hw, by rw [hroot], by rw [hroot, if_neg Bool.false_ne_true], nofun⟩

end Thread

/-! ## Runs of calls on the directory -/

/-- A call on the root directory, by thread `t`. -/
inductive DirCall
  | add (t : Nat) (name : List UInt8) (inode_sector : Nat)
  | remove (t : Nat) (name : List UInt8)
  | lookup (t : Nat) (name : List UInt8)

/-- The file system, with the writes the successful calls made to the directory's
map: a `dir_add` that returns `true` binds its name to its sector, a `dir_remove`
that returns `true` unbinds its name. -/
structure DirSys where
  fs : FsState
  writes : List (List UInt8 × Option Nat)

/-- One call that returns; a call that stops on a lock or a failed assertion ends
the run. -/
def dir_step (w : DirSys) : DirCall → Option DirSys
  | .add t name inode_sector =>
    match dir_add t name inode_sector w.fs with
    | (.ok b, s) => some ⟨s, if b then w.writes ++ [(name, some inode_sector)] else w.writes⟩
    | (.error _, _) => none
  | .remove t name =>
    match dir_remove t name w.fs with
    | (.ok b, s) => some ⟨s, if b then w.writes ++ [(name, none)] else w.writes⟩
    | (.error _, _) => none
  | .lookup t name =>
    match dir_lookup t name w.fs with
    | (.ok _, s) => some ⟨s, w.writes⟩
    | (.error _, _) => none

/-- From the entries `root₀`: the directory is well formed, has the slots it had,
and maps each name as the writes left the map of `root₀`. -/
structure DirInv (root₀ : List DirEntry) (w : DirSys) : Prop where
  wf : DirWf w.fs.root
  size : w.fs.root.length = root₀.length
  map : dir_map w.fs.root = replay (dir_map root₀) w.writes

theorem inv_dir_step (root₀ : List DirEntry) : Stable dir_step (DirInv root₀) := by
  intro w c w' hinv hstep
  cases c with
  | add t name inode_sector =>
    simp only [dir_step] at hstep
    split at hstep
    case h_1 b s h =>
      cases hstep
      obtain ⟨hwf, hsize, hmap, -⟩ := dir_add_refines t hinv.wf h
      refine ⟨hwf, hsize.trans hinv.size, ?_⟩
      cases b
      · simpa [hinv.map] using hmap
      · simpa [hinv.map] using hmap
    case h_2 => cases hstep
  | remove t name =>
    simp only [dir_step] at hstep
    split at hstep
    case h_1 b s h =>
      cases hstep
      obtain ⟨hwf, hsize, hmap, -⟩ := dir_remove_refines t hinv.wf h
      refine ⟨hwf, hsize.trans hinv.size, ?_⟩
      cases b
      · simpa [hinv.map] using hmap
      · simpa [hinv.map] using hmap
    case h_2 => cases hstep
  | lookup t name =>
    simp only [dir_step] at hstep
    split at hstep
    case h_1 o s h =>
      cases hstep
      have hroot := ((dir_lookup_triple t name w.fs.root).of_ok rfl h).2
      exact ⟨hroot ▸ hinv.wf, hroot ▸ hinv.size, hroot ▸ hinv.map⟩
    case h_2 => cases hstep

theorem DirInv.reachable {s₀ : FsState} (hw₀ : DirWf s₀.root) {w : DirSys}
    (h : Reachable dir_step ⟨s₀, []⟩ w) : DirInv s₀.root w :=
  (inv_dir_step s₀.root).reachable ⟨hw₀, rfl, rfl⟩ h

/-- Over every run of calls that return, from a well-formed directory, a name maps
to `x` exactly when the last successful call on it was a `dir_add` of `x`, or no
successful call touched it and it mapped to `x` at the start. -/
theorem dir_map_reachable {s₀ : FsState} (hw₀ : DirWf s₀.root) {w : DirSys}
    (h : Reachable dir_step ⟨s₀, []⟩ w) (name : List UInt8) (x : Nat) :
    dir_map w.fs.root name = some x ↔
      (w.writes.filter (·.1 = name)).getLast? = some (name, some x) ∨
        (∀ wr ∈ w.writes, wr.1 ≠ name) ∧ dir_map s₀.root name = some x := by
  rw [(DirInv.reachable hw₀ h).map]
  exact replay_eq_some _ _ _ _

/-- With `filesys_lock` free and every allocation to come succeeding, `dir_lookup`
after a run returns the inode of sector `x` exactly when the last successful call
on the name was a `dir_add` of `x`, or none touched the name and it mapped to `x`
at the start. -/
theorem dir_lookup_reachable {s₀ : FsState} (hw₀ : DirWf s₀.root) {w : DirSys}
    (h : Reachable dir_step ⟨s₀, []⟩ w) (t : Nat) (hl : w.fs.holder .filesys_lock = none)
    (hok : AllocOk w.fs) (name : List UInt8) (x : Nat) :
    (dir_lookup t name w.fs).1 = .ok (some x) ↔
      (w.writes.filter (·.1 = name)).getLast? = some (name, some x) ∨
        (∀ wr ∈ w.writes, wr.1 ≠ name) ∧ dir_map s₀.root name = some x := by
  rw [dir_lookup_returns t name hl hok, ← dir_map_reachable hw₀ h name x, Except.ok.injEq]

theorem dir_lookup_reachable_add :
    DirWf (fs_init 4).root ∧
      ∃ w, Transition.run dir_step ⟨fs_init 4, []⟩ [.add 0 [97] 2] = some w ∧
        w.fs.holder .filesys_lock = none ∧ AllocOk w.fs ∧
        ((dir_lookup 1 [97] w.fs).1 = .ok (some 2) ↔
          (w.writes.filter (·.1 = [97])).getLast? = some ([97], some 2) ∨
            (∀ wr ∈ w.writes, wr.1 ≠ [97]) ∧ dir_map (fs_init 4).root [97] = some 2) := by
  have hwf : DirWf (fs_init 4).root :=
    ⟨(fun _ h => by cases h), fun _ _ _ _ h => by simp [fs_init] at h⟩
  have hrun : Transition.run dir_step ⟨fs_init 4, []⟩ [.add 0 [97] 2] =
      some ((Transition.run dir_step ⟨fs_init 4, []⟩ [.add 0 [97] 2]).getD ⟨fs_init 4, []⟩) := rfl
  have hok : AllocOk ((Transition.run dir_step ⟨fs_init 4, []⟩ [.add 0 [97] 2]).getD
      ⟨fs_init 4, []⟩).fs := by
    unfold AllocOk
    decide
  exact ⟨hwf, _, hrun, rfl, hok,
    dir_lookup_reachable hwf (Transition.reachable_of_run hrun) 1 rfl hok [97] 2⟩

/-! ## The name check that keeps the lock -/

/-- A `dir_add` of an invalid name returns `false` and leaves the entries and the
allocations to come as they were, but it returns holding `dir_lock`: from then on
every `dir_add`, whatever its name, stops in `lock_acquire`, failing its assertion
in the same thread and sleeping forever in any other. -/
theorem dir_add_stops_after_invalid_name (t : Nat) {bad : List UInt8}
    (hbad : bad = [] ∨ NAME_MAX < bad.length) (inode_sector : Nat) (s : FsState)
    (hl : s.holder .dir_lock = none) (u : Nat) (name : List UInt8) (inode_sector' : Nat) :
    (dir_add t bad inode_sector s).1 = .ok false ∧
      (dir_add t bad inode_sector s).2.root = s.root ∧
      (dir_add t bad inode_sector s).2.alloc = s.alloc ∧
      (dir_add u name inode_sector' (dir_add t bad inode_sector s).2).1 =
        .error (if t = u then .panic else .blocked .dir_lock) := by
  rw [dir_add_invalid_name t hbad inode_sector s hl]
  refine ⟨rfl, rfl, rfl, ?_⟩
  -- the lock kept stops the next `dir_add` in its first `lock_acquire`
  have hacq := lock_acquire_of_held u (l := .dir_lock) (u := t)
    { s with holder := Function.update s.holder .dir_lock (some t) } (by simp)
  exact bind_of_error hacq

/-- On a freshly formatted disk, after `dir_add` of the empty name, `dir_add` of
"a" finds the name absent, slot 0 free and every allocation succeeding, and still
does not return. -/
theorem dir_add_stops_after_empty_name :
    (dir_add 0 [] 2 (formatted 16)).1 = .ok false ∧
      dir_map (dir_add 0 [] 2 (formatted 16)).2.root [97] = none ∧
      free_slot (dir_add 0 [] 2 (formatted 16)).2.root = some 0 ∧
      (dir_add 0 [] 2 (formatted 16)).2.alloc = [] ∧
      (dir_add 0 [97] 2 (dir_add 0 [] 2 (formatted 16)).2).1 = .error .panic ∧
      (dir_add 1 [97] 2 (dir_add 0 [] 2 (formatted 16)).2).1 = .error (.blocked .dir_lock) := by
  have hself := dir_add_stops_after_invalid_name 0 (Or.inl rfl) 2 (formatted 16) (by decide) 0 [97] 2
  have hother := dir_add_stops_after_invalid_name 0 (Or.inl rfl) 2 (formatted 16) (by decide) 1 [97] 2
  obtain ⟨hfalse, hroot, halloc, hpanic⟩ := hself
  refine ⟨hfalse, ?_, ?_, ?_, hpanic, hother.2.2.2⟩
  · rw [hroot]
    decide
  · rw [hroot]
    decide
  · rw [halloc]
    decide

end Pintos.Filesys
