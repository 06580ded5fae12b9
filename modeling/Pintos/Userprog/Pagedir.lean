import Pintos.StateExcept
import Pintos.Transition
import Pintos.Lib.Store
import Pintos.Lib.Word

/-!
# Page directories

`userprog/pagedir.c`, with the address and entry helpers of `threads/vaddr.h`
and `threads/pte.h`, on 32-bit words. A page directory and its page tables are
kernel pages of 1024 entries each; a pointer to an entry is a page and an index.
Pages come from the kernel pool of `palloc_get_page`, the list of free pages,
which hands out the next one or `NULL` when it is empty. `ASSERT`s are kept: one
that fails is a kernel panic, the only way a call stops. `invalidate_pagedir`
reloads CR3 for the TLB, which is not modelled.

The two levels stand for a partial map from user pages to kernel pages, `walk`:
a page through its PDE to a page table, through its PTE to a page, when the PDE
is non-zero and the PTE present. `PdWf` is what `pagedir.c` keeps of a directory
made by `pagedir_create`: every user PDE is zero or points to a page table of its
own, outside the free pool. Under it, `pagedir_get_page` reads `walk`,
`pagedir_set_page` of an unmapped page writes one page to it, or fails with
nothing changed when the pool has no page table to give, `pagedir_clear_page`
erases one page, and `pagedir_set_dirty` and `pagedir_set_accessed` leave it
alone; no `ASSERT` fails. Over every run of such calls, `walk` is the store of
the writes they made (`pagedir_refines_map`).
-/

namespace Pintos.Pagedir

open StateExcept SE Transition Pintos.Lib

/-! ## Addresses and entries -/

/-- `BITMASK (SHIFT, CNT)`: `CNT` one bits from bit `SHIFT` up. -/
def BITMASK (SHIFT CNT : UInt32) : UInt32 := ((1 <<< CNT) - 1) <<< SHIFT

def PGBITS : UInt32 := 12

def PGMASK : UInt32 := BITMASK 0 PGBITS

def PGSIZE : UInt32 := 1 <<< PGBITS

def PTSHIFT : UInt32 := PGBITS

def PTBITS : UInt32 := 10

def PTMASK : UInt32 := BITMASK PTSHIFT PTBITS

def PDSHIFT : UInt32 := PTSHIFT + PTBITS

/-- `LOADER_PHYS_BASE`: the kernel's mapping of physical memory starts here. -/
def PHYS_BASE : UInt32 := 0xc0000000

def PTE_ADDR : UInt32 := 0xfffff000

def PTE_P : UInt32 := 0x1

def PTE_W : UInt32 := 0x2

def PTE_U : UInt32 := 0x4

def PTE_A : UInt32 := 0x20

def PTE_D : UInt32 := 0x40

def pg_ofs (va : UInt32) : UInt32 := va &&& PGMASK

def pg_round_down (va : UInt32) : UInt32 := va &&& ~~~PGMASK

def pt_no (va : UInt32) : UInt32 := (va &&& PTMASK) >>> PTSHIFT

def pd_no (va : UInt32) : UInt32 := va >>> PDSHIFT

def is_user_vaddr (vaddr : UInt32) : Bool := vaddr < PHYS_BASE

def is_kernel_vaddr (vaddr : UInt32) : Bool := vaddr ≥ PHYS_BASE

/-! ## The fields as numbers -/

theorem PGMASK_toNat : PGMASK.toNat = 2 ^ 12 - 1 := rfl

theorem pg_ofs_toNat (va : UInt32) : (pg_ofs va).toNat = va.toNat % 4096 :=
  toNat_and_low PGMASK_toNat

theorem pg_round_down_toNat (va : UInt32) :
    (pg_round_down va).toNat = va.toNat / 4096 * 4096 :=
  toNat_and_not_low PGMASK_toNat (by decide)

theorem pd_no_toNat (va : UInt32) : (pd_no va).toNat = va.toNat / 4194304 :=
  toNat_shiftRight_of_lt (by decide)

theorem pt_no_toNat (va : UInt32) : (pt_no va).toNat = va.toNat / 4096 % 1024 := by
  -- the table bits are the low 22 bits with the low 12 cleared
  have hmask : PTMASK = 0x3fffff &&& ~~~PGMASK := by decide
  rw [pt_no, toNat_shiftRight_of_lt (by decide), hmask, ← UInt32.and_assoc,
    toNat_and_not_low PGMASK_toNat (by decide), toNat_and_low (k := 22) (by decide)]
  show va.toNat % 4194304 / 4096 * 4096 / 4096 = va.toNat / 4096 % 1024
  omega

theorem and_PTE_P_toNat (x : UInt32) : (x &&& PTE_P).toNat = x.toNat % 2 :=
  toNat_and_low (k := 1) rfl

theorem and_PTE_ADDR_toNat (x : UInt32) : (x &&& PTE_ADDR).toNat = x.toNat / 4096 * 4096 := by
  rw [show PTE_ADDR = ~~~PGMASK by decide]
  exact toNat_and_not_low PGMASK_toNat (by decide)

theorem PHYS_BASE_toNat : PHYS_BASE.toNat = 3221225472 := rfl

/-- A page of the kernel's mapping of RAM: at or above `PHYS_BASE`, page-aligned. -/
def Kpage (p : UInt32) : Prop := PHYS_BASE ≤ p ∧ pg_ofs p = 0

theorem Kpage.toNat {p : UInt32} (h : Kpage p) : 3221225472 ≤ p.toNat ∧ p.toNat % 4096 = 0 := by
  obtain ⟨hle, hofs⟩ := h
  rw [UInt32.le_iff_toNat_le] at hle
  have := congrArg UInt32.toNat hofs
  simp only [pg_ofs_toNat] at this
  exact ⟨hle, this⟩

/-- An entry made of a kernel page and flags below `PGSIZE`: the physical address of
the page plus the flags. -/
theorem entry_toNat {p f : UInt32} (hp : Kpage p) (hf : f.toNat < 4096) :
    ((p - PHYS_BASE) ||| f).toNat = p.toNat - 3221225472 + f.toNat := by
  have hp' := hp.toNat
  have hsub : (p - PHYS_BASE).toNat = p.toNat - 3221225472 :=
    UInt32.toNat_sub_of_le _ _ hp.1
  rw [toNat_or_of_dvd (k := 12) (by rw [hsub]; omega) hf, hsub]


/-! ## Memory -/

/-- The kernel pages that hold page directories and page tables, and the kernel
pool. -/
structure Mem where
  /-- The 32-bit entries of each page, by index. -/
  page : UInt32 → Nat → UInt32
  /-- The free pages of the kernel pool, the next one `palloc_get_page` returns first. -/
  free : List UInt32

/-- A failed `ASSERT`. -/
inductive PdStop
  | panic
  deriving DecidableEq, Repr

abbrev PdM (α : Type) := SE Mem PdStop α

def ASSERT (c : Bool) : PdM Unit := if c then pure () else throw .panic

/-- `palloc_get_page (flags)` from the kernel pool, zeroed for `PAL_ZERO`. -/
def palloc_get_page (zero : Bool) : PdM (Option UInt32) := do
  let s ← get
  match s.free with
  | [] => pure none
  | p :: rest => do
    modify fun s => { s with
      free := rest
      page := if zero then Function.update s.page p fun _ => 0 else s.page }
    pure (some p)

/-- `*p`, for a pointer `p` to an entry. -/
def read (p : UInt32 × Nat) : PdM UInt32 := do
  let s ← get
  pure (s.page p.1 p.2)

/-- The memory with entry `j` of page `p` set to `v`. -/
def Mem.set (s : Mem) (p : UInt32) (j : Nat) (v : UInt32) : Mem :=
  { s with page := Function.update s.page p (Function.update (s.page p) j v) }

/-- `*p = v`. -/
def write (p : UInt32 × Nat) (v : UInt32) : PdM Unit :=
  modify fun s => s.set p.1 p.2 v

def vtop (vaddr : UInt32) : PdM UInt32 := do
  ASSERT (is_kernel_vaddr vaddr)
  pure (vaddr - PHYS_BASE)

def ptov (paddr : UInt32) : PdM UInt32 := do
  ASSERT (paddr < PHYS_BASE)
  pure (paddr + PHYS_BASE)

def pde_create (pt : UInt32) : PdM UInt32 := do
  ASSERT (pg_ofs pt = 0)
  pure ((← vtop pt) ||| PTE_U ||| PTE_P ||| PTE_W)

def pde_get_pt (pde : UInt32) : PdM UInt32 := do
  ASSERT (pde &&& PTE_P != 0)
  ptov (pde &&& PTE_ADDR)

def pte_create_kernel (page : UInt32) (writable : Bool) : PdM UInt32 := do
  ASSERT (pg_ofs page = 0)
  pure ((← vtop page) ||| PTE_P ||| (if writable then PTE_W else 0))

def pte_create_user (page : UInt32) (writable : Bool) : PdM UInt32 := do
  pure ((← pte_create_kernel page writable) ||| PTE_U)

def pte_get_page (pte : UInt32) : PdM UInt32 := ptov (pte &&& PTE_ADDR)

/-! ## `pagedir.c` -/

section Pagedir

-- the kernel's own page directory, and the number of pages of RAM
variable (init_page_dir init_ram_pages : UInt32)

def pagedir_create : PdM (Option UInt32) := do
  match ← palloc_get_page false with
  | none => pure none
  | some pd => do
    -- `memcpy (pd, init_page_dir, PGSIZE)`
    modify fun s => { s with page := Function.update s.page pd (s.page init_page_dir) }
    pure (some pd)

/-- The entry of `vaddr` in the page table for it, creating the table when
`create`; `NULL` when there is no table, or none could be allocated. -/
def lookup_page (pd vaddr : UInt32) (create : Bool) : PdM (Option (UInt32 × Nat)) := do
  ASSERT (pd != 0)
  -- shouldn't create new kernel virtual mappings
  ASSERT (!create || is_user_vaddr vaddr)
  let pde := (pd, (pd_no vaddr).toNat)
  if (← read pde) = 0 then
    if create then
      match ← palloc_get_page true with
      | none => return none
      | some pt => write pde (← pde_create pt)
    else return none
  let pt ← pde_get_pt (← read pde)
  pure (some (pt, (pt_no vaddr).toNat))

def pagedir_set_page (pd upage kpage : UInt32) (writable : Bool) : PdM Bool := do
  ASSERT (pg_ofs upage = 0)
  ASSERT (pg_ofs kpage = 0)
  ASSERT (is_user_vaddr upage)
  ASSERT ((← vtop kpage) >>> PTSHIFT < init_ram_pages)
  ASSERT (pd != init_page_dir)
  match ← lookup_page pd upage true with
  | some pte => do
    ASSERT ((← read pte) &&& PTE_P = 0)
    write pte (← pte_create_user kpage writable)
    pure true
  | none => pure false

def pagedir_get_page (pd uaddr : UInt32) : PdM (Option UInt32) := do
  ASSERT (is_user_vaddr uaddr)
  match ← lookup_page pd uaddr false with
  | some pte => do
    let e ← read pte
    if e &&& PTE_P != 0 then pure (some ((← pte_get_page e) + pg_ofs uaddr)) else pure none
  | none => pure none

def pagedir_clear_page (pd upage : UInt32) : PdM Unit := do
  ASSERT (pg_ofs upage = 0)
  ASSERT (is_user_vaddr upage)
  match ← lookup_page pd upage false with
  | some pte => do
    let e ← read pte
    if e &&& PTE_P != 0 then write pte (e &&& ~~~PTE_P)
  | none => pure ()

/-- `pagedir_set_dirty` and `pagedir_set_accessed`: set or clear the bit `flag`
of the PTE of `vpage`, if it has a page table. -/
def set_flag (flag pd vpage : UInt32) (on : Bool) : PdM Unit := do
  match ← lookup_page pd vpage false with
  | some pte => do
    let e ← read pte
    if on then write pte (e ||| flag) else write pte (e &&& ~~~flag)
  | none => pure ()

def pagedir_set_dirty (pd vpage : UInt32) (dirty : Bool) : PdM Unit :=
  set_flag PTE_D pd vpage dirty

def pagedir_set_accessed (pd vpage : UInt32) (accessed : Bool) : PdM Unit :=
  set_flag PTE_A pd vpage accessed

end Pagedir

/-! ## The entries the calls make -/

/-- `ptov (e & PTE_ADDR)`: the page an entry points to. -/
def entry_page (e : UInt32) : UInt32 := (e &&& PTE_ADDR) + PHYS_BASE

theorem ASSERT_of {c : Bool} (h : c = true) : ASSERT c = pure () := by
  simp [ASSERT, h]

theorem Kpage.ne_zero {p : UInt32} (h : Kpage p) : p ≠ 0 := by
  intro h0
  have := h.toNat.1
  simp [h0] at this

theorem vtop_of_kernel {p : UInt32} (h : PHYS_BASE ≤ p) : vtop p = pure (p - PHYS_BASE) := by
  have hk : is_kernel_vaddr p = true := by simp [is_kernel_vaddr, h]
  funext s
  simp [vtop, ASSERT_of hk, bind_apply]

/-- An entry of a kernel page and odd flags below `PGSIZE` is present, non-zero,
and points back to the page. -/
theorem entry_of_kpage {p f : UInt32} (hp : Kpage p) (hf : f.toNat < 4096)
    (hodd : f.toNat % 2 = 1) :
    ((p - PHYS_BASE) ||| f) &&& PTE_P ≠ 0 ∧ ((p - PHYS_BASE) ||| f) &&& PTE_ADDR < PHYS_BASE ∧
      entry_page ((p - PHYS_BASE) ||| f) = p ∧ (p - PHYS_BASE) ||| f ≠ 0 := by
  have he := entry_toNat hp hf
  have hp' := hp.toNat
  have hlt := p.toNat_lt
  refine ⟨fun h => ?_, ?_, ?_, fun h => ?_⟩
  · have := congrArg UInt32.toNat h
    simp only [and_PTE_P_toNat, he, UInt32.toNat_zero] at this
    omega
  · rw [UInt32.lt_iff_toNat_lt, and_PTE_ADDR_toNat, he, PHYS_BASE_toNat]
    omega
  · apply UInt32.toNat_inj.mp
    rw [entry_page, UInt32.toNat_add, and_PTE_ADDR_toNat, he, PHYS_BASE_toNat]
    omega
  · have := congrArg UInt32.toNat h
    simp only [he, UInt32.toNat_zero] at this
    omega

/-- The PDE `pde_create` makes for the page table `pt`. -/
def pde_of (pt : UInt32) : UInt32 := (pt - PHYS_BASE) ||| (PTE_U ||| (PTE_P ||| PTE_W))

/-- `pde_create` of a kernel page. -/
theorem pde_create_of_kpage {pt : UInt32} (h : Kpage pt) : pde_create pt = pure (pde_of pt) := by
  funext s
  simp [pde_create, ASSERT_of (decide_eq_true h.2), vtop_of_kernel h.1, bind_apply,
    UInt32.or_assoc, pde_of]

/-- `pte_create_user` of a kernel page. -/
theorem pte_create_user_of_kpage {page : UInt32} (h : Kpage page) (writable : Bool) :
    pte_create_user page writable =
      pure ((page - PHYS_BASE) ||| (PTE_P ||| ((if writable then PTE_W else 0) ||| PTE_U))) := by
  funext s
  simp [pte_create_user, pte_create_kernel, ASSERT_of (decide_eq_true h.2), vtop_of_kernel h.1,
    bind_apply, UInt32.or_assoc]

theorem pde_flags : (PTE_U ||| (PTE_P ||| PTE_W)).toNat < 4096 ∧
    (PTE_U ||| (PTE_P ||| PTE_W)).toNat % 2 = 1 := by
  decide

theorem pde_of_spec {pt : UInt32} (h : Kpage pt) :
    pde_of pt &&& PTE_P ≠ 0 ∧ pde_of pt &&& PTE_ADDR < PHYS_BASE ∧ entry_page (pde_of pt) = pt ∧
      pde_of pt ≠ 0 :=
  entry_of_kpage h pde_flags.1 pde_flags.2

theorem pte_flags (writable : Bool) :
    (PTE_P ||| ((if writable then PTE_W else 0) ||| PTE_U)).toNat < 4096 ∧
      (PTE_P ||| ((if writable then PTE_W else 0) ||| PTE_U)).toNat % 2 = 1 := by
  cases writable <;> decide


/-! ## The map a page directory stands for -/

/-- What the two levels map the page of `va` to: through a non-zero PDE to its page
table, and through a present PTE to its page. -/
def walk (s : Mem) (pd va : UInt32) : Option UInt32 :=
  let pde := s.page pd (pd_no va).toNat
  if pde = 0 then none
  else
    let pte := s.page (entry_page pde) (pt_no va).toNat
    if pte &&& PTE_P = 0 then none else some (entry_page pte)

/-- A user page: page-aligned and below `PHYS_BASE`. -/
def Upage (u : UInt32) : Prop := pg_ofs u = 0 ∧ is_user_vaddr u

theorem Mem.set_page_of_ne {s : Mem} {p q : UInt32} (h : q ≠ p) (j : Nat) (v : UInt32) :
    (s.set p j v).page q = s.page q := by
  simp [Mem.set, Function.update_of_ne h]

theorem Mem.set_page_self (s : Mem) (p : UInt32) (j k : Nat) (v : UInt32) :
    (s.set p j v).page p k = if k = j then v else s.page p k := by
  by_cases hk : k = j
  · subst hk
    simp [Mem.set]
  · simp [Mem.set, hk]

/-- The PDE index of a user address is one of the 768 below `PHYS_BASE`'s. -/
theorem pd_no_lt_of_user {va : UInt32} (h : is_user_vaddr va) : (pd_no va).toNat < 768 := by
  have hlt : va.toNat < 3221225472 := by
    simpa [is_user_vaddr, UInt32.lt_iff_toNat_lt, PHYS_BASE_toNat] using h
  rw [pd_no_toNat]
  omega

/-- Two user pages with the same PDE index and PTE index are the same page. -/
theorem Upage.eq_of_no {u v : UInt32} (hu : Upage u) (hv : Upage v)
    (hpd : (pd_no u).toNat = (pd_no v).toNat) (hpt : (pt_no u).toNat = (pt_no v).toNat) :
    u = v := by
  have hu0 := congrArg UInt32.toNat hu.1
  have hv0 := congrArg UInt32.toNat hv.1
  simp only [pg_ofs_toNat, UInt32.toNat_zero] at hu0 hv0
  simp only [pd_no_toNat, pt_no_toNat] at hpd hpt
  apply UInt32.toNat_inj.mp
  omega

/-- The page of an address has the indices of the address. -/
theorem walk_pg_round_down (s : Mem) (pd va : UInt32) :
    walk s pd (pg_round_down va) = walk s pd va := by
  have hpd : pd_no (pg_round_down va) = pd_no va := by
    apply UInt32.toNat_inj.mp
    simp only [pd_no_toNat, pg_round_down_toNat]
    omega
  have hpt : pt_no (pg_round_down va) = pt_no va := by
    apply UInt32.toNat_inj.mp
    simp only [pt_no_toNat, pg_round_down_toNat]
    omega
  simp only [walk, hpd, hpt]

section Invariant

variable (init_page_dir : UInt32)

/-- A non-zero user PDE of the directory `pd`: present, pointing below
`PHYS_BASE` to a page table that is not the directory, not `init_page_dir`, and
not free. -/
structure PdeOk (s : Mem) (pd pde : UInt32) : Prop where
  present : pde &&& PTE_P ≠ 0
  addr_lt : pde &&& PTE_ADDR < PHYS_BASE
  ne_pd : entry_page pde ≠ pd
  ne_init : entry_page pde ≠ init_page_dir
  not_free : entry_page pde ∉ s.free

/-- A page directory as `pagedir.c` keeps it: a kernel page other than
`init_page_dir`, outside the pool of free kernel pages, whose user PDEs are zero or
point to page tables of their own. -/
structure PdWf (s : Mem) (pd : UInt32) : Prop where
  pd_kpage : Kpage pd
  pd_ne_init : pd ≠ init_page_dir
  pd_not_free : pd ∉ s.free
  init_not_free : init_page_dir ∉ s.free
  free_kpage : ∀ p ∈ s.free, Kpage p
  free_nodup : s.free.Nodup
  pde_ok : ∀ i < 768, s.page pd i ≠ 0 → PdeOk init_page_dir s pd (s.page pd i)
  table_inj : ∀ i < 768, ∀ j < 768, s.page pd i ≠ 0 → s.page pd j ≠ 0 →
    entry_page (s.page pd i) = entry_page (s.page pd j) → i = j

variable {init_page_dir}

/-- `PdWf` reads only the directory's own page and the pool. -/
theorem PdWf.of_eq {s s' : Mem} {pd : UInt32} (h : PdWf init_page_dir s pd)
    (hpd : s'.page pd = s.page pd) (hfree : s'.free = s.free) : PdWf init_page_dir s' pd where
  pd_kpage := h.pd_kpage
  pd_ne_init := h.pd_ne_init
  pd_not_free := hfree ▸ h.pd_not_free
  init_not_free := hfree ▸ h.init_not_free
  free_kpage := hfree ▸ h.free_kpage
  free_nodup := hfree ▸ h.free_nodup
  pde_ok i hi hne := by
    have hok := h.pde_ok i hi (hpd ▸ hne)
    rw [hpd]
    exact ⟨hok.present, hok.addr_lt, hok.ne_pd, hok.ne_init, hfree ▸ hok.not_free⟩
  table_inj i hi j hj := by
    rw [hpd]
    exact h.table_inj i hi j hj

/-- A write to an entry of the page table of user PDE `i` changes the walk of the
one page with indices `i` and `j`, and no other user page's, and keeps `PdWf`. -/
theorem walk_set {s : Mem} {pd : UInt32} (hw : PdWf init_page_dir s pd) {i : Nat} (hi : i < 768)
    (hpde : s.page pd i ≠ 0) (j : Nat) (v : UInt32) {u : UInt32} (hu : is_user_vaddr u) :
    walk (s.set (entry_page (s.page pd i)) j v) pd u =
      if (pd_no u).toNat = i ∧ (pt_no u).toNat = j then
        (if v &&& PTE_P = 0 then none else some (entry_page v))
      else walk s pd u := by
  have hok := hw.pde_ok i hi hpde
  have hpd : (s.set (entry_page (s.page pd i)) j v).page pd = s.page pd :=
    Mem.set_page_of_ne (Ne.symm hok.ne_pd) j v
  have hui := pd_no_lt_of_user hu
  simp only [walk, hpd]
  by_cases hpdu : (pd_no u).toNat = i
  · -- the same page table: only entry `j` changed
    subst hpdu
    simp only [if_neg hpde, Mem.set_page_self, true_and]
    by_cases hptu : (pt_no u).toNat = j
    · simp only [hptu, if_true]
    · simp only [hptu, if_false]
  · -- another page table, which the write missed
    simp only [hpdu, false_and, if_false]
    by_cases hzero : s.page pd (pd_no u).toNat = 0
    · simp only [hzero, if_true]
    · have hne : entry_page (s.page pd (pd_no u).toNat) ≠ entry_page (s.page pd i) :=
        fun heq => hpdu (hw.table_inj _ hui i hi hzero hpde heq)
      simp only [if_neg hzero, Mem.set_page_of_ne hne]

end Invariant

/-! ## The calls on a well-formed directory -/

section Calls

variable {init_page_dir : UInt32} {s : Mem} {pd : UInt32}

/-- `lookup_page` without `create`: the entry in the page table of a non-zero PDE,
`NULL` for a zero one. -/
theorem lookup_page_eq (hw : PdWf init_page_dir s pd) {va : UInt32} (hu : is_user_vaddr va) :
    lookup_page pd va false s =
      (.ok (if s.page pd (pd_no va).toNat = 0 then none
        else some (entry_page (s.page pd (pd_no va).toNat), (pt_no va).toNat)), s) := by
  have hpd : (pd != 0) = true := bne_iff_ne.mpr hw.pd_kpage.ne_zero
  by_cases hz : s.page pd (pd_no va).toNat = 0
  · simp [lookup_page, ASSERT, read, bind_apply, hpd, hz]
  · have hok := hw.pde_ok _ (pd_no_lt_of_user hu) hz
    simp [lookup_page, ASSERT, read, pde_get_pt, ptov, bind_apply, hpd, hz, hok.present,
      hok.addr_lt, entry_page]

/-- `lookup_page` with `create`, for a PDE already there: as without. -/
theorem lookup_page_create_of_ne (hw : PdWf init_page_dir s pd) {va : UInt32}
    (hu : is_user_vaddr va) (hnz : s.page pd (pd_no va).toNat ≠ 0) :
    lookup_page pd va true s =
      (.ok (some (entry_page (s.page pd (pd_no va).toNat), (pt_no va).toNat)), s) := by
  have hpd : (pd != 0) = true := bne_iff_ne.mpr hw.pd_kpage.ne_zero
  have hok := hw.pde_ok _ (pd_no_lt_of_user hu) hnz
  simp [lookup_page, ASSERT, read, pde_get_pt, ptov, bind_apply, hpd, hu, hnz, hok.present,
    hok.addr_lt, entry_page]

/-- `lookup_page` with `create`, for a zero PDE and an empty pool: `NULL`. -/
theorem lookup_page_create_of_empty (hw : PdWf init_page_dir s pd) {va : UInt32}
    (hu : is_user_vaddr va) (hz : s.page pd (pd_no va).toNat = 0) (hfree : s.free = []) :
    lookup_page pd va true s = (.ok none, s) := by
  have hpd : (pd != 0) = true := bne_iff_ne.mpr hw.pd_kpage.ne_zero
  simp [lookup_page, ASSERT, read, palloc_get_page, bind_apply, hpd, hu, hz, hfree]

/-- The memory after `lookup_page` makes the free page `pt`, zeroed, the page table
of PDE `i`. -/
def Mem.install (s : Mem) (pd : UInt32) (i : Nat) (pt : UInt32) (rest : List UInt32) : Mem :=
  ({ s with free := rest, page := Function.update s.page pt fun _ => 0 } : Mem).set pd i (pde_of pt)

/-- `lookup_page` with `create`, for a zero PDE: the next free page, zeroed, becomes
the page table. -/
theorem lookup_page_create (hw : PdWf init_page_dir s pd) {va : UInt32} (hu : is_user_vaddr va)
    (hz : s.page pd (pd_no va).toNat = 0) {pt : UInt32} {rest : List UInt32}
    (hfree : s.free = pt :: rest) :
    lookup_page pd va true s =
      (.ok (some (pt, (pt_no va).toNat)), s.install pd (pd_no va).toNat pt rest) := by
  have hpd : (pd != 0) = true := bne_iff_ne.mpr hw.pd_kpage.ne_zero
  have hpt : Kpage pt := hw.free_kpage pt (by simp [hfree])
  obtain ⟨hP, hA, hpage, -⟩ := pde_of_spec hpt
  simp [lookup_page, ASSERT, read, write, palloc_get_page, pde_create_of_kpage hpt, bind_apply,
    hpd, hu, hz, hfree, Mem.set_page_self, pde_get_pt, ptov, hP, hA]
  exact ⟨hpage, rfl⟩

end Calls

section Install

variable {s : Mem} {pd pt : UInt32} {i : Nat} {rest : List UInt32}

theorem Mem.install_page_pd (hne : pt ≠ pd) :
    (s.install pd i pt rest).page pd = Function.update (s.page pd) i (pde_of pt) := by
  simp [Mem.install, Mem.set, Function.update_of_ne (Ne.symm hne)]

theorem Mem.install_page_other {q : UInt32} (hpt : q ≠ pt) (hpd : q ≠ pd) :
    (s.install pd i pt rest).page q = s.page q := by
  simp [Mem.install, Mem.set, Function.update_of_ne hpt, Function.update_of_ne hpd]

theorem Mem.install_page_pt (hne : pt ≠ pd) (k : Nat) : (s.install pd i pt rest).page pt k = 0 := by
  simp [Mem.install, Mem.set, Function.update_of_ne hne]

@[simp] theorem Mem.install_free : (s.install pd i pt rest).free = rest := rfl

variable {init_page_dir : UInt32}

/-- Installing the next free page as the table of a zero user PDE keeps `PdWf`. -/
theorem PdWf.install (hw : PdWf init_page_dir s pd) (hi : i < 768) (hz : s.page pd i = 0)
    (hfree : s.free = pt :: rest) : PdWf init_page_dir (s.install pd i pt rest) pd := by
  have hmem : pt ∈ s.free := by simp [hfree]
  have hrest : ∀ {q}, q ∈ rest → q ∈ s.free := fun hq => by simp [hfree, hq]
  have hptpd : pt ≠ pd := fun h => hw.pd_not_free (h ▸ hmem)
  have hptinit : pt ≠ init_page_dir := fun h => hw.init_not_free (h ▸ hmem)
  have hnodup : (pt :: rest).Nodup := hfree ▸ hw.free_nodup
  obtain ⟨hP, hA, hpage, -⟩ := pde_of_spec (hw.free_kpage pt hmem)
  -- a table in use before is not free, so it is not `pt`
  have hold : ∀ j < 768, s.page pd j ≠ 0 → entry_page (s.page pd j) ≠ pt := fun j hj hne h =>
    (hw.pde_ok j hj hne).not_free (h ▸ hmem)
  refine ⟨hw.pd_kpage, hw.pd_ne_init, fun h => hw.pd_not_free (hrest h),
    fun h => hw.init_not_free (hrest h), fun p hp => hw.free_kpage p (hrest hp),
    (List.nodup_cons.mp hnodup).2, fun j hj hne => ?_, fun j hj k hk hj0 hk0 heq => ?_⟩
  · rw [Mem.install_page_pd hptpd] at hne ⊢
    by_cases hji : j = i
    · subst hji
      rw [Function.update_self]
      refine ⟨hP, hA, ?_, ?_, ?_⟩
      · rw [hpage]
        exact hptpd
      · rw [hpage]
        exact hptinit
      · rw [hpage, Mem.install_free]
        exact (List.nodup_cons.mp hnodup).1
    · rw [Function.update_of_ne hji] at hne ⊢
      have hok := hw.pde_ok j hj hne
      exact ⟨hok.present, hok.addr_lt, hok.ne_pd, hok.ne_init, fun h => hok.not_free (hrest h)⟩
  · rw [Mem.install_page_pd hptpd] at hj0 hk0 heq
    by_cases hji : j = i <;> by_cases hki : k = i
    · exact hji.trans hki.symm
    · subst hji
      rw [Function.update_self, Function.update_of_ne hki, hpage] at heq
      rw [Function.update_of_ne hki] at hk0
      exact absurd heq.symm (hold k hk hk0)
    · subst hki
      rw [Function.update_self, Function.update_of_ne hji, hpage] at heq
      rw [Function.update_of_ne hji] at hj0
      exact absurd heq (hold j hj hj0)
    · rw [Function.update_of_ne hji, Function.update_of_ne hki] at heq
      rw [Function.update_of_ne hji] at hj0
      rw [Function.update_of_ne hki] at hk0
      exact hw.table_inj j hj k hk hj0 hk0 heq

/-- The new table is all zeros, so installing it maps no user page. -/
theorem walk_install (hw : PdWf init_page_dir s pd) (hz : s.page pd i = 0)
    (hfree : s.free = pt :: rest) {u : UInt32} (hu : is_user_vaddr u) :
    walk (s.install pd i pt rest) pd u = walk s pd u := by
  have hmem : pt ∈ s.free := by simp [hfree]
  have hptpd : pt ≠ pd := fun h => hw.pd_not_free (h ▸ hmem)
  obtain ⟨-, -, hpage, hne0⟩ := pde_of_spec (hw.free_kpage pt hmem)
  simp only [walk, Mem.install_page_pd hptpd]
  by_cases hui : (pd_no u).toNat = i
  · subst hui
    simp only [Function.update_self, hz, if_true]
    rw [if_neg hne0]
    rw [hpage, Mem.install_page_pt hptpd]
    simp [UInt32.zero_and]
  · rw [Function.update_of_ne hui]
    by_cases hzu : s.page pd (pd_no u).toNat = 0
    · simp only [hzu, if_true]
    · have hok := hw.pde_ok _ (pd_no_lt_of_user hu) hzu
      have hnept : entry_page (s.page pd (pd_no u).toNat) ≠ pt := fun h => hok.not_free (h ▸ hmem)
      simp only [if_neg hzu, Mem.install_page_other hnept hok.ne_pd]

end Install

/-! ## The calls, against the map -/

/-- The PTE `pte_create_user` makes for `kpage`. -/
def pte_of (kpage : UInt32) (writable : Bool) : UInt32 :=
  (kpage - PHYS_BASE) ||| (PTE_P ||| ((if writable then PTE_W else 0) ||| PTE_U))

theorem pte_create_user_eq {kpage : UInt32} (h : Kpage kpage) (writable : Bool) :
    pte_create_user kpage writable = pure (pte_of kpage writable) :=
  pte_create_user_of_kpage h writable

theorem pte_of_spec {kpage : UInt32} (h : Kpage kpage) (writable : Bool) :
    pte_of kpage writable &&& PTE_P ≠ 0 ∧ entry_page (pte_of kpage writable) = kpage :=
  have h' := entry_of_kpage h (pte_flags writable).1 (pte_flags writable).2
  ⟨h'.1, h'.2.2.1⟩

/-- An entry that maps a kernel page points below `PHYS_BASE`, as `ptov` asserts. -/
theorem addr_lt_of_entry_page {e : UInt32} (h : PHYS_BASE ≤ entry_page e) :
    e &&& PTE_ADDR < PHYS_BASE := by
  rw [UInt32.le_iff_toNat_le, entry_page, UInt32.toNat_add] at h
  rw [UInt32.lt_iff_toNat_lt]
  have hlt := (e &&& PTE_ADDR).toNat_lt
  simp only [PHYS_BASE_toNat] at h ⊢
  omega

/-- Setting or clearing a flag outside the present bit and the address keeps both. -/
theorem or_flag_and {e f m : UInt32} (h : f &&& m = 0) : (e ||| f) &&& m = e &&& m := by
  rw [and_or_distrib_right, h, UInt32.or_zero]

theorem and_not_flag_and {e f m : UInt32} (h : ~~~f &&& m = m) : (e &&& ~~~f) &&& m = e &&& m := by
  rw [UInt32.and_assoc, h]

/-- A page of RAM, as `pagedir_set_page` asserts of `kpage`. -/
def RamPage (init_ram_pages kpage : UInt32) : Prop :=
  Kpage kpage ∧ (kpage - PHYS_BASE) >>> PTSHIFT < init_ram_pages

section Specs

variable {init_page_dir init_ram_pages : UInt32} {s : Mem} {pd : UInt32}

/-- `pagedir_get_page` reads the map, adding the offset. -/
theorem pagedir_get_page_eq (hw : PdWf init_page_dir s pd) {uaddr : UInt32}
    (hu : is_user_vaddr uaddr) (hk : ∀ k, walk s pd uaddr = some k → PHYS_BASE ≤ k) :
    pagedir_get_page pd uaddr s = (.ok ((walk s pd uaddr).map (· + pg_ofs uaddr)), s) := by
  have hlook := lookup_page_eq hw hu
  by_cases hz : s.page pd (pd_no uaddr).toNat = 0
  · simp [pagedir_get_page, ASSERT, hu, bind_apply, hlook, hz, walk]
  · by_cases hP : s.page (entry_page (s.page pd (pd_no uaddr).toNat)) (pt_no uaddr).toNat &&& PTE_P = 0
    · simp [pagedir_get_page, ASSERT, hu, bind_apply, hlook, hz, hP, read, walk]
    · -- a present PTE: `ptov`'s assertion holds because the page is a kernel page
      have hwalk : walk s pd uaddr =
          some (entry_page (s.page (entry_page (s.page pd (pd_no uaddr).toNat)) (pt_no uaddr).toNat)) := by
        simp [walk, hz, hP]
      have hA := addr_lt_of_entry_page (hk _ hwalk)
      rw [hwalk]
      simp [pagedir_get_page, ASSERT, hu, bind_apply, hlook, hz, hP, read, pte_get_page, ptov, hA]
      rfl

/-- `pagedir_set_page` of an unmapped user page to a page of RAM: `false` with nothing
changed when the PDE is zero and the pool is empty; otherwise `true`, with the page
mapped to `kpage` and every other page as it was. -/
theorem pagedir_set_page_spec (hw : PdWf init_page_dir s pd) {upage kpage : UInt32}
    (hup : Upage upage) (hk : RamPage init_ram_pages kpage) (hmap : walk s pd upage = none)
    (writable : Bool) :
    (s.free = [] ∧ s.page pd (pd_no upage).toNat = 0 ∧
        pagedir_set_page init_page_dir init_ram_pages pd upage kpage writable s = (.ok false, s)) ∨
      ∃ s', pagedir_set_page init_page_dir init_ram_pages pd upage kpage writable s = (.ok true, s') ∧
        PdWf init_page_dir s' pd ∧
        (∀ u, Upage u → walk s' pd u = Function.update (walk s pd) upage (some kpage) u) ∧
        ∀ i, 768 ≤ i → s'.page pd i = s.page pd i := by
  obtain ⟨hofs, hu⟩ := hup
  have hi := pd_no_lt_of_user hu
  have hvtop := vtop_of_kernel hk.1.1
  -- what the write leaves, once `lookup_page` has given the entry `(t, j)`
  have hwrite : ∀ {s₁ : Mem}, PdWf init_page_dir s₁ pd → s₁.page pd (pd_no upage).toNat ≠ 0 →
      (∀ u, Upage u → walk s₁ pd u = walk s pd u) →
      s₁.page (entry_page (s₁.page pd (pd_no upage).toNat)) (pt_no upage).toNat &&& PTE_P = 0 →
      PdWf init_page_dir (s₁.set (entry_page (s₁.page pd (pd_no upage).toNat))
          (pt_no upage).toNat (pte_of kpage writable)) pd ∧
        ∀ u, Upage u → walk (s₁.set (entry_page (s₁.page pd (pd_no upage).toNat))
          (pt_no upage).toNat (pte_of kpage writable)) pd u =
            Function.update (walk s pd) upage (some kpage) u := by
    intro s₁ hw₁ hnz hsame _
    obtain ⟨hP, hpage⟩ := pte_of_spec hk.1 writable
    refine ⟨hw₁.of_eq (Mem.set_page_of_ne (Ne.symm (hw₁.pde_ok _ hi hnz).ne_pd) _ _) rfl,
      fun u hu' => ?_⟩
    rw [walk_set hw₁ hi hnz _ _ hu'.2]
    by_cases hueq : u = upage
    · subst hueq
      simp [hP, hpage]
    · have hno : ¬ ((pd_no u).toNat = (pd_no upage).toNat ∧ (pt_no u).toNat = (pt_no upage).toNat) :=
        fun h => hueq (hu'.eq_of_no ⟨hofs, hu⟩ h.1 h.2)
      rw [if_neg hno, Function.update_of_ne hueq, hsame u hu']
  by_cases hnz : s.page pd (pd_no upage).toNat = 0
  · rcases hfree : s.free with _ | ⟨pt, rest⟩
    · -- no page for a table: `NULL` from `lookup_page`, nothing written
      refine Or.inl ⟨rfl, hnz, ?_⟩
      simp [pagedir_set_page, ASSERT, hofs, hk.1.2, hu, hvtop, hk.2, bind_apply, hw.pd_ne_init,
        lookup_page_create_of_empty hw hu hnz hfree]
    · -- a new, zeroed table: the entry is free
      have hmem : pt ∈ s.free := by simp [hfree]
      have hptpd : pt ≠ pd := fun h => hw.pd_not_free (h ▸ hmem)
      obtain ⟨-, -, hpage, hne0⟩ := pde_of_spec (hw.free_kpage pt hmem)
      have hw₁ := hw.install hi hnz hfree
      have hpde₁ : (s.install pd (pd_no upage).toNat pt rest).page pd (pd_no upage).toNat =
          pde_of pt := by
        rw [Mem.install_page_pd hptpd, Function.update_self]
      have hzero : (s.install pd (pd_no upage).toNat pt rest).page pt (pt_no upage).toNat = 0 :=
        Mem.install_page_pt hptpd _
      obtain ⟨hwf, hwalk⟩ := hwrite hw₁ (hpde₁ ▸ hne0)
        (fun u hu' => walk_install hw hnz hfree hu'.2) (by rw [hpde₁, hpage, hzero]; rfl)
      rw [hpde₁, hpage] at hwf hwalk
      refine Or.inr ⟨_, ?_, hwf, hwalk, fun i' hi' => ?_⟩
      · simp [pagedir_set_page, ASSERT, hofs, hk.1.2, hu, hvtop, hk.2, bind_apply, hw.pd_ne_init,
          lookup_page_create hw hu hnz hfree, read, write, pte_create_user_eq hk.1, hzero]
      · rw [Mem.set_page_of_ne hptpd.symm, Mem.install_page_pd hptpd,
          Function.update_of_ne (by omega)]
  · -- the table is there, and the entry is not present since the page is unmapped
    have hP0 : s.page (entry_page (s.page pd (pd_no upage).toNat)) (pt_no upage).toNat &&& PTE_P = 0 := by
      by_contra hP
      simp [walk, hnz, hP] at hmap
    have hne := (hw.pde_ok _ hi hnz).ne_pd
    obtain ⟨hwf, hwalk⟩ := hwrite hw hnz (fun _ _ => rfl) hP0
    refine Or.inr ⟨_, ?_, hwf, hwalk, fun i' _ => by rw [Mem.set_page_of_ne (Ne.symm hne)]⟩
    simp [pagedir_set_page, ASSERT, hofs, hk.1.2, hu, hvtop, hk.2, bind_apply, hw.pd_ne_init,
      lookup_page_create_of_ne hw hu hnz, read, write, pte_create_user_eq hk.1, hP0]

/-- `pagedir_clear_page` of a user page unmaps it and nothing else. -/
theorem pagedir_clear_page_spec (hw : PdWf init_page_dir s pd) {upage : UInt32} (hup : Upage upage) :
    ∃ s', pagedir_clear_page pd upage s = (.ok (), s') ∧ PdWf init_page_dir s' pd ∧
      (∀ u, Upage u → walk s' pd u = Function.update (walk s pd) upage none u) ∧
      s'.page pd = s.page pd := by
  obtain ⟨hofs, hu⟩ := hup
  have hi := pd_no_lt_of_user hu
  have hlook := lookup_page_eq hw hu
  -- an unmapped page stays unmapped: the update changes nothing
  have hnone : walk s pd upage = none → ∀ u, Upage u →
      walk s pd u = Function.update (walk s pd) upage none u := by
    intro h u _
    by_cases hueq : u = upage
    · rw [hueq, Function.update_self, h]
    · rw [Function.update_of_ne hueq]
  by_cases hz : s.page pd (pd_no upage).toNat = 0
  · refine ⟨s, ?_, hw, hnone (by simp [walk, hz]), rfl⟩
    simp [pagedir_clear_page, ASSERT, hofs, hu, bind_apply, hlook, hz]
  · have hne := (hw.pde_ok _ hi hz).ne_pd
    by_cases hP : s.page (entry_page (s.page pd (pd_no upage).toNat)) (pt_no upage).toNat &&& PTE_P = 0
    · refine ⟨s, ?_, hw, hnone (by simp [walk, hz, hP]), rfl⟩
      simp [pagedir_clear_page, ASSERT, hofs, hu, bind_apply, hlook, hz, hP, read]
    · -- the present bit goes, the rest of the entry stays
      have hclear : ∀ e : UInt32, e &&& ~~~PTE_P &&& PTE_P = 0 := fun e => by
        rw [UInt32.and_assoc, show ~~~PTE_P &&& PTE_P = 0 by decide, UInt32.and_zero]
      refine ⟨s.set (entry_page (s.page pd (pd_no upage).toNat)) (pt_no upage).toNat
          (s.page (entry_page (s.page pd (pd_no upage).toNat)) (pt_no upage).toNat &&& ~~~PTE_P), ?_,
        hw.of_eq (Mem.set_page_of_ne (Ne.symm hne) _ _) rfl, fun u hu' => ?_,
        Mem.set_page_of_ne (Ne.symm hne) _ _⟩
      · simp [pagedir_clear_page, ASSERT, hofs, hu, bind_apply, hlook, hz, hP, read, write]
      · rw [walk_set hw hi hz _ _ hu'.2]
        by_cases hueq : u = upage
        · subst hueq
          simp [hclear]
        · have hno : ¬ ((pd_no u).toNat = (pd_no upage).toNat ∧
              (pt_no u).toNat = (pt_no upage).toNat) :=
            fun h => hueq (hu'.eq_of_no ⟨hofs, hu⟩ h.1 h.2)
          rw [if_neg hno, Function.update_of_ne hueq]

/-- `set_flag` of a flag outside the present bit and the address changes no page's
mapping. -/
theorem set_flag_spec {flag : UInt32} (hP : flag &&& PTE_P = 0) (hA : flag &&& PTE_ADDR = 0)
    (hPn : ~~~flag &&& PTE_P = PTE_P) (hAn : ~~~flag &&& PTE_ADDR = PTE_ADDR)
    (hw : PdWf init_page_dir s pd) {vpage : UInt32} (hv : is_user_vaddr vpage) (on : Bool) :
    ∃ s', set_flag flag pd vpage on s = (.ok (), s') ∧ PdWf init_page_dir s' pd ∧
      (∀ u, is_user_vaddr u → walk s' pd u = walk s pd u) ∧ s'.page pd = s.page pd := by
  have hi := pd_no_lt_of_user hv
  have hlook := lookup_page_eq hw hv
  by_cases hz : s.page pd (pd_no vpage).toNat = 0
  · refine ⟨s, ?_, hw, fun _ _ => rfl, rfl⟩
    simp [set_flag, bind_apply, hlook, hz]
  · have hne := (hw.pde_ok _ hi hz).ne_pd
    -- the new entry has the present bit and the address of the old one
    set e := s.page (entry_page (s.page pd (pd_no vpage).toNat)) (pt_no vpage).toNat with he
    set e' := if on then e ||| flag else e &&& ~~~flag with he'
    have hkeep : e' &&& PTE_P = e &&& PTE_P ∧ e' &&& PTE_ADDR = e &&& PTE_ADDR := by
      cases on
      · exact ⟨and_not_flag_and hPn, and_not_flag_and hAn⟩
      · exact ⟨or_flag_and hP, or_flag_and hA⟩
    refine ⟨s.set (entry_page (s.page pd (pd_no vpage).toNat)) (pt_no vpage).toNat e', ?_,
      hw.of_eq (Mem.set_page_of_ne (Ne.symm hne) _ _) rfl, fun u hu => ?_,
      Mem.set_page_of_ne (Ne.symm hne) _ _⟩
    · cases on
      · simp [set_flag, bind_apply, hlook, hz, read, write, he', ← he]
      · simp [set_flag, bind_apply, hlook, hz, read, write, he', ← he]
    · rw [walk_set hw hi hz _ _ hu]
      split
      case isTrue h =>
        obtain ⟨h1, h2⟩ := h
        have hpage : entry_page e' = entry_page e := by simp only [entry_page, hkeep.2]
        simp only [walk, h1, h2, if_neg hz, ← he, hkeep.1, hpage]
      case isFalse => rfl

theorem pagedir_set_dirty_spec (hw : PdWf init_page_dir s pd) {vpage : UInt32}
    (hv : is_user_vaddr vpage) (dirty : Bool) :
    ∃ s', pagedir_set_dirty pd vpage dirty s = (.ok (), s') ∧ PdWf init_page_dir s' pd ∧
      (∀ u, is_user_vaddr u → walk s' pd u = walk s pd u) ∧ s'.page pd = s.page pd :=
  set_flag_spec (by decide) (by decide) (by decide) (by decide) hw hv dirty

theorem pagedir_set_accessed_spec (hw : PdWf init_page_dir s pd) {vpage : UInt32}
    (hv : is_user_vaddr vpage) (accessed : Bool) :
    ∃ s', pagedir_set_accessed pd vpage accessed s = (.ok (), s') ∧ PdWf init_page_dir s' pd ∧
      (∀ u, is_user_vaddr u → walk s' pd u = walk s pd u) ∧ s'.page pd = s.page pd :=
  set_flag_spec (by decide) (by decide) (by decide) (by decide) hw hv accessed

end Specs

/-! ## Runs of calls on one page directory -/

instance : DecidablePred Kpage := fun _ => inferInstanceAs (Decidable (_ ∧ _))

instance : DecidablePred Upage := fun _ => inferInstanceAs (Decidable (_ ∧ _))

/-- A call on the page directory. -/
inductive PdCall
  | set_page (upage kpage : UInt32) (writable : Bool)
  | clear_page (upage : UInt32)
  | set_dirty (vpage : UInt32) (dirty : Bool)
  | set_accessed (vpage : UInt32) (accessed : Bool)

/-- The memory and the directory, with the writes the calls made to its map: a
`pagedir_set_page` that returns `true` maps its page, a `pagedir_clear_page` unmaps
its page. -/
structure PdSys where
  mem : Mem
  pd : UInt32
  writes : List (UInt32 × Option UInt32)

section Run

variable (init_page_dir init_ram_pages : UInt32)

/-- The calls of the contract: `pagedir_set_page` of an unmapped user page to a page
of RAM, `pagedir_clear_page` of a user page, and the flags of user addresses. -/
def PdCall.allowed (w : PdSys) : PdCall → Prop
  | .set_page upage kpage _ =>
    Upage upage ∧ RamPage init_ram_pages kpage ∧ walk w.mem w.pd upage = none
  | .clear_page upage => Upage upage
  | .set_dirty vpage _ => is_user_vaddr vpage
  | .set_accessed vpage _ => is_user_vaddr vpage

instance (w : PdSys) (c : PdCall) : Decidable (c.allowed init_ram_pages w) :=
  match c with
  | .set_page _ _ _ => inferInstanceAs (Decidable (_ ∧ (_ ∧ _) ∧ _))
  | .clear_page _ => inferInstanceAs (Decidable (Upage _))
  | .set_dirty _ _ => inferInstanceAs (Decidable (_ = true))
  | .set_accessed _ _ => inferInstanceAs (Decidable (_ = true))

/-- One call of the contract that returns. -/
def pd_step (w : PdSys) (c : PdCall) : Option PdSys :=
  if c.allowed init_ram_pages w then
    match c with
    | .set_page upage kpage writable =>
      match pagedir_set_page init_page_dir init_ram_pages w.pd upage kpage writable w.mem with
      | (.ok b, s) => some ⟨s, w.pd, if b then w.writes ++ [(upage, some kpage)] else w.writes⟩
      | (.error _, _) => none
    | .clear_page upage =>
      match pagedir_clear_page w.pd upage w.mem with
      | (.ok _, s) => some ⟨s, w.pd, w.writes ++ [(upage, none)]⟩
      | (.error _, _) => none
    | .set_dirty vpage dirty =>
      match pagedir_set_dirty w.pd vpage dirty w.mem with
      | (.ok _, s) => some ⟨s, w.pd, w.writes⟩
      | (.error _, _) => none
    | .set_accessed vpage accessed =>
      match pagedir_set_accessed w.pd vpage accessed w.mem with
      | (.ok _, s) => some ⟨s, w.pd, w.writes⟩
      | (.error _, _) => none
  else none

/-- Memory as `paging_init` leaves it for `pagedir_create`: `init_page_dir` maps no
user address and is not free, and the pool holds distinct kernel pages. -/
structure Boot (s : Mem) : Prop where
  init_user : ∀ i < 768, s.page init_page_dir i = 0
  init_not_free : init_page_dir ∉ s.free
  free_kpage : ∀ p ∈ s.free, Kpage p
  free_nodup : s.free.Nodup

/-- The directory keeps its shape, maps each user page as the writes left it, to
kernel pages only, and keeps the kernel entries `K` it was made with. -/
structure PdInv (K : Nat → UInt32) (w : PdSys) : Prop where
  wf : PdWf init_page_dir w.mem w.pd
  map : ∀ u, Upage u → walk w.mem w.pd u = replay (fun _ => none) w.writes u
  kpage : ∀ u, Upage u → ∀ k, walk w.mem w.pd u = some k → Kpage k
  kernel : ∀ i, 768 ≤ i → w.mem.page w.pd i = K i

variable {init_page_dir init_ram_pages}

/-- `pagedir_create` on booted memory: the first free page, a copy of
`init_page_dir`, with no user page mapped. -/
theorem inv_pagedir_create {s₀ s₁ : Mem} (hboot : Boot init_page_dir s₀) {pd : UInt32}
    (hcreate : pagedir_create init_page_dir s₀ = (.ok (some pd), s₁)) :
    PdInv init_page_dir (s₀.page init_page_dir) ⟨s₁, pd, []⟩ := by
  rcases hfree : s₀.free with _ | ⟨p, rest⟩
  · simp [pagedir_create, palloc_get_page, bind_apply, hfree] at hcreate
  · simp only [pagedir_create, palloc_get_page, bind_apply, get_apply, hfree, modify_apply,
      pure_apply, Bool.false_eq_true, if_false, Prod.mk.injEq, Except.ok.injEq,
      Option.some.injEq] at hcreate
    obtain ⟨rfl, rfl⟩ := hcreate
    have hmem : p ∈ s₀.free := by simp [hfree]
    have hnodup : (p :: rest).Nodup := hfree ▸ hboot.free_nodup
    have hne : p ≠ init_page_dir := fun h => hboot.init_not_free (h ▸ hmem)
    have hrest : ∀ {q}, q ∈ rest → q ∈ s₀.free := fun hq => by simp [hfree, hq]
    -- every user PDE of the copy is zero
    have hzero : ∀ i < 768, Function.update s₀.page p (s₀.page init_page_dir) p i = 0 := by
      intro i hi
      rw [Function.update_self]
      exact hboot.init_user i hi
    refine ⟨⟨hboot.free_kpage p hmem, hne, (List.nodup_cons.mp hnodup).1,
      fun h => hboot.init_not_free (hrest h), fun q hq => hboot.free_kpage q (hrest hq),
      (List.nodup_cons.mp hnodup).2, fun i hi h => absurd (hzero i hi) h,
      fun i hi _ _ h => absurd (hzero i hi) h⟩, fun u hu => ?_, fun u hu k hk => ?_,
      fun i _ => by simp⟩
    · simp [walk, hzero _ (pd_no_lt_of_user hu.2)]
    · simp [walk, hzero _ (pd_no_lt_of_user hu.2)] at hk

/-- Maps that agree on user pages agree after the same write. -/
theorem update_agree {f g : UInt32 → Option UInt32} (h : ∀ u, Upage u → f u = g u) (a : UInt32)
    (v : Option UInt32) : ∀ u, Upage u → Function.update f a v u = Function.update g a v u := by
  intro u hu
  by_cases hua : u = a
  · rw [hua, Function.update_self, Function.update_self]
  · rw [Function.update_of_ne hua, Function.update_of_ne hua, h u hu]

/-- After a write of `v` to `a`, the map holds kernel pages if it did and `v` is one. -/
theorem kpage_update {f : UInt32 → Option UInt32} (h : ∀ u, Upage u → ∀ k, f u = some k → Kpage k)
    {a : UInt32} {v : Option UInt32} (hv : ∀ k, v = some k → Kpage k) :
    ∀ u, Upage u → ∀ k, Function.update f a v u = some k → Kpage k := by
  intro u hu k hk
  by_cases hua : u = a
  · rw [hua, Function.update_self] at hk
    exact hv k hk
  · rw [Function.update_of_ne hua] at hk
    exact h u hu k hk

/-- The invariant is kept by every call of the contract that returns. -/
theorem inv_pd_step (K : Nat → UInt32) :
    Stable (pd_step init_page_dir init_ram_pages) (PdInv init_page_dir K) := by
  intro w c w' hinv hstep
  simp only [pd_step] at hstep
  split at hstep
  case isFalse => cases hstep
  case isTrue hallowed =>
  cases c with
  | set_page upage kpage writable =>
    obtain ⟨hup, hk, hmap⟩ := hallowed
    rcases pagedir_set_page_spec hinv.wf hup hk hmap writable with
      ⟨-, -, hres⟩ | ⟨s', hres, hwf, hwalk, hkern⟩
    · -- `false`: nothing changed
      simp only [hres] at hstep
      cases hstep
      exact hinv
    · simp only [hres] at hstep
      cases hstep
      show PdInv init_page_dir K ⟨s', w.pd, w.writes ++ [(upage, some kpage)]⟩
      refine ⟨hwf, fun u hu => ?_, fun u hu => ?_, fun i hi => (hkern i hi).trans (hinv.kernel i hi)⟩
      · rw [hwalk u hu, replay_append_write]
        exact update_agree hinv.map upage _ u hu
      · rw [hwalk u hu]
        exact kpage_update hinv.kpage (fun k hk' => Option.some.inj hk' ▸ hk.1) u hu
  | clear_page upage =>
    obtain ⟨s', hres, hwf, hwalk, hpd⟩ := pagedir_clear_page_spec hinv.wf hallowed
    simp only [hres] at hstep
    cases hstep
    refine ⟨hwf, fun u hu => ?_, fun u hu => ?_, fun i hi => (congrFun hpd i).trans (hinv.kernel i hi)⟩
    · rw [hwalk u hu, replay_append_write]
      exact update_agree hinv.map upage _ u hu
    · rw [hwalk u hu]
      exact kpage_update hinv.kpage (fun _ h => absurd h (Option.some_ne_none _).symm) u hu
  | set_dirty vpage dirty =>
    obtain ⟨s', hres, hwf, hwalk, hpd⟩ := pagedir_set_dirty_spec hinv.wf hallowed dirty
    simp only [hres] at hstep
    cases hstep
    refine ⟨hwf, fun u hu => ?_, fun u hu => ?_, fun i hi => (congrFun hpd i).trans (hinv.kernel i hi)⟩
    · rw [hwalk u hu.2]
      exact hinv.map u hu
    · rw [hwalk u hu.2]
      exact hinv.kpage u hu
  | set_accessed vpage accessed =>
    obtain ⟨s', hres, hwf, hwalk, hpd⟩ := pagedir_set_accessed_spec hinv.wf hallowed accessed
    simp only [hres] at hstep
    cases hstep
    refine ⟨hwf, fun u hu => ?_, fun u hu => ?_, fun i hi => (congrFun hpd i).trans (hinv.kernel i hi)⟩
    · rw [hwalk u hu.2]
      exact hinv.map u hu
    · rw [hwalk u hu.2]
      exact hinv.kpage u hu

theorem PdInv.reachable {s₀ s₁ : Mem} (hboot : Boot init_page_dir s₀) {pd : UInt32}
    (hcreate : pagedir_create init_page_dir s₀ = (.ok (some pd), s₁)) {w : PdSys}
    (h : Reachable (pd_step init_page_dir init_ram_pages) ⟨s₁, pd, []⟩ w) :
    PdInv init_page_dir (s₀.page init_page_dir) w :=
  (inv_pd_step _).reachable (inv_pagedir_create hboot hcreate) h

/-- Every call of the contract returns: no `ASSERT` fails. -/
theorem pd_step_isSome {K : Nat → UInt32} {w : PdSys} (hinv : PdInv init_page_dir K w)
    (c : PdCall) (hc : c.allowed init_ram_pages w) :
    (pd_step init_page_dir init_ram_pages w c).isSome := by
  cases c with
  | set_page upage kpage writable =>
    obtain ⟨hup, hk, hmap⟩ := hc
    rcases pagedir_set_page_spec hinv.wf hup hk hmap writable with
      ⟨-, -, hres⟩ | ⟨s', hres, -⟩
    · simp [pd_step, hup, hk, hmap, hres, PdCall.allowed]
    · simp [pd_step, hup, hk, hmap, hres, PdCall.allowed]
  | clear_page upage =>
    obtain ⟨s', hres, -⟩ := pagedir_clear_page_spec hinv.wf hc
    have hc' : Upage upage := hc
    simp [pd_step, hc', hres, PdCall.allowed]
  | set_dirty vpage dirty =>
    obtain ⟨s', hres, -⟩ := pagedir_set_dirty_spec hinv.wf hc dirty
    have hc' : is_user_vaddr vpage = true := hc
    simp [pd_step, hc', hres, PdCall.allowed]
  | set_accessed vpage accessed =>
    obtain ⟨s', hres, -⟩ := pagedir_set_accessed_spec hinv.wf hc accessed
    have hc' : is_user_vaddr vpage = true := hc
    simp [pd_step, hc', hres, PdCall.allowed]

/-- The page of a user address is a user page. -/
theorem Upage.pg_round_down {va : UInt32} (h : is_user_vaddr va) : Upage (pg_round_down va) := by
  have hlt : va.toNat < 3221225472 := by
    simpa [is_user_vaddr, UInt32.lt_iff_toNat_lt, PHYS_BASE_toNat] using h
  constructor
  · apply UInt32.toNat_inj.mp
    rw [pg_ofs_toNat, pg_round_down_toNat, UInt32.toNat_zero]
    omega
  · simp only [is_user_vaddr, decide_eq_true_eq, UInt32.lt_iff_toNat_lt, pg_round_down_toNat,
      PHYS_BASE_toNat]
    omega

/-- A page directory made by `pagedir_create` refines a finite map from user pages to
kernel pages. After any run of calls of the contract: `pagedir_get_page` of a user
address returns the page the last write to its page bound, plus its offset, or
`NULL` when the last write unbound it or there was none; the kernel entries are those
copied from `init_page_dir`; every call of the contract returns, no `ASSERT`
failing; and `pagedir_set_page` returns `false` only when the pool is empty, with
the memory as it was. -/
theorem pagedir_refines_map {s₀ s₁ : Mem} (hboot : Boot init_page_dir s₀) {pd : UInt32}
    (hcreate : pagedir_create init_page_dir s₀ = (.ok (some pd), s₁)) {w : PdSys}
    (h : Reachable (pd_step init_page_dir init_ram_pages) ⟨s₁, pd, []⟩ w) :
    (∀ uaddr, is_user_vaddr uaddr →
      pagedir_get_page w.pd uaddr w.mem =
        (.ok ((replay (fun _ => none) w.writes (pg_round_down uaddr)).map (· + pg_ofs uaddr)),
          w.mem)) ∧
    (∀ i, 768 ≤ i → w.mem.page w.pd i = s₀.page init_page_dir i) ∧
    (∀ c, c.allowed init_ram_pages w → (pd_step init_page_dir init_ram_pages w c).isSome) ∧
    (∀ upage kpage writable, (PdCall.set_page upage kpage writable).allowed init_ram_pages w →
      (pagedir_set_page init_page_dir init_ram_pages w.pd upage kpage writable w.mem).1 =
        .ok false →
      w.mem.free = [] ∧
        (pagedir_set_page init_page_dir init_ram_pages w.pd upage kpage writable w.mem).2 =
          w.mem) := by
  have hinv := PdInv.reachable hboot hcreate h
  refine ⟨fun uaddr hu => ?_, hinv.kernel, fun c hc => pd_step_isSome hinv c hc, ?_⟩
  · -- the walk of an address is the walk of its page, which the writes determine
    have hpage := Upage.pg_round_down hu
    have hwalk : walk w.mem w.pd uaddr = replay (fun _ => none) w.writes (pg_round_down uaddr) := by
      rw [← walk_pg_round_down, hinv.map _ hpage]
    rw [pagedir_get_page_eq hinv.wf hu fun k hk => (hinv.kpage _ hpage k
      ((walk_pg_round_down _ _ _).trans hk)).1, hwalk]
  · intro upage kpage writable hc hfalse
    obtain ⟨hup, hk, hmap⟩ := hc
    rcases pagedir_set_page_spec hinv.wf hup hk hmap writable with
      ⟨hfree, -, hres⟩ | ⟨s', hres, -⟩
    · rw [hres]
      exact ⟨hfree, rfl⟩
    · rw [hres] at hfalse
      simp at hfalse

/-- Memory at boot: `init_page_dir` at `PHYS_BASE`, zero, and three free pages
after it. -/
def bootMem : Mem := ⟨fun _ _ => 0, [0xc0001000, 0xc0002000, 0xc0003000]⟩

/-- The directory `pagedir_create` makes on `bootMem`, before any call. -/
def pdSys₀ : PdSys := ⟨(pagedir_create 0xc0000000 bootMem).2, 0xc0001000, []⟩

/-- Two pages mapped, the first marked dirty and then unmapped again. -/
def pd_calls₀ : List PdCall :=
  [.set_page 0x8048000 0xc0010000 true, .set_dirty 0x8048000 true,
    .set_page 0x8049000 0xc0011000 false, .clear_page 0x8048000]

def pdSys₁ : PdSys := (run (pd_step 0xc0000000 1024) pdSys₀ pd_calls₀).getD pdSys₀

theorem pagedir_refines_map_after_calls :
    Boot 0xc0000000 bootMem ∧
      pagedir_create 0xc0000000 bootMem = (.ok (some 0xc0001000), pdSys₀.mem) ∧
      run (pd_step 0xc0000000 1024) pdSys₀ pd_calls₀ = some pdSys₁ ∧
      (∀ uaddr, is_user_vaddr uaddr →
        pagedir_get_page pdSys₁.pd uaddr pdSys₁.mem =
          (.ok ((replay (fun _ => none) pdSys₁.writes (pg_round_down uaddr)).map
            (· + pg_ofs uaddr)), pdSys₁.mem)) ∧
      (∀ i, 768 ≤ i → pdSys₁.mem.page pdSys₁.pd i = bootMem.page 0xc0000000 i) ∧
      (∀ c, c.allowed 1024 pdSys₁ → (pd_step 0xc0000000 1024 pdSys₁ c).isSome) ∧
      (∀ upage kpage writable, (PdCall.set_page upage kpage writable).allowed 1024 pdSys₁ →
        (pagedir_set_page 0xc0000000 1024 pdSys₁.pd upage kpage writable pdSys₁.mem).1 =
          .ok false →
        pdSys₁.mem.free = [] ∧
          (pagedir_set_page 0xc0000000 1024 pdSys₁.pd upage kpage writable pdSys₁.mem).2 =
            pdSys₁.mem) := by
  have hboot : Boot 0xc0000000 bootMem := by
    refine ⟨fun _ _ => rfl, by decide +kernel, fun p hp => ?_, by decide +kernel⟩
    simp only [bootMem, List.mem_cons, List.not_mem_nil, or_false] at hp
    rcases hp with rfl | rfl | rfl <;> exact ⟨by decide, by decide⟩
  have hrun : run (pd_step 0xc0000000 1024) pdSys₀ pd_calls₀ = some pdSys₁ := rfl
  exact ⟨hboot, rfl, hrun, @pagedir_refines_map 0xc0000000 1024 bootMem pdSys₀.mem hboot
    0xc0001000 rfl pdSys₁ (reachable_of_run hrun)⟩

end Run

end Pintos.Pagedir
