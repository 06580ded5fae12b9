import Pintos.Filesys.InodeIO

/-!
# The partition scan of `devices/partition.c`

`partition_scan (block)` calls `read_partition_table (block, 0, 0, &part_nr)`, which reads
a partition table sector, skips empty entries, recurses into the table an extended entry
points to and hands every other entry to `found_partition`. That function registers the
partition when it lies within the device. Sector numbers are `block_sector_t`s, so their
sums wrap at `2 ^ 32`.

The recursion follows on-disk data, so the model has a `fuel` argument: the depth of
nested calls the kernel stack allows. `none` means that the scan needs more, that is,
that it does not return. Both functions `malloc` (the table in `read_partition_table`,
the `struct partition` in `found_partition`) and `PANIC` when it fails: `malloc_ok k`
says whether the scan's `k`-th `malloc` succeeds, and a `PANIC` is the error `()`.

The code reads sector 0 whatever table it was asked for (`block_read (block, 0, pt)`).
So the scan sees only the master boot record (`read_partition_table_congr`), a nested
table is the MBR again, and an extended entry whose offset `o` has `o + o` below the end
of the device brings the scan back to a call it has already made
(`read_partition_table_loops`). Whatever it does register lies within the device
(`read_partition_table_within_device`).

Not modelled: the messages the code prints; the text `extra_info` (made from `part_type`,
which a registration keeps); the `free (pt)`s, as `malloc_ok` may answer anything.
-/

namespace Pintos.Devices.Partition

open Pintos.Filesys (block_read BLOCK_SECTOR_SIZE)

/-- The number in the `n` bytes of `buf` from `ofs` on, least significant first. -/
def read_le (buf : Nat → UInt8) (ofs : Nat) : Nat → Nat
  | 0 => 0
  | n + 1 => (buf ofs).toNat + 256 * read_le buf (ofs + 1) n

/-- `struct partition_table_entry`, with the fields the scan reads. -/
structure PartitionTableEntry where
  type : UInt8
  offset : UInt32
  size : UInt32
  deriving DecidableEq, Repr

/-- The entry in the 16 bytes of `pt` from `ofs` on (`PACKED`). -/
def entry_at (pt : Nat → UInt8) (ofs : Nat) : PartitionTableEntry :=
  ⟨pt (ofs + 4), UInt32.ofNat (read_le pt (ofs + 8) 4), UInt32.ofNat (read_le pt (ofs + 12) 4)⟩

/-- `pt->partitions`: four entries after the 446 bytes of the loader. -/
def partition_entries (pt : Nat → UInt8) : List PartitionTableEntry :=
  (List.range 4).map fun i => entry_at pt (446 + 16 * i)

/-- `pt->signature`, the `uint16_t` at the end of the sector. -/
def signature (pt : Nat → UInt8) : Nat := read_le pt 510 2

/-- The extended partition types 0x05, 0x0f, 0x85 and 0xc5. -/
def is_extended (type : UInt8) : Bool :=
  type == 0x05 || type == 0x0f || type == 0x85 || type == 0xc5

inductive BlockType
  | KERNEL | FILESYS | SCRATCH | SWAP | FOREIGN
  deriving DecidableEq, Repr

/-- The `block_type` of a partition type in `found_partition`. -/
def block_type_of (part_type : UInt8) : BlockType :=
  if part_type = 0x20 then .KERNEL
  else if part_type = 0x21 then .FILESYS
  else if part_type = 0x22 then .SCRATCH
  else if part_type = 0x23 then .SWAP
  else .FOREIGN

/-- What `found_partition` passes to `block_register`: the number in the device's name
`"%s%d"`, the type, and the `struct partition` with its start. -/
structure Registration where
  part_nr : Nat
  type : BlockType
  part_type : UInt8
  start : UInt32
  size : UInt32
  deriving DecidableEq, Repr

/-- What the scan has made so far: the registrations, `*part_nr`, and the number of
`malloc`s. -/
structure Progress where
  regs : List Registration
  part_nr : Nat
  mallocs : Nat
  deriving DecidableEq, Repr

/-- The scan's code: `none` when it does not return within the fuel, and the error `()`
for a `PANIC`. -/
abbrev ScanM := ExceptT Unit Option

/-- The scan's `k`-th `malloc`, with the `PANIC` when it returns `NULL`. -/
def malloc (malloc_ok : Nat → Bool) (k : Nat) : ScanM Unit :=
  if malloc_ok k then pure () else throw ()

/-- `found_partition (block, part_type, start, size, part_nr)`: a partition within the
device gets a `struct partition` and is registered. -/
def found_partition (malloc_ok : Nat → Bool) (block_size : UInt32) (part_type : UInt8)
    (start size : UInt32) (part_nr : Nat) (acc : Progress) : ScanM Progress :=
  if start ≥ block_size then pure acc
  else if start + size < start ∨ start + size > block_size then pure acc
  else do
    malloc malloc_ok acc.mallocs
    pure ⟨acc.regs ++ [⟨part_nr, block_type_of part_type, part_type, start, size⟩],
      acc.part_nr, acc.mallocs + 1⟩

/-- The `sector` and `primary_extended_sector` of the call for an extended entry: its
offset is absolute in the MBR and relative to the primary extended partition below it. -/
def extended_table (sector primary_extended_sector offset : UInt32) : UInt32 × UInt32 :=
  if sector = 0 then (offset, offset)
  else (offset + primary_extended_sector, primary_extended_sector)

/-- One pass of the loop over `pt->partitions`; `recurse` is the nested
`read_partition_table`. -/
def scan_entry (recurse : UInt32 → UInt32 → Progress → ScanM Progress)
    (malloc_ok : Nat → Bool) (block_size sector primary_extended_sector : UInt32)
    (acc : Progress) (e : PartitionTableEntry) : ScanM Progress :=
  if e.size = 0 ∨ e.type = 0 then pure acc
  else if is_extended e.type then
    let next := extended_table sector primary_extended_sector e.offset
    recurse next.1 next.2 acc
  else
    -- `++*part_nr`, then `found_partition` with the new number
    found_partition malloc_ok block_size e.type (e.offset + sector) e.size (acc.part_nr + 1)
      { acc with part_nr := acc.part_nr + 1 }

/-- `pt` after `block_read (block, 0, pt)`, which reads sector 0 whatever `sector` is. -/
def read_pt (disk : Nat → Nat → UInt8) : Nat → UInt8 := block_read disk 0 (fun _ => 0) 0

/-- `read_partition_table (block, sector, primary_extended_sector, part_nr)` on a device of
`block_size` sectors, within `fuel` nested calls. -/
def read_partition_table (disk : Nat → Nat → UInt8) (block_size : UInt32)
    (malloc_ok : Nat → Bool) : Nat → UInt32 → UInt32 → Progress → ScanM Progress
  | 0, _, _, _ => ExceptT.lift none
  | fuel + 1, sector, primary_extended_sector, acc =>
    if sector ≥ block_size then pure acc
    else do
      malloc malloc_ok acc.mallocs
      let acc' : Progress := { acc with mallocs := acc.mallocs + 1 }
      let pt := read_pt disk
      if signature pt ≠ 0xaa55 then pure acc'
      else
        (partition_entries pt).foldlM
          (scan_entry (read_partition_table disk block_size malloc_ok fuel) malloc_ok block_size
            sector primary_extended_sector) acc'

/-- `partition_scan (block)`: how the scan ends, with the registrations and the final
`part_nr`. -/
def partition_scan (disk : Nat → Nat → UInt8) (block_size : UInt32) (malloc_ok : Nat → Bool)
    (fuel : Nat) : Option (Except Unit Progress) :=
  (read_partition_table disk block_size malloc_ok fuel 0 0 ⟨[], 0, 0⟩).run

section Fold

variable {ε α β : Type}

/-! Code in `ExceptT ε Option` goes on, stops with an error, or does not end. -/

theorem run_bind_of_ok {x : ExceptT ε Option α} {f : α → ExceptT ε Option β} {a : α}
    (h : x.run = some (.ok a)) : (x >>= f).run = (f a).run := by
  simp [ExceptT.run_bind, h]

theorem run_bind_of_error {x : ExceptT ε Option α} {f : α → ExceptT ε Option β} {e : ε}
    (h : x.run = some (.error e)) : (x >>= f).run = some (.error e) := by
  simp [ExceptT.run_bind, h]

theorem run_bind_of_none {x : ExceptT ε Option α} {f : α → ExceptT ε Option β}
    (h : x.run = none) : (x >>= f).run = none := by
  simp [ExceptT.run_bind, h]

variable {f : α → β → ExceptT ε Option α}

/-- A fold does not return a result when one of its elements never lets a step return
one. -/
theorem foldlM_not_ok {l : List β} {b : β} (hb : b ∈ l) (hf : ∀ a r, (f a b).run ≠ some (.ok r))
    (init : α) : ∀ r, (l.foldlM f init).run ≠ some (.ok r) := by
  induction l generalizing init with
  | nil => exact absurd hb List.not_mem_nil
  | cons c l ih =>
    intro r
    rw [List.foldlM_cons]
    match hc : (f init c).run with
    | none => simp [run_bind_of_none hc]
    | some (.error e) => simp [run_bind_of_error hc]
    | some (.ok a) =>
      rw [run_bind_of_ok hc]
      rcases List.mem_cons.mp hb with rfl | hb
      · exact absurd hc (hf init a)
      · exact ih hb a r

/-- A fold ends when every step does. -/
theorem foldlM_isSome {l : List β} (hf : ∀ a, ∀ b ∈ l, ((f a b).run).isSome) (init : α) :
    ((l.foldlM f init).run).isSome := by
  induction l generalizing init with
  | nil => rfl
  | cons c l ih =>
    rw [List.foldlM_cons]
    match hc : (f init c).run with
    | none => simpa [hc] using hf init c List.mem_cons_self
    | some (.error e) => simp [run_bind_of_error hc]
    | some (.ok a) =>
      rw [run_bind_of_ok hc]
      exact ih (fun a' b hb => hf a' b (List.mem_cons_of_mem c hb)) a

/-- A fold stops with no error when no step does. -/
theorem foldlM_ne_error {l : List β} (hf : ∀ a, ∀ b ∈ l, ∀ e, (f a b).run ≠ some (.error e))
    (init : α) : ∀ e, (l.foldlM f init).run ≠ some (.error e) := by
  induction l generalizing init with
  | nil => intro e h; cases h
  | cons c l ih =>
    intro e
    rw [List.foldlM_cons]
    match hc : (f init c).run with
    | none => simp [run_bind_of_none hc]
    | some (.error e') => exact absurd hc (hf init c List.mem_cons_self e')
    | some (.ok a) =>
      rw [run_bind_of_ok hc]
      exact ih (fun a' b hb => hf a' b (List.mem_cons_of_mem c hb)) a e

/-- What every step keeps holds of the result a fold returns. -/
theorem foldlM_inv (P : α → Prop) (hf : ∀ a b a', P a → (f a b).run = some (.ok a') → P a')
    (l : List β) {init r : α} (hinit : P init) (h : (l.foldlM f init).run = some (.ok r)) :
    P r := by
  induction l generalizing init with
  | nil =>
    cases h
    exact hinit
  | cons c l ih =>
    rw [List.foldlM_cons] at h
    match hc : (f init c).run with
    | none => simp [run_bind_of_none hc] at h
    | some (.error e) => simp [run_bind_of_error hc] at h
    | some (.ok a) =>
      rw [run_bind_of_ok hc] at h
      exact ih (hf init c a hinit hc) h

end Fold

variable {disk disk' : Nat → Nat → UInt8} {block_size : UInt32} {malloc_ok : Nat → Bool}

theorem run_malloc (malloc_ok : Nat → Bool) (k : Nat) :
    (malloc malloc_ok k).run = if malloc_ok k then some (.ok ()) else some (.error ()) := by
  unfold malloc
  split <;> rfl

/-- The scan reads nothing but the first `BLOCK_SECTOR_SIZE` bytes of sector 0. -/
theorem read_partition_table_congr (h : ∀ i < BLOCK_SECTOR_SIZE, disk 0 i = disk' 0 i)
    (malloc_ok : Nat → Bool) (fuel : Nat) : read_partition_table disk block_size malloc_ok fuel =
      read_partition_table disk' block_size malloc_ok fuel := by
  have hpt : read_pt disk = read_pt disk' :=
    ByteMap.copy_congr fun j hj => by simpa using h j hj
  induction fuel with
  | zero => rfl
  | succ fuel ih =>
    funext sector primary_extended_sector acc
    simp only [read_partition_table, hpt, ih]

/-- A call below the end of the device: its `malloc`, then the MBR's signature, then the
loop over its entries. -/
theorem read_partition_table_run {sector : UInt32} (hs : sector < block_size) (fuel : Nat)
    (primary_extended_sector : UInt32) (acc : Progress) :
    (read_partition_table disk block_size malloc_ok (fuel + 1) sector primary_extended_sector
        acc).run =
      if malloc_ok acc.mallocs then
        if signature (read_pt disk) ≠ 0xaa55 then some (.ok { acc with mallocs := acc.mallocs + 1 })
        else ((partition_entries (read_pt disk)).foldlM
          (scan_entry (read_partition_table disk block_size malloc_ok fuel) malloc_ok block_size
            sector primary_extended_sector) { acc with mallocs := acc.mallocs + 1 }).run
      else some (.error ()) := by
  have hge : ¬sector ≥ block_size := UInt32.not_le.mpr hs
  simp only [read_partition_table, if_neg hge]
  cases hm : malloc_ok acc.mallocs with
  | false => exact run_bind_of_error (by rw [run_malloc, hm]; rfl)
  | true =>
    rw [run_bind_of_ok (by rw [run_malloc, hm]; rfl)]
    split <;> rfl

theorem read_partition_table_of_ge {sector : UInt32} (hs : block_size ≤ sector) (fuel : Nat)
    (primary_extended_sector : UInt32) (acc : Progress) :
    (read_partition_table disk block_size malloc_ok (fuel + 1) sector primary_extended_sector
      acc).run = some (.ok acc) := by
  simp only [read_partition_table, ge_iff_le, if_pos hs]
  rfl

/-- A registration lies within the device: its end does not wrap and is at most
`block_size`. -/
def WithinDevice (block_size : UInt32) (r : Registration) : Prop :=
  r.start.toNat + r.size.toNat ≤ block_size.toNat

/-- `found_partition` ends, and what it registers lies within the device. -/
theorem found_partition_within_device {part_type : UInt8} {start size : UInt32} {n : Nat}
    {acc acc' : Progress}
    (h : (found_partition malloc_ok block_size part_type start size n acc).run =
      some (.ok acc')) (hacc : ∀ r ∈ acc.regs, WithinDevice block_size r) :
    ∀ r ∈ acc'.regs, WithinDevice block_size r := by
  unfold found_partition at h
  split_ifs at h with hstart hend
  · cases h
    exact hacc
  · cases h
    exact hacc
  · cases hm : malloc_ok acc.mallocs with
    | false =>
      rw [run_bind_of_error (by rw [run_malloc, hm]; rfl)] at h
      cases h
    | true =>
      rw [run_bind_of_ok (by rw [run_malloc, hm]; rfl)] at h
      cases h
      intro r hr
      rcases List.mem_append.mp hr with hr | hr
      · exact hacc r hr
      · rw [List.mem_singleton] at hr
        subst hr
        rw [not_or, UInt32.not_lt, UInt32.not_lt, UInt32.le_iff_toNat_le, UInt32.le_iff_toNat_le,
          UInt32.toNat_add] at hend
        have hsize := size.toNat_lt
        show start.toNat + size.toNat ≤ block_size.toNat
        omega

theorem found_partition_isSome (part_type : UInt8) (start size : UInt32) (n : Nat)
    (acc : Progress) : ((found_partition malloc_ok block_size part_type start size n acc).run).isSome := by
  unfold found_partition
  split_ifs
  · rfl
  · rfl
  · cases hm : malloc_ok acc.mallocs with
    | false => rw [run_bind_of_error (by rw [run_malloc, hm]; rfl)]; rfl
    | true => rw [run_bind_of_ok (by rw [run_malloc, hm]; rfl)]; rfl

/-- With every `malloc` succeeding, `found_partition` does not `PANIC`. -/
theorem found_partition_ne_error (part_type : UInt8) (start size : UInt32) (n : Nat)
    (acc : Progress) (e : Unit) :
    (found_partition (fun _ => true) block_size part_type start size n acc).run ≠
      some (.error e) := by
  unfold found_partition
  split_ifs
  · intro h; cases h
  · intro h; cases h
  · rw [run_bind_of_ok (by rw [run_malloc]; rfl)]
    intro h; cases h

/-- Every partition the scan registers lies within the device. -/
theorem read_partition_table_within_device (fuel : Nat) :
    ∀ sector primary_extended_sector acc r, (∀ x ∈ acc.regs, WithinDevice block_size x) →
      (read_partition_table disk block_size malloc_ok fuel sector primary_extended_sector
        acc).run = some (.ok r) → ∀ x ∈ r.regs, WithinDevice block_size x := by
  induction fuel with
  | zero => intro _ _ _ _ _ h; cases h
  | succ fuel ih =>
    intro sector primary_extended_sector acc r hacc h
    by_cases hs : sector < block_size
    · rw [read_partition_table_run hs] at h
      split_ifs at h
      · cases h
        exact hacc
      · -- each entry adds registrations from `found_partition` or from a nested call
        refine foldlM_inv (fun acc => ∀ x ∈ acc.regs, WithinDevice block_size x) ?_ _ hacc h
        intro acc₀ e acc' hacc₀ hstep
        unfold scan_entry at hstep
        split_ifs at hstep
        · cases hstep
          exact hacc₀
        · exact ih _ _ _ _ hacc₀ hstep
        · exact found_partition_within_device hstep hacc₀
      · cases h
    · rw [read_partition_table_of_ge (UInt32.not_lt.mp hs)] at h
      cases h
      exact hacc

section Loops

/-- An entry the loop recurses into: not empty, and of an extended type. -/
def Nested (e : PartitionTableEntry) : Prop := e.size ≠ 0 ∧ is_extended e.type = true

theorem scan_entry_of_not_nested {recurse : UInt32 → UInt32 → Progress → ScanM Progress}
    {sector primary_extended_sector : UInt32} {e : PartitionTableEntry} (he : ¬Nested e)
    (acc : Progress) :
    scan_entry recurse malloc_ok block_size sector primary_extended_sector acc e = pure acc ∨
      scan_entry recurse malloc_ok block_size sector primary_extended_sector acc e =
        found_partition malloc_ok block_size e.type (e.offset + sector) e.size (acc.part_nr + 1)
          { acc with part_nr := acc.part_nr + 1 } := by
  unfold scan_entry
  split_ifs with hempty hext
  · exact Or.inl rfl
  · have hsize : e.size ≠ 0 := fun h => hempty (Or.inl h)
    exact absurd ⟨hsize, hext⟩ he
  · exact Or.inr rfl

theorem scan_entry_of_nested {recurse : UInt32 → UInt32 → Progress → ScanM Progress}
    {sector primary_extended_sector : UInt32} {e : PartitionTableEntry} (he : Nested e)
    (acc : Progress) :
    scan_entry recurse malloc_ok block_size sector primary_extended_sector acc e =
      recurse (extended_table sector primary_extended_sector e.offset).1
        (extended_table sector primary_extended_sector e.offset).2 acc := by
  have htype : e.type ≠ 0 := by
    intro h0
    have hext := he.2
    rw [h0] at hext
    exact absurd hext (by decide)
  simp only [scan_entry, he.1, htype, or_self, if_false, he.2, if_true]

/-- An entry that is not nested ends its pass of the loop. -/
theorem scan_entry_isSome_of_not_nested {recurse : UInt32 → UInt32 → Progress → ScanM Progress}
    {sector primary_extended_sector : UInt32} {e : PartitionTableEntry} (he : ¬Nested e)
    (acc : Progress) :
    ((scan_entry recurse malloc_ok block_size sector primary_extended_sector acc e).run).isSome := by
  rcases scan_entry_of_not_nested he acc with h | h <;> rw [h]
  · rfl
  · exact found_partition_isSome _ _ _ _ _

/-- From a set `L` of calls below the end of the device, each of which has a nested entry
of the MBR that leads back into `L`, no call returns: it runs out of fuel, or a `malloc`
fails. -/
theorem read_partition_table_closed_not_ok (hsig : signature (read_pt disk) = 0xaa55)
    (L : UInt32 → UInt32 → Prop) (hbelow : ∀ s p, L s p → s < block_size)
    (hclosed : ∀ s p, L s p → ∃ e ∈ partition_entries (read_pt disk), Nested e ∧
      L (extended_table s p e.offset).1 (extended_table s p e.offset).2) (fuel : Nat) :
    ∀ s p acc r, L s p →
      (read_partition_table disk block_size malloc_ok fuel s p acc).run ≠ some (.ok r) := by
  induction fuel with
  | zero => intro _ _ _ _ _ h; cases h
  | succ fuel ih =>
    intro s p acc r hL
    obtain ⟨e, he, hnest, hnext⟩ := hclosed s p hL
    rw [read_partition_table_run (hbelow s p hL)]
    split_ifs with hm hs
    · exact absurd hsig hs
    · -- the fold reaches `e`, whose nested call stays in `L`
      refine foldlM_not_ok he (fun acc' r' => ?_) _ r
      rw [scan_entry_of_nested hnest]
      exact ih _ _ acc' r' hnext
    · intro h
      cases h

/-- Nested entries `e₁`, `e₂` of the MBR with `e₁.offset` and `e₂.offset + e₁.offset`
sectors of the device send the scan round `(0, 0) → (o₁, o₁) → (o₂ + o₁, o₁) → …`, which
comes back to a call it has made: it never returns. -/
theorem read_partition_table_loops (hsig : signature (read_pt disk) = 0xaa55)
    {e₁ e₂ : PartitionTableEntry} (he₁ : e₁ ∈ partition_entries (read_pt disk))
    (he₂ : e₂ ∈ partition_entries (read_pt disk)) (hn₁ : Nested e₁) (hn₂ : Nested e₂)
    (hoff : e₁.offset < block_size) (hoff2 : e₂.offset + e₁.offset < block_size)
    (malloc_ok : Nat → Bool) (fuel : Nat) (r : Progress) :
    partition_scan disk block_size malloc_ok fuel ≠ some (.ok r) := by
  let L : UInt32 → UInt32 → Prop := fun s p => (s = 0 ∧ p = 0) ∨ (s = e₁.offset ∧ p = e₁.offset) ∨
    (s = e₂.offset + e₁.offset ∧ p = e₁.offset)
  have hzero : (0 : UInt32) < block_size := by
    rw [UInt32.lt_iff_toNat_lt] at hoff ⊢
    rw [UInt32.toNat_zero]
    omega
  have hbelow : ∀ s p, L s p → s < block_size := by
    rintro s p (⟨rfl, -⟩ | ⟨rfl, -⟩ | ⟨rfl, -⟩)
    · exact hzero
    · exact hoff
    · exact hoff2
  -- from sector 0 take `e₁`, from the others `e₂` (or `e₁` where the sum wrapped to 0)
  have hclosed : ∀ s p, L s p → ∃ e ∈ partition_entries (read_pt disk), Nested e ∧
      L (extended_table s p e.offset).1 (extended_table s p e.offset).2 := by
    rintro s p (⟨rfl, rfl⟩ | ⟨rfl, rfl⟩ | ⟨rfl, rfl⟩)
    · exact ⟨e₁, he₁, hn₁, Or.inr (Or.inl ⟨rfl, rfl⟩)⟩
    · by_cases h0 : e₁.offset = 0
      · refine ⟨e₁, he₁, hn₁, ?_⟩
        simp only [extended_table, if_pos h0]
        exact Or.inr (Or.inl ⟨rfl, rfl⟩)
      · refine ⟨e₂, he₂, hn₂, ?_⟩
        simp only [extended_table, if_neg h0]
        exact Or.inr (Or.inr ⟨rfl, rfl⟩)
    · by_cases h0 : e₂.offset + e₁.offset = 0
      · refine ⟨e₁, he₁, hn₁, ?_⟩
        simp only [extended_table, if_pos h0]
        exact Or.inr (Or.inl ⟨rfl, rfl⟩)
      · refine ⟨e₂, he₂, hn₂, ?_⟩
        simp only [extended_table, if_neg h0]
        exact Or.inr (Or.inr ⟨rfl, rfl⟩)
  exact read_partition_table_closed_not_ok hsig L hbelow hclosed fuel 0 0 _ r
    (Or.inl ⟨rfl, rfl⟩)

/-- Without such a pair the scan ends within three nested calls, returning or with a
`PANIC` where a `malloc` fails: a nested entry of the MBR leads past the end of the device,
or to `(o, o)`, whose nested entries all lead past it. -/
theorem partition_scan_isSome
    (hpair : ¬∃ e₁ ∈ partition_entries (read_pt disk), ∃ e₂ ∈ partition_entries (read_pt disk),
      Nested e₁ ∧ Nested e₂ ∧ e₁.offset < block_size ∧ e₂.offset + e₁.offset < block_size)
    (malloc_ok : Nat → Bool) : (partition_scan disk block_size malloc_ok 3).isSome := by
  -- a call ends once its `malloc` and its signature test are past and its loop does
  have hcall : ∀ fuel s p acc, (∀ acc' e, e ∈ partition_entries (read_pt disk) →
      ((scan_entry (read_partition_table disk block_size malloc_ok fuel) malloc_ok block_size
        s p acc' e).run).isSome) →
      ((read_partition_table disk block_size malloc_ok (fuel + 1) s p acc).run).isSome := by
    intro fuel s p acc hloop
    by_cases hs : s < block_size
    · rw [read_partition_table_run hs]
      split_ifs
      · rfl
      · exact foldlM_isSome (fun acc' e he => hloop acc' e he) _
      · rfl
    · rw [read_partition_table_of_ge (UInt32.not_lt.mp hs)]
      rfl
  -- a call from which every nested entry leads past the end ends
  have hlast : ∀ fuel s p acc, (∀ e ∈ partition_entries (read_pt disk), Nested e →
      block_size ≤ (extended_table s p e.offset).1) →
      ((read_partition_table disk block_size malloc_ok (fuel + 2) s p acc).run).isSome := by
    intro fuel s p acc hpast
    refine hcall _ _ _ _ fun acc' e he => ?_
    by_cases hn : Nested e
    · rw [scan_entry_of_nested hn, read_partition_table_of_ge (hpast e he hn)]
      rfl
    · exact scan_entry_isSome_of_not_nested hn acc'
  refine hcall 2 0 0 _ fun acc e₁ he₁ => ?_
  by_cases hn₁ : Nested e₁
  · rw [scan_entry_of_nested hn₁]
    simp only [extended_table, if_true]
    by_cases hoff : e₁.offset < block_size
    · refine hlast 0 _ _ _ fun e₂ he₂ hn₂ => ?_
      -- `(o₁, o₁)` is not sector 0: else `e₁` would pair with itself
      have h0 : e₁.offset ≠ 0 := by
        intro h0
        refine hpair ⟨e₁, he₁, e₁, he₁, hn₁, hn₁, hoff, ?_⟩
        rw [h0, UInt32.add_zero]
        rwa [h0] at hoff
      simp only [extended_table, if_neg h0]
      exact UInt32.not_lt.mp fun h => hpair ⟨e₁, he₁, e₂, he₂, hn₁, hn₂, hoff, h⟩
    · rw [read_partition_table_of_ge (UInt32.not_lt.mp hoff)]
      rfl
  · exact scan_entry_isSome_of_not_nested hn₁ acc

/-- With every `malloc` succeeding, the scan never `PANIC`s. -/
theorem read_partition_table_ne_error (fuel : Nat) :
    ∀ sector primary_extended_sector acc e,
      (read_partition_table disk block_size (fun _ => true) fuel sector primary_extended_sector
        acc).run ≠ some (.error e) := by
  induction fuel with
  | zero => intro _ _ _ _ h; cases h
  | succ fuel ih =>
    intro sector primary_extended_sector acc e
    by_cases hs : sector < block_size
    · rw [read_partition_table_run hs]
      simp only [if_true]
      split_ifs
      · intro h; cases h
      · refine foldlM_ne_error (fun acc' e' _ => ?_) _ e
        unfold scan_entry
        split_ifs
        · intro _ h; cases h
        · exact ih _ _ acc'
        · exact found_partition_ne_error _ _ _ _ _
    · rw [read_partition_table_of_ge (UInt32.not_lt.mp hs)]
      intro h; cases h

end Loops

/-- The scan reads only sector 0. With every `malloc` succeeding, it returns exactly when
that sector's signature is wrong or no two nested entries `e₁`, `e₂` of it have `e₁.offset`
and `e₂.offset + e₁.offset` below the end of the device. Whatever `malloc` answers, it
returns only then, and then it ends within three nested calls, returning or with a
`PANIC` where a `malloc` failed; and what it registers lies within the device. -/
theorem partition_scan_rereads_sector_zero (block_size : UInt32) :
    (∀ disk disk' : Nat → Nat → UInt8, (∀ i < BLOCK_SECTOR_SIZE, disk 0 i = disk' 0 i) →
      ∀ malloc_ok fuel, partition_scan disk block_size malloc_ok fuel =
        partition_scan disk' block_size malloc_ok fuel) ∧
    (∀ disk : Nat → Nat → UInt8,
      (∃ fuel r, partition_scan disk block_size (fun _ => true) fuel = some (.ok r)) ↔
        signature (read_pt disk) ≠ 0xaa55 ∨
          ¬∃ e₁ ∈ partition_entries (read_pt disk), ∃ e₂ ∈ partition_entries (read_pt disk),
            Nested e₁ ∧ Nested e₂ ∧ e₁.offset < block_size ∧
              e₂.offset + e₁.offset < block_size) ∧
    (∀ (disk : Nat → Nat → UInt8) malloc_ok fuel r,
      partition_scan disk block_size malloc_ok fuel = some (.ok r) →
        signature (read_pt disk) ≠ 0xaa55 ∨
          ¬∃ e₁ ∈ partition_entries (read_pt disk), ∃ e₂ ∈ partition_entries (read_pt disk),
            Nested e₁ ∧ Nested e₂ ∧ e₁.offset < block_size ∧
              e₂.offset + e₁.offset < block_size) ∧
    (∀ (disk : Nat → Nat → UInt8) malloc_ok, (signature (read_pt disk) ≠ 0xaa55 ∨
          ¬∃ e₁ ∈ partition_entries (read_pt disk), ∃ e₂ ∈ partition_entries (read_pt disk),
            Nested e₁ ∧ Nested e₂ ∧ e₁.offset < block_size ∧
              e₂.offset + e₁.offset < block_size) →
      (partition_scan disk block_size malloc_ok 3).isSome) ∧
    (∀ disk malloc_ok fuel r, partition_scan disk block_size malloc_ok fuel = some (.ok r) →
      ∀ x ∈ r.regs, WithinDevice block_size x) := by
  -- returning is only possible without a pair of nested entries that loop
  have hreturns : ∀ (disk : Nat → Nat → UInt8) malloc_ok fuel r,
      partition_scan disk block_size malloc_ok fuel = some (.ok r) →
        signature (read_pt disk) ≠ 0xaa55 ∨
          ¬∃ e₁ ∈ partition_entries (read_pt disk), ∃ e₂ ∈ partition_entries (read_pt disk),
            Nested e₁ ∧ Nested e₂ ∧ e₁.offset < block_size ∧
              e₂.offset + e₁.offset < block_size := by
    intro disk malloc_ok fuel r h
    by_cases hsig : signature (read_pt disk) = 0xaa55
    · refine Or.inr fun ⟨e₁, he₁, e₂, he₂, hn₁, hn₂, hoff, hoff2⟩ => ?_
      exact read_partition_table_loops hsig he₁ he₂ hn₁ hn₂ hoff hoff2 malloc_ok fuel r h
    · exact Or.inl hsig
  -- and without one the scan ends within three nested calls
  have hends : ∀ (disk : Nat → Nat → UInt8) malloc_ok, (signature (read_pt disk) ≠ 0xaa55 ∨
      ¬∃ e₁ ∈ partition_entries (read_pt disk), ∃ e₂ ∈ partition_entries (read_pt disk),
        Nested e₁ ∧ Nested e₂ ∧ e₁.offset < block_size ∧ e₂.offset + e₁.offset < block_size) →
      (partition_scan disk block_size malloc_ok 3).isSome := by
    rintro disk malloc_ok (hsig | hpair)
    · show ((read_partition_table disk block_size malloc_ok (2 + 1) 0 0 ⟨[], 0, 0⟩).run).isSome
      by_cases hs : (0 : UInt32) < block_size
      · rw [read_partition_table_run hs]
        split_ifs
        · rfl
        · rfl
      · rw [read_partition_table_of_ge (UInt32.not_lt.mp hs)]
        rfl
    · exact partition_scan_isSome hpair malloc_ok
  refine ⟨fun disk disk' h malloc_ok fuel => ?_, fun disk => ⟨fun ⟨fuel, r, h⟩ =>
    hreturns disk _ fuel r h, fun hcond => ?_⟩, hreturns, hends,
    fun disk malloc_ok fuel r h => ?_⟩
  · rw [partition_scan, read_partition_table_congr h]
    rfl
  · -- with every `malloc` succeeding, ending is returning
    obtain ⟨x, hx⟩ := Option.isSome_iff_exists.mp (hends disk _ hcond)
    rcases x with e | r
    · exact absurd hx (read_partition_table_ne_error 3 0 0 _ e)
    · exact ⟨3, r, hx⟩
  · exact read_partition_table_within_device fuel 0 0 _ r (by simp) h

/-- A device of four sectors whose MBR has one entry: type 0x05 (extended), offset 1,
size 1. -/
def extended_mbr : Nat → Nat → UInt8 := fun _ i =>
  if i = 446 + 4 then 0x05 else if i = 446 + 8 then 1 else if i = 446 + 12 then 1
  else if i = 510 then 0x55 else if i = 511 then 0xaa else 0

/-- On it the scan calls `read_partition_table` with `(0, 0)`, `(1, 1)`, `(2, 1)`,
`(2, 1)`, … and never returns; with every `malloc` succeeding, no fuel is enough. -/
theorem partition_scan_extended_mbr_loops :
    (∀ malloc_ok fuel r, partition_scan extended_mbr 4 malloc_ok fuel ≠ some (.ok r)) ∧
      ∀ fuel, partition_scan extended_mbr 4 (fun _ => true) fuel = none := by
  obtain ⟨-, -, hreturns, -, -⟩ := partition_scan_rereads_sector_zero 4
  have he : (⟨0x05, 1, 1⟩ : PartitionTableEntry) ∈ partition_entries (read_pt extended_mbr) := by
    decide
  have hn : Nested ⟨0x05, 1, 1⟩ := ⟨by decide, by decide⟩
  -- the MBR is signed, and its one extended entry pairs with itself
  have hloops : ∀ malloc_ok fuel r, partition_scan extended_mbr 4 malloc_ok fuel ≠ some (.ok r) := by
    intro malloc_ok fuel r h
    rcases hreturns extended_mbr malloc_ok fuel r h with hsig | hpair
    · exact hsig (by decide)
    · exact hpair ⟨_, he, _, he, hn, hn, by decide, by decide⟩
  refine ⟨hloops, fun fuel => ?_⟩
  match h : partition_scan extended_mbr 4 (fun _ => true) fuel with
  | none => rfl
  | some (.error e) => exact absurd h (read_partition_table_ne_error fuel 0 0 _ e)
  | some (.ok r) => exact absurd h (hloops _ fuel r)

end Pintos.Devices.Partition
