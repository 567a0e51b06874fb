import MokyaLora.Lib.Uncached

/-!
# Loading the dictionary from flash

The loader (`mie_dict_loader.c`) finds the format of the partition by its magic, checks the
offsets and sizes of the header and copies the blob, or its four sections, to the external
memory. It writes around the cache and invalidates the lines over what it wrote. The caller
gets a pointer and a size for each section, all zero when a check failed.
-/

set_option autoImplicit false

namespace MokyaLora.DictLoader
open Lib.Fields Lib.Memory Lib.Uncached

def partitionSize : ℕ := 6291456

def mdblMagic : ℕ := 0x4C42444D

def mdblVersion : ℕ := 1

def mdblHeaderSize : ℕ := 0x28

def mie4Magic : ℕ := 0x3445494D

def mie4HeaderSize : ℕ := 0x40

def psramMfid : ℕ := 0x0D

def psramKgd : ℕ := 0x5D

def psramCachedBase : ℕ := 0x11000000

inductive Name where
  | zhDat
  | zhVal
  | enDat
  | enVal
  | v4Blob
  deriving DecidableEq

def mdblNames : List Name := [.zhDat, .zhVal, .enDat, .enVal]

/-- Where a section is copied to, and the room there. -/
def slot : Name → ℕ × ℕ
  | .zhDat => (0x000000, 0x200000)
  | .zhVal => (0x200000, 0x300000)
  | .enDat => (0x500000, 0x010000)
  | .enVal => (0x510000, 0x040000)
  | .v4Blob => (0x000000, 0x200000+0x300000)

/-- An address, or an offset in the partition, and a size. -/
structure Section where
  ptr : ℕ
  size : ℕ
  deriving DecidableEq

def absent : Section := ⟨0, 0⟩

abbrev Pointers := Name → Section

def cleared : Pointers := fun _ => absent

inductive Status where
  | none
  | ok
  | errMagic
  | errVersion
  | errGeometry
  | errNoPsram
  deriving DecidableEq

inductive Format where
  | none
  | mie4
  | mdblDeprecated
  deriving DecidableEq

structure State where
  psram : Cached
  status : Status
  format : Format

structure Copy where
  src : ℕ
  dst : ℕ
  size : ℕ
  deriving DecidableEq

structure Outcome where
  returned : Bool
  out : Pointers
  copies : List Copy
  state : State

def fail (s : State) (status : Status) : Outcome := ⟨false, cleared, [], { s with status := status }⟩

def lineAlign (size : ℕ) : ℕ := (size+7)/8*8

def Copy.block (flash : Bytes) (c : Copy) : Block := ⟨c.dst, slice flash c.src c.size⟩

def Copy.range (c : Copy) : ℕ × ℕ := (c.dst, lineAlign c.size)

def copySections (flash : Bytes) (psram : Cached) (copies : List Copy) : Cached :=
  transfer psram (copies.map (Copy.block flash)) (copies.map Copy.range)

def succeed (flash : Bytes) (s : State) (out : Pointers) (copies : List Copy) : Outcome :=
  ⟨true, out, copies, { s with psram := copySections flash s.psram copies, status := .ok }⟩

def v4Source (flash : Bytes) : Pointers
  | .v4Blob => ⟨0, load32 flash 0x20⟩
  | .enDat => ⟨load32 flash 0x30, load32 flash 0x34⟩
  | .enVal => ⟨load32 flash 0x38, load32 flash 0x3C⟩
  | _ => absent

def mdblSource (flash : Bytes) : Pointers
  | .zhDat => ⟨load32 flash 0x08, load32 flash 0x0C⟩
  | .zhVal => ⟨load32 flash 0x10, load32 flash 0x14⟩
  | .enDat => ⟨load32 flash 0x18, load32 flash 0x1C⟩
  | .enVal => ⟨load32 flash 0x20, load32 flash 0x24⟩
  | .v4Blob => absent

/-- Pointers into the copied blob; English sections only where there are some. -/
def v4Pointers (flash : Bytes) : Pointers
  | .v4Blob => ⟨psramCachedBase+(slot .v4Blob).1, (v4Source flash .v4Blob).size⟩
  | .enDat => if (v4Source flash .enDat).size ≠ 0 then
      ⟨psramCachedBase+(slot .v4Blob).1+(v4Source flash .enDat).ptr, (v4Source flash .enDat).size⟩
    else absent
  | .enVal => if (v4Source flash .enVal).size ≠ 0 then
      ⟨psramCachedBase+(slot .v4Blob).1+(v4Source flash .enVal).ptr, (v4Source flash .enVal).size⟩
    else absent
  | _ => absent

def mdblPointers (flash : Bytes) : Pointers
  | .v4Blob => absent
  | n => ⟨psramCachedBase+(slot n).1, (mdblSource flash n).size⟩

/-- A section that is there and does not end inside the blob. -/
def leaves (totalSize : ℕ) (x : Section) : Bool := x.size ≠ 0 && x.ptr+x.size > totalSize

def loadV4 (flash : Bytes) (s : State) : Outcome :=
  let totalSize := (v4Source flash .v4Blob).size
  if totalSize < mie4HeaderSize ∨ totalSize > partitionSize ∨ totalSize > (slot .v4Blob).2 then
    fail s .errGeometry
  else if leaves totalSize (v4Source flash .enDat) || leaves totalSize (v4Source flash .enVal) then
    fail s .errGeometry
  else succeed flash s (v4Pointers flash) [⟨0, (slot .v4Blob).1, totalSize⟩]

/-- `CHECK_RANGE`, negated. -/
def badRange (x : Section) : Bool :=
  x.size ≠ 0 && (x.ptr < mdblHeaderSize || x.ptr+x.size > partitionSize)

def mdblCopies (flash : Bytes) : List Copy :=
  (mdblNames.filter (fun n => (mdblSource flash n).size ≠ 0)).map (fun n =>
    ⟨(mdblSource flash n).ptr, (slot n).1, (mdblSource flash n).size⟩)

def loadMdbl (flash : Bytes) (s : State) : Outcome :=
  if mdblNames.any (fun n => badRange (mdblSource flash n)) then fail s .errGeometry
  else if mdblNames.any (fun n => (mdblSource flash n).size > (slot n).2) then fail s .errGeometry
  else succeed flash s (mdblPointers flash) (mdblCopies flash)

def loadToPsram (flash : Bytes) (readId : ℕ × ℕ) (s : State) : Outcome :=
  if readId.1 ≠ psramMfid ∨ readId.2 ≠ psramKgd then fail s .errNoPsram
  else if load32 flash 0 = mie4Magic then loadV4 flash { s with format := .mie4 }
  else if load32 flash 0 ≠ mdblMagic then fail s .errMagic
  else if load16 flash 4 ≠ mdblVersion then fail { s with format := .mdblDeprecated } .errVersion
  else loadMdbl flash { s with format := .mdblDeprecated }

def source (flash : Bytes) : Pointers :=
  if load32 flash 0 = mie4Magic then v4Source flash else mdblSource flash

def slots (flash : Bytes) : List (ℕ × ℕ) :=
  if load32 flash 0 = mie4Magic then [slot .v4Blob] else mdblNames.map slot

def view (psram : Cached) (x : Section) : Bytes := shown psram (x.ptr-psramCachedBase) x.size

def Copy.Apart (c d : Copy) : Prop := c.dst+c.size ≤ d.dst ∨ d.dst+d.size ≤ c.dst

/-- The copies lie in the partition and within their slots, apart from each other. Every
section is exposed inside a copy, with the size and the bytes that the header declares. -/
structure Loaded (flash : Bytes) (o : Outcome) : Prop where
  inside : ∀ c ∈ o.copies, c.src+c.size ≤ partitionSize
  budget : ∀ c ∈ o.copies, ∃ room, (c.dst, room) ∈ slots flash ∧ c.size ≤ room
  apart : o.copies.Pairwise Copy.Apart
  exposed : ∀ n, (o.out n).size ≠ 0 → ∃ c ∈ o.copies, psramCachedBase+c.dst ≤ (o.out n).ptr ∧
    (o.out n).ptr+(o.out n).size ≤ psramCachedBase+c.dst+c.size
  size : ∀ n, (o.out n).size = (source flash n).size
  same : ∀ n, view o.state.psram (o.out n) = slice flash (source flash n).ptr (source flash n).size

theorem slice_length {b : Bytes} {off len : ℕ} (h : off+len ≤ b.length) :
    (slice b off len).length = len := by
  rw [slice, List.length_take, List.length_drop, Nat.min_eq_left (by omega)]

theorem slice_slice (b : Bytes) (off len k n : ℕ) (h : k+n ≤ len) :
    slice (slice b off len) k n = slice b (off+k) n := by
  rw [slice, slice, slice, List.drop_take, List.take_take, List.drop_drop, Nat.min_eq_left (by omega)]

theorem copy_shown {flash : Bytes} {copies : List Copy}
    (hinside : ∀ c ∈ copies, c.src+c.size ≤ flash.length) (hapart : copies.Pairwise Copy.Apart)
    (psram : Cached) {c : Copy} (hc : c ∈ copies) (k n : ℕ) (hkn : k+n ≤ c.size) :
    shown (copySections flash psram copies) (c.dst+k) n = slice flash (c.src+k) n := by
  have hblocks : (copies.map (Copy.block flash)).Pairwise Apart := by
    rw [List.pairwise_map]
    apply hapart.imp_of_mem
    intro c d hc hd h
    rwa [Apart, Copy.block, Copy.block, slice_length (hinside c hc), slice_length (hinside d hd)]
  have hlen : (Copy.block flash c).bytes.length = c.size := slice_length (hinside c hc)
  have hcover : c.dst+c.size ≤ c.dst+lineAlign c.size := by
    rw [lineAlign]
    omega
  have hshown := transfer_shown psram hblocks (List.mem_map_of_mem hc) (r := Copy.range c)
    (List.mem_map_of_mem hc) (Nat.le_refl _) (by rw [hlen]; exact hcover) k n (by rw [hlen]; exact hkn)
  rw [copySections]
  exact hshown.trans (slice_slice flash c.src c.size k n hkn)

theorem part_shown {flash : Bytes} {copies : List Copy}
    (hinside : ∀ c ∈ copies, c.src+c.size ≤ flash.length) (hapart : copies.Pairwise Copy.Apart)
    (psram : Cached) {c : Copy} (hc : c ∈ copies) (k n : ℕ) (hkn : k+n ≤ c.size) :
    (∃ d ∈ copies, psramCachedBase+d.dst ≤ psramCachedBase+c.dst+k ∧
      psramCachedBase+c.dst+k+n ≤ psramCachedBase+d.dst+d.size) ∧
    view (copySections flash psram copies) ⟨psramCachedBase+c.dst+k, n⟩ = slice flash (c.src+k) n := by
  refine ⟨⟨c, hc, by omega, by omega⟩, ?_⟩
  rw [← copy_shown hinside hapart psram hc k n hkn, view]
  dsimp only
  rw [Nat.add_assoc, Nat.add_sub_cancel_left]

theorem absent_view (flash : Bytes) (psram : Cached) (p q : ℕ) :
    view psram ⟨p, 0⟩ = slice flash q 0 := by
  rw [slice, List.take_zero]
  rfl

theorem v4_pointer (flash : Bytes) (n : Name) (h : (v4Source flash n).size ≠ 0) :
    v4Pointers flash n =
      ⟨psramCachedBase+(slot .v4Blob).1+(v4Source flash n).ptr, (v4Source flash n).size⟩ := by
  cases n with
  | zhDat => exact absurd rfl h
  | zhVal => exact absurd rfl h
  | enDat => exact if_pos h
  | enVal => exact if_pos h
  | v4Blob => rfl

theorem v4_size (flash : Bytes) (n : Name) : (v4Pointers flash n).size = (v4Source flash n).size := by
  by_cases h : (v4Source flash n).size = 0
  · rw [h]
    cases n with
    | zhDat => rfl
    | zhVal => rfl
    | enDat => rw [v4Pointers, if_neg (fun hne => hne h), absent]
    | enVal => rw [v4Pointers, if_neg (fun hne => hne h), absent]
    | v4Blob => exact h
  · rw [v4_pointer flash n h]

/-- What the checks of the newer format make sure of. -/
structure V4Checked (flash : Bytes) : Prop where
  fits : (v4Source flash .v4Blob).size ≤ partitionSize
  room : (v4Source flash .v4Blob).size ≤ (slot .v4Blob).2
  inside : ∀ n, (v4Source flash n).size ≠ 0 →
    (v4Source flash n).ptr+(v4Source flash n).size ≤ (v4Source flash .v4Blob).size

theorem v4_checked (flash : Bytes) (s : State) :
    loadV4 flash s = fail s .errGeometry ∨ V4Checked flash ∧ loadV4 flash s =
      succeed flash s (v4Pointers flash) [⟨0, (slot .v4Blob).1, (v4Source flash .v4Blob).size⟩] := by
  rw [loadV4]
  split_ifs with hsize hleaves
  · exact .inl rfl
  · exact .inl rfl
  · simp only [leaves, Bool.or_eq_true, Bool.and_eq_true, decide_eq_true_eq, not_or, not_and,
      Nat.not_lt] at hsize hleaves
    refine .inr ⟨⟨hsize.2.1, hsize.2.2, fun n hn => ?_⟩, rfl⟩
    cases n with
    | zhDat => exact absurd rfl hn
    | zhVal => exact absurd rfl hn
    | enDat => exact hleaves.1 hn
    | enVal => exact hleaves.2 hn
    | v4Blob => exact Nat.le_of_eq (Nat.zero_add _)

theorem loaded_v4 {flash : Bytes} (hflash : flash.length = partitionSize)
    (hmagic : load32 flash 0 = mie4Magic) (s : State) (hc : V4Checked flash) :
    Loaded flash (succeed flash s (v4Pointers flash)
      [⟨0, (slot .v4Blob).1, (v4Source flash .v4Blob).size⟩]) := by
  have hsource : source flash = v4Source flash := if_pos hmagic
  have hslots : slots flash = [slot .v4Blob] := if_pos hmagic
  have hinside : ∀ c ∈ [Copy.mk 0 (slot .v4Blob).1 (v4Source flash .v4Blob).size],
      c.src+c.size ≤ partitionSize := by
    intro c hmem
    rw [List.mem_singleton.mp hmem, Nat.zero_add]
    exact hc.fits
  have hpart := fun n hn => part_shown (hflash ▸ hinside) (List.pairwise_singleton _ _) s.psram
    (List.mem_singleton_self _) (v4Source flash n).ptr (v4Source flash n).size (hc.inside n hn)
  constructor
  · exact hinside
  · intro c hmem
    rw [List.mem_singleton.mp hmem, hslots]
    exact ⟨_, List.mem_singleton_self _, hc.room⟩
  · exact List.pairwise_singleton _ _
  · intro n hn
    have hne : (v4Source flash n).size ≠ 0 := fun h => hn ((v4_size flash n).trans h)
    show ∃ c ∈ _, _ ≤ (v4Pointers flash n).ptr ∧ (v4Pointers flash n).ptr+(v4Pointers flash n).size ≤ _
    rw [v4_pointer flash n hne]
    exact (hpart n hne).1
  · intro n
    rw [hsource]
    exact v4_size flash n
  · intro n
    rw [hsource]
    by_cases hn : (v4Source flash n).size = 0
    · have hzero : (v4Pointers flash n).size = 0 := (v4_size flash n).trans hn
      show view _ ⟨(v4Pointers flash n).ptr, (v4Pointers flash n).size⟩ = _
      rw [hzero, hn]
      exact absent_view flash _ _ _
    · show view _ (v4Pointers flash n) = _
      rw [v4_pointer flash n hn]
      have hsame := (hpart n hn).2
      rwa [Nat.zero_add] at hsame

structure MdblChecked (flash : Bytes) : Prop where
  inside : ∀ n, (mdblSource flash n).size ≠ 0 →
    (mdblSource flash n).ptr+(mdblSource flash n).size ≤ partitionSize
  room : ∀ n ∈ mdblNames, (mdblSource flash n).size ≤ (slot n).2

theorem mem_mdbl (flash : Bytes) (n : Name) (h : (mdblSource flash n).size ≠ 0) : n ∈ mdblNames := by
  cases n with
  | v4Blob => exact absurd rfl h
  | _ => decide

theorem mdbl_checked (flash : Bytes) (s : State) :
    loadMdbl flash s = fail s .errGeometry ∨ MdblChecked flash ∧
      loadMdbl flash s = succeed flash s (mdblPointers flash) (mdblCopies flash) := by
  rw [loadMdbl]
  split_ifs with hrange hroom
  · exact .inl rfl
  · exact .inl rfl
  · simp only [List.any_eq_true, not_exists, not_and, badRange, Bool.and_eq_true, Bool.or_eq_true,
      decide_eq_true_eq, not_or, Nat.not_lt] at hrange hroom
    exact .inr ⟨⟨fun n hn => (hrange n (mem_mdbl flash n hn) hn).2, fun n hn => hroom n hn⟩, rfl⟩

theorem mem_copies (flash : Bytes) (c : Copy) : c ∈ mdblCopies flash ↔ ∃ n ∈ mdblNames,
    (mdblSource flash n).size ≠ 0 ∧
      c = ⟨(mdblSource flash n).ptr, (slot n).1, (mdblSource flash n).size⟩ := by
  rw [mdblCopies, List.mem_map]
  constructor
  · rintro ⟨n, hn, rfl⟩
    obtain ⟨hmem, hne⟩ := List.mem_filter.mp hn
    exact ⟨n, hmem, by simpa using hne, rfl⟩
  · rintro ⟨n, hmem, hne, rfl⟩
    exact ⟨n, List.mem_filter.mpr ⟨hmem, by simpa using hne⟩, rfl⟩

theorem slots_follow : mdblNames.Pairwise (fun m n => (slot m).1+(slot m).2 ≤ (slot n).1) := by
  decide

theorem copies_apart {flash : Bytes} (hc : MdblChecked flash) :
    (mdblCopies flash).Pairwise Copy.Apart := by
  rw [mdblCopies, List.pairwise_map]
  apply (slots_follow.sublist List.filter_sublist).imp_of_mem
  intro m n hm _ h
  have hroom := hc.room m (List.mem_filter.mp hm).1
  left
  show (slot m).1+(mdblSource flash m).size ≤ (slot n).1
  omega

theorem loaded_mdbl {flash : Bytes} (hflash : flash.length = partitionSize)
    (hmagic : load32 flash 0 ≠ mie4Magic) (s : State) (hc : MdblChecked flash) :
    Loaded flash (succeed flash s (mdblPointers flash) (mdblCopies flash)) := by
  have hsource : source flash = mdblSource flash := if_neg hmagic
  have hslots : slots flash = mdblNames.map slot := if_neg hmagic
  have hinside : ∀ c ∈ mdblCopies flash, c.src+c.size ≤ partitionSize := by
    intro c hmem
    obtain ⟨n, -, hn, rfl⟩ := (mem_copies flash c).mp hmem
    exact hc.inside n hn
  have hpointer : ∀ n, (mdblSource flash n).size ≠ 0 →
      mdblPointers flash n = ⟨psramCachedBase+(slot n).1+0, (mdblSource flash n).size⟩ := by
    intro n hn
    cases n with
    | v4Blob => exact absurd rfl hn
    | _ => rfl
  have hsize : ∀ n, (mdblPointers flash n).size = (mdblSource flash n).size := by
    intro n
    cases n <;> rfl
  have hpart := fun n hn => part_shown (hflash ▸ hinside) (copies_apart hc) s.psram
    ((mem_copies flash _).mpr ⟨n, mem_mdbl flash n hn, hn, rfl⟩) 0 (mdblSource flash n).size
    (Nat.le_of_eq (Nat.zero_add _))
  constructor
  · exact hinside
  · intro c hmem
    obtain ⟨n, hn, -, rfl⟩ := (mem_copies flash c).mp hmem
    rw [hslots]
    exact ⟨(slot n).2, List.mem_map_of_mem hn, hc.room n hn⟩
  · exact copies_apart hc
  · intro n hn
    have hne : (mdblSource flash n).size ≠ 0 := fun h => hn ((hsize n).trans h)
    show ∃ c ∈ _, _ ≤ (mdblPointers flash n).ptr ∧
      (mdblPointers flash n).ptr+(mdblPointers flash n).size ≤ _
    rw [hpointer n hne]
    exact (hpart n hne).1
  · intro n
    rw [hsource]
    exact hsize n
  · intro n
    rw [hsource]
    by_cases hn : (mdblSource flash n).size = 0
    · have hzero : (mdblPointers flash n).size = 0 := (hsize n).trans hn
      show view _ ⟨(mdblPointers flash n).ptr, (mdblPointers flash n).size⟩ = _
      rw [hzero, hn]
      exact absent_view flash _ _ _
    · show view _ (mdblPointers flash n) = _
      rw [hpointer n hn]
      exact (hpart n hn).2

/-- A load that returns true has done what it should, and one that returns false has cleared
the pointers. -/
theorem load_loaded {flash : Bytes} (hflash : flash.length = partitionSize) (readId : ℕ × ℕ)
    (s : State) : ((loadToPsram flash readId s).returned = true →
      Loaded flash (loadToPsram flash readId s)) ∧
    ((loadToPsram flash readId s).returned = false →
      (loadToPsram flash readId s).out = cleared) := by
  have hfail : ∀ (s : State) (status : Status), ((fail s status).returned = true →
      Loaded flash (fail s status)) ∧ ((fail s status).returned = false →
        (fail s status).out = cleared) :=
    fun _ _ => ⟨fun h => absurd h Bool.false_ne_true, fun _ => rfl⟩
  rw [loadToPsram]
  split_ifs with hid hmagic hmdbl hversion
  · exact hfail _ _
  · rcases v4_checked flash { s with format := .mie4 } with h | ⟨hc, h⟩
    · rw [h]
      exact hfail _ _
    · rw [h]
      exact ⟨fun _ => loaded_v4 hflash hmagic _ hc, fun h => absurd h.symm Bool.false_ne_true⟩
  · exact hfail _ _
  · exact hfail _ _
  · rcases mdbl_checked flash { s with format := .mdblDeprecated } with h | ⟨hc, h⟩
    · rw [h]
      exact hfail _ _
    · rw [h]
      exact ⟨fun _ => loaded_mdbl hflash hmagic _ hc, fun h => absurd h.symm Bool.false_ne_true⟩

end MokyaLora.DictLoader
