import Mathlib.Data.Nat.Basic
import Mathlib.Data.List.Basic
import Mathlib.Tactic.Common

/-!
# Little-endian fields at offsets of a byte string

`At b off l` says that `l` stands in `b` at offset `off`. A record laid out field
by field is found field by field, and loading a field gives back the number that
was stored, provided it fits its width.
-/

set_option autoImplicit false

namespace Lib.Fields

abbrev Bytes := List UInt8

def le16 (n : ℕ) : Bytes := [UInt8.ofNat n, UInt8.ofNat (n/256)]

def le32 (n : ℕ) : Bytes := le16 n++le16 (n/65536)

def le64 (n : ℕ) : Bytes := le32 n++le32 (n/4294967296)

def byteAt (b : Bytes) (i : ℕ) : ℕ := (b.getD i 0).toNat

def load16 (b : Bytes) (i : ℕ) : ℕ := byteAt b i+256*byteAt b (i+1)

def load32 (b : Bytes) (i : ℕ) : ℕ := load16 b i+65536*load16 b (i+2)

def load64 (b : Bytes) (i : ℕ) : ℕ := load32 b i+4294967296*load32 b (i+4)

def slice (b : Bytes) (off len : ℕ) : Bytes := (b.drop off).take len

theorem byte_forall {P : UInt8 → Prop} (h : ∀ n < 256, P (UInt8.ofNat n)) (b : UInt8) : P b := by
  simpa using h b.toNat b.toNat_lt

theorem slice_length_le (b : Bytes) (off len : ℕ) : (slice b off len).length ≤ len :=
  List.length_take_le _ _

def At (b : Bytes) (off : ℕ) (l : Bytes) : Prop := l <+: b.drop off

@[simp] theorem le16_length (n : ℕ) : (le16 n).length = 2 := rfl

@[simp] theorem le32_length (n : ℕ) : (le32 n).length = 4 := rfl

@[simp] theorem le64_length (n : ℕ) : (le64 n).length = 8 := rfl

theorem at_nil (b : Bytes) (off : ℕ) : At b off [] := List.nil_prefix

theorem at_zero (b : Bytes) : At b 0 b := List.prefix_rfl

theorem at_append (b l m : Bytes) (off : ℕ) :
    At b off (l++m) ↔ At b off l ∧ At b (off+l.length) m := by
  unfold At
  constructor
  · rintro ⟨rest, h⟩
    refine ⟨⟨m++rest, by rw [← h, List.append_assoc]⟩, ⟨rest, ?_⟩⟩
    rw [← List.drop_drop, ← h, List.append_assoc, List.drop_left]
  · rintro ⟨⟨rest, h⟩, ⟨tail, ht⟩⟩
    refine ⟨tail, ?_⟩
    rw [← List.drop_drop, ← h, List.drop_left] at ht
    rw [← h, ← ht, List.append_assoc]

theorem at_cons (b l : Bytes) (x : UInt8) (off : ℕ) :
    At b off (x::l) ↔ At b off [x] ∧ At b (off+1) l :=
  at_append b [x] l off

theorem At.fits {b l : Bytes} {off : ℕ} (h : At b off l) (hl : l ≠ []) :
    off+l.length ≤ b.length := by
  have hlen := h.length_le
  have : 0 < l.length := List.length_pos_iff.mpr hl
  simp only [List.length_drop] at hlen
  omega

theorem At.slice_eq {b l : Bytes} {off : ℕ} (h : At b off l) : slice b off l.length = l := by
  obtain ⟨rest, h⟩ := h
  rw [slice, ← h, List.take_left]

theorem At.byte {b : Bytes} {off : ℕ} {x : UInt8} (h : At b off [x]) :
    byteAt b off = x.toNat := by
  obtain ⟨rest, h⟩ := h
  have hg : b[off]? = some x := by
    rw [← List.head?_drop, ← h]
    rfl
  simp [byteAt, List.getD_eq_getElem?_getD, hg]

theorem At.trans {b l m : Bytes} {off i : ℕ} (h : At b off l) (hi : At l i m)
    (hm : m ≠ []) : At b (off+i) m := by
  obtain ⟨rest, h⟩ := h
  obtain ⟨tail, ht⟩ := hi
  have hil : i ≤ l.length := by
    have := (At.fits ⟨tail, ht⟩ hm : i+m.length ≤ l.length)
    omega
  refine ⟨tail++rest, ?_⟩
  rw [← List.drop_drop, ← h, List.drop_append_of_le_length hil, ← ht, List.append_assoc]

theorem At.append_right {b l : Bytes} {off : ℕ} (h : At b off l) (m : Bytes)
    (hl : l ≠ []) : At (b++m) off l := by
  have := h.fits hl
  unfold At at *
  rw [List.drop_append_of_le_length (by omega)]
  exact h.trans (List.prefix_append _ _)

theorem at_append_left (b m l : Bytes) (off : ℕ) (h : At m off l) : At (b++m) (b.length+off) l := by
  unfold At at *
  rw [← List.drop_drop, List.drop_left]
  exact h

theorem at_flatten (b : Bytes) (ls : List Bytes) (off : ℕ) (h : At b off ls.flatten)
    (i : ℕ) (hi : i < ls.length) : At b (off+(ls.take i).flatten.length) ls[i] := by
  have hs : ls.flatten = (ls.take i).flatten++(ls[i]++(ls.drop (i+1)).flatten) := by
    rw [← List.flatten_cons, ← List.drop_eq_getElem_cons hi, ← List.flatten_append,
      List.take_append_drop]
  rw [hs, at_append, at_append] at h
  exact h.2.1

theorem load16_at {b : Bytes} {off n : ℕ} (hn : n < 65536) (h : At b off (le16 n)) :
    load16 b off = n := by
  rw [le16, at_cons] at h
  simp only [load16, h.1.byte, h.2.byte, UInt8.toNat_ofNat']
  omega

theorem load32_at {b : Bytes} {off n : ℕ} (hn : n < 4294967296) (h : At b off (le32 n)) :
    load32 b off = n := by
  simp only [le32, le16, List.cons_append, List.nil_append] at h
  obtain ⟨h0, h⟩ := (at_cons _ _ _ _).mp h
  obtain ⟨h1, h⟩ := (at_cons _ _ _ _).mp h
  obtain ⟨h2, h3⟩ := (at_cons _ _ _ _).mp h
  simp only [load32, load16, h0.byte, h1.byte, h2.byte, h3.byte, UInt8.toNat_ofNat']
  omega

theorem at_slice (b : Bytes) (off n : ℕ) : At b off (slice b off n) := List.take_prefix _ _

theorem at_get (b : Bytes) (off : ℕ) (h : off < b.length) : At b off [b.getD off 0] := by
  rw [At, List.drop_eq_getElem_cons h, List.getD_eq_getElem?_getD, List.getElem?_eq_getElem h,
    Option.getD_some]
  exact List.prefix_append [b[off]] _

theorem byteAt_lt (b : Bytes) (i : ℕ) : byteAt b i < 256 := (b.getD i 0).toNat_lt

theorem load16_lt (b : Bytes) (i : ℕ) : load16 b i < 65536 := by
  have := byteAt_lt b i
  have := byteAt_lt b (i+1)
  rw [load16]
  omega

theorem load32_lt (b : Bytes) (i : ℕ) : load32 b i < 4294967296 := by
  have := load16_lt b i
  have := load16_lt b (i+2)
  rw [load32]
  omega

theorem le16_byteAt (b : Bytes) (i n : ℕ) :
    le16 (load16 b i+65536*n) = [b.getD i 0, b.getD (i+1) 0] := by
  have h0 := byteAt_lt b i
  have h1 := byteAt_lt b (i+1)
  simp only [byteAt] at h0 h1
  rw [le16, load16, byteAt, byteAt]
  congr 1
  · rw [← UInt8.toNat_inj, UInt8.toNat_ofNat']
    omega
  · congr 1
    rw [← UInt8.toNat_inj, UInt8.toNat_ofNat']
    omega

theorem at_load16 (b : Bytes) (off : ℕ) (h : off+2 ≤ b.length) : At b off (le16 (load16 b off)) := by
  have hbytes := le16_byteAt b off 0
  rw [Nat.mul_zero, Nat.add_zero] at hbytes
  rw [hbytes, at_cons]
  exact ⟨at_get b off (by omega), at_get b (off+1) (by omega)⟩

theorem at_load32 (b : Bytes) (off : ℕ) (h : off+4 ≤ b.length) : At b off (le32 (load32 b off)) := by
  have hlo : le16 (load32 b off) = le16 (load16 b off) := by
    have hzero := le16_byteAt b off 0
    rw [Nat.mul_zero, Nat.add_zero] at hzero
    rw [load32, le16_byteAt, hzero]
  have hhi : load32 b off/65536 = load16 b (off+2) := by
    have := load16_lt b off
    rw [load32]
    omega
  rw [le32, hlo, hhi, at_append]
  exact ⟨at_load16 b off (by omega), at_load16 b (off+2) (by omega)⟩

theorem load64_at {b : Bytes} {off n : ℕ} (hn : n < 18446744073709551616)
    (h : At b off (le64 n)) : load64 b off = n := by
  rw [le64, at_append] at h
  have hlo : load32 b off = n % 4294967296 := by
    apply load32_at (Nat.mod_lt _ (by decide))
    convert h.1 using 1
    simp only [le32, le16]
    congr 1
    · simp [← UInt8.toNat_inj]; omega
    · simp [← UInt8.toNat_inj]; omega
  have hhi : load32 b (off+4) = n/4294967296 := load32_at (by omega) h.2
  rw [load64, hlo, hhi]
  omega

theorem flatten_const (ls : List Bytes) (w : ℕ) (h : ∀ l ∈ ls, l.length = w) :
    ls.flatten.length = w*ls.length := by
  induction ls with
  | nil => rfl
  | cons l ls ih =>
    rw [List.flatten_cons, List.length_append, h l (by simp), ih (fun m hm => h m (by simp [hm])),
      List.length_cons, Nat.mul_succ, Nat.add_comm]

theorem at_flatMap {α : Type*} (f : α → Bytes) (w : ℕ) (hw : ∀ a, (f a).length = w) (b : Bytes)
    (off n : ℕ) (g : ℕ → α) (h : ∀ i < n, At b (off+i*w) (f (g i))) :
    At b off (((List.range n).map g).flatMap f) := by
  induction n with
  | zero => exact at_nil b off
  | succ n ih =>
    have hlen : (((List.range n).map g).flatMap f).length = n*w := by
      rw [List.flatMap_def, flatten_const _ w, List.length_map, List.length_map, List.length_range,
        Nat.mul_comm]
      intro l hl
      obtain ⟨a, -, rfl⟩ := List.mem_map.mp hl
      exact hw a
    rw [List.range_succ, List.map_append, List.flatMap_append, at_append, hlen]
    refine ⟨ih (fun i hi => h i (Nat.lt_succ_of_lt hi)), ?_⟩
    simpa using h n (Nat.lt_succ_self n)

theorem at_array {α : Type*} (f : α → Bytes) (w : ℕ) (hw : ∀ a, (f a).length = w) {b : Bytes}
    {off : ℕ} {as : List α} (h : At b off (as.flatMap f)) (i : ℕ) (hi : i < as.length) :
    At b (off+w*i) (f as[i]) := by
  rw [List.flatMap_def] at h
  have hat := at_flatten b (as.map f) off h i (by simpa using hi)
  rw [flatten_const ((as.map f).take i) w] at hat
  · simpa [Nat.min_eq_left (Nat.le_of_lt hi)] using hat
  · intro l hl
    obtain ⟨a, -, rfl⟩ := List.mem_map.mp (List.mem_of_mem_take hl)
    exact hw a

theorem byte_at {b : Bytes} {off n : ℕ} (hn : n < 256) (h : At b off [UInt8.ofNat n]) :
    byteAt b off = n := by
  rw [h.byte, UInt8.toNat_ofNat']
  omega

theorem byte_array {b : Bytes} {off : ℕ} {ns : List ℕ} (h : At b off (ns.map UInt8.ofNat))
    (hn : ∀ n ∈ ns, n < 256) (i : ℕ) (hi : i < ns.length) : byteAt b (off+1*i) = ns[i] := by
  rw [List.map_eq_flatMap] at h
  exact byte_at (hn _ (List.getElem_mem hi)) (at_array (fun n => [UInt8.ofNat n]) 1 (by simp) h i hi)

theorem flatMap_le16_length (ns : List ℕ) : (ns.flatMap le16).length = 2*ns.length := by
  rw [List.flatMap_def, flatten_const _ 2 (by simp), List.length_map]

theorem flatMap_le32_length (ns : List ℕ) : (ns.flatMap le32).length = 4*ns.length := by
  rw [List.flatMap_def, flatten_const _ 4 (by simp), List.length_map]

theorem load16_array {b : Bytes} {off : ℕ} {ns : List ℕ} (h : At b off (ns.flatMap le16))
    (hn : ∀ n ∈ ns, n < 65536) (i : ℕ) (hi : i < ns.length) : load16 b (off+2*i) = ns[i] :=
  load16_at (hn _ (List.getElem_mem hi)) (at_array le16 2 le16_length h i hi)

theorem load32_array {b : Bytes} {off : ℕ} {ns : List ℕ} (h : At b off (ns.flatMap le32))
    (hn : ∀ n ∈ ns, n < 4294967296) (i : ℕ) (hi : i < ns.length) : load32 b (off+4*i) = ns[i] :=
  load32_at (hn _ (List.getElem_mem hi)) (at_array le32 4 le32_length h i hi)

theorem load64_array {b : Bytes} {off : ℕ} {ns : List ℕ} (h : At b off (ns.flatMap le64))
    (hn : ∀ n ∈ ns, n < 18446744073709551616) (i : ℕ) (hi : i < ns.length) :
    load64 b (off+8*i) = ns[i] :=
  load64_at (hn _ (List.getElem_mem hi)) (at_array le64 8 le64_length h i hi)

def readByte (b : Bytes) (i : ℕ) : Option ℕ := if i < b.length then some (byteAt b i) else none

def read16 (b : Bytes) (i : ℕ) : Option ℕ := if i+2 ≤ b.length then some (load16 b i) else none

def read32 (b : Bytes) (i : ℕ) : Option ℕ := if i+4 ≤ b.length then some (load32 b i) else none

def readBytes (b : Bytes) (off len : ℕ) : Option Bytes :=
  if off+len ≤ b.length then some (slice b off len) else none

theorem read32_isSome (b : Bytes) (i : ℕ) : (read32 b i).isSome ↔ i+4 ≤ b.length := by
  rw [read32]
  split_ifs with h <;> simpa using h

theorem read32_at {b : Bytes} {off n : ℕ} (hn : n < 4294967296) (h : At b off (le32 n)) :
    read32 b off = some n := by
  have hfits : off+4 ≤ b.length := h.fits (List.cons_ne_nil _ _)
  rw [read32, if_pos hfits, load32_at hn h]

theorem readBytes_at {b l : Bytes} {off : ℕ} (h : At b off l) (hl : l ≠ []) :
    readBytes b off l.length = some l := by
  rw [readBytes, if_pos (h.fits hl), h.slice_eq]

theorem readByte_at {b : Bytes} {off : ℕ} {x : UInt8} (h : At b off [x]) :
    readByte b off = some x.toNat := by
  have hfits : off < b.length := h.fits (List.cons_ne_nil _ _)
  rw [readByte, if_pos hfits, h.byte]

theorem at_getElem? {b l : Bytes} {off : ℕ} (h : At b off l) (i : ℕ) (hi : i < l.length) :
    b[off+i]? = l[i]? := by
  obtain ⟨rest, h⟩ := h
  rw [← List.getElem?_drop, ← h, List.getElem?_append_left hi]

end Lib.Fields
