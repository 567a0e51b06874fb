import MokyaLora.Lib.Bisect
import MokyaLora.Lib.Fields

/-!
# Font blobs and the glyph index

A blob (`mie_font.c`) is a header, an index of eight-byte entries sorted by codepoint and the
glyph data. The size of the index is a 32-bit product, and so is the offset at which the
search reads an entry. A read outside the blob has no value here.
-/

set_option autoImplicit false

namespace MokyaLora.MieFont
open Lib.Fields Lib.Bisect

def headerSize : ℕ := 12

def indexStride : ℕ := 8

def u32 (n : ℕ) : ℕ := n % 4294967296

/-- `mief_blob_t`; the pointers are offsets into the blob. -/
structure Blob where
  index : ℕ
  glyphData : ℕ
  numGlyphs : ℕ
  pxHeight : ℕ
  bpp : ℕ
  deriving DecidableEq

def parseBlob (b : Bytes) : Option Blob :=
  if b.length < headerSize then none
  else if slice b 0 4 ≠ [0x4D, 0x49, 0x45, 0x46] then none
  else if byteAt b 4 ≠ 1 then none
  else if byteAt b 5 ≠ 16 then none
  else if byteAt b 6 ≠ 1 then none
  else if byteAt b 7 % 2 ≠ 0 then none
  else
    let numGlyphs := load32 b 8
    let indexBytes := u32 (numGlyphs*indexStride)
    if headerSize+indexBytes > b.length then none
    else some ⟨headerSize, headerSize+indexBytes, numGlyphs, byteAt b 5, byteAt b 6⟩

def findLoop (b : Bytes) (blob : Blob) (cp : ℕ) : ℕ → ℕ → ℕ → Option ℕ
  | 0, _, _ => some 4294967295
  | n+1, lo, hi =>
    if lo < hi then
      let mid := lo+(hi-lo)/2
      let e := blob.index+u32 (mid*indexStride)
      (read32 b e).bind (fun cpMid =>
        if cpMid = cp then read32 b (e+4)
        else if cpMid < cp then findLoop b blob cp n (mid+1) hi
        else findLoop b blob cp n lo mid)
    else some 4294967295

def findOffset (b : Bytes) (blob : Blob) (cp : UInt32) : Option ℕ :=
  findLoop b blob cp.toNat blob.numGlyphs 0 blob.numGlyphs

def entryAt (blob : Blob) (i : ℕ) : ℕ := blob.index+u32 (i*indexStride)

theorem find_search (b : Bytes) (blob : Blob) (cp n lo hi : ℕ) :
    findLoop b blob cp n lo hi =
      (search (fun i => read32 b (entryAt blob i)) (fun i => read32 b (entryAt blob i+4)) cp
        n lo hi).map (fun r => r.getD 4294967295) := by
  induction n generalizing lo hi with
  | zero => rfl
  | succ n ih =>
    rw [findLoop, search]
    split_ifs with hlt
    · show (read32 b (entryAt blob (middle lo hi))).bind _ = _
      cases read32 b (entryAt blob (middle lo hi)) with
      | none => rfl
      | some c =>
        rw [Option.bind_some, Option.bind_some]
        split_ifs
        · show read32 b (entryAt blob (middle lo hi)+4) = _
          cases read32 b (entryAt blob (middle lo hi)+4) <;> rfl
        · exact ih _ _
        · exact ih _ _
    · rfl

/-- What an accepted blob is. -/
structure Accepted (b : Bytes) (blob : Blob) : Prop where
  index : blob.index = 12
  numGlyphs : blob.numGlyphs = load32 b 8
  glyphData : blob.glyphData = 12+u32 (blob.numGlyphs*8)
  fits : 12+u32 (blob.numGlyphs*8) ≤ b.length

theorem parse_accepted {b : Bytes} {blob : Blob} (h : parseBlob b = some blob) :
    Accepted b blob := by
  simp only [parseBlob] at h
  split_ifs at h with hlen hmagic hver hpx hbpp hrle hfits
  rw [Option.some.injEq] at h
  rw [← h]
  exact ⟨rfl, rfl, rfl, Nat.le_of_not_lt hfits⟩

theorem index_inside {b : Bytes} {blob : Blob} (h : Accepted b blob)
    (hn : blob.numGlyphs < 536870912) :
    12+blob.numGlyphs*8 ≤ b.length ∧ ∀ cp : UInt32, (findOffset b blob cp).isSome := by
  have hfits := h.fits
  rw [u32, Nat.mod_eq_of_lt (by omega)] at hfits
  refine ⟨hfits, fun cp => ?_⟩
  rw [findOffset, find_search, Option.isSome_map]
  apply search_isSome
  intro i _ hi
  have hentry : entryAt blob i = 12+i*8 := by
    rw [entryAt, u32, indexStride, h.index, Nat.mod_eq_of_lt (by omega)]
  rw [hentry, read32_isSome, read32_isSome]
  omega

/-- With so many glyphs the search for a codepoint that the blob does not contain reads
entries whose offsets are too far apart to be both inside. -/
theorem search_leaves {b : Bytes} {blob : Blob} (h : Accepted b blob)
    (hsize : b.length ≤ 1073741824) (hn : 536870912 ≤ blob.numGlyphs) :
    ∃ cp : UInt32, findOffset b blob cp = none := by
  obtain ⟨k, hk, hmiss⟩ := exists_missing ((List.range b.length).map (load32 b)) 4294967296
    (by rw [List.length_map, List.length_range]; omega)
  have hne : ∀ i c, read32 b (entryAt blob i) = some c → c ≠ k := by
    intro i c hc heq
    have hin := (read32_isSome b (entryAt blob i)).mp (by rw [hc]; rfl)
    rw [read32, if_pos hin, Option.some.injEq] at hc
    exact hmiss (List.mem_map.mpr
      ⟨entryAt blob i, List.mem_range.mpr (by omega), hc.trans heq⟩)
  refine ⟨UInt32.ofNat k, Option.not_isSome_iff_eq_none.mp (fun hsome => ?_)⟩
  rw [findOffset, find_search, Option.isSome_map, UInt32.toNat_ofNat', Nat.mod_eq_of_lt hk] at hsome
  obtain ⟨i, j, hi, hj, hij, hji⟩ := far_probes _ _ k 134217728 blob.numGlyphs 0
    blob.numGlyphs (by omega) (by omega) (by omega) hne hsome
  rw [read32_isSome, entryAt, u32, indexStride, h.index] at hi hj
  omega

/-- The index of an accepted blob and every search in it stay inside the blob exactly when
eight times the number of glyphs does not wrap. In a blob of at most a gibibyte the searches
alone stay inside exactly then. -/
theorem lookup_inside_iff (b : Bytes) (hsize : b.length < 4294967296) (blob : Blob)
    (h : parseBlob b = some blob) :
    ((12+blob.numGlyphs*8 ≤ b.length ∧ ∀ cp : UInt32, (findOffset b blob cp).isSome) ↔
      blob.numGlyphs < 536870912) ∧
    (b.length ≤ 1073741824 →
      ((∀ cp : UInt32, (findOffset b blob cp).isSome) ↔ blob.numGlyphs < 536870912)) := by
  have haccepted := parse_accepted h
  refine ⟨⟨fun hin => by omega, index_inside haccepted⟩, fun hsmall => ⟨fun hin => ?_, fun hn => ?_⟩⟩
  · by_contra hn
    obtain ⟨cp, hnone⟩ := search_leaves haccepted hsmall (by omega)
    have := hin cp
    rw [hnone] at this
    cases this
  · exact (index_inside haccepted hn).2

def hollowBlob : Bytes := [0x4D, 0x49, 0x45, 0x46, 1, 16, 1, 0, 0, 0, 0, 0x20]

theorem hollow_parses : parseBlob hollowBlob = some ⟨12, 12, 536870912, 16, 1⟩ := by decide

theorem hollow_lookup_leaves : ∃ blob, parseBlob hollowBlob = some blob ∧
    ∃ cp : UInt32, findOffset hollowBlob blob cp = none :=
  ⟨_, hollow_parses, 65, by decide⟩

def oneGlyph : Bytes :=
  [0x4D, 0x49, 0x45, 0x46, 1, 16, 1, 0, 1, 0, 0, 0, 65, 0, 0, 0, 0, 0, 0, 0, 8, 0, 0, 0, 0]

theorem lookup_inside_one :
    ((12+1*8 ≤ oneGlyph.length ∧ ∀ cp : UInt32, (findOffset oneGlyph ⟨12, 20, 1, 16, 1⟩ cp).isSome) ↔
      1 < 536870912) ∧
    (oneGlyph.length ≤ 1073741824 →
      ((∀ cp : UInt32, (findOffset oneGlyph ⟨12, 20, 1, 16, 1⟩ cp).isSome) ↔ 1 < 536870912)) :=
  lookup_inside_iff oneGlyph (by decide) ⟨12, 20, 1, 16, 1⟩ (by decide)

end MokyaLora.MieFont
