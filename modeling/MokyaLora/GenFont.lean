import MokyaLora.Lib.Fields
import MokyaLora.Lib.Raster
import MokyaLora.Lib.Sweep

/-!
# The font compiler

A glyph is rendered to grey levels by the rasteriser, cut at half intensity and packed to one
bit per pixel; its record is a descriptor and the packed rows. The blob is the header, the
index and the records (`gen_font.py` without run-length coding). A value that does not fit
its field is an error.
-/

set_option autoImplicit false

namespace MokyaLora.GenFont
open Lib.Fields Lib.Raster Lib.Sweep

/-- What the rasteriser says of a character; `none` is an exception. The grey levels are those
of the image of the bounding box, at column `x` and row `y`. -/
structure PilFont where
  getlength : ℕ → Option ℤ
  getbbox : ℕ → Option (ℤ × ℤ × ℤ × ℤ)
  pixels : ℕ → ℕ → ℕ → ℕ

structure Glyph where
  advW : ℤ
  ofsX : ℤ
  ofsY : ℤ
  boxW : ℕ
  boxH : ℕ
  bitmap : Bytes

def pxSize : ℤ := 16

def descenderPx : ℤ := 3

def setPixel (rowBytes : ℕ) (pixels : ℕ → ℕ → ℕ) (bitmap : Bytes) (p : ℕ × ℕ) : Bytes :=
  if 128 ≤ pixels p.2 p.1 then
    bitmap.modify (p.1*rowBytes+p.2/8) (fun b => b ||| mask p.2)
  else bitmap

def packBits (boxW boxH : ℕ) (pixels : ℕ → ℕ → ℕ) : Bytes :=
  let rowBytes := (boxW+7)/8
  (cells boxW boxH).foldl (setPixel rowBytes pixels) (List.replicate (boxH*rowBytes) 0)

def renderGlyph (font : PilFont) (ch : ℕ) : Glyph :=
  let advW := (font.getlength ch).getD pxSize
  match font.getbbox ch with
  | none => ⟨advW, 0, 0, 0, 0, []⟩
  | some (left, top, right, bottom) =>
    let boxW := right-left
    let boxH := bottom-top
    if boxW ≤ 0 ∨ boxH ≤ 0 then ⟨advW, 0, 0, 0, 0, []⟩
    else ⟨min advW 255, left, pxSize-descenderPx-bottom, boxW.toNat, boxH.toNat,
      packBits boxW.toNat boxH.toNat (font.pixels ch)⟩

def clampInt8 (n : ℤ) : ℤ := max (-128) (min 127 n)

def byteOf (n : ℤ) : UInt8 := UInt8.ofNat (n % 256).toNat

def descriptor (g : Glyph) : Bytes :=
  [byteOf g.advW, UInt8.ofNat g.boxW, UInt8.ofNat g.boxH, byteOf (clampInt8 g.ofsX),
    byteOf (clampInt8 g.ofsY)]

def packDescriptor (g : Glyph) : Option Bytes :=
  if g.boxW < 256 ∧ g.boxH < 256 then some (descriptor g) else none

def addGlyph (font : PilFont) (st : List (ℕ × ℕ) × Bytes) (cp : ℕ) :
    Option (List (ℕ × ℕ) × Bytes) :=
  if 1114112 ≤ cp then some st
  else
    let g := renderGlyph font cp
    (packDescriptor g).map (fun d => (st.1++[(cp, st.2.length)], st.2++d++g.bitmap))

def header (numGlyphs : ℕ) : Bytes := [0x4D, 0x49, 0x45, 0x46, 1, 16, 1, 0]++le32 numGlyphs

def entryBytes (e : ℕ × ℕ) : Bytes := le32 e.1++le32 e.2

def packIndex (index : List (ℕ × ℕ)) (glyphData : Bytes) : Option Bytes :=
  if index.length < 4294967296 ∧ ∀ e ∈ index, e.1 < 4294967296 ∧ e.2 < 4294967296 then
    some (header index.length++(index.flatMap entryBytes++glyphData))
  else none

/-- `build_mief` with `use_rle` false. -/
def buildMief (font : PilFont) (codepoints : List ℕ) : Option Bytes :=
  (codepoints.foldlM (addGlyph font) ([], [])).bind (fun st => packIndex st.1 st.2)

def testBit (rowBytes : ℕ) (bitmap : Bytes) (p : ℕ × ℕ) : Prop :=
  (bitmap.getD (p.1*rowBytes+p.2/8) 0) &&& mask p.2 ≠ 0

theorem modify_getD (f : UInt8 → UInt8) (l : Bytes) (i j : ℕ) (hi : i < l.length) :
    (l.modify i f).getD j 0 = if i = j then f (l.getD j 0) else l.getD j 0 := by
  rw [List.getD_eq_getElem?_getD, List.getD_eq_getElem?_getD, List.getElem?_modify]
  split_ifs with h
  · subst h
    rw [List.getElem?_eq_getElem hi]
    rfl
  · cases l[j]? <;> rfl

theorem set_length (rowBytes : ℕ) (pixels : ℕ → ℕ → ℕ) (bitmap : Bytes) (p : ℕ × ℕ) :
    (setPixel rowBytes pixels bitmap p).length = bitmap.length := by
  rw [setPixel]
  split_ifs
  · exact List.length_modify ..
  · rfl

theorem pixel_room {w h : ℕ} {p : ℕ × ℕ} (hp : p ∈ cells w h) :
    p.2/8 < (w+7)/8 ∧ p.1*((w+7)/8)+p.2/8 < h*((w+7)/8) := by
  obtain ⟨hy, hx⟩ := (mem_cells w h p).mp hp
  have hcol : p.2/8 < (w+7)/8 := by omega
  have hrow : (p.1+1)*((w+7)/8) ≤ h*((w+7)/8) := Nat.mul_le_mul_right _ hy
  rw [Nat.succ_mul] at hrow
  exact ⟨hcol, by omega⟩

theorem pack_length (w h : ℕ) (pixels : ℕ → ℕ → ℕ) :
    (packBits w h pixels).length = h*((w+7)/8) :=
  (sweep_keeps (setPixel ((w+7)/8) pixels) (fun b => b.length = h*((w+7)/8))
    (fun b p hb => (set_length _ _ b p).trans hb) _ _ (by rw [List.length_replicate]))

theorem test_pixel {w h : ℕ} {p q : ℕ × ℕ} (hp : p ∈ cells w h) (hq : q ∈ cells w h)
    (pixels : ℕ → ℕ → ℕ) (bitmap : Bytes) (hlen : bitmap.length = h*((w+7)/8)) :
    testBit ((w+7)/8) (setPixel ((w+7)/8) pixels bitmap p) q ↔
      (q = p ∧ 128 ≤ pixels p.2 p.1) ∨ testBit ((w+7)/8) bitmap q := by
  obtain ⟨hpc, hpr⟩ := pixel_room hp
  obtain ⟨hqc, -⟩ := pixel_room hq
  rw [setPixel]
  split_ifs with hlit
  · rw [testBit, modify_getD _ _ _ _ (hlen ▸ hpr)]
    split_ifs with haddr
    · obtain ⟨hrow, hcol⟩ := row_injective hpc hqc haddr
      have hsame : q.2 % 8 = p.2 % 8 ↔ q = p := by
        constructor
        · intro hmod
          exact Prod.ext hrow.symm (by omega)
        · rintro rfl
          rfl
      rw [test_set, hsame, and_iff_left hlit]
      rfl
    · have hne : q ≠ p := fun h => haddr (by rw [h])
      simp [hne, testBit]
  · simp [hlit]

theorem pack_test {w h : ℕ} (pixels : ℕ → ℕ → ℕ) (q : ℕ × ℕ) (hq : q ∈ cells w h) :
    testBit ((w+7)/8) (packBits w h pixels) q ↔ 128 ≤ pixels q.2 q.1 := by
  have hfold : ∀ (l : List (ℕ × ℕ)) (bitmap : Bytes), (∀ p ∈ l, p ∈ cells w h) →
      bitmap.length = h*((w+7)/8) →
      (testBit ((w+7)/8) (l.foldl (setPixel ((w+7)/8) pixels) bitmap) q ↔
        (q ∈ l ∧ 128 ≤ pixels q.2 q.1) ∨ testBit ((w+7)/8) bitmap q) := by
    intro l
    induction l with
    | nil => simp
    | cons p l ih =>
      intro bitmap hl hlen
      rw [List.foldl_cons, ih _ (fun r hr => hl r (by simp [hr])) ((set_length ..).trans hlen),
        test_pixel (hl p (by simp)) hq pixels bitmap hlen, List.mem_cons]
      constructor
      · rintro (h | ⟨rfl, h⟩ | h)
        · exact .inl ⟨.inr h.1, h.2⟩
        · exact .inl ⟨.inl rfl, h⟩
        · exact .inr h
      · rintro (⟨rfl | h, hlit⟩ | h)
        · exact .inr (.inl ⟨rfl, hlit⟩)
        · exact .inl ⟨h, hlit⟩
        · exact .inr (.inr h)
  have hblank : ¬ testBit ((w+7)/8) (List.replicate (h*((w+7)/8)) 0) q := by
    have hzero : (List.replicate (h*((w+7)/8)) (0 : UInt8)).getD (q.1*((w+7)/8)+q.2/8) 0 = 0 := by
      rw [List.getD_eq_getElem?_getD, List.getElem?_replicate]
      split_ifs <;> rfl
    rw [testBit, hzero, UInt8.zero_and]
    exact fun h => h rfl
  rw [packBits, hfold _ _ (fun _ hp => hp) List.length_replicate]
  simp [hq, hblank]

def record (font : PilFont) (cp : ℕ) : Bytes :=
  descriptor (renderGlyph font cp)++(renderGlyph font cp).bitmap

def entries (font : PilFont) : ℕ → List ℕ → List (ℕ × ℕ)
  | _, [] => []
  | off, cp::cps => (cp, off)::entries font (off+(record font cp).length) cps

def characters (codepoints : List ℕ) : List ℕ := codepoints.filter (fun cp => cp < 1114112)

def layout (font : PilFont) (codepoints : List ℕ) : Bytes :=
  let cps := characters codepoints
  header cps.length++((entries font 0 cps).flatMap entryBytes++cps.flatMap (record font))

theorem entries_length (font : PilFont) (off : ℕ) (cps : List ℕ) :
    (entries font off cps).length = cps.length := by
  induction cps generalizing off with
  | nil => rfl
  | cons cp cps ih => rw [entries, List.length_cons, ih, List.length_cons]

theorem entries_get (font : PilFont) (off : ℕ) (cps : List ℕ) (i : ℕ) (hi : i < cps.length) :
    (entries font off cps)[i]? =
      some (cps[i], off+((cps.take i).flatMap (record font)).length) := by
  induction cps generalizing off i with
  | nil => cases hi
  | cons cp cps ih =>
    cases i with
    | zero => simp [entries]
    | succ i =>
      rw [entries, List.getElem?_cons_succ, ih _ i (Nat.lt_of_succ_lt_succ hi)]
      simp [Nat.add_assoc]

/-- Width and height of the image that the rasteriser gives, 0 by 0 where it gives none. -/
def PilFont.box (font : PilFont) (ch : ℕ) : ℕ × ℕ :=
  match font.getbbox ch with
  | none => (0, 0)
  | some (left, top, right, bottom) =>
    if left < right ∧ top < bottom then ((right-left).toNat, (bottom-top).toNat) else (0, 0)

theorem render_box (font : PilFont) (ch : ℕ) :
    (renderGlyph font ch).boxW = (font.box ch).1 ∧ (renderGlyph font ch).boxH = (font.box ch).2 ∧
    (renderGlyph font ch).bitmap =
      packBits (font.box ch).1 (font.box ch).2 (font.pixels ch) := by
  rw [renderGlyph, PilFont.box]
  split
  · exact ⟨rfl, rfl, rfl⟩
  · rename_i left top right bottom _
    dsimp only
    by_cases himage : left < right ∧ top < bottom
    · rw [if_neg (by omega), if_pos himage]
      exact ⟨rfl, rfl, rfl⟩
    · rw [if_pos (by omega), if_neg himage]
      exact ⟨rfl, rfl, rfl⟩

def Packable (font : PilFont) (cp : ℕ) : Prop := (font.box cp).1 < 256 ∧ (font.box cp).2 < 256

def recordSize (font : PilFont) (cp : ℕ) : ℕ := 5+(font.box cp).2*(((font.box cp).1+7)/8)

def blobSize (font : PilFont) (codepoints : List ℕ) : ℕ :=
  (characters codepoints).foldr (fun cp size => 8+recordSize font cp+size) 12

theorem record_length (font : PilFont) (cp : ℕ) :
    (record font cp).length = recordSize font cp := by
  rw [record, List.length_append, (render_box font cp).2.2, pack_length]
  rfl

theorem add_glyph (font : PilFont) (cp : ℕ) (hcp : cp < 1114112) (h : Packable font cp)
    (index : List (ℕ × ℕ)) (data : Bytes) :
    addGlyph font (index, data) cp = some (index++[(cp, data.length)], data++record font cp) := by
  obtain ⟨hw, hh, -⟩ := render_box font cp
  have hpack : packDescriptor (renderGlyph font cp) = some (descriptor (renderGlyph font cp)) :=
    if_pos (by rwa [hw, hh])
  rw [addGlyph, if_neg (by omega)]
  dsimp only
  rw [hpack, Option.map_some, record, List.append_assoc]

theorem add_glyphs (font : PilFont) (codepoints : List ℕ) (h : ∀ cp ∈ codepoints, Packable font cp)
    (index : List (ℕ × ℕ)) (data : Bytes) :
    codepoints.foldlM (addGlyph font) (index, data) =
      some (index++entries font data.length (characters codepoints),
        data++(characters codepoints).flatMap (record font)) := by
  induction codepoints generalizing index data with
  | nil => simp [characters, entries]
  | cons cp cps ih =>
    have hrest := ih (fun c hc => h c (by simp [hc]))
    rw [List.foldlM_cons]
    by_cases hchr : cp < 1114112
    · have hkeep : characters (cp::cps) = cp::characters cps :=
        List.filter_cons_of_pos (by simpa using hchr)
      rw [hkeep, add_glyph font cp hchr (h cp (by simp)), entries, List.flatMap_cons]
      show List.foldlM _ _ _ = _
      rw [hrest, List.length_append, List.append_assoc, List.append_assoc]
      rfl
    · have hskip : characters (cp::cps) = characters cps :=
        List.filter_cons_of_neg (by simpa using hchr)
      rw [hskip, addGlyph, if_pos (by omega)]
      exact hrest index data

theorem entries_mem (font : PilFont) (off : ℕ) (cps : List ℕ) (e : ℕ × ℕ)
    (he : e ∈ entries font off cps) :
    e.1 ∈ cps ∧ e.2 ≤ off+(cps.flatMap (record font)).length := by
  obtain ⟨i, hi⟩ := List.mem_iff_getElem?.mp he
  have hlt : i < cps.length := by
    rw [← entries_length font off]
    exact (List.getElem?_eq_some_iff.mp hi).1
  rw [entries_get font off cps i hlt, Option.some.injEq] at hi
  rw [← hi]
  refine ⟨List.getElem_mem hlt, Nat.add_le_add_left ?_ off⟩
  conv_rhs => rw [← List.take_append_drop i cps, List.flatMap_append, List.length_append]
  exact Nat.le_add_right _ _

theorem layout_length (font : PilFont) (codepoints : List ℕ) :
    (layout font codepoints).length = 12+8*(characters codepoints).length+
      ((characters codepoints).flatMap (record font)).length := by
  have hindex : ((entries font 0 (characters codepoints)).flatMap entryBytes).length =
      8*(characters codepoints).length := by
    rw [List.flatMap_def, flatten_const _ 8, List.length_map, entries_length]
    intro l hl
    obtain ⟨e, -, rfl⟩ := List.mem_map.mp hl
    rfl
  have hheader : (header (characters codepoints).length).length = 12 := rfl
  rw [layout, List.length_append, List.length_append, hindex, hheader, Nat.add_assoc]

theorem layout_size (font : PilFont) (codepoints : List ℕ) :
    (layout font codepoints).length = blobSize font codepoints := by
  have hsum : ∀ cps : List ℕ, 12+8*cps.length+(cps.flatMap (record font)).length =
      cps.foldr (fun cp size => 8+recordSize font cp+size) 12 := by
    intro cps
    induction cps with
    | nil => rfl
    | cons cp cps ih =>
      rw [List.flatMap_cons, List.length_append, record_length, List.foldr_cons, ← ih,
        List.length_cons]
      omega
  rw [layout_length, blobSize, hsum]

theorem build_layout (font : PilFont) (codepoints : List ℕ)
    (h : ∀ cp ∈ codepoints, Packable font cp)
    (hfits : blobSize font codepoints < 4294967296) :
    buildMief font codepoints = some (layout font codepoints) := by
  rw [buildMief, add_glyphs font codepoints h, Option.bind_some, packIndex, if_pos]
  · simp [layout, entries_length]
  · rw [← layout_size, layout_length] at hfits
    rw [List.nil_append, List.nil_append, entries_length]
    refine ⟨by omega, fun e he => ?_⟩
    obtain ⟨hcp, hoff⟩ := entries_mem font 0 _ e he
    have hchr : e.1 < 1114112 := by simpa using (List.mem_filter.mp hcp).2
    omega

end MokyaLora.GenFont
