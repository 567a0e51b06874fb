import MokyaLora.GenFont
import MokyaLora.Lib.Memory
import MokyaLora.MieFont
import Mathlib.Data.List.GetD

/-!
# Glyphs out of a compiled font

The driver looks a letter up, reports its box at the scale of the view and unpacks the bits
into an eight-bit buffer. A pixel becomes one byte at scale one and a block of two by two at
scale two.
-/

set_option autoImplicit false

namespace MokyaLora.MieFont
open Lib.Fields Lib.Memory Lib.Raster Lib.Sweep Lib.Bisect
open MokyaLora.GenFont

def glyphHdrSize : ℕ := 5

structure GlyphDsc where
  advW : ℕ
  boxW : ℕ
  boxH : ℕ
  ofsX : ℤ
  ofsY : ℤ
  gidIndex : ℕ

/-- `mie_font_get_glyph_dsc`; the inner `none` is a false return. -/
def getGlyphDsc (b : Bytes) (blob : Blob) (scale : ℕ) (letter : UInt32) :
    Option (Option GlyphDsc) :=
  (findOffset b blob letter).bind (fun off =>
    if off = 4294967295 then some none
    else (readBytes b (blob.glyphData+off) glyphHdrSize).map (fun g =>
      some ⟨byteAt g 0*scale, byteAt g 1*scale, byteAt g 2*scale,
        (g.getD 3 0).toBitVec.toInt*scale, (g.getD 4 0).toBitVec.toInt*scale, off⟩))

def plot (scale stride : ℕ) (out : Buffer) (p : ℕ × ℕ) (v : UInt8) : Buffer :=
  if scale = 1 then store out (u32 (p.1*stride)+p.2) v
  else
    let rowA := u32 (p.1*2*stride)
    let rowB := u32 ((p.1*2+1)*stride)
    let dx := p.2*2
    store (store (store (store out (rowA+dx) v) (rowA+dx+1) v) (rowB+dx) v) (rowB+dx+1) v

/-- `mie_font_get_glyph_bitmap`; the inner `none` is a null return. -/
def getGlyphBitmap (b : Bytes) (blob : Blob) (scale gidIndex stride : ℕ) (out : Buffer) :
    Option (Option Buffer) :=
  let g := blob.glyphData+gidIndex
  (readByte b (g+1)).bind (fun srcW => (readByte b (g+2)).bind (fun srcH =>
    if srcW = 0 ∨ srcH = 0 then some none
    else
      let bitmapIn := g+glyphHdrSize
      let rowBytes := (srcW+7)/8
      ((cells srcW srcH).foldlM (fun out p =>
        (b[bitmapIn+(p.1*rowBytes+p.2/8)]?).map (fun row =>
          plot scale stride out p (if row &&& mask p.2 ≠ 0 then 255 else 0))) out).map some))

theorem store_get (out : Buffer) (i j : ℕ) (v : UInt8) :
    store out i v j = if j = i then v else out j :=
  Function.update_apply ..

theorem address_iff {stride y x y' x' : ℕ} (hx : x < stride) (hx' : x' < stride) :
    y*stride+x = y'*stride+x' ↔ y = y' ∧ x = x' := by
  constructor
  · exact row_injective hx hx'
  · rintro ⟨rfl, rfl⟩
    rfl

/-- Plotting a pixel fills its block of the scaled box and nothing else. -/
theorem plot_get {scale stride w h : ℕ} (hscale : scale = 1 ∨ scale = 2) (hw : w*scale ≤ stride)
    (hh : h*scale*stride < 4294967296) {p : ℕ × ℕ} (hp : p ∈ cells w h) (out : Buffer) (v : UInt8)
    {x y : ℕ} (hx : x < w*scale) :
    plot scale stride out p v (y*stride+x) =
      if (y/scale, x/scale) = p then v else out (y*stride+x) := by
  obtain ⟨hrow, hcol⟩ := (mem_cells w h p).mp hp
  have hbound : ∀ r, r < h*scale → r*stride < 4294967296 := fun r hr =>
    Nat.lt_of_le_of_lt (Nat.mul_le_mul_right stride (Nat.le_of_lt hr)) hh
  have hpair : (y/scale, x/scale) = p ↔ y/scale = p.1 ∧ x/scale = p.2 := Prod.ext_iff
  simp only [plot, hpair]
  rcases hscale with rfl | rfl
  · rw [if_pos rfl, u32, Nat.mod_eq_of_lt (hbound _ (by omega)), store_get]
    simp only [address_iff (show x < stride by omega) (show p.2 < stride by omega), Nat.div_one]
  · rw [if_neg (by decide)]
    simp only [u32, Nat.mod_eq_of_lt (hbound (p.1*2) (by omega)),
      Nat.mod_eq_of_lt (hbound (p.1*2+1) (by omega)), store_get, Nat.add_assoc,
      address_iff (show x < stride by omega) (show p.2*2 < stride by omega),
      address_iff (show x < stride by omega) (show p.2*2+1 < stride by omega)]
    by_cases hin : y/2 = p.1 ∧ x/2 = p.2
    · rw [if_pos hin]
      split_ifs <;> first | rfl | omega
    · rw [if_neg hin]
      split_ifs <;> first | rfl | omega

def painted (scale stride w h : ℕ) (level : ℕ × ℕ → UInt8) (out : Buffer) : Buffer :=
  (cells w h).foldl (fun out p => plot scale stride out p (level p)) out

theorem painted_get {scale stride w h : ℕ} (hscale : scale = 1 ∨ scale = 2)
    (hw : w*scale ≤ stride) (hh : h*scale*stride < 4294967296) (level : ℕ × ℕ → UInt8)
    (out : Buffer) {x y : ℕ} (hx : x < w*scale) (hy : y < h*scale) :
    painted scale stride w h level out (y*stride+x) = level (y/scale, x/scale) := by
  have hcell : (y/scale, x/scale) ∈ cells w h := by
    rw [Nat.mul_comm] at hx hy
    exact (mem_cells w h _).mpr ⟨Nat.div_lt_of_lt_mul hy, Nat.div_lt_of_lt_mul hx⟩
  apply sweep_cell _ (fun out : Buffer => out (y*stride+x)) (y/scale, x/scale)
    (fun _ => level (y/scale, x/scale)) (cells w h) _ _ (cells_nodup w h) hcell out
  · intro s p hp hne
    rw [plot_get hscale hw hh hp _ _ hx, if_neg (Ne.symm hne)]
  · intro s
    rw [plot_get hscale hw hh hcell _ _ hx, if_pos rfl]

theorem bitmap_painted {b : Bytes} {blob : Blob} {gidIndex w h : ℕ} (scale stride : ℕ)
    (hsrcW : readByte b (blob.glyphData+gidIndex+1) = some w)
    (hsrcH : readByte b (blob.glyphData+gidIndex+2) = some h) (hbox : ¬ (w = 0 ∨ h = 0))
    (row : ℕ × ℕ → UInt8) (hrow : ∀ p ∈ cells w h,
      b[blob.glyphData+gidIndex+5+(p.1*((w+7)/8)+p.2/8)]? = some (row p)) (out : Buffer) :
    getGlyphBitmap b blob scale gidIndex stride out =
      some (some (painted scale stride w h
        (fun p => if row p &&& mask p.2 ≠ 0 then 255 else 0) out)) := by
  rw [getGlyphBitmap, hsrcW, hsrcH, Option.bind_some, Option.bind_some, if_neg hbox]
  exact congrArg (Option.map some) (sweep_reads
    (fun p => b[blob.glyphData+gidIndex+5+(p.1*((w+7)/8)+p.2/8)]?)
    (fun out p row => plot scale stride out p (if row &&& mask p.2 ≠ 0 then 255 else 0))
    row (cells w h) hrow out)

section
variable {font : PilFont} {codepoints : List ℕ} {rest : Bytes}

def recordOff (font : PilFont) (codepoints : List ℕ) (i : ℕ) : ℕ :=
  (((characters codepoints).take i).flatMap (record font)).length

def layoutBlob (codepoints : List ℕ) : Blob :=
  ⟨12, 12+(characters codepoints).length*8, (characters codepoints).length, 16, 1⟩

theorem layout_at (font : PilFont) (codepoints : List ℕ) (rest : Bytes) :
    At (layout font codepoints++rest) 0 (header (characters codepoints).length) ∧
    At (layout font codepoints++rest) 12
      ((entries font 0 (characters codepoints)).flatMap entryBytes) ∧
    At (layout font codepoints++rest) (12+(characters codepoints).length*8)
      ((characters codepoints).flatMap (record font)) := by
  have hall := at_zero (layout font codepoints++rest)
  have hindex : ((entries font 0 (characters codepoints)).flatMap entryBytes).length =
      (characters codepoints).length*8 := by
    rw [List.flatMap_def, flatten_const _ 8, List.length_map, entries_length, Nat.mul_comm]
    intro l hl
    obtain ⟨e, -, rfl⟩ := List.mem_map.mp hl
    rfl
  conv at hall =>
    arg 3
    rw [layout, List.append_assoc, List.append_assoc]
  rw [at_append, at_append, at_append, hindex] at hall
  exact ⟨hall.1, hall.2.1, hall.2.2.1⟩

theorem glyphs_fit
    (hfits : (layout font codepoints++rest).length < 4294967296) :
    12+(characters codepoints).length*8+
      ((characters codepoints).flatMap (record font)).length ≤
        (layout font codepoints++rest).length ∧
    (characters codepoints).length < 536870912 := by
  rw [List.length_append, layout_length] at hfits ⊢
  omega

theorem parse_layout (hfits : (layout font codepoints++rest).length < 4294967296) :
    parseBlob (layout font codepoints++rest) = some (layoutBlob codepoints) := by
  obtain ⟨hlen, hn⟩ := glyphs_fit hfits
  obtain ⟨hheader, -, -⟩ := layout_at font codepoints rest
  rw [header, at_append] at hheader
  have hnum : load32 (layout font codepoints++rest) 8 = (characters codepoints).length :=
    load32_at (by omega) hheader.2
  have hmul : u32 ((characters codepoints).length*indexStride) = (characters codepoints).length*8 :=
    Nat.mod_eq_of_lt (by rw [indexStride]; omega)
  rw [parseBlob, if_neg (by rw [headerSize]; omega), if_neg (fun h => h rfl), if_neg (fun h => h rfl),
    if_neg (fun h => h rfl), if_neg (fun h => h rfl), if_neg (fun h => h rfl), hnum]
  dsimp only
  rw [hmul, if_neg (by rw [headerSize]; omega)]
  rfl

theorem entry_reads (hfits : (layout font codepoints++rest).length < 4294967296) (i : ℕ)
    (hi : i < (characters codepoints).length) :
    read32 (layout font codepoints++rest) (entryAt (layoutBlob codepoints) i) =
      some (characters codepoints)[i] ∧
    read32 (layout font codepoints++rest) (entryAt (layoutBlob codepoints) i+4) =
      some (recordOff font codepoints i) := by
  obtain ⟨hlen, hn⟩ := glyphs_fit hfits
  obtain ⟨-, hindex, -⟩ := layout_at font codepoints rest
  have haddr : entryAt (layoutBlob codepoints) i = 12+8*i := by
    rw [entryAt, u32, indexStride, Nat.mod_eq_of_lt (by omega), Nat.mul_comm]
    rfl
  have hget := entries_get font 0 (characters codepoints) i hi
  have hlt : i < (entries font 0 (characters codepoints)).length := by rwa [entries_length]
  rw [List.getElem?_eq_getElem hlt, Option.some.injEq, Nat.zero_add] at hget
  have hentry := at_array entryBytes 8 (fun _ => rfl) hindex i hlt
  rw [hget, entryBytes, at_append] at hentry
  have hchr : (characters codepoints)[i] < 1114112 := by
    simpa using (List.mem_filter.mp (List.getElem_mem hi)).2
  have hoff : recordOff font codepoints i ≤
      ((characters codepoints).flatMap (record font)).length := by
    conv_rhs => rw [← List.take_append_drop i (characters codepoints), List.flatMap_append,
      List.length_append]
    exact Nat.le_add_right _ _
  rw [haddr]
  exact ⟨read32_at (by omega) hentry.1, read32_at (by omega) hentry.2⟩

theorem characters_rise (hsorted : codepoints.Pairwise (· < ·)) (i j : ℕ) (hij : i < j)
    (hj : j < (characters codepoints).length) :
    (characters codepoints).getD i 0 < (characters codepoints).getD j 0 := by
  have hpair : (characters codepoints).Pairwise (· < ·) := hsorted.sublist List.filter_sublist
  have hi : i < (characters codepoints).length := by omega
  rw [List.getD_eq_getElem _ _ hi, List.getD_eq_getElem _ _ hj]
  exact List.pairwise_iff_getElem.mp hpair i j hi hj hij

theorem find_layout (hfits : (layout font codepoints++rest).length < 4294967296)
    (hsorted : codepoints.Pairwise (· < ·)) (letter : UInt32) :
    (∀ i (hi : i < (characters codepoints).length), (characters codepoints)[i] = letter.toNat →
      findOffset (layout font codepoints++rest) (layoutBlob codepoints) letter =
        some (recordOff font codepoints i)) ∧
    (letter.toNat ∉ characters codepoints →
      findOffset (layout font codepoints++rest) (layoutBlob codepoints) letter =
        some 4294967295) := by
  have hprobe : ∀ i, i < (characters codepoints).length →
      read32 (layout font codepoints++rest) (entryAt (layoutBlob codepoints) i) =
        some ((characters codepoints).getD i 0) := by
    intro i hi
    rw [(entry_reads hfits i hi).1, List.getD_eq_getElem _ _ hi]
  constructor
  · intro i hi hletter
    rw [← List.getD_eq_getElem _ 0 hi] at hletter
    rw [findOffset, find_search, ← hletter]
    have hfound := search_found
      (fun i => read32 (layout font codepoints++rest) (entryAt (layoutBlob codepoints) i))
      (fun i => read32 (layout font codepoints++rest) (entryAt (layoutBlob codepoints) i+4))
      (fun i => (characters codepoints).getD i 0) (characters codepoints).length 0
      (characters codepoints).length (Nat.le_refl _) (fun i _ hi => hprobe i hi)
      (characters_rise hsorted) i (Nat.zero_le i) hi
    rw [layoutBlob] at hfound ⊢
    rw [hfound, ← layoutBlob, (entry_reads hfits i hi).2]
    rfl
  · intro hnot
    rw [findOffset, find_search, search_absent]
    · rfl
    · intro i _ hi
      refine ⟨_, hprobe i hi, fun heq => hnot ?_⟩
      rw [← heq, List.getD_eq_getElem _ _ hi]
      exact List.getElem_mem hi

theorem record_at (font : PilFont) (rest : Bytes) (i : ℕ)
    (hi : i < (characters codepoints).length) :
    At (layout font codepoints++rest)
      ((layoutBlob codepoints).glyphData+recordOff font codepoints i)
      (record font (characters codepoints)[i]) := by
  obtain ⟨-, -, hdata⟩ := layout_at font codepoints rest
  rw [List.flatMap_def] at hdata
  have hrecord := at_flatten _ _ _ hdata i (by rwa [List.length_map])
  rwa [List.getElem_map, ← List.map_take, ← List.flatMap_def] at hrecord

theorem byte_toNat {n : ℕ} (h : n < 256) : (UInt8.ofNat n).toNat = n := by
  rw [UInt8.toNat_ofNat', Nat.mod_eq_of_lt h]

theorem record_reads {b : Bytes} {off cp : ℕ} (h : At b off (record font cp))
    (hpack : Packable font cp) :
    readBytes b off 5 = some (descriptor (renderGlyph font cp)) ∧
    readByte b (off+1) = some (font.box cp).1 ∧
    readByte b (off+2) = some (font.box cp).2 ∧
    At b (off+5) (packBits (font.box cp).1 (font.box cp).2 (font.pixels cp)) := by
  obtain ⟨hboxW, hboxH, hbits⟩ := render_box font cp
  rw [record, at_append, hbits] at h
  obtain ⟨hdesc, hbitmap⟩ := h
  have hwhole := readBytes_at hdesc (List.cons_ne_nil _ _)
  obtain ⟨-, hfields⟩ := (at_cons _ _ _ _).mp hdesc
  obtain ⟨hatW, hfields⟩ := (at_cons _ _ _ _).mp hfields
  obtain ⟨hatH, -⟩ := (at_cons _ _ _ _).mp hfields
  have hw := readByte_at hatW
  have hh := readByte_at hatH
  rw [hboxW, byte_toNat hpack.1] at hw
  rw [hboxH, byte_toNat hpack.2] at hh
  exact ⟨hwhole, hw, hh, hbitmap⟩

/-- The driver shows a letter as a box of pixels: it reports the box at its scale, and in every
draw buffer with rows long enough each pixel of the scaled box is the source pixel there. -/
def Draws (b : Bytes) (blob : Blob) (scale : ℕ) (letter : UInt32) (w h : ℕ)
    (pixels : ℕ → ℕ → ℕ) : Prop :=
  ∃ dsc, getGlyphDsc b blob scale letter = some (some dsc) ∧
    dsc.boxW = w*scale ∧ dsc.boxH = h*scale ∧
    ∀ stride out, w*scale ≤ stride → h*scale*stride < 4294967296 →
      if w = 0 ∨ h = 0 then getGlyphBitmap b blob scale dsc.gidIndex stride out = some none
      else ∃ shown, getGlyphBitmap b blob scale dsc.gidIndex stride out = some (some shown) ∧
        ∀ x y, x < w*scale → y < h*scale →
          shown (y*stride+x) = if 128 ≤ pixels (x/scale) (y/scale) then 255 else 0

theorem draws_record {b : Bytes} {blob : Blob} {off cp scale : ℕ} {letter : UInt32}
    (hscale : scale = 1 ∨ scale = 2) (hfind : findOffset b blob letter = some off)
    (hoff : off ≠ 4294967295) (h : At b (blob.glyphData+off) (record font cp))
    (hpack : Packable font cp) :
    Draws b blob scale letter (font.box cp).1 (font.box cp).2 (font.pixels cp) := by
  obtain ⟨hdesc, hw, hh, hbitmap⟩ := record_reads h hpack
  obtain ⟨hboxW, hboxH, -⟩ := render_box font cp
  have hreadW : byteAt (descriptor (renderGlyph font cp)) 1 = (font.box cp).1 := by
    rw [← byte_toNat hpack.1, ← hboxW]
    rfl
  have hreadH : byteAt (descriptor (renderGlyph font cp)) 2 = (font.box cp).2 := by
    rw [← byte_toNat hpack.2, ← hboxH]
    rfl
  refine ⟨_, by rw [getGlyphDsc, hfind, Option.bind_some, if_neg hoff, glyphHdrSize, hdesc]; rfl,
    congrArg (· * scale) hreadW, congrArg (· * scale) hreadH, ?_⟩
  intro stride out hstride hroom
  split_ifs with hbox
  · show getGlyphBitmap b blob scale off stride out = some none
    rw [getGlyphBitmap, hw, hh, Option.bind_some, Option.bind_some, if_pos hbox]
  · have hlen := pack_length (font.box cp).1 (font.box cp).2 (font.pixels cp)
    refine ⟨_, bitmap_painted scale stride hw hh hbox
      (fun p => (packBits (font.box cp).1 (font.box cp).2 (font.pixels cp)).getD
        (p.1*(((font.box cp).1+7)/8)+p.2/8) 0) ?_ out, ?_⟩
    · intro p hp
      have hroom := (pixel_room hp).2
      rw [← hlen] at hroom
      rw [at_getElem? hbitmap _ hroom, List.getD_eq_getElem _ _ hroom,
        List.getElem?_eq_getElem hroom]
    · intro x y hx hy
      rw [painted_get hscale hstride hroom _ _ hx hy]
      have hcell : (y/scale, x/scale) ∈ cells (font.box cp).1 (font.box cp).2 := by
        rw [Nat.mul_comm] at hx hy
        exact (mem_cells _ _ _).mpr ⟨Nat.div_lt_of_lt_mul hy, Nat.div_lt_of_lt_mul hx⟩
      have htest := pack_test (font.pixels cp) _ hcell
      rw [testBit] at htest
      simp only [htest]

/-- A compiled font is accepted wherever it stands in front of other bytes. The lookup succeeds
for its characters and no other letter, and each is drawn in the box of its image, with the pixels
that the rasteriser gave at half intensity or more, at scale one and enlarged at scale two. -/
theorem font_round_trip (font : PilFont) (codepoints : List ℕ)
    (hsorted : codepoints.Pairwise (· < ·)) (hpack : ∀ cp ∈ codepoints, Packable font cp)
    (hfits : blobSize font codepoints < 4294967296) :
    ∃ b, buildMief font codepoints = some b ∧ ∀ rest, (b++rest).length < 4294967296 →
      ∃ blob, parseBlob (b++rest) = some blob ∧ ∀ (letter : UInt32) (scale : ℕ),
        scale = 1 ∨ scale = 2 →
        (letter.toNat ∈ codepoints ∧ letter.toNat < 1114112 →
          Draws (b++rest) blob scale letter (font.box letter.toNat).1 (font.box letter.toNat).2
            (font.pixels letter.toNat)) ∧
        (¬ (letter.toNat ∈ codepoints ∧ letter.toNat < 1114112) →
          getGlyphDsc (b++rest) blob scale letter = some none) := by
  refine ⟨_, build_layout font codepoints hpack hfits, fun rest hrest =>
    ⟨_, parse_layout hrest, fun letter scale hscale => ?_⟩⟩
  have hmem : letter.toNat ∈ characters codepoints ↔
      letter.toNat ∈ codepoints ∧ letter.toNat < 1114112 := by
    rw [characters, List.mem_filter, decide_eq_true_eq]
  rw [← hmem]
  obtain ⟨hfound, habsent⟩ := find_layout hrest hsorted letter
  constructor
  · intro hin
    obtain ⟨i, hi, hletter⟩ := List.getElem_of_mem hin
    have hrecord := record_at font rest i hi
    have hoff : recordOff font codepoints i ≠ 4294967295 := by
      have hlen := hrecord.fits (List.cons_ne_nil _ _)
      have hdata : (layoutBlob codepoints).glyphData ≥ 12 := Nat.le_add_right 12 _
      omega
    rw [hletter] at hrecord
    exact draws_record hscale (hfound i hi hletter) hoff hrecord (hpack _ (hmem.mp hin).1)
  · intro hnot
    rw [getGlyphDsc, habsent hnot]
    rfl

end

def chequeredFont : PilFont where
  getlength := fun _ => some 8
  getbbox := fun ch => if ch = 65 then some (1, 4, 10, 6) else none
  pixels := fun _ x y => if (x+y) % 2 = 0 then 255 else 0

theorem font_round_trip_chequered :
    chequeredFont.box 65 = (9, 2) ∧ chequeredFont.box 32 = (0, 0) ∧
    ∃ b, buildMief chequeredFont [32, 65] = some b ∧ ∀ rest, (b++rest).length < 4294967296 →
      ∃ blob, parseBlob (b++rest) = some blob ∧ ∀ (letter : UInt32) (scale : ℕ),
        scale = 1 ∨ scale = 2 →
        (letter.toNat ∈ [32, 65] ∧ letter.toNat < 1114112 →
          Draws (b++rest) blob scale letter (chequeredFont.box letter.toNat).1
            (chequeredFont.box letter.toNat).2 (chequeredFont.pixels letter.toNat)) ∧
        (¬ (letter.toNat ∈ [32, 65] ∧ letter.toNat < 1114112) →
          getGlyphDsc (b++rest) blob scale letter = some none) :=
  ⟨by decide, by decide, font_round_trip chequeredFont [32, 65] (by decide)
    (fun cp hcp => by
      rcases List.mem_pair.mp hcp with rfl | rfl
      · exact ⟨by decide, by decide⟩
      · exact ⟨by decide, by decide⟩) (by decide)⟩

end MokyaLora.MieFont
