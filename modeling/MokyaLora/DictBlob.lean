import MokyaLora.DictLoader
import MokyaLora.DictRoundTrip

/-!
# Packed dictionaries through the loader

`pack_dict_blob.py` puts four sections behind a table of offsets and sizes, each at an
aligned place. Its blobs, and those of `build_mied_v4`, are read back by the loader from a
partition that starts with them.
-/

set_option autoImplicit false

namespace MokyaLora.DictLoader
open Lib.Fields Lib.Memory Lib.Uncached

def align : ℕ := 16

def padToAlign (buf : Bytes) : Bytes :=
  if buf.length % align ≠ 0 then buf++List.replicate (align-buf.length % align) 0 else buf

def addSection (st : Bytes × List (ℕ × ℕ)) (data : Bytes) : Bytes × List (ℕ × ℕ) :=
  let payload := padToAlign st.1
  let offset := if data ≠ [] then mdblHeaderSize+payload.length else 0
  (payload++data, st.2++[(offset, data.length)])

def packFields (fields : List (ℕ × ℕ)) : Option Bytes :=
  if ∀ f ∈ fields, f.1 < 4294967296 ∧ f.2 < 4294967296 then
    some (fields.flatMap (fun f => le32 f.1++le32 f.2))
  else none

/-- `main` of `pack_dict_blob.py`, from the bytes of the sections. -/
def packDictBlob (data : Name → Bytes) : Option Bytes :=
  if data .zhDat = [] ∨ data .zhVal = [] then none
  else
    let packed := (mdblNames.map data).foldl addSection ([], [])
    (packFields packed.2).map (fun fields =>
      [0x4D, 0x44, 0x42, 0x4C]++(le16 mdblVersion++(le16 0++(fields++packed.1))))

/-- A section of the payload and what the table says of it. -/
def Placed (payload : Bytes) (f : ℕ × ℕ) (data : Bytes) : Prop :=
  f.2 = data.length ∧ (data ≠ [] → mdblHeaderSize ≤ f.1 ∧ At payload (f.1-mdblHeaderSize) data)

theorem placed_append {payload data : Bytes} {f : ℕ × ℕ} (h : Placed payload f data) (more : Bytes) :
    Placed (payload++more) f data :=
  ⟨h.1, fun hne => ⟨(h.2 hne).1, (h.2 hne).2.append_right more hne⟩⟩

theorem padded (buf : Bytes) : ∃ zeros, padToAlign buf = buf++zeros := by
  rw [padToAlign]
  split_ifs
  · exact ⟨_, rfl⟩
  · exact ⟨[], (List.append_nil buf).symm⟩

theorem add_placed (payload : Bytes) (fields : List (ℕ × ℕ)) (data : Bytes) :
    ∃ more f, addSection (payload, fields) data = (payload++more, fields++[f]) ∧
      Placed (payload++more) f data := by
  obtain ⟨zeros, hpad⟩ := padded payload
  refine ⟨zeros++data, (if data ≠ [] then mdblHeaderSize+(padToAlign payload).length else 0,
    data.length), ?_, rfl, fun hne => ?_⟩
  · rw [addSection, hpad, List.append_assoc]
  · rw [if_pos hne]
    refine ⟨Nat.le_add_right _ _, ?_⟩
    rw [Nat.add_sub_cancel_left, hpad, ← List.append_assoc]
    exact at_append_left (payload++zeros) data data 0 (at_zero data)

theorem sections_placed (ds : List Bytes) (payload : Bytes) (fields : List (ℕ × ℕ)) :
    ∃ more added, ds.foldl addSection (payload, fields) = (payload++more, fields++added) ∧
      List.Forall₂ (Placed (payload++more)) added ds := by
  induction ds generalizing payload fields with
  | nil => exact ⟨[], [], by simp, List.Forall₂.nil⟩
  | cons data ds ih =>
    obtain ⟨first, f, hfirst, hplaced⟩ := add_placed payload fields data
    obtain ⟨more, added, hmore, hall⟩ := ih (payload++first) (fields++[f])
    refine ⟨first++more, f::added, ?_, ?_⟩
    · rw [List.foldl_cons, hfirst, hmore, List.append_assoc, List.append_assoc]
      rfl
    · rw [← List.append_assoc]
      exact List.Forall₂.cons (placed_append hplaced more) hall

theorem packed_parts {data : Name → Bytes} {blob : Bytes} (h : packDictBlob data = some blob) :
    ∃ payload fields, List.Forall₂ (Placed payload) fields (mdblNames.map data) ∧
      (∀ f ∈ fields, f.1 < 4294967296 ∧ f.2 < 4294967296) ∧
      blob = [0x4D, 0x44, 0x42, 0x4C]++(le16 mdblVersion++(le16 0++
        (fields.flatMap (fun f => le32 f.1++le32 f.2)++payload))) := by
  obtain ⟨payload, fields, hfold, hplaced⟩ := sections_placed (mdblNames.map data) [] []
  rw [List.nil_append] at hplaced
  rw [packDictBlob] at h
  split_ifs at h
  rw [hfold, List.nil_append, List.nil_append] at h
  dsimp only at h
  rw [packFields] at h
  split_ifs at h with hfits
  · rw [Option.map_some, Option.some.injEq] at h
    exact ⟨payload, fields, hplaced, hfits, h.symm⟩
  · rw [Option.map_none] at h
    cases h

theorem fields_length (fields : List (ℕ × ℕ)) :
    (fields.flatMap (fun f => le32 f.1++le32 f.2)).length = 8*fields.length := by
  rw [List.flatMap_def, flatten_const _ 8, List.length_map]
  intro l hl
  obtain ⟨f, -, rfl⟩ := List.mem_map.mp hl
  rfl

theorem field_loads {b : Bytes} {fields : List (ℕ × ℕ)}
    (h : At b 8 (fields.flatMap (fun f => le32 f.1++le32 f.2)))
    (hfits : ∀ f ∈ fields, f.1 < 4294967296 ∧ f.2 < 4294967296) (i : ℕ) (hi : i < fields.length) :
    load32 b (8+8*i) = fields[i].1 ∧ load32 b (8+8*i+4) = fields[i].2 := by
  have hentry := at_array (fun f : ℕ × ℕ => le32 f.1++le32 f.2) 8 (fun _ => rfl) h i hi
  rw [at_append] at hentry
  obtain ⟨hoff, hsize⟩ := hfits _ (List.getElem_mem hi)
  exact ⟨load32_at hoff hentry.1, load32_at hsize hentry.2⟩

theorem section_found {b payload d : Bytes} {f : ℕ × ℕ} (h : At b mdblHeaderSize payload)
    (hf : Placed payload f d) :
    f.2 = d.length ∧ (d ≠ [] → mdblHeaderSize ≤ f.1 ∧ At b f.1 d) := by
  refine ⟨hf.1, fun hne => ⟨(hf.2 hne).1, ?_⟩⟩
  have hat := h.trans (hf.2 hne).2 hne
  rwa [Nat.add_sub_cancel' (hf.2 hne).1] at hat

theorem packed_header {data : Name → Bytes} {blob : Bytes} (h : packDictBlob data = some blob)
    (rest : Bytes) :
    load32 (blob++rest) 0 = mdblMagic ∧ load16 (blob++rest) 4 = mdblVersion ∧
    ∀ n ∈ mdblNames, (mdblSource (blob++rest) n).size = (data n).length ∧
      (data n ≠ [] → mdblHeaderSize ≤ (mdblSource (blob++rest) n).ptr ∧
        At (blob++rest) (mdblSource (blob++rest) n).ptr (data n)) := by
  obtain ⟨payload, fields, hplaced, hfits, hblob⟩ := packed_parts h
  have hall : At (blob++rest) 0 blob := (at_append _ _ _ _).mp (at_zero _) |>.1
  conv at hall => arg 3; rw [hblob]
  obtain ⟨hmagic, hall⟩ := (at_append _ _ _ _).mp hall
  obtain ⟨hversion, hall⟩ := (at_append _ _ _ _).mp hall
  obtain ⟨-, hall⟩ := (at_append _ _ _ _).mp hall
  obtain ⟨hfields, hpayload⟩ := (at_append _ _ _ _).mp hall
  have hlen : fields.length = 4 := hplaced.length_eq
  rw [fields_length, hlen] at hpayload
  have hplace : ∀ i (hi : i < 4), load32 (blob++rest) (8+8*i+4) =
      (data (mdblNames.get ⟨i, hi⟩)).length ∧
      (data (mdblNames.get ⟨i, hi⟩) ≠ [] → mdblHeaderSize ≤ load32 (blob++rest) (8+8*i) ∧
        At (blob++rest) (load32 (blob++rest) (8+8*i)) (data (mdblNames.get ⟨i, hi⟩))) := by
    intro i hi
    have hadded : i < fields.length := by rwa [hlen]
    have hentry := section_found hpayload (hplaced.get hadded hi)
    obtain ⟨hoff, hsize⟩ := field_loads hfields hfits i hadded
    rw [hoff, hsize]
    simpa using hentry
  refine ⟨load32_at (n := mdblMagic) (by decide) hmagic, load16_at (by decide) hversion, ?_⟩
  intro n hn
  cases n with
  | zhDat => exact hplace 0 (by decide)
  | zhVal => exact hplace 1 (by decide)
  | enDat => exact hplace 2 (by decide)
  | enVal => exact hplace 3 (by decide)
  | v4Blob => exact absurd hn (by decide)

theorem pack_loads {data : Name → Bytes} {blob : Bytes} (h : packDictBlob data = some blob)
    (hroom : ∀ n ∈ mdblNames, (data n).length ≤ (slot n).2) {rest : Bytes}
    (hflash : (blob++rest).length = partitionSize) (s : State) :
    (loadToPsram (blob++rest) (psramMfid, psramKgd) s).returned = true ∧ ∀ n ∈ mdblNames,
      view (loadToPsram (blob++rest) (psramMfid, psramKgd) s).state.psram
        ((loadToPsram (blob++rest) (psramMfid, psramKgd) s).out n) = data n := by
  obtain ⟨hmagic, hversion, hsections⟩ := packed_header h rest
  have hmie4 : load32 (blob++rest) 0 ≠ mie4Magic := by
    rw [hmagic]
    decide
  have hload : loadToPsram (blob++rest) (psramMfid, psramKgd) s =
      loadMdbl (blob++rest) { s with format := .mdblDeprecated } := by
    rw [loadToPsram, if_neg (by simp), if_neg hmie4, if_neg (fun hne => hne hmagic),
      if_neg (fun hne => hne hversion)]
  have hinside : ∀ n ∈ mdblNames, badRange (mdblSource (blob++rest) n) = false := by
    intro n hn
    obtain ⟨hsize, hat⟩ := hsections n hn
    by_cases hne : data n = []
    · have hzero : (mdblSource (blob++rest) n).size = 0 := by rw [hsize, hne, List.length_nil]
      rw [badRange, hzero]
      rfl
    · obtain ⟨hlo, hat⟩ := hat hne
      have hhi := hat.fits hne
      rw [← hsize, hflash] at hhi
      simp [badRange, Nat.not_lt.mpr hlo, Nat.not_lt.mpr hhi]
  have hreturned : (loadMdbl (blob++rest) { s with format := .mdblDeprecated }).returned = true := by
    rw [loadMdbl, if_neg, if_neg]
    · rfl
    · simp only [List.any_eq_true, decide_eq_true_eq, not_exists, not_and, Nat.not_lt]
      intro n hn
      rw [(hsections n hn).1]
      exact hroom n hn
    · simp only [List.any_eq_true, not_exists, not_and, Bool.not_eq_true]
      exact hinside
  have hloaded := (load_loaded hflash (psramMfid, psramKgd) s).1 (hload ▸ hreturned)
  refine ⟨hload ▸ hreturned, fun n hn => ?_⟩
  obtain ⟨hsize, hat⟩ := hsections n hn
  have hsource : source (blob++rest) = mdblSource (blob++rest) := if_neg hmie4
  rw [hloaded.same n, hsource, hsize]
  by_cases hne : data n = []
  · rw [hne, List.length_nil, slice, List.take_zero]
  · exact (hat hne).2.slice_eq

open MokyaLora.GenDict

theorem built_header (raw : List RawEntry) (s : Sections) (hb : Built raw s) (rest : Bytes) :
    load32 (headerBytes raw s++s.body++rest) 0 = mie4Magic ∧
    v4Source (headerBytes raw s++s.body++rest) .v4Blob = ⟨0, s.totalSize⟩ ∧
    v4Source (headerBytes raw s++s.body++rest) .enDat = ⟨s.enDatOff, s.enDat.length⟩ ∧
    v4Source (headerBytes raw s++s.body++rest) .enVal = ⟨s.enValOff, s.enVal.length⟩ := by
  rw [List.append_assoc]
  obtain ⟨hmagic, -, -, hfields⟩ := header_at raw s (s.body++rest) hb
  have hlen : (s.headerFields (buildCharTableV4 raw).length (dictWords raw).length).length = 14 := rfl
  have hat := at_slice (headerBytes raw s++(s.body++rest)) 0 4
  rw [hmagic] at hat
  refine ⟨load32_at (n := mie4Magic) (by decide) hat, ?_, ?_, ?_⟩
  · exact congrArg (Section.mk 0) (hfields 6 (by omega))
  · exact congrArg₂ Section.mk (hfields 10 (by omega)) (hfields 11 (by omega))
  · exact congrArg₂ Section.mk (hfields 12 (by omega)) (hfields 13 (by omega))

theorem english_at (raw : List RawEntry) (s : Sections) (rest : Bytes) :
    At (headerBytes raw s++s.body++rest) s.zhEnd s.enDat ∧
    At (headerBytes raw s++s.body++rest) (s.zhEnd+s.enDat.length) s.enVal := by
  have h : At (headerBytes raw s++(s.body++rest)) 64 (s.body++rest) := by
    have := at_append_left (headerBytes raw s) (s.body++rest) (s.body++rest) 0 (at_zero _)
    rwa [header_length] at this
  rw [List.append_assoc]
  obtain ⟨h, -⟩ := (at_append _ _ _ _).mp h
  obtain ⟨-, h⟩ := (at_append _ _ _ _).mp h
  obtain ⟨-, h⟩ := (at_append _ _ _ _).mp h
  obtain ⟨-, h⟩ := (at_append _ _ _ _).mp h
  obtain ⟨-, h⟩ := (at_append _ _ _ _).mp h
  obtain ⟨-, h⟩ := (at_append _ _ _ _).mp h
  obtain ⟨-, h⟩ := (at_append _ _ _ _).mp h
  obtain ⟨-, h⟩ := (at_append _ _ _ _).mp h
  exact (at_append _ _ _ _).mp h

theorem v4_returns (raw : List RawEntry) (sec : Sections) (hb : Built raw sec)
    (hroom : sec.totalSize ≤ (slot .v4Blob).2) {rest : Bytes}
    (hflash : (headerBytes raw sec++sec.body++rest).length = partitionSize) (s : State) :
    (loadToPsram (headerBytes raw sec++sec.body++rest) (psramMfid, psramKgd) s).returned = true := by
  obtain ⟨hmagic, hblob, hdat, hval⟩ := built_header raw sec hb rest
  have hlen := blob_length raw sec
  have hheader := header_length raw sec
  have hend : sec.enDatOff+sec.enDat.length ≤ sec.totalSize ∧
      sec.enValOff+sec.enVal.length ≤ sec.totalSize := by
    rw [Sections.enDatOff, Sections.enValOff, Sections.enDatOff, Sections.totalSize]
    split_ifs <;> omega
  rw [List.length_append, hlen] at hflash
  rw [List.length_append, hheader] at hlen
  rw [loadToPsram, if_neg (by simp), if_pos hmagic, loadV4, hblob, hdat, hval, leaves, leaves]
  dsimp only
  rw [if_neg, if_neg]
  · rfl
  · simp only [Bool.or_eq_true, Bool.and_eq_true, decide_eq_true_eq, not_or, not_and, Nat.not_lt]
    exact ⟨fun _ => hend.1, fun _ => hend.2⟩
  · rw [mie4HeaderSize]
    omega

/-- A built dictionary within the budget comes back with its English sections, except that the
values are looked for at the start of the blob when there is no English index. -/
theorem v4_loads {raw : List RawEntry} {enDat enVal blob : Bytes}
    (h : buildMiedV4 raw enDat enVal = some blob) (hroom : blob.length ≤ (slot .v4Blob).2)
    {rest : Bytes} (hflash : (blob++rest).length = partitionSize) (s : State) :
    (loadToPsram (blob++rest) (psramMfid, psramKgd) s).returned = true ∧
    view (loadToPsram (blob++rest) (psramMfid, psramKgd) s).state.psram
      ((loadToPsram (blob++rest) (psramMfid, psramKgd) s).out .v4Blob) = blob ∧
    view (loadToPsram (blob++rest) (psramMfid, psramKgd) s).state.psram
      ((loadToPsram (blob++rest) (psramMfid, psramKgd) s).out .enDat) = enDat ∧
    (view (loadToPsram (blob++rest) (psramMfid, psramKgd) s).state.psram
      ((loadToPsram (blob++rest) (psramMfid, psramKgd) s).out .enVal) = enVal ↔
        enVal = [] ∨ enDat ≠ [] ∨ enVal <+: blob) := by
  obtain ⟨sec, hb, ⟨rfl, rfl⟩, rfl⟩ := build_layout raw enDat enVal blob h
  have hlen := blob_length raw sec
  rw [hlen] at hroom
  have hreturned := v4_returns raw sec hb hroom hflash s
  have hloaded := (load_loaded hflash (psramMfid, psramKgd) s).1 hreturned
  obtain ⟨hmagic, hblob, hdat, hval⟩ := built_header raw sec hb rest
  obtain ⟨hatDat, hatVal⟩ := english_at raw sec rest
  have hsource : source (headerBytes raw sec++sec.body++rest) =
      v4Source (headerBytes raw sec++sec.body++rest) := if_pos hmagic
  have hfront : ∀ n, n ≤ (headerBytes raw sec++sec.body).length →
      slice (headerBytes raw sec++sec.body++rest) 0 n = (headerBytes raw sec++sec.body).take n := by
    intro n hn
    rw [slice, List.drop_zero, List.take_append_of_le_length hn]
  refine ⟨hreturned, ?_, ?_, ?_⟩
  · rw [hloaded.same, hsource, hblob, ← hlen, hfront _ (Nat.le_refl _), List.take_length]
  · rw [hloaded.same, hsource, hdat, Sections.enDatOff]
    dsimp only
    split_ifs with hne
    · exact hatDat.slice_eq
    · rw [not_not.mp hne, List.length_nil, slice, List.take_zero]
  · rw [hloaded.same, hsource, hval, Sections.enValOff, Sections.enDatOff]
    dsimp only
    by_cases hv : sec.enVal = []
    · rw [hv, List.length_nil, slice, List.take_zero]
      exact iff_of_true rfl (.inl rfl)
    · rw [if_pos hv]
      by_cases hd : sec.enDat = []
      · rw [if_neg (fun hne => hne hd), hd, List.length_nil, Nat.add_zero, hfront]
        · constructor
          · intro heq
            exact .inr (.inr (heq ▸ List.take_prefix _ _))
          · rintro (h | h | h)
            · exact absurd h hv
            · exact absurd rfl h
            · exact (List.prefix_iff_eq_take.mp h).symm
        · rw [hlen, Sections.totalSize]
          omega
      · rw [if_pos hd]
        exact iff_of_true hatVal.slice_eq (.inr (.inl hd))

/-- Whatever the partition holds, a load that returns true has copied ranges of it within the
budgets and exposed the sections of the header as they are in flash, and one that returns false
has cleared the pointers. Packed sections come back as they were, those of the newer format
exactly when the English values are behind an index (or happen to be the blob's own first
bytes). -/
theorem loader_exact (flash : Bytes) (hflash : flash.length = partitionSize) (readId : ℕ × ℕ)
    (s : State) :
    ((loadToPsram flash readId s).returned = true → Loaded flash (loadToPsram flash readId s)) ∧
    ((loadToPsram flash readId s).returned = false → (loadToPsram flash readId s).out = cleared) ∧
    (∀ data blob rest, packDictBlob data = some blob →
      (∀ n ∈ mdblNames, (data n).length ≤ (slot n).2) → flash = blob++rest →
      readId = (psramMfid, psramKgd) →
      (loadToPsram flash readId s).returned = true ∧ ∀ n ∈ mdblNames,
        view (loadToPsram flash readId s).state.psram ((loadToPsram flash readId s).out n) = data n) ∧
    (∀ raw enDat enVal blob rest, buildMiedV4 raw enDat enVal = some blob →
      blob.length ≤ (slot .v4Blob).2 → flash = blob++rest → readId = (psramMfid, psramKgd) →
      ((loadToPsram flash readId s).returned = true ∧
        view (loadToPsram flash readId s).state.psram
          ((loadToPsram flash readId s).out .v4Blob) = blob ∧
        view (loadToPsram flash readId s).state.psram
          ((loadToPsram flash readId s).out .enDat) = enDat ∧
        view (loadToPsram flash readId s).state.psram
          ((loadToPsram flash readId s).out .enVal) = enVal ↔
        enVal = [] ∨ enDat ≠ [] ∨ enVal <+: blob)) := by
  obtain ⟨htrue, hfalse⟩ := load_loaded hflash readId s
  refine ⟨htrue, hfalse, ?_, ?_⟩
  · rintro data blob rest h hroom rfl rfl
    exact pack_loads h hroom hflash s
  · rintro raw enDat enVal blob rest h hroom rfl rfl
    obtain ⟨hreturned, hblob, hdat, hval⟩ := v4_loads h hroom hflash s
    rw [← hval]
    exact ⟨fun hall => hall.2.2.2, fun h => ⟨hreturned, hblob, hdat, h⟩⟩

def coldState : State := ⟨⟨zeroed, fun _ => none⟩, .none, .none⟩

def smallSections : Name → Bytes
  | .zhDat => [1, 2, 3]
  | .zhVal => [4]
  | .enVal => [5, 6]
  | _ => []

theorem loader_exact_small : ∃ blob rest, packDictBlob smallSections = some blob ∧
    (loadToPsram (blob++rest) (psramMfid, psramKgd) coldState).returned = true ∧
    ∀ n ∈ mdblNames, view (loadToPsram (blob++rest) (psramMfid, psramKgd) coldState).state.psram
      ((loadToPsram (blob++rest) (psramMfid, psramKgd) coldState).out n) = smallSections n := by
  have hsome : (packDictBlob smallSections).isSome = true := by decide
  have hshort : (packDictBlob smallSections).all (fun blob => blob.length ≤ 100) = true := by decide
  obtain ⟨blob, hblob⟩ := Option.isSome_iff_exists.mp hsome
  rw [hblob, Option.all_some, decide_eq_true_eq] at hshort
  have hflash : (blob++List.replicate (partitionSize-blob.length) 0xFF).length = partitionSize := by
    rw [List.length_append, List.length_replicate, partitionSize]
    omega
  have hroom : ∀ n ∈ mdblNames, (smallSections n).length ≤ (slot n).2 := by decide
  obtain ⟨-, -, hpacked, -⟩ := loader_exact _ hflash (psramMfid, psramKgd) coldState
  obtain ⟨hreturned, hsame⟩ := hpacked smallSections blob _ hblob hroom rfl rfl
  exact ⟨blob, _, hblob, hreturned, hsame⟩

/-- English values without an index, in an otherwise empty dictionary. -/
theorem values_lost : ∃ blob rest, buildMiedV4 [] [] [0x49] = some blob ∧
    blob.length ≤ (slot .v4Blob).2 ∧ (blob++rest).length = partitionSize ∧
    (loadToPsram (blob++rest) (psramMfid, psramKgd) coldState).returned = true ∧
    view (loadToPsram (blob++rest) (psramMfid, psramKgd) coldState).state.psram
      ((loadToPsram (blob++rest) (psramMfid, psramKgd) coldState).out .enVal) ≠ [0x49] := by
  have hsome : (buildMiedV4 [] [] [0x49]).isSome = true := by decide +kernel
  have hstart : (buildMiedV4 [] [] [0x49]).all
      (fun blob => blob.length ≤ 5000 && blob.head? == some 0x4D) = true := by decide +kernel
  obtain ⟨blob, hblob⟩ := Option.isSome_iff_exists.mp hsome
  rw [hblob, Option.all_some, Bool.and_eq_true, decide_eq_true_eq, beq_iff_eq] at hstart
  have hroom : blob.length ≤ (slot .v4Blob).2 := Nat.le_trans hstart.1 (by decide)
  have hflash : (blob++List.replicate (partitionSize-blob.length) 0xFF).length = partitionSize := by
    rw [List.length_append, List.length_replicate, partitionSize]
    omega
  obtain ⟨hreturned, -, -, hval⟩ := v4_loads hblob hroom hflash coldState
  refine ⟨blob, _, hblob, hroom, hflash, hreturned, fun h => ?_⟩
  rcases hval.mp h with h | h | h
  · cases h
  · exact h rfl
  · obtain ⟨more, rfl⟩ := h
    cases hstart.2

end MokyaLora.DictLoader
