import MokyaLora.ImeCoherent

/-!
# The pending composition that the view shows

The view is cached. The search renders the keys, a multi-tap puts its label over
them, and what ends the multi-tap leaves the display empty: keys under the label
stay hidden until the next search.
-/

set_option autoImplicit false

namespace MokyaLora.Ime
open Lib.Fields Lib.Memory Lib.Schedule

def renderFrom (isZh : Bool) : ℕ → List (UInt8 × UInt8) → Bytes → Bytes
  | _, [], display => display
  | i, (b, hint)::rest, display =>
    renderFrom isZh (i+1) rest ((keyPieces isZh i b hint).foldl displayAppend display)

def ImeLogic.rendering (s : ImeLogic) : Bytes :=
  renderFrom (s.mode == .smartZh) 0 (s.keys.zip s.hints) []

/-- The contract of `pending_view`. -/
structure ViewOk (s : ImeLogic) : Prop where
  matched : s.pendingView.matchedPrefixBytes ≤ s.pendingView.byteLen
  inverted : s.pendingView.style = .inverted → s.pendingView.matchedPrefixBytes = 0
  style : s.pendingView.style = .none ↔ s.pendingView.str = []
  rendered : ¬ s.multitapPending → s.pendingView.str = s.rendering ∧
    (s.pendingView.str = [] ↔ s.keySeqLen = 0)

/-- The key of ㄡ and ㄥ has neither letters nor digits. -/
def kUnlabelledKey : UInt8 := 0x34

def Unlabelled (s : ImeLogic) : Prop :=
  s.mode = .smartEn ∧ s.keys ≠ [] ∧ ∀ b ∈ s.keys, b = kUnlabelledKey

/-- The call neither takes a label away from over keys that stay, nor leaves only
keys without a letter. -/
def KeepsShown (env : Env) (s : ImeLogic) (c : Call) : Prop :=
  ¬ (s.multitapPending ∧ 0 < s.keySeqLen ∧ DropsLabel s c) ∧ ¬ Unlabelled (s.apply env c)

section Rendering

theorem append_pieces_ne_nil (pieces : List Bytes) (d : Bytes) (h : d ≠ []) :
    pieces.foldl displayAppend d ≠ [] := by
  rw [pieces_fill]
  intro hnil
  have hfront := Lib.Filling.prefix_fill kMaxDisplayBytes d pieces
  rw [hnil] at hfront
  exact h (List.prefix_nil.mp hfront)

theorem render_from_ne_nil (isZh : Bool) (i : ℕ) (ks : List (UInt8 × UInt8)) (d : Bytes)
    (h : d ≠ []) : renderFrom isZh i ks d ≠ [] := by
  induction ks generalizing i d with
  | nil => exact h
  | cons k ks ih => exact ih _ _ (append_pieces_ne_nil _ d h)

def Short (p : Bytes) : Prop := p ≠ [] ∧ p.length ≤ 4

theorem utf8_short (c : Char) : Short (utf8 c) := by
  refine ⟨?_, utf8_length c⟩
  intro hc
  have hl := congrArg List.length hc
  rw [utf8, String.length_utf8EncodeChar] at hl
  exact Nat.ne_of_gt c.utf8Size_pos hl

theorem separated_head (isZh : Bool) (i : ℕ) (c : Char) (rest : List Bytes) :
    ∃ p rest', (if isZh = true ∧ 0 < i then [text [',', ' ']] else [])++utf8 c::rest = p::rest' ∧
      Short p := by
  split
  · exact ⟨text [',', ' '], utf8 c::rest, rfl, by decide, by decide⟩
  · exact ⟨utf8 c, rest, rfl, utf8_short c⟩

theorem key_byte_entry (b : UInt8) (hb : 0x20 ≤ b ∧ b ≤ 0x34) (hne : b ≠ 0x20) :
    ∃ e ∈ kKeyTable, (byteSlot b).bind (fun slot => kKeyTable[slot]?) = some e ∧
      (b ≠ kUnlabelledKey → e.letterSlots ≠ [] ∨ e.digitSlots ≠ []) := by
  have hlo : 0x20 ≤ b.toNat := UInt8.le_iff_toNat_le.mp hb.1
  have hup : b.toNat ≤ 0x34 := UInt8.le_iff_toNat_le.mp hb.2
  have hne' : b.toNat ≠ 0x20 := fun h => hne (UInt8.toNat_inj.mp h)
  have hslot : byteSlot b = some (b.toNat-0x21) := by
    rw [byteSlot, if_pos]
    constructor
    · exact UInt8.le_iff_toNat_le.mpr (show 0x21 ≤ b.toNat by omega)
    · exact UInt8.lt_iff_toNat_lt.mpr (show b.toNat < 0x35 by omega)
  have hlt : b.toNat-0x21 < kKeyTable.length := by
    show b.toNat-0x21 < 20
    omega
  have hlabel : ∀ slot < 19, ∀ e, kKeyTable[slot]? = some e →
      e.letterSlots ≠ [] ∨ e.digitSlots ≠ [] := by
    have hall : ∀ e ∈ kKeyTable.take 19, e.letterSlots ≠ [] ∨ e.digitSlots ≠ [] := by decide
    intro slot hs e he
    apply hall
    rw [← List.getElem?_take_of_lt hs] at he
    exact List.mem_of_getElem? he
  refine ⟨kKeyTable[b.toNat-0x21], List.getElem_mem hlt, ?_, ?_⟩
  · rw [hslot, Option.bind_some, List.getElem?_eq_getElem hlt]
  · intro hu
    have hu' : b.toNat ≠ 0x34 := fun h => hu (UInt8.toNat_inj.mp h)
    exact hlabel (b.toNat-0x21) (by omega) _ (List.getElem?_eq_getElem hlt)

theorem key_pieces_head (isZh : Bool) (i : ℕ) (b hint : UInt8) (hb : 0x20 ≤ b ∧ b ≤ 0x34)
    (h : isZh = true ∨ b ≠ kUnlabelledKey) :
    ∃ p rest, keyPieces isZh i b hint = p::rest ∧ Short p := by
  unfold keyPieces
  dsimp only
  by_cases hs : b = 0x20
  · rw [if_pos hs]
    exact separated_head isZh i 'ˉ' []
  · obtain ⟨e, hmem, he, hlabel⟩ := key_byte_entry b hb hs
    obtain ⟨-, -, hpos, -⟩ := input_key e hmem
    rw [if_neg hs, he]
    dsimp only
    cases isZh with
    | true =>
      rw [if_pos rfl]
      split
      · have hlt : min hint.toNat (e.phonemes.length-1) < e.phonemes.length := by omega
        rw [List.getElem?_eq_getElem hlt]
        exact separated_head true i _ []
      · obtain ⟨c, cs, hc⟩ := List.exists_cons_of_length_pos hpos
        rw [hc]
        exact separated_head true i c _
    | false =>
      rw [if_neg (by decide)]
      split
      · exact ⟨_, [], rfl, utf8_short _⟩
      · exact ⟨_, [], rfl, utf8_short _⟩
      · rename_i hletters hdigits
        rcases hlabel (h.resolve_left (by decide)) with hl | hd
        · exact absurd hletters hl
        · exact absurd hdigits hd

theorem pieces_ne_nil (isZh : Bool) (i : ℕ) (b hint : UInt8) (hb : 0x20 ≤ b ∧ b ≤ 0x34)
    (h : isZh = true ∨ b ≠ kUnlabelledKey) (d : Bytes) :
    (keyPieces isZh i b hint).foldl displayAppend d ≠ [] := by
  by_cases hd : d = []
  · obtain ⟨p, rest, hp, hne, hlen⟩ := key_pieces_head isZh i b hint hb h
    rw [hp, List.foldl_cons, hd]
    apply append_pieces_ne_nil
    have hroom : ¬ kMaxDisplayBytes ≤ ([] : Bytes).length+p.length := by
      simp only [kMaxDisplayBytes, List.length_nil]
      omega
    rw [displayAppend, if_neg hroom]
    exact hne
  · exact append_pieces_ne_nil _ d hd

theorem render_from_shows (isZh : Bool) (i : ℕ) (ks : List (UInt8 × UInt8)) (d : Bytes)
    (hks : ∀ k ∈ ks, 0x20 ≤ k.1 ∧ k.1 ≤ 0x34)
    (h : ∃ k ∈ ks, isZh = true ∨ k.1 ≠ kUnlabelledKey) : renderFrom isZh i ks d ≠ [] := by
  induction ks generalizing i d with
  | nil => simp at h
  | cons k ks ih =>
    rw [renderFrom]
    by_cases hk : isZh = true ∨ k.1 ≠ kUnlabelledKey
    · exact render_from_ne_nil _ _ _ _ (pieces_ne_nil isZh i k.1 k.2 (hks k (by simp)) hk d)
    · obtain ⟨k', hmem, hk'⟩ := h
      rcases List.mem_cons.mp hmem with rfl | hmem
      · exact absurd hk' hk
      · exact ih _ _ (fun k h => hks k (List.mem_cons_of_mem _ h)) ⟨k', hmem, hk'⟩

variable (s : ImeLogic)

theorem rebuild_from_display (i : ℕ) (ks : List (UInt8 × UInt8)) (acc : Bytes × ℕ) :
    (s.rebuildFrom i ks acc).1 = renderFrom (s.mode == .smartZh) i ks acc.1 := by
  induction ks generalizing i acc with
  | nil => rfl
  | cons k ks ih => exact ih _ _

theorem rebuild_from_matched (i : ℕ) (ks : List (UInt8 × UInt8)) (acc : Bytes × ℕ)
    (h : acc.2 ≤ acc.1.length) :
    (s.rebuildFrom i ks acc).2 ≤ (s.rebuildFrom i ks acc).1.length := by
  induction ks generalizing i acc with
  | nil => exact h
  | cons k ks ih =>
    apply ih
    have hgrow := (Lib.Filling.prefix_fill kMaxDisplayBytes acc.1
      (keyPieces (s.mode == .smartZh) i k.1 k.2)).length_le
    dsimp only
    split
    · exact hgrow
    · exact le_trans h hgrow

end Rendering

section View

variable {env : Env} {s t : ImeLogic}

theorem rendering_congr (h : t.core = s.core) : t.rendering = s.rendering := by
  simp only [ImeLogic.core, Prod.mk.injEq] at h
  rw [ImeLogic.rendering, ImeLogic.rendering, h.1, h.2.1, h.2.2.1]

theorem rendering_nil (h : s.keySeqLen = 0) : s.rendering = [] := by
  rw [ImeLogic.rendering, ImeLogic.keys, h, bytes_zero]
  rfl

/-- The display renders the keys, with a style for keys only. -/
structure Renders (s : ImeLogic) : Prop where
  display : s.display = s.rendering
  style : s.pendingStyle = if s.keySeqLen = 0 then .none else .prefixBold
  matched : s.matchedPrefixBytes ≤ s.display.length

theorem rebuild_renders (s : ImeLogic) : Renders s.rebuildDisplaySmart where
  display := rebuild_from_display s 0 (s.keys.zip s.hints) ([], 0)
  style := rfl
  matched := by
    have hm := rebuild_from_matched s 0 (s.keys.zip s.hints) ([], 0) (Nat.zero_le _)
    show (if s.keySeqLen ≤ s.matchedPrefixKeys then _ else _) ≤ _
    split
    · exact le_refl _
    · exact hm

theorem renders_of_view (hc : t.core.1 = s.core.1 ∧ t.keys = s.keys ∧ t.hints = s.hints)
    (hv : t.pendingView = s.pendingView) (h : Renders s) : Renders t := by
  simp only [ImeLogic.pendingView, PendingView.mk.injEq] at hv
  obtain ⟨hm, hk, hh⟩ := hc
  obtain ⟨hd, -, hb, hs⟩ := hv
  have hm' : t.mode = s.mode := hm
  constructor
  · rw [hd, h.display, ImeLogic.rendering, ImeLogic.rendering, hm', hk, hh]
  · rw [hs, h.style, length_of_keys hk]
  · rw [hb, hd]
    exact h.matched

theorem search_renders (s : ImeLogic) : Renders (s.runSearch env) := by
  have hprepend : ∀ u : ImeLogic, u.prependLruCandidates.pendingView = u.pendingView := by
    intro u
    unfold ImeLogic.prependLruCandidates
    split
    · rfl
    · dsimp only
      split <;> rfl
  unfold ImeLogic.runSearch
  dsimp only
  split
  · exact rebuild_renders _
  · split
    · exact rebuild_renders _
    · obtain ⟨hm, hk, hh, -⟩ := base_keys (prepend_quiet (s.searchStart.runSearchV2Legacy env)).1
      refine renders_of_view ⟨hm, hk, hh⟩ (hprepend _) ?_
      unfold ImeLogic.runSearchV2Legacy
      split <;> exact rebuild_renders _

theorem rendering_ne_nil (hi : Inv s) (hk : s.keySeqLen ≠ 0) (h : ¬ Unlabelled s) :
    s.rendering ≠ [] := by
  have hlen : s.keys.length = s.keySeqLen := bytes_length _ _
  have hlen' : s.hints.length = s.keySeqLen := bytes_length _ _
  have hne : s.keys ≠ [] := fun hnil => hk (by rw [← hlen, hnil, List.length_nil])
  have hrange : ∀ b ∈ s.keys, 0x20 ≤ b ∧ b ≤ 0x34 := by
    intro b hb
    obtain ⟨i, hlt, rfl⟩ := (mem_bytes _ _ _).mp hb
    exact hi.ready.keys.key i hlt
  have hfst : (s.keys.zip s.hints).map Prod.fst = s.keys :=
    List.map_fst_zip (le_of_eq (hlen.trans hlen'.symm))
  have hex : ∃ b ∈ s.keys, (s.mode == .smartZh) = true ∨ b ≠ kUnlabelledKey := by
    cases hm : s.mode with
    | smartZh =>
      obtain ⟨b, bs, hb⟩ := List.exists_cons_of_ne_nil hne
      exact ⟨b, by simp [hb], .inl rfl⟩
    | smartEn =>
      by_contra hno
      push Not at hno
      exact h ⟨hm, hne, fun b hb => (hno b hb).2⟩
    | direct => exact absurd (hi.ready.direct hm) hk
  apply render_from_shows
  · intro k hkmem
    exact hrange k.1 (hfst ▸ List.mem_map_of_mem hkmem)
  · obtain ⟨b, hb, hshow⟩ := hex
    rw [← hfst] at hb
    obtain ⟨k, hkmem, rfl⟩ := List.mem_map.mp hb
    exact ⟨k, hkmem, hshow⟩

theorem view_of_face (hf : t.face = s.face) (h : ViewOk s) : ViewOk t := by
  have hv : t.pendingView = s.pendingView := congrArg (fun f => f.2.1) hf
  have hc := core_of_face hf
  constructor
  · rw [hv]
    exact h.matched
  · rw [hv]
    exact h.inverted
  · rw [hv]
    exact h.style
  · intro hp
    rw [hv, rendering_congr hc, length_of_core hc]
    exact h.rendered (fun hp' => hp ((pending_of_face hf).mpr hp'))

theorem view_of_renders (hi : Inv t) (hu : ¬ Unlabelled t) (h : Renders t) : ViewOk t := by
  have hstr : t.display = [] ↔ t.keySeqLen = 0 := by
    rw [h.display]
    constructor
    · intro hnil
      by_contra hk
      exact rendering_ne_nil hi hk hu hnil
    · exact rendering_nil
  constructor
  · exact h.matched
  · intro hs
    have hstyle := h.style
    rw [show t.pendingStyle = .inverted from hs] at hstyle
    split at hstyle <;> cases hstyle
  · show t.pendingStyle = .none ↔ t.display = []
    rw [h.style, hstr]
    split
    · exact iff_of_true rfl ‹_›
    · exact iff_of_false PendingStyle.noConfusion ‹_›
  · exact fun _ => ⟨h.display, hstr⟩

theorem view_of_blank (hk : t.keySeqLen = 0) (h : t.Blank) : ViewOk t := by
  obtain ⟨hd, hs, hm⟩ := h
  constructor
  · show t.matchedPrefixBytes ≤ _
    omega
  · exact fun _ => hm
  · exact iff_of_true hs hd
  · exact fun _ => ⟨hd.trans (rendering_nil hk).symm, iff_of_true hd hk⟩

theorem view_of_label (h : Labels s t) : ViewOk t := by
  constructor
  · show t.matchedPrefixBytes ≤ _
    rw [h.matched]
    exact Nat.zero_le _
  · exact fun _ => h.matched
  · refine iff_of_false ?_ h.label
    intro hs
    have hstyle := h.style
    rw [show t.pendingStyle = .none from hs] at hstyle
    cases hstyle
  · exact fun hp => absurd h.pending hp

theorem view_outcome {committed dropped : Prop} (hi : Inv t) (hu : ¬ Unlabelled t)
    (hd : ¬ (s.multitapPending ∧ 0 < s.keySeqLen ∧ dropped)) (hs : ViewOk s)
    (h : Outcome env s t committed dropped) : ViewOk t := by
  cases h with
  | shown h =>
    cases h with
    | same face lru why => exact view_of_face face hs
    | moved h =>
      cases h with
      | searched u ready face cache lru =>
        obtain ⟨hm, hk, hh, -⟩ := base_keys (run_search_base env u)
        have hc := core_of_face face
        simp only [ImeLogic.core, Prod.mk.injEq] at hc
        exact view_of_renders hi hu (renders_of_view ⟨hc.1, hc.2.1, hc.2.2.1⟩
          (congrArg (fun f => f.2.1) face) (search_renders u))
      | cleared keys candidates blank lru => exact view_of_blank keys blank
    | labelled u under h => exact view_of_label h
  | dropped h why =>
    have hk : s.keySeqLen = 0 := by
      by_contra hne
      have hpos := Nat.pos_of_ne_zero hne
      exact hd ⟨h.pending, hpos, why hpos⟩
    exact view_of_blank ((length_of_core h.core).trans hk) h.blank

end View

theorem view_init : ViewOk .init := view_of_blank rfl ⟨rfl, rfl, rfl⟩

theorem view_apply (env : Env) (s : ImeLogic) (hi : Inv s) (hs : ViewOk s) (c : Call)
    (hc : KeepsShown env s c) : ViewOk (s.apply env c) := by
  have hi' := inv_apply env s hi c
  cases c with
  | loadLru buf => exact view_of_face (show (s.apply env (.loadLru buf)).face = s.face from rfl) hs
  | _ => exact view_outcome hi' hc.2 hc.1 hs (apply_outcome env s hi _ (fun _ => Call.noConfusion))

/-- After every call of a run in which no label is taken away from over keys that
stay and no SmartEn keys without a letter are left, the view meets its contract. -/
theorem pending_view_contract (env : Env) (calls : List Call)
    (h : Along (callStep env) (KeepsShown env) .init calls) : ViewOk (ImeLogic.run env calls) := by
  have hrun : Inv (.run env calls) ∧ ViewOk (.run env calls) := by
    apply exec_invariant (callStep env) (KeepsShown env) (fun s => Inv s ∧ ViewOk s) _ calls
      ImeLogic.init _ ⟨inv_init, view_init⟩ h (exec_run env calls)
    intro s c t hs hc ht
    exact Option.some.inj ht ▸ ⟨inv_apply env s hs.1 c, view_apply env s hs.1 hs.2 c hc⟩
  exact hrun.2

def bareEnv : Env := ⟨none, none, none, true⟩

/-- ㄅㄉ is typed, then the punctuation over it is cancelled with `DEL`. -/
def cancelOverKey : List Call := [press 0x01 0, press mokyaKeySym2 1, press mokyaKeyDel 2]

def unlabelledPress : List Call := [press mokyaKeyMode 0, press 0x17 1]

/-- The key is still there and the view is empty; the view of the other key has a
style and no text. -/
theorem key_hidden :
    (ImeLogic.run bareEnv cancelOverKey).keys = [0x21] ∧
    (ImeLogic.run bareEnv cancelOverKey).pendingView = ⟨[], 0, 0, .none⟩ ∧
    ¬ ViewOk (ImeLogic.run bareEnv cancelOverKey) ∧
    (ImeLogic.run bareEnv unlabelledPress).pendingView = ⟨[], 0, 0, .prefixBold⟩ ∧
    ¬ ViewOk (ImeLogic.run bareEnv unlabelledPress) := by
  refine ⟨by decide +kernel, by decide +kernel, ?_, by decide +kernel, ?_⟩
  · intro h
    have hidle : ¬ (ImeLogic.run bareEnv cancelOverKey).multitapPending := by decide +kernel
    have hempty : (ImeLogic.run bareEnv cancelOverKey).display = [] := by decide +kernel
    have hlen : (ImeLogic.run bareEnv cancelOverKey).keySeqLen = 1 := by decide +kernel
    have hzero := (h.rendered hidle).2.mp hempty
    rw [hlen] at hzero
    cases hzero
  · intro h
    have hempty : (ImeLogic.run bareEnv unlabelledPress).display = [] := by decide +kernel
    have hstyle : (ImeLogic.run bareEnv unlabelledPress).pendingStyle = .prefixBold := by
      decide +kernel
    have hnone := h.style.mpr hempty
    rw [show (ImeLogic.run bareEnv unlabelledPress).pendingView.style = .prefixBold from hstyle]
      at hnone
    cases hnone

/-- The next key commits the punctuation and is shown behind the first. -/
theorem key_shown : ViewOk (ImeLogic.run bareEnv
    [press 0x01 0, press mokyaKeySym2 1, press 0x0A 2]) := by
  apply pending_view_contract
  refine ⟨⟨fun h => absurd h.1 (by decide +kernel), fun h => absurd h.1 (by decide +kernel)⟩, ?_⟩
  rintro t ⟨⟩
  refine ⟨⟨fun h => absurd h.1 (by decide +kernel), fun h => absurd h.1 (by decide +kernel)⟩, ?_⟩
  rintro t ⟨⟩
  refine ⟨⟨fun h => ?_, fun h => absurd h.1 (by decide +kernel)⟩, fun t ht => trivial⟩
  rcases h.2.2 with hsym1 | ⟨-, hdel | hok | ⟨-, -, hidle⟩⟩
  · exact absurd hsym1.1 (by decide)
  · exact absurd hdel (by decide)
  · exact absurd hok.1 (by decide)
  · rw [IdleInput, if_neg (by decide), if_neg (by decide),
      show keycodeToInputSlot 0x0A = some 8 by decide] at hidle
    exact absurd hidle.2.1 (by decide +kernel)

end MokyaLora.Ime
