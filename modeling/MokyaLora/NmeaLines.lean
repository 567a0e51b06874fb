import MokyaLora.TeseoLiv3fl
import MokyaLora.Lib.Transducer
import Mathlib.Data.List.Forall2
import Mathlib.Data.List.TakeWhile

/-!
# Which NMEA lines are taken

A line begins at its last dollar sign and ends at the line feed. It passes if it fits
the buffer and its checksum is right; but the checksum is read as `strtoul` reads two
characters, and what follows them is not looked at.
-/

set_option autoImplicit false

namespace MokyaLora.TeseoLiv3fl
open Lib.Fields Lib.Transducer

def visible (c : UInt8) : Bool := c ≠ nmeaFillByte && (0x20 ≤ c || c = 0x0A)

/-- The text between line feeds; what the last one leaves open is no line. -/
def rawLines : Bytes → Bytes → List Bytes
  | _, [] => []
  | seg, c::cs => if c = 0x0A then seg::rawLines [] cs else rawLines (seg++[c]) cs

def sentenceText : Bytes → Bytes
  | [] => []
  | c::cs => if c = 0x24 ∧ 0x24 ∉ cs then c::cs else sentenceText cs

def lines (stream : Bytes) : List Bytes := (rawLines [] (stream.filter visible)).map sentenceText

def hexDigit (c : UInt8) : Option ℕ :=
  if 0x30 ≤ c ∧ c ≤ 0x39 then some (c.toNat-0x30)
  else if 0x41 ≤ c ∧ c ≤ 0x46 then some (c.toNat-0x37)
  else if 0x61 ≤ c ∧ c ≤ 0x66 then some (c.toNat-0x57)
  else none

def WellFormed (line : Bytes) : Prop :=
  ∃ body a b x y, line = 0x24::(body++[0x2A, a, b]) ∧ 0x24 ∉ body ∧ 0x2A ∉ body ∧
    hexDigit a = some x ∧ hexDigit b = some y ∧ (nmeaXor body).toNat = 16*x+y

def looseValue (a b : UInt8) : ℤ :=
  match hexDigit a, hexDigit b with
  | some x, some y => 16*x+y
  | some x, none => x
  | none, some y => if a = 0x2D then -y else if a = 0x2B ∨ isSpace a then y else 0
  | none, none => 0

/-- The characters behind the star are read as the checksum, but they are not two digits
with nothing behind them. -/
def Slips (line : Bytes) : Prop :=
  ∃ body a b rest, line = 0x24::(body++0x2A::a::b::rest) ∧ 0x2A ∉ body ∧
    nmeaXor body = UInt8.ofInt (looseValue a b) ∧
    (hexDigit a = none ∨ hexDigit b = none ∨ rest ≠ [])

theorem digit_hex : ∀ c : UInt8,
    hexDigit c = match digitOf c with
      | some d => if d < 16 then some d else none
      | none => none :=
  byte_forall (by decide +kernel)

theorem hex_digit_lt (c : UInt8) (x : ℕ) (h : hexDigit c = some x) : x < 16 := by
  rw [digit_hex] at h
  cases hd : digitOf c with
  | none => simp [hd] at h
  | some d =>
    by_cases hlt : d < 16
    · simp [hd, hlt] at h
      omega
    · simp [hd, hlt] at h

theorem digits_cons (v : ℕ) (c : UInt8) (cs : Bytes) :
    digits 16 v (c::cs) = match hexDigit c with
      | some d => digits 16 (v*16+d) cs
      | none => v := by
  rw [digit_hex, digits]
  cases hd : digitOf c with
  | none => rfl
  | some d => by_cases hlt : d < 16 <;> simp [hlt]

theorem blank_no_digit : ∀ c : UInt8, isSpace c = true ∨ c = 0x2D ∨ c = 0x2B →
    hexDigit c = none :=
  byte_forall (by decide +kernel)

theorem blank_no_sign : ∀ c : UInt8, isSpace c = true → c ≠ 0x2D ∧ c ≠ 0x2B :=
  byte_forall (by decide +kernel)

theorem digits_nil (v : ℕ) : digits 16 v [] = v := rfl

theorem strtol_two (a b : UInt8) : strtol 16 [a, b] = looseValue a b := by
  by_cases ha : isSpace a
  · have hdigit := blank_no_digit a (.inl ha)
    have hsign := blank_no_sign a ha
    by_cases hb : isSpace b
    · simp [strtol, looseValue, ha, hb, hdigit, blank_no_digit b (.inl hb)]
    · by_cases hminus : b = 0x2D
      · have hnone := blank_no_digit b (.inr (.inl hminus))
        simp_all [strtol, looseValue, digits_nil]
      · by_cases hplus : b = 0x2B
        · have hnone := blank_no_digit b (.inr (.inr hplus))
          simp_all [strtol, looseValue, digits_nil]
        · cases hx : hexDigit b <;>
            simp [strtol, looseValue, ha, hb, hdigit, hminus, hplus, hsign, digits_cons, hx,
              digits_nil]
  · by_cases hminus : a = 0x2D
    · have hdigit := blank_no_digit a (.inr (.inl hminus))
      cases hx : hexDigit b <;>
        simp_all [strtol, looseValue, digits_cons, digits_nil]
    · by_cases hplus : a = 0x2B
      · have hdigit := blank_no_digit a (.inr (.inr hplus))
        cases hx : hexDigit b <;>
          simp_all [strtol, looseValue, digits_cons, digits_nil]
      · cases hx : hexDigit a <;> cases hy : hexDigit b <;>
          simp [strtol, looseValue, ha, hminus, hplus, digits_cons, hx, hy, digits_nil,
            Int.mul_comm]

theorem verify_eq (body : Bytes) (a b : UInt8) (rest : Bytes) (h : 0x2A ∉ body) :
    nmeaVerify (0x24::(body++0x2A::a::b::rest)) =
      decide (nmeaXor body = UInt8.ofInt (looseValue a b)) := by
  have hall : ∀ c ∈ body, (decide (c ≠ 0x2A)) = true := by
    intro c hc
    simpa using fun heq : c = 0x2A => h (heq ▸ hc)
  have hdrop : (0x24::(body++0x2A::a::b::rest)).dropWhile (· ≠ 0x2A) = 0x2A::a::b::rest := by
    rw [List.dropWhile_cons_of_pos (by decide), List.dropWhile_append_of_pos hall]
    simp
  have htake : ((0x24::(body++0x2A::a::b::rest)).takeWhile (· ≠ 0x2A)).drop 1 = body := by
    rw [List.takeWhile_cons_of_pos (by decide), List.takeWhile_append_of_pos hall]
    simp
  rw [nmeaVerify, hdrop, htake, if_neg (by simp; omega)]
  simp [strtol_two]

theorem verify_parts (t : Bytes) (h : nmeaVerify (0x24::t) = true) :
    ∃ body a b rest, t = body++0x2A::a::b::rest ∧ 0x2A ∉ body := by
  by_cases hstar : 0x2A ∈ t
  · obtain ⟨body, tail, rfl, hbody⟩ := List.eq_append_cons_of_mem hstar
    have hall : ∀ c ∈ body, (decide (c ≠ 0x2A)) = true := by
      intro c hc
      simpa using fun heq : c = 0x2A => hbody (heq ▸ hc)
    have hdrop : (0x24::(body++0x2A::tail)).dropWhile (· ≠ 0x2A) = 0x2A::tail := by
      rw [List.dropWhile_cons_of_pos (by decide), List.dropWhile_append_of_pos hall]
      simp
    simp only [nmeaVerify, hdrop] at h
    rcases tail with _ | ⟨a, _ | ⟨b, rest⟩⟩
    · simp at h
    · simp at h
    · exact ⟨body, a, b, rest, rfl, hbody⟩
  · have hdrop : (0x24::t).dropWhile (· ≠ 0x2A) = [] := by
      apply List.dropWhile_eq_nil_iff.mpr
      intro c hc
      rcases List.mem_cons.mp hc with rfl | hc
      · decide
      · simpa using fun heq : c = 0x2A => hstar (heq ▸ hc)
    simp only [nmeaVerify, hdrop] at h
    simp at h

theorem xor_digits (sum : UInt8) (x y : ℕ) (hx : x < 16) (hy : y < 16) :
    sum = UInt8.ofInt (16*x+y) ↔ sum.toNat = 16*x+y := by
  have hnat : UInt8.ofInt (16*x+y) = UInt8.ofNat (16*x+y) := by
    rw [UInt8.ofInt]
    congr 1
    omega
  rw [hnat, ← UInt8.toNat_inj, UInt8.toNat_ofNat', Nat.mod_eq_of_lt (by omega)]

theorem verify_iff (t : Bytes) (h : 0x24 ∉ t) :
    nmeaVerify (0x24::t) = true ↔ WellFormed (0x24::t) ∨ Slips (0x24::t) := by
  constructor
  · intro hv
    obtain ⟨body, a, b, rest, rfl, hbody⟩ := verify_parts t hv
    rw [verify_eq body a b rest hbody, decide_eq_true_eq] at hv
    by_cases hexact : hexDigit a = none ∨ hexDigit b = none ∨ rest ≠ []
    · exact .inr ⟨body, a, b, rest, rfl, hbody, hv, hexact⟩
    · simp only [not_or, ← Option.isSome_iff_ne_none, Option.isSome_iff_exists, ne_eq,
        not_not] at hexact
      obtain ⟨⟨x, hx⟩, ⟨y, hy⟩, rfl⟩ := hexact
      rw [looseValue, hx, hy] at hv
      have hsum := (xor_digits _ x y (hex_digit_lt a x hx) (hex_digit_lt b y hy)).mp hv
      exact .inl ⟨body, a, b, x, y, rfl, fun hm => h (by simp [hm]), hbody, hx, hy, hsum⟩
  · rintro (⟨body, a, b, x, y, heq, -, hbody, hx, hy, hsum⟩ | ⟨body, a, b, rest, heq, hbody, hv, -⟩)
    · rw [heq, verify_eq body a b [] hbody, decide_eq_true_eq, looseValue, hx, hy]
      exact (xor_digits _ x y (hex_digit_lt a x hx) (hex_digit_lt b y hy)).mpr hsum
    · rw [heq, verify_eq body a b rest hbody, decide_eq_true_eq]
      exact hv

theorem body_unique (b b' s s' : Bytes) (hb : 0x2A ∉ b) (hb' : 0x2A ∉ b')
    (h : b++0x2A::s = b'++0x2A::s') : b = b' ∧ s = s' := by
  induction b generalizing b' with
  | nil =>
    cases b' with
    | nil => simpa using h
    | cons c b' => exact absurd (by simp [(List.cons.inj h).1]) hb'
  | cons c b ih =>
    cases b' with
    | nil => exact absurd (by simp [(List.cons.inj h).1]) hb
    | cons c' b' =>
      simp only [List.mem_cons, not_or] at hb hb'
      simp only [List.cons_append, List.cons.injEq] at h
      obtain ⟨heq, hrest⟩ := ih b' hb.2 hb'.2 h.2
      exact ⟨by rw [h.1, heq], hrest⟩

theorem slips_not_formed (line : Bytes) (h : Slips line) : ¬ WellFormed line := by
  rintro ⟨body, a, b, x, y, rfl, -, hbody, hx, hy, -⟩
  obtain ⟨body', a', b', rest, heq, hbody', -, hloose⟩ := h
  obtain ⟨-, hrest⟩ := body_unique body body' _ _ hbody hbody' (List.cons.inj heq).2
  simp only [List.cons.injEq] at hrest
  obtain ⟨rfl, rfl, rfl⟩ := hrest
  simp [hx, hy] at hloose

/-- The tests in front of the parsers of `dispatch_line`. -/
def passes (line : Bytes) : Bool :=
  8 ≤ line.length && line.head? == some 0x24 && nmeaVerify line

def lineByte (s : Teseo) (c : UInt8) : Teseo × List Bool :=
  (s.pollByte c, if c = 0x0A then [passes s.line] else [])

def fit (text : Bytes) : Bytes := if text.length < lineBufSize then text else []

theorem sentence_text_snoc (seg : Bytes) (c : UInt8) :
    sentenceText (seg++[c]) =
      if c = 0x24 then [c] else if sentenceText seg = [] then [] else sentenceText seg++[c] := by
  induction seg with
  | nil => by_cases hc : c = 0x24 <;> simp [sentenceText, hc]
  | cons d seg ih =>
    by_cases hc : c = 0x24
    · simpa [sentenceText, hc] using ih
    · by_cases hd : d = 0x24 ∧ 0x24 ∉ seg
      · simp [sentenceText, hd, hc, Ne.symm hc]
      · have hne : ¬ (d = 0x24 ∧ 0x24 ∉ seg++[c]) := by
          simpa [Ne.symm hc] using hd
        rw [List.cons_append, sentenceText, if_neg hne, ih, sentenceText, if_neg hd]

theorem sentence_text_form (seg : Bytes) :
    sentenceText seg = [] ∨ ∃ t, sentenceText seg = 0x24::t ∧ 0x24 ∉ t := by
  induction seg with
  | nil => exact .inl rfl
  | cons c seg ih =>
    by_cases hc : c = 0x24 ∧ 0x24 ∉ seg
    · exact .inr ⟨seg, by simp [sentenceText, hc], hc.2⟩
    · simpa [sentenceText, hc] using ih

theorem accumulate_text (s : Teseo) (seg : Bytes) (c : UInt8) (h : s.line = fit (sentenceText seg))
    (hlf : c ≠ 0x0A) (hcr : c ≠ 0x0D) :
    (s.accumulateByte c).line = fit (sentenceText (seg++[c])) := by
  rw [sentence_text_snoc]
  by_cases hd : c = 0x24
  · simp [Teseo.accumulateByte, hd, fit, lineBufSize]
  · by_cases hnil : sentenceText seg = []
    · have hline : s.line = [] := by simp [h, hnil, fit]
      simp [Teseo.accumulateByte, hd, hlf, hcr, hline, hnil, fit, lineBufSize]
    · have hpos : 0 < (sentenceText seg).length := List.length_pos_iff.mpr hnil
      simp only [Teseo.accumulateByte, hd, hlf, hcr, hnil, h, if_false, fit, lineBufSize,
        List.length_append, List.length_singleton]
      by_cases hroom : (sentenceText seg).length < 95
      · simp [hroom, hpos, show (sentenceText seg).length < 96 by omega]
      · by_cases hfull : (sentenceText seg).length < 96
        · simp [hroom, hfull, show 95 ≤ (sentenceText seg).length by omega]
        · simp [hfull, show ¬ (sentenceText seg).length+1 < 96 by omega, h, fit, lineBufSize]

theorem poll_invisible (s : Teseo) (c : UInt8) (h : visible c = false) : s.pollByte c = s := by
  by_cases hfill : c = nmeaFillByte
  · simp [Teseo.pollByte, hfill]
  · have hlow : c < 0x20 ∧ c ≠ 0x0A := by simpa [visible, hfill] using h
    by_cases hcr : c = 0x0D
    · simp [Teseo.pollByte, Teseo.accumulateByte, hcr]
    · simp [Teseo.pollByte, hfill, hlow, hcr]

theorem poll_visible (s : Teseo) (c : UInt8) (h : visible c = true) :
    s.pollByte c = s.accumulateByte c := by
  have hc : c ≠ nmeaFillByte ∧ (¬ c < 0x20 ∨ c = 0x0A) := by simpa [visible] using h
  have hlow : ¬ (c < 0x20 ∧ c ≠ 0x0D ∧ c ≠ 0x0A) := by tauto
  rw [Teseo.pollByte, if_neg hc.1, if_neg hlow]

theorem verdicts_from (stream seg : Bytes) (s : Teseo) (h : s.line = fit (sentenceText seg)) :
    (run lineByte s stream).2 =
      (rawLines seg (stream.filter visible)).map (fun t => passes (fit (sentenceText t))) := by
  induction stream generalizing seg s with
  | nil => rfl
  | cons c stream ih =>
    by_cases hvis : visible c = true
    · rw [List.filter_cons_of_pos hvis, run_cons, lineByte, rawLines]
      by_cases hlf : c = 0x0A
      · have hnext : (s.pollByte c).line = fit (sentenceText []) := by
          rw [hlf]
          rfl
        simp [hlf, h, ← ih [] (s.pollByte c) hnext]
      · have hcr : c ≠ 0x0D := by
          intro hcr
          rw [hcr] at hvis
          exact absurd hvis (by decide)
        have hnext : (s.pollByte c).line = fit (sentenceText (seg++[c])) := by
          rw [poll_visible s c hvis]
          exact accumulate_text s seg c h hlf hcr
        simp [hlf, ← ih (seg++[c]) (s.pollByte c) hnext]
    · have hout : visible c = false := by simpa using hvis
      have hlf : c ≠ 0x0A := by
        intro hlf
        rw [hlf] at hout
        exact absurd hout (by decide)
      rw [List.filter_cons_of_neg hvis, ← ih seg s h]
      simp [lineByte, hlf, poll_invisible s c hout]

theorem passes_iff (seg : Bytes) :
    passes (fit (sentenceText seg)) = true ↔
      8 ≤ (sentenceText seg).length ∧ (sentenceText seg).length < lineBufSize ∧
        (WellFormed (sentenceText seg) ∨ Slips (sentenceText seg)) := by
  by_cases hfit : (sentenceText seg).length < lineBufSize
  · rw [fit, if_pos hfit]
    rcases sentence_text_form seg with hnil | ⟨t, ht, hdollar⟩
    · simp [hnil, passes]
    · have hlen : t.length+1 < lineBufSize := by rwa [ht, List.length_cons] at hfit
      simp [ht, passes, verify_iff t hdollar, hlen]
  · rw [fit, if_neg hfit]
    simp [passes, hfit]

/-- The verdict is right on every line of a stream, whatever stands between and however
the stream is read, just if no line that fits slips through. -/
theorem acceptance_iff (chunks : List Bytes) :
    List.Forall₂ (fun line verdict =>
        verdict = true ↔ 8 ≤ line.length ∧ line.length < lineBufSize ∧ WellFormed line)
      (lines chunks.flatten) (runChunks lineByte .init chunks).2 ↔
    ∀ line ∈ lines chunks.flatten,
      8 ≤ line.length → line.length < lineBufSize → ¬ Slips line := by
  rw [run_chunks, verdicts_from chunks.flatten [] .init rfl, lines,
    List.forall₂_map_left_iff, List.forall₂_map_right_iff, List.forall₂_same]
  simp only [List.forall_mem_map, passes_iff]
  constructor
  · intro h t ht hlen hfit hslip
    exact slips_not_formed _ hslip ((h t ht).mp ⟨hlen, hfit, .inr hslip⟩).2.2
  · intro h t ht
    have hno := h t ht
    tauto

def trailing : Bytes := ascii "$GPGSV,1,1,00*79,\n"

/-- A checksum that is right with a comma behind it. -/
theorem trailing_passes :
    ¬ List.Forall₂ (fun line verdict =>
        verdict = true ↔ 8 ≤ line.length ∧ line.length < lineBufSize ∧ WellFormed line)
      (lines [trailing].flatten) (runChunks lineByte .init [trailing]).2 := by
  have hlines : lines [trailing].flatten = [ascii "$GPGSV,1,1,00*79,"] := by decide +kernel
  have hverdicts : (runChunks lineByte .init [trailing]).2 = [true] := by decide +kernel
  have hslips : Slips (ascii "$GPGSV,1,1,00*79,") :=
    ⟨ascii "GPGSV,1,1,00", 0x37, 0x39, [0x2C], by decide +kernel, by decide +kernel,
      by decide +kernel, by simp⟩
  rw [hlines, hverdicts, List.forall₂_cons]
  intro h
  exact slips_not_formed _ hslips (h.1.mp rfl).2.2

end MokyaLora.TeseoLiv3fl
