import MokyaLora.NmeaLines
import MokyaLora.Lib.DoubleBuffer

/-!
# The dummy GPS task

The task of `gps_dummy.c` writes a GGA or an RMC sentence by turns and gives them to Core 0
through the double buffer of the shared memory (`IpcGpsBuf`). Core 0 takes the slot that the
index does not name, at any time; the driver of the receiver would accept the sentences.
-/

set_option autoImplicit false

namespace MokyaLora.GpsDummy
open Lib.Fields Lib.Schedule Lib.Transducer
open Lib.DoubleBuffer (Act State InTime messages)
open TeseoLiv3fl (ascii nmeaXor nmeaVerify nmeaField atoi fieldBufSize lineByte)

def decDigits (n : ℕ) : Bytes := (Nat.toDigits 10 n).map (fun c => UInt8.ofNat c.toNat)

def fmtU (width n : ℕ) : Bytes := List.replicate (width-(decDigits n).length) 0x30++decDigits n

def hexUpper (d : ℕ) : UInt8 := UInt8.ofNat (if d < 10 then 0x30+d else 0x37+d)

def fmtX (b : UInt8) : Bytes := [hexUpper (b.toNat/16), hexUpper (b.toNat%16)]

def dummyLatDeg : ℕ := 25
def dummyLatMinX1e5 : ℕ := 312618
def dummyLonDeg : ℕ := 121
def dummyLonMinX1e5 : ℕ := 3444234
def dummyAltDm : ℕ := 500
def dummyFixQuality : ℕ := 1
def dummyNumSats : ℕ := 8
def dummyHdopX10 : ℕ := 9

def bodySize : ℕ := 96

def sentenceSize : ℕ := 128

def nmeaChecksum (body : Bytes) : UInt8 := body.foldl (fun cs b => cs ^^^ b) 0

/-- The frame around a body; a sentence that does not fit is `none`. -/
def finalizeNmea (cap : ℕ) (body : Bytes) : Option Bytes :=
  let out := 0x24::(body++0x2A::(fmtX (nmeaChecksum body)++[0x0D, 0x0A]))
  if out.length < cap then some out else none

def timeOfDay (secondsSinceBoot : UInt32) : ℕ := (secondsSinceBoot % 86400).toNat

def clock (secondsSinceBoot : UInt32) : Bytes :=
  let t := timeOfDay secondsSinceBoot
  fmtU 2 (t/3600)++(fmtU 2 (t/60%60)++fmtU 2 (t%60))

def latLon : Bytes :=
  fmtU 2 dummyLatDeg++fmtU 2 (dummyLatMinX1e5/100000)++ascii "."++
    fmtU 5 (dummyLatMinX1e5%100000)++ascii ",N,"++
  fmtU 3 dummyLonDeg++fmtU 2 (dummyLonMinX1e5/100000)++ascii "."++
    fmtU 5 (dummyLonMinX1e5%100000)++ascii ",E,"

def ggaTail : Bytes :=
  ascii ".00,"++latLon++fmtU 0 dummyFixQuality++ascii ","++fmtU 2 dummyNumSats++ascii ","++
    fmtU 0 (dummyHdopX10/10)++ascii "."++fmtU 0 (dummyHdopX10%10)++ascii ","++
    fmtU 0 (dummyAltDm/10)++ascii "."++fmtU 0 (dummyAltDm%10)++ascii ",M,0.0,M,,"

def rmcTail : Bytes := ascii ".00,A,"++latLon++ascii "0.00,0.00,260426,,,A"

def formatBody (head tail : Bytes) (cap : ℕ) (secondsSinceBoot : UInt32) : Option Bytes :=
  let body := head++(clock secondsSinceBoot++tail)
  if body.length < bodySize then finalizeNmea cap body else none

def formatGga : ℕ → UInt32 → Option Bytes := formatBody (ascii "GPGGA,") ggaTail

def formatRmc : ℕ → UInt32 → Option Bytes := formatBody (ascii "GPRMC,") rmcTail

structure Locals where
  seconds : UInt32
  sendRmc : Bool

/-- One turn of the loop up to the copy. -/
def turn (x : Locals) : Option Bytes × Locals :=
  let sentence :=
    if x.sendRmc then formatRmc sentenceSize x.seconds else formatGga sentenceSize x.seconds
  (sentence.filter (fun out => out.length ≤ sentenceSize),
    ⟨if x.sendRmc then x.seconds else x.seconds+1, !x.sendRmc⟩)

def gpsDummyTask : State UInt8 Locals → Act → Option (State UInt8 Locals) :=
  Lib.DoubleBuffer.step turn

/-- The buffer after the reset; `s_seconds` is kept when the task is spawned anew. -/
def start (cells : Bool → ℕ → UInt8) (seconds : UInt32) : State UInt8 Locals :=
  Lib.DoubleBuffer.init cells ⟨seconds, false⟩

def secondOf (seconds : UInt32) (n : ℕ) : UInt32 := seconds+UInt32.ofNat ((n+1)/2)

def sentence (seconds : UInt32) (n : ℕ) : Option Bytes :=
  if n % 2 = 0 then formatGga sentenceSize (secondOf seconds n)
  else formatRmc sentenceSize (secondOf seconds n)

theorem two_digits : ∀ n < 100, fmtU 2 n = [UInt8.ofNat (0x30+n/10), UInt8.ofNat (0x30+n%10)] := by
  decide +kernel

theorem digit_of : ∀ d < 10, TeseoLiv3fl.digitOf (UInt8.ofNat (0x30+d)) = some d := by
  decide +kernel

theorem time_parts (s : UInt32) :
    timeOfDay s/3600 < 24 ∧ timeOfDay s/60%60 < 60 ∧ timeOfDay s%60 < 60 := by
  have h : timeOfDay s < 86400 := by
    rw [timeOfDay, UInt32.toNat_mod]
    exact Nat.mod_lt _ (by decide)
  omega

def plain (c : UInt8) : Bool :=
  0x20 ≤ c && c ≠ TeseoLiv3fl.nmeaFillByte && c ≠ 0x24 && c ≠ 0x2A

theorem digit_plain : ∀ d < 10, plain (UInt8.ofNat (0x30+d)) = true := by decide +kernel

theorem two_plain (n : ℕ) (h : n < 100) : (fmtU 2 n).all plain = true := by
  rw [two_digits n h, List.all_cons, List.all_cons, digit_plain _ (by omega),
    digit_plain _ (by omega)]
  rfl

theorem clock_plain (s : UInt32) : (clock s).all plain = true := by
  obtain ⟨hh, hm, hs⟩ := time_parts s
  simp only [clock, List.all_append, Bool.and_eq_true]
  exact ⟨two_plain _ (by omega), two_plain _ (by omega), two_plain _ (by omega)⟩

theorem clock_length (s : UInt32) : (clock s).length = 6 := by
  obtain ⟨hh, hm, hs⟩ := time_parts s
  rw [clock, List.length_append, List.length_append, two_digits _ (by omega),
    two_digits _ (by omega), two_digits _ (by omega)]
  rfl

def framed (body : Bytes) : Bytes := 0x24::(body++0x2A::(fmtX (nmeaXor body)++[0x0D, 0x0A]))

def lineOf (body : Bytes) : Bytes := 0x24::(body++0x2A::fmtX (nmeaXor body))

theorem framed_length (body : Bytes) : (framed body).length = body.length+6 := by
  simp [framed, fmtX]

structure Framing (head tail : Bytes) : Prop where
  short : head.length+tail.length ≤ 60
  long : 1 ≤ head.length
  plainHead : head.all plain = true
  plainTail : tail.all plain = true
  skip : ∀ rest, TeseoLiv3fl.skipFields (head++rest) 1 = some rest
  point : tail.take 4 = ascii ".00,"

theorem gga_head : ascii "GPGGA," = [0x47, 0x50, 0x47, 0x47, 0x41, 0x2C] := by decide

theorem rmc_head : ascii "GPRMC," = [0x47, 0x50, 0x52, 0x4D, 0x43, 0x2C] := by decide

theorem gga_framing : Framing (ascii "GPGGA,") ggaTail where
  short := by decide +kernel
  long := by decide
  plainHead := by decide
  plainTail := by decide +kernel
  skip := fun rest => by
    rw [gga_head]
    simp [TeseoLiv3fl.skipFields]
  point := by decide +kernel

theorem rmc_framing : Framing (ascii "GPRMC,") rmcTail where
  short := by decide +kernel
  long := by decide
  plainHead := by decide
  plainTail := by decide +kernel
  skip := fun rest => by
    rw [rmc_head]
    simp [TeseoLiv3fl.skipFields]
  point := by decide +kernel

section Format

variable {head tail : Bytes} (h : Framing head tail) (s : UInt32)
include h

theorem body_plain : (head++(clock s++tail)).all plain = true := by
  simp only [List.all_append, Bool.and_eq_true]
  exact ⟨h.plainHead, clock_plain s, h.plainTail⟩

theorem body_length :
    (head++(clock s++tail)).length ≤ 66 ∧ 7 ≤ (head++(clock s++tail)).length := by
  have hlong := h.long
  have hshort := h.short
  rw [List.length_append, List.length_append, clock_length]
  omega

theorem format_body :
    formatBody head tail sentenceSize s = some (framed (head++(clock s++tail))) := by
  have hlen := (body_length h s).1
  have hsum : nmeaChecksum (head++(clock s++tail)) = nmeaXor (head++(clock s++tail)) := rfl
  have hout := framed_length (head++(clock s++tail))
  have hfits : (head++(clock s++tail)).length < bodySize := by
    rw [bodySize]
    omega
  rw [formatBody, if_pos hfits, finalizeNmea, hsum]
  exact if_pos (show (framed (head++(clock s++tail))).length < sentenceSize by
    rw [hout, sentenceSize]; omega)

end Format

theorem plain_visible : ∀ c : UInt8, plain c = true →
    TeseoLiv3fl.visible c = true ∧ c ≠ 0x24 ∧ c ≠ 0x2A ∧ c ≠ 0x0A :=
  byte_forall (by decide +kernel)

theorem hex_upper : ∀ d < 16, TeseoLiv3fl.hexDigit (hexUpper d) = some d ∧
    plain (hexUpper d) = true := by
  decide +kernel

theorem fmt_x_plain (b : UInt8) : (fmtX b).all plain = true := by
  have hlt := b.toNat_lt
  simp only [fmtX, List.all_cons, (hex_upper _ (show b.toNat/16 < 16 by omega)).2,
    (hex_upper _ (show b.toNat%16 < 16 by omega)).2]
  rfl

theorem not_mem_plain {b : Bytes} (h : b.all plain = true) (c : UInt8) (hc : plain c = false) :
    c ∉ b := by
  intro hmem
  rw [List.all_eq_true.mp h c hmem] at hc
  cases hc

theorem filter_plain {b : Bytes} (h : b.all plain = true) :
    b.filter TeseoLiv3fl.visible = b :=
  List.filter_eq_self.mpr (fun c hc => (plain_visible c (List.all_eq_true.mp h c hc)).1)

theorem raw_lines_line (line rest seg : Bytes) (h : 0x0A ∉ line) :
    TeseoLiv3fl.rawLines seg (line++0x0A::rest) =
      (seg++line)::TeseoLiv3fl.rawLines [] rest := by
  induction line generalizing seg with
  | nil =>
    rw [List.nil_append, List.append_nil, TeseoLiv3fl.rawLines, if_pos rfl]
  | cons c line ih =>
    rw [List.mem_cons, not_or] at h
    rw [List.cons_append, TeseoLiv3fl.rawLines, if_neg (Ne.symm h.1), ih (seg++[c]) h.2,
      List.append_assoc]
    rfl

theorem framed_lines (body rest : Bytes) (h : body.all plain = true) :
    TeseoLiv3fl.rawLines [] ((framed body++rest).filter TeseoLiv3fl.visible) =
      lineOf body::TeseoLiv3fl.rawLines [] (rest.filter TeseoLiv3fl.visible) := by
  have hx := fmt_x_plain (nmeaXor body)
  have hfilter : (framed body++rest).filter TeseoLiv3fl.visible =
      lineOf body++0x0A::rest.filter TeseoLiv3fl.visible := by
    have hcr : ¬ TeseoLiv3fl.visible 0x0D = true := by decide
    have hlf : TeseoLiv3fl.visible 0x0A = true := by decide
    have hstar : TeseoLiv3fl.visible 0x2A = true := by decide
    have hdollar : TeseoLiv3fl.visible 0x24 = true := by decide
    simp only [framed, lineOf, List.filter_append, List.cons_append,
      List.filter_cons_of_pos hstar, List.filter_cons_of_pos hdollar, filter_plain h,
      filter_plain hx, List.filter_cons_of_neg hcr, List.filter_cons_of_pos hlf,
      List.append_assoc, List.nil_append]
  have hno : 0x0A ∉ lineOf body := by
    have hbody := not_mem_plain h 0x0A (by decide)
    have hsum := not_mem_plain hx 0x0A (by decide)
    simp only [lineOf, List.mem_cons, List.mem_append, not_or]
    exact ⟨by decide, hbody, by decide, hsum⟩
  rw [hfilter, raw_lines_line _ _ _ hno, List.nil_append]

theorem line_passes (body : Bytes) (h : body.all plain = true) (hlen : body.length ≤ 66)
    (hlong : 7 ≤ body.length) :
    TeseoLiv3fl.passes (TeseoLiv3fl.fit (TeseoLiv3fl.sentenceText (lineOf body))) = true := by
  have hbody := not_mem_plain h 0x24 (by decide)
  have hsum := not_mem_plain (fmt_x_plain (nmeaXor body)) 0x24 (by decide)
  have htext : TeseoLiv3fl.sentenceText (lineOf body) = lineOf body := by
    refine if_pos ⟨rfl, ?_⟩
    simp only [List.mem_append, List.mem_cons, not_or]
    exact ⟨hbody, by decide, hsum⟩
  have hlt := (nmeaXor body).toNat_lt
  have hsize : (lineOf body).length = body.length+4 := by simp [lineOf, fmtX]
  rw [TeseoLiv3fl.passes_iff, htext, hsize]
  refine ⟨by omega, by rw [TeseoLiv3fl.lineBufSize]; omega, .inl ?_⟩
  refine ⟨body, hexUpper ((nmeaXor body).toNat/16), hexUpper ((nmeaXor body).toNat%16),
    (nmeaXor body).toNat/16, (nmeaXor body).toNat%16, rfl, hbody,
    not_mem_plain h 0x2A (by decide), (hex_upper _ (by omega)).1, (hex_upper _ (by omega)).1, ?_⟩
  omega

theorem digits_two (v n : ℕ) (rest : Bytes) (h : n < 100) :
    TeseoLiv3fl.digits 10 v (fmtU 2 n++rest) = TeseoLiv3fl.digits 10 (v*100+n) rest := by
  have hhi := digit_of (n/10) (by omega)
  have hlo := digit_of (n%10) (by omega)
  rw [two_digits n h]
  simp only [List.cons_append, List.nil_append, TeseoLiv3fl.digits, hhi, hlo]
  rw [if_pos (by omega), if_pos (by omega), show (v*10+n/10)*10+n%10 = v*100+n by omega]

def hhmmss (t : ℕ) : ℕ := t/3600*10000+t/60%60*100+t%60

theorem digit_no_blank : ∀ d < 10, TeseoLiv3fl.isSpace (UInt8.ofNat (0x30+d)) = false ∧
    UInt8.ofNat (0x30+d) ≠ 0x2D ∧ UInt8.ofNat (0x30+d) ≠ 0x2B := by
  decide +kernel

theorem strtol_clock (s : UInt32) :
    TeseoLiv3fl.strtol 10 (clock s++ascii ".00") = hhmmss (timeOfDay s) := by
  obtain ⟨hh, hm, hs⟩ := time_parts s
  obtain ⟨hspace, hminus, hplus⟩ := digit_no_blank (timeOfDay s/3600/10) (by omega)
  have hvalue : TeseoLiv3fl.digits 10 0 (clock s++ascii ".00") = hhmmss (timeOfDay s) := by
    rw [clock, List.append_assoc, List.append_assoc, digits_two _ _ _ (by omega),
      digits_two _ _ _ (by omega), digits_two _ _ _ (by omega)]
    show ((0*100+timeOfDay s/3600)*100+timeOfDay s/60%60)*100+timeOfDay s%60 = _
    rw [hhmmss]
    omega
  obtain ⟨rest, hcons⟩ : ∃ rest, clock s++ascii ".00" =
      UInt8.ofNat (0x30+timeOfDay s/3600/10)::rest := by
    rw [clock, two_digits _ (show timeOfDay s/3600 < 100 by omega)]
    exact ⟨_, rfl⟩
  rw [hcons] at hvalue ⊢
  rw [TeseoLiv3fl.strtol, List.dropWhile_cons_of_neg (by rw [hspace]; decide)]
  simp only [if_neg hminus, if_neg hplus, hvalue]

theorem clock_field (s : UInt32) (rest : Bytes) :
    ((clock s++(ascii ".00,"++rest)).takeWhile (fun c => c ≠ 0 && c ≠ 0x2C && c ≠ 0x2A)) =
      clock s++ascii ".00" := by
  have hall : ∀ c ∈ clock s, (decide (c ≠ 0) && decide (c ≠ 0x2C) && decide (c ≠ 0x2A)) = true := by
    obtain ⟨hh, hm, hs⟩ := time_parts s
    have hdigit : ∀ d < 10, (decide (UInt8.ofNat (0x30+d) ≠ 0) &&
        decide (UInt8.ofNat (0x30+d) ≠ 0x2C) && decide (UInt8.ofNat (0x30+d) ≠ 0x2A)) = true := by
      decide +kernel
    intro c hc
    rw [clock, two_digits _ (show timeOfDay s/3600 < 100 by omega),
      two_digits _ (show timeOfDay s/60%60 < 100 by omega),
      two_digits _ (show timeOfDay s%60 < 100 by omega)] at hc
    simp only [List.cons_append, List.nil_append, List.mem_cons, List.not_mem_nil, or_false] at hc
    rcases hc with rfl | rfl | rfl | rfl | rfl | rfl <;> exact hdigit _ (by omega)
  have hpoint : ascii ".00," = [0x2E, 0x30, 0x30, 0x2C] := by decide
  have hshort : ascii ".00" = [0x2E, 0x30, 0x30] := by decide
  rw [List.takeWhile_append_of_pos hall, hpoint, hshort]
  rfl

theorem time_field {head tail : Bytes} (h : Framing head tail) (s : UInt32) :
    (nmeaField ((framed (head++(clock s++tail))).drop 1) 1 fieldBufSize).map atoi =
      some (hhmmss (timeOfDay s) : ℤ) := by
  obtain ⟨hh, hm, hs⟩ := time_parts s
  have htail : tail = ascii ".00,"++tail.drop 4 := by
    rw [← h.point, List.take_append_drop]
  have hlen : (clock s++ascii ".00").length = 9 := by
    rw [List.length_append, clock_length]
    rfl
  have hskip : TeseoLiv3fl.skipFields ((framed (head++(clock s++tail))).drop 1) 1 =
      some (clock s++(ascii ".00,"++(tail.drop 4++
        0x2A::(fmtX (nmeaXor (head++(clock s++tail)))++[0x0D, 0x0A])))) := by
    rw [framed, List.drop_one, List.tail_cons, List.append_assoc, h.skip, List.append_assoc]
    generalize fmtX (nmeaXor (head++(clock s++tail)))++[0x0D, 0x0A] = frame
    conv => lhs; rw [htail, List.append_assoc]
  rw [nmeaField, hskip, Option.map_some, Option.map_some, clock_field,
    List.take_of_length_le (by rw [hlen]; decide), atoi, strtol_clock]
  have hlt : hhmmss (timeOfDay s) < 240000 := by
    rw [hhmmss]
    omega
  congr 1
  omega

theorem framing_of (n : ℕ) : ∃ head tail, Framing head tail ∧ ∀ cap s,
    (if n % 2 = 0 then formatGga cap s else formatRmc cap s) = formatBody head tail cap s := by
  by_cases hn : n % 2 = 0
  · exact ⟨_, _, gga_framing, fun cap s => if_pos hn⟩
  · exact ⟨_, _, rmc_framing, fun cap s => if_neg hn⟩

/-- The driver takes the sentence for a line that passes, and reads the time. -/
structure Accepted (out : Bytes) (second : UInt32) : Prop where
  size : out.length ≤ 72
  line : ∀ rest, ∃ line,
    TeseoLiv3fl.passes (TeseoLiv3fl.fit (TeseoLiv3fl.sentenceText line)) = true ∧
    TeseoLiv3fl.rawLines [] ((out++rest).filter TeseoLiv3fl.visible) =
      line::TeseoLiv3fl.rawLines [] (rest.filter TeseoLiv3fl.visible)
  time : (nmeaField (out.drop 1) 1 fieldBufSize).map atoi = some (hhmmss (timeOfDay second) : ℤ)

theorem sentence_accepted (seconds : UInt32) (n : ℕ) :
    ∃ out, sentence seconds n = some out ∧ Accepted out (secondOf seconds n) := by
  obtain ⟨head, tail, h, heq⟩ := framing_of n
  have hplain := body_plain h (secondOf seconds n)
  obtain ⟨hlen, hlong⟩ := body_length h (secondOf seconds n)
  refine ⟨_, (heq _ _).trans (format_body h (secondOf seconds n)), ?_, fun rest => ?_,
    time_field h _⟩
  · rw [framed_length]
    omega
  · exact ⟨_, line_passes _ hplain hlen hlong, framed_lines _ rest hplain⟩

theorem locals_turn (seconds : UInt32) (n : ℕ) :
    (fun y => (turn y).2)^[n] ⟨seconds, false⟩ = ⟨secondOf seconds n, decide (n % 2 = 1)⟩ := by
  induction n with
  | zero =>
    rw [secondOf, Function.iterate_zero_apply]
    exact congrArg (fun s => (⟨s, false⟩ : Locals)) (UInt32.add_zero seconds).symm
  | succ n ih =>
    rw [Function.iterate_succ_apply', ih]
    rcases Nat.mod_two_eq_zero_or_one n with hn | hn
    · have hsucc : (n+1) % 2 = 1 := by omega
      have hhalf : (n+1+1)/2 = (n+1)/2+1 := by omega
      simp only [turn, hn, hsucc, secondOf, hhalf, UInt32.ofNat_add, ← UInt32.add_assoc]
      rfl
    · have hsucc : (n+1) % 2 = 0 := by omega
      have hhalf : (n+1+1)/2 = (n+1)/2 := by omega
      simp only [turn, hn, hsucc, secondOf, hhalf]
      rfl

theorem messages_turn (seconds : UInt32) (n : ℕ) :
    (messages turn n ⟨seconds, false⟩).map some = (List.range n).map (sentence seconds) := by
  induction n with
  | zero => rfl
  | succ n ih =>
    obtain ⟨out, hout, hok⟩ := sentence_accepted seconds n
    have hturn : (turn ⟨secondOf seconds n, decide (n % 2 = 1)⟩).1 = some out := by
      have hsame : (if decide (n % 2 = 1) = true then formatRmc sentenceSize (secondOf seconds n)
          else formatGga sentenceSize (secondOf seconds n)) = some out := by
        rw [← hout, sentence]
        rcases Nat.mod_two_eq_zero_or_one n with hn | hn <;> simp [hn]
      have hsize : out.length ≤ sentenceSize := hok.size.trans (by decide)
      rw [turn]
      simp only [hsame, Option.filter_some, hsize, decide_true, if_true]
    rw [Lib.DoubleBuffer.messages_succ, List.map_append, ih, locals_turn, hturn, List.range_succ,
      List.map_append, List.map_singleton, hout]
    rfl

theorem published_lines (outs : List Bytes) (h : ∀ out ∈ outs, ∃ second, Accepted out second) :
    (TeseoLiv3fl.rawLines [] (outs.flatten.filter TeseoLiv3fl.visible)).map
      (fun t => TeseoLiv3fl.passes (TeseoLiv3fl.fit (TeseoLiv3fl.sentenceText t))) =
    List.replicate outs.length true := by
  induction outs with
  | nil => rfl
  | cons out outs ih =>
    obtain ⟨second, hok⟩ := h out List.mem_cons_self
    obtain ⟨line, hpass, hlines⟩ := hok.line outs.flatten
    rw [List.flatten_cons, hlines, List.map_cons, hpass,
      ih (fun o ho => h o (List.mem_cons_of_mem out ho)), List.length_cons, List.replicate_succ]

theorem published_sentences {seconds : UInt32} {n : ℕ} {ms : List Bytes}
    (h : ms <+: messages turn n ⟨seconds, false⟩) :
    ms.map some = (List.range ms.length).map (sentence seconds) := by
  have hmap := messages_turn seconds n
  obtain ⟨rest, hrest⟩ := h
  have hlen := congrArg List.length hmap
  rw [← hrest, List.map_append] at hmap
  rw [← hrest, List.length_map, List.length_map, List.length_range, List.length_append] at hlen
  have htake := congrArg (List.take ms.length) hmap
  rwa [List.take_left' (List.length_map ..), ← List.map_take, List.take_range,
    Nat.min_eq_left (by omega)] at htake

/-- Whatever Core 0 reads and whenever: the sentences that are published are GGA and RMC by
turns, with the time of day that the driver reads back, at most 72 bytes, and the driver of
the receiver takes every one of them; and a reader that takes the index, the length and the
bytes before the task begins the second sentence after its look has got the newest sentence
at its look, whole, or nothing if there was none. -/
theorem reader_gets_sentence (cells : Bool → ℕ → UInt8) (seconds : UInt32) (acts : List Act)
    (s : State UInt8 Locals) (he : exec gpsDummyTask (start cells seconds) acts = some s) :
    s.published.map some = (List.range s.published.length).map (sentence seconds) ∧
    (∀ n out, s.published[n]? = some out → out.length ≤ 72 ∧
      (nmeaField (out.drop 1) 1 fieldBufSize).map atoi =
        some (hhmmss (timeOfDay (secondOf seconds n)) : ℤ)) ∧
    (run lineByte .init s.published.flatten).2 = List.replicate s.published.length true ∧
    (InTime s → s.count = some s.got.length →
      s.start = 0 ∧ s.got = [] ∨ 0 < s.start ∧ s.published[s.start-1]? = some s.got) := by
  obtain ⟨hstart, hpast, hread⟩ := Lib.DoubleBuffer.read_whole turn _ cells acts s he
  have hsentences := published_sentences hstart
  have hget : ∀ n out, s.published[n]? = some out → Accepted out (secondOf seconds n) := by
    intro n out hn
    have hmap := congrArg (fun l => l[n]?) hsentences
    obtain ⟨hlt, -⟩ := List.getElem?_eq_some_iff.mp hn
    simp only [List.getElem?_map, hn, List.getElem?_range hlt, Option.map_some,
      Option.some.injEq] at hmap
    obtain ⟨out', hout, hok⟩ := sentence_accepted seconds n
    rw [hout, Option.some.injEq] at hmap
    exact hmap ▸ hok
  refine ⟨hsentences, fun n out hn => ⟨(hget n out hn).size, (hget n out hn).time⟩, ?_, ?_⟩
  · rw [TeseoLiv3fl.verdicts_from s.published.flatten [] .init rfl]
    refine published_lines s.published (fun out hout => ?_)
    obtain ⟨n, hn⟩ := List.mem_iff_getElem?.mp hout
    exact ⟨_, hget n out hn⟩
  · intro ht hc
    have hgot := hread ht hc
    cases hstart : s.start with
    | zero => exact .inl ⟨rfl, by rw [hgot, hstart]; rfl⟩
    | succ n =>
      refine .inr ⟨Nat.succ_pos n, ?_⟩
      have hlt : n < s.published.length := by omega
      rw [hgot, hstart, Lib.DoubleBuffer.nth, List.getD_cons_succ, Nat.add_sub_cancel,
        List.getD_eq_getElem?_getD, List.getElem?_eq_getElem hlt, Option.getD_some]

/-- The first sentence, read while the second one is being copied. -/
def readFirst : List Act :=
  .wake::(List.replicate 74 .store++(.look::.wake::(List.replicate 40 .store++
    (.measure::List.replicate 72 .read))))

theorem first_sentence_read :
    ∃ s, exec gpsDummyTask (start (fun _ _ => 0x55) 3725) readFirst = some s ∧
      s.published[0]? = some s.got ∧ s.got.length = 72 := by
  have hrun : (exec gpsDummyTask (start (fun _ _ => 0x55) 3725) readFirst).map
      (fun s => (s.begun.length, s.start, s.count, s.got.length)) = some (2, 1, some 72, 72) := by
    decide +kernel
  obtain ⟨s, hs, heq⟩ := Option.map_eq_some_iff.mp hrun
  simp only [Prod.mk.injEq] at heq
  obtain ⟨hbegun, hstart, hcount, hgot⟩ := heq
  have hread := (reader_gets_sentence _ _ _ s hs).2.2.2
    (by rw [InTime, hbegun, hstart]) (by rw [hcount, hgot])
  rw [hstart] at hread
  exact ⟨s, hs, (hread.resolve_left (fun h => by cases h.1)).2, hgot⟩

end MokyaLora.GpsDummy
