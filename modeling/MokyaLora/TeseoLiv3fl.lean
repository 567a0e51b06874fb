import MokyaLora.Lib.Cycles
import MokyaLora.Lib.Fields

/-!
# GNSS driver

The satellite tables of the Teseo-LIV3FL driver (`teseo_liv3fl.c`). Bytes from the
receiver are put together to lines, the lines whose checksum is right are parsed, and
the GSV and `$PSTMRF` sentences fill accumulators that are published at the end of
their cycle.
-/

set_option autoImplicit false

namespace MokyaLora.TeseoLiv3fl
open Lib.Cycles Lib.Fields

def nmeaFillByte : UInt8 := 0xFF

def lineBufSize : ℕ := 96

def fieldBufSize : ℕ := 16

def ascii (s : String) : Bytes := s.toList.map (fun c => UInt8.ofNat c.toNat)

def isSpace (c : UInt8) : Bool := c = 0x20 || (0x09 ≤ c && c ≤ 0x0D)

def digitOf (c : UInt8) : Option ℕ :=
  if 0x30 ≤ c ∧ c ≤ 0x39 then some (c.toNat-0x30)
  else if 0x41 ≤ c ∧ c ≤ 0x5A then some (c.toNat-0x37)
  else if 0x61 ≤ c ∧ c ≤ 0x7A then some (c.toNat-0x57)
  else none

def digits (radix v : ℕ) : Bytes → ℕ
  | [] => v
  | c::cs =>
    match digitOf c with
    | some d => if d < radix then digits radix (v*radix+d) cs else v
    | none => v

/-- A number with blanks and a sign before it. -/
def strtol (radix : ℕ) (s : Bytes) : ℤ :=
  match s.dropWhile isSpace with
  | [] => 0
  | c::cs =>
    if c = 0x2D then -(digits radix 0 cs : ℤ)
    else if c = 0x2B then digits radix 0 cs
    else digits radix 0 (c::cs)

def atoi (s : Bytes) : ℤ := max (-2147483648) (min 2147483647 (strtol 10 s))

def nmeaXor (body : Bytes) : UInt8 := body.foldl (fun c b => c ^^^ b) 0

/-- `nmea_verify`. Two characters hold no radix prefix with a digit behind it. -/
def nmeaVerify (line : Bytes) : Bool :=
  if line.length < 4 ∨ line.head? ≠ some 0x24 then false
  else
    let star := line.dropWhile (· ≠ 0x2A)
    if star.length < 3 then false
    else nmeaXor ((line.takeWhile (· ≠ 0x2A)).drop 1) =
      UInt8.ofInt (strtol 16 ((star.drop 1).take 2))

/-- The rest of the body behind `n` commas. -/
def skipFields : Bytes → ℕ → Option Bytes
  | p, 0 => some p
  | [], _+1 => none
  | c::p, n+1 =>
    if c = 0 ∨ c = 0x2A then none
    else if c = 0x2C then skipFields p n
    else skipFields p (n+1)

/-- `nmea_field`; a false return is `none`, and leaves an empty string. -/
def nmeaField (body : Bytes) (n outSz : ℕ) : Option Bytes :=
  (skipFields body n).map
    (fun p => (p.takeWhile (fun c => c ≠ 0 && c ≠ 0x2C && c ≠ 0x2A)).take (outSz-1))

structure Accum (α : Type) where
  expectedTotal : UInt8
  nextIdx : UInt8
  items : List α

def Accum.empty {α : Type} : Accum α := ⟨0, 0, []⟩

/-- The satellites of a sentence, up to the first empty one or until the table is full. -/
def collect {α : Type} (cap : ℕ) (read : ℕ → Option α) : ℕ → ℕ → List α → List α
  | 0, _, items => items
  | k+1, s, items =>
    if items.length < cap then
      match read s with
      | none => items
      | some x => collect cap read k (s+1) (items++[x])
    else items

def Accum.sentence {α : Type} (cap slots : ℕ) (acc : Accum α) (total idx : UInt8)
    (read : ℕ → Option α) : Accum α × Bool :=
  let acc := if idx = 1 then ⟨total, 1, []⟩ else acc
  if idx ≠ acc.nextIdx then ({ acc with nextIdx := 0 }, false)
  else
    let acc := { acc with items := collect cap read slots 0 acc.items, nextIdx := idx+1 }
    if idx = total then ({ acc with nextIdx := 0 }, true) else (acc, false)

/-- The amount of messages and the index of this one. -/
def header (body : Bytes) : Option (ℤ × ℤ) :=
  (nmeaField body 1 fieldBufSize).bind (fun total =>
    (nmeaField body 2 fieldBufSize).map (fun idx => (atoi total, atoi idx)))

structure View (α : Type) where
  sats : List α
  updateCount : UInt32

def View.publish {α : Type} (v : View α) (sats : List α) : View α := ⟨sats, v.updateCount+1⟩

structure SatInfo where
  prn : UInt8
  elevationDeg : UInt8
  azimuthDeg : UInt16
  snrDbhz : UInt8
  deriving DecidableEq

structure RfSat where
  prn : UInt8
  cn0Dbhz : UInt8
  phaseNoise : Int16
  freqHz : Int32
  deriving DecidableEq

structure GsvAccum where
  talker : UInt16
  acc : Accum SatInfo

structure Teseo where
  line : Bytes
  gsv : List GsvAccum
  satView : View SatInfo
  rf : Accum RfSat
  rfState : View RfSat

def Teseo.init : Teseo := ⟨[], List.replicate 4 ⟨0, .empty⟩, ⟨[], 0⟩, .empty, ⟨[], 0⟩⟩

def gsvAccumFor (gsv : List GsvAccum) (talker : UInt16) : Option ℕ :=
  match gsv.findIdx? (fun a => a.talker = talker) with
  | some i => some i
  | none => gsv.findIdx? (fun a => a.talker = 0)

def accAt (gsv : List GsvAccum) (i : ℕ) : Accum SatInfo := ((gsv[i]?).map GsvAccum.acc).getD .empty

def talkerOf (type : Bytes) : UInt16 :=
  (type.getD 0 0).toUInt16 <<< 8 ||| (type.getD 1 0).toUInt16

def gsvSat (body : Bytes) (s : ℕ) : Option SatInfo :=
  let base := 4+s*4
  match nmeaField body base 8 with
  | none => none
  | some prn =>
    if prn = [] then none
    else
      let el := (nmeaField body (base+1) 8).getD []
      let az := (nmeaField body (base+2) 8).getD []
      let snr := (nmeaField body (base+3) 8).getD []
      some {
        prn := UInt8.ofInt (atoi prn)
        elevationDeg := UInt8.ofInt (atoi el)
        azimuthDeg := UInt16.ofInt (atoi az)
        snrDbhz := if snr = [] then 0 else UInt8.ofInt (atoi snr) }

def Teseo.publishSatView (s : Teseo) : Teseo :=
  { s with satView := s.satView.publish ((s.gsv.flatMap (fun a => a.acc.items)).take 32) }

def Teseo.parseGsv (s : Teseo) (body : Bytes) : Teseo :=
  let talker := talkerOf body
  match gsvAccumFor s.gsv talker with
  | none => s
  | some i =>
    let acc := accAt s.gsv i
    match header body with
    | none => { s with gsv := s.gsv.set i ⟨talker, acc⟩ }
    | some (total, idx) =>
      let r := acc.sentence 16 4 (UInt8.ofInt total) (UInt8.ofInt idx) (gsvSat body)
      let s := { s with gsv := s.gsv.set i ⟨talker, r.1⟩ }
      if r.2 then s.publishSatView else s

def rfSat (body : Bytes) (sat : ℕ) : Option RfSat :=
  let base := 4+sat*4
  match nmeaField body base 8 with
  | none => none
  | some id =>
    if id = [] then none
    else
      let phn := (nmeaField body (base+1) 8).getD []
      let frq := (nmeaField body (base+2) 12).getD []
      let cn := (nmeaField body (base+3) 8).getD []
      some {
        prn := UInt8.ofInt (atoi id)
        cn0Dbhz := if cn = [] then 0 else UInt8.ofInt (atoi cn)
        phaseNoise := Int16.ofInt (atoi phn)
        freqHz := Int32.ofInt (atoi frq) }

def Teseo.parsePstmRf (s : Teseo) (body : Bytes) : Teseo :=
  match header body with
  | none => s
  | some (total, idx) =>
    let r := s.rf.sentence 32 3 (UInt8.ofInt total) (UInt8.ofInt idx) (rfSat body)
    let s := { s with rf := r.1 }
    if r.2 then { s with rfState := s.rfState.publish r.1.items } else s

inductive Sentence where
  | gsv (body : Bytes)
  | pstmRf (body : Bytes)

/-- What `dispatch_line` passes on to a parser of satellites. The other sentences leave
both tables and their accumulators alone. -/
def sentenceOf (line : Bytes) : Option Sentence :=
  if line.length < 8 ∨ line.head? ≠ some 0x24 ∨ ¬ nmeaVerify line then none
  else
    let body := line.drop 1
    if body.take 4 = ascii "PSTM" then
      if body.take 7 = ascii "PSTMRF," then some (.pstmRf body) else none
    else if (body.drop 2).take 3 = ascii "GSV" then some (.gsv body)
    else none

def Teseo.dispatchLine (s : Teseo) : Teseo :=
  match sentenceOf s.line with
  | none => s
  | some (.gsv body) => s.parseGsv body
  | some (.pstmRf body) => s.parsePstmRf body

def Teseo.accumulateByte (s : Teseo) (c : UInt8) : Teseo :=
  if c = 0x24 then { s with line := [c] }
  else if c = 0x0A then { s.dispatchLine with line := [] }
  else if c = 0x0D then s
  else if 0 < s.line.length ∧ s.line.length < lineBufSize-1 then { s with line := s.line++[c] }
  else if lineBufSize-1 ≤ s.line.length then { s with line := [] }
  else s

def Teseo.pollByte (s : Teseo) (c : UInt8) : Teseo :=
  if c = nmeaFillByte then s
  else if c < 0x20 ∧ c ≠ 0x0D ∧ c ≠ 0x0A then s
  else s.accumulateByte c

def Teseo.poll (s : Teseo) (bytes : Bytes) : Teseo := bytes.foldl Teseo.pollByte s

end MokyaLora.TeseoLiv3fl
