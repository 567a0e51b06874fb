import Mathlib.Data.List.Basic
import MokyaLora.Lib.Program
import MokyaLora.Lib.Schedule

/-!
# The battery charger

The driver (`bq25622.c`) talks to the BQ25622 in sections under the mutex of the power bus.
A section is a sequence of transfers. Before each transfer the charger's watchdog may
expire, and each transfer may fail without effect; a script says what happens. An expiry
sets `WD_STAT` and puts the charge limits, CTRL1 and ADC_CTRL back to their power-on
values; `WD_STAT` stays set until `WD_RST` is written.
-/

set_option autoImplicit false

namespace MokyaLora.Bq25622
open Lib.Program

def regIchgLo : UInt8 := 0x02

def regVregLo : UInt8 := 0x04

def regIindpmLo : UInt8 := 0x06

def regChargerCtrl1 : UInt8 := 0x16

def regStatus0 : UInt8 := 0x1D

def regAdcCtrl : UInt8 := 0x26

def regIbusAdcLo : UInt8 := 0x28

def regPartInfo : UInt8 := 0x38

def ctrl1EnChg : UInt8 := 0x20

def ctrl1WdRst : UInt8 := 0x04

def ctrl1WatchdogMask : UInt8 := 0x03

def adcCtrlProduction : UInt8 := 0x80

def status0WdStat : UInt8 := 0x01

def targetVregMv : UInt16 := 4100

def targetIchgMa : UInt16 := 480

def targetIindpmMa : UInt16 := 500

def failDisconnectCount : UInt32 := 5

def adcBlockBytes : ℕ := 16

inductive WdWindow where
  | off
  | s50
  | s100
  | s200
  deriving DecidableEq

def WdWindow.field : WdWindow → UInt8
  | .off => 0
  | .s50 => 1
  | .s100 => 2
  | .s200 => 3

structure State where
  online : Bool
  vbusMv : UInt16
  vbatMv : UInt16
  vsysMv : UInt16
  vpmidMv : UInt16
  ibusMa : Int16
  ibatMa : Int16
  tsPctX10 : UInt16
  tdieCx10 : Int16
  chgStat : UInt8
  vbusStat : UInt8
  tsStat : UInt8
  batFault : Bool
  sysFault : Bool
  tshut : Bool
  wdWindow : WdWindow
  wdExpiredCount : UInt32
  i2cFailCount : UInt32

def State.initial : State where
  online := false
  vbusMv := 0
  vbatMv := 0
  vsysMv := 0
  vpmidMv := 0
  ibusMa := 0
  ibatMa := 0
  tsPctX10 := 0
  tdieCx10 := 0
  chgStat := 0
  vbusStat := 0
  tsStat := 0
  batFault := false
  sysFault := false
  tshut := false
  wdWindow := .s50
  wdExpiredCount := 0
  i2cFailCount := 0

inductive Event where
  | expired
  | wrote (reg : UInt8) (bytes : List UInt8)
  deriving DecidableEq

structure Dev where
  pointer : UInt8
  regs : UInt8 → UInt8
  /-- The power-on values. -/
  por : UInt8 → UInt8
  wdStat : Bool
  /-- The expiries and the successful writes, the newest first. -/
  log : List Event

def expiryResets (reg : UInt8) : Bool :=
  (regIchgLo ≤ reg && reg ≤ regIindpmLo+1) || reg = regChargerCtrl1 || reg = regAdcCtrl

def Dev.expire (d : Dev) : Dev :=
  { d with
    regs := fun r => if expiryResets r then d.por r else d.regs r
    wdStat := true
    log := .expired::d.log }

/-- The other registers show what the charger measures. -/
def holdsWritten (reg : UInt8) : Bool := reg < regStatus0 || reg = regAdcCtrl

def Dev.readByte (d : Dev) (levels : UInt8 → UInt8) (reg : UInt8) : UInt8 :=
  if reg = regStatus0 then
    (levels reg &&& ~~~status0WdStat) ||| (if d.wdStat then status0WdStat else 0)
  else if holdsWritten reg then d.regs reg
  else levels reg

/-- `WD_RST` clears itself. -/
def Dev.putByte (d : Dev) (reg b : UInt8) : Dev :=
  if reg = regChargerCtrl1 then
    { d with
      regs := Function.update d.regs reg (b &&& ~~~ctrl1WdRst)
      wdStat := d.wdStat && b &&& ctrl1WdRst = 0 }
  else { d with regs := Function.update d.regs reg b }

def Dev.putBytes (d : Dev) (reg : UInt8) : List UInt8 → Dev
  | [] => { d with pointer := reg }
  | b::bs => (d.putByte reg b).putBytes (reg+1) bs

def Dev.write (d : Dev) (reg : UInt8) (bytes : List UInt8) : Dev :=
  { d.putBytes reg bytes with log := .wrote reg bytes::d.log }

structure Env where
  expired : Bool
  fails : Bool
  /-- What the measured registers show. -/
  levels : UInt8 → UInt8

structure World where
  dev : Dev
  drv : State
  script : ℕ → Env

def World.under (w : World) (script : ℕ → Env) : World := { w with script := script }

inductive Op where
  | select (reg : UInt8)
  | read (len : ℕ)
  | write (reg : UInt8) (bytes : List UInt8)
  | store (f : State → State)

abbrev Reply : Op → Type
  | .read len => Vector UInt8 len
  | _ => Unit

def World.met (w : World) : Dev := if (w.script 0).expired then w.dev.expire else w.dev

def World.after (w : World) (d : Dev) : World :=
  { w with dev := d, script := fun n => w.script (n+1) }

def transfer {β : Type} (f : Dev → (UInt8 → UInt8) → β × Dev) (w : World) : Option β × World :=
  if (w.script 0).fails then (none, w.after w.met)
  else (some (f w.met (w.script 0).levels).1, w.after (f w.met (w.script 0).levels).2)

def perform : (op : Op) → World → Option (Reply op) × World
  | .select reg => transfer (fun d _ => ((), { d with pointer := reg }))
  | .read len => transfer (fun d levels =>
      (Vector.ofFn (fun i : Fin len => d.readByte levels (d.pointer+UInt8.ofNat i)),
        { d with pointer := d.pointer+UInt8.ofNat len }))
  | .write reg bytes => transfer (fun d _ => ((), d.write reg bytes))
  | .store f => fun w => (some (), { w with drv := f w.drv })

abbrev Bus := Prog Op Reply

def request (t : Op) : Bus (Reply t) := op t

def store (f : State → State) : Bus Unit := request (.store f)

def regWriteU8 (reg val : UInt8) : Bus Unit := request (.write reg [val])

def regWriteU16 (regLo loByte hiByte : UInt8) : Bus Unit := request (.write regLo [loByte, hiByte])

def regReadU8 (reg : UInt8) : Bus UInt8 := do
  let _ ← request (.select reg)
  let out ← request (.read 1)
  pure out[0]

def regReadBlock (reg : UInt8) (len : ℕ) : Bus (Vector UInt8 len) := do
  let _ ← request (.select reg)
  request (.read len)

def ctrl1Update (clearMask setMask : UInt8) : Bus Unit := do
  let v ← regReadU8 regChargerCtrl1
  regWriteU8 regChargerCtrl1 ((v &&& ~~~clearMask) ||| setMask)

def packVreg (mv : UInt16) : UInt8 × UInt8 :=
  let raw := mv/10
  (((raw &&& 0x1F) <<< 3).toUInt8, ((raw >>> 5) &&& 0x0F).toUInt8)

def packIchg (ma : UInt16) : UInt8 × UInt8 :=
  let raw := ma/80
  (((raw &&& 0x03) <<< 6).toUInt8, ((raw >>> 2) &&& 0x0F).toUInt8)

def packIindpm (ma : UInt16) : UInt8 × UInt8 :=
  let raw := ma/20
  (((raw &&& 0x0F) <<< 4).toUInt8, ((raw >>> 4) &&& 0x0F).toUInt8)

def word (lo hi : UInt8) : UInt16 := lo.toUInt16 ||| (hi.toUInt16 <<< 8)

def scaled (raw : UInt16) (step : UInt32) : UInt16 := (raw.toUInt32*step/100).toUInt16

def decodeAdc (b : Vector UInt8 16) (s : State) : State :=
  let tdieRaw := word (b.get 14) (b.get 15) &&& 0x0FFF
  { s with
    ibusMa := ((word (b.get 0) (b.get 1)).toInt16 >>> 1)*2
    ibatMa := ((word (b.get 2) (b.get 3)).toInt16 >>> 2)*4
    vbusMv := scaled ((word (b.get 4) (b.get 5) >>> 2) &&& 0x1FFF) 397
    vpmidMv := scaled ((word (b.get 6) (b.get 7) >>> 2) &&& 0x1FFF) 397
    vbatMv := scaled ((word (b.get 8) (b.get 9) >>> 1) &&& 0x0FFF) 199
    vsysMv := scaled ((word (b.get 10) (b.get 11) >>> 1) &&& 0x0FFF) 199
    tsPctX10 := ((word (b.get 12) (b.get 13) &&& 0x0FFF).toUInt32*961/1000).toUInt16
    tdieCx10 := (if tdieRaw &&& 0x0800 ≠ 0 then tdieRaw ||| 0xF000 else tdieRaw).toInt16*5 }

def hwInit (wd : WdWindow) : Bus Unit := do
  let pi ← regReadU8 regPartInfo
  if (pi >>> 3) &&& 0x07 ≠ 0x01 then .fail
  else do
    regWriteU16 regVregLo (packVreg targetVregMv).1 (packVreg targetVregMv).2
    regWriteU16 regIchgLo (packIchg targetIchgMa).1 (packIchg targetIchgMa).2
    regWriteU16 regIindpmLo (packIindpm targetIindpmMa).1 (packIindpm targetIindpmMa).2
    ctrl1Update ctrl1WatchdogMask (ctrl1EnChg ||| ctrl1WdRst ||| wd.field)
    regWriteU8 regAdcCtrl adcCtrlProduction

def readStatus : Bus (Vector UInt8 3) := regReadBlock regStatus0 3

def wdExpired (st : Vector UInt8 3) : Bool := st[0] &&& status0WdStat ≠ 0

/-- The branch of `poll_once` that an expiry is dealt with in. -/
def recover (wd : WdWindow) : Bus (Vector UInt8 3) := do
  hwInit wd
  store (fun s => { s with wdExpiredCount := s.wdExpiredCount+1 })
  readStatus

/-- The branch of `poll_once` with the regular kick. -/
def kick (wd : WdWindow) (st : Vector UInt8 3) : Bus (Vector UInt8 3) :=
  if wd ≠ .off then do
    ctrl1Update 0 ctrl1WdRst
    pure st
  else pure st

def publishStatus (st : Vector UInt8 3) (s : State) : State :=
  { s with
    chgStat := (st[1] >>> 3) &&& 0x03
    vbusStat := st[1] &&& 0x07
    tsStat := st[2] &&& 0x07
    tshut := (st[2] >>> 3) &&& 1 ≠ 0
    sysFault := (st[2] >>> 5) &&& 1 ≠ 0
    batFault := (st[2] >>> 6) &&& 1 ≠ 0 }

/-- What `poll_once` does once the watchdog is seen to. -/
def publish (st : Vector UInt8 3) : Bus Unit := do
  store (publishStatus st)
  let adc ← regReadBlock regIbusAdcLo adcBlockBytes
  store (decodeAdc adc)
  store (fun s => { s with i2cFailCount := 0, online := true })

def tendWatchdog (wd : WdWindow) (st : Vector UInt8 3) : Bus (Vector UInt8 3) :=
  if wdExpired st then recover wd else kick wd st

def pollBody (wd : WdWindow) : Bus Unit := do
  let st ← readStatus
  let st ← tendWatchdog wd st
  publish st

/-- The `fail` label of `poll_once`. -/
def pollFailed (s : State) : State :=
  let count := if s.i2cFailCount < 4294967295 then s.i2cFailCount+1 else s.i2cFailCount
  { s with
    i2cFailCount := count
    online := if count ≥ failDisconnectCount then false else s.online }

def pollOnce (w : World) : Bool × World :=
  match run perform (pollBody w.drv.wdWindow) w with
  | (some _, u) => (true, u)
  | (none, u) => (false, { u with drv := pollFailed u.drv })

/-- One attempt of `charger_task` at the initial set-up, and whether it succeeded. -/
def initOnce (w : World) : Bool × World :=
  match run perform (hwInit w.drv.wdWindow) w with
  | (some _, u) => (true, { u with drv := { u.drv with online := true } })
  | (none, u) => (false, { u with drv := { u.drv with i2cFailCount := u.drv.i2cFailCount+1 } })

theorem pollOnce_dev (w : World) :
    (pollOnce w).2.dev = (run perform (pollBody w.drv.wdWindow) w).2.dev := by
  rw [pollOnce]
  rcases run perform (pollBody w.drv.wdWindow) w with ⟨a, u⟩
  cases a <;> rfl

theorem pollOnce_done (w : World) :
    (pollOnce w).1 = (run perform (pollBody w.drv.wdWindow) w).1.isSome := by
  rw [pollOnce]
  rcases run perform (pollBody w.drv.wdWindow) w with ⟨a, u⟩
  cases a <;> rfl

theorem initOnce_dev (w : World) :
    (initOnce w).2.dev = (run perform (hwInit w.drv.wdWindow) w).2.dev := by
  rw [initOnce]
  rcases run perform (hwInit w.drv.wdWindow) w with ⟨a, u⟩
  cases a <;> rfl

theorem initOnce_done (w : World) :
    (initOnce w).1 = (run perform (hwInit w.drv.wdWindow) w).1.isSome := by
  rw [initOnce]
  rcases run perform (hwInit w.drv.wdWindow) w with ⟨a, u⟩
  cases a <;> rfl

def scripted (expiries failures : List ℕ) : ℕ → Env :=
  fun n => ⟨expiries.contains n, failures.contains n, fun _ => 0x0A⟩

def powerOn : World where
  dev := ⟨0, fun _ => 0, fun _ => 0, false, []⟩
  drv := .initial
  script := scripted [] []

theorem or_and (a b m : UInt8) : (a ||| b) &&& m = (a &&& m) ||| (b &&& m) := by
  apply UInt8.toNat_inj.mp
  rw [UInt8.toNat_and, UInt8.toNat_or, UInt8.toNat_or, UInt8.toNat_and, UInt8.toNat_and,
    Nat.and_or_distrib_right]

theorem cleared_and (v m : UInt8) : (v &&& ~~~m) &&& m = 0 := by
  rw [UInt8.and_assoc, UInt8.and_comm (~~~m), UInt8.and_not_self, UInt8.and_zero]

theorem set_and {x m : UInt8} (hx : x &&& m ≠ 0) (v : UInt8) : (v ||| x) &&& m ≠ 0 := by
  intro hzero
  rw [or_and, UInt8.or_eq_zero_iff] at hzero
  exact hx hzero.2

theorem window_written (v x : UInt8) (wd : WdWindow) (hx : x &&& ctrl1WatchdogMask = 0) :
    ((v &&& ~~~ctrl1WatchdogMask) ||| (x ||| wd.field)) &&& ctrl1WatchdogMask = wd.field := by
  rw [or_and, or_and, cleared_and, hx, UInt8.zero_or, UInt8.zero_or]
  cases wd <;> rfl

/-- A property that an expiry and the running pointer leave alone. -/
structure Stable (P : Dev → Prop) : Prop where
  expire : ∀ d, P d → P d.expire
  point : ∀ d p, P d → P { d with pointer := p }

theorem Stable.met {P : Dev → Prop} (h : Stable P) {w : World} (hw : P w.dev) : P w.met := by
  rw [World.met]
  split
  · exact h.expire _ hw
  · exact hw

theorem Stable.and {P Q : Dev → Prop} (hP : Stable P) (hQ : Stable Q) :
    Stable (fun d => P d ∧ Q d) where
  expire := fun d h => ⟨hP.expire d h.1, hQ.expire d h.2⟩
  point := fun d p h => ⟨hP.point d p h.1, hQ.point d p h.2⟩

section Transfers
variable {ok : Op → World → Prop} {P : Dev → Prop} {E : Dev → Prop}

theorem select_points (hP : Stable P) (reg : UInt8) :
    Meets perform ok (fun w => P w.dev) (request (.select reg))
      (fun _ w => w.dev.pointer = reg ∧ P w.dev) (fun w => P w.dev) := by
  apply meets_op
  intro w hw _
  have hmet := hP.met hw
  rw [perform, transfer]
  split
  · exact hmet
  · exact ⟨rfl, hP.point _ _ hmet⟩

theorem select_keeps (hP : Stable P) (reg : UInt8) :
    Meets perform ok (fun w => P w.dev) (request (.select reg)) (fun _ w => P w.dev)
      (fun w => P w.dev) :=
  meets_mono (select_points hP reg) (fun _ h => h) (fun _ _ h => h.2) (fun _ h => h)

theorem read_meets (len : ℕ) {Q : Vector UInt8 len → Dev → Prop}
    (hdone : ∀ w : World, P w.dev → ok (.read len) w →
      Q (Vector.ofFn (fun i => w.met.readByte (w.script 0).levels (w.met.pointer+UInt8.ofNat i)))
        { w.met with pointer := w.met.pointer+UInt8.ofNat len })
    (hfail : ∀ w : World, P w.dev → E w.met) :
    Meets perform ok (fun w => P w.dev) (request (.read len)) (fun r w => Q r w.dev)
      (fun w => E w.dev) := by
  apply meets_op
  intro w hw ht
  rw [perform, transfer]
  split
  · exact hfail w hw
  · exact hdone w hw ht

theorem write_meets (reg : UInt8) (bytes : List UInt8) {Q : Dev → Prop}
    (hdone : ∀ w : World, P w.dev → ok (.write reg bytes) w → (w.script 0).fails = false →
      Q (w.met.write reg bytes))
    (hfail : ∀ w : World, P w.dev → ok (.write reg bytes) w → (w.script 0).fails = true →
      E w.met) :
    Meets perform ok (fun w => P w.dev) (request (.write reg bytes)) (fun _ w => Q w.dev)
      (fun w => E w.dev) := by
  apply meets_op
  intro w hw ht
  rw [perform, transfer]
  split
  case isTrue hf => exact hfail w hw ht hf
  case isFalse hf => exact hdone w hw ht (Bool.eq_false_iff.mpr hf)

theorem store_keeps (f : State → State) :
    Meets perform ok (fun w => P w.dev) (store f) (fun _ w => P w.dev) (fun w => P w.dev) :=
  meets_op (fun _ hw _ => hw)

theorem read_keeps (hP : Stable P) (len : ℕ) :
    Meets perform ok (fun w => P w.dev) (request (.read len)) (fun _ w => P w.dev)
      (fun w => P w.dev) :=
  read_meets len (fun _ hw _ => hP.point _ _ (hP.met hw)) (fun _ hw => hP.met hw)

theorem block_keeps (hP : Stable P) (reg : UInt8) (len : ℕ) :
    Meets perform ok (fun w => P w.dev) (regReadBlock reg len) (fun _ w => P w.dev)
      (fun w => P w.dev) :=
  meets_bind (select_keeps hP reg) (fun _ => read_keeps hP len)

theorem byte_keeps (hP : Stable P) (reg : UInt8) :
    Meets perform ok (fun w => P w.dev) (regReadU8 reg) (fun _ w => P w.dev)
      (fun w => P w.dev) :=
  meets_bind (select_keeps hP reg)
    (fun _ => meets_bind (read_keeps hP 1) (fun _ => meets_ret (fun _ hw => hw)))

theorem met_pointer (w : World) : w.met.pointer = w.dev.pointer := by
  rw [World.met]
  split <;> rfl

theorem status_bit (d : Dev) (levels : UInt8 → UInt8) :
    (d.readByte levels regStatus0 &&& status0WdStat ≠ 0) ↔ d.wdStat = true := by
  rw [Dev.readByte, if_pos rfl, or_and, cleared_and, UInt8.zero_or]
  cases d.wdStat <;> decide

theorem status_meets (hP : Stable P) :
    Meets perform ok (fun w => P w.dev) readStatus
      (fun st w => wdExpired st = w.dev.wdStat ∧ P w.dev) (fun w => P w.dev) := by
  apply meets_bind (select_points hP regStatus0)
  intro _
  apply read_meets (P := fun d => d.pointer = regStatus0 ∧ P d)
    (Q := fun st d => wdExpired st = d.wdStat ∧ P d) (E := P)
  · intro w h _
    have hpoint : w.met.pointer+UInt8.ofNat 0 = regStatus0 := by
      rw [met_pointer, h.1]
      rfl
    have hbit := status_bit w.met (w.script 0).levels
    refine ⟨?_, hP.point _ _ (hP.met h.2)⟩
    apply Bool.eq_iff_iff.mpr
    rw [wdExpired, decide_eq_true_eq, Vector.getElem_ofFn, hpoint]
    exact hbit
  · exact fun w h => hP.met h.2

theorem publish_keeps (hP : Stable P) (st : Vector UInt8 3) :
    Meets perform ok (fun w => P w.dev) (publish st) (fun _ w => P w.dev) (fun w => P w.dev) :=
  meets_bind (store_keeps _) (fun _ => meets_bind (block_keeps hP _ _)
    (fun _ => meets_bind (store_keeps _) (fun _ => store_keeps _)))

end Transfers

def KeepsWindow : Op → Prop
  | .store f => ∀ s, (f s).wdWindow = s.wdWindow
  | _ => True

theorem transfer_drv {β : Type} (f : Dev → (UInt8 → UInt8) → β × Dev) (w : World) :
    (transfer f w).2.drv = w.drv := by
  rw [transfer]
  split <;> rfl

theorem perform_window (wd : WdWindow) (t : Op) (w : World) (ht : KeepsWindow t)
    (hw : w.drv.wdWindow = wd) : (perform t w).2.drv.wdWindow = wd := by
  cases t with
  | select reg => exact (congrArg State.wdWindow (transfer_drv _ w)).trans hw
  | read len => exact (congrArg State.wdWindow (transfer_drv _ w)).trans hw
  | write reg bytes => exact (congrArg State.wdWindow (transfer_drv _ w)).trans hw
  | store f => exact (ht w.drv).trans hw

theorem block_calls (reg : UInt8) (len : ℕ) : Calls KeepsWindow (regReadBlock reg len) :=
  calls_bind (calls_op trivial) (fun _ => calls_op trivial)

theorem byte_calls (reg : UInt8) : Calls KeepsWindow (regReadU8 reg) :=
  calls_bind (calls_op trivial) (fun _ => calls_bind (calls_op trivial) (fun _ => trivial))

theorem ctrl1_calls (clearMask setMask : UInt8) :
    Calls KeepsWindow (ctrl1Update clearMask setMask) :=
  calls_bind (byte_calls _) (fun _ => calls_op trivial)

theorem hwInit_calls (wd : WdWindow) : Calls KeepsWindow (hwInit wd) := by
  apply calls_bind (byte_calls regPartInfo)
  intro pi
  split
  · trivial
  · exact calls_bind (calls_op trivial) (fun _ => calls_bind (calls_op trivial)
      (fun _ => calls_bind (calls_op trivial) (fun _ => calls_bind (ctrl1_calls _ _)
        (fun _ => calls_op trivial))))

theorem pollBody_calls (wd : WdWindow) : Calls KeepsWindow (pollBody wd) := by
  apply calls_bind (block_calls regStatus0 3)
  intro st
  apply calls_bind
  · rw [tendWatchdog]
    split
    · exact calls_bind (hwInit_calls wd) (fun _ => calls_bind (calls_op (fun _ => rfl))
        (fun _ => block_calls _ _))
    · rw [kick]
      split
      · exact calls_bind (ctrl1_calls _ _) (fun _ => trivial)
      · trivial
  · exact fun st => calls_bind (calls_op (fun _ => rfl)) (fun _ => calls_bind (block_calls _ _)
      (fun _ => calls_bind (calls_op (fun _ => rfl)) (fun _ => calls_op (fun _ => rfl))))

theorem initOnce_window (w : World) : (initOnce w).2.drv.wdWindow = w.drv.wdWindow := by
  have hkeep := run_keeps (fun u : World => u.drv.wdWindow = w.drv.wdWindow)
    (perform_window w.drv.wdWindow) _ (hwInit_calls w.drv.wdWindow) w rfl
  rw [initOnce]
  split <;> simpa [*] using hkeep

theorem pollOnce_window (w : World) : (pollOnce w).2.drv.wdWindow = w.drv.wdWindow := by
  have hkeep := run_keeps (fun u : World => u.drv.wdWindow = w.drv.wdWindow)
    (perform_window w.drv.wdWindow) _ (pollBody_calls w.drv.wdWindow) w rfl
  rw [pollOnce]
  split <;> simpa [*, pollFailed] using hkeep

end MokyaLora.Bq25622
