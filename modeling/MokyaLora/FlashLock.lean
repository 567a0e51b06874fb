import MokyaLora.Lib.Schedule
import Mathlib.Logic.Function.Basic

/-!
# The two flash locks

Each core wraps its flash erase and program calls in a handshake that parks the
other one: it stores REQUEST, rings a doorbell, polls for PARKED within a bounded
number of loads, masks its interrupts and runs the operation. The doorbell
handler of the other core acknowledges and spins on its lock. The handler is an
interrupt, so it runs on top of the core's own flash call wherever interrupts are
enabled, and both directions are in progress at once. Core 0 mirrors the code of
Core 1.
-/

set_option autoImplicit false

namespace MokyaLora.FlashLock
open Lib.Schedule

inductive Core where
  | core0
  | core1
  deriving DecidableEq

def Core.peer : Core → Core
  | .core0 => .core1
  | .core1 => .core0

@[simp] theorem peer_peer (c : Core) : c.peer.peer = c := by
  cases c <;> rfl

@[simp] theorem peer_ne (c : Core) : c.peer ≠ c := by
  cases c <;> decide

@[simp] theorem ne_peer (c : Core) : c ≠ c.peer := (peer_ne c).symm

theorem eq_or_peer (c d : Core) : d = c ∨ d = c.peer := by
  cases c <;> cases d <;> decide

inductive Lock where
  | idle
  | request
  | parked
  deriving DecidableEq

def mokyaParkWaitSpins : ℕ := 750000

/-- How a call got to the masking of its interrupts: the peer was not ready and
nothing was asked of it, the poll ran out, or the poll saw PARKED. -/
inductive Wait where
  | notReady
  | ranOut
  | acked
  deriving DecidableEq

/-- Where `__wrap_flash_range_erase` or `__wrap_flash_range_program` stands. -/
inductive WriterPc where
  | idle
  | loadReady
  | storeRequest
  | ringDoorbell
  | waiting (i : ℕ)
  | mask (w : Wait)
  | flashOp (w : Wait) (saved : Bool)
  | restore (w : Wait) (saved : Bool)
  | storeIdle (w : Wait)
  deriving DecidableEq

/-- Where the doorbell handler stands. -/
inductive ParkerPc where
  | away
  | clearDoorbell
  | testRequest
  | storeParked
  | mask
  | spin (saved : Bool)
  | restore (saved : Bool)
  deriving DecidableEq

/-- `lock c` is the lock of the direction in which `c` writes and its peer parks. -/
structure System where
  writer : Core → WriterPc
  parker : Core → ParkerPc
  irq : Core → Bool
  doorbell : Core → Bool
  ready : Core → Bool
  lock : Core → Lock

def System.init : System where
  writer _ := .idle
  parker _ := .away
  irq _ := true
  doorbell _ := false
  ready _ := false
  lock _ := .idle

def System.setWriter (s : System) (c : Core) (pc : WriterPc) : System :=
  { s with writer := Function.update s.writer c pc }

def System.setParker (s : System) (c : Core) (pc : ParkerPc) : System :=
  { s with parker := Function.update s.parker c pc }

def System.setIrq (s : System) (c : Core) (b : Bool) : System :=
  { s with irq := Function.update s.irq c b }

def System.setDoorbell (s : System) (c : Core) (b : Bool) : System :=
  { s with doorbell := Function.update s.doorbell c b }

def System.setLock (s : System) (c : Core) (l : Lock) : System :=
  { s with lock := Function.update s.lock c l }

def writerStep (s : System) (c : Core) : WriterPc → System
  | .idle => s.setWriter c .loadReady
  | .loadReady => s.setWriter c (if s.ready c.peer then .storeRequest else .mask .notReady)
  | .storeRequest => (s.setLock c .request).setWriter c .ringDoorbell
  | .ringDoorbell => (s.setDoorbell c.peer true).setWriter c (.waiting 0)
  | .waiting i => s.setWriter c
      (if i < mokyaParkWaitSpins then if s.lock c = .parked then .mask .acked else .waiting (i+1)
        else .mask .ranOut)
  | .mask w => (s.setIrq c false).setWriter c (.flashOp w (s.irq c))
  | .flashOp w saved => s.setWriter c (.restore w saved)
  | .restore w saved => (s.setIrq c saved).setWriter c (.storeIdle w)
  | .storeIdle _ => (s.setLock c .idle).setWriter c .idle

def parkerStep (s : System) (c : Core) : ParkerPc → System
  | .away => s.setParker c .clearDoorbell
  | .clearDoorbell => (s.setDoorbell c false).setParker c .testRequest
  | .testRequest =>
    s.setParker c (if s.lock c.peer = .request then .storeParked else .away)
  | .storeParked => (s.setLock c.peer .parked).setParker c .mask
  | .mask => (s.setIrq c false).setParker c (.spin (s.irq c))
  | .spin saved => s.setParker c (if s.lock c.peer = .idle then .restore saved else .spin saved)
  | .restore saved => (s.setIrq c saved).setParker c .away

inductive Act where
  | publishReady (c : Core)
  | writer (c : Core)
  | parker (c : Core)

/-- A flash call proceeds while its core is not in the handler, and the handler
is entered on a pending doorbell when interrupts are enabled. -/
def step (s : System) : Act → Option System
  | .publishReady c => some { s with ready := Function.update s.ready c true }
  | .writer c => if s.parker c = .away then some (writerStep s c (s.writer c)) else none
  | .parker c => if s.parker c = .away → s.irq c = true ∧ s.doorbell c = true then
      some (parkerStep s c (s.parker c)) else none

end MokyaLora.FlashLock
