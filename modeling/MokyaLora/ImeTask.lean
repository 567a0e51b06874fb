import MokyaLora.Lib.Fields
import MokyaLora.Lib.Schedule
import Mathlib.Logic.Function.Iterate

/-!
# The loop that saves the cache

One iteration handles at most one key event and a tick, in which the listener may
see commits, and then decides whether to save: after enough commits, after a change
of the mode, or when nothing was committed for a while.
-/

set_option autoImplicit false

namespace MokyaLora
open Lib.Schedule

def kLruSaveEveryNCommits : UInt32 := 50

def kLruSaveIdleMs : UInt32 := 30000

structure ImeTask where
  gCommitCount : UInt32
  gLruSaveDirty : Bool
  lastCommittedCount : UInt32
  lastCommitMs : UInt32
  lastModeByte : UInt8
  deriving DecidableEq

/-- What the loop meets: the commits of some text, the clock and the mode. -/
structure Iteration where
  commits : ℕ
  nowMs : UInt32
  modeNow : UInt8

namespace ImeTask

def start (nowMs : UInt32) (mode : UInt8) : ImeTask := ⟨0, false, 0, nowMs, mode⟩

def onCommit (s : ImeTask) : ImeTask :=
  { s with gCommitCount := s.gCommitCount+1, gLruSaveDirty := true }

def stampCommit (s : ImeTask) (nowMs : UInt32) : ImeTask :=
  if s.gCommitCount ≠ s.lastCommittedCount then { s with lastCommitMs := nowMs } else s

def tripwire (s : ImeTask) (nowMs : UInt32) (modeNow : UInt8) : Bool :=
  let commitTripwire := decide (kLruSaveEveryNCommits ≤ s.gCommitCount-s.lastCommittedCount)
  let modeTripwire := modeNow != s.lastModeByte
  let idleTripwire := s.gLruSaveDirty && decide (kLruSaveIdleMs ≤ nowMs-s.lastCommitMs)
  commitTripwire || modeTripwire || idleTripwire

/-- The end of an iteration, and whether it saves; it does not matter whether the save
succeeds. -/
def throttle (s : ImeTask) (nowMs : UInt32) (modeNow : UInt8) : ImeTask × Bool :=
  let s := s.stampCommit nowMs
  if s.tripwire nowMs modeNow then
    ({ s with
      lastCommittedCount := s.gCommitCount
      lastModeByte := modeNow
      gLruSaveDirty := false }, true)
  else (s, false)

def seen (s : ImeTask) (i : Iteration) : ImeTask := onCommit^[i.commits] s

def iterate (s : ImeTask) (i : Iteration) : ImeTask × Bool := (s.seen i).throttle i.nowMs i.modeNow

end ImeTask

/-- The loop, and the time of the latest iteration at which the counter had changed
since the iteration before. -/
structure Watch where
  task : ImeTask
  changedMs : UInt32
  deriving DecidableEq

namespace Watch

def start (nowMs : UInt32) (mode : UInt8) : Watch := ⟨.start nowMs mode, nowMs⟩

def next (w : Watch) (i : Iteration) : Watch where
  task := (w.task.iterate i).1
  changedMs := if (w.task.seen i).gCommitCount ≠ w.task.gCommitCount then i.nowMs else w.changedMs

def step (w : Watch) (i : Iteration) : Option Watch := some (w.next i)

/-- The clock of the idle save is that of the latest change, and a cache with unsaved
commits and no new one for the interval is saved. -/
structure Honest (w : Watch) (i : Iteration) : Prop where
  clock : (w.next i).task.lastCommitMs = (w.next i).changedMs
  idle : (w.task.seen i).gLruSaveDirty = true →
    (w.task.seen i).gCommitCount = w.task.gCommitCount →
    kLruSaveIdleMs ≤ i.nowMs-w.changedMs → (w.task.iterate i).2 = true

/-- The counter differs from that of the latest save only where it changed in this
iteration, or the clock stands still. -/
def NoneUnsaved (w : Watch) (i : Iteration) : Prop :=
  ((w.task.seen i).gCommitCount = w.task.lastCommittedCount ↔
    (w.task.seen i).gCommitCount = w.task.gCommitCount) ∨ i.nowMs = w.task.lastCommitMs

end Watch

section Clock

variable (s : ImeTask) (i : Iteration)

theorem seen_locals (s : ImeTask) (n : ℕ) :
    (ImeTask.onCommit^[n] s).lastCommittedCount = s.lastCommittedCount ∧
    (ImeTask.onCommit^[n] s).lastCommitMs = s.lastCommitMs := by
  induction n generalizing s with
  | zero => exact ⟨rfl, rfl⟩
  | succ n ih =>
    rw [Function.iterate_succ_apply]
    exact ih s.onCommit

theorem iterate_clock : (s.iterate i).1.lastCommitMs =
    if (s.seen i).gCommitCount ≠ s.lastCommittedCount then i.nowMs else s.lastCommitMs := by
  obtain ⟨hcount, hclock⟩ := seen_locals s i.commits
  have hthrottle : (s.iterate i).1.lastCommitMs = ((s.seen i).stampCommit i.nowMs).lastCommitMs := by
    rw [ImeTask.iterate, ImeTask.throttle]
    split <;> rfl
  rw [hthrottle, ImeTask.stampCommit,
    show (s.seen i).lastCommittedCount = s.lastCommittedCount from hcount]
  split
  · rfl
  · exact hclock

theorem iterate_idle (hdirty : (s.seen i).gLruSaveDirty = true)
    (h : kLruSaveIdleMs ≤ i.nowMs-(s.iterate i).1.lastCommitMs) : (s.iterate i).2 = true := by
  have hstamped : ((s.seen i).stampCommit i.nowMs).gLruSaveDirty = true := by
    rw [ImeTask.stampCommit]
    split <;> exact hdirty
  by_cases htrip : ((s.seen i).stampCommit i.nowMs).tripwire i.nowMs i.modeNow = true
  · rw [ImeTask.iterate, ImeTask.throttle, if_pos htrip]
  · rw [ImeTask.iterate, ImeTask.throttle, if_neg htrip] at h
    rw [ImeTask.tripwire, hstamped, decide_eq_true h, Bool.and_self, Bool.or_true] at htrip
    exact absurd rfl htrip

end Clock

namespace Watch

theorem honest_iff (w : Watch) (i : Iteration) (h : w.task.lastCommitMs = w.changedMs) :
    Honest w i ↔ NoneUnsaved w i := by
  have hclock : (w.next i).task.lastCommitMs = (w.next i).changedMs ↔ NoneUnsaved w i := by
    rw [NoneUnsaved, next, iterate_clock]
    by_cases hs : (w.task.seen i).gCommitCount = w.task.lastCommittedCount
    · rw [if_neg (not_not.mpr hs)]
      by_cases hc : (w.task.seen i).gCommitCount = w.task.gCommitCount
      · rw [if_neg (not_not.mpr hc)]
        exact iff_of_true h (.inl (iff_of_true hs hc))
      · rw [if_pos hc]
        exact ⟨fun he => .inr he.symm, fun hn => (hn.resolve_left (fun he => hc (he.mp hs))).symm⟩
    · rw [if_pos hs]
      by_cases hc : (w.task.seen i).gCommitCount = w.task.gCommitCount
      · rw [if_neg (not_not.mpr hc)]
        exact ⟨fun he => .inr (he.trans h.symm),
          fun hn => (hn.resolve_left (fun he => hs (he.mpr hc))).trans h⟩
      · rw [if_pos hc]
        exact iff_of_true rfl (.inl (iff_of_false hs hc))
  constructor
  · exact fun hh => hclock.mp hh.clock
  · intro hn
    have hc := hclock.mpr hn
    refine ⟨hc, ?_⟩
    intro hdirty hsame hidle
    apply iterate_idle w.task i hdirty
    rw [show (w.task.iterate i).1.lastCommitMs = (w.next i).changedMs from hc, next]
    dsimp only
    rwa [if_neg (not_not.mpr hsame)]

/-- In a run of the loop the idle clock is that of the latest change of the counter, and
the idle save happens, all along exactly if in every iteration without a new commit
nothing is unsaved or the clock stands still. -/
theorem idle_save_clock (nowMs : UInt32) (mode : UInt8) (is : List Iteration) :
    Along step Honest (start nowMs mode) is ↔ Along step NoneUnsaved (start nowMs mode) is := by
  have hrun : ∀ w : Watch, w.task.lastCommitMs = w.changedMs →
      (Along step Honest w is ↔ Along step NoneUnsaved w is) := by
    induction is with
    | nil => exact fun _ _ => Iff.rfl
    | cons i is ih =>
      intro w hw
      have hi := honest_iff w i hw
      constructor
      · rintro ⟨hh, hrest⟩
        exact ⟨hi.mp hh, fun t ht => (ih t (Option.some.inj ht ▸ hh.clock)).mp (hrest t ht)⟩
      · rintro ⟨hn, hrest⟩
        have hh := hi.mpr hn
        exact ⟨hh, fun t ht => (ih t (Option.some.inj ht ▸ hh.clock)).mpr (hrest t ht)⟩
  exact hrun (start nowMs mode) rfl

/-- One commit, and then nothing for a minute. -/
def quietMinute : List Iteration := [⟨1, 20, 0⟩, ⟨0, 40, 0⟩, ⟨0, 60000, 0⟩]

/-- The commit stays unsaved, and the idle clock is that of the last iteration. -/
theorem never_idle : exec step (start 0 0) quietMinute = some ⟨⟨1, true, 0, 60000, 0⟩, 20⟩ ∧
    ¬ Along step Honest (start 0 0) quietMinute := by
  refine ⟨by decide, ?_⟩
  rintro ⟨-, h⟩
  have hclock := (h _ rfl).1.clock
  exact absurd hclock (by decide)

end Watch

end MokyaLora
