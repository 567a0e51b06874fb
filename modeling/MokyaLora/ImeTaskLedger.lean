import MokyaLora.ImeTask

/-!
# Saves that fail

The ledger notes the commits and the saves in the order in which they happen, with
what each save returned. The loop does not look at that: after a save that failed it
resets its counter and its flag all the same.
-/

set_option autoImplicit false

namespace MokyaLora
open Lib.Schedule

inductive Note where
  | commit
  | save (ok : Bool)
  deriving DecidableEq

/-- An iteration, and what `lru_persist_save` returns should it be called. -/
structure Attempt where
  iteration : Iteration
  saveOk : Bool

structure Ledger where
  task : ImeTask
  notes : List Note
  deriving DecidableEq

namespace Ledger

def AllSaved (notes : List Note) : Prop :=
  ∀ before after, notes = before++.commit::after → .save true ∈ after

def start (nowMs : UInt32) (mode : UInt8) : Ledger := ⟨.start nowMs mode, []⟩

def seenNotes (l : Ledger) (a : Attempt) : List Note :=
  l.notes++List.replicate a.iteration.commits .commit

def next (l : Ledger) (a : Attempt) : Ledger where
  task := (l.task.iterate a.iteration).1
  notes := l.seenNotes a++if (l.task.iterate a.iteration).2 then [.save a.saveOk] else []

def step (l : Ledger) (a : Attempt) : Option Ledger := some (l.next a)

/-- Where the loop takes everything for saved, it is. -/
def Accounted (l : Ledger) : Prop :=
  l.task.gLruSaveDirty = false → l.task.lastCommittedCount = l.task.gCommitCount →
    AllSaved l.notes

def Tripped (l : Ledger) (a : Attempt) : Prop :=
  ((l.task.seen a.iteration).stampCommit a.iteration.nowMs).tripwire a.iteration.nowMs
    a.iteration.modeNow = true

def Succeeds (l : Ledger) (a : Attempt) : Prop :=
  l.Tripped a → a.saveOk = true ∨ AllSaved (l.seenNotes a)

end Ledger

theorem all_saved_nil : Ledger.AllSaved [] := by
  intro before after h
  cases before <;> cases h

theorem all_saved_save (notes : List Note) (ok : Bool) :
    Ledger.AllSaved (notes++[.save ok]) ↔ ok = true ∨ Ledger.AllSaved notes := by
  constructor
  · intro h
    by_cases hok : ok = true
    · exact .inl hok
    · right
      intro before after hnotes
      have hmem := h before (after++[.save ok]) (by rw [hnotes]; simp)
      rcases List.mem_append.mp hmem with hmem | hmem
      · exact hmem
      · rw [List.mem_singleton, Note.save.injEq] at hmem
        exact absurd hmem.symm hok
  · intro h before after hnotes
    rcases List.eq_nil_or_concat after with rfl | ⟨init, last, rfl⟩
    · have hlast := congrArg List.getLast? hnotes
      simp at hlast
    · rw [List.concat_eq_append, ← List.cons_append, ← List.append_assoc] at hnotes
      obtain ⟨hinit, hlast⟩ := List.append_inj' hnotes rfl
      rw [List.concat_eq_append, List.mem_append]
      rcases h with rfl | h
      · right
        rw [← hlast]
        exact List.mem_singleton_self _
      · exact .inl (h before init hinit)

theorem seen_dirty (s : ImeTask) (n : ℕ) : (ImeTask.onCommit^[n] s).gLruSaveDirty =
    (s.gLruSaveDirty || decide (n ≠ 0)) := by
  induction n generalizing s with
  | zero => simp
  | succ n ih =>
    rw [Function.iterate_succ_apply, ih]
    simp [ImeTask.onCommit]

theorem stamp_dirty (s : ImeTask) (nowMs : UInt32) :
    (s.stampCommit nowMs).gLruSaveDirty = s.gLruSaveDirty := by
  rw [ImeTask.stampCommit]
  split <;> rfl

namespace Ledger

variable (l : Ledger) (a : Attempt)

theorem next_tripped (h : l.Tripped a) : (l.next a).task.gLruSaveDirty = false ∧
    (l.next a).task.lastCommittedCount = (l.next a).task.gCommitCount ∧
    (l.next a).notes = l.seenNotes a++[.save a.saveOk] := by
  unfold Tripped at h
  simp only [next, ImeTask.iterate, ImeTask.throttle, if_pos h]
  exact ⟨trivial, trivial, congrArg _ (if_pos trivial)⟩

theorem next_quiet (h : ¬ l.Tripped a) : (l.next a).notes = l.seenNotes a ∧
    (l.next a).task.gLruSaveDirty = (l.task.gLruSaveDirty || decide (a.iteration.commits ≠ 0)) := by
  unfold Tripped at h
  simp only [next, ImeTask.iterate, ImeTask.throttle, if_neg h]
  rw [stamp_dirty, ImeTask.seen, seen_dirty]
  exact ⟨List.append_nil _, rfl⟩

/-- Without the flag there is nothing to save. -/
def Clean (l : Ledger) : Prop := l.task.gLruSaveDirty = false → AllSaved l.notes

theorem quiet_clean (h : Clean l) (htrip : ¬ l.Tripped a) : Clean (l.next a) := by
  obtain ⟨hnotes, hflag⟩ := l.next_quiet a htrip
  intro hdirty
  rw [hflag, Bool.or_eq_false_iff, decide_eq_false_iff_not, not_not] at hdirty
  rw [hnotes, seenNotes, hdirty.2, List.replicate_zero, List.append_nil]
  exact h hdirty.1

theorem accounted_iff (h : Clean l) : Accounted (l.next a) ↔ l.Succeeds a := by
  by_cases htrip : l.Tripped a
  · obtain ⟨hdirty, hcount, hnotes⟩ := l.next_tripped a htrip
    have hsave := all_saved_save (l.seenNotes a) a.saveOk
    rw [← hnotes] at hsave
    exact ⟨fun hacc _ => hsave.mp (hacc hdirty hcount), fun hok _ _ => hsave.mpr (hok htrip)⟩
  · apply iff_of_true
    · exact fun hdirty _ => l.quiet_clean a h htrip hdirty
    · exact fun htrip' => absurd htrip' htrip

theorem next_clean (h : Clean l) (hok : l.Succeeds a) : Clean (l.next a) := by
  by_cases htrip : l.Tripped a
  · have hacc := (l.accounted_iff a h).mpr hok
    exact fun hdirty => hacc hdirty (l.next_tripped a htrip).2.1
  · exact l.quiet_clean a h htrip

/-- In a run of the loop everything that the loop takes for saved is saved exactly if no
save fails while there are commits to save. -/
theorem failed_save_kept (nowMs : UInt32) (mode : UInt8) (as : List Attempt) :
    Along step (fun l a => Accounted (l.next a)) (start nowMs mode) as ↔
      Along step Succeeds (start nowMs mode) as := by
  have hrun : ∀ l : Ledger, Clean l →
      (Along step (fun l a => Accounted (l.next a)) l as ↔ Along step Succeeds l as) := by
    induction as with
    | nil => exact fun _ _ => Iff.rfl
    | cons a as ih =>
      intro l hl
      have ha := l.accounted_iff a hl
      constructor
      · rintro ⟨hacc, hrest⟩
        have hok := ha.mp hacc
        exact ⟨hok, fun t ht => (ih t (Option.some.inj ht ▸ l.next_clean a hl hok)).mp (hrest t ht)⟩
      · rintro ⟨hok, hrest⟩
        exact ⟨ha.mpr hok, fun t ht =>
          (ih t (Option.some.inj ht ▸ l.next_clean a hl hok)).mpr (hrest t ht)⟩
  exact hrun (start nowMs mode) (fun _ => all_saved_nil)

/-- A commit, and a change of the mode whose save fails. -/
def lostCommit : List Attempt := [⟨⟨1, 20, 0⟩, true⟩, ⟨⟨0, 40, 1⟩, false⟩]

/-- The commit is taken for saved. -/
theorem lost_commit :
    exec step (start 0 0) lostCommit = some ⟨⟨1, false, 1, 40, 1⟩, [.commit, .save false]⟩ ∧
    ¬ Along step (fun l a => Accounted (l.next a)) (start 0 0) lostCommit := by
  refine ⟨by decide, ?_⟩
  rintro ⟨-, h⟩
  have hacc := (h _ rfl).1 (by decide) (by decide)
  have hmem := hacc [] [.save false] (by decide)
  exact absurd hmem (by decide)

end Ledger

end MokyaLora
