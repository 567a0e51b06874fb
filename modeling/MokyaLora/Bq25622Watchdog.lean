import MokyaLora.Bq25622

/-!
# The watchdog window and its mirror

`bq25622_set_watchdog` writes the window to the chip under the mutex of the bus and puts it
in `s_state` after it has released the mutex. The sections of all the tasks and these
assignments interleave. While assignments are outstanding the chip has the window of the
newest of their calls, as long as a recovery does not write an older one; the mirror has it
too when that assignment is the last.
-/

set_option autoImplicit false

namespace MokyaLora.Bq25622
open Lib.Program Lib.Schedule

def setWatchdog (win : WdWindow) : Bus Unit :=
  ctrl1Update ctrl1WatchdogMask (ctrl1WdRst ||| win.field)

structure Shared where
  world : World
  /-- The windows that are written and not yet assigned, the newest first. -/
  pending : List WdWindow

inductive Act where
  | poll (script : ℕ → Env)
  | write (win : WdWindow) (script : ℕ → Env)
  | assign (i : ℕ)

def Shared.step (s : Shared) : Act → Option Shared
  | .poll script => some { s with world := (pollOnce (s.world.under script)).2 }
  | .write win script =>
    match run perform (setWatchdog win) (s.world.under script) with
    | (some _, u) => some ⟨u, win::s.pending⟩
    | (none, u) => some { s with world := u }
  | .assign i =>
    match s.pending[i]? with
    | some win => some
      ⟨{ s.world with drv := { s.world.drv with wdWindow := win } }, s.pending.eraseIdx i⟩
    | none => none

def lastWindow : List Event → Option UInt8
  | [] => none
  | .wrote reg bytes::log =>
    match bytes with
    | b::_ => if reg = regChargerCtrl1 then some (b &&& ctrl1WatchdogMask) else lastWindow log
    | [] => lastWindow log
  | .expired::log => lastWindow log

/-- The window that the mirror comes to hold if nothing else happens. -/
def Shared.due (s : Shared) : WdWindow := s.pending.headD s.world.drv.wdWindow

/-- An effective write of CTRL1 gives the chip the window that is due. -/
def RecoverOk (s : Shared) : Op → World → Prop
  | .write reg _, w => reg = regChargerCtrl1 → (w.script 0).fails = false →
    s.due = s.world.drv.wdWindow
  | _, _ => True

/-- The kick does not read a CTRL1 that an unread expiry gave another window. -/
def KickOk (s : Shared) : Op → World → Prop
  | .read _, w => w.met.wdStat = true →
    w.met.por regChargerCtrl1 &&& ctrl1WatchdogMask = s.due.field
  | _, _ => True

def Shared.Tended (s : Shared) : Option (Vector UInt8 3) × World → Prop
  | (some st, u) =>
    if wdExpired st then Along perform (RecoverOk s) (recover s.world.drv.wdWindow) u
    else Along perform (KickOk s) (kick s.world.drv.wdWindow st) u
  | (none, _) => True

/-- A recovery writes no older window, and a call does not assign before the one it came
after, except one of the same window. -/
def Shared.Ordered (s : Shared) : Act → Prop
  | .poll script => s.Tended (run perform readStatus (s.world.under script))
  | .write _ _ => True
  | .assign i => i = 0 → ∀ q ∈ s.pending[1]?, q = s.due

instance (s : Shared) : ∀ (t : Op) (w : World), Decidable (RecoverOk s t w)
  | .write reg _, w => inferInstanceAs (Decidable (reg = regChargerCtrl1 →
      (w.script 0).fails = false → s.due = s.world.drv.wdWindow))
  | .select _, _ => isTrue trivial
  | .read _, _ => isTrue trivial
  | .store _, _ => isTrue trivial

instance (s : Shared) : ∀ (t : Op) (w : World), Decidable (KickOk s t w)
  | .read _, w => inferInstanceAs (Decidable (w.met.wdStat = true →
      w.met.por regChargerCtrl1 &&& ctrl1WatchdogMask = s.due.field))
  | .select _, _ => isTrue trivial
  | .write _ _, _ => isTrue trivial
  | .store _, _ => isTrue trivial

instance (s : Shared) : ∀ r, Decidable (s.Tended r)
  | (some st, u) => inferInstanceAs (Decidable (
      if wdExpired st then Along perform (RecoverOk s) (recover s.world.drv.wdWindow) u
      else Along perform (KickOk s) (kick s.world.drv.wdWindow st) u))
  | (none, _) => isTrue trivial

instance (s : Shared) : ∀ a, Decidable (s.Ordered a)
  | .poll _ => inferInstanceAs (Decidable (s.Tended _))
  | .write _ _ => isTrue trivial
  | .assign i => inferInstanceAs (Decidable (i = 0 → ∀ q ∈ s.pending[1]?, q = s.due))

section Field
variable {P Q E : Dev → Prop} {ok : Op → World → Prop}

/-- CTRL1 has the window last written, or its power-on value after an expiry. -/
structure Given (f : UInt8) (d : Dev) : Prop where
  last : lastWindow d.log = some f
  running : d.wdStat = false → d.regs regChargerCtrl1 &&& ctrl1WatchdogMask = f
  reset : d.wdStat = true → d.regs regChargerCtrl1 = d.por regChargerCtrl1

theorem given_stable (f : UInt8) : Stable (Given f) where
  expire := fun _ h => ⟨h.last, fun hclear => Bool.noConfusion hclear, fun _ => rfl⟩
  point := fun _ _ h => ⟨h.last, h.running, h.reset⟩

theorem ctrl1_given (d : Dev) (b : UInt8) (hrst : b &&& ctrl1WdRst ≠ 0) :
    Given (b &&& ctrl1WatchdogMask) (d.write regChargerCtrl1 [b]) := by
  have hstat : (d.write regChargerCtrl1 [b]).wdStat = false := by
    show (d.wdStat && decide (b &&& ctrl1WdRst = 0)) = false
    rw [decide_eq_false hrst, Bool.and_false]
  refine ⟨rfl, fun _ => ?_, fun hset => Bool.noConfusion (hstat.symm.trans hset)⟩
  show (Function.update d.regs regChargerCtrl1 (b &&& ~~~ctrl1WdRst)) regChargerCtrl1 &&& _ = _
  rw [Function.update_self, UInt8.and_assoc]
  rfl

structure Plain (P : Dev → Prop) : Prop extends Stable P where
  limits : ∀ d reg lo hi, reg ∈ [regVregLo, regIchgLo, regIindpmLo] → P d → P (d.write reg [lo, hi])
  adc : ∀ d b, P d → P (d.write regAdcCtrl [b])

theorem given_plain (f : UInt8) : Plain (Given f) where
  toStable := given_stable f
  limits := by
    intro d reg lo hi hreg h
    simp only [List.mem_cons, List.not_mem_nil, or_false] at hreg
    obtain rfl | rfl | rfl := hreg <;> exact ⟨h.last, h.running, h.reset⟩
  adc := fun d b h => ⟨h.last, h.running, h.reset⟩

theorem limits_keep (hP : Plain P) (hPE : ∀ d, P d → E d) {reg : UInt8}
    (hreg : reg ∈ [regVregLo, regIchgLo, regIindpmLo]) (lo hi : UInt8) :
    Meets perform ok (fun w => P w.dev) (regWriteU16 reg lo hi) (fun _ w => P w.dev)
      (fun w => E w.dev) :=
  write_meets reg [lo, hi] (fun _ h _ _ => hP.limits _ _ _ _ hreg (hP.met h))
    (fun _ h _ _ => hPE _ (hP.met h))

theorem ctrl1_meets_any (hP : Stable P) (hPE : ∀ d, P d → E d) (clearMask setMask : UInt8)
    (hdone : ∀ (w : World) (v : UInt8), P w.dev →
      ok (.write regChargerCtrl1 [(v &&& ~~~clearMask) ||| setMask]) w →
      (w.script 0).fails = false →
      Q (w.met.write regChargerCtrl1 [(v &&& ~~~clearMask) ||| setMask])) :
    Meets perform ok (fun w => P w.dev) (ctrl1Update clearMask setMask) (fun _ w => Q w.dev)
      (fun w => E w.dev) := by
  apply meets_bind (meets_mono (byte_keeps hP regChargerCtrl1) (fun _ h => h) (fun _ _ h => h)
    (fun _ h => hPE _ h))
  intro v
  exact write_meets regChargerCtrl1 _ (fun w h hok hf => hdone w v h hok hf)
    (fun _ h _ _ => hPE _ (hP.met h))

theorem hwInit_writes (hP : Plain P) (hQ : Plain Q) (hPE : ∀ d, P d → E d) (hQE : ∀ d, Q d → E d)
    (wd : WdWindow)
    (hdone : ∀ (w : World) (b : UInt8), P w.dev → ok (.write regChargerCtrl1 [b]) w →
      (w.script 0).fails = false → b &&& ctrl1WatchdogMask = wd.field → b &&& ctrl1WdRst ≠ 0 →
      Q (w.met.write regChargerCtrl1 [b])) :
    Meets perform ok (fun w => P w.dev) (hwInit wd) (fun _ w => Q w.dev) (fun w => E w.dev) := by
  apply meets_bind (meets_mono (byte_keeps hP.toStable regPartInfo) (fun _ h => h)
    (fun _ _ h => h) (fun _ h => hPE _ h))
  intro pi
  by_cases hpart : (pi >>> 3) &&& 0x07 ≠ 0x01
  · rw [if_pos hpart]
    exact meets_fail (fun _ h => hPE _ h)
  · rw [if_neg hpart]
    apply meets_bind (limits_keep hP hPE (by decide) _ _)
    intro _
    apply meets_bind (limits_keep hP hPE (by decide) _ _)
    intro _
    apply meets_bind (limits_keep hP hPE (by decide) _ _)
    intro _
    apply meets_bind (ctrl1_meets_any hP.toStable hPE _ _ (fun w v h hok hf =>
      hdone w _ h hok hf (window_written v (ctrl1EnChg ||| ctrl1WdRst) wd rfl)
        (set_and (by cases wd <;> decide) _)))
    intro _
    exact write_meets regAdcCtrl _ (fun _ h _ _ => hQ.adc _ _ (hQ.met h))
      (fun _ h _ _ => hQE _ (hQ.met h))

theorem plain_true : Plain (fun _ => True) := ⟨⟨fun _ _ => trivial, fun _ _ _ => trivial⟩,
  fun _ _ _ _ _ _ => trivial, fun _ _ _ => trivial⟩

theorem hwInit_gives (wd : WdWindow) :
    Meets perform (fun _ _ => True) (fun _ => True) (hwInit wd)
      (fun _ w => Given wd.field w.dev) (fun _ => True) :=
  hwInit_writes plain_true (given_plain wd.field) (fun _ h => h) (fun _ _ => trivial) wd
    (fun w b _ _ _ hb hrst => hb ▸ ctrl1_given w.met b hrst)

theorem recover_keeps (s : Shared) :
    Meets perform (RecoverOk s) (fun w => Given s.due.field w.dev)
      (recover s.world.drv.wdWindow) (fun _ w => Given s.due.field w.dev)
      (fun w => Given s.due.field w.dev) := by
  have hplain := given_plain s.due.field
  apply meets_bind (hwInit_writes hplain hplain (fun _ h => h) (fun _ h => h) _ ?_)
  · exact fun _ => meets_bind (store_keeps _) (fun _ => block_keeps hplain.toStable _ _)
  · intro w b _ hok hf hb hrst
    rw [hok rfl hf, ← hb]
    exact ctrl1_given w.met b hrst

theorem ctrl1_shows (s : Shared) :
    Meets perform (KickOk s) (fun w => Given s.due.field w.dev) (regReadU8 regChargerCtrl1)
      (fun v w => v &&& ctrl1WatchdogMask = s.due.field ∧ Given s.due.field w.dev)
      (fun w => Given s.due.field w.dev) := by
  have hstable := given_stable s.due.field
  apply meets_bind (select_points hstable regChargerCtrl1)
  intro _
  apply meets_bind (read_meets (P := fun d => d.pointer = regChargerCtrl1 ∧ Given s.due.field d)
    (Q := fun out d => out[0] &&& ctrl1WatchdogMask = s.due.field ∧ Given s.due.field d)
    (E := Given s.due.field) 1 ?_ (fun _ h => hstable.met h.2)) (fun _ => meets_ret (fun _ h => h))
  intro w h hok
  have hmet := hstable.met h.2
  have hpoint : w.met.pointer+UInt8.ofNat 0 = regChargerCtrl1 := by
    rw [met_pointer, h.1]
    rfl
  refine ⟨?_, hstable.point _ _ hmet⟩
  rw [Vector.getElem_ofFn, hpoint]
  show w.met.regs regChargerCtrl1 &&& ctrl1WatchdogMask = s.due.field
  cases hstat : w.met.wdStat with
  | false => exact hmet.running hstat
  | true =>
    rw [hmet.reset hstat]
    exact hok hstat

theorem wdRst_keeps (s : Shared) :
    Meets perform (KickOk s) (fun w => Given s.due.field w.dev) (ctrl1Update 0 ctrl1WdRst)
      (fun _ w => Given s.due.field w.dev) (fun w => Given s.due.field w.dev) := by
  have hstable := given_stable s.due.field
  apply meets_bind (ctrl1_shows s)
  intro v
  apply write_meets (P := fun d => v &&& ctrl1WatchdogMask = s.due.field ∧ Given s.due.field d)
    (Q := Given s.due.field) (E := Given s.due.field)
  · intro w h _ _
    have hfield : ((v &&& ~~~0) ||| ctrl1WdRst) &&& ctrl1WatchdogMask = s.due.field := by
      rw [or_and, UInt8.not_zero, UInt8.and_neg_one, h.1]
      exact UInt8.or_zero
    have hrst : ((v &&& ~~~0) ||| ctrl1WdRst) &&& ctrl1WdRst ≠ 0 := set_and (by decide) _
    exact hfield ▸ ctrl1_given w.met _ hrst
  · exact fun _ h _ _ => hstable.met h.2

theorem kick_keeps (s : Shared) (st : Vector UInt8 3) :
    Meets perform (KickOk s) (fun w => Given s.due.field w.dev)
      (kick s.world.drv.wdWindow st) (fun _ w => Given s.due.field w.dev)
      (fun w => Given s.due.field w.dev) := by
  rw [kick]
  split
  · exact meets_bind (wdRst_keeps s) (fun _ => meets_ret (fun _ h => h))
  · exact meets_ret (fun _ h => h)

theorem setWatchdog_gives (f : UInt8) (win : WdWindow) :
    Meets perform (fun _ _ => True) (fun w => Given f w.dev) (setWatchdog win)
      (fun _ w => Given win.field w.dev) (fun w => Given f w.dev) := by
  apply ctrl1_meets_any (given_stable f) (fun _ h => h)
  intro w v _ _ _
  have hrst : ((v &&& ~~~ctrl1WatchdogMask) ||| (ctrl1WdRst ||| win.field)) &&& ctrl1WdRst ≠ 0 :=
    set_and (by cases win <;> decide) _
  have hgiven := ctrl1_given w.met _ hrst
  rwa [window_written v ctrl1WdRst win rfl] at hgiven

end Field

def Shared.Agreed (s : Shared) : Prop := Given s.due.field s.world.dev

theorem tend_keeps (s : Shared) (st : Vector UInt8 3) (u : World) (hu : Given s.due.field u.dev)
    (hok : s.Tended (some st, u)) :
    Ends (fun _ w => Given s.due.field w.dev) (fun w => Given s.due.field w.dev)
      (run perform (tendWatchdog s.world.drv.wdWindow st) u) := by
  rw [Shared.Tended] at hok
  rw [tendWatchdog]
  cases hst : wdExpired st with
  | true =>
    rw [hst, if_pos rfl] at hok
    exact recover_keeps s u hu hok
  | false =>
    rw [hst, if_neg Bool.false_ne_true] at hok
    exact kick_keeps s st u hu hok

theorem poll_keeps (s : Shared) (script : ℕ → Env) (hs : s.Agreed)
    (hok : s.Ordered (.poll script)) :
    Given s.due.field (pollOnce (s.world.under script)).2.dev := by
  have hstable := given_stable s.due.field
  have hread := status_meets hstable (s.world.under script) hs (along_true readStatus _)
  rw [Shared.Ordered] at hok
  rw [pollOnce_dev]
  refine ends_either (P := fun w : World => Given s.due.field w.dev) ?_
  apply ends_bind (ends_mono hread (fun _ _ h => h.2) (fun _ h => h))
  intro st u hr hu
  rw [hr] at hok
  apply ends_bind (tend_keeps s st u hu hok)
  exact fun st' v _ hv => publish_keeps hstable st' v hv (along_true _ v)

theorem write_agrees (s t : Shared) (win : WdWindow) (script : ℕ → Env) (hs : s.Agreed)
    (hstep : s.step (.write win script) = some t) : t.Agreed := by
  have hend := setWatchdog_gives s.due.field win (s.world.under script) hs (along_true _ _)
  have hwindow := run_keeps (fun u : World => u.drv.wdWindow = s.world.drv.wdWindow)
    (perform_window s.world.drv.wdWindow) _ (ctrl1_calls ctrl1WatchdogMask (ctrl1WdRst ||| win.field))
    (s.world.under script) rfl
  rw [Shared.step] at hstep
  cases hr : run perform (setWatchdog win) (s.world.under script) with
  | mk a u =>
    rw [hr] at hend hstep
    have hmirror : u.drv.wdWindow = s.world.drv.wdWindow := by
      rw [setWatchdog] at hr
      rwa [hr] at hwindow
    cases a with
    | some a =>
      obtain rfl := Option.some.inj hstep
      exact hend
    | none =>
      obtain rfl := Option.some.inj hstep
      show Given (s.pending.headD u.drv.wdWindow).field u.dev
      rw [hmirror]
      exact hend

theorem assign_due (s t : Shared) (i : ℕ) (hok : s.Ordered (.assign i))
    (hstep : s.step (.assign i) = some t) : t.due = s.due ∧ t.world.dev = s.world.dev := by
  rw [Shared.step] at hstep
  cases hi : s.pending[i]? with
  | none =>
    rw [hi] at hstep
    exact absurd hstep (by simp)
  | some win =>
    rw [hi] at hstep
    obtain rfl := Option.some.inj hstep
    refine ⟨?_, rfl⟩
    show (s.pending.eraseIdx i).headD win = s.pending.headD s.world.drv.wdWindow
    cases hp : s.pending with
    | nil => exact absurd (hp ▸ hi) (by simp)
    | cons p rest =>
      rw [hp] at hi
      cases i with
      | succ i => rfl
      | zero =>
        obtain rfl := Option.some.inj hi
        cases rest with
        | nil => rfl
        | cons q rest =>
          have hq := hok rfl q (by rw [hp]; rfl)
          rwa [Shared.due, hp] at hq

theorem step_agrees (s : Shared) (a : Act) (t : Shared) (hs : s.Agreed) (hok : s.Ordered a)
    (hstep : s.step a = some t) : t.Agreed := by
  cases a with
  | poll script =>
    obtain rfl := Option.some.inj hstep
    show Given (s.pending.headD (pollOnce (s.world.under script)).2.drv.wdWindow).field _
    rw [pollOnce_window]
    exact poll_keeps s script hs hok
  | write win script => exact write_agrees s t win script hs hstep
  | assign i =>
    obtain ⟨hdue, hdev⟩ := assign_due s t i hok hstep
    rw [Shared.Agreed, hdue, hdev]
    exact hs

theorem init_agrees (w : World) (hdone : (initOnce w).1 = true) :
    Shared.Agreed ⟨(initOnce w).2, []⟩ := by
  rw [initOnce_done] at hdone
  obtain ⟨_, hgiven⟩ := ends_some (hwInit_gives w.drv.wdWindow w trivial (along_true _ w)) hdone
  show Given (initOnce w).2.drv.wdWindow.field (initOnce w).2.dev
  rw [initOnce_window, initOnce_dev]
  exact hgiven

/-- From the initial set-up on, through any interleaving of poll cycles and calls whose
assignments are ordered, the mirror agrees with the chip whenever no call is in progress: the
field last written is the window of the mirror, and so is that of CTRL1 while `WD_STAT` is
clear. -/
theorem window_agrees (w : World) (hinit : (initOnce w).1 = true) (acts : List Act) (t : Shared)
    (hok : Along Shared.step Shared.Ordered ⟨(initOnce w).2, []⟩ acts)
    (hrun : exec Shared.step ⟨(initOnce w).2, []⟩ acts = some t) (hidle : t.pending = []) :
    lastWindow t.world.dev.log = some t.world.drv.wdWindow.field ∧
    (t.world.dev.wdStat = false →
      t.world.dev.regs regChargerCtrl1 &&& ctrl1WatchdogMask = t.world.drv.wdWindow.field) := by
  have hagreed : t.Agreed :=
    exec_invariant _ _ _ step_agrees acts _ t (init_agrees w hinit) hok hrun
  rw [Shared.Agreed, Shared.due, hidle] at hagreed
  exact ⟨hagreed.last, hagreed.running⟩

def inTurn : List Act :=
  [.write .s100 (scripted [] []), .assign 0, .poll (scripted [0] []), .write .s200 (scripted [] []),
    .assign 0]

theorem window_agrees_in_turn :
    ∃ t, exec Shared.step ⟨(initOnce powerOn).2, []⟩ inTurn = some t ∧
      lastWindow t.world.dev.log = some t.world.drv.wdWindow.field := by
  have hok : Along Shared.step Shared.Ordered ⟨(initOnce powerOn).2, []⟩ inTurn := by
    decide +kernel
  exact ⟨_, rfl, (window_agrees powerOn (by decide) inTurn _ hok rfl rfl).1⟩

/-- Two calls whose assignments come in the other order: the mirror says that the watchdog is
off, so it is not kicked, and the chip runs it with a window of 50 s. -/
theorem window_disagrees :
    ∃ t, exec Shared.step ⟨(initOnce powerOn).2, []⟩ [.write .off (scripted [] []),
        .write .s50 (scripted [] []), .assign 0, .assign 0, .poll (scripted [] [])] = some t ∧
      t.pending = [] ∧ t.world.drv.wdWindow = .off ∧ lastWindow t.world.dev.log = some 1 ∧
      t.world.dev.wdStat = false ∧
      t.world.dev.regs regChargerCtrl1 &&& ctrl1WatchdogMask = 1 :=
  ⟨_, rfl, rfl, rfl, rfl, rfl, rfl⟩

end MokyaLora.Bq25622
