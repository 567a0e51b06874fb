import MokyaLora.Bq25622

/-!
# Recovery from an expired watchdog

A poll cycle that reads `WD_STAT` runs the whole of `hw_init` again. The first write of
CTRL1 clears `WD_STAT`, so a recovery that is cut after it is not taken up again, and an
expiry whose `WD_STAT` is cleared unread goes unnoticed. Apart from these, a settled
charger stays settled: while `WD_STAT` is clear, every setting has been written since the
last expiry.
-/

set_option autoImplicit false

namespace MokyaLora.Bq25622
open Lib.Program Lib.Schedule

/-- What `hw_init` programs. -/
inductive Setting where
  | vreg
  | ichg
  | iindpm
  | ctrl1
  | adcCtrl
  deriving DecidableEq

def allSettings : List Setting := [.adcCtrl, .ctrl1, .iindpm, .ichg, .vreg]

theorem mem_allSettings (r : Setting) : r ∈ allSettings := by
  cases r <;> decide

/-- The write that programs a setting; of CTRL1 the WATCHDOG field and EN_CHG. -/
def applies (wd : WdWindow) : Setting → Event → Bool
  | _, .expired => false
  | .vreg, .wrote reg bytes =>
    reg = regVregLo && bytes = [(packVreg targetVregMv).1, (packVreg targetVregMv).2]
  | .ichg, .wrote reg bytes =>
    reg = regIchgLo && bytes = [(packIchg targetIchgMa).1, (packIchg targetIchgMa).2]
  | .iindpm, .wrote reg bytes =>
    reg = regIindpmLo && bytes = [(packIindpm targetIindpmMa).1, (packIindpm targetIindpmMa).2]
  | .ctrl1, .wrote reg bytes => reg = regChargerCtrl1 && bytes.any (fun b =>
    b &&& ctrl1WatchdogMask = wd.field && b &&& ctrl1EnChg ≠ 0)
  | .adcCtrl, .wrote reg bytes => reg = regAdcCtrl && bytes = [adcCtrlProduction]

def fresh (wd : WdWindow) (r : Setting) : List Event → Bool
  | [] => true
  | .expired::_ => false
  | e::log => applies wd r e || fresh wd r log

def Settled (wd : WdWindow) (d : Dev) : Prop :=
  d.wdStat = false → ∀ r, fresh wd r d.log = true

/-- An effective write of CTRL1 clears no expiry that the voltage limit was not written
after, and a write of ADC_CTRL that fails does so with `WD_STAT` set or ADC_CTRL still as
written. -/
def Undisturbed (wd : WdWindow) : Op → World → Prop
  | .write reg _, w =>
    (reg = regChargerCtrl1 → (w.script 0).fails = false → w.met.wdStat = true →
      fresh wd .vreg w.met.log = true) ∧
    (reg = regAdcCtrl → (w.script 0).fails = true → w.met.wdStat = false →
      fresh wd .adcCtrl w.met.log = true)
  | _, _ => True

instance (wd : WdWindow) : ∀ (t : Op) (w : World), Decidable (Undisturbed wd t w)
  | .write reg _, w => inferInstanceAs (Decidable (
    (reg = regChargerCtrl1 → (w.script 0).fails = false → w.met.wdStat = true →
      fresh wd .vreg w.met.log = true) ∧
    (reg = regAdcCtrl → (w.script 0).fails = true → w.met.wdStat = false →
      fresh wd .adcCtrl w.met.log = true)))
  | .select _, _ => isTrue trivial
  | .read _, _ => isTrue trivial
  | .store _, _ => isTrue trivial

section Stages
variable {wd : WdWindow} {base : List Event} {b : Bool} {done : List Setting} {d : Dev}

def Since (wd : WdWindow) (base : List Event) (done : List Setting) (d : Dev) : Prop :=
  ∃ rest, d.log = rest++base ∧ ∀ r ∈ done, ∃ e ∈ rest, applies wd r e = true

/-- No expiry came in between the settings written so far, if none came after the first of
them; `b` tells whether `WD_STAT` is still set. -/
structure Stage (wd : WdWindow) (b : Bool) (done : List Setting) (d : Dev) : Prop where
  shown : b = true → d.wdStat = true
  vreg : done ≠ [] → d.wdStat = false → fresh wd .vreg d.log = true
  behind : fresh wd .vreg d.log = true → ∀ r ∈ done, fresh wd r d.log = true

theorem fresh_wrote (r : Setting) (reg : UInt8) (bytes : List UInt8) (log : List Event) :
    fresh wd r (.wrote reg bytes::log) = (applies wd r (.wrote reg bytes) || fresh wd r log) :=
  rfl

theorem since_stable : Stable (Since wd base done) where
  expire := by
    intro d h
    obtain ⟨rest, hlog, hdone⟩ := h
    exact ⟨.expired::rest, congrArg _ hlog, fun r hr =>
      let ⟨e, he, happ⟩ := hdone r hr
      ⟨e, List.mem_cons_of_mem _ he, happ⟩⟩
  point := fun _ _ h => h

theorem Since.wrote (h : Since wd base done d) (reg : UInt8) (bytes : List UInt8) :
    Since wd base done (d.write reg bytes) := by
  obtain ⟨rest, hlog, hdone⟩ := h
  exact ⟨.wrote reg bytes::rest, congrArg _ hlog, fun r hr =>
    let ⟨e, he, happ⟩ := hdone r hr
    ⟨e, List.mem_cons_of_mem _ he, happ⟩⟩

theorem Since.applied (h : Since wd base done d) {r : Setting} {reg : UInt8} {bytes : List UInt8}
    (happ : applies wd r (.wrote reg bytes) = true) :
    Since wd base (r::done) (d.write reg bytes) := by
  obtain ⟨rest, hlog, hdone⟩ := h
  refine ⟨.wrote reg bytes::rest, congrArg _ hlog, fun q hq => ?_⟩
  cases List.mem_cons.mp hq with
  | inl hqr => exact ⟨_, List.mem_cons_self, hqr ▸ happ⟩
  | inr hqd =>
    obtain ⟨e, he, hqe⟩ := hdone q hqd
    exact ⟨e, List.mem_cons_of_mem _ he, hqe⟩

theorem stage_stable : Stable (Stage wd b done) where
  expire := fun _ _ =>
    { shown := fun _ => rfl
      vreg := fun _ hclear => Bool.noConfusion hclear
      behind := fun hfresh => Bool.noConfusion hfresh }
  point := fun _ _ h => ⟨h.shown, h.vreg, h.behind⟩

theorem other_fresh {reg : UInt8} (hreg : reg ≠ regVregLo) (bytes : List UInt8)
    (log : List Event) : fresh wd .vreg (.wrote reg bytes::log) = fresh wd .vreg log := by
  rw [fresh_wrote]
  simp [applies, hreg]

theorem wrote_fresh {log : List Event} {r : Setting} (h : fresh wd r log = true) (reg : UInt8)
    (bytes : List UInt8) : fresh wd r (.wrote reg bytes::log) = true := by
  rw [fresh_wrote, h, Bool.or_true]

theorem applied_fresh {r : Setting} {reg : UInt8} {bytes : List UInt8}
    (happ : applies wd r (.wrote reg bytes) = true) (log : List Event) :
    fresh wd r (.wrote reg bytes::log) = true := by
  rw [fresh_wrote, happ, Bool.true_or]

theorem stage_first (h : Stage wd b [] d) {reg : UInt8} {bytes : List UInt8}
    (happ : applies wd .vreg (.wrote reg bytes) = true)
    (hstat : (d.write reg bytes).wdStat = d.wdStat) : Stage wd b [.vreg] (d.write reg bytes) where
  shown := fun hb => hstat.trans (h.shown hb)
  vreg := fun _ _ => applied_fresh happ d.log
  behind := fun hfresh r hr => by
    rw [List.mem_singleton.mp hr]
    exact hfresh

theorem Stage.add (h : Stage wd b done d) {r : Setting} (hdone : done ≠ [])
    (hr : fresh wd r d.log = true) : Stage wd b (r::done) d where
  shown := h.shown
  vreg := fun _ => h.vreg hdone
  behind := by
    intro hfresh q hq
    cases List.mem_cons.mp hq with
    | inl hqr => exact hqr ▸ hr
    | inr hqd => exact h.behind hfresh q hqd

theorem Stage.wrote (h : Stage wd b done d) {reg : UInt8} (hreg : reg ≠ regVregLo)
    {bytes : List UInt8} (hstat : (d.write reg bytes).wdStat = d.wdStat) :
    Stage wd b done (d.write reg bytes) where
  shown := fun hb => hstat.trans (h.shown hb)
  vreg := fun hdone hclear => wrote_fresh (h.vreg hdone (hstat ▸ hclear)) reg bytes
  behind := fun hfresh q hq =>
    wrote_fresh (h.behind (other_fresh hreg bytes d.log ▸ hfresh) q hq) reg bytes

theorem Stage.cleared (h : Stage wd b done d) {reg : UInt8} (hreg : reg ≠ regVregLo)
    (bytes : List UInt8) (hdone : done ≠ [])
    (hlost : d.wdStat = true → fresh wd .vreg d.log = true) :
    Stage wd false done (d.write reg bytes) where
  shown := fun hb => Bool.noConfusion hb
  vreg := by
    intro _ _
    cases hstat : d.wdStat with
    | false => exact wrote_fresh (h.vreg hdone hstat) reg bytes
    | true => exact wrote_fresh (hlost hstat) reg bytes
  behind := fun hfresh q hq =>
    wrote_fresh (h.behind (other_fresh hreg bytes d.log ▸ hfresh) q hq) reg bytes

theorem Stage.settled (h : Stage wd b allSettings d) : Settled wd d :=
  fun hclear r => h.behind (h.vreg (List.cons_ne_nil _ _) hclear) r (mem_allSettings r)

def Progress (wd : WdWindow) (base : List Event) (b : Bool) (done : List Setting) (d : Dev) : Prop :=
  Stage wd b done d ∧ Since wd base done d

theorem progress_stable : Stable (Progress wd base b done) := stage_stable.and since_stable

theorem write_applies {ok : Op → World → Prop} {r : Setting} {reg : UInt8} {bytes : List UInt8}
    (happ : applies wd r (.wrote reg bytes) = true)
    (hstage : ∀ d, Stage wd b done d → Stage wd b (r::done) (d.write reg bytes)) :
    Meets perform ok (fun w => Progress wd base b done w.dev) (request (.write reg bytes))
      (fun _ w => Progress wd base b (r::done) w.dev) (fun w => Progress wd base b done w.dev) :=
  write_meets (Q := Progress wd base b (r::done)) (E := Progress wd base b done) reg bytes
    (fun _ h _ _ => ⟨hstage _ (stage_stable.met h.1), (since_stable.met h.2).applied happ⟩)
    (fun _ h _ _ => progress_stable.met h)

theorem Progress.cut (h : Progress wd base b done d) : b = true → Settled wd d :=
  fun hb hclear => Bool.noConfusion ((h.1.shown hb).symm.trans hclear)

section Limits
variable {ok : Op → World → Prop}

theorem vreg_meets :
    Meets perform ok (fun w => Progress wd base b [] w.dev)
      (regWriteU16 regVregLo (packVreg targetVregMv).1 (packVreg targetVregMv).2)
      (fun _ w => Progress wd base b [.vreg] w.dev) (fun w => b = true → Settled wd w.dev) := by
  have happ : applies wd .vreg (.wrote regVregLo
      [(packVreg targetVregMv).1, (packVreg targetVregMv).2]) = true := by simp [applies]
  exact meets_mono (write_applies happ (fun _ h => stage_first h happ rfl)) (fun _ h => h)
    (fun _ _ h => h) (fun _ h => h.cut)

theorem ichg_meets :
    Meets perform ok (fun w => Progress wd base b [.vreg] w.dev)
      (regWriteU16 regIchgLo (packIchg targetIchgMa).1 (packIchg targetIchgMa).2)
      (fun _ w => Progress wd base b [.ichg, .vreg] w.dev)
      (fun w => b = true → Settled wd w.dev) := by
  have happ : applies wd .ichg (.wrote regIchgLo
      [(packIchg targetIchgMa).1, (packIchg targetIchgMa).2]) = true := by simp [applies]
  exact meets_mono (write_applies happ (fun _ h => (h.wrote (by decide) rfl).add
    (List.cons_ne_nil _ _) (applied_fresh happ _))) (fun _ h => h) (fun _ _ h => h)
    (fun _ h => h.cut)

theorem iindpm_meets :
    Meets perform ok (fun w => Progress wd base b [.ichg, .vreg] w.dev)
      (regWriteU16 regIindpmLo (packIindpm targetIindpmMa).1 (packIindpm targetIindpmMa).2)
      (fun _ w => Progress wd base b [.iindpm, .ichg, .vreg] w.dev)
      (fun w => b = true → Settled wd w.dev) := by
  have happ : applies wd .iindpm (.wrote regIindpmLo
      [(packIindpm targetIindpmMa).1, (packIindpm targetIindpmMa).2]) = true := by simp [applies]
  exact meets_mono (write_applies happ (fun _ h => (h.wrote (by decide) rfl).add
    (List.cons_ne_nil _ _) (applied_fresh happ _))) (fun _ h => h) (fun _ _ h => h)
    (fun _ h => h.cut)

end Limits

theorem ctrl1_meets :
    Meets perform (Undisturbed wd)
      (fun w => Progress wd base b [.iindpm, .ichg, .vreg] w.dev)
      (ctrl1Update ctrl1WatchdogMask (ctrl1EnChg ||| ctrl1WdRst ||| wd.field))
      (fun _ w => Progress wd base false [.ctrl1, .iindpm, .ichg, .vreg] w.dev)
      (fun w => b = true → Settled wd w.dev) := by
  apply meets_bind (meets_mono (byte_keeps progress_stable regChargerCtrl1) (fun _ h => h)
    (fun _ _ h => h) (fun _ h => h.cut))
  intro v
  have happ : applies wd .ctrl1 (.wrote regChargerCtrl1
      [(v &&& ~~~ctrl1WatchdogMask) ||| (ctrl1EnChg ||| ctrl1WdRst ||| wd.field)]) = true := by
    have hen : ((v &&& ~~~ctrl1WatchdogMask) ||| (ctrl1EnChg ||| ctrl1WdRst ||| wd.field)) &&&
        ctrl1EnChg ≠ 0 := set_and (by cases wd <;> decide) _
    simp [applies, window_written v (ctrl1EnChg ||| ctrl1WdRst) wd rfl, hen]
  refine write_meets (Q := Progress wd base false [.ctrl1, .iindpm, .ichg, .vreg])
    (E := fun d => b = true → Settled wd d) _ _ (fun w h hok hf => ?_)
    (fun w h _ _ => (progress_stable.met h).cut)
  have hmet := progress_stable.met h
  have hreg : regChargerCtrl1 ≠ regVregLo := by decide
  exact ⟨(hmet.1.cleared hreg _ (List.cons_ne_nil _ _) (hok.1 rfl hf)).add (List.cons_ne_nil _ _)
    (applied_fresh happ _), hmet.2.applied happ⟩

theorem adc_meets :
    Meets perform (Undisturbed wd)
      (fun w => Progress wd base false [.ctrl1, .iindpm, .ichg, .vreg] w.dev)
      (regWriteU8 regAdcCtrl adcCtrlProduction)
      (fun _ w => Progress wd base false allSettings w.dev) (fun w => Settled wd w.dev) := by
  have happ : applies wd .adcCtrl (.wrote regAdcCtrl [adcCtrlProduction]) = true := by
    simp [applies]
  apply write_meets (Q := Progress wd base false allSettings) (E := Settled wd)
  · intro w h _ _
    have hmet := progress_stable.met h
    exact ⟨(hmet.1.wrote (by decide) rfl).add (List.cons_ne_nil _ _) (applied_fresh happ _),
      hmet.2.applied happ⟩
  · intro w h hok hf hclear
    have hmet := progress_stable.met h
    exact (hmet.1.add (List.cons_ne_nil _ _) (hok.2 rfl hf hclear)).settled hclear

/-- A set-up that ends well has written everything; a recovery that does not leaves what is
still to be written to the next one. -/
theorem hwInit_meets :
    Meets perform (Undisturbed wd) (fun w => Progress wd base b [] w.dev) (hwInit wd)
      (fun _ w => Progress wd base false allSettings w.dev)
      (fun w => b = true → Settled wd w.dev) := by
  apply meets_bind (meets_mono (byte_keeps progress_stable regPartInfo) (fun _ h => h)
    (fun _ _ h => h) (fun _ h => h.cut))
  intro pi
  by_cases hpart : (pi >>> 3) &&& 0x07 ≠ 0x01
  · rw [if_pos hpart]
    exact meets_fail (fun _ h => h.cut)
  · rw [if_neg hpart]
    exact meets_bind vreg_meets (fun _ => meets_bind ichg_meets (fun _ => meets_bind iindpm_meets
      (fun _ => meets_bind ctrl1_meets (fun _ => meets_mono adc_meets (fun _ h => h)
        (fun _ _ h => h) (fun _ h _ => h)))))

theorem recover_meets :
    Meets perform (Undisturbed wd) (fun w => Progress wd base true [] w.dev) (recover wd)
      (fun _ w => Progress wd base false allSettings w.dev) (fun w => Settled wd w.dev) :=
  meets_bind (meets_mono hwInit_meets (fun _ h => h) (fun _ _ h => h) (fun _ h => h rfl))
    (fun _ => meets_bind (meets_mono (store_keeps _) (fun _ h => h) (fun _ _ h => h)
        (fun _ h => h.1.settled))
      (fun _ => meets_mono (block_keeps progress_stable _ _) (fun _ h => h) (fun _ _ h => h)
        (fun _ h => h.1.settled)))

def Steady (wd : WdWindow) (base : List Event) (d : Dev) : Prop :=
  Stage wd false allSettings d ∧ Since wd base [] d

theorem steady_stable : Stable (Steady wd base) := stage_stable.and since_stable

theorem wdRst_meets :
    Meets perform (Undisturbed wd) (fun w => Steady wd base w.dev) (ctrl1Update 0 ctrl1WdRst)
      (fun _ w => Steady wd base w.dev)
      (fun w => Settled wd w.dev) := by
  apply meets_bind (meets_mono (byte_keeps steady_stable regChargerCtrl1) (fun _ h => h)
    (fun _ _ h => h) (fun _ h => h.1.settled))
  intro v
  apply write_meets (Q := Steady wd base) (E := Settled wd)
  · intro w h hok hf
    have hmet := steady_stable.met h
    exact ⟨hmet.1.cleared (by decide) _ (List.cons_ne_nil _ _) (hok.1 rfl hf), hmet.2.wrote _ _⟩
  · exact fun w h _ _ => (steady_stable.met h).1.settled

theorem kick_meets (st : Vector UInt8 3) :
    Meets perform (Undisturbed wd) (fun w => Steady wd base w.dev) (kick wd st)
      (fun _ w => Steady wd base w.dev) (fun w => Settled wd w.dev) := by
  rw [kick]
  split
  · exact meets_bind wdRst_meets (fun _ => meets_ret (fun _ h => h))
  · exact meets_ret (fun _ h => h)

/-- Each setting was written after `base`, or before with no expiry in between. -/
def Covered (wd : WdWindow) (base : List Event) (d : Dev) : Prop :=
  ∃ rest, d.log = rest++base ∧
    ∀ r, (∃ e ∈ rest, applies wd r e = true) ∨ fresh wd r base = true

theorem Progress.covered (h : Progress wd base b allSettings d) : Covered wd base d := by
  obtain ⟨rest, hlog, hdone⟩ := h.2
  exact ⟨rest, hlog, fun r => .inl (hdone r (mem_allSettings r))⟩

theorem Steady.covered (h : Steady wd base d) (hbase : ∀ r, fresh wd r base = true) :
    Covered wd base d := by
  obtain ⟨rest, hlog, _⟩ := h.2
  exact ⟨rest, hlog, fun r => .inr (hbase r)⟩

theorem covered_stable : Stable (Covered wd base) where
  expire := by
    intro d h
    obtain ⟨rest, hlog, hall⟩ := h
    exact ⟨.expired::rest, congrArg _ hlog, fun r => (hall r).imp_left (fun he =>
      let ⟨e, hmem, happ⟩ := he
      ⟨e, List.mem_cons_of_mem _ hmem, happ⟩)⟩
  point := fun _ _ h => h

theorem settled_stable : Stable (Settled wd) where
  expire := fun _ _ hclear => Bool.noConfusion hclear
  point := fun _ _ h => h

theorem tend_meets (st : Vector UInt8 3) (u : World) (hread : wdExpired st = u.dev.wdStat)
    (hu : Settled wd u.dev) (ha : Along perform (Undisturbed wd) (tendWatchdog wd st) u) :
    Ends (fun _ w => Settled wd w.dev ∧ Covered wd u.dev.log w.dev) (fun w => Settled wd w.dev)
      (run perform (tendWatchdog wd st) u) := by
  have hsince : Since wd u.dev.log [] u.dev := ⟨[], rfl, fun r hr => absurd hr List.not_mem_nil⟩
  rw [tendWatchdog] at ha ⊢
  cases hst : wdExpired st with
  | true =>
    rw [hst, if_pos rfl] at ha
    rw [if_pos rfl]
    have hstart : Progress wd u.dev.log true [] u.dev :=
      ⟨⟨fun _ => hread.symm.trans hst, fun h => absurd rfl h,
        fun _ r hr => absurd hr List.not_mem_nil⟩, hsince⟩
    exact meets_mono recover_meets (fun _ h => h) (fun _ _ h => ⟨h.1.settled, h.covered⟩)
      (fun _ h => h) u hstart ha
  | false =>
    rw [hst, if_neg Bool.false_ne_true] at ha
    rw [if_neg Bool.false_ne_true]
    have hfresh : ∀ r, fresh wd r u.dev.log = true := hu (hread.symm.trans hst)
    have hstart : Steady wd u.dev.log u.dev :=
      ⟨⟨fun h => Bool.noConfusion h, fun _ _ => hfresh .vreg, fun _ r _ => hfresh r⟩, hsince⟩
    exact meets_mono (kick_meets st) (fun _ h => h)
      (fun _ _ h => ⟨h.1.settled, h.covered hfresh⟩) (fun _ h => h) u hstart ha

end Stages

def seenLog (w : World) : List Event := (run perform readStatus w).2.dev.log

theorem poll_meets (wd : WdWindow) (w : World) (hw : Settled wd w.dev)
    (ha : Along perform (Undisturbed wd) (pollBody wd) w) :
    Ends (fun _ u => Settled wd u.dev ∧ Covered wd (seenLog w) u.dev) (fun u => Settled wd u.dev)
      (run perform (pollBody wd) w) := by
  rw [pollBody, along_bind] at ha
  have hread := status_meets settled_stable w hw ha.1
  have hseen : ∀ st u, run perform readStatus w = (some st, u) → u.dev.log = seenLog w :=
    fun st u hr => by rw [seenLog, hr]
  apply ends_bind (ends_mono hread (fun _ _ h => h) (fun _ h => h))
  intro st u hr hu
  have hrest := (along_bind _ _ _).mp (ha.2 st u hr)
  have htend := hseen st u hr ▸ tend_meets st u hu.1 hu.2 hrest.1
  exact ends_bind htend (fun st' v ht hv =>
    meets_mono (publish_keeps (settled_stable.and covered_stable) st') (fun _ h => h)
      (fun _ _ h => h) (fun _ h => h.1) v hv (hrest.2 st' v ht))

theorem init_settles (w : World) (hdone : (initOnce w).1 = true)
    (ha : Along perform (Undisturbed w.drv.wdWindow) (hwInit w.drv.wdWindow) w) :
    Settled w.drv.wdWindow (initOnce w).2.dev := by
  have hstart : Progress w.drv.wdWindow w.dev.log false [] w.dev :=
    ⟨⟨fun h => Bool.noConfusion h, fun h => absurd rfl h, fun _ r hr => absurd hr List.not_mem_nil⟩,
      [], rfl, fun r hr => absurd hr List.not_mem_nil⟩
  have hend := hwInit_meets w hstart ha
  rw [initOnce_done] at hdone
  rw [initOnce_dev]
  obtain ⟨_, hprogress⟩ := ends_some hend hdone
  exact hprogress.1.settled

theorem poll_settles (w : World) (hw : Settled w.drv.wdWindow w.dev)
    (ha : Along perform (Undisturbed w.drv.wdWindow) (pollBody w.drv.wdWindow) w) :
    Settled w.drv.wdWindow (pollOnce w).2.dev := by
  rw [pollOnce_dev]
  exact ends_either (P := fun u => Settled w.drv.wdWindow u.dev)
    (ends_mono (poll_meets _ w hw ha) (fun _ _ h => h.1) (fun _ h => h))

theorem poll_covers (w : World) (hw : Settled w.drv.wdWindow w.dev)
    (ha : Along perform (Undisturbed w.drv.wdWindow) (pollBody w.drv.wdWindow) w)
    (hdone : (pollOnce w).1 = true) :
    Covered w.drv.wdWindow (seenLog w) (pollOnce w).2.dev := by
  rw [pollOnce_done] at hdone
  rw [pollOnce_dev]
  obtain ⟨_, _, hcovered⟩ := ends_some (poll_meets _ w hw ha) hdone
  exact hcovered

structure Charger where
  /-- Past the initial set-up. -/
  ready : Bool
  world : World

def Charger.step (c : Charger) (script : ℕ → Env) : Option Charger :=
  if c.ready then some ⟨true, (pollOnce (c.world.under script)).2⟩
  else some ⟨(initOnce (c.world.under script)).1, (initOnce (c.world.under script)).2⟩

/-- Nothing disturbs the section; an attempt at the set-up that fails is made again. -/
def Charger.Quiet (c : Charger) (script : ℕ → Env) : Prop :=
  if c.ready then
    Along perform (Undisturbed c.world.drv.wdWindow) (pollBody c.world.drv.wdWindow)
      (c.world.under script)
  else (initOnce (c.world.under script)).1 = true →
    Along perform (Undisturbed c.world.drv.wdWindow) (hwInit c.world.drv.wdWindow)
      (c.world.under script)

instance (c : Charger) (script : ℕ → Env) : Decidable (c.Quiet script) :=
  inferInstanceAs (Decidable (if c.ready then
      Along perform (Undisturbed c.world.drv.wdWindow) (pollBody c.world.drv.wdWindow)
        (c.world.under script)
    else (initOnce (c.world.under script)).1 = true →
      Along perform (Undisturbed c.world.drv.wdWindow) (hwInit c.world.drv.wdWindow)
        (c.world.under script)))

def Charger.Holds (c : Charger) : Prop :=
  c.ready = true → Settled c.world.drv.wdWindow c.world.dev

theorem step_holds (c : Charger) (script : ℕ → Env) (t : Charger) (hc : c.Holds)
    (hq : c.Quiet script) (hs : c.step script = some t) : t.Holds := by
  rw [Charger.Quiet] at hq
  rw [Charger.step] at hs
  cases hready : c.ready with
  | true =>
    rw [hready, if_pos rfl] at hq hs
    obtain rfl := Option.some.inj hs
    intro _
    have hset := poll_settles (c.world.under script) (hc hready) hq
    rwa [← pollOnce_window (c.world.under script)] at hset
  | false =>
    rw [hready, if_neg Bool.false_ne_true] at hq hs
    obtain rfl := Option.some.inj hs
    intro hdone
    have hset := init_settles (c.world.under script) hdone (hq hdone)
    rwa [← initOnce_window (c.world.under script)] at hset

/-- From start-up on, through any sections with any expiries and failures that disturb none,
every cycle that ends on its success path has each setting written again since the last
expiry before its status read. -/
theorem recovery_complete (c t : Charger) (scripts : List (ℕ → Env)) (script : ℕ → Env)
    (hstart : c.ready = false) (hrun : exec Charger.step c scripts = some t)
    (hready : t.ready = true) (hquiet : Along Charger.step Charger.Quiet c (scripts++[script]))
    (hdone : (pollOnce (t.world.under script)).1 = true) :
    Covered t.world.drv.wdWindow (seenLog (t.world.under script))
      (pollOnce (t.world.under script)).2.dev := by
  have hsplit := along_append _ _ _ _ _ _ hquiet hrun
  have hc : c.Holds := fun h => Bool.noConfusion (hstart.symm.trans h)
  have ht : t.Holds := exec_invariant _ _ _ step_holds scripts c t hc hsplit.1 hrun
  have hq : t.Quiet script := hsplit.2.1
  rw [Charger.Quiet, hready, if_pos rfl] at hq
  exact poll_covers (t.world.under script) (ht hready) hq hdone

def setUp : Charger := ⟨true, (initOnce powerOn).2⟩

/-- A recovery that nothing disturbs. -/
theorem recovery_complete_once :
    Covered setUp.world.drv.wdWindow (seenLog (setUp.world.under (scripted [0] [])))
      (pollOnce (setUp.world.under (scripted [0] []))).2.dev :=
  recovery_complete ⟨false, powerOn⟩ setUp [scripted [] []] (scripted [0] []) rfl rfl rfl
    (by decide +kernel) (by decide)

/-- A recovery whose last write fails is not taken up again: the next cycle ends well with
ADC_CTRL at its power-on value. -/
def cutShort : Charger :=
  ⟨true, (pollOnce (setUp.world.under (scripted [0] [10]))).2⟩

theorem recovery_not_complete :
    exec Charger.step ⟨false, powerOn⟩ [scripted [] [], scripted [0] [10]] = some cutShort ∧
    (pollOnce (cutShort.world.under (scripted [] []))).1 = true ∧
    (pollOnce (cutShort.world.under (scripted [] []))).2.dev.regs regAdcCtrl = 0 ∧
    ¬ Covered cutShort.world.drv.wdWindow (seenLog (cutShort.world.under (scripted [] [])))
      (pollOnce (cutShort.world.under (scripted [] []))).2.dev := by
  have hlog : (pollOnce (cutShort.world.under (scripted [] []))).2.dev.log =
      [.wrote regChargerCtrl1 [0x25]]++seenLog (cutShort.world.under (scripted [] [])) := by decide
  have hadc : fresh .s50 .adcCtrl (seenLog (cutShort.world.under (scripted [] []))) = false := by
    decide
  refine ⟨rfl, by decide, by decide, ?_⟩
  rintro ⟨rest, hrest, hall⟩
  have hone : rest = [.wrote regChargerCtrl1 [0x25]] :=
    List.append_cancel_right (hrest.symm.trans hlog)
  cases hall .adcCtrl with
  | inl hwrote =>
    obtain ⟨e, he, happ⟩ := hwrote
    rw [hone, List.mem_singleton] at he
    exact absurd (he ▸ happ) (by decide)
  | inr hfresh => exact absurd (hadc.symm.trans hfresh) Bool.false_ne_true

end MokyaLora.Bq25622
