import MokyaLora.Lib.Fields
import Mathlib.Logic.Function.Basic

/-!
# The LED driver

The LM27965 (`lm27965.c`) lights three banks, each with a duty register, under enable bits in
one GP register that is rewritten from a cache. Every write may fail, and a write that fails
may have reached the chip all the same; a script says what happens.
-/

set_option autoImplicit false

namespace MokyaLora.Lm27965
open Lib.Fields

def gpEna : UInt8 := 0x01
def gpEnb : UInt8 := 0x02
def gpEnc : UInt8 := 0x04
def gpEn3b : UInt8 := 0x10
def gpReserved : UInt8 := 0x20

def dutyAbMax : UInt8 := 0x1F
def dutyCMax : UInt8 := 0x03

/-- TFT backlight, keypad and green LED, red LED. -/
inductive Bank where
  | a
  | b
  | c
  deriving DecidableEq

inductive Reg where
  | gp
  | bank (k : Bank)
  deriving DecidableEq

def Bank.mask : Bank → UInt8
  | .a => gpEna
  | .b => gpEnb ||| gpEn3b
  | .c => gpEnc

structure Chip where
  gp : UInt8
  duty : Bank → UInt8

def Chip.put (chip : Chip) (val : UInt8) : Reg → Chip
  | .gp => { chip with gp := val }
  | .bank k => { chip with duty := Function.update chip.duty k val }

structure State where
  online : Bool
  gp : UInt8
  duty : Bank → UInt8

def State.initial : State := ⟨false, gpReserved, fun _ => 0⟩

structure Env where
  fails : Bool
  lands : Bool

/-- The writes are history that no code reads. -/
structure World where
  chip : Chip
  cache : State
  script : ℕ → Env
  written : List (Reg × UInt8)

def World.set (w : World) (f : State → State) : World := { w with cache := f w.cache }

def regWrite (reg : Reg) (val : UInt8) (w : World) : Bool × World :=
  let e := w.script 0
  (!e.fails, { w with
    chip := if e.fails && !e.lands then w.chip else w.chip.put val reg
    script := fun n => w.script (n+1)
    written := w.written++[(reg, val)] })

def clampAb (d : UInt8) : UInt8 := if d > dutyAbMax then dutyAbMax else d

def clampC (d : UInt8) : UInt8 := if d > dutyCMax then dutyCMax else d

def applyGp (w : World) : Bool × World :=
  let v := w.cache.gp ||| gpReserved
  match regWrite .gp v w with
  | (true, w) => (true, w.set (fun s => { s with gp := v }))
  | (false, w) => (false, w)

def setOnline (r : Bool × World) : Bool × World :=
  (r.1, r.2.set (fun s => { s with online := r.1 }))

/-- The shape of the three setters: the duty register first, then the enable bits. -/
def setBank (k : Bank) (d : UInt8) (enables : UInt8 → UInt8) (w : World) : Bool × World :=
  match regWrite (.bank k) d w with
  | (false, w) => setOnline (false, w)
  | (true, w) => setOnline (applyGp (w.set (fun s =>
      { s with duty := Function.update s.duty k d, gp := enables s.gp })))

def lm27965SetTftBacklight (duty : UInt8) : World → Bool × World :=
  setBank .a (clampAb duty)
    (fun gp => if clampAb duty > 0 then gp ||| gpEna else gp &&& ~~~gpEna)

def lm27965SetKeypadBacklight (kbdOn greenOn : Bool) (duty : UInt8) : World → Bool × World :=
  setBank .b (clampAb duty) (fun gp => (gp &&& ~~~(gpEnb ||| gpEn3b)) |||
    (if kbdOn then gpEnb else 0) ||| (if greenOn then gpEn3b else 0))

def lm27965SetLedRed (on : Bool) (duty : UInt8) : World → Bool × World :=
  setBank .c (clampC duty) (fun gp => if on then gp ||| gpEnc else gp &&& ~~~gpEnc)

/-- `lm27965_init`. The cached duties of the other banks stay as they are. -/
def lm27965Init (tftDuty : UInt8) (w : World) : Bool × World :=
  let duty := clampAb tftDuty
  match regWrite (.bank .a) duty w with
  | (false, w) => setOnline (false, w)
  | (true, w) =>
    let w := w.set (fun s => { s with duty := Function.update s.duty .a duty })
    match regWrite (.bank .b) 0 w with
    | (false, w) => setOnline (false, w)
    | (true, w) =>
      match regWrite (.bank .c) 0 w with
      | (false, w) => setOnline (false, w)
      | (true, w) => setOnline (applyGp (w.set (fun s =>
          { s with gp := gpReserved ||| (if duty > 0 then gpEna else 0) })))

def lm27965AllOff (w : World) : Bool × World :=
  setOnline (applyGp (w.set (fun s => { s with gp := gpReserved })))

inductive Call where
  | init (tftDuty : UInt8)
  | tft (duty : UInt8)
  | keypad (kbdOn greenOn : Bool) (duty : UInt8)
  | red (on : Bool) (duty : UInt8)
  | allOff
  deriving DecidableEq

def Call.perform : Call → World → Bool × World
  | .init tftDuty => lm27965Init tftDuty
  | .tft duty => lm27965SetTftBacklight duty
  | .keypad kbdOn greenOn duty => lm27965SetKeypadBacklight kbdOn greenOn duty
  | .red on duty => lm27965SetLedRed on duty
  | .allOff => lm27965AllOff

def World.after (w : World) (calls : List Call) : World :=
  calls.foldl (fun w c => (c.perform w).2) w

def World.start (chip : Chip) (script : ℕ → Env) : World := ⟨chip, .initial, script, []⟩

theorem write_cases (reg : Reg) (val : UInt8) (w : World) :
    (∃ u, regWrite reg val w = (true, u) ∧ u.chip = w.chip.put val reg ∧ u.cache = w.cache ∧
      u.written = w.written++[(reg, val)] ∧ u.script = fun n => w.script (n+1)) ∨
    (∃ u, regWrite reg val w = (false, u) ∧
      (u.chip = w.chip ∨ u.chip = w.chip.put val reg ∧ (w.script 0).lands = true) ∧
      u.cache = w.cache ∧ u.written = w.written++[(reg, val)] ∧
      u.script = fun n => w.script (n+1)) := by
  cases hf : (w.script 0).fails with
  | false =>
    refine .inl ⟨(regWrite reg val w).2, ?_, ?_, rfl, rfl, rfl⟩
    · simp [regWrite, hf]
    · simp [regWrite, hf]
  | true =>
    refine .inr ⟨(regWrite reg val w).2, ?_, ?_, rfl, rfl, rfl⟩
    · simp [regWrite, hf]
    · cases hl : (w.script 0).lands with
      | false => simp [regWrite, hf, hl]
      | true => simp [regWrite, hf, hl]

def Known (k : Bank) (w : World) : Prop := (.bank k, w.chip.duty k) ∈ w.written

theorem put_duty_self (chip : Chip) (k : Bank) (v : UInt8) : (chip.put v (.bank k)).duty k = v :=
  Function.update_self ..

theorem known_put {k : Bank} {w u : World} {reg : Reg} {val : UInt8} (h : Known k w)
    (hchip : u.chip = w.chip ∨ u.chip = w.chip.put val reg)
    (hwritten : u.written = w.written++[(reg, val)]) : Known k u := by
  rw [Known, hwritten, List.mem_append, List.mem_singleton]
  rcases hchip with hchip | hchip <;> rw [hchip]
  · exact .inl h
  · cases reg with
    | gp => exact .inl h
    | bank j =>
      by_cases hj : k = j
      · subst hj
        exact .inr (by rw [put_duty_self])
      · refine .inl ?_
        show (Reg.bank k, Function.update w.chip.duty j val k) ∈ w.written
        rwa [Function.update_of_ne hj]

structure Lit (w : World) : Prop where
  form : w.cache.gp &&& 0xE8 = gpReserved
  known : ∀ k : Bank, w.cache.gp &&& k.mask ≠ 0 → Known k w
  lit : ∀ k : Bank, w.chip.gp &&& k.mask ≠ 0 → Known k w

theorem lit_bank {w u : World} {k : Bank} {d : UInt8} (h : Lit w)
    (hchip : u.chip = w.chip ∨ u.chip = w.chip.put d (.bank k)) (hcache : u.cache = w.cache)
    (hwritten : u.written = w.written++[(.bank k, d)]) : Lit u where
  form := by rw [hcache]; exact h.form
  known := fun j hj => by
    rw [hcache] at hj
    exact known_put (h.known j hj) hchip hwritten
  lit := fun j hj => by
    have hgp : u.chip.gp = w.chip.gp := by rcases hchip with hc | hc <;> rw [hc]; rfl
    rw [hgp] at hj
    exact known_put (h.lit j hj) hchip hwritten

theorem known_acked {w u : World} {k : Bank} {d : UInt8} (hchip : u.chip = w.chip.put d (.bank k))
    (hwritten : u.written = w.written++[(.bank k, d)]) : Known k u := by
  rw [Known, hchip, hwritten, put_duty_self]
  exact List.mem_append_right _ (List.mem_singleton.mpr rfl)

theorem lit_write {w u : World} {r : Bool} {k : Bank} {d : UInt8} (h : Lit w)
    (heq : regWrite (.bank k) d w = (r, u)) :
    Lit u ∧ (∀ j, Known j w → Known j u) ∧ (r = true → Known k u) := by
  rcases write_cases (.bank k) d w with
    ⟨v, heq', hchip, hcache, hwritten, -⟩ | ⟨v, heq', hchip, hcache, hwritten, -⟩ <;>
    rw [heq'] at heq <;> cases heq
  · exact ⟨lit_bank h (.inr hchip) hcache hwritten, fun j hj => known_put hj (.inr hchip) hwritten,
      fun _ => known_acked hchip hwritten⟩
  · have hchip' := hchip.imp id And.left
    exact ⟨lit_bank h hchip' hcache hwritten, fun j hj => known_put hj hchip' hwritten, nofun⟩

/-- A call succeeds only when the chip has the cached enable bits. -/
def Sound (r : Bool × World) : Prop :=
  Lit r.2 ∧ (r.1 = true → r.2.chip.gp = r.2.cache.gp)

theorem reserved_form (gp : UInt8) (h : gp &&& 0xE8 = gpReserved) : gp ||| gpReserved = gp := by
  revert gp
  exact byte_forall (by decide +kernel)

theorem sound_apply {w : World} (h : Lit w) : Sound (applyGp w) := by
  have hform := reserved_form _ h.form
  rw [applyGp]
  rcases write_cases .gp (w.cache.gp ||| gpReserved) w with
    ⟨u, heq, hchip, hcache, hwritten, -⟩ | ⟨u, heq, hchip, hcache, hwritten, -⟩ <;> rw [heq]
  · have hknown : ∀ k : Bank, w.cache.gp &&& k.mask ≠ 0 → Known k u :=
      fun k hk => known_put (h.known k hk) (.inr hchip) hwritten
    have hgp : u.chip.gp = w.cache.gp := by rw [hchip]; exact hform
    refine ⟨⟨?_, fun k hk => hknown k ?_, fun k hk => hknown k ?_⟩, fun _ => ?_⟩
    · show (w.cache.gp ||| gpReserved) &&& 0xE8 = gpReserved
      rw [hform]
      exact h.form
    · rwa [← hform]
    · rwa [← hgp]
    · exact hgp.trans hform.symm
  · have hchip' := hchip.imp id And.left
    have hknown : ∀ k : Bank, w.cache.gp &&& k.mask ≠ 0 ∨ w.chip.gp &&& k.mask ≠ 0 → Known k u :=
      fun k hk => known_put (hk.elim (h.known k) (h.lit k)) hchip' hwritten
    refine ⟨⟨hcache ▸ h.form, fun k hk => hknown k (.inl (hcache ▸ hk)), fun k hk => hknown k ?_⟩,
      nofun⟩
    change u.chip.gp &&& k.mask ≠ 0 at hk
    rcases hchip' with hc | hc <;> rw [hc] at hk
    · exact .inr hk
    · exact .inl (by rw [← hform]; exact hk)

theorem sound_fail {w : World} (h : Lit w) : Sound (false, w) := ⟨h, nofun⟩

def Touches (k : Bank) (enables : UInt8 → UInt8) : Prop :=
  ∀ gp : UInt8, gp &&& 0xE8 = gpReserved → enables gp &&& 0xE8 = gpReserved ∧
    ∀ j : Bank, j ≠ k → enables gp &&& j.mask = gp &&& j.mask

theorem touches_tft (d : UInt8) :
    Touches .a (fun gp => if d > 0 then gp ||| gpEna else gp &&& ~~~gpEna) := by
  intro gp hgp
  refine ⟨?_, fun j hj => ?_⟩
  · split
    · revert gp
      exact byte_forall (by decide +kernel)
    · revert gp
      exact byte_forall (by decide +kernel)
  · clear hgp
    cases j with
    | a => exact (hj rfl).elim
    | b =>
      revert gp
      split <;> exact byte_forall (by decide +kernel)
    | c =>
      revert gp
      split <;> exact byte_forall (by decide +kernel)

theorem touches_keypad (kbdOn greenOn : Bool) :
    Touches .b (fun gp => (gp &&& ~~~(gpEnb ||| gpEn3b)) |||
      (if kbdOn then gpEnb else 0) ||| (if greenOn then gpEn3b else 0)) := by
  intro gp hgp
  refine ⟨?_, fun j hj => ?_⟩
  · revert gp
    cases kbdOn <;> cases greenOn <;> exact byte_forall (by decide +kernel)
  · clear hgp
    revert gp
    cases j with
    | b => exact (hj rfl).elim
    | a => cases kbdOn <;> cases greenOn <;> exact byte_forall (by decide +kernel)
    | c => cases kbdOn <;> cases greenOn <;> exact byte_forall (by decide +kernel)

theorem touches_red (on : Bool) :
    Touches .c (fun gp => if on then gp ||| gpEnc else gp &&& ~~~gpEnc) := by
  intro gp hgp
  refine ⟨?_, fun j hj => ?_⟩
  · revert gp
    cases on <;> exact byte_forall (by decide +kernel)
  · clear hgp
    revert gp
    cases j with
    | c => exact (hj rfl).elim
    | a => cases on <;> exact byte_forall (by decide +kernel)
    | b => cases on <;> exact byte_forall (by decide +kernel)

structure Inv (w : World) : Prop where
  lit : Lit w
  online : w.cache.online = true → w.chip.gp = w.cache.gp

theorem inv_online {r : Bool × World} (h : Sound r) : Inv (setOnline r).2 :=
  ⟨⟨h.1.form, h.1.known, h.1.lit⟩, h.2⟩

theorem inv_bank {w : World} (h : Lit w) (k : Bank) (d : UInt8) {enables : UInt8 → UInt8}
    (ht : Touches k enables) : Inv (setBank k d enables w).2 := by
  rw [setBank]
  split
  · next u heq => exact inv_online (sound_fail (lit_write h heq).1)
  · next u heq =>
    obtain ⟨hu, -, hacked⟩ := lit_write h heq
    have hset := ht u.cache.gp hu.form
    refine inv_online (sound_apply ⟨hset.1, fun j hj => ?_, hu.lit⟩)
    by_cases hjk : j = k
    · exact hjk ▸ hacked rfl
    · exact hu.known j (by rwa [← hset.2 j hjk])

theorem display_enables (d : UInt8) :
    (gpReserved ||| (if d > 0 then gpEna else 0)) &&& 0xE8 = gpReserved ∧
      ∀ k : Bank, k ≠ .a → (gpReserved ||| (if d > 0 then gpEna else 0)) &&& k.mask = 0 := by
  split
  · exact ⟨by decide, fun k hk => by cases k <;> first | decide | exact (hk rfl).elim⟩
  · exact ⟨by decide, fun k _ => by cases k <;> decide⟩

theorem reserved_off (k : Bank) : gpReserved &&& k.mask = 0 := by cases k <;> decide

theorem inv_off {w : World} (h : Lit w) : Inv (lm27965AllOff w).2 := by
  have hform : gpReserved &&& 0xE8 = gpReserved := by decide
  have hlit : Lit (w.set (fun s => { s with gp := gpReserved })) :=
    ⟨hform, fun k hk => (hk (reserved_off k)).elim, h.lit⟩
  exact inv_online (sound_apply hlit)

theorem inv_init {w : World} (h : Lit w) (tftDuty : UInt8) : Inv (lm27965Init tftDuty w).2 := by
  rw [lm27965Init]
  split
  · next u heq => exact inv_online (sound_fail (lit_write h heq).1)
  · next u heq =>
    obtain ⟨hu, -, hacked⟩ := lit_write h heq
    have hua : Lit (u.set (fun s =>
        { s with duty := Function.update s.duty .a (clampAb tftDuty) })) :=
      ⟨hu.form, hu.known, hu.lit⟩
    simp only
    split
    · next v heq => exact inv_online (sound_fail (lit_write hua heq).1)
    · next v heq =>
      obtain ⟨hv, hkeep, -⟩ := lit_write hua heq
      split
      · next x heq => exact inv_online (sound_fail (lit_write hv heq).1)
      · next x heq =>
        obtain ⟨hx, hkeep', -⟩ := lit_write hv heq
        have hknown : Known .a x := hkeep' .a (hkeep .a (hacked rfl))
        obtain ⟨hform, hoff⟩ := display_enables (clampAb tftDuty)
        have hlit : Lit (x.set (fun s =>
            { s with gp := gpReserved ||| (if clampAb tftDuty > 0 then gpEna else 0) })) := by
          refine ⟨hform, fun k hk => ?_, hx.lit⟩
          by_cases hka : k = .a
          · exact hka ▸ hknown
          · exact (hk (hoff k hka)).elim
        exact inv_online (sound_apply hlit)

def Call.Asks (k : Bank) (v : UInt8) : Call → Prop
  | .init tftDuty => k = .a ∧ v = clampAb tftDuty ∨ k ≠ .a ∧ v = 0
  | .tft duty => k = .a ∧ v = clampAb duty
  | .keypad _ _ duty => k = .b ∧ v = clampAb duty
  | .red _ duty => k = .c ∧ v = clampC duty
  | .allOff => False

theorem call_cases (c : Call) : (∃ tftDuty, c = .init tftDuty) ∨ c = .allOff ∨
    ∃ k d enables, (∀ w, c.perform w = setBank k d enables w) ∧ Touches k enables ∧ c.Asks k d := by
  cases c with
  | init tftDuty => exact .inl ⟨tftDuty, rfl⟩
  | allOff => exact .inr (.inl rfl)
  | tft duty =>
    refine .inr (.inr ⟨.a, clampAb duty, _, fun w => ?_, touches_tft (clampAb duty), rfl, rfl⟩)
    rw [Call.perform, lm27965SetTftBacklight]
  | keypad kbdOn greenOn duty =>
    refine .inr (.inr ⟨.b, clampAb duty, _, fun w => ?_, touches_keypad kbdOn greenOn, rfl, rfl⟩)
    rw [Call.perform, lm27965SetKeypadBacklight]
  | red on duty =>
    refine .inr (.inr ⟨.c, clampC duty, _, fun w => ?_, touches_red on, rfl, rfl⟩)
    rw [Call.perform, lm27965SetLedRed]

theorem inv_call {w : World} (hi : Inv w) (c : Call) : Inv (c.perform w).2 := by
  rcases call_cases c with ⟨tftDuty, rfl⟩ | rfl | ⟨k, d, enables, heq, ht, -⟩
  · exact inv_init hi.lit tftDuty
  · exact inv_off hi.lit
  · rw [heq]
    exact inv_bank hi.lit k d ht

def Asked (calls : List Call) (written : List (Reg × UInt8)) : Prop :=
  ∀ k v, (.bank k, v) ∈ written → ∃ c ∈ calls, c.Asks k v

theorem asked_snoc {calls : List Call} {written : List (Reg × UInt8)} {reg : Reg} {val : UInt8}
    (h : Asked calls written) (hreg : ∀ k, reg = .bank k → ∃ c ∈ calls, c.Asks k val) :
    Asked calls (written++[(reg, val)]) := by
  intro k v hmem
  rcases List.mem_append.mp hmem with hmem | hmem
  · exact h k v hmem
  · rw [List.mem_singleton, Prod.mk.injEq] at hmem
    rw [hmem.2]
    exact hreg k hmem.1.symm

theorem asked_write {calls : List Call} {w : World} {reg : Reg} {val : UInt8}
    (h : Asked calls w.written) (hreg : ∀ k, reg = .bank k → ∃ c ∈ calls, c.Asks k val) :
    Asked calls (regWrite reg val w).2.written :=
  asked_snoc h hreg

theorem asked_apply {calls : List Call} {w : World} (h : Asked calls w.written) :
    Asked calls (applyGp w).2.written := by
  rw [applyGp]
  have hwrite : Asked calls (regWrite .gp (w.cache.gp ||| gpReserved) w).2.written :=
    asked_write h (fun k hk => by cases hk)
  split
  · next u heq =>
    rw [heq] at hwrite
    exact hwrite
  · next u heq =>
    rw [heq] at hwrite
    exact hwrite

theorem asked_bank {calls : List Call} {w : World} (h : Asked calls w.written) (k : Bank)
    (d : UInt8) (enables : UInt8 → UInt8) (c : Call) (hc : c ∈ calls) (hasks : c.Asks k d) :
    Asked calls (setBank k d enables w).2.written := by
  have hreg : ∀ j, Reg.bank k = .bank j → ∃ c ∈ calls, c.Asks j d := by
    rintro j ⟨⟩
    exact ⟨c, hc, hasks⟩
  have hwrite := asked_write h hreg
  rw [setBank]
  split
  · next u heq =>
    rw [heq] at hwrite
    exact hwrite
  · next u heq =>
    rw [heq] at hwrite
    exact asked_apply (w := u.set _) hwrite

theorem asked_init {calls : List Call} {w : World} (h : Asked calls w.written) (tftDuty : UInt8)
    (hc : .init tftDuty ∈ calls) : Asked calls (lm27965Init tftDuty w).2.written := by
  have hreg : ∀ k v, (Call.init tftDuty).Asks k v → ∀ j, Reg.bank k = .bank j →
      ∃ c ∈ calls, c.Asks j v := by
    rintro k v hasks _ ⟨⟩
    exact ⟨_, hc, hasks⟩
  have ha := asked_write h (hreg .a (clampAb tftDuty) (.inl ⟨rfl, rfl⟩))
  rw [lm27965Init]
  split
  · next u heq =>
    rw [heq] at ha
    exact ha
  · next u heq =>
    rw [heq] at ha
    have hb := asked_write (w := u.set (fun s =>
      { s with duty := Function.update s.duty .a (clampAb tftDuty) })) ha
      (hreg .b 0 (.inr ⟨nofun, rfl⟩))
    simp only
    split
    · next v heq =>
      rw [heq] at hb
      exact hb
    · next v heq =>
      rw [heq] at hb
      have hd := asked_write hb (hreg .c 0 (.inr ⟨nofun, rfl⟩))
      split
      · next x heq =>
        rw [heq] at hd
        exact hd
      · next x heq =>
        rw [heq] at hd
        exact asked_apply (w := x.set _) hd

theorem asked_call {calls : List Call} {w : World} (h : Asked calls w.written) (c : Call)
    (hc : c ∈ calls) : Asked calls (c.perform w).2.written := by
  rcases call_cases c with ⟨tftDuty, rfl⟩ | rfl | ⟨k, d, enables, heq, -, hasks⟩
  · exact asked_init h tftDuty hc
  · exact asked_apply (w := w.set _) h
  · rw [heq]
    exact asked_bank h k d enables c hc hasks

theorem after_inv (calls all : List Call) (w : World) (hsub : calls ⊆ all) (hi : Inv w)
    (ha : Asked all w.written) : Inv (w.after calls) ∧ Asked all (w.after calls).written := by
  induction calls generalizing w with
  | nil => exact ⟨hi, ha⟩
  | cons c calls ih =>
    rw [List.cons_subset] at hsub
    exact ih (c.perform w).2 hsub.2 (inv_call hi c) (asked_call ha c hsub.1)

/-- The chip has the cached duties, and writes that will fail will not reach it. -/
structure Synced (w : World) : Prop where
  duty : w.chip.duty = w.cache.duty
  dropped : ∀ n, (w.script n).fails = true → (w.script n).lands = false

theorem dropped_write {w u : World} {r : Bool} {reg : Reg} {val : UInt8}
    (hd : ∀ n, (w.script n).fails = true → (w.script n).lands = false)
    (heq : regWrite reg val w = (r, u)) :
    u.chip = (if r then w.chip.put val reg else w.chip) ∧ u.cache = w.cache ∧
      ∀ n, (u.script n).fails = true → (u.script n).lands = false := by
  cases heq
  refine ⟨?_, rfl, fun n => hd (n+1)⟩
  have h0 := hd 0
  cases hf : (w.script 0).fails with
  | false => rfl
  | true => rw [h0 hf]; rfl

theorem synced_apply {w : World} (h : Synced w) : Synced (applyGp w).2 := by
  rw [applyGp]
  split
  · next u heq =>
    obtain ⟨hchip, hcache, hd⟩ := dropped_write h.dropped heq
    refine ⟨?_, hd⟩
    show u.chip.duty = u.cache.duty
    rw [hchip, hcache]
    exact h.duty
  · next u heq =>
    obtain ⟨hchip, hcache, hd⟩ := dropped_write h.dropped heq
    refine ⟨?_, hd⟩
    rw [hchip, hcache]
    exact h.duty

theorem synced_bank {w : World} (h : Synced w) (k : Bank) (d : UInt8)
    (enables : UInt8 → UInt8) : Synced (setBank k d enables w).2 := by
  rw [setBank]
  split
  · next u heq =>
    obtain ⟨hchip, hcache, hd⟩ := dropped_write h.dropped heq
    refine ⟨?_, hd⟩
    show u.chip.duty = u.cache.duty
    rw [hchip, hcache]
    exact h.duty
  · next u heq =>
    obtain ⟨hchip, hcache, hd⟩ := dropped_write h.dropped heq
    have hset : Synced (u.set (fun s =>
        { s with duty := Function.update s.duty k d, gp := enables s.gp })) := by
      refine ⟨?_, hd⟩
      show u.chip.duty = Function.update u.cache.duty k d
      rw [hchip, hcache, ← h.duty]
      rfl
    have happly := synced_apply hset
    exact ⟨happly.duty, happly.dropped⟩

theorem synced_init {w : World} (tftDuty : UInt8)
    (hd : ∀ n, (w.script n).fails = true → (w.script n).lands = false)
    (hzero : w.cache.duty = fun _ => 0) (hok : (lm27965Init tftDuty w).1 = true) :
    Synced (lm27965Init tftDuty w).2 := by
  rw [lm27965Init] at hok ⊢
  split at hok
  · cases hok
  · next u hua =>
    obtain ⟨hchip, hcache, hu⟩ := dropped_write hd hua
    simp only at hok ⊢
    split at hok
    · cases hok
    · next v hvb =>
      obtain ⟨hchip', hcache', hv⟩ := dropped_write (w := u.set _) hu hvb
      split at hok
      · cases hok
      · next x hxc =>
        obtain ⟨hchip'', hcache'', hx⟩ := dropped_write hv hxc
        have hset : Synced (x.set (fun s =>
            { s with gp := gpReserved ||| (if clampAb tftDuty > 0 then gpEna else 0) })) := by
          refine ⟨?_, hx⟩
          show x.chip.duty = x.cache.duty
          rw [hchip'', hcache'', hchip', hcache']
          show Function.update (Function.update u.chip.duty .b 0) .c 0 =
            Function.update u.cache.duty .a (clampAb tftDuty)
          rw [hchip, hcache, hzero]
          funext k
          cases k <;> rfl
        have happly := synced_apply hset
        exact ⟨happly.duty, happly.dropped⟩

theorem synced_after (calls : List Call) (w : World) (h : Synced w)
    (hno : ∀ c ∈ calls, ∀ d, c ≠ .init d) : Synced (w.after calls) := by
  induction calls generalizing w with
  | nil => exact h
  | cons c calls ih =>
    refine ih (c.perform w).2 ?_ (fun d hd => hno d (List.mem_cons_of_mem c hd))
    rcases call_cases c with ⟨tftDuty, rfl⟩ | rfl | ⟨k, d, enables, heq, -, -⟩
    · exact (hno _ List.mem_cons_self tftDuty rfl).elim
    · have happly := synced_apply (w := w.set (fun s => { s with gp := gpReserved }))
        ⟨h.duty, h.dropped⟩
      exact ⟨happly.duty, happly.dropped⟩
    · rw [heq]
      exact synced_bank h k d enables

theorem apply_gp (w : World) (h : (applyGp w).1 = true) :
    (applyGp w).2.cache.gp = w.cache.gp ||| gpReserved := by
  rw [applyGp] at h ⊢
  split at h
  · rfl
  · cases h

/-- On a chip that starts dark, after any calls, whichever writes fail and whether or not these
reach it: while the driver is online the chip has the cached enable bits; no bank is lit at a
duty that no call asked for, such as one from before the start; and `lm27965_all_off` returns
true only when all is dark. If writes that fail do not reach the chip and the first call is a
set-up that succeeds, the cached duties are the chip's until the next set-up. -/
theorem lights_follow_calls (chip : Chip) (hoff : ∀ k : Bank, chip.gp &&& k.mask = 0)
    (script : ℕ → Env) (calls : List Call) :
    (((World.start chip script).after calls).cache.online = true →
      ((World.start chip script).after calls).chip.gp =
        ((World.start chip script).after calls).cache.gp) ∧
    (∀ k : Bank, ((World.start chip script).after calls).chip.gp &&& k.mask ≠ 0 →
      ∃ c ∈ calls, c.Asks k (((World.start chip script).after calls).chip.duty k)) ∧
    ((lm27965AllOff ((World.start chip script).after calls)).1 = true →
      ∀ k : Bank,
        (lm27965AllOff ((World.start chip script).after calls)).2.chip.gp &&& k.mask = 0) ∧
    ∀ tftDuty rest, calls = .init tftDuty::rest →
      (lm27965Init tftDuty (World.start chip script)).1 = true →
      (∀ n, (script n).fails = true → (script n).lands = false) →
      (∀ c ∈ rest, ∀ d, c ≠ .init d) →
      ((World.start chip script).after calls).chip.duty =
        ((World.start chip script).after calls).cache.duty := by
  have hstart : Inv (World.start chip script) := by
    have hform : gpReserved &&& 0xE8 = gpReserved := by decide
    exact ⟨⟨hform, fun k hk => (hk (reserved_off k)).elim, fun k hk => (hk (hoff k)).elim⟩, nofun⟩
  obtain ⟨hi, hasked⟩ := after_inv calls calls _ (List.Subset.refl _) hstart nofun
  refine ⟨hi.online, fun k hk => hasked k _ (hi.lit.lit k hk), fun hok k => ?_, ?_⟩
  · have hdark := (inv_off hi.lit).online hok
    have hgp := apply_gp _ hok
    change (lm27965AllOff ((World.start chip script).after calls)).2.cache.gp = _ at hgp
    rw [hdark, hgp]
    show (gpReserved ||| gpReserved) &&& k.mask = 0
    cases k <;> decide
  · rintro tftDuty rest rfl hok hd hno
    exact (synced_after rest _ (synced_init tftDuty hd rfl hok) hno).duty

/-- A red LED after a set-up whose third write fails and reaches the chip. -/
theorem red_asked_for :
    ∃ c ∈ [Call.init 22, .red true 9], c.Asks .c
      (((World.start ⟨0x20, fun _ => 31⟩ (fun n => ⟨n = 2, true⟩)).after
        [.init 22, .red true 9]).chip.duty .c) :=
  (lights_follow_calls ⟨0x20, fun _ => 31⟩ (fun k => by cases k <;> decide)
    (fun n => ⟨n = 2, true⟩) [.init 22, .red true 9]).2.1 .c (by decide +kernel)

end MokyaLora.Lm27965
