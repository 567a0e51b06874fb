import MokyaLora.Lib.Monitor

/-!
# The shared I2C bus

Two buses share one peripheral (`i2c_bus.c`): under a mutex, a driver has the pins of its bus
routed to `i2c1` and those of the other bus taken off, pin by pin, and the peripheral set up
again. Any number of tasks acquire either bus, call by call and in any order.
-/

set_option autoImplicit false

namespace MokyaLora.I2cBus
open Lib.Monitor Lib.Schedule

inductive BusId where
  | power
  | sensor
  deriving DecidableEq

def BusId.other : BusId → BusId
  | .power => .sensor
  | .sensor => .power

def i2cDefaultBaud : ℕ := 400000

def core1ClkPeriHz : ℕ := 150000000

structure Timing where
  fast : Bool
  fsSclHcnt : ℕ
  fsSclLcnt : ℕ
  fsSpklen : ℕ
  ssSclHcnt : ℕ
  ssSclLcnt : ℕ
  sdaHold : ℕ
  deriving DecidableEq

def i2cSetBaudrateCore1 (baudrate : ℕ) : Timing :=
  let freqIn := core1ClkPeriHz
  let period := (freqIn+baudrate/2)/baudrate
  let lcnt := period*3/5
  let hcnt := period-lcnt
  { fast := decide (100000 < baudrate)
    fsSclHcnt := hcnt
    fsSclLcnt := lcnt
    fsSpklen := if lcnt < 16 then 1 else lcnt/16
    ssSclHcnt := hcnt
    ssSclLcnt := lcnt
    sdaHold := if baudrate < 1000000 then freqIn*3/10000000+1 else freqIn*3/25000000+1 }

structure Transfer where
  id : BusId
  sda : BusId → Bool
  scl : BusId → Bool
  timing : Option Timing
  fresh : Bool
  switched : Bool

/-- The pins that are routed to `i2c1`, the peripheral, and `s_active`. `fresh` says that the
peripheral was set up since its pins last changed. `switched` and the transfers are
history that no code reads. -/
structure Hardware where
  active : BusId
  sda : BusId → Bool
  scl : BusId → Bool
  timing : Option Timing
  fresh : Bool
  switched : Bool
  transfers : List Transfer

def Hardware.setSda (h : Hardware) (id : BusId) (on : Bool) : Hardware :=
  { h with sda := Function.update h.sda id on, fresh := false }

def Hardware.setScl (h : Hardware) (id : BusId) (on : Bool) : Hardware :=
  { h with scl := Function.update h.scl id on, fresh := false }

/-- `i2c_init`. With no peripheral clock known on Core 1 its timing is of no use. -/
def Hardware.i2cInit (h : Hardware) : Hardware := { h with timing := none, fresh := true }

def Hardware.setBaudrate (h : Hardware) : Hardware :=
  { h with timing := some (i2cSetBaudrateCore1 i2cDefaultBaud) }

def i2cBusInitAll (h : Hardware) : Hardware :=
  { ((h.i2cInit.setBaudrate).setSda .power true).setScl .power true with active := .power }

/-- The next call of `i2c_bus_acquire` behind the mutex; `holding` is behind its return. -/
inductive Stage where
  | compare
  | unmuxSda
  | unmuxScl
  | muxSda
  | muxScl
  | reinit
  | baud
  | note
  | holding
  deriving DecidableEq

structure Pc where
  id : BusId
  stage : Stage

inductive Input where
  | go
  | transfer

def work (pc : Pc) (h : Hardware) : Input → Option (Pc × Hardware)
  | .go => match pc.stage with
    | .compare => some (if pc.id = h.active then ⟨pc.id, .holding⟩ else ⟨pc.id, .unmuxSda⟩, h)
    | .unmuxSda => some (⟨pc.id, .unmuxScl⟩, h.setSda pc.id.other false)
    | .unmuxScl => some (⟨pc.id, .muxSda⟩, h.setScl pc.id.other false)
    | .muxSda => some (⟨pc.id, .muxScl⟩, h.setSda pc.id true)
    | .muxScl => some (⟨pc.id, .reinit⟩, h.setScl pc.id true)
    | .reinit => some (⟨pc.id, .baud⟩, h.i2cInit)
    | .baud => some (⟨pc.id, .note⟩, h.setBaudrate)
    | .note => some (⟨pc.id, .holding⟩, { h with active := pc.id, switched := true })
    | .holding => none
  | .transfer => match pc.stage with
    | .holding => some (pc, { h with
        transfers := h.transfers++[⟨pc.id, h.sda, h.scl, h.timing, h.fresh, h.switched⟩] })
    | _ => none

def i2cBus : Section Hardware Pc BusId Input where
  enter := fun id => ⟨id, .compare⟩
  work := work
  leaves := fun pc => pc.stage = .holding

def Only (id : BusId) (line : BusId → Bool) : Prop := line id = true ∧ line id.other = false

structure Transfer.Right (x : Transfer) : Prop where
  sda : Only x.id x.sda
  scl : Only x.id x.scl
  timing : x.timing = some (i2cSetBaudrateCore1 i2cDefaultBaud)
  fresh : x.fresh = true ∨ x.switched = false ∧ x.id = .power

structure Ready (id : BusId) (h : Hardware) : Prop where
  sda : Only id h.sda
  scl : Only id h.scl
  timing : h.timing = some (i2cSetBaudrateCore1 i2cDefaultBaud)
  fresh : h.fresh = true ∨ h.switched = false ∧ id = .power

def Free (h : Hardware) : Prop := Ready h.active h ∧ ∀ x ∈ h.transfers, x.Right

/-- What holds before each call of `switch_pinmux`. -/
def Switching (id : BusId) (h : Hardware) : Stage → Prop
  | .compare => Ready h.active h
  | .unmuxSda => Only id.other h.sda ∧ Only id.other h.scl
  | .unmuxScl => h.sda = (fun _ => false) ∧ Only id.other h.scl
  | .muxSda => h.sda = (fun _ => false) ∧ h.scl = fun _ => false
  | .muxScl => Only id h.sda ∧ h.scl = fun _ => false
  | .reinit => Only id h.sda ∧ Only id h.scl
  | .baud => Only id h.sda ∧ Only id h.scl ∧ h.fresh = true
  | .note => Ready id h ∧ h.fresh = true
  | .holding => Ready id h ∧ h.active = id

def During (pc : Pc) (h : Hardware) : Prop :=
  Switching pc.id h pc.stage ∧ ∀ x ∈ h.transfers, x.Right

theorem other_other (id : BusId) : id.other.other = id := by cases id <;> rfl

theorem other_of_ne {id active : BusId} (h : id ≠ active) : active = id.other := by
  cases id <;> cases active <;> first | rfl | exact (h rfl).elim

theorem update_off {id : BusId} {line : BusId → Bool} (h : Only id.other line) :
    Function.update line id.other false = fun _ => false := by
  funext b
  by_cases hb : b = id.other
  · rw [hb, Function.update_self]
  · have hself : b = id := by
      cases b <;> cases id <;> first | rfl | exact (hb rfl).elim
    rw [Function.update_of_ne hb, hself]
    have hoff := h.2
    rwa [other_other] at hoff

theorem update_on (id : BusId) : Only id (Function.update (fun _ => false) id true) := by
  refine ⟨Function.update_self .., ?_⟩
  exact Function.update_of_ne (by cases id <;> nofun) ..

theorem work_switching (id : BusId) (h : Hardware) (stage stage' : Stage) (id' : BusId)
    (h' : Hardware) (hd : Switching id h stage)
    (hs : work ⟨id, stage⟩ h .go = some (⟨id', stage'⟩, h')) :
    id' = id ∧ Switching id h' stage' ∧ h'.transfers = h.transfers := by
  cases stage with
  | compare =>
    simp only [work, Option.some.injEq, Prod.mk.injEq] at hs
    obtain ⟨hpc, rfl⟩ := hs
    split at hpc <;> cases hpc
    · next hsame => exact ⟨rfl, ⟨hsame ▸ hd, hsame.symm⟩, rfl⟩
    · next hne =>
      have hother := other_of_ne hne
      exact ⟨rfl, ⟨hother ▸ hd.sda, hother ▸ hd.scl⟩, rfl⟩
  | unmuxSda =>
    cases hs
    exact ⟨rfl, ⟨update_off hd.1, hd.2⟩, rfl⟩
  | unmuxScl =>
    cases hs
    exact ⟨rfl, ⟨hd.1, update_off hd.2⟩, rfl⟩
  | muxSda =>
    cases hs
    refine ⟨rfl, ⟨?_, hd.2⟩, rfl⟩
    show Only id (Function.update h.sda id true)
    rw [hd.1]
    exact update_on id
  | muxScl =>
    cases hs
    refine ⟨rfl, ⟨hd.1, ?_⟩, rfl⟩
    show Only id (Function.update h.scl id true)
    rw [hd.2]
    exact update_on id
  | reinit =>
    cases hs
    exact ⟨rfl, ⟨hd.1, hd.2, rfl⟩, rfl⟩
  | baud =>
    cases hs
    exact ⟨rfl, ⟨⟨hd.1, hd.2.1, rfl, .inl hd.2.2⟩, hd.2.2⟩, rfl⟩
  | note =>
    cases hs
    exact ⟨rfl, ⟨⟨hd.1.sda, hd.1.scl, hd.1.timing, .inl hd.2⟩, rfl⟩, rfl⟩
  | holding => cases hs

theorem i2c_rule : Rule i2cBus Free During where
  enter := fun _ _ hf => hf
  work := by
    rintro ⟨id, stage⟩ h i ⟨id', stage'⟩ h' ⟨hd, hx⟩ hs
    cases i with
    | go =>
      obtain ⟨rfl, hd', htransfers⟩ := work_switching id h stage stage' id' h' hd hs
      exact ⟨hd', htransfers ▸ hx⟩
    | transfer =>
      cases stage with
      | holding =>
        cases hs
        refine ⟨⟨⟨hd.1.sda, hd.1.scl, hd.1.timing, hd.1.fresh⟩, hd.2⟩, fun x hmem => ?_⟩
        rcases List.mem_append.mp hmem with hmem | hmem
        · exact hx x hmem
        · rw [List.mem_singleton.mp hmem]
          exact ⟨hd.1.sda, hd.1.scl, hd.1.timing, hd.1.fresh⟩
      | _ => cases hs
  leave := by
    rintro ⟨id, stage⟩ h ⟨hd, hx⟩ hleaves
    have hstage : stage = .holding := of_decide_eq_true hleaves
    subst hstage
    exact ⟨hd.2 ▸ hd.1, hx⟩

theorem free_init (h : Hardware) (hoff : h.sda .sensor = false ∧ h.scl .sensor = false)
    (hnew : h.switched = false ∧ h.transfers = []) : Free (i2cBusInitAll h) := by
  have honly : ∀ line : BusId → Bool, line .sensor = false →
      Only .power (Function.update line .power true) :=
    fun line hline => ⟨Function.update_self .., (Function.update_of_ne (by decide) ..).trans hline⟩
  refine ⟨⟨honly h.sda hoff.1, honly h.scl hoff.2, rfl, .inr ⟨hnew.1, rfl⟩⟩, ?_⟩
  show ∀ x ∈ h.transfers, x.Right
  rw [hnew.2]
  exact nofun

def Stage.left : Stage → ℕ
  | .compare => 8
  | .unmuxSda => 7
  | .unmuxScl => 6
  | .muxSda => 5
  | .muxScl => 4
  | .reinit => 3
  | .baud => 2
  | .note => 1
  | .holding => 0

/-- From a set-up that finds the sensor pins unrouted, however many tasks acquire either bus
and however their calls interleave, one task at a time has it, every transfer goes out on both
lines of the bus it was acquired for and on no line of the other, at the timing of 400 kHz, on
a peripheral set up since its pins last changed (or on the power bus before the first switch),
and an acquire under way gets there on its own. -/
theorem transfers_reach_their_bus {τ : Type} [DecidableEq τ] (h : Hardware)
    (hoff : h.sda .sensor = false ∧ h.scl .sensor = false)
    (hnew : h.switched = false ∧ h.transfers = []) (acts : List (Lib.Monitor.Act τ BusId Input))
    (s : State τ Hardware Pc) (he : exec (step i2cBus) (free (i2cBusInitAll h)) acts = some s) :
    (∀ t v, s.locals t ≠ none → s.locals v ≠ none → t = v) ∧
    (∀ x ∈ s.resource.transfers, x.Right) ∧
    ∀ t, s.locals t ≠ none → ∃ k u pc,
      exec (step i2cBus) s (List.replicate k (.work t .go)) = some u ∧
        u.locals t = some pc ∧ pc.stage = .holding := by
  have hi := inv_exec i2c_rule acts _ s (inv_free (free_init h hoff hnew)) he
  refine ⟨hi.alone, hi.always (fun _ hf => hf.2) (fun _ _ hd => hd.2), fun t ht => ?_⟩
  have hwork : ∀ pc r, During pc r → ¬ pc.stage = .holding →
      ∃ pc' r', i2cBus.work pc r .go = some (pc', r') ∧ pc'.stage.left < pc.stage.left := by
    rintro ⟨id, stage⟩ r - hne
    cases stage with
    | compare =>
      refine ⟨_, _, rfl, ?_⟩
      show Stage.left (if id = r.active then _ else _ : Pc).stage < 8
      split <;> simp [Stage.left]
    | holding => exact (hne rfl).elim
    | _ => exact ⟨_, _, rfl, Nat.lt_succ_self _⟩
  obtain ⟨k, u, pc, hu, -, hl, hg⟩ := work_until i2c_rule t .go (fun pc => pc.stage = .holding)
    (fun pc => pc.stage.left) hwork s hi ht
  exact ⟨k, u, pc, hu, hl, hg⟩

def unrouted : Hardware := ⟨.power, fun _ => false, fun _ => false, none, false, false, []⟩

def twoTasks : List (Lib.Monitor.Act Bool BusId Input) :=
  [.enter true .sensor]++List.replicate 8 (.work true .go)++
    [.work true .transfer, .leave true, .enter false .power]++
    List.replicate 8 (.work false .go)++[.work false .transfer]

theorem two_transfers_right :
    ∃ s, exec (step i2cBus) (free (i2cBusInitAll unrouted)) twoTasks = some s ∧
      s.resource.transfers.map Transfer.id = [.sensor, .power] ∧
      ∀ x ∈ s.resource.transfers, x.Right := by
  have hrun : (exec (step i2cBus) (free (i2cBusInitAll unrouted)) twoTasks).map
      (fun s => s.resource.transfers.map Transfer.id) = some [.sensor, .power] := by
    decide +kernel
  obtain ⟨s, hs, hids⟩ := Option.map_eq_some_iff.mp hrun
  exact ⟨s, hs, hids,
    (transfers_reach_their_bus unrouted ⟨rfl, rfl⟩ ⟨rfl, rfl⟩ twoTasks s hs).2.1⟩

end MokyaLora.I2cBus
