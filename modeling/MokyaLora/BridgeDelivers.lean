import MokyaLora.BridgeStream

/-!
# The bridge task gets through

From every reachable state in which no reboot is announced and the task stands in no push,
the task's own steps bring all that Core 0 has pushed to the tables and to the host, as
long as the endpoint takes a byte now and then and the host sends nothing meanwhile.
-/

set_option autoImplicit false

namespace MokyaLora.BridgeTask
open Lib.Schedule Lib.Fields Lib.Memory IpcRing BridgeDispatch

def nextAct (s : Core1) : BridgeAct :=
  match s.pc with
  | .writing p => .write true 1 (min p.length 1)
  | .cdcOut => .readCdc []
  | _ => .iterate

/-- A step of the task itself, with the port mounted and no byte from the host. -/
def Own : BridgeAct → Prop
  | .iterate => True
  | .write mounted avail _ => mounted = true ∧ 0 < avail
  | .readCdc available => available = []
  | _ => False

theorem next_own (s : Core1) : Own (nextAct s) := by
  unfold nextAct
  split
  · exact ⟨rfl, by decide⟩
  · rfl
  · trivial

def popRank : PopPc → ℕ
  | .idle => 4
  | .tailLoaded _ => 3
  | .headLoaded _ _ => 2
  | .copied _ _ => 1

def Core1.rank (s : Core1) : ℕ :=
  match s.pc with
  | .writing p => p.length+3
  | .log => popRank s.log.consumer+2
  | .cdcOut => 2
  | .status => 1
  | _ => 0

/-- An iteration takes fewer than 300 steps, and one of them pops. -/
def Core1.left (s : Core1) : ℕ := 300*s.data.left+s.rank

structure Going (pushed : List Message) (s : Core1) : Prop where
  pushed : s.data.pushed = pushed
  quiet : ∀ n, s.pc ≠ .forwarding n
  running : s.pc ≠ .rebooting

def Done (s : Core1) : Prop := ¬ s.data.popped.length < s.data.pushed.length ∧ s.pc.pending = []

theorem after_dispatch_quiet (hdr : IpcMsgHeader) (scratch : Bytes) (n : ℕ) :
    afterDispatch hdr scratch ≠ .forwarding n := by
  simp only [afterDispatch]
  split
  · simp
  · split
    · simp
    · split <;> simp

theorem after_dispatch_rank (m : Message) (h : m.payload.length ≤ ipcMsgPayloadMax) (s : Core1)
    (hs : s.pc = afterDispatch m.header m.payload) : s.rank < 300 := by
  simp only [ipcMsgPayloadMax] at h
  rcases after_dispatch_pending m with ⟨p, hp, hserial⟩ | ⟨hnot, -⟩
  · have hlen : p.length ≤ m.payload.length := by
      rw [← hserial, serialPayload]
      split
      · exact le_refl _
      · exact Nat.zero_le _
    simp only [Core1.rank, hs, hp]
    omega
  · simp only [Core1.rank, hs]
    split
    · next p hp => exact (hnot p hp).elim
    · cases s.log.consumer <;> simp [popRank]
    all_goals decide

theorem unpopped_fits {s : System Unit} (hi : IpcRing.Inv ipcRingSlotCount s)
    (hv : s.popped.length < s.pushed.length) :
    (s.pushed[s.popped.length]).payload.length ≤ ipcMsgPayloadMax := by
  have hholds := congrArg Prod.snd (hi.slots s.popped.length hv (le_refl _))
  simp only [IpcRingSlot.copyOut, Message.received] at hholds
  rw [← hholds, List.length_take]
  omega

theorem pop_data_going {R : Bytes → Bytes → Prop} {bridge : Bridge} {read : List Bytes}
    {s : Core1} (hi : Inv R bridge read s) (hs : s.pc = .data)
    (h : s.data.popped.length < s.data.pushed.length) :
    s.popData.data.pushed = s.data.pushed ∧ (∀ n, s.popData.pc ≠ .forwarding n) ∧
      s.popData.left < s.left := by
  have hleft := pop_left hi.data h
  have hrank : s.rank = 0 := by rw [Core1.rank, hs]
  rcases pop_data_cases s with ⟨-, heq⟩ | ⟨-, heq⟩ | ⟨got, hret, heq⟩
  · rw [heq]
    refine ⟨rfl, fun n => ?_, ?_⟩
    · show s.pc ≠ _
      simp [hs]
    · simp only [Core1.left, Core1.rank, hs] at *
      omega
  · rw [heq]
    refine ⟨rfl, by simp, ?_⟩
    have hlog : popRank s.log.consumer ≤ 4 := by cases s.log.consumer <;> simp [popRank]
    simp only [Core1.left, Core1.rank, hs] at *
    omega
  · obtain ⟨hv, hgot, -⟩ := pop_returns hi.data hret
    have hfits := unpopped_fits hi.data hv
    generalize s.data.pushed[s.data.popped.length] = m at hgot hfits
    subst hgot
    rw [heq]
    refine ⟨rfl, fun n => after_dispatch_quiet _ _ n, ?_⟩
    have hsmall := after_dispatch_rank m hfits
      (Core1.dispatched { s with
        data := s.data.afterPop (popStep ipcRingSlotCount s.data.ring s.data.consumer) } m.received)
      (after_dispatch_fill m s.scratch)
    simp only [Core1.left, hrank]
    have hdata : (Core1.dispatched { s with
        data := s.data.afterPop (popStep ipcRingSlotCount s.data.ring s.data.consumer) }
        m.received).data = s.data.afterPop (popStep ipcRingSlotCount s.data.ring s.data.consumer) :=
      rfl
    rw [hdata]
    omega

theorem pop_log_rank (s : Core1) (hs : s.pc = .log) :
    s.popLog.rank < s.rank ∧ ∀ n, s.popLog.pc ≠ .forwarding n := by
  constructor
  · simp only [Core1.popLog]
    cases hc : s.log.consumer with
    | idle => simp [Core1.rank, hs, popStep, System.afterPop, popRank, hc]
    | tailLoaded tail => simp [Core1.rank, hs, popStep, System.afterPop, popRank, hc]
    | headLoaded tail head =>
      by_cases he : head = tail <;>
        simp [Core1.rank, hs, popStep, System.afterPop, popRank, hc, he]
    | copied tail got => simp [Core1.rank, hs, popStep, popRank, hc]
  · intro n
    rcases pop_log_pc s with h | h <;> rw [h]
    · simp [hs]
    · simp

theorem write_going (s : Core1) (p : Bytes) (hs : s.pc = .writing p) :
    ∃ t, s.write p true 1 (min p.length 1) = some t ∧ t.data = s.data ∧
      (∀ n, t.pc ≠ .forwarding n) ∧ t.rank < s.rank := by
  have hrank : s.rank = p.length+3 := by rw [Core1.rank, hs]
  simp only [Core1.write, Bool.true_eq_false, if_false, le_refl, if_true, Nat.one_ne_zero]
  refine ⟨_, rfl, rfl, fun n => ?_, ?_⟩
  · show (if p.length ≤ min p.length 1 then Pc.cdcOut else .writing _) ≠ _
    split <;> simp
  · rw [hrank]
    by_cases hall : p.length ≤ min p.length 1
    · simp [Core1.rank, hall]
    · simp only [Core1.rank, hall, if_false, List.length_drop]
      omega

theorem next_going {R : Bytes → Bytes → Prop} (hrefl : ∀ x, R x x) {bridge : Bridge}
    {read : List Bytes} {pushed : List Message}
    (hreboot : ∀ m ∈ pushed, m.msgId ≠ ipcMsgRebootNotify) (s : Core1)
    (hs : Inv R bridge read s ∧ Going pushed s) (hdone : ¬ Done s) :
    ∃ t, bridgeStep s (nextAct s) = some t ∧ (Inv R bridge read t ∧ Going pushed t) ∧
      t.left < s.left := by
  obtain ⟨hi, hg⟩ := hs
  -- the step keeps the invariant, and with it the task from stopping
  have hwhole : ∀ t, bridgeStep s (nextAct s) = some t → t.data.pushed = s.data.pushed →
      (∀ n, t.pc ≠ .forwarding n) → t.left < s.left →
      ∃ t, bridgeStep s (nextAct s) = some t ∧ (Inv R bridge read t ∧ Going pushed t) ∧
        t.left < s.left := by
    intro t ht hpushed hquiet hlt
    have hbears : Bears R s (nextAct s) := by
      unfold nextAct
      split <;> simp [Bears]
    have hnil : (nextAct s).chunk = [] := by
      unfold nextAct
      split <;> rfl
    have hti := inv_bridge_step hrefl (nextAct s) hi hbears ht
    rw [hnil, List.append_nil] at hti
    refine ⟨t, ht, ⟨hti, hpushed.trans hg.pushed, hquiet, fun hstop => ?_⟩, hlt⟩
    obtain ⟨got, hgot, hr⟩ := hti.running.mp hstop
    obtain ⟨m, hm, rfl⟩ := List.mem_map.mp ((inv_popped_first hti.data).subset hgot)
    exact hreboot m (hg.pushed ▸ hpushed ▸ hm) hr
  unfold nextAct at hwhole ⊢
  cases hpc : s.pc with
  | data =>
    simp only [hpc] at hwhole ⊢
    have hmore : s.data.popped.length < s.data.pushed.length := by
      by_contra hnone
      exact hdone ⟨hnone, by rw [hpc]; rfl⟩
    obtain ⟨hpushed, hquiet, hlt⟩ := pop_data_going hi hpc hmore
    exact hwhole s.popData (by simp [bridgeStep, Core1.iterate, hpc]) hpushed hquiet hlt
  | writing p =>
    simp only [hpc] at hwhole ⊢
    obtain ⟨t, ht, hdata, hquiet, hlt⟩ := write_going s p hpc
    exact hwhole t (by simpa only [bridgeStep, hpc] using ht) (by rw [hdata]) hquiet
      (by simp only [Core1.left, hdata]; omega)
  | log =>
    simp only [hpc] at hwhole ⊢
    obtain ⟨hlt, hquiet⟩ := pop_log_rank s hpc
    have hdata := (pop_log_frame s).2.1
    exact hwhole s.popLog (by simp [bridgeStep, Core1.iterate, hpc]) (by rw [hdata]) hquiet
      (by simp only [Core1.left, hdata]; omega)
  | cdcOut =>
    simp only [hpc] at hwhole ⊢
    exact hwhole { s with pc := .status } (by simp [bridgeStep, Core1.read, hpc]) rfl
      (by simp) (by simp [Core1.left, Core1.rank, hpc])
  | forwarding n => exact (hg.quiet n hpc).elim
  | status =>
    simp only [hpc] at hwhole ⊢
    exact hwhole { s with pc := .data } (by simp [bridgeStep, Core1.iterate, hpc]) rfl
      (by simp) (by simp [Core1.left, Core1.rank, hpc])
  | rebooting => exact (hg.running hpc).elim

/-- From every reachable state in which no reboot is announced and the task stands in no
push, its own steps bring every message to the tables and, if the port was mounted all the
time, every serial byte to the host. -/
theorem bridge_delivers (scratch : Bytes) (bridge : Bridge) (acts : List BridgeAct) (s : Core1)
    (he : exec bridgeStep (Core1.init scratch bridge) acts = some s)
    (hreboot : ∀ m ∈ s.data.pushed, m.msgId ≠ ipcMsgRebootNotify)
    (hquiet : ∀ n, s.pc ≠ .forwarding n) :
    ∃ more t, (∀ a ∈ more, Own a) ∧ exec bridgeStep s more = some t ∧
      t.data.popped = s.data.pushed.map Message.received ∧
      t.bridge = applied s.data.pushed bridge ∧
      (Along bridgeStep Mounted (Core1.init scratch bridge) acts →
        t.host = serialStream (s.data.pushed.map Message.received)) := by
  have hstart : ∀ {R : Bytes → Bytes → Prop} {read : List Bytes}, Inv R bridge read s →
      Inv R bridge read s ∧ Going s.data.pushed s := by
    refine fun hi => ⟨hi, rfl, hquiet, fun hstop => ?_⟩
    obtain ⟨got, hgot, hr⟩ := hi.running.mp hstop
    obtain ⟨m, hm, rfl⟩ := List.mem_map.mp ((inv_popped_first hi.data).subset hgot)
    exact hreboot m hm hr
  -- one run for both invariants: the weaker one alone where the port was once unmounted
  have hrun : ∀ (R : Bytes → Bytes → Prop), (∀ x, R x x) → Inv R bridge (reads acts) s →
      ∃ more t, (∀ a ∈ more, Own a) ∧ exec bridgeStep s more = some t ∧
        Inv R bridge (reads acts) t ∧ t.data.popped = s.data.pushed.map Message.received ∧
        t.bridge = applied s.data.pushed bridge ∧ t.pc.pending = [] := by
    intro R hrefl hi
    obtain ⟨more, t, hown, ht, ⟨hti, htg⟩, hall, hnone⟩ := exec_until_next bridgeStep nextAct
      (fun u => Inv R bridge (reads acts) u ∧ Going s.data.pushed u) Done Core1.left
      (fun u hu hdone => next_going hrefl hreboot u hu hdone) s (hstart hi)
    refine ⟨more, t, ?_, ht, hti, ?_, ?_, hnone⟩
    · intro a ha
      obtain ⟨u, -, rfl⟩ := hown a ha
      exact next_own u
    · rw [inv_all_popped hti.data hall, htg.pushed]
    · rw [hti.tables, List.take_of_length_le (by omega), htg.pushed]
  by_cases hmounted : Along bridgeStep Mounted (Core1.init scratch bridge) acts
  · have hi := inv_run_init (R := (· = ·)) (fun _ => rfl) scratch bridge acts s
      (bears_eq acts _ hmounted) he
    obtain ⟨more, t, hown, ht, hti, hpopped, htables, hnone⟩ := hrun _ (fun _ => rfl) hi
    refine ⟨more, t, hown, ht, hpopped, htables, fun _ => ?_⟩
    have hbytes := pieces_eq hti.pieces
    rwa [hnone, List.append_nil, hpopped] at hbytes
  · have hi := inv_run_init List.prefix_refl scratch bridge acts s (bears_front acts _) he
    obtain ⟨more, t, hown, ht, -, hpopped, htables, -⟩ := hrun _ List.prefix_refl hi
    exact ⟨more, t, hown, ht, hpopped, htables, fun h => (hmounted h).elim⟩

def halfWay : List BridgeAct := bothWays.take 9++[.write true 1 1]

theorem half_way_delivers : ∃ s, exec bridgeStep (Core1.init [] noMessages) halfWay = some s ∧
    ∃ more t, (∀ a ∈ more, Own a) ∧ exec bridgeStep s more = some t ∧ t.host = [7, 8, 9] := by
  have hrun : (exec bridgeStep (Core1.init [] noMessages) halfWay).map
      (fun t => (t.data.pushed, t.pc.pending)) = some ([serialOfThree], [8, 9]) := by
    decide +kernel
  obtain ⟨s, hs, hfields⟩ := Option.map_eq_some_iff.mp hrun
  obtain ⟨hpushed, hpending⟩ := Prod.mk.inj hfields
  have hreboot : ∀ m ∈ s.data.pushed, m.msgId ≠ ipcMsgRebootNotify := by
    rw [hpushed]
    decide
  have hquiet : ∀ n, s.pc ≠ .forwarding n := by
    intro n hn
    rw [hn] at hpending
    cases hpending
  obtain ⟨more, t, hown, ht, -, -, hhost⟩ :=
    bridge_delivers [] noMessages halfWay s hs hreboot hquiet
  refine ⟨s, hs, more, t, hown, ht, ?_⟩
  rw [hhost (by simp [halfWay, bothWays, Along, Mounted]), hpushed]
  rfl

end MokyaLora.BridgeTask
