import MokyaLora.KeyInjectRtt

/-!
# Frames sent over RTT are handed on in order

The offsets are residues of the numbers of bytes published and read, the cells between
them show the bytes on their way, and a frame is written to free cells only. What the
parser has been fed is a front of what was sent.
-/

set_option autoImplicit false

namespace MokyaLora.KeyInjectRtt
open Lib.Fields Lib.Memory Lib.Schedule Lib.Window MokyaLora.Keypad MokyaLora.KeyInjectFrame
open MokyaLora.KeyInject (Event memoryWrite8 keyInjectModeSwd keyInjectModeRtt keyInjectEventSize)
open MokyaLora.Ime (Keycode mokyaKeyMode)

theorem host_crc_bit : ∀ crc : UInt8, hostCrcBit crc.toNat = (crcBit crc).toNat :=
  byte_forall (by decide +kernel)

theorem host_crc_bits (n : ℕ) (crc : UInt8) :
    hostCrcBit^[n] crc.toNat = (crcBit^[n] crc).toNat := by
  induction n generalizing crc with
  | zero => rfl
  | succ n ih => rw [Function.iterate_succ_apply, Function.iterate_succ_apply, host_crc_bit, ih]

theorem host_crc_from (data : Bytes) (crc : UInt8) :
    data.foldl (fun crc b => hostCrcBit^[8] (crc ^^^ b.toNat)) crc.toNat =
      (data.foldl crcByte crc).toNat := by
  induction data generalizing crc with
  | nil => rfl
  | cons b data ih =>
    rw [List.foldl_cons, List.foldl_cons, ← UInt8.toNat_xor, host_crc_bits, ← ih]
    rfl

theorem host_crc8 (data : Bytes) : UInt8.ofNat (hostCrc8 data) = crc8 data := by
  have hcrc := host_crc_from data 0
  rw [UInt8.toNat_zero] at hcrc
  rw [hostCrc8, hcrc, UInt8.ofNat_toNat]
  rfl

theorem build_frame (f : Frame) :
    buildFrame f = if f.Fits then some f.encode else none := by
  by_cases h : f.Fits
  · have hle : ¬ maxPayload < f.payload.length := not_lt.mpr h
    simp only [buildFrame, if_neg hle, if_pos h, host_crc8]
    rfl
  · have hlt : maxPayload < f.payload.length := not_le.mp h
    rw [buildFrame, if_pos hlt, if_neg h]

theorem encode_length (f : Frame) (h : f.Fits) : f.encode.length ≤ 21 := by
  simp only [Frame.Fits, maxPayload] at h
  simp [Frame.encode]
  omega

theorem mem_memory_write8 (addr : ℕ) (data : Bytes) (w : ℕ × UInt8) :
    w ∈ memoryWrite8 addr data ↔ ∃ k, ∃ h : k < data.length, w = (addr+k, data[k]) := by
  induction data generalizing addr with
  | nil => simp [memoryWrite8]
  | cons b data ih =>
    simp only [memoryWrite8, List.mem_cons, ih]
    constructor
    · rintro (rfl | ⟨k, hk, rfl⟩)
      · exact ⟨0, by simp, rfl⟩
      · exact ⟨k+1, by simpa using hk, by simp; omega⟩
    · rintro ⟨k, hk, rfl⟩
      cases k with
      | zero => exact .inl rfl
      | succ k => exact .inr ⟨k, by simpa using hk, by simp; omega⟩

theorem mem_frame_writes (wr : ℕ) (frame : Bytes) (hwr : wr < 256) (hlen : frame.length ≤ 256)
    (w : ℕ × UInt8) :
    w ∈ frameWrites wr frame ↔ ∃ k, ∃ h : k < frame.length, w = ((wr+k) % 256, frame[k]) := by
  rw [frameWrites, mokyaRttKeyinjBufBytes]
  by_cases hfit : wr+frame.length ≤ 256
  · rw [if_pos hfit, mem_memory_write8]
    constructor <;> rintro ⟨k, hk, rfl⟩ <;> exact ⟨k, hk, by rw [Nat.mod_eq_of_lt (by omega)]⟩
  · rw [if_neg hfit, List.mem_append, mem_memory_write8, mem_memory_write8]
    constructor
    · rintro (⟨k, hk, rfl⟩ | ⟨k, hk, rfl⟩)
      · rw [List.length_take] at hk
        exact ⟨k, by omega, by rw [Nat.mod_eq_of_lt (by omega), List.getElem_take]⟩
      · rw [List.length_drop] at hk
        refine ⟨256-wr+k, by omega, ?_⟩
        rw [show wr+(256-wr+k) = 0+k+256 by omega, Nat.add_mod_right, Nat.mod_eq_of_lt (by omega),
          List.getElem_drop]
    · rintro ⟨k, hk, rfl⟩
      by_cases hk' : k < 256-wr
      · refine .inl ⟨k, by rw [List.length_take]; omega, ?_⟩
        rw [Nat.mod_eq_of_lt (by omega), List.getElem_take]
      · refine .inr ⟨k-(256-wr), by rw [List.length_drop]; omega, ?_⟩
        rw [show wr+k = 0+(k-(256-wr))+256 by omega, Nat.add_mod_right,
          Nat.mod_eq_of_lt (by omega), List.getElem_drop]
        simp only [Nat.add_sub_cancel' (show 256-wr ≤ k by omega)]

theorem on_frame_eq (s : System) (f : Frame) : ∃ keys rejected, s.onFrame f = { s with
    keys := keys
    stats := { s.stats with framesOk := s.stats.framesOk+1, rejected := rejected }
    handed := s.handed++[f]
    calls := s.calls++callsOf f } := by
  by_cases hkey : f.type = typeKeyEvent
  · by_cases hlen : f.payload.length = 2
    · by_cases hv : (⟨f.payload.getD 0 0, f.payload.getD 1 0⟩ : Event).Valid
      · simp only [System.onFrame, callsOf, hkey, hlen, hv, if_true, ne_eq, not_true_eq_false,
          if_false, Event.call]
        split <;> exact ⟨_, _, rfl⟩
      · simp only [System.onFrame, callsOf, hkey, hlen, hv, if_true, ne_eq, not_true_eq_false,
          if_false, Event.call, Option.toList_none, List.append_nil]
        exact ⟨_, _, rfl⟩
    · simp only [System.onFrame, callsOf, hkey, hlen, if_true, ne_eq, not_false_eq_true, if_false,
        List.append_nil]
      exact ⟨_, _, rfl⟩
  · by_cases hsave : f.type = typeForceSave
    · simp only [System.onFrame, callsOf, hkey, if_false, if_pos hsave]
      exact ⟨_, _, by simp only [System.inject, List.append_assoc]; rfl⟩
    · simp only [System.onFrame, callsOf, if_neg hkey, if_neg hsave, List.append_nil]
      split <;> exact ⟨_, _, rfl⟩

structure Forwarded (s t : System) (fs : List Frame) : Prop where
  down : t.down = s.down
  mode : t.mode = s.mode
  task : t.task = s.task
  parser : t.parser = s.parser
  host : t.host = s.host
  sent : t.sent = s.sent
  got : t.got = s.got
  handed : t.handed = s.handed++fs
  calls : t.calls = s.calls++fs.flatMap callsOf
  framesOk : t.stats.framesOk = s.stats.framesOk+UInt32.ofNat fs.length

theorem forwarded_nil (s : System) : Forwarded s s [] :=
  ⟨rfl, rfl, rfl, rfl, rfl, rfl, rfl, by simp, by simp, by simp⟩

theorem forwarded_cons (s t : System) (f : Frame) (fs : List Frame)
    (h : Forwarded (s.onFrame f) t fs) : Forwarded s t (f::fs) := by
  obtain ⟨keys, rejected, heq⟩ := on_frame_eq s f
  rw [heq] at h
  exact ⟨h.down, h.mode, h.task, h.parser, h.host, h.sent, h.got,
    by simpa using h.handed, by simpa using h.calls,
    by rw [h.framesOk, List.length_cons, UInt32.add_assoc, UInt32.ofNat_add]; exact
      congrArg (s.stats.framesOk+·) (UInt32.add_comm _ _)⟩

theorem forwarded_all (s : System) (fs : List Frame) :
    Forwarded s (fs.foldl System.onFrame s) fs := by
  induction fs generalizing s with
  | nil => exact forwarded_nil s
  | cons f fs ih => exact forwarded_cons s _ f fs (ih (s.onFrame f))

def wireOf (fs : List Frame) : Bytes := fs.flatMap Frame.encode

theorem wire_of_append (fs : List Frame) (f : Frame) : wireOf (fs++[f]) = wireOf fs++f.encode := by
  simp [wireOf]

def TaskPc.rest : TaskPc → Bytes
  | .parse rest => rest
  | _ => []

/-- What the host knows, from the numbers `u` of published and `v` of read bytes. -/
def HostInv (u v : ℕ) (cells : ℕ → UInt8) : HostPc → Prop
  | .idle => True
  | .waiting f frame => f.Fits ∧ frame = f.encode
  | .wrRead f frame wr => f.Fits ∧ frame = f.encode ∧ wr = u % 256
  | .rdRead f frame wr rd => f.Fits ∧ frame = f.encode ∧ wr = u % 256 ∧
      ∃ r ≤ v, rd = r % 256 ∧ u < r+256
  | .writing ops f wrEnd => f.Fits ∧ wrEnd % 256 = (u+f.encode.length) % 256 ∧
      u+f.encode.length < v+256 ∧
      ∃ done, done++ops = frameWrites (u % 256) f.encode ∧ ∀ w ∈ done, cells w.1 = w.2

structure Inv (p : Parser) (s : System) : Prop where
  fits : ∀ f ∈ s.sent, f.Fits
  wrOff : s.down.wrOff = (wireOf s.sent).length % 256
  rdOff : s.down.rdOff = s.got.length % 256
  got : s.got <+: wireOf s.sent
  room : (wireOf s.sent).length < s.got.length+256
  cells : Holds 256 s.down.cells (wireOf s.sent) s.got.length
  host : HostInv (wireOf s.sent).length s.got.length s.down.cells s.host
  parsed : ∃ done, s.got = done++s.task.rest ∧ push p.reset done = (s.parser, s.handed)
  calls : s.calls = s.handed.flatMap callsOf
  framesOk : s.stats.framesOk = UInt32.ofNat s.handed.length

theorem inv_start (cells : ℕ → UInt8) (p : Parser) (keys : KeyEvents) :
    Inv p (System.start cells p keys) where
  fits := by
    intro f hf
    cases hf
  wrOff := rfl
  rdOff := rfl
  got := List.prefix_rfl
  room := by show 0 < 0+256; decide
  cells := holds_nil _ _ _
  host := trivial
  parsed := ⟨[], rfl, rfl⟩
  calls := rfl
  framesOk := rfl

theorem inv_task_pc (p : Parser) (s : System) (pc : TaskPc) (stats : Stats) (hi : Inv p s)
    (hrest : pc.rest = s.task.rest) (hstats : stats.framesOk = s.stats.framesOk) :
    Inv p { s with task := pc, stats := stats } where
  fits := hi.fits
  wrOff := hi.wrOff
  rdOff := hi.rdOff
  got := hi.got
  room := hi.room
  cells := hi.cells
  host := hi.host
  parsed := by rw [hrest]; exact hi.parsed
  calls := hi.calls
  framesOk := hstats.trans hi.framesOk

theorem available_eq (p : Parser) (s : System) (hi : Inv p s) :
    s.down.available = (wireOf s.sent).length-s.got.length := by
  have hle := hi.got.length_le
  have hroom := hi.room
  rw [DownBuffer.available, hi.wrOff, hi.rdOff, mokyaRttKeyinjBufBytes]
  omega

theorem oldest_eq (p : Parser) (s : System) (hi : Inv p s) (k : ℕ) (hk : k ≤ s.down.available) :
    s.got++s.down.oldest k <+: wireOf s.sent ∧ (s.down.oldest k).length = k := by
  have hlen : (s.down.oldest k).length = k := by simp [DownBuffer.oldest]
  rw [available_eq p s hi] at hk
  have hle := hi.got.length_le
  refine ⟨?_, hlen⟩
  rw [List.prefix_iff_eq_take, List.length_append, hlen]
  apply List.ext_getElem
  · rw [List.length_append, List.length_take, hlen]
    omega
  · intro i hi₁ hi₂
    rw [List.getElem_take]
    by_cases hold : i < s.got.length
    · rw [List.getElem_append_left hold]
      exact hi.got.getElem hold
    · rw [List.length_append, hlen] at hi₁
      rw [List.getElem_append_right (by omega)]
      simp only [DownBuffer.oldest, List.getElem_map, List.getElem_range, hi.rdOff,
        mokyaRttKeyinjBufBytes, Nat.mod_add_mod]
      rw [Nat.add_sub_cancel' (by omega)]
      exact hi.cells i (by omega) (by omega)

theorem inv_read (p : Parser) (s : System) (k : ℕ) (hi : Inv p s) (hp : s.task = .read)
    (hk : k ≤ s.down.available) : Inv p (s.readBytes k) := by
  by_cases hzero : k = 0
  · rw [System.readBytes, if_pos hzero]
    exact inv_task_pc p s .top s.stats hi (by rw [hp]; rfl) rfl
  · obtain ⟨hfront, hlen⟩ := oldest_eq p s hi k hk
    have hmore : s.got.length ≤ (s.got++s.down.oldest k).length := by simp
    rw [System.readBytes, if_neg hzero]
    exact {
      fits := hi.fits
      wrOff := hi.wrOff
      rdOff := by
        show (s.down.rdOff+k) % 256 = _
        rw [hi.rdOff, List.length_append, hlen, Nat.mod_add_mod]
      got := hfront
      room := lt_of_lt_of_le hi.room (Nat.add_le_add_right hmore 256)
      cells := hi.cells.later hmore
      host := by
        have hhost := hi.host
        show HostInv _ (s.got++s.down.oldest k).length s.down.cells s.host
        cases hh : s.host with
        | idle => trivial
        | waiting f frame => rw [hh] at hhost; exact hhost
        | wrRead f frame wr => rw [hh] at hhost; exact hhost
        | rdRead f frame wr rd =>
          rw [hh] at hhost
          obtain ⟨hf, hframe, hwr, r, hr, hrd, hu⟩ := hhost
          exact ⟨hf, hframe, hwr, r, le_trans hr hmore, hrd, hu⟩
        | writing ops f wrEnd =>
          rw [hh] at hhost
          obtain ⟨hf, hend, hu, hdone⟩ := hhost
          exact ⟨hf, hend, lt_of_lt_of_le hu (Nat.add_le_add_right hmore 256), hdone⟩
      parsed := by
        obtain ⟨done, hgot, hpush⟩ := hi.parsed
        rw [hp] at hgot
        exact ⟨done, by rw [hgot]; simp [TaskPc.rest], hpush⟩
      calls := hi.calls
      framesOk := hi.framesOk }

theorem inv_parse (p : Parser) (s : System) (b : UInt8) (rest : Bytes) (hi : Inv p s)
    (hp : s.task = .parse (b::rest)) : Inv p s.taskStep := by
  have hstep : s.taskStep = (pushByte s.parser b).2.foldl System.onFrame
      { s with parser := (pushByte s.parser b).1, task := .parse rest } := by
    simp [System.taskStep, hp]
  have hf := forwarded_all { s with parser := (pushByte s.parser b).1, task := .parse rest }
    (pushByte s.parser b).2
  rw [← hstep] at hf
  exact {
    fits := by rw [hf.sent]; exact hi.fits
    wrOff := by rw [hf.sent, hf.down]; exact hi.wrOff
    rdOff := by rw [hf.got, hf.down]; exact hi.rdOff
    got := by rw [hf.got, hf.sent]; exact hi.got
    room := by rw [hf.got, hf.sent]; exact hi.room
    cells := by rw [hf.got, hf.sent, hf.down]; exact hi.cells
    host := by rw [hf.got, hf.sent, hf.down, hf.host]; exact hi.host
    parsed := by
      obtain ⟨done, hgot, hpush⟩ := hi.parsed
      rw [hp] at hgot
      rw [hf.got, hf.task, hf.parser, hf.handed]
      refine ⟨done++[b], by simpa [TaskPc.rest] using hgot, ?_⟩
      rw [push_append, hpush]
      simp [push_cons]
    calls := by
      rw [hf.calls, hf.handed, List.flatMap_append]
      exact congrArg (·++_) hi.calls
    framesOk := by
      rw [hf.framesOk, hf.handed, List.length_append, UInt32.ofNat_add]
      exact congrArg (·+_) hi.framesOk }

theorem inv_task (p : Parser) (s : System) (hi : Inv p s) : Inv p s.taskStep := by
  cases hp : s.task with
  | top =>
    simp only [System.taskStep, hp]
    split
    · exact hi
    · exact inv_task_pc p s _ _ hi (by rw [hp]; rfl) rfl
  | poll =>
    simp only [System.taskStep, hp]
    split <;> exact inv_task_pc p s _ s.stats hi (by rw [hp]; rfl) rfl
  | read =>
    simp only [System.taskStep, hp]
    exact inv_read p s _ hi hp (Nat.min_le_right _ _)
  | parse rest =>
    cases rest with
    | nil =>
      simp only [System.taskStep, hp]
      exact inv_task_pc p s _ s.stats hi (by rw [hp]; rfl) rfl
    | cons b rest => exact inv_parse p s b rest hi hp

theorem inv_host_pc (p : Parser) (s : System) (pc : HostPc) (hi : Inv p s)
    (hhost : HostInv (wireOf s.sent).length s.got.length s.down.cells pc) :
    Inv p { s with host := pc } :=
  { hi with host := hhost }

/-- The free space counts the cells that are neither published nor read when the read
offset was loaded, less one. -/
theorem free_eq (u r : ℕ) (hr : r ≤ u) (hu : u < r+256) :
    free (u % 256) (r % 256) = 255-((u : ℤ)-r) := by
  simp only [free, mokyaRttKeyinjBufBytes]
  omega

theorem inv_begin (p : Parser) (s : System) (f : Frame) (frame : Bytes) (wr rd : ℕ)
    (hi : Inv p s) (hp : s.host = .rdRead f frame wr rd)
    (hfree : (frame.length : ℤ) ≤ free wr rd) :
    Inv p { s with host := .writing (frameWrites wr frame) f (wr+frame.length) } := by
  have hk := hi.host
  have hle := hi.got.length_le
  rw [hp] at hk
  obtain ⟨hf, rfl, rfl, r, hr, rfl, hu⟩ := hk
  rw [free_eq _ _ (le_trans hr hle) hu] at hfree
  refine inv_host_pc p s _ hi ⟨hf, ?_, by omega, [], rfl, ?_⟩
  · rw [Nat.mod_add_mod]
  · intro w hw
    cases hw

theorem inv_store (p : Parser) (s : System) (off : ℕ) (byte : UInt8) (ops : List (ℕ × UInt8))
    (f : Frame) (wrEnd : ℕ) (hi : Inv p s) (hp : s.host = .writing ((off, byte)::ops) f wrEnd) :
    Inv p { s with
      down := { s.down with cells := Function.update s.down.cells off byte }
      host := .writing ops f wrEnd } := by
  have hk := hi.host
  have hle := hi.got.length_le
  rw [hp] at hk
  obtain ⟨hf, hend, hroom, done, hops, hdone⟩ := hk
  have hlen := encode_length f hf
  have hmem := mem_frame_writes ((wireOf s.sent).length % 256) f.encode (by omega) (by omega)
  have hin : ∀ w ∈ done++(off, byte)::ops, ∃ k, ∃ h : k < f.encode.length,
      w = (((wireOf s.sent).length+k) % 256, f.encode[k]) := by
    intro w hw
    obtain ⟨k, hk, heq⟩ := (hmem w).mp (hops ▸ hw)
    exact ⟨k, hk, by rw [heq, Nat.mod_add_mod]⟩
  obtain ⟨k, hk, hw⟩ := hin (off, byte) (by simp)
  obtain ⟨hoff, hbyte⟩ := Prod.mk.inj hw
  exact { hi with
    cells := by
      refine hi.cells.frame (fun i hlo hlt => Function.update_of_ne ?_ _ _)
      rw [hoff]
      exact (cell_free i k _ hlo hlt (by omega)).symm
    host := by
      refine ⟨hf, hend, hroom, done++[(off, byte)], by simpa using hops, ?_⟩
      intro w hw
      rcases List.mem_append.mp hw with hw | hw
      · obtain ⟨j, hj, hwj⟩ := hin w (by simp [hw])
        by_cases hsame : w.1 = off
        · -- The same cell is the same byte of the frame.
          have hjk : j = k := by
            rw [hwj, hoff] at hsame
            simp only at hsame
            omega
          subst hjk
          show Function.update s.down.cells off byte w.1 = w.2
          rw [hsame, Function.update_self, hbyte, hwj]
        · show Function.update s.down.cells off byte w.1 = w.2
          rw [Function.update_of_ne hsame]
          exact hdone w hw
      · rw [List.mem_singleton.mp hw]
        exact Function.update_self _ _ _ }

theorem inv_publish (p : Parser) (s : System) (f : Frame) (wrEnd : ℕ) (hi : Inv p s)
    (hp : s.host = .writing [] f wrEnd) :
    Inv p { s with
      down := { s.down with wrOff := wrEnd % mokyaRttKeyinjBufBytes }
      host := .idle
      sent := s.sent++[f] } := by
  have hk := hi.host
  rw [hp] at hk
  obtain ⟨hf, hend, hroom, done, hops, hdone⟩ := hk
  have hlen := encode_length f hf
  rw [List.append_nil] at hops
  have hmem := mem_frame_writes ((wireOf s.sent).length % 256) f.encode (by omega) (by omega)
  have hwritten : ∀ k (hk : k < f.encode.length),
      s.down.cells (((wireOf s.sent).length+k) % 256) = f.encode[k] := by
    intro k hk
    have hw := hdone _ (hops ▸ (hmem _).mpr ⟨k, hk, rfl⟩)
    rwa [Nat.mod_add_mod] at hw
  exact { hi with
    fits := by
      intro g hg
      rcases List.mem_append.mp hg with hg | hg
      · exact hi.fits g hg
      · rw [List.mem_singleton.mp hg]
        exact hf
    wrOff := by rw [wire_of_append, List.length_append]; exact hend
    got := by rw [wire_of_append]; exact hi.got.trans (List.prefix_append _ _)
    room := by rw [wire_of_append, List.length_append]; exact hroom
    cells := by rw [wire_of_append]; exact hi.cells.publish hwritten
    host := trivial }

theorem inv_host (p : Parser) (s t : System) (hi : Inv p s) (hs : s.hostStep = some t) :
    Inv p t := by
  have hk := hi.host
  have hle := hi.got.length_le
  cases hp : s.host with
  | idle => simp [System.hostStep, hp] at hs
  | waiting f frame =>
    rw [hp] at hk
    simp only [System.hostStep, hp, Option.some.injEq] at hs
    rw [← hs]
    exact inv_host_pc p s _ hi ⟨hk.1, hk.2, hi.wrOff⟩
  | wrRead f frame wr =>
    rw [hp] at hk
    simp only [System.hostStep, hp, Option.some.injEq] at hs
    rw [← hs]
    exact inv_host_pc p s _ hi ⟨hk.1, hk.2.1, hk.2.2, _, le_refl _, hi.rdOff, hi.room⟩
  | rdRead f frame wr rd =>
    by_cases hfree : (frame.length : ℤ) ≤ free wr rd
    · simp only [System.hostStep, hp, if_pos hfree, Option.some.injEq] at hs
      rw [← hs]
      exact inv_begin p s f frame wr rd hi hp hfree
    · rw [hp] at hk
      simp only [System.hostStep, hp, if_neg hfree, Option.some.injEq] at hs
      rw [← hs]
      exact inv_host_pc p s _ hi ⟨hk.1, hk.2.1⟩
  | writing ops f wrEnd =>
    cases ops with
    | nil =>
      simp only [System.hostStep, hp, Option.some.injEq] at hs
      rw [← hs]
      exact inv_publish p s f wrEnd hi hp
    | cons op ops =>
      simp only [System.hostStep, hp, Option.some.injEq] at hs
      rw [← hs]
      exact inv_store p s op.1 op.2 ops f wrEnd hi hp

theorem inv_step (p : Parser) (s t : System) (a : Act) (hi : Inv p s) (hs : step s a = some t) :
    Inv p t := by
  cases a with
  | task =>
    simp only [step, Option.some.injEq] at hs
    exact hs ▸ inv_task p s hi
  | shortRead k =>
    simp only [step] at hs
    split at hs
    · rename_i hread
      split at hs
      · rename_i hk
        rw [← Option.some.inj hs]
        exact inv_read p s k hi hread (le_trans hk (Nat.min_le_right _ _))
      · cases hs
    · cases hs
  | host => exact inv_host p s t hi hs
  | sendFrame f =>
    simp only [step, build_frame] at hs
    split at hs
    · by_cases hf : f.Fits
      · simp only [if_pos hf, Option.some.injEq] at hs
        rw [← hs]
        exact inv_host_pc p s _ hi ⟨hf, rfl⟩
      · simp only [if_neg hf, Option.some.injEq] at hs
        exact hs ▸ hi
    · cases hs
  | timeout =>
    simp only [step] at hs
    split at hs
    · split at hs
      · cases hs
      · rw [← Option.some.inj hs]
        exact inv_host_pc p s _ hi trivial
    · cases hs
  | setKeyInjectMode mode =>
    simp only [step, Option.some.injEq] at hs
    rw [← hs]
    exact { hi with }
  | others keys =>
    simp only [step, Option.some.injEq] at hs
    rw [← hs]
    exact { hi with }

theorem inv_exec (cells : ℕ → UInt8) (p : Parser) (keys : KeyEvents) (acts : List Act)
    (t : System) (he : exec step (System.start cells p keys) acts = some t) : Inv p t :=
  exec_invariant step (fun _ _ => True) (Inv p) (fun s a u hi _ hs => inv_step p s u a hi hs)
    acts _ t (inv_start cells p keys) (along_of_forall step _ (fun _ _ => trivial) acts _) he

theorem push_sent (p : Parser) (fs : List Frame) (h : ∀ f ∈ fs, f.Fits) :
    (push p.reset (wireOf fs)).2 = fs := by
  have hwire : wire (fs.map (fun f => ([], f))) = wireOf fs := by
    simp [wire, wireOf, List.flatMap_map]
  have hpush := (push_wire p.reset (fs.map (fun f => ([], f))) rfl (by
    intro x hx
    obtain ⟨f, hf, rfl⟩ := List.mem_map.mp hx
    exact ⟨by simp [NoPair], h f hf⟩)).2
  rw [hwire] at hpush
  simpa [List.map_map, Function.comp_def] using hpush

theorem handed_front (p : Parser) (s : System) (hi : Inv p s) : s.handed <+: s.sent := by
  obtain ⟨done, hgot, hpush⟩ := hi.parsed
  obtain ⟨later, hlater⟩ := (hgot ▸ hi.got : done++s.task.rest <+: wireOf s.sent)
  have hall := push_sent p s.sent hi.fits
  rw [← hlater, List.append_assoc, push_append, hpush] at hall
  exact ⟨_, hall⟩

def System.left (s : System) : ℕ :=
  5*((wireOf s.sent).length-s.got.length)+
    match s.task with
    | .top => 3
    | .poll => 2
    | .read => 1
    | .parse rest => rest.length+4

def Drained (s : System) : Prop := s.got.length = (wireOf s.sent).length ∧ s.task.rest = []

theorem task_left (p : Parser) (s : System) (hi : Inv p s) (hmode : s.mode = keyInjectModeRtt)
    (hg : ¬ Drained s) : s.taskStep.left < s.left := by
  have hle := hi.got.length_le
  have hroom := hi.room
  have havail := available_eq p s hi
  cases hp : s.task with
  | top => simp [System.left, System.taskStep, hp, hmode]
  | poll =>
    have hlt : s.got.length < (wireOf s.sent).length := by
      by_contra hnot
      exact hg ⟨by omega, by rw [hp]; rfl⟩
    have hne : s.down.wrOff ≠ s.down.rdOff := by
      rw [hi.wrOff, hi.rdOff]
      omega
    simp [System.left, System.taskStep, hp, hne]
  | read =>
    have hlt : s.got.length < (wireOf s.sent).length := by
      by_contra hnot
      exact hg ⟨by omega, by rw [hp]; rfl⟩
    have hlen : ∀ k, (s.down.oldest k).length = k := by simp [DownBuffer.oldest]
    have hpos : min scratchSize s.down.available ≠ 0 := by
      rw [havail, scratchSize]
      omega
    have hmin : min scratchSize s.down.available ≤ s.down.available := Nat.min_le_right _ _
    simp only [System.left, System.taskStep, System.readBytes, hp, if_neg hpos, List.length_append,
      hlen]
    omega
  | parse rest =>
    cases rest with
    | nil => simp [System.left, System.taskStep, hp]
    | cons b rest =>
      have hf := forwarded_all { s with parser := (pushByte s.parser b).1, task := .parse rest }
        (pushByte s.parser b).2
      have hstep : s.taskStep = (pushByte s.parser b).2.foldl System.onFrame
          { s with parser := (pushByte s.parser b).1, task := .parse rest } := by
        simp [System.taskStep, hp]
      rw [← hstep] at hf
      simp only [System.left, hf.sent, hf.got, hf.task, hp, List.length_cons]
      omega

theorem task_frame (s : System) : s.taskStep.sent = s.sent ∧ s.taskStep.mode = s.mode := by
  cases hp : s.task with
  | top => simp only [System.taskStep, hp]; split <;> exact ⟨rfl, rfl⟩
  | poll => simp only [System.taskStep, hp]; split <;> exact ⟨rfl, rfl⟩
  | read =>
    simp only [System.taskStep, hp, System.readBytes]
    split <;> exact ⟨rfl, rfl⟩
  | parse rest =>
    cases rest with
    | nil => simp only [System.taskStep, hp]; exact ⟨trivial, trivial⟩
    | cons b rest =>
      have hf := forwarded_all { s with parser := (pushByte s.parser b).1, task := .parse rest }
        (pushByte s.parser b).2
      simp only [System.taskStep, hp]
      exact ⟨hf.sent, hf.mode⟩

theorem task_drains (p : Parser) (s : System) (hi : Inv p s)
    (hmode : s.mode = keyInjectModeRtt) :
    ∃ k u, exec step s (List.replicate k .task) = some u ∧
      u.handed = s.sent ∧ u.calls = s.sent.flatMap callsOf := by
  obtain ⟨k, u, hu, ⟨hui, hsent, -⟩, hgot, hrest⟩ := exec_until step .task
    (fun u => Inv p u ∧ u.sent = s.sent ∧ u.mode = keyInjectModeRtt) Drained System.left
    (fun u hs hg => ⟨u.taskStep, rfl, ⟨inv_task p u hs.1, (task_frame u).1.trans hs.2.1,
      (task_frame u).2.trans hs.2.2⟩, task_left p u hs.1 hs.2.2 hg⟩) s ⟨hi, rfl, hmode⟩
  have hhanded : u.handed = s.sent := by
    obtain ⟨done, hdone, hpush⟩ := hui.parsed
    rw [hrest, List.append_nil] at hdone
    have hall := push_sent p u.sent hui.fits
    rw [← hui.got.eq_of_length hgot, hdone, hpush] at hall
    rw [← hsent]
    exact hall
  exact ⟨k, u, hu, hhanded, by rw [hui.calls, hhanded]⟩

/-- The frames that can be built of those that `rtt_send_frame` is called with. -/
def Act.requested : Act → List Frame
  | .sendFrame f => if f.Fits then [f] else []
  | _ => []

def HostPc.unsent : HostPc → List Frame
  | .idle => []
  | .waiting f _ => [f]
  | .wrRead f _ _ => [f]
  | .rdRead f _ _ _ => [f]
  | .writing _ f _ => [f]

theorem task_host (s : System) : s.taskStep.host = s.host := by
  cases hp : s.task with
  | top => simp only [System.taskStep, hp]; split <;> rfl
  | poll => simp only [System.taskStep, hp]; split <;> rfl
  | read => simp only [System.taskStep, hp, System.readBytes]; split <;> rfl
  | parse rest =>
    cases rest with
    | nil => simp only [System.taskStep, hp]
    | cons b rest =>
      simp only [System.taskStep, hp]
      exact (forwarded_all { s with parser := (pushByte s.parser b).1, task := .parse rest }
        (pushByte s.parser b).2).host

theorem host_unsent (s t : System) (hs : s.hostStep = some t) :
    t.sent++t.host.unsent = s.sent++s.host.unsent := by
  cases hp : s.host with
  | idle => simp [System.hostStep, hp] at hs
  | waiting f frame =>
    simp only [System.hostStep, hp, Option.some.injEq] at hs
    rw [← hs]
    rfl
  | wrRead f frame wr =>
    simp only [System.hostStep, hp, Option.some.injEq] at hs
    rw [← hs]
    rfl
  | rdRead f frame wr rd =>
    simp only [System.hostStep, hp] at hs
    split at hs <;> cases hs <;> rfl
  | writing ops f wrEnd =>
    cases ops with
    | nil =>
      simp only [System.hostStep, hp, Option.some.injEq] at hs
      rw [← hs]
      exact List.append_nil _
    | cons w ops =>
      simp only [System.hostStep, hp, Option.some.injEq] at hs
      rw [← hs]
      rfl

theorem send_unsent (s t : System) (f : Frame) (hs : step s (.sendFrame f) = some t) :
    t.sent++t.host.unsent = s.sent++s.host.unsent++(Act.sendFrame f).requested := by
  simp only [step] at hs
  split at hs
  · rename_i hidle
    rw [build_frame] at hs
    rw [Act.requested]
    by_cases hf : f.Fits
    · rw [if_pos hf] at hs ⊢
      rw [← Option.some.inj hs, hidle]
      exact congrArg (·++_) (List.append_nil _).symm
    · rw [if_neg hf] at hs ⊢
      rw [← Option.some.inj hs]
      exact (List.append_nil _).symm
  · cases hs

theorem timeout_unsent (s t : System) (hs : step s .timeout = some t) :
    (t.sent++t.host.unsent).Sublist (s.sent++s.host.unsent) := by
  simp only [step] at hs
  split at hs
  · split at hs
    · cases hs
    · rw [← Option.some.inj hs]
      show (s.sent++[]).Sublist (s.sent++s.host.unsent)
      rw [List.append_nil]
      exact List.sublist_append_left _ _
  · cases hs

/-- Only a call that times out drops its frame. -/
theorem unsent_kept (s t : System) (a : Act) (hs : step s a = some t) (hno : a ≠ .timeout) :
    t.sent++t.host.unsent = s.sent++s.host.unsent++a.requested := by
  cases a with
  | task =>
    simp only [step, Option.some.injEq] at hs
    rw [← hs, (task_frame s).1, task_host]
    exact (List.append_nil _).symm
  | shortRead k =>
    simp only [step] at hs
    split at hs
    · split at hs
      · rw [← Option.some.inj hs, System.readBytes]
        split <;> exact (List.append_nil _).symm
      · cases hs
    · cases hs
  | host => exact (host_unsent s t hs).trans (List.append_nil _).symm
  | sendFrame f => exact send_unsent s t f hs
  | timeout => exact absurd rfl hno
  | setKeyInjectMode mode =>
    simp only [step, Option.some.injEq] at hs
    exact hs ▸ (List.append_nil _).symm
  | others keys =>
    simp only [step, Option.some.injEq] at hs
    exact hs ▸ (List.append_nil _).symm

theorem step_unsent (s t : System) (a : Act) (hs : step s a = some t) :
    (t.sent++t.host.unsent).Sublist (s.sent++s.host.unsent++a.requested) := by
  by_cases htime : a = .timeout
  · subst htime
    rw [show Act.timeout.requested = [] from rfl, List.append_nil]
    exact timeout_unsent s t hs
  · rw [unsent_kept s t a hs htime]

theorem exec_unsent (acts : List Act) (s t : System) (he : exec step s acts = some t) :
    (t.sent++t.host.unsent).Sublist (s.sent++s.host.unsent++acts.flatMap Act.requested) ∧
    (.timeout ∉ acts →
      t.sent++t.host.unsent = s.sent++s.host.unsent++acts.flatMap Act.requested) := by
  induction acts generalizing s with
  | nil =>
    simp only [exec, Option.some.injEq] at he
    rw [he, List.flatMap_nil, List.append_nil]
    exact ⟨List.Sublist.refl _, fun _ => rfl⟩
  | cons a acts ih =>
    obtain ⟨u, hu, ht⟩ := Option.bind_eq_some_iff.mp he
    obtain ⟨hsubs, heqs⟩ := ih u ht
    rw [List.flatMap_cons, ← List.append_assoc]
    refine ⟨hsubs.trans ((step_unsent s u a hu).append_right _), fun hno => ?_⟩
    rw [List.mem_cons, not_or] at hno
    rw [heqs hno.2, unsent_kept s u a hu (Ne.symm hno.1)]

/-- However host and task interleave and however much each read returns, the frames handed
to `on_frame` are the first of those sent, each one once and in order, and the keys it
injects are those of these frames; and in RTT mode the steps of the task alone bring it to
the last frame. Sent are the frames that `rtt_send_frame` is given, in their order, but those
whose time runs out. -/
theorem rtt_frames_in_order (cells : ℕ → UInt8) (p : Parser) (keys : KeyEvents)
    (acts : List Act) (t : System)
    (he : exec step (System.start cells p keys) acts = some t) :
    t.handed <+: t.sent ∧ t.calls = t.handed.flatMap callsOf ∧
    t.stats.framesOk = UInt32.ofNat t.handed.length ∧
    (t.mode = keyInjectModeRtt → ∃ k u, exec step t (List.replicate k .task) = some u ∧
      u.handed = t.sent ∧ u.calls = t.sent.flatMap callsOf) ∧
    (t.sent++t.host.unsent).Sublist (acts.flatMap Act.requested) ∧
    (.timeout ∉ acts → t.sent++t.host.unsent = acts.flatMap Act.requested) := by
  have hi := inv_exec cells p keys acts t he
  exact ⟨handed_front p t hi, hi.calls, hi.framesOk, task_drains p t hi, exec_unsent acts _ t he⟩

def idleRtt : System :=
  System.start (fun _ => 0xAA) ⟨.crc, 0, 0, 0, zeroed⟩ (KeyEvents.init true true)

def sendOne : List Act :=
  [.setKeyInjectMode keyInjectModeRtt, .sendFrame ⟨typeKeyEvent, [0x8A, 0x01]⟩]++
    List.replicate 11 .host++[.task, .task, .shortRead 3]

theorem send_one_in_order : ∃ t, exec step idleRtt sendOne = some t ∧
    t.sent = [⟨typeKeyEvent, [0x8A, 0x01]⟩] ∧ t.handed <+: t.sent ∧
    ∃ k u, exec step t (List.replicate k .task) = some u ∧ u.calls = [(0x0A, true, 0x01)] := by
  have hrun : (exec step idleRtt sendOne).map (fun t => (t.sent, t.mode)) =
      some ([⟨typeKeyEvent, [0x8A, 0x01]⟩], keyInjectModeRtt) := by decide +kernel
  obtain ⟨t, ht, hshow⟩ := Option.map_eq_some_iff.mp hrun
  obtain ⟨hsent, hmode⟩ := Prod.mk.inj hshow
  obtain ⟨hfront, -, -, hdrain, -⟩ := rtt_frames_in_order _ _ _ sendOne t ht
  obtain ⟨k, u, hu, -, hcalls⟩ := hdrain hmode
  exact ⟨t, ht, hsent, hfront, k, u, hu, by rw [hcalls, hsent]; decide +kernel⟩

end MokyaLora.KeyInjectRtt
