import Mathlib.Data.List.Nodup
import MokyaLora.Lib.Schedule
import MokyaLora.TeseoLiv3fl

/-!
# Published satellite tables

A table should hold, for each talker, the satellites of its last complete cycle. An
accumulator of the driver is that cycle only until the next one begins or a sentence
without a number is taken, and the tables of all talkers are published together.
-/

set_option autoImplicit false

namespace MokyaLora.TeseoLiv3fl
open Lib.Cycles Lib.Fields Lib.Schedule

def reads {α : Type} (read : ℕ → Option α) : ℕ → ℕ → List α
  | 0, _ => []
  | k+1, s =>
    match read s with
    | none => []
    | some x => x::reads read k (s+1)

def pieceOf {α : Type} (body : Bytes) (slots : ℕ) (read : ℕ → Option α) : Option (Piece α) :=
  (header body).map (fun h => ⟨h.1.toNat, h.2.toNat, reads read slots 0⟩)

abbrev Heard := UInt16 × Option (Piece SatInfo)

def gsvHeard (body : Bytes) : Heard := (talkerOf body, pieceOf body 4 (gsvSat body))

def talkersOf : List Heard → List UInt16
  | [] => []
  | e::seen => if e.1 ∈ talkersOf seen then talkersOf seen else talkersOf seen++[e.1]

def messagesOf (t : UInt16) (seen : List Heard) : List (Piece SatInfo) :=
  seen.filterMap (fun e => if e.1 = t then e.2 else none)

def satTable (seen : List Heard) : List SatInfo :=
  ((talkersOf seen).flatMap (fun t => itemsOf 16 (lastCycle (messagesOf t seen)))).take 32

structure Watched where
  teseo : Teseo
  gsvSeen : List Heard
  rfSeen : List (Piece RfSat)

def Watched.start : Watched := ⟨.init, [], []⟩

def Watched.sentence (w : Watched) (c : UInt8) : Option Sentence :=
  if c = 0x0A then sentenceOf w.teseo.line else none

def Watched.next (w : Watched) (c : UInt8) : Watched :=
  match w.sentence c with
  | none => { w with teseo := w.teseo.pollByte c }
  | some (.gsv body) => ⟨w.teseo.pollByte c, gsvHeard body::w.gsvSeen, w.rfSeen⟩
  | some (.pstmRf body) =>
    ⟨w.teseo.pollByte c, w.gsvSeen, (pieceOf body 3 (rfSat body)).toList++w.rfSeen⟩

def Watched.step (w : Watched) (c : UInt8) : Option Watched := some (w.next c)

structure TablesWhole (w : Watched) (c : UInt8) : Prop where
  gsv : (w.next c).teseo.satView.updateCount ≠ w.teseo.satView.updateCount →
    (w.next c).teseo.satView.sats = satTable (w.next c).gsvSeen
  rf : (w.next c).teseo.rfState.updateCount ≠ w.teseo.rfState.updateCount →
    (w.next c).teseo.rfState.sats = itemsOf 32 (lastCycle (w.next c).rfSeen)

instance (w : Watched) (c : UInt8) : Decidable (TablesWhole w c) :=
  decidable_of_iff (((w.next c).teseo.satView.updateCount ≠ w.teseo.satView.updateCount →
      (w.next c).teseo.satView.sats = satTable (w.next c).gsvSeen) ∧
    ((w.next c).teseo.rfState.updateCount ≠ w.teseo.rfState.updateCount →
      (w.next c).teseo.rfState.sats = itemsOf 32 (lastCycle (w.next c).rfSeen)))
    ⟨fun h => ⟨h.1, h.2⟩, fun h => ⟨h.gsv, h.rf⟩⟩

def Accum.Last {α : Type} (acc : Accum α) (p : Piece α) : Prop :=
  p.idx = p.total ∧ (p.idx = 1 ∨ p.idx = acc.nextIdx.toNat)

instance {α : Type} (acc : Accum α) (p : Piece α) : Decidable (acc.Last p) :=
  inferInstanceAs (Decidable (_ ∧ _))

def InByte (v : ℤ) : Prop := 0 ≤ v ∧ v < 256

instance (v : ℤ) : Decidable (InByte v) := inferInstanceAs (Decidable (_ ∧ _))

/-- No talker with a slot has begun a cycle and not ended it, and no other talker has
ended one. -/
def AllSettled (seen : List Heard) : Prop :=
  (∀ t ∈ (talkersOf seen).take 4, Settled (messagesOf t seen)) ∧
    ∀ t ∈ (talkersOf seen).drop 4, lastCycle (messagesOf t seen) = []

-- Over the list: a search for any instance would find the 65536 values of the type.
instance (seen : List Heard) : Decidable (AllSettled seen) :=
  @instDecidableAnd _ _ (List.decidableBAll _ _) (List.decidableBAll _ _)

def GsvWhole (w : Watched) (body : Bytes) : Prop :=
  (∀ h ∈ header body, InByte h.1 ∧ InByte h.2) ∧
    ∀ p ∈ pieceOf body 4 (gsvSat body), ∀ i ∈ gsvAccumFor w.teseo.gsv (talkerOf body),
      (accAt w.teseo.gsv i).Last p → AllSettled (gsvHeard body::w.gsvSeen)

instance (w : Watched) (body : Bytes) : Decidable (GsvWhole w body) :=
  inferInstanceAs (Decidable (_ ∧ _))

def RfWhole (w : Watched) (body : Bytes) : Prop :=
  (∀ h ∈ header body, InByte h.1 ∧ InByte h.2) ∧
    ∀ p ∈ pieceOf body 3 (rfSat body), w.teseo.rf.Last p → Settled (p::w.rfSeen)

instance (w : Watched) (body : Bytes) : Decidable (RfWhole w body) :=
  inferInstanceAs (Decidable (_ ∧ _))

/-- The numbers of a sentence fit in a byte, and one that the driver takes for the last
of a cycle does not come while a cycle is unfinished. -/
def SentenceWhole (w : Watched) (c : UInt8) : Prop :=
  match w.sentence c with
  | none => True
  | some (.gsv body) => GsvWhole w body
  | some (.pstmRf body) => RfWhole w body

instance (w : Watched) (c : UInt8) : Decidable (SentenceWhole w c) :=
  match h : w.sentence c with
  | none => isTrue (by simp [SentenceWhole, h])
  | some (.gsv body) => decidable_of_iff (GsvWhole w body) (by simp [SentenceWhole, h])
  | some (.pstmRf body) => decidable_of_iff (RfWhole w body) (by simp [SentenceWhole, h])

section Accumulator

variable {α : Type} {cap : ℕ} {ps : List (Piece α)}

structure Held (cap : ℕ) (ps : List (Piece α)) (acc : Accum α) : Prop where
  tracks : Tracks cap 256 ps acc.nextIdx.toNat acc.items
  room : acc.items.length ≤ cap

theorem held_empty : Held cap ([] : List (Piece α)) .empty :=
  ⟨tracks_nil (Nat.zero_le 1), Nat.zero_le cap⟩

theorem collect_eq (read : ℕ → Option α) (k s : ℕ) (items : List α) (h : items.length ≤ cap) :
    collect cap read k s items = (items++reads read k s).take cap := by
  induction k generalizing s items with
  | zero => rw [collect, reads, List.append_nil, List.take_of_length_le h]
  | succ k ih =>
    rw [collect, reads]
    by_cases hroom : items.length < cap
    · rw [if_pos hroom]
      cases read s with
      | none => rw [List.append_nil, List.take_of_length_le h]
      | some x =>
        dsimp only
        rw [ih (s+1) (items++[x]) (by simp; omega), List.append_assoc]
        rfl
    · rw [if_neg hroom, List.take_append_of_le_length (by omega), List.take_of_length_le h]

theorem collect_room (read : ℕ → Option α) (k s : ℕ) (items : List α) (h : items.length ≤ cap) :
    (collect cap read k s items).length ≤ cap := by
  rw [collect_eq read k s items h]
  exact List.length_take_le _ _

section Steps

variable (acc : Accum α) (slots : ℕ) (total idx : UInt8) (read : ℕ → Option α)

theorem sentence_start : acc.sentence cap slots total 1 read =
    (⟨total, if 1 = total then 0 else 2, collect cap read slots 0 []⟩, decide (1 = total)) := by
  unfold Accum.sentence
  dsimp only
  rw [if_pos rfl, if_neg (not_not.mpr rfl)]
  by_cases hlast : 1 = total
  · simp [hlast]
  · simp only [if_neg hlast, decide_eq_false hlast]
    rfl

theorem sentence_next (hone : idx ≠ 1) (hidx : idx = acc.nextIdx) :
    acc.sentence cap slots total idx read =
      (⟨acc.expectedTotal, if idx = total then 0 else idx+1, collect cap read slots 0 acc.items⟩,
        decide (idx = total)) := by
  unfold Accum.sentence
  dsimp only
  rw [if_neg hone, if_neg (not_not.mpr hidx)]
  by_cases hlast : idx = total
  · simp [hlast]
  · simp [hlast]

theorem sentence_drop (hone : idx ≠ 1) (hidx : idx ≠ acc.nextIdx) :
    acc.sentence cap slots total idx read = ({ acc with nextIdx := 0 }, false) := by
  unfold Accum.sentence
  dsimp only
  rw [if_neg hone, if_pos hidx]

theorem sentence_held (h : Held cap ps acc) :
    Held cap (⟨total.toNat, idx.toNat, reads read slots 0⟩::ps)
      (acc.sentence cap slots total idx read).1 := by
  by_cases hone : idx = 1
  · subst hone
    have hempty : ([] : List α).length ≤ cap := Nat.zero_le cap
    have hnext : (if 1 = total then (0 : UInt8) else 2).toNat =
        if (1 : UInt8).toNat = total.toNat then 0 else 2 := by
      rw [apply_ite UInt8.toNat]
      exact if_congr UInt8.toNat_inj.symm rfl rfl
    rw [sentence_start]
    refine ⟨?_, collect_room read slots 0 [] hempty⟩
    dsimp only
    rw [collect_eq read slots 0 [] hempty, List.nil_append, hnext]
    exact tracks_start ⟨total.toNat, (1 : UInt8).toNat, reads read slots 0⟩ rfl
  · have hone' : idx.toNat ≠ 1 := fun hn => hone (UInt8.toNat_inj.mp hn)
    by_cases hidx : idx = acc.nextIdx
    · have hnext : (if idx = total then (0 : UInt8) else idx+1).toNat =
          if idx.toNat = total.toNat then 0 else (idx.toNat+1) % 256 := by
        rw [apply_ite UInt8.toNat]
        exact if_congr UInt8.toNat_inj.symm rfl (UInt8.toNat_add idx 1)
      rw [sentence_next acc slots total idx read hone hidx]
      refine ⟨?_, collect_room read slots 0 acc.items h.room⟩
      dsimp only
      rw [collect_eq read slots 0 acc.items h.room, hnext]
      by_cases hzero : idx.toNat = 0
      · apply tracks_zero ⟨total.toNat, idx.toNat, reads read slots 0⟩ hzero
        rw [hzero]
        split <;> decide
      · exact tracks_next h.tracks acc.nextIdx.toNat_lt
          ⟨total.toNat, idx.toNat, reads read slots 0⟩ (congrArg UInt8.toNat hidx)
          (by rw [← hidx]; omega)
    · rw [sentence_drop acc slots total idx read hone hidx]
      exact ⟨tracks_drop h.tracks ⟨total.toNat, idx.toNat, reads read slots 0⟩ idx.toNat_lt
        (fun hn => hidx (UInt8.toNat_inj.mp hn)) hone', h.room⟩

theorem sentence_last : (acc.sentence cap slots total idx read).2 = true ↔
    acc.Last ⟨total.toNat, idx.toNat, reads read slots 0⟩ := by
  rw [Accum.Last, UInt8.toNat_inj, UInt8.toNat_inj]
  by_cases hone : idx = 1
  · subst hone
    rw [sentence_start, decide_eq_true_iff]
    exact (and_iff_left (Or.inl rfl)).symm
  · have hone' : idx.toNat ≠ 1 := fun hn => hone (UInt8.toNat_inj.mp hn)
    by_cases hidx : idx = acc.nextIdx
    · rw [sentence_next acc slots total idx read hone hidx, decide_eq_true_iff]
      exact (and_iff_left (Or.inr hidx)).symm
    · rw [sentence_drop acc slots total idx read hone hidx]
      exact iff_of_false (by simp) (fun h => h.2.elim hone' hidx)

end Steps

end Accumulator

theorem mem_talkers (t : UInt16) (seen : List Heard) :
    t ∈ talkersOf seen ↔ ∃ e ∈ seen, e.1 = t := by
  induction seen with
  | nil => simp [talkersOf]
  | cons e seen ih =>
    rw [talkersOf, List.exists_mem_cons_iff, ← ih]
    by_cases he : e.1 ∈ talkersOf seen
    · rw [if_pos he]
      constructor
      · exact Or.inr
      · rintro (rfl | h)
        · exact he
        · exact h
    · rw [if_neg he, List.mem_append, List.mem_singleton, or_comm, eq_comm]

theorem talkers_nodup (seen : List Heard) : (talkersOf seen).Nodup := by
  induction seen with
  | nil => exact List.nodup_nil
  | cons e seen ih =>
    rw [talkersOf]
    by_cases he : e.1 ∈ talkersOf seen
    · rw [if_pos he]
      exact ih
    · rw [if_neg he]
      rw [List.nodup_append]
      refine ⟨ih, List.nodup_singleton e.1, fun t ht u hu htu => he ?_⟩
      rw [← List.mem_singleton.mp hu, ← htu]
      exact ht

theorem messages_none (t : UInt16) (seen : List Heard) (h : t ∉ talkersOf seen) :
    messagesOf t seen = [] := by
  rw [mem_talkers] at h
  push Not at h
  rw [messagesOf, List.filterMap_eq_nil_iff]
  intro e he
  rw [if_neg (h e he)]

theorem messages_self (t : UInt16) (m : Option (Piece SatInfo)) (seen : List Heard) :
    messagesOf t ((t, m)::seen) = m.toList++messagesOf t seen := by
  cases m with
  | none => simp [messagesOf]
  | some p => simp [messagesOf]

theorem messages_of_ne (t u : UInt16) (m : Option (Piece SatInfo)) (seen : List Heard) (h : t ≠ u) :
    messagesOf u ((t, m)::seen) = messagesOf u seen := by
  simp [messagesOf, h]

/-- The slots belong to the first four talkers and are in step with them. -/
structure Slots (gsv : List GsvAccum) (seen : List Heard) : Prop where
  size : gsv.length = 4
  talker : ∀ i (h : i < gsv.length), gsv[i].talker = (talkersOf seen)[i]?.getD 0
  held : ∀ a ∈ gsv, Held 16 (messagesOf a.talker seen) a.acc
  known : ∀ t ∈ talkersOf seen, t ≠ 0

theorem slots_init : Slots Teseo.init.gsv [] := by
  refine ⟨rfl, fun i h => ?_, fun a ha => ?_, fun t ht => ?_⟩
  · exact congrArg GsvAccum.talker (List.eq_of_mem_replicate (List.getElem_mem h))
  · rw [List.eq_of_mem_replicate ha]
    exact held_empty
  · simp [talkersOf] at ht

section Slots

variable {gsv : List GsvAccum} {seen : List Heard} {t : UInt16} {i : ℕ}

theorem some_of_getD (o : Option UInt16) (ht : t ≠ 0) (h : o.getD 0 = t) : o = some t := by
  cases o with
  | none => exact absurd h.symm ht
  | some u => exact congrArg some h

theorem slot_heard (h : Slots gsv seen) (j : ℕ) (hj : j < gsv.length)
    (hlt : j < (talkersOf seen).length) : gsv[j].talker = (talkersOf seen)[j] := by
  rw [h.talker j hj, List.getElem?_eq_getElem hlt, Option.getD_some]

theorem slot_free (h : Slots gsv seen) (j : ℕ) (hj : j < gsv.length) :
    gsv[j].talker = 0 ↔ (talkersOf seen).length ≤ j := by
  constructor
  · intro hzero
    by_contra hlt
    rw [slot_heard h j hj (Nat.not_le.mp hlt)] at hzero
    exact h.known _ (List.getElem_mem _) hzero
  · intro hle
    rw [h.talker j hj, List.getElem?_eq_none hle, Option.getD_none]

theorem slot_none (h : Slots gsv seen) (hnone : gsv.findIdx? (fun a => a.talker = t) = none) :
    t ∉ (talkersOf seen).take 4 := by
  intro ht
  obtain ⟨j, hj, hget⟩ := List.mem_iff_getElem.mp ht
  rw [List.length_take] at hj
  rw [List.getElem_take] at hget
  have hlt : j < gsv.length := by
    rw [h.size]
    omega
  have hfalse := List.findIdx?_eq_none_iff.mp hnone gsv[j] (List.getElem_mem hlt)
  rw [decide_eq_false_iff_not, slot_heard h j hlt (by omega)] at hfalse
  exact hfalse hget

/-- A slot is found for the talker: its own, or else the first one that is free. -/
theorem slot_found (h : Slots gsv seen) (ht : t ≠ 0) (hi : gsvAccumFor gsv t = some i)
    (m : Option (Piece SatInfo)) :
    i < gsv.length ∧ (talkersOf ((t, m)::seen))[i]? = some t ∧
    Held 16 (messagesOf t seen) (accAt gsv i) ∧
    ∀ j, j ≠ i → (talkersOf ((t, m)::seen))[j]?.getD 0 = (talkersOf seen)[j]?.getD 0 := by
  unfold gsvAccumFor at hi
  split at hi
  · rename_i k hk
    obtain rfl := Option.some.inj hi
    obtain ⟨hlt, htalker, -⟩ := List.findIdx?_eq_some_iff_getElem.mp hk
    rw [decide_eq_true_iff] at htalker
    have hget := some_of_getD _ ht ((h.talker k hlt).symm.trans htalker)
    rw [talkersOf, if_pos (List.mem_of_getElem? hget), accAt, List.getElem?_eq_getElem hlt]
    exact ⟨hlt, hget, htalker ▸ h.held gsv[k] (List.getElem_mem hlt), fun _ _ => rfl⟩
  · rename_i hnone
    obtain ⟨hlt, hzero, hfirst⟩ := List.findIdx?_eq_some_iff_getElem.mp hi
    rw [decide_eq_true_iff] at hzero
    have hlen : (talkersOf seen).length = i := by
      apply le_antisymm ((slot_free h i hlt).mp hzero)
      by_contra hgap
      have hused := hfirst (talkersOf seen).length (Nat.not_le.mp hgap)
      rw [decide_eq_true_iff] at hused
      exact hused ((slot_free h _ (by omega)).mpr (le_refl _))
    have hnot : t ∉ talkersOf seen := by
      have hfour := slot_none h hnone
      rwa [List.take_of_length_le (by rw [hlen, ← h.size]; exact Nat.le_of_lt hlt)] at hfour
    rw [talkersOf, if_neg hnot, accAt, List.getElem?_eq_getElem hlt]
    refine ⟨hlt, ?_, ?_, fun j hj => ?_⟩
    · rw [← hlen, List.getElem?_append_right (le_refl _), Nat.sub_self]
      rfl
    · have hheld := h.held gsv[i] (List.getElem_mem hlt)
      rw [hzero, messages_none 0 seen (fun hmem => h.known 0 hmem rfl)] at hheld
      rw [messages_none t seen hnot]
      exact hheld
    · rcases Nat.lt_or_gt_of_ne hj with hbefore | hbehind
      · rw [List.getElem?_append_left (hlen ▸ hbefore)]
      · rw [List.getElem?_eq_none (by simp; omega), List.getElem?_eq_none (by omega)]

theorem slot_missing (h : Slots gsv seen) (hi : gsvAccumFor gsv t = none) :
    4 ≤ (talkersOf seen).length ∧ t ∉ (talkersOf seen).take 4 := by
  unfold gsvAccumFor at hi
  split at hi
  · cases hi
  · rename_i hnone
    refine ⟨?_, slot_none h hnone⟩
    by_contra hfew
    have hlt : (talkersOf seen).length < gsv.length := by
      rw [h.size]
      omega
    have hused := List.findIdx?_eq_none_iff.mp hi _ (List.getElem_mem hlt)
    rw [decide_eq_false_iff_not] at hused
    exact hused ((slot_free h _ hlt).mpr (le_refl _))

theorem talkers_known (h : Slots gsv seen) (ht : t ≠ 0) (m : Option (Piece SatInfo)) :
    ∀ u ∈ talkersOf ((t, m)::seen), u ≠ 0 := by
  intro u hu
  obtain ⟨e, he, rfl⟩ := (mem_talkers u _).mp hu
  rcases List.mem_cons.mp he with rfl | he
  · exact ht
  · exact h.known e.1 ((mem_talkers e.1 seen).mpr ⟨e, he, rfl⟩)

theorem slots_set (h : Slots gsv seen) (ht : t ≠ 0) (hi : gsvAccumFor gsv t = some i)
    (m : Option (Piece SatInfo)) (acc : Accum SatInfo)
    (hacc : Held 16 (messagesOf t ((t, m)::seen)) acc) :
    Slots (gsv.set i ⟨t, acc⟩) ((t, m)::seen) := by
  obtain ⟨hlt, hget, -, hothers⟩ := slot_found h ht hi m
  have htalker (j : ℕ) (hj : j < (gsv.set i ⟨t, acc⟩).length) :
      (gsv.set i ⟨t, acc⟩)[j].talker = (talkersOf ((t, m)::seen))[j]?.getD 0 := by
    rw [List.getElem_set]
    by_cases hij : i = j
    · rw [if_pos hij, ← hij, hget, Option.getD_some]
    · rw [if_neg hij, hothers j (Ne.symm hij)]
      exact h.talker j (by simpa using hj)
  refine ⟨by rw [List.length_set, h.size], htalker, fun a ha => ?_, talkers_known h ht m⟩
  obtain ⟨j, hj, rfl⟩ := List.mem_iff_getElem.mp ha
  by_cases hij : i = j
  · subst hij
    rw [List.getElem_set_self]
    exact hacc
  · have hne : t ≠ (gsv.set i ⟨t, acc⟩)[j].talker := by
      intro heq
      have hsame := some_of_getD _ ht ((htalker j hj).symm.trans heq.symm)
      have hin := (List.getElem?_eq_some_iff.mp hget).choose
      exact hij ((List.getElem?_inj hin (talkers_nodup _)).mp (hget.trans hsame.symm))
    rw [messages_of_ne t _ m seen hne, List.getElem_set_ne hij]
    exact h.held _ (List.getElem_mem _)

theorem slots_missing (h : Slots gsv seen) (ht : t ≠ 0) (hi : gsvAccumFor gsv t = none)
    (m : Option (Piece SatInfo)) : Slots gsv ((t, m)::seen) := by
  obtain ⟨hfull, hnot⟩ := slot_missing h hi
  have hfour (j : ℕ) (hj : j < gsv.length) : j < (talkersOf seen).length := by
    rw [h.size] at hj
    omega
  refine ⟨h.size, fun j hj => ?_, fun a ha => ?_, talkers_known h ht m⟩
  · rw [h.talker j hj, talkersOf]
    split
    · rfl
    · rw [List.getElem?_append_left (hfour j hj)]
  · obtain ⟨j, hj, rfl⟩ := List.mem_iff_getElem.mp ha
    have hne : t ≠ gsv[j].talker := by
      rintro rfl
      apply hnot
      rw [slot_heard h j hj (hfour j hj)]
      rw [h.size] at hj
      exact List.mem_take_iff_getElem.mpr ⟨j, by omega, rfl⟩
    rw [messages_of_ne t _ m seen hne]
    exact h.held gsv[j] ha

theorem slots_talkers (h : Slots gsv seen) : gsv.map GsvAccum.talker =
    (talkersOf seen).take 4++List.replicate (4-(talkersOf seen).length) 0 := by
  apply List.ext_getElem
  · rw [List.length_map, h.size, List.length_append, List.length_take, List.length_replicate]
    omega
  · intro j hj _
    rw [List.length_map] at hj
    rw [List.getElem_map, List.getElem_append]
    split
    · rename_i hlt
      rw [List.length_take] at hlt
      rw [List.getElem_take, slot_heard h j hj (by omega)]
    · rename_i hle
      rw [List.length_take] at hle
      rw [h.size] at hj
      rw [List.getElem_replicate]
      exact (slot_free h j (by rw [h.size]; exact hj)).mpr (by omega)

theorem slot_items (h : Slots gsv seen) (hs : AllSettled seen) (a : GsvAccum) (ha : a ∈ gsv) :
    a.acc.items = itemsOf 16 (lastCycle (messagesOf a.talker seen)) := by
  apply (h.held a ha).tracks.settled
  have hmem : a.talker ∈ gsv.map GsvAccum.talker := List.mem_map_of_mem ha
  rw [slots_talkers h, List.mem_append] at hmem
  rcases hmem with hused | hfree
  · exact hs.1 a.talker hused
  · rw [List.eq_of_mem_replicate hfree, messages_none 0 seen (fun hz => h.known 0 hz rfl)]
    trivial

theorem slots_table (h : Slots gsv seen) (hs : AllSettled seen) :
    (gsv.flatMap (fun a => a.acc.items)).take 32 = satTable seen := by
  have hfree : messagesOf 0 seen = [] := messages_none 0 seen (fun hz => h.known 0 hz rfl)
  have hmap : gsv.map (fun a => a.acc.items) =
      gsv.map (fun a => itemsOf 16 (lastCycle (messagesOf a.talker seen))) :=
    List.map_congr_left (slot_items h hs)
  have hunused : (List.replicate (4-(talkersOf seen).length) (0 : UInt16)).flatMap
      (fun t => itemsOf 16 (lastCycle (messagesOf t seen))) = [] := by
    rw [List.flatMap_eq_nil_iff]
    intro t ht
    rw [List.eq_of_mem_replicate ht, hfree]
    rfl
  have hlate : ((talkersOf seen).drop 4).flatMap
      (fun t => itemsOf 16 (lastCycle (messagesOf t seen))) = [] := by
    rw [List.flatMap_eq_nil_iff]
    intro t ht
    rw [hs.2 t ht]
    rfl
  rw [satTable, ← List.take_append_drop 4 (talkersOf seen), List.flatMap_append, hlate,
    List.append_nil, List.flatMap_def, hmap, ← List.flatMap_def]
  rw [← List.flatMap_map GsvAccum.talker (fun t => itemsOf 16 (lastCycle (messagesOf t seen))),
    slots_talkers h, List.flatMap_append, hunused, List.append_nil]

end Slots

theorem byte_toNat (v : ℤ) (h : InByte v) : (UInt8.ofInt v).toNat = v.toNat := by
  have hmod : v % 256 = v := Int.emod_eq_of_lt h.1 h.2
  have hlt : v.toNat < 256 := by
    have := h.2
    omega
  show (UInt8.ofNat (v % 256).toNat).toNat = v.toNat
  rw [hmod, UInt8.toNat_ofNat', Nat.mod_eq_of_lt hlt]

theorem piece_of_header {α : Type} (body : Bytes) (slots : ℕ) (read : ℕ → Option α) (total idx : ℤ)
    (h : header body = some (total, idx))
    (hb : ∀ h ∈ header body, InByte h.1 ∧ InByte h.2) :
    pieceOf body slots read =
      some ⟨(UInt8.ofInt total).toNat, (UInt8.ofInt idx).toNat, reads read slots 0⟩ := by
  obtain ⟨htotal, hidx⟩ := hb (total, idx) h
  rw [pieceOf, h, byte_toNat total htotal, byte_toNat idx hidx]
  rfl

theorem parse_gsv_frame (s : Teseo) (body : Bytes) :
    (s.parseGsv body).rf = s.rf ∧ (s.parseGsv body).rfState = s.rfState := by
  unfold Teseo.parseGsv
  dsimp only
  split
  · exact ⟨rfl, rfl⟩
  · split
    · exact ⟨rfl, rfl⟩
    · split <;> exact ⟨rfl, rfl⟩

theorem parse_rf_frame (s : Teseo) (body : Bytes) :
    (s.parsePstmRf body).gsv = s.gsv ∧ (s.parsePstmRf body).satView = s.satView := by
  unfold Teseo.parsePstmRf
  dsimp only
  split
  · exact ⟨rfl, rfl⟩
  · split <;> exact ⟨rfl, rfl⟩

/-- A GSV sentence keeps the slots in step, and publishes them when it is taken for the
last of its cycle. -/
theorem parse_gsv_step (s : Teseo) (seen : List Heard) (body : Bytes) (h : Slots s.gsv seen)
    (ht : talkerOf body ≠ 0) (hb : ∀ h ∈ header body, InByte h.1 ∧ InByte h.2) :
    Slots (s.parseGsv body).gsv (gsvHeard body::seen) ∧
    ((s.parseGsv body).satView.updateCount ≠ s.satView.updateCount →
      (∃ p ∈ pieceOf body 4 (gsvSat body), ∃ i ∈ gsvAccumFor s.gsv (talkerOf body),
        (accAt s.gsv i).Last p) ∧
      (s.parseGsv body).satView.sats =
        ((s.parseGsv body).gsv.flatMap (fun a => a.acc.items)).take 32) := by
  unfold Teseo.parseGsv
  dsimp only
  split
  · rename_i hslot
    exact ⟨slots_missing h ht hslot _, fun hne => absurd rfl hne⟩
  · rename_i i hslot
    obtain ⟨-, -, hheld, -⟩ := slot_found h ht hslot (pieceOf body 4 (gsvSat body))
    split
    · rename_i hheader
      have hnone : pieceOf body 4 (gsvSat body) = none := by rw [pieceOf, hheader, Option.map_none]
      refine ⟨slots_set h ht hslot _ _ ?_, fun hne => absurd rfl hne⟩
      rw [messages_self, hnone]
      exact hheld
    · rename_i total idx hheader
      have hpiece := piece_of_header body 4 (gsvSat body) total idx hheader hb
      have hslots : Slots (s.gsv.set i ⟨talkerOf body, ((accAt s.gsv i).sentence 16 4
          (UInt8.ofInt total) (UInt8.ofInt idx) (gsvSat body)).1⟩) (gsvHeard body::seen) := by
        apply slots_set h ht hslot
        rw [messages_self, hpiece]
        exact sentence_held _ 4 _ _ _ hheld
      split
      · rename_i hlast
        exact ⟨hslots, fun _ => ⟨⟨_, hpiece, i, hslot, (sentence_last _ 4 _ _ _).mp hlast⟩, rfl⟩⟩
      · exact ⟨hslots, fun hne => absurd rfl hne⟩

theorem parse_rf_step (s : Teseo) (seen : List (Piece RfSat)) (body : Bytes) (h : Held 32 seen s.rf)
    (hb : ∀ h ∈ header body, InByte h.1 ∧ InByte h.2) :
    Held 32 ((pieceOf body 3 (rfSat body)).toList++seen) (s.parsePstmRf body).rf ∧
    ((s.parsePstmRf body).rfState.updateCount ≠ s.rfState.updateCount →
      (∃ p ∈ pieceOf body 3 (rfSat body), s.rf.Last p) ∧
      (s.parsePstmRf body).rfState.sats = (s.parsePstmRf body).rf.items) := by
  unfold Teseo.parsePstmRf
  split
  · rename_i hheader
    rw [pieceOf, hheader]
    exact ⟨h, fun hne => absurd rfl hne⟩
  · rename_i total idx hheader
    rw [piece_of_header body 3 (rfSat body) total idx hheader hb]
    have hheld := sentence_held s.rf 3 (UInt8.ofInt total) (UInt8.ofInt idx) (rfSat body) h
    dsimp only
    split
    · rename_i hlast
      exact ⟨hheld, fun _ => ⟨⟨_, rfl, (sentence_last s.rf 3 _ _ _).mp hlast⟩, rfl⟩⟩
    · exact ⟨hheld, fun hne => absurd rfl hne⟩

def Printable (line : Bytes) : Prop := ∀ c ∈ line, 0x20 ≤ c

theorem printable_nil : Printable [] := fun _ hd => (List.not_mem_nil hd).elim

theorem printable_append (line : Bytes) (c : UInt8) (h : Printable line) (hc : 0x20 ≤ c) :
    Printable (line++[c]) := by
  intro d hd
  rcases List.mem_append.mp hd with hd | hd
  · exact h d hd
  · rw [List.mem_singleton.mp hd]
    exact hc

theorem poll_quiet (s : Teseo) (c : UInt8) (hc : c ≠ 0x0A) (h : Printable s.line) :
    ∃ line, Printable line ∧ s.pollByte c = { s with line } := by
  unfold Teseo.pollByte
  split
  · exact ⟨s.line, h, rfl⟩
  · split
    · exact ⟨s.line, h, rfl⟩
    · rename_i hcontrol
      unfold Teseo.accumulateByte
      split
      · rename_i hdollar
        refine ⟨[c], fun d hd => ?_, rfl⟩
        rw [List.mem_singleton.mp hd, hdollar]
        decide
      · split
        · exact ⟨s.line, h, rfl⟩
        · rename_i hcr
          split
          · refine ⟨s.line++[c], printable_append s.line c h ?_, rfl⟩
            by_contra hlow
            exact hcontrol ⟨UInt8.not_le.mp hlow, hcr, hc⟩
          · split
            · exact ⟨[], printable_nil, rfl⟩
            · exact ⟨s.line, h, rfl⟩

theorem poll_newline (s : Teseo) : s.pollByte 0x0A = { s.dispatchLine with line := [] } := rfl

theorem talker_ne_zero (type : Bytes) (h : 0x20 ≤ type.getD 1 0) : talkerOf type ≠ 0 := by
  intro hzero
  have hnat := congrArg UInt16.toNat hzero
  rw [talkerOf, UInt16.toNat_or, UInt8.toNat_toUInt16] at hnat
  have hlow : 0x20 ≤ (type.getD 1 0).toNat := UInt8.le_iff_toNat_le.mp h
  have hor : (type.getD 1 0).toNat ≤
      ((type.getD 0 0).toUInt16 <<< 8).toNat ||| (type.getD 1 0).toNat := Nat.right_le_or
  rw [hnat] at hor
  exact absurd (Nat.le_trans hlow hor) (by decide)

theorem talker_printable (line body : Bytes) (h : Printable line)
    (hs : sentenceOf line = some (.gsv body)) : talkerOf body ≠ 0 := by
  have hbody : 8 ≤ line.length ∧ line.drop 1 = body := by
    unfold sentenceOf at hs
    split at hs
    · cases hs
    · rename_i hok
      push Not at hok
      refine ⟨hok.1, ?_⟩
      dsimp only at hs
      split at hs
      · split at hs <;> cases hs
      · split at hs
        · injection hs with hs
          injection hs
        · cases hs
  obtain ⟨hlen, rfl⟩ := hbody
  apply talker_ne_zero
  rw [List.getD_eq_getElem?_getD, List.getElem?_drop, List.getElem?_eq_getElem (by omega),
    Option.getD_some]
  exact h _ (List.getElem_mem _)

structure InStep (w : Watched) : Prop where
  line : Printable w.teseo.line
  slots : Slots w.teseo.gsv w.gsvSeen
  rf : Held 32 w.rfSeen w.teseo.rf

theorem in_step_start : InStep .start :=
  ⟨printable_nil, slots_init, held_empty⟩

section Steps

variable {w : Watched} {c : UInt8}

theorem sentence_poll (e : Sentence) (hsent : w.sentence c = some e) :
    sentenceOf w.teseo.line = some e ∧
    w.teseo.pollByte c = { (match e with
      | .gsv body => w.teseo.parseGsv body
      | .pstmRf body => w.teseo.parsePstmRf body) with line := [] } := by
  rw [Watched.sentence] at hsent
  split at hsent
  · rename_i hc
    rw [hc, poll_newline, Teseo.dispatchLine, hsent]
    exact ⟨rfl, by cases e <;> rfl⟩
  · cases hsent

theorem in_step_quiet (h : InStep w) (hsent : w.sentence c = none) : InStep (w.next c) ∧ TablesWhole w c := by
  have hnext : w.next c = { w with teseo := w.teseo.pollByte c } := by rw [Watched.next, hsent]
  obtain ⟨line, hline, hpoll⟩ : ∃ line, Printable line ∧
      w.teseo.pollByte c = { w.teseo with line } := by
    by_cases hc : c = 0x0A
    · rw [Watched.sentence, if_pos hc] at hsent
      refine ⟨[], printable_nil, ?_⟩
      rw [hc, poll_newline, Teseo.dispatchLine, hsent]
    · exact poll_quiet w.teseo c hc h.line
  rw [hpoll] at hnext
  refine ⟨?_, fun hne => ?_, fun hne => ?_⟩
  · rw [hnext]
    exact ⟨hline, h.slots, h.rf⟩
  · rw [hnext] at hne
    exact absurd rfl hne
  · rw [hnext] at hne
    exact absurd rfl hne

theorem in_step_gsv (h : InStep w) (body : Bytes) (hsent : w.sentence c = some (.gsv body))
    (hs : GsvWhole w body) : InStep (w.next c) ∧ TablesWhole w c := by
  obtain ⟨hline, hpoll⟩ := sentence_poll (.gsv body) hsent
  have hnext : w.next c = ⟨{ w.teseo.parseGsv body with line := [] },
      gsvHeard body::w.gsvSeen, w.rfSeen⟩ := by rw [Watched.next, hsent, hpoll]
  obtain ⟨hslots, htable⟩ := parse_gsv_step w.teseo w.gsvSeen body h.slots
    (talker_printable w.teseo.line body h.line hline) hs.1
  obtain ⟨hrf, hstate⟩ := parse_gsv_frame w.teseo body
  refine ⟨?_, fun hne => ?_, fun hne => ?_⟩
  · rw [hnext]
    exact ⟨printable_nil, hslots, hrf ▸ h.rf⟩
  · rw [hnext] at hne ⊢
    obtain ⟨⟨p, hp, i, hi, hlast⟩, hsats⟩ := htable hne
    exact hsats.trans (slots_table hslots (hs.2 p hp i hi hlast))
  · rw [hnext] at hne
    exact absurd (congrArg View.updateCount hstate) hne

theorem in_step_rf (h : InStep w) (body : Bytes) (hsent : w.sentence c = some (.pstmRf body))
    (hs : RfWhole w body) : InStep (w.next c) ∧ TablesWhole w c := by
  obtain ⟨-, hpoll⟩ := sentence_poll (.pstmRf body) hsent
  have hnext : w.next c = ⟨{ w.teseo.parsePstmRf body with line := [] }, w.gsvSeen,
      (pieceOf body 3 (rfSat body)).toList++w.rfSeen⟩ := by rw [Watched.next, hsent, hpoll]
  obtain ⟨hheld, htable⟩ := parse_rf_step w.teseo w.rfSeen body h.rf hs.1
  obtain ⟨hgsv, hview⟩ := parse_rf_frame w.teseo body
  refine ⟨?_, fun hne => ?_, fun hne => ?_⟩
  · rw [hnext]
    exact ⟨printable_nil, hgsv ▸ h.slots, hheld⟩
  · rw [hnext] at hne
    exact absurd (congrArg View.updateCount hview) hne
  · rw [hnext] at hne ⊢
    obtain ⟨⟨p, hp, hlast⟩, hsats⟩ := htable hne
    have hsettled := hs.2 p hp hlast
    rw [hp] at hheld ⊢
    exact hsats.trans (hheld.tracks.settled hsettled)

theorem in_step_next (h : InStep w) (hs : SentenceWhole w c) : InStep (w.next c) ∧ TablesWhole w c := by
  rw [SentenceWhole] at hs
  cases hsent : w.sentence c with
  | none => exact in_step_quiet h hsent
  | some e =>
    rw [hsent] at hs
    cases e with
    | gsv body => exact in_step_gsv h body hsent hs
    | pstmRf body => exact in_step_rf h body hsent hs

end Steps

/-- In every run whose sentences are read exactly and end no cycle while another one is
unfinished, each table that is published is that of the last complete cycles. -/
theorem tables_whole (bytes : Bytes)
    (h : Along Watched.step SentenceWhole .start bytes) :
    Along Watched.step TablesWhole .start bytes := by
  apply along_imp_of_invariant Watched.step SentenceWhole TablesWhole InStep _ _ bytes .start
    in_step_start h
  · intro w c t hi hs ht
    exact Option.some.inj ht ▸ (in_step_next hi hs).1
  · intro w c hi hs
    exact (in_step_next hi hs).2

/-- GPS sends two sentences, GLONASS and the RF monitor one each. -/
def twoTalkers : Bytes :=
  ascii "$GPGSV,2,1,2,7*53\n$GPGSV,2,2,2,9*5E\n$GLGSV,1,1,1,65*7B\n$PSTMRF,1,1,1,7*08\n"

theorem two_talkers_whole : Along Watched.step SentenceWhole .start twoTalkers ∧
    Along Watched.step TablesWhole .start twoTalkers ∧
    (Teseo.init.poll twoTalkers).satView.sats = [⟨7, 0, 0, 0⟩, ⟨9, 0, 0, 0⟩, ⟨65, 0, 0, 0⟩] ∧
    (Teseo.init.poll twoTalkers).rfState.sats = [⟨7, 0, 0, 0⟩] := by
  have hwhole : Along Watched.step SentenceWhole .start twoTalkers := by decide +kernel
  exact ⟨hwhole, tables_whole twoTalkers hwhole, by decide +kernel, by decide +kernel⟩

def lostSentence : Bytes := ascii "$GPGSV,2,1,2,7,40,83,46*72\n$GLGSV,1,1,1,65,10,20,30*57\n"

/-- The GPS satellite of the unfinished cycle is published with the GLONASS one. -/
theorem unfinished_published :
    (Teseo.init.poll lostSentence).satView.sats = [⟨7, 40, 83, 46⟩, ⟨65, 10, 20, 30⟩] ∧
    ¬ Along Watched.step TablesWhole .start lostSentence := by
  constructor
  · decide +kernel
  · decide +kernel

end MokyaLora.TeseoLiv3fl
