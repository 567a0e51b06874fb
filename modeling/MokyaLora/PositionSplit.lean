import MokyaLora.KeyTable

/-!
# The first phoneme positions of a key sequence

`first_n_positions_bytes` runs the state machine of `count_positions` and stops where
the position behind the wanted ones begins, or behind the tone that ends the last one.
At both places a count that starts anew goes on as the running one does.
-/

set_option autoImplicit false

namespace MokyaLora.Ime
open Lib.Fields

def splitFrom (nPositions : ℕ) : SyllState → ℕ → ℕ → Bytes → ℕ
  | _, _, i, [] => i
  | st, count, i, b::bs =>
    let role := resolveRole b st
    let (st', startsNew) := advanceState role st
    if startsNew ∧ count = nPositions then i
    else
      let count := if startsNew then count+1 else count
      if role = .tone ∧ nPositions ≤ count then i+1
      else splitFrom nPositions st' count (i+1) bs

def firstNPositionsBytes (seq : Bytes) (nPositions : ℕ) : ℕ :=
  if nPositions = 0 then 0 else splitFrom nPositions .kNone 0 0 seq

example : firstNPositionsBytes [0x2B, 0x29, 0x22, 0x31] 1 = 3 := by decide

/-- A key that starts a syllable does so in front of everything as well. -/
theorem starts_fresh (b : UInt8) (st : SyllState)
    (h : (advanceState (resolveRole b st) st).2 = true) :
    advanceState (resolveRole b .kNone) .kNone = advanceState (resolveRole b st) st := by
  cases st with
  | kNone => rfl
  | kAfterI =>
    have hrole : resolveRole b .kAfterI = resolveRole b .kNone := by simp [resolveRole]
    rw [hrole] at h ⊢
    cases hr : resolveRole b .kNone <;> simp_all [advanceState]
  | kAfterM =>
    by_cases hb : b = 0x23
    · simp [resolveRole, hb, advanceState] at h
    · have hrole : resolveRole b .kAfterM = resolveRole b .kNone := by simp [resolveRole, hb]
      rw [hrole] at h ⊢
      cases hr : resolveRole b .kNone <;> simp_all [advanceState]
  | kAfterF =>
    by_cases hb : b = 0x23
    · simp [resolveRole, hb, advanceState] at h
    · have hrole : resolveRole b .kAfterF = resolveRole b .kNone := by simp [resolveRole, hb]
      rw [hrole] at h ⊢
      cases hr : resolveRole b .kNone <;> simp_all [advanceState]

theorem count_fresh (b : UInt8) (bs : Bytes) (st : SyllState)
    (h : (advanceState (resolveRole b st) st).2 = true) :
    countFrom .kNone (b::bs) = countFrom st (b::bs) := by
  simp only [countFrom, starts_fresh b st h]

@[simp] theorem tone_ends (st : SyllState) : advanceState .tone st = (.kNone, false) := rfl

/-- Where to split the keys that follow `count` positions of `n`. -/
structure SplitsAt (n : ℕ) (st : SyllState) (count : ℕ) (bs : Bytes) (k : ℕ) : Prop where
  inside : k ≤ bs.length
  few : count+countFrom st bs < n → k = bs.length
  front : n ≤ count+countFrom st bs → count+countFrom st (bs.take k) = n
  behind : n ≤ count+countFrom st bs → count+countFrom st bs = n+countFrom .kNone (bs.drop k)

theorem splits_cons (n : ℕ) (st : SyllState) (count : ℕ) (b : UInt8) (bs : Bytes) (k : ℕ)
    (h : SplitsAt n (advanceState (resolveRole b st) st).1
      (count+if (advanceState (resolveRole b st) st).2 then 1 else 0) bs k) :
    SplitsAt n st count (b::bs) (k+1) where
  inside := Nat.succ_le_succ h.inside
  few := by
    have hfew := h.few
    simp only [countFrom, List.length_cons]
    omega
  front := by
    have hfront := h.front
    simp only [countFrom, List.take_succ_cons]
    omega
  behind := by
    have hbehind := h.behind
    simp only [countFrom, List.drop_succ_cons]
    omega

theorem splits_here (n : ℕ) (st : SyllState) (b : UInt8) (bs : Bytes)
    (h : (advanceState (resolveRole b st) st).2 = true) : SplitsAt n st n (b::bs) 0 where
  inside := Nat.zero_le _
  few := by omega
  front := by simp [countFrom]
  behind := by
    intro _
    rw [List.drop_zero, count_fresh b bs st h]

theorem splits_tone (n : ℕ) (st : SyllState) (b : UInt8) (bs : Bytes)
    (h : resolveRole b st = .tone) : SplitsAt n st n (b::bs) 1 where
  inside := by simp
  few := by omega
  front := by simp [countFrom, h]
  behind := by simp [countFrom, h]

/-- What the loop finds from any state of the machine in which no more positions are
counted than wanted. -/
theorem split_from_spec (n : ℕ) (bs : Bytes) (st : SyllState) (count i : ℕ) (hc : count ≤ n) :
    ∃ k, SplitsAt n st count bs k ∧ splitFrom n st count i bs = i+k := by
  induction bs generalizing st count i with
  | nil =>
    refine ⟨0, ⟨by simp, by simp, ?_, ?_⟩, by simp [splitFrom]⟩
    · simp only [countFrom, List.take_nil]
      omega
    · simp only [countFrom, List.drop_nil]
      omega
  | cons b bs ih =>
    cases hs : (advanceState (resolveRole b st) st).2 with
    | true =>
      have hrole : resolveRole b st ≠ .tone := by
        intro h
        simp [h] at hs
      by_cases hn : count = n
      · subst hn
        exact ⟨0, splits_here count st b bs hs, by simp [splitFrom, hs]⟩
      · obtain ⟨k, hk, heq⟩ :=
          ih (advanceState (resolveRole b st) st).1 (count+1) (i+1) (by omega)
        refine ⟨k+1, splits_cons n st count b bs k (by simpa [hs] using hk), ?_⟩
        simp only [splitFrom, hs, hn, hrole, and_false, false_and, if_false, if_true, heq]
        omega
    | false =>
      by_cases hstop : resolveRole b st = .tone ∧ n ≤ count
      · obtain rfl : count = n := le_antisymm hc hstop.2
        exact ⟨1, splits_tone count st b bs hstop.1, by simp [splitFrom, hstop.1]⟩
      · obtain ⟨k, hk, heq⟩ := ih (advanceState (resolveRole b st) st).1 count (i+1) hc
        refine ⟨k+1, splits_cons n st count b bs k (by simpa [hs] using hk), ?_⟩
        simp [splitFrom, hs, hstop, heq]
        omega

/-- The split stands at the end of a position: what is in front holds the wanted number,
and what is behind holds the others. -/
theorem split_positions (seq : Bytes) (n : ℕ) (hn : 1 ≤ n) :
    firstNPositionsBytes seq n ≤ seq.length ∧
    (n ≤ countPositions seq →
      countPositions (seq.take (firstNPositionsBytes seq n)) = n ∧
      countPositions seq = n+countPositions (seq.drop (firstNPositionsBytes seq n))) ∧
    (countPositions seq < n → firstNPositionsBytes seq n = seq.length) := by
  obtain ⟨k, ⟨hinside, hfew, hfront, hbehind⟩, heq⟩ := split_from_spec n seq .kNone 0 0 (by omega)
  rw [firstNPositionsBytes, if_neg (by omega), heq, Nat.zero_add]
  simp only [Nat.zero_add] at hfew hfront hbehind
  exact ⟨hinside, fun h => ⟨hfront h, hbehind h⟩, hfew⟩

/-- ㄋㄧˇ in front of ㄏㄠˇ. -/
theorem split_positions_hello :
    1 ≤ 1 ∧ countPositions [0x2B, 0x29, 0x22] = 1 ∧
      countPositions [0x2B, 0x29, 0x22, 0x31, 0x2F, 0x22] = 1+countPositions [0x31, 0x2F, 0x22] :=
  ⟨le_rfl, (split_positions [0x2B, 0x29, 0x22, 0x31, 0x2F, 0x22] 1 le_rfl).2.1 (by decide)⟩

end MokyaLora.Ime
