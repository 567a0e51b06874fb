import MokyaLora.Lib.Memory
import MokyaLora.Lib.Recency

/-!
# Table of mesh peers

Eight slots of node reports (`nodes_db.c`). An update is made in the slot of its node id, in
a free slot, or in the slot that was touched longest ago. Every update takes a touch number,
and the reader finds its entries by falling touch numbers.
-/

set_option autoImplicit false

namespace MokyaLora.NodesDb
open Lib.Fields Lib.Memory Lib.Recency

def aliasMax : UInt8 := 16

structure Entry where
  inUse : Bool
  nodeId : UInt32
  rssi : Int16
  snrX4 : Int8
  hopsAway : UInt8
  latE7 : Int32
  lonE7 : Int32
  batteryMv : UInt16
  aliasLen : UInt8
  aliasText : Buffer
  lastTouchSeq : UInt32

structure Db where
  table : List Entry
  changeSeq : UInt32
  touchClock : UInt32

structure Update where
  nodeId : UInt32
  rssi : Int16
  snrX4 : Int8
  hopsAway : UInt8
  latE7 : Int32
  lonE7 : Int32
  batteryMv : UInt16
  aliasText : Option Bytes
  aliasLen : UInt8

def empty : Db :=
  ⟨List.replicate 8 ⟨false, 0, 0, 0, 0, 0, 0, 0, 0, zeroed, 0⟩, 0, 0⟩

def findById (table : List Entry) (nodeId : UInt32) : Option ℕ :=
  table.findIdx? (fun e => e.inUse && e.nodeId == nodeId)

def scanOldest : List Entry → ℕ → UInt32 → ℕ → ℕ
  | [], _, _, oldestIdx => oldestIdx
  | e::es, i, oldestTouch, oldestIdx =>
    if !e.inUse then i
    else if e.lastTouchSeq < oldestTouch then scanOldest es (i+1) e.lastTouchSeq i
    else scanOldest es (i+1) oldestTouch oldestIdx

def findFreeOrOldest (table : List Entry) : ℕ := scanOldest table 0 4294967295 0

def cut (aliasLen : UInt8) : UInt8 := if aliasLen > aliasMax then aliasMax else aliasLen

/-- The alias copied into a slot; a null pointer leaves the slot's alias. -/
def copyAlias (slot : Buffer) (aliasText : Option Bytes) (aliasLen : UInt8) : Buffer :=
  match aliasText with
  | some t => if aliasLen > 0 then copyIn slot 0 (t.take aliasLen.toNat) else slot
  | none => slot

def fill (u : Update) (touch : UInt32) (e : Entry) : Entry where
  inUse := true
  nodeId := u.nodeId
  rssi := u.rssi
  snrX4 := u.snrX4
  hopsAway := u.hopsAway
  latE7 := u.latE7
  lonE7 := u.lonE7
  batteryMv := u.batteryMv
  aliasLen := cut u.aliasLen
  aliasText := copyAlias e.aliasText u.aliasText (cut u.aliasLen)
  lastTouchSeq := touch

def slotFor (table : List Entry) (nodeId : UInt32) : ℕ :=
  match findById table nodeId with
  | some idx => idx
  | none => findFreeOrOldest table

def upsert (s : Db) (u : Update) : Db :=
  if u.nodeId = 0 then s
  else
    let touch := s.touchClock+1
    { table := s.table.modify (slotFor s.table u.nodeId) (fill u touch)
      changeSeq := s.changeSeq+1
      touchClock := touch }

def used (table : List Entry) : List Entry := table.filter Entry.inUse

def count (s : Db) : ℕ := (used s.table).length

/-- One pass of the reader: the highest touch below the last one, and where it stands. -/
def scanPass (prevHigh : UInt32) : List Entry → ℕ → UInt32 → Option ℕ → UInt32 × Option ℕ
  | [], _, selectedTouch, selectedIdx => (selectedTouch, selectedIdx)
  | e::es, i, selectedTouch, selectedIdx =>
    if e.inUse && (e.lastTouchSeq < prevHigh && e.lastTouchSeq ≥ selectedTouch) then
      scanPass prevHigh es (i+1) e.lastTouchSeq (some i)
    else scanPass prevHigh es (i+1) selectedTouch selectedIdx

/-- The passes from one on, as many more as given. The loop leaves at the first pass that
finds nothing, so its counter never comes around. -/
def takePasses (table : List Entry) : ℕ → UInt32 → Option Entry
  | 0, prevHigh => (scanPass prevHigh table 0 0 none).2.bind (fun i => table[i]?)
  | n+1, prevHigh =>
    if (scanPass prevHigh table 0 0 none).2.isSome then
      takePasses table n (scanPass prevHigh table 0 0 none).1
    else none

def takeAt (s : Db) (index : UInt32) : Option Entry := takePasses s.table index.toNat 4294967295

def stamp (e : Entry) : ℕ := e.lastTouchSeq.toNat

theorem split_at {l : List Entry} {i : ℕ} (h : i < l.length) :
    ∃ pre e post, l = pre++e::post ∧ i = pre.length ∧ l[i]? = some e := by
  refine ⟨l.take i, l[i], l.drop (i+1), ?_, ?_, List.getElem?_eq_getElem h⟩
  · rw [← List.drop_eq_getElem_cons h, List.take_append_drop]
  · rw [List.length_take, Nat.min_eq_left (Nat.le_of_lt h)]

theorem modify_split (pre post : List Entry) (e : Entry) (f : Entry → Entry) :
    (pre++e::post).modify pre.length f = pre++f e::post := by
  induction pre with
  | nil => rfl
  | cons x pre ih => rw [List.cons_append, List.length_cons, List.modify_succ_cons, ih, List.cons_append]

def Victim (table : List Entry) (idx : ℕ) : Prop :=
  ∃ pre e post, table = pre++e::post ∧ idx = pre.length ∧
    (e.inUse = false ∨ (∀ x ∈ table, x.inUse = true) ∧ ∀ x ∈ table, stamp e ≤ stamp x)

def Oldest (done : List Entry) (touch : UInt32) (idx : ℕ) : Prop :=
  (∀ x ∈ done, x.inUse = true) ∧ ∃ pre e post, done = pre++e::post ∧ idx = pre.length ∧
    e.lastTouchSeq = touch ∧ ∀ x ∈ done, touch.toNat ≤ stamp x

theorem scan_oldest (es done : List Entry) (touch : UInt32) (idx : ℕ)
    (h : Oldest done touch idx) : Victim (done++es) (scanOldest es done.length touch idx) := by
  induction es generalizing done touch idx with
  | nil =>
    obtain ⟨huse, pre, e, post, hdone, hidx, rfl, hmin⟩ := h
    rw [List.append_nil, scanOldest]
    exact ⟨pre, e, post, hdone, hidx, .inr ⟨huse, hmin⟩⟩
  | cons y es ih =>
    obtain ⟨huse, pre, e, post, hdone, hidx, htouch, hmin⟩ := h
    rw [scanOldest]
    have hnext : (done++[y]).length = done.length+1 := List.length_append
    have hlist : done++y::es = (done++[y])++es := List.append_cons ..
    split_ifs with hfree hlt
    · exact ⟨done, y, es, rfl, rfl, .inl (by simpa using hfree)⟩
    · rw [hlist, ← hnext]
      apply ih
      have hlt' : y.lastTouchSeq.toNat < touch.toNat := UInt32.lt_iff_toNat_lt.mp hlt
      constructor
      · simpa [or_imp, forall_and] using ⟨huse, by simpa using hfree⟩
      · refine ⟨done, y, [], rfl, rfl, rfl, ?_⟩
        intro x hx
        rcases List.mem_append.mp hx with hx | hx
        · exact Nat.le_trans (Nat.le_of_lt hlt') (hmin x hx)
        · rw [List.mem_singleton.mp hx]
          exact Nat.le_refl _
    · rw [hlist, ← hnext]
      apply ih
      have hle : touch.toNat ≤ y.lastTouchSeq.toNat := by
        have := mt UInt32.lt_iff_toNat_lt.mpr hlt
        omega
      constructor
      · simpa [or_imp, forall_and] using ⟨huse, by simpa using hfree⟩
      · refine ⟨pre, e, post++[y], by rw [hdone]; simp, hidx, htouch, ?_⟩
        intro x hx
        rcases List.mem_append.mp hx with hx | hx
        · exact hmin x hx
        · rw [List.mem_singleton.mp hx]
          exact hle

theorem find_victim (table : List Entry) (hne : table ≠ [])
    (hmax : ∀ e ∈ table, stamp e < 4294967295) : Victim table (findFreeOrOldest table) := by
  cases table with
  | nil => exact absurd rfl hne
  | cons e es =>
    rw [findFreeOrOldest, scanOldest]
    have hlt : e.lastTouchSeq < 4294967295 := UInt32.lt_iff_toNat_lt.mpr (hmax e (by simp))
    split_ifs with hfree
    · exact ⟨[], e, es, rfl, rfl, .inl (by simpa using hfree)⟩
    · apply scan_oldest es [e]
      constructor
      · simpa using hfree
      · exact ⟨[], e, [], rfl, rfl, rfl, by simp [stamp]⟩

/-- The slots in use are the entries of a list that falls by touch and has each id once. -/
structure Shows (s : Db) (order : List Entry) : Prop where
  slots : s.table.length = 8
  perm : (used s.table).Perm order
  falling : Falling stamp order
  ids : (order.map Entry.nodeId).Nodup
  clock : ∀ e ∈ s.table, stamp e ≤ s.touchClock.toNat

theorem used_split (pre post : List Entry) (e : Entry) :
    used (pre++e::post) = used pre++(used [e]++used post) := by
  rw [used, List.append_cons, List.filter_append, List.filter_append, List.append_assoc]
  rfl

theorem used_one (e : Entry) (h : e.inUse = true) : used [e] = [e] := by
  rw [used, List.filter_cons_of_pos h, List.filter_nil]

theorem others_fit {s : Db} {order : List Entry} (h : Shows s order) {pre post l : List Entry}
    {e : Entry} (htable : s.table = pre++e::post) (hperm : (used pre++used post).Perm l) :
    (used pre++used post).Perm (l.take 7) := by
  have hlen := h.slots
  have hpre : (used pre).length ≤ pre.length := List.length_filter_le _ _
  have hpost : (used post).length ≤ post.length := List.length_filter_le _ _
  rw [htable, List.length_append, List.length_cons] at hlen
  have hroom : l.length ≤ 7 := by
    rw [← hperm.length_eq, List.length_append]
    omega
  rwa [List.take_of_length_le hroom]

theorem known_rest {s : Db} {order : List Entry} (h : Shows s order) (nodeId : UInt32) (idx : ℕ)
    (hfind : findById s.table nodeId = some idx) :
    ∃ pre e post, s.table = pre++e::post ∧ idx = pre.length ∧
      (used pre++used post).Perm ((without Entry.nodeId nodeId order).take 7) := by
  obtain ⟨hidx, hhit, -⟩ := List.findIdx?_eq_some_iff_getElem.mp hfind
  obtain ⟨pre, e, post, htable, hpre, hget⟩ := split_at hidx
  rw [List.getElem?_eq_getElem hidx, Option.some.injEq] at hget
  rw [hget, Bool.and_eq_true, beq_iff_eq] at hhit
  refine ⟨pre, e, post, htable, hpre, others_fit h htable ?_⟩
  have hperm := h.perm
  rw [htable, used_split, used_one e hhit.1] at hperm
  exact hhit.2 ▸ replace_known Entry.nodeId hperm h.ids

theorem new_rest {s : Db} {order : List Entry} (h : Shows s order)
    (hclock : s.touchClock.toNat < 4294967295) :
    ∃ pre e post, s.table = pre++e::post ∧ findFreeOrOldest s.table = pre.length ∧
      (used pre++used post).Perm (order.take 7) := by
  have hne : s.table ≠ [] := List.length_pos_iff.mp (by rw [h.slots]; omega)
  obtain ⟨pre, e, post, htable, hidx, hvictim⟩ := find_victim s.table hne
    (fun x hx => Nat.lt_of_le_of_lt (h.clock x hx) hclock)
  refine ⟨pre, e, post, htable, hidx, ?_⟩
  have hperm := h.perm
  rcases hvictim with hfree | ⟨hfull, hmin⟩
  · have hnone : used [e] = [] := List.filter_cons_of_neg (by simpa using hfree)
    rw [htable, used_split, hnone, List.nil_append] at hperm
    exact others_fit h htable hperm
  · have huse : e.inUse = true := hfull e (by rw [htable]; simp)
    have hall : used s.table = s.table := List.filter_eq_self.mpr hfull
    have hlen : order.length = 8 := by rw [← hperm.length_eq, hall, h.slots]
    have hdrop : order.take 7 = order.dropLast := by rw [List.dropLast_eq_take, hlen]
    rw [hdrop]
    rw [htable, used_split, used_one e huse] at hperm
    exact replace_oldest stamp hperm h.falling
      (fun x hx => hmin x (List.mem_filter.mp (h.perm.symm.subset hx)).1)

theorem slot_rest {s : Db} {order : List Entry} (h : Shows s order) (nodeId : UInt32)
    (hclock : s.touchClock.toNat < 4294967295) :
    ∃ pre e post, s.table = pre++e::post ∧ slotFor s.table nodeId = pre.length ∧
      (used pre++used post).Perm ((without Entry.nodeId nodeId order).take 7) := by
  rw [slotFor]
  cases hfind : findById s.table nodeId with
  | some idx => exact known_rest h nodeId idx hfind
  | none =>
    have hnew : nodeId ∉ order.map Entry.nodeId := by
      intro hmem
      obtain ⟨x, hx, rfl⟩ := List.mem_map.mp hmem
      obtain ⟨hxt, hxu⟩ := List.mem_filter.mp (h.perm.symm.subset hx)
      have := List.findIdx?_eq_none_iff.mp hfind x hxt
      simp [hxu] at this
    rw [without_eq_self _ _ _ hnew]
    exact new_rest h hclock

theorem upsert_shows {s : Db} {order : List Entry} (h : Shows s order) (u : Update)
    (hu : u.nodeId ≠ 0) (hclock : s.touchClock.toNat+1 < 4294967295) :
    ∃ e, Shows (upsert s u)
      (fill u (s.touchClock+1) e::(without Entry.nodeId u.nodeId order).take 7) ∧
      (upsert s u).touchClock.toNat = s.touchClock.toNat+1 := by
  obtain ⟨pre, e, post, htable, hslot, hrest⟩ := slot_rest h u.nodeId (by omega)
  have htick : (s.touchClock+1).toNat = s.touchClock.toNat+1 := by
    rw [UInt32.toNat_add]
    show (s.touchClock.toNat+1) % 4294967296 = _
    omega
  have hnext : upsert s u =
      ⟨pre++fill u (s.touchClock+1) e::post, s.changeSeq+1, s.touchClock+1⟩ := by
    rw [upsert, if_neg hu, hslot]
    dsimp only
    rw [htable, modify_split]
  have hsub : ∀ x ∈ (without Entry.nodeId u.nodeId order).take 7, x ∈ order ∧ x.nodeId ≠ u.nodeId :=
    fun x hx => (mem_without _ _ _ _).mp (List.mem_of_mem_take hx)
  have hold : ∀ x ∈ order, stamp x < s.touchClock.toNat+1 := fun x hx =>
    Nat.lt_succ_of_le (h.clock x (List.mem_filter.mp (h.perm.symm.subset hx)).1)
  refine ⟨e, ?_, by rw [hnext, htick]⟩
  rw [hnext]
  constructor
  · have := h.slots
    rw [htable, List.length_append, List.length_cons] at this
    rwa [List.length_append, List.length_cons]
  · rw [used_split, used_one (fill u (s.touchClock+1) e) rfl]
    exact List.perm_middle.trans (hrest.cons _)
  · refine List.pairwise_cons.mpr ⟨fun x hx => ?_, ?_⟩
    · show stamp x < (s.touchClock+1).toNat
      rw [htick]
      exact hold x (hsub x hx).1
    · exact h.falling.sublist ((List.take_sublist 7 _).trans List.filter_sublist)
  · rw [List.map_cons, List.nodup_cons]
    constructor
    · intro hmem
      obtain ⟨x, hx, hid⟩ := List.mem_map.mp hmem
      exact (hsub x hx).2 hid
    · exact (without_nodup _ _ _ h.ids).sublist ((List.take_sublist 7 _).map _)
  · intro x hx
    show stamp x ≤ (s.touchClock+1).toNat
    rw [htick]
    have hcases : x = fill u (s.touchClock+1) e ∨ x ∈ s.table := by
      rw [htable]
      simp only [List.mem_append, List.mem_cons] at hx ⊢
      tauto
    rcases hcases with rfl | hx
    · exact Nat.le_of_eq htick
    · exact Nat.le_succ_of_le (h.clock x hx)

def Best (prevHigh : UInt32) (seen : List Entry) (touch : UInt32) : Option ℕ → Prop
  | none => touch = 0 ∧ ∀ x ∈ seen, x.inUse = true → ¬ x.lastTouchSeq < prevHigh
  | some i => ∃ e, seen[i]? = some e ∧ e.inUse = true ∧ e.lastTouchSeq = touch ∧
      touch < prevHigh ∧
      ∀ x ∈ seen, x.inUse = true → x.lastTouchSeq < prevHigh → x.lastTouchSeq ≤ touch

theorem best_skip {prevHigh touch : UInt32} {seen : List Entry} {idx : Option ℕ} (y : Entry)
    (h : Best prevHigh seen touch idx)
    (hy : ¬ (y.inUse && (y.lastTouchSeq < prevHigh && y.lastTouchSeq ≥ touch)) = true) :
    Best prevHigh (seen++[y]) touch idx := by
  simp only [Bool.and_eq_true, decide_eq_true_eq, not_and] at hy
  cases idx with
  | none =>
    obtain ⟨rfl, hnone⟩ := h
    refine ⟨rfl, fun x hx huse hlt => ?_⟩
    rcases List.mem_append.mp hx with hx | hx
    · exact hnone x hx huse hlt
    · rw [List.mem_singleton.mp hx] at huse hlt
      exact hy huse hlt (UInt32.le_iff_toNat_le.mpr (Nat.zero_le _))
  | some i =>
    obtain ⟨e, hget, huse, htouch, hlt, hmax⟩ := h
    have hi : i < seen.length := (List.getElem?_eq_some_iff.mp hget).1
    refine ⟨e, by rw [List.getElem?_append_left hi, hget], huse, htouch, hlt, ?_⟩
    intro x hx hxu hxl
    rcases List.mem_append.mp hx with hx | hx
    · exact hmax x hx hxu hxl
    · rw [List.mem_singleton.mp hx] at hxu hxl ⊢
      have := mt UInt32.le_iff_toNat_le.mpr (hy hxu hxl)
      exact UInt32.le_iff_toNat_le.mpr (by omega)

theorem best_take {prevHigh touch : UInt32} {seen : List Entry} {idx : Option ℕ} (y : Entry)
    (h : Best prevHigh seen touch idx) (huse : y.inUse = true) (hlt : y.lastTouchSeq < prevHigh)
    (hge : touch ≤ y.lastTouchSeq) :
    Best prevHigh (seen++[y]) y.lastTouchSeq (some seen.length) := by
  refine ⟨y, List.getElem?_concat_length, huse, rfl, hlt, fun x hx hxu hxl => ?_⟩
  rcases List.mem_append.mp hx with hx | hx
  · cases idx with
    | none => exact absurd hxl (h.2 x hx hxu)
    | some i =>
      obtain ⟨e, -, -, -, -, hmax⟩ := h
      exact UInt32.le_trans (hmax x hx hxu hxl) hge
  · rw [List.mem_singleton.mp hx]
    exact UInt32.le_refl _

theorem scan_best (prevHigh : UInt32) (es seen : List Entry) (touch : UInt32) (idx : Option ℕ)
    (h : Best prevHigh seen touch idx) :
    Best prevHigh (seen++es) (scanPass prevHigh es seen.length touch idx).1
      (scanPass prevHigh es seen.length touch idx).2 := by
  induction es generalizing seen touch idx with
  | nil => rwa [List.append_nil, scanPass]
  | cons y es ih =>
    have hnext : (seen++[y]).length = seen.length+1 := List.length_append
    rw [scanPass, List.append_cons, ← hnext]
    split_ifs with hy
    · have hy' := hy
      simp only [Bool.and_eq_true, decide_eq_true_eq] at hy'
      exact ih _ _ _ (best_take y h hy'.1 hy'.2.1 hy'.2.2)
    · exact ih _ _ _ (best_skip y h hy)

structure Below (table : List Entry) (prevHigh : UInt32) (rest : List Entry) : Prop where
  falling : Falling stamp rest
  mem : ∀ e, e ∈ rest ↔ e ∈ table ∧ e.inUse = true ∧ e.lastTouchSeq < prevHigh

theorem pass_best (table : List Entry) (prevHigh : UInt32) :
    Best prevHigh table (scanPass prevHigh table 0 0 none).1 (scanPass prevHigh table 0 0 none).2 :=
  scan_best prevHigh table [] 0 none ⟨rfl, by simp⟩

theorem pass_nil {table : List Entry} {prevHigh : UInt32} (h : Below table prevHigh []) :
    (scanPass prevHigh table 0 0 none).2 = none := by
  have hbest := pass_best table prevHigh
  cases hidx : (scanPass prevHigh table 0 0 none).2 with
  | none => rfl
  | some i =>
    rw [hidx] at hbest
    obtain ⟨e, hget, huse, htouch, hlt, -⟩ := hbest
    exact absurd ((h.mem e).mpr ⟨List.mem_of_getElem? hget, huse, htouch ▸ hlt⟩) (by simp)

theorem pass_cons {table rest : List Entry} {prevHigh : UInt32} {e : Entry}
    (h : Below table prevHigh (e::rest)) :
    ∃ i, scanPass prevHigh table 0 0 none = (e.lastTouchSeq, some i) ∧ table[i]? = some e := by
  obtain ⟨het, heu, hel⟩ := (h.mem e).mp (by simp)
  have hbest := pass_best table prevHigh
  cases hscan : scanPass prevHigh table 0 0 none with
  | mk touch idx =>
    rw [hscan] at hbest
    cases idx with
    | none => exact absurd hel (hbest.2 e het heu)
    | some i =>
      obtain ⟨x, hget, hxu, rfl, hxl, hmax⟩ := hbest
      have hx : x ∈ e::rest := (h.mem x).mpr ⟨List.mem_of_getElem? hget, hxu, hxl⟩
      have hxe : x = e :=
        falling_first stamp h.falling hx (UInt32.le_iff_toNat_le.mp (hmax e het heu hel))
      rw [hxe] at hget ⊢
      exact ⟨i, rfl, hget⟩

theorem below_tail {table rest : List Entry} {prevHigh : UInt32} {e : Entry}
    (h : Below table prevHigh (e::rest)) : Below table e.lastTouchSeq rest := by
  have hpair := List.pairwise_cons.mp h.falling
  obtain ⟨-, -, hel⟩ := (h.mem e).mp (by simp)
  refine ⟨hpair.2, fun x => ⟨fun hx => ?_, fun ⟨hxt, hxu, hxl⟩ => ?_⟩⟩
  · obtain ⟨hxt, hxu, -⟩ := (h.mem x).mp (by simp [hx])
    exact ⟨hxt, hxu, UInt32.lt_iff_toNat_lt.mpr (hpair.1 x hx)⟩
  · rcases List.mem_cons.mp ((h.mem x).mpr ⟨hxt, hxu, UInt32.lt_trans hxl hel⟩) with rfl | hx
    · exact absurd hxl (UInt32.lt_irrefl _)
    · exact hx

theorem take_passes {table rest : List Entry} {prevHigh : UInt32} (h : Below table prevHigh rest)
    (n : ℕ) : takePasses table n prevHigh = rest[n]? := by
  induction n generalizing rest prevHigh with
  | zero =>
    rw [takePasses]
    cases rest with
    | nil => rw [pass_nil h, Option.bind_none, List.getElem?_nil]
    | cons e rest =>
      obtain ⟨i, hscan, hget⟩ := pass_cons h
      rw [hscan, Option.bind_some, hget, List.getElem?_cons_zero]
  | succ n ih =>
    rw [takePasses]
    cases rest with
    | nil =>
      rw [pass_nil h, List.getElem?_nil]
      rfl
    | cons e rest =>
      obtain ⟨i, hscan, -⟩ := pass_cons h
      rw [hscan, List.getElem?_cons_succ]
      exact ih (below_tail h)

/-- An update as the bridge makes it: of a node, with an alias of the length given. -/
structure Report extends Update where
  nonzero : nodeId ≠ 0
  readable : aliasLen ≠ 0 → ∃ t, aliasText = some t ∧ aliasLen.toNat ≤ t.length

structure Node where
  nodeId : UInt32
  rssi : Int16
  snrX4 : Int8
  hopsAway : UInt8
  latE7 : Int32
  lonE7 : Int32
  batteryMv : UInt16
  aliasText : Bytes

def Entry.shown (e : Entry) : Node :=
  ⟨e.nodeId, e.rssi, e.snrX4, e.hopsAway, e.latE7, e.lonE7, e.batteryMv,
    segment e.aliasText 0 e.aliasLen.toNat⟩

def Update.body (u : Update) : Bytes := (u.aliasText.getD []).take u.aliasLen.toNat

def Update.node (u : Update) : Node :=
  ⟨u.nodeId, u.rssi, u.snrX4, u.hopsAway, u.latE7, u.lonE7, u.batteryMv, u.body.take 16⟩

def updated (us : List Report) : Db := us.foldl (fun s u => upsert s u.toUpdate) empty

def lastNodes (us : List Report) : List Node :=
  (recent Node.nodeId (us.map (fun u => u.node)).reverse).take 8

theorem cut_toNat (aliasLen : UInt8) : (cut aliasLen).toNat = min aliasLen.toNat 16 := by
  rw [cut]
  split_ifs with h
  · have hlt : 16 < aliasLen.toNat := UInt8.lt_iff_toNat_lt.mp h
    show 16 = _
    omega
  · have hle : aliasLen.toNat ≤ 16 := UInt8.le_iff_toNat_le.mp (UInt8.not_lt.mp h)
    omega

theorem copy_alias (slot : Buffer) (u : Report) :
    segment (copyAlias slot u.aliasText (cut u.aliasLen)) 0 (cut u.aliasLen).toNat =
      u.body.take 16 := by
  rw [cut_toNat, Update.body, List.take_take]
  by_cases hzero : u.aliasLen = 0
  · rw [hzero]
    rfl
  · obtain ⟨t, ht, hlen⟩ := u.readable hzero
    have hpos : cut u.aliasLen > 0 := by
      apply UInt8.lt_iff_toNat_lt.mpr
      have hne : u.aliasLen.toNat ≠ 0 := fun h => hzero (UInt8.toNat_inj.mp h)
      rw [cut_toNat, UInt8.toNat_zero]
      omega
    rw [ht, copyAlias, if_pos hpos, cut_toNat, Option.getD_some, Nat.min_comm 16]
    exact segment_copyIn_take slot t _ (by omega)

theorem fill_shown (u : Report) (touch : UInt32) (e : Entry) :
    (fill u.toUpdate touch e).shown = u.node := by
  rw [Entry.shown, fill, copy_alias, Update.node]

theorem empty_shows : Shows empty [] where
  slots := rfl
  perm := List.Perm.refl _
  falling := List.Pairwise.nil
  ids := List.nodup_nil
  clock := fun _ he => (List.mem_replicate.mp he).2 ▸ Nat.le_refl _

theorem updated_shows (us : List Report) (h : us.length < 4294967295) :
    ∃ order, Shows (updated us) order ∧ order.map Entry.shown = lastNodes us ∧
      (updated us).touchClock.toNat = us.length := by
  induction us using List.reverseRecOn with
  | nil => exact ⟨[], empty_shows, rfl, rfl⟩
  | append_singleton us u ih =>
    rw [List.length_append, List.length_singleton] at h
    obtain ⟨order, hshows, hmap, hclock⟩ := ih (by omega)
    obtain ⟨e, hnext, htick⟩ := upsert_shows hshows u.toUpdate u.nonzero (by omega)
    have hlast : updated (us++[u]) = upsert (updated us) u.toUpdate := List.foldl_concat ..
    rw [hlast, List.length_append, List.length_singleton, htick, hclock]
    refine ⟨_, hnext, ?_, rfl⟩
    have hid : ∀ x : Entry, x.shown.nodeId = x.nodeId := fun _ => rfl
    rw [lastNodes, List.map_append, List.map_singleton, List.reverse_concat, recent_take,
      List.take_succ_cons, ← lastNodes, ← hmap, List.map_cons, fill_shown, List.map_take,
      map_without Entry.nodeId Node.nodeId Entry.shown hid]
    rfl

/-- The table is the list of the nodes last reported, at most eight and each once: the reader
finds at each index the node there, with the fields of its latest report, and none from the
count on. -/
theorem db_shows_last (us : List Report) (h : us.length < 4294967295) :
    ((lastNodes us).map Node.nodeId).Nodup ∧ count (updated us) = (lastNodes us).length ∧
    ∀ index : UInt32, (takeAt (updated us) index).map Entry.shown = (lastNodes us)[index.toNat]? := by
  obtain ⟨order, hshows, hmap, hclock⟩ := updated_shows us h
  have hnodup := recent_nodup Node.nodeId (us.map (fun u => u.node)).reverse
  refine ⟨hnodup.sublist ((List.take_sublist 8 _).map _), ?_, ?_⟩
  · rw [count, hshows.perm.length_eq, ← hmap, List.length_map]
  · intro index
    have hbelow : Below (updated us).table 4294967295 order := by
      refine ⟨hshows.falling, fun e => ?_⟩
      rw [← hshows.perm.mem_iff, used, List.mem_filter]
      constructor
      · rintro ⟨het, heu⟩
        have := hshows.clock e het
        exact ⟨het, heu, UInt32.lt_iff_toNat_lt.mpr (by show stamp e < 4294967295; omega)⟩
      · rintro ⟨het, heu, -⟩
        exact ⟨het, heu⟩
    rw [takeAt, take_passes hbelow, ← hmap, List.getElem?_map]

theorem db_shows_last_two :
    let a : Report := ⟨⟨7, -90, 20, 2, 250000000, 1210000000, 3700, some [65, 66], 2⟩, by decide,
      fun _ => ⟨[65, 66], rfl, by decide⟩⟩
    let b : Report := ⟨⟨9, -80, 24, 0, 0, 0, 0, none, 0⟩, by decide, fun h => absurd rfl h⟩
    ((lastNodes [a, b, a]).map Node.nodeId).Nodup ∧
    count (updated [a, b, a]) = (lastNodes [a, b, a]).length ∧
    ∀ index : UInt32, (takeAt (updated [a, b, a]) index).map Entry.shown =
      (lastNodes [a, b, a])[index.toNat]? :=
  db_shows_last _ (by decide)

end MokyaLora.NodesDb
