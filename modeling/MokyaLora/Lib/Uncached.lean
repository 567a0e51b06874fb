import MokyaLora.Lib.Memory

/-!
# Memory written around its cache

Blocks are copied to the memory directly, and a cache may still hold what stood there
before. A reader goes through the cache, so it sees a block once the lines over it were
invalidated.
-/

set_option autoImplicit false

namespace Lib.Uncached
open Lib.Fields Lib.Memory

structure Cached where
  mem : Buffer
  line : ℕ → Option UInt8

def read (m : Cached) (i : ℕ) : UInt8 := (m.line i).getD (m.mem i)

def shown (m : Cached) (off n : ℕ) : Bytes := (List.range n).map (fun i => read m (off+i))

structure Block where
  dst : ℕ
  bytes : Bytes

def Apart (t u : Block) : Prop := t.dst+t.bytes.length ≤ u.dst ∨ u.dst+u.bytes.length ≤ t.dst

def copyAll (b : Buffer) (ts : List Block) : Buffer :=
  ts.foldl (fun b t => copyIn b t.dst t.bytes) b

def invalidate (line : ℕ → Option UInt8) (r : ℕ × ℕ) : ℕ → Option UInt8 :=
  fun i => if r.1 ≤ i ∧ i < r.1+r.2 then none else line i

def transfer (m : Cached) (ts : List Block) (rs : List (ℕ × ℕ)) : Cached :=
  ⟨copyAll m.mem ts, rs.foldl invalidate m.line⟩

theorem copyAll_other (ts : List Block) (b : Buffer) (off n : ℕ)
    (h : ∀ t ∈ ts, off+n ≤ t.dst ∨ t.dst+t.bytes.length ≤ off) :
    segment (copyAll b ts) off n = segment b off n := by
  induction ts generalizing b with
  | nil => rfl
  | cons t ts ih =>
    rw [copyAll, List.foldl_cons]
    exact (ih _ (fun u hu => h u (by simp [hu]))).trans
      (segment_copyIn_of_disjoint b t.dst t.bytes off n (h t (by simp)))

theorem copyAll_block (ts : List Block) (b : Buffer) (h : ts.Pairwise Apart) (t : Block)
    (ht : t ∈ ts) : segment (copyAll b ts) t.dst t.bytes.length = t.bytes := by
  induction ts generalizing b with
  | nil => cases ht
  | cons u ts ih =>
    obtain ⟨hu, hts⟩ := List.pairwise_cons.mp h
    rw [copyAll, List.foldl_cons]
    rcases List.mem_cons.mp ht with rfl | ht
    · exact (copyAll_other ts _ _ _ (fun v hv => hu v hv)).trans (segment_copyIn b t.dst t.bytes)
    · exact ih _ hts ht

theorem invalidate_none (rs : List (ℕ × ℕ)) (line : ℕ → Option UInt8) (i : ℕ)
    (h : line i = none ∨ ∃ r ∈ rs, r.1 ≤ i ∧ i < r.1+r.2) : rs.foldl invalidate line i = none := by
  induction rs generalizing line with
  | nil => exact h.resolve_right (by simp)
  | cons r rs ih =>
    apply ih
    rcases h with h | ⟨q, hq, hin⟩
    · left
      rw [invalidate, h, ite_self]
    · rcases List.mem_cons.mp hq with rfl | hq
      · exact .inl (if_pos hin)
      · exact .inr ⟨q, hq, hin⟩

/-- A reader sees every part of a block whose range was invalidated. -/
theorem transfer_shown (m : Cached) {ts : List Block} {rs : List (ℕ × ℕ)} (h : ts.Pairwise Apart)
    {t : Block} (ht : t ∈ ts) {r : ℕ × ℕ} (hr : r ∈ rs) (hlo : r.1 ≤ t.dst)
    (hhi : t.dst+t.bytes.length ≤ r.1+r.2) (k n : ℕ) (hkn : k+n ≤ t.bytes.length) :
    shown (transfer m ts rs) (t.dst+k) n = slice t.bytes k n := by
  have hseg : segment (copyAll m.mem ts) (t.dst+k) n = slice t.bytes k n := by
    rw [slice, ← copyAll_block ts m.mem h t ht, segment_drop _ _ _ _ (by omega),
      segment_take _ _ _ _ (by omega)]
  rw [← hseg]
  apply List.map_congr_left
  intro i hi
  have hin := List.mem_range.mp hi
  have hline := invalidate_none rs m.line (t.dst+k+i) (.inr ⟨r, hr, by omega, by omega⟩)
  rw [read, transfer]
  dsimp only
  rw [hline, Option.getD_none]

end Lib.Uncached
