import MokyaLora.Lib.Fields

/-!
# Readers of byte strings

A reader takes fields from a position on and stops behind them, or fails where the bytes
end. `Reads b r l a` says that it reads `a` wherever `l` stands in `b`, so that a
reader of records is checked against their layout part by part.
-/

set_option autoImplicit false

namespace Lib.ByteReader
open Lib.Fields

abbrev Reader (α : Type) := StateT ℕ Option α

variable {α β γ : Type}

def byte (b : Bytes) : Reader ℕ := fun o => (readByte b o).map (fun n => (n, o+1))

def half (b : Bytes) : Reader ℕ := fun o => (read16 b o).map (fun n => (n, o+2))

def word (b : Bytes) : Reader ℕ := fun o => (read32 b o).map (fun n => (n, o+4))

/-- A slice, which is cut where the bytes end. -/
def bytes (b : Bytes) (n : ℕ) : Reader Bytes := fun o => some (slice b o n, o+n)

def many (r : Reader α) : ℕ → Reader (List α)
  | 0 => pure []
  | n+1 => do
    let a ← r
    let as ← many r n
    pure (a::as)

def Reads (b : Bytes) (r : Reader α) (l : Bytes) (a : α) : Prop :=
  ∀ o, At b o l → r o = some (a, o+l.length)

theorem reads_pure (b : Bytes) (a : α) : Reads b (pure a) [] a := fun _ _ => rfl

theorem reads_bind {b : Bytes} {r : Reader α} {f : α → Reader β} {l m : Bytes} {a : α} {c : β}
    (hr : Reads b r l a) (hf : Reads b (f a) m c) : Reads b (r >>= f) (l++m) c := by
  intro o h
  obtain ⟨hl, hm⟩ := (at_append _ _ _ _).mp h
  show (r o).bind (fun p => f p.1 p.2) = _
  rw [hr o hl, Option.bind_some, hf _ hm, List.length_append, Nat.add_assoc]

theorem reads_map {b : Bytes} {r : Reader α} {l : Bytes} {a : α} (f : α → β)
    (hr : Reads b r l a) : Reads b (r >>= fun x => pure (f x)) l (f a) := by
  have h := reads_bind (f := fun x => pure (f x)) hr (reads_pure b (f a))
  rwa [List.append_nil] at h

theorem reads_lift {b : Bytes} {x : Option α} {a : α} (h : x = some a) :
    Reads b (StateT.lift x) [] a := by
  intro o _
  rw [h]
  rfl

theorem reads_byte (b : Bytes) (n : ℕ) (hn : n < 256) : Reads b (byte b) [UInt8.ofNat n] n := by
  intro o h
  rw [byte, readByte_at h, UInt8.toNat_ofNat', Nat.mod_eq_of_lt hn]
  rfl

theorem reads_half (b : Bytes) (n : ℕ) (hn : n < 65536) : Reads b (half b) (le16 n) n := by
  intro o h
  have hfits : o+2 ≤ b.length := h.fits (List.cons_ne_nil _ _)
  rw [half, read16, if_pos hfits, load16_at hn h]
  rfl

theorem reads_word (b : Bytes) (n : ℕ) (hn : n < 4294967296) : Reads b (word b) (le32 n) n := by
  intro o h
  rw [word, read32_at hn h]
  rfl

theorem reads_bytes (b l : Bytes) : Reads b (bytes b l.length) l l := by
  intro o h
  rw [bytes, h.slice_eq]

theorem reads_many {b : Bytes} {r : Reader α} (f : γ → Bytes) (g : γ → α) (cs : List γ)
    (h : ∀ c ∈ cs, Reads b r (f c) (g c)) :
    Reads b (many r cs.length) (cs.flatMap f) (cs.map g) := by
  induction cs with
  | nil => exact reads_pure b []
  | cons c cs ih =>
    have hrest := ih (fun d hd => h d (List.mem_cons_of_mem c hd))
    exact reads_bind (h c List.mem_cons_self) (reads_map (fun as => g c::as) hrest)

theorem reads_halves (b : Bytes) (ns : List ℕ) (hn : ∀ n ∈ ns, n < 65536) :
    Reads b (many (half b) ns.length) (ns.flatMap le16) ns := by
  have h := reads_many (r := half b) le16 id ns (fun n hmem => reads_half b n (hn n hmem))
  rwa [List.map_id] at h

theorem reads_words (b : Bytes) (ns : List ℕ) (hn : ∀ n ∈ ns, n < 4294967296) :
    Reads b (many (word b) ns.length) (ns.flatMap le32) ns := by
  have h := reads_many (r := word b) le32 id ns (fun n hmem => reads_word b n (hn n hmem))
  rwa [List.map_id] at h

end Lib.ByteReader
