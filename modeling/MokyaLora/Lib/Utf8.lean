import MokyaLora.Lib.Fields

/-!
# UTF-8 strings and their boundaries

A string is well formed when it encodes some characters. Its bytes are first bytes
and bytes that continue a character, and a string may be cut in front of every byte
of the first kind.
-/

set_option autoImplicit false

namespace Lib.Utf8
open Lib.Fields

def encode (cs : List Char) : Bytes := cs.flatMap String.utf8EncodeChar

def WellFormed (b : Bytes) : Prop := ∃ cs, b = encode cs

def continues (x : UInt8) : Bool := x &&& 0xC0 == 0x80

def Boundary (b : Bytes) (i : ℕ) : Prop := ∀ x, b[i]? = some x → continues x = false

theorem encode_char (c : Char) : ∃ x xs, String.utf8EncodeChar c = x::xs ∧
    continues x = false ∧ ∀ y ∈ xs, continues y = true := by
  have hone : ∀ n < 128, continues (UInt8.ofNat n) = false := by decide
  have htwo : ∀ n < 32, continues (UInt8.ofNat (n+0xC0)) = false := by decide
  have hthree : ∀ n < 16, continues (UInt8.ofNat (n+0xE0)) = false := by decide
  have hfour : ∀ n < 8, continues (UInt8.ofNat (n+0xF0)) = false := by decide
  have hmore : ∀ n < 64, continues (UInt8.ofNat (n+0x80)) = true := by decide
  have hmod : ∀ n : ℕ, continues (UInt8.ofNat (n % 0x40+0x80)) = true :=
    fun n => hmore _ (Nat.mod_lt n (by decide))
  unfold String.utf8EncodeChar
  dsimp only
  split
  · exact ⟨_, _, rfl, hone _ (by omega), by simp⟩
  · split
    · exact ⟨_, _, rfl, htwo _ (Nat.mod_lt _ (by decide)),
        List.forall_mem_singleton.mpr (hmod _)⟩
    · split
      · exact ⟨_, _, rfl, hthree _ (Nat.mod_lt _ (by decide)),
          List.forall_mem_cons.mpr ⟨hmod _, List.forall_mem_singleton.mpr (hmod _)⟩⟩
      · exact ⟨_, _, rfl, hfour _ (Nat.mod_lt _ (by decide)),
          List.forall_mem_cons.mpr ⟨hmod _, List.forall_mem_cons.mpr
            ⟨hmod _, List.forall_mem_singleton.mpr (hmod _)⟩⟩⟩

theorem well_formed_nil : WellFormed [] := ⟨[], rfl⟩

theorem well_formed_append {a b : Bytes} (ha : WellFormed a) (hb : WellFormed b) :
    WellFormed (a++b) := by
  obtain ⟨cs, rfl⟩ := ha
  obtain ⟨ds, rfl⟩ := hb
  exact ⟨cs++ds, by rw [encode, encode, encode, List.flatMap_append]⟩

theorem boundary_zero {b : Bytes} (h : WellFormed b) : Boundary b 0 := by
  obtain ⟨cs, rfl⟩ := h
  cases cs with
  | nil => exact fun x hx => by cases hx
  | cons c cs =>
    obtain ⟨y, ys, hc, hy, -⟩ := encode_char c
    intro x hx
    rw [encode, List.flatMap_cons, hc, List.cons_append, List.getElem?_cons_zero,
      Option.some.injEq] at hx
    exact hx ▸ hy

theorem boundary_length (b : Bytes) (i : ℕ) (h : b.length ≤ i) : Boundary b i := by
  intro x hx
  rw [List.getElem?_eq_none h] at hx
  cases hx

theorem boundary_append {a b : Bytes} (hb : WellFormed b) : Boundary (a++b) a.length := by
  intro x hx
  rw [List.getElem?_append_right (le_refl _), Nat.sub_self] at hx
  exact boundary_zero hb x hx

theorem encode_first (c d : Char) (a b : Bytes)
    (h : String.utf8EncodeChar c++a = String.utf8EncodeChar d++b) : c = d := by
  have hbytes := congrArg (fun l : Bytes => l.toByteArray.utf8DecodeChar? 0) h
  simp only [List.toByteArray_append, ByteArray.utf8DecodeChar?_utf8EncodeChar_append,
    Option.some.injEq] at hbytes
  exact hbytes

theorem well_formed_cancel {a b : Bytes} (hab : WellFormed (a++b)) (ha : WellFormed a) :
    WellFormed b := by
  obtain ⟨cs, rfl⟩ := ha
  obtain ⟨ds, hds⟩ := hab
  induction cs generalizing ds with
  | nil => exact ⟨ds, hds⟩
  | cons c cs ih =>
    rw [encode, List.flatMap_cons, List.append_assoc] at hds
    cases ds with
    | nil =>
      have hlen := congrArg List.length hds
      obtain ⟨x, xs, hc, -, -⟩ := encode_char c
      rw [hc] at hlen
      simp [encode] at hlen
    | cons d ds =>
      rw [encode, List.flatMap_cons] at hds
      have hcd := encode_first c d _ _ hds
      rw [hcd] at hds
      exact ih ds (List.append_cancel_left hds)

theorem well_formed_cut {b : Bytes} (h : WellFormed b) (i : ℕ) (hi : Boundary b i) :
    WellFormed (b.take i) ∧ WellFormed (b.drop i) := by
  obtain ⟨cs, rfl⟩ := h
  induction cs generalizing i with
  | nil =>
    rw [encode, List.flatMap_nil, List.take_nil, List.drop_nil]
    exact ⟨well_formed_nil, well_formed_nil⟩
  | cons c cs ih =>
    obtain ⟨x, xs, hc, -, hxs⟩ := encode_char c
    have hcons : encode (c::cs) = (x::xs)++encode cs := by rw [encode, List.flatMap_cons, hc, encode]
    have hchar : WellFormed (x::xs) := ⟨[c], by rw [encode, List.flatMap_singleton, hc]⟩
    rw [hcons] at hi ⊢
    rcases Nat.eq_zero_or_pos i with rfl | hpos
    · exact ⟨well_formed_nil, well_formed_append hchar ⟨cs, rfl⟩⟩
    · by_cases hlt : i < (x::xs).length
      · have hin : i-1 < xs.length := by
          rw [List.length_cons] at hlt
          omega
        have hget : ((x::xs)++encode cs)[i]? = some xs[i-1] := by
          rw [List.getElem?_append_left hlt, List.getElem?_cons, if_neg (by omega)]
          exact List.getElem?_eq_getElem hin
        have hfalse := hi _ hget
        rw [hxs _ (List.getElem_mem hin)] at hfalse
        cases hfalse
      · have hle : (x::xs).length ≤ i := not_lt.mp hlt
        have hrest : Boundary (encode cs) (i-(x::xs).length) := by
          intro y hy
          apply hi y
          rwa [List.getElem?_append_right hle]
        obtain ⟨htake, hdrop⟩ := ih _ hrest
        rw [List.take_append, List.drop_append, List.take_of_length_le hle,
          List.drop_eq_nil_of_le hle]
        exact ⟨well_formed_append hchar htake, hdrop⟩

/-- A well-formed string is cut into well-formed strings only at a boundary. -/
theorem boundary_of_cut {b : Bytes} (h : WellFormed b) (i : ℕ) (hi : WellFormed (b.take i)) :
    Boundary b i := by
  by_cases hle : b.length ≤ i
  · exact boundary_length b i hle
  · rw [← List.take_append_drop i b] at h ⊢
    have hb := boundary_append (a := b.take i) (well_formed_cancel h hi)
    rwa [List.length_take, Nat.min_eq_left (by omega)] at hb

theorem encode_append (cs ds : List Char) : encode (cs++ds) = encode cs++encode ds :=
  List.flatMap_append

theorem encode_singleton (c : Char) : encode [c] = String.utf8EncodeChar c :=
  List.flatMap_singleton ..

theorem encode_eq_nil (cs : List Char) : encode cs = [] ↔ cs = [] := by
  cases cs with
  | nil => exact iff_of_true rfl rfl
  | cons c cs =>
    obtain ⟨x, xs, hc, -, -⟩ := encode_char c
    rw [encode, List.flatMap_cons, hc]
    exact iff_of_false (List.cons_ne_nil _ _) (List.cons_ne_nil _ _)

theorem encode_injective {cs ds : List Char} (h : encode cs = encode ds) : cs = ds := by
  induction cs generalizing ds with
  | nil => exact ((encode_eq_nil ds).mp h.symm).symm
  | cons c cs ih =>
    cases ds with
    | nil => exact (encode_eq_nil _).mp h
    | cons d ds =>
      rw [encode, encode, List.flatMap_cons, List.flatMap_cons] at h
      obtain rfl := encode_first c d _ _ h
      rw [ih (List.append_cancel_left h)]

theorem well_formed_front {a b : Bytes} (hab : WellFormed (a++b)) (hb : WellFormed b) :
    WellFormed a := by
  have hcut := well_formed_cut hab a.length (boundary_append hb)
  rw [List.take_left] at hcut
  exact hcut.1

theorem encode_suffix_iff (ds : List Char) (d c : Char) :
    encode [c] <:+ encode (ds++[d]) ↔ c = d := by
  constructor
  · rintro ⟨a, ha⟩
    have hwf : WellFormed (a++encode [c]) := ⟨_, ha⟩
    obtain ⟨cs, rfl⟩ := well_formed_front hwf ⟨[c], rfl⟩
    rw [← encode_append] at ha
    have hlast := congrArg List.getLast? (encode_injective ha)
    rw [List.getLast?_concat, List.getLast?_concat, Option.some.injEq] at hlast
    exact hlast
  · rintro rfl
    exact ⟨encode ds, (encode_append ds [c]).symm⟩

end Lib.Utf8
