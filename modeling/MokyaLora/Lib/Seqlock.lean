import MokyaLora.Lib.Memory
import MokyaLora.Lib.Schedule
import Mathlib.Data.List.Induction
import Mathlib.Data.List.TakeWhile

/-!
# Blocks of memory behind a sequence counter

A block begins with a magic word and a counter. Its only writer makes the counter odd,
stores into the body and makes the counter even again. A reader takes the block byte by
byte from its first one, while the writer goes on, and then looks at the counter once
more. It keeps what it has read if the counter is even and has not changed.

The counter itself is read byte by byte and it wraps, so a reading may show a number that
never stood there. If the counter moves by less than 256 from the first of its bytes to
the second look, then that byte alone tells the numbers apart, and what the reader keeps is
one publication.
-/

set_option autoImplicit false

namespace Lib.Seqlock
open Lib.Fields Lib.Memory Lib.Schedule

/-- One store instruction; its bytes change together. -/
structure Store where
  off : ℕ
  bytes : Bytes

def apply (mem : Buffer) (w : Store) : Buffer := copyIn mem w.off w.bytes

def applyAll (mem : Buffer) (ws : List Store) : Buffer := ws.foldl apply mem

def word (mem : Buffer) (off : ℕ) : ℕ := load32 (Memory.segment mem off 4) 0

/-- A writer of values `α` with variables `τ`; its stores lie in the body of the block. -/
structure Publisher (α τ : Type*) where
  magic : ℕ
  size : ℕ
  locals : τ
  body : τ → Buffer → α → List Store
  next : τ → α → τ
  inside : ∀ s mem v, ∀ w ∈ body s mem v, 8 ≤ w.off
  room : 8 ≤ size
  small : magic < 4294967296

variable {α τ : Type*}

def Publisher.program (W : Publisher α τ) (s : τ) (mem : Buffer) (v : α) : List Store :=
  ⟨0, le32 W.magic⟩::⟨4, le32 (word mem 4+1)⟩::(W.body s mem v++[⟨4, le32 (word mem 4+2)⟩])

/-- The block, the stores the writer has yet to make, and what the reader has read.
`published` and `bumps` (the stores into the counter) are logs, and so is `start`, the
number of bumps when the reader read the first byte of the counter. -/
structure State (α τ : Type*) where
  mem : Buffer
  todo : List Store
  locals : τ
  published : List α
  bumps : ℕ
  blob : Bytes
  start : ℕ

inductive Act (α : Type*) where
  | render (v : α)
  | store
  | read
  | restart

def Publisher.init (W : Publisher α τ) : State α τ := ⟨zeroed, [], W.locals, [], 0, [], 0⟩

def State.stored (s : State α τ) (w : Store) (rest : List Store) : State α τ :=
  { s with
    mem := apply s.mem w
    todo := rest
    bumps := if w.off = 4 then s.bumps+1 else s.bumps }

def State.readNext (s : State α τ) : State α τ :=
  { s with
    blob := s.blob++[s.mem s.blob.length]
    start := if s.blob.length = 4 then s.bumps else s.start }

def step (W : Publisher α τ) (s : State α τ) : Act α → Option (State α τ)
  | .render v =>
    if s.todo.isEmpty then
      some { s with
        todo := W.program s.locals s.mem v
        locals := W.next s.locals v
        published := s.published++[v] }
    else none
  | .store =>
    match s.todo with
    | [] => none
    | w::rest => some (s.stored w rest)
  | .read => if s.blob.length < W.size then some s.readNext else none
  | .restart => some { s with blob := [] }

/-- The reader's tests, the last one with the word it reads anew. -/
def accepts (W : Publisher α τ) (s : State α τ) : Bool :=
  s.blob.length == W.size && load32 s.blob 0 == W.magic && load32 s.blob 4 % 2 == 0 &&
    load32 s.blob 4 == word s.mem 4

def State.shown (s : State α τ) : List α := s.published.take (s.bumps/2)

theorem load32_le32 (n : ℕ) : load32 (le32 n) 0 = n % 4294967296 := by
  simp only [le32, le16, load32, load16, byteAt, List.cons_append, List.nil_append,
    List.getD_cons_zero, List.getD_cons_succ, UInt8.toNat_ofNat']
  omega

theorem le32_mod (n k : ℕ) : le32 (n % 4294967296+k) = le32 (n+k) := by
  simp only [le32, le16, List.cons_append, List.nil_append, List.cons.injEq, and_true]
  refine ⟨?_, ?_, ?_, ?_⟩ <;> apply UInt8.toNat_inj.mp <;> simp only [UInt8.toNat_ofNat'] <;> omega

def Counts (mem : Buffer) (n : ℕ) : Prop := Memory.segment mem 4 4 = le32 n

theorem Counts.word {mem : Buffer} {n : ℕ} (h : Counts mem n) : word mem 4 = n % 4294967296 := by
  rw [Seqlock.word, h, load32_le32]

theorem Counts.first {mem : Buffer} {n : ℕ} (h : Counts mem n) : mem 4 = UInt8.ofNat n := by
  have hget := congrArg (fun l => l[0]?) h
  simpa [Memory.segment, le32, le16] using hget

theorem counts_store (mem : Buffer) (n : ℕ) : Counts (apply mem ⟨4, le32 n⟩) n :=
  segment_copyIn mem 4 (le32 n)

theorem counts_other {mem : Buffer} {n : ℕ} (h : Counts mem n) (w : Store)
    (hw : w.off+w.bytes.length ≤ 4 ∨ 8 ≤ w.off) : Counts (apply mem w) n := by
  rw [Counts, apply, segment_copyIn_of_disjoint]
  · exact h
  · omega

def SameBody (size : ℕ) (mem mem' : Buffer) : Prop := ∀ i, 8 ≤ i → i < size → mem i = mem' i

theorem SameBody.refl (size : ℕ) (mem : Buffer) : SameBody size mem mem := fun _ _ _ => rfl

theorem SameBody.trans {size : ℕ} {a b c : Buffer} (h : SameBody size a b)
    (h' : SameBody size b c) : SameBody size a c := fun i hi hs => (h i hi hs).trans (h' i hi hs)

theorem SameBody.symm {size : ℕ} {a b : Buffer} (h : SameBody size a b) : SameBody size b a :=
  fun i hi hs => (h i hi hs).symm

theorem same_segment {size : ℕ} {a b : Buffer} (h : SameBody size a b) (off n : ℕ) (hlo : 8 ≤ off)
    (hhi : off+n ≤ size) : Memory.segment a off n = Memory.segment b off n :=
  segment_eq a b off off n (fun i hi => h (off+i) (by omega) (by omega))

theorem header_store (size : ℕ) (mem : Buffer) (w : Store) (hw : w.off+w.bytes.length ≤ 8) :
    SameBody size (apply mem w) mem := by
  intro i hi _
  rw [apply, copyIn, if_neg (by omega)]

theorem same_store {size : ℕ} {mem mem' : Buffer} (h : SameBody size mem mem') (w : Store) :
    SameBody size (apply mem w) (apply mem' w) := by
  intro i hi hs
  simp only [apply, copyIn]
  split
  · rfl
  · exact h i hi hs

theorem apply_all_snoc (mem : Buffer) (ws : List Store) (w : Store) :
    applyAll mem (ws++[w]) = apply (applyAll mem ws) w := by
  simp [applyAll]

def Within (lo hi : ℕ) (ws : List Store) : Prop :=
  ∀ w ∈ ws, lo ≤ w.off ∧ w.off+w.bytes.length ≤ hi

def strStores (off : ℕ) (l : Bytes) : List Store :=
  l.mapIdx (fun j b => ⟨off+j, [b]⟩)++[⟨off+l.length, [0]⟩]

/-- The C string in a field of `n` bytes. -/
def cString (mem : Buffer) (off n : ℕ) : Bytes := (Memory.segment mem off n).takeWhile (· ≠ 0)

def tableStores (base width n : ℕ) (s : ℕ → Bytes) : List Store :=
  (List.range n).flatMap (fun i => strStores (base+width*i) (s i))

theorem apply_all_append (mem : Buffer) (a b : List Store) :
    applyAll mem (a++b) = applyAll (applyAll mem a) b := by
  simp [applyAll]

theorem within_append {lo hi : ℕ} {a b : List Store} (ha : Within lo hi a) (hb : Within lo hi b) :
    Within lo hi (a++b) := by
  intro w hw
  rcases List.mem_append.mp hw with hw | hw
  · exact ha w hw
  · exact hb w hw

theorem within_mono {lo hi lo' hi' : ℕ} {ws : List Store} (h : Within lo hi ws) (hlo : lo' ≤ lo)
    (hhi : hi ≤ hi') : Within lo' hi' ws :=
  fun w hw => ⟨le_trans hlo (h w hw).1, le_trans (h w hw).2 hhi⟩

theorem segment_within (mem : Buffer) (ws : List Store) (lo hi off n : ℕ) (hw : Within lo hi ws)
    (h : off+n ≤ lo ∨ hi ≤ off) :
    Memory.segment (applyAll mem ws) off n = Memory.segment mem off n := by
  induction ws generalizing mem with
  | nil => rfl
  | cons w ws ih =>
    have hfirst := hw w (List.mem_cons_self ..)
    rw [applyAll, List.foldl_cons, ← applyAll,
      ih (apply mem w) (fun x hx => hw x (List.mem_cons_of_mem w hx)), apply,
      segment_copyIn_of_disjoint _ _ _ _ _ (by omega)]

theorem word_within (mem : Buffer) (ws : List Store) (lo hi off : ℕ) (hw : Within lo hi ws)
    (h : off+4 ≤ lo ∨ hi ≤ off) : word (applyAll mem ws) off = word mem off := by
  rw [word, segment_within mem ws lo hi off 4 hw h, word]

theorem c_string_within (mem : Buffer) (ws : List Store) (lo hi off n : ℕ) (hw : Within lo hi ws)
    (h : off+n ≤ lo ∨ hi ≤ off) : cString (applyAll mem ws) off n = cString mem off n := by
  rw [cString, segment_within mem ws lo hi off n hw h, cString]

theorem word_store (mem : Buffer) (off n : ℕ) :
    word (apply mem ⟨off, le32 n⟩) off = n % 4294967296 := by
  have hcopy : Memory.segment (apply mem ⟨off, le32 n⟩) off 4 = le32 n :=
    segment_copyIn mem off (le32 n)
  rw [word, hcopy, load32_le32]

theorem str_stores_within (off : ℕ) (l : Bytes) :
    Within off (off+l.length+1) (strStores off l) := by
  intro w hw
  rcases List.mem_append.mp hw with hw | hw
  · obtain ⟨j, hj, rfl⟩ := List.mem_mapIdx.mp hw
    simp only [List.length_singleton]
    omega
  · rw [List.mem_singleton.mp hw]
    simp only [List.length_singleton]
    omega

theorem str_stores_snoc (off : ℕ) (l : Bytes) (b : UInt8) :
    l.mapIdx (fun j x => (⟨off+j, [x]⟩ : Store))++[⟨off+l.length, [b]⟩] =
      (l++[b]).mapIdx (fun j x => ⟨off+j, [x]⟩) := by
  rw [List.mapIdx_append]
  simp

theorem segment_bytes (mem : Buffer) (off : ℕ) (l : Bytes) :
    Memory.segment (applyAll mem (l.mapIdx (fun j b => ⟨off+j, [b]⟩))) off l.length = l := by
  induction l using List.reverseRecOn with
  | nil => rfl
  | append_singleton l b ih =>
    rw [← str_stores_snoc, apply_all_snoc, List.length_append, List.length_singleton, segment_add,
      apply, segment_copyIn_of_disjoint _ _ _ _ _ (.inl (le_refl _)), ih]
    congr 1
    exact segment_copyIn _ (off+l.length) [b]

theorem c_string_stores (mem : Buffer) (off n : ℕ) (l : Bytes) (hfit : l.length < n) :
    cString (applyAll mem (strStores off l)) off n = l.takeWhile (· ≠ 0) := by
  obtain ⟨k, rfl⟩ := Nat.exists_eq_add_of_lt hfit
  have hlen : l.length+k+1 = (l++[(0 : UInt8)]).length+k := by
    simp
    omega
  rw [cString, strStores, str_stores_snoc, hlen, segment_add, segment_bytes, List.append_assoc,
    List.takeWhile_append]
  split
  · next hall =>
    rw [List.takeWhile_prefix _ |>.eq_of_length hall]
    simp
  · rfl

theorem table_stores_within (base width n : ℕ) (s : ℕ → Bytes) (h : ∀ i, (s i).length < width) :
    Within base (base+width*n) (tableStores base width n s) := by
  intro w hw
  obtain ⟨i, hi, hw⟩ := List.mem_flatMap.mp hw
  obtain ⟨hlo, hhi⟩ := str_stores_within (base+width*i) (s i) w hw
  have hslot := h i
  have hle : width*(i+1) ≤ width*n := Nat.mul_le_mul_left width (List.mem_range.mp hi)
  rw [Nat.mul_succ] at hle
  omega

theorem table_string (mem : Buffer) (base width n : ℕ) (s : ℕ → Bytes)
    (h : ∀ i, (s i).length < width) (hne : ∀ i, ∀ b ∈ s i, b ≠ 0) (i : ℕ) (hi : i < n) :
    cString (applyAll mem (tableStores base width n s)) (base+width*i) width = s i := by
  induction n with
  | zero => exact absurd hi (Nat.not_lt_zero i)
  | succ n ih =>
    rw [tableStores, List.range_succ, List.flatMap_append, List.flatMap_singleton, ← tableStores,
      apply_all_append]
    by_cases hlast : i = n
    · rw [hlast]
      rw [c_string_stores _ _ _ _ (h n)]
      exact List.takeWhile_eq_self_iff.mpr (fun b hb => by simpa using hne n b hb)
    · have hle : width*(i+1) ≤ width*n := Nat.mul_le_mul_left width (by omega)
      rw [Nat.mul_succ] at hle
      rw [c_string_within _ _ _ _ _ _ (str_stores_within _ _) (.inl (by omega))]
      exact ih (by omega)

section
variable (W : Publisher α τ) (Shows : List α → Buffer → Prop)

/-- The publication of `v` over the block `mem`, with the publications `l` before it. -/
structure Running (pubs : List α) (vars : τ) (l : List α) (v : α) (mem : Buffer) : Prop where
  published : pubs = l++[v]
  locals : vars = pubs.foldl W.next W.locals
  shows : Shows l mem
  counts : Counts mem (2*l.length)

/-- Where the writer stands in its program. -/
inductive Phase (s : State α τ) : Prop where
  | idle (htodo : s.todo = []) (hlocals : s.locals = s.published.foldl W.next W.locals)
      (hshows : Shows s.published s.mem) (hbumps : s.bumps = 2*s.published.length)
  | begun (l : List α) (v : α) (mem : Buffer)
      (hrun : Running W Shows s.published s.locals l v mem)
      (hsame : SameBody W.size s.mem mem) (hbumps : s.bumps = 2*l.length)
      (htodo : s.todo = W.program (l.foldl W.next W.locals) mem v ∨
        s.todo = (W.program (l.foldl W.next W.locals) mem v).tail ∧
          Memory.segment s.mem 0 4 = le32 W.magic)
  | storing (l : List α) (v : α) (mem : Buffer) (done rest : List Store)
      (hrun : Running W Shows s.published s.locals l v mem)
      (hbody : W.body (l.foldl W.next W.locals) mem v = done++rest)
      (hsame : SameBody W.size s.mem (applyAll mem done)) (hbumps : s.bumps = 2*l.length+1)
      (htodo : s.todo = rest++[⟨4, le32 (word mem 4+2)⟩])

/-- What the reader has behind the header is what stands there, unless the writer has been
there since. -/
structure Reading (s : State α τ) : Prop where
  fits : s.blob.length ≤ W.size
  first : 4 < s.blob.length → s.blob[4]? = some (UInt8.ofNat s.start) ∧ s.start ≤ s.bumps
  body : s.bumps = s.start → s.bumps % 2 = 0 → ∀ i, 8 ≤ i → i < s.blob.length →
    s.blob[i]? = some (s.mem i)

structure Inv (s : State α τ) : Prop where
  counts : Counts s.mem s.bumps
  magic : s.bumps ≠ 0 → Memory.segment s.mem 0 4 = le32 W.magic
  phase : Phase W Shows s
  reading : Reading W s

theorem counts_zeroed : Counts zeroed 0 := by
  simp only [Counts, Memory.segment]
  decide

theorem inv_init (hinit : Shows [] zeroed) : Inv W Shows W.init where
  counts := counts_zeroed
  magic := fun h => absurd rfl h
  phase := .idle rfl rfl hinit rfl
  reading := ⟨Nat.zero_le _, fun h => absurd h (by simp [Publisher.init]),
    fun _ _ i _ h => absurd h (by simp [Publisher.init])⟩

theorem reading_bump {s : State α τ} (hr : Reading W s) (w : Store) (rest : List Store)
    (hw : w.off = 4) : Reading W (s.stored w rest) := by
  have hbumps : (s.stored w rest).bumps = s.bumps+1 := by simp [State.stored, hw]
  refine ⟨hr.fits, fun h => ⟨(hr.first h).1, ?_⟩, fun heq _ i hi hlt => ?_⟩
  · rw [hbumps]
    exact le_trans (hr.first h).2 (Nat.le_succ _)
  · rw [hbumps] at heq
    have hlong : 4 < s.blob.length := lt_trans (lt_of_lt_of_le (by decide) hi) hlt
    have hle := (hr.first hlong).2
    have hstart : (s.stored w rest).start = s.start := rfl
    omega

theorem reading_store {s : State α τ} (hr : Reading W s) (w : Store) (rest : List Store)
    (hw : w.off ≠ 4) (h : s.bumps % 2 = 1 ∨ w.off+w.bytes.length ≤ 8) :
    Reading W (s.stored w rest) := by
  have hbumps : (s.stored w rest).bumps = s.bumps := by simp [State.stored, hw]
  refine ⟨hr.fits, fun hlt => ?_, fun heq heven i hi hlt => ?_⟩
  · rw [hbumps]
    exact hr.first hlt
  · rw [hbumps] at heq heven
    rcases h with h | h
    · omega
    · show s.blob[i]? = some (apply s.mem w i)
      rw [apply, copyIn, if_neg (by omega)]
      exact hr.body heq heven i hi hlt

theorem inv_read {s : State α τ} (hi : Inv W Shows s) (hlt : s.blob.length < W.size) :
    Inv W Shows s.readNext := by
  obtain ⟨hcounts, hmagic, hphase, hr⟩ := hi
  have hlen : s.readNext.blob.length = s.blob.length+1 := by simp [State.readNext]
  refine ⟨hcounts, hmagic, ?_,
    ⟨by rw [hlen]; exact hlt, fun h => ?_, fun heq heven i hi8 hi => ?_⟩⟩
  · cases hphase with
    | idle htodo hlocals hshows hbumps => exact .idle htodo hlocals hshows hbumps
    | begun l v mem hrun hsame hb htodo => exact .begun l v mem hrun hsame hb htodo
    | storing l v mem done rest hrun hbody hsame hb htodo =>
      exact .storing l v mem done rest hrun hbody hsame hb htodo
  · rw [hlen] at h
    by_cases h4 : s.blob.length = 4
    · refine ⟨?_, ?_⟩
      · simp [State.readNext, h4, hcounts.first]
      · simp [State.readNext, h4]
    · have hold := hr.first (by omega)
      refine ⟨?_, ?_⟩
      · simp only [State.readNext, h4, if_false]
        rw [List.getElem?_append_left (by omega)]
        exact hold.1
      · simpa [State.readNext, h4] using hold.2
  · rw [hlen] at hi
    have h4 : s.blob.length ≠ 4 := by omega
    have hstart : s.readNext.start = s.start := by simp [State.readNext, h4]
    rw [hstart] at heq
    show (s.blob++[s.mem s.blob.length])[i]? = some (s.mem i)
    by_cases hnew : i = s.blob.length
    · rw [hnew, List.getElem?_append_right (le_refl _), Nat.sub_self]
      rfl
    · rw [List.getElem?_append_left (by omega)]
      exact hr.body heq heven i hi8 (by omega)

theorem inv_restart {s : State α τ} (hi : Inv W Shows s) :
    Inv W Shows { s with blob := [] } := by
  obtain ⟨hcounts, hmagic, hphase, hr⟩ := hi
  refine ⟨hcounts, hmagic, ?_, ⟨Nat.zero_le _, fun h => absurd h (by simp), fun _ _ i _ h =>
    absurd h (by simp)⟩⟩
  cases hphase with
  | idle htodo hlocals hshows hbumps => exact .idle htodo hlocals hshows hbumps
  | begun l v mem hrun hsame hb htodo => exact .begun l v mem hrun hsame hb htodo
  | storing l v mem done rest hrun hbody hsame hb htodo =>
    exact .storing l v mem done rest hrun hbody hsame hb htodo

theorem inv_render {s : State α τ} (hi : Inv W Shows s) (v : α) (htodo : s.todo = []) :
    Inv W Shows { s with
      todo := W.program s.locals s.mem v
      locals := W.next s.locals v
      published := s.published++[v] } := by
  obtain ⟨hcounts, hmagic, hphase, hr⟩ := hi
  refine ⟨hcounts, hmagic, ?_, ⟨hr.fits, hr.first, hr.body⟩⟩
  cases hphase with
  | idle _ hlocals hshows hbumps =>
    exact .begun s.published v s.mem ⟨rfl, by simp [hlocals], hshows, hbumps ▸ hcounts⟩ (.refl _ _)
      hbumps (.inl (by rw [hlocals]))
  | begun l w mem _ _ _ htodo' =>
    rcases htodo' with h | ⟨h, -⟩ <;> simp [htodo, Publisher.program] at h
  | storing l w mem done rest _ _ _ _ htodo' => simp [htodo] at htodo'

theorem magic_kept {s : State α τ} (w : Store) (hw : 4 ≤ w.off) :
    Memory.segment (apply s.mem w) 0 4 = Memory.segment s.mem 0 4 :=
  segment_copyIn_of_disjoint _ _ _ _ _ (.inl (by omega))

section Stores
variable {s : State α τ} {l : List α} {v : α} {mem : Buffer} (hi : Inv W Shows s)
  (hrun : Running W Shows s.published s.locals l v mem)
include hi hrun

theorem inv_magic (hs : SameBody W.size s.mem mem) (hb : s.bumps = 2*l.length) :
    Inv W Shows (s.stored ⟨0, le32 W.magic⟩ (W.program (l.foldl W.next W.locals) mem v).tail) := by
  have hhead : (0 : ℕ)+(le32 W.magic).length ≤ 4 := by simp
  have hnot : (0 : ℕ) ≠ 4 := by decide
  have hstands : Memory.segment (apply s.mem ⟨0, le32 W.magic⟩) 0 4 = le32 W.magic :=
    segment_copyIn _ 0 (le32 W.magic)
  refine ⟨counts_other hi.counts _ (.inl hhead), fun _ => hstands, ?_,
    reading_store W hi.reading _ _ hnot (.inr (le_trans hhead (by decide)))⟩
  exact .begun l v mem hrun ((header_store _ _ _ (le_trans hhead (by decide))).trans hs) hb
    (.inr ⟨rfl, hstands⟩)

theorem inv_odd (hs : SameBody W.size s.mem mem) (hb : s.bumps = 2*l.length)
    (hstands : Memory.segment s.mem 0 4 = le32 W.magic) :
    Inv W Shows (s.stored ⟨4, le32 (word mem 4+1)⟩
      (W.body (l.foldl W.next W.locals) mem v++[⟨4, le32 (word mem 4+2)⟩])) := by
  have hnumber : le32 (word mem 4+1) = le32 (s.bumps+1) := by rw [hrun.counts.word, le32_mod, hb]
  refine ⟨?_, fun _ => (magic_kept ⟨4, _⟩ (le_refl 4)).trans hstands, ?_,
    reading_bump W hi.reading _ _ rfl⟩
  · show Counts (apply s.mem ⟨4, le32 (word mem 4+1)⟩) (s.bumps+1)
    rw [hnumber]
    exact counts_store _ _
  · refine .storing l v mem [] _ hrun rfl ?_ ?_ rfl
    · exact (header_store _ _ _ (by simp)).trans hs
    · show s.bumps+1 = _
      rw [hb]

theorem inv_body (x : Store) (done rest : List Store)
    (hprog : W.body (l.foldl W.next W.locals) mem v = done++x::rest)
    (hs : SameBody W.size s.mem (applyAll mem done)) (hb : s.bumps = 2*l.length+1) :
    Inv W Shows (s.stored x (rest++[⟨4, le32 (word mem 4+2)⟩])) := by
  have hin : 8 ≤ x.off := by
    refine W.inside (l.foldl W.next W.locals) mem v x ?_
    rw [hprog]
    simp
  have hnot : x.off ≠ 4 := by omega
  have hbumps : (s.stored x (rest++[⟨4, le32 (word mem 4+2)⟩])).bumps = s.bumps := by
    simp [State.stored, hnot]
  refine ⟨?_, fun _ => (magic_kept x (by omega)).trans (hi.magic (by omega)), ?_,
    reading_store W hi.reading _ _ hnot (.inl (by omega))⟩
  · rw [hbumps]
    exact counts_other hi.counts x (.inr hin)
  · refine .storing l v mem (done++[x]) rest hrun (by simpa using hprog) ?_
      (by rw [hbumps]; exact hb) rfl
    rw [apply_all_snoc]
    exact same_store hs x

variable (hsame : ∀ l mem mem', SameBody W.size mem mem' → Shows l mem → Shows l mem')
  (hbody : ∀ l mem v, Shows l mem →
    Shows (l++[v]) (applyAll mem (W.body (l.foldl W.next W.locals) mem v)))

include hsame hbody in
theorem inv_even
    (hs : SameBody W.size s.mem (applyAll mem (W.body (l.foldl W.next W.locals) mem v)))
    (hb : s.bumps = 2*l.length+1) : Inv W Shows (s.stored ⟨4, le32 (word mem 4+2)⟩ []) := by
  have hnumber : le32 (word mem 4+2) = le32 (s.bumps+1) := by rw [hrun.counts.word, le32_mod, hb]
  refine ⟨?_, fun _ => (magic_kept ⟨4, _⟩ (le_refl 4)).trans (hi.magic (by omega)), ?_,
    reading_bump W hi.reading _ _ rfl⟩
  · show Counts (apply s.mem ⟨4, le32 (word mem 4+2)⟩) (s.bumps+1)
    rw [hnumber]
    exact counts_store _ _
  · refine .idle rfl hrun.locals ?_ ?_
    · show Shows s.published (apply s.mem _)
      rw [hrun.published]
      exact hsame _ _ _ (hs.symm.trans (header_store _ _ _ (by simp)).symm)
        (hbody l mem v hrun.shows)
    · show s.bumps+1 = 2*s.published.length
      rw [hb, hrun.published, List.length_append, List.length_singleton]
      omega

end Stores

variable (hsame : ∀ l mem mem', SameBody W.size mem mem' → Shows l mem → Shows l mem')
  (hbody : ∀ l mem v, Shows l mem →
    Shows (l++[v]) (applyAll mem (W.body (l.foldl W.next W.locals) mem v)))

include hsame hbody in
theorem inv_store {s : State α τ} (hi : Inv W Shows s) (w : Store) (todo : List Store)
    (hw : s.todo = w::todo) : Inv W Shows (s.stored w todo) := by
  cases hi.phase with
  | idle htodo _ _ _ => rw [htodo] at hw; cases hw
  | begun l v mem hrun hs hb htodo =>
    rcases htodo with htodo | ⟨htodo, hstands⟩
    · rw [htodo, Publisher.program, List.cons.injEq] at hw
      obtain ⟨rfl, rfl⟩ := hw
      exact inv_magic W Shows hi hrun hs hb
    · rw [htodo, Publisher.program, List.tail_cons, List.cons.injEq] at hw
      obtain ⟨rfl, rfl⟩ := hw
      exact inv_odd W Shows hi hrun hs hb hstands
  | storing l v mem done rest hrun hprog hs hb htodo =>
    cases rest with
    | nil =>
      rw [htodo, List.nil_append, List.cons.injEq] at hw
      obtain ⟨rfl, rfl⟩ := hw
      rw [List.append_nil] at hprog
      exact inv_even W Shows hi hrun hsame hbody (hprog ▸ hs) hb
    | cons x rest =>
      rw [htodo, List.cons_append, List.cons.injEq] at hw
      obtain ⟨rfl, rfl⟩ := hw
      exact inv_body W Shows hi hrun x done rest hprog hs hb

include hsame hbody in
theorem inv_step {s t : State α τ} (a : Act α) (hi : Inv W Shows s) (hs : step W s a = some t) :
    Inv W Shows t := by
  cases a with
  | render v =>
    simp only [step, Option.ite_none_right_eq_some, Option.some.injEq] at hs
    obtain ⟨hidle, rfl⟩ := hs
    exact inv_render W Shows hi v (List.isEmpty_iff.mp hidle)
  | store =>
    simp only [step] at hs
    split at hs
    · cases hs
    · next w rest htodo =>
      rw [Option.some.injEq] at hs
      exact hs ▸ inv_store W Shows hsame hbody hi w rest htodo
  | read =>
    simp only [step, Option.ite_none_right_eq_some, Option.some.injEq] at hs
    obtain ⟨hlt, rfl⟩ := hs
    exact inv_read W Shows hi hlt
  | restart =>
    simp only [step, Option.some.injEq] at hs
    exact hs ▸ inv_restart W Shows hi

include hsame hbody in
theorem inv_exec (hinit : Shows [] zeroed) (acts : List (Act α)) (t : State α τ)
    (he : exec (step W) W.init acts = some t) : Inv W Shows t :=
  exec_invariant (step W) (fun _ _ => True) (Inv W Shows)
    (fun _ a _ hi _ hs => inv_step W Shows hsame hbody a hi hs) acts _ t (inv_init W Shows hinit)
    (along_of_forall _ _ (fun _ _ => trivial) acts _) he

include hsame in
/-- With the counter even the block shows the complete publications. -/
theorem shows_even {s : State α τ} (hi : Inv W Shows s) (heven : s.bumps % 2 = 0) :
    Shows s.shown s.mem := by
  rw [State.shown]
  cases hi.phase with
  | idle htodo hlocals hshows hbumps =>
    rw [hbumps, Nat.mul_div_cancel_left _ (by decide), List.take_length]
    exact hshows
  | begun l v mem hrun hs hb _ =>
    rw [hb, Nat.mul_div_cancel_left _ (by decide), hrun.published, List.take_left' rfl]
    exact hsame l mem s.mem hs.symm hrun.shows
  | storing l v mem done rest _ _ _ hb _ => omega

/-- The counter did not move while the reader took what it keeps. -/
theorem accepted_still {s : State α τ} (hi : Inv W Shows s) (ha : accepts W s)
    (hbound : s.bumps < s.start+256) : s.bumps = s.start ∧ s.bumps % 2 = 0 ∧
      s.blob.length = W.size := by
  simp only [accepts, Bool.and_eq_true, beq_iff_eq] at ha
  obtain ⟨⟨⟨hlen, -⟩, heven⟩, hsecond⟩ := ha
  have hroom := W.room
  obtain ⟨hfirst, hle⟩ := hi.reading.first (by omega)
  rw [hi.counts.word] at hsecond
  have hlow : (UInt8.ofNat s.start).toNat = load32 s.blob 4 % 256 := by
    have hbyte : byteAt s.blob 4 = (UInt8.ofNat s.start).toNat := by
      rw [byteAt, List.getD_eq_getElem?_getD, hfirst, Option.getD_some]
    simp only [load32, load16, hbyte]
    have := (UInt8.ofNat s.start).toNat_lt
    omega
  rw [UInt8.toNat_ofNat'] at hlow
  omega

include hsame hbody in
/-- What the reader keeps is the block after the last complete publication. -/
theorem accepted_shows (hinit : Shows [] zeroed) (acts : List (Act α)) (s : State α τ)
    (he : exec (step W) W.init acts = some s) (ha : accepts W s) (hbound : s.bumps < s.start+256) :
    Shows s.shown (fun i => s.blob.getD i 0) ∧ s.bumps = s.start := by
  have hi := inv_exec W Shows hsame hbody hinit acts s he
  obtain ⟨hstill, heven, hlen⟩ := accepted_still W Shows hi ha hbound
  refine ⟨hsame _ _ _ (fun i hi8 hlt => ?_) (shows_even W Shows hsame hi heven), hstill⟩
  rw [List.getD_eq_getElem?_getD, hi.reading.body hstill heven i hi8 (by omega), Option.getD_some]

theorem read_on (s : State α τ) (k : ℕ) (h : s.blob.length+k ≤ W.size) :
    ∃ t, exec (step W) s (List.replicate k .read) = some t ∧ t.mem = s.mem ∧ t.todo = s.todo ∧
      t.published = s.published ∧ t.bumps = s.bumps ∧
      t.blob = s.blob++Memory.segment s.mem s.blob.length k ∧
      (s.blob.length ≤ 4 → 4 < t.blob.length → t.start = s.bumps) := by
  induction k with
  | zero => exact ⟨s, rfl, rfl, rfl, rfl, rfl, (List.append_nil _).symm, fun h h' => by omega⟩
  | succ k ih =>
    obtain ⟨t, ht, hmem, htodo, hpub, hbumps, hblob, hstart⟩ := ih (by omega)
    have hlen : t.blob.length = s.blob.length+k := by rw [hblob]; simp
    have hlt : t.blob.length < W.size := by omega
    refine ⟨t.readNext, ?_, hmem, htodo, hpub, hbumps, ?_, fun hle hlong => ?_⟩
    · rw [List.replicate_succ', exec_append, ht, Option.bind_some, exec, step, if_pos hlt]
      rfl
    · rw [State.readNext, hlen, hmem, hblob, List.append_assoc, segment_add]
      rfl
    · by_cases h4 : t.blob.length = 4
      · simp [State.readNext, h4, hbumps]
      · have hlong' : 4 < t.blob.length := by
          simp only [State.readNext, List.length_append, List.length_singleton] at hlong
          omega
        simpa [State.readNext, h4] using hstart hle hlong'

/-- A reading that no refresh disturbs is accepted. -/
theorem quiet_accepted {s : State α τ} (hi : Inv W Shows s) (htodo : s.todo = [])
    (hpub : s.published ≠ []) :
    ∃ t, exec (step W) s (.restart::List.replicate W.size .read) = some t ∧ accepts W t ∧
      t.bumps = t.start ∧ t.published = s.published ∧ t.shown = s.published := by
  have hroom := W.room
  have hlen := List.length_pos_of_ne_nil hpub
  have hbumps : s.bumps = 2*s.published.length := by
    cases hi.phase with
    | idle _ _ _ h => exact h
    | begun l v mem _ _ _ h => rcases h with h | ⟨h, -⟩ <;> simp [htodo, Publisher.program] at h
    | storing l v mem done rest _ _ _ _ h => simp [htodo] at h
  obtain ⟨t, ht, hmem, -, hpublished, hcount, hblob, hstart⟩ :=
    read_on W { s with blob := [] } W.size (by simp)
  have hblob' : t.blob = Memory.segment s.mem 0 W.size := hblob
  have hfull : t.blob.length = W.size := by rw [hblob', segment_length]
  have hword : ∀ off, off+4 ≤ W.size → load32 t.blob off = word s.mem off := by
    intro off hoff
    have hbyte : ∀ j < W.size, byteAt t.blob j = (s.mem j).toNat := by
      intro j hj
      rw [byteAt, hblob', List.getD_eq_getElem?_getD, segment_get _ _ _ _ hj, Option.getD_some,
        Nat.zero_add]
    simp only [word, load32, load16]
    rw [hbyte off (by omega), hbyte (off+1) (by omega), hbyte (off+2) (by omega),
      hbyte (off+2+1) (by omega)]
    simp [byteAt, Memory.segment, List.range_succ, Nat.add_assoc]
  have hmagic : word s.mem 0 = W.magic := by
    rw [word, hi.magic (by omega), load32_le32, Nat.mod_eq_of_lt W.small]
  have hcounter := hi.counts.word
  refine ⟨t, ?_, ?_, ?_, hpublished, ?_⟩
  · rw [exec, step]
    exact ht
  · have heven : word s.mem 4 % 2 = 0 := by omega
    have hsecond : word t.mem 4 = word s.mem 4 := by rw [hmem]
    simp only [accepts, hfull, hword 0 (by omega), hword 4 (by omega), hmagic, heven, hsecond,
      beq_self_eq_true, Bool.and_self]
  · rw [hcount]
    exact (hstart (by simp) (by omega)).symm
  · have hpub' : t.published = s.published := hpublished
    have hcount' : t.bumps = s.bumps := hcount
    rw [State.shown, hpub', hcount', hbumps, Nat.mul_div_cancel_left _ (by decide),
      List.take_length]

end

end Lib.Seqlock
