import MokyaLora.ImeCoherent
import MokyaLora.ImeReach
import MokyaLora.TrieBounds

/-!
# What a commit consumes, and how many it takes

A commit drops the keys that its candidate stands for and the tone keys behind
them, each with its hint. At least one key goes, so `OK` after `OK` empties the
list.
-/

set_option autoImplicit false

namespace MokyaLora.Ime
open Lib.Fields Lib.Memory

namespace ImeLogic

variable (s : ImeLogic)

def pairs : List (UInt8 × UInt8) := s.keys.zip s.hints

def symState : Sym1State × Bool := (s.sym1, s.symPickerOpen)

end ImeLogic

section Pairs

variable (s : ImeLogic)

theorem pairs_length : s.pairs.length = s.keySeqLen := by
  rw [ImeLogic.pairs, List.length_zip, ImeLogic.keys, ImeLogic.hints, bytes_length, bytes_length,
    Nat.min_self]

theorem pairs_keys : s.pairs.map Prod.fst = s.keys :=
  List.map_fst_zip (by rw [ImeLogic.keys, ImeLogic.hints, bytes_length, bytes_length])

theorem pairs_of_base {s t : ImeLogic} (h : t.base = s.base) : t.pairs = s.pairs := by
  obtain ⟨-, hk, hh, -⟩ := base_keys h
  rw [ImeLogic.pairs, ImeLogic.pairs, hk, hh]

theorem pairs_cons (h : 0 < s.keySeqLen) :
    ∃ rest, s.pairs = (s.keySeq 0, s.phonemeHint 0)::rest := by
  obtain ⟨n, hn⟩ := Nat.exists_eq_succ_of_ne_zero (Nat.ne_of_gt h)
  rw [ImeLogic.pairs, ImeLogic.keys, ImeLogic.hints, hn, bytes, bytes, List.range_succ_eq_map,
    List.map_cons, List.map_cons, List.zip_cons_cons]
  exact ⟨_, rfl⟩

theorem drop_pairs (n : ℕ) : (s.keysDrop n).pairs = s.pairs.drop n := by
  have hk : (s.keysDrop n).keys = s.keys.drop n := bytes_moveDown _ _ _ _ (Nat.le_succ _)
  have hh : (s.keysDrop n).hints = s.hints.drop n := bytes_moveDown _ _ _ _ (le_refl _)
  rw [ImeLogic.pairs, hk, hh]
  exact List.drop_zipWith.symm

theorem strip_pairs (n : ℕ) (s : ImeLogic) (h : s.keySeqLen ≤ n) :
    (ImeLogic.stripTones n s).pairs = s.pairs.dropWhile (fun p => isToneKey p.1) := by
  induction n generalizing s with
  | zero =>
    have hnil : s.pairs = [] := List.length_eq_zero_iff.mp (by rw [pairs_length]; omega)
    rw [ImeLogic.stripTones, hnil, List.dropWhile_nil]
  | succ n ih =>
    rw [ImeLogic.stripTones]
    by_cases hl : 0 < s.keySeqLen
    · obtain ⟨rest, hp⟩ := pairs_cons s hl
      split
      · rename_i hc
        have hdrop : (s.keysDrop 1).keySeqLen ≤ n := Nat.sub_le_of_le_add h
        have htone : isToneKey (s.keySeq 0) = true := by simpa [isToneKey] using hc.2
        rw [ih (s.keysDrop 1) hdrop, drop_pairs, hp, List.drop_one, List.tail_cons,
          List.dropWhile_cons, if_pos htone]
      · rename_i hc
        have htone : ¬ isToneKey (s.keySeq 0) = true := by
          simpa [isToneKey] using fun ht => hc ⟨hl, ht⟩
        rw [hp, List.dropWhile_cons, if_neg htone]
    · have hnil : s.pairs = [] := List.length_eq_zero_iff.mp (by rw [pairs_length]; omega)
      rw [if_neg (fun hc => hl hc.1), hnil, List.dropWhile_nil]

theorem consume_pairs (n : ℕ) (h : 1 ≤ n ∧ n ≤ s.keySeqLen) :
    (s.consumeKeys n).pairs = (s.pairs.drop n).dropWhile (fun p => isToneKey p.1) := by
  have hterminate : ∀ t : ImeLogic, ({ t with
      keySeq := store t.keySeq t.keySeqLen 0
      candidates := []
      selected := 0
      matchedPrefixBytes := 0
      matchedPrefixKeys := 0
      lpCycle := .none } : ImeLogic).pairs = t.pairs := by
    intro t
    simp only [ImeLogic.pairs, ImeLogic.keys, ImeLogic.hints]
    rw [bytes_store _ _ _ _ (le_refl _)]
  have hpos : 0 < n := h.1
  unfold ImeLogic.consumeKeys
  dsimp only
  rw [if_pos (show 0 < n ∧ n ≤ s.keySeqLen from h), if_pos hpos, hterminate,
    strip_pairs _ (s.keysDrop n) (le_refl _), drop_pairs]

end Pairs

section Commit

variable (env : Env) (s : ImeLogic)

theorem Noted.sym {s t : ImeLogic} (h : Noted s t) : t.symState = s.symState :=
  h.keeps ImeLogic.symState (fun _ _ _ => rfl)

theorem consume_sym (n : ℕ) : (s.consumeKeys n).symState = s.symState := by
  have h := consume_consumed s n
  rw [Consumed] at h
  rw [h]
  rfl

theorem run_search_sym : (s.runSearch env).symState = s.symState := by
  have h := run_search_retains env s
  rw [Retains] at h
  rw [h]
  rfl

theorem keys_changed_sym : (s.keysChanged env).symState = s.symState :=
  (log_noted env _ _).sym.trans (run_search_sym env s)

theorem learn_sym (str : Bytes) (n : ℕ) : (s.learn str n).symState = s.symState := by
  unfold ImeLogic.learn
  split <;> rfl

theorem commit_partial_kept (site : CommitSite) (str : Bytes) (n : ℕ) :
    ∃ t : ImeLogic, t.base = s.base ∧ t.symState = s.symState ∧
      s.commitPartial env site str n = (t.consumeKeys n).runSearch env := by
  obtain ⟨t, hb, rfl | hnoted, ht⟩ := commit_partial_search env s site str n
  · exact ⟨t, hb, rfl, ht⟩
  · exact ⟨t, hb, hnoted.sym.trans (learn_sym s str n), ht⟩

theorem commit_selected_search (i : ℕ) (p : Candidate × ℕ)
    (hsel : (if s.selected < s.candidates.length then s.selected else 0) = i)
    (hp : s.candidates[i]? = some p) :
    ∃ t : ImeLogic, t.base = s.base ∧ t.symState = s.symState ∧
      s.commitSelectedCandidate env = (t.consumeKeys p.2).runSearch env := by
  obtain ⟨c, n⟩ := p
  unfold ImeLogic.commitSelectedCandidate
  dsimp only
  rw [hsel, hp]
  dsimp only
  split
  · obtain ⟨t, hb, ho, ht⟩ := commit_partial_kept env (s.emitCommit env .literal [space])
      (.candidate s.candidates i s.mode) _ n
    exact ⟨t, hb.trans (emit_commit_quiet env s _ _).1, ho.trans (emit_noted env s _ _).sym, ht⟩
  · exact commit_partial_kept env s _ _ n

theorem commit_selected_pairs (h : Inv s) (i : ℕ) (p : Candidate × ℕ) (hsel : s.selected = i)
    (hp : s.candidates[i]? = some p) :
    (s.commitSelectedCandidate env).pairs =
      (s.pairs.drop p.2).dropWhile (fun k => isToneKey k.1) ∧
    (s.commitSelectedCandidate env).keySeqLen < s.keySeqLen ∧
    (s.commitSelectedCandidate env).symState = s.symState := by
  have hlt := (List.getElem?_eq_some_iff.mp hp).1
  obtain ⟨t, hb, ho, ht⟩ := commit_selected_search env s i p (by rw [hsel, if_pos hlt]) hp
  have hpre := h.candidates.prefixes p (List.mem_of_getElem? hp)
  have hlen : t.keySeqLen = s.keySeqLen := (base_keys hb).2.2.2
  have hpairs : (s.commitSelectedCandidate env).pairs =
      (s.pairs.drop p.2).dropWhile (fun k => isToneKey k.1) := by
    rw [ht, pairs_of_base (run_search_base env _), consume_pairs t p.2 (hlen ▸ hpre),
      pairs_of_base hb]
  refine ⟨hpairs, ?_, by rw [ht, run_search_sym, consume_sym, ho]⟩
  rw [← pairs_length, hpairs]
  have hstrip := List.length_dropWhile_le (fun k => isToneKey k.1) (s.pairs.drop p.2)
  rw [List.length_drop, pairs_length] at hstrip
  omega

end Commit

/-- A press of `OK`, at whatever time. -/
def OkPress (ev : KeyEvent) : Prop := ev.keycode = mokyaKeyOk ∧ ev.pressed = true

section Presses

variable (env : Env)

theorem ok_routed (s : ImeLogic) (ev : KeyEvent) (h : OkPress ev) (ho : s.symPickerOpen = false) :
    Routed s ev := by
  obtain ⟨hk, hp⟩ := h
  refine ⟨?_, ?_, hp, ho⟩
  · rw [hk]
    decide
  · rw [hk]
    decide

theorem ok_commits (s : ImeLogic) (hc : s.candidates ≠ []) (ho : s.symPickerOpen = false)
    (ev : KeyEvent) (hev : OkPress ev) : s.apply env (.processKey ev) =
      ((s.stampNow ev.nowMs).commitSelectedCandidate env).notifyChanged env := by
  have hhas : (s.stampNow ev.nowMs).hasCandidates = true := by
    simpa [ImeLogic.hasCandidates, ImeLogic.stampNow] using hc
  show ((s.stampNow ev.nowMs).dispatchKey env ev).1 = _
  rw [dispatch_ok env (s.stampNow ev.nowMs) ev (ok_routed _ ev hev ho) hev.1, ImeLogic.handleOk,
    if_pos hhas]

theorem ok_shortens (s : ImeLogic) (h : Inv s) (hc : s.candidates ≠ [])
    (ho : s.symPickerOpen = false) (ev : KeyEvent) (hev : OkPress ev) :
    (s.apply env (.processKey ev)).keySeqLen < s.keySeqLen ∧
    (s.apply env (.processKey ev)).symPickerOpen = false := by
  have hi : Inv (s.stampNow ev.nowMs) := inv_stamp s h _
  have hlt := h.selected hc
  obtain ⟨-, hlen, hopen⟩ := commit_selected_pairs env (s.stampNow ev.nowMs) hi s.selected
    s.candidates[s.selected] rfl (List.getElem?_eq_getElem hlt)
  rw [ok_commits env s hc ho ev hev]
  have hq := (log_quiet env ((s.stampNow ev.nowMs).commitSelectedCandidate env)
    .compositionChanged).1
  constructor
  · exact lt_of_eq_of_lt (base_keys hq).2.2.2 hlen
  · exact (congrArg Prod.snd ((log_noted env _ _).sym.trans hopen)).trans ho

theorem no_keys (s : ImeLogic) (h : Inv s) (hk : s.keySeqLen = 0) : s.candidates = [] := by
  apply List.eq_nil_iff_forall_not_mem.mpr
  intro p hp
  have hpre := h.candidates.prefixes p hp
  omega

/-- With the picker closed no more presses are needed than there are keys. -/
theorem presses_empty (evs : List KeyEvent) (hevs : ∀ ev ∈ evs, OkPress ev) (s : ImeLogic)
    (h : Inv s) (ho : s.symPickerOpen = false) (hl : s.keySeqLen ≤ evs.length) :
    ∃ n ≤ s.keySeqLen, (((evs.take n).map Call.processKey).foldl (fun s c => s.apply env c)
      s).candidates = [] := by
  induction evs generalizing s with
  | nil => exact ⟨0, Nat.zero_le _, no_keys s h (Nat.le_zero.mp hl)⟩
  | cons ev evs ih =>
    by_cases hc : s.candidates = []
    · exact ⟨0, Nat.zero_le _, hc⟩
    · obtain ⟨hlt, hopen⟩ := ok_shortens env s h hc ho ev (hevs ev (by simp))
      rw [List.length_cons] at hl
      obtain ⟨n, hn, hnil⟩ := ih (fun e he => hevs e (List.mem_cons_of_mem _ he))
        (s.apply env (.processKey ev)) (inv_apply env s h _) hopen (by omega)
      exact ⟨n+1, by omega, hnil⟩

theorem ok_closes (s : ImeLogic) (ho : s.symPickerOpen = true) (ev : KeyEvent) (hev : OkPress ev) :
    (s.apply env (.processKey ev)).base = s.base ∧
    (s.apply env (.processKey ev)).found = s.found ∧
    (s.apply env (.processKey ev)).symPickerOpen = false := by
  obtain ⟨hk, hp⟩ := hev
  have hspecial : ¬ (mokyaKeyOk = mokyaKeyBack ∨ mokyaKeyOk = mokyaKeyNone ∨
      mokyaKeyLimit ≤ mokyaKeyOk) := by decide
  have hsym1 : mokyaKeyOk ≠ mokyaKeySym1 := by decide
  have hnav : ImeLogic.navDir mokyaKeyOk = none := by decide
  have hopen : (s.stampNow ev.nowMs).symPickerOpen = true := ho
  show ((s.stampNow ev.nowMs).dispatchKey env ev).1.base = _ ∧
    ((s.stampNow ev.nowMs).dispatchKey env ev).1.found = _ ∧
    ((s.stampNow ev.nowMs).dispatchKey env ev).1.symPickerOpen = false
  rw [ImeLogic.dispatchKey, hk, if_neg hspecial, if_neg hsym1, hp, hopen, if_neg (by decide),
    if_pos rfl, ImeLogic.handlePicker, hnav]
  dsimp only
  rw [if_pos rfl]
  refine ⟨?_, ?_, ?_⟩
  · exact (log_quiet env _ _).1.trans (emit_commit_quiet env _ _ _).1
  · exact (log_quiet env _ _).2.trans (emit_commit_quiet env _ _ _).2
  · exact congrArg Prod.snd ((emit_noted env _ _ _).then (log_noted env _ _)).sym

end Presses

/-- So many presses of `OK` are enough, whatever the keys. -/
def okPresses (s : ImeLogic) : ℕ := if s.symPickerOpen then kMaxKeySeq+1 else kMaxKeySeq

/-- Committing a candidate drops the keys of its prefix and the tone keys behind
them, each with its hint. So `OK` after `OK` reaches an empty list, with a press
for every key and one more where the picker is open. -/
theorem commit_consumes (env : Env) (calls : List Call) :
    (∀ i p, (ImeLogic.run env calls).candidates[i]? = some p →
      let t := { ImeLogic.run env calls with selected := i }.commitSelectedCandidate env
      t.pairs = ((ImeLogic.run env calls).pairs.drop p.2).dropWhile (fun k => isToneKey k.1) ∧
      t.keySeqLen < (ImeLogic.run env calls).keySeqLen) ∧
    ∀ evs : List KeyEvent, (∀ ev ∈ evs, OkPress ev) →
      okPresses (ImeLogic.run env calls) ≤ evs.length →
      ∃ n ≤ okPresses (ImeLogic.run env calls),
        (ImeLogic.run env (calls++(evs.take n).map .processKey)).candidates = [] := by
  have hi := inv_run env calls
  constructor
  · intro i p hp
    have hlt := (List.getElem?_eq_some_iff.mp hp).1
    obtain ⟨hpairs, hlen, -⟩ := commit_selected_pairs env
      { ImeLogic.run env calls with selected := i } (inv_select _ hi i (fun _ => hlt)) i p rfl hp
    exact ⟨hpairs, hlen⟩
  · intro evs hevs hl
    have hrun : ∀ more, ImeLogic.run env (calls++more) =
        more.foldl (fun s c => s.apply env c) (ImeLogic.run env calls) := fun more =>
      List.foldl_append
    simp only [hrun]
    generalize ImeLogic.run env calls = s at hi hl ⊢
    have hbound := hi.ready.keys.bound
    unfold okPresses at hl ⊢
    cases ho : s.symPickerOpen with
    | false =>
      rw [ho, if_neg (by decide)] at hl
      obtain ⟨n, hn, hnil⟩ := presses_empty env evs hevs s hi ho (by omega)
      exact ⟨n, le_trans hn hbound, hnil⟩
    | true =>
      rw [ho, if_pos rfl] at hl
      cases evs with
      | nil => cases hl
      | cons ev evs =>
        rw [List.length_cons] at hl
        obtain ⟨hb, -, hopen⟩ := ok_closes env s ho ev (hevs ev (by simp))
        have hlen := (base_keys hb).2.2.2
        obtain ⟨n, hn, hnil⟩ := presses_empty env evs
          (fun e he => hevs e (List.mem_cons_of_mem _ he)) _ (inv_apply env s hi _) hopen (by omega)
        exact ⟨n+1, by simp only [if_pos]; omega, hnil⟩

def letterDat : Bytes :=
  [0x4D, 0x49, 0x45, 0x44]++le16 2++le16 0++le32 1++le32 24++le32 0++le32 0++[1, 0x2B]

def letterVal : Bytes := le16 1++le16 100++[0, 1]++utf8 'a'

/-- An English dictionary with the word a for the key of A and S. -/
def letterTrie : TrieSearcher := ⟨letterDat, letterVal, 1, 24, 2⟩

def letterA : Candidate := ⟨utf8 'a', 100, 0, by decide⟩

def letterEnv : Env where
  zhSearcher := none
  enSearcher := (TrieSearcher.loadFromMemory letterDat letterVal).map TrieSearch.ofDictionary
  compositionSearcher := none
  listener := true

theorem letter_found : letterTrie.search [0x2B] kMaxCandidates = [letterA] := by decide +kernel

theorem letter_alone (q : Bytes) (h : 1 < q.length) : letterTrie.search q kMaxCandidates = [] := by
  unfold TrieSearcher.search
  split
  · rfl
  · dsimp only
    have hle := TrieSearcher.lower_bound_le letterTrie q letterTrie.keyCount 0 letterTrie.keyCount
      (Nat.zero_le _)
    generalize TrieSearcher.lowerBound letterTrie q letterTrie.keyCount 0 letterTrie.keyCount = lo
      at hle ⊢
    have hcases : lo = 0 ∨ lo = 1 := by
      have hcount : letterTrie.keyCount = 1 := rfl
      omega
    rcases hcases with rfl | rfl
    · have hkey : byteAt letterTrie.dat (u32 (letterTrie.keysDataOff+
          load32 letterTrie.dat (TrieSearcher.kHeaderSize+0*TrieSearcher.kEntrySize))) = 1 := by
        decide +kernel
      rw [show letterTrie.keyCount-0 = 0+1 from rfl, TrieSearcher.scan]
      dsimp only
      rw [hkey, if_pos h]
      split
      · rfl
      · split <;> rfl
    · rfl

def letters (m : ℕ) : Bytes := List.replicate m 0x2B

theorem letters_get (m i : ℕ) (b : UInt8) (h : (letters m)[i]? = some b) : b = 0x2B :=
  List.eq_of_mem_replicate (List.mem_of_getElem? h)

theorem strip_letters (m : ℕ) : strippedKeys (letters m) = (letters m).zipIdx := by
  rw [strippedKeys, List.filter_eq_self]
  intro p hp
  have hb : p.1 = 0x2B := List.eq_of_mem_replicate (List.fst_mem_of_mem_zipIdx hp)
  rw [hb]
  rfl

theorem skip_letters (m : ℕ) : skipLength (letters m) = none := by
  rw [skipLength]
  split
  · rw [if_neg]
    rintro ⟨hlast, -⟩
    rw [List.getLast?_eq_getElem?] at hlast
    exact absurd (letters_get m _ _ hlast) (by decide)
  · rfl

theorem letter_loop (m slen : ℕ) (h : slen ≤ m) :
    (legacyLoop (.ofDictionary letterTrie) (letters m) slen ([], 0)).1 =
      if slen = 0 then [] else [(letterA, 1)] := by
  induction slen with
  | zero => rfl
  | succ slen ih =>
    have hkeys : ((strippedKeys (letters m)).take (slen+1)).map Prod.fst = letters (slen+1) := by
      rw [strip_letters, List.map_take, List.zipIdx_map_fst, letters, List.take_replicate,
        Nat.min_eq_left h, letters]
    rw [legacyLoop, if_neg (by decide), skip_letters, if_neg (by simp), hkeys]
    cases slen with
    | zero =>
      have hfound : (TrieSearch.ofDictionary letterTrie).search (letters (0+1)) kMaxCandidates =
          [letterA] := letter_found
      have hfirst : (strippedKeys (letters m))[0]? = some (0x2B, 0) := by
        have hpos : 0 < m := h
        rw [strip_letters, List.getElem?_zipIdx, letters, List.getElem?_replicate, if_pos hpos]
        rfl
      have hintent : extractToneIntent (letters m) (0+1) = 0 := by
        have hno : ∀ i (b : UInt8), b ≠ 0x2B → (letters m)[i]? ≠ some b :=
          fun i b hb hget => hb (letters_get m i b hget)
        rw [extractToneIntent, if_neg (by decide), if_neg (hno _ _ (by decide)),
          if_neg (hno _ _ (by decide))]
      rw [hfound, hfirst]
      dsimp only
      rw [hintent]
      rfl
    | succ slen =>
      have hlong : 1 < (letters (slen+1+1)).length := by simp [letters]
      have hfound : (TrieSearch.ofDictionary letterTrie).search (letters (slen+1+1))
          kMaxCandidates = [] := letter_alone _ hlong
      rw [hfound]
      exact ih (by omega)

structure Lettered (m : ℕ) (s : ImeLogic) : Prop where
  mode : s.mode = .smartEn
  idle : ¬ s.multitapPending
  keys : s.keys = letters m
  listed : 0 < m → s.candidates = [(letterA, 1)]

theorem lettered_search (m : ℕ) (s : ImeLogic) (hm : s.mode = .smartEn)
    (hidle : ¬ s.multitapPending) (hk : s.keys = letters m) : Lettered m (s.runSearch letterEnv) := by
  obtain ⟨hbm, hbk, -, -⟩ := base_keys (run_search_base letterEnv s)
  have hmulti : (s.runSearch letterEnv).multitap = s.multitap :=
    congrArg (fun b => b.2.2.2.2.1) (run_search_base letterEnv s)
  refine ⟨hbm.trans hm, ?_, hbk.trans hk, ?_⟩
  · rw [ImeLogic.multitapPending, hmulti]
    exact hidle
  · intro hpos
    have hlen : s.searchStart.keySeqLen ≠ 0 := by
      have hl := congrArg List.length hk
      rw [ImeLogic.keys, bytes_length, letters, List.length_replicate] at hl
      exact fun hz => Nat.ne_of_gt hpos (hl.symm.trans hz)
    have hstart : s.searchStart.mode = .smartEn := hm
    have hv4 : s.searchStart.v4Searcher letterEnv = none := by
      rw [ImeLogic.v4Searcher, hstart, if_neg (by decide)]
    have hactive : s.searchStart.activeSearcher letterEnv = some (.ofDictionary letterTrie) := by
      rw [ImeLogic.activeSearcher, hstart]
      rfl
    have hfound : (s.searchStart.runSearchV2Legacy letterEnv).candidates = [(letterA, 1)] := by
      rw [ImeLogic.runSearchV2Legacy, hactive]
      show (legacyLoop _ s.keys (strippedKeys s.keys).length ([], 0)).1 = _
      have hstrip : (strippedKeys (letters m)).length = m := by
        rw [strip_letters, List.length_zipIdx, letters, List.length_replicate]
      rw [hk, hstrip, letter_loop m m (le_refl m), if_neg (Nat.ne_of_gt hpos)]
    have hlegacy : (s.searchStart.runSearchV2Legacy letterEnv).mode = .smartEn :=
      (base_keys (legacy_retains letterEnv s.searchStart).base).1.trans hstart
    rw [ImeLogic.runSearch, if_neg hlen, hv4]
    dsimp only
    rw [ImeLogic.prependLruCandidates, hlegacy, if_pos (.inl (by decide)), hfound]

theorem lettered_quiet (m : ℕ) {s t : ImeLogic} (hm : t.mode = s.mode) (hk : t.keys = s.keys)
    (hmulti : t.multitap = s.multitap) (hc : t.candidates = s.candidates) (h : Lettered m s) :
    Lettered m t := by
  refine ⟨hm.trans h.mode, ?_, hk.trans h.keys, fun hpos => hc.trans (h.listed hpos)⟩
  rw [ImeLogic.multitapPending, hmulti]
  exact h.idle

theorem lettered_length (m : ℕ) (s : ImeLogic) (h : Lettered m s) : s.keySeqLen = m := by
  have hl := congrArg List.length h.keys
  rwa [ImeLogic.keys, bytes_length, letters, List.length_replicate] at hl

theorem lettered_changed (m : ℕ) (s : ImeLogic) (hm : s.mode = .smartEn)
    (hidle : ¬ s.multitapPending) (hk : s.keys = letters m) :
    Lettered m ((s.runSearch letterEnv).notifyChanged letterEnv) := by
  obtain ⟨hb, hf⟩ := log_quiet letterEnv (s.runSearch letterEnv) .compositionChanged
  obtain ⟨hbm, hbk, -, -⟩ := base_keys hb
  exact lettered_quiet m hbm hbk (congrArg (fun b => b.2.2.2.2.1) hb) (congrArg Prod.fst hf)
    (lettered_search m s hm hidle hk)

theorem lettered_taps (n m : ℕ) (s : ImeLogic) (h : Lettered m s) (hs : s.symState = (.none, false))
    (hroom : m+n ≤ kMaxKeySeq) :
    let t := (List.replicate n (press 0x0D 0)).foldl (fun s c => s.apply letterEnv c) s
    Lettered (m+n) t ∧ t.symState = (.none, false) := by
  induction n generalizing m s with
  | zero => exact ⟨h, hs⟩
  | succ n ih =>
    have hlen := lettered_length m s h
    have htap : s.apply letterEnv (press 0x0D 0) =
        (withTap (s.stampNow 0) 10).keysChanged letterEnv :=
      tap_search letterEnv s ⟨0x0D, true, 0, 0⟩ 10 ⟨0x0D, ['ㄇ', 'ㄋ'], [], ['a', 's', 'A', 'S']⟩
        rfl rfl rfl rfl (by rw [h.mode]; decide) (fun _ => rfl) h.idle (congrArg Prod.snd hs)
        (by omega)
    have hkeys : (withTap (s.stampNow 0) 10).keys = letters (m+1) := by
      rw [letters, List.replicate_succ', ← letters, ← h.keys]
      exact (key_append_bytes (s.stampNow 0) (slotByte 10) kHintAny).1
    have hnext := lettered_changed (m+1) (withTap (s.stampNow 0) 10) h.mode h.idle hkeys
    have hsym := (keys_changed_sym letterEnv (withTap (s.stampNow 0) 10)).trans hs
    rw [List.replicate_succ, List.foldl_cons, htap, Nat.add_comm n 1, ← Nat.add_assoc]
    exact ih (m+1) _ hnext hsym (by omega)

theorem sym1_press (s : ImeLogic) (nowMs : UInt32) (h : s.sym1.down = false) :
    s.apply letterEnv (press mokyaKeySym1 nowMs) =
      { s.stampNow nowMs with sym1 := ⟨true, false, nowMs⟩ } := by
  have hspecial : ¬ (mokyaKeySym1 = mokyaKeyBack ∨ mokyaKeySym1 = mokyaKeyNone ∨
      mokyaKeyLimit ≤ mokyaKeySym1) := by decide
  have hup : ¬ (s.stampNow nowMs).sym1.down = true := by simp [ImeLogic.stampNow, h]
  show ((s.stampNow nowMs).dispatchKey letterEnv ⟨mokyaKeySym1, true, nowMs, 0⟩).1 = _
  rw [ImeLogic.dispatchKey, if_neg hspecial, if_pos rfl, ImeLogic.handleSym1, if_pos rfl,
    if_neg hup]

theorem tick_opens (s : ImeLogic) (nowMs : UInt32) (hidle : ¬ s.multitapPending)
    (h : s.sym1.down = true ∧ ¬ s.sym1.longFired = true ∧
      kLongPressMs ≤ nowMs-s.sym1.pressedAtMs) :
    (s.apply letterEnv (.tick nowMs)).core = s.core ∧
    (s.apply letterEnv (.tick nowMs)).multitap = s.multitap ∧
    (s.apply letterEnv (.tick nowMs)).symPickerOpen = true := by
  have hexpire : (s.stampNow nowMs).expireMultitap letterEnv nowMs = (s.stampNow nowMs, false) := by
    rw [ImeLogic.expireMultitap, if_neg (fun hp => hidle hp.1)]
  have hopen : (s.stampNow nowMs).openPicker nowMs = ({ s.stampNow nowMs with
      sym1 := { s.sym1 with longFired := true }
      symPickerOpen := true
      symPickerSel := 0 }, true) := by
    rw [ImeLogic.openPicker]
    exact if_pos h
  have htick : s.apply letterEnv (.tick nowMs) = (({ s.stampNow nowMs with
      sym1 := { s.sym1 with longFired := true }
      symPickerOpen := true
      symPickerSel := 0 } : ImeLogic).lockCycle nowMs).notifyChanged letterEnv := by
    rw [ImeLogic.apply, ImeLogic.tick, hexpire]
    dsimp only
    rw [hopen]
    rfl
  rw [htick]
  unfold ImeLogic.notifyChanged ImeLogic.log ImeLogic.lockCycle
  split
  · split <;> exact ⟨rfl, rfl, rfl⟩
  · split <;> exact ⟨rfl, rfl, rfl⟩

theorem lettered_opens (m : ℕ) (s : ImeLogic) (h : Lettered m s)
    (hs : s.symState = (.none, false)) :
    let t := [press mokyaKeySym1 0, .tick 500].foldl (fun s c => s.apply letterEnv c) s
    Lettered m t ∧ t.symPickerOpen = true := by
  have hnone : s.sym1 = .none := congrArg Prod.fst hs
  have hpress := sym1_press s 0 (by rw [hnone]; rfl)
  have hlong : kLongPressMs ≤ 500-0 := by decide
  rw [List.foldl_cons, List.foldl_cons, List.foldl_nil, hpress]
  obtain ⟨hcore, hmulti, hopen⟩ := tick_opens { s.stampNow 0 with sym1 := ⟨true, false, 0⟩ } 500
    h.idle ⟨rfl, Bool.false_ne_true, hlong⟩
  simp only [ImeLogic.core, Prod.mk.injEq] at hcore
  exact ⟨lettered_quiet m (s := s) hcore.1 hcore.2.1 hmulti hcore.2.2.2 h, hopen⟩

theorem lettered_consume (m : ℕ) (s : ImeLogic) (h : s.keys = letters (m+1)) :
    (s.consumeKeys 1).keys = letters m := by
  have hlen : 1 ≤ s.keySeqLen := by
    have hl := congrArg List.length h
    rw [ImeLogic.keys, bytes_length, letters, List.length_replicate] at hl
    omega
  have hrest : (s.pairs.drop 1).map Prod.fst = letters m := by
    rw [List.map_drop, pairs_keys, h, letters, List.drop_replicate]
    rfl
  have htone : (s.pairs.drop 1).dropWhile (fun k => isToneKey k.1) = s.pairs.drop 1 := by
    cases hd : s.pairs.drop 1 with
    | nil => rfl
    | cons p rest =>
      have hmem : p.1 ∈ letters m := by
        rw [← hrest, hd]
        exact List.mem_cons_self
      rw [List.dropWhile_cons, List.eq_of_mem_replicate hmem, if_neg (by decide)]
  rw [← pairs_keys, consume_pairs s 1 ⟨le_refl 1, hlen⟩, htone]
  exact hrest

theorem lettered_ok (m : ℕ) (s : ImeLogic) (hi : Inv s) (h : Lettered (m+1) s)
    (ho : s.symPickerOpen = false) :
    Lettered m (s.apply letterEnv (press mokyaKeyOk 500)) := by
  have hlisted := h.listed (Nat.succ_pos m)
  have hcands : s.candidates ≠ [] := by
    rw [hlisted]
    exact List.cons_ne_nil _ _
  have hsel : s.selected = 0 := by
    have hlt := hi.selected hcands
    rw [hlisted, List.length_singleton] at hlt
    exact Nat.lt_one_iff.mp hlt
  have hchosen : (if (s.stampNow 500).selected < (s.stampNow 500).candidates.length then
      (s.stampNow 500).selected else 0) = 0 := by
    show (if s.selected < s.candidates.length then s.selected else 0) = 0
    rw [hsel, ite_self]
  have hfirst : (s.stampNow 500).candidates[0]? = some (letterA, 1) := by
    show s.candidates[0]? = _
    rw [hlisted]
    rfl
  obtain ⟨t, hb, -, ht⟩ := commit_selected_search letterEnv (s.stampNow 500) 0 (letterA, 1)
    hchosen hfirst
  have hready : Ready t := ready_of_base _ t hb (inv_stamp s hi 500).ready
  obtain ⟨-, hmode, hmulti⟩ := ready_consume t 1 hready
  have hsame : t.multitap = s.multitap := congrArg (fun b => b.2.2.2.2.1) hb
  rw [press, ok_commits letterEnv s hcands ho ⟨mokyaKeyOk, true, 500, 0⟩ ⟨rfl, rfl⟩, ht]
  apply lettered_changed m (t.consumeKeys 1)
  · exact hmode.trans ((base_keys hb).1.trans h.mode)
  · rw [ImeLogic.multitapPending, hmulti, hsame]
    exact h.idle
  · exact lettered_consume m t ((base_keys hb).2.1.trans h.keys)

/-- SmartEn, 64 taps, and `SYM1` held until the picker opens. -/
def pickerOverLetters : List Call :=
  press mokyaKeyMode 0::(List.replicate 64 (press 0x0D 0)++[press mokyaKeySym1 0, .tick 500])

theorem picker_over_letters : Lettered 64 (ImeLogic.run letterEnv pickerOverLetters) ∧
    (ImeLogic.run letterEnv pickerOverLetters).symPickerOpen = true := by
  have hfirst : Lettered 0 (ImeLogic.run letterEnv [press mokyaKeyMode 0]) ∧
      (ImeLogic.run letterEnv [press mokyaKeyMode 0]).symState = (.none, false) := by
    have hmode : (ImeLogic.run letterEnv [press mokyaKeyMode 0]).mode = .smartEn := by
      decide +kernel
    have hidle : ¬ (ImeLogic.run letterEnv [press mokyaKeyMode 0]).multitapPending := by
      decide +kernel
    have hkeys : (ImeLogic.run letterEnv [press mokyaKeyMode 0]).keys = [] := by decide +kernel
    exact ⟨⟨hmode, hidle, hkeys, fun h => absurd h (Nat.lt_irrefl 0)⟩, by decide +kernel⟩
  obtain ⟨hfull, hsym⟩ := lettered_taps 64 0 _ hfirst.1 hfirst.2 (by decide)
  have hrun : ImeLogic.run letterEnv pickerOverLetters =
      [press mokyaKeySym1 0, .tick 500].foldl (fun s c => s.apply letterEnv c)
        ((List.replicate 64 (press 0x0D 0)).foldl (fun s c => s.apply letterEnv c)
          (ImeLogic.run letterEnv [press mokyaKeyMode 0])) := by
    rw [pickerOverLetters, ImeLogic.run, List.foldl_cons, List.foldl_append]
    rfl
  rw [hrun]
  exact lettered_opens 64 _ hfull hsym

theorem lettered_presses (n m : ℕ) (s : ImeLogic) (hi : Inv s) (h : Lettered (m+n) s)
    (ho : s.symPickerOpen = false) :
    Lettered m ((List.replicate n (press mokyaKeyOk 500)).foldl (fun s c => s.apply letterEnv c)
      s) := by
  induction n generalizing s with
  | zero => exact h
  | succ n ih =>
    have hcands : s.candidates ≠ [] := by
      rw [h.listed (by omega)]
      exact List.cons_ne_nil _ _
    rw [List.replicate_succ, List.foldl_cons]
    exact ih _ (inv_apply letterEnv s hi _) (lettered_ok (m+n) s hi h ho)
      (ok_shortens letterEnv s hi hcands ho ⟨mokyaKeyOk, true, 500, 0⟩ ⟨rfl, rfl⟩).2

theorem lettered_under (m : ℕ) (s : ImeLogic) (hi : Inv s) (h : Lettered m s)
    (ho : s.symPickerOpen = true) (hpos : 0 < m) (n : ℕ) (hn : n ≤ m) :
    ∃ k, 0 < k ∧ Lettered k ((List.replicate n (press mokyaKeyOk 500)).foldl
      (fun s c => s.apply letterEnv c) s) := by
  cases n with
  | zero => exact ⟨m, hpos, h⟩
  | succ n =>
    obtain ⟨hb, hf, hclosed⟩ := ok_closes letterEnv s ho ⟨mokyaKeyOk, true, 500, 0⟩ ⟨rfl, rfl⟩
    obtain ⟨hm, hk, -, -⟩ := base_keys hb
    have hkept := lettered_quiet m hm hk (congrArg (fun b => b.2.2.2.2.1) hb)
      (congrArg Prod.fst hf) h
    have hsum : m-n+n = m := by omega
    rw [List.replicate_succ, List.foldl_cons]
    exact ⟨m-n, by omega, lettered_presses n (m-n) _ (inv_apply letterEnv s hi _)
      (hsum.symm ▸ hkept) hclosed⟩

/-- The picker takes the first press, so that 64 presses leave a key. -/
theorem picker_takes_a_press : ¬ ∃ n ≤ 64, (ImeLogic.run letterEnv
    (pickerOverLetters++List.replicate n (press mokyaKeyOk 500))).candidates = [] := by
  rintro ⟨n, hn, hnil⟩
  obtain ⟨hfull, hopen⟩ := picker_over_letters
  obtain ⟨k, hpos, hk⟩ := lettered_under 64 _ (inv_run letterEnv pickerOverLetters) hfull hopen
    (by decide) n hn
  rw [ImeLogic.run, List.foldl_append, ← ImeLogic.run, hk.listed hpos] at hnil
  exact List.cons_ne_nil _ _ hnil

end MokyaLora.Ime
