import MokyaLora.ImeContract
import MokyaLora.ImeCommits
import MokyaLora.Lib.Pages

/-!
# Candidate pages

The pages of five candidates that the input method offers, and the `TAB` key that turns
them.
-/

set_option autoImplicit false

namespace MokyaLora.Ime
open Lib.Fields Lib.Pages

namespace ImeLogic

variable (env : Env) (s : ImeLogic)

def pageCount : ℕ := (s.candidates.length+kPageSize-1)/kPageSize

def pageCandCount : ℕ :=
  if s.candidates.length = 0 then 0
  else
    let start := s.page*kPageSize
    let rem := s.candidates.length-start
    if rem < kPageSize then rem else kPageSize

def pageCand (i : ℕ) : Option (Candidate × ℕ) := s.candidates[s.page*kPageSize+i]?

def pageSel : ℕ := if s.candidates.length = 0 then 0 else s.selected%kPageSize

def shownPage : List (Option (Candidate × ℕ)) := (List.range s.pageCandCount).map s.pageCand

def processKeys (evs : List KeyEvent) : ImeLogic :=
  evs.foldl (fun s ev => (s.processKey env ev).1) s

end ImeLogic

def presses (evs : List KeyEvent) : ℕ := (evs.filter KeyEvent.pressed).length

section Shown

variable {s : ImeLogic}

theorem page_candidates (s : ImeLogic) :
    s.pageCandCount = (page kPageSize s.candidates s.page).length := by
  rw [ImeLogic.pageCandCount, page_length]
  by_cases hc : s.candidates.length = 0
  · rw [if_pos hc, hc, Nat.zero_sub, Nat.min_zero]
  · rw [if_neg hc]
    dsimp only
    split <;> omega

theorem shown_page (s : ImeLogic) :
    s.shownPage = (page kPageSize s.candidates s.page).map some := by
  apply List.ext_getElem?
  intro i
  rw [ImeLogic.shownPage, page_candidates, List.getElem?_map, List.getElem?_map]
  by_cases hi : i < (page kPageSize s.candidates s.page).length
  · have hsize : i < kPageSize := by
      rw [page_length] at hi
      omega
    have hcand := page_getElem? kPageSize s.candidates s.page i hsize
    rw [List.getElem?_eq_getElem hi] at hcand ⊢
    rw [List.getElem?_range hi, Option.map_some, ImeLogic.pageCand, ← hcand, Option.map_some]
  · rw [List.getElem?_eq_none (by rw [List.length_range]; omega),
      List.getElem?_eq_none (by omega)]
    rfl

theorem page_sel_cell (h : Inv s) (hc : s.candidates ≠ []) :
    s.page < s.pageCount ∧ s.shownPage[s.pageSel]? = some (s.candidates[s.selected]?) := by
  have hsel := h.selected hc
  have hsize : 0 < kPageSize := by decide
  have hpage : s.page = s.selected/kPageSize := if_neg hc
  have hcell : s.pageSel = s.selected%kPageSize :=
    if_neg (fun hl => hc (List.length_eq_zero_iff.mp hl))
  refine ⟨?_, ?_⟩
  · rw [hpage]
    exact page_of_lt hsize s.candidates s.selected hsel
  · rw [shown_page, hcell, hpage, List.getElem?_map, page_elem hsize,
      List.getElem?_eq_getElem hsel]
    rfl

end Shown

section Turn

variable (env : Env)

structure Turned (s : ImeLogic) (n : ℕ) (t : ImeLogic) : Prop where
  mode : t.mode = s.mode
  candidates : t.candidates = s.candidates
  closed : t.symPickerOpen = s.symPickerOpen
  page : t.page = (s.page+n)%s.pageCount

theorem smart_tab_turned {s : ImeLogic} (h : Inv s) (hc : s.candidates ≠ []) :
    Turned s 1 (s.smartTab env).1 := by
  have hpage := (page_sel_cell h hc).1
  have hhas : s.hasCandidates = true := by
    rw [ImeLogic.hasCandidates, List.isEmpty_eq_false_iff.mpr hc]
    rfl
  have hturn : (if s.candidates.length ≤ (s.page+1)*kPageSize then 0 else (s.page+1)*kPageSize) =
      (s.page+1)%s.pageCount*kPageSize := turn_start (by decide) s.candidates s.page hpage
  rw [ImeLogic.smartTab, if_pos hhas]
  dsimp only
  rw [hturn]
  have hnoted := log_noted env { s with selected := (s.page+1)%s.pageCount*kPageSize }
    .compositionChanged
  refine ⟨hnoted.keeps ImeLogic.mode (fun _ _ _ => rfl),
    hnoted.keeps ImeLogic.candidates (fun _ _ _ => rfl),
    hnoted.keeps ImeLogic.symPickerOpen (fun _ _ _ => rfl), ?_⟩
  refine (hnoted.keeps ImeLogic.page (fun _ _ _ => rfl)).trans ((if_neg hc).trans ?_)
  exact Nat.mul_div_cancel _ (by decide)

theorem ended_kept {s : ImeLogic} (h : Inv s) (p : Prop) [Decidable p] :
    Inv (if p then s.multitapCommit env else s) ∧
      Kept s (if p then s.multitapCommit env else s) := by
  split
  · exact ⟨inv_multitap_commit env s h, multitap_commit_kept env s⟩
  · exact ⟨h, rfl⟩

theorem tab_turned {s : ImeLogic} (h : Inv s) (hc : s.candidates ≠ [])
    (hclosed : s.symPickerOpen = false) (ev : KeyEvent) (htab : ev.keycode = mokyaKeyTab) :
    Turned s (presses [ev]) (s.processKey env ev).1 := by
  have hpage := (page_sel_cell h hc).1
  cases hp : ev.pressed with
  | false =>
    have hsame : s.processKey env ev = (s.stampNow ev.nowMs, false) := by
      rw [ImeLogic.processKey, ImeLogic.dispatchKey, htab, if_neg (by decide), if_neg (by decide),
        hp]
      rfl
    have hzero : presses [ev] = 0 := by
      rw [presses, List.filter_cons_of_neg (by rw [hp]; decide)]
      rfl
    rw [hsame, hzero]
    exact ⟨rfl, rfl, rfl, (Nat.mod_eq_of_lt hpage).symm⟩
  | true =>
    have hone : presses [ev] = 1 := by
      rw [presses, List.filter_cons_of_pos hp]
      rfl
    have hrouted : Routed (s.stampNow ev.nowMs) ev := by
      refine ⟨?_, ?_, hp, hclosed⟩ <;> rw [htab] <;> decide
    have hkey : InputKey ev.keycode := by
      rw [htab]
      refine ⟨?_, ?_, ?_, ?_, ?_⟩ <;> decide
    obtain ⟨hinv, hkept⟩ := ended_kept env (inv_stamp s h ev.nowMs)
      ((s.stampNow ev.nowMs).multitapPending ∧
        (s.stampNow ev.nowMs).multitap.keycode ≠ ev.keycode)
    rw [hone, ImeLogic.processKey, dispatch_input env _ ev hrouted hkey, ImeLogic.handleInput]
    generalize (if (s.stampNow ev.nowMs).multitapPending ∧
        (s.stampNow ev.nowMs).multitap.keycode ≠ ev.keycode then
        (s.stampNow ev.nowMs).multitapCommit env else s.stampNow ev.nowMs) = u at hinv hkept ⊢
    rw [Kept] at hkept
    have hmode : u.mode = s.mode := by rw [hkept]; rfl
    have hcand : u.candidates = s.candidates := by rw [hkept]; rfl
    have hopen : u.symPickerOpen = s.symPickerOpen := by rw [hkept]; rfl
    have hpageU : u.page = s.page := by rw [hkept]; rfl
    have hcount : u.pageCount = s.pageCount := by rw [ImeLogic.pageCount, hcand]; rfl
    have hsmart : s.mode ≠ .direct := fun hd => hc (inv_direct h hd).2
    have hturned := smart_tab_turned env hinv (hcand ▸ hc)
    have hsame : Turned s 1 (u.smartTab env).1 :=
      ⟨hturned.mode.trans hmode, hturned.candidates.trans hcand, hturned.closed.trans hopen,
        by rw [hturned.page, hpageU, hcount]⟩
    split
    · rename_i hd
      exact absurd (hmode.symm.trans hd) hsmart
    · rw [ImeLogic.handleSmart, htab, if_neg (by decide), if_pos rfl]
      exact hsame

theorem tabs_turned {s : ImeLogic} (h : Inv s) (hc : s.candidates ≠ [])
    (hclosed : s.symPickerOpen = false) (evs : List KeyEvent)
    (htab : ∀ ev ∈ evs, ev.keycode = mokyaKeyTab) :
    Inv (s.processKeys env evs) ∧ Turned s (presses evs) (s.processKeys env evs) := by
  induction evs generalizing s with
  | nil =>
    exact ⟨h, rfl, rfl, rfl, (Nat.mod_eq_of_lt (page_sel_cell h hc).1).symm⟩
  | cons ev evs ih =>
    have hfirst := tab_turned env h hc hclosed ev (htab ev List.mem_cons_self)
    have hcount : (s.processKey env ev).1.pageCount = s.pageCount := by
      rw [ImeLogic.pageCount, hfirst.candidates]
      rfl
    have hnext : Inv (s.processKey env ev).1 := inv_apply env s h (.processKey ev)
    obtain ⟨hinv, hrest⟩ := ih hnext (hfirst.candidates ▸ hc)
      (hfirst.closed.trans hclosed) (fun e he => htab e (List.mem_cons_of_mem ev he))
    have hsum : presses (ev::evs) = presses [ev]+presses evs := by
      rw [presses, presses, presses, ← List.length_append, ← List.filter_append]
      rfl
    refine ⟨hinv, hrest.mode.trans hfirst.mode, hrest.candidates.trans hfirst.candidates,
      hrest.closed.trans hfirst.closed, ?_⟩
    rw [hsum]
    refine hrest.page.trans ?_
    rw [hfirst.page, hcount, Nat.mod_add_mod, Nat.add_assoc]

end Turn

/-- In every state with candidates and no picker, `TAB` pressed `k` times shows the page `k`
pages on, as the accessors give it, with the selected candidate in the cell that is marked.
As many presses as there are pages lead back to the page, and show every candidate once; from
the first page on they show the candidates in order. -/
theorem tab_shows_every_candidate (env : Env) (calls : List Call) (evs : ℕ → List KeyEvent)
    (htab : ∀ k, ∀ ev ∈ evs k, ev.keycode = mokyaKeyTab) (hpresses : ∀ k, presses (evs k) = k)
    (hc : (ImeLogic.run env calls).candidates ≠ [])
    (hclosed : (ImeLogic.run env calls).symPickerOpen = false) :
    let s := ImeLogic.run env calls
    let t := fun k => s.processKeys env (evs k)
    (∀ k, (t k).candidates = s.candidates ∧ (t k).page = (s.page+k)%s.pageCount ∧
      (t k).shownPage = (page kPageSize s.candidates (t k).page).map some ∧
      (t k).shownPage[(t k).pageSel]? = some (s.candidates[(t k).selected]?)) ∧
    (t s.pageCount).page = s.page ∧
    ((List.range s.pageCount).flatMap (fun k => (t k).shownPage)).Perm (s.candidates.map some) ∧
    (s.page = 0 →
      (List.range s.pageCount).flatMap (fun k => (t k).shownPage) = s.candidates.map some) := by
  intro s t
  have h : Inv s := inv_run env calls
  have hturned : ∀ k, Inv (t k) ∧ Turned s k (t k) := by
    intro k
    have hrun := tabs_turned env h hc hclosed (evs k) (htab k)
    rwa [hpresses k] at hrun
  have hshown : ∀ k, (t k).shownPage =
      (page kPageSize s.candidates ((s.page+k)%s.pageCount)).map some := by
    intro k
    rw [shown_page, (hturned k).2.candidates, (hturned k).2.page]
  have hpages : (List.range s.pageCount).flatMap (fun k => (t k).shownPage) =
      ((List.range s.pageCount).flatMap
        (fun k => page kPageSize s.candidates ((s.page+k)%s.pageCount))).map some := by
    rw [List.map_flatMap]
    exact congrArg (fun f => List.flatMap f (List.range s.pageCount)) (funext hshown)
  refine ⟨fun k => ?_, ?_, ?_, fun hfirst => ?_⟩
  · obtain ⟨hinv, hk⟩ := hturned k
    refine ⟨hk.candidates, hk.page, ?_, ?_⟩
    · rw [hshown, hk.page]
    · have hcell := (page_sel_cell hinv (hk.candidates ▸ hc)).2
      rwa [hk.candidates] at hcell
  · rw [(hturned s.pageCount).2.page, Nat.add_mod_right]
    exact Nat.mod_eq_of_lt (page_sel_cell h hc).1
  · rw [hpages]
    exact (turned_pages (by decide) s.candidates s.page).map some
  · have horder : (List.range s.pageCount).flatMap
        (fun k => page kPageSize s.candidates ((s.page+k)%s.pageCount)) = s.candidates := by
      calc (List.range s.pageCount).flatMap
            (fun k => page kPageSize s.candidates ((s.page+k)%s.pageCount))
        _ = (List.range s.pageCount).flatMap (page kPageSize s.candidates) := by
          refine List.flatMap_congr (fun k hk => ?_)
          rw [hfirst, Nat.zero_add, Nat.mod_eq_of_lt (List.mem_range.mp hk)]
        _ = s.candidates := pages_flatten (by decide) s.candidates
    rw [hpages, horder]

def sevenWordEnv : Env where
  zhSearcher := (TrieSearcher.loadFromMemory
    ([0x4D, 0x49, 0x45, 0x44]++le16 2++le16 0++le32 1++le32 24++le32 0++le32 0++[1, 0x21])
    (le16 7++['八', '巴', '把', '爸', '拔', '吧', '罷'].flatMap
      (fun c => le16 100++[1, 3]++utf8 c))).map TrieSearch.ofDictionary
  enSearcher := none
  compositionSearcher := none
  listener := true

def tabKeys (k : ℕ) : List KeyEvent :=
  (List.replicate k [⟨mokyaKeyTab, true, 10, 0⟩, ⟨mokyaKeyTab, false, 20, 0⟩]).flatten

theorem presses_tab_keys (k : ℕ) : presses (tabKeys k) = k := by
  induction k with
  | zero => rfl
  | succ k ih =>
    rw [tabKeys, List.replicate_succ, List.flatten_cons, presses, List.filter_append,
      List.length_append]
    exact (congrArg (1+·) ih).trans (Nat.add_comm 1 k)

theorem seven_words_shown :
    let s := ImeLogic.run sevenWordEnv [press 0x01 0]
    s.candidates.length = 7 ∧ s.pageCount = 2 ∧
      (List.range 2).flatMap (fun k => (s.processKeys sevenWordEnv (tabKeys k)).shownPage) =
        s.candidates.map some := by
  intro s
  have hlen : s.candidates.length = 7 := by decide +kernel
  have htab : ∀ k, ∀ ev ∈ tabKeys k, ev.keycode = mokyaKeyTab := by
    intro k ev hev
    obtain ⟨l, hl, hmem⟩ := List.mem_flatten.mp hev
    rw [(List.mem_replicate.mp hl).2, List.mem_pair] at hmem
    rcases hmem with rfl | rfl <;> rfl
  have hall := tab_shows_every_candidate sevenWordEnv [press 0x01 0] tabKeys htab presses_tab_keys
    (fun hnil => by rw [show s.candidates = [] from hnil] at hlen; cases hlen) (by decide +kernel)
  have hcount : s.pageCount = 2 := by rw [ImeLogic.pageCount, hlen]; rfl
  exact ⟨hlen, hcount, hcount ▸ hall.2.2.2 (by decide +kernel)⟩

end MokyaLora.Ime
