import Xmix.Apply.Regions

/-!
# Files cut into lines and regions

A list of segments, each a plain line or a region from a begin line to an end line. Whatever a
segment carries besides its lines, the scanners of `apply.py` are operations on the list.
-/

namespace Xmix.Apply

open List
open PyStr

def Plain (line : Str) : Prop := isBegin line = false ∧ isEnd line = false

variable {l : Str}

theorem isBegin_of_isEnd (h : isEnd l = true) : isBegin l = false := by
  obtain ⟨t, ht⟩ := startsWith_iff.1 h
  rw [isBegin, ht]
  rfl

def splice (blk ls : List Str) : List Str :=
  ls.take (skipRegions false ls) ++ blk ++ ls.drop (skipRegions false ls)

def anchorLine (lines : List Str) (anchor : Str) : Str := (lines.find? fun l => strip l == anchorComment anchor).getD []

section Lines
variable (appIds : Option (List Str)) {body : List Str}

theorem stripGo_skip (h : ∀ l ∈ body, isEnd l = false) (ls : List Str) :
    stripGo appIds true (body ++ ls) = stripGo appIds true ls := by
  induction body with
  | nil => rfl
  | cons l body ih =>
    have hl : isEnd l = false := h l (by simp)
    rw [cons_append, stripGo]
    simpa [hl] using ih fun l hl => h l (by simp [hl])

theorem stripGo_keep_plain (h : ∀ l ∈ body, isBegin l = false)
    (ls : List Str) : stripGo appIds false (body ++ ls) = body ++ stripGo appIds false ls := by
  induction body with
  | nil => rfl
  | cons l body ih =>
    have hl : isBegin l = false := h l (by simp)
    rw [cons_append, stripGo]
    simpa [hl] using ih fun l hl => h l (by simp [hl])

theorem skipRegions_inside (h : ∀ l ∈ body, isEnd l = false) (ls : List Str) :
    skipRegions true (body ++ ls) = body.length + skipRegions true ls := by
  induction body with
  | nil => simp
  | cons l body ih =>
    have hl : isEnd l = false := h l (by simp)
    rw [cons_append, skipRegions]
    simp only [hl, if_true, Bool.not_false, ih fun l hl => h l (by simp [hl]), length_cons]
    omega

variable {anchor : Str}

theorem insertStacked_split {pre post : List Str} (appId : Str) (code : List Str)
    (hpre : ∀ l' ∈ pre, strip l' ≠ anchorComment anchor) (hl : strip l = anchorComment anchor) :
    insertStacked (pre ++ l :: post) anchor appId code =
      .ok (pre ++ l :: splice (block (indentOf l) appId anchor code) post) := by
  have hfind : findAnchor (pre ++ l :: post) anchor = some pre.length := by
    rw [findAnchor, findIdx?_append, findIdx?_eq_none_iff.2 (by simpa using hpre)]
    simp [findIdx?_cons, hl]
  have hget : (pre ++ l :: post).getD pre.length [] = l := by simp [getD]
  have hdrop : (pre ++ l :: post).drop (pre.length + 1) = post := by simp [drop_append]
  have htake : ∀ k, (pre ++ l :: post).take (pre.length + 1 + k) = pre ++ l :: post.take k := by
    intro k; rw [Nat.add_assoc, take_length_add_append, Nat.add_comm 1 k, take_succ_cons]
  have hdrop' : ∀ k, (pre ++ l :: post).drop (pre.length + 1 + k) = post.drop k := by
    intro k; rw [← drop_drop, hdrop]
  simp only [insertStacked, hfind, hget, insertionPoint, hdrop, htake, hdrop', splice]
  simp

theorem anchorLine_append {u : List Str} {anchor : Str} (h : ∀ l ∈ u, strip l ≠ anchorComment anchor) (v : List Str) :
    anchorLine (u ++ v) anchor = anchorLine v anchor := by
  rw [anchorLine, find?_append, find?_eq_none.2 (by simpa using h)]
  rfl

theorem anchorLine_cons (h : strip l = anchorComment anchor) (v : List Str) : anchorLine (l :: v) anchor = l := by
  simp [anchorLine, h]

theorem anchorLine_skip (h : strip l ≠ anchorComment anchor) (v : List Str) :
    anchorLine (l :: v) anchor = anchorLine v anchor :=
  anchorLine_append (u := [l]) (by simpa using h) v

end Lines

/-! ### One region -/

structure Delim where
  first : Str
  body : List Str
  last : Str
  begins : isBegin first = true
  ends : isEnd last = true
  plain : ∀ l ∈ body, Plain l

namespace Delim

variable (d : Delim)

def lines : List Str := d.first :: (d.body ++ [d.last])

theorem strip_first_ne : (strip d.first).isEmpty = false := by
  obtain ⟨t, ht⟩ := startsWith_iff.1 d.begins
  rw [ht]
  rfl

theorem strip_ne_anchor {a : Str} (hbody : ∀ l ∈ d.body, strip l ≠ anchorComment a) (h : l ∈ d.lines) :
    strip l ≠ anchorComment a := by
  rcases mem_cons.1 h with rfl | h
  · obtain ⟨t, ht⟩ := startsWith_iff.1 d.begins
    rw [ht]
    exact fun h => by injection h with _ h; injection h with _ h; cases h
  rcases mem_append.1 h with h | h
  · exact hbody l h
  · obtain ⟨t, ht⟩ := startsWith_iff.1 d.ends
    rw [mem_singleton.1 h, ht]
    exact fun h => by cases h

theorem stripGo_lines (appIds : Option (List Str)) (ls : List Str) :
    stripGo appIds false (d.lines ++ ls) = (if tagged appIds d.first then [] else d.lines) ++
      stripGo appIds false ls := by
  rw [lines, cons_append, append_assoc, singleton_append, stripGo]
  by_cases h : tagged appIds d.first = true
  · have hlast : stripGo appIds true (d.last :: ls) = stripGo appIds false ls := by rw [stripGo]; simp [d.ends]
    simp only [d.begins, h, Bool.not_false, Bool.and_self, if_true]
    rw [stripGo_skip appIds fun l hl => (d.plain l hl).2, hlast]
    rfl
  · have hlast : stripGo appIds false (d.last :: ls) = d.last :: stripGo appIds false ls := by
      rw [stripGo]; simp [isBegin_of_isEnd d.ends]
    simp only [h, Bool.and_false, Bool.false_eq_true, Bool.false_and, if_false]
    rw [stripGo_keep_plain appIds fun l hl => (d.plain l hl).1, hlast]
    simp

theorem skipRegions_lines (ls : List Str) :
    skipRegions false (d.lines ++ ls) = d.lines.length + skipRegions false ls := by
  rw [lines, cons_append, append_assoc, singleton_append, skipRegions]
  simp only [d.strip_first_ne, d.begins, if_true, Bool.false_eq_true, if_false]
  rw [skipRegions_inside fun l hl => (d.plain l hl).2, skipRegions]
  simp only [d.ends, if_true, Bool.not_true, length_cons, length_append, length_nil]
  omega

end Delim

/-! ### A list of segments -/

structure Cutting (σ : Type) where
  lines : σ → List Str
  own : σ → Option Str
  cut : ∀ s, (∃ l, Plain l ∧ lines s = [l] ∧ own s = some l) ∨ ∃ d : Delim, lines s = d.lines ∧ own s = none

namespace Cutting

variable {σ : Type} (C : Cutting σ)

def render (segs : List σ) : List Str := segs.flatMap C.lines

def ownLines (segs : List σ) : List Str := segs.filterMap C.own

def stack (x : σ) : List σ → List σ
  | [] => [x]
  | s :: segs => if (C.own s).all (fun l => (strip l).isEmpty) then s :: stack x segs else x :: s :: segs

def insert (x : Str → σ) (a : Str) : List σ → List σ
  | [] => []
  | s :: segs =>
    match C.own s with
    | some l => if strip l = anchorComment a then s :: C.stack (x l) segs else s :: insert x a segs
    | none => s :: insert x a segs

theorem render_cons (s : σ) (segs : List σ) : C.render (s :: segs) = C.lines s ++ C.render segs := rfl

variable {C} {segs : List σ} {a : Str}

section Strip
variable {appIds : Option (List Str)} {kept : σ → Bool}
  (hkept : ∀ s, kept s = ((C.own s).isSome || !tagged appIds ((C.lines s).headD [])))
include hkept

theorem strip_render : stripAppRegions (C.render segs) appIds = C.render (segs.filter kept) := by
  unfold stripAppRegions
  induction segs with
  | nil => rfl
  | cons s segs ih =>
    rw [filter_cons, hkept, render_cons]
    rcases C.cut s with ⟨l, hp, hl, ho⟩ | ⟨d, hl, ho⟩
    · rw [hl, ho, stripGo_keep_plain appIds (by simpa using hp.1), ih]
      simp [render_cons, hl]
    · rw [hl, ho, d.stripGo_lines, ih]
      cases h : tagged appIds d.first <;> simp [render_cons, hl, h, Delim.lines]

theorem ownLines_filter : C.ownLines (segs.filter kept) = C.ownLines segs := by
  rw [ownLines, filterMap_filter]
  refine filterMap_congr fun s _ => ?_
  rw [hkept]
  cases C.own s <;> simp

end Strip

theorem splice_render (x : σ) : splice (C.lines x) (C.render segs) = C.render (C.stack x segs) := by
  induction segs with
  | nil => simp [splice, stack, skipRegions, render]
  | cons s segs ih =>
    rw [stack, render_cons]
    rcases C.cut s with ⟨l, hp, hl, ho⟩ | ⟨d, hl, ho⟩
    · rw [hl, ho, singleton_append]
      by_cases hb : (strip l).isEmpty = true
      · have hskip : skipRegions false (l :: C.render segs) = skipRegions false (C.render segs) + 1 := by
          simp [skipRegions, hb, Nat.add_comm]
        rw [if_pos (by simpa using hb), render_cons, hl, ← ih, splice, hskip, take_succ_cons, drop_succ_cons]
        rfl
      · have hskip : skipRegions false (l :: C.render segs) = 0 := by simp [skipRegions, hb, hp.1]
        rw [if_neg (by simpa using hb), render_cons, render_cons, hl]
        simp [splice, hskip]
    · rw [hl, ho, if_pos (by simp), render_cons, hl, ← ih]
      simp only [splice, d.skipRegions_lines, take_length_add_append, drop_length_add_append, append_assoc]

theorem mem_render (h : l ∈ C.ownLines segs) : l ∈ C.render segs := by
  obtain ⟨s, hs, ho⟩ := mem_filterMap.1 h
  refine mem_flatMap.2 ⟨s, hs, ?_⟩
  rcases C.cut s with ⟨l', -, hl, ho'⟩ | ⟨d, -, ho'⟩
  · cases ho.symm.trans ho'
    exact hl ▸ mem_singleton.2 rfl
  · cases ho.symm.trans ho'

/-- The comment of the anchor is not among the lines of others. -/
def Outside (segs : List σ) (a : Str) : Prop := ∀ s ∈ segs, C.own s = none → ∀ l ∈ C.lines s, strip l ≠ anchorComment a

theorem mem_ownLines (hno : C.Outside segs a) (hl : l ∈ C.render segs)
    (ha : strip l = anchorComment a) : l ∈ C.ownLines segs := by
  obtain ⟨s, hs, hl⟩ := mem_flatMap.1 hl
  rcases C.cut s with ⟨l', -, hl', ho⟩ | ⟨d, -, ho⟩
  · rw [hl', mem_singleton] at hl
    exact mem_filterMap.2 ⟨s, hs, hl ▸ ho⟩
  · exact absurd ha (hno s hs ho l hl)

/-- A segment goes between two. -/
theorem inserts_stack (x : σ) (segs : List σ) : ∃ u v, segs = u ++ v ∧ C.stack x segs = u ++ x :: v := by
  induction segs with
  | nil => exact ⟨[], [], rfl, rfl⟩
  | cons s segs ih =>
    rw [stack]
    split
    · obtain ⟨u, v, rfl, heq⟩ := ih
      exact ⟨s :: u, v, rfl, by rw [heq]; rfl⟩
    · exact ⟨[], s :: segs, rfl, rfl⟩

/-- The first segment that is the anchor. -/
structure Found (C : Cutting σ) (a : Str) (segs pre : List σ) (s : σ) (post : List σ) : Prop where
  split : segs = pre ++ s :: post
  before : ∀ l ∈ C.ownLines pre, strip l ≠ anchorComment a
  own : C.own s = some (anchorLine (C.ownLines segs) a)
  anchor : strip (anchorLine (C.ownLines segs) a) = anchorComment a
  insert : ∀ x, C.insert x a segs = pre ++ s :: C.stack (x (anchorLine (C.ownLines segs) a)) post

theorem exists_found (ha : ∃ l ∈ C.ownLines segs, strip l = anchorComment a) :
    ∃ pre s post, C.Found a segs pre s post := by
  induction segs with
  | nil => simp [ownLines] at ha
  | cons s segs ih =>
    rcases ho : C.own s with - | l
    · have hown : ∀ segs, C.ownLines (s :: segs) = C.ownLines segs := fun _ => filterMap_cons_none ho
      rw [hown] at ha
      obtain ⟨pre, s', post, h⟩ := ih ha
      refine ⟨s :: pre, s', post, congrArg (s :: ·) h.split, by rw [hown]; exact h.before, by
        rw [hown, h.own], by rw [hown, h.anchor], fun x => ?_⟩
      simp only [insert, ho, hown, h.insert]
      rfl
    · have hown : ∀ segs, C.ownLines (s :: segs) = l :: C.ownLines segs := fun _ => filterMap_cons_some ho
      rw [hown] at ha
      by_cases hl : strip l = anchorComment a
      · refine ⟨[], s, segs, rfl, by simp [ownLines], ?_, ?_, fun x => ?_⟩
        · rw [hown, anchorLine_cons hl, ho]
        · rw [hown, anchorLine_cons hl, hl]
        · simp only [insert, ho, if_pos hl, hown, anchorLine_cons hl]
          rfl
      · obtain ⟨pre, s', post, h⟩ := ih (by simpa [hl] using ha)
        have hskip := anchorLine_skip hl (C.ownLines segs)
        refine ⟨s :: pre, s', post, congrArg (s :: ·) h.split,
          ?_, by rw [hown, hskip, h.own], by rw [hown, hskip, h.anchor], fun x => ?_⟩
        · simpa [hown, hl] using h.before
        · simp only [insert, ho, if_neg hl, hown, hskip, h.insert]
          rfl

section Anchor
variable (ha : ∃ l ∈ C.ownLines segs, strip l = anchorComment a)
include ha

theorem inserts_insert (x : Str → σ) : ∃ u v, segs = u ++ v ∧
      C.insert x a segs = u ++ x (anchorLine (C.ownLines segs) a) :: v := by
  obtain ⟨pre, s, post, h⟩ := exists_found ha
  obtain ⟨u, v, huv, hstack⟩ := C.inserts_stack (x (anchorLine (C.ownLines segs) a)) post
  exact ⟨pre ++ s :: u, v, by rw [h.split, huv, append_assoc]; rfl, by rw [h.insert, hstack, append_assoc]; rfl⟩

theorem insertStacked_render {x : Str → σ} {app : Str} {code : List Str}
    (hno : C.Outside segs a)
    (hx : C.lines (x (anchorLine (C.ownLines segs) a)) = block (indentOf (anchorLine (C.ownLines segs) a)) app a code) :
    insertStacked (C.render segs) a app code = .ok (C.render (C.insert x a segs)) := by
  obtain ⟨pre, s, post, h⟩ := exists_found ha
  have hline : C.lines s = [anchorLine (C.ownLines segs) a] := by
    rcases C.cut s with ⟨l, -, hl, ho⟩ | ⟨d, -, ho⟩
    · cases ho.symm.trans h.own
      exact hl
    · cases ho.symm.trans h.own
  have hpre : ∀ l ∈ C.render pre, strip l ≠ anchorComment a := fun l hl hstrip =>
    h.before l (mem_ownLines (fun s hs => hno s (h.split ▸ mem_append_left _ hs)) hl hstrip) hstrip
  have hrender : ∀ post, C.render (pre ++ s :: post) = C.render pre ++
    anchorLine (C.ownLines segs) a :: C.render post := fun post => by
    rw [render, flatMap_append, flatMap_cons, hline]
    rfl
  rw [h.insert, hrender, ← splice_render, hx, ← insertStacked_split app code hpre h.anchor, ← hrender, ← h.split]

end Anchor

theorem anchorLine_render (hno : C.Outside segs a) :
    anchorLine (C.render segs) a = anchorLine (C.ownLines segs) a := by
  induction segs with
  | nil => rfl
  | cons s segs ih =>
    have ih := ih fun s hs => hno s (mem_cons_of_mem _ hs)
    rw [render_cons]
    rcases C.cut s with ⟨l, hp, hl, ho⟩ | ⟨d, hl, ho⟩
    · rw [ownLines, filterMap_cons_some ho, hl, singleton_append]
      by_cases hl : strip l = anchorComment a
      · rw [anchorLine_cons hl, anchorLine_cons hl]
      · rw [anchorLine_skip hl, anchorLine_skip hl]
        exact ih
    · rw [ownLines, filterMap_cons_none ho, anchorLine_append (hno s mem_cons_self ho)]
      exact ih

end Cutting

end Xmix.Apply
