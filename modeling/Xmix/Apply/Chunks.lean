import Mathlib.Algebra.Order.Ring.Int
import Xmix.Apply.Overlay

/-!
# Delimited files

A file whose regions are properly delimited, however they came about: plain lines and, between them,
chunks from a begin line to an end line. Unlike the regions of the overlay a chunk may be indented as
it likes and its begin line may name anything. Each scanner of `apply.py` is an operation on the
pieces, and the chunks directly below an anchor are read off them.
-/

namespace Xmix.Apply

open List
open PyStr

structure Chunk where
  first : Str
  body : List Str
  last : Str
  begins : isBegin first = true
  ends : isEnd last = true
  plain : ∀ l ∈ body, Plain l
  noAnchor : ∀ l ∈ body, ∀ a, strip l ≠ anchorComment a

inductive Piece where
  | line (l : Str) (plain : Plain l)
  | chunk (c : Chunk)

variable (c : Chunk) (appIds : Option (List Str)) (a : Str) (ps : List Piece)

def Chunk.lines : List Str := c.first :: (c.body ++ [c.last])

def Piece.lines : Piece → List Str
  | .line l _ => [l]
  | .chunk c => c.lines

def rendered : List Str := ps.flatMap Piece.lines

/-- The lines are plain ones and whole regions. -/
def Delimited (lines : List Str) : Prop := ∃ ps, lines = rendered ps

@[simp] theorem rendered_line (l : Str) (h : Plain l) (ps : List Piece) :
    rendered (.line l h :: ps) = l :: rendered ps := rfl

@[simp] theorem rendered_chunk : rendered (.chunk c :: ps) = c.lines ++ rendered ps := rfl

def plainLines : List Str :=
  ps.filterMap fun
    | .line l _ => some l
    | .chunk _ => none

def Chunk.delim : Delim := ⟨c.first, c.body, c.last, c.begins, c.ends, c.plain⟩

theorem Chunk.strip_ne_anchor {l : Str} (h : l ∈ c.lines) (a : Str) : strip l ≠ anchorComment a :=
  c.delim.strip_ne_anchor (fun l hl => c.noAnchor l hl a) h

def Piece.own : Piece → Option Str
  | .line l _ => some l
  | .chunk _ => none

def Piece.cutting : Cutting Piece :=
  ⟨lines, own, fun
    | .line l h => .inl ⟨l, h, rfl, rfl⟩
    | .chunk c => .inr ⟨c.delim, rfl, rfl⟩⟩

theorem Piece.strip_ne_anchor (a : Str) : ∀ p : Piece, p.own = none → ∀ l ∈ p.lines, strip l ≠ anchorComment a
  | .chunk c, _, _, hl => c.strip_ne_anchor hl a

/-! ### Stripping -/

def Piece.kept : Piece → Bool
  | .line _ _ => true
  | .chunk c => !tagged appIds c.first

section Strip
variable (appIds : Option (List Str))

@[simp] theorem filter_line (l : Str) (h : Plain l) (ps : List Piece) :
    (Piece.line l h :: ps).filter (Piece.kept appIds) = .line l h :: ps.filter (Piece.kept appIds) := rfl

theorem filter_chunk (c : Chunk) (ps : List Piece) : (Piece.chunk c :: ps).filter (Piece.kept appIds) =
    if tagged appIds c.first then ps.filter (Piece.kept appIds) else .chunk c :: ps.filter (Piece.kept appIds) := by
  rw [filter_cons]
  cases h : tagged appIds c.first <;> simp [Piece.kept, h]

theorem Piece.kept_eq : ∀ p : Piece, p.kept appIds = (p.own.isSome || !tagged appIds (p.lines.headD []))
  | .line _ _ => rfl
  | .chunk _ => rfl

theorem stripAppRegions_rendered (ps : List Piece) :
    stripAppRegions (rendered ps) appIds = rendered (ps.filter (Piece.kept appIds)) :=
  Piece.cutting.strip_render (Piece.kept_eq appIds)

theorem plainLines_filter (ps : List Piece) : plainLines (ps.filter (Piece.kept appIds)) = plainLines ps :=
  Piece.cutting.ownLines_filter (Piece.kept_eq appIds)

end Strip

/-! ### Inserting -/

def stackChunk (c : Chunk) : List Piece → List Piece
  | [] => [.chunk c]
  | .line l h :: ps => if (strip l).isEmpty then .line l h :: stackChunk c ps else .chunk c :: .line l h :: ps
  | .chunk c' :: ps => .chunk c' :: stackChunk c ps

def insertChunk (a : Str) (c : Chunk) : List Piece → List Piece
  | [] => []
  | .line l h :: ps =>
    if strip l = anchorComment a then .line l h :: stackChunk c ps else .line l h :: insertChunk a c ps
  | .chunk c' :: ps => .chunk c' :: insertChunk a c ps

def HasAnchor (a : Str) : Prop := ∃ l ∈ plainLines ps, strip l = anchorComment a

theorem not_hasAnchor_nil {a : Str} : ¬ HasAnchor [] a := by
  rintro ⟨l, hl, -⟩
  cases hl

theorem HasAnchor.of_line {l a : Str} {h : Plain l} {ps : List Piece} (ha : HasAnchor (.line l h :: ps) a)
    (hl : strip l ≠ anchorComment a) : HasAnchor ps a := by
  obtain ⟨l', hl', hstrip⟩ := ha
  rcases mem_cons.1 hl' with rfl | hl'
  · exact absurd hstrip hl
  · exact ⟨l', hl', hstrip⟩

theorem insertChunk_eq (a : Str) (c : Chunk) (ps : List Piece) :
    insertChunk a c ps = Piece.cutting.insert (fun _ => .chunk c) a ps := by
  have hstack : ∀ ps, stackChunk c ps = Piece.cutting.stack (.chunk c) ps := fun ps => by
    induction ps with
    | nil => rfl
    | cons p ps ih => cases p <;> rw [stackChunk, ih] <;> rfl
  induction ps with
  | nil => rfl
  | cons p ps ih =>
    cases p with
    | line l h =>
      rw [insertChunk, ih, hstack]
      rfl
    | chunk c' =>
      rw [insertChunk, ih]
      rfl

/-- A chunk goes between two pieces. -/
def Inserts (ps ps' : List Piece) : Prop := ∃ u v, ps = u ++ v ∧ ps' = u ++ .chunk c :: v

theorem inserts_insertChunk {a : Str} (c : Chunk) {ps : List Piece} (ha : HasAnchor ps a) :
    Inserts c ps (insertChunk a c ps) := by
  rw [insertChunk_eq]
  exact Piece.cutting.inserts_insert ha _

theorem anchorLine_rendered (a : Str) : anchorLine (rendered ps) a = anchorLine (plainLines ps) a :=
  Piece.cutting.anchorLine_render fun p _ => p.strip_ne_anchor a

theorem insertStacked_rendered {ps : List Piece} {a app : Str} {code : List Str} {c : Chunk} (ha : HasAnchor ps a)
    (hc : c.lines = block (indentOf (anchorLine (plainLines ps) a)) app a code) :
    insertStacked (rendered ps) a app code = .ok (rendered (insertChunk a c ps)) := by
  rw [insertChunk_eq]
  exact Piece.cutting.insertStacked_render ha (fun p _ => p.strip_ne_anchor a) hc

/-! ### The regions directly below an anchor -/

def belowGo : Option (List Str) → List Str → List (List Str)
  | cur, [] => cur.toList
  | none, l :: ls => if (strip l).isEmpty then belowGo none ls else if isBegin l then belowGo (some [l]) ls else []
  | some r, l :: ls => if isEnd l then (r ++ [l]) :: belowGo none ls else belowGo (some (r ++ [l])) ls

def regionsBelow (lines : List Str) (a : Str) : List (List Str) :=
  match findAnchor lines a with
  | none => []
  | some i => belowGo none (lines.drop (i + 1))

def headChunks : List Piece → List Chunk
  | [] => []
  | .line l _ :: ps => if (strip l).isEmpty then headChunks ps else []
  | .chunk c :: ps => c :: headChunks ps

def chunksBelow (a : Str) : List Piece → List Chunk
  | [] => []
  | .line l _ :: ps => if strip l = anchorComment a then headChunks ps else chunksBelow a ps
  | .chunk _ :: ps => chunksBelow a ps

theorem belowGo_inside {body : List Str} (h : ∀ l ∈ body, isEnd l = false) (r ls : List Str) :
    belowGo (some r) (body ++ ls) = belowGo (some (r ++ body)) ls := by
  induction body generalizing r with
  | nil => simp
  | cons l body ih =>
    rw [cons_append, belowGo, if_neg (by simp [h l (by simp)]), ih fun l hl => h l (by simp [hl])]
    simp

theorem belowGo_rendered : belowGo none (rendered ps) = (headChunks ps).map Chunk.lines := by
  induction ps with
  | nil => rfl
  | cons p ps ih =>
    cases p with
    | line l h =>
      rw [rendered_line, belowGo, headChunks]
      by_cases hb : (strip l).isEmpty = true
      · rw [if_pos hb, if_pos hb, ih]
      · rw [if_neg hb, if_neg hb, if_neg (by simp [h.1])]; rfl
    | chunk c =>
      have hne : (strip c.first).isEmpty = false := c.delim.strip_first_ne
      have hlast : ∀ r, belowGo (some r) (c.last :: rendered ps) = (r ++ [c.last]) :: belowGo none (rendered ps) := by
        intro r
        rw [belowGo, if_pos c.ends]
      rw [rendered_chunk, Chunk.lines, cons_append, append_assoc, belowGo, if_neg (by simp [hne]), if_pos c.begins,
        belowGo_inside fun l hl => (c.plain l hl).2]
      refine (hlast _).trans ?_
      rw [ih, headChunks]
      simp [Chunk.lines]

theorem regionsBelow_anchor {l a : Str} (hl : strip l = anchorComment a) (post : List Str) :
    regionsBelow (l :: post) a = belowGo none post := by
  have hfind : findAnchor (l :: post) a = some 0 := by simp [findAnchor, findIdx?_cons, hl]
  rw [regionsBelow, hfind]
  rfl

theorem regionsBelow_append {pre : List Str} {a : Str} (hpre : ∀ l ∈ pre, strip l ≠ anchorComment a) (post : List Str) :
    regionsBelow (pre ++ post) a = regionsBelow post a := by
  have hfind : findAnchor (pre ++ post) a = (findAnchor post a).map (· + pre.length) := by
    rw [findAnchor, findIdx?_append, findIdx?_eq_none_iff.2 (by simpa using hpre), Option.none_or, findAnchor]
  rw [regionsBelow, regionsBelow, hfind]
  cases findAnchor post a with
  | none => rfl
  | some i =>
    have hdrop : (pre ++ post).drop (i + pre.length + 1) = post.drop (i + 1) := by
      rw [Nat.add_right_comm, Nat.add_comm, drop_length_add_append]
    simp [hdrop]

theorem regionsBelow_rendered : regionsBelow (rendered ps) a = (chunksBelow a ps).map Chunk.lines := by
  induction ps with
  | nil => rfl
  | cons p ps ih =>
    cases p with
    | line l h =>
      rw [rendered_line, chunksBelow]
      by_cases hl : strip l = anchorComment a
      · rw [if_pos hl, ← belowGo_rendered]
        exact regionsBelow_anchor hl _
      · rw [if_neg hl, ← ih]
        exact @regionsBelow_append [l] _ (by simpa using hl) _
    | chunk c => rw [rendered_chunk, chunksBelow, regionsBelow_append fun l hl => c.strip_ne_anchor hl a, ih]

theorem headChunks_filter :
    headChunks (ps.filter (Piece.kept appIds)) = (headChunks ps).filter fun c => !tagged appIds c.first := by
  induction ps with
  | nil => rfl
  | cons p ps ih =>
    cases p with
    | line l h =>
      rw [filter_line, headChunks, headChunks]
      split
      · exact ih
      · rfl
    | chunk c =>
      rw [filter_chunk, headChunks, filter_cons]
      split
      · next h => simp [h, ih]
      · next h => simp [h, headChunks, ih]

theorem chunksBelow_filter :
    chunksBelow a (ps.filter (Piece.kept appIds)) = (chunksBelow a ps).filter fun c => !tagged appIds c.first := by
  induction ps with
  | nil => rfl
  | cons p ps ih =>
    cases p with
    | line l h =>
      rw [filter_line, chunksBelow, chunksBelow]
      split
      · exact headChunks_filter appIds ps
      · exact ih
    | chunk c =>
      rw [filter_chunk, chunksBelow]
      split <;> exact ih

theorem headChunks_stackChunk : headChunks (stackChunk c ps) = headChunks ps ++ [c] := by
  induction ps with
  | nil => rfl
  | cons p ps ih =>
    cases p with
    | line l h =>
      rw [stackChunk]
      by_cases hb : (strip l).isEmpty = true
      · rw [if_pos hb, headChunks, if_pos hb, headChunks, if_pos hb, ih]
      · have hstop : headChunks (.line l h :: ps) = [] := by rw [headChunks, if_neg hb]
        rw [if_neg hb, hstop]
        show c :: headChunks (.line l h :: ps) = [c]
        rw [hstop]
    | chunk c' => rw [stackChunk, headChunks, headChunks, ih]; rfl

theorem headChunks_insertChunk (c : Chunk) (ps : List Piece) : headChunks (insertChunk a c ps) = headChunks ps := by
  induction ps with
  | nil => rfl
  | cons p ps ih =>
    cases p with
    | line l h =>
      rw [insertChunk]
      by_cases hl : strip l = anchorComment a
      · have hb : ¬ (strip l).isEmpty = true := by
          rw [hl]
          exact fun h => by cases h
        rw [if_pos hl, headChunks, if_neg hb, headChunks, if_neg hb]
      · rw [if_neg hl, headChunks, headChunks, ih]
    | chunk c' => rw [insertChunk, headChunks, headChunks, ih]

theorem chunksBelow_stackChunk : chunksBelow a (stackChunk c ps) = chunksBelow a ps := by
  induction ps with
  | nil => rfl
  | cons p ps ih =>
    cases p with
    | line l h =>
      rw [stackChunk]
      by_cases hb : (strip l).isEmpty = true
      · have hne : strip l ≠ anchorComment a := by
          rw [isEmpty_iff.1 hb]
          exact fun h => by cases h
        rw [if_pos hb, chunksBelow, if_neg hne, chunksBelow, if_neg hne, ih]
      · rw [if_neg hb]; rfl
    | chunk c' => rw [stackChunk, chunksBelow, chunksBelow, ih]

theorem chunksBelow_insertChunk {a : Str} (c : Chunk) {ps : List Piece} (ha : HasAnchor ps a) (a' : Str) :
    chunksBelow a' (insertChunk a c ps) = chunksBelow a' ps ++ if a = a' then [c] else [] := by
  induction ps with
  | nil => exact absurd ha not_hasAnchor_nil
  | cons p ps ih =>
    cases p with
    | line l h =>
      rw [insertChunk]
      by_cases hl : strip l = anchorComment a
      · rw [if_pos hl, chunksBelow, chunksBelow]
        by_cases haa : a = a'
        · rw [if_pos (haa ▸ hl), if_pos (haa ▸ hl), headChunks_stackChunk, if_pos haa]
        · have hne : strip l ≠ anchorComment a' := by
            rw [hl]
            exact fun h => haa (append_cancel_left h)
          rw [if_neg hne, if_neg hne, chunksBelow_stackChunk, if_neg haa, append_nil]
      · rw [if_neg hl, chunksBelow, chunksBelow]
        split
        · next hl' =>
          have haa : a ≠ a' := fun h => hl (h ▸ hl')
          rw [if_neg haa, append_nil, headChunks_insertChunk]
        · exact ih (ha.of_line hl)
    | chunk c' => rw [insertChunk, chunksBelow, chunksBelow, ih ha]

/-! ### Stacking a list of chunks -/

def insertChunks (cs : List (Str × Chunk)) (ps : List Piece) : List Piece :=
  cs.foldl (fun ps x => insertChunk x.1 x.2 ps) ps

section Stack
variable {cs : List (Str × Chunk)} {ps : List Piece}

theorem plainLines_insertChunk {a : Str} {c : Chunk} (ha : HasAnchor ps a) :
    plainLines (insertChunk a c ps) = plainLines ps := by
  obtain ⟨u, v, rfl, heq⟩ := inserts_insertChunk c ha
  rw [heq, plainLines, plainLines, filterMap_append, filterMap_append]
  rfl

theorem hasAnchor_insertChunk {a a' : Str} {c : Chunk} (ha : HasAnchor ps a) :
    HasAnchor (insertChunk a c ps) a' ↔ HasAnchor ps a' := by
  rw [HasAnchor, plainLines_insertChunk ha, HasAnchor]

section

variable (ha : ∀ x ∈ cs, HasAnchor ps x.1)
include ha

/-- What every insertion keeps, a batch keeps. -/
theorem insertChunks_keeps {P : List Piece → Prop}
    (hstep : ∀ x ∈ cs, ∀ ps, HasAnchor ps x.1 → P ps → P (insertChunk x.1 x.2 ps)) (h : P ps) :
    P (insertChunks cs ps) := by
  induction cs generalizing ps with
  | nil => exact h
  | cons x cs ih =>
    have hx := ha x mem_cons_self
    exact ih (fun y hy => (hasAnchor_insertChunk hx).2 (ha y (mem_cons_of_mem x hy)))
      (fun y hy => hstep y (mem_cons_of_mem x hy)) (hstep x mem_cons_self ps hx h)

theorem plainLines_insertChunks : plainLines (insertChunks cs ps) = plainLines ps :=
  insertChunks_keeps (P := fun ps' => plainLines ps' = plainLines ps) ha
    (fun _ _ _ hx h => (plainLines_insertChunk hx).trans h) rfl

theorem chunksBelow_insertChunks (a : Str) :
    chunksBelow a (insertChunks cs ps) = chunksBelow a ps ++ (cs.filter (·.1 = a)).map Prod.snd := by
  induction cs generalizing ps with
  | nil => simp [insertChunks]
  | cons x cs ih =>
    have hx := ha x mem_cons_self
    have hrest : ∀ y ∈ cs, HasAnchor (insertChunk x.1 x.2 ps) y.1 := fun y hy =>
      (hasAnchor_insertChunk hx).2 (ha y (mem_cons_of_mem x hy))
    have hstep : insertChunks (x :: cs) ps = insertChunks cs (insertChunk x.1 x.2 ps) := rfl
    rw [hstep, ih hrest, chunksBelow_insertChunk x.2 hx, filter_cons]
    by_cases hx : x.1 = a <;> simp [hx]

theorem filter_insertChunks {appIds : Option (List Str)} (h : ∀ x ∈ cs, tagged appIds x.2.first = true) :
    (insertChunks cs ps).filter (Piece.kept appIds) = ps.filter (Piece.kept appIds) := by
  refine insertChunks_keeps (P := fun ps' => ps'.filter (Piece.kept appIds) =
    ps.filter (Piece.kept appIds)) ha (fun x hx ps' hx' h' => ?_) rfl
  obtain ⟨u, v, rfl, heq⟩ := inserts_insertChunk x.2 hx'
  rw [← h', heq, filter_append, filter_append, filter_chunk, if_pos (h x hx)]

theorem insertChunks_perm : (insertChunks cs ps).Perm ((cs.map fun x => .chunk x.2) ++ ps) := by
  induction cs generalizing ps with
  | nil => exact .refl _
  | cons x cs ih =>
    have hx := ha x mem_cons_self
    refine (ih fun y hy => (hasAnchor_insertChunk hx).2 (ha y (mem_cons_of_mem x hy))).trans ?_
    obtain ⟨u, v, rfl, heq⟩ := inserts_insertChunk x.2 hx
    rw [heq]
    exact (perm_middle.append_left _).trans perm_middle

end

end Stack

end Xmix.Apply
