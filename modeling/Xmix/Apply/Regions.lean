import Xmix.PyStr

/-!
# Sentinel regions in one file

The editing half of `xmix/apply.py` on the lines of one target file: `_find_anchor`,
`_strip_app_regions`, `_insertion_point`, `_insert_stacked`. The two scanners keep their state
explicit: `stripGo` carries the `skipping` flag, `skipRegions` whether the inner loop of
`_insertion_point` is running.
-/

namespace Xmix.Apply

open List
open PyStr

inductive Exc where
  | applyError (msg : Str)
  | typeError
  | valueError
  | fileNotFound (path : Str)
deriving DecidableEq, Repr

def beginTag : Str := "# xmix:begin ".toList

def endTag : Str := "# xmix:end ".toList

def anchorComment (anchor : Str) : Str := "# xmix:anchor ".toList ++ anchor

def isBegin (line : Str) : Bool := startsWith beginTag (strip line)

def isEnd (line : Str) : Bool := startsWith endTag (strip line)

variable (lines : List Str) (indent appId anchor : Str)

def findAnchor (anchor : Str) : Option Nat :=
  lines.findIdx? fun line => strip line == anchorComment anchor

def tagged (appIds : Option (List Str)) (line : Str) : Bool :=
  match appIds with
  | none => true
  | some ids => ((split (strip line))[2]?).any ids.contains

def stripGo (appIds : Option (List Str)) : Bool → List Str → List Str
  | _, [] => []
  | skipping, line :: lines =>
    if !skipping && isBegin line && tagged appIds line then stripGo appIds true lines
    else if skipping && isEnd line then stripGo appIds false lines
    else if skipping then stripGo appIds true lines
    else line :: stripGo appIds false lines

def stripAppRegions (appIds : Option (List Str)) : List Str :=
  stripGo appIds false lines

def skipRegions (inside : Bool) : List Str → Nat
  -- the increment past an end marker also happens when the file ends inside a region
  | [] => if inside then 1 else 0
  | line :: lines =>
    if inside then 1 + skipRegions (!isEnd line) lines
    else if (strip line).isEmpty then 1 + skipRegions false lines
    else if isBegin line then 1 + skipRegions true lines
    else 0

def insertionPoint (anchorIdx : Nat) : Nat :=
  anchorIdx + 1 + skipRegions false (lines.drop (anchorIdx + 1))

def reindent (indent cl : Str) : Str := if (strip cl).isEmpty then [] else indent ++ cl

def beginLine : Str := indent ++ beginTag ++ appId ++ ' ' :: anchor

def endLine : Str := indent ++ endTag ++ appId ++ ' ' :: anchor

def block (code : List Str) : List Str :=
  beginLine indent appId anchor :: code.map (reindent indent) ++ [endLine indent appId anchor]

def insertStacked (anchor appId : Str) (code : List Str) : Except Exc (List Str) :=
  match findAnchor lines anchor with
  | none => .error .typeError
  | some idx =>
    let at_ := insertionPoint lines idx
    .ok (lines.take at_ ++ block (indentOf (lines.getD idx [])) appId anchor code ++ lines.drop at_)

/-! ### What the scanners read -/

theorem strip_reindent {i : Str} (hi : ∀ c ∈ i, isSpace c = true) (cl : Str) : strip (reindent i cl) = strip cl := by
  unfold reindent
  split
  · next h => rw [isEmpty_iff.1 h]; rfl
  · exact strip_append_space hi

theorem isEnd_reindent {i : Str} (hi : ∀ c ∈ i, isSpace c = true)
    {code : List Str} (hcode : ∀ cl ∈ code, isEnd cl = false) :
    ∀ l ∈ code.map (reindent i), isEnd l = false := by
  intro l hl
  obtain ⟨cl, hcl, rfl⟩ := mem_map.1 hl
  rw [isEnd, strip_reindent hi]
  exact hcode cl hcl

theorem strip_tag {i tag w : Str} (hi : ∀ c ∈ i, isSpace c = true) (htag : (tag.head?.any isSpace) = false)
    (hne : w ≠ []) (hw : ∀ c ∈ w, isSpace c = false) (s : Str) :
    strip (i ++ tag ++ w ++ s) = tag ++ w ++ rstrip s := by
  have hlast : isSpace (w.getLast hne) = false := hw _ (getLast_mem hne)
  have hwl : w ++ s = w.dropLast ++ w.getLast hne :: s := by
    conv_lhs => rw [← dropLast_append_getLast hne]
    simp
  have hhead : lstrip (tag ++ (w ++ s)) = tag ++ (w ++ s) := by
    cases tag with
    | nil =>
      obtain ⟨c, v, rfl⟩ := exists_cons_of_ne_nil hne
      simpa using lstrip_cons_of_not (hw c (by simp)) (v ++ s)
    | cons d t => exact lstrip_cons_of_not (by simpa using htag) _
  rw [append_assoc, append_assoc, strip_append_space hi, strip, hhead, hwl, ← append_assoc,
    rstrip_append_cons_of_not hlast]
  conv_rhs => rw [← dropLast_append_getLast hne]
  simp

theorem strip_beginLine {i app : Str} (hi : ∀ c ∈ i, isSpace c = true) (hne : app ≠ [])
    (happ : ∀ c ∈ app, isSpace c = false) (anchor : Str) :
    strip (beginLine i app anchor) = beginTag ++ app ++ rstrip (' ' :: anchor) :=
  strip_tag hi (by decide) hne happ _

theorem strip_endLine {i app : Str} (hi : ∀ c ∈ i, isSpace c = true) (hne : app ≠ [])
    (happ : ∀ c ∈ app, isSpace c = false) (anchor : Str) :
    strip (endLine i app anchor) = endTag ++ app ++ rstrip (' ' :: anchor) :=
  strip_tag hi (by decide) hne happ _

theorem split_beginLine {app : Str} (hne : app ≠ []) (happ : ∀ c ∈ app, isSpace c = false) (anchor : Str) :
    (split (beginTag ++ app ++ rstrip (' ' :: anchor)))[2]? = some app := by
  have hsp : isSpace ' ' = true := by decide
  have hfields : beginTag ++ app ++ rstrip (' ' :: anchor) =
      ['#'] ++ ' ' :: ("xmix:begin".toList ++ ' ' :: (app ++ rstrip (' ' :: anchor))) := rfl
  rw [hfields, split_word_append (by decide) (by decide) hsp, split_word_append (by decide) (by decide) hsp]
  -- what `rstrip` leaves of the anchor field is empty or still starts with the space
  rcases eq_nil_or_concat (rstrip (' ' :: anchor)) with hnil | ⟨t, d, ht⟩
  · rw [hnil, append_nil, split_word hne happ]; rfl
  · obtain ⟨u, hu⟩ : rstrip (' ' :: anchor) <+: ' ' :: anchor := rdropWhile_prefix _ _
    obtain ⟨v, hv⟩ : ∃ v, rstrip (' ' :: anchor) = ' ' :: v := by
      rw [ht] at hu ⊢
      cases t with
      | nil => exact ⟨[], by simp_all⟩
      | cons e t => exact ⟨t ++ [d], by simp_all⟩
    rw [hv, split_word_append hne happ hsp]; rfl

end Xmix.Apply
