import Xmix.PyStr

/-!
# Line patterns

Regular expressions made of literals, whitespace runs `\s*`, words `(\S+)` and word boundaries,
matched from the start of a line. `scan` reads greedily and never goes back. That is the meaning of
such a pattern wherever a whitespace run is followed by a literal that starts with a non-space and a
word by one that starts with a space (or by the end of the pattern): no shorter run or word could be
continued.
-/

namespace Xmix.LinePattern
open PyStr

inductive Item where
  | lit (p : Str)
  | spaces
  | word
  | boundary
deriving DecidableEq, Repr

def isWordChar (c : Char) : Bool := c.isAlphanum || c == '_'

def scan : List Item → Str → Option (List Str × Str)
  | [], s => some ([], s)
  | .lit p :: items, s => if startsWith p s then scan items (s.drop p.length) else none
  | .spaces :: items, s => scan items (lstrip s)
  | .word :: items, s =>
    let w := s.takeWhile fun c => !isSpace c
    if w.isEmpty then none
    else (scan items (s.dropWhile fun c => !isSpace c)).map fun r => (w :: r.1, r.2)
  -- the patterns here have a boundary only behind a literal that ends in a word character
  | .boundary :: items, s => if s.head?.any isWordChar then none else scan items s

def words (items : List Item) (s : Str) : Option (List Str) := (scan items s).map Prod.fst

@[simp] theorem scan_nil (s : Str) : scan [] s = some ([], s) := rfl

@[simp] theorem scan_lit (p : Str) (items : List Item) (s : Str) : scan (.lit p :: items) (p ++ s) = scan items s := by
  simp [scan, startsWith_append]

theorem scan_lit_of_not {p : Str} {s : Str} (h : startsWith p s = false) (items : List Item) :
    scan (.lit p :: items) s = none := by
  simp [scan, h]

@[simp] theorem scan_spaces (items : List Item) (s : Str) : scan (.spaces :: items) s = scan items (lstrip s) := rfl

def Word (w : Str) : Prop := w ≠ [] ∧ ∀ c ∈ w, isSpace c = false

instance (w : Str) : Decidable (Word w) := by unfold Word; infer_instance

theorem oneLine_of_word {w : Str} (h : Word w) : OneLine w := by
  intro c hc
  by_contra hb
  exact absurd (isSpace_of_isLineBreak (by simpa using hb)) (by simp [h.2 c hc])

theorem scan_word {w : Str} (hw : Word w) {s : Str}
    (hs : ∀ c ∈ s.head?, isSpace c = true) (items : List Item) :
    scan (.word :: items) (w ++ s) = (scan items s).map fun r => (w :: r.1, r.2) := by
  have htake : (w ++ s).takeWhile (fun c => !isSpace c) = w := by
    rw [List.takeWhile_append_of_pos (by simpa using hw.2)]
    cases s with
    | nil => simp
    | cons c s => simp [hs c (by simp)]
  have hdrop : (w ++ s).dropWhile (fun c => !isSpace c) = s := by
    rw [List.dropWhile_append_of_pos (by simpa using hw.2)]
    cases s with
    | nil => rfl
    | cons c s => simp [hs c (by simp)]
  have hemp : w.isEmpty = false := by simpa using hw.1
  simp [scan, htake, hdrop, hemp]

theorem scan_hash {c : Char} (hc : isSpace c = false) (items : List Item) (s : Str) :
    scan (.lit ['#'] :: .spaces :: items) ('#' :: ' ' :: c :: s) = scan items (c :: s) := by
  have hread : lstrip (' ' :: c :: s) = c :: s := by
    have := lstrip_append_space (i := [' ']) (s := c :: s) (by decide)
    rwa [lstrip_cons_of_not hc] at this
  have hlit := scan_lit ['#'] (.spaces :: items) (' ' :: c :: s)
  rwa [scan_spaces, hread] at hlit

theorem scan_field {w : Str} (hw : Word w) (q : Str) (items : List Item) (s : Str) :
    scan (.word :: .lit (' ' :: q) :: items) (w ++ ' ' :: (q ++ s)) = (scan items s).map fun r => (w :: r.1, r.2) := by
  rw [scan_word hw (by simp; decide), ← List.cons_append, scan_lit]

def fieldsText (fields : List (Str × Str)) : Str := fields.flatMap fun f => f.1 ++ ' ' :: f.2

def fieldItems (fields : List (Str × Str)) : List Item := fields.flatMap fun f => [.word, .lit (' ' :: f.2)]

theorem scan_fields {fields : List (Str × Str)} (h : ∀ f ∈ fields, Word f.1) (items : List Item) (s : Str) :
    scan (fieldItems fields ++ items) (fieldsText fields ++ s) =
      (scan items s).map fun r => (fields.map Prod.fst ++ r.1, r.2) := by
  induction fields with
  | nil => simp [fieldItems, fieldsText]
  | cons f fields ih =>
    have hf := scan_field (h f (by simp)) f.2 (fieldItems fields ++ items) (fieldsText fields ++ s)
    rw [ih fun f hf => h f (by simp [hf])] at hf
    simpa [fieldItems, fieldsText, Function.comp_def] using hf

theorem scan_tag {c : Char} (hc : isSpace c = false) {fields : List (Str × Str)} (h : ∀ f ∈ fields, Word f.1) (p : Str)
    (items : List Item) (s : Str) :
    scan (.lit ['#'] :: .spaces :: .lit (c :: p) :: (fieldItems fields ++ items))
      ('#' :: ' ' :: c :: (p ++ (fieldsText fields ++ s))) =
        (scan items s).map fun r => (fields.map Prod.fst ++ r.1, r.2) := by
  rw [scan_hash hc, ← scan_fields h]
  exact scan_lit (c :: p) _ _

theorem mem_scan {items : List Item} {s r : Str} {ws : List Str} (h : scan items s = some (ws, r)) :
    ∀ w ∈ ws, Word w := by
  induction items generalizing s ws with
  | nil => simp_all [scan]
  | cons item items ih =>
    cases item with
    | lit p =>
      rw [scan] at h
      split at h
      · exact ih h
      · cases h
    | spaces => exact ih h
    | boundary =>
      rw [scan] at h
      split at h
      · cases h
      · exact ih h
    | word =>
      simp only [scan] at h
      split at h
      · cases h
      · next hemp =>
        obtain ⟨⟨ws', r'⟩, hscan, heq⟩ := Option.map_eq_some_iff.1 h
        obtain ⟨rfl, rfl⟩ : _ :: ws' = ws ∧ r' = r := by simpa using heq
        intro w hw
        rcases List.mem_cons.1 hw with rfl | hw
        · exact ⟨by simpa using hemp, fun c hc => by simpa using List.mem_takeWhile_imp hc⟩
        · exact ih hscan w hw

end Xmix.LinePattern
