import Mathlib.Data.List.Dedup
import Mathlib.Data.List.DropRight
import Mathlib.Data.List.Sort

/-!
# Python text

The `str` operations the overlay tool is written with, over lists of code points: `strip`,
`startswith`, `split` (on whitespace and on a character), `splitlines` and `"\n".join`, and `str`
and `int` between integers and decimal text. The two character classes are the documented ones:
`isSpace` is `str.isspace` on one character (also what `\s` matches in a pattern on `str`),
`isLineBreak` lists the boundaries of `splitlines`.
-/

namespace Xmix

open List

abbrev Str := List Char

namespace PyStr

variable {c : Char} {s w : Str}

-- otherwise an instance for all characters may be found, which tries each of them
instance decidableForallMem (s : Str) (p : Char → Prop) [DecidablePred p] : Decidable (∀ c ∈ s, p c) :=
  decidableBAll p s

-- a literal is its list of characters: nothing has to decode it
theorem of_ofList {P : Str → Prop} {l : List Char} (h : P l) : P (String.ofList l).toList := by
  rwa [String.toList_ofList]

instance : LawfulBEq Str := inferInstanceAs (LawfulBEq (List Char))

def isSpace (c : Char) : Bool :=
  let n := c.toNat
  (9 ≤ n && n ≤ 13) || (28 ≤ n && n ≤ 32) || n == 0x85 || n == 0xa0 || n == 0x1680 ||
    (0x2000 ≤ n && n ≤ 0x200a) || n == 0x2028 || n == 0x2029 || n == 0x202f || n == 0x205f || n == 0x3000

def isLineBreak (c : Char) : Bool :=
  let n := c.toNat
  (10 ≤ n && n ≤ 13) || (28 ≤ n && n ≤ 30) || n == 0x85 || n == 0x2028 || n == 0x2029

def lstrip (s : Str) : Str := s.dropWhile isSpace

def rstrip (s : Str) : Str := s.rdropWhile isSpace

def strip (s : Str) : Str := rstrip (lstrip s)

def startsWith (p s : Str) : Bool := p.isPrefixOf s

def split (s : Str) : List Str := (s.splitOnP isSpace).filter (fun w => !w.isEmpty)

def splitAt (c : Char) (s : Str) : List Str := s.splitOn c

def splitlinesGo (cur : Str) : Str → List Str
  | [] => if cur.isEmpty then [] else [cur.reverse]
  | '\r' :: '\n' :: s => cur.reverse :: splitlinesGo [] s
  | c :: s => if isLineBreak c then cur.reverse :: splitlinesGo [] s else splitlinesGo (c :: cur) s

def splitlines (s : Str) : List Str := splitlinesGo [] s

def join (sep : Str) (parts : List Str) : Str := sep.intercalate parts

def unlines (lines : List Str) : Str := join ['\n'] lines ++ ['\n']

def universalNewlines : Str → Str
  | [] => []
  | '\r' :: '\n' :: s => '\n' :: universalNewlines s
  | c :: s => (if c = '\r' then '\n' else c) :: universalNewlines s

def leStr (a b : Str) : Bool := !lex b a fun c d => c.toNat < d.toNat

def sortedSet (words : List Str) : List Str := words.dedup.insertionSort (leStr · ·)

theorem mem_join {sep : Str} {parts : List Str} (h : c ∈ join sep parts) : c ∈ sep ∨ ∃ p ∈ parts, c ∈ p := by
  induction parts with
  | nil => simp [join] at h
  | cons p parts ih =>
    cases parts with
    | nil => exact .inr ⟨p, by simp, by simpa [join] using h⟩
    | cons q parts =>
      simp only [join, intercalate_cons_cons, mem_append] at h ih
      rcases h with (h | h) | h
      · exact .inr ⟨p, by simp, h⟩
      · exact .inl h
      · rcases ih h with h | ⟨r, hr, hc⟩
        · exact .inl h
        · exact .inr ⟨r, mem_cons_of_mem _ hr, hc⟩

theorem mem_sortedSet {words : List Str} : w ∈ sortedSet words ↔ w ∈ words :=
  (mem_insertionSort _).trans mem_dedup

/-! ### `strip` -/

theorem lstrip_append_space {i : Str} (hi : ∀ c ∈ i, isSpace c = true) : lstrip (i ++ s) = lstrip s := by
  induction i with
  | nil => rfl
  | cons c i ih =>
    have hc : isSpace c = true := hi c (by simp)
    simp only [lstrip, cons_append, dropWhile_cons, hc, if_true]
    exact ih fun d hd => hi d (by simp [hd])

theorem strip_append_space {i : Str} (hi : ∀ c ∈ i, isSpace c = true) : strip (i ++ s) = strip s := by
  simp [strip, lstrip_append_space hi]

theorem lstrip_cons_of_not (hc : isSpace c = false) (s : Str) : lstrip (c :: s) = c :: s := by
  simp [lstrip, hc]

theorem rstrip_append_cons_of_not (hc : isSpace c = false) (u v : Str) :
    rstrip (u ++ c :: v) = u ++ c :: rstrip v := by
  induction v using reverseRecOn with
  | nil => simp [rstrip, hc]
  | append_singleton v d ih =>
    have hassoc : u ++ c :: (v ++ [d]) = (u ++ c :: v) ++ [d] := by simp
    by_cases hd : isSpace d = true
    · simp only [rstrip] at ih ⊢
      rw [hassoc, rdropWhile_concat_pos _ _ _ hd, rdropWhile_concat_pos _ _ _ hd, ih]
    · simp only [rstrip]
      rw [hassoc, rdropWhile_concat_neg _ _ _ hd, rdropWhile_concat_neg _ _ _ hd, ← hassoc]

theorem strip_cons_of_not (hc : isSpace c = false) (s : Str) : strip (c :: s) = c :: rstrip s := by
  rw [strip, lstrip_cons_of_not hc]
  simpa using rstrip_append_cons_of_not hc [] s

theorem strip_eq_self (hhead : ∀ c ∈ s.head?, isSpace c = false) (hlast : ∀ c ∈ s.getLast?, isSpace c = false) :
    strip s = s := by
  have hl : lstrip s = s := by
    cases s with
    | nil => rfl
    | cons c s => exact lstrip_cons_of_not (hhead c (by simp)) s
  rcases eq_nil_or_concat s with rfl | ⟨t, d, rfl⟩
  · rfl
  · rw [strip, hl, concat_eq_append, rstrip_append_cons_of_not (hlast d (by simp))]
    rfl

def indentOf (line : Str) : Str := line.take (line.length - (lstrip line).length)

theorem indentOf_eq_takeWhile (line : Str) : indentOf line = line.takeWhile isSpace := by
  have h : line.takeWhile isSpace ++ lstrip line = line := takeWhile_append_dropWhile
  have hlen : line.length - (lstrip line).length = (line.takeWhile isSpace).length := by
    have := congrArg length h
    simp only [length_append] at this
    omega
  rw [indentOf, hlen]
  exact (prefix_iff_eq_take.1 ( takeWhile_prefix _)).symm

theorem indentOf_space (line : Str) : ∀ c ∈ indentOf line, isSpace c = true := by
  rw [indentOf_eq_takeWhile]
  exact fun c hc => mem_takeWhile_imp hc

/-! ### `startswith` and `split` -/

theorem startsWith_append (p s : Str) : startsWith p (p ++ s) = true := by
  simp [startsWith]

theorem startsWith_iff {p : Str} : startsWith p s = true ↔ ∃ t, s = p ++ t := by
  rw [startsWith, isPrefixOf_iff_prefix]
  exact ⟨fun ⟨t, ht⟩ => ⟨t, ht.symm⟩, fun ⟨t, ht⟩ => ⟨t, ht.symm⟩⟩

theorem split_word_append (hne : w ≠ []) (hw : ∀ c ∈ w, isSpace c = false)
    (hc : isSpace c = true) (s : Str) : split (w ++ c :: s) = w :: split s := by
  have hemp : w.isEmpty = false := by cases w <;> simp_all
  rw [split, splitOnP_append_cons_of_forall_mem hw c hc, filter_cons]
  simp [hemp, split]

theorem of_mem_splitOnP {p : Char → Bool} (h : w ∈ s.splitOnP p) : ∀ c ∈ w, p c = false := by
  induction s generalizing w with
  | nil =>
    obtain rfl : w = [] := by simpa using h
    simp
  | cons d s ih =>
    rw [splitOnP_cons_eq_if_modifyHead] at h
    split at h
    · rcases mem_cons.1 h with rfl | h
      · simp
      · exact ih h
    · next hd =>
      obtain ⟨v, vs, hvs⟩ := exists_cons_of_ne_nil (splitOnP_ne_nil p s)
      rw [hvs] at h ih
      rcases mem_cons.1 h with rfl | h
      · intro c hc
        rcases mem_cons.1 hc with rfl | hc
        · simpa using hd
        · exact ih (by simp) c hc
      · exact ih (by simp [h])

theorem of_mem_split (h : w ∈ split s) : w ≠ [] ∧ ∀ c ∈ w, isSpace c = false := by
  obtain ⟨hmem, hne⟩ := mem_filter.1 h
  exact ⟨by simpa using hne, of_mem_splitOnP hmem⟩

theorem split_word (hne : w ≠ []) (hw : ∀ c ∈ w, isSpace c = false) : split w = [w] := by
  have hemp : w.isEmpty = false := by cases w <;> simp_all
  rw [split, splitOnP_eq_singleton hw]
  simp [hemp]

/-! ### Lines and the text they are written as -/

theorem isSpace_of_isLineBreak (h : isLineBreak c = true) : isSpace c = true := by
  simp only [isLineBreak, isSpace, Bool.or_eq_true, Bool.and_eq_true, decide_eq_true_eq, beq_iff_eq] at h ⊢
  omega

def OneLine (s : Str) : Prop := ∀ c ∈ s, isLineBreak c = false

instance (l : Str) : Decidable (OneLine l) := inferInstanceAs (Decidable (∀ c ∈ l, isLineBreak c = false))

theorem oneLine_join {sep : Str} {parts : List Str} (hsep : OneLine sep) (h : ∀ p ∈ parts, OneLine p) :
    OneLine (join sep parts) := by
  intro c hc
  rcases mem_join hc with hc | ⟨p, hp, hc⟩
  · exact hsep c hc
  · exact h p hp c hc

theorem oneLine_append {t : Str} : OneLine (s ++ t) ↔ OneLine s ∧ OneLine t := by
  simp [OneLine, or_imp, forall_and]

def physical (s : Str) : List Str := splitlines (s ++ ['\n'])

theorem splitlinesGo_append (cur s t : Str) :
    splitlinesGo cur (s ++ '\n' :: t) = splitlinesGo cur (s ++ ['\n']) ++ splitlinesGo [] t := by
  -- on the scanner's own cases: a `\r` at the end of `s` pairs up with the `\n` on both sides
  induction hn : s.length using Nat.strong_induction_on generalizing cur s with
  | _ n ih =>
    match s with
    | [] => simp [splitlinesGo, isLineBreak]
    | ['\r'] => simp [splitlinesGo]
    | '\r' :: '\n' :: s =>
      simp only [cons_append, splitlinesGo]
      rw [ih s.length (by simp at hn; omega) [] s rfl]
    | c :: s =>
      by_cases hpair : c = '\r' ∧ s.head? = some '\n'
      · obtain ⟨rfl, hs⟩ := hpair
        obtain ⟨d, s, rfl⟩ : ∃ d r, s = d :: r := by cases s <;> simp_all
        obtain rfl : d = '\n' := by simpa using hs
        simp only [cons_append, splitlinesGo]
        rw [ih s.length (by simp at hn; omega) [] s rfl]
      · by_cases hend : c = '\r' ∧ s = []
        · obtain ⟨rfl, rfl⟩ := hend
          simp [splitlinesGo]
        · have hstep : ∀ u : Str, splitlinesGo cur (c :: (s ++ '\n' :: u)) =
              if isLineBreak c then cur.reverse :: splitlinesGo [] (s ++ '\n' :: u)
              else splitlinesGo (c :: cur) (s ++ '\n' :: u) := by
            intro u
            rw [splitlinesGo]
            rintro s' rfl hs'
            cases s with
            | nil => exact hend ⟨rfl, rfl⟩
            | cons d s => exact hpair ⟨rfl, by simp_all⟩
          simp only [cons_append, hstep]
          split
          · rw [ih s.length (by simp at hn; omega) [] s rfl]; rfl
          · exact ih s.length (by simp at hn; omega) (c :: cur) s rfl

theorem splitlines_unlines {lines : List Str} (hne : lines ≠ []) :
    splitlines (unlines lines) = lines.flatMap physical := by
  induction lines with
  | nil => exact absurd rfl hne
  | cons l lines ih =>
    cases lines with
    | nil => simp [unlines, join, physical]
    | cons l' lines =>
      have htext : unlines (l :: l' :: lines) = l ++ '\n' :: unlines (l' :: lines) := by
        simp [unlines, join, intercalate_cons_cons]
      rw [htext, splitlines, splitlinesGo_append]
      exact congrArg (physical l ++ ·) (ih (by simp))

theorem splitlinesGo_oneLine (h : OneLine s) (cur : Str) :
    splitlinesGo cur (s ++ ['\n']) = [cur.reverse ++ s] := by
  induction s generalizing cur with
  | nil => simp [splitlinesGo, isLineBreak]
  | cons c s ih =>
    have hc : isLineBreak c = false := h c (by simp)
    rw [cons_append, splitlinesGo]
    · rw [if_neg (by simp [hc]), ih fun d hd => h d (by simp [hd])]
      simp
    · rintro s' rfl -
      simp [isLineBreak] at hc

theorem physical_oneLine (h : OneLine s) : physical s = [s] := splitlinesGo_oneLine h []

theorem flatMap_physical {lines : List Str} (h : ∀ l ∈ lines, OneLine l) : lines.flatMap physical = lines := by
  induction lines with
  | nil => rfl
  | cons l lines ih =>
    rw [flatMap_cons, physical_oneLine (h l (by simp)), ih fun l hl => h l (by simp [hl])]
    rfl

theorem splitlines_unlines_oneLine {lines : List Str} (hne : lines ≠ []) (h : ∀ l ∈ lines, OneLine l) :
    splitlines (unlines lines) = lines := by
  rw [splitlines_unlines hne, flatMap_physical h]

theorem oneLine_of_mem_splitlinesGo {cur l : Str} (hcur : OneLine cur) (h : l ∈ splitlinesGo cur s) : OneLine l := by
  fun_induction splitlinesGo cur s with
  | case1 cur hemp => simp at h
  | case2 cur hemp =>
    rw [mem_singleton] at h
    subst h
    exact fun c hc => hcur c (by simpa using hc)
  | case3 cur s ih =>
    rcases mem_cons.1 h with rfl | h
    · exact fun c hc => hcur c (by simpa using hc)
    · exact ih (by simp [OneLine]) h
  | case4 cur c s _ hc ih =>
    rcases mem_cons.1 h with rfl | h
    · exact fun c hc => hcur c (by simpa using hc)
    · exact ih (by simp [OneLine]) h
  | case5 cur c s _ hc ih =>
    refine ih ?_ h
    intro d hd
    rcases mem_cons.1 hd with rfl | hd
    · simpa using hc
    · exact hcur d hd

theorem oneLine_of_mem_splitlines {l : Str} (h : l ∈ splitlines s) : OneLine l :=
  oneLine_of_mem_splitlinesGo (by simp [OneLine]) h

theorem splitlines_universalNewlines (s : Str) : splitlines (universalNewlines s) = splitlines s := by
  suffices h : ∀ cur, splitlinesGo cur (universalNewlines s) = splitlinesGo cur s from h []
  fun_induction universalNewlines s with
  | case1 => exact fun _ => rfl
  | case2 s ih => intro cur; simp [splitlinesGo, isLineBreak, ih]
  | case3 c s hpair ih =>
    intro cur
    have hright : splitlinesGo cur (c :: s) =
        if isLineBreak c then cur.reverse :: splitlinesGo [] s else splitlinesGo (c :: cur) s := by
      rw [splitlinesGo]; exact fun r hc hr => hpair r hc hr
    by_cases hc : c = '\r'
    · subst hc
      rw [hright, if_pos rfl, splitlinesGo]
      · simp [isLineBreak, ih]
      · simp
    · rw [hright, if_neg hc, splitlinesGo]
      · simp [ih]
      · exact fun r h => absurd h hc

/-! ### Integers as text -/

def digitZeros : List Nat :=
  [0x30, 0x660, 0x6f0, 0x7c0, 0x966, 0x9e6, 0xa66, 0xae6, 0xb66, 0xbe6, 0xc66, 0xce6, 0xd66, 0xde6, 0xe50, 0xed0,
    0xf20, 0x1040, 0x1090, 0x17e0, 0x1810, 0x1946, 0x19d0, 0x1a80, 0x1a90, 0x1b50, 0x1bb0, 0x1c40, 0x1c50, 0xa620,
    0xa8d0, 0xa900, 0xa9d0, 0xa9f0, 0xaa50, 0xabf0, 0xff10, 0x104a0, 0x10d30, 0x11066, 0x110f0, 0x11136, 0x111d0,
    0x112f0, 0x11450, 0x114d0, 0x11650, 0x116c0, 0x11730, 0x118e0, 0x11950, 0x11c50, 0x11d50, 0x11da0, 0x11f50,
    0x16a60, 0x16ac0, 0x16b50, 0x1d7ce, 0x1d7d8, 0x1d7e2, 0x1d7ec, 0x1d7f6, 0x1e140, 0x1e2f0, 0x1e4d0, 0x1e950,
    0x1fbf0]

def digitVal (c : Char) : Option Nat :=
  (digitZeros.find? fun z => z ≤ c.toNat && c.toNat < z + 10).map (c.toNat - ·)

def digitsGo : Str → Nat → Bool → Option Nat
  | [], acc, afterDigit => if afterDigit then some acc else none
  | '_' :: s, acc, true => digitsGo s acc false
  | c :: s, acc, _ => (digitVal c).bind fun d => digitsGo s (10 * acc + d) true

def pyInt (s : Str) : Option Int :=
  match strip s with
  | '-' :: t => (digitsGo t 0 false).map fun n => -(n : Int)
  | '+' :: t => (digitsGo t 0 false).map Int.ofNat
  | t => (digitsGo t 0 false).map Int.ofNat

def natStr (n : Nat) : Str := Nat.toDigits 10 n

def intStr : Int → Str
  | .ofNat n => natStr n
  | .negSucc n => '-' :: natStr (n + 1)

theorem digit_of_mem_natStr {n : Nat} (h : c ∈ natStr n) : 48 ≤ c.toNat ∧ c.toNat ≤ 57 := by
  have hd : c.isDigit = true := Nat.isDigit_of_mem_toDigits (by decide) (by decide) h
  simpa [Char.isDigit, UInt32.le_iff_toNat_le] using hd

theorem natStr_ne_nil (n : Nat) : natStr n ≠ [] := Nat.toDigits_ne_nil

theorem isSpace_of_mem_natStr {n : Nat} (h : c ∈ natStr n) : isSpace c = false := by
  obtain ⟨h₁, h₂⟩ := digit_of_mem_natStr h
  simp only [isSpace, Bool.or_eq_false_iff, Bool.and_eq_false_iff, decide_eq_false_iff_not, beq_eq_false_iff_ne]
  omega

theorem digitVal_digit (h : 48 ≤ c.toNat ∧ c.toNat ≤ 57) : digitVal c = some (c.toNat - 48) := by
  have hz : digitZeros.find? (fun z => z ≤ c.toNat && c.toNat < z + 10) = some 48 := by
    rw [digitZeros, find?_cons_of_pos]
    simp only [Bool.and_eq_true, decide_eq_true_eq]; omega
  rw [digitVal, hz]; rfl

theorem digitsGo_digits (h : ∀ c ∈ s, 48 ≤ c.toNat ∧ c.toNat ≤ 57) (acc : Nat) (afterDigit : Bool)
    (hne : s ≠ [] ∨ afterDigit = true) : digitsGo s acc afterDigit = some (Nat.ofDigitChars 10 s acc) := by
  induction s generalizing acc afterDigit with
  | nil => simp_all [digitsGo, Nat.ofDigitChars]
  | cons c s ih =>
    have hc : 48 ≤ c.toNat ∧ c.toNat ≤ 57 := h c (by simp)
    rw [digitsGo, digitVal_digit hc]
    · simpa [Nat.ofDigitChars] using ih (fun d hd => h d (by simp [hd])) (10 * acc + (c.toNat - 48)) true (by simp)
    · intro _ hu
      rw [hu] at hc
      exact absurd hc (by decide)

theorem digitsGo_natStr (n : Nat) : digitsGo (natStr n) 0 false = some n := by
  rw [digitsGo_digits (fun c hc => digit_of_mem_natStr hc) 0 false (.inl (natStr_ne_nil n)), natStr,
    Nat.ofDigitChars_toDigits (by decide) (by decide)]

theorem pyInt_natStr (n : Nat) : pyInt (natStr n) = some (n : Int) := by
  have hstrip : strip (natStr n) = natStr n := by
    exact strip_eq_self (fun c hc => isSpace_of_mem_natStr (mem_of_mem_head? hc))
      fun c hc => isSpace_of_mem_natStr (mem_of_mem_getLast? hc)
  have hsign : ∀ t, natStr n ≠ '-' :: t ∧ natStr n ≠ '+' :: t := by
    intro t
    constructor <;> intro h
    · have := digit_of_mem_natStr (n := n) (c := '-') (by simp [h]); simp at this
    · have := digit_of_mem_natStr (n := n) (c := '+') (by simp [h]); simp at this
  rw [pyInt, hstrip]
  split
  · next t h => exact absurd h (hsign t).1
  · next t h => exact absurd h (hsign t).2
  · rw [digitsGo_natStr]; rfl

theorem intStr_ne_nil (n : Int) : intStr n ≠ [] := by
  cases n with
  | ofNat n => exact natStr_ne_nil n
  | negSucc n => exact cons_ne_nil _ _

theorem mem_intStr {n : Int} (h : c ∈ intStr n) : c = '-' ∨ ∃ k, c ∈ natStr k := by
  cases n with
  | ofNat n => exact .inr ⟨n, h⟩
  | negSucc n =>
    rcases mem_cons.1 h with rfl | h
    · exact .inl rfl
    · exact .inr ⟨n + 1, h⟩

theorem isSpace_of_mem_intStr {n : Int} (h : c ∈ intStr n) : isSpace c = false := by
  rcases mem_intStr h with rfl | ⟨k, h⟩
  · decide
  · exact isSpace_of_mem_natStr h

theorem pyInt_intStr (n : Int) : pyInt (intStr n) = some n := by
  cases n with
  | ofNat n => exact pyInt_natStr n
  | negSucc n =>
    have hstrip : strip (intStr (.negSucc n)) = '-' :: natStr (n + 1) :=
      strip_eq_self (fun c hc => isSpace_of_mem_intStr (mem_of_mem_head? hc))
        fun c hc => isSpace_of_mem_intStr (mem_of_mem_getLast? hc)
    rw [pyInt, hstrip]
    simp [digitsGo_natStr, Int.negSucc_eq]

/-! ### Searching -/

/-- Index of the first occurrence of `w` that starts at `start` or later. -/
def find (w s : Str) (start : Nat) : Option Nat :=
  (range' start (s.length + 1 - start)).find? fun i => w.isPrefixOf (s.drop i)

/-- What an index means in a slice: below zero it counts from the end. -/
def sliceIndex (i : Int) (length : Nat) : Nat := if i < 0 then (length + i).toNat else i.toNat

theorem find_eq_some {start i : Nat} (h : find w s start = some i) :
    start ≤ i ∧ w <+: s.drop i ∧ ∀ j, start ≤ j → w <+: s.drop j → i ≤ j := by
  obtain ⟨hi, hmem, hfirst⟩ := find?_range'_eq_some.1 h
  refine ⟨(mem_range'_1.1 hmem).1, isPrefixOf_iff_prefix.1 hi, fun j hj hs => Nat.le_of_not_lt fun hlt => ?_⟩
  have hno := hfirst j hj hlt
  rw [ isPrefixOf_iff_prefix.2 hs] at hno
  cases hno

theorem find_ne_none {i : Nat} (hw : w ≠ []) (h : w <+: s.drop i) : find w s 0 ≠ none := fun hnone => by
  have hlt : i < s.length := by
    rw [← drop_eq_nil_iff.not.trans Nat.not_le]
    exact fun hnil => hw (prefix_nil.1 (hnil ▸ h))
  have hno := find?_eq_none.1 hnone i (mem_range'_1.2 (by omega))
  exact hno ( isPrefixOf_iff_prefix.2 h)

theorem find_append_left (hw : w ≠ []) : find w (w ++ s) 0 = some 0 := by
  have h : w <+: (w ++ s).drop 0 := prefix_append w s
  obtain ⟨i, hi⟩ := Option.ne_none_iff_exists'.1 (find_ne_none hw h)
  rw [hi, Nat.le_zero.1 ((find_eq_some hi).2.2 0 le_rfl h)]

end PyStr

end Xmix
