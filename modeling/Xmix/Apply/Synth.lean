import Xmix.Apply.Regions
import Xmix.Lib.Except
import Xmix.Lib.LinePattern

/-!
# Reading a synthesized file

The first half of `xmix/apply.py`: `parse_blocks` splits the text of a synthesized file into
`(file, anchor, code)` blocks, `parse_footprints` reads its footprint tags, and the persisted
footprint lines of applied apps are read and written. `parseGo` keeps the loop's `cur`.
-/

namespace Xmix.Apply

open List
open PyStr LinePattern

structure SynthBlock where
  file : Str
  anchor : Str
  code : List Str
deriving DecidableEq, Repr

def applyTag (line : Str) : Option (Str × Str) :=
  match scan [.lit ['#'], .spaces, .lit ">>> XMIX-APPLY file=".toList, .word, .lit " anchor=".toList, .word,
      .lit " <<<".toList] (strip line) with
  | some ([file, anchor], rest) => if rest.all isSpace then some (file, anchor) else none
  | _ => none

def metaPrefixes : List Str :=
  ["# >>> ".toList, "#     (executes at:".toList, "# === ".toList, "# --- user preamble".toList]

def isMeta (line : Str) : Bool := metaPrefixes.any fun p => startsWith p (strip line)

def isBlank (line : Str) : Bool := (strip line).isEmpty

def trimBlank (lines : List Str) : List Str := (lines.dropWhile isBlank).rdropWhile isBlank

def parseGo : Option SynthBlock → List Str → List SynthBlock
  | cur, [] => cur.toList
  | cur, line :: lines =>
    match applyTag line with
    | some (file, anchor) => cur.toList ++ parseGo (some ⟨file, anchor, []⟩) lines
    | none =>
      match cur with
      | none => parseGo none lines -- file header, before the first tag
      | some b =>
        if isMeta line then parseGo (some b) lines else parseGo (some { b with code := b.code ++ [line] }) lines

def SynthBlock.trimmed (b : SynthBlock) : Option SynthBlock :=
  match trimBlank b.code with
  | [] => none
  | code => some { b with code }

def parseBlocks (text : Str) : List SynthBlock := (parseGo none (splitlines text)).filterMap SynthBlock.trimmed

/-! ### Footprints -/

inductive Layers where
  | all
  | set (layers : List Int)
deriving DecidableEq, Repr

def allStr : Str := "all".toList

def parseLayers (spec : Str) : Except Exc Layers :=
  if spec = allStr then .ok .all
  else match ((splitAt ',' spec).filter (!·.isEmpty)).mapM pyInt with
    | some layers => .ok (.set layers.dedup)
    | none => .error .valueError

def layersStr : Layers → Str
  | .all => allStr
  | .set layers => join [','] ((layers.insertionSort (· ≤ ·)).map intStr)

structure Footprint where
  flag : Str
  submodule : Str
  layers : Layers
deriving DecidableEq, Repr

def footprintTag (line : Str) : Option (List Str) :=
  words [.lit ['#'], .spaces, .lit ">>> XMIX-FOOTPRINT flag=".toList, .word, .lit " submodule=".toList, .word,
    .lit " layers=".toList, .word, .lit " <<<".toList] (strip line)

def parseFootprint : List Str → Except Exc Footprint
  | [flag, submodule, spec] => do return ⟨flag, submodule, ← parseLayers spec⟩
  | _ => .error .valueError -- no match has another number of fields

def parseFootprints (text : Str) : Except Exc (List Footprint) :=
  ((splitlines text).filterMap footprintTag).mapM parseFootprint

def appliedTag (line : Str) : Option (List Str) :=
  words [.lit ['#'], .spaces, .lit "xmix:footprint ".toList, .word, .lit [' '], .word, .lit [' '], .word, .lit [' '],
    .word] (strip line)

def parseApplied : List Str → Except Exc (Str × Footprint)
  | app :: fields => do return (app, ← parseFootprint fields)
  | [] => .error .valueError

def scanFile (lines : List Str) : Except Exc (List (Str × Footprint)) :=
  (lines.filterMap appliedTag).mapM parseApplied

def appliedOpen : Str := "# xmix:footprint ".toList

def appliedLine (app : Str) (fp : Footprint) : Str :=
  appliedOpen ++ (app ++ ' ' :: (fp.flag ++ ' ' :: (fp.submodule ++ ' ' :: layersStr fp.layers)))

def overlap : Layers → Layers → Bool
  | .all, _ => true
  | _, .all => true
  | .set a, .set b => a.any b.contains

def overlapStr : Layers → Layers → Str
  | .all, _ => allStr
  | _, .all => allStr
  | .set a, .set b =>
    "\x7b".toList ++ join [','] (((a.filter b.contains).insertionSort (· ≤ ·)).map intStr) ++ "\x7d".toList

def stem (path : Str) : Str :=
  let name := ((splitAt '/' path).filter fun part => !part.isEmpty && part != ['.']).getLastD []
  -- the suffix starts at the last dot, unless that dot is the first or the last character
  match name.reverse.dropWhile (· != '.') with
  | '.' :: rest => if rest.isEmpty || name.getLast? == some '.' then name else rest.reverse
  | _ => name

def appIdFrom (path : Str) (override : Option Str) : Str :=
  match override with
  | some app@(_ :: _) => app
  | _ =>
    let s := stem path
    if "_synth".toList.isSuffixOf s then s.take (s.length - 6) else s

/-! ### What a block holds -/

structure SynthBlock.ReadFrom (lines : List Str) (b : SynthBlock) : Prop where
  file : Word b.file
  anchor : Word b.anchor
  code : ∀ l ∈ b.code, l ∈ lines ∧ applyTag l = none ∧ isMeta l = false

section Reader
variable {b : SynthBlock} {lines : List Str}

theorem parseGo_tag {line file anchor : Str} (h : applyTag line = some (file, anchor)) (cur : Option SynthBlock) :
    parseGo cur (line :: lines) = cur.toList ++ parseGo (some ⟨file, anchor, []⟩) lines := by
  cases cur <;> simp [parseGo, h]

theorem parseGo_line {line : Str} (h : applyTag line = none) :
    parseGo (some b) (line :: lines) =
      parseGo (some (if isMeta line then b else { b with code := b.code ++ [line] })) lines := by
  rw [parseGo, h]
  simp only
  split <;> simp_all

theorem trimBlank_subset {code : List Str} {l : Str} (hl : l ∈ trimBlank code) : l ∈ code :=
  (dropWhile_suffix _).subset (( rdropWhile_prefix _ _).subset hl)

theorem word_applyTag {line file anchor : Str} (h : applyTag line = some (file, anchor)) : Word file ∧ Word anchor := by
  unfold applyTag at h
  split at h
  · next hscan =>
    split at h
    · obtain ⟨rfl, rfl⟩ : _ = file ∧ _ = anchor := by simpa using h
      have hw := mem_scan hscan
      exact ⟨hw _ (by simp), hw _ (by simp)⟩
    · cases h
  · cases h

theorem readFrom_parseGo {all : List Str} (hall : ∀ l ∈ lines, l ∈ all) {cur : Option SynthBlock}
    (hcur : ∀ b ∈ cur, b.ReadFrom all) (hb : b ∈ parseGo cur lines) : b.ReadFrom all := by
  induction lines generalizing cur with
  | nil => exact hcur b (by simpa [parseGo] using hb)
  | cons line lines ih =>
    replace ih := fun cur => @ih (fun l hl => hall l (by simp [hl])) cur
    cases htag : applyTag line with
    | some fa =>
      obtain ⟨hfile, hanchor⟩ := word_applyTag htag
      rw [parseGo_tag htag] at hb
      rcases mem_append.1 hb with hb | hb
      · exact hcur b (by simpa using hb)
      · refine ih _ (fun b hb => ?_) hb
        cases hb
        exact ⟨hfile, hanchor, by simp⟩
    | none =>
      cases cur with
      | none =>
        rw [parseGo, htag] at hb
        exact ih _ (by simp) hb
      | some c =>
        rw [parseGo_line htag] at hb
        refine ih _ (fun b hb => ?_) hb
        cases hb
        split
        · exact hcur c rfl
        · next hmeta =>
          refine ⟨(hcur c rfl).file, (hcur c rfl).anchor, fun l hl => ?_⟩
          rcases mem_append.1 hl with hl | hl
          · exact (hcur c rfl).code l hl
          · rw [mem_singleton.1 hl]
            exact ⟨hall line (by simp), htag, by simpa using hmeta⟩

theorem mem_parseBlocks {text : Str} (hb : b ∈ parseBlocks text) : b.ReadFrom (splitlines text) := by
  obtain ⟨b', hb', htrim⟩ := mem_filterMap.1 hb
  have hread := readFrom_parseGo (fun _ hl => hl) (by simp) hb'
  unfold SynthBlock.trimmed at htrim
  split at htrim
  · cases htrim
  · cases htrim
    exact ⟨hread.file, hread.anchor, fun l hl => hread.code l (trimBlank_subset hl)⟩

end Reader

theorem word_parseFootprints {text : Str} {fps : List Footprint} (h : parseFootprints text = .ok fps) {fp : Footprint}
    (hfp : fp ∈ fps) : Word fp.flag ∧ Word fp.submodule := by
  obtain ⟨ws, hws, hparse⟩ := Except.exists_of_mem_mapM h hfp
  obtain ⟨line, -, htag⟩ := mem_filterMap.1 hws
  obtain ⟨⟨ws', rest⟩, hscan, rfl⟩ := Option.map_eq_some_iff.1 htag
  have hword := mem_scan hscan
  unfold parseFootprint at hparse
  split at hparse
  · next hws =>
    obtain ⟨layers, -, hfp⟩ := Except.bind_eq_ok.1 hparse
    obtain rfl := Except.pure_eq_ok.1 hfp
    obtain rfl : ws' = _ := hws
    exact ⟨hword _ (by simp), hword _ (by simp)⟩
  · cases hparse

/-! ### Layer sets as text -/

section
variable {ns : List Int}

theorem mem_intJoin {c : Char} (h : c ∈ join [','] (ns.map intStr)) : c = ',' ∨ ∃ n, c ∈ intStr n := by
  rcases mem_join h with h | ⟨p, hp, hc⟩
  · exact .inl (by simpa using h)
  · obtain ⟨n, -, rfl⟩ := mem_map.1 hp
    exact .inr ⟨n, hc⟩

theorem word_intJoin (hne : ns ≠ []) : Word (join [','] (ns.map intStr)) := by
  constructor
  · obtain ⟨n, ns, rfl⟩ := exists_cons_of_ne_nil hne
    cases ns with
    | nil => simpa [join] using intStr_ne_nil n
    | cons m ns => simp [join, intercalate_cons_cons]
  · intro c hc
    rcases mem_intJoin hc with rfl | ⟨n, hc⟩
    · decide
    · exact isSpace_of_mem_intStr hc

theorem not_mem_intStr {n : Int} {c : Char} (hc : ¬ (48 ≤ c.toNat ∧ c.toNat ≤ 57)) (hsign : c ≠ '-') :
    c ∉ intStr n := by
  intro h
  rcases mem_intStr h with h | ⟨k, h⟩
  · exact hsign h
  · exact hc (digit_of_mem_natStr h)

theorem mapM_pyInt_intStr (ns : List Int) : (ns.map intStr).mapM pyInt = some ns := by
  induction ns with
  | nil => rfl
  | cons n ns ih => simp [pyInt_intStr, ih]

theorem parseLayers_intJoin (hne : ns ≠ []) : parseLayers (join [','] (ns.map intStr)) = .ok (.set ns.dedup) := by
  have hall : join [','] (ns.map intStr) ≠ allStr := by
    intro h
    have ha : 'a' ∈ join [','] (ns.map intStr) := by rw [h]; decide
    rcases mem_intJoin ha with h | ⟨n, h⟩
    · exact absurd h (by decide)
    · exact not_mem_intStr (by decide) (by decide) h
  have hsplit : splitAt ',' (join [','] (ns.map intStr)) = ns.map intStr := by
    refine splitOn_intercalate _ (fun l hl => ?_) (by simpa using hne)
    obtain ⟨n, -, rfl⟩ := mem_map.1 hl
    exact not_mem_intStr (by decide) (by decide)
  have hfilter : (ns.map intStr).filter (!·.isEmpty) = ns.map intStr := by
    rw [filter_eq_self]
    intro l hl
    obtain ⟨n, -, rfl⟩ := mem_map.1 hl
    simpa using intStr_ne_nil n
  rw [parseLayers, if_neg hall, hsplit, hfilter, mapM_pyInt_intStr]

end

theorem map_natStr (ns : List Nat) : ns.map natStr = (ns.map Int.ofNat).map intStr := by
  rw [map_map]
  rfl

end Xmix.Apply
