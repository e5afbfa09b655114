import Xmix.Apply.BlockFormat

/-!
# Reading back what codegen wrote

`parse_blocks` over the text of `generate`: the header is skipped, each destination's tag opens a
block, and the lines of a region are appended to it as long as they are plain.
-/

namespace Xmix.Apply

open List
open PyStr LinePattern Dsl

/-! ### The block reader -/

section Reader
variable {b : SynthBlock} {lines rest : List Str}

theorem parseGo_header (h : ∀ l ∈ lines, applyTag l = none) : parseGo none (lines ++ rest) = parseGo none rest := by
  induction lines with
  | nil => rfl
  | cons l lines ih =>
    rw [cons_append, parseGo, h l (by simp)]
    exact ih fun l hl => h l (by simp [hl])

theorem parseGo_banners (h : ∀ l ∈ lines, applyTag l = none ∧ isMeta l = true) :
    parseGo (some b) (lines ++ rest) = parseGo (some b) rest := by
  induction lines with
  | nil => rfl
  | cons l lines ih =>
    obtain ⟨htag, hmeta⟩ := h l (by simp)
    rw [cons_append, parseGo_line htag, if_pos hmeta]
    exact ih fun l hl => h l (by simp [hl])

theorem parseGo_code (h : ∀ l ∈ lines, applyTag l = none ∧ isMeta l = false) :
    parseGo (some b) (lines ++ rest) = parseGo (some { b with code := b.code ++ lines }) rest := by
  induction lines generalizing b with
  | nil => simp
  | cons l lines ih =>
    obtain ⟨htag, hmeta⟩ := h l (by simp)
    rw [cons_append, parseGo_line htag, if_neg (by simp [hmeta]), ih fun l hl => h l (by simp [hl])]
    simp

theorem trimBlank_concat_blank {l : Str} (hl : isBlank l = true) (code : List Str) :
    trimBlank (code ++ [l]) = trimBlank code := by
  unfold trimBlank
  rw [dropWhile_append]
  split
  · next h => simp [isEmpty_iff.1 h, hl]
  · rw [rdropWhile_concat_pos _ _ _ hl]

theorem mem_trimBlank {code : List Str} {l : Str} (hl : l ∈ code) (hb : isBlank l = false) : l ∈ trimBlank code := by
  have hdrop : ∀ {xs : List Str}, l ∈ xs → l ∈ xs.dropWhile isBlank := by
    intro xs hx
    rw [← takeWhile_append_dropWhile (p := isBlank) (l := xs), mem_append] at hx
    rcases hx with hx | hx
    · exact absurd (mem_takeWhile_imp hx) (by simp [hb])
    · exact hx
  unfold trimBlank rdropWhile
  exact mem_reverse.2 (hdrop (mem_reverse.2 (hdrop hl)))

def parsed (cur : Option SynthBlock) (lines : List Str) : List SynthBlock :=
  (parseGo cur lines).filterMap SynthBlock.trimmed

theorem parsed_tagLines {d : Dest} (hd : DestReads d) (cur : Option SynthBlock) :
    parsed cur (d.tagLines ++ rest) = cur.toList.filterMap SynthBlock.trimmed ++
      parsed (some ⟨d.file, d.anchor.name, []⟩) rest := by
  have hlines : d.tagLines = [] :: d.applyLine :: d.tagLines.drop 2 := rfl
  have hopen : ∀ cur, parseGo cur (d.applyLine :: (d.tagLines.drop 2 ++ rest)) =
      cur.toList ++ parseGo (some ⟨d.file, d.anchor.name, []⟩) rest := by
    intro cur
    rw [parseGo_tag hd.apply]
    exact congrArg _ (parseGo_banners hd.banner)
  have hblank : applyTag [] = none ∧ isMeta [] = false := ⟨rfl, rfl⟩
  rw [parsed, hlines, cons_append, cons_append]
  cases cur with
  | none =>
    have hskip : parseGo none ([[]] ++ d.applyLine :: (d.tagLines.drop 2 ++ rest)) =
        parseGo none (d.applyLine :: (d.tagLines.drop 2 ++ rest)) := parseGo_header (by simp [hblank.1])
    rw [singleton_append] at hskip
    rw [hskip, hopen]
    rfl
  | some b =>
    have htrim : SynthBlock.trimmed { b with code := b.code ++ [[]] } = b.trimmed := by
      simp only [SynthBlock.trimmed, trimBlank_concat_blank (l := []) rfl]
    rw [parseGo_line hblank.1, if_neg (by simp [hblank.2]), hopen]
    simp only [Option.toList_some, filterMap_append, filterMap_cons, filterMap_nil, htrim, parsed]

end Reader

theorem filterMap_cons_toList {α β : Type} (f : α → Option β) (a : α) (l : List α) :
    (a :: l).filterMap f = (f a).toList ++ l.filterMap f := by
  cases h : f a <;> simp [h]

/-! ### Sinks -/

def sinkText (cur : Option Place) (parts : List Part) : List Str := (sinkGo cur parts).flatMap physical

theorem sinkText_cons_same {p : Part} {parts : List Part} :
    sinkText (some p.dest.key) (p :: parts) = partText p ++ sinkText (some p.dest.key) parts := by
  simp [sinkText, sinkGo, partText]

theorem sinkText_cons {p : Part} {parts : List Part}
    (hd : DestReads p.dest) {cur : Option Place} (h : some p.dest.key ≠ cur) :
    sinkText cur (p :: parts) = p.dest.tagLines ++ (partText p ++ sinkText (some p.dest.key) parts) := by
  simp only [sinkText, sinkGo, if_neg h, flatMap_append, flatMap_physical hd.oneLine, partText, append_assoc]

def parsedFrom : List (Place × List Str) → List Str → List SynthBlock
  | [], rest => parsed none rest
  | [r], rest => parsed (some (regionBlock r)) rest
  | r :: rs, rest => (regionBlock r).trimmed.toList ++ parsedFrom rs rest

theorem regionsGo_ne_nil (k : Place) (code : List Str) (parts : List Part) : regionsGo k code parts ≠ [] := by
  induction parts generalizing k code with
  | nil => simp [regionsGo]
  | cons p parts ih =>
    rw [regionsGo]
    split
    · exact ih _ _
    · simp

theorem parsedFrom_cons {r : Place × List Str} {rs : List (Place × List Str)} (h : rs ≠ []) (rest : List Str) :
    parsedFrom (r :: rs) rest = (regionBlock r).trimmed.toList ++ parsedFrom rs rest := by
  cases rs with
  | nil => exact absurd rfl h
  | cons r' rs => rfl

section Sink
variable {parts : List Part} (hreads : ∀ p ∈ parts, DestReads p.dest)
  (hplain : ∀ p ∈ parts, ∀ l ∈ partText p, isPlain l = true)
include hreads hplain

theorem parsed_sinkText_some (k : Place) (code rest : List Str) :
    parsed (some (regionBlock (k, code))) (sinkText (some k) parts ++ rest) =
      parsedFrom (regionsGo k code parts) rest := by
  induction parts generalizing k code with
  | nil => rfl
  | cons p parts ih =>
    have ih := ih (fun p hp => hreads p (by simp [hp])) fun p hp => hplain p (by simp [hp])
    have hcode : ∀ l ∈ partText p, applyTag l = none ∧ isMeta l = false := fun l hl =>
      have h := isPlain_iff.1 (hplain p (by simp) l hl)
      ⟨h.1, h.2.1⟩
    rw [regionsGo]
    split
    · next hkey =>
      subst hkey
      rw [sinkText_cons_same, append_assoc, ← ih, parsed, parseGo_code hcode]
      rfl
    · next hkey =>
      rw [sinkText_cons (hreads p (by simp)) (by simpa using hkey), parsedFrom_cons (regionsGo_ne_nil _ _ _), ← ih,
        append_assoc, parsed_tagLines (hreads p (by simp)), append_assoc, parsed, parseGo_code hcode]
      rfl

theorem parsed_sinkText (rest : List Str) :
    parsed none (sinkText none parts ++ rest) = parsedFrom (regions parts) rest := by
  cases parts with
  | nil => rfl
  | cons p parts =>
    have hd := hreads p (by simp)
    have hcode : ∀ l ∈ partText p, applyTag l = none ∧ isMeta l = false := fun l hl =>
      have h := isPlain_iff.1 (hplain p (by simp) l hl)
      ⟨h.1, h.2.1⟩
    have hrest := parsed_sinkText_some (fun q hq => hreads q (mem_cons_of_mem p hq))
      (fun q hq => hplain q (mem_cons_of_mem p hq)) p.dest.key (partText p) rest
    rw [sinkText_cons hd (by simp), append_assoc, parsed_tagLines hd, append_assoc, parsed, parseGo_code hcode]
    exact hrest

omit hplain in
theorem parsedFrom_banner {banner : Str} (hb : applyTag banner = none ∧ isMeta banner = true)
    (rs : List (Place × List Str)) :
    parsedFrom rs ([[], banner] ++ sinkText none parts) =
      (rs.filterMap fun r => (regionBlock r).trimmed) ++ parsed none (sinkText none parts) := by
  have hopen : ∀ b : SynthBlock, parsed (some b) ([[], banner] ++ sinkText none parts) =
      b.trimmed.toList ++ parsed none (sinkText none parts) := by
    intro b
    have htrim : SynthBlock.trimmed { b with code := b.code ++ [[]] } = b.trimmed := by
      simp only [SynthBlock.trimmed, trimBlank_concat_blank (l := []) rfl]
    have hstep : parsed (some b) ([[], banner] ++ sinkText none parts) =
        parsed (some { b with code := b.code ++ [[]] }) (sinkText none parts) := by
      simp only [parsed, cons_append, nil_append]
      rw [parseGo_line (show applyTag [] = none from rfl), if_neg (by decide), parseGo_line hb.1, if_pos hb.2]
    rw [hstep]
    cases parts with
    | nil =>
      show [{ b with code := b.code ++ [[]] }].filterMap SynthBlock.trimmed = b.trimmed.toList ++ []
      rw [filterMap_cons_toList, htrim]
      rfl
    | cons p parts =>
      have hd := hreads p (by simp)
      rw [sinkText_cons hd (by simp), parsed_tagLines hd, parsed_tagLines hd, Option.toList_some,
        filterMap_cons_toList, htrim]
      simp
  induction rs with
  | nil =>
    have hskip : parseGo none ([[], banner] ++ sinkText none parts) = parseGo none (sinkText none parts) := by
      refine parseGo_header fun l hl => ?_
      simp only [mem_cons, not_mem_nil, or_false] at hl
      rcases hl with rfl | rfl
      · rfl
      · exact hb.1
    simp only [parsedFrom, parsed, hskip, filterMap_nil, nil_append]
  | cons r rs ih =>
    cases rs with
    | nil =>
      rw [parsedFrom, hopen, filterMap_cons_toList]
      simp
    | cons r' rs => rw [parsedFrom_cons (by simp), ih, filterMap_cons_toList _ r, append_assoc]

end Sink

theorem parsedFrom_nil (rs : List (Place × List Str)) :
    parsedFrom rs [] = rs.filterMap fun r => (regionBlock r).trimmed := by
  induction rs with
  | nil => rfl
  | cons r rs ih =>
    cases rs with
    | nil => rfl
    | cons r' rs => rw [parsedFrom_cons (by simp), ih, filterMap_cons_toList _ r]

/-! ### The whole text -/

def headLines (statements : List Statement) (sourceName : Str) (preamble : List PreambleSegment)
    (model : Model) : List Str :=
  headerLines sourceName model (fileEmission statements preamble model).assumed ++ footprintTags statements ++
    [[], setupBanner] ++ if preamble.isEmpty then [] else [[], preambleBanner]

def slotFields (s : Flag × Submodule × LayerSpec) : List Str := [s.1.name, s.2.1.name, layersText s.2.2]

section Text
variable {statements : List Statement} {preamble : List PreambleSegment} {model : Model} {sourceName : Str}

theorem installBanner_quiet : Quiet installBanner := by
  have hline : "# === INSTALL (after load_model) ===".toList =
    '#' :: ' ' :: '=' :: "== INSTALL (after load_model) ===".toList := by simp
  exact quiet_of_comment _ hline (by decide) (by decide) (of_ofList (P := OneLine) (by decide))

theorem installBanner_reads : BannerReads installBanner := by
  have hline : "# === INSTALL (after load_model) ===".toList =
      "# === ".toList ++ ('I' :: "NSTALL (after load_model) ==".toList) ++ ['='] := by simp
  have hstrip : strip "# === INSTALL (after load_model) ===".toList =
    "# === INSTALL (after load_model) ===".toList := by
    rw [hline]
    generalize 'I' :: "NSTALL (after load_model) ==".toList = t
    refine strip_eq_self (fun c hc => ?_) fun c hc => ?_
    · obtain rfl : '#' = c := Option.some.inj hc
      decide
    · rw [getLast?_append] at hc
      obtain rfl : '=' = c := Option.some.inj hc
      decide
  have hmeta : isMeta installBanner = true := by
    refine any_eq_true.2 ⟨"# === ".toList, by simp [metaPrefixes], ?_⟩
    rw [show strip installBanner = _ from hstrip, hline, append_assoc]
    exact startsWith_append _ _
  exact ⟨installBanner_quiet.1, installBanner_quiet.2.2, installBanner_quiet.2.1, hmeta⟩

theorem sectionBanners_quiet : Quiet [] ∧ Quiet setupBanner ∧ Quiet preambleBanner := by
  have hsetup : "# === SETUP (construct once — see destinations) ===".toList =
      '#' :: ' ' :: '=' :: "== SETUP (construct once — see destinations) ===".toList := by simp
  have hpreamble : "# --- user preamble (verbatim) ---".toList =
    '#' :: ' ' :: '-' :: "-- user preamble (verbatim) ---".toList := by simp
  refine ⟨by decide, ?_, ?_⟩
  · exact quiet_of_comment _ hsetup (by decide) (by decide) (of_ofList (P := OneLine) (by decide))
  · exact quiet_of_comment _ hpreamble (by decide) (by decide) (of_ofList (P := OneLine) (by decide))

theorem mem_section {l : Str} (h : l ∈ [[], setupBanner] ∨ l ∈ [[], preambleBanner]) : Quiet l := by
  simp only [mem_cons, not_mem_nil, or_false] at h
  rcases h with (rfl | rfl) | (rfl | rfl)
  · exact sectionBanners_quiet.1
  · exact sectionBanners_quiet.2.1
  · exact sectionBanners_quiet.1
  · exact sectionBanners_quiet.2.2

section

variable (hname : OneLine sourceName)
include hname

theorem mem_headLines {l : Str} (h : l ∈ headLines statements sourceName preamble model) :
    OneLine l ∧ applyTag l = none := by
  simp only [headLines, mem_append] at h
  rcases h with ((h | h) | h) | h
  · exact ⟨(headerLines_quiet _ _ _ hname l h).1, (headerLines_quiet _ _ _ hname l h).2.1⟩
  · obtain ⟨stmt, -, h⟩ := mem_flatMap.1 h
    obtain ⟨s, -, rfl⟩ := mem_map.1 h
    exact ⟨oneLine_footprintLine _ _ _, applyTag_footprintLine _ _ _⟩
  · have hquiet := mem_section (.inl h)
    exact ⟨hquiet.1, hquiet.2.1⟩
  · split at h
    · simp at h
    · have hquiet := mem_section (.inr h)
      exact ⟨hquiet.1, hquiet.2.1⟩

theorem footprints_headLines :
    (headLines statements sourceName preamble model).filterMap footprintTag =
      (statements.flatMap slots).map slotFields := by
  have hnone : ∀ {ls : List Str}, (∀ l ∈ ls, footprintTag l = none) → ls.filterMap footprintTag = [] :=
    fun h => filterMap_eq_nil_iff.2 h
  have htags : (footprintTags statements).filterMap footprintTag = (statements.flatMap slots).map slotFields := by
    unfold footprintTags
    rw [← map_flatMap, filterMap_map]
    have hread : footprintTag ∘ (fun s : Flag × Submodule × LayerSpec => footprintLine s.1 s.2.1 s.2.2) =
        fun s => some (slotFields s) := funext fun s => footprintTag_footprintLine ..
    rw [hread, filterMap_eq_map']
  have hpre : (if preamble.isEmpty then [] else [[], preambleBanner]).filterMap footprintTag = [] := by
    refine hnone fun l hl => ?_
    split at hl
    · simp at hl
    · exact (mem_section (.inr hl)).2.2
  have hheader := hnone fun l hl => (headerLines_quiet statements preamble model hname l hl).2.2
  have hsetup : [[], setupBanner].filterMap footprintTag = [] := hnone fun l hl => (mem_section (.inl hl)).2.2
  simp only [headLines, filterMap_append, htags, hpre, hheader, hsetup, append_nil, nil_append]

theorem splitlines_output :
    splitlines (outputText statements sourceName preamble model) =
      headLines statements sourceName preamble model ++ (sinkText none (fileEmission statements preamble model).setup ++
        ([[], installBanner] ++ sinkText none (fileEmission statements preamble model).install)) := by
  have hlines : outputLines statements sourceName preamble model (fileEmission statements preamble model) =
      headLines statements sourceName preamble model ++ (sinkGo none (fileEmission statements preamble model).setup ++
        ([[], installBanner] ++ sinkGo none (fileEmission statements preamble model).install)) := by
    simp only [outputLines, setupLines, headLines, append_assoc]
  have hbanner : [[], installBanner].flatMap physical = [[], installBanner] := by
    refine flatMap_physical fun l hl => ?_
    simp only [mem_cons, not_mem_nil, or_false] at hl
    rcases hl with rfl | rfl
    · exact sectionBanners_quiet.1.1
    · exact installBanner_reads.1
  rw [outputText, splitlines_unlines (by rw [hlines]; simp), hlines]
  simp only [flatMap_append, flatMap_physical fun l hl => (mem_headLines hname hl).1, hbanner, sinkText]

theorem parseBlocks_output (hplain : EmissionPlain (fileEmission statements preamble model)) :
    parseBlocks (outputText statements sourceName preamble model) =
      emittedBlocks (fileEmission statements preamble model) := by
  set em := fileEmission statements preamble model with hem
  have hsetup : ∀ p ∈ em.setup, DestReads p.dest ∧ ∀ l ∈ partText p, isPlain l = true := fun p hp =>
    ⟨fileEmission_reads (mem_append_left _ hp), hplain p (mem_append_left _ hp)⟩
  have hinstall : ∀ p ∈ em.install, DestReads p.dest ∧ ∀ l ∈ partText p, isPlain l = true := fun p hp =>
    ⟨fileEmission_reads (mem_append_right _ hp), hplain p (mem_append_right _ hp)⟩
  have hread := parsed_sinkText (fun p hp => (hinstall p hp).1) (fun p hp => (hinstall p hp).2) []
  rw [append_nil, parsedFrom_nil] at hread
  rw [parseBlocks, splitlines_output hname, parseGo_header fun l hl => (mem_headLines hname hl).2]
  show parsed none _ = _
  rw [parsed_sinkText (fun p hp => (hsetup p hp).1) fun p hp => (hsetup p hp).2,
    parsedFrom_banner (fun p hp => (hinstall p hp).1) installBanner_reads.2.2, hread, emittedBlocks, filterMap_append]

end

theorem footprints_sinkText {parts : List Part} (hreads : ∀ p ∈ parts, DestReads p.dest) (cur : Option Place) :
    (sinkText cur parts).filterMap footprintTag = (parts.flatMap partText).filterMap footprintTag := by
  induction parts generalizing cur with
  | nil => rfl
  | cons p parts ih =>
    have ih := ih fun p hp => hreads p (by simp [hp])
    have hd := hreads p (by simp)
    by_cases hkey : some p.dest.key = cur
    · subst hkey
      rw [sinkText_cons_same, filterMap_append, ih, flatMap_cons, filterMap_append]
    · rw [sinkText_cons hd hkey, filterMap_append, filterMap_append, ih,
        filterMap_eq_nil_iff.2 hd.noFootprint, flatMap_cons, filterMap_append]
      rfl

theorem parseFootprints_output (hname : OneLine sourceName) :
    parseFootprints (outputText statements sourceName preamble model) =
      ((statements.flatMap slots).map slotFields ++ (((fileEmission statements preamble model).setup ++
        (fileEmission statements preamble model).install).flatMap partText).filterMap footprintTag).mapM
          parseFootprint := by
  have hbanner : [[], installBanner].filterMap footprintTag = [] := by
    refine filterMap_eq_nil_iff.2 fun l hl => ?_
    simp only [mem_cons, not_mem_nil, or_false] at hl
    rcases hl with rfl | rfl
    · rfl
    · exact installBanner_reads.2.1
  rw [parseFootprints, splitlines_output hname]
  simp only [filterMap_append, footprints_headLines hname, hbanner, nil_append, flatMap_append,
    footprints_sinkText fun p hp => fileEmission_reads (mem_append_left _ hp),
    footprints_sinkText fun p hp => fileEmission_reads (mem_append_right _ hp)]

theorem mapM_parseFootprint (ss : List (Flag × Submodule × LayerSpec)) :
    (ss.map slotFields).mapM parseFootprint = .ok (ss.map slotFootprint) := by
  rw [Except.mapM_eq_ok, forall₂_map_left_iff, forall₂_map_right_iff]
  refine forall₂_same.2 fun s _ => ?_
  simp [slotFields, parseFootprint, slotFootprint, parseLayers_layersText]

theorem mem_regionsGo {parts : List Part} {k : Place} {code : List Str} {l : Str}
    (h : l ∈ code ∨ ∃ p ∈ parts, l ∈ partText p) : ∃ r ∈ regionsGo k code parts, l ∈ r.2 := by
  induction parts generalizing k code with
  | nil =>
    rcases h with h | ⟨p, hp, -⟩
    · exact ⟨(k, code), by simp [regionsGo], h⟩
    · simp at hp
  | cons p parts ih =>
    rw [regionsGo]
    split
    · refine ih ?_
      rcases h with h | ⟨q, hq, h⟩
      · exact .inl (mem_append_left _ h)
      · rcases mem_cons.1 hq with rfl | hq
        · exact .inl (mem_append_right _ h)
        · exact .inr ⟨q, hq, h⟩
    · rcases h with h | ⟨q, hq, h⟩
      · exact ⟨(k, code), by simp, h⟩
      · obtain ⟨r, hr, hl⟩ : ∃ r ∈ regionsGo p.dest.key (partText p) parts, l ∈ r.2 := by
          refine ih ?_
          rcases mem_cons.1 hq with rfl | hq
          · exact .inl h
          · exact .inr ⟨q, hq, h⟩
        exact ⟨r, by simp [hr], hl⟩

theorem mem_emittedBlocks {em : Emission} {p : Part} (hp : p ∈ em.setup ++ em.install) {l : Str} (hl : l ∈ partText p)
    (hb : isBlank l = false) : ∃ b ∈ emittedBlocks em, l ∈ b.code := by
  have hregion : ∀ {parts : List Part}, p ∈ parts → ∃ r ∈ regions parts, l ∈ r.2 := by
    intro parts hp
    cases parts with
    | nil => simp at hp
    | cons q parts =>
      refine mem_regionsGo ?_
      rcases mem_cons.1 hp with rfl | hp
      · exact .inl hl
      · exact .inr ⟨p, hp, hl⟩
  obtain ⟨r, hr, hlr⟩ : ∃ r ∈ regions em.setup ++ regions em.install, l ∈ r.2 := by
    rcases mem_append.1 hp with hp | hp
    · obtain ⟨r, hr, h⟩ := hregion hp
      exact ⟨r, mem_append_left _ hr, h⟩
    · obtain ⟨r, hr, h⟩ := hregion hp
      exact ⟨r, mem_append_right _ hr, h⟩
  have hmem : l ∈ trimBlank r.2 := mem_trimBlank hlr hb
  have htrim : (regionBlock r).trimmed = some { regionBlock r with code := trimBlank r.2 } := by
    unfold SynthBlock.trimmed regionBlock
    split
    · next h => simp only at h; rw [h] at hmem; simp at hmem
    · rfl
  exact ⟨_, mem_filterMap.2 ⟨r, hr, htrim⟩, hmem⟩

end Text

/-! ### What must be recovered -/

/-- The segment is for the model file: it stands in an init block, or builds an instance that a
model-scope condition uses. -/
def ForModel (r : ParseResult) (seg : PreambleSegment) : Prop :=
  seg.blockCls.isSome ∨ ∃ inst ∈ seg.targets, ∃ s ∈ r.statements, ∃ cls gate loc,
    s.cond = some (.model inst cls gate loc)

/-- The segment stands where its use needs it. -/
structure Placed (r : ParseResult) (seg : PreambleSegment) (p : Part) : Prop where
  lines : partText p = splitlines seg.text
  model : ForModel r seg → p.dest.key = (r.model.modelFile, .modelConstruct)
  setup : ¬ ForModel r seg → p.dest.key = (Model.runnerFile, .runnerSetup)

def statementSetup (r : ParseResult) : List Part :=
  r.statements.zipIdx.flatMap fun s => buildParts r.model s.2 s.1 ++ condParts r.model s.2 s.1

def statementInstall (r : ParseResult) : List Part := r.statements.zipIdx.map fun s => installPart r.model s.2 s.1

/-- Each segment has its lines in one place, in the order of the source and before the lines of the statements, and each
slot of the statements has a footprint. -/
structure RoundTrips (r : ParseResult) (text : Str) : Prop where
  blocks : ∃ segs, Forall₂ (Placed r) r.preamble segs ∧
    parseBlocks text = emittedBlocks ⟨segs ++ statementSetup r, statementInstall r, []⟩
  footprints : parseFootprints text = .ok ((r.statements.flatMap slots).map slotFootprint)

/-- No line of a segment or of a statement's code is a tag or a banner. -/
def SourcePlain (r : ParseResult) : Prop :=
  (∀ seg ∈ r.preamble, ∀ l ∈ splitlines seg.text, isPlain l = true) ∧
    ∀ p ∈ statementSetup r ++ statementInstall r, ∀ l ∈ partText p, isPlain l = true

theorem mem_modelBound {statements : List Statement} {inst : Dotted} {cls : ModelCond} :
    (inst, cls) ∈ modelBound statements ↔ ∃ s ∈ statements, ∃ gate loc, s.cond = some (.model inst cls gate loc) := by
  rw [modelBound, mem_reverse, mem_filterMap]
  refine exists_congr fun s => and_congr_right fun _ => ?_
  rcases s.cond with _ | (_ | _ | _) <;> simp

theorem preamblePart_placed (r : ParseResult) (seg : PreambleSegment) :
    Placed r seg (preamblePart r.statements r.model seg) := by
  have hfound : ForModel r seg ↔
      (seg.blockCls.or (seg.targets.findSome? fun t => (modelBound r.statements).lookup t)).isSome := by
    rw [ForModel, Option.isSome_or, Bool.or_eq_true, findSome?_isSome_iff]
    refine or_congr_right (exists_congr fun inst => and_congr_right fun _ => ?_)
    rw [lookup_isSome_iff]
    constructor
    · rintro ⟨s, hs, cls, gate, loc, hcond⟩
      exact ⟨(inst, cls), mem_modelBound.2 ⟨s, hs, gate, loc, hcond⟩, beq_self_eq_true inst⟩
    · rintro ⟨⟨inst', cls⟩, hmem, heq⟩
      obtain ⟨s, hs, gate, loc, hcond⟩ := mem_modelBound.1 hmem
      exact ⟨s, hs, cls, gate, loc, eq_of_beq heq ▸ hcond⟩
  refine ⟨?_, fun h => ?_, fun h => ?_⟩
  · have hline : ∀ l, (Code.verbatim l).lines = [l] := fun l => by simp [Code.lines, Code.toks, renderLine, Tok.str]
    rw [partText, preamblePart, flatMap_map]
    simp only [hline, flatMap_singleton']
    exact flatMap_physical fun l hl => oneLine_of_mem_splitlines hl
  · obtain ⟨cls, hcls⟩ := Option.isSome_iff_exists.1 (hfound.1 h)
    show (segmentDest r.statements r.model seg).key = _
    rw [segmentDest, hcls]
    cases cls
    rfl
  · show (segmentDest r.statements r.model seg).key = _
    rw [segmentDest, Option.not_isSome_iff_eq_none.1 fun hsome => h (hfound.2 hsome)]
    rfl

def emission (r : ParseResult) : Emission := fileEmission r.statements r.preamble r.model

theorem emissionPlain_iff (r : ParseResult) : EmissionPlain (emission r) ↔ SourcePlain r := by
  have hsetup : (emission r).setup ++ (emission r).install =
      r.preamble.map (preamblePart r.statements r.model) ++ (statementSetup r ++ statementInstall r) := append_assoc ..
  rw [EmissionPlain, hsetup, SourcePlain, forall_mem_append, forall_mem_map]
  simp only [(preamblePart_placed r _).lines]

theorem not_blank_of_tag {l : Str} (h : applyTag l ≠ none ∨ isMeta l = true) : isBlank l = false := by
  by_contra hb
  have hstrip : strip l = [] := by simpa [isBlank] using hb
  rcases h with h | h
  · exact h (by rw [applyTag, hstrip]; rfl)
  · rw [isMeta, hstrip] at h
    exact absurd h (by decide +kernel)

section

variable {r : ParseResult} {sourceName text : Str} (hname : OneLine sourceName)
  (htext : text = outputText r.statements sourceName r.preamble r.model)
include hname htext

theorem plain_of_roundTrips (h : RoundTrips r text) : SourcePlain r := by
  obtain ⟨⟨segs, hsegs, hblocks⟩, hslots⟩ := h
  have hcode : ∀ p ∈ segs ++ (statementSetup r ++ statementInstall r), ∀ l ∈ partText p,
    applyTag l = none ∧ isMeta l = false := by
    intro p hp l hl
    by_contra hno
    have hb : isBlank l = false := not_blank_of_tag (by
      by_cases ht : applyTag l = none
      · exact .inr (by simpa [ht] using hno)
      · exact .inl ht)
    rw [← append_assoc] at hp
    obtain ⟨b, hb, hlb⟩ := @mem_emittedBlocks ⟨segs ++ statementSetup r, statementInstall r, []⟩ p hp l hl hb
    rw [← hblocks] at hb
    exact hno ((mem_parseBlocks hb).code l hlb).2
  have hfoot :
    ∀ p ∈ r.preamble.map (preamblePart r.statements r.model) ++ (statementSetup r ++ statementInstall r),
    ∀ l ∈ partText p,
      footprintTag l = none := by
    intro p hp l hl
    rw [htext, parseFootprints_output hname] at hslots
    have hlen := Except.length_mapM hslots
    simp only [length_append, length_map] at hlen
    have hnil := eq_nil_of_length_eq_zero (Nat.add_eq_left.1 hlen)
    exact filterMap_eq_nil_iff.1 hnil l (mem_flatMap.2 ⟨p, append_assoc .. ▸ hp, hl⟩)
  refine ⟨fun seg hseg l hl => ?_, fun p hp l hl => ?_⟩
  · obtain ⟨i, hi, rfl⟩ := getElem_of_mem hseg
    have hplaced := hsegs.get hi (hsegs.length_eq ▸ hi)
    have hmine := hcode _ (mem_append_left _ (getElem_mem (hsegs.length_eq ▸ hi))) l (hplaced.lines ▸ hl)
    have hpart := hfoot _ (mem_append_left _ (mem_map_of_mem hseg)) l ((preamblePart_placed r _).lines ▸ hl)
    exact isPlain_iff.2 ⟨hmine.1, hmine.2, hpart⟩
  · have hmine := hcode p (mem_append_right _ hp) l hl
    exact isPlain_iff.2 ⟨hmine.1, hmine.2, hfoot p (mem_append_right _ hp) l hl⟩

theorem reads_of_plain (hplain : EmissionPlain (emission r)) :
    parseBlocks text = emittedBlocks (emission r) ∧
      parseFootprints text = .ok ((r.statements.flatMap slots).map slotFootprint) := by
  subst htext
  refine ⟨parseBlocks_output hname hplain, ?_⟩
  rw [parseFootprints_output hname, filterMap_eq_nil_iff.2 fun l hl => ?_, append_nil, mapM_parseFootprint]
  obtain ⟨p, hp, hl⟩ := mem_flatMap.1 hl
  exact (isPlain_iff.1 (hplain p hp l hl)).2.2

end

open Written in
def bannerFile : XmixFile where
  path := "banner.xmix".toList
  src := []
  tree := .ok
    [adder vName, .other ⟨2, 0, "def scale():\n    # === halved\n    return 0.5".toList⟩,
      stmt (submodule (layer (write (run (selfAttr vName))) (ints [3])) "mlp.post")]

end Xmix.Apply
