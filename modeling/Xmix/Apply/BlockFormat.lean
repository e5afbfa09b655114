import Xmix.Apply.Synth
import Xmix.Dsl.Codegen

/-!
# The text between codegen and apply

`generate` writes the regions of a file as text, `parse_blocks` and `parse_footprints` read them
back. The format is in band: a line of a region is told from codegen's tags and banners by its text
alone. So the reading is faithful exactly when no line inside a region looks like one.
-/

namespace Xmix.Apply

open List Option
open PyStr LinePattern Dsl

variable {a b : Str} {model : Model} {p : Part} {preamble : List PreambleSegment} {statements : List Statement}

/-! ### What was emitted -/

def partText (p : Part) : List Str := (p.code.flatMap Code.lines).flatMap physical

def regionsGo (k : Place) (code : List Str) : List Part → List (Place × List Str)
  | [] => [(k, code)]
  | p :: parts =>
    if p.dest.key = k then regionsGo k (code ++ partText p) parts
    else (k, code) :: regionsGo p.dest.key (partText p) parts

def regions : List Part → List (Place × List Str)
  | [] => []
  | p :: parts => regionsGo p.dest.key (partText p) parts

def regionBlock (r : Place × List Str) : SynthBlock := ⟨r.1.1, r.1.2.name, r.2⟩

def emittedBlocks (em : Emission) : List SynthBlock :=
  (regions em.setup ++ regions em.install).filterMap fun r => (regionBlock r).trimmed

def slotLayers : LayerSpec → Layers
  | .all => .all
  | .only ls => .set ((ls.layers.insertionSort (· ≤ ·)).map Int.ofNat).dedup

def slotFootprint (s : Flag × Submodule × LayerSpec) : Footprint := ⟨s.1.name, s.2.1.name, slotLayers s.2.2⟩

def isPlain (line : Str) : Bool := (applyTag line).isNone && !isMeta line && (footprintTag line).isNone

def EmissionPlain (em : Emission) : Prop := ∀ p ∈ em.setup ++ em.install, ∀ line ∈ partText p, isPlain line = true

theorem isPlain_iff {line : Str} : isPlain line = true ↔
      applyTag line = none ∧ isMeta line = false ∧ footprintTag line = none := by
  simp [isPlain, and_assoc]

/-! ### Codegen's own lines -/

theorem oneLine_append₅ {c v w : Str} (ha : OneLine a)
    (hv : OneLine v) (hb : OneLine b) (hw : OneLine w) (hc : OneLine c) :
    OneLine (a ++ v ++ b ++ w ++ c) :=
  oneLine_append.2 ⟨oneLine_append.2 ⟨oneLine_append.2 ⟨oneLine_append.2 ⟨ha, hv⟩, hb⟩, hw⟩, hc⟩

theorem anchor_word (a : Anchor) : Word a.name := by cases a <;> decide

theorem flag_word (flag : Flag) : Word flag.name := by cases flag <;> decide

theorem submodule_word (sub : Submodule) : Word sub.name := by cases sub <;> decide

theorem anchorFile_word (model : Model) (a : Anchor) : Word (model.anchorFile a) := by
  cases model <;> cases a <;> exact of_ofList (P := Word) (by decide)

theorem append_tag₂ {c : Str} (a' b' c' v w : Str)
    (ha : a = '#' :: ' ' :: '>' :: a') (hb : b = ' ' :: b') (hc : c = ' ' :: c') :
    a ++ v ++ b ++ w ++ c = '#' :: ' ' :: '>' :: (a' ++ (fieldsText [(v, b'), (w, c')] ++ [])) := by
  subst ha hb hc
  simp [fieldsText]

theorem append_tag₃ {c d : Str} (a' b' c' d' u v w : Str) (ha : a = '#' :: ' ' :: '>' :: a') (hb : b = ' ' :: b')
    (hc : c = ' ' :: c') (hd : d = ' ' :: d') :
    a ++ u ++ b ++ v ++ c ++ w ++ d = '#' :: ' ' :: '>' :: (a' ++ (fieldsText [(u, b'), (v, c'), (w, d')] ++ [])) := by
  subst ha hb hc hd
  simp [fieldsText]

theorem strip_arrow (s : Str) : strip ('#' :: s ++ " <<<".toList) = '#' :: s ++ " <<<".toList := by
  refine strip_eq_self (by simp; decide) fun c hc => ?_
  rw [getLast?_append] at hc
  obtain rfl : '<' = c := some.inj hc
  decide

section Apply
variable {d : Dest}

theorem strip_applyLine : strip d.applyLine = d.applyLine := strip_arrow _

theorem applyLine_eq : d.applyLine = '#' :: ' ' :: '>' :: (">> XMIX-APPLY file=".toList ++
    (fieldsText [(d.file, "anchor=".toList), (d.anchor.name, "<<<".toList)] ++ [])) :=
  append_tag₂ _ _ _ _ _ rfl rfl rfl

theorem applyTag_applyLine (hfile : Word d.file) : applyTag d.applyLine = some (d.file, d.anchor.name) := by
  have hscan := scan_tag (c := '>') (by decide) (h := (by simp [hfile, anchor_word] :
    ∀ f ∈ [(d.file, "anchor=".toList), (d.anchor.name, "<<<".toList)], Word f.1)) ">> XMIX-APPLY file=".toList [] []
  rw [← applyLine_eq] at hscan
  have hread : scan [.lit ['#'], .spaces, .lit ">>> XMIX-APPLY file=".toList, .word, .lit " anchor=".toList, .word,
      .lit " <<<".toList] d.applyLine = some ([d.file, d.anchor.name], []) := hscan
  rw [applyTag, strip_applyLine, hread]
  rfl

theorem footprintTag_applyLine : footprintTag d.applyLine = none := by
  have hread : ∀ items, scan (.lit ['#'] :: .spaces :: .lit ">>> XMIX-FOOTPRINT flag=".toList :: items)
    d.applyLine = none := by
    intro items
    rw [applyLine_eq, scan_hash (by decide)]
    exact scan_lit_of_not rfl _
  rw [footprintTag, strip_applyLine, words, hread]
  rfl

theorem oneLine_applyLine (hfile : Word d.file) : OneLine d.applyLine :=
  oneLine_append₅ (of_ofList (P := OneLine) (by decide)) (oneLine_of_word hfile) (by decide)
    (oneLine_of_word (anchor_word d.anchor))
    (by decide)

end Apply

section Footprint
variable (flag : Flag) (sub : Submodule) (layers : LayerSpec)

theorem layersText_word : Word (layersText layers) := by
  cases layers with
  | all => decide
  | only ls =>
    have hne : ls.layers.insertionSort (· ≤ ·) ≠ [] := by
      intro h
      exact ls.ne_nil (length_eq_zero_iff.1 (by rw [← length_insertionSort (· ≤ ·), h]; rfl))
    rw [layersText, map_natStr]
    exact word_intJoin (by simpa using hne)

theorem parseLayers_layersText : parseLayers (layersText layers) = .ok (slotLayers layers) := by
  cases layers with
  | all => rfl
  | only ls =>
    rw [layersText, map_natStr]
    refine parseLayers_intJoin fun h => ?_
    exact ls.ne_nil (length_eq_zero_iff.1 (by rw [← length_insertionSort (· ≤ ·), map_eq_nil_iff.1 h]; rfl))

theorem strip_footprintLine : strip (footprintLine flag sub layers) = footprintLine flag sub layers := strip_arrow _

theorem footprintLine_eq : footprintLine flag sub layers = '#' :: ' ' :: '>' :: (">> XMIX-FOOTPRINT flag=".toList ++
    (fieldsText [(flag.name, "submodule=".toList), (sub.name, "layers=".toList),
      (layersText layers, "<<<".toList)] ++ [])) :=
  append_tag₃ _ _ _ _ _ _ _ rfl rfl rfl rfl

theorem footprintTag_footprintLine :
    footprintTag (footprintLine flag sub layers) = some [flag.name, sub.name, layersText layers] := by
  have hwords : ∀ f ∈ [(flag.name, "submodule=".toList), (sub.name, "layers=".toList),
    (layersText layers, "<<<".toList)],
      Word f.1 := by simp [flag_word, submodule_word, layersText_word]
  have hscan := scan_tag (c := '>') (by decide) hwords ">> XMIX-FOOTPRINT flag=".toList [] []
  rw [← footprintLine_eq] at hscan
  have hread : scan [.lit ['#'], .spaces, .lit ">>> XMIX-FOOTPRINT flag=".toList, .word,
    .lit " submodule=".toList, .word,
      .lit " layers=".toList, .word, .lit " <<<".toList] (footprintLine flag sub layers) =
      some ([flag.name, sub.name, layersText layers], []) := hscan
  rw [footprintTag, strip_footprintLine, words, hread]
  rfl

theorem applyTag_footprintLine : applyTag (footprintLine flag sub layers) = none := by
  have hread : ∀ items, scan (.lit ['#'] :: .spaces :: .lit ">>> XMIX-APPLY file=".toList :: items)
      (footprintLine flag sub layers) = none := by
    intro items
    rw [footprintLine_eq, scan_hash (by decide)]
    exact scan_lit_of_not rfl _
  rw [applyTag, strip_footprintLine, hread]

theorem oneLine_footprintLine : OneLine (footprintLine flag sub layers) :=
  oneLine_append.2 ⟨oneLine_append.2 ⟨oneLine_append₅ (of_ofList (P := OneLine) (by decide))
    (oneLine_of_word (flag_word _)) (by decide)
    (oneLine_of_word (submodule_word _)) (by decide), oneLine_of_word (layersText_word _)⟩, by decide⟩

end Footprint

structure DestReads (d : Dest) : Prop where
  oneLine : ∀ l ∈ d.tagLines, OneLine l
  noFootprint : ∀ l ∈ d.tagLines, footprintTag l = none
  apply : applyTag d.applyLine = some (d.file, d.anchor.name)
  banner : ∀ l ∈ d.tagLines.drop 2, applyTag l = none ∧ isMeta l = true

def BannerReads (l : Str) : Prop := OneLine l ∧ footprintTag l = none ∧ applyTag l = none ∧ isMeta l = true

instance (l : Str) : Decidable (BannerReads l) := by unfold BannerReads; infer_instance

theorem bannerReads_destination {label : Str} (h : OneLine label) :
    BannerReads ("# >>> DESTINATION: ".toList ++ label ++ " <<<".toList) := by
  have hopen : "# >>> DESTINATION: ".toList = '#' :: ' ' :: '>' :: '>' :: '>' :: ' ' :: 'D' ::
    "ESTINATION: ".toList := by simp
  have hone : OneLine ("# >>> DESTINATION: ".toList ++ label ++ " <<<".toList) :=
    oneLine_append.2 ⟨oneLine_append.2 ⟨of_ofList (P := OneLine) (by decide), h⟩, by decide⟩
  rw [hopen] at hone ⊢
  have hstrip := strip_arrow (' ' :: '>' :: '>' :: '>' :: ' ' :: 'D' :: ("ESTINATION: ".toList ++ label))
  generalize "ESTINATION: ".toList = t at hone hstrip ⊢
  generalize " <<<".toList = u at hone hstrip ⊢
  simp only [cons_append] at hone hstrip ⊢
  refine ⟨hone, ?_, ?_, ?_⟩
  · rw [footprintTag, words, hstrip, scan_hash (by decide), scan_lit_of_not rfl]
    rfl
  · rw [applyTag, hstrip, scan_hash (by decide), scan_lit_of_not rfl]
  · rw [isMeta, hstrip]
    rfl

theorem bannerReads_note {note : Str} (h : OneLine note) :
    BannerReads ("#     (executes at: ".toList ++ note ++ [')']) := by
  have hopen : "#     (executes at: ".toList = "#     (executes at:".toList ++ [' '] := by simp
  have hhead : "#     (executes at:".toList = '#' :: ' ' :: ' ' :: ' ' :: ' ' :: ' ' ::
    '(' :: "executes at:".toList := by simp
  have hone : OneLine ("#     (executes at: ".toList ++ note ++ [')']) :=
    oneLine_append.2 ⟨oneLine_append.2 ⟨of_ofList (P := OneLine) (by decide), h⟩, by decide⟩
  have hmeta : "#     (executes at:".toList ∈ metaPrefixes := by simp [metaPrefixes]
  rw [hopen] at hone ⊢
  have hstrip : strip ("#     (executes at:".toList ++ [' '] ++ note ++ [')']) =
    "#     (executes at:".toList ++ [' '] ++ note ++ [')'] := by
    rw [hhead]
    refine strip_eq_self (by simp; decide) fun c hc => ?_
    rw [getLast?_append] at hc
    obtain rfl : ')' = c := some.inj hc
    decide
  refine ⟨hone, ?_, ?_, any_eq_true.2 ⟨_, hmeta, ?_⟩⟩
  · rw [footprintTag, words, hstrip, hhead]
    generalize "executes at:".toList = t
    rfl
  · rw [applyTag, hstrip, hhead]
    generalize "executes at:".toList = t
    rfl
  · rw [hstrip, append_assoc, append_assoc]
    exact startsWith_append _ _

theorem destReads_of_banners {d : Dest} (hfile : Word d.file)
    (hlabel : OneLine d.label) (hnote : ∀ note, d.note = some note → OneLine note) : DestReads d := by
  have hlines : ∀ l ∈ d.tagLines, l = [] ∨ l = d.applyLine ∨ l ∈ d.tagLines.drop 2 := by
    intro l hl
    simp only [Dest.tagLines, cons_append, nil_append, mem_cons] at hl
    rcases hl with h | h | h
    · exact .inl h
    · exact .inr (.inl h)
    · exact .inr (.inr (mem_cons.2 h))
  have hbanners : ∀ l ∈ d.tagLines.drop 2, BannerReads l := by
    intro l hl
    rcases mem_cons.1 (show l ∈ _ :: _ from hl) with rfl | hl
    · exact bannerReads_destination hlabel
    · obtain ⟨note, hn, rfl⟩ := map_eq_some_iff.1 (mem_toList.1 (show l ∈ toList _ from hl))
      exact bannerReads_note (hnote note hn)
  refine ⟨fun l hl => ?_, fun l hl => ?_, applyTag_applyLine hfile, fun l hl => (hbanners l hl).2.2⟩
  · rcases hlines l hl with rfl | rfl | h
    · exact fun _ h => absurd h not_mem_nil
    · exact oneLine_applyLine hfile
    · exact (hbanners l h).1
  · rcases hlines l hl with rfl | rfl | h
    · rfl
    · exact footprintTag_applyLine
    · exact (hbanners l h).2.1

theorem setupDest_reads (model : Model) : DestReads (setupDest model) :=
  destReads_of_banners (anchorFile_word model .runnerSetup) (of_ofList (P := OneLine) (by decide))
    fun _ hn => absurd hn.symm (some_ne_none _)

theorem postloadDest_reads (model : Model) : DestReads (postloadDest model) :=
  destReads_of_banners (anchorFile_word model .runnerPostload) (of_ofList (P := OneLine) (by decide))
    fun _ hn => absurd hn.symm (some_ne_none _)

theorem modelDest_reads (cls : ModelCond) (model : Model) : DestReads (modelDest cls model) := by
  refine destReads_of_banners (anchorFile_word model cls.spec.destAnchor) ?_ fun note hn => ?_
  · cases cls; exact of_ofList (P := OneLine) (by decide)
  · obtain rfl : cls.spec.runDest = note := some.inj hn
    cases cls; exact of_ofList (P := OneLine) (by decide)

theorem runDest_reads (cls : ModelCond) (model : Model) : DestReads (runDest cls model) := by
  have hname : OneLine cls.spec.name := by
    cases cls; exact of_ofList (P := OneLine) (by decide)
  have hlabel : OneLine (runDest cls model).label :=
    oneLine_append.2 ⟨oneLine_append.2 ⟨of_ofList (P := OneLine) (by decide), hname⟩,
      of_ofList (P := OneLine) (by decide)⟩
  exact destReads_of_banners (anchorFile_word model cls.spec.runAnchor) hlabel fun _ hn =>
    absurd hn.symm (some_ne_none _)

theorem setup_dest
    (h : p ∈ (fileEmission statements preamble model).setup) :
    p.dest = setupDest model ∨ (∃ cls, p.dest = modelDest cls model) ∨ ∃ cls, p.dest = runDest cls model := by
  simp only [fileEmission, List.mem_append, List.mem_map, List.mem_flatMap] at h
  rcases h with ⟨seg, -, rfl⟩ | ⟨⟨stmt, i⟩, -, h | h⟩
  · unfold preamblePart segmentDest
    split
    · exact .inr (.inl ⟨_, rfl⟩)
    · exact .inl rfl
  · unfold buildParts at h
    split at h
    · simp at h
    · rw [List.mem_singleton.1 h]; exact .inl rfl
  · unfold condParts at h
    split at h
    · simp at h
    · rw [mem_singleton.1 h]; exact .inl rfl
    · rw [mem_singleton.1 h]; exact .inl rfl
    · rw [mem_singleton.1 h]; exact .inr (.inr ⟨_, rfl⟩)

theorem mem_install (h : p ∈ (fileEmission statements preamble model).install) :
    ∃ i stmt, stmt ∈ statements ∧ p = installPart model i stmt := by
  obtain ⟨⟨stmt, i⟩, hmem, rfl⟩ := mem_map.1 h
  exact ⟨i, stmt, fst_mem_of_mem_zipIdx hmem, rfl⟩

theorem fileEmission_reads
    (h : p ∈ (fileEmission statements preamble model).setup ++ (fileEmission statements preamble model).install) :
    DestReads p.dest := by
  rcases mem_append.1 h with h | h
  · rcases setup_dest h with hd | ⟨cls, hd⟩ | ⟨cls, hd⟩ <;> rw [hd]
    · exact setupDest_reads model
    · exact modelDest_reads cls model
    · exact runDest_reads cls model
  · obtain ⟨i, stmt, -, rfl⟩ := mem_install h
    exact postloadDest_reads model

def Quiet (l : Str) : Prop := OneLine l ∧ applyTag l = none ∧ footprintTag l = none

instance (l : Str) : Decidable (Quiet l) := by unfold Quiet; infer_instance

theorem quiet_comment {c : Char} (hspace : isSpace c = false) (harrow : c ≠ '>') {s : Str} (hs : OneLine s) :
    Quiet ('#' :: ' ' :: c :: s) := by
  have hstrip : strip ('#' :: ' ' :: c :: s) = '#' :: ' ' :: c :: rstrip s := by
    have := rstrip_append_cons_of_not hspace [' '] s
    rw [strip_cons_of_not (by decide)]
    exact congrArg _ this
  have hno : ∀ p : Str, p.head? = some '>' → startsWith p (c :: rstrip s) = false := by
    intro p hp
    cases p with
    | nil => simp at hp
    | cons d p =>
      obtain rfl : d = '>' := by simpa using hp
      simp [startsWith, isPrefixOf, harrow.symm]
  have hline : OneLine ('#' :: ' ' :: c :: s) := by
    have hc : isLineBreak c = false := by
      by_contra hb
      exact absurd (isSpace_of_isLineBreak (by simpa using hb)) (by simp [hspace])
    intro d hd
    simp only [mem_cons] at hd
    rcases hd with rfl | rfl | rfl | hd
    · decide
    · decide
    · exact hc
    · exact hs d hd
  refine ⟨hline, ?_, ?_⟩
  · rw [applyTag, hstrip, scan_hash hspace, scan_lit_of_not (hno _ rfl)]
  · rw [footprintTag, words, hstrip, scan_hash hspace, scan_lit_of_not (hno _ rfl)]
    rfl

theorem quiet_of_comment {l : Str} {c : Char} (s : Str) (hl : l = '#' :: ' ' :: c :: s)
    (hspace : isSpace c = false) (harrow : c ≠ '>') (hone : OneLine l) : Quiet l := by
  subst hl
  exact quiet_comment hspace harrow fun d hd => hone d (by simp [hd])

theorem quiet_append {t : Str} (a' : Str) {c : Char} (ha : a = '#' :: ' ' :: c :: a')
    (hspace : isSpace c = false) (harrow : c ≠ '>') (ha' : OneLine a') (ht : OneLine t) :
    Quiet (a ++ t) := by
  subst ha
  exact quiet_comment hspace harrow (oneLine_append.2 ⟨ha', ht⟩)

theorem oneLine_ident (i : Ident) : OneLine i.name := by
  intro c hc
  have hident : isIdentChar c = true := all_eq_true.1 i.chars c hc
  by_contra hb
  have hbreak : isLineBreak c = true := by simpa using hb
  simp only [isLineBreak, Bool.or_eq_true, Bool.and_eq_true, decide_eq_true_eq, beq_iff_eq] at hbreak
  -- the line breaks are ten characters, and none of them may stand in a name
  have hcode : c.toNat ∈ [10, 11, 12, 13, 28, 29, 30, 0x85, 0x2028, 0x2029] := by
    simp only [mem_cons, not_mem_nil, or_false]
    omega
  have hno : ∀ n ∈ [10, 11, 12, 13, 28, 29, 30, 0x85, 0x2028, 0x2029], isIdentChar (Char.ofNat n) = false := by decide
  rw [← Char.ofNat_toNat c, hno _ hcode] at hident
  cases hident

theorem oneLine_buildNames (stmt : Statement) : ∀ n ∈ buildNames stmt, OneLine n := by
  intro n hn
  unfold buildNames at hn
  split at hn
  · simp at hn
  · rcases mem_cons.1 hn with rfl | hn
    · cases stmt.opName <;> decide +kernel
    · obtain ⟨i, -, rfl⟩ := mem_map.1 hn
      exact oneLine_ident i

theorem oneLine_condNames (stmt : Statement) : ∀ n ∈ condNames stmt, OneLine n := by
  intro n hn
  unfold condNames at hn
  split at hn
  · next op compare weights threshold _ _ _ _ =>
    simp only [mem_cons, not_mem_nil, or_false] at hn
    rcases hn with rfl | rfl | rfl | rfl | rfl | rfl
    · cases op; decide +kernel
    · exact oneLine_ident _
    · exact oneLine_ident _
    · decide
    · decide
    · cases compare; decide
  · simp at hn

theorem headerLines_quiet (statements : List Statement)
    (preamble : List PreambleSegment) (model : Model) {sourceName : Str} (hname : OneLine sourceName) :
    ∀ l ∈ headerLines sourceName model (fileEmission statements preamble model).assumed, Quiet l := by
  have hassumed : ∀ n ∈ (fileEmission statements preamble model).assumed, OneLine n := by
    intro n hn
    rcases mem_cons.1 hn with rfl | hn
    · decide
    · obtain ⟨stmt, -, hn⟩ := mem_flatMap.1 hn
      rcases mem_append.1 hn with hn | hn
      · exact oneLine_buildNames stmt n hn
      · exact oneLine_condNames stmt n hn
  have hmodel : OneLine model.name := by cases model <;> decide
  have hsource : OneLine (sourceName ++ "  (model: ".toList ++ model.name ++ [')']) :=
    oneLine_append.2 ⟨oneLine_append.2 ⟨oneLine_append.2 ⟨hname, by decide⟩, hmodel⟩, by decide⟩
  have hjoin := @oneLine_join ", ".toList _ (by decide) fun n hn => hassumed n (mem_sortedSet.1 hn)
  have hfixed : ∀ l ∈ (headerLines [] .llama []).drop 2, Quiet l := by
    intro l hl
    simp only [headerLines, drop_succ_cons, drop_zero, mem_cons, not_mem_nil, or_false] at hl
    rcases hl with rfl | rfl | rfl | rfl
    · decide
    · exact quiet_of_comment
        "xcerpts are grouped by destination. Each '# >>> XMIX-APPLY file=… anchor=… <<<'".toList (by simp)
        (show isSpace 'E' = false by decide) (by decide) (of_ofList (P := OneLine) (by decide))
    · exact quiet_of_comment
        "ag is read by the apply tool to splice the block below it at that anchor;".toList (by simp)
        (show isSpace 't' = false by decide) (by decide) (of_ofList (P := OneLine) (by decide))
    · exact quiet_of_comment "he '# >>> DESTINATION: … <<<' banner is the human-readable label.".toList (by simp)
        (show isSpace 't' = false by decide) (by decide) (of_ofList (P := OneLine) (by decide))
  intro l hl
  rcases mem_cons.1 (show l ∈ _ :: _ from hl) with rfl | hl
  · exact quiet_append "mix synthesized from ".toList (c := 'x') rfl (by decide) (by decide) (by decide) hsource
  rcases mem_cons.1 (show l ∈ _ :: _ from hl) with rfl | hl
  · exact quiet_append "ssumes in scope: ".toList (c := 'a') rfl (by decide) (by decide) (by decide) hjoin
  exact hfixed l hl

end Xmix.Apply
