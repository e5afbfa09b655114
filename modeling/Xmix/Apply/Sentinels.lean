import Xmix.Apply.Footprints

/-!
# Sentinels and footprints of any app id

The app id is written as it is into the begin line of each region and into each persisted footprint
line. The begin line is read by `split()[2]`, the footprint line by four groups `\S+`: both read one
word, so what was written comes back exactly for app ids that are one word.
-/

namespace Xmix.Apply

open List
open PyStr LinePattern

def Indent (i : Str) : Prop := (∀ c ∈ i, isSpace c = true) ∧ OneLine i

theorem indent_nil : Indent [] := ⟨by simp, by intro c hc; cases hc⟩

structure Recognised (a line : Str) : Prop where
  written : physical line = [line]
  begins : isBegin line = true
  tagged : tagged (some [a]) line = true

def Decoded (a : Str) (fp : Footprint) (line : Str) : Prop :=
  physical line = [line] ∧ ∃ fp', scanFile [line] = .ok [(a, fp')] ∧ fp'.flag = fp.flag ∧ fp'.submodule = fp.submodule ∧
    ∀ l, fp'.layers.Has l ↔ fp.layers.Has l

/-- What apply writes for `a` is recognised, removed and decoded again. -/
structure Plan.RoundTrips (plan : Plan) (a : Str) : Prop where
  begins : ∀ it ∈ plan.items, it.2.app = a → ∀ i, Indent i → Recognised a (beginLine i a it.2.anchor)
  /-- in whatever state the strip of `a` reaches the region, it passes it without keeping a line -/
  removed : ∀ it ∈ plan.items, it.2.app = a → (∀ cl ∈ it.2.code, isEnd cl = false) → ∀ i, Indent i → ∀ skipping rest,
    stripGo (some [a]) skipping ((block i a it.2.anchor (plan.persisted it.2).code).flatMap physical ++ rest) =
      stripGo (some [a]) false rest
  decoded : ∀ it ∈ plan.items, it.2.app = a → it.2.anchor = postloadStr → ∀ fp ∈ plan.fpsOf a, ∀ i, Indent i →
    Decoded a fp (reindent i (appliedLine a fp))

/-! ### Begin lines -/

theorem appId_of_tagged {a line : Str} (h : tagged (some [a]) line = true) : AppId a := by
  simp only [tagged] at h
  cases hfield : (split (strip line))[2]? with
  | none => rw [hfield] at h; cases h
  | some w =>
    rw [hfield] at h
    obtain rfl : w = a := by simpa using h
    exact of_mem_split (mem_of_getElem? hfield)

section Region
variable {i a anchor : Str} (hi : Indent i) (ha : AppId a) (hw : Word anchor)
include hi ha hw

theorem oneLine_sentinel {tag : Str} (htag : OneLine tag) : OneLine (i ++ tag ++ a ++ ' ' :: anchor) := by
  have hsp : OneLine (' ' :: anchor) := by
    have := oneLine_append.2 ⟨show OneLine [' '] by decide, oneLine_of_word hw⟩
    simpa using this
  exact oneLine_append.2 ⟨oneLine_append.2 ⟨oneLine_append.2 ⟨hi.2, htag⟩, oneLine_of_word ha⟩, hsp⟩

theorem recognised_beginLine : Recognised a (beginLine i a anchor) := by
  refine ⟨physical_oneLine (oneLine_sentinel hi ha hw (by decide)), isBegin_beginLine hi.1 hw a, ?_⟩
  simp only [tagged, strip_beginLine hi.1 ha.1 ha.2, split_beginLine ha.1 ha.2]
  simp

theorem stripGo_block {code : List Str} (hcode : ∀ cl ∈ code, OneLine cl ∧ isEnd cl = false)
    (skipping : Bool) (rest : List Str) :
    stripGo (some [a]) skipping ((block i a anchor code).flatMap physical ++ rest) = stripGo (some [a]) false rest := by
  obtain ⟨hbegin, hisBegin, htagged⟩ := recognised_beginLine hi ha hw
  have hend : physical (endLine i a anchor) = [endLine i a anchor] :=
    physical_oneLine (oneLine_sentinel hi ha hw (by decide))
  have hbody : (code.map (reindent i)).flatMap physical = code.map (reindent i) := flatMap_physical fun l hl => by
    obtain ⟨cl, hcl, rfl⟩ := mem_map.1 hl
    unfold reindent
    split
    · exact fun c hc => by cases hc
    · exact oneLine_append.2 ⟨hi.2, (hcode cl hcl).1⟩
  have hskip := isEnd_reindent hi.1 fun cl hcl => (hcode cl hcl).2
  -- the begin line is skipped as well when the scanner is still inside another region
  have hfirst : ∀ ls, stripGo (some [a]) skipping (beginLine i a anchor :: ls) = stripGo (some [a]) true ls := by
    intro ls
    cases skipping with
    | false => rw [stripGo]; simp [hisBegin, htagged]
    | true => rw [stripGo]; simp [isEnd_beginLine hi.1 hw a]
  have hlast : stripGo (some [a]) true (endLine i a anchor :: rest) = stripGo (some [a]) false rest := by
    rw [stripGo]; simp [isEnd_endLine hi.1 hw a]
  rw [block, flatMap_append, flatMap_cons, hbegin, hbody, flatMap_cons, hend, flatMap_nil, append_nil,
    append_assoc, singleton_append, cons_append, hfirst, stripGo_skip _ hskip, singleton_append, hlast]

end Region

/-! ### Footprint lines -/

section Footprint
variable {a : Str} {fp : Footprint} (ha : AppId a) (hflag : Word fp.flag) (hsub : Word fp.submodule)
include ha hflag hsub

theorem decoded_appliedLine (hlayers : fp.layers ≠ .set []) {i : Str} (hi : Indent i) :
    Decoded a fp (reindent i (appliedLine a fp)) := by
  obtain ⟨hword, layers, hparse, hsame⟩ := parseLayers_layersStr hlayers
  refine ⟨physical_oneLine ?_, ⟨fp.flag, fp.submodule, layers⟩, ?_, rfl, rfl, hsame⟩
  · unfold reindent
    split
    · exact fun c hc => by cases hc
    · exact oneLine_append.2 ⟨hi.2, oneLine_appliedLine (oneLine_of_word ha) hflag hsub⟩
  · have htag : appliedTag (reindent i (appliedLine a fp)) = some [a, fp.flag, fp.submodule, layersStr fp.layers] := by
      rw [appliedTag, strip_reindent hi.1]
      exact appliedTag_appliedLine ha hflag hsub hword
    simp [scanFile, htag, parseApplied, parseFootprint, hparse]

theorem appliedTag_of_no_layers (hlayers : fp.layers = .set []) : appliedTag (appliedLine a fp) = none := by
  have hstrip : strip (appliedLine a fp) = '#' :: ' ' :: 'x' :: ("mix:footprint ".toList ++
      (fieldsText [(a, []), (fp.flag, [])] ++ fp.submodule)) := by
    have hopen : appliedOpen = '#' :: ' ' :: 'x' :: "mix:footprint ".toList := by decide +kernel
    have hspace : rstrip [' '] = [] := by decide
    have h :=
      @strip_tag [] (appliedOpen ++ fieldsText [(a, []), (fp.flag, [])]) fp.submodule (by simp) (by rw [hopen]; rfl)
      hsub.1 hsub.2 [' ']
    rw [hspace, hopen] at h
    rw [appliedLine, hlayers, hopen]
    generalize "mix:footprint ".toList = t at h ⊢
    simpa [fieldsText, layersStr, join] using h
  have hwords : ∀ f ∈ [(a, ([] : Str)), (fp.flag, [])], Word f.1 := by simp [hflag]; exact ha
  have hscan := scan_tag (c := 'x') (by decide) hwords "mix:footprint ".toList [.word, .lit [' '], .word] fp.submodule
  have hlast : scan [.word, .lit [' '], .word] fp.submodule = none := by
    have := scan_word hsub (s := []) (by simp) [.lit [' '], .word]
    rw [append_nil, scan_lit_of_not (by decide)] at this
    exact this
  rw [hlast, ← hstrip] at hscan
  have hread : scan [.lit ['#'], .spaces, .lit "xmix:footprint ".toList, .word, .lit [' '], .word,
    .lit [' '], .word, .lit [' '],
      .word] (strip (appliedLine a fp)) = none := hscan
  rw [appliedTag, words, hread]
  rfl

theorem layers_of_decoded (h : Decoded a fp (reindent [] (appliedLine a fp))) : fp.layers ≠ .set [] := by
  intro hlayers
  obtain ⟨-, fp', hscan, -⟩ := h
  have htag : appliedTag (reindent [] (appliedLine a fp)) = none := by
    rw [appliedTag, strip_reindent (by simp)]
    exact appliedTag_of_no_layers ha hflag hsub hlayers
  simp [scanFile, htag] at hscan

end Footprint

/-! ### Whole plans -/

theorem exists_item {fs : Fs} {paths : List Str} {override : Option Str}
    {plan : Plan} (h : readPlan fs paths override = .ok plan) {path : Str} (hp : path ∈ paths) :
    ∃ it ∈ plan.items, it.2.app = appIdFrom path override := by
  refine Except.foldlM_reaches (fun plan => ∃ it ∈ plan.items, it.2.app = appIdFrom path override)
    (fun plan path' plan' hit hstep => ?_)
    hp (fun plan plan' hstep => ?_) h
  · obtain ⟨text, fps, -, -, -, -, rfl⟩ := readOne_eq_ok.1 hstep
    obtain ⟨it, hit, happ⟩ := hit
    exact ⟨it, mem_append_left _ hit, happ⟩
  · obtain ⟨text, fps, -, -, hne, -, rfl⟩ := readOne_eq_ok.1 hstep
    obtain ⟨b, hb⟩ := exists_mem_of_ne_nil _ hne
    exact ⟨_, mem_append_right _ (mem_map_of_mem hb), rfl⟩

/-- What an accepted batch writes for a synth file comes back exactly when its app id is one word
and, where footprints are persisted, none of them has an empty layer set. -/
theorem roundTrips_iff {fs : Fs} {paths : List Str} {override : Option Str}
    {plan : Plan} (h : prepare fs paths override = .ok plan) {path : Str} (hp : path ∈ paths) :
    plan.RoundTrips (appIdFrom path override) ↔ AppId (appIdFrom path override) ∧
      ∀ it ∈ plan.items, it.2.app = appIdFrom path override → it.2.anchor = postloadStr →
        ∀ fp ∈ plan.fpsOf (appIdFrom path override), fp.layers ≠ .set [] := by
  have hplan := (prepare_eq_ok.1 h).1
  have hread := read_readPlan hplan
  have hwords : ∀ fp ∈ plan.fpsOf (appIdFrom path override), Word fp.flag ∧ Word fp.submodule := by
    intro fp hfp
    obtain ⟨fps, hfps, hfp⟩ := Plan.mem_fpsOf hfp
    exact hread.fps _ hfps fp hfp
  constructor
  · intro hround
    obtain ⟨it, hit, happ⟩ := exists_item hplan hp
    have ha : AppId (appIdFrom path override) := appId_of_tagged (hround.begins it hit happ [] indent_nil).tagged
    refine ⟨ha, fun it hit happ hanchor fp hfp => ?_⟩
    obtain ⟨hflag, hsub⟩ := hwords fp hfp
    exact layers_of_decoded ha hflag hsub (hround.decoded it hit happ hanchor fp hfp [] indent_nil)
  · rintro ⟨ha, hlayers⟩
    refine ⟨fun it hit _ i hi => recognised_beginLine hi ha (hread.anchor it hit),
      fun it hit happ hend i hi skipping rest => ?_, fun it hit happ hanchor fp hfp i hi => ?_⟩
    · refine stripGo_block hi ha (hread.anchor it hit) (fun cl hcl => ?_) skipping rest
      rcases Plan.mem_persisted hcl with hcl | ⟨fps, hfps, fp, hfp, rfl⟩
      · exact ⟨hread.code it hit cl hcl, hend cl hcl⟩
      · obtain ⟨hflag, hsub⟩ := hread.fps _ hfps fp hfp
        rw [happ]
        exact ⟨oneLine_appliedLine (oneLine_of_word ha) hflag hsub, isEnd_appliedLine _ fp⟩
    · obtain ⟨hflag, hsub⟩ := hwords fp hfp
      exact decoded_appliedLine ha hflag hsub (hlayers it hit happ hanchor fp hfp) hi

def oneSynth (synth : Str) : Fs where
  inode path := if path = synth then some 0 else if path = Dsl.Model.runnerFile then some 1 else none
  text i :=
    if i = 0 then ("# >>> XMIX-FOOTPRINT flag=res submodule=mlp.post layers=5,3 <<<\n# >>> XMIX-APPLY file=".toList ++
      Dsl.Model.runnerFile ++ " anchor=runner_postload <<<\nx = 1\n".toList)
    else "    # xmix:anchor runner_postload\n".toList
  out := []

def onePlan (a : Str) : Plan where
  items := [(Dsl.Model.runnerFile, ⟨postloadStr, a, ["x = 1".toList]⟩)]
  apps := [a]
  fps := [(a, [⟨"res".toList, "mlp.post".toList, .set [5, 3]⟩])]

theorem oneWord_roundTrips : prepare (oneSynth "app_synth.py".toList)
      ["app_synth.py".toList] none = .ok (onePlan "app".toList) ∧
    (onePlan "app".toList).RoundTrips (appIdFrom "app_synth.py".toList none) := by
  have hprep : prepare (oneSynth "app_synth.py".toList)
    ["app_synth.py".toList] none = .ok (onePlan "app".toList) := by decide +kernel
  have hid : appIdFrom "app_synth.py".toList none = "app".toList := by decide +kernel
  refine ⟨hprep, (roundTrips_iff hprep (mem_singleton.2 rfl)).2 ?_⟩
  rw [hid]
  refine ⟨by simp only [AppId]; decide, ?_⟩
  decide +kernel

/-- `my app_synth.py` is applied, but its region carries the tag `my`: reverting it removes nothing,
and the persisted line has one field too many, so that every later scan raises. -/
theorem spacedId_lost :
    let fs' := (cmdApply ["my app_synth.py".toList] none false (oneSynth "my app_synth.py".toList)).1
    appIdFrom "my app_synth.py".toList none = "my app".toList ∧
    prepare (oneSynth "my app_synth.py".toList) ["my app_synth.py".toList] none = .ok (onePlan "my app".toList) ∧
    (cmdApply ["my app_synth.py".toList] none false (oneSynth "my app_synth.py".toList)).2 = .ok () ∧
    fs'.lines Dsl.Model.runnerFile = ["    # xmix:anchor runner_postload".toList,
      "    # xmix:begin my app runner_postload".toList,
      "    # xmix:footprint my app res mlp.post 3,5".toList, "    x = 1".toList,
        "    # xmix:end my app runner_postload".toList] ∧
    (cmdRevert ["my app_synth.py".toList] none fs').1.lines Dsl.Model.runnerFile = fs'.lines Dsl.Model.runnerFile ∧
    scanApplied fs' = .error .valueError ∧
    ¬ (onePlan "my app".toList).RoundTrips "my app".toList := by
  simp only [← and_assoc]
  refine ⟨by decide +kernel, ?_⟩
  intro hround
  have ha := appId_of_tagged (hround.begins _ (mem_singleton.2 rfl) rfl [] indent_nil).tagged
  exact absurd (ha.2 ' ' (by decide)) (by decide)

end Xmix.Apply
