import Xmix.Apply.AllOrNothing

/-!
# Refreshing and reverting an app

Which regions an app has in the anchor files after its synth file is applied again or reverted by
path. The files visited are those the synth file names now. The states are those a run of commands
reaches from files without regions, while the synth files are edited in between.
-/

namespace Xmix.Apply

open List
open PyStr LinePattern Dsl

variable {F : Str} {fs : Fs} {plan : Plan}

def taggedGo (app : Str) : Option (List Str) → List Str → List (List Str)
  | cur, [] => cur.toList
  | none, l :: lines =>
    if isBegin l && tagged (some [app]) l then taggedGo app (some [l]) lines else taggedGo app none lines
  | some r, l :: lines =>
    if isEnd l then (r ++ [l]) :: taggedGo app none lines else taggedGo app (some (r ++ [l])) lines

def regionsTagged (lines : List Str) (app : Str) : List (List Str) := taggedGo app none lines

section Tagged
variable {Anchor : Str → Prop} (app : Str)

theorem taggedGo_inside {body : List Str} (h : ∀ l ∈ body, isEnd l = false) (r ls : List Str) :
    taggedGo app (some r) (body ++ ls) = taggedGo app (some (r ++ body)) ls := by
  induction body generalizing r with
  | nil => simp
  | cons l body ih =>
    rw [cons_append, taggedGo, if_neg (by simp [h l (by simp)]), ih fun l hl => h l (by simp [hl])]
    simp

theorem taggedGo_outside {body : List Str} (h : ∀ l ∈ body, isBegin l = false) (ls : List Str) :
    taggedGo app none (body ++ ls) = taggedGo app none ls := by
  induction body with
  | nil => rfl
  | cons l body ih =>
    rw [cons_append, taggedGo, if_neg (by simp [h l (by simp)]), ih fun l hl => h l (by simp [hl])]

theorem taggedGo_region (r : Region Anchor) (ls : List Str) :
    taggedGo app none (r.lines ++ ls) = (if r.app = app then [r.lines] else []) ++ taggedGo app none ls := by
  have hlist : r.lines ++ ls = beginLine r.indent r.app r.anchor ::
      (r.code.map (reindent r.indent) ++ ([endLine r.indent r.app r.anchor] ++ ls)) := by simp [Region.lines, block]
  rw [hlist, taggedGo, r.isBegin_begin, r.tagged_begin]
  by_cases h : r.app = app
  · have hin : (true && strips (some [app]) r.app) = true := by simp [strips, h]
    have hclose : ∀ u, taggedGo app (some u) (endLine r.indent r.app r.anchor :: ls) =
        (u ++ [endLine r.indent r.app r.anchor]) :: taggedGo app none ls :=
          fun u => by rw [taggedGo, if_pos r.isEnd_end]
    rw [if_pos hin, if_pos h, taggedGo_inside app fun l hl => (r.plain_body l hl).2, singleton_append,
      singleton_append, hclose]
    simp [Region.lines, block]
  · have hin : ¬ (true && strips (some [app]) r.app) = true := by simp [strips, h]
    rw [if_neg hin, if_neg h, taggedGo_outside app fun l hl => (r.plain_body l hl).1,
      taggedGo_outside app (by simpa using isBegin_of_isEnd r.isEnd_end), nil_append]

theorem regionsTagged_render (segs : List (Seg Anchor)) :
    regionsTagged (render segs) app = ((regionsOf segs).filter (·.app = app)).map Region.lines := by
  unfold regionsTagged
  induction segs with
  | nil => rfl
  | cons s segs ih =>
    cases s with
    | line l hl => rw [render_cons, Seg.lines, taggedGo_outside app (by simpa using hl.1), ih, regionsOf_line]
    | region r =>
      rw [render_cons, Seg.lines, taggedGo_region, ih, regionsOf_region, filter_cons]
      by_cases h : r.app = app <;> simp [h]

end Tagged

/-! ### One anchor file -/

def AnyAnchor : Str → Prop := fun _ => True

structure Patched (orig lines : List Str) : Prop where
  overlaid : Overlaid AnyAnchor orig lines
  nonempty : lines ≠ [] → orig ≠ []

variable (model : Model) {orig : List Str}

theorem Patched.start (h : ∀ l ∈ orig, Plain l) : Patched orig orig := by
  obtain ⟨segs, hr, ho⟩ : ∃ segs : List (Seg AnyAnchor), render segs = _ ∧ ownLines segs = _ := exists_segs_of_plain h
  exact ⟨⟨segs, hr.symm, ho⟩, id⟩

section File
variable {orig lines : List Str} (h : Patched orig lines)
include h

section

variable (appIds : Option (List Str))

theorem Patched.stripped : Patched orig (stripAppRegions lines appIds) :=
  ⟨h.overlaid.stripped appIds, fun hne => h.nonempty fun hnil => hne (by rw [hnil]; rfl)⟩

theorem Patched.stripped_ne_nil (hne : lines ≠ []) : stripAppRegions lines appIds ≠ [] := by
  obtain ⟨segs, heq, hown⟩ := h.overlaid.stripped appIds
  rw [heq]
  rintro hnil
  refine h.nonempty hne ?_
  rw [← hown, eq_nil_iff_forall_not_mem]
  intro l hl
  have hmem : l ∈ render segs := Seg.cutting.mem_render hl
  rw [hnil] at hmem
  cases hmem

theorem Patched.strip_strip :
    stripAppRegions (stripAppRegions lines appIds) appIds = stripAppRegions lines appIds := by
  obtain ⟨segs, rfl, -⟩ := h.overlaid
  rw [stripAppRegions_render, stripAppRegions_render, filter_filter]
  simp

theorem Patched.tagged_stripped (app : Str) :
    regionsTagged (stripAppRegions lines appIds) app = if strips appIds app then [] else regionsTagged lines app := by
  obtain ⟨segs, rfl, -⟩ := h.overlaid
  rw [stripAppRegions_render, regionsTagged_render, regionsTagged_render, regionsOf_filter_kept, filter_filter]
  split
  · next hs =>
    rw [map_eq_nil_iff, filter_eq_nil_iff]
    intro r _
    simp only [Bool.and_eq_true, decide_eq_true_eq, Bool.not_eq_true', not_and]
    rintro rfl
    simp [hs]
  · next hs =>
    congr 1
    refine filter_congr fun r _ => ?_
    by_cases hr : r.app = app
    · simp [hr, hs]
    · simp [hr]

end

theorem Patched.anchorLine_eq (a : Str) : anchorLine lines a = anchorLine orig a := by
  obtain ⟨segs, rfl, rfl⟩ := h.overlaid
  exact anchorLine_render segs trivial

theorem Patched.anchor_mem {l a : Str} (hl : l ∈ lines) (ha : strip l = anchorComment a) : l ∈ orig := by
  obtain ⟨segs, rfl, rfl⟩ := h.overlaid
  exact Seg.cutting.mem_ownLines (fun s _ => s.strip_ne_anchor trivial) hl ha

theorem Patched.applied {appIds : List Str} {blocks : List Block} (hok : ∀ b ∈ blocks, b.Ok AnyAnchor)
    (ha : ∀ b ∈ blocks, ∃ l ∈ lines, strip l = anchorComment b.anchor) :
    ∃ lines', applyBatch appIds blocks lines = .ok lines' ∧ Patched orig lines' ∧
      (∀ app ∈ appIds, (regionsTagged lines' app).Perm ((blocks.filter (·.app = app)).map fun b => b.spliced lines)) ∧
      ∀ app ∉ appIds, (∀ b ∈ blocks, b.app ≠ app) → (regionsTagged lines' app).Perm (regionsTagged lines app) := by
  have hmem : ∀ b ∈ blocks, ∃ l ∈ orig, strip l = anchorComment b.anchor := fun b hb => by
    obtain ⟨l, hl, hstrip⟩ := ha b hb
    exact ⟨l, h.anchor_mem hl hstrip, hstrip⟩
  obtain ⟨segs, rfl, rfl⟩ := h.overlaid
  have hown := ownLines_filter_kept segs (some appIds)
  obtain ⟨segs', hrun, hown', hperm⟩ := @stack_render _ (segs.filter (Seg.kept (some appIds))) _ hok (by rwa [hown])
  rw [hown] at hown' hperm
  have hspliced : ∀ b : Block, b.spliced (ownLines segs) = b.spliced (render segs) := fun b => by
    rw [Block.spliced, Block.spliced, h.anchorLine_eq]
  have htagged : ∀ app, (regionsTagged (render segs') app).Perm
    ((blocks.filter (·.app = app)).map (fun b => b.spliced (render segs)) ++
      regionsTagged (render (segs.filter (Seg.kept (some appIds)))) app) := by
    intro app
    have hfilter := (hperm.filter fun p => p.1 = app).map Prod.snd
    simp only [filter_append, map_append, filter_map, map_map, Function.comp_def, hspliced] at hfilter
    rw [regionsTagged_render, regionsTagged_render]
    exact hfilter
  refine ⟨render segs', by rw [applyBatch, stripAppRegions_render]; exact hrun,
    ⟨⟨segs', rfl, hown'⟩, ?_⟩, fun app happ => ?_,
    fun app happ hne => ?_⟩
  · intro hne hnil
    cases blocks with
    | nil =>
      rw [← Except.ok.inj hrun, ← stripAppRegions_render] at hne
      exact h.nonempty (fun hlines => hne (by rw [hlines]; rfl)) hnil
    | cons b blocks =>
      obtain ⟨l, hl, -⟩ := hmem b (by simp)
      rw [hnil] at hl
      cases hl
  · have hnone := h.tagged_stripped (some appIds) app
    rw [stripAppRegions_render, if_pos (by simp [strips, happ])] at hnone
    simpa [hnone] using htagged app
  · have hsame := h.tagged_stripped (some appIds) app
    rw [stripAppRegions_render, if_neg (by simp [strips, happ])] at hsame
    have hnone : blocks.filter (·.app = app) = [] := filter_eq_nil_iff.2 (by simpa using hne)
    simpa [hnone, hsame] using htagged app

end File

/-! ### Runs of commands -/

/-- No two of the known files are one. -/
def Fs.AnchorsApart (fs : Fs) : Prop :=
  ∀ F ∈ allAnchorFiles, ∀ F' ∈ allAnchorFiles, ∀ i, fs.inode F = some i → fs.inode F' = some i → F = F'

/-- No code line is a tag or an anchor, and the targets are the known files. -/
structure Plan.Clean (plan : Plan) : Prop where
  app : ∀ app ∈ plan.apps, AppId app
  target : ∀ it ∈ plan.items, it.1 ∈ allAnchorFiles
  code : ∀ it ∈ plan.items, ∀ cl ∈ it.2.code, Plain cl ∧ ∀ a, strip cl ≠ anchorComment a

inductive Reached (Ok : Fs → List Str → Option Str → Prop) (fs₀ : Fs) : Fs → Prop
  | start : Reached Ok fs₀ fs₀
  | edit {fs fs' : Fs} : Reached Ok fs₀ fs → (∀ F ∈ allAnchorFiles, fs'.lines F = fs.lines F) → Reached Ok fs₀ fs'
  | apply {fs : Fs} (paths : List Str) (override : Option Str) : Reached Ok fs₀ fs → Ok fs paths override →
      Reached Ok fs₀ (cmdApply paths override false fs).1
  | revert {fs : Fs} (paths : List Str) (override : Option Str) : Reached Ok fs₀ fs →
    Reached Ok fs₀ (cmdRevert paths override fs).1

def CleanApply (fs : Fs) (paths : List Str) (override : Option Str) : Prop :=
  fs.AnchorsApart ∧ ∀ plan, readPlan fs paths override = .ok plan → plan.Clean

theorem anchors_of_passOne {groups : List (Str × List Block)} (h : passOne fs groups = .ok ()) {g : Str × List Block}
    (hg : g ∈ groups) {b : Block} (hb : b ∈ g.2) : ∃ l ∈ fs.lines g.1, strip l = anchorComment b.anchor := by
  obtain ⟨i, hi⟩ := inode_of_passOne h hg
  have hnil : groups.flatMap (missingIn fs) = [] := by
    unfold passOne at h
    split at h
    · assumption
    · cases h
  have hmissing := flatMap_eq_nil_iff.1 hnil g hg
  rw [missingIn, hi] at hmissing
  have hall := filter_eq_nil_iff.1 (map_eq_nil_iff.1 hmissing) b.anchor
    (mem_eraseDups.2 (mem_map_of_mem hb))
  cases hf : findAnchor (fs.lines g.1) b.anchor with
  | none => exact absurd (by rw [hf]; rfl) hall
  | some k =>
    obtain ⟨hk, hp, -⟩ := findIdx?_eq_some_iff_getElem.1 hf
    exact ⟨_, getElem_mem hk, by simpa using hp⟩

theorem isBegin_appliedLine (app : Str) (fp : Footprint) : isBegin (appliedLine app fp) = false := by
  obtain ⟨s, hs⟩ := strip_appliedLine app fp
  rw [isBegin, hs]; rfl

theorem Plan.Clean.ok (h : plan.Clean) (hread : plan.Read) {file : Str} {b : Block} (hit : (file, b) ∈ plan.items) :
    (plan.persisted b).Ok AnyAnchor := by
  have hcode : ∀ cl ∈ (plan.persisted b).code, Plain cl ∧ ∀ a, strip cl ≠ anchorComment a := by
    intro cl hcl
    rcases Plan.mem_persisted hcl with hcl | ⟨_, -, fp, -, rfl⟩
    · exact h.code _ hit cl hcl
    · exact ⟨⟨isBegin_appliedLine _ fp, isEnd_appliedLine _ fp⟩, strip_appliedLine_ne _ fp⟩
  exact ⟨by simpa using h.app _ (hread.app _ hit), trivial, fun cl hcl => (hcode cl hcl).1,
    fun cl hcl a _ => (hcode cl hcl).2 a⟩

theorem oneLine_of_appId {app : Str} (h : AppId app) : OneLine app := oneLine_of_word h

def Plan.targets (plan : Plan) : List Str := plan.items.map Prod.fst

theorem mem_byFile_of_target (h : F ∈ plan.targets) : (F, blocksFor plan.items F) ∈ byFile plan.items :=
  mem_map.2 ⟨F, mem_eraseDups.2 h, rfl⟩

theorem target_of_mem_byFile {g : Str × List Block} (h : g ∈ byFile plan.items) :
    g.1 ∈ plan.targets ∧ g.2 = blocksFor plan.items g.1 := by
  obtain ⟨F, hF, rfl⟩ := mem_map.1 h
  exact ⟨mem_eraseDups.1 hF, rfl⟩

theorem Fs.lines_congr {fs' : Fs} (hinode : fs'.inode F = fs.inode F)
    (htext : ∀ i, fs.inode F = some i → fs'.text i = fs.text i) : fs'.lines F = fs.lines F := by
  unfold Fs.lines
  rw [hinode]
  cases hi : fs.inode F with
  | none => rfl
  | some i => simp [htext i hi]

structure Applied (plan : Plan) (orig : Str → List Str) (fs fs' : Fs) : Prop where
  patched : ∀ F ∈ allAnchorFiles, Patched (orig F) (fs'.lines F)
  other : ∀ F ∈ allAnchorFiles, F ∉ plan.targets → fs'.lines F = fs.lines F
  own : ∀ F ∈ plan.targets, ∀ app ∈ plan.apps, (regionsTagged (fs'.lines F) app).Perm
    (((blocksFor plan.items F).filter (·.app = app)).map fun b => (plan.persisted b).spliced (fs.lines F))
  rest : ∀ F ∈ plan.targets, ∀ app ∉ plan.apps, (regionsTagged (fs'.lines F) app).Perm (regionsTagged (fs.lines F) app)

theorem applied_of_clean {orig : Str → List Str} {paths : List Str} {override : Option Str}
    (hp : ∀ F ∈ allAnchorFiles, Patched (orig F) (fs.lines F)) (hprep : prepare fs paths override = .ok plan)
    (hapart : fs.AnchorsApart) (hclean : plan.Clean) :
    (cmdApply paths override false fs).2 = .ok () ∧ Applied plan orig fs (cmdApply paths override false fs).1 := by
  obtain ⟨hread, -, hpass⟩ := prepare_eq_ok.1 hprep
  replace hread := read_readPlan hread
  have htarget : ∀ F ∈ plan.targets, F ∈ allAnchorFiles := fun F hF => by
    obtain ⟨it, hit, rfl⟩ := mem_map.1 hF
    exact hclean.target it hit
  have hnew : ∀ F ∈ plan.targets, ∃ lines', plan.newLines fs (F, blocksFor plan.items F) = .ok lines' ∧
    Patched (orig F) lines' ∧
      (∀ app ∈ plan.apps, (regionsTagged lines' app).Perm
        ((((blocksFor plan.items F).map plan.persisted).filter (·.app = app)).map fun b => b.spliced (fs.lines F))) ∧
      ∀ app ∉ plan.apps, (∀ b ∈ (blocksFor plan.items F).map plan.persisted, b.app ≠ app) →
        (regionsTagged lines' app).Perm (regionsTagged (fs.lines F) app) := by
    intro F hF
    refine (hp F (htarget F hF)).applied (fun b' hb' => ?_) fun b' hb' => ?_
    · obtain ⟨b, hb, rfl⟩ := mem_map.1 hb'
      exact hclean.ok hread (mem_blocksFor.1 hb)
    · obtain ⟨b, hb, rfl⟩ := mem_map.1 hb'
      simpa using anchors_of_passOne hpass (mem_byFile_of_target hF) hb
  have hok := ok_of_located hprep fun g hg => by
    obtain ⟨htg, hblocks⟩ := target_of_mem_byFile hg
    obtain ⟨lines', hl, -⟩ := hnew g.1 htg
    rw [← hblocks] at hl
    exact Plan.newLines_ok_iff.1 ⟨lines', hl⟩
  have hlines : ∀ F ∈ plan.targets, plan.newLines fs (F, blocksFor plan.items F) =
    .ok ((cmdApply paths override false fs).1.lines F) := by
    intro F hF
    refine lines_cmdApply hprep hok (fun app happ => oneLine_of_appId (hclean.app app happ))
      (mem_byFile_of_target hF) ?_
    intro g' hg' heq
    obtain ⟨i, hi⟩ := inode_of_passOne hpass hg'
    exact hapart F (htarget F hF) g'.1 (htarget _ (target_of_mem_byFile hg').1) i (heq.trans hi) hi
  have hother : ∀ F ∈ allAnchorFiles, F ∉ plan.targets → (cmdApply paths override false fs).1.lines F = fs.lines F := by
    intro F hF hnot
    rw [(cmdApply_eq_writes hprep hok).1]
    refine Fs.lines_congr (by simp) fun i hi => Plan.writes_text_of_ne fun g hg hgi => hnot ?_
    have htg := (target_of_mem_byFile hg).1
    rwa [hapart F hF g.1 (htarget _ htg) i hi hgi]
  refine ⟨hok, fun F hF => ?_, hother, fun F hF app happ => ?_, fun F hF app happ => ?_⟩
  · by_cases hFt : F ∈ plan.targets
    · obtain ⟨lines', hl, hpatched, -⟩ := hnew F hFt
      rwa [← Except.ok.inj (hl.symm.trans (hlines F hFt))]
    · rw [hother F hF hFt]
      exact hp F hF
  · obtain ⟨lines', hl, -, hperm, -⟩ := hnew F hF
    rw [← Except.ok.inj (hl.symm.trans (hlines F hF))]
    have := hperm app happ
    simpa [filter_map, Function.comp_def] using this
  · obtain ⟨lines', hl, -, -, hperm⟩ := hnew F hF
    rw [← Except.ok.inj (hl.symm.trans (hlines F hF))]
    refine hperm app happ fun b' hb' => ?_
    obtain ⟨b, hb, rfl⟩ := mem_map.1 hb'
    rw [Plan.persisted_app]
    rintro rfl
    exact happ (hread.app _ (mem_blocksFor.1 hb))

/-! ### Reverting -/

@[simp] theorem revertFile_inode (appIds : Option (List Str)) (fs : Fs) (file : Str) :
    (revertFile appIds fs file).inode = fs.inode := by
  simp only [revertFile]
  split
  · rfl
  · simp

section
variable (hp : Patched orig (fs.lines F))
include hp

theorem lines_revertFile (appIds : Option (List Str)) (file : Str) :
    (revertFile appIds fs file).lines F =
      if fs.inode file = fs.inode F then stripAppRegions (fs.lines F) appIds else fs.lines F := by
  by_cases hsame : fs.inode file = fs.inode F
  · have hlines : fs.lines file = fs.lines F := by rw [Fs.lines, Fs.lines, hsame]
    rw [if_pos hsame, revertFile, hlines]
    by_cases hs : stripAppRegions (fs.lines F) appIds = fs.lines F
    · rw [if_pos hs, hs]
    · rw [if_neg hs]
      cases hi : fs.inode F with
      | none => exact absurd (by rw [Fs.lines, hi]; rfl) hs
      | some i =>
        have hne : fs.lines F ≠ [] := fun h => hs (by rw [h]; rfl)
        exact lines_of_text (by simpa using hi)
          (by rw [Fs.writeText_text _ (hsame.trans hi), if_pos rfl]) (hp.stripped_ne_nil appIds hne)
          fun l hl => oneLine_lines fs F l (stripGo_subset _ _ _ hl)
  · rw [if_neg hsame, revertFile]
    split
    · rfl
    · exact Fs.lines_congr (by simp) fun i hi => Fs.writeText_text_of_ne _ fun h => hsame (h.trans hi.symm)

theorem lines_revertFiles (appIds : Option (List Str))
    (files : List Str) : (files.foldl (revertFile appIds) fs).lines F =
      if ∃ file ∈ files, fs.inode file = fs.inode F then stripAppRegions (fs.lines F) appIds else fs.lines F := by
  induction files generalizing fs with
  | nil => simp
  | cons file files ih =>
    have hstep := lines_revertFile hp appIds file
    have hp' : Patched orig ((revertFile appIds fs file).lines F) := by
      rw [hstep]
      split
      · exact hp.stripped appIds
      · exact hp
    rw [foldl_cons, ih hp', hstep, revertFile_inode]
    by_cases hf : fs.inode file = fs.inode F
    · simp [hf, hp.strip_strip]
    · simp [hf]

theorem Patched.reverted (paths : List Str) (override : Option Str) :
    Patched orig ((cmdRevert paths override fs).1.lines F) := by
  unfold cmdRevert
  split
  · exact hp
  · rw [lines_revertFiles hp]
    split
    · exact hp.stripped _
    · exact hp

end

theorem Reached.patched {fs₀ : Fs} (hstart : ∀ F ∈ allAnchorFiles, ∀ l ∈ fs₀.lines F, Plain l)
    (h : Reached CleanApply fs₀ fs) :
    ∀ F ∈ allAnchorFiles, Patched (fs₀.lines F) (fs.lines F) := by
  induction h with
  | start => exact fun F hF => .start (hstart F hF)
  | edit _ hsame ih =>
    intro F hF
    rw [hsame F hF]
    exact ih F hF
  | @apply fs paths override _ hok ih =>
    cases hprep : prepare fs paths override with
    | error e =>
      simp only [cmdApply, hprep]
      exact ih
    | ok plan => exact (applied_of_clean ih hprep hok.1 (hok.2 plan (prepare_eq_ok.1 hprep).1)).2.patched
  | revert paths override _ ih => exact fun F hF => (ih F hF).reverted paths override

/-! ### Nothing stale -/

/-- The regions of each app are the blocks of the plan, and no others. -/
def Plan.Refreshed (plan : Plan) (fs fs' : Fs) : Prop :=
  ∀ app ∈ plan.apps, ∀ F ∈ allAnchorFiles, (regionsTagged (fs'.lines F) app).Perm
    (((blocksFor plan.items F).filter (·.app = app)).map fun b => (plan.persisted b).spliced (fs.lines F))

/-- In a state reached by clean commands, a successful apply of a clean batch leaves its apps with
exactly their new blocks iff they had no region in an anchor file the batch does not name now; and a
revert by path leaves no region of the apps iff they had none in an anchor file their synth files do
not name now. -/
theorem refresh_iff {fs₀ fs : Fs} (hstart : ∀ F ∈ allAnchorFiles, ∀ l ∈ fs₀.lines F, Plain l)
    (hreach : Reached CleanApply fs₀ fs) (hapart : fs.AnchorsApart)
    (paths : List Str) (override : Option Str) :
    (∀ plan, prepare fs paths override = .ok plan → plan.Clean →
      (plan.Refreshed fs (cmdApply paths override false fs).1 ↔
        ∀ app ∈ plan.apps, ∀ F ∈ allAnchorFiles, F ∉ plan.targets → regionsTagged (fs.lines F) app = [])) ∧
    ∀ appIds files, revertScope fs paths override = .ok (some appIds, files) → (∀ F ∈ files, F ∈ allAnchorFiles) →
      ((∀ app ∈ appIds, ∀ F ∈ allAnchorFiles, regionsTagged ((cmdRevert paths override fs).1.lines F) app = []) ↔
        ∀ app ∈ appIds, ∀ F ∈ allAnchorFiles, F ∉ files → regionsTagged (fs.lines F) app = []) := by
  have hp := hreach.patched hstart
  constructor
  · intro plan hprep hclean
    obtain ⟨-, happ⟩ := applied_of_clean hp hprep hapart hclean
    have hnone : ∀ F, F ∉ plan.targets → blocksFor plan.items F = [] := by
      intro F hF
      rw [eq_nil_iff_forall_not_mem]
      exact fun b hb => hF (mem_map_of_mem (mem_blocksFor.1 hb))
    constructor
    · intro h app ha F hF hnot
      have := h app ha F hF
      rw [hnone F hnot, happ.other F hF hnot] at this
      exact perm_nil.1 this
    · intro h app ha F hF
      by_cases hFt : F ∈ plan.targets
      · exact happ.own F hFt app ha
      · rw [happ.other F hF hFt, h app ha F hF hFt, hnone F hFt]
        exact .refl _
  · intro appIds files hscope hfiles
    have hlines : ∀ F ∈ allAnchorFiles, (cmdRevert paths override fs).1.lines F =
        if F ∈ files then stripAppRegions (fs.lines F) (some appIds) else fs.lines F := by
      intro F hF
      simp only [cmdRevert, hscope]
      rw [lines_revertFiles (hp F hF)]
      cases hi : fs.inode F with
      | none =>
        have hnil : fs.lines F = [] := by rw [Fs.lines, hi]
        simp [hnil, stripAppRegions, stripGo]
      | some i =>
        have hiff : (∃ file ∈ files, fs.inode file = some i) ↔ F ∈ files := by
          constructor
          · rintro ⟨file, hfile, hfi⟩
            rwa [hapart F hF file (hfiles file hfile) i hi hfi]
          · exact fun hFf => ⟨F, hFf, hi⟩
        simp [hiff]
    constructor
    · intro h app ha F hF hnot
      have := h app ha F hF
      rwa [hlines F hF, if_neg hnot] at this
    · intro h app ha F hF
      rw [hlines F hF]
      split
      · rw [(hp F hF).tagged_stripped, if_pos (by simp [strips, ha])]
      · next hnot => exact h app ha F hF hnot

def twoModels (code : String) : Fs where
  inode path :=
    if path = "s_synth.py".toList then some 0 else if path = Model.llama.modelFile then some 1
    else if path = Model.qwen.modelFile then some 2 else none
  text i :=
    if i = 0 then
      "# >>> XMIX-APPLY file=".toList ++ model.modelFile ++ " anchor=model_construct <<<\n".toList ++
        code.toList ++ ['\n']
    else "# xmix:anchor model_construct\n".toList
  out := []

def modelPlan (code : String) : Plan :=
  ⟨[(model.modelFile, ⟨"model_construct".toList, "s".toList, [code.toList]⟩)], ["s".toList], [("s".toList, [])]⟩

theorem modelPlan_clean {code : String} (hplain : Plain code.toList) (hhead : (strip code.toList).head? ≠ some '#') :
    (modelPlan model code).Clean := by
  have hcode : ∀ a, strip code.toList ≠ anchorComment a := fun a h => by
    rw [h] at hhead
    exact hhead rfl
  refine ⟨by simp only [modelPlan, AppId]; decide, ?_, ?_⟩
  · have : ∀ m : Model, m.modelFile ∈ allAnchorFiles := by
      intro m; cases m <;> decide +kernel
    simpa [modelPlan] using this model
  · simpa [modelPlan] using ⟨hplain, hcode⟩

theorem twoModels_apart (h : fs.inode = (twoModels model "").inode) : fs.AnchorsApart := by
  have hdec : ∀ F ∈ allAnchorFiles, ∀ F' ∈ allAnchorFiles,
    (twoModels .llama "").inode F = (twoModels .llama "").inode F' →
      ((twoModels .llama "").inode F).isSome → F = F' := by decide +kernel
  intro F hF F' hF' i hi hi'
  rw [h] at hi hi'
  exact hdec F hF F' hF' (hi.trans hi'.symm) (by rw [show (twoModels .llama "").inode F = some i from hi]; rfl)

/-- `s` was applied to llama with `x = 0`, and its file has been compiled again since. -/
def appliedModels : Fs where
  inode := (twoModels model "x = 1").inode
  text i :=
    if i = 1 then
      "# xmix:anchor model_construct\n# xmix:begin s model_construct\nx = 0\n# xmix:end s model_construct\n".toList
    else (twoModels model "x = 1").text i
  out := []

theorem twoModels_plain : ∀ F ∈ allAnchorFiles, ∀ l ∈ (twoModels .llama "x = 0").lines F, Plain l := by
  simp only [Plain]; decide +kernel

theorem appliedModels_reached : Reached CleanApply (twoModels .llama "x = 0") (appliedModels model) := by
  have hclean : CleanApply (twoModels .llama "x = 0") ["s_synth.py".toList] none := by
    refine ⟨twoModels_apart .llama rfl, fun plan hplan => ?_⟩
    have hread : readPlan (twoModels .llama "x = 0") ["s_synth.py".toList] none = .ok (modelPlan .llama "x = 0") := by
      decide +kernel
    rw [← Except.ok.inj (hread.symm.trans hplan)]
    exact modelPlan_clean .llama (by simp only [Plain]; decide) (by decide)
  exact .edit (.apply ["s_synth.py".toList] none .start hclean) (by cases model <;> decide +kernel)

theorem twoModels_refreshed : (modelPlan .llama "x = 1").Refreshed (appliedModels .llama)
    (cmdApply ["s_synth.py".toList] none false (appliedModels .llama)).1 := by
  have hiff :=
    (refresh_iff twoModels_plain (appliedModels_reached .llama) (twoModels_apart .llama rfl)
    ["s_synth.py".toList] none).1
    (modelPlan .llama "x = 1") (by decide +kernel) (modelPlan_clean .llama (by simp only [Plain]; decide) (by decide))
  exact hiff.2 (by decide +kernel)

/-- Neither applying nor reverting `s` reaches its old region. -/
theorem staleModels_not_refreshed : Reached CleanApply (twoModels .llama "x = 0") (appliedModels .qwen) ∧
    (appliedModels .qwen).AnchorsApart ∧
    prepare (appliedModels .qwen) ["s_synth.py".toList] none = .ok (modelPlan .qwen "x = 1") ∧
    (cmdApply ["s_synth.py".toList] none false (appliedModels .qwen)).2 = .ok () ∧
    ¬ (modelPlan .qwen "x = 1").Refreshed (appliedModels .qwen)
      (cmdApply ["s_synth.py".toList] none false (appliedModels .qwen)).1 ∧
    regionsTagged ((cmdRevert ["s_synth.py".toList] none (appliedModels .qwen)).1.lines Model.llama.modelFile)
      "s".toList ≠ [] := by
  have hreach := appliedModels_reached .qwen
  have hclean : (modelPlan .qwen "x = 1").Clean := modelPlan_clean .qwen (by simp only [Plain]; decide) (by decide)
  have hprep : prepare (appliedModels .qwen) ["s_synth.py".toList] none =
    .ok (modelPlan .qwen "x = 1") := by decide +kernel
  have hstale : regionsTagged ((appliedModels .qwen).lines Model.llama.modelFile) "s".toList ≠ [] := by decide +kernel
  have hllama : Model.llama.modelFile ∈ allAnchorFiles := by decide +kernel
  obtain ⟨hok, happlied⟩ := applied_of_clean (hreach.patched twoModels_plain) hprep (twoModels_apart .qwen rfl) hclean
  refine ⟨hreach, twoModels_apart .qwen rfl, hprep, hok, fun h => ?_, by decide +kernel⟩
  have hperm := h "s".toList (by decide) Model.llama.modelFile hllama
  have hnil : blocksFor (modelPlan .qwen "x = 1").items Model.llama.modelFile = [] := by decide +kernel
  rw [happlied.other _ hllama (by decide +kernel), hnil] at hperm
  exact hstale (perm_nil.1 hperm)

end Xmix.Apply
