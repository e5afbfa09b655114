import Mathlib.Data.List.Flatten
import Xmix.Apply.Footprints

/-!
# Slot exclusivity

Hooks are set by the postload regions of the runner file, which every model shares. The regions in
the file are those of a list of owners: apps with the files they were compiled from. A run of applies
and reverts of synthesized files keeps the slots of the owners apart, since what the conflict check
scans is what the regions persist.
-/

namespace Xmix.Apply

open Xmix.Except Function List Option
open PyStr LinePattern Dsl

abbrev Owner := Str × ParseResult

variable (r : ParseResult)

def Owner.slots (a : Owner) : List (Flag × Submodule × LayerSpec) := a.2.statements.flatMap Dsl.slots

def installText : List Str := (emission r).install.flatMap partText

def Owner.postBlock (a : Owner) : Block :=
  ⟨postloadStr, a.1, (a.slots.map fun s => appliedLine a.1 (slotFootprint s)) ++ trimBlank (installText a.2)⟩

variable (owners : List Owner)

def planOf : Plan where
  items := owners.flatMap fun e => (emittedBlocks (emission e.2)).map fun b => (b.file, ⟨b.anchor, e.1, b.code⟩)
  apps := owners.map Prod.fst
  fps := owners.map fun e => (e.1, e.slots.map slotFootprint)

/-! ### The blocks of a synth file -/

theorem mem_regionsGo_of {parts : List Part} {k : Place}
    {code : List Str} {r : Place × List Str} (h : r ∈ regionsGo k code parts) :
    r.1 ∈ k :: parts.map (·.dest.key) ∧ r.2 ⊆ code ++ parts.flatMap partText := by
  induction parts generalizing k code with
  | nil =>
    obtain rfl : r = (k, code) := by simpa [regionsGo] using h
    simp
  | cons p parts ih =>
    rw [regionsGo] at h
    rw [map_cons, flatMap_cons, ← append_assoc]
    split at h
    · obtain ⟨hk, hl⟩ := ih h
      exact ⟨cons_subset_cons k (subset_cons_self _ _) hk, hl⟩
    · rcases mem_cons.1 h with rfl | h
      · exact ⟨mem_cons_self, append_assoc code _ _ ▸ subset_append_left _ _⟩
      · obtain ⟨hk, hl⟩ := ih h
        exact ⟨mem_cons_of_mem k hk, append_assoc code _ _ ▸ subset_append_of_subset_right code hl⟩

theorem mem_regions {parts : List Part} {r : Place × List Str} (h : r ∈ regions parts) :
    r.1 ∈ parts.map (·.dest.key) ∧ r.2 ⊆ parts.flatMap partText := by
  cases parts with
  | nil => simp [regions] at h
  | cons p parts => exact mem_regionsGo_of h

theorem regionsGo_same {parts : List Part} {k : Place} (h : ∀ p ∈ parts, p.dest.key = k) (code : List Str) :
    regionsGo k code parts = [(k, code ++ parts.flatMap partText)] := by
  induction parts generalizing code with
  | nil => simp [regionsGo]
  | cons p parts ih =>
    rw [regionsGo, if_pos (h p (by simp)), ih fun p hp => h p (by simp [hp])]
    simp

theorem trimmed_eq_some {b b' : SynthBlock} (h : b.trimmed = some b') :
    b'.file = b.file ∧ b'.anchor = b.anchor ∧ b'.code = trimBlank b.code := by
  unfold SynthBlock.trimmed at h
  split at h
  · cases h
  · next heq =>
    cases h
    exact ⟨rfl, rfl, rfl⟩

theorem mem_emitted {r : ParseResult} {b : SynthBlock} (h : b ∈ emittedBlocks (emission r)) :
    b.file ∈ allAnchorFiles ∧ (∃ a : Dsl.Anchor, b.anchor = a.name) ∧
      ∀ l ∈ b.code, ∃ p ∈ (emission r).setup ++ (emission r).install, l ∈ partText p := by
  have hfiles : ∀ (m : Model) (a : Anchor), m.anchorFile a ∈ allAnchorFiles := by
    intro m a
    refine mem_sortedSet.2 (mem_flatMap.2 ⟨m, ?_, ?_⟩)
    · cases m <;> decide
    · cases a <;> simp
  have hdest : ∀ p ∈ (emission r).setup ++ (emission r).install, p.dest.file ∈ allAnchorFiles := by
    intro p hp
    rcases mem_append.1 hp with hp | hp
    · rcases setup_dest hp with hd | ⟨cls, hd⟩ | ⟨cls, hd⟩ <;> rw [hd]
      · exact hfiles r.model .runnerSetup
      · exact hfiles r.model cls.spec.destAnchor
      · exact hfiles r.model cls.spec.runAnchor
    · obtain ⟨i, stmt, -, rfl⟩ := mem_install hp
      exact hfiles r.model .runnerPostload
  obtain ⟨reg, hreg, htrim⟩ := mem_filterMap.1 h
  obtain ⟨hfile, hanchor, hcode⟩ := trimmed_eq_some htrim
  have hparts : reg.1 ∈ ((emission r).setup ++ (emission r).install).map (·.dest.key) ∧
      reg.2 ⊆ ((emission r).setup ++ (emission r).install).flatMap partText := by
    rw [map_append, flatMap_append]
    rcases mem_append.1 hreg with hreg | hreg
    · exact (mem_regions hreg).imp (mem_append_left _) (subset_append_of_subset_left _)
    · exact (mem_regions hreg).imp (mem_append_right _) (subset_append_of_subset_right _)
  obtain ⟨p, hp, hk⟩ := mem_map.1 hparts.1
  refine ⟨?_, ⟨reg.1.2, hanchor⟩, fun l hlb => mem_flatMap.1 (hparts.2 (trimBlank_subset (hcode ▸ hlb)))⟩
  rw [hfile]
  have := hdest p hp
  rwa [show p.dest.file = reg.1.1 from congrArg Prod.fst hk] at this

theorem anchor_name_injective {a b : Dsl.Anchor} (h : a.name = b.name) : a = b := by
  cases a <;> cases b <;> first | rfl | exact absurd h (by decide)

theorem exists_not_blank (model : Model) (i : Nat) (stmt : Statement) :
    ∃ l ∈ partText (installPart model i stmt), isBlank l = false := by
  let toks : List Tok := [txt "for ", .bind "layer".toList, .txt (" in ".toList ++ innerModel ++ ".layers:".toList)]
  have hone : OneLine (renderLine toks) := by decide +kernel
  have hblank : isBlank (renderLine toks) = false := by decide +kernel
  have hloop : Code.loop (loopBody i stmt) ∈ (installPart model i stmt).code := by simp [installPart]
  have hline : renderLine toks ∈ (Code.loop (loopBody i stmt)).lines := mem_map_of_mem mem_cons_self
  refine ⟨renderLine toks, mem_flatMap.2 ⟨_, mem_flatMap.2 ⟨_, hloop, hline⟩, ?_⟩, hblank⟩
  rw [physical_oneLine hone]
  exact mem_singleton.2 rfl

theorem trimBlank_ne_nil {r : ParseResult} (h : r.statements ≠ []) : trimBlank (installText r) ≠ [] := by
  obtain ⟨stmt, rest, hs⟩ := exists_cons_of_ne_nil h
  obtain ⟨l, hl, hb⟩ := exists_not_blank r.model 0 stmt
  refine ne_nil_of_mem (mem_trimBlank (l := l) (mem_flatMap.2 ⟨installPart r.model 0 stmt, ?_, hl⟩) hb)
  simp [emission, fileEmission, hs]

theorem filter_postload :
    (emittedBlocks (emission r)).filter (fun b => b.anchor = postloadStr) =
      if r.statements = [] then [] else [⟨Model.runnerFile, postloadStr, trimBlank (installText r)⟩] := by
  have hsetup : ((regions (emission r).setup).filterMap fun reg => (regionBlock reg).trimmed).filter
    (fun b => b.anchor = postloadStr) = [] := by
    rw [filter_eq_nil_iff]
    intro b hb
    obtain ⟨reg, hreg, htrim⟩ := mem_filterMap.1 hb
    obtain ⟨p, hp, hk⟩ := mem_map.1 (mem_regions hreg).1
    have hanchor : p.dest.anchor ≠ .runnerPostload := by
      rcases setup_dest hp with hd | ⟨cls, hd⟩ | ⟨cls, hd⟩ <;> rw [hd]
      · exact fun h => by cases h
      · cases cls; exact fun h => by cases h
      · cases cls; exact fun h => by cases h
    have hb : b.anchor = p.dest.anchor.name := by
      rw [(trimmed_eq_some htrim).2.1, regionBlock, ← hk]; rfl
    simp only [hb, decide_eq_true_eq]
    exact fun h => hanchor (anchor_name_injective h)
  have hinstall : regions (emission r).install =
      if r.statements = [] then [] else [((Model.runnerFile, .runnerPostload), installText r)] := by
    have hkey : ∀ p ∈ (emission r).install, p.dest.key = (Model.runnerFile, .runnerPostload) := by
      intro p hp
      obtain ⟨i, stmt, -, rfl⟩ := mem_install hp
      rfl
    unfold installText
    cases hp : (emission r).install with
    | nil =>
      have hnil : r.statements = [] := by simpa [emission, fileEmission] using hp
      rw [if_pos hnil]; rfl
    | cons p parts =>
      have hne : r.statements ≠ [] := fun h => by simp [emission, fileEmission, h] at hp
      rw [hp] at hkey
      rw [if_neg hne, regions, hkey p (by simp), regionsGo_same fun q hq => hkey q (by simp [hq])]
      rfl
  rw [emittedBlocks, filterMap_append, filter_append, hsetup, hinstall, nil_append]
  split
  · rfl
  · next hne =>
    have htrim : (regionBlock ((Model.runnerFile, .runnerPostload), installText r)).trimmed =
        some ⟨Model.runnerFile, postloadStr, trimBlank (installText r)⟩ := by
      obtain ⟨l, ls, hls⟩ := exists_cons_of_ne_nil (trimBlank_ne_nil hne)
      simp only [SynthBlock.trimmed, regionBlock, hls]
      rfl
    simp [htrim]

/-! ### The plan of a batch -/

def Owner.installBlock (a : Owner) : Block := ⟨postloadStr, a.1, trimBlank (installText a.2)⟩

def hooking : List Owner := owners.filter fun e => !e.2.statements.isEmpty

theorem filter_blocksFor (app : Str) :
    ((blocksFor (planOf owners).items Model.runnerFile).filter (·.app = app)).filter (·.anchor = postloadStr) =
      ((hooking owners).filter (·.1 = app)).map Owner.installBlock := by
  have hone : ∀ e : Owner,
    (((((emittedBlocks (emission e.2)).map fun b => (b.file, (⟨b.anchor, e.1, b.code⟩ : Block))).filter
      (·.1 == Model.runnerFile)).map Prod.snd).filter (·.app = app)).filter (·.anchor = postloadStr) =
      if e.2.statements = [] ∨ e.1 ≠ app then [] else [e.installBlock] := by
    intro e
    have hpost := filter_postload e.2
    simp only [List.filter_map, List.filter_filter, comp_def, List.map_map] at hpost ⊢
    have hcomm : (emittedBlocks (emission e.2)).filter
      (fun b => decide (b.anchor = postloadStr) && (decide (e.1 = app) && (b.file == Model.runnerFile))) =
        ((emittedBlocks (emission e.2)).filter fun b => decide (b.anchor = postloadStr)).filter
          fun b => decide (e.1 = app) && (b.file == Model.runnerFile) := by
      rw [List.filter_filter]
      exact filter_congr fun b _ => Bool.and_comm _ _
    rw [hcomm, hpost]
    by_cases hs : e.2.statements = []
    · simp [hs]
    · by_cases ha : e.1 = app
      · simp [hs, ha, Owner.installBlock]
      · simp [hs, ha]
  unfold hooking blocksFor planOf
  induction owners with
  | nil => rfl
  | cons e owners ih =>
    simp only [List.flatMap_cons, List.filter_append, List.map_append, ih, hone]
    by_cases hs : e.2.statements = []
    · simp [hs]
    · by_cases ha : e.1 = app <;> simp [hs, ha]

theorem lookup_map_fst {α β γ : Type} [BEq α] [LawfulBEq α]
    {l : List (α × β)} (f : α × β → γ) (hn : (l.map Prod.fst).Nodup) {e : α × β} (he : e ∈ l) :
    (l.map fun e => (e.1, f e)).lookup e.1 = some (f e) := by
  obtain ⟨l₁, l₂, rfl⟩ := append_of_mem he
  refine lookup_eq_some_iff.2 ⟨l₁.map fun e => (e.1, f e), l₂.map fun e => (e.1, f e), by simp, fun p hp => ?_⟩
  obtain ⟨a, ha, rfl⟩ := mem_map.1 hp
  rw [map_append, nodup_append] at hn
  exact bne_iff_ne.2 (hn.2.2 _ (mem_map_of_mem ha) _ (by simp)).symm

theorem persisted_installBlock {owners : List Owner} (hn : (owners.map Prod.fst).Nodup) {e : Owner} (he : e ∈ owners) :
    (planOf owners).persisted e.installBlock = e.postBlock := by
  have hfps : (planOf owners).fpsOf e.1 = e.slots.map slotFootprint := by
    have hlook : (planOf owners).fps.lookup e.1 = some (e.slots.map slotFootprint) :=
      lookup_map_fst (fun e : Owner => e.slots.map slotFootprint) hn he
    rw [Plan.fpsOf, hlook]
    rfl
  rw [Plan.persisted, if_pos (show e.installBlock.anchor = postloadStr from rfl), Owner.postBlock]
  simp [Owner.installBlock, hfps]

/-! ### The files of a run -/

def SynthOf (fs : Fs) (path : Str) (r : ParseResult) : Prop :=
  ∃ sourceName text i, OneLine sourceName ∧ generate r.statements sourceName r.preamble r.model = .ok text ∧
    fs.inode path = some i ∧ fs.text i = text

structure Usable (r : ParseResult) : Prop where
  plain : EmissionPlain (emission r)
  code : ∀ p ∈ (emission r).setup ++ (emission r).install, ∀ l ∈ partText p, Plain l ∧ ∀ a, strip l ≠ anchorComment a

def GeneratedApply (Q : ParseResult → Prop) (fs : Fs) (paths : List Str) (override : Option Str) : Prop :=
  fs.AnchorsApart ∧ ∀ path ∈ paths, AppId (appIdFrom path override) ∧ ∃ r, SynthOf fs path r ∧ Usable r ∧ Q r

section Run
variable {Q : ParseResult → Prop}

variable {fs fs₀ : Fs} {lines orig : List Str} {owners : List Owner}

theorem SynthOf.reads {path : Str} {r : ParseResult} (h : SynthOf fs path r) (hr : Usable r) :
    ∃ text, fs.readText path = .ok text ∧ parseBlocks text = emittedBlocks (emission r) ∧
      parseFootprints text = .ok ((r.statements.flatMap Dsl.slots).map slotFootprint) := by
  obtain ⟨sourceName, out, i, hname, hgen, hi, hout⟩ := h
  obtain ⟨hblocks, hslots⟩ := reads_of_plain hname (generate_eq_ok.1 hgen).2 hr.plain
  refine ⟨universalNewlines out, by rw [Fs.readText, hi, ← hout], ?_, ?_⟩
  · rw [parseBlocks, splitlines_universalNewlines]
    exact hblocks
  · rw [parseFootprints, splitlines_universalNewlines]
    exact hslots

theorem planOf_concat (owners : List Owner) (e : Owner) : planOf (owners ++ [e]) =
    ⟨(planOf owners).items ++ (emittedBlocks (emission e.2)).map fun b => (b.file, ⟨b.anchor, e.1, b.code⟩),
      (planOf owners).apps ++ [e.1], (planOf owners).fps ++
        [(e.1, (e.2.statements.flatMap Dsl.slots).map slotFootprint)]⟩ := by
  simp only [planOf, flatMap_append, map_append, flatMap_cons, flatMap_nil, append_nil, map_cons,
    map_nil]
  rfl

theorem readPlan_generated {paths : List Str} {override : Option Str} {plan : Plan}
    (hgen : GeneratedApply Q fs paths override) (h : readPlan fs paths override = .ok plan) :
    ∃ owners, plan = planOf owners ∧ (owners.map Prod.fst).Nodup ∧ ∀ e ∈ owners, AppId e.1 ∧ Usable e.2 ∧ Q e.2 := by
  refine foldlM_inv
    (fun plan => ∃ owners, plan = planOf owners ∧ (owners.map Prod.fst).Nodup ∧
      ∀ e ∈ owners, AppId e.1 ∧ Usable e.2 ∧ Q e.2)
    (fun plan path plan' hpath hplan hstep => ?_) ⟨[], rfl, by simp, by simp⟩ h
  obtain ⟨owners, rfl, hnodup, hgood⟩ := hplan
  obtain ⟨text, fps, hnew, htext, -, hfps, rfl⟩ := readOne_eq_ok.1 hstep
  obtain ⟨happ, r, hsynth, husable, hq⟩ := hgen.2 path hpath
  obtain ⟨text', htext', hblocks, hslots⟩ := hsynth.reads husable
  cases htext.symm.trans htext'
  cases hfps.symm.trans hslots
  refine ⟨owners ++ [(appIdFrom path override, r)], by rw [planOf_concat, hblocks], ?_, fun e he => ?_⟩
  · rw [map_append, nodup_append]
    refine ⟨hnodup, by simp, fun a ha b hb => ?_⟩
    rw [mem_singleton.1 hb]
    rintro rfl
    exact hnew ha
  · rcases mem_append.1 he with he | he
    · exact hgood e he
    · rw [mem_singleton.1 he]
      exact ⟨happ, husable, hq⟩

theorem readPlan_one {path : Str} {r : ParseResult} (h : SynthOf fs path r) (hr : Usable r) (hs : r.statements ≠ []) :
    readPlan fs [path] none = .ok (planOf [(appIdFrom path none, r)]) := by
  obtain ⟨text, htext, hblocks, hslots⟩ := h.reads hr
  have hne : emittedBlocks (emission r) ≠ [] := by
    intro hnil
    have hpost := filter_postload r
    rw [hnil, if_neg hs] at hpost
    cases hpost
  have hstep : readOne fs none (planOf []) path = .ok (planOf ([] ++ [(appIdFrom path none, r)])) :=
    readOne_eq_ok.2 ⟨text, _, by simp [planOf], htext, by rwa [hblocks], hslots, by rw [planOf_concat, hblocks]⟩
  rw [readPlan, foldlM_cons]
  exact congrArg (· >>= _) hstep

theorem clean_planOf (h : ∀ e ∈ owners, AppId e.1 ∧ Usable e.2 ∧ Q e.2) : (planOf owners).Clean := by
  have hitem : ∀ it ∈ (planOf owners).items, ∃ e ∈ owners, ∃ b ∈ emittedBlocks (emission e.2),
    it = (b.file, ⟨b.anchor, e.1, b.code⟩) := by
    intro it hit
    obtain ⟨e, he, hit⟩ := mem_flatMap.1 hit
    obtain ⟨b, hb, rfl⟩ := mem_map.1 hit
    exact ⟨e, he, b, hb, rfl⟩
  refine ⟨fun app happ => ?_, fun it hit => ?_, fun it hit cl hcl => ?_⟩
  · obtain ⟨e, he, rfl⟩ := mem_map.1 happ
    exact (h e he).1
  · obtain ⟨e, he, b, hb, rfl⟩ := hitem it hit
    exact (mem_emitted hb).1
  · obtain ⟨e, he, b, hb, rfl⟩ := hitem it hit
    obtain ⟨p, hp, hl⟩ := (mem_emitted hb).2.2 cl hcl
    exact (h e he).2.1.code p hp cl hl

theorem cleanApply_of_generated {paths : List Str} {override : Option Str} (h : GeneratedApply Q fs paths override) :
    CleanApply fs paths override := by
  refine ⟨h.1, fun plan hplan => ?_⟩
  obtain ⟨owners, rfl, -, hgood⟩ := readPlan_generated h hplan
  exact clean_planOf hgood

theorem Reached.mono {Ok Ok' : Fs → List Str → Option Str → Prop}
    (himp : ∀ fs paths override, Ok fs paths override → Ok' fs paths override) (h : Reached Ok fs₀ fs) :
    Reached Ok' fs₀ fs := by
  induction h with
  | start => exact .start
  | edit _ hsame ih => exact .edit ih hsame
  | apply paths override _ hok ih => exact .apply paths override ih (himp _ _ _ hok)
  | revert paths override _ ih => exact .revert paths override ih

/-! ### Owners of the runner file -/

def anchorField (region : List Str) : Option Str := region.head?.bind fun l => (split (strip l))[3]?

def atPostload (region : List Str) : Bool := anchorField region == some postloadStr

theorem anchorField_block {i app anchor : Str} (hi : ∀ c ∈ i, isSpace c = true)
    (happ : Word app) (hanchor : Word anchor) (code : List Str) :
    anchorField (block i app anchor code) = some anchor := by
  have hstrip : strip (beginLine i app anchor) = beginTag ++ (app ++ ' ' :: anchor) :=
    strip_sentinel hi (by decide) (by decide) hanchor app
  have hsp : isSpace ' ' = true := by decide
  have hfields : beginTag ++ (app ++ ' ' :: anchor) = ['#'] ++
    ' ' :: ("xmix:begin".toList ++ ' ' :: (app ++ ' ' :: anchor)) := rfl
  have hsplit : split (strip (beginLine i app anchor)) = [['#'], "xmix:begin".toList, app, anchor] := by
    rw [hstrip, hfields, split_word_append (by decide) (by decide) hsp, split_word_append (by decide) (by decide) hsp,
      split_word_append happ.1 happ.2 hsp, split_word hanchor.1 hanchor.2]
  simp [anchorField, block, hsplit]

theorem filter_spliced {blocks : List Block} (h : ∀ b ∈ blocks, Word b.app ∧ Word b.anchor) (orig : List Str) :
    (blocks.map fun b => b.spliced orig).filter atPostload =
      (blocks.filter (·.anchor = postloadStr)).map fun b => b.spliced orig := by
  rw [List.filter_map]
  refine congrArg (List.map _) (List.filter_congr fun b hb => ?_)
  obtain ⟨happ, hanchor⟩ := h b hb
  rw [Bool.eq_iff_iff]
  simp [atPostload, Block.spliced, anchorField_block (indentOf_space _) happ hanchor]

/-- The postload regions are the blocks of the owners, whose slots do not meet. -/
structure Owned (orig lines : List Str) (owners : List Owner) : Prop where
  regions : ∀ app, ((regionsTagged lines app).filter atPostload).Perm
    ((owners.filter (·.1 = app)).map fun a => a.postBlock.spliced orig)
  app : ∀ a ∈ owners, AppId a.1
  apart : (owners.flatMap Owner.slots).Pairwise fun s s' => ¬ Meets s s'

theorem Owned.start (h : ∀ l ∈ orig, Plain l) : Owned orig orig [] := by
  refine ⟨fun app => ?_, by simp, by simp⟩
  have hnone := taggedGo_outside app (fun l hl => (h l hl).1) []
  rw [append_nil] at hnone
  rw [regionsTagged, hnone]
  exact .refl _

theorem Meets.symm {s s' : Flag × Submodule × LayerSpec} (h : Meets s s') : Meets s' s :=
  ⟨h.1.symm, h.2.1.symm, h.2.2.imp fun _ => And.symm⟩

theorem subset_of_mem_taggedGo {app : Str} {cur : Option (List Str)} {r : List Str} (hr : r ∈ taggedGo app cur lines) :
    r ⊆ cur.getD [] ++ lines := by
  induction lines generalizing cur with
  | nil =>
    obtain rfl : cur = some r := by simpa [taggedGo] using hr
    simp
  | cons l lines ih =>
    cases cur with
    | none =>
      rw [taggedGo] at hr
      split at hr
      · exact ih hr
      · exact subset_cons_of_subset l (ih hr)
    | some u =>
      rw [taggedGo] at hr
      rw [getD_some, append_cons]
      split at hr
      · rcases mem_cons.1 hr with rfl | hr
        · exact subset_append_left _ _
        · exact subset_append_of_subset_right _ (ih hr)
      · exact ih hr

theorem Owned.scanned (h : Owned orig lines owners)
    {found : List (Str × Footprint)} (hscan : scanFile lines = .ok found)
    {a : Owner} (ha : a ∈ owners) {s : Flag × Submodule × LayerSpec} (hs : s ∈ a.slots) :
    ∃ fp, (a.1, fp) ∈ found ∧ Covers fp s := by
  have hregion : a.postBlock.spliced orig ∈ (regionsTagged lines a.1).filter atPostload :=
    (h.regions a.1).mem_iff.2 (mem_map.2 ⟨a, mem_filter.2 ⟨ha, by simp⟩, rfl⟩)
  have hlines := subset_of_mem_taggedGo (mem_filter.1 hregion).1
  refine exists_applied (h.app a ha) s hscan (indentOf_space (anchorLine orig postloadStr)) (hlines ?_)
  refine mem_append_left _ (mem_cons_of_mem _ (mem_map_of_mem (mem_append_left _ ?_)))
  exact mem_map.2 ⟨s, hs, rfl⟩

theorem apart_of_accepted {batch : List Owner} (h : Owned orig (fs.lines Model.runnerFile) owners)
    (hconf : checkConflicts fs (planOf batch) = .ok ()) :
    (owners.filter (fun a => a.1 ∉ batch.map Prod.fst) ++ batch).flatMap Owner.slots |>.Pairwise
      fun s s' => ¬ Meets s s' := by
  unfold checkConflicts at hconf
  obtain ⟨found, hscan, hconf⟩ := bind_eq_ok.1 hconf
  cases hfind : findConflict (found.filter fun e => !(planOf batch).apps.contains e.1) (planOf batch).footprints with
  | some p => rw [hfind] at hconf; cases hconf
  | none =>
    obtain ⟨hpair, hold⟩ := findConflict_eq_none.1 hfind
    have hfoot : (planOf batch).footprints =
        (batch.flatMap fun e => e.slots.map fun s => (e.1, s)).map fun p => (p.1, slotFootprint p.2) := by
      simp [Plan.footprints, planOf, flatMap_map, map_flatMap, comp_def]
    obtain ⟨parts, hparts, hflat⟩ := bind_eq_ok.1 hscan
    obtain rfl := pure_eq_ok.1 hflat
    have hrunner : Model.runnerFile ∈ allAnchorFiles := by decide +kernel
    obtain ⟨part, hpart, hfile⟩ := exists_mem_of_mapM hparts hrunner
    rw [flatMap_append, pairwise_append]
    refine ⟨h.apart.sublist ?_, ?_, ?_⟩
    · exact filter_sublist.flatMap _
    · have hslots : batch.flatMap Owner.slots =
        (batch.flatMap fun e => e.slots.map fun s => (e.1, s)).map Prod.snd := by
        simp [map_flatMap, comp_def]
      rw [hfoot, pairwise_map] at hpair
      rw [hslots, pairwise_map]
      refine hpair.imp fun {p q} hno hmeet => ?_
      rw [conflicts_of_meets (covers_slotFootprint p.2) (covers_slotFootprint q.2) hmeet] at hno
      cases hno
    · intro s hs s' hs' hmeet
      obtain ⟨a, ha, hs⟩ := mem_flatMap.1 hs
      obtain ⟨ha, hnot⟩ := mem_filter.1 ha
      obtain ⟨e, he, hs'⟩ := mem_flatMap.1 hs'
      obtain ⟨fp, hfp, hcov⟩ := h.scanned hfile ha hs
      have hin : (a.1, fp) ∈ parts.flatten.filter fun e => !(planOf batch).apps.contains e.1 :=
        mem_filter.2 ⟨mem_flatten.2 ⟨part, hpart, hfp⟩, by simpa [planOf] using hnot⟩
      have hnew : (e.1, slotFootprint s') ∈ (planOf batch).footprints := by
        rw [hfoot]
        exact mem_map.2 ⟨(e.1, s'), mem_flatMap.2 ⟨e, he, mem_map_of_mem hs'⟩, rfl⟩
      have hno := hold _ hnew _ hin
      rw [conflicts_of_meets (covers_slotFootprint s') hcov hmeet.symm] at hno
      cases hno

theorem filter_filter_fst (p : Str → Bool) (owners : List Owner) (app : Str) :
    (owners.filter fun a => p a.1).filter (·.1 = app) = if p app then owners.filter (·.1 = app) else [] := by
  rw [List.filter_filter]
  split
  next hp =>
    refine filter_congr fun a _ => ?_
    by_cases ha : a.1 = app <;> simp [ha, hp]
  next hp =>
    rw [filter_eq_nil_iff]
    intro a _ ha
    simp only [Bool.and_eq_true, decide_eq_true_eq] at ha
    exact hp (ha.1 ▸ ha.2)

theorem Owned.applied {fs' : Fs} {batch : List Owner}
    (h : Owned (fs₀.lines Model.runnerFile) (fs.lines Model.runnerFile) owners)
    (hp : Patched (fs₀.lines Model.runnerFile) (fs.lines Model.runnerFile))
    (happlied : Applied (planOf batch) (fun F => fs₀.lines F) fs fs')
    (hconf : checkConflicts fs (planOf batch) = .ok ())
    (hnodup : (batch.map Prod.fst).Nodup) (hgood : ∀ e ∈ batch, AppId e.1 ∧ Usable e.2 ∧ Q e.2)
    (htarget : Model.runnerFile ∈ (planOf batch).targets) :
    Owned (fs₀.lines Model.runnerFile) (fs'.lines Model.runnerFile)
      (owners.filter (fun a => a.1 ∉ batch.map Prod.fst) ++ hooking batch) := by
  have hsub : (hooking batch).Sublist batch := filter_sublist
  refine ⟨fun app => ?_, fun a ha => ?_, (apart_of_accepted h hconf).sublist ((hsub.append_left _).flatMap _)⟩
  · have hold := filter_filter_fst (fun a => decide (a ∉ batch.map Prod.fst)) owners app
    rw [filter_append, map_append]
    by_cases happ : app ∈ batch.map Prod.fst
    · rw [if_neg (by simpa using happ)] at hold
      have hword :
        ∀ b ∈ ((blocksFor (planOf batch).items Model.runnerFile).filter (·.app = app)).map (planOf batch).persisted,
          Word b.app ∧ Word b.anchor := by
        intro b' hb'
        obtain ⟨b, hb, rfl⟩ := mem_map.1 hb'
        have hit := mem_blocksFor.1 (mem_filter.1 hb).1
        obtain ⟨e, he, hit⟩ := mem_flatMap.1 hit
        obtain ⟨sb, hsb, heq⟩ := mem_map.1 hit
        obtain ⟨a, ha⟩ := (mem_emitted hsb).2.1
        obtain rfl := (Prod.mk.inj heq).2
        rw [Plan.persisted_app, Plan.persisted_anchor]
        exact ⟨(hgood e he).1, ha ▸ anchor_word a⟩
      have hmap : ∀ bs : List Block,
        bs.map (fun b => ((planOf batch).persisted b).spliced (fs.lines Model.runnerFile)) =
          (bs.map (planOf batch).persisted).map fun b => b.spliced (fs.lines Model.runnerFile) :=
            fun bs => by rw [List.map_map]; rfl
      have hperm := (happlied.own _ htarget app happ).filter atPostload
      rw [hmap, filter_spliced hword, List.filter_map] at hperm
      have hpersist : (((blocksFor (planOf batch).items Model.runnerFile).filter (·.app = app)).filter
          ((fun b : Block => decide (b.anchor = postloadStr)) ∘ (planOf batch).persisted)).map
            (planOf batch).persisted =
          ((hooking batch).filter (·.1 = app)).map Owner.postBlock := by
        simp only [comp_def, Plan.persisted_anchor]
        rw [filter_blocksFor, List.map_map]
        refine map_congr_left fun e he => ?_
        exact persisted_installBlock hnodup (hsub.subset (mem_filter.1 he).1)
      have hspliced : ∀ b : Block, b.spliced (fs.lines Model.runnerFile) =
        b.spliced (fs₀.lines Model.runnerFile) := fun b => by
        rw [Block.spliced, Block.spliced, hp.anchorLine_eq]
      rw [hpersist, List.map_map] at hperm
      simpa only [hold, map_nil, nil_append, comp_def, hspliced] using hperm
    · have hnew : (hooking batch).filter (·.1 = app) = [] := by
        rw [filter_eq_nil_iff]
        intro e he heq
        simp only [decide_eq_true_eq] at heq
        exact happ (heq ▸ mem_map_of_mem (hsub.subset he))
      rw [if_pos (by simpa using happ)] at hold
      rw [hnew, hold, map_nil, append_nil]
      exact ((happlied.rest _ htarget app happ).filter atPostload).trans (h.regions app)
  · rcases mem_append.1 ha with ha | ha
    · exact h.app a (mem_filter.1 ha).1
    · exact (hgood a (hsub.subset ha)).1

theorem Owned.stripped (h : Owned orig lines owners) (hp : Patched orig lines)
    (appIds : Option (List Str)) :
    Owned orig (stripAppRegions lines appIds) (owners.filter fun a => !strips appIds a.1) := by
  refine ⟨fun app => ?_, fun a ha => h.app a (mem_filter.1 ha).1, h.apart.sublist (filter_sublist.flatMap _)⟩
  rw [hp.tagged_stripped, filter_filter_fst fun a => !strips appIds a]
  split
  next hs => simp [hs]
  next hs => simpa [hs] using h.regions app

theorem Reached.owned (hstart : ∀ F ∈ allAnchorFiles, ∀ l ∈ fs₀.lines F, Plain l)
    (h : Reached (GeneratedApply Q) fs₀ fs) :
    ∃ owners, Owned (fs₀.lines Model.runnerFile) (fs.lines Model.runnerFile) owners ∧ ∀ a ∈ owners, Q a.2 := by
  have hrunner : Model.runnerFile ∈ allAnchorFiles := by decide +kernel
  induction h with
  | start => exact ⟨[], .start (hstart _ hrunner), by simp⟩
  | edit _ hsame ih => rwa [hsame _ hrunner]
  | @apply fs paths override hr hok ih =>
    obtain ⟨owners, howned, hq⟩ := ih
    cases hprep : prepare fs paths override with
    | error e =>
      simp only [cmdApply, hprep]
      exact ⟨owners, howned, hq⟩
    | ok plan =>
      obtain ⟨hread, hconf, -⟩ := prepare_eq_ok.1 hprep
      obtain ⟨batch, rfl, hnodup, hgood⟩ := readPlan_generated hok hread
      have hpatched := (hr.mono fun _ _ _ => cleanApply_of_generated).patched hstart
      obtain ⟨-, happlied⟩ := applied_of_clean hpatched hprep hok.1 (clean_planOf hgood)
      by_cases htarget : Model.runnerFile ∈ (planOf batch).targets
      · refine ⟨_, howned.applied (hpatched _ hrunner) happlied hconf hnodup hgood htarget, fun a ha => ?_⟩
        rcases mem_append.1 ha with ha | ha
        · exact hq a (mem_filter.1 ha).1
        · exact (hgood a (mem_filter.1 ha).1).2.2
      · rw [happlied.other _ hrunner htarget]
        exact ⟨owners, howned, hq⟩
  | @revert fs paths override hr ih =>
    obtain ⟨owners, howned, hq⟩ := ih
    have hpatched := (hr.mono fun _ _ _ => cleanApply_of_generated).patched hstart
    unfold cmdRevert
    split
    · exact ⟨owners, howned, hq⟩
    · next appIds files _ =>
      rw [lines_revertFiles (hpatched _ hrunner)]
      split
      · exact ⟨_, howned.stripped (hpatched _ hrunner) appIds, fun a ha => hq a (mem_filter.1 ha).1⟩
      · exact ⟨owners, howned, hq⟩

end Run

/-! ### The hooks of the owners -/

/-- No statement with a condition per layer is for all layers. -/
def OwnIdx : Prop := ∀ stmt ∈ r.statements, stmt.PerLayerCond → stmt.layers ≠ .all

def SameSlot (e e' : Hooked) : Prop :=
  e.layer = e'.layer ∧ e.hook.flag = e'.hook.flag ∧ e.hook.submodule = e'.hook.submodule

section Hooks
variable {i n : Nat} {stmt : Statement}

theorem slots_of_condHook {cond : CondClause} {c : LayerList × SetHook}
    (hc : stmt.cond = some cond) (h : condHook i cond = some c) :
    Dsl.slots stmt = [(stmt.opName.spec.flag, stmt.submodule, stmt.layers), (c.2.flag, c.2.submodule, .only c.1)] := by
  unfold Dsl.slots
  rw [hc]
  cases cond <;> simp only [condHook, reduceCtorEq, some.injEq] at h <;> subst h <;> rfl

theorem mem_hooksAt {l : Nat} {e : Hooked} (h : e ∈ hooksAt i stmt l) :
    e.layer = l ∧ ∃ s ∈ Dsl.slots stmt, s.1 = e.hook.flag ∧ s.2.1 = e.hook.submodule ∧ s.2.2.has l = true := by
  rcases mem_append.1 h with h | h
  · split at h
    · next hl =>
      rw [mem_singleton.1 h]
      exact ⟨rfl, _, mem_cons_self, rfl, rfl, hl⟩
    · simp at h
  · cases hc : stmt.cond.bind (condHook i) with
    | none => simp [hc] at h
    | some c =>
      obtain ⟨cond, hcond, hhook⟩ := bind_eq_some_iff.1 hc
      rw [hc, elim_some] at h
      split at h
      · next hl =>
        rw [mem_singleton.1 h]
        refine ⟨rfl, (c.2.flag, c.2.submodule, .only c.1), ?_, rfl, rfl, by simpa [LayerSpec.has] using hl⟩
        rw [slots_of_condHook hcond hhook]
        simp
      · simp at h

theorem pairwise_hooksAt (h : (Dsl.slots stmt).Pairwise fun s s' => ¬ Meets s s') (l : Nat) :
    (hooksAt i stmt l).Pairwise fun e e' => ¬ SameSlot e e' := by
  have hone : ∀ (p : Prop) [Decidable p] (e : Hooked),
    (if p then [e] else []).Pairwise fun e e' => ¬ SameSlot e e' := by
    intro p _ e
    split <;> simp
  unfold hooksAt
  cases hc : stmt.cond.bind (condHook i) with
  | none => simpa using hone _ _
  | some c =>
    obtain ⟨cond, hcond, hhook⟩ := bind_eq_some_iff.1 hc
    rw [slots_of_condHook hcond hhook, pairwise_pair] at h
    rw [elim_some, pairwise_append]
    refine ⟨hone _ _, hone _ _, fun e he e' he' hsame => ?_⟩
    split at he
    · next hl =>
      split at he'
      · next hl' =>
        obtain rfl := mem_singleton.1 he
        obtain rfl := mem_singleton.1 he'
        exact h ⟨hsame.2.1, hsame.2.2, l, hl, by simpa [LayerSpec.has] using hl'⟩
      · simp at he'
    · simp at he

theorem pairwise_hooks (h : (Dsl.slots stmt).Pairwise fun s s' => ¬ Meets s s') :
    ((range n).flatMap (hooksAt i stmt)).Pairwise fun e e' => ¬ SameSlot e e' := by
  rw [pairwise_flatMap]
  refine ⟨fun l _ => pairwise_hooksAt h l, pairwise_lt_range.imp fun {l l'} hlt e he e' he' hsame => ?_⟩
  have hlayer : l = l' := by rw [← (mem_hooksAt he).1, ← (mem_hooksAt he').1, hsame.1]
  omega

theorem runInstall_parts {xs : List (Model × Nat × Statement)}
    (h : ∀ x ∈ xs, x.2.2.PerLayerCond → x.2.2.layers ≠ .all) (idx : Option Nat) :
    runInstall n idx (xs.map fun x => installPart x.1 x.2.1 x.2.2) =
      some (xs.map fun x => (List.range n).flatMap (hooksAt x.2.1 x.2.2)) := by
  induction xs generalizing idx with
  | nil => rfl
  | cons x xs ih =>
    obtain ⟨idx', hloop⟩ := foldlM_runBody (runBody_loopBody (i := x.2.1) (h x (by simp))) n ⟨idx, []⟩
    rw [← @runPart_installPart _ _ _ x.1] at hloop
    simp only [map_cons, runInstall, hloop, bind_eq_bind, bind_some,
      ih (fun x hx => h x (by simp [hx])) idx', List.nil_append, Option.pure_def]

end Hooks

def Owner.parts (a : Owner) : List (Model × Nat × Statement) := a.2.statements.zipIdx.map fun s => (a.2.model, s.2, s.1)

theorem install_exclusive {owners : List Owner} (hidx : ∀ a ∈ owners, OwnIdx a.2)
    (hapart : (owners.flatMap Owner.slots).Pairwise fun s s' => ¬ Meets s s') (n : Nat) (idx : Option Nat) :
    ∃ traces, runInstall n idx (owners.flatMap fun a => (emission a.2).install) = some traces ∧
      traces.flatten.Pairwise fun e e' => ¬ SameSlot e e' := by
  have hparts : (owners.flatMap fun a => (emission a.2).install) =
      (owners.flatMap Owner.parts).map fun x => installPart x.1 x.2.1 x.2.2 := by
    simp [map_flatMap, Owner.parts, emission, fileEmission, comp_def]
  have hslots : owners.flatMap Owner.slots = (owners.flatMap Owner.parts).flatMap fun x => slots x.2.2 := by
    rw [flatMap_assoc]
    refine congrArg (flatMap · owners) (funext fun a => ?_)
    rw [Owner.slots, Owner.parts, flatMap_map]
    conv_lhs => rw [← zipIdx_map_fst 0 a.2.statements, flatMap_map]
  have hmem : ∀ x ∈ owners.flatMap Owner.parts, x.2.2.PerLayerCond → x.2.2.layers ≠ .all := by
    intro x hx
    obtain ⟨a, ha, hx⟩ := mem_flatMap.1 hx
    obtain ⟨s, hs, rfl⟩ := mem_map.1 hx
    exact hidx a ha s.1 (fst_mem_of_mem_zipIdx hs)
  rw [hparts, runInstall_parts hmem]
  refine ⟨_, rfl, ?_⟩
  rw [hslots, pairwise_flatMap] at hapart
  rw [← flatMap_def, pairwise_flatMap]
  refine ⟨fun x hx => pairwise_hooks (hapart.1 x hx), hapart.2.imp fun {x y} hno e he e' he' hsame => ?_⟩
  obtain ⟨l, -, he⟩ := mem_flatMap.1 he
  obtain ⟨l', -, he'⟩ := mem_flatMap.1 he'
  obtain ⟨hl, s, hs, hflag, hsub, hhas⟩ := mem_hooksAt he
  obtain ⟨hl', s', hs', hflag', hsub', hhas'⟩ := mem_hooksAt he'
  refine hno s hs s' hs' ⟨by rw [hflag, hflag', hsame.2.1], by rw [hsub, hsub', hsame.2.2], l, hhas, ?_⟩
  rwa [← hl, hsame.1, hl']

/-- In every state that a run of generated files reaches, the postload regions in the runner file are
those of owners whose install code, run in any order on any model, sets at most one hook on each slot;
and a batch that would meet a slot twice is refused before anything is written. -/
theorem slots_exclusive {fs₀ fs : Fs} (hstart : ∀ F ∈ allAnchorFiles, ∀ l ∈ fs₀.lines F, Plain l)
    (hreach : Reached (GeneratedApply OwnIdx) fs₀ fs) :
    ∃ owners, Owned (fs₀.lines Model.runnerFile) (fs.lines Model.runnerFile) owners ∧
      (∀ (order : List Owner) (n : Nat) (idx : Option Nat), order.Perm owners →
        ∃ traces, runInstall n idx (order.flatMap fun a => (emission a.2).install) = some traces ∧
        traces.flatten.Pairwise fun e e' => ¬ SameSlot e e') ∧
      ∀ paths override batch, readPlan fs paths override = .ok (planOf batch) →
        ¬ ((owners.filter (fun a => a.1 ∉ batch.map Prod.fst) ++ batch).flatMap Owner.slots).Pairwise
          (fun s s' => ¬ Meets s s') →
        ∃ e, cmdApply paths override false fs = (fs, .error e) := by
  obtain ⟨owners, howned, hidx⟩ := hreach.owned hstart
  refine ⟨owners, howned, fun order n idx hperm => ?_, fun paths override batch hread hno => ?_⟩
  · refine install_exclusive (fun a ha => hidx a (hperm.subset ha)) ?_ n idx
    exact (hperm.flatMap_right _).pairwise_iff (fun h h' => h h'.symm) |>.2 howned.apart
  · cases hprep : prepare fs paths override with
    | error e => exact ⟨e, by simp only [cmdApply, hprep]⟩
    | ok plan =>
      obtain ⟨hread', hconf, -⟩ := prepare_eq_ok.1 hprep
      cases hread'.symm.trans hread
      exact absurd (apart_of_accepted howned hconf) hno

/-! ### Two files at work -/

def resultOf (f : XmixFile) : ParseResult := ((parseAndValidate f).toOption).getD ⟨[], [], .llama⟩

def synthOf (f : XmixFile) : Str := ((compileXmix f).toOption).getD []

def runnerFs (s t : Str) : Fs where
  inode path :=
    if path = "s_synth.py".toList then some 0 else if path = "t_synth.py".toList then some 1
    else if path = Model.runnerFile then some 2 else none
  text i :=
    if i = 0 then s else if i = 1 then t
    else "# xmix:anchor runner_setup\n# xmix:anchor runner_postload\n".toList
  out := []

theorem runnerFs_apart (s t : Str) : (runnerFs s t).AnchorsApart := by
  have hdec : ∀ F ∈ allAnchorFiles, ∀ F' ∈ allAnchorFiles, (runnerFs [] []).inode F = (runnerFs [] []).inode F' →
      ((runnerFs [] []).inode F).isSome → F = F' := by decide +kernel
  intro F hF F' hF' i hi hi'
  exact hdec F hF F' hF' (hi.trans hi'.symm) (by rw [show (runnerFs [] []).inode F = some i from hi]; rfl)

theorem runnerFs_plain (s t : Str) : ∀ F ∈ allAnchorFiles, ∀ l ∈ (runnerFs s t).lines F, Plain l := by
  have hdec : ∀ F ∈ allAnchorFiles, ((runnerFs [] []).inode F ≠ some 0 ∧ (runnerFs [] []).inode F ≠ some 1) ∧
      ∀ l ∈ (runnerFs [] []).lines F, isBegin l = false ∧ isEnd l = false := by
    decide +kernel
  intro F hF
  obtain ⟨⟨hs, ht⟩, hplain⟩ := hdec F hF
  have hsame : (runnerFs s t).lines F = (runnerFs [] []).lines F := by
    refine Fs.lines_congr rfl fun i hi => ?_
    have h0 : i ≠ 0 := fun h => hs (h ▸ hi)
    have h1 : i ≠ 1 := fun h => ht (h ▸ hi)
    simp only [runnerFs, if_neg h0, if_neg h1]
  rw [hsame]
  exact hplain

theorem usable_of_check {r : ParseResult}
    (h : ((emission r).setup ++ (emission r).install).all (fun p => (partText p).all fun l =>
      isPlain l && !isBegin l && !isEnd l && !startsWith (anchorComment []) (strip l)) = true) : Usable r := by
  have hline : ∀ p ∈ (emission r).setup ++ (emission r).install, ∀ l ∈ partText p,
      isPlain l = true ∧ Plain l ∧ startsWith (anchorComment []) (strip l) = false := by
    intro p hp l hl
    have := all_eq_true.1 (all_eq_true.1 h p hp) l hl
    simp only [Bool.and_eq_true, Bool.not_eq_true'] at this
    exact ⟨this.1.1.1, ⟨this.1.1.2, this.1.2⟩, this.2⟩
  refine ⟨fun p hp l hl => (hline p hp l hl).1, fun p hp l hl => ⟨(hline p hp l hl).2.1, fun a ha => ?_⟩⟩
  have hpre : ∀ t u : Str, startsWith (t ++ []) (t ++ u) = true := fun t u => by rw [append_nil, startsWith_append]
  have hyes : startsWith (anchorComment []) (anchorComment a) = true := hpre _ a
  have hno := (hline p hp l hl).2.2
  rw [ha, hyes] at hno
  cases hno

theorem synthOf_generated {f : XmixFile} {text path : Str}
    {fs : Fs} {i : Nat} (h : compileXmix f = .ok text)
    (hpath : OneLine f.path) (hi : fs.inode path = some i) (ht : fs.text i = synthOf f) :
    parseAndValidate f = .ok (resultOf f) ∧ SynthOf fs path (resultOf f) := by
  have htext : synthOf f = text := by rw [synthOf, h]; rfl
  obtain ⟨r, hr, hgen⟩ := bind_eq_ok.1 h
  have hres : resultOf f = r := by rw [resultOf, hr]; rfl
  rw [hres]
  exact ⟨hr, f.path, text, i, hpath, hgen, hi, ht.trans htext⟩

open Written in
def gatedFile : XmixFile where
  path := "gated.xmix".toList
  src := []
  tree := .ok
    [adder uName, scorer cName,
      stmt (submodule (layers (write (run (selfAttr uName))) [0, 1]) "mlp.post"),
      stmt (cond (submodule (layers (write (run (selfAttr uName))) [2]) "attention.post")
        (submodule (layer (gates (selfAttr cName) "input_map") (ints [1])) "mlp.post"))]

/-- `adderFile` and `gatedFile` are applied together, as two apps. -/
theorem adderFile_exclusive :
    let fs := runnerFs (synthOf adderFile) (synthOf gatedFile)
    let applied := cmdApply ["s_synth.py".toList, "t_synth.py".toList] none false fs
    applied.2.isOk = true ∧ ∃ owners, Owned (fs.lines Model.runnerFile) (applied.1.lines Model.runnerFile) owners ∧
      ∀ n idx, ∃ traces, runInstall n idx (owners.flatMap fun a => (emission a.2).install) = some traces ∧
        traces.flatten.Pairwise fun e e' => ¬ SameSlot e e' := by
  obtain ⟨text, hcompile⟩ : ∃ text, compileXmix adderFile = .ok text := ⟨_, rfl⟩
  obtain ⟨text', hcompile'⟩ : ∃ text, compileXmix gatedFile = .ok text := ⟨_, rfl⟩
  have hok : (cmdApply ["s_synth.py".toList, "t_synth.py".toList] none false
    (runnerFs (synthOf adderFile) (synthOf gatedFile))).2.isOk =
      true := by decide +kernel
  intro fs applied
  have hidx : ∀ r : ParseResult, r.statements.all (fun s => s.layers ≠ .all) = true → OwnIdx r :=
    fun r hall stmt hmem _ => by simpa using all_eq_true.1 hall stmt hmem
  have hgen : GeneratedApply OwnIdx fs ["s_synth.py".toList, "t_synth.py".toList] none := by
    refine ⟨runnerFs_apart _ _, forall_mem_cons.2 ⟨?_, forall_mem_singleton.2 ?_⟩⟩
    · exact ⟨by simp only [AppId]; decide +kernel, _, (synthOf_generated hcompile (by decide) rfl rfl).2,
        usable_of_check (by decide +kernel), hidx _ rfl⟩
    · exact ⟨by simp only [AppId]; decide +kernel, _, (synthOf_generated hcompile' (by decide) rfl rfl).2,
        usable_of_check (by decide +kernel), hidx _ rfl⟩
  obtain ⟨owners, howned, hexcl, -⟩ := slots_exclusive (runnerFs_plain _ _) (.apply _ none .start hgen)
  exact ⟨hok, owners, howned, fun n idx => hexcl owners n idx (.refl _)⟩

open Written in
def clashFile : XmixFile where
  path := "clash.xmix".toList
  src := []
  tree := .ok
    [adder vName, scorer cName, scorer dName,
      stmt (submodule (layers (write (run (selfAttr vName))) [0]) "mlp.post"),
      stmt (cond (submodule (layer (write (run (selfAttr vName))) (str "all")) "attention.post")
        (submodule (layer (gates (selfAttr cName) "input_map") (ints [1])) "mlp.post")),
      stmt (cond (submodule (layers (write (run (selfAttr vName))) [1]) "mlp.post")
        (submodule (layer (gates (selfAttr dName) "input_map") (ints [0])) "mlp.post"))]

/-- Install code of `clashFile` is run on a model of two layers. -/
theorem clashFile_not_exclusive : ∃ fs r traces, parseAndValidate clashFile = .ok r ∧
    (∀ F ∈ allAnchorFiles, ∀ l ∈ (runnerFs (synthOf clashFile) []).lines F, Plain l) ∧
    Reached (GeneratedApply fun _ => True) (runnerFs (synthOf clashFile) []) fs ∧
    Owned ((runnerFs (synthOf clashFile) []).lines Model.runnerFile) (fs.lines Model.runnerFile) [("s".toList, r)] ∧
    runInstall 2 none (emission r).install = some traces ∧ ¬ traces.flatten.Pairwise fun e e' => ¬ SameSlot e e' := by
  obtain ⟨text, hcompile⟩ : ∃ text, compileXmix clashFile = .ok text := ⟨_, rfl⟩
  obtain ⟨hparse, hsynth⟩ :=
    @synthOf_generated _ _ "s_synth.py".toList (runnerFs (synthOf clashFile) []) 0 hcompile (by decide) rfl rfl
  have husable : Usable (resultOf clashFile) := usable_of_check (by decide +kernel)
  have happ : appIdFrom "s_synth.py".toList none = "s".toList := by decide +kernel
  have hgen : GeneratedApply (fun _ => True) (runnerFs (synthOf clashFile) []) ["s_synth.py".toList] none := by
    refine ⟨runnerFs_apart _ _, fun path hpath => ?_⟩
    rw [mem_singleton.1 hpath, happ]
    exact ⟨by simp only [AppId]; decide, _, hsynth, husable, trivial⟩
  have hread := readPlan_one hsynth husable (by decide +kernel)
  rw [happ] at hread
  have hconf : checkConflicts (runnerFs (synthOf clashFile) [])
    (planOf [("s".toList, resultOf clashFile)]) = .ok () := by decide +kernel
  have hpass : passOne (runnerFs (synthOf clashFile) [])
    (byFile (planOf [("s".toList, resultOf clashFile)]).items) = .ok () := by
    decide +kernel
  have hgood : ∀ e ∈ ([("s".toList, resultOf clashFile)] : List Owner), AppId e.1 ∧ Usable e.2 ∧
    (fun _ : ParseResult => True) e.2 := by
    intro e he
    rw [mem_singleton.1 he]
    exact ⟨by simp only [AppId]; decide, husable, trivial⟩
  have hplain := runnerFs_plain (synthOf clashFile) []
  have hpatched : ∀ F ∈ allAnchorFiles, Patched ((runnerFs (synthOf clashFile) []).lines F)
    ((runnerFs (synthOf clashFile) []).lines F) :=
    fun F hF => .start (hplain F hF)
  have hrunner : Model.runnerFile ∈ allAnchorFiles := by decide +kernel
  obtain ⟨-, happlied⟩ := @applied_of_clean _ _ (runnerFs (synthOf clashFile) []).lines _ _ hpatched
    (prepare_eq_ok.2 ⟨hread, hconf, hpass⟩) (runnerFs_apart _ _) (clean_planOf (Q := fun _ => True) hgood)
  have howned := (Owned.start (hplain _ hrunner)).applied (Q := fun _ => True)
    (hpatched _ hrunner) happlied hconf (by simp) hgood (by decide +kernel)
  have hone : hooking [("s".toList, resultOf clashFile)] = [("s".toList, resultOf clashFile)] := by rfl
  rw [hone] at howned
  obtain ⟨traces, hrun, hslots⟩ : ∃ traces, runInstall 2 none (emission (resultOf clashFile)).install = some traces ∧
      traces.flatten.map (fun e => (e.layer, e.hook.flag, e.hook.submodule)) =
        [(0, .w, .mlpPost), (0, .w, .attentionPost), (0, .r, .mlpPost), (1, .w, .attentionPost), (1, .r, .mlpPost),
          (0, .r, .mlpPost), (1, .w, .mlpPost)] := ⟨_, rfl, rfl⟩
  refine ⟨_, resultOf clashFile, traces, hparse, hplain, .apply ["s_synth.py".toList] none .start hgen,
    howned, hrun, fun hpair => ?_⟩
  have hne : (traces.flatten.map fun e => (e.layer, e.hook.flag, e.hook.submodule)).Pairwise (· ≠ ·) :=
    pairwise_map.2 (hpair.imp fun hno heq => hno ⟨congrArg Prod.fst heq, congrArg (·.2.1) heq, congrArg (·.2.2) heq⟩)
  rw [hslots] at hne
  exact absurd hne (by decide)

end Xmix.Apply
