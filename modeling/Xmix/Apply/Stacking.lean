import Xmix.Apply.Chunks
import Xmix.Apply.Sentinels

/-!
# Stacking order

Where the blocks of a batch stand after `cmd_apply`, and that applying the batch again changes
nothing. A second apply removes what the first inserted only as far as it recognises it: the begin
lines are read by their third word and the persisted footprints by their first.
-/

namespace Xmix.Apply

open Xmix.Except List
open PyStr LinePattern Dsl

/-! ### One file -/

structure Block.Tidy (b : Block) : Prop where
  anchor : Word b.anchor
  code : ∀ cl ∈ b.code, Plain cl ∧ ∀ a, strip cl ≠ anchorComment a

theorem exists_chunk {b : Block} (h : b.Tidy) (lines : List Str) :
    ∃ c : Chunk, c.lines = b.spliced lines ∧
      c.first = beginLine (indentOf (anchorLine lines b.anchor)) b.app b.anchor := by
  have hi := indentOf_space (anchorLine lines b.anchor)
  refine ⟨⟨beginLine _ b.app b.anchor, b.code.map (reindent (indentOf (anchorLine lines b.anchor))),
    endLine _ b.app b.anchor,
    isBegin_beginLine hi h.anchor b.app, isEnd_endLine hi h.anchor b.app, fun l hl => ?_, fun l hl a => ?_⟩, rfl, rfl⟩
  · obtain ⟨cl, hcl, rfl⟩ := mem_map.1 hl
    rw [Plain, isBegin, isEnd, strip_reindent hi]
    exact (h.code cl hcl).1
  · obtain ⟨cl, hcl, rfl⟩ := mem_map.1 hl
    rw [strip_reindent hi]
    exact (h.code cl hcl).2 a

section
variable {i : Str} (hi : ∀ c ∈ i, isSpace c = true) (appIds : Option (List Str))
include hi appIds

theorem tagged_append_space (s : Str) :
    tagged appIds (i ++ s) = tagged appIds s := by
  simp [tagged, strip_append_space hi]

theorem tagged_beginLine (app anchor : Str) :
    tagged appIds (beginLine i app anchor) = tagged appIds (beginLine [] app anchor) := by
  have h := tagged_append_space hi appIds (beginLine [] app anchor)
  rw [← h]
  simp [beginLine]

end

def SplicedAs (lines : List Str) (b : Block) (x : Str × Chunk) : Prop :=
  x.1 = b.anchor ∧ x.2.lines = b.spliced lines ∧
    x.2.first = beginLine (indentOf (anchorLine lines b.anchor)) b.app b.anchor

variable {l : Str}

section File
variable {ps : List Piece} {blocks : List Block} {lines : List Str}

theorem hasAnchor_of_mem {l a : Str} (hl : l ∈ rendered ps) (ha : strip l = anchorComment a) : HasAnchor ps a :=
  ⟨l, Piece.cutting.mem_ownLines (fun p _ => p.strip_ne_anchor a) hl ha, ha⟩

theorem stackAll_rendered (htidy : ∀ b ∈ blocks, b.Tidy) (ha : ∀ b ∈ blocks, HasAnchor ps b.anchor)
    (hlines : ∀ a, anchorLine lines a = anchorLine (plainLines ps) a) :
    ∃ cs, List.Forall₂ (SplicedAs lines) blocks cs ∧
      stackAll blocks (rendered ps) = .ok (rendered (insertChunks cs ps)) := by
  induction blocks generalizing ps with
  | nil => exact ⟨[], .nil, rfl⟩
  | cons b blocks ih =>
    obtain ⟨c, hc, hfirst⟩ := exists_chunk (htidy b mem_cons_self) lines
    have hins : insertStacked (rendered ps) b.anchor b.app b.code = .ok (rendered (insertChunk b.anchor c ps)) :=
      insertStacked_rendered (ha b mem_cons_self) (by rw [hc, Block.spliced, hlines])
    obtain ⟨cs, hcs, hrun⟩ := @ih (insertChunk b.anchor c ps) (fun b hb => htidy b (mem_cons_of_mem _ hb))
      (fun b' hb' => (hasAnchor_insertChunk (ha b mem_cons_self)).2 (ha b' (mem_cons_of_mem _ hb')))
      (by rwa [plainLines_insertChunk (ha b mem_cons_self)])
    refine ⟨(b.anchor, c) :: cs, .cons ⟨rfl, hc, hfirst⟩ hcs, ?_⟩
    rw [stackAll, foldlM_cons, hins]
    exact hrun

structure Batched (apps : List Str) (blocks : List Block) (lines lines' : List Str) (ps : List Piece)
    (cs : List (Str × Chunk)) : Prop where
  before : lines = rendered ps
  chunks : List.Forall₂ (SplicedAs lines) blocks cs
  anchors : ∀ x ∈ cs, HasAnchor ps x.1
  after : lines' = rendered (insertChunks cs (ps.filter (Piece.kept (some apps))))

theorem exists_batched (apps : List Str) (hd : Delimited lines) (htidy : ∀ b ∈ blocks, b.Tidy)
    (ha : ∀ b ∈ blocks, ∃ l ∈ lines, strip l = anchorComment b.anchor) :
    ∃ lines' ps cs, applyBatch apps blocks lines = .ok lines' ∧ Batched apps blocks lines lines' ps cs := by
  obtain ⟨ps, rfl⟩ := hd
  have hanchor : ∀ b ∈ blocks, HasAnchor ps b.anchor := fun b hb => by
    obtain ⟨l, hl, hstrip⟩ := ha b hb
    exact hasAnchor_of_mem hl hstrip
  have hkept : ∀ b ∈ blocks, HasAnchor (ps.filter (Piece.kept (some apps))) b.anchor := fun b hb => by
    rw [HasAnchor, plainLines_filter]
    exact hanchor b hb
  obtain ⟨cs, hcs, hrun⟩ := @stackAll_rendered _ _ (rendered ps) htidy hkept
    (fun a => by rw [plainLines_filter, anchorLine_rendered])
  refine ⟨_, ps, cs, ?_, rfl, hcs, fun x hx => ?_, rfl⟩
  · rw [applyBatch, stripAppRegions_rendered]
    exact hrun
  · obtain ⟨b, hb, hR⟩ := exists_of_mem_forall₂ hcs hx
    rw [hR.1]
    exact hanchor b hb

variable {apps : List Str} {lines' : List Str} {cs : List (Str × Chunk)}

section

variable (h : Batched apps blocks lines lines' ps cs)
include h

theorem Batched.keptAnchors :
    ∀ x ∈ cs, HasAnchor (ps.filter (Piece.kept (some apps))) x.1 := fun x hx => by
  rw [HasAnchor, plainLines_filter]
  exact h.anchors x hx

theorem Batched.delimited : Delimited lines' := ⟨_, h.after⟩

theorem Batched.anchorLine_eq (a : Str) : anchorLine lines' a = anchorLine lines a := by
  rw [h.after, h.before, anchorLine_rendered, anchorLine_rendered,
    plainLines_insertChunks h.keptAnchors, plainLines_filter]

theorem Batched.below (a : Str) :
    regionsBelow lines' a = (regionsBelow lines a).filter (fun r => !tagged (some apps) (r.headD [])) ++
      (blocks.filter (·.anchor = a)).map fun b => b.spliced lines := by
  have hnew : (cs.filter (·.1 = a)).map (fun x => x.2.lines) =
    (blocks.filter (·.anchor = a)).map fun b => b.spliced lines := by
    have hcs := h.chunks
    clear h
    induction hcs with
    | nil => rfl
    | @cons b x blocks cs hR _ ih =>
      rw [filter_cons, filter_cons, hR.1]
      split
      · rw [map_cons, map_cons, ih, hR.2.1]
      · exact ih
  have hold : ((chunksBelow a ps).filter fun c => !tagged (some apps) c.first).map Chunk.lines =
      ((chunksBelow a ps).map Chunk.lines).filter (fun r => !tagged (some apps) (r.headD [])) := by
    rw [filter_map]
    rfl
  rw [h.after, regionsBelow_rendered, chunksBelow_insertChunks h.keptAnchors, chunksBelow_filter, map_append, hold,
    ← regionsBelow_rendered, ← h.before, map_map]
  exact congrArg _ hnew

theorem Batched.again (htag : ∀ b ∈ blocks, tagged (some apps) (beginLine [] b.app b.anchor) = true)
    (hrun : applyBatch apps blocks lines = .ok lines') :
    applyBatch apps blocks lines' = .ok lines' := by
  have hfirst : ∀ x ∈ cs, tagged (some apps) x.2.first = true := fun x hx => by
    obtain ⟨b, hb, -, -, hfirst⟩ := exists_of_mem_forall₂ h.chunks hx
    rw [hfirst, tagged_beginLine (indentOf_space _)]
    exact htag b hb
  have hstrip : stripAppRegions lines' (some apps) = stripAppRegions lines (some apps) := by
    rw [h.after, h.before, stripAppRegions_rendered, stripAppRegions_rendered,
      filter_insertChunks h.keptAnchors hfirst, filter_filter]
    simp
  rw [applyBatch, hstrip]
  exact hrun

theorem Batched.perm :
    lines'.Perm (blocks.flatMap (fun b => b.spliced lines) ++ stripAppRegions lines (some apps)) := by
  have hnew : cs.flatMap (fun x => x.2.lines) = blocks.flatMap fun b => b.spliced lines := by
    have hcs := h.chunks
    clear h
    induction hcs with
    | nil => rfl
    | @cons b x blocks cs hR _ ih => rw [flatMap_cons, flatMap_cons, ih, hR.2.1]
  rw [← hnew, h.after, h.before, stripAppRegions_rendered]
  refine ((insertChunks_perm h.keptAnchors).flatMap_right _).trans ?_
  rw [flatMap_append, flatMap_map]
  exact .refl _

theorem Batched.tagged_of_again (htidy : ∀ b ∈ blocks, b.Tidy)
    (ha : ∀ b ∈ blocks, ∃ l ∈ lines', strip l = anchorComment b.anchor)
    (hagain : applyBatch apps blocks lines' = .ok lines') :
    ∀ b ∈ blocks, tagged (some apps) (beginLine [] b.app b.anchor) = true := by
  obtain ⟨lines'', ps', cs', hrun, h'⟩ := exists_batched apps h.delimited htidy ha
  cases hagain.symm.trans hrun
  have hspliced : ∀ b : Block, b.spliced lines' = b.spliced lines :=
    fun b => by rw [Block.spliced, Block.spliced, h.anchorLine_eq]
  -- a second apply takes away as much as it puts back
  have hlen := h.perm.length_eq
  have hlen' := h'.perm.length_eq
  have hstrip :=
    ((((insertChunks_perm h.keptAnchors).filter (Piece.kept (some apps)))).flatMap_right Piece.lines).length_eq
  simp only [length_append, hspliced] at hlen hlen'
  rw [filter_append, flatMap_append, length_append, filter_filter] at hstrip
  simp only [Bool.and_self] at hstrip
  change (rendered _).length = _ + (rendered _).length at hstrip
  rw [← stripAppRegions_rendered, ← stripAppRegions_rendered, ← h.after, ← h.before] at hstrip
  have hnone :=
    eq_nil_of_length_eq_zero (show (((cs.map fun x => Piece.chunk x.2).filter (Piece.kept (some apps))).flatMap
      Piece.lines).length = 0 by omega)
  intro b hb
  obtain ⟨x, hx, -, -, hfirst⟩ := exists_of_mem_forall₂ h.chunks.flip hb
  rw [← tagged_beginLine (indentOf_space _), ← hfirst]
  by_contra hno
  have hkept : Piece.chunk x.2 ∈ (cs.map fun x => Piece.chunk x.2).filter (Piece.kept (some apps)) :=
    mem_filter.2 ⟨mem_map_of_mem hx, by simpa [Piece.kept] using hno⟩
  cases flatMap_eq_nil_iff.1 hnone _ hkept

theorem Batched.mem_iff :
    l ∈ lines' ↔ (∃ b ∈ blocks, l ∈ b.spliced lines) ∨ l ∈ stripAppRegions lines (some apps) := by
  rw [h.perm.mem_iff, mem_append, mem_flatMap]

theorem Batched.anchor_mem {a : Str} (ha : ∃ l ∈ lines, strip l = anchorComment a) :
    ∃ l ∈ lines', strip l = anchorComment a := by
  obtain ⟨l, hl, hstrip⟩ := ha
  rw [h.before] at hl
  obtain ⟨l', hl', hstrip'⟩ := hasAnchor_of_mem hl hstrip
  refine ⟨l', ?_, hstrip'⟩
  rw [h.after]
  refine Piece.cutting.mem_render (show l' ∈ plainLines _ from ?_)
  rwa [plainLines_insertChunks h.keptAnchors, plainLines_filter]

end

end File

/-! ### The batch -/

def blocksOf (fs : Fs) (override : Option Str) (path : Str) : List (Str × Block) :=
  match fs.readText path with
  | .error _ => []
  | .ok text => (parseBlocks text).map fun b => (b.file, ⟨b.anchor, appIdFrom path override, b.code⟩)

variable {fs : Fs} {paths : List Str} {override : Option Str} {plan : Plan}

theorem of_readPlan (h : readPlan fs paths override = .ok plan) :
    plan.apps = paths.map (appIdFrom · override) ∧ plan.items = paths.flatMap (blocksOf fs override) := by
  suffices hs : ∀ start, paths.foldlM (readOne fs override) start = .ok plan →
      plan.apps = start.apps ++ paths.map (appIdFrom · override) ∧
        plan.items = start.items ++ paths.flatMap (blocksOf fs override) by
    exact hs _ h
  clear h
  induction paths with
  | nil =>
    intro start h
    obtain rfl := pure_eq_ok.1 h
    simp
  | cons path paths ih =>
    intro start h
    rw [foldlM_cons, bind_eq_ok] at h
    obtain ⟨mid, hmid, h⟩ := h
    obtain ⟨text, fps, -, htext, -, -, rfl⟩ := readOne_eq_ok.1 hmid
    obtain ⟨happs, hitems⟩ := ih _ h
    simp [happs, hitems, blocksOf, htext]

theorem readPlan_congr {fs fs' : Fs} {paths : List Str}
    (override : Option Str) (h : ∀ p ∈ paths, fs'.readText p = fs.readText p) :
    readPlan fs' paths override = readPlan fs paths override := by
  unfold readPlan
  generalize (⟨[], [], []⟩ : Plan) = start
  induction paths generalizing start with
  | nil => rfl
  | cons p paths ih =>
    have hone : readOne fs' override start p = readOne fs override start p := by
      rw [readOne, readOne, h p mem_cons_self]
    rw [foldlM_cons, foldlM_cons, hone]
    congr 1
    funext mid
    exact ih (fun p hp => h p (mem_cons_of_mem _ hp)) mid

/-! ### The conflict check -/

def Plan.Harmless (plan : Plan) (line : Str) : Prop :=
  ∀ ws, appliedTag line = some ws → ∃ e, parseApplied ws = .ok e ∧
    (e.1 ∈ plan.apps ∨ ∀ x ∈ plan.footprints, conflicts x e = false)

theorem checkConflicts_eq_ok : checkConflicts fs plan = .ok () ↔
    plan.footprints.Pairwise (fun a b => conflicts a b = false) ∧
      ∀ F ∈ allAnchorFiles, ∀ l ∈ fs.lines F, plan.Harmless l := by
  constructor
  · intro h
    obtain ⟨existing, hscan, h⟩ := bind_eq_ok.1 h
    obtain ⟨found, hfound, heq⟩ := bind_eq_ok.1 hscan
    obtain rfl := pure_eq_ok.1 heq
    split at h
    · cases h
    · next hnone =>
      obtain ⟨hpair, hold⟩ := findConflict_eq_none.1 hnone
      refine ⟨hpair, fun F hF l hl ws hws => ?_⟩
      obtain ⟨foundF, hmem, hfile⟩ := exists_mem_of_mapM hfound hF
      obtain ⟨e, he, hparse⟩ := exists_mem_of_mapM hfile (mem_filterMap.2 ⟨l, hl, hws⟩)
      refine ⟨e, hparse, or_iff_not_imp_left.2 fun happ x hx => hold x hx e (mem_filter.2 ⟨?_, by simpa using happ⟩)⟩
      exact mem_flatten.2 ⟨foundF, hmem, he⟩
  · rintro ⟨hpair, hlines⟩
    obtain ⟨found, hfound⟩ : ∃ found, allAnchorFiles.mapM (fun file => scanFile (fs.lines file)) = .ok found := by
      refine exists_mapM_ok.2 fun F hF => exists_mapM_ok.2 fun ws hws => ?_
      obtain ⟨l, hl, htag⟩ := mem_filterMap.1 hws
      obtain ⟨e, he, -⟩ := hlines F hF l hl ws htag
      exact ⟨e, he⟩
    have hscan : scanApplied fs = .ok found.flatten := by
      rw [scanApplied, hfound]
      rfl
    have hnone : findConflict (found.flatten.filter fun e => !plan.apps.contains e.1) plan.footprints = none := by
      refine findConflict_eq_none.2 ⟨hpair, fun x hx e he => ?_⟩
      obtain ⟨he, hnot⟩ := mem_filter.1 he
      obtain ⟨foundF, hmem, he⟩ := mem_flatten.1 he
      obtain ⟨F, hF, hfile⟩ := exists_of_mem_mapM hfound hmem
      obtain ⟨ws, hws, hparse⟩ := exists_of_mem_mapM hfile he
      obtain ⟨l, hl, htag⟩ := mem_filterMap.1 hws
      obtain ⟨e', he', hsafe⟩ := hlines F hF l hl ws htag
      cases he'.symm.trans hparse
      rcases hsafe with happ | hsafe
      · exact absurd happ (by simpa using hnot)
      · exact hsafe x hx
    rw [checkConflicts, hscan, ok_bind, hnone]
    rfl

def Fs.Scanned (fs : Fs) (file : Str) : Prop := ∃ F ∈ allAnchorFiles, fs.inode F = fs.inode file

/-! ### Two applies of a batch -/

variable (fs paths override plan)

/-- Below every anchor the regions of other apps stay and the blocks of the batch follow in order.
-/
def Stacked (fs' : Fs) : Prop :=
  ∀ F ∈ plan.targets, ∀ a, regionsBelow (fs'.lines F) a =
    (regionsBelow (fs.lines F) a).filter (fun r => !tagged (some (paths.map (appIdFrom · override))) (r.headD [])) ++
      (((paths.flatMap (blocksOf fs override)).filter fun it => it.1 = F ∧ it.2.anchor = a).map fun it =>
        (plan.persisted it.2).spliced (fs.lines F))

/-- Applying again succeeds and changes no text. -/
def Settled (fs' : Fs) : Prop :=
  (cmdApply paths override false fs').2 = .ok () ∧ (cmdApply paths override false fs').1.text = fs'.text

def Plan.Tidy : Prop := ∀ it ∈ plan.items, ∀ cl ∈ it.2.code, Plain cl ∧ ∀ a, strip cl ≠ anchorComment a

variable {fs paths override plan}

structure Plan.Apart (plan : Plan) (fs : Fs) (paths : List Str) : Prop where
  targets : ∀ F ∈ plan.targets, ∀ F' ∈ plan.targets, fs.inode F = fs.inode F' → F = F'
  synths : ∀ p ∈ paths, ∀ F ∈ plan.targets, fs.inode p ≠ fs.inode F

/-- What apply writes is read back: its tags are recognised and its footprints conflict with none.
-/
structure Plan.Rereadable (plan : Plan) (fs : Fs) : Prop where
  written : ∀ it ∈ plan.items, OneLine it.2.app
  tagged : ∀ it ∈ plan.items, tagged (some plan.apps) (beginLine [] it.2.app it.2.anchor) = true
  footprints : ∀ it ∈ plan.items, fs.Scanned it.1 → ∀ cl ∈ (plan.persisted it.2).code, plan.Harmless cl

theorem passOne_of_anchors {groups : List (Str × List Block)} (h : ∀ g ∈ groups, (∃ i, fs.inode g.1 = some i) ∧
    ∀ b ∈ g.2, ∃ l ∈ fs.lines g.1, strip l = anchorComment b.anchor) : passOne fs groups = .ok () := by
  have hnil : groups.flatMap (missingIn fs) = [] := by
    refine flatMap_eq_nil_iff.2 fun g hg => ?_
    obtain ⟨⟨i, hi⟩, hanchors⟩ := h g hg
    rw [missingIn, hi]
    refine map_eq_nil_iff.2 (filter_eq_nil_iff.2 fun a ha => ?_)
    obtain ⟨b, hb, rfl⟩ := mem_map.1 (mem_eraseDups.1 ha)
    obtain ⟨l, hl, hstrip⟩ := hanchors b hb
    intro hnone
    rw [findAnchor, Option.isNone_iff_eq_none, findIdx?_eq_none_iff] at hnone
    exact absurd hstrip (by simpa using hnone l hl)
  rw [passOne, hnil]

theorem appliedTag_of_strip {c : Char} {s : Str} (h : strip l = '#' :: ' ' :: c :: s)
    (hc : isSpace c = false) (hp : startsWith "xmix:footprint ".toList (c :: s) = false) : appliedTag l = none := by
  rw [appliedTag, h, words, scan_hash hc, scan_lit_of_not hp]
  rfl

theorem appliedTag_reindent {i : Str} (hi : ∀ c ∈ i, isSpace c = true) (cl : Str) :
    appliedTag (reindent i cl) = appliedTag cl := by
  rw [appliedTag, strip_reindent hi, appliedTag]

theorem exists_code_of_applied {b : Block} (hw : Word b.anchor)
    {lines : List Str} (hl : l ∈ b.spliced lines) {ws : List Str} (htag : appliedTag l = some ws) :
    ∃ cl ∈ b.code, appliedTag cl = some ws := by
  have hi := indentOf_space (anchorLine lines b.anchor)
  rcases mem_append.1 hl with hl | hl
  · rcases mem_cons.1 hl with rfl | hl
    · have hstrip := @strip_sentinel _ hi _ beginTag (by decide) (by decide) hw b.app
      rw [beginLine, appliedTag_of_strip hstrip (by decide) rfl] at htag
      cases htag
    · obtain ⟨cl, hcl, rfl⟩ := mem_map.1 hl
      exact ⟨cl, hcl, by rwa [appliedTag_reindent hi] at htag⟩
  · have hstrip := @strip_sentinel _ hi _ endTag (by decide) (by decide) hw b.app
    rw [mem_singleton.1 hl, endLine, appliedTag_of_strip hstrip (by decide) rfl] at htag
    cases htag

theorem subset_of_mem_belowGo {cur : Option (List Str)}
    {lines r : List Str} (h : r ∈ belowGo cur lines) : r ⊆ cur.getD [] ++ lines := by
  induction lines generalizing cur with
  | nil =>
    obtain rfl : cur = some r := by simpa [belowGo] using h
    simp
  | cons l lines ih =>
    cases cur with
    | none =>
      rw [belowGo] at h
      split_ifs at h
      · exact subset_cons_of_subset l (ih h)
      · exact ih h
      · cases h
    | some u =>
      rw [belowGo] at h
      rw [Option.getD_some, append_cons]
      split_ifs at h
      · rcases mem_cons.1 h with rfl | h
        · exact subset_append_left _ _
        · exact subset_append_of_subset_right _ (ih h)
      · exact ih h

theorem mem_of_regionsBelow {lines r : List Str} {a : Str} (h : r ∈ regionsBelow lines a) (hl : l ∈ r) : l ∈ lines := by
  unfold regionsBelow at h
  split at h
  · cases h
  · exact mem_of_mem_drop (subset_of_mem_belowGo h hl)

theorem exists_plan_of_ok {dryRun : Bool}
    (h : (cmdApply paths override dryRun fs).2 = .ok ()) : ∃ plan, prepare fs paths override = .ok plan := by
  unfold cmdApply at h
  split at h
  · cases h
  · next plan hprep => exact ⟨plan, hprep⟩

theorem settled_of_newLines (hprep : prepare fs paths override = .ok plan)
    (hnew : ∀ g ∈ byFile plan.items, plan.newLines fs g = .ok (fs.lines g.1))
    (htext : ∀ g ∈ byFile plan.items, ∀ i, fs.inode g.1 = some i → fs.text i = unlines (fs.lines g.1)) :
    Settled paths override fs := by
  have hloc : ∀ g ∈ byFile plan.items, plan.Located fs g := fun g hg => Plan.newLines_ok_iff.1 ⟨_, hnew g hg⟩
  have hok := ok_of_located hprep hloc
  refine ⟨hok, ?_⟩
  rw [(cmdApply_eq_writes hprep hok).1, Plan.rewrites_iff hloc]
  intro pre g post heq i hi hpost
  have hg : g ∈ byFile plan.items := by rw [heq]; simp
  exact ⟨_, hnew g hg, htext g hg i hi⟩

section Twice
variable {fs : Fs} {paths : List Str} {override : Option Str} {plan : Plan} {F : Str}

theorem Plan.Apart.file (hapart : plan.Apart fs paths) (hF : F ∈ plan.targets) :
    ∀ g' ∈ byFile plan.items, fs.inode F = fs.inode g'.1 → F = g'.1 :=
  fun g' hg' => hapart.targets F hF g'.1 (target_of_mem_byFile hg').1

/-- The first apply is accepted, on files and blocks that a second one can read. -/
structure Twice (fs : Fs) (paths : List Str) (override : Option Str) (plan : Plan) : Prop where
  prep : prepare fs paths override = .ok plan
  delim : ∀ F ∈ plan.targets, Delimited (fs.lines F)
  tidy : plan.Tidy
  apart : plan.Apart fs paths

variable (h : Twice fs paths override plan)
include h

theorem oneLine_apps (hone : ∀ it ∈ plan.items, OneLine it.2.app) : ∀ app ∈ plan.apps, OneLine app := by
  have hread := (prepare_eq_ok.1 h.prep).1
  intro app happ
  rw [(of_readPlan hread).1] at happ
  obtain ⟨p, hp, rfl⟩ := mem_map.1 happ
  obtain ⟨it, hit, heq⟩ := exists_item hread hp
  rw [← heq]
  exact hone it hit

theorem tidy_persisted {it : Str × Block} (hit : it ∈ plan.items) : (plan.persisted it.2).Tidy := by
  have hread := read_readPlan (prepare_eq_ok.1 h.prep).1
  refine ⟨by simpa using hread.anchor it hit, fun cl hcl => ?_⟩
  rcases Plan.mem_persisted hcl with hcl | ⟨_, -, fp, -, rfl⟩
  · exact h.tidy it hit cl hcl
  · exact ⟨⟨isBegin_appliedLine _ fp, isEnd_appliedLine _ fp⟩, strip_appliedLine_ne _ fp⟩

theorem batched_target (hF : F ∈ plan.targets) : ∃ lines' ps cs,
    plan.newLines fs (F, blocksFor plan.items F) = .ok lines' ∧
    Batched plan.apps ((blocksFor plan.items F).map plan.persisted) (fs.lines F) lines' ps cs := by
  refine exists_batched plan.apps (h.delim F hF) (fun b' hb' => ?_) fun b' hb' => ?_
  · obtain ⟨b, hb, rfl⟩ := mem_map.1 hb'
    exact tidy_persisted h (mem_blocksFor.1 hb)
  · obtain ⟨b, hb, rfl⟩ := mem_map.1 hb'
    simpa using anchors_of_passOne (prepare_eq_ok.1 h.prep).2.2 (mem_byFile_of_target hF) hb

theorem cmdApply_ok : (cmdApply paths override false fs).2 = .ok () := by
  refine ok_of_located h.prep fun g hg => ?_
  obtain ⟨htg, hblocks⟩ := target_of_mem_byFile hg
  obtain ⟨lines', -, -, hl, -⟩ := batched_target h htg
  rw [← hblocks] at hl
  exact Plan.newLines_ok_iff.1 ⟨lines', hl⟩

theorem text_other {i : Nat} (hi : ∀ F ∈ plan.targets, fs.inode F ≠ some i) :
    (cmdApply paths override false fs).1.text i = fs.text i := by
  rw [(cmdApply_eq_writes h.prep (cmdApply_ok h)).1]
  exact Plan.writes_text_of_ne fun g hg => hi g.1 (target_of_mem_byFile hg).1

theorem readPlan_again : readPlan (cmdApply paths override false fs).1 paths override = .ok plan := by
  rw [← (prepare_eq_ok.1 h.prep).1]
  refine readPlan_congr override fun p hp => ?_
  rw [Fs.readText, Fs.readText, inode_cmdApply h.prep (cmdApply_ok h)]
  cases hi : fs.inode p with
  | none => rfl
  | some i =>
    have htext := text_other h (i := i) fun F hF hFi => h.apart.synths p hp F hF (hi.trans hFi.symm)
    simp [htext]

/-! ### Order and idempotence -/

section OneLine
variable (hone : ∀ it ∈ plan.items, OneLine it.2.app)
include hone

theorem newLines_eq (hF : F ∈ plan.targets) :
    plan.newLines fs (F, blocksFor plan.items F) = .ok ((cmdApply paths override false fs).1.lines F) :=
  lines_cmdApply h.prep (cmdApply_ok h) (oneLine_apps h hone) (mem_byFile_of_target hF)
    (h.apart.file hF)

theorem batched_again (hF : F ∈ plan.targets) : ∃ ps cs,
    Batched plan.apps ((blocksFor plan.items F).map plan.persisted) (fs.lines F)
      ((cmdApply paths override false fs).1.lines F) ps cs := by
  obtain ⟨lines', ps, cs, hnew, hb⟩ := batched_target h hF
  cases hnew.symm.trans (newLines_eq h hone hF)
  exact ⟨ps, cs, hb⟩

theorem stacked_of_oneLine : Stacked fs paths override plan (cmdApply paths override false fs).1 := by
  intro F hF a
  obtain ⟨ps, cs, hb⟩ := batched_again h hone hF
  obtain ⟨happs, hitems⟩ := of_readPlan (prepare_eq_ok.1 h.prep).1
  rw [hb.below, ← happs, ← hitems, blocksFor]
  simp only [filter_map, map_map, filter_filter, Function.comp_def, Plan.persisted_anchor]
  congr 3
  funext it
  rw [Bool.eq_iff_iff]
  simp [and_comm]

theorem anchors_again (hF : F ∈ plan.targets) : ∀ b ∈ blocksFor plan.items F,
    ∃ l ∈ (cmdApply paths override false fs).1.lines F, strip l = anchorComment b.anchor := by
  intro b hb
  obtain ⟨ps, cs, hbatch⟩ := batched_again h hone hF
  exact hbatch.anchor_mem (anchors_of_passOne (prepare_eq_ok.1 h.prep).2.2 (mem_byFile_of_target hF) hb)

theorem passOne_again : passOne (cmdApply paths override false fs).1 (byFile plan.items) = .ok () := by
  refine passOne_of_anchors fun g hg => ?_
  obtain ⟨hF, hblocks⟩ := target_of_mem_byFile hg
  rw [inode_cmdApply h.prep (cmdApply_ok h), hblocks]
  exact ⟨inode_of_passOne (prepare_eq_ok.1 h.prep).2.2 hg, anchors_again h hone hF⟩

theorem mem_lines_again {F l : Str} (hl : l ∈ (cmdApply paths override false fs).1.lines F) : l ∈ fs.lines F ∨
    ∃ it ∈ plan.items, fs.inode F = fs.inode it.1 ∧ l ∈ (plan.persisted it.2).spliced (fs.lines it.1) := by
  have hinode := inode_cmdApply h.prep (cmdApply_ok h)
  by_cases ht : ∃ F' ∈ plan.targets, fs.inode F = fs.inode F'
  · obtain ⟨F', hF', hsame⟩ := ht
    have hlines : ∀ fs'' : Fs, fs''.inode = fs.inode → fs''.lines F = fs''.lines F' := fun fs'' h => by
      rw [Fs.lines, Fs.lines, h, hsame]
    rw [hlines _ hinode] at hl
    obtain ⟨ps, cs, hb⟩ := batched_again h hone hF'
    rcases hb.mem_iff.1 hl with ⟨b', hb', hl⟩ | hl
    · obtain ⟨b, hb, rfl⟩ := mem_map.1 hb'
      exact .inr ⟨(F', b), mem_blocksFor.1 hb, hsame, hl⟩
    · rw [hlines fs rfl]
      exact .inl (stripGo_subset _ _ _ hl)
  · refine .inl ?_
    rwa [Fs.lines_congr (congrFun hinode F) fun i hi => ?_] at hl
    exact text_other h fun F' hF' hi' => ht ⟨F', hF', hi.trans hi'.symm⟩

theorem mem_lines_of_spliced {it : Str × Block} (hit : it ∈ plan.items)
    (hl : l ∈ (plan.persisted it.2).spliced (fs.lines it.1)) :
    l ∈ (cmdApply paths override false fs).1.lines it.1 := by
  obtain ⟨ps, cs, hb⟩ := batched_again h hone (mem_map_of_mem hit)
  exact hb.mem_iff.2 (.inl ⟨_, mem_map_of_mem (mem_blocksFor.2 hit), hl⟩)

theorem checkConflicts_again : checkConflicts (cmdApply paths override false fs).1 plan = .ok () ↔
    ∀ it ∈ plan.items, fs.Scanned it.1 → ∀ cl ∈ (plan.persisted it.2).code, plan.Harmless cl := by
  obtain ⟨hpair, hfirst⟩ := checkConflicts_eq_ok.1 (prepare_eq_ok.1 h.prep).2.1
  have hinode := inode_cmdApply h.prep (cmdApply_ok h)
  rw [checkConflicts_eq_ok]
  constructor
  · rintro ⟨-, hlines⟩ it hit ⟨F, hF, hsame⟩ cl hcl ws hws
    have hi := indentOf_space (anchorLine (fs.lines it.1) (plan.persisted it.2).anchor)
    have hmem : reindent _ cl ∈ (plan.persisted it.2).spliced (fs.lines it.1) :=
      mem_append_left _ (mem_cons_of_mem _ (mem_map_of_mem hcl))
    have hread := mem_lines_of_spliced h hone hit hmem
    refine hlines F hF _ ?_ ws ((appliedTag_reindent hi cl).trans hws)
    rwa [Fs.lines, hinode, hsame, ← hinode]
  · intro hcode
    refine ⟨hpair, fun F hF l hl ws hws => ?_⟩
    rcases mem_lines_again h hone hl with hl | ⟨it, hit, hsame, hl⟩
    · exact hfirst F hF l hl ws hws
    · obtain ⟨cl, hcl, htag⟩ := exists_code_of_applied (tidy_persisted h hit).anchor hl hws
      exact hcode it hit ⟨F, hF, hsame⟩ cl hcl ws htag

theorem newLines_again (hF : F ∈ plan.targets) : plan.newLines (cmdApply paths override false fs).1
      (F, blocksFor plan.items F) = .ok ((cmdApply paths override false fs).1.lines F) ↔
    ∀ b ∈ blocksFor plan.items F, tagged (some plan.apps) (beginLine [] b.app b.anchor) = true := by
  obtain ⟨ps, cs, hb⟩ := batched_again h hone hF
  constructor
  · intro hagain b hmem
    have htag := hb.tagged_of_again (fun b' hb' => ?_) (fun b' hb' => ?_) hagain _ (mem_map_of_mem hmem)
    · simpa using htag
    · obtain ⟨b, hb, rfl⟩ := mem_map.1 hb'
      exact tidy_persisted h (mem_blocksFor.1 hb)
    · obtain ⟨b, hb, rfl⟩ := mem_map.1 hb'
      simpa using anchors_again h hone hF b hb
  · intro htag
    refine hb.again (fun b' hb' => ?_) (newLines_eq h hone hF)
    obtain ⟨b, hb, rfl⟩ := mem_map.1 hb'
    simpa using htag b hb

section
variable (hprep₂ : prepare (cmdApply paths override false fs).1 paths override = .ok plan)
include hprep₂

theorem settled_of_tagged
    (htag : ∀ it ∈ plan.items, tagged (some plan.apps) (beginLine [] it.2.app it.2.anchor) = true) :
    Settled paths override (cmdApply paths override false fs).1 := by
  have hok := cmdApply_ok h
  have hnew : ∀ g ∈ byFile plan.items, plan.newLines (cmdApply paths override false fs).1 g =
      .ok ((cmdApply paths override false fs).1.lines g.1) := by
    intro g hg
    obtain ⟨hF, hblocks⟩ := target_of_mem_byFile hg
    have := (newLines_again h hone hF).2 fun b hb => htag (g.1, b) (mem_blocksFor.1 hb)
    rwa [← hblocks] at this
  refine settled_of_newLines hprep₂ hnew fun g hg i hi => ?_
  obtain ⟨hF, hblocks⟩ := target_of_mem_byFile hg
  have hfirst := newLines_eq h hone hF
  rw [← hblocks] at hfirst
  rw [inode_cmdApply h.prep hok] at hi
  exact text_cmdApply h.prep hok hg (h.apart.file hF) hi hfirst

theorem tagged_of_settled
    (hs : Settled paths override (cmdApply paths override false fs).1) :
    ∀ it ∈ plan.items, tagged (some plan.apps) (beginLine [] it.2.app it.2.anchor) = true := by
  intro it hit
  have hF : it.1 ∈ plan.targets := mem_map_of_mem hit
  have hinode := inode_cmdApply h.prep (cmdApply_ok h)
  have hnew :=
    lines_cmdApply hprep₂ hs.1 (oneLine_apps h hone) (mem_byFile_of_target hF) (by rw [hinode]; exact h.apart.file hF)
  have hsame : (cmdApply paths override false (cmdApply paths override false fs).1).1.lines it.1 =
      (cmdApply paths override false fs).1.lines it.1 :=
    Fs.lines_congr (congrFun (inode_cmdApply hprep₂ hs.1) _) fun i _ => congrFun hs.2 i
  rw [hsame] at hnew
  exact (newLines_again h hone hF).1 hnew it.2 (mem_blocksFor.2 hit)

end

end OneLine

omit h in
/-- The batch is stacked in order and applying it again changes nothing, exactly when the second
apply recognises every line it has to: sentinels that name an app of the batch, footprints that are
its own. -/
theorem stacked_settled_iff (hprep : prepare fs paths override = .ok plan)
    (hdelim : ∀ F ∈ plan.targets, Delimited (fs.lines F))
    (htidy : plan.Tidy) (hapart : plan.Apart fs paths) : (cmdApply paths override false fs).2 = .ok () ∧
    (Stacked fs paths override plan (cmdApply paths override false fs).1 ∧
      Settled paths override (cmdApply paths override false fs).1 ↔
      plan.Rereadable fs) := by
  have h : Twice fs paths override plan := ⟨hprep, hdelim, htidy, hapart⟩
  have hok := cmdApply_ok h
  refine ⟨hok, ?_⟩
  constructor
  · rintro ⟨hstack, hok₂, htext₂⟩
    have hone : ∀ it ∈ plan.items, OneLine it.2.app := by
      intro it hit
      have hitems := (of_readPlan (prepare_eq_ok.1 hprep).1).2
      have hmem : (plan.persisted it.2).spliced (fs.lines it.1) ∈
          regionsBelow ((cmdApply paths override false fs).1.lines it.1) it.2.anchor := by
        rw [hstack it.1 (mem_map_of_mem hit)]
        refine mem_append_right _ (mem_map.2 ⟨it, mem_filter.2 ⟨hitems ▸ hit, by simp⟩, rfl⟩)
      have hbegin := oneLine_lines _ _ _ (mem_of_regionsBelow hmem (mem_append_left _ mem_cons_self))
      rw [Plan.persisted_app, beginLine] at hbegin
      exact (oneLine_append.1 (oneLine_append.1 hbegin).1).2
    obtain ⟨plan₂, hprep₂⟩ := exists_plan_of_ok hok₂
    obtain ⟨hread₂, hcheck₂, -⟩ := prepare_eq_ok.1 hprep₂
    cases (readPlan_again h).symm.trans hread₂
    exact ⟨hone, tagged_of_settled h hone hprep₂ ⟨hok₂, htext₂⟩,
      (checkConflicts_again h hone).1 hcheck₂⟩
  · rintro ⟨hone, htag, hfps⟩
    have hprep₂ : prepare (cmdApply paths override false fs).1 paths override = .ok plan :=
      prepare_eq_ok.2 ⟨readPlan_again h, (checkConflicts_again h hone).2 hfps,
        passOne_again h hone⟩
    exact ⟨stacked_of_oneLine h hone, settled_of_tagged h hone hprep₂ htag⟩

end Twice

theorem rereadable_of_appId (hread : plan.Read) (happ : ∀ app ∈ plan.apps, AppId app)
    (hcode : ∀ it ∈ plan.items, ∀ cl ∈ it.2.code, appliedTag cl = none) (fs : Fs) : plan.Rereadable fs := by
  refine ⟨fun it hit => oneLine_of_appId (happ _ (hread.app it hit)), fun it hit => ?_,
    fun it hit _ cl hcl ws hws => ?_⟩
  · have ha := happ _ (hread.app it hit)
    simp only [tagged, strip_beginLine (i := []) (by simp) ha.1 ha.2, split_beginLine ha.1 ha.2]
    simpa using hread.app it hit
  · rcases Plan.mem_persisted hcl with hcl | ⟨fps, hfps, fp, hfp, rfl⟩
    · rw [hcode it hit cl hcl] at hws
      cases hws
    have ha : AppId it.2.app := happ _ (hread.app it hit)
    obtain ⟨hflag, hsub⟩ := hread.fps _ hfps fp hfp
    by_cases hlayers : fp.layers = .set []
    · rw [appliedTag_of_no_layers ha hflag hsub hlayers] at hws
      cases hws
    · obtain ⟨hword, layers, hparse, -⟩ := parseLayers_layersStr hlayers
      rw [appliedTag_appliedLine ha hflag hsub hword] at hws
      cases hws
      refine ⟨(it.2.app, ⟨fp.flag, fp.submodule, layers⟩), ?_, .inl (hread.app it hit)⟩
      simp [parseApplied, parseFootprint, hparse]

def stackFs (first : Str) : Fs where
  inode path := if path = first then some 0 else if path = "b_synth.py".toList then some 1
    else if path = "f.py".toList then some 2 else none
  text i :=
    if i = 0 then "# >>> XMIX-APPLY file=f.py anchor=r <<<\nx = 1\n".toList
    else if i = 1 then "# >>> XMIX-APPLY file=f.py anchor=r <<<\ny = 2\n".toList
    else "  # xmix:anchor r\n\n  # xmix:begin c r\n  z = 3\n  # xmix:end c r\n".toList
  out := []

def stackPlan : Plan where
  items := [("f.py".toList, ⟨"r".toList, "a".toList, ["x = 1".toList]⟩),
    ("f.py".toList, ⟨"r".toList, "b".toList, ["y = 2".toList]⟩)]
  apps := ["a".toList, "b".toList]
  fps := [("a".toList, []), ("b".toList, [])]

theorem stackPlan_tidy : stackPlan.Tidy := by
  have hcode : ∀ it ∈ stackPlan.items, ∀ cl ∈ it.2.code, Plain cl ∧ (strip cl).head? ≠ some '#' := by
    simp only [Plain]; decide
  intro it hit cl hcl
  obtain ⟨hplain, hhead⟩ := hcode it hit cl hcl
  refine ⟨hplain, fun a h => hhead ?_⟩
  rw [h]
  rfl

theorem stackFs_delimited : Delimited ((stackFs "a_synth.py".toList).lines "f.py".toList) := by
  have hlines : (stackFs "a_synth.py".toList).lines "f.py".toList =
    ["  # xmix:anchor r".toList, [], "  # xmix:begin c r".toList,
      "  z = 3".toList, "  # xmix:end c r".toList] := by decide +kernel
  have hplain : Plain "  z = 3".toList ∧ Plain "  # xmix:anchor r".toList ∧ Plain [] := by simp only [Plain]; decide
  have hbody : ∀ l ∈ ["  z = 3".toList], Plain l ∧ ∀ a, strip l ≠ anchorComment a := by
    intro l hl
    obtain rfl := mem_singleton.1 hl
    refine ⟨hplain.1, fun a h => ?_⟩
    have hhead : (strip "  z = 3".toList).head? ≠ some '#' := by decide
    exact hhead (by rw [h]; rfl)
  refine ⟨[.line "  # xmix:anchor r".toList hplain.2.1, .line [] hplain.2.2,
    .chunk ⟨"  # xmix:begin c r".toList, ["  z = 3".toList], "  # xmix:end c r".toList, by decide, by decide,
      fun l hl => (hbody l hl).1, fun l hl => (hbody l hl).2⟩], ?_⟩
  rw [hlines]
  rfl

theorem stackFs_stacked : prepare (stackFs "a_synth.py".toList)
      ["a_synth.py".toList, "b_synth.py".toList] none = .ok stackPlan ∧
    Stacked (stackFs "a_synth.py".toList) ["a_synth.py".toList, "b_synth.py".toList] none stackPlan
      (cmdApply ["a_synth.py".toList, "b_synth.py".toList] none false (stackFs "a_synth.py".toList)).1 ∧
    Settled ["a_synth.py".toList, "b_synth.py".toList] none
      (cmdApply ["a_synth.py".toList, "b_synth.py".toList] none false (stackFs "a_synth.py".toList)).1 := by
  have hprep : prepare (stackFs "a_synth.py".toList)
    ["a_synth.py".toList, "b_synth.py".toList] none = .ok stackPlan := by
    decide +kernel
  have htarget : ∀ F ∈ stackPlan.targets, F = "f.py".toList := by decide
  have hapart : stackPlan.Apart (stackFs "a_synth.py".toList) ["a_synth.py".toList, "b_synth.py".toList] := by
    refine ⟨fun F hF F' hF' _ => by rw [htarget F hF, htarget F' hF'], fun p hp F hF => ?_⟩
    rw [htarget F hF]
    revert p
    decide
  have happ : ∀ app ∈ stackPlan.apps, AppId app := by simp only [AppId]; decide
  have hcode : ∀ it ∈ stackPlan.items, ∀ cl ∈ it.2.code, appliedTag cl = none := by decide
  refine ⟨hprep, (stacked_settled_iff hprep (fun F hF => ?_) stackPlan_tidy hapart).2.2
    (rereadable_of_appId (read_readPlan (prepare_eq_ok.1 hprep).1) happ hcode _)⟩
  rw [htarget F hF]
  exact stackFs_delimited

/-- The region of `my app` is not recognised by the second apply, which stacks another. -/
theorem spacedId_stacked_twice :
    let fs := (cmdApply ["my app_synth.py".toList] none false (stackFs "my app_synth.py".toList)).1
    let fs' := (cmdApply ["my app_synth.py".toList] none false fs).1
    fs.lines "f.py".toList = ["  # xmix:anchor r".toList, [], "  # xmix:begin c r".toList,
      "  z = 3".toList, "  # xmix:end c r".toList,
      "  # xmix:begin my app r".toList, "  x = 1".toList, "  # xmix:end my app r".toList] ∧
    (cmdApply ["my app_synth.py".toList] none false fs).2 = .ok () ∧
    fs'.lines "f.py".toList = fs.lines "f.py".toList ++
      ["  # xmix:begin my app r".toList, "  x = 1".toList, "  # xmix:end my app r".toList] ∧
    ¬ Settled ["my app_synth.py".toList] none fs := by
  have hlines : let fs := (cmdApply ["my app_synth.py".toList] none false (stackFs "my app_synth.py".toList)).1
      let fs' := (cmdApply ["my app_synth.py".toList] none false fs).1
      ((fs.lines "f.py".toList = ["  # xmix:anchor r".toList, [], "  # xmix:begin c r".toList,
        "  z = 3".toList, "  # xmix:end c r".toList,
        "  # xmix:begin my app r".toList, "  x = 1".toList, "  # xmix:end my app r".toList] ∧
      (cmdApply ["my app_synth.py".toList] none false fs).2 = .ok ()) ∧
      fs'.lines "f.py".toList = fs.lines "f.py".toList ++
        ["  # xmix:begin my app r".toList, "  x = 1".toList, "  # xmix:end my app r".toList]) ∧
          fs'.text 2 ≠ fs.text 2 := by
    decide +kernel
  obtain ⟨⟨⟨hfirst, hok⟩, hsecond⟩, htext⟩ := hlines
  exact ⟨hfirst, hok, hsecond, fun hsettled => htext (congrFun hsettled.2 2)⟩

end Xmix.Apply
