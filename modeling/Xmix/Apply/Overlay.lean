import Xmix.Apply.Cuts

/-!
# The overlay: a file as plain lines and regions

`Seg` is what a patched file is for: lines of the user's source and, between them, whole sentinel
regions. A region carries what keeps the two scanners of `apply.py` apart: its code holds no
sentinel line and no anchor comment, and its app id is one word. On rendered files the scanners
are the obvious operations on segments (`stripAppRegions_render`, `insertStacked_render`), so
regions never nest and anchors stay outside them, whatever sequence of applies and reverts is run.
-/

namespace Xmix.Apply

open List
open PyStr

def AppId (app : Str) : Prop := app ≠ [] ∧ ∀ c ∈ app, isSpace c = false

variable (appIds : Option (List Str))

def strips (app : Str) : Bool :=
  match appIds with
  | none => true
  | some ids => ids.contains app

structure Region (Anchor : Str → Prop) where
  indent : Str
  app : Str
  anchor : Str
  code : List Str
  indent_space : ∀ c ∈ indent, isSpace c = true
  appId : AppId app
  plain : ∀ cl ∈ code, Plain cl
  noAnchor : ∀ cl ∈ code, ∀ a, Anchor a → strip cl ≠ anchorComment a

inductive Seg (Anchor : Str → Prop) where
  | line (l : Str) (plain : Plain l)
  | region (r : Region Anchor)

variable {Anchor : Str → Prop}

namespace Region

def lines (r : Region Anchor) : List Str := block r.indent r.app r.anchor r.code

variable (r : Region Anchor)

theorem isBegin_begin : isBegin (beginLine r.indent r.app r.anchor) = true := by
  rw [isBegin, strip_beginLine r.indent_space r.appId.1 r.appId.2, append_assoc]
  exact startsWith_append _ _

theorem isEnd_end : isEnd (endLine r.indent r.app r.anchor) = true := by
  rw [isEnd, strip_endLine r.indent_space r.appId.1 r.appId.2, append_assoc]
  exact startsWith_append _ _

theorem tagged_begin (appIds : Option (List Str)) :
    tagged appIds (beginLine r.indent r.app r.anchor) = strips appIds r.app := by
  cases appIds with
  | none => rfl
  | some ids =>
    simp only [tagged, strip_beginLine r.indent_space r.appId.1 r.appId.2, split_beginLine r.appId.1 r.appId.2]
    rfl

theorem plain_body : ∀ l ∈ r.code.map (reindent r.indent), Plain l := by
  intro l hl
  obtain ⟨cl, hcl, rfl⟩ := mem_map.1 hl
  simp only [Plain, isBegin, isEnd, strip_reindent r.indent_space]
  exact r.plain cl hcl

def delim : Delim :=
  ⟨beginLine r.indent r.app r.anchor, r.code.map (reindent r.indent), endLine r.indent r.app r.anchor,
    r.isBegin_begin, r.isEnd_end, r.plain_body⟩

theorem strip_ne_anchor {l a : Str} (ha : Anchor a) (h : l ∈ r.lines) : strip l ≠ anchorComment a := by
  refine r.delim.strip_ne_anchor (fun l hl => ?_) h
  obtain ⟨cl, hcl, rfl⟩ := mem_map.1 hl
  rw [strip_reindent r.indent_space]
  exact r.noAnchor cl hcl a ha

end Region

namespace Seg

def lines : Seg Anchor → List Str
  | .line l _ => [l]
  | .region r => r.lines

def own : Seg Anchor → Option Str
  | .line l _ => some l
  | .region _ => none

def kept (appIds : Option (List Str)) : Seg Anchor → Bool
  | .line _ _ => true
  | .region r => !strips appIds r.app

def passed : Seg Anchor → Bool
  | .line l _ => (strip l).isEmpty
  | .region _ => true

def cutting : Cutting (Seg Anchor) :=
  ⟨lines, own, fun
    | .line l h => .inl ⟨l, h, rfl, rfl⟩
    | .region r => .inr ⟨r.delim, rfl, rfl⟩⟩

theorem kept_eq (appIds : Option (List Str)) :
    ∀ s : Seg Anchor, s.kept appIds = (s.own.isSome || !tagged appIds (s.lines.headD []))
  | .line _ _ => rfl
  | .region r => by
    rw [kept, ← r.tagged_begin]
    rfl

theorem strip_ne_anchor {a : Str} (ha : Anchor a) :
    ∀ s : Seg Anchor, s.own = none → ∀ l ∈ s.lines, strip l ≠ anchorComment a
  | .region r, _, _, hl => r.strip_ne_anchor ha hl

end Seg

def render (segs : List (Seg Anchor)) : List Str := segs.flatMap Seg.lines

def ownLines (segs : List (Seg Anchor)) : List Str := segs.filterMap Seg.own

@[simp] theorem render_cons (s : Seg Anchor) (segs : List (Seg Anchor)) : render (s :: segs) = s.lines ++ render segs :=
  rfl

@[simp] theorem ownLines_line (l : Str) (h : Plain l) (segs : List (Seg Anchor)) :
    ownLines (.line l h :: segs) = l :: ownLines segs := rfl

variable (r : Region Anchor)

variable {lines orig : List Str} {segs : List (Seg Anchor)}

theorem exists_segs_of_plain (h : ∀ l ∈ orig, Plain l) :
    ∃ segs : List (Seg Anchor), render segs = orig ∧ ownLines segs = orig := by
  induction orig with
  | nil => exact ⟨[], rfl, rfl⟩
  | cons l orig ih =>
    obtain ⟨segs, hr, ho⟩ := ih fun l hl => h l (by simp [hl])
    exact ⟨.line l (h l (by simp)) :: segs, by simp [Seg.lines, hr], by simp [ho]⟩

/-! ### Stripping -/

variable (segs)

theorem stripAppRegions_render (appIds : Option (List Str)) :
    stripAppRegions (render segs) appIds = render (segs.filter (Seg.kept appIds)) :=
  Seg.cutting.strip_render (Seg.kept_eq appIds)

theorem ownLines_filter_kept (appIds : Option (List Str)) :
    ownLines (segs.filter (Seg.kept appIds)) = ownLines segs :=
  Seg.cutting.ownLines_filter (Seg.kept_eq appIds)

theorem stripAppRegions_render_none :
    stripAppRegions (render segs) none = ownLines segs := by
  rw [stripAppRegions_render]
  induction segs with
  | nil => rfl
  | cons s segs ih =>
    cases s with
    | line l hl => exact congrArg (l :: ·) ih
    | region r => exact ih

variable {segs}

/-! ### Inserting -/

structure Block where
  anchor : Str
  app : Str
  code : List Str
deriving DecidableEq, Repr

structure Block.Ok (Anchor : Str → Prop) (b : Block) : Prop where
  appId : AppId b.app
  anchor : Anchor b.anchor
  plain : ∀ cl ∈ b.code, Plain cl
  noAnchor : ∀ cl ∈ b.code, ∀ a, Anchor a → strip cl ≠ anchorComment a

variable (b : Block)

def Block.region (h : b.Ok Anchor) (l : Str) : Region Anchor :=
  ⟨indentOf l, b.app, b.anchor, b.code, indentOf_space l, h.appId, h.plain, h.noAnchor⟩

def stackBelow (r : Region Anchor) : List (Seg Anchor) → List (Seg Anchor)
  | [] => [.region r]
  | s :: segs => if s.passed then s :: stackBelow r segs else .region r :: s :: segs

def insertSeg (b : Block) (h : b.Ok Anchor) : List (Seg Anchor) → List (Seg Anchor)
  | [] => []
  | .line l p :: segs =>
    if strip l = anchorComment b.anchor then .line l p :: stackBelow (b.region h l) segs
    else .line l p :: insertSeg b h segs
  | .region r :: segs => .region r :: insertSeg b h segs

theorem insertSeg_eq (h : b.Ok Anchor) (segs : List (Seg Anchor)) :
    insertSeg b h segs = Seg.cutting.insert (fun l => .region (b.region h l)) b.anchor segs := by
  have hstack : ∀ r (segs : List (Seg Anchor)), stackBelow r segs = Seg.cutting.stack (.region r) segs :=
    fun r segs => by
    induction segs with
    | nil => rfl
    | cons s segs ih =>
      rw [stackBelow, ih]
      cases s <;> rfl
  induction segs with
  | nil => rfl
  | cons s segs ih =>
    cases s with
    | line l hp =>
      rw [insertSeg, ih, hstack]
      rfl
    | region r =>
      rw [insertSeg, ih]
      rfl

section Insert
variable {b} (h : b.Ok Anchor) (hl : ∃ l ∈ ownLines segs, strip l = anchorComment b.anchor)
include hl

theorem insertStacked_render :
    insertStacked (render segs) b.anchor b.app b.code = .ok (render (insertSeg b h segs)) := by
  rw [insertSeg_eq]
  exact Seg.cutting.insertStacked_render hl (fun s _ => s.strip_ne_anchor h.anchor) rfl

theorem exists_insertSeg : ∃ u v, segs = u ++ v ∧
      insertSeg b h segs = u ++ .region (b.region h (anchorLine (ownLines segs) b.anchor)) :: v := by
  rw [insertSeg_eq]
  exact Seg.cutting.inserts_insert hl _

theorem ownLines_insertSeg : ownLines (insertSeg b h segs) = ownLines segs := by
  obtain ⟨u, v, rfl, heq⟩ := exists_insertSeg h hl
  rw [heq, ownLines, ownLines, filterMap_append, filterMap_append]
  rfl

end Insert

variable (segs)

theorem anchorLine_render {a : Str} (ha : Anchor a) : anchorLine (render segs) a = anchorLine (ownLines segs) a :=
  Seg.cutting.anchorLine_render fun s _ => s.strip_ne_anchor ha

def regionsOf : List (Region Anchor) :=
  segs.filterMap fun
    | .line _ _ => none
    | .region r => some r

@[simp] theorem regionsOf_line (l : Str) (h : Plain l) (segs : List (Seg Anchor)) :
    regionsOf (.line l h :: segs) = regionsOf segs := rfl

@[simp] theorem regionsOf_region (segs : List (Seg Anchor)) :
    regionsOf (.region r :: segs) = r :: regionsOf segs := rfl

theorem regionsOf_filter_kept (appIds : Option (List Str)) :
    regionsOf (segs.filter (Seg.kept appIds)) = (regionsOf segs).filter fun r => !strips appIds r.app := by
  induction segs with
  | nil => rfl
  | cons s segs ih =>
    cases s with
    | line l hl => exact ih
    | region r =>
      rw [filter_cons, regionsOf_region, filter_cons]
      cases h : strips appIds r.app <;> simp [Seg.kept, h, ih]

variable {segs}

theorem regionsOf_insertSeg (h : b.Ok Anchor)
    (hl : ∃ l ∈ ownLines segs, strip l = anchorComment b.anchor) :
    (regionsOf (insertSeg b h segs)).Perm (b.region h (anchorLine (ownLines segs) b.anchor) :: regionsOf segs) := by
  obtain ⟨u, v, hseg, heq⟩ := exists_insertSeg h hl
  rw [heq, hseg, regionsOf, regionsOf, filterMap_append, filterMap_append]
  exact perm_middle

/-! ### Runs of applies and reverts on one file -/

inductive Op where
  | apply (appIds : List Str) (blocks : List Block)
  | revert (appIds : Option (List Str))

def Op.blocks : Op → List Block
  | .apply _ bs => bs
  | .revert _ => []

def applyBatch (appIds : List Str) (blocks : List Block) (lines : List Str) : Except Exc (List Str) :=
  blocks.foldlM (fun ls b => insertStacked ls b.anchor b.app b.code) (stripAppRegions lines (some appIds))

def Op.run (op : Op) (lines : List Str) : Except Exc (List Str) :=
  match op with
  | .apply appIds blocks => applyBatch appIds blocks lines
  | .revert appIds => .ok (stripAppRegions lines appIds)

def runOps (ops : List Op) (lines : List Str) : Except Exc (List Str) :=
  ops.foldlM (fun ls op => op.run ls) lines

def Overlaid (Anchor : Str → Prop) (orig lines : List Str) : Prop :=
  ∃ segs : List (Seg Anchor), lines = render segs ∧ ownLines segs = orig

theorem Overlaid.stripped (h : Overlaid Anchor orig lines) (appIds : Option (List Str)) :
    Overlaid Anchor orig (stripAppRegions lines appIds) := by
  obtain ⟨segs, rfl, ho⟩ := h
  exact ⟨segs.filter (Seg.kept appIds), stripAppRegions_render segs appIds, by rw [ownLines_filter_kept, ho]⟩

def Block.spliced (orig : List Str) : List Str := block (indentOf (anchorLine orig b.anchor)) b.app b.anchor b.code

theorem stack_render {blocks : List Block} (hok : ∀ b ∈ blocks, b.Ok Anchor)
    (ha : ∀ b ∈ blocks, ∃ l ∈ ownLines segs, strip l = anchorComment b.anchor) :
    ∃ segs' : List (Seg Anchor), blocks.foldlM (fun ls b => insertStacked ls b.anchor b.app b.code)
      (render segs) = .ok (render segs') ∧
      ownLines segs' = ownLines segs ∧
      ((regionsOf segs').map fun r => (r.app, r.lines)).Perm
        (blocks.map (fun b => (b.app, b.spliced (ownLines segs))) ++
          (regionsOf segs).map fun r => (r.app, r.lines)) := by
  induction blocks generalizing segs with
  | nil => exact ⟨segs, rfl, rfl, .refl _⟩
  | cons b blocks ih =>
    have hb : b.Ok Anchor := hok b (by simp)
    have hown := ownLines_insertSeg hb (ha b (by simp))
    obtain ⟨segs', hrun, hown', hperm⟩ := @ih (insertSeg b hb segs) (fun b' hb' => hok b' (by simp [hb']))
      (fun b' hb' => by rw [hown]; exact ha b' (by simp [hb']))
    refine ⟨segs', ?_, hown'.trans hown, hperm.trans ?_⟩
    · rw [foldlM_cons, insertStacked_render hb (ha b (by simp))]; exact hrun
    · rw [hown]
      have hnew := (regionsOf_insertSeg b hb (ha b (by simp))).map fun r => (r.app, r.lines)
      exact (hnew.append_left _).trans perm_middle

section
variable (h : Overlaid Anchor orig lines)
include h

theorem Overlaid.stacked {blocks : List Block}
    (hok : ∀ b ∈ blocks, b.Ok Anchor) (ha : ∀ b ∈ blocks, ∃ l ∈ orig, strip l = anchorComment b.anchor) :
    ∃ lines', blocks.foldlM (fun ls b => insertStacked ls b.anchor b.app b.code) lines = .ok lines' ∧
      Overlaid Anchor orig lines' := by
  obtain ⟨segs, rfl, rfl⟩ := h
  obtain ⟨segs', hrun, hown, -⟩ := stack_render hok ha
  exact ⟨render segs', hrun, segs', rfl, hown⟩

theorem Overlaid.step (op : Op)
    (hok : ∀ b ∈ op.blocks, b.Ok Anchor) (ha : ∀ b ∈ op.blocks, ∃ l ∈ orig, strip l = anchorComment b.anchor) :
    ∃ lines', op.run lines = .ok lines' ∧ Overlaid Anchor orig lines' := by
  cases op with
  | apply appIds blocks => exact (h.stripped (some appIds)).stacked hok ha
  | revert appIds => exact ⟨_, rfl, h.stripped appIds⟩

theorem Overlaid.run {ops : List Op}
    (hok : ∀ op ∈ ops, ∀ b ∈ op.blocks, b.Ok Anchor)
    (ha : ∀ op ∈ ops, ∀ b ∈ op.blocks, ∃ l ∈ orig, strip l = anchorComment b.anchor) :
    ∃ lines', runOps ops lines = .ok lines' ∧ Overlaid Anchor orig lines' := by
  induction ops generalizing lines with
  | nil => exact ⟨lines, rfl, h⟩
  | cons op ops ih =>
    obtain ⟨mid, hstep, hmid⟩ := h.step op (hok op (by simp)) (ha op (by simp))
    obtain ⟨lines', hrun, hov⟩ := ih hmid (fun o ho => hok o (by simp [ho])) (fun o ho => ha o (by simp [ho]))
    exact ⟨lines', by rw [runOps, foldlM_cons, hstep]; exact hrun, hov⟩

end

def usedAnchor (ops : List Op) (a : Str) : Prop := ∃ op ∈ ops, ∃ b ∈ op.blocks, b.anchor = a

/-- Over a whole run from a file without sentinels, whose blocks are addressed to anchors of that
file and hold no sentinel or anchor line: no operation fails, reverting everything gives back the
file, and reverting a set of apps removes exactly their regions. -/
theorem overlay_lossless (orig : List Str) (ops : List Op) (horig : ∀ l ∈ orig, Plain l)
    (happ : ∀ op ∈ ops, ∀ b ∈ op.blocks, AppId b.app)
    (hanchor : ∀ op ∈ ops, ∀ b ∈ op.blocks, ∃ l ∈ orig, strip l = anchorComment b.anchor)
    (hcode : ∀ op ∈ ops, ∀ b ∈ op.blocks, ∀ cl ∈ b.code,
      Plain cl ∧ ∀ a, usedAnchor ops a → strip cl ≠ anchorComment a) :
    ∃ lines, runOps ops orig = .ok lines ∧ stripAppRegions lines none = orig ∧
      (∃ segs : List (Seg (usedAnchor ops)), lines = render segs ∧ ownLines segs = orig) ∧
      ∀ segs : List (Seg (usedAnchor ops)), lines = render segs →
        ∀ appIds, stripAppRegions lines appIds = render (segs.filter (Seg.kept appIds)) := by
  have hok : ∀ op ∈ ops, ∀ b ∈ op.blocks, b.Ok (usedAnchor ops) := fun op ho b hb =>
    ⟨happ op ho b hb, ⟨op, ho, b, hb, rfl⟩, fun cl hcl => (hcode op ho b hb cl hcl).1,
      fun cl hcl => (hcode op ho b hb cl hcl).2⟩
  have hov : Overlaid (usedAnchor ops) orig orig := by
    obtain ⟨segs₀, hr₀, ho₀⟩ := exists_segs_of_plain horig
    exact ⟨segs₀, hr₀.symm, ho₀⟩
  obtain ⟨lines, hrun, segs, hl, ho⟩ := hov.run hok hanchor
  refine ⟨lines, hrun, ?_, ⟨segs, hl, ho⟩, ?_⟩
  · rw [hl, stripAppRegions_render_none, ho]
  · rintro segs' rfl appIds
    exact stripAppRegions_render segs' appIds

def sampleOps : List Op :=
  [.apply ["a".toList, "b".toList]
    [⟨"setup".toList, "a".toList, ["x = 1".toList, []]⟩, ⟨"setup".toList, "b".toList, ["y = 2".toList]⟩],
    .revert (some ["a".toList]), .apply ["b".toList] [⟨"setup".toList, "b".toList, ["y = 3".toList]⟩]]

theorem overlay_lossless_sample :
    ∃ lines, runOps sampleOps ["def f():".toList, "  # xmix:anchor setup".toList, [], "  return 1".toList] = .ok lines ∧
      stripAppRegions lines none = ["def f():".toList, "  # xmix:anchor setup".toList, [], "  return 1".toList] := by
  have hblocks : ∀ op ∈ sampleOps, ∀ b ∈ op.blocks, AppId b.app ∧ b.anchor = "setup".toList ∧
      ∀ cl ∈ b.code, Plain cl ∧ strip cl ≠ anchorComment "setup".toList := by
    simp only [AppId, Plain]; decide
  obtain ⟨lines, hrun, hstrip, -⟩ := overlay_lossless
    ["def f():".toList, "  # xmix:anchor setup".toList, [], "  return 1".toList] sampleOps
    (by simp only [Plain]; decide) (fun op ho b hb => (hblocks op ho b hb).1)
    (fun op ho b hb => ⟨"  # xmix:anchor setup".toList, by simp, by rw [(hblocks op ho b hb).2.1]; decide⟩)
    (fun op ho b hb cl hcl => ⟨((hblocks op ho b hb).2.2 cl hcl).1, by
      rintro a ⟨op', ho', b', hb', rfl⟩
      rw [(hblocks op' ho' b' hb').2.1]
      exact ((hblocks op ho b hb).2.2 cl hcl).2⟩)
  exact ⟨lines, hrun, hstrip⟩

end Xmix.Apply
