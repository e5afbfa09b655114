import Xmix.Apply.Commands

/-!
# A failing apply

Pass 1 looks the anchors up in the files as they are; pass 2 looks them up again after the batch's
regions are stripped, while it is already writing. An anchor whose only comment stands inside such a
region is lost in between, and the files before it have been written. If every anchor has a comment
outside these regions, only pass 1 can raise.
-/

namespace Xmix.Apply

open Xmix.Except List
open PyStr LinePattern

variable {anchor app path : Str} {b : Block} {blk code lines lines' ls : List Str} {blocks : List Block}
  {g : Str × List Block} {items : List (Str × Block)} {α : Type}

/-! ### Inserting into any file -/

section Insert
variable {i : Str} (hi : ∀ c ∈ i, isSpace c = true)

variable {anchor : Str}
include hi

theorem strip_comment {w : Str} (hw : Word w) (s : Str) :
    strip (i ++ '#' :: ' ' :: (w ++ s)) = '#' :: ' ' :: (w ++ rstrip s) := by
  have hhash : ((['#', ' '] : Str).head?.any isSpace) = false := by decide
  have h := strip_tag hi hhash hw.1 hw.2 s
  simpa using h

theorem strip_beginLine_ne (app anchor a : Str) : strip (beginLine i app anchor) ≠ anchorComment a := by
  have hline : beginLine i app anchor = i ++ '#' :: ' ' ::
    ("xmix:begin".toList ++ (' ' :: (app ++ ' ' :: anchor))) := by
    rw [beginLine, append_assoc, append_assoc]; rfl
  rw [hline, strip_comment hi (by decide)]
  exact fun h => by cases h

theorem strip_endLine_ne (app anchor a : Str) : strip (endLine i app anchor) ≠ anchorComment a := by
  have hline : endLine i app anchor = i ++ '#' :: ' ' :: ("xmix:end".toList ++ (' ' :: (app ++ ' ' :: anchor))) := by
    rw [endLine, append_assoc, append_assoc]; rfl
  rw [hline, strip_comment hi (by decide)]
  exact fun h => by cases h

theorem strip_block_ne {app : Str} {code : List Str} {a l : Str} (hcode : ∀ cl ∈ code, strip cl ≠ anchorComment a)
    (hl : l ∈ block i app anchor code) : strip l ≠ anchorComment a := by
  rcases mem_append.1 hl with hl | hl
  · rcases mem_cons.1 hl with rfl | hl
    · exact strip_beginLine_ne hi app anchor a
    · obtain ⟨cl, hcl, rfl⟩ := mem_map.1 hl
      rw [strip_reindent hi]
      exact hcode cl hcl
  · rw [mem_singleton.1 hl]
    exact strip_endLine_ne hi app anchor a

theorem strip_sentinel {tag : Str} (htag : (tag.head?.any isSpace) = false)
    (hne : tag ≠ []) (hw : Word anchor) (app : Str) :
    strip (i ++ tag ++ app ++ ' ' :: anchor) = tag ++ (app ++ ' ' :: anchor) := by
  rw [append_assoc, append_assoc, strip_append_space hi]
  refine strip_eq_self (fun c hc => ?_) fun c hc => ?_
  · rw [head?_append_of_ne_nil _ hne] at hc
    rwa [Option.mem_def.1 hc] at htag
  · rw [getLast?_append_of_ne_nil _ (by simp), getLast?_append_of_ne_nil _ (by simp),
      getLast?_cons_of_ne_nil hw.1] at hc
    exact hw.2 c (mem_of_mem_getLast? hc)

theorem isBegin_beginLine (hw : Word anchor) (app : Str) : isBegin (beginLine i app anchor) = true := by
  rw [isBegin, beginLine, strip_sentinel hi (by decide) (by decide) hw]
  exact startsWith_append _ _

theorem isEnd_beginLine (hw : Word anchor) (app : Str) : isEnd (beginLine i app anchor) = false := by
  rw [isEnd, beginLine, strip_sentinel hi (by decide) (by decide) hw]
  rfl

theorem isEnd_endLine (hw : Word anchor) (app : Str) : isEnd (endLine i app anchor) = true := by
  rw [isEnd, endLine, strip_sentinel hi (by decide) (by decide) hw]
  exact startsWith_append _ _

end Insert

theorem insertStacked_cases (lines : List Str) (anchor app : Str) (code : List Str) :
    ((∀ l ∈ lines, strip l ≠ anchorComment anchor) ∧ insertStacked lines anchor app code = .error .typeError) ∨
    ∃ u l v, lines = u ++ l :: v ∧ strip l = anchorComment anchor ∧
      insertStacked lines anchor app code = .ok (u ++ l :: splice (block (indentOf l) app anchor code) v) := by
  cases hf : lines.find? fun l => strip l == anchorComment anchor with
  | none =>
    have hno : ∀ l ∈ lines, strip l ≠ anchorComment anchor := by simpa using hf
    refine .inl ⟨hno, ?_⟩
    rw [insertStacked, findAnchor, findIdx?_eq_none_iff.2 (by simpa using hno)]
  | some l =>
    obtain ⟨hl, u, v, rfl, hu⟩ := find?_eq_some_iff_append.1 hf
    have hl : strip l = anchorComment anchor := by simpa using hl
    exact .inr ⟨u, l, v, rfl, hl, insertStacked_split app code (by simpa using hu) hl⟩

theorem mem_splice {l : Str} : l ∈ splice blk ls ↔ l ∈ blk ∨ l ∈ ls := by
  conv_rhs => rw [← take_append_drop (skipRegions false ls) ls]
  simp only [splice, mem_append]
  tauto

structure Sealed (i app anchor : Str) (code : List Str) : Prop where
  indent : ∀ c ∈ i, isSpace c = true
  anchor : Word anchor
  code : ∀ cl ∈ code, isEnd cl = false

theorem skipRegions_sealed {i : Str} (h : Sealed i app anchor code) (a b : List Str) (inside : Bool) :
    skipRegions inside (a ++ (block i app anchor code ++ b)) ≤ a.length ∨
      a.length + (block i app anchor code).length ≤ skipRegions inside (a ++ (block i app anchor code ++ b)) := by
  induction a generalizing inside with
  | nil =>
    have hblank : (strip (beginLine i app anchor)).isEmpty = false := by
      rw [beginLine, strip_sentinel h.indent (by decide) (by decide) h.anchor]; rfl
    have hinner : skipRegions true (code.map (reindent i) ++ ([endLine i app anchor] ++ b)) =
        code.length + (1 + skipRegions false b) := by
      rw [skipRegions_inside (isEnd_reindent h.indent h.code), length_map, singleton_append, skipRegions]
      simp [isEnd_endLine h.indent h.anchor]
    have hlist : block i app anchor code ++ b =
        beginLine i app anchor :: (code.map (reindent i) ++ ([endLine i app anchor] ++ b)) := by simp [block]
    have hlen : (block i app anchor code).length = code.length + 2 := by simp [block]
    refine .inr ?_
    rw [nil_append, hlist, hlen, length_nil, skipRegions]
    simp only [isEnd_beginLine h.indent h.anchor, hblank, isBegin_beginLine h.indent h.anchor, Bool.not_false, hinner]
    cases inside <;> simp <;> omega
  | cons l a ih =>
    rw [cons_append, skipRegions]
    split_ifs
    · have := ih (!isEnd l); simp only [length_cons]; omega
    · have := ih false; simp only [length_cons]; omega
    · have := ih true; simp only [length_cons]; omega
    · simp

theorem infix_splice {new : List Str} (hskip : ∀ a b, ls = a ++ (blk ++ b) →
      skipRegions false ls ≤ a.length ∨ a.length + blk.length ≤ skipRegions false ls)
    (h : blk <:+: ls) : blk <:+: splice new ls := by
  obtain ⟨a, b, rfl⟩ := h
  rw [append_assoc] at hskip ⊢
  rw [splice]
  generalize skipRegions false (a ++ (blk ++ b)) = n at hskip ⊢
  rcases hskip a b rfl with hle | hge
  · rw [drop_append_of_le_length hle]
    exact ⟨(a ++ (blk ++ b)).take n ++ new ++ a.drop n, b, by simp only [append_assoc]⟩
  · rw [← append_assoc, take_append, take_of_length_le (by simpa using hge)]
    exact ⟨a, _, by simp only [append_assoc]; rfl⟩

theorem infix_insertStacked (hskip : ∀ a b, skipRegions false (a ++ (blk ++ b)) ≤ a.length ∨
      a.length + blk.length ≤ skipRegions false (a ++ (blk ++ b)))
    (hblk : ∀ l ∈ blk, strip l ≠ anchorComment anchor) (hin : blk <:+: lines)
    (h : insertStacked lines anchor app code = .ok lines') : blk <:+: lines' := by
  rcases insertStacked_cases lines anchor app code with ⟨-, herr⟩ | ⟨u, l, v, rfl, hl, hok⟩
  · rw [herr] at h; cases h
  cases hok.symm.trans h
  have hnot : l ∉ blk := fun hmem => hblk l hmem hl
  generalize hs : splice (block (indentOf l) app anchor code) v = w
  obtain ⟨a, b, heq⟩ := hin
  -- the anchor line is not one of the block's: the block is above it or below it
  rw [append_assoc, append_eq_append_iff] at heq
  rcases heq with ⟨c, rfl, hc⟩ | ⟨c, rfl, hc⟩
  · rcases append_eq_append_iff.1 hc with ⟨d, rfl, rfl⟩ | ⟨d, rfl, hd⟩
    · exact ⟨a, d ++ l :: w, by simp only [append_assoc]⟩
    · cases d with
      | nil => exact ⟨a, l :: w, by simp only [append_nil]⟩
      | cons l' d =>
        obtain ⟨rfl, -⟩ := cons.inj hd
        exact absurd (by simp) hnot
  · cases c with
    | nil =>
      cases blk with
      | nil => exact nil_infix
      | cons l' blk =>
        obtain ⟨rfl, -⟩ := cons.inj hc
        exact absurd (by simp) hnot
    | cons l' c =>
      obtain ⟨rfl, rfl⟩ := cons.inj hc
      have hv : blk <:+: w := by
        rw [← hs]
        exact infix_splice (fun a' b' h => by rw [h]; exact hskip a' b') ⟨c, b, append_assoc _ _ _⟩
      exact hv.trans ⟨u ++ [l], [], by simp⟩

/-! ### Stacking a file's blocks -/

abbrev stackAll (blocks : List Block) (lines : List Str) : Except Exc (List Str) :=
  blocks.foldlM (fun ls b => insertStacked ls b.anchor b.app b.code) lines

def Locates (lines : List Str) (blocks : List Block) : Prop :=
  ∀ pre b post, blocks = pre ++ b :: post → ∃ l ∈ lines ++ pre.flatMap Block.code, strip l = anchorComment b.anchor

theorem locates_cons :
    Locates lines (b :: blocks) ↔
      (∃ l ∈ lines, strip l = anchorComment b.anchor) ∧ Locates (lines ++ b.code) blocks := by
  constructor
  · intro h
    refine ⟨by simpa using h [] b blocks rfl, fun pre b' post heq => ?_⟩
    simpa using h (b :: pre) b' post (by rw [heq]; rfl)
  · rintro ⟨hb, hrest⟩ pre b' post heq
    cases pre with
    | nil =>
      obtain ⟨rfl, -⟩ := cons.inj heq
      simpa using hb
    | cons b'' pre =>
      obtain ⟨rfl, rfl⟩ := cons.inj heq
      simpa using hrest pre b' post rfl

theorem locates_congr
    (h : ∀ a, (∃ l ∈ lines, strip l = anchorComment a) ↔ ∃ l ∈ lines', strip l = anchorComment a) :
    Locates lines blocks ↔ Locates lines' blocks := by
  have hmem : ∀ a (pre : List Block), (∃ l ∈ lines ++ pre.flatMap Block.code, strip l = anchorComment a) ↔
      ∃ l ∈ lines' ++ pre.flatMap Block.code, strip l = anchorComment a := by
    intro a pre
    have hor := h a
    simp only [mem_append, or_and_right, exists_or]
    exact or_congr_left hor
  simp only [Locates, hmem]

theorem anchors_inserted {u v : List Str} {l : Str} (i : Str) (hi : ∀ c ∈ i, isSpace c = true) (b : Block) (a : Str) :
    (∃ x ∈ u ++ l :: splice (block i b.app b.anchor b.code) v, strip x = anchorComment a) ↔
      ∃ x ∈ u ++ l :: v ++ b.code, strip x = anchorComment a := by
  constructor
  · rintro ⟨x, hx, ha⟩
    by_cases hblk : x ∈ block i b.app b.anchor b.code
    · by_contra hno
      exact strip_block_ne hi (fun cl hcl h => hno ⟨cl, by simp [hcl], h⟩) hblk ha
    · simp only [mem_append, mem_cons, mem_splice, hblk, false_or] at hx
      exact ⟨x, by simp only [mem_append, mem_cons]; exact .inl hx, ha⟩
  · rintro ⟨x, hx, ha⟩
    rcases mem_append.1 hx with hx | hx
    · refine ⟨x, ?_, ha⟩
      simp only [mem_append, mem_cons, mem_splice] at hx ⊢
      exact hx.imp id (Or.imp id .inr)
    · have hblk : reindent i x ∈ block i b.app b.anchor b.code := by
        simp only [block, mem_append, mem_cons]
        exact .inl (.inr (mem_map_of_mem hx))
      refine ⟨reindent i x, ?_, by rw [strip_reindent hi, ha]⟩
      simp only [mem_append, mem_cons, mem_splice]
      exact .inr (.inr (.inl hblk))

theorem stackAll_ok_iff : (∃ ls, stackAll blocks lines = .ok ls) ↔ Locates lines blocks := by
  induction blocks generalizing lines with
  | nil => simp [Locates, stackAll]
  | cons b blocks ih =>
    rw [locates_cons, stackAll, foldlM_cons]
    rcases insertStacked_cases lines b.anchor b.app b.code with ⟨hno, herr⟩ | ⟨u, l, v, rfl, hl, hok⟩
    · rw [herr]
      constructor
      · rintro ⟨ls, h⟩; cases h
      · rintro ⟨⟨l, hl, ha⟩, -⟩; exact absurd ha (hno l hl)
    · rw [hok, ok_bind, ih, locates_congr (anchors_inserted (indentOf l) (indentOf_space l) b)]
      exact ⟨fun h => ⟨⟨l, by simp, hl⟩, h⟩, fun h => h.2⟩

theorem infix_stackAll (hskip : ∀ a b, skipRegions false (a ++ (blk ++ b)) ≤ a.length ∨
      a.length + blk.length ≤ skipRegions false (a ++ (blk ++ b)))
    (hblk : ∀ b ∈ blocks, ∀ l ∈ blk, strip l ≠ anchorComment b.anchor)
    (hin : blk <:+: lines) (h : stackAll blocks lines = .ok lines') : blk <:+: lines' :=
  foldlM_inv (fun ls => blk <:+: ls) (fun _ b _ hb hs hstep => infix_insertStacked hskip (hblk b hb) hs hstep) hin h

theorem region_stackAll {pre post : List Block} (hanchor : Word b.anchor)
    (hend : ∀ cl ∈ b.code, isEnd cl = false)
    (hfree : ∀ b' ∈ post, ∀ cl ∈ b.code, strip cl ≠ anchorComment b'.anchor)
    (h : stackAll (pre ++ b :: post) lines = .ok lines') :
    ∃ i, (∀ c ∈ i, isSpace c = true) ∧ block i b.app b.anchor b.code <:+: lines' := by
  rw [stackAll, foldlM_append, bind_eq_ok] at h
  obtain ⟨mid, -, h⟩ := h
  rw [foldlM_cons, bind_eq_ok] at h
  obtain ⟨next, hins, h⟩ := h
  rcases insertStacked_cases mid b.anchor b.app b.code with ⟨-, herr⟩ | ⟨u, l, v, rfl, -, hok⟩
  · rw [herr] at hins; cases hins
  cases hok.symm.trans hins
  have hseal : Sealed (indentOf l) b.app b.anchor b.code := ⟨indentOf_space l, hanchor, hend⟩
  refine ⟨indentOf l, indentOf_space l, infix_stackAll (fun a c => skipRegions_sealed hseal a c false)
    (fun b' hb' x hx => ?_) ?_ h⟩
  · exact strip_block_ne (indentOf_space l) (hfree b' hb') hx
  · rw [splice]
    generalize skipRegions false v = n
    exact ⟨u ++ l :: v.take n, v.drop n, by simp⟩

theorem oneLine_stackAll (hlines : ∀ l ∈ lines, OneLine l) (happ : ∀ b ∈ blocks, OneLine b.app)
    (hanchor : ∀ b ∈ blocks, Word b.anchor) (hcode : ∀ b ∈ blocks, ∀ cl ∈ b.code, OneLine cl)
    (h : stackAll blocks lines = .ok lines') : ∀ l ∈ lines', OneLine l := by
  refine foldlM_inv (fun ls => ∀ l ∈ ls, OneLine l) (fun ls b ls' hb hls hstep => ?_) hlines h
  rcases insertStacked_cases ls b.anchor b.app b.code with ⟨-, herr⟩ | ⟨u, l, v, rfl, -, hok⟩
  · rw [herr] at hstep; cases hstep
  cases hok.symm.trans hstep
  have hi : OneLine (indentOf l) := fun c hc => hls l (by simp) c (mem_of_mem_take hc)
  have htail : OneLine (' ' :: b.anchor) := by
    have := oneLine_append.2 ⟨show OneLine [' '] by decide, oneLine_of_word (hanchor b hb)⟩
    simpa using this
  have hsent : ∀ tag, OneLine tag → OneLine (indentOf l ++ tag ++ b.app ++ ' ' :: b.anchor) := fun tag ht =>
    oneLine_append.2 ⟨oneLine_append.2 ⟨oneLine_append.2 ⟨hi, ht⟩, happ b hb⟩, htail⟩
  intro x hx
  simp only [mem_append, mem_cons, mem_splice] at hx
  rcases hx with hx | rfl | hx | hx
  · exact hls x (by simp [hx])
  · exact hls x (by simp)
  · simp only [block, mem_append, mem_cons, mem_map, not_mem_nil, or_false] at hx
    rcases hx with (rfl | ⟨cl, hcl, rfl⟩) | rfl
    · exact hsent beginTag (by decide)
    · unfold reindent
      split
      · exact fun c hc => absurd hc not_mem_nil
      · exact oneLine_append.2 ⟨hi, hcode b hb cl hcl⟩
    · exact hsent endTag (by decide)
  · exact hls x (by simp [hx])

/-! ### What a plan holds -/

theorem oneLine_intStr (n : Int) : OneLine (intStr n) := by
  have hnat : ∀ k, OneLine (natStr k) :=
    fun k => oneLine_of_word ⟨natStr_ne_nil k, fun _ hc => isSpace_of_mem_natStr hc⟩
  cases n with
  | ofNat k => exact hnat k
  | negSucc k => exact oneLine_append.2 ⟨show OneLine ['-'] by decide, hnat (k + 1)⟩

theorem oneLine_layersStr (layers : Layers) : OneLine (layersStr layers) := by
  cases layers with
  | all => exact (by decide : OneLine allStr)
  | set ls =>
    refine oneLine_join (by decide) fun p hp => ?_
    obtain ⟨n, -, rfl⟩ := mem_map.1 hp
    exact oneLine_intStr n

theorem oneLine_appliedLine {fp : Footprint} (happ : OneLine app) (hflag : Word fp.flag) (hsub : Word fp.submodule) :
    OneLine (appliedLine app fp) := by
  have hspace : ∀ {s t}, OneLine s → OneLine t → OneLine (s ++ ' ' :: t) := fun hs ht => by
    have := oneLine_append.2 ⟨oneLine_append.2 ⟨hs, show OneLine [' '] by decide⟩, ht⟩
    simpa using this
  have hopen : OneLine appliedOpen := by decide
  exact oneLine_append.2 ⟨hopen, hspace happ (hspace (oneLine_of_word hflag)
    (hspace (oneLine_of_word hsub) (oneLine_layersStr _)))⟩

theorem strip_appliedLine (app : Str) (fp : Footprint) :
    ∃ s, strip (appliedLine app fp) = '#' :: ' ' :: ("xmix:footprint".toList ++ s) := by
  have hopen : appliedOpen = '#' :: ' ' :: ("xmix:footprint".toList ++ [' ']) := by decide +kernel
  rw [appliedLine, hopen]
  generalize app ++ ' ' :: (fp.flag ++ ' ' :: (fp.submodule ++ ' ' :: layersStr fp.layers)) = s
  have hstrip := strip_comment (i := []) (by simp) (show Word "xmix:footprint".toList by decide) (' ' :: s)
  generalize "xmix:footprint".toList = w at hstrip ⊢
  exact ⟨rstrip (' ' :: s), by simpa using hstrip⟩

theorem isEnd_appliedLine (app : Str) (fp : Footprint) : isEnd (appliedLine app fp) = false := by
  obtain ⟨s, hs⟩ := strip_appliedLine app fp
  rw [isEnd, hs]; rfl

theorem strip_appliedLine_ne (app : Str) (fp : Footprint) (a : Str) : strip (appliedLine app fp) ≠ anchorComment a := by
  obtain ⟨s, hs⟩ := strip_appliedLine app fp
  rw [hs]
  exact fun h => by cases h

structure Plan.Read (plan : Plan) : Prop where
  app : ∀ it ∈ plan.items, it.2.app ∈ plan.apps
  anchor : ∀ it ∈ plan.items, Word it.2.anchor
  code : ∀ it ∈ plan.items, ∀ cl ∈ it.2.code, OneLine cl
  fps : ∀ a ∈ plan.fps, ∀ fp ∈ a.2, Word fp.flag ∧ Word fp.submodule

variable {fs : Fs} (plan : Plan)

theorem read_readPlan {paths : List Str} {override : Option Str} {plan : Plan}
    (h : readPlan fs paths override = .ok plan) : plan.Read := by
  refine foldlM_inv Plan.Read (fun plan path plan' _ hp hstep => ?_) ⟨by simp, by simp, by simp, by simp⟩ h
  obtain ⟨text, fps, -, -, -, hfps, rfl⟩ := readOne_eq_ok.1 hstep
  have hnew : ∀ {it : Str × Block}, it ∈ (parseBlocks text).map
    (fun b => (b.file, (⟨b.anchor, appIdFrom path override, b.code⟩ : Block))) →
      it.2.app = appIdFrom path override ∧ Word it.2.anchor ∧ ∀ cl ∈ it.2.code, OneLine cl := by
    intro it hit
    obtain ⟨b, hb, rfl⟩ := mem_map.1 hit
    have hread := mem_parseBlocks hb
    exact ⟨rfl, hread.anchor, fun cl hcl => oneLine_of_mem_splitlines (hread.code cl hcl).1⟩
  refine ⟨fun it hit => ?_, fun it hit => ?_, fun it hit => ?_, fun a ha => ?_⟩
  · rcases mem_append.1 hit with hit | hit
    · exact mem_append_left _ (hp.app it hit)
    · rw [(hnew hit).1]; simp
  · rcases mem_append.1 hit with hit | hit
    · exact hp.anchor it hit
    · exact (hnew hit).2.1
  · rcases mem_append.1 hit with hit | hit
    · exact hp.code it hit
    · exact (hnew hit).2.2
  · rcases mem_append.1 ha with ha | ha
    · exact hp.fps a ha
    · rw [mem_singleton.1 ha]
      exact fun fp hfp => word_parseFootprints hfps hfp

@[simp] theorem Plan.persisted_anchor (b : Block) : (plan.persisted b).anchor = b.anchor := by
  unfold Plan.persisted; split <;> rfl

@[simp] theorem Plan.persisted_app (b : Block) : (plan.persisted b).app = b.app := by
  unfold Plan.persisted; split <;> rfl

theorem Plan.mem_fpsOf {plan : Plan} {fp : Footprint} (h : fp ∈ plan.fpsOf app) :
    ∃ fps, (app, fps) ∈ plan.fps ∧ fp ∈ fps := by
  rw [Plan.fpsOf] at h
  cases hl : plan.fps.lookup app with
  | none => simp [hl] at h
  | some fps =>
    rw [hl, Option.getD_some] at h
    obtain ⟨_, _, heq, -⟩ := lookup_eq_some_iff.1 hl
    exact ⟨fps, by simp [heq], h⟩

theorem Plan.mem_persisted {plan : Plan} {cl : Str} (h : cl ∈ (plan.persisted b).code) :
    cl ∈ b.code ∨ ∃ fps, (b.app, fps) ∈ plan.fps ∧ ∃ fp ∈ fps, cl = appliedLine b.app fp := by
  unfold Plan.persisted at h
  split at h
  · rcases mem_append.1 h with h | h
    · obtain ⟨fp, hfp, rfl⟩ := mem_map.1 h
      obtain ⟨fps, hfps, hfp⟩ := Plan.mem_fpsOf hfp
      exact .inr ⟨fps, hfps, fp, hfp, rfl⟩
    · exact .inl h
  · exact .inl h

/-! ### Pass 2 as a sequence of writes -/

def Plan.Located (fs : Fs) (group : Str × List Block) : Prop :=
  Locates (stripAppRegions (fs.lines group.1) (some plan.apps)) (group.2.map plan.persisted)

theorem Plan.newLines_ok_iff {plan : Plan} {fs : Fs} {group : Str × List Block} :
    (∃ ls, plan.newLines fs group = .ok ls) ↔ plan.Located fs group := stackAll_ok_iff

def Plan.write (fs₀ fs : Fs) (group : Str × List Block) : Fs :=
  match plan.newLines fs₀ group with
  | .ok ls => fs.writeText group.1 (unlines ls)
  | .error _ => fs

theorem passTwo_cases (fs₀ : Fs) (groups : List (Str × List Block)) (fs : Fs) :
    (∃ pre g post e, groups = pre ++ g :: post ∧ (∀ g' ∈ pre, plan.Located fs₀ g') ∧ ¬ plan.Located fs₀ g ∧
      passTwo plan false fs₀ fs groups = (pre.foldl (plan.write fs₀) fs, .error e)) ∨
    ((∀ g ∈ groups, plan.Located fs₀ g) ∧
      passTwo plan false fs₀ fs groups = (groups.foldl (plan.write fs₀) fs, .ok ())) := by
  induction groups generalizing fs with
  | nil => exact .inr ⟨by simp, rfl⟩
  | cons g groups ih =>
    cases hnew : plan.newLines fs₀ g with
    | error e =>
      refine .inl ⟨[], g, groups, e, rfl, by simp, ?_, by simp [passTwo, hnew]⟩
      rw [← Plan.newLines_ok_iff, hnew]
      rintro ⟨ls, h⟩; cases h
    | ok ls =>
      have hloc : plan.Located fs₀ g := Plan.newLines_ok_iff.1 ⟨ls, hnew⟩
      have hstep : passTwo plan false fs₀ fs (g :: groups) = passTwo plan false fs₀ (plan.write fs₀ fs g) groups := by
        simp [passTwo, Plan.write, hnew]
      rw [hstep]
      rcases ih (plan.write fs₀ fs g) with ⟨pre, g', post, e, rfl, hpre, hg', hrun⟩ | ⟨hall, hrun⟩
      · exact .inl ⟨g :: pre, g', post, e, rfl, by simpa [hloc] using hpre, hg', hrun⟩
      · exact .inr ⟨by simpa [hloc] using hall, hrun⟩

@[simp] theorem Fs.writeText_inode (fs : Fs) (path text : Str) : (fs.writeText path text).inode = fs.inode := by
  unfold Fs.writeText; split <;> rfl

theorem Fs.writeText_text {i : Nat} (text : Str) (h : fs.inode path = some i) (j : Nat) :
    (fs.writeText path text).text j = if j = i then text else fs.text j := by
  simp [Fs.writeText, h]

theorem Fs.writeText_text_of_ne {i : Nat} (text : Str) (h : fs.inode path ≠ some i) :
    (fs.writeText path text).text i = fs.text i := by
  unfold Fs.writeText
  split
  · rfl
  · next j hj => exact if_neg fun hij => h (by rw [hj, hij])

variable {groups : List (Str × List Block)}

section Writes
variable {plan : Plan} {fs₀ : Fs}

variable {fs : Fs}

@[simp] theorem Plan.write_inode (fs : Fs) (g : Str × List Block) : (plan.write fs₀ fs g).inode = fs.inode := by
  unfold Plan.write; split <;> simp

theorem Plan.write_text_of_ne {g : Str × List Block} {i : Nat} (h : fs.inode g.1 ≠ some i) :
    (plan.write fs₀ fs g).text i = fs.text i := by
  unfold Plan.write
  split
  · exact Fs.writeText_text_of_ne _ h
  · rfl

@[simp] theorem Plan.writes_inode (groups : List (Str × List Block)) (fs : Fs) :
    (groups.foldl (plan.write fs₀) fs).inode = fs.inode := by
  induction groups generalizing fs with
  | nil => rfl
  | cons g groups ih => rw [foldl_cons, ih, Plan.write_inode]

theorem Plan.writes_text_of_ne {i : Nat} (h : ∀ g ∈ groups, fs.inode g.1 ≠ some i) :
    (groups.foldl (plan.write fs₀) fs).text i = fs.text i := by
  induction groups generalizing fs with
  | nil => rfl
  | cons g groups ih =>
    rw [foldl_cons, ih (by simpa using fun g' hg' => h g' (by simp [hg'])), Plan.write_text_of_ne (h g (by simp))]

theorem Plan.writes_text {pre post : List (Str × List Block)} {g : Str × List Block} {i : Nat} {ls : List Str}
    (hg : fs.inode g.1 = some i) (hpost : ∀ g' ∈ post, fs.inode g'.1 ≠ some i) (hnew : plan.newLines fs₀ g = .ok ls) :
    ((pre ++ g :: post).foldl (plan.write fs₀) fs).text i = unlines ls := by
  rw [foldl_append, foldl_cons, Plan.writes_text_of_ne (by simpa using hpost), Plan.write, hnew,
    Fs.writeText_text (i := i) _ (by simpa using hg), if_pos rfl]

end Writes

def Plan.Rewrites (fs : Fs) (groups : List (Str × List Block)) : Prop :=
  ∀ pre g post, groups = pre ++ g :: post → ∀ i, fs.inode g.1 = some i → (∀ g' ∈ post, fs.inode g'.1 ≠ some i) →
    ∃ ls, plan.newLines fs g = .ok ls ∧ fs.text i = unlines ls

theorem exists_last {p : α → Prop} {l : List α} (h : ∃ a ∈ l, p a) :
    ∃ pre a post, l = pre ++ a :: post ∧ p a ∧ ∀ b ∈ post, ¬ p b := by
  classical
  obtain ⟨b, hb, hp⟩ := h
  obtain ⟨a, u, v, hu, ha, heq, -⟩ :=
    exists_of_eraseP (p := fun b => decide (p b)) (mem_reverse.2 hb) (decide_eq_true hp)
  exact ⟨v.reverse, a, u.reverse, by rw [← reverse_reverse l, heq]; simp, of_decide_eq_true ha, by simpa using hu⟩

theorem Plan.rewrites_iff {plan : Plan} {fs : Fs} (hloc : ∀ g ∈ groups, plan.Located fs g) :
    (groups.foldl (plan.write fs) fs).text = fs.text ↔ plan.Rewrites fs groups := by
  constructor
  · rintro heq pre g post rfl i hi hpost
    obtain ⟨ls, hnew⟩ := Plan.newLines_ok_iff.2 (hloc g (by simp))
    exact ⟨ls, hnew, by rw [← heq, Plan.writes_text hi hpost hnew]⟩
  · intro h
    funext i
    by_cases hw : ∃ g ∈ groups, fs.inode g.1 = some i
    · obtain ⟨pre, g, post, rfl, hi, hpost⟩ := exists_last hw
      obtain ⟨ls, hnew, htext⟩ := h pre g post rfl i hi hpost
      rw [Plan.writes_text hi hpost hnew, htext]
    · exact Plan.writes_text_of_ne fun g hg hi => hw ⟨g, hg, hi⟩

/-! ### Outside the regions of a batch -/

/-- After these lines a region of one of the apps is open. -/
def RegionOpen (apps : List Str) (lines : List Str) : Prop :=
  ∃ u l v, lines = u ++ l :: v ∧ isBegin l = true ∧ tagged (some apps) l = true ∧ ∀ x ∈ v, isEnd x = false

theorem mem_stripGo {apps : List Str} {skipping : Bool} {l : Str} : l ∈ stripGo (some apps) skipping lines ↔
    ∃ u v, lines = u ++ l :: v ∧ ¬ (skipping = true ∧ ∀ x ∈ u, isEnd x = false) ∧ ¬ RegionOpen apps u ∧
      ¬ (isBegin l = true ∧ tagged (some apps) l = true) := by
  induction lines generalizing skipping with
  | nil => simp [stripGo]
  | cons x lines ih =>
    have hopen : ∀ u, RegionOpen apps (x :: u) ↔
        (isBegin x = true ∧ tagged (some apps) x = true ∧ ∀ y ∈ u, isEnd y = false) ∨ RegionOpen apps u := by
      intro u
      constructor
      · rintro ⟨a, y, v, heq, h⟩
        cases a with
        | nil =>
          obtain ⟨rfl, rfl⟩ := cons.inj heq
          exact .inl h
        | cons z a =>
          obtain ⟨rfl, rfl⟩ := cons.inj heq
          exact .inr ⟨a, y, v, rfl, h⟩
      · rintro (h | ⟨a, y, v, rfl, h⟩)
        · exact ⟨[], x, u, rfl, h⟩
        · exact ⟨x :: a, y, v, rfl, h⟩
    have hnil : ¬ RegionOpen apps [] := by
      rintro ⟨a, y, v, heq, -⟩
      simp at heq
    -- the line is the first one, or it is one of the rest
    have hsplit : ∀ {P : List Str → Prop}, (∃ u v, x :: lines = u ++ l :: v ∧ P u) ↔ (x = l ∧ P []) ∨
      ∃ u v, lines = u ++ l :: v ∧ P (x :: u) := by
      intro P
      constructor
      · rintro ⟨u, v, heq, h⟩
        cases u with
        | nil => exact .inl ⟨(cons.inj heq).1, h⟩
        | cons y u =>
          obtain ⟨rfl, rfl⟩ := cons.inj heq
          exact .inr ⟨u, v, rfl, h⟩
      · rintro (⟨rfl, h⟩ | ⟨u, v, rfl, h⟩)
        · exact ⟨[], lines, rfl, h⟩
        · exact ⟨x :: u, v, rfl, h⟩
    rw [stripGo, hsplit]
    simp only [hopen, hnil, mem_cons, forall_eq_or_imp, not_mem_nil, IsEmpty.forall_iff, implies_true]
    cases skipping with
    | false =>
      by_cases hx : isBegin x = true ∧ tagged (some apps) x = true
      · rw [if_pos (by simp [hx]), ih]
        constructor
        · rintro ⟨u, v, heq, hend, hopen, hl⟩
          exact .inr ⟨u, v, heq, by simp, by tauto, hl⟩
        · rintro (⟨rfl, -, -, hl⟩ | ⟨u, v, heq, -, hopen, hl⟩)
          · exact absurd hx hl
          · exact ⟨u, v, heq, by tauto, by tauto, hl⟩
      · rw [if_neg (by simpa using hx), if_neg (by simp), if_neg (by simp), mem_cons, ih]
        constructor
        · rintro (rfl | ⟨u, v, heq, -, hopen, hl⟩)
          · exact .inl ⟨rfl, by simp, not_false, hx⟩
          · exact .inr ⟨u, v, heq, by simp, by tauto, hl⟩
        · rintro (⟨rfl, -⟩ | ⟨u, v, heq, -, hopen, hl⟩)
          · exact .inl rfl
          · exact .inr ⟨u, v, heq, by simp, by tauto, hl⟩
    | true =>
      cases hend : isEnd x with
      | true =>
        have hx := isBegin_of_isEnd hend
        rw [if_neg (by simp), if_pos (by simp), ih]
        constructor
        · rintro ⟨u, v, heq, -, hopen, hl⟩
          exact .inr ⟨u, v, heq, by simp, by simp [hx, hopen], hl⟩
        · rintro (⟨-, hno, -⟩ | ⟨u, v, heq, -, hopen, hl⟩)
          · simp at hno
          · exact ⟨u, v, heq, by simp, by tauto, hl⟩
      | false =>
        rw [if_neg (by simp), if_neg (by simp), if_pos rfl, ih]
        constructor
        · rintro ⟨u, v, heq, hno, hopen, hl⟩
          exact .inr ⟨u, v, heq, by tauto, by tauto, hl⟩
        · rintro (⟨-, hno, -⟩ | ⟨u, v, heq, hno, hopen, hl⟩)
          · simp at hno
          · exact ⟨u, v, heq, by tauto, by tauto, hl⟩

/-! ### All or nothing -/

/-- A line of the file, outside the regions of the batch's apps, is the comment of the anchor. -/
def Plan.Anchored (fs : Fs) (file anchor : Str) : Prop :=
  ∃ u l v, fs.lines file = u ++ l :: v ∧ strip l = anchorComment anchor ∧ ¬ RegionOpen plan.apps u

/-- Every anchor stands outside the regions of the batch, and no block disturbs another. -/
structure Plan.Separate (plan : Plan) (fs : Fs) : Prop where
  anchor : ∀ it ∈ plan.items, plan.Anchored fs it.1 it.2.anchor
  /-- no two target paths name one file -/
  file : ∀ g ∈ byFile plan.items, ∀ g' ∈ byFile plan.items, fs.inode g.1 = fs.inode g'.1 → g.1 = g'.1
  app : ∀ app ∈ plan.apps, OneLine app
  /-- no code line closes a region or is the anchor of a later block for the file -/
  code : ∀ g ∈ byFile plan.items, ∀ pre b post, g.2 = pre ++ b :: post → ∀ cl ∈ b.code,
    isEnd cl = false ∧ ∀ b' ∈ post, strip cl ≠ anchorComment b'.anchor

def Plan.Present (fs : Fs) (file : Str) (b : Block) : Prop :=
  ∃ i, (∀ c ∈ i, isSpace c = true) ∧ block i b.app b.anchor (plan.persisted b).code <:+: fs.lines file

variable {file : Str}

theorem mem_blocksFor : b ∈ blocksFor items file ↔ (file, b) ∈ items := by
  simp [blocksFor]

theorem mem_byFile (h : (file, b) ∈ items) :
    ∃ pre post, (file, pre ++ b :: post) ∈ byFile items ∧ pre ++ b :: post = blocksFor items file := by
  obtain ⟨pre, post, heq⟩ := append_of_mem (mem_blocksFor.2 h)
  refine ⟨pre, post, ?_, heq.symm⟩
  rw [← heq]
  exact mem_map.2 ⟨file, mem_eraseDups.2 (mem_map_of_mem h), rfl⟩

theorem pairwise_eraseDups [BEq α] [LawfulBEq α] (l : List α) : l.eraseDups.Pairwise (· ≠ ·) := by
  induction hn : l.length using Nat.strong_induction_on generalizing l with
  | _ n ih =>
    cases l with
    | nil => simp
    | cons a l =>
      rw [eraseDups_cons, pairwise_cons]
      refine ⟨fun b hb => ?_, ih _ ?_ _ rfl⟩
      · have := mem_eraseDups.1 hb
        simp only [mem_filter, Bool.not_eq_true', beq_eq_false_iff_ne] at this
        exact this.2.symm
      · rw [← hn]
        exact Nat.lt_succ_of_le (length_filter_le _ _)

theorem nodup_byFile (items : List (Str × Block)) : (byFile items).Pairwise fun g g' => g.1 ≠ g'.1 := by
  rw [byFile, pairwise_map]
  exact pairwise_eraseDups (items.map Prod.fst)

theorem oneLine_lines (fs : Fs) (path : Str) : ∀ l ∈ fs.lines path, OneLine l := by
  unfold Fs.lines
  split
  · simp
  · exact fun l hl => oneLine_of_mem_splitlines hl

theorem stripGo_subset (appIds : Option (List Str)) (skipping : Bool) (lines : List Str) :
    stripGo appIds skipping lines ⊆ lines := by
  induction lines generalizing skipping with
  | nil => simp [stripGo]
  | cons l lines ih =>
    rw [stripGo]
    split_ifs
    · exact subset_cons_of_subset _ (ih true)
    · exact subset_cons_of_subset _ (ih false)
    · exact subset_cons_of_subset _ (ih true)
    · exact cons_subset_cons _ (ih false)

theorem lines_of_text {i : Nat} (hi : fs.inode path = some i) (htext : fs.text i = unlines ls)
    (hne : ls ≠ []) (hone : ∀ l ∈ ls, OneLine l) : fs.lines path = ls := by
  rw [Fs.lines, hi]
  simp only
  rw [htext, splitlines_universalNewlines, splitlines_unlines_oneLine hne hone]

theorem inode_of_passOne (h : passOne fs groups = .ok ())
    (hg : g ∈ groups) : ∃ i, fs.inode g.1 = some i := by
  cases hi : fs.inode g.1 with
  | some i => exact ⟨i, rfl⟩
  | none =>
    have hm : missingIn fs g = [g.1 ++ " (file not found)".toList] := by rw [missingIn, hi]
    have hne : groups.flatMap (missingIn fs) ≠ [] := by
      intro hnil
      have := flatMap_eq_nil_iff.1 hnil g hg
      rw [hm] at this
      cases this
    unfold passOne at h
    split at h
    · next hnil => exact absurd hnil hne
    · cases h

theorem insertStacked_ne_nil
    (h : insertStacked lines anchor app code = .ok lines') : lines' ≠ [] := by
  rcases insertStacked_cases lines anchor app code with ⟨-, herr⟩ | ⟨u, l, v, rfl, -, hok⟩
  · rw [herr] at h; cases h
  · cases hok.symm.trans h
    simp

theorem stackAll_ne_nil (hne : blocks ≠ [])
    (h : stackAll blocks lines = .ok lines') : lines' ≠ [] := by
  obtain ⟨b, blocks, rfl⟩ := exists_cons_of_ne_nil hne
  rw [stackAll, foldlM_cons, bind_eq_ok] at h
  obtain ⟨mid, hmid, h⟩ := h
  exact foldlM_inv (· ≠ []) (fun _ _ _ _ _ hstep => insertStacked_ne_nil hstep) (insertStacked_ne_nil hmid) h

theorem of_mem_byFile (hg : g ∈ byFile items) :
    g.2 ≠ [] ∧ ∀ b ∈ g.2, (g.1, b) ∈ items := by
  obtain ⟨file, hfile, rfl⟩ := mem_map.1 hg
  obtain ⟨⟨_, b⟩, hit, rfl⟩ := mem_map.1 (mem_eraseDups.1 hfile)
  exact ⟨ne_nil_of_mem (mem_blocksFor.2 hit), fun _ => mem_blocksFor.1⟩

theorem Plan.oneLine_newLines {plan : Plan} {fs : Fs} (hread : plan.Read)
    (happ : ∀ app ∈ plan.apps, OneLine app) (hg : g ∈ byFile plan.items) (hnew : plan.newLines fs g = .ok ls) :
    ls ≠ [] ∧ ∀ l ∈ ls, OneLine l := by
  obtain ⟨hne, hitem⟩ := of_mem_byFile hg
  refine ⟨stackAll_ne_nil (by simpa using hne) hnew,
    oneLine_stackAll (fun l hl => oneLine_lines fs g.1 l (stripGo_subset _ _ _ hl)) ?_ ?_ ?_ hnew⟩
  · intro b' hb'
    obtain ⟨b, hb, rfl⟩ := mem_map.1 hb'
    rw [Plan.persisted_app]
    exact happ _ (hread.app _ (hitem b hb))
  · intro b' hb'
    obtain ⟨b, hb, rfl⟩ := mem_map.1 hb'
    rw [Plan.persisted_anchor]
    exact hread.anchor _ (hitem b hb)
  · intro b' hb' cl hcl
    obtain ⟨b, hb, rfl⟩ := mem_map.1 hb'
    rcases Plan.mem_persisted hcl with hcl | ⟨fps, hfps, fp, hfp, rfl⟩
    · exact hread.code _ (hitem b hb) cl hcl
    · obtain ⟨hflag, hsub⟩ := hread.fps _ hfps fp hfp
      exact oneLine_appliedLine (happ _ (hread.app _ (hitem b hb))) hflag hsub

section Written
variable {fs : Fs} {paths : List Str} {override : Option Str} {plan : Plan}
  (hprep : prepare fs paths override = .ok plan)
include hprep

theorem ok_of_located (hloc : ∀ g ∈ byFile plan.items, plan.Located fs g) :
    (cmdApply paths override false fs).2 = .ok () := by
  simp only [cmdApply, hprep]
  rcases passTwo_cases plan fs (byFile plan.items) fs with ⟨pre, g, post, e, heq, -, hg, -⟩ | ⟨-, hrun⟩
  · exact absurd (hloc g (by rw [heq]; simp)) hg
  · rw [hrun]

variable (hok : (cmdApply paths override false fs).2 = .ok ())
include hok

theorem cmdApply_eq_writes : (cmdApply paths override false fs).1 = (byFile plan.items).foldl (plan.write fs) fs ∧
    ∀ g ∈ byFile plan.items, plan.Located fs g := by
  simp only [cmdApply, hprep] at hok ⊢
  rcases passTwo_cases plan fs (byFile plan.items) fs with ⟨pre, g', post, e, -, -, -, hrun⟩ | ⟨hall, hrun⟩
  · rw [hrun] at hok; cases hok
  · rw [hrun]
    exact ⟨rfl, hall⟩

theorem text_cmdApply {g : Str × List Block} (hg : g ∈ byFile plan.items)
    (hfile : ∀ g' ∈ byFile plan.items, fs.inode g.1 = fs.inode g'.1 → g.1 = g'.1)
    {i : Nat} (hi : fs.inode g.1 = some i) {ls : List Str} (hnew : plan.newLines fs g = .ok ls) :
    (cmdApply paths override false fs).1.text i = unlines ls := by
  obtain ⟨pre, post, hsplit⟩ := append_of_mem hg
  have hlast : ∀ g' ∈ post, fs.inode g'.1 ≠ some i := by
    intro g' hg' hi'
    have hne := nodup_byFile plan.items
    rw [hsplit, pairwise_append, pairwise_cons] at hne
    exact hne.2.1.1 g' hg' (hfile g' (by rw [hsplit]; simp [hg']) (hi.trans hi'.symm))
  rw [(cmdApply_eq_writes hprep hok).1, hsplit]
  exact Plan.writes_text hi hlast hnew

theorem inode_cmdApply : (cmdApply paths override false fs).1.inode = fs.inode := by
  rw [(cmdApply_eq_writes hprep hok).1, Plan.writes_inode]

theorem lines_cmdApply {g : Str × List Block} (happ : ∀ app ∈ plan.apps, OneLine app) (hg : g ∈ byFile plan.items)
    (hfile : ∀ g' ∈ byFile plan.items, fs.inode g.1 = fs.inode g'.1 → g.1 = g'.1) :
    plan.newLines fs g = .ok ((cmdApply paths override false fs).1.lines g.1) := by
  obtain ⟨hread, -, hpass⟩ := prepare_eq_ok.1 hprep
  obtain ⟨ls, hnew⟩ := Plan.newLines_ok_iff.2 ((cmdApply_eq_writes hprep hok).2 g hg)
  obtain ⟨i, hi⟩ := inode_of_passOne hpass hg
  obtain ⟨hnil, hone⟩ := Plan.oneLine_newLines (read_readPlan hread) happ hg hnew
  rw [hnew, lines_of_text (by rw [inode_cmdApply hprep hok, hi]) (text_cmdApply hprep hok hg hfile hi hnew) hnil hone]

end Written

theorem present_of_separate {paths : List Str} {override : Option Str} {plan : Plan}
    (hprep : prepare fs paths override = .ok plan) (hsep : plan.Separate fs)
    (hok : (cmdApply paths override false fs).2 = .ok ()) :
    ∀ it ∈ plan.items, plan.Present (cmdApply paths override false fs).1 it.1 it.2 := by
  have hread := read_readPlan (prepare_eq_ok.1 hprep).1
  rintro ⟨file, b⟩ hit
  obtain ⟨pre, post, hg, -⟩ := mem_byFile hit
  have hnew := lines_cmdApply hprep hok hsep.app hg (hsep.file _ hg)
  have hcode : ∀ cl ∈ (plan.persisted b).code, isEnd cl = false ∧ ∀ b' ∈ post, strip cl ≠ anchorComment b'.anchor := by
    intro cl hcl
    rcases Plan.mem_persisted hcl with hcl | ⟨_, -, fp, -, rfl⟩
    · exact hsep.code _ hg pre b post rfl cl hcl
    · exact ⟨isEnd_appliedLine _ fp, fun b' _ => strip_appliedLine_ne _ fp b'.anchor⟩
  rw [Plan.newLines, map_append, map_cons] at hnew
  obtain ⟨i, hi, hinf⟩ := region_stackAll (by simpa using hread.anchor _ hit) (fun cl hcl => (hcode cl hcl).1)
    (fun b' hb' cl hcl => by
      obtain ⟨c, hc, rfl⟩ := mem_map.1 hb'
      simpa using (hcode cl hcl).2 c hc) hnew
  rw [Plan.persisted_app, Plan.persisted_anchor] at hinf
  exact ⟨i, hi, hinf⟩

theorem Plan.anchored_iff {plan : Plan} : plan.Anchored fs file anchor ↔
    ∃ l ∈ stripAppRegions (fs.lines file) (some plan.apps), strip l = anchorComment anchor := by
  simp only [stripAppRegions, mem_stripGo]
  constructor
  · rintro ⟨u, l, v, heq, hl, hopen⟩
    have hbegin : isBegin l = false := by
      rw [isBegin, hl]
      rfl
    exact ⟨l, ⟨u, v, heq, by simp, hopen, by simp [hbegin]⟩, hl⟩
  · rintro ⟨l, ⟨u, v, heq, -, hopen, -⟩, hl⟩
    exact ⟨u, l, v, heq, hl, hopen⟩

theorem Plan.Separate.located {plan : Plan} (h : plan.Separate fs) (hg : g ∈ byFile plan.items) :
    plan.Located fs g := by
  intro pre b post heq
  obtain ⟨b', hb', rfl⟩ := mem_map.1 (show b ∈ g.2.map plan.persisted by simp [heq])
  obtain ⟨l, hl, hanchor⟩ := Plan.anchored_iff.1 (h.anchor _ ((of_mem_byFile hg).2 b' hb'))
  exact ⟨l, mem_append_left _ hl, by rwa [Plan.persisted_anchor]⟩

/-- The anchor is neither outside the batch's regions nor in the code of a block for the file. -/
def Plan.Lost (fs : Fs) (it : Str × Block) : Prop :=
  ¬ plan.Anchored fs it.1 it.2.anchor ∧ ∀ b, (it.1, b) ∈ plan.items →
    ∀ cl ∈ b.code, strip cl ≠ anchorComment it.2.anchor

theorem Plan.Lost.not_located {plan : Plan} {it : Str × Block} (h : plan.Lost fs it) (hit : it ∈ plan.items) :
    ∃ g ∈ byFile plan.items, ¬ plan.Located fs g := by
  obtain ⟨pre, post, hg, heq⟩ := mem_byFile hit
  refine ⟨_, hg, fun hloc => ?_⟩
  obtain ⟨l, hl, hanchor⟩ := hloc (pre.map plan.persisted) (plan.persisted it.2) (post.map plan.persisted) (by simp)
  rw [Plan.persisted_anchor] at hanchor
  rcases mem_append.1 hl with hl | hl
  · exact h.1 (Plan.anchored_iff.2 ⟨l, hl, hanchor⟩)
  · obtain ⟨b', hb', hl⟩ := mem_flatMap.1 hl
    obtain ⟨b, hb, rfl⟩ := mem_map.1 hb'
    rcases Plan.mem_persisted hl with hl | ⟨_, -, fp, -, rfl⟩
    · exact h.2 b (mem_blocksFor.1 (heq ▸ mem_append_left _ hb)) l hl hanchor
    · exact strip_appliedLine_ne _ fp _ hanchor

/-- A raise leaves every file as it was, and a normal return has placed every block of the plan. -/
structure AllOrNothing (fs : Fs) (paths : List Str) (override : Option Str) : Prop where
  raised : ∀ e, (cmdApply paths override false fs).2 = .error e → (cmdApply paths override false fs).1.text = fs.text
  returned : (cmdApply paths override false fs).2 = .ok () → ∀ plan, readPlan fs paths override = .ok plan →
    ∀ it ∈ plan.items, plan.Present (cmdApply paths override false fs).1 it.1 it.2

def twoFiles (f g : String) : Fs where
  inode path :=
    if path = "s_synth.py".toList then some 0 else if path = "f.py".toList then some 1
    else if path = "g.py".toList then some 2 else none
  text i :=
    if i = 0 then
      "# >>> XMIX-APPLY file=f.py anchor=a <<<\nx = 1\n# >>> XMIX-APPLY file=g.py anchor=b <<<\ny = 2\n".toList
    else if i = 1 then f.toList else g.toList
  out := []

def twoPlan : Plan where
  items := [("f.py".toList, ⟨"a".toList, "s".toList, ["x = 1".toList]⟩),
    ("g.py".toList, ⟨"b".toList, "s".toList, ["y = 2".toList]⟩)]
  apps := ["s".toList]
  fps := [("s".toList, [])]

end Xmix.Apply
