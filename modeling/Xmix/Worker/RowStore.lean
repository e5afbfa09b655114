import Mathlib.Logic.Equiv.Basic
import Xmix.Worker.InputBatch

/-!
# The batch as a map from requests to their state

The store that the batch stands for has one entry for each request: what the request had when it was added, changed only
by writes addressed to it. Removing, condensing, swapping and refreshing do not touch the entry of another request, and
the row of a request holds its entry in every run.
-/

namespace Xmix.Worker

open Function List Option Dict SinglePrecision

structure Entry where
  tokens : Nat → Option Nat
  numTokens : Nat
  numTokensNoSpec : Nat
  numPromptTokens : Nat
  numComputedTokens : Nat
  output : Obj
  blocks : Nat → List Nat
  generator : Option Obj
  badWords : Option (List (List Nat))
  lora : Nat
  allowed : Option (List Nat)
  samplingParams : SamplingParams

/-- Column `c` of the table is part `c % k` of KV cache block `c / k`. -/
def expandBlocks (k : Nat) (ids : List Nat) : List Nat :=
  (range (ids.length * k)).map fun c => ids.getD (c / k) 0 * k + c % k

def kernelBlocks (cfg : Config) (ids : List (List Nat)) (g : Nat) : List Nat :=
  match cfg.blockTables[g]? with
  | some t => expandBlocks t.blocksPerKvBlock (ids.getD g [])
  | none => []

variable {cfg : Config} {ids : List (List Nat)} {row : Row}

theorem mapToKernelBlocks_eq (k : Nat) (ids : List Nat) : mapToKernelBlocks k ids = expandBlocks k ids := by
  have hflat : ids.flatMap (fun b => (range k).map fun j => b * k + j) = expandBlocks k ids := by
    induction ids with
    | nil => simp [expandBlocks]
    | cons b ids ih =>
      rw [flatMap_cons, ih, expandBlocks, expandBlocks, length_cons, Nat.succ_mul, Nat.add_comm,
        range_add, map_append, List.map_map]
      congr 1
      · refine map_congr_left fun j hj => ?_
        rw [Nat.div_eq_of_lt (mem_range.1 hj), Nat.mod_eq_of_lt (mem_range.1 hj), getD_cons_zero]
      · refine map_congr_left fun c hc => ?_
        have hk : 0 < k := Nat.pos_of_mul_pos_left (Nat.zero_lt_of_lt (mem_range.1 hc))
        rw [comp_apply, Nat.add_div_left c hk, Nat.add_mod_left, getD_cons_succ]
  rw [← hflat, mapToKernelBlocks]
  split
  next hone =>
    subst hone
    simp
  next => rfl

theorem kernelBlocks_of_some {g : Nat} {t : TableConfig} (h : cfg.blockTables[g]? = some t) :
    kernelBlocks cfg ids g = mapToKernelBlocks t.blocksPerKvBlock (ids.getD g []) := by
  rw [kernelBlocks, h, mapToKernelBlocks_eq]

def Entry.ofRequest {ι : Type} (cfg : Config) (q : CachedRequestState ι) : Entry :=
  let n := q.numPromptTokens.getD 0
  { tokens := fun p => if p < n then q.promptTokenIds.bind (·[p]?) else q.outputTokenIds.2[p - n]?
    numTokens := n + q.outputTokenIds.2.length
    numTokensNoSpec := n + q.outputTokenIds.2.length
    numPromptTokens := n
    numComputedTokens := q.numComputedTokens
    output := q.outputTokenIds.1
    blocks := kernelBlocks cfg q.blockIds
    generator := q.generator
    badWords := truthy q.samplingParams.badWordsTokenIds
    lora := (q.loraRequest.map Prod.fst).getD 0
    allowed := truthy q.samplingParams.allowedTokenIds
    samplingParams := q.samplingParams }

def Entry.write (cfg : Config) (e : Entry) : RowWrite → Entry
  | .computed n => { e with numComputedTokens := n }
  | .blocks ids => { e with blocks := fun g => e.blocks g ++ kernelBlocks cfg ids g }
  | .tokens start ids _ n m =>
    { e with
      tokens := fun p =>
        if start ≤ p ∧ p < start + ids.length then ids[p - start]?
        else if p < e.numTokens then e.tokens p else none
      numTokens := n
      numTokensNoSpec := m }

def Row.blocks (row : Row) (g : Nat) : List Nat := (range (row.numBlocksPerRow g)).map (row.blockTable g)

/-- The cells of a request that samples with these parameters: no temperature if it is greedy, and
no limit where `topK` is off. -/
structure SamplingRow.Of (cfg : Config) (s : SamplingRow) (p : SamplingParams) : Prop where
  greedy : p.temperature < 1 / 100000 → s.temperature = 0
  temperature : 1 / 100000 ≤ p.temperature → s.temperature = toSingle p.temperature
  topP : s.topP = toSingle p.topP
  topK : 0 < p.topK → p.topK < cfg.vocabSize → s.topK = p.topK
  noTopK : p.topK ≤ 0 ∨ cfg.vocabSize ≤ p.topK → s.topK = cfg.vocabSize
  frequencyPenalty : s.frequencyPenalty = toSingle p.frequencyPenalty
  presencePenalty : s.presencePenalty = toSingle p.presencePenalty
  repetitionPenalty : s.repetitionPenalty = toSingle p.repetitionPenalty

theorem samplingRow_of (cfg : Config) (p : SamplingParams) : (InputBatch.samplingRow cfg p).Of cfg p where
  greedy h := if_pos (decide_eq_true h)
  temperature h := if_neg fun hlt => absurd (of_decide_eq_true hlt) (not_lt.2 h)
  topP := rfl
  topK h h' := if_pos ⟨h, h'⟩
  noTopK h := if_neg (by omega)
  frequencyPenalty := rfl
  presencePenalty := rfl
  repetitionPenalty := rfl

structure Row.Holds (cfg : Config) (row : Row) (e : Entry) : Prop where
  tokens : ∀ p < e.numTokens, ∀ x, e.tokens p = some x → row.tokenIds p = x
  numTokens : row.numTokens = e.numTokens
  numTokensNoSpec : row.numTokensNoSpec = e.numTokensNoSpec
  numPromptTokens : row.numPromptTokens = e.numPromptTokens
  numComputedTokens : row.numComputedTokens = e.numComputedTokens
  blocks : ∀ g < cfg.blockTables.length, row.blocks g = e.blocks g
  sampling : row.sampling.Of cfg e.samplingParams
  generator : row.generator = e.generator
  badWords : row.badWordsTokenIds = e.badWords
  lora : row.requestLoraMapping = e.lora

/-! ### Block tables -/

def BlocksFit (cfg : Config) (n : Nat → Nat) (ids : List (List Nat)) : Prop :=
  cfg.blockTables.length ≤ ids.length ∧ ∀ g t, cfg.blockTables[g]? = some t →
    n g + (kernelBlocks cfg ids g).length ≤ t.maxNumBlocksPerReq

theorem length_mapToKernelBlocks_nil (k : Nat) : mapToKernelBlocks k [] = [] := by
  rw [mapToKernelBlocks]
  split <;> rfl

variable {e : Entry} {p start : Nat} {α : Type}

section
variable {cells : Nat → α} {xs : List α}

theorem splice_of_lt (h : p < start) : splice cells start xs p = cells p :=
  if_neg (by omega)

theorem splice_add {x : α} (h : xs[p]? = some x) :
    splice cells start xs (start + p) = x := by
  rw [splice, if_pos (by omega), Nat.add_sub_cancel_left, h, getD_some]

theorem splice_of_le (h : start + xs.length ≤ p) :
    splice cells start xs p = cells p := by
  rw [splice, if_pos (by omega), getElem?_eq_none (by omega), getD_none]

end

theorem map_range_splice (cells : Nat → Nat) (n : Nat) (xs : List Nat) :
    (List.range (n + xs.length)).map (splice cells n xs) = (List.range n).map cells ++ xs := by
  rw [List.range_add, List.map_append, List.map_map]
  congr 1
  · refine map_congr_left fun p hp => splice_of_lt (mem_range.1 hp)
  · refine ext_getElem? fun p => ?_
    rcases Nat.lt_or_ge p xs.length with hp | hp
    · have hx : xs[p]? = some xs[p] := getElem?_eq_getElem hp
      simp [getElem?_range hp, splice_add hx, hx]
    · simp [hp]

def Row.SameButBlocks (row row' : Row) : Prop :=
  ∃ bt nb, row' = { row with blockTable := bt, numBlocksPerRow := nb }

theorem Row.SameButBlocks.trans {a b c : Row} (h : a.SameButBlocks b) (h' : b.SameButBlocks c) : a.SameButBlocks c := by
  obtain ⟨bt, nb, rfl⟩ := h
  obtain ⟨bt', nb', rfl⟩ := h'
  exact ⟨bt', nb', rfl⟩

structure Row.TableStep (row row' : Row) (g : Nat) (bs : List Nat) : Prop where
  same : row.SameButBlocks row'
  here : row'.blocks g = bs
  other : ∀ h, h ≠ g → row'.blocks h = row.blocks h ∧ row'.numBlocksPerRow h = row.numBlocksPerRow h

theorem length_blocks (row : Row) (g : Nat) : (row.blocks g).length = row.numBlocksPerRow g := by
  simp [Row.blocks]

section
variable {t : TableConfig} {g : Nat} {ids : List Nat} {row : Row}

theorem Row.appendRow_spec
    (h : (row.blocks g).length + (mapToKernelBlocks t.blocksPerKvBlock ids).length ≤ t.maxNumBlocksPerReq) :
    ∃ row', row.appendRow t g ids = some row' ∧
      row.TableStep row' g (row.blocks g ++ mapToKernelBlocks t.blocksPerKvBlock ids) := by
  rw [length_blocks] at h
  by_cases hids : ids = []
  · refine ⟨row, if_pos hids, ⟨⟨_, _, rfl⟩, ?_, fun _ _ => ⟨rfl, rfl⟩⟩⟩
    rw [hids, length_mapToKernelBlocks_nil, append_nil]
  · refine ⟨_, (if_neg hids).trans (if_pos h), ⟨⟨_, _, rfl⟩, ?_, fun k hk => ?_⟩⟩
    · simp only [Row.blocks, update_self]
      exact map_range_splice _ _ _
    · simp only [Row.blocks, update_of_ne hk, and_self]

theorem Row.addRow_spec
    (h : (mapToKernelBlocks t.blocksPerKvBlock ids).length ≤ t.maxNumBlocksPerReq) :
    ∃ row', row.addRow t g ids = some row' ∧ row.TableStep row' g (mapToKernelBlocks t.blocksPerKvBlock ids) := by
  obtain ⟨row', hrow, hst⟩ := @Row.appendRow_spec t g ids
    { row with numBlocksPerRow := update row.numBlocksPerRow g 0 } (by simpa [length_blocks] using h)
  refine ⟨row', hrow, ⟨Row.SameButBlocks.trans ⟨_, _, rfl⟩ hst.same, ?_, fun k hk => ?_⟩⟩
  · rw [hst.here]
    simp [Row.blocks]
  · have := hst.other k hk
    simpa only [Row.blocks, update_of_ne hk] using this

end

section EachTable

variable {f : TableConfig → Nat → List Nat → Row → Option Row} {old : Row → Nat → List Nat}
  (hold : ∀ row row' : Row, ∀ g, row'.blocks g = row.blocks g → old row' g = old row g)
  (hf : ∀ t g ids row, (old row g).length + (mapToKernelBlocks t.blocksPerKvBlock ids).length ≤ t.maxNumBlocksPerReq →
    ∃ row', f t g ids row = some row' ∧ row.TableStep row' g (old row g ++ mapToKernelBlocks t.blocksPerKvBlock ids))
include hold hf

theorem eachTable_spec {ts : List TableConfig} {g : Nat} {ids : List (List Nat)} {row : Row}
    (hlen : ts.length ≤ ids.length) (hfit : ∀ j t, ts[j]? = some t → (old row (g + j)).length +
      (mapToKernelBlocks t.blocksPerKvBlock (ids.getD j [])).length ≤ t.maxNumBlocksPerReq) :
    ∃ row', eachTable f ts g ids row = some row' ∧ row.SameButBlocks row' ∧
      (∀ j t, ts[j]? = some t →
        row'.blocks (g + j) = old row (g + j) ++ mapToKernelBlocks t.blocksPerKvBlock (ids.getD j [])) ∧
      ∀ h < g, row'.blocks h = row.blocks h := by
  induction ts generalizing g ids row with
  | nil => exact ⟨row, rfl, ⟨_, _, rfl⟩, by simp, fun _ _ => rfl⟩
  | cons t ts ih =>
    obtain - | ⟨is, ids⟩ := ids
    · simp at hlen
    obtain ⟨row₁, h₁, hst⟩ := hf t g is row (hfit 0 t rfl)
    have hother : ∀ j, old row₁ (g + 1 + j) = old row (g + (j + 1)) := fun j => by
      rw [hold row row₁ _ (hst.other _ (by omega)).1, Nat.add_right_comm g 1 j, Nat.add_assoc g j 1]
    obtain ⟨row', h', hsame, hblocks, hlow⟩ := @ih (g + 1) ids row₁ (by simpa using hlen) fun j t' ht' => by
      rw [hother]
      exact hfit (j + 1) t' ht'
    refine ⟨row', by simp [eachTable, h₁, h'], hst.same.trans hsame, ?_, ?_⟩
    · intro j t' ht'
      obtain - | j := j
      · obtain rfl : t = t' := by simpa using ht'
        rw [Nat.add_zero, hlow g (by omega), hst.here]
        rfl
      · have := hblocks j t' (by simpa using ht')
        rw [hother, Nat.add_right_comm g 1 j, Nat.add_assoc g j 1] at this
        exact this
    · intro k hk
      rw [hlow k (by omega), (hst.other k (by omega)).1]

theorem eachTable_blocks (h : BlocksFit cfg (fun g => (old row g).length) ids) :
    ∃ row', eachTable f cfg.blockTables 0 ids row = some row' ∧ row.SameButBlocks row' ∧
      ∀ g < cfg.blockTables.length, row'.blocks g = old row g ++ kernelBlocks cfg ids g := by
  obtain ⟨row', hrow, hsame, hblocks, -⟩ := eachTable_spec (g := 0) hold hf h.1 fun j t ht => by
    rw [← kernelBlocks_of_some ht, Nat.zero_add]
    exact h.2 j t ht
  refine ⟨row', hrow, hsame, fun g hg => ?_⟩
  have ht : cfg.blockTables[g]? = some cfg.blockTables[g] := getElem?_eq_getElem hg
  have := hblocks g _ ht
  rw [Nat.zero_add] at this
  rw [kernelBlocks_of_some ht, this]

end EachTable

/-! ### Rows -/

structure CachedRequestState.Fits {ι : Type} (cfg : Config) (q : CachedRequestState ι) : Prop where
  tokens : ∃ n, q.numPromptTokens = some n ∧ n + q.outputTokenIds.2.length ≤ cfg.maxModelLen
  blocks : BlocksFit cfg (fun _ => 0) q.blockIds

theorem fillRow_spec {ι : Type} {cfg : Config} {q : CachedRequestState ι} {row : Row} (h : q.Fits cfg)
    (hg : row.generator = none) (hb : row.badWordsTokenIds = none) :
    ∃ row', InputBatch.fillRow cfg q row = some row' ∧ row'.Holds cfg (Entry.ofRequest cfg q) ∧
      row'.allowedTokenIdsMask = row.allowedTokenIdsMask := by
  obtain ⟨n, hn, hlen⟩ := h.tokens
  have hle : ¬ cfg.maxModelLen < n + q.outputTokenIds.2.length := by omega
  simp only [InputBatch.fillRow, hn, bind_eq_bind, bind_some, if_neg hle]
  generalize hr : Row.mk _ _ _ _ _ _ _ _ _ _ _ _ _ _ _ = filled
  obtain ⟨row', hrow, ⟨bt, nb, rfl⟩, hblocks⟩ := @eachTable_blocks cfg q.blockIds filled Row.addRow (fun _ _ => [])
    (fun _ _ _ _ => rfl) (fun t g ids row ht => Row.addRow_spec (by simpa using ht)) h.blocks
  rw [hrow]
  subst hr
  refine ⟨_, rfl, ?_, rfl⟩
  constructor
  case tokens =>
    intro p hp x hx
    simp only [Entry.ofRequest, hn, getD_some] at hp hx ⊢
    rcases Nat.lt_or_ge p n with hpn | hpn
    · rw [if_pos hpn] at hx
      rcases hids : q.promptTokenIds with - | ids
      · simp [hids] at hx
      · have hids' : ids[p]? = some x := by simpa [hids] using hx
        have : splice row.tokenIds 0 ids (0 + p) = x := splice_add hids'
        rw [splice_of_lt hpn]
        simpa using this
    · rw [if_neg (by omega)] at hx
      obtain ⟨k, rfl⟩ : ∃ k, p = n + k := ⟨p - n, by omega⟩
      rw [Nat.add_sub_cancel_left] at hx
      exact splice_add hx
  case blocks => exact hblocks
  case sampling => exact samplingRow_of cfg q.samplingParams
  case generator =>
    simp only [Entry.ofRequest, hg]
    cases q.generator <;> rfl
  case badWords =>
    simp only [Entry.ofRequest, hb]
    cases truthy q.samplingParams.badWordsTokenIds <;> rfl
  case lora =>
    simp only [Entry.ofRequest]
    cases q.loraRequest <;> rfl
  all_goals simp [Entry.ofRequest, hn]

def RowWrite.Fits (cfg : Config) (e : Entry) : RowWrite → Prop
  | .computed _ => True
  | .blocks ids => BlocksFit cfg (fun g => (e.blocks g).length) ids
  | .tokens start ids _ _ _ => start + ids.length ≤ cfg.maxModelLen

theorem BlocksFit.congr {n m : Nat → Nat} {ids : List (List Nat)} (h : BlocksFit cfg n ids)
    (hnm : ∀ g < cfg.blockTables.length, m g = n g) : BlocksFit cfg m ids := by
  refine ⟨h.1, fun g t ht => ?_⟩
  rw [hnm g (List.getElem?_eq_some_iff.1 ht).1]
  exact h.2 g t ht

variable {w : RowWrite}

theorem Row.write_spec (h : row.Holds cfg e) (hw : w.Fits cfg e) :
    ∃ row', row.write cfg w = some row' ∧ row'.Holds cfg (e.write cfg w) ∧
      row'.allowedTokenIdsMask = row.allowedTokenIdsMask := by
  cases w with
  | computed n => exact ⟨_, rfl, { h with numComputedTokens := rfl }, rfl⟩
  | blocks ids =>
    have hfit : BlocksFit cfg (fun g => (row.blocks g).length) ids :=
      BlocksFit.congr hw fun g hg => by rw [h.blocks g hg]
    obtain ⟨row', hrow, ⟨bt, nb, rfl⟩, hblocks⟩ :=
      eachTable_blocks (fun _ _ _ h => h) (fun t g ids row => Row.appendRow_spec) hfit
    refine ⟨_, hrow, { h with blocks := fun g hg => ?_ }, rfl⟩
    rw [hblocks g hg, h.blocks g hg]
    rfl
  | tokens start ids mark n m =>
    refine ⟨_, if_pos hw, { h with tokens := fun p _ x hx => ?_, numTokens := rfl, numTokensNoSpec := rfl }, rfl⟩
    simp only [Entry.write] at hx ⊢
    split at hx
    next hin =>
      obtain ⟨k, rfl⟩ : ∃ k, p = start + k := ⟨p - start, by omega⟩
      rw [Nat.add_sub_cancel_left] at hx
      exact splice_add hx
    next hout =>
      split at hx
      next hp =>
        have : splice row.tokenIds start ids p = row.tokenIds p := by
          rcases Nat.lt_or_ge p start with hlt | hge
          · exact splice_of_lt hlt
          · exact splice_of_le (by omega)
        rw [this]
        exact h.tokens p hp x hx
      next => cases hx

theorem movedRow_holds {alloc : Bool} {src tgt : Row} (h : src.Holds cfg e) (hg : tgt.generator = none)
    (hb : tgt.badWordsTokenIds = none) : (InputBatch.movedRow alloc src tgt).Holds cfg e := by
  refine ⟨?_, h.numTokens, h.numTokensNoSpec, h.numPromptTokens, h.numComputedTokens, ?_, h.sampling, ?_, ?_, h.lora⟩
  · intro p hp x hx
    have : p < src.numTokens := by rw [h.numTokens]; exact hp
    exact (if_pos this).trans (h.tokens p hp x hx)
  · intro g hg
    rw [← h.blocks g hg]
    refine map_congr_left fun p hp => if_pos (mem_range.1 hp)
  · rw [← h.generator]
    simp only [InputBatch.movedRow, hg]
    cases src.generator <;> rfl
  · rw [← h.badWords]
    simp only [InputBatch.movedRow, hb]
    cases src.badWordsTokenIds <;> rfl

theorem Row.Holds.of_mask (h : row.Holds cfg e) (m : Nat → Bool) :
    { row with allowedTokenIdsMask := m }.Holds cfg e :=
  { h with }

/-! ### The store -/

abbrev Store (ι : Type) := Dict ι Entry

section

variable {ι : Type} [DecidableEq ι]

def Store.exec (cfg : Config) (st : Store ι) : Op ι → Store ι
  | .remove r => st.pop r
  | .write r w => match st.get? r with
    | some e => st.set r (e.write cfg w)
    | none => st
  | .add q => st.set q.reqId (Entry.ofRequest cfg q)
  | .condense | .swap _ _ | .refresh => st

def Store.run (cfg : Config) (st : Store ι) (ops : List (Op ι)) : Store ι := ops.foldl (Store.exec cfg) st

def Store.Permits (cfg : Config) (st : Store ι) : Op ι → Prop
  | .write r w => ∃ e, st.get? r = some e ∧ w.Fits cfg e
  | .add q => st.get? q.reqId = none ∧ st.len < cfg.maxNumReqs ∧ q.Fits cfg
  | .swap i j => i < st.len ∧ j < st.len
  | .remove _ | .condense | .refresh => True

def Store.PermitsAll (cfg : Config) : Store ι → List (Op ι) → Prop
  | _, [] => True
  | st, op :: ops => st.Permits cfg op ∧ Store.PermitsAll cfg (st.exec cfg op) ops

namespace InputBatch

/-- Request `r` is listed under adapter `l`, and the adapter is kept. -/
def Listed (ids : Dict Nat (List ι)) (reqs : Dict Nat Obj) (r : ι) (l : Nat) : Prop :=
  (∃ s, ids.get? l = some s ∧ r ∈ s) ∧ (reqs.get? l).isSome

structure Core (cfg : Config) (b : InputBatch ι) (st : Store ι) : Prop where
  keys : ∀ r i, b.reqIdToIndex.get? r = some i ↔ b.reqIds[i]? = some (some r)
  count : b.numReqs = b.reqIds.countP isSome
  outputs : b.reqOutputTokenIds.length = b.reqIds.length
  specs : b.reqIds.length ≤ b.specTokenIds.length
  cap : b.reqIds.length ≤ cfg.maxNumReqs
  size : b.numReqs = st.len
  dom : ∀ r, (b.reqIdToIndex.get? r).isSome ↔ (st.get? r).isSome
  holds : ∀ r i e, b.reqIdToIndex.get? r = some i → st.get? r = some e →
    (b.rows i).Holds cfg e ∧ b.reqOutputTokenIds[i]? = some (some e.output)
  -- a row without a request has no entry in the dictionaries keyed by row
  clean : ∀ i, (∀ r, b.reqIdToIndex.get? r ≠ some i) → (b.rows i).generator = none ∧ (b.rows i).badWordsTokenIds = none
  lora : ∀ r i, b.reqIdToIndex.get? r = some i → (b.rows i).requestLoraMapping ≠ 0 →
    Listed b.loraIdToRequestIds b.loraIdToLoraRequest r (b.rows i).requestLoraMapping
  penalties : ∀ r, r ∈ b.frequencyPenaltiesReqs ∨ r ∈ b.presencePenaltiesReqs ∨ r ∈ b.repetitionPenaltiesReqs →
    (b.reqIdToIndex.get? r).isSome
  allowed : b.hasAllowedTokenIds ≠ [] → b.maskAllocated = true

structure Gaps (b : InputBatch ι) : Prop where
  holes : ∀ i, i ∈ b.builder.removed ↔ b.reqIds[i]? = some none
  nodup : b.builder.removed.Nodup
  count : b.numReqs + b.builder.removed.length = b.reqIds.length
  sorted : b.builder.isRemovedSorted = true → b.builder.removed.Pairwise (· ≥ ·)
  unmoved : b.builder.moved = []

def Packed (b : InputBatch ι) : Prop := ∀ i : Nat, b.reqIds[i]? ≠ some none

theorem core_init (cfg : Config) : (init cfg : InputBatch ι).Core cfg .empty where
  keys := by simp [init]
  count := rfl
  outputs := rfl
  specs := by simp [init]
  cap := by simp [init]
  size := rfl
  dom := by simp [init]
  holds := by simp [init]
  clean := fun _ _ => ⟨rfl, rfl⟩
  lora := by simp [init]
  penalties := by simp [init]
  allowed := by simp [init]

variable {cfg : Config} {b : InputBatch ι} {st : Store ι}

theorem Core.lt_length (h : b.Core cfg st) {r : ι} {i : Nat} (hr : b.reqIdToIndex.get? r = some i) :
    i < b.reqIds.length :=
  (List.getElem?_eq_some_iff.1 ((h.keys r i).1 hr)).1

variable {j : Nat} {o : Option Obj} {r' : ι} {specs : List (List Nat)} {u : BatchUpdateBuilder} {α : Type}

theorem Core.inj (h : b.Core cfg st) {r : ι} {i : Nat} (hr : b.reqIdToIndex.get? r = some i)
    (hr' : b.reqIdToIndex.get? r' = some i) : r = r' := by
  have h₁ := (h.keys r i).1 hr
  have h₂ := (h.keys r' i).1 hr'
  rw [h₁] at h₂
  simpa using h₂

theorem Core.get?_eq_none (h : b.Core cfg st) {r : ι} : b.reqIdToIndex.get? r = none ↔ st.get? r = none := by
  simpa using (h.dom r).not

theorem countP_set_add {p : α → Bool} {l : List α} {i : Nat} {a : α} (h : l[i]? = some a) (x : α) :
    (l.set i x).countP p + (if p a then 1 else 0) = l.countP p + if p x then 1 else 0 := by
  obtain ⟨hi, rfl⟩ := List.getElem?_eq_some_iff.1 h
  have := boole_getElem_le_countP (p := p) hi
  rw [countP_set hi]
  omega

theorem setItem_of_lt {l : List α} {i : Nat} (h : i < l.length) (x : α) : setItem l i x = some (l.set i x) :=
  if_pos h

/-! ### Removing -/

variable {q : CachedRequestState ι} {i : Nat} {r : ι}

theorem removeLora_spec {lora : Nat} (h : lora ≠ 0 → Listed b.loraIdToRequestIds b.loraIdToLoraRequest r lora) :
    ∃ ids reqs, b.removeLora r lora = some { b with loraIdToRequestIds := ids, loraIdToLoraRequest := reqs } ∧
      ∀ r' l, r' ≠ r → Listed b.loraIdToRequestIds b.loraIdToLoraRequest r' l → Listed ids reqs r' l := by
  by_cases h0 : lora = 0
  · exact ⟨_, _, if_pos h0, fun _ _ _ h' => h'⟩
  obtain ⟨⟨s, hs, hr⟩, hreq⟩ := h h0
  obtain ⟨x, hx⟩ := isSome_iff_exists.1 hreq
  by_cases hnil : s.filter (· ≠ r) = []
  · refine ⟨b.loraIdToRequestIds.pop lora, b.loraIdToLoraRequest.pop lora, ?_, ?_⟩
    · simp only [removeLora, if_neg h0, hs, hx, bind_eq_bind, bind_some, if_pos hnil]
    · rintro r' l hne ⟨⟨s', hs', hr'⟩, hreq'⟩
      have hl : l ≠ lora := by
        rintro rfl
        obtain rfl : s = s' := by simpa [hs] using hs'
        have : r' ∈ s.filter (· ≠ r) := mem_filter.2 ⟨hr', by simpa using hne⟩
        rw [hnil] at this
        cases this
      rw [Listed, get?_pop_of_ne hl, get?_pop_of_ne hl]
      exact ⟨⟨s', hs', hr'⟩, hreq'⟩
  · refine ⟨b.loraIdToRequestIds.set lora (s.filter (· ≠ r)), b.loraIdToLoraRequest, ?_, ?_⟩
    · simp only [removeLora, if_neg h0, hs, bind_eq_bind, bind_some, if_neg hnil]
    · rintro r' l hne ⟨⟨s', hs', hr'⟩, hreq'⟩
      refine ⟨?_, hreq'⟩
      by_cases hl : l = lora
      · subst hl
        obtain rfl : s = s' := by simpa [hs] using hs'
        exact ⟨_, get?_set_self _ _ _, mem_filter.2 ⟨hr', by simpa using hne⟩⟩
      · exact ⟨s', by rw [get?_set_of_ne hl, hs'], hr'⟩

theorem removeRequest_eq {i : Nat} (h : b.Core cfg st) (hs : b.builder.isRemovedSorted = false)
    (hr : b.reqIdToIndex.get? r = some i) :
    ∃ lids lreqs, b.removeRequest r = some { b with
        reqIdToIndex := b.reqIdToIndex.pop r
        builder := { b.builder with removed := b.builder.removed ++ [i] }
        reqIds := b.reqIds.set i none
        reqOutputTokenIds := b.reqOutputTokenIds.set i none
        specTokenIds := b.specTokenIds.set i []
        rows := update b.rows i (clearRow b.maskAllocated (b.rows i))
        frequencyPenaltiesReqs := b.frequencyPenaltiesReqs.filter (· ≠ r)
        presencePenaltiesReqs := b.presencePenaltiesReqs.filter (· ≠ r)
        repetitionPenaltiesReqs := b.repetitionPenaltiesReqs.filter (· ≠ r)
        hasAllowedTokenIds := b.hasAllowedTokenIds.filter (· ≠ r)
        loraIdToRequestIds := lids
        loraIdToLoraRequest := lreqs } ∧
      ∀ r' l, r' ≠ r → Listed b.loraIdToRequestIds b.loraIdToLoraRequest r' l → Listed lids lreqs r' l := by
  have hi := h.lt_length hr
  obtain ⟨lids, lreqs, hlora, hkeep⟩ := removeLora_spec (b := b) (h.lora r i hr)
  refine ⟨lids, lreqs, ?_, hkeep⟩
  simp [removeRequest, hr, BatchUpdateBuilder.removedAppend, hs, setItem_of_lt hi,
    setItem_of_lt (h.outputs.symm ▸ hi), setItem_of_lt (Nat.lt_of_lt_of_le hi h.specs), hlora]

theorem remove_spec (h : b.Core cfg st) (hg : b.Gaps) (hs : b.builder.isRemovedSorted = false) :
    ∃ b', b.removeRequest r = some b' ∧ b'.Core cfg (st.pop r) ∧ b'.Gaps ∧ b'.builder.isRemovedSorted = false := by
  rcases hr : b.reqIdToIndex.get? r with - | i
  · exact ⟨b, by simp [removeRequest, hr], by rwa [pop_of_none (h.get?_eq_none.1 hr)], hg, hs⟩
  have hi := h.lt_length hr
  have hri := (h.keys r i).1 hr
  obtain ⟨lids, lreqs, hsome, hkeep⟩ := removeRequest_eq h hs hr
  have hlen := len_pop_of_some hr
  have hne : ∀ r' j, (b.reqIdToIndex.pop r).get? r' = some j → r' ≠ r ∧ j ≠ i ∧ b.reqIdToIndex.get? r' = some j := by
    intro r' j hr'
    have hrr : r' ≠ r := by
      rintro rfl
      simp at hr'
    rw [get?_pop_of_ne hrr] at hr'
    exact ⟨hrr, fun hj => hrr (h.inj (hj ▸ hr') hr), hr'⟩
  refine ⟨_, hsome, ?_, ?_, hs⟩
  · constructor
    case keys => grind [h.keys]
    case count =>
      have hc := h.count
      have := countP_set_add (p := isSome) hri none
      simp only [numReqs, isSome_some, isSome_none, if_true, Bool.false_eq_true, if_false] at hc this ⊢
      omega
    case outputs => simp [h.outputs]
    case specs => simp [h.specs]
    case cap => simpa using h.cap
    case size =>
      obtain ⟨e, he⟩ := isSome_iff_exists.1 ((h.dom r).1 (by simp [hr]))
      have hlen' := len_pop_of_some he
      have hsz := h.size
      simp only [numReqs] at hsz ⊢
      omega
    case dom => grind [h.dom]
    case holds =>
      intro r' j e hr' he
      obtain ⟨hrr, hj, hr'⟩ := hne r' j hr'
      rw [get?_pop_of_ne hrr] at he
      obtain ⟨hh, ho⟩ := h.holds r' j e hr' he
      simp only [update_of_ne hj, getElem?_set_ne hj.symm]
      exact ⟨hh, ho⟩
    case clean =>
      intro j hj
      by_cases hji : j = i
      · simp [hji, clearRow]
      · simp only [update_of_ne hji]
        refine h.clean j fun r' hr' => ?_
        have hrr : r' ≠ r := fun hrr => hji (by rw [hrr, hr] at hr'; exact (some.inj hr').symm)
        exact hj r' (by rw [get?_pop_of_ne hrr]; exact hr')
    case lora =>
      intro r' j hr'
      obtain ⟨hrr, hj, hr'⟩ := hne r' j hr'
      simp only [update_of_ne hj]
      exact fun hl => hkeep r' _ hrr (h.lora r' j hr' hl)
    case penalties =>
      intro r' hr'
      simp only [mem_filter, decide_eq_true_eq] at hr'
      have hrr : r' ≠ r := by tauto
      rw [get?_pop_of_ne hrr]
      exact h.penalties r' (by tauto)
    case allowed =>
      intro hne
      refine h.allowed fun hnil => hne ?_
      rw [hnil]
      rfl
  · constructor
    case holes =>
      intro j
      have := hg.holes j
      grind
    case nodup =>
      refine hg.nodup.append (by simp) ?_
      have : i ∉ b.builder.removed := by
        rw [hg.holes, hri]
        simp
      simpa using this
    case count =>
      have := hg.count
      simp only [numReqs, length_append, length_singleton, length_set] at this ⊢
      omega
    case sorted => simp [hs]
    case unmoved => exact hg.unmoved

/-! ### Writing -/

theorem exec_write_eq (h : b.Core cfg st) (hp : st.Permits cfg (.write r w)) :
    ∃ i e row, b.reqIdToIndex.get? r = some i ∧ st.get? r = some e ∧ row.Holds cfg (e.write cfg w) ∧
      row.allowedTokenIdsMask = (b.rows i).allowedTokenIdsMask ∧ (b.rows i).Holds cfg e ∧
      b.exec cfg (.write r w) = some { b with rows := update b.rows i row } := by
  obtain ⟨e, he, hw⟩ := hp
  obtain ⟨i, hi⟩ := isSome_iff_exists.1 ((h.dom r).2 (by simp [he]))
  obtain ⟨hh, -⟩ := h.holds r i e hi he
  obtain ⟨row, hrow, hrow', hm⟩ := Row.write_spec hh hw
  refine ⟨i, e, row, hi, he, hrow', hm, hh, ?_⟩
  simp [exec, hi, hrow]

theorem Entry.write_frame (cfg : Config) (e : Entry) (w : RowWrite) :
    (e.write cfg w).output = e.output ∧ (e.write cfg w).lora = e.lora ∧ (e.write cfg w).allowed = e.allowed := by
  cases w <;> simp [Entry.write]

theorem write_core (h : b.Core cfg st) {i : Nat} {e : Entry} {row : Row}
    (hi : b.reqIdToIndex.get? r = some i) (he : st.get? r = some e) (hrow : row.Holds cfg (e.write cfg w))
    (hold : (b.rows i).Holds cfg e) :
    { b with rows := update b.rows i row }.Core cfg (st.exec cfg (.write r w)) := by
  have hst : st.exec cfg (.write r w) = st.set r (e.write cfg w) := by simp [Store.exec, he]
  obtain ⟨hout, hlora, -⟩ := Entry.write_frame cfg e w
  rw [hst]
  refine { h with size := h.size.trans (len_set_of_some he).symm, dom := ?_, holds := ?_, clean := ?_, lora := ?_ }
  case refine_1 =>
    intro r'
    have := h.dom r'
    by_cases hrr : r' = r
    · simp [hrr, hi]
    · rw [get?_set_of_ne hrr]
      exact this
  case refine_2 =>
    intro r' j e' hr' he'
    by_cases hrr : r' = r
    · subst hrr
      obtain rfl : i = j := by simpa [hi] using hr'
      obtain rfl : e.write cfg w = e' := by simpa using he'
      simp only [hout, update_self]
      exact ⟨hrow, (h.holds r' i e hi he).2⟩
    · have hj : j ≠ i := fun hj => hrr (h.inj (hj ▸ hr') hi)
      rw [get?_set_of_ne hrr] at he'
      simp only [update_of_ne hj]
      exact h.holds r' j e' hr' he'
  case refine_3 =>
    intro j hj
    have hji : j ≠ i := fun hji => hj r (hji ▸ hi)
    simp only [update_of_ne hji]
    exact h.clean j hj
  case refine_4 =>
    intro r' j hr'
    have hmap : (update b.rows i row j).requestLoraMapping = (b.rows j).requestLoraMapping := by
      by_cases hji : j = i
      · rw [hji, update_self, hrow.lora, hlora, hold.lora]
      · rw [update_of_ne hji]
    simp only [hmap]
    exact h.lora r' j hr'

/-! ### Adding -/

theorem ensureRemovedSorted_spec (h : u.isRemovedSorted = true → u.removed.Pairwise (· ≥ ·)) :
    u.ensureRemovedSorted.removed.Perm u.removed ∧ u.ensureRemovedSorted.removed.Pairwise (· ≥ ·) ∧
      u.ensureRemovedSorted.isRemovedSorted = true := by
  rw [BatchUpdateBuilder.ensureRemovedSorted]
  split
  next hs => exact ⟨.refl _, h hs, hs⟩
  next hs => exact ⟨perm_insertionSort _ _, pairwise_insertionSort _ _, rfl⟩

theorem ensureRemovedSorted_frame (u : BatchUpdateBuilder) :
    u.ensureRemovedSorted.added = u.added ∧ u.ensureRemovedSorted.moved = u.moved := by
  rw [BatchUpdateBuilder.ensureRemovedSorted]
  split <;> exact ⟨rfl, rfl⟩

theorem popRemoved_spec (h : u.isRemovedSorted = true → u.removed.Pairwise (· ≥ ·)) (hne : u.removed ≠ []) :
    ∃ i u', u.popRemoved = (some i, u') ∧ (i :: u'.removed).Perm u.removed ∧
      (u'.isRemovedSorted = true → u'.removed.Pairwise (· ≥ ·)) ∧ u'.added = u.added ∧ u'.moved = u.moved := by
  obtain ⟨hperm, hsorted, -⟩ := ensureRemovedSorted_spec h
  have hne' : u.ensureRemovedSorted.removed ≠ [] := fun hnil => hne (by simpa [hnil] using hperm)
  have hsplit := dropLast_append_getLast hne'
  refine ⟨u.ensureRemovedSorted.removed.getLast hne',
    { u.ensureRemovedSorted with removed := u.ensureRemovedSorted.removed.dropLast },
    ?_, ?_, fun _ => hsorted.sublist (dropLast_sublist _), (ensureRemovedSorted_frame u).1,
      (ensureRemovedSorted_frame u).2⟩
  · rw [BatchUpdateBuilder.popRemoved, if_neg hne]
    simp only [getLast?_eq_some_getLast hne']
  · refine List.Perm.trans ?_ hperm
    exact (perm_append_singleton _ _).symm.trans (.of_eq hsplit)

/-- Where a new request goes: its row, the lists that it is entered in and the update that records it. -/
structure Slot (ι : Type) where
  index : Nat
  row : Row
  builder : BatchUpdateBuilder
  ids : List (Option ι)
  outs : List (Option Obj)
  specs : List (List Nat)

structure Added (cfg : Config) (b : InputBatch ι) (q : CachedRequestState ι) (x : Slot ι) : Prop where
  next : b.builder.popRemoved.1.getD b.numReqs = x.index
  recorded : x.builder.added = b.builder.added ++ [(x.index, q.samplingParams, q.promptTokenIds, q.outputTokenIds.1)]
  free : ∀ r, b.reqIdToIndex.get? r ≠ some x.index
  holds : x.row.Holds cfg (Entry.ofRequest cfg q)
  mask : x.row.allowedTokenIdsMask = (b.rows x.index).allowedTokenIdsMask
  idAt : ∀ j, x.ids[j]? = if j = x.index then some (some q.reqId) else b.reqIds[j]?
  outputAt : ∀ j, x.outs[j]? = if j = x.index then some (some q.outputTokenIds.1) else b.reqOutputTokenIds[j]?
  count : x.ids.countP isSome = b.reqIds.countP isSome + 1
  outputs : x.outs.length = x.ids.length
  enough : x.ids.length ≤ x.specs.length
  cap : x.ids.length ≤ cfg.maxNumReqs
  holes : ∀ j, j ∈ x.builder.removed ↔ x.ids[j]? = some none
  nodup : x.builder.removed.Nodup
  gaps : b.numReqs + 1 + x.builder.removed.length = x.ids.length
  sorted : x.builder.isRemovedSorted = true → x.builder.removed.Pairwise (· ≥ ·)
  unmoved : x.builder.moved = []

def addedTo (b : InputBatch ι) (q : CachedRequestState ι) (x : Slot ι) : InputBatch ι :=
  { b with
    builder := x.builder, reqIds := x.ids, reqOutputTokenIds := x.outs, specTokenIds := x.specs
    reqIdToIndex := b.reqIdToIndex.set q.reqId x.index
    rows := update b.rows x.index x.row }

def added (b : InputBatch ι) (q : CachedRequestState ι) (x : Slot ι) : InputBatch ι :=
  ((b.addedTo q x).addSampling x.index q).addLora q

theorem Core.not_free_iff (h : b.Core cfg st) {i : Nat} : (∀ r, b.reqIdToIndex.get? r ≠ some i) ↔
    b.reqIds[i]? = none ∨ b.reqIds[i]? = some none := by
  constructor
  · intro hf
    rcases hi : b.reqIds[i]? with - | - | r
    · exact .inl rfl
    · exact .inr rfl
    · exact absurd ((h.keys r i).2 hi) (hf r)
  · intro hi r hr
    rw [(h.keys r i).1 hr] at hi
    simp at hi

section
variable (h : b.Core cfg st) (hg : b.Gaps) (hp : st.Permits cfg (.add q))
include h hp

theorem fillRow_free (hi : ∀ r, b.reqIdToIndex.get? r ≠ some i) :
    ∃ row, fillRow cfg q (b.rows i) = some row ∧ row.Holds cfg (Entry.ofRequest cfg q) ∧
      row.allowedTokenIdsMask = (b.rows i).allowedTokenIdsMask :=
  fillRow_spec hp.2.2 (h.clean i hi).1 (h.clean i hi).2

include hg

theorem addRequest_last (hnil : b.builder.removed = []) :
    ∃ x, Added cfg b q x ∧ b.addRequest cfg q = some (b.added q x) := by
  have hlen : b.numReqs = b.reqIds.length := by
    have := hg.count
    simpa [hnil] using this
  have hfree : ∀ r, b.reqIdToIndex.get? r ≠ some b.reqIds.length := h.not_free_iff.2 (.inl (by simp))
  obtain ⟨row, hrow, hholds, hmask⟩ := fillRow_free h hp hfree
  have hlt : b.reqIds.length < cfg.maxNumReqs := by
    have := h.size
    have := hp.2.1
    omega
  refine ⟨⟨b.reqIds.length, row, { b.builder with added := b.builder.added ++
      [(b.reqIds.length, q.samplingParams, q.promptTokenIds, q.outputTokenIds.1)] }, b.reqIds ++ [some q.reqId],
    b.reqOutputTokenIds ++ [some q.outputTokenIds.1], b.specTokenIds ++ [[]]⟩, ?_, ?_⟩
  case refine_2 =>
    simp only [addRequest, registerAddRequest, BatchUpdateBuilder.popRemoved, if_pos hnil, getD_none,
      hlen, if_pos hlt, bind_eq_bind, bind_some, addToLists, if_true, hrow]
    rfl
  constructor
  case next => simp [BatchUpdateBuilder.popRemoved, hnil, hlen]
  case recorded => rfl
  case free => exact hfree
  case holds => exact hholds
  case mask => exact hmask
  case idAt =>
    intro j
    grind
  case outputAt =>
    intro j
    have := h.outputs
    grind
  case count => simp [countP_append]
  case outputs => simp [h.outputs]
  case enough => simpa using h.specs
  case cap =>
    simp only [length_append, length_singleton]
    exact hlt
  case holes =>
    intro j
    have := hg.holes j
    grind
  case nodup => exact hg.nodup
  case gaps => simp [hlen, hnil]
  case sorted => exact hg.sorted
  case unmoved => exact hg.unmoved

theorem addRequest_gap (hne : b.builder.removed ≠ []) :
    ∃ x, Added cfg b q x ∧ b.addRequest cfg q = some (b.added q x) := by
  obtain ⟨i, u, hpop, hperm, hsorted, hadded, hmoved⟩ := popRemoved_spec hg.sorted hne
  have hgap : b.reqIds[i]? = some none := (hg.holes i).1 (hperm.mem_iff.1 (by simp))
  have hi : i < b.reqIds.length := (List.getElem?_eq_some_iff.1 hgap).1
  have hfree : ∀ r, b.reqIdToIndex.get? r ≠ some i := h.not_free_iff.2 (.inr hgap)
  obtain ⟨row, hrow, hholds, hmask⟩ := fillRow_free h hp hfree
  have hnd : (i :: u.removed).Nodup := hperm.nodup_iff.2 hg.nodup
  refine ⟨⟨i, row, { u with added := u.added ++ [(i, q.samplingParams, q.promptTokenIds, q.outputTokenIds.1)] },
    b.reqIds.set i (some q.reqId), b.reqOutputTokenIds.set i (some q.outputTokenIds.1),
      b.specTokenIds.set i []⟩, ?_, ?_⟩
  case refine_2 =>
    simp only [addRequest, registerAddRequest, hpop, getD_some, if_pos (Nat.lt_of_lt_of_le hi h.cap),
      bind_eq_bind, bind_some, addToLists, if_neg (Nat.ne_of_lt hi), setItem_of_lt hi,
      setItem_of_lt (h.outputs.symm ▸ hi), setItem_of_lt (Nat.lt_of_lt_of_le hi h.specs), hrow]
    rfl
  constructor
  case next => rw [hpop, getD_some]
  case recorded => rw [hadded]
  case free => exact hfree
  case holds => exact hholds
  case mask => exact hmask
  case idAt =>
    intro j
    grind
  case outputAt =>
    intro j
    have := h.outputs
    grind
  case count =>
    have := countP_set_add (p := isSome) hgap (some q.reqId)
    simpa using this
  case outputs => simp [h.outputs]
  case enough => simpa using h.specs
  case cap => simpa using h.cap
  case holes =>
    intro j
    have := hg.holes j
    have := @List.Perm.mem_iff _ j _ _ hperm
    grind
  case nodup => exact (nodup_cons.1 hnd).2
  case gaps =>
    have := hg.count
    have := hperm.length_eq
    simp only [length_cons, length_set] at this ⊢
    omega
  case sorted => exact hsorted
  case unmoved => exact hmoved.trans hg.unmoved

theorem addRequest_eq : ∃ x, Added cfg b q x ∧ b.addRequest cfg q = some (b.added q x) := by
  by_cases hnil : b.builder.removed = []
  · exact addRequest_last h hg hp hnil
  · exact addRequest_gap h hg hp hnil

end

variable (b i)

theorem rows_addSampling (q : CachedRequestState ι) (j : Nat) :
    ∃ m, (b.addSampling i q).rows j = { b.rows j with allowedTokenIdsMask := m } := by
  rw [addSampling]
  rcases truthy q.samplingParams.allowedTokenIds with - | ids
  · exact ⟨_, rfl⟩
  · simp only [writeMask]
    by_cases hj : j = i
    · subst hj
      rw [update_self]
      cases b.maskAllocated <;> exact ⟨_, rfl⟩
    · rw [update_of_ne hj]
      cases b.maskAllocated <;> exact ⟨_, rfl⟩

theorem addSampling_frame (q : CachedRequestState ι) :
    let b' := b.addSampling i q
    b'.reqIds = b.reqIds ∧ b'.reqIdToIndex = b.reqIdToIndex ∧ b'.reqOutputTokenIds = b.reqOutputTokenIds ∧
      b'.specTokenIds = b.specTokenIds ∧ b'.builder = b.builder ∧ b'.loraIdToRequestIds = b.loraIdToRequestIds ∧
      b'.loraIdToLoraRequest = b.loraIdToLoraRequest := by
  rw [addSampling]
  rcases truthy q.samplingParams.allowedTokenIds with - | ids <;> simp

theorem addLora_frame (q : CachedRequestState ι) :
    ∃ lids lreqs, b.addLora q = { b with loraIdToRequestIds := lids, loraIdToLoraRequest := lreqs } := by
  rw [addLora]
  rcases q.loraRequest with - | ⟨l, x⟩
  · exact ⟨_, _, rfl⟩
  · exact ⟨_, _, rfl⟩

theorem added_frame (q : CachedRequestState ι) (x : Slot ι) : (b.added q x).reqIds = x.ids ∧
    (b.added q x).reqIdToIndex = b.reqIdToIndex.set q.reqId x.index ∧ (b.added q x).builder = x.builder := by
  obtain ⟨hids, hidx, -, -, hu, -⟩ := addSampling_frame (b.addedTo q x) x.index q
  obtain ⟨lids, lreqs, hlora⟩ := addLora_frame ((b.addedTo q x).addSampling x.index q) q
  simp only [added, hlora]
  exact ⟨hids, hidx, hu⟩

variable {b i}

theorem mem_addToSet {s : List ι} {r : ι} {p : Bool} (h : r' ∈ addToSet s r p) : r' ∈ s ∨ r' = r := by
  rw [addToSet] at h
  split at h
  · exact (mem_insert_iff.1 h).symm
  · exact .inl h

theorem addSampling_penalties
    (h : r ∈ (b.addSampling i q).frequencyPenaltiesReqs ∨ r ∈ (b.addSampling i q).presencePenaltiesReqs ∨
      r ∈ (b.addSampling i q).repetitionPenaltiesReqs) :
    (r ∈ b.frequencyPenaltiesReqs ∨ r ∈ b.presencePenaltiesReqs ∨ r ∈ b.repetitionPenaltiesReqs) ∨ r = q.reqId := by
  obtain ⟨p₁, p₂, p₃, h₁, h₂, h₃⟩ : ∃ p₁ p₂ p₃,
      (b.addSampling i q).frequencyPenaltiesReqs = addToSet b.frequencyPenaltiesReqs q.reqId p₁ ∧
      (b.addSampling i q).presencePenaltiesReqs = addToSet b.presencePenaltiesReqs q.reqId p₂ ∧
      (b.addSampling i q).repetitionPenaltiesReqs = addToSet b.repetitionPenaltiesReqs q.reqId p₃ := by
    rw [addSampling]
    rcases truthy q.samplingParams.allowedTokenIds with - | ids <;> exact ⟨_, _, _, rfl, rfl, rfl⟩
  rw [h₁, h₂, h₃] at h
  rcases h with h | h | h <;> rcases mem_addToSet h with h | h <;> tauto

theorem addSampling_allowed
    (h : b.hasAllowedTokenIds ≠ [] → b.maskAllocated = true) (hne : (b.addSampling i q).hasAllowedTokenIds ≠ []) :
    (b.addSampling i q).maskAllocated = true := by
  rw [addSampling] at hne ⊢
  rcases hids : truthy q.samplingParams.allowedTokenIds with - | ids
  · rw [hids] at hne
    exact h hne
  · rfl

theorem addLora_spec {l : Nat} (h : (r ≠ q.reqId ∧ Listed b.loraIdToRequestIds b.loraIdToLoraRequest r l) ∨
      (r = q.reqId ∧ q.loraRequest.map Prod.fst = some l)) :
    Listed (b.addLora q).loraIdToRequestIds (b.addLora q).loraIdToLoraRequest r l := by
  rw [addLora, Listed]
  rcases hq : q.loraRequest with - | ⟨l', x⟩
  · rcases h with h | h
    · exact h.2
    · simp [hq] at h
  · by_cases hl : l = l'
    · subst hl
      simp only [get?_set_self, some.injEq, exists_eq_left', mem_insert_iff, isSome_some, and_true]
      rcases h with ⟨-, ⟨s, hs, hr⟩, -⟩ | h
      · exact .inr (by rw [hs]; exact hr)
      · exact .inl h.1
    · simp only [get?_set_of_ne hl]
      rcases h with h | ⟨-, h⟩
      · exact h.2
      · rw [hq] at h
        exact absurd (some.inj h).symm hl

section Add
variable {x : Slot ι} (h : b.Core cfg st) (hnew : st.get? q.reqId = none) (ha : Added cfg b q x)
include h hnew ha

theorem add_core : (b.added q x).Core cfg (st.exec cfg (.add q)) := by
  have hnew' := h.get?_eq_none.2 hnew
  have hframe := addSampling_frame (b.addedTo q x) x.index q
  have hrows := rows_addSampling (b.addedTo q x) x.index q
  have hpen := @addSampling_penalties ι _ (b.addedTo q x) q x.index
  have hallowed := @addSampling_allowed ι _ (b.addedTo q x) q x.index h.allowed
  rw [added]
  generalize (b.addedTo q x).addSampling x.index q = b' at *
  simp only [addedTo] at hframe hrows hpen
  obtain ⟨fids, fidx, fouts, fspecs, -, flids, flreqs⟩ := hframe
  obtain ⟨lids, lreqs, hlora⟩ := addLora_frame b' q
  have hspec := @addLora_spec ι _ b' q
  rw [hlora] at hspec ⊢
  have hget : ∀ r j, (b.reqIdToIndex.set q.reqId x.index).get? r = some j →
      (r = q.reqId ∧ j = x.index) ∨ (r ≠ q.reqId ∧ j ≠ x.index ∧ b.reqIdToIndex.get? r = some j) := by
    intro r j hr
    rw [get?_set] at hr
    split at hr
    next hrr => exact .inl ⟨hrr, (some.inj hr).symm⟩
    next hrr => exact .inr ⟨hrr, fun hj => ha.free r (hj ▸ hr), hr⟩
  simp only [Store.exec]
  constructor
  case keys =>
    intro r j
    simp only [fids, fidx, ha.idAt, get?_set]
    have hkey := h.keys r j
    by_cases hrr : r = q.reqId
    · rw [if_pos hrr]
      by_cases hj : j = x.index
      · simp [hrr, hj]
      · rw [hrr, hnew'] at hkey
        rw [if_neg hj, hrr, ← hkey]
        simpa using fun hij => hj hij.symm
    · rw [if_neg hrr]
      by_cases hj : j = x.index
      · rw [if_pos hj, hj]
        simp only [ha.free r, some.injEq, false_iff]
        exact fun hrr' => hrr hrr'.symm
      · rw [if_neg hj]
        exact hkey
  case count =>
    have := h.count
    simp only [numReqs, fids, fidx, ha.count, len_set_of_none hnew'] at this ⊢
    omega
  case outputs => simpa only [fids, fouts] using ha.outputs
  case specs => simpa only [fids, fspecs] using ha.enough
  case cap => simpa only [fids] using ha.cap
  case size =>
    have := h.size
    simp only [numReqs, fidx, len_set_of_none hnew', len_set_of_none hnew] at this ⊢
    omega
  case dom =>
    intro r
    have := h.dom r
    simp only [fidx, get?_set]
    split
    · simp
    · exact this
  case holds =>
    intro r j e hr he
    simp only [fidx] at hr
    obtain ⟨m, hm⟩ := hrows j
    simp only [hm, fouts, ha.outputAt]
    rcases hget r j hr with ⟨rfl, rfl⟩ | ⟨hrr, hj, hr⟩
    · obtain rfl : Entry.ofRequest cfg q = e := by simpa using he
      rw [update_self, if_pos rfl]
      exact ⟨ha.holds.of_mask m, rfl⟩
    · rw [get?_set_of_ne hrr] at he
      rw [update_of_ne hj, if_neg hj]
      obtain ⟨hh, ho⟩ := h.holds r j e hr he
      exact ⟨hh.of_mask m, ho⟩
  case clean =>
    intro j hj
    simp only [fidx] at hj
    obtain ⟨m, hm⟩ := hrows j
    have hji : j ≠ x.index := fun hji => hj q.reqId (by rw [get?_set_self, hji])
    simp only [hm, update_of_ne hji]
    refine h.clean j fun r hr => hj r ?_
    rwa [get?_set_of_ne]
    rintro rfl
    rw [hnew'] at hr
    cases hr
  case lora =>
    intro r j hr hl
    simp only [fidx] at hr
    obtain ⟨m, hm⟩ := hrows j
    simp only [hm] at hl ⊢
    refine hspec ?_
    rcases hget r j hr with ⟨rfl, rfl⟩ | ⟨hrr, hj, hr⟩
    · right
      rw [update_self, ha.holds.lora, Entry.ofRequest] at hl ⊢
      rcases hq : q.loraRequest with - | ⟨l, y⟩
      · simp [hq] at hl
      · exact ⟨rfl, rfl⟩
    · left
      rw [update_of_ne hj] at hl ⊢
      rw [flids, flreqs]
      exact ⟨hrr, h.lora r j hr hl⟩
  case penalties =>
    intro r hr
    simp only [fidx, get?_set]
    rcases hpen hr with hr | hr
    · split
      · rfl
      · exact h.penalties r hr
    · rw [if_pos hr]
      rfl
  case allowed => exact hallowed

theorem add_gaps : (b.added q x).Gaps := by
  have hnew' := h.get?_eq_none.2 hnew
  obtain ⟨fids, fidx, fu⟩ := added_frame b q x
  constructor
  case holes => simpa only [fids, fu] using ha.holes
  case nodup => simpa only [fu] using ha.nodup
  case count =>
    have := ha.gaps
    simp only [numReqs, fids, fidx, fu, len_set_of_none hnew'] at this ⊢
    exact this
  case sorted => simpa only [fu] using ha.sorted
  case unmoved => simpa only [fu] using ha.unmoved

end Add

/-! ### Moving rows -/

variable {b' : InputBatch ι}

/-- Rows change places, each with what belongs to it. A row without a request takes part as one with nothing in it. -/
theorem Core.relocate (h : b.Core cfg st) (π : Equiv.Perm Nat)
    (hindex : ∀ r k, b'.reqIdToIndex.get? r = some k ↔ b.reqIdToIndex.get? r = some (π k))
    (hids : ∀ k : Nat, b'.reqIds[k]? = b.reqIds[π k]?)
    (houts : ∀ r k, b.reqIdToIndex.get? r = some (π k) →
      b'.reqOutputTokenIds[k]? = b.reqOutputTokenIds[π k]?)
    (hcount : b'.reqIds.countP isSome = b.reqIds.countP isSome)
    (hlen : b'.reqIds.length = b.reqIds.length)
    (hlen' : b'.reqOutputTokenIds.length = b.reqOutputTokenIds.length)
    (hspecs : b'.specTokenIds.length = b.specTokenIds.length)
    (hnum : b'.numReqs = b.numReqs) (hrows : ∀ r k e, b.reqIdToIndex.get? r = some (π k) →
      (b.rows (π k)).Holds cfg e → (b'.rows k).Holds cfg e)
    (hclean : ∀ k, (∀ r, b.reqIdToIndex.get? r ≠ some (π k)) → (b'.rows k).generator = none ∧
      (b'.rows k).badWordsTokenIds = none) (hlora : ∀ r k, b.reqIdToIndex.get? r = some (π k) →
      (b'.rows k).requestLoraMapping = (b.rows (π k)).requestLoraMapping)
    (hadapters : b'.loraIdToRequestIds = b.loraIdToRequestIds ∧
      b'.loraIdToLoraRequest = b.loraIdToLoraRequest)
    (hsets : b'.frequencyPenaltiesReqs = b.frequencyPenaltiesReqs ∧ b'.presencePenaltiesReqs =
      b.presencePenaltiesReqs ∧ b'.repetitionPenaltiesReqs = b.repetitionPenaltiesReqs)
    (hmask : b'.hasAllowedTokenIds = b.hasAllowedTokenIds ∧ b'.maskAllocated = b.maskAllocated) :
    b'.Core cfg st := by
  have hdom : ∀ r, (b'.reqIdToIndex.get? r).isSome ↔ (b.reqIdToIndex.get? r).isSome := by
    intro r
    simp only [isSome_iff_exists, hindex]
    exact (π.surjective.exists (p := fun k => b.reqIdToIndex.get? r = some k)).symm
  constructor
  case keys => exact fun r k => by rw [hindex, hids, h.keys]
  case count => rw [hnum, hcount, h.count]
  case outputs => rw [hlen, hlen', h.outputs]
  case specs => rw [hlen, hspecs]; exact h.specs
  case cap => rw [hlen]; exact h.cap
  case size => exact hnum.trans h.size
  case dom => exact fun r => (hdom r).trans (h.dom r)
  case holds =>
    intro r k e hr he
    have hr' := (hindex r k).1 hr
    obtain ⟨hh, hout⟩ := h.holds r _ e hr' he
    exact ⟨hrows r k e hr' hh, (houts r k hr').trans hout⟩
  case clean => exact fun k hk => hclean k fun r hr => hk r ((hindex r k).2 hr)
  case lora =>
    intro r k hr
    have hr' := (hindex r k).1 hr
    rw [hlora r k hr', hadapters.1, hadapters.2]
    exact h.lora r _ hr'
  case penalties =>
    intro r hr
    rw [hsets.1, hsets.2.1, hsets.2.2] at hr
    exact (hdom r).2 (h.penalties r hr)
  case allowed =>
    rw [hmask.1, hmask.2]
    exact h.allowed

/-! ### Condensing -/

def movedDown (b : InputBatch ι) (r : ι) (last empty : Nat) (o : Option Obj) (specs : List (List Nat)) : InputBatch ι :=
  { b with
    reqIds := (b.reqIds.set empty (some r)).set last none
    reqOutputTokenIds := (b.reqOutputTokenIds.set empty o).set last none
    specTokenIds := specs
    reqIdToIndex := b.reqIdToIndex.set r empty
    rows := update (update b.rows empty (movedRow b.maskAllocated (b.rows last) (b.rows empty))) last
      (vacatedRow (b.rows last))
    builder := { b.builder with moved := b.builder.moved ++ [(last, empty, .unidirectional)] } }

variable {last empty : Nat}

theorem moveRequest_eq (h : b.Core cfg st) (hlast : b.reqIds[last]? = some (some r))
    (hempty : b.reqIds[empty]? = some none) :
    ∃ o specs, b.reqOutputTokenIds[last]? = some o ∧ specs.length = b.specTokenIds.length ∧
      b.moveRequest last empty = some (b.movedDown r last empty o specs) := by
  have hl : last < b.reqIds.length := (List.getElem?_eq_some_iff.1 hlast).1
  have he : empty < b.reqIds.length := (List.getElem?_eq_some_iff.1 hempty).1
  have hlo : last < b.reqOutputTokenIds.length := h.outputs.symm ▸ hl
  have heo : empty < b.reqOutputTokenIds.length := h.outputs.symm ▸ he
  have hls : last < b.specTokenIds.length := Nat.lt_of_lt_of_le hl h.specs
  have hes : empty < b.specTokenIds.length := Nat.lt_of_lt_of_le he h.specs
  refine ⟨b.reqOutputTokenIds[last],
    (((b.specTokenIds.set last b.specTokenIds[empty]).set empty b.specTokenIds[last]).set last []),
    getElem?_eq_getElem hlo, by simp, ?_⟩
  simp only [moveRequest, hlast, getElem?_eq_getElem hlo, setItem, he, hl, hlo, heo, swapItems, length_set,
    getElem?_eq_getElem hls, getElem?_eq_getElem hes, hls, if_true, bind_eq_bind, bind_some, movedDown]

theorem reqIds_movedDown (hlast : b.reqIds[last]? = some (some r)) (hempty : b.reqIds[empty]? = some none) (k : Nat) :
    (b.movedDown r last empty o specs).reqIds[k]? = b.reqIds[Equiv.swap last empty k]? := by
  simp only [movedDown, Equiv.swap_apply_def]
  grind

theorem move_core (h : b.Core cfg st)
    (hlast : b.reqIds[last]? = some (some r)) (hempty : b.reqIds[empty]? = some none)
    (ho : b.reqOutputTokenIds[last]? = some o) (hspecs : specs.length = b.specTokenIds.length) :
    (b.movedDown r last empty o specs).Core cfg st := by
  have hr : b.reqIdToIndex.get? r = some last := (h.keys r last).2 hlast
  have hfree : ∀ r', b.reqIdToIndex.get? r' ≠ some empty := h.not_free_iff.2 (.inr hempty)
  have hne : last ≠ empty := fun he => hfree r (he ▸ hr)
  refine h.relocate (.swap last empty) (fun r' k => ?_) (reqIds_movedDown hlast hempty)
    (fun r' k hk => ?_) ?_ (by simp [movedDown]) (by simp [movedDown]) hspecs
    (len_set_of_some hr) (fun r' k e hk hh => ?_) (fun k hk => ?_)
      (fun r' k hk => ?_) ⟨rfl, rfl⟩ ⟨rfl, rfl, rfl⟩ ⟨rfl, rfl⟩
  · have h₁ := hfree r'
    have h₂ : ∀ j, b.reqIdToIndex.get? r' = some j → j = last → r' = r := fun j hj hjl => h.inj (hjl ▸ hj) hr
    simp only [movedDown, Equiv.swap_apply_def]
    grind
  · have h₁ := hfree r'
    have h₂ := h.outputs
    have h₃ := h.lt_length hr
    simp only [movedDown, Equiv.swap_apply_def] at hk ⊢
    grind
  · have hlast' : (b.reqIds.set empty (some r))[last]? = some (some r) := by
      rw [getElem?_set_ne hne.symm]
      exact hlast
    have h₁ := countP_set_add (p := isSome) hempty (some r)
    have h₂ := countP_set_add (p := isSome) hlast' none
    simp only [movedDown, isSome_some, isSome_none, if_true, Bool.false_eq_true, if_false] at h₁ h₂ ⊢
    omega
  · -- only the row `empty` has a request that was elsewhere
    rcases eq_or_ne k empty with rfl | hke
    · obtain ⟨hg, hb⟩ := h.clean k hfree
      rw [Equiv.swap_apply_right] at hk hh
      simp only [movedDown, update_of_ne hne.symm, update_self]
      exact movedRow_holds hh hg hb
    · have hkl : k ≠ last := fun hkl => hfree r' (by rw [hk, hkl, Equiv.swap_apply_left])
      rw [Equiv.swap_apply_of_ne_of_ne hkl hke] at hh
      simpa only [movedDown, update_of_ne hkl, update_of_ne hke] using hh
  · rcases eq_or_ne k last with rfl | hkl
    · simp only [movedDown, update_self]
      exact ⟨rfl, rfl⟩
    · have hke : k ≠ empty := fun hke => hk r (by rw [hke, Equiv.swap_apply_right, hr])
      rw [Equiv.swap_apply_of_ne_of_ne hkl hke] at hk
      simpa only [movedDown, update_of_ne hkl, update_of_ne hke] using h.clean k hk
  · have h₁ := hfree r'
    simp only [movedDown, Equiv.swap_apply_def] at hk ⊢
    grind [movedRow]

structure Filling (b : InputBatch ι) (holes : List Nat) (n : Nat) : Prop where
  le : n ≤ b.reqIds.length
  below : ∀ i < n, b.reqIds[i]? = some none ↔ i ∈ holes
  above : ∀ i, n ≤ i → i < b.reqIds.length → b.reqIds[i]? = some none
  asc : holes.Pairwise (· < ·)

omit [DecidableEq ι] in
theorem skipEmpty_spec {holes : List Nat} {n : Nat} (h : b.Filling holes n) :
    b.Filling holes (skipEmpty holes n) ∧ skipEmpty holes n ≤ n ∧
      ∀ m, skipEmpty holes n = m + 1 → m ∉ holes := by
  induction n with
  | zero => exact ⟨h, Nat.le_refl _, fun m hm => by simp [skipEmpty] at hm⟩
  | succ n ih =>
    rw [skipEmpty]
    split
    next hn =>
      have hgap : b.reqIds[n]? = some none := (h.below n (by omega)).2 hn
      have hf : b.Filling holes n := by
        refine ⟨Nat.le_of_succ_le h.le, fun i hi => h.below i (by omega), fun i hi hlt => ?_, h.asc⟩
        rcases Nat.eq_or_lt_of_le hi with rfl | hi
        · exact hgap
        · exact h.above i hi hlt
      obtain ⟨h₁, h₂, h₃⟩ := ih hf
      exact ⟨h₁, by omega, h₃⟩
    next hn =>
      refine ⟨h, Nat.le_refl _, fun m hm => ?_⟩
      obtain rfl : n = m := by omega
      exact hn

variable {l : List (Option α)}

theorem countP_isSome {m : Nat} (hm : m ≤ l.length) (hlt : ∀ i < m, l[i]? ≠ some none)
    (hge : ∀ i, m ≤ i → i < l.length → l[i]? = some none) : l.countP isSome = m := by
  have h₁ : (l.take m).countP isSome = (l.take m).length := by
    rw [countP_eq_length]
    intro x hx
    obtain ⟨i, hi, rfl⟩ := mem_iff_getElem.1 hx
    have hi' : i < m := by
      have := length_take_le m l
      omega
    have := hlt i hi'
    rw [getElem_take]
    rw [getElem?_eq_getElem (by omega)] at this
    exact isSome_iff_ne_none.2 fun hn => this (by rw [hn])
  have h₂ : (l.drop m).countP isSome = 0 := by
    rw [countP_eq_zero]
    intro x hx
    obtain ⟨i, hi, rfl⟩ := mem_iff_getElem.1 hx
    have hi' : m + i < l.length := by
      rw [length_drop] at hi
      omega
    have := hge (m + i) (by omega) hi'
    rw [getElem?_eq_getElem hi'] at this
    rw [getElem_drop, some.inj this]
    simp
  rw [← take_append_drop m l, countP_append, h₁, h₂, length_take]
  omega

theorem lt_countP_isSome {e i : Nat} {a : α} (hbefore : ∀ k < e, l[k]? ≠ some none)
    (hi : l[i]? = some (some a)) (hei : e < i) : e < l.countP isSome := by
  have hil := (List.getElem?_eq_some_iff.1 hi).1
  have h₁ : (l.take e).countP isSome = e := by
    refine countP_isSome (by rw [length_take]; omega) (fun k hk => ?_) fun k hk hlt => by
      rw [length_take] at hlt
      omega
    rw [getElem?_take_of_lt hk]
    exact hbefore k hk
  have h₂ : 0 < (l.drop e).countP isSome := by
    refine countP_pos_iff.2 ⟨some a, mem_of_getElem? (i := i - e) ?_, rfl⟩
    rw [getElem?_drop, show e + (i - e) = i by omega, hi]
  rw [← take_append_drop e l, countP_append]
  omega

theorem countP_isSome_le {e i : Nat} (he : l[e]? = some none) (hei : e < i)
    (hafter : ∀ k, i < k → k < l.length → l[k]? = some none) : l.countP isSome ≤ i := by
  have h₁ : (l.take (i + 1)).countP isSome < (l.take (i + 1)).length := by
    refine Nat.lt_of_le_of_ne countP_le_length fun h => ?_
    have := countP_eq_length.1 h none (mem_of_getElem? (i := e) (by rw [getElem?_take_of_lt (by omega), he]))
    cases this
  have h₂ : (l.drop (i + 1)).countP isSome = 0 := by
    refine countP_isSome (Nat.zero_le _) (fun k hk => by omega) fun k _ hlt => ?_
    rw [length_drop] at hlt
    rw [getElem?_drop]
    exact hafter _ (by omega) (by omega)
  have := length_take_le (i + 1) l
  rw [← take_append_drop (i + 1) l, countP_append]
  omega

structure Descends (ms : List MovedRequest) : Prop where
  direction : ∀ m ∈ ms, m.2.2 = .unidirectional
  down : ∀ m ∈ ms, m.2.1 < m.1
  apart : ms.Pairwise fun m m' => m.2.1 < m'.2.1 ∧ m'.1 < m.1

/-- A request that moves down, from behind the requests that stay into a gap among them, keeps `P`. -/
def KeptDown (cfg : Config) (st : Store ι) (P : InputBatch ι → Prop) : Prop :=
  ∀ b r last empty o specs, Core cfg b st → b.reqIds[last]? = some (some r) → b.reqIds[empty]? = some none →
    empty < b.numReqs ∧ b.numReqs ≤ last → P b → P (b.movedDown r last empty o specs)

/-- A hole has been filled from the end: what is left to fill ends before the row that was moved. -/
theorem Filling.movedDown {holes : List Nat} (hf : b.Filling (empty :: holes) (last + 1))
    (hlt : empty < last) (o : Option Obj) (specs : List (List Nat)) :
    (b.movedDown r last empty o specs).Filling holes last := by
  have hasc := pairwise_cons.1 hf.asc
  have hle := hf.le
  have hrow : ∀ j, ((b.reqIds.set empty (some r)).set last none)[j]? =
      if j = last then some none else if j = empty then some (some r) else b.reqIds[j]? := by
    grind
  constructor
  case le =>
    simp only [InputBatch.movedDown, length_set]
    omega
  case below =>
    intro i hi
    have hi' := hf.below i (by omega)
    have hni : empty ∉ holes := fun hmem => Nat.lt_irrefl _ (hasc.1 empty hmem)
    simp only [InputBatch.movedDown, hrow]
    grind
  case above =>
    intro i hi hlen
    simp only [InputBatch.movedDown, hrow, length_set] at hlen ⊢
    rcases Nat.eq_or_lt_of_le hi with rfl | hi
    · simp
    · rw [if_neg (by omega), if_neg (by omega)]
      exact hf.above i hi hlen
  case asc => exact hasc.2

theorem condenseLoop_spec (P : InputBatch ι → Prop) (hP : KeptDown cfg st P)
    {holes : List Nat} {n : Nat} (h : b.Core cfg st) (hf : b.Filling holes n) (hb : P b) :
    ∃ b' holes' m ms, condenseLoop holes n b = some (b', holes') ∧ b'.Core cfg st ∧ b'.numReqs = b.numReqs ∧ P b' ∧
      m ≤ b'.reqIds.length ∧ (∀ i < m, b'.reqIds[i]? ≠ some none) ∧
      (∀ i, m ≤ i → i < b'.reqIds.length → b'.reqIds[i]? = some none) ∧ m ≤ n ∧
      b'.builder = { b.builder with moved := b.builder.moved ++ ms } ∧
        holes = (ms.map fun x => x.2.1) ++ holes' ∧ Descends ms ∧
      ∀ x ∈ ms, m ≤ x.1 ∧ x.1 < n := by
  induction holes generalizing b n with
  | nil =>
    refine ⟨b, [], n, [], rfl, h, rfl, hb, hf.le, fun i hi hgap => ?_, hf.above, Nat.le_refl _, ?_, rfl,
      ⟨?_, ?_, .nil⟩, ?_⟩
    · simpa using (hf.below i hi).1 hgap
    · rw [append_nil]
    all_goals exact fun x hx => by cases hx
  | cons empty holes ih =>
    obtain ⟨hf', hskip, hlast⟩ := skipEmpty_spec hf
    rw [condenseLoop]
    generalize skipEmpty (empty :: holes) n = m at hf' hskip hlast ⊢
    have hmin : ∀ i ∈ empty :: holes, empty ≤ i := by
      intro i hi
      rcases mem_cons.1 hi with rfl | hi
      · exact Nat.le_refl _
      · exact Nat.le_of_lt ((pairwise_cons.1 hf'.asc).1 i hi)
    by_cases hm : m ≤ empty + 1
    · refine ⟨b, empty :: holes, m, [], if_pos hm, h, rfl, hb, hf'.le, fun i hi hgap => ?_, hf'.above,
        hskip, ?_, rfl, ⟨?_, ?_, .nil⟩, ?_⟩
      · have hmem := (hf'.below i hi).1 hgap
        have := hmin i hmem
        exact hlast i (by omega) hmem
      · rw [append_nil]
      all_goals exact fun x hx => by cases hx
    · obtain ⟨last, rfl⟩ : ∃ last, m = last + 1 := ⟨m - 1, by omega⟩
      have hlt : last < b.reqIds.length := by
        have := hf'.le
        omega
      have hnot : b.reqIds[last]? ≠ some none := fun hgap => hlast last rfl ((hf'.below last (by omega)).1 hgap)
      obtain ⟨r, hr⟩ : ∃ r, b.reqIds[last]? = some (some r) := by
        rcases hx : b.reqIds[last]? with - | - | r
        · simp at hx
          omega
        · exact absurd hx hnot
        · exact ⟨r, rfl⟩
      have hempty : b.reqIds[empty]? = some none := (hf'.below empty (by omega)).2 (by simp)
      have hfirst : empty < b.numReqs := by
        rw [h.count]
        refine lt_countP_isSome (fun i hi hgap => ?_) hr (by omega)
        have := hmin i ((hf'.below i (by omega)).1 hgap)
        omega
      have hbehind : b.numReqs ≤ last := by
        rw [h.count]
        exact countP_isSome_le hempty (by omega) fun i hi => hf'.above i hi
      obtain ⟨o, specs, ho, hspecs, hmove⟩ := moveRequest_eq h hr hempty
      have hcore := move_core h hr hempty ho hspecs
      obtain ⟨b', holes', k, ms, hloop, hc, hn, hp, hle, hlt, hge, hk, hbuilder, hholes, hms, hsrc⟩ :=
        ih hcore (hf'.movedDown (by omega) o specs) (hP b r last empty o specs h hr hempty ⟨hfirst, hbehind⟩ hb)
      refine ⟨b', holes', k, (last, empty, .unidirectional) :: ms, ?_, hc, ?_, hp, hle, hlt,
        hge, by omega, ?_, ?_, ⟨?_, ?_, ?_⟩, ?_⟩
      · simp only [if_neg hm, Nat.add_sub_cancel, hmove, bind_eq_bind, bind_some, hloop]
      · rw [hn]
        exact len_set_of_some ((h.keys r last).2 hr)
      · rw [hbuilder]
        simp only [movedDown, append_assoc, singleton_append]
      · rw [map_cons, cons_append, ← hholes]
      · exact forall_mem_cons.2 ⟨rfl, hms.direction⟩
      · exact forall_mem_cons.2 ⟨by simp only; omega, hms.down⟩
      · refine pairwise_cons.2 ⟨fun x hx => ⟨?_, (hsrc x hx).2⟩, hms.apart⟩
        have hmem : x.2.1 ∈ holes := hholes ▸ mem_append_left _ (mem_map_of_mem hx)
        exact (pairwise_cons.1 hf'.asc).1 _ hmem
      · refine forall_mem_cons.2 ⟨⟨hk, by simp only; omega⟩, fun x hx => ?_⟩
        have := hsrc x hx
        omega

theorem trim_core (h : b.Core cfg st) {m : Nat} (hm : m ≤ b.reqIds.length)
    (hge : ∀ i, m ≤ i → i < b.reqIds.length → b.reqIds[i]? = some none)
    (hcount : b.numReqs = m) (u : BatchUpdateBuilder) (hlt : ∀ i < m, b.reqIds[i]? ≠ some none) :
    { b with
      builder := u
      reqIds := b.reqIds.take m
      reqOutputTokenIds := b.reqOutputTokenIds.take m
      specTokenIds := b.specTokenIds.take m }.Core cfg st := by
  have hlen : (b.reqIds.take m).length = m := by
    rw [length_take]
    omega
  have hat : ∀ r i, b.reqIdToIndex.get? r = some i → i < m := by
    intro r i hr
    by_contra hi
    have := hge i (by omega) (h.lt_length hr)
    rw [(h.keys r i).1 hr] at this
    simp at this
  refine { h with keys := ?_, count := ?_, outputs := ?_, specs := ?_, cap := ?_, holds := ?_ }
  · intro r i
    rw [h.keys]
    by_cases hi : i < m
    · rw [getElem?_take_of_lt hi]
    · rw [getElem?_eq_none (by omega : (b.reqIds.take m).length ≤ i)]
      simp only [reduceCtorEq, iff_false]
      exact fun hr => hi (hat r i ((h.keys r i).2 hr))
  · have hc : (b.reqIds.take m).countP isSome = m := by
      refine countP_isSome (Nat.le_of_eq hlen.symm) (fun i hi => ?_) (fun i hi hl => by omega)
      rw [getElem?_take_of_lt hi]
      exact hlt i hi
    exact hcount.trans hc.symm
  · simp [h.outputs]
  · have := h.specs
    simp only [length_take]
    omega
  · have := h.cap
    simp only [length_take]
    omega
  · intro r i e hr he
    rw [getElem?_take_of_lt (hat r i hr)]
    exact h.holds r i e hr he

omit [DecidableEq ι] in
theorem Gaps.filling (hg : b.Gaps) : Filling { b with builder := b.builder.ensureRemovedSorted }
    b.builder.ensureRemovedSorted.removed.reverse (b.numReqs + b.builder.ensureRemovedSorted.removed.length) := by
  obtain ⟨hperm, hsorted, -⟩ := ensureRemovedSorted_spec hg.sorted
  have hlen : b.numReqs + b.builder.ensureRemovedSorted.removed.length = b.reqIds.length := by
    rw [hperm.length_eq]
    exact hg.count
  rw [hlen]
  refine ⟨Nat.le_refl _, fun i _ => ?_, fun i hi hlt => absurd hlt (by simpa using hi), ?_⟩
  · rw [mem_reverse, hperm.mem_iff]
    exact (hg.holes i).symm
  · rw [pairwise_reverse]
    have hnd := hperm.nodup_iff.2 hg.nodup
    refine (hsorted.and hnd).imp fun h => ?_
    obtain ⟨h₁, h₂⟩ := h
    omega

theorem condense_spec (P : InputBatch ι → Prop) (hP : KeptDown cfg st P)
    (hlists : ∀ b u ids outs specs, P b →
      P { b with builder := u, reqIds := ids, reqOutputTokenIds := outs, specTokenIds := specs })
    (h : b.Core cfg st) (hg : b.Gaps) (hb : P b) :
    ∃ b', b.condense = some b' ∧ b'.Core cfg st ∧ b'.Packed ∧ P b' := by
  obtain ⟨hperm, hsorted, -⟩ := ensureRemovedSorted_spec hg.sorted
  have hb₁ := hlists b b.builder.ensureRemovedSorted b.reqIds b.reqOutputTokenIds b.specTokenIds hb
  have h₁ : { b with builder := b.builder.ensureRemovedSorted }.Core cfg st := { h with }
  rw [condense]
  by_cases hnil : b.builder.ensureRemovedSorted.removed = []
  · refine ⟨_, if_pos hnil, h₁, fun i hi => ?_, hb₁⟩
    have := hperm.mem_iff.2 ((hg.holes i).2 hi)
    simp [hnil] at this
  rw [if_neg hnil]
  by_cases hzero : numReqs { b with builder := b.builder.ensureRemovedSorted } = 0
  · have hget := get?_of_len_eq_zero hzero
    refine ⟨_, if_pos hzero, ?_, fun i => by simp, hlists _ _ _ _ _ hb₁⟩
    refine { h₁ with keys := ?_, count := ?_, outputs := rfl, specs := by simp, cap := by simp, holds := ?_ }
    · simp [hget]
    · exact hzero
    · simp [hget]
  rw [if_neg hzero]
  have hf := hg.filling
  obtain ⟨b', holes', m, -, hloop, hc, hn, hp, hm, hlt, hge, -⟩ := condenseLoop_spec P hP h₁ hf hb₁
  have hcount : b'.numReqs = m := hc.count.trans (countP_isSome hm hlt hge)
  have hcount' : b.numReqs = m := hn.symm.trans hcount
  refine ⟨_, ?_, trim_core hc hm hge hcount { b'.builder with removed := holes'.reverse } hlt, ?_, hlists _ _ _ _ _ hp⟩
  · have hloop' : condenseLoop b.builder.ensureRemovedSorted.removed.reverse
        (numReqs { b with builder := b.builder.ensureRemovedSorted } + b.builder.ensureRemovedSorted.removed.length)
        { b with builder := b.builder.ensureRemovedSorted } = some (b', holes') := hloop
    simp only [hloop', bind_eq_bind, bind_some, ← hcount']
    rfl
  · intro i hi
    by_cases him : i < m
    · rw [getElem?_take_of_lt him] at hi
      exact hlt i him hi
    · simp [him] at hi

/-! ### Swapping -/

theorem Core.numReqs_of_packed (h : b.Core cfg st) (hp : b.Packed) : b.numReqs = b.reqIds.length := by
  rw [h.count]
  exact countP_isSome (Nat.le_refl _) (fun i _ => hp i) (fun i hi hl => by omega)

theorem Core.exists_of_packed (h : b.Core cfg st) (hp : b.Packed) {i : Nat} (hi : i < st.len) :
    ∃ r, b.reqIds[i]? = some (some r) := by
  have hlen : i < b.reqIds.length := by
    rw [← h.numReqs_of_packed hp, h.size]
    exact hi
  rcases hx : b.reqIds[i]? with - | - | r
  · rw [getElem?_eq_none_iff] at hx
    omega
  · exact absurd hx (hp i)
  · exact ⟨r, rfl⟩

def swapped (b : InputBatch ι) (i j : Nat) (r r' : ι) (o o' : Option Obj) (specs : List (List Nat)) : InputBatch ι :=
  { b with
    reqIds := (b.reqIds.set i (some r')).set j (some r)
    reqOutputTokenIds := (b.reqOutputTokenIds.set i o').set j o
    specTokenIds := specs
    reqIdToIndex := (b.reqIdToIndex.set r j).set r' i
    rows := swapRows b.maskAllocated b.rows i j
    builder := { b.builder with moved := b.builder.moved ++ [(i, j, .swap)] } }

theorem swapStates_eq (h : b.Core cfg st) (hi : b.reqIds[i]? = some (some r))
    (hj : b.reqIds[j]? = some (some r')) :
    ∃ o o' specs, b.reqOutputTokenIds[i]? = some o ∧ b.reqOutputTokenIds[j]? = some o' ∧
      specs.length = b.specTokenIds.length ∧ b.swapStates i j = some (b.swapped i j r r' o o' specs) := by
  have hil : i < b.reqIds.length := (List.getElem?_eq_some_iff.1 hi).1
  have hjl : j < b.reqIds.length := (List.getElem?_eq_some_iff.1 hj).1
  have hio := getElem?_eq_getElem (h.outputs.symm ▸ hil)
  have hjo := getElem?_eq_getElem (h.outputs.symm ▸ hjl)
  have hils : i < b.specTokenIds.length := Nat.lt_of_lt_of_le hil h.specs
  have hjls : j < b.specTokenIds.length := Nat.lt_of_lt_of_le hjl h.specs
  have his := getElem?_eq_getElem hils
  have hjs := getElem?_eq_getElem hjls
  refine ⟨_, _, (b.specTokenIds.set i b.specTokenIds[j]).set j b.specTokenIds[i], hio, hjo, by simp, ?_⟩
  simp [swapStates, swapItems, hi, hj, hio, hjo, his, hjs, (h.keys r i).2 hi, (h.keys r' j).2 hj, swapped]

theorem swapCells_eq (a : Nat → α) (i j k : Nat) : swapCells a i j k = a (Equiv.swap i j k) := by
  simp only [swapCells, update_apply, Equiv.swap_apply_def]
  grind

theorem reqIds_swapped {o' : Option Obj} (hi : b.reqIds[i]? = some (some r))
    (hj : b.reqIds[j]? = some (some r')) (k : Nat) :
    (b.swapped i j r r' o o' specs).reqIds[k]? = b.reqIds[Equiv.swap i j k]? := by
  simp only [swapped, Equiv.swap_apply_def]
  grind

theorem swap_core {o' : Option Obj} (h : b.Core cfg st)
    (hi : b.reqIds[i]? = some (some r)) (hj : b.reqIds[j]? = some (some r')) (ho : b.reqOutputTokenIds[i]? = some o)
    (ho' : b.reqOutputTokenIds[j]? = some o') (hspecs : specs.length = b.specTokenIds.length) :
    (b.swapped i j r r' o o' specs).Core cfg st := by
  have hr : b.reqIdToIndex.get? r = some i := (h.keys r i).2 hi
  have hr' : b.reqIdToIndex.get? r' = some j := (h.keys r' j).2 hj
  have hset : (b.reqIdToIndex.set r j).get? r' = some j := by
    rw [get?_set]
    split
    · rfl
    · exact hr'
  -- a row after `swap_states` is the row swapped, but for its mask
  have hrow : ∀ k, ∃ m, (b.swapped i j r r' o o' specs).rows k =
    { b.rows (Equiv.swap i j k) with allowedTokenIdsMask := m } := fun k =>
    ⟨_, by rw [← swapCells_eq b.rows]; rfl⟩
  refine h.relocate (.swap i j) (fun x k => ?_) (reqIds_swapped hi hj)
    (fun x k _ => ?_) ?_ (by simp [swapped]) (by simp [swapped]) hspecs
    ((len_set_of_some hset).trans (len_set_of_some hr)) (fun x k e _ hh => ?_) (fun k hk => ?_)
      (fun x k _ => ?_) ⟨rfl, rfl⟩
    ⟨rfl, rfl, rfl⟩ ⟨rfl, rfl⟩
  · have h₁ : ∀ k, b.reqIdToIndex.get? x = some k → k = i → x = r := fun k hk hki => h.inj (hki ▸ hk) hr
    have h₂ : ∀ k, b.reqIdToIndex.get? x = some k → k = j → x = r' := fun k hk hkj => h.inj (hkj ▸ hk) hr'
    simp only [swapped, Equiv.swap_apply_def]
    grind
  · simp only [swapped, Equiv.swap_apply_def]
    grind
  · have h₁ := countP_set_add (p := isSome) hi (some r')
    obtain ⟨x, hx⟩ : ∃ x, (b.reqIds.set i (some r'))[j]? = some (some x) := by
      grind
    have h₂ := countP_set_add (p := isSome) hx (some r)
    simp only [swapped, isSome_some, if_true] at h₁ h₂ ⊢
    omega
  · obtain ⟨m, hm⟩ := hrow k
    rw [hm]
    exact hh.of_mask m
  · obtain ⟨m, hm⟩ := hrow k
    rw [hm]
    exact h.clean _ hk
  · obtain ⟨m, hm⟩ := hrow k
    rw [hm]

/-! ### Refreshing -/

structure Settled (b : InputBatch ι) : Prop where
  packed : b.Packed
  removed : b.builder.removed = []
  unsorted : b.builder.isRemovedSorted = false
  moved : b.builder.moved = []
  added : b.builder.added = []

theorem Settled.gaps (hs : b.Settled) (h : b.Core cfg st) : b.Gaps where
  holes i := by simp [hs.removed, hs.packed i]
  nodup := by simp [hs.removed]
  count := by
    rw [hs.removed, h.numReqs_of_packed hs.packed]
    simp
  sorted := by simp [hs.unsorted]
  unmoved := hs.moved

theorem refreshMetadata_eq (h : b.Core cfg st) :
    (b.builder.removed = [] ∧ b.builder.moved = [] ∧ b.builder.added = [] ∧
      b.refreshMetadata = some { b with builder := { b.builder with isRemovedSorted := false } }) ∨
    (b.hasAllowedTokenIds = [] ∧ b.refreshMetadata =
      some { b with builder := ⟨[], false, [], []⟩, samplingMask := none }) ∨
    (b.hasAllowedTokenIds ≠ [] ∧ b.refreshMetadata = some { b with
      builder := ⟨[], false, [], []⟩
      deviceMask := copyTo b.deviceMask b.numReqs fun i => (b.rows i).allowedTokenIdsMask
      samplingMask := some b.numReqs }) := by
  by_cases hu : b.builder.removed = [] ∧ b.builder.moved = [] ∧ b.builder.added = []
  · exact .inl ⟨hu.1, hu.2.1, hu.2.2, if_pos hu⟩
  have hpen : ¬ ((!b.noPenalties && decide (b.numReqs = 0)) = true) := by
    intro hpen
    simp only [Bool.and_eq_true, Bool.not_eq_true', decide_eq_true_eq] at hpen
    have hnone := get?_of_len_eq_zero hpen.2
    have hmem : ∀ r, ¬ (r ∈ b.frequencyPenaltiesReqs ∨ r ∈ b.presencePenaltiesReqs ∨
      r ∈ b.repetitionPenaltiesReqs) := by
      intro r hr
      simpa [hnone] using h.penalties r hr
    have h₁ : b.frequencyPenaltiesReqs = [] := eq_nil_iff_forall_not_mem.2 fun r hr => hmem r (.inl hr)
    have h₂ : b.presencePenaltiesReqs = [] := eq_nil_iff_forall_not_mem.2 fun r hr => hmem r (.inr (.inl hr))
    have h₃ : b.repetitionPenaltiesReqs = [] := eq_nil_iff_forall_not_mem.2 fun r hr => hmem r (.inr (.inr hr))
    simp [noPenalties, h₁, h₂, h₃] at hpen
  have hmake : b.refreshMetadata = makeSamplingMetadata { b with builder := ⟨[], false, [], []⟩ } := if_neg hu
  by_cases ha : b.hasAllowedTokenIds = []
  · exact .inr (.inl ⟨ha, hmake.trans ((if_neg hpen).trans (if_pos ha))⟩)
  · exact .inr (.inr ⟨ha, hmake.trans ((if_neg hpen).trans ((if_neg ha).trans (if_pos (h.allowed ha))))⟩)

theorem refreshMetadata_frame (h : b.Core cfg st) (hb' : b.refreshMetadata = some b') :
    b'.reqIds = b.reqIds ∧ b'.reqIdToIndex = b.reqIdToIndex := by
  rcases refreshMetadata_eq h with ⟨-, -, -, heq⟩ | ⟨-, heq⟩ | ⟨-, heq⟩ <;>
  · cases heq.symm.trans hb'
    exact ⟨rfl, rfl⟩

theorem refresh_spec (h : b.Core cfg st) (hp : b.Packed) :
    ∃ b', b.refreshMetadata = some b' ∧ b'.Core cfg st ∧ b'.Settled := by
  rcases refreshMetadata_eq h with ⟨hr, hm, ha, heq⟩ | ⟨-, heq⟩ | ⟨-, heq⟩
  · exact ⟨_, heq, { h with }, ⟨hp, hr, rfl, hm, ha⟩⟩
  · exact ⟨_, heq, { h with }, ⟨hp, rfl, rfl, rfl, rfl⟩⟩
  · exact ⟨_, heq, { h with }, ⟨hp, rfl, rfl, rfl, rfl⟩⟩

/-! ### Runs -/

def Ready (b : InputBatch ι) : Op ι → Prop
  | .remove _ => b.Gaps ∧ b.builder.isRemovedSorted = false
  | .add _ | .condense => b.Gaps
  | .swap _ _ | .refresh => b.Packed
  | .write _ _ => True

def After (b b' : InputBatch ι) : Op ι → Prop
  | .remove _ => b'.Gaps ∧ b'.builder.isRemovedSorted = false
  | .add _ => b'.Gaps
  | .condense | .swap _ _ => b'.Packed
  | .refresh => b'.Settled
  | .write _ _ => b'.reqIds = b.reqIds ∧ b'.reqIdToIndex = b.reqIdToIndex ∧ b'.builder = b.builder

theorem exec_spec {op : Op ι} (h : b.Core cfg st) (hp : st.Permits cfg op) (hr : b.Ready op) :
    ∃ b', b.exec cfg op = some b' ∧ b'.Core cfg (st.exec cfg op) ∧ b.After b' op := by
  cases op with
  | remove r =>
    obtain ⟨b', hb', hc, hg, hs⟩ := remove_spec (r := r) h hr.1 hr.2
    exact ⟨b', hb', hc, hg, hs⟩
  | write r w =>
    obtain ⟨i, e, row, hi, he, hrow, -, hold, heq⟩ := exec_write_eq h hp
    exact ⟨_, heq, write_core h hi he hrow hold, rfl, rfl, rfl⟩
  | add q =>
    obtain ⟨x, ha, heq⟩ := addRequest_eq h hr hp
    exact ⟨_, heq, add_core h hp.1 ha, add_gaps h hp.1 ha⟩
  | condense =>
    obtain ⟨b', hb', hc, hpk, -⟩ := condense_spec (fun _ => True) (fun _ _ _ _ _ _ _ _ _ _ _ => trivial)
      (fun _ _ _ _ _ _ => trivial) h hr trivial
    exact ⟨b', hb', hc, hpk⟩
  | swap i j =>
    obtain ⟨r, hi⟩ := h.exists_of_packed hr hp.1
    obtain ⟨r', hj⟩ := h.exists_of_packed hr hp.2
    obtain ⟨o, o', specs, ho, ho', hspecs, heq⟩ := swapStates_eq h hi hj
    exact ⟨_, heq, swap_core h hi hj ho ho' hspecs, fun k => by rw [reqIds_swapped hi hj]; exact hr _⟩
  | refresh =>
    obtain ⟨b', hb', hc, hs⟩ := refresh_spec h hr
    exact ⟨b', hb', hc, hs⟩

def Meets (cfg : Config) (C : InputBatch ι → Op ι → Prop) : InputBatch ι → Store ι → List (Op ι) → Prop
  | _, _, [] => True
  | b, st, op :: ops => st.Permits cfg op ∧ C b op ∧ ∀ b', b.exec cfg op = some b' → Meets cfg C b' (st.exec cfg op) ops

theorem store_run_append (st : Store ι) (l l' : List (Op ι)) : st.run cfg (l ++ l') = (st.run cfg l).run cfg l' :=
  foldl_append

theorem run_cons_of_some {op : Op ι} (h : b.exec cfg op = some b') (ops : List (Op ι)) :
    b.run cfg (op :: ops) = b'.run cfg ops := by
  simp [run, h]

variable {l l' : List (Op ι)}

theorem meets_append {C : InputBatch ι → Op ι → Prop} (h : Meets cfg C b st (l ++ l')) :
    Meets cfg C b st l ∧ ∀ b', b.run cfg l = some b' → Meets cfg C b' (st.run cfg l) l' := by
  induction l generalizing b st with
  | nil =>
    refine ⟨trivial, fun b' hb' => ?_⟩
    obtain rfl : b = b' := by simpa [run] using hb'
    exact h
  | cons op l ih =>
    obtain ⟨hp, hc, hrest⟩ := h
    refine ⟨⟨hp, hc, fun b₁ hb₁ => (ih (hrest b₁ hb₁)).1⟩, fun b' hb' => ?_⟩
    rcases hb₁ : b.exec cfg op with - | b₁
    · simp [run, hb₁] at hb'
    · rw [run_cons_of_some hb₁] at hb'
      exact (ih (hrest b₁ hb₁)).2 b' hb'

section Rule

variable {C : InputBatch ι → Op ι → Prop} {Q : InputBatch ι → Prop}

def Sound (cfg : Config) (C : InputBatch ι → Op ι → Prop) (Q : InputBatch ι → Prop) : InputBatch ι →
    Store ι → List (Op ι) → Prop
  | b, st, [] => b.Core cfg st ∧ Q b
  | b, st, op :: ops =>
    b.Core cfg st ∧ st.Permits cfg op ∧ b.Ready op ∧ C b op ∧ ∃ b', b.exec cfg op = some b' ∧
    Sound cfg C Q b' (st.exec cfg op) ops

theorem Sound.append {Q' : InputBatch ι → Prop} (h : Sound cfg C Q b st l)
    (h' : ∀ b', b.run cfg l = some b' → b'.Core cfg (st.run cfg l) →
      Q b' → Sound cfg C Q' b' (st.run cfg l) l') : Sound cfg C Q' b st (l ++ l') := by
  induction l generalizing b st with
  | nil => exact h' b rfl h.1 h.2
  | cons op l ih =>
    obtain ⟨hc, hp, hr, hC, b₁, hb₁, hrest⟩ := h
    refine ⟨hc, hp, hr, hC, b₁, hb₁, ih hrest fun b' hb' hc' hq' => h' b' ?_ hc' hq'⟩
    rw [run_cons_of_some hb₁]
    exact hb'

theorem sound_phase {f : α → Op ι} {xs : List α} (hready : ∀ b x, Q b → b.Ready (f x))
    (hafter : ∀ b b' x, Q b → b.After b' (f x) → Q b') (hc : b.Core cfg st)
    (hph : Q b) (hmeets : Meets cfg C b st (xs.map f)) : Sound cfg C Q b st (xs.map f) := by
  induction xs generalizing b st with
  | nil => exact ⟨hc, hph⟩
  | cons x xs ih =>
    obtain ⟨hp, hC, hrest⟩ := hmeets
    have hr := hready b x hph
    obtain ⟨b₁, hb₁, hc₁, ha⟩ := exec_spec hc hp hr
    exact ⟨hc, hp, hr, hC, b₁, hb₁, ih hc₁ (hafter b b₁ x hph ha) (hrest b₁ hb₁)⟩

theorem sound_phase_append {Q' : InputBatch ι → Prop}
    {f : α → Op ι} {xs : List α} {l' : List (Op ι)} (hready : ∀ b x, Q b → b.Ready (f x))
    (hafter : ∀ b b' x, Q b → b.After b' (f x) → Q b') (hc : b.Core cfg st) (hph : Q b)
    (hmeets : Meets cfg C b st (xs.map f ++ l')) (hnext : ∀ b', b'.Core cfg (st.run cfg (xs.map f)) →
      Q b' → Meets cfg C b' (st.run cfg (xs.map f)) l' → Sound cfg C Q' b' (st.run cfg (xs.map f)) l') :
    Sound cfg C Q' b st (xs.map f ++ l') := by
  obtain ⟨hm, hm'⟩ := meets_append hmeets
  exact (sound_phase hready hafter hc hph hm).append fun b' hb' hc' hq' => hnext b' hc' hq' (hm' b' hb')

omit [DecidableEq ι] in
theorem Gaps.congr (hg : b.Gaps) (h : b'.reqIds = b.reqIds ∧ b'.reqIdToIndex = b.reqIdToIndex ∧
      b'.builder = b.builder) : b'.Gaps := by
  obtain ⟨h₁, h₂, h₃⟩ := h
  refine ⟨?_, ?_, ?_, ?_, ?_⟩
  · simpa only [h₁, h₃] using hg.holes
  · simpa only [h₃] using hg.nodup
  · simpa only [numReqs, h₁, h₂, h₃] using hg.count
  · simpa only [h₃] using hg.sorted
  · simpa only [h₃] using hg.unmoved

variable {s : Step ι}

section
variable (hc : b.Core cfg st) (hs : b.Settled)
include hc hs

theorem sound_prepare (hmeets : Meets cfg C b st s.prepare) : Sound cfg C Packed b st s.prepare := by
  simp only [Step.prepare, append_assoc] at hmeets ⊢
  refine sound_phase_append (Q := fun b => b.Gaps ∧ b.builder.isRemovedSorted = false)
    (fun _ _ hb => hb) (fun _ _ _ _ hb => hb) hc
    ⟨hs.gaps hc, hs.unsorted⟩ hmeets fun b₁ hc₁ hq₁ hm₁ => ?_
  refine sound_phase_append (Q := Gaps) (fun _ _ _ => trivial)
    (fun _ _ _ hb ha => hb.congr ha) hc₁ hq₁.1 hm₁ fun b₂ hc₂ hq₂ hm₂ => ?_
  refine sound_phase_append (Q := Gaps) (fun _ _ hb => hb) (fun _ _ _ _ hb => hb) hc₂ hq₂ hm₂ fun b₃ hc₃ hq₃ hm₃ => ?_
  obtain ⟨hp₄, hC₄, hm₄⟩ := hm₃
  obtain ⟨b₄, e₄, c₄, p₄⟩ := exec_spec hc₃ hp₄ hq₃
  exact ⟨hc₃, hp₄, hq₃, hC₄, b₄, e₄, sound_phase (Q := Packed) (fun _ _ hb => hb)
    (fun _ _ _ _ hb => hb) c₄ p₄ (hm₄ b₄ e₄)⟩

theorem sound_results (hmeets : Meets cfg C b st s.writes) : Sound cfg C Settled b st s.writes := by
  refine sound_phase (fun _ _ _ => trivial) (fun b b' w hb ha => ?_) hc hs hmeets
  obtain ⟨h₁, -, h₃⟩ := ha
  exact ⟨fun i => by rw [h₁]; exact hb.packed i, h₃ ▸ hb.removed, h₃ ▸ hb.unsorted, h₃ ▸ hb.moved, h₃ ▸ hb.added⟩

theorem sound_step (hmeets : Meets cfg C b st s.ops) : Sound cfg C Settled b st s.ops := by
  rw [Step.ops_eq] at hmeets ⊢
  obtain ⟨hm₁, hmeets⟩ := meets_append hmeets
  refine (sound_prepare hc hs hm₁).append fun b₁ hb₁ hc₁ hq₁ => ?_
  obtain ⟨hp₂, hC₂, hm₂⟩ := hmeets b₁ hb₁
  obtain ⟨b₂, e₂, c₂, p₂⟩ := exec_spec hc₁ hp₂ hq₁
  exact ⟨hc₁, hp₂, hq₁, hC₂, b₂, e₂, sound_results c₂ p₂ (hm₂ b₂ e₂)⟩

theorem sound_steps {steps : List (Step ι)} (hmeets : Meets cfg C b st (steps.flatMap Step.ops)) :
    Sound cfg C Settled b st (steps.flatMap Step.ops) := by
  induction steps generalizing b st with
  | nil => exact ⟨hc, hs⟩
  | cons s steps ih =>
    rw [flatMap_cons] at hmeets ⊢
    obtain ⟨h₁, h₂⟩ := meets_append hmeets
    exact (sound_step hc hs h₁).append fun b' hb' hc' hs' => ih hc' hs' (h₂ b' hb')

end

theorem Sound.run {M : InputBatch ι → Store ι → Prop}
    (hM : ∀ b st op b', Core cfg b st → st.Permits cfg op →
      b.Ready op → C b op → b.exec cfg op = some b' → M b st → M b' (st.exec cfg op))
    {ops : List (Op ι)} (h : Sound cfg C Q b st ops) (hm : M b st) :
    ∃ b', b.run cfg ops = some b' ∧ b'.Core cfg (st.run cfg ops) ∧ Q b' ∧ M b' (st.run cfg ops) := by
  induction ops generalizing b st with
  | nil => exact ⟨b, rfl, h.1, h.2, hm⟩
  | cons op ops ih =>
    obtain ⟨hc, hp, hr, hC, b₁, hb₁, hrest⟩ := h
    obtain ⟨b', hb', hrest'⟩ := ih hrest (hM b st op b₁ hc hp hr hC hb₁ hm)
    exact ⟨b', (run_cons_of_some hb₁ ops).trans hb', hrest'⟩

end Rule

omit [DecidableEq ι] in
theorem settled_init (cfg : Config) : (init cfg : InputBatch ι).Settled :=
  ⟨fun i => by simp [init], rfl, rfl, rfl, rfl⟩

theorem meets_of_permitsAll {C : InputBatch ι → Op ι → Prop}
    {ops : List (Op ι)} (h : st.PermitsAll cfg ops) (hC : ∀ b, ∀ op ∈ ops, C b op) :
    Meets cfg C b st ops := by
  induction ops generalizing b st with
  | nil => trivial
  | cons op ops ih =>
    exact ⟨h.1, hC b op mem_cons_self, fun b' _ => ih h.2 fun b op' hop' => hC b op' (mem_cons_of_mem op hop')⟩

theorem permitsAll_append : st.PermitsAll cfg (l ++ l') ↔ st.PermitsAll cfg l ∧ (st.run cfg l).PermitsAll cfg l' := by
  induction l generalizing st with
  | nil => exact (iff_of_eq (true_and _)).symm
  | cons op l ih => exact (and_congr_right fun _ => ih).trans and_assoc.symm

/-- The rows are packed, and each holds what was given for its request. -/
structure Mirrors (cfg : Config) (b : InputBatch ι) (st : Store ι) : Prop where
  length : b.reqIds.length = b.numReqs
  full : ∀ x ∈ b.reqIds, x ≠ none
  inverse : ∀ r i, b.reqIdToIndex.get? r = some i ↔ b.reqIds[i]? = some (some r)
  same : ∀ r, (b.reqIdToIndex.get? r).isSome ↔ (st.get? r).isSome
  row : ∀ r i e, b.reqIdToIndex.get? r = some i → st.get? r = some e →
    (b.rows i).Holds cfg e ∧ b.reqOutputTokenIds[i]? = some (some e.output)

/-- The persistent batch is a faithful row store: no run of steps raises, and it ends with the entries of the store. -/
theorem run_mirrors (cfg : Config) (steps : List (Step ι))
    (h : Store.PermitsAll cfg (.empty : Store ι) (steps.flatMap Step.ops)) :
    ∃ b, (init cfg : InputBatch ι).run cfg (steps.flatMap Step.ops) = some b ∧
      b.Mirrors cfg (Store.run cfg .empty (steps.flatMap Step.ops)) := by
  obtain ⟨b, hb, hc, hs, -⟩ := (sound_steps (C := fun _ _ => True) (core_init cfg) (settled_init cfg)
    (meets_of_permitsAll h fun _ _ _ => trivial)).run (M := fun _ _ => True)
      (fun _ _ _ _ _ _ _ _ _ _ => trivial) trivial
  refine ⟨b, hb, (hc.numReqs_of_packed hs.packed).symm, ?_, hc.keys, hc.dom, hc.holds⟩
  rintro x hx rfl
  obtain ⟨i, hi⟩ := getElem?_of_mem hx
  exact hs.packed i hi

end InputBatch

end

/-! ### A small run -/

def tinyConfig : Config := ⟨3, 8, 4, [⟨1, 4⟩]⟩

def tinyRequest (r : Nat) (allowed : Option (List Nat)) : CachedRequestState Nat where
  reqId := r
  promptTokenIds := some [r]
  promptEmbeds := none
  samplingParams := ⟨0, 1, 0, 0, 0, 1, allowed, none, 0, none, 0, []⟩
  generator := none
  blockIds := [[r]]
  numComputedTokens := 0
  outputTokenIds := (r, [])
  loraRequest := none

theorem tinyRequest_fits (r : Nat) (allowed : Option (List Nat)) : (tinyRequest r allowed).Fits tinyConfig where
  tokens := ⟨1, rfl, Nat.le_of_ble_eq_true rfl⟩
  blocks := by
    refine ⟨Nat.le_refl _, fun g t ht => ?_⟩
    obtain - | g := g
    · obtain rfl : (⟨1, 4⟩ : TableConfig) = t := by simpa [tinyConfig] using ht
      exact Nat.le_of_ble_eq_true rfl
    · simp [tinyConfig] at ht

def tinySteps : List (Step Nat) :=
  [⟨[], [], [tinyRequest 1 none, tinyRequest 2 none], [(0, 1)], []⟩, ⟨[2], [(1, .computed 1)], [], [], []⟩]

theorem tinySteps_mirror : ∃ b, (InputBatch.init tinyConfig : InputBatch Nat).run
      tinyConfig (tinySteps.flatMap Step.ops) = some b ∧
    b.Mirrors tinyConfig (Store.run tinyConfig .empty (tinySteps.flatMap Step.ops)) :=
  InputBatch.run_mirrors tinyConfig tinySteps
    ⟨⟨rfl, by decide, tinyRequest_fits 1 none⟩, ⟨rfl, by decide, tinyRequest_fits 2 none⟩, trivial,
      ⟨by decide, by decide⟩, trivial,
      trivial, ⟨_, rfl, trivial⟩, trivial, trivial, trivial⟩

end Xmix.Worker
