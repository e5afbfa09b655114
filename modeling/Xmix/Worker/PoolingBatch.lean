import Xmix.Lib.Runs
import Xmix.Worker.RowStore

/-!
# The batch of a pooling model

A pooling model has the batch of `InputBatch` without its sampling state. Beside it stand the
pooling parameters by request and `logits_processing_needs_token_ids` by row. `add_request` writes
the flag of a row; `condense` and `swap_states` leave the pooling case before they come to the
columns of sampling, and the flags stay behind in the rows.
-/

namespace Xmix.Worker

open List Option

structure PoolingRequest (ι : Type) where
  reqId : ι
  promptTokenIds : Option (List Nat)
  promptEmbeds : Option (Obj × Nat)
  blockIds : List (List Nat)
  numComputedTokens : Nat
  outputTokenIds : Obj × List Nat
  loraRequest : Option (Nat × Obj)
  requiresTokenIds : Bool

variable {ι : Type}

def PoolingRequest.state (q : PoolingRequest ι) : CachedRequestState ι where
  reqId := q.reqId
  promptTokenIds := q.promptTokenIds
  promptEmbeds := q.promptEmbeds
  samplingParams := ⟨0, 1, 0, 0, 0, 1, none, none, 0, none, 0, []⟩
  generator := none
  blockIds := q.blockIds
  numComputedTokens := q.numComputedTokens
  outputTokenIds := q.outputTokenIds
  loraRequest := q.loraRequest

structure PoolingBatch (ι : Type) where
  batch : InputBatch ι
  poolingParams : Dict ι Bool
  logitsProcessingNeedsTokenIds : Nat → Bool
  -- `batch_update_builder.batch_changed`
  batchChanged : Bool
  -- `sampling_metadata.prompt_token_ids`
  promptTokenIds : Option (List (List Nat))

inductive PoolingOp (ι : Type) where
  | remove (r : ι)
  | write (r : ι) (w : RowWrite)
  | add (q : PoolingRequest ι)
  | condense
  | swap (i j : Nat)
  | refresh

def PoolingOp.toOp : PoolingOp ι → Op ι
  | .remove r => .remove r
  | .write r w => .write r w
  | .add q => .add q.state
  | .condense => .condense
  | .swap i j => .swap i j
  | .refresh => .refresh

namespace PoolingBatch

variable {ι : Type} [DecidableEq ι]

def init (cfg : Config) : PoolingBatch ι := ⟨.init cfg, .empty, fun _ => false, false, none⟩

def makePromptTokenIdsTensor (cfg : Config) (b : InputBatch ι) : List (List Nat) :=
  let maxPromptLen := ((range b.numReqs).map fun i => (b.rows i).numPromptTokens).foldl max 0
  (range b.numReqs).map fun i => (range maxPromptLen).map fun p =>
    if p < (b.rows i).numPromptTokens then (b.rows i).tokenIds p else cfg.vocabSize

def makePromptTokenIds (cfg : Config) (b : InputBatch ι) (flags : Nat → Bool) : Option (List (List Nat)) :=
  if (range b.numReqs).any flags then some (makePromptTokenIdsTensor cfg b) else none

def exec (cfg : Config) (x : PoolingBatch ι) : PoolingOp ι → Option (PoolingBatch ι)
  | .remove r => do
    let batch ← x.batch.removeRequest r
    if (x.batch.reqIdToIndex.get? r).isSome then
      some { x with batch := batch, poolingParams := x.poolingParams.pop r, batchChanged := true }
    else some { x with batch := batch }
  | .write r w => do
    let batch ← x.batch.exec cfg (.write r w)
    some { x with batch := batch }
  | .add q => do
    let (i, _) ← x.batch.registerAddRequest cfg q.state
    let batch ← x.batch.addRequest cfg q.state
    some { x with
      batch := batch
      poolingParams := x.poolingParams.set q.reqId q.requiresTokenIds
      logitsProcessingNeedsTokenIds := Function.update x.logitsProcessingNeedsTokenIds i q.requiresTokenIds
      batchChanged := true }
  | .condense => do
    let batch ← x.batch.condense
    some { x with batch := batch }
  | .swap i j => do
    let batch ← x.batch.swapStates i j
    some { x with batch := batch }
  | .refresh => do
    let batch ← x.batch.refreshMetadata
    if x.batchChanged then
      some { x with
        batch := batch
        batchChanged := false
        promptTokenIds := makePromptTokenIds cfg batch x.logitsProcessingNeedsTokenIds }
    else some { x with batch := batch }

end PoolingBatch

structure PoolingStep (ι : Type) where
  removes : List ι
  updates : List (ι × RowWrite)
  adds : List (PoolingRequest ι)
  swaps : List (Nat × Nat)
  results : List (ι × RowWrite)

variable (s : PoolingStep ι)

def PoolingStep.ops : List (PoolingOp ι) :=
  s.removes.map .remove ++ s.updates.map (fun w => .write w.1 w.2) ++ s.adds.map .add ++ [.condense] ++
    s.swaps.map (fun w => .swap w.1 w.2) ++ [.refresh] ++ s.results.map (fun w => .write w.1 w.2)

def PoolingStep.toStep : Step ι :=
  ⟨s.removes, s.updates, s.adds.map PoolingRequest.state, s.swaps, s.results⟩

theorem PoolingStep.toOp_ops : s.ops.map PoolingOp.toOp = s.toStep.ops := by
  simp only [PoolingStep.ops, Step.ops, PoolingStep.toStep, List.map_append, List.map_map, List.map_cons, List.map_nil]
  rfl

namespace PoolingBatch

variable {ι : Type} [DecidableEq ι] {cfg : Config}

/-- The flags a call that moves requests must find: two rows that are swapped have one flag, and so have a hole below
the number of requests and a row behind it. -/
def KeepsFlags (x : PoolingBatch ι) : PoolingOp ι → Prop
  | .swap i j => x.logitsProcessingNeedsTokenIds i = x.logitsProcessingNeedsTokenIds j
  | .condense => ∀ hole < x.batch.numReqs, (∀ r, x.batch.reqIdToIndex.get? r ≠ some hole) → ∀ r i,
      x.batch.reqIdToIndex.get? r = some i → x.batch.numReqs ≤ i →
        x.logitsProcessingNeedsTokenIds hole = x.logitsProcessingNeedsTokenIds i
  | .remove _ | .write _ _ | .add _ | .refresh => True

def Requires (x : PoolingBatch ι) : Prop :=
  ∃ r, (x.batch.reqIdToIndex.get? r).isSome ∧ x.poolingParams.get? r = some true

def RowsFlagged (x : PoolingBatch ι) : Prop := ∀ r i p, x.batch.reqIdToIndex.get? r = some i →
  x.poolingParams.get? r = some p → x.logitsProcessingNeedsTokenIds i = p

structure Flagged (x : PoolingBatch ι) : Prop where
  same : ∀ r, (x.poolingParams.get? r).isSome ↔ (x.batch.reqIdToIndex.get? r).isSome
  rows : x.RowsFlagged
  built : x.batchChanged = false → (x.promptTokenIds.isSome ↔ x.Requires)

variable {op : PoolingOp ι}

section Calls

variable {x : PoolingBatch ι} {st : Store ι} {b' : InputBatch ι}

theorem remove_flagged {r : ι} (h : x.batch.Core cfg st) (hs : x.batch.builder.isRemovedSorted = false)
    (hf : x.Flagged) (hb' : x.batch.removeRequest r = some b') :
    ∃ x', x.exec cfg (.remove r) = some x' ∧ x'.batch = b' ∧ x'.Flagged := by
  simp only [exec, hb', bind_eq_bind, bind_some]
  rcases hr : x.batch.reqIdToIndex.get? r with - | i
  · have hsame : x.batch.removeRequest r = some x.batch := by simp [InputBatch.removeRequest, hr]
    cases hsame.symm.trans hb'
    exact ⟨_, rfl, rfl, hf⟩
  · obtain ⟨lids, lreqs, hsome, -⟩ := InputBatch.removeRequest_eq h hs hr
    cases hsome.symm.trans hb'
    refine ⟨_, rfl, rfl, ⟨fun r' => ?_, fun r' j p hj hp => ?_, fun hc => by cases hc⟩⟩
    · simp only [Dict.get?_pop]
      split
      · rfl
      · exact hf.same r'
    · simp only [Dict.get?_pop] at hj hp
      split at hj
      · cases hj
      next hne =>
        rw [if_neg hne] at hp
        exact hf.rows r' j p hj hp

theorem add_flagged {q : PoolingRequest ι} (h : x.batch.Core cfg st)
    (hg : x.batch.Gaps) (hp : st.Permits cfg (.add q.state))
    (hf : x.Flagged) (hb' : x.batch.addRequest cfg q.state = some b') :
    ∃ x', x.exec cfg (.add q) = some x' ∧ x'.batch = b' ∧ x'.Flagged := by
  obtain ⟨slot, ha, heq⟩ := InputBatch.addRequest_eq h hg hp
  -- the row that the flag is written to
  obtain ⟨⟨j, v⟩, hreg, -⟩ := bind_eq_some_iff.1 hb'
  have hij : j = slot.index := by
    rw [← ha.next]
    unfold InputBatch.registerAddRequest at hreg
    simp only at hreg
    split at hreg
    · cases hreg
      rfl
    · cases hreg
  subst hij
  cases heq.symm.trans hb'
  have hindex : (x.batch.added q.state slot).reqIdToIndex = x.batch.reqIdToIndex.set q.reqId slot.index :=
    (InputBatch.added_frame x.batch q.state slot).2.1
  simp only [exec, hreg, hb', bind_eq_bind, bind_some]
  refine ⟨_, rfl, rfl, ⟨fun r => ?_, fun r i p hi hp => ?_, fun hc => by cases hc⟩⟩
  · simp only [hindex, Dict.get?_set]
    split
    · exact Iff.rfl
    · exact hf.same r
  · simp only [hindex, Dict.get?_set] at hi hp
    split at hi
    next hr =>
      cases hi
      rw [if_pos hr] at hp
      exact (Function.update_self ..).trans (some.inj hp)
    next hr =>
      rw [if_neg hr] at hp
      have hne : i ≠ slot.index := fun hij => ha.free r (hij ▸ hi)
      exact (Function.update_of_ne hne ..).trans (hf.rows r i p hi hp)

theorem Flagged.moved (hf : x.Flagged) (h : x.batch.Core cfg st) (hc' : b'.Core cfg st)
    (hrows : RowsFlagged { x with batch := b' }) : Flagged { x with batch := b' } := by
  have hdom : ∀ r, (b'.reqIdToIndex.get? r).isSome ↔ (x.batch.reqIdToIndex.get? r).isSome := fun r =>
    (hc'.dom r).trans (h.dom r).symm
  refine ⟨fun r => (hf.same r).trans (hdom r).symm, hrows, fun hchanged => (hf.built hchanged).trans ?_⟩
  exact exists_congr fun r => and_congr_left fun _ => (hdom r).symm

/-- A request that is moved takes the flag of the hole it fills. -/
theorem movedDown_rowsFlagged {b : InputBatch ι} {r : ι} {last empty : Nat} {o : Option Obj} {specs : List (List Nat)}
    (hc : b.Core cfg st) (hlast : b.reqIds[last]? = some (some r)) (hempty : b.reqIds[empty]? = some none)
    (hn : empty < b.numReqs ∧ b.numReqs ≤ last)
    (h : RowsFlagged { x with batch := b } ∧ KeepsFlags { x with batch := b } .condense) :
    RowsFlagged { x with batch := b.movedDown r last empty o specs } ∧
      KeepsFlags { x with batch := b.movedDown r last empty o specs } .condense := by
  have hr : b.reqIdToIndex.get? r = some last := (hc.keys r last).2 hlast
  have hfree : ∀ r', b.reqIdToIndex.get? r' ≠ some empty := hc.not_free_iff.2 (.inr hempty)
  have hlen : (b.movedDown r last empty o specs).numReqs = b.numReqs := Dict.len_set_of_some hr
  have hget : ∀ r', (b.movedDown r last empty o specs).reqIdToIndex.get? r' =
      if r' = r then some empty else b.reqIdToIndex.get? r' := fun r' => Dict.get?_set _ _ _ _
  constructor
  · intro r' i p hi hp
    simp only [hget] at hi
    split at hi
    next heq =>
      cases hi
      subst heq
      exact (h.2 empty hn.1 hfree r' last hr hn.2).trans (h.1 r' last p hr hp)
    · exact h.1 r' i p hi hp
  · intro hole hhole hno r' i hi hle
    simp only [hlen] at hhole hle
    have hno' : ∀ r'', b.reqIdToIndex.get? r'' ≠ some hole := fun r'' hr'' => by
      by_cases heq : r'' = r
      · subst heq
        cases hr.symm.trans hr''
        omega
      · exact hno r'' (by rw [hget, if_neg heq, hr''])
    simp only [hget] at hi
    split at hi
    · cases hi
      omega
    · exact h.2 hole hhole hno' r' i hi hle

section
variable (h : x.batch.Core cfg st)
include h

theorem condense_flagged (hg : x.batch.Gaps) (hk : x.KeepsFlags .condense) (hf : x.Flagged)
    (hb' : x.batch.condense = some b') : ∃ x', x.exec cfg .condense = some x' ∧ x'.batch = b' ∧ x'.Flagged := by
  obtain ⟨b₁, hb₁, hc₁, -, hrows, -⟩ := InputBatch.condense_spec
    (fun b => RowsFlagged { x with batch := b } ∧ KeepsFlags { x with batch := b } .condense)
    (fun b r last empty o specs hc hlast hempty hn => movedDown_rowsFlagged hc hlast hempty hn)
    (fun b u ids outs specs hb => hb) h hg ⟨hf.rows, hk⟩
  cases hb₁.symm.trans hb'
  exact ⟨{ x with batch := b' }, by simp [exec, hb'], rfl, hf.moved h hc₁ hrows⟩

theorem swap_flagged {i j : Nat} (hpk : x.batch.Packed) (hi : i < st.len) (hj : j < st.len)
    (hk : x.KeepsFlags (.swap i j)) (hf : x.Flagged) (hb' : x.batch.swapStates i j = some b') (hc' : b'.Core cfg st) :
    ∃ x', x.exec cfg (.swap i j) = some x' ∧ x'.batch = b' ∧ x'.Flagged := by
  refine ⟨{ x with batch := b' }, by simp [exec, hb'], rfl, hf.moved h hc' fun r k p hr hp => ?_⟩
  obtain ⟨r₁, h₁⟩ := h.exists_of_packed hpk hi
  obtain ⟨r₂, h₂⟩ := h.exists_of_packed hpk hj
  obtain ⟨o, o', specs, -, -, -, heq⟩ := InputBatch.swapStates_eq h h₁ h₂
  cases heq.symm.trans hb'
  have hold : x.batch.reqIdToIndex.get? r = some (Equiv.swap i j k) := by
    rw [h.keys, ← InputBatch.reqIds_swapped h₁ h₂, ← hc'.keys, hr]
  rw [← hf.rows r _ p hold hp, Equiv.swap_apply_def]
  split
  next hki => rw [hki, hk]
  · split
    next hkj => rw [hkj, hk]
    · rfl

theorem refresh_flagged (hpk : x.batch.Packed) (hf : x.Flagged) (hb' : x.batch.refreshMetadata = some b') :
    ∃ x', x.exec cfg .refresh = some x' ∧ x'.batch = b' ∧ x'.Flagged ∧ x'.batchChanged = false := by
  have hframe := InputBatch.refreshMetadata_frame h hb'
  have hnum : b'.numReqs = st.len := by
    rw [InputBatch.numReqs, hframe.2]
    exact h.size
  simp only [exec, hb', bind_eq_bind, bind_some]
  split
  next hchanged =>
    refine ⟨_, rfl, rfl, ⟨?_, ?_, fun _ => ?_⟩, rfl⟩
    · simp only [hframe.2]
      exact hf.same
    · simp only [RowsFlagged, hframe.2]
      exact hf.rows
    · -- the flags below the number of requests are those of the requests
      simp only [makePromptTokenIds, Requires, hframe.2]
      have hany : (List.range b'.numReqs).any x.logitsProcessingNeedsTokenIds = true ↔
          ∃ r, (x.batch.reqIdToIndex.get? r).isSome ∧ x.poolingParams.get? r = some true := by
        rw [List.any_eq_true]
        constructor
        · rintro ⟨i, hi, hflag⟩
          obtain ⟨r, hr⟩ := h.exists_of_packed hpk (hnum ▸ mem_range.1 hi)
          have hri := (h.keys r i).2 hr
          have hsome : (x.batch.reqIdToIndex.get? r).isSome := by rw [hri]; rfl
          obtain ⟨p, hp⟩ := isSome_iff_exists.1 ((hf.same r).2 hsome)
          refine ⟨r, hsome, ?_⟩
          rw [hp, ← hf.rows r i p hri hp, hflag]
        · rintro ⟨r, hsome, hp⟩
          obtain ⟨i, hi⟩ := isSome_iff_exists.1 hsome
          refine ⟨i, mem_range.2 ?_, hf.rows r i true hi hp⟩
          rw [hnum, ← h.size, h.numReqs_of_packed hpk]
          exact h.lt_length hi
      rw [← hany]
      split
      next hyes => exact iff_of_true rfl hyes
      next hno => exact iff_of_false (by simp) hno
  next hchanged =>
    refine ⟨_, rfl, rfl, ⟨?_, ?_, ?_⟩, Bool.eq_false_iff.2 hchanged⟩
    · simp only [hframe.2]
      exact hf.same
    · simp only [RowsFlagged, hframe.2]
      exact hf.rows
    · simp only [Requires, hframe.2]
      exact hf.built

theorem exec_flagged (hp : st.Permits cfg op.toOp) (hr : x.batch.Ready op.toOp) (hk : x.KeepsFlags op)
    (hb' : x.batch.exec cfg op.toOp = some b') (hf : x.Flagged) :
    ∃ x', x.exec cfg op = some x' ∧ x'.batch = b' ∧ x'.Flagged ∧ (op = .refresh → x'.batchChanged = false) := by
  cases op with
  | remove r =>
    obtain ⟨x', hx', heq, hf'⟩ := remove_flagged h hr.2 hf hb'
    exact ⟨x', hx', heq, hf', fun hop => by cases hop⟩
  | write r w =>
    obtain ⟨i, e, row, -, -, -, -, -, heq⟩ := InputBatch.exec_write_eq h hp
    cases heq.symm.trans hb'
    refine ⟨{ x with batch := { x.batch with rows := Function.update x.batch.rows i row } }, ?_, rfl,
      ⟨hf.same, hf.rows, hf.built⟩, fun hop => by cases hop⟩
    simp [exec, heq]
  | add q =>
    obtain ⟨x', hx', heq, hf'⟩ := add_flagged h hr hp hf hb'
    exact ⟨x', hx', heq, hf', fun hop => by cases hop⟩
  | condense =>
    obtain ⟨x', hx', heq, hf'⟩ := condense_flagged h hr hk hf hb'
    exact ⟨x', hx', heq, hf', fun hop => by cases hop⟩
  | swap i j =>
    obtain ⟨b'', hb'', hc', -⟩ := InputBatch.exec_spec h hp hr
    cases hb'.symm.trans hb''
    obtain ⟨x', hx', heq, hf'⟩ := swap_flagged h hr hp.1 hp.2 hk hf hb' hc'
    exact ⟨x', hx', heq, hf', fun hop => by cases hop⟩
  | refresh =>
    obtain ⟨x', hx', heq, hf', hchanged⟩ := refresh_flagged h hr hf hb'
    exact ⟨x', hx', heq, hf', fun _ => hchanged⟩

end

theorem exec_returns (hb' : x.batch.exec cfg op.toOp = some b') : ∃ x', x.exec cfg op = some x' := by
  cases op with
  | remove r =>
    simp only [exec, show x.batch.removeRequest r = some b' from hb', bind_eq_bind, bind_some]
    split <;> exact ⟨_, rfl⟩
  | write r w => exact ⟨_, by rw [exec, show x.batch.exec cfg (.write r w) = some b' from hb']; rfl⟩
  | add q =>
    obtain ⟨⟨i, u⟩, hreg, -⟩ := bind_eq_some_iff.1 (show x.batch.addRequest cfg q.state = some b' from hb')
    exact ⟨_, by rw [exec, hreg, show x.batch.addRequest cfg q.state = some b' from hb']; rfl⟩
  | condense => exact ⟨_, by rw [exec, show x.batch.condense = some b' from hb']; rfl⟩
  | swap i j => exact ⟨_, by rw [exec, show x.batch.swapStates i j = some b' from hb']; rfl⟩
  | refresh =>
    simp only [exec, show x.batch.refreshMetadata = some b' from hb', bind_eq_bind, bind_some]
    split <;> exact ⟨_, rfl⟩

end Calls

theorem calls_flagged {Q : InputBatch ι → Prop} {x : PoolingBatch ι}
    {st : Store ι} {ops calls : List (PoolingOp ι)}
    (hs : InputBatch.Sound cfg (fun _ _ => True) Q x.batch st (ops.map PoolingOp.toOp))
    (hk : Along (exec cfg) KeepsFlags x ops) (hf : x.Flagged) (hpre : calls <+: ops) :
    ∃ x', runFrom (exec cfg) x calls = some x' ∧ x'.Flagged ∧
      (calls.getLast? = some .refresh → x'.batchChanged = false) := by
  induction ops generalizing x st calls with
  | nil =>
    obtain rfl := prefix_nil.1 hpre
    exact ⟨x, rfl, hf, fun h => by cases h⟩
  | cons op ops ih =>
    rcases calls with - | ⟨call, calls⟩
    · exact ⟨x, rfl, hf, fun h => by cases h⟩
    obtain ⟨rfl, hrestpre⟩ := cons_prefix_cons.1 hpre
    obtain ⟨hc, hp, hr, -, b', hb', hrest⟩ := hs
    obtain ⟨x₁, hx₁⟩ := exec_returns hb'
    obtain ⟨hkop, hk⟩ := hk x₁ hx₁
    obtain ⟨x', hx', rfl, hf', hlast⟩ := exec_flagged hc hp hr hkop hb' hf
    cases hx₁.symm.trans hx'
    obtain ⟨x'', hrun, hf'', hlast'⟩ := ih hrest hk hf' hrestpre
    refine ⟨x'', by rw [runFrom_cons, hx₁]; exact hrun, hf'', fun hcalls => ?_⟩
    rcases calls with - | ⟨call', calls⟩
    · cases hrun
      exact hlast (some.inj hcalls)
    · exact hlast' (by rwa [getLast?_cons_cons] at hcalls)

theorem flagged_init (cfg : Config) : (init cfg : PoolingBatch ι).Flagged where
  same r := Iff.rfl
  rows r i p hi := by cases hi
  built _ := iff_of_false (by simp [init]) (by rintro ⟨r, hr, -⟩; cases hr)

/-- At every refresh of a run in which each request that moves finds its own flag in its new row,
the prompts are there if and only if some request of the batch requires token ids, and every row has
the flag of its request. -/
theorem refreshed_iff_requires (cfg : Config) (steps : List (PoolingStep ι))
    (h : Store.PermitsAll cfg (.empty : Store ι) ((steps.flatMap PoolingStep.ops).map PoolingOp.toOp))
    (hk : Along (exec cfg) KeepsFlags (init cfg) (steps.flatMap PoolingStep.ops)) (calls : List (PoolingOp ι))
    (hcalls : calls ++ [.refresh] <+: steps.flatMap PoolingStep.ops) :
    ∃ x, runFrom (exec cfg) (init cfg) (calls ++ [.refresh]) = some x ∧ (x.promptTokenIds.isSome ↔ x.Requires) ∧
      ∀ r i, x.batch.reqIdToIndex.get? r = some i →
        x.poolingParams.get? r = some (x.logitsProcessingNeedsTokenIds i) := by
  have hops : (steps.flatMap PoolingStep.ops).map PoolingOp.toOp = (steps.map PoolingStep.toStep).flatMap Step.ops := by
    rw [map_flatMap, flatMap_map]
    exact flatMap_congr fun s _ => s.toOp_ops
  have hs : InputBatch.Sound cfg (fun _ _ => True) InputBatch.Settled (init cfg : PoolingBatch ι).batch .empty
      ((steps.flatMap PoolingStep.ops).map PoolingOp.toOp) := by
    rw [hops] at h ⊢
    exact InputBatch.sound_steps (InputBatch.core_init cfg) (InputBatch.settled_init cfg)
      (InputBatch.meets_of_permitsAll h fun _ _ _ => trivial)
  obtain ⟨x, hx, hf, hlast⟩ := calls_flagged hs hk (flagged_init cfg) hcalls
  refine ⟨x, hx, hf.built (hlast (by simp)), fun r i hi => ?_⟩
  obtain ⟨p, hp⟩ := isSome_iff_exists.1 ((hf.same r).2 (by rw [hi]; rfl))
  rw [hp, hf.rows r i p hi hp]

def keepsFlags (x : PoolingBatch ι) : PoolingOp ι → Bool
  | .swap i j => x.logitsProcessingNeedsTokenIds i == x.logitsProcessingNeedsTokenIds j
  | .condense => (range x.batch.numReqs).all fun hole => x.batch.reqIdToIndex.entries.any (·.2 == hole) ||
      x.batch.reqIdToIndex.entries.all fun e =>
        e.2 < x.batch.numReqs || x.logitsProcessingNeedsTokenIds hole == x.logitsProcessingNeedsTokenIds e.2
  | _ => true

theorem keepsFlags_sound {x : PoolingBatch ι} (h : keepsFlags x op = true) : x.KeepsFlags op := by
  cases op with
  | swap i j => exact beq_iff_eq.1 h
  | condense =>
    intro hole hhole hno r i hi hle
    have hrow := all_eq_true.1 h hole (mem_range.2 hhole)
    simp only [Bool.or_eq_true, List.any_eq_true, List.all_eq_true, beq_iff_eq, decide_eq_true_eq] at hrow
    rcases hrow with ⟨e, he, rfl⟩ | hrow
    · exact absurd (Dict.get?_eq_some.2 he) (hno e.1)
    · exact (hrow (r, i) (Dict.get?_eq_some.1 hi)).resolve_left (Nat.not_lt.2 hle)
  | _ => trivial

end PoolingBatch

def tinyPooling (r : Nat) (requires : Bool) : PoolingRequest Nat where
  reqId := r
  promptTokenIds := some [r]
  promptEmbeds := none
  blockIds := [[r]]
  numComputedTokens := 0
  outputTokenIds := (r, [])
  loraRequest := none
  requiresTokenIds := requires

theorem tinyPooling_fits (r : Nat) (requires : Bool) : (tinyPooling r requires).state.Fits tinyConfig :=
  ⟨(tinyRequest_fits r none).tokens, (tinyRequest_fits r none).blocks⟩

def leavingFirst (first second : Bool) : List (PoolingStep Nat) :=
  [⟨[], [], [tinyPooling 1 first, tinyPooling 2 second], [], []⟩, ⟨[1], [], [], [], []⟩]

theorem leavingFirst_permits (first second : Bool) :
    Store.PermitsAll tinyConfig (.empty : Store Nat)
      (((leavingFirst first second).flatMap PoolingStep.ops).map PoolingOp.toOp) :=
  ⟨⟨rfl, Nat.le_of_ble_eq_true rfl, tinyPooling_fits 1 first⟩,
    ⟨rfl, Nat.le_of_ble_eq_true rfl, tinyPooling_fits 2 second⟩, trivial, trivial, trivial, trivial, trivial, trivial⟩

namespace PoolingBatch

theorem leavingFirst_refreshed : let ops := (leavingFirst true true).flatMap PoolingStep.ops
    Along (exec tinyConfig) KeepsFlags (init tinyConfig) ops ∧
    ∃ x, runFrom (exec tinyConfig) (init tinyConfig) ops = some x ∧ (x.promptTokenIds.isSome ↔ x.Requires) ∧
      ∀ r i, x.batch.reqIdToIndex.get? r = some i →
        x.poolingParams.get? r = some (x.logitsProcessingNeedsTokenIds i) := by
  have hk : Along (exec tinyConfig) KeepsFlags (init tinyConfig) ((leavingFirst true true).flatMap PoolingStep.ops) :=
    along_of_check (fun _ _ => keepsFlags_sound) (by decide +kernel)
  exact ⟨hk, refreshed_iff_requires tinyConfig (leavingFirst true true) (leavingFirst_permits true true) hk
    [.add (tinyPooling 1 true), .add (tinyPooling 2 true), .condense, .refresh, .remove 1, .condense] ⟨[], rfl⟩⟩

/-- The second request requires token ids and the first does not: the row it moves to says that no
prompts are needed. -/
theorem leavingFirst_forgets : let ops := (leavingFirst false true).flatMap PoolingStep.ops
    Store.PermitsAll tinyConfig (.empty : Store Nat) (ops.map PoolingOp.toOp) ∧
    ∃ x, runFrom (exec tinyConfig) (init tinyConfig) ops = some x ∧ x.batch.reqIdToIndex.get? 2 = some 0 ∧
      x.poolingParams.get? 2 = some true ∧ x.logitsProcessingNeedsTokenIds 0 = false ∧ x.promptTokenIds = none := by
  refine ⟨leavingFirst_permits false true, ?_⟩
  obtain ⟨x, hx⟩ := isSome_iff_exists.1
    (show (runFrom (exec tinyConfig) (init tinyConfig)
      ((leavingFirst false true).flatMap PoolingStep.ops)).isSome by decide +kernel)
  have hfacts : (runFrom (exec tinyConfig) (init tinyConfig)
    ((leavingFirst false true).flatMap PoolingStep.ops)).any (fun x =>
      x.batch.reqIdToIndex.get? 2 = some 0 ∧ x.poolingParams.get? 2 = some true ∧
        x.logitsProcessingNeedsTokenIds 0 = false ∧
        x.promptTokenIds = none) = true := by decide +kernel
  rw [hx, any_some, decide_eq_true_eq] at hfacts
  exact ⟨x, hx, hfacts⟩

end PoolingBatch

end Xmix.Worker
