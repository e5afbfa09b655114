import Mathlib.Data.Finset.Card
import Mathlib.Logic.Function.Basic

/-!
# The inputs of the drafter

`prepare_inputs` takes the rejected tokens out of the batch, `prepare_inputs_padded` keeps them as
padding and moves the sampled index. `propose` runs its passes on either. Its first pass agrees; the
later ones count on from the sequence lengths, which still hold the rejected tokens where the batch
is padded.
-/

namespace Xmix.SpecDecode

open List Function

variable {H : Type}

abbrev Token := Int

/-- `query_start_loc`: the lengths of the requests before `r`. -/
def cumsum (n : Nat → Nat) : Nat → Nat
  | 0 => 0
  | r + 1 => cumsum n r + n r

/-- `np.repeat`. -/
def repeatEach (f n : Nat → Nat) : Nat → List Nat
  | 0 => []
  | r + 1 => repeatEach f n r ++ replicate (n r) (f r)

structure Batch (H : Type) where
  numReqs : Nat
  queryLen : Nat → Nat
  numComputedTokens : Nat → Nat
  numDraftTokens : Nat → Nat
  /-- The rows of the rejection sampler, `-1` for a rejected token. -/
  sampledTokenIds : Nat → List Token
  discarded : Nat → Bool
  getTokenId : Nat → Nat → Token
  inputIds : Nat → Token
  positions : Nat → Nat
  hiddenStates : Nat → H
  slotMapping : Nat → Int
  blockTable : Nat → Nat → Nat
  /-- What `self.input_ids` holds from before. -/
  buffer : Nat → Token
  blockSize : Nat
  maxModelLen : Nat
  vocabSize : Nat

/-- What is prepared for `propose`; tokens, positions, hidden states and slots are gathered at `tokenIndices`. -/
structure Inputs where
  numTokens : Nat
  tokenIndices : Nat → Nat
  nextTokenIds : Nat → Token
  lastTokenIndices : Nat → Nat
  queryStartLoc : Nat → Nat
  seqLens : Nat → Nat

/-- What the sampled row of a request is given in one pass. -/
structure Row (H : Type) where
  token : Token
  position : Nat
  hidden : H
  slot : Int
  attended : Finset Nat

structure Pass (H : Type) where
  row : Row H
  position : Nat
  seqLen : Nat

namespace Batch

variable (b : Batch H) (r : Nat)

def seqLen : Nat := b.numComputedTokens r + b.queryLen r

def isValid (t : Token) : Bool := t ≠ -1 ∧ t < b.vocabSize

/-- `parse_output`, with the rows that are discarded cleared. -/
def validIds : List Token := if b.discarded r then [] else (b.sampledTokenIds r).filter b.isValid

def numRejected (valid : Nat) : Nat := if 0 < b.numDraftTokens r then b.numDraftTokens r + 1 - valid else 0

def nextTokenIdsCpu : Token := (b.validIds r).getLast?.getD (b.getTokenId r (b.numComputedTokens r + b.queryLen r))

def maskedRow : List Token := if b.discarded r then replicate (b.sampledTokenIds r).length (-1) else b.sampledTokenIds r

def validCount : Nat := (b.maskedRow r).countP b.isValid

def nextTokenIdsPadded : Token :=
  if b.validCount r = 0 then b.getTokenId r (b.seqLen r) else (b.maskedRow r)[b.validCount r - 1]?.getD 0

def newLen : Nat := b.queryLen r - b.numRejected r (b.validIds r).length

def prepareInputs : Inputs where
  numTokens := cumsum b.newLen b.numReqs
  tokenIndices i :=
    i - (repeatEach (cumsum b.newLen) b.newLen b.numReqs)[i]?.getD 0 +
      (repeatEach (cumsum b.queryLen) b.newLen b.numReqs)[i]?.getD 0
  nextTokenIds := b.nextTokenIdsCpu
  lastTokenIndices r := cumsum b.newLen (r + 1) - 1
  queryStartLoc := cumsum b.newLen
  seqLens r := b.seqLen r - b.numRejected r (b.validIds r).length

def prepareInputsPadded : Inputs where
  numTokens := cumsum b.queryLen b.numReqs
  tokenIndices i := i
  nextTokenIds := b.nextTokenIdsPadded
  lastTokenIndices r := cumsum b.queryLen (r + 1) - 1 - b.numRejected r (b.validCount r)
  queryStartLoc := cumsum b.queryLen
  seqLens := b.seqLen

variable (x : Inputs)

/-- The tokens shifted by one, with the last of each request replaced. -/
def draftIds : Nat → Token :=
  (range b.numReqs).foldl (fun ids r => update ids (x.lastTokenIndices r) (x.nextTokenIds r))
    fun i => if i + 1 < x.numTokens then b.inputIds (x.tokenIndices (i + 1)) else b.buffer i

def firstPass : Pass H :=
  let i := x.lastTokenIndices r
  let queryLen := x.queryStartLoc (r + 1) - x.queryStartLoc r
  { row :=
      { token := b.draftIds x i
        position := b.positions (x.tokenIndices i)
        hidden := b.hiddenStates (x.tokenIndices i)
        slot := b.slotMapping (x.tokenIndices i)
        -- causal: a row sees the sequence up to its own place in the query
        attended := Finset.range (x.seqLens r - queryLen + (i - x.queryStartLoc r) + 1) }
    position := b.positions (x.tokenIndices i)
    seqLen := x.seqLens r }

def nextPass (draft : Row H → Token × H) (s : Pass H) : Pass H :=
  let position := s.position + 1
  let exceeds := b.maxModelLen ≤ position
  let clamped := if exceeds then 0 else position
  let seqLen := if exceeds then 1 else s.seqLen + 1
  { row :=
      { token := (draft s.row).1
        position := clamped
        hidden := (draft s.row).2
        slot := if exceeds then -1 else b.blockTable r (clamped / b.blockSize) * b.blockSize + clamped % b.blockSize
        attended := Finset.range seqLen }
    position
    seqLen }

/-- What request `r` is given pass by pass; `draft` is the model's answer at its sampled row. -/
def passes (draft : Nat → Nat → Row H → Token × H) : Nat → Pass H
  | 0 => b.firstPass r x
  | k + 1 => b.nextPass r (draft k r) (passes draft k)

def rejected : Nat := b.numRejected r (b.validIds r).length

/-- The last token that is not rejected: its place among the tokens of the request, in the batch and in the sequence. -/
def lastKept : Nat := b.queryLen r - b.rejected r - 1

def keptIndex : Nat := cumsum b.queryLen r + b.lastKept r

def keptPosition : Nat := b.numComputedTokens r + b.lastKept r

def sampledRow : Row H where
  token := b.nextTokenIdsCpu r
  position := b.keptPosition r
  hidden := b.hiddenStates (b.keptIndex r)
  slot := b.slotMapping (b.keptIndex r)
  attended := Finset.range (b.keptPosition r + 1)

/-- Accepted tokens come first, and positions count on from the computed ones. -/
structure Wf : Prop where
  query : ∀ r < b.numReqs, b.numDraftTokens r < b.queryLen r
  accepted : ∀ r < b.numReqs, 0 < b.numDraftTokens r → 1 ≤ (b.validIds r).length ∧
    (b.validIds r).length ≤ b.numDraftTokens r + 1
  front : ∀ r < b.numReqs, (b.sampledTokenIds r).filter b.isValid <+: b.sampledTokenIds r
  positions : ∀ r < b.numReqs, ∀ j < b.queryLen r, b.positions (cumsum b.queryLen r + j) = b.numComputedTokens r + j

end Batch

/-! ### Ragged indices -/

variable {n f : Nat → Nat} {R r s : Nat}

theorem cumsum_le (h : r ≤ s) : cumsum n r ≤ cumsum n s := by
  induction h with
  | refl => exact Nat.le_refl _
  | step _ ih => exact ih.trans (Nat.le_add_right _ _)

theorem length_repeatEach (R : Nat) : (repeatEach f n R).length = cumsum n R := by
  induction R with
  | zero => rfl
  | succ R ih => rw [repeatEach, length_append, length_replicate, ih, cumsum]

theorem repeatEach_at {j : Nat} (hr : r < R) (hj : j < n r) : (repeatEach f n R)[cumsum n r + j]? = some (f r) := by
  induction R with
  | zero => omega
  | succ R ih =>
    rw [repeatEach]
    rcases Nat.lt_succ_iff_lt_or_eq.1 hr with hr | rfl
    · have hle : cumsum n (r + 1) ≤ cumsum n R := cumsum_le hr
      rw [cumsum] at hle
      rw [getElem?_append_left (by rw [length_repeatEach]; omega), ih hr]
    · rw [getElem?_append_right (by rw [length_repeatEach]; omega), length_repeatEach,
        Nat.add_sub_cancel_left, getElem?_replicate_of_lt hj]

/-- Indices that each lie in the part of their own request are distinct, so that each write is read back. -/
theorem scatter_eq {last : Nat → Nat} {next ids : Nat → Token}
    (hlast : ∀ r < R, cumsum n r ≤ last r ∧ last r < cumsum n (r + 1)) (hr : r < R) :
    (range R).foldl (fun ids r => update ids (last r) (next r)) ids (last r) = next r := by
  induction R with
  | zero => omega
  | succ R ih =>
    rw [range_succ, foldl_append, foldl_cons, foldl_nil]
    rcases Nat.lt_succ_iff_lt_or_eq.1 hr with hr | rfl
    · have hle : cumsum n (r + 1) ≤ cumsum n R := cumsum_le hr
      have := hlast r (by omega)
      have := hlast R (by omega)
      rw [update_of_ne (by omega), ih (fun r hr => hlast r (by omega)) hr]
    · exact update_self _ _ _

namespace Batch

variable {b : Batch H} {x y : Inputs} {draft : Nat → Nat → Row H → Token × H} {k : Nat}

theorem validCount_eq (b : Batch H) (r : Nat) : b.validCount r = (b.validIds r).length := by
  rw [validCount, maskedRow, validIds]
  split
  · simp [isValid]
  · exact countP_eq_length_filter ..

section
variable (hw : b.Wf) (hr : r < b.numReqs)
include hw hr

theorem rejected_eq_zero_iff :
    b.rejected r = 0 ↔ b.numDraftTokens r = 0 ∨ (b.validIds r).length = b.numDraftTokens r + 1 := by
  have := hw.accepted r hr
  rw [rejected, numRejected]
  split <;> omega

theorem rejected_lt : b.rejected r < b.queryLen r := by
  have := hw.query r hr
  have := hw.accepted r hr
  rw [rejected, numRejected]
  split <;> omega

theorem nextTokenIds_eq : b.nextTokenIdsPadded r = b.nextTokenIdsCpu r := by
  rw [nextTokenIdsPadded, nextTokenIdsCpu, validCount_eq]
  by_cases hnil : b.validIds r = []
  · simp [hnil, seqLen]
  have hlen : 0 < (b.validIds r).length := length_pos_iff.2 hnil
  obtain ⟨t, ht⟩ : b.validIds r <+: b.maskedRow r := by
    rw [validIds, maskedRow]
    split
    · exact ( nil_prefix)
    · exact hw.front r hr
  rw [if_neg (by omega), ← ht, getElem?_append_left (by omega), getLast?_eq_getElem?, getElem?_eq_getElem (by omega)]
  rfl

theorem firstPass_eq (hstart : x.queryStartLoc = cumsum n)
    (hlast : ∀ r < b.numReqs, x.lastTokenIndices r = cumsum n r + b.lastKept r ∧ b.lastKept r < n r)
    (hseq : x.seqLens r = b.numComputedTokens r + n r) (hnext : x.nextTokenIds r = b.nextTokenIdsCpu r)
    (hindex : x.tokenIndices (x.lastTokenIndices r) = b.keptIndex r) :
    b.firstPass r x = ⟨b.sampledRow r, b.keptPosition r, x.seqLens r⟩ := by
  have hids : b.draftIds x (x.lastTokenIndices r) = x.nextTokenIds r := by
    refine scatter_eq (n := n) (fun r hr => ?_) hr
    obtain ⟨h, hlt⟩ := hlast r hr
    rw [h, cumsum]
    omega
  have hown : b.positions (b.keptIndex r) = b.keptPosition r := by
    have := rejected_lt hw hr
    exact hw.positions r hr _ (by rw [lastKept]; omega)
  have hplace : x.seqLens r - (x.queryStartLoc (r + 1) - x.queryStartLoc r) +
    (x.lastTokenIndices r - x.queryStartLoc r) = b.keptPosition r := by
    rw [hseq, hstart, (hlast r hr).1, cumsum, keptPosition]
    omega
  rw [firstPass, hids, hnext, hindex, hown, hplace]
  rfl

theorem firstPass_padded :
    b.firstPass r b.prepareInputsPadded = ⟨b.sampledRow r, b.keptPosition r, b.seqLen r⟩ := by
  have hlast (r : Nat) (hr : r < b.numReqs) :
      b.prepareInputsPadded.lastTokenIndices r = cumsum b.queryLen r + b.lastKept r ∧ b.lastKept r < b.queryLen r := by
    have := rejected_lt hw hr
    show cumsum b.queryLen r + b.queryLen r - 1 - b.numRejected r (b.validCount r) = _ ∧ _
    rw [validCount_eq, ← rejected, lastKept]
    omega
  exact firstPass_eq hw hr rfl hlast rfl (nextTokenIds_eq hw hr) (hlast r hr).1

theorem firstPass_compact :
    b.firstPass r b.prepareInputs = ⟨b.sampledRow r, b.keptPosition r, b.seqLen r - b.rejected r⟩ := by
  have hlast (r : Nat) (hr : r < b.numReqs) :
      b.prepareInputs.lastTokenIndices r = cumsum b.newLen r + b.lastKept r ∧ b.lastKept r < b.newLen r := by
    have hlt := rejected_lt hw hr
    have hnew : b.newLen r = b.queryLen r - b.rejected r := rfl
    show cumsum b.newLen r + b.newLen r - 1 = _ ∧ _
    rw [lastKept]
    omega
  have hindex : b.prepareInputs.tokenIndices (b.prepareInputs.lastTokenIndices r) = b.keptIndex r := by
    obtain ⟨hi, hlt⟩ := hlast r hr
    rw [hi]
    simp only [prepareInputs]
    rw [repeatEach_at hr hlt, repeatEach_at hr hlt, Option.getD_some, Option.getD_some,
      Nat.add_sub_cancel_left, keptIndex, Nat.add_comm]
  have hseq : b.prepareInputs.seqLens r = b.numComputedTokens r + b.newLen r := by
    have hlt := rejected_lt hw hr
    show b.numComputedTokens r + b.queryLen r - b.rejected r = b.numComputedTokens r + (b.queryLen r - b.rejected r)
    omega
  exact firstPass_eq hw hr rfl hlast hseq rfl hindex

end

/-! ### The later passes -/

theorem passes_congr (h : b.firstPass r x = b.firstPass r y) (k : Nat) :
    b.passes r x draft k = b.passes r y draft k := by
  induction k with
  | zero => exact h
  | succ k ih => rw [passes, passes, ih]

variable (draft) in
theorem passes_spec {row : Row H} {own len : Nat} (h : b.firstPass r x = ⟨row, own, len⟩)
    (hrow : row.position = own) (hk : own + k < b.maxModelLen) :
    let s := b.passes r x draft k
    s.position = own + k ∧ s.seqLen = len + k ∧ s.row.position = own + k ∧
      (0 < k → s.row.attended = Finset.range (len + k)) := by
  induction k with
  | zero =>
    simp only [passes, h]
    exact ⟨rfl, rfl, hrow, fun h => absurd h (Nat.lt_irrefl 0)⟩
  | succ k ih =>
    obtain ⟨hp, hl, -⟩ := ih (by omega)
    have hin : ¬ b.maxModelLen ≤ own + k + 1 := by omega
    simp only [passes, nextPass, hp, hl, if_neg hin]
    exact ⟨rfl, rfl, rfl, fun _ => rfl⟩

/-- With rejected tokens as padding, all passes see their own context only if there is one pass or
nothing was rejected. -/
theorem passes_eq_iff (hw : b.Wf) (hr : r < b.numReqs) (draft : Nat → Nat → Row H → Token × H)
    {numSpeculativeTokens : Nat} (hmax : b.seqLen r + numSpeculativeTokens ≤ b.maxModelLen) :
    (∀ k < numSpeculativeTokens, let row := (b.passes r b.prepareInputsPadded draft k).row
      row = (b.passes r b.prepareInputs draft k).row ∧ row.attended = Finset.range (row.position + 1)) ↔
      numSpeculativeTokens ≤ 1 ∨ b.numDraftTokens r = 0 ∨ (b.validIds r).length = b.numDraftTokens r + 1 := by
  have hpad := firstPass_padded hw hr
  have hcomp := firstPass_compact hw hr
  have hown : b.keptPosition r + b.rejected r + 1 = b.seqLen r := by
    have := rejected_lt hw hr
    rw [keptPosition, lastKept, seqLen]
    omega
  have hspec (k : Nat) (hk : k < numSpeculativeTokens) := passes_spec (k := k) draft hpad rfl (by omega)
  rw [← rejected_eq_zero_iff hw hr]
  constructor
  · intro h
    by_contra hcon
    rw [not_or] at hcon
    -- in the second pass the padded sequence still counts the rejected tokens
    obtain ⟨-, -, hpos, hatt⟩ := hspec 1 (by omega)
    have hcard := congrArg Finset.card (h 1 (by omega)).2
    rw [hatt Nat.one_pos, hpos, Finset.card_range, Finset.card_range] at hcard
    omega
  · intro h k hk
    cases k with
    | zero =>
      simp only [passes, hpad, hcomp]
      exact ⟨trivial, rfl⟩
    | succ k =>
      have hzero : b.rejected r = 0 := h.resolve_left (by omega)
      rw [hzero, Nat.sub_zero, ← hpad] at hcomp
      obtain ⟨-, -, hpos, hatt⟩ := hspec (k + 1) hk
      refine ⟨by rw [passes_congr hcomp], ?_⟩
      rw [hatt (Nat.succ_pos k), hpos]
      congr 1
      omega

/-- Two requests with two drafts each: the first rejects both, the second accepts both. -/
def twoDrafted : Batch Unit where
  numReqs := 2
  queryLen _ := 3
  numComputedTokens _ := 4
  numDraftTokens _ := 2
  sampledTokenIds r := if r = 0 then [7, -1, -1] else [3, 4, 5]
  discarded _ := false
  getTokenId _ _ := 0
  inputIds _ := 0
  positions i := 4 + i % 3
  hiddenStates _ := ()
  slotMapping i := 16 * (i / 3) + 4 + i % 3
  blockTable r i := 4 * r + i
  buffer _ := 0
  blockSize := 4
  maxModelLen := 16
  vocabSize := 10

theorem twoDrafted_wf : twoDrafted.Wf := by
  refine ⟨?_, ?_, ?_, ?_⟩ <;> decide

/-- One pass for the first request, three for the second. -/
theorem passes_eq_twoDrafted : twoDrafted.Wf ∧ ∀ r < 2, ∀ k < 2 * r + 1,
    let row := (twoDrafted.passes r twoDrafted.prepareInputsPadded (fun _ _ _ => (0, ())) k).row
    row = (twoDrafted.passes r twoDrafted.prepareInputs (fun _ _ _ => (0, ())) k).row ∧
      row.attended = Finset.range (row.position + 1) := by
  refine ⟨twoDrafted_wf, fun r hr => ?_⟩
  refine (passes_eq_iff twoDrafted_wf hr _ ?_).2 ?_
  · have : ∀ r < 2, twoDrafted.seqLen r + (2 * r + 1) ≤ twoDrafted.maxModelLen := by decide
    exact this r hr
  · have : ∀ r < 2, 2 * r + 1 ≤ 1 ∨ (twoDrafted.validIds r).length = twoDrafted.numDraftTokens r + 1 := by decide
    exact (this r hr).imp_right .inr

/-- The second pass of the first request attends to its two rejected tokens. -/
theorem passes_ne_twoDrafted : twoDrafted.Wf ∧ twoDrafted.seqLen 0 + 2 ≤ twoDrafted.maxModelLen ∧
    (twoDrafted.passes 0 twoDrafted.prepareInputsPadded (fun _ _ _ => (0, ())) 1).row.attended = Finset.range 8 ∧
    (twoDrafted.passes 0 twoDrafted.prepareInputs (fun _ _ _ => (0, ())) 1).row.attended = Finset.range 6 ∧
    (twoDrafted.passes 0 twoDrafted.prepareInputsPadded (fun _ _ _ => (0, ())) 1).row.position = 5 :=
  ⟨twoDrafted_wf, by decide, by decide, by decide, by decide⟩

end Batch

end Xmix.SpecDecode
