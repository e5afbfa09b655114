import Mathlib.Data.List.Sort
import Mathlib.Logic.Function.Basic
import Xmix.Lib.Dict
import Xmix.Lib.SinglePrecision

/-!
# The persistent batch

`InputBatch` of a worker that samples (not a pooling one): the rows of its arrays, the lists and
dictionaries beside them, the `BatchUpdateBuilder` and the block tables. A row of the model has the
cells that the arrays and the dictionaries keyed by a row index hold for one index; the columns of
floats are in single precision. `none` is a step that raises.
-/

namespace Xmix.Worker

open Function SinglePrecision

abbrev Obj := Nat

structure TableConfig where
  blocksPerKvBlock : Nat
  maxNumBlocksPerReq : Nat

structure Config where
  maxNumReqs : Nat
  maxModelLen : Nat
  vocabSize : Nat
  blockTables : List TableConfig

structure SamplingParams where
  temperature : Rat
  topP : Rat
  topK : Int
  frequencyPenalty : Rat
  presencePenalty : Rat
  repetitionPenalty : Rat
  allowedTokenIds : Option (List Nat)
  badWordsTokenIds : Option (List (List Nat))
  minP : Rat
  logitBias : Option (List (Nat × Rat))
  minTokens : Nat
  allStopTokenIds : List Nat

def SamplingParams.isGreedy (p : SamplingParams) : Bool := p.temperature < 1 / 100000

structure CachedRequestState (ι : Type) where
  reqId : ι
  promptTokenIds : Option (List Nat)
  -- the tensor and its number of rows
  promptEmbeds : Option (Obj × Nat)
  samplingParams : SamplingParams
  generator : Option Obj
  blockIds : List (List Nat)
  numComputedTokens : Nat
  -- the list object, shared with the batch, and what it holds when the request is added
  outputTokenIds : Obj × List Nat
  -- the adapter's id and the request for it
  loraRequest : Option (Nat × Obj)

variable {α : Type} {ι : Type}

def CachedRequestState.numPromptTokens (q : CachedRequestState ι) : Option Nat :=
  match q.promptTokenIds, q.promptEmbeds with
  | none, none => none
  | none, some (_, n) => some n
  | some ids, none => some ids.length
  | some ids, some (_, n) => if n = ids.length then some ids.length else none

structure SamplingRow where
  temperature : Rat
  topP : Rat
  topK : Int
  frequencyPenalty : Rat
  presencePenalty : Rat
  repetitionPenalty : Rat
  deriving DecidableEq

structure Row where
  tokenIds : Nat → Nat
  isTokenIds : Nat → Bool
  reqPromptEmbeds : Option Obj
  numTokens : Nat
  numTokensNoSpec : Nat
  numPromptTokens : Nat
  numComputedTokens : Nat
  -- by group and column
  blockTable : Nat → Nat → Nat
  numBlocksPerRow : Nat → Nat
  sampling : SamplingRow
  numAcceptedTokens : Nat
  requestLoraMapping : Nat
  generator : Option Obj
  badWordsTokenIds : Option (List (List Nat))
  -- the row of the mask on the host, true where a token is excluded
  allowedTokenIdsMask : Nat → Bool

def truthy : Option (List α) → Option (List α)
  | some (x :: l) => some (x :: l)
  | _ => none

def splice (cells : Nat → α) (start : Nat) (xs : List α) (p : Nat) : α :=
  if start ≤ p then (xs[p - start]?).getD (cells p) else cells p

def copyTo (cells : Nat → α) (n : Nat) (src : Nat → α) (p : Nat) : α :=
  if p < n then src p else cells p

def setItem (l : List α) (i : Nat) (x : α) : Option (List α) :=
  if i < l.length then some (l.set i x) else none

/-! ### Block tables -/

def mapToKernelBlocks (k : Nat) (ids : List Nat) : List Nat :=
  if k = 1 then ids else ids.flatMap fun b => (List.range k).map fun j => b * k + j

def Row.appendRow (t : TableConfig) (g : Nat) (ids : List Nat) (row : Row) : Option Row :=
  if ids = [] then some row
  else
    let ids := mapToKernelBlocks t.blocksPerKvBlock ids
    let start := row.numBlocksPerRow g
    if start + ids.length ≤ t.maxNumBlocksPerReq then
      some { row with
        numBlocksPerRow := update row.numBlocksPerRow g (start + ids.length)
        blockTable := update row.blockTable g (splice (row.blockTable g) start ids) }
    else none

def Row.addRow (t : TableConfig) (g : Nat) (ids : List Nat) (row : Row) : Option Row :=
  { row with numBlocksPerRow := update row.numBlocksPerRow g 0 }.appendRow t g ids

def eachTable (f : TableConfig → Nat → List Nat → Row → Option Row) : List TableConfig → Nat →
    List (List Nat) → Row → Option Row
  | [], _, _, row => some row
  | _ :: _, _, [], _ => none
  | t :: ts, g, ids :: rest, row => do
    let row ← f t g ids row
    eachTable f ts (g + 1) rest row

def Row.moveBlocks (src tgt : Row) : Row :=
  { tgt with
    blockTable := fun g => copyTo (tgt.blockTable g) (src.numBlocksPerRow g) (src.blockTable g)
    numBlocksPerRow := src.numBlocksPerRow }

/-! ### BatchUpdateBuilder -/

inductive MoveDirectionality where
  | unidirectional
  | swap
  deriving DecidableEq

abbrev AddedRequest := Nat × SamplingParams × Option (List Nat) × Obj

abbrev MovedRequest := Nat × Nat × MoveDirectionality

structure BatchUpdateBuilder where
  removed : List Nat
  isRemovedSorted : Bool
  added : List AddedRequest
  moved : List MovedRequest

namespace BatchUpdateBuilder

def ensureRemovedSorted (u : BatchUpdateBuilder) : BatchUpdateBuilder :=
  if u.isRemovedSorted then u
  else { u with removed := u.removed.insertionSort (· ≥ ·), isRemovedSorted := true }

def removedAppend (u : BatchUpdateBuilder) (i : Nat) : Option BatchUpdateBuilder :=
  if u.isRemovedSorted then none else some { u with removed := u.removed ++ [i] }

def popRemoved (u : BatchUpdateBuilder) : Option Nat × BatchUpdateBuilder :=
  if u.removed = [] then (none, u)
  else
    let u := u.ensureRemovedSorted
    (u.removed.getLast?, { u with removed := u.removed.dropLast })

end BatchUpdateBuilder

/-! ### InputBatch -/

structure InputBatch (ι : Type) where
  reqIds : List (Option ι)
  reqIdToIndex : Dict ι Nat
  rows : Nat → Row
  reqOutputTokenIds : List (Option Obj)
  specTokenIds : List (List Nat)
  builder : BatchUpdateBuilder
  frequencyPenaltiesReqs : List ι
  presencePenaltiesReqs : List ι
  repetitionPenaltiesReqs : List ι
  hasAllowedTokenIds : List ι
  -- whether the two mask tensors have been allocated
  maskAllocated : Bool
  deviceMask : Nat → Nat → Bool
  -- `sampling_metadata.allowed_token_ids_mask`: the number of rows of the device mask it is a view of
  samplingMask : Option Nat
  loraIdToRequestIds : Dict Nat (List ι)
  loraIdToLoraRequest : Dict Nat Obj

def Row.init : Row where
  tokenIds := fun _ => 0
  isTokenIds := fun _ => false
  reqPromptEmbeds := none
  numTokens := 0
  numTokensNoSpec := 0
  numPromptTokens := 0
  numComputedTokens := 0
  blockTable := fun _ _ => 0
  numBlocksPerRow := fun _ => 0
  -- the source leaves these cells unset
  sampling := ⟨0, 0, 0, 0, 0, 0⟩
  numAcceptedTokens := 1
  requestLoraMapping := 0
  generator := none
  badWordsTokenIds := none
  allowedTokenIdsMask := fun _ => false

namespace InputBatch

variable {ι : Type} [DecidableEq ι]

def init (cfg : Config) : InputBatch ι where
  reqIds := []
  reqIdToIndex := .empty
  rows := fun _ => Row.init
  reqOutputTokenIds := []
  specTokenIds := List.replicate cfg.maxNumReqs []
  builder := ⟨[], false, [], []⟩
  frequencyPenaltiesReqs := []
  presencePenaltiesReqs := []
  repetitionPenaltiesReqs := []
  hasAllowedTokenIds := []
  maskAllocated := false
  deviceMask := fun _ _ => false
  samplingMask := none
  loraIdToRequestIds := .empty
  loraIdToLoraRequest := .empty

variable (cfg : Config) (q : CachedRequestState ι) (b : InputBatch ι) (alloc : Bool)

def numReqs : Nat := b.reqIdToIndex.len

def samplingRow (p : SamplingParams) : SamplingRow where
  temperature := if p.isGreedy then 0 else toSingle p.temperature
  topP := toSingle p.topP
  topK := if 0 < p.topK ∧ p.topK < cfg.vocabSize then p.topK else cfg.vocabSize
  frequencyPenalty := toSingle p.frequencyPenalty
  presencePenalty := toSingle p.presencePenalty
  repetitionPenalty := toSingle p.repetitionPenalty

def fillRow (row : Row) : Option Row := do
  let n ← q.numPromptTokens
  let output := q.outputTokenIds.2
  if cfg.maxModelLen < n + output.length then none
  else
    let row := { row with
      numPromptTokens := n
      tokenIds := splice (match q.promptTokenIds with
        | some ids => splice row.tokenIds 0 ids
        | none => row.tokenIds) n output
      isTokenIds :=
        splice (splice row.isTokenIds 0 (List.replicate n q.promptTokenIds.isSome)) n (output.map fun _ => true)
      -- an entry of an earlier request at this index stays when this one has none
      reqPromptEmbeds := match q.promptEmbeds with
        | some (x, _) => some x
        | none => row.reqPromptEmbeds
      numTokens := n + output.length
      numTokensNoSpec := n + output.length
      numComputedTokens := q.numComputedTokens }
    let row ← eachTable Row.addRow cfg.blockTables 0 q.blockIds row
    some { row with
      sampling := samplingRow cfg q.samplingParams
      generator := match q.generator with
        | some x => some x
        | none => row.generator
      badWordsTokenIds := match truthy q.samplingParams.badWordsTokenIds with
        | some ws => some ws
        | none => row.badWordsTokenIds
      numAcceptedTokens := 1
      requestLoraMapping := match q.loraRequest with
        | some (lora, _) => lora
        | none => 0 }

def maskOf (ids : List Nat) (v : Nat) : Bool := !ids.contains v

def writeMask (rows : Nat → Row) (i : Nat) (ids : List Nat) : Nat → Row :=
  let rows := if alloc then rows else fun j => { rows j with allowedTokenIdsMask := fun _ => false }
  update rows i { rows i with allowedTokenIdsMask := maskOf ids }

def registerAddRequest : Option (Nat × BatchUpdateBuilder) :=
  let (slot, u) := b.builder.popRemoved
  let i := slot.getD b.numReqs
  if i < cfg.maxNumReqs then
    some (i, { u with added := u.added ++ [(i, q.samplingParams, q.promptTokenIds, q.outputTokenIds.1)] })
  else none

def addToLists (i : Nat) (q : CachedRequestState ι) (b : InputBatch ι) : Option (InputBatch ι) :=
  if i = b.reqIds.length then
    some { b with
      reqIds := b.reqIds ++ [some q.reqId]
      reqOutputTokenIds := b.reqOutputTokenIds ++ [some q.outputTokenIds.1]
      specTokenIds := b.specTokenIds ++ [[]] }
  else do
    let reqIds ← setItem b.reqIds i (some q.reqId)
    let outputs ← setItem b.reqOutputTokenIds i (some q.outputTokenIds.1)
    let specs ← setItem b.specTokenIds i []
    some { b with reqIds := reqIds, reqOutputTokenIds := outputs, specTokenIds := specs }

def addToSet (s : List ι) (r : ι) (p : Bool) : List ι := if p then s.insert r else s

def addSampling (i : Nat) (q : CachedRequestState ι) (b : InputBatch ι) : InputBatch ι :=
  let p := q.samplingParams
  let b := { b with
    frequencyPenaltiesReqs := addToSet b.frequencyPenaltiesReqs q.reqId (p.frequencyPenalty ≠ 0)
    presencePenaltiesReqs := addToSet b.presencePenaltiesReqs q.reqId (p.presencePenalty ≠ 0)
    repetitionPenaltiesReqs := addToSet b.repetitionPenaltiesReqs q.reqId (p.repetitionPenalty ≠ 1) }
  match truthy p.allowedTokenIds with
  | none => b
  | some ids =>
    { b with
      hasAllowedTokenIds := b.hasAllowedTokenIds.insert q.reqId
      maskAllocated := true
      deviceMask := if b.maskAllocated then b.deviceMask else fun _ _ => false
      rows := writeMask b.maskAllocated b.rows i ids }

def addLora : InputBatch ι :=
  match q.loraRequest with
  | none => b
  | some (lora, x) =>
    { b with
      loraIdToRequestIds := b.loraIdToRequestIds.set lora (((b.loraIdToRequestIds.get? lora).getD []).insert q.reqId)
      loraIdToLoraRequest := b.loraIdToLoraRequest.set lora x }

def addRequest : Option (InputBatch ι) := do
  let (i, u) ← b.registerAddRequest cfg q
  let b ← { b with builder := u }.addToLists i q
  let row ← fillRow cfg q (b.rows i)
  let b := { b with
    reqIdToIndex := b.reqIdToIndex.set q.reqId i
    rows := update b.rows i row }
  some ((b.addSampling i q).addLora q)

def removeLora (r : ι) (lora : Nat) (b : InputBatch ι) : Option (InputBatch ι) :=
  if lora = 0 then some b
  else do
    let ids ← b.loraIdToRequestIds.get? lora
    let ids := ids.filter (· ≠ r)
    if ids = [] then do
      let _ ← b.loraIdToLoraRequest.get? lora
      some { b with
        loraIdToRequestIds := b.loraIdToRequestIds.pop lora
        loraIdToLoraRequest := b.loraIdToLoraRequest.pop lora }
    else some { b with loraIdToRequestIds := b.loraIdToRequestIds.set lora ids }

def clearRow (row : Row) : Row :=
  { row with
    requestLoraMapping := 0
    generator := none
    allowedTokenIdsMask := if alloc then fun _ => false else row.allowedTokenIdsMask
    badWordsTokenIds := none }

def removeRequest (r : ι) (b : InputBatch ι) : Option (InputBatch ι) :=
  match b.reqIdToIndex.get? r with
  | none => some b
  | some i => do
    let u ← b.builder.removedAppend i
    let reqIds ← setItem b.reqIds i none
    let outputs ← setItem b.reqOutputTokenIds i none
    let specs ← setItem b.specTokenIds i []
    let b ← b.removeLora r (b.rows i).requestLoraMapping
    some { b with
      reqIdToIndex := b.reqIdToIndex.pop r
      builder := u
      reqIds := reqIds
      reqOutputTokenIds := outputs
      specTokenIds := specs
      rows := update b.rows i (clearRow b.maskAllocated (b.rows i))
      frequencyPenaltiesReqs := b.frequencyPenaltiesReqs.filter (· ≠ r)
      presencePenaltiesReqs := b.presencePenaltiesReqs.filter (· ≠ r)
      repetitionPenaltiesReqs := b.repetitionPenaltiesReqs.filter (· ≠ r)
      hasAllowedTokenIds := b.hasAllowedTokenIds.filter (· ≠ r) }

def swapCells {α : Type} (a : Nat → α) (i j : Nat) : Nat → α :=
  update (update a i (a j)) j (a i)

def swapViews {α : Type} (a : Nat → α) (i j : Nat) : Nat → α :=
  let a := update a i (a j)
  update a j (a i)

def swapItems {α : Type} (l : List α) (i j : Nat) : Option (List α) := do
  let x ← l[i]?
  let y ← l[j]?
  some ((l.set i y).set j x)

def swapRows (rows : Nat → Row) (i j : Nat) (k : Nat) : Row :=
  let masks := fun k => (rows k).allowedTokenIdsMask
  { swapCells rows i j k with allowedTokenIdsMask := if alloc then swapViews masks i j k else masks k }

def swapStates (i j : Nat) (b : InputBatch ι) : Option (InputBatch ι) := do
  let oldI ← b.reqIds[i]?
  let oldJ ← b.reqIds[j]?
  let reqIds ← swapItems b.reqIds i j
  let outputs ← swapItems b.reqOutputTokenIds i j
  let specs ← swapItems b.specTokenIds i j
  let rI ← oldI
  let rJ ← oldJ
  let atJ ← b.reqIdToIndex.get? rJ
  let atI ← b.reqIdToIndex.get? rI
  some { b with
    reqIds := reqIds
    reqOutputTokenIds := outputs
    specTokenIds := specs
    reqIdToIndex := (b.reqIdToIndex.set rI atJ).set rJ atI
    rows := swapRows b.maskAllocated b.rows i j
    builder := { b.builder with moved := b.builder.moved ++ [(i, j, .swap)] } }

def movedRow (src tgt : Row) : Row :=
  { Row.moveBlocks src tgt with
    tokenIds := copyTo tgt.tokenIds src.numTokens src.tokenIds
    isTokenIds := copyTo tgt.isTokenIds src.numTokens src.isTokenIds
    reqPromptEmbeds := match src.reqPromptEmbeds with
      | some x => some x
      | none => tgt.reqPromptEmbeds
    numTokens := src.numTokens
    numTokensNoSpec := src.numTokensNoSpec
    numPromptTokens := src.numPromptTokens
    numComputedTokens := src.numComputedTokens
    requestLoraMapping := src.requestLoraMapping
    sampling := src.sampling
    numAcceptedTokens := src.numAcceptedTokens
    generator := match src.generator with
      | some x => some x
      | none => tgt.generator
    allowedTokenIdsMask := if alloc then src.allowedTokenIdsMask else tgt.allowedTokenIdsMask
    badWordsTokenIds := match src.badWordsTokenIds with
      | some ws => some ws
      | none => tgt.badWordsTokenIds }

def vacatedRow (src : Row) : Row :=
  { src with reqPromptEmbeds := none, generator := none, badWordsTokenIds := none }

def moveRequest (last empty : Nat) (b : InputBatch ι) : Option (InputBatch ι) := do
  let r ← (← b.reqIds[last]?)
  let output ← b.reqOutputTokenIds[last]?
  let reqIds ← setItem b.reqIds empty (some r)
  let reqIds ← setItem reqIds last none
  let outputs ← setItem b.reqOutputTokenIds empty output
  let outputs ← setItem outputs last none
  let specs ← swapItems b.specTokenIds last empty
  let specs ← setItem specs last []
  let src := b.rows last
  some { b with
    reqIds := reqIds
    reqOutputTokenIds := outputs
    specTokenIds := specs
    reqIdToIndex := b.reqIdToIndex.set r empty
    rows := update (update b.rows empty (movedRow b.maskAllocated src (b.rows empty))) last (vacatedRow src)
    builder := { b.builder with moved := b.builder.moved ++ [(last, empty, .unidirectional)] } }

def skipEmpty (holes : List Nat) : Nat → Nat
  | 0 => 0
  | n + 1 => if n ∈ holes then skipEmpty holes n else n + 1

def condenseLoop : List Nat → Nat → InputBatch ι → Option (InputBatch ι × List Nat)
  | [], _, b => some (b, [])
  | empty :: holes, n, b =>
    let n := skipEmpty (empty :: holes) n
    if n ≤ empty + 1 then some (b, empty :: holes)
    else do
      let b ← b.moveRequest (n - 1) empty
      condenseLoop holes (n - 1) b

def condense : Option (InputBatch ι) :=
  let b := { b with builder := b.builder.ensureRemovedSorted }
  if b.builder.removed = [] then some b
  else if b.numReqs = 0 then some { b with reqIds := [], reqOutputTokenIds := [], specTokenIds := [] }
  else do
    let numReqs := b.numReqs
    let (b, holes) ← condenseLoop b.builder.removed.reverse (numReqs + b.builder.removed.length) b
    some { b with
      builder := { b.builder with removed := holes.reverse }
      reqIds := b.reqIds.take numReqs
      reqOutputTokenIds := b.reqOutputTokenIds.take numReqs
      specTokenIds := b.specTokenIds.take numReqs }

def noPenalties : Bool :=
  b.presencePenaltiesReqs.isEmpty && b.frequencyPenaltiesReqs.isEmpty && b.repetitionPenaltiesReqs.isEmpty

def makeSamplingMetadata : Option (InputBatch ι) :=
  if !b.noPenalties && b.numReqs = 0 then none
  else if b.hasAllowedTokenIds = [] then some { b with samplingMask := none }
  else if b.maskAllocated then
    some { b with
      deviceMask := copyTo b.deviceMask b.numReqs fun i => (b.rows i).allowedTokenIdsMask
      samplingMask := some b.numReqs }
  else none

def refreshMetadata : Option (InputBatch ι) :=
  let u := b.builder
  if u.removed = [] ∧ u.moved = [] ∧ u.added = [] then some { b with builder := { u with isRemovedSorted := false } }
  else { b with builder := ⟨[], false, [], []⟩ }.makeSamplingMetadata

end InputBatch

/-! ### Runs -/

inductive RowWrite where
  | computed (n : Nat)
  | blocks (ids : List (List Nat))
  -- `token_ids_cpu[i, start : start + len(ids)] = ids` and the two token counts; `mark` if `is_token_ids` is set too
  | tokens (start : Nat) (ids : List Nat) (mark : Bool) (numTokens numTokensNoSpec : Nat)

def Row.write (cfg : Config) (row : Row) : RowWrite → Option Row
  | .computed n => some { row with numComputedTokens := n }
  | .blocks ids => eachTable Row.appendRow cfg.blockTables 0 ids row
  | .tokens start ids mark n m =>
    if start + ids.length ≤ cfg.maxModelLen then
      some { row with
        tokenIds := splice row.tokenIds start ids
        isTokenIds := if mark then splice row.isTokenIds start (ids.map fun _ => true) else row.isTokenIds
        numTokens := n
        numTokensNoSpec := m }
    else none

inductive Op (ι : Type) where
  | remove (r : ι)
  | write (r : ι) (w : RowWrite)
  | add (q : CachedRequestState ι)
  | condense
  | swap (i j : Nat)
  | refresh

structure Step (ι : Type) where
  removes : List ι
  updates : List (ι × RowWrite)
  adds : List (CachedRequestState ι)
  swaps : List (Nat × Nat)
  results : List (ι × RowWrite)

def Step.ops (s : Step ι) : List (Op ι) :=
  s.removes.map .remove ++ s.updates.map (fun w => .write w.1 w.2) ++ s.adds.map .add ++ [.condense] ++
    s.swaps.map (fun w => .swap w.1 w.2) ++ [.refresh] ++ s.results.map (fun w => .write w.1 w.2)

def Step.prepare (s : Step ι) : List (Op ι) :=
  s.removes.map .remove ++ s.updates.map (fun w => .write w.1 w.2) ++ s.adds.map .add ++ [.condense] ++
    s.swaps.map (fun w => .swap w.1 w.2)

abbrev Step.writes (s : Step ι) : List (Op ι) := s.results.map fun w => .write w.1 w.2

theorem Step.ops_eq (s : Step ι) : s.ops = s.prepare ++ ([.refresh] ++ s.writes) := by
  simp [Step.ops, Step.prepare]

namespace InputBatch

variable {ι : Type} [DecidableEq ι]

def exec (cfg : Config) (b : InputBatch ι) : Op ι → Option (InputBatch ι)
  | .remove r => b.removeRequest r
  | .write r w => do
    let i ← b.reqIdToIndex.get? r
    let row ← (b.rows i).write cfg w
    some { b with rows := update b.rows i row }
  | .add q => b.addRequest cfg q
  | .condense => b.condense
  | .swap i j => b.swapStates i j
  | .refresh => b.refreshMetadata

def run (cfg : Config) (b : InputBatch ι) (ops : List (Op ι)) : Option (InputBatch ι) :=
  ops.foldlM (fun b op => b.exec cfg op) b

end InputBatch

end Xmix.Worker
