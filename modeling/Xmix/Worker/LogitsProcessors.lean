import Xmix.Lib.SinglePrecision
import Xmix.Worker.InputBatch

/-!
# Logits processors

The builtin processors keep their parameters by row. A step's changes reach them in one update: the
added requests first, then the rows left empty, then the moves, whatever the order in which the
batch has seen them. Output lists are shared with the runner; a step knows how long each of them is
when the processors look.
-/

namespace Xmix.Worker

structure BatchUpdate where
  batchSize : Nat
  removed : List Nat
  added : List AddedRequest
  moved : List MovedRequest

def BatchUpdateBuilder.getAndReset (u : BatchUpdateBuilder) (batchSize : Nat) : Option BatchUpdate :=
  if u.removed = [] ∧ u.moved = [] ∧ u.added = [] then none else some ⟨batchSize, u.removed, u.added, u.moved⟩

/-! ### Min-p -/

structure MinPLogitsProcessor where
  minPCount : Int
  minPCpu : Nat → Rat
  useDoubleTensor : Bool
  minPDevice : Nat → Rat
  -- the rows of `min_p`, a slice of the device tensor
  size : Nat

namespace MinPLogitsProcessor

open SinglePrecision (toSingle)

def init (useDoubleTensor : Bool) : MinPLogitsProcessor := ⟨0, fun _ => 0, useDoubleTensor, fun _ => 0, 0⟩

variable (x : Bool × MinPLogitsProcessor) (p : MinPLogitsProcessor)

def add (a : AddedRequest) : Bool × MinPLogitsProcessor :=
  let minP := a.2.1.minP
  let before := x.2.minPCpu a.1
  if before = toSingle minP then x
  else
    (true, { x.2 with
      minPCpu := Function.update x.2.minPCpu a.1 (toSingle minP)
      minPCount :=
        if minP ≠ 0 ∧ before = 0 then x.2.minPCount + 1
        else if minP = 0 ∧ before ≠ 0 then x.2.minPCount - 1
        else x.2.minPCount })

def remove (i : Nat) : MinPLogitsProcessor :=
  if p.minPCpu i ≠ 0 then { p with minPCpu := Function.update p.minPCpu i 0, minPCount := p.minPCount - 1 } else p

def move (m : MovedRequest) : Bool × MinPLogitsProcessor :=
  let minPA := x.2.minPCpu m.1
  let minPB := x.2.minPCpu m.2.1
  let x :=
    if minPA ≠ minPB then
      (true, { x.2 with
        minPCpu :=
          if m.2.2 = .swap then Function.update (Function.update x.2.minPCpu m.2.1 minPA) m.1 minPB
          else Function.update x.2.minPCpu m.2.1 minPA })
    else x
  if m.2.2 = .unidirectional then
    (x.1, { x.2 with
      minPCpu := if minPA ≠ 0 then Function.update x.2.minPCpu m.1 0 else x.2.minPCpu
      minPCount := if minPB ≠ 0 then x.2.minPCount - 1 else x.2.minPCount })
  else x

def relocate (u : BatchUpdate) (x : Bool × MinPLogitsProcessor) : Bool × MinPLogitsProcessor :=
  if x.2.minPCount = 0 then x
  else u.moved.foldl move (if u.removed = [] then x else (true, u.removed.foldl remove x.2))

def updateTensors (size : Nat) (x : Bool × MinPLogitsProcessor) : MinPLogitsProcessor :=
  if x.2.minPCount ≠ 0 ∧ (x.1 = true ∨ x.2.size ≠ size) then
    { x.2 with
      size := size
      minPDevice := if x.2.useDoubleTensor then copyTo x.2.minPDevice size x.2.minPCpu else x.2.minPDevice }
  else x.2

def updateState : Option BatchUpdate → MinPLogitsProcessor
  | none => p
  | some u => updateTensors u.batchSize (relocate u (u.added.foldl add (false, p)))

def sliceAt (i : Nat) : Rat := if p.useDoubleTensor then p.minPDevice i else p.minPCpu i

end MinPLogitsProcessor

/-! ### Sparse processors -/

section Entries

variable {τ : Type}

def addEntry (newState : SamplingParams → Option (List Nat) → Obj → Option τ) (x : Dict Nat τ × Bool)
    (a : AddedRequest) : Dict Nat τ × Bool :=
  match newState a.2.1 a.2.2.1 a.2.2.2 with
  | some state => (x.1.set a.1 state, true)
  | none => if (x.1.get? a.1).isSome then (x.1.pop a.1, true) else x

def removeEntry (x : Dict Nat τ × Bool) (i : Nat) : Dict Nat τ × Bool := (x.1.pop i, x.2 || (x.1.get? i).isSome)

def moveEntry (x : Dict Nat τ × Bool) (m : MovedRequest) : Dict Nat τ × Bool :=
  let aEntry := x.1.get? m.1
  let d := x.1.pop m.1
  let bEntry := d.get? m.2.1
  let d := d.pop m.2.1
  let d := match aEntry with
    | some entry => d.set m.2.1 entry
    | none => d
  let d := match bEntry with
    | some entry => if m.2.2 = .swap then d.set m.1 entry else d
    | none => d
  (d, x.2 || aEntry.isSome || bEntry.isSome)

def processDictUpdates (newState : SamplingParams → Option (List Nat) → Obj → Option τ) (entries : Dict Nat τ) :
    Option BatchUpdate → Dict Nat τ × Bool
  | none => (entries, false)
  | some u =>
    let x := u.added.foldl (addEntry newState) (entries, false)
    if x.1.len = 0 then x else u.moved.foldl moveEntry (u.removed.foldl removeEntry x)

end Entries

structure LogitBiasLogitsProcessor where
  biases : Dict Nat (List (Nat × Rat))
  biasTensor : List Rat
  logitsSlice : List Nat × List Nat

namespace LogitBiasLogitsProcessor

def init : LogitBiasLogitsProcessor := ⟨.empty, [], ([], [])⟩

def withTensors (biases : Dict Nat (List (Nat × Rat))) : LogitBiasLogitsProcessor where
  biases := biases
  biasTensor := biases.entries.flatMap fun e => e.2.map fun b => SinglePrecision.toSingle b.2
  logitsSlice :=
    (biases.entries.flatMap fun e => e.2.map fun _ => e.1, biases.entries.flatMap fun e => e.2.map Prod.fst)

def updateState (p : LogitBiasLogitsProcessor) (u : Option BatchUpdate) : LogitBiasLogitsProcessor :=
  let x := processDictUpdates (fun params _ _ => truthy params.logitBias) p.biases u
  if x.2 then withTensors x.1 else { p with biases := x.1 }

end LogitBiasLogitsProcessor

structure MinTokensLogitsProcessor where
  -- the minimum, the output list and the stop tokens
  minToks : Dict Nat (Nat × Obj × List Nat)
  logitsSlice : List Nat × List Nat

namespace MinTokensLogitsProcessor

def init : MinTokensLogitsProcessor := ⟨.empty, ([], [])⟩

def addRequest (len : Obj → Nat) (params : SamplingParams) (_ : Option (List Nat)) (output : Obj) :
    Option (Nat × Obj × List Nat) :=
  if params.minTokens = 0 ∨ params.minTokens ≤ len output then none
  else some (params.minTokens, output, params.allStopTokenIds)

def withTensors (minToks : Dict Nat (Nat × Obj × List Nat)) : MinTokensLogitsProcessor where
  minToks := minToks
  logitsSlice := (minToks.entries.flatMap fun e => e.2.2.2.map fun _ => e.1, minToks.entries.flatMap fun e => e.2.2.2)

def updateState (len : Obj → Nat) (p : MinTokensLogitsProcessor) (u : Option BatchUpdate) : MinTokensLogitsProcessor :=
  let x := processDictUpdates (addRequest len) p.minToks u
  -- the requests that have attained their minimum
  let toRemove := (x.1.entries.filter fun e => e.2.1 ≤ len e.2.2.1).map Prod.fst
  let minToks := toRemove.foldl Dict.pop x.1
  if x.2 || !toRemove.isEmpty then withTensors minToks else { p with minToks := minToks }

end MinTokensLogitsProcessor

/-! ### The batch with its processors -/

structure LogitsBatch (ι : Type) where
  batch : InputBatch ι
  minP : MinPLogitsProcessor
  logitBias : LogitBiasLogitsProcessor
  minTokens : MinTokensLogitsProcessor

structure EngineStep (ι : Type) extends Step ι where
  outputLen : Obj → Nat

namespace LogitsBatch

variable {ι : Type} [DecidableEq ι]

def init (cfg : Config) (useDoubleTensor : Bool) : LogitsBatch ι :=
  ⟨InputBatch.init cfg, .init useDoubleTensor, .init, .init⟩

def refreshMetadata (len : Obj → Nat) (s : LogitsBatch ι) : Option (LogitsBatch ι) := do
  let u := s.batch.builder.getAndReset s.batch.numReqs
  let batch ← s.batch.refreshMetadata
  some ⟨batch, s.minP.updateState u, s.logitBias.updateState u, s.minTokens.updateState len u⟩

def step (cfg : Config) (s : LogitsBatch ι) (x : EngineStep ι) : Option (LogitsBatch ι) := do
  let batch ← s.batch.run cfg x.prepare
  let s ← { s with batch := batch }.refreshMetadata x.outputLen
  let batch ← s.batch.run cfg (x.results.map fun w => .write w.1 w.2)
  some { s with batch := batch }

def run (cfg : Config) (s : LogitsBatch ι) (steps : List (EngineStep ι)) : Option (LogitsBatch ι) :=
  steps.foldlM (step cfg) s

end LogitsBatch

end Xmix.Worker
