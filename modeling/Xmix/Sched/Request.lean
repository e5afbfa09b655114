import Mathlib.Data.List.Sort
import Xmix.Kv.Manager

/-!
# Requests and their queues

A request is what it was made with (`RequestSpec`) and what the scheduler keeps of it. The
scheduler's queues hold request ids, as the source's hold the objects. A waiting queue is the list
of what its iterator yields: under `PRIORITY` the heap in sorted order.
-/

namespace Xmix.Sched

open List

abbrev Token := Int

structure MmFeature (μ : Type) where
  identifier : μ
  offset : Nat
  length : Nat
  deriving DecidableEq

structure LoRARequest where
  loraIntId : Nat
  pos : 0 < loraIntId

structure SamplingParams where
  maxTokens : Nat
  minTokens : Nat
  ignoreEos : Bool
  stopTokenIds : List Token
  structuredOutput : Bool

inductive RequestParams where
  | sampling (p : SamplingParams)
  | pooling

inductive RequestStatus where
  | waiting
  | waitingForFsm
  | waitingForRemoteKvs
  | running
  | preempted
  | finishedStopped
  | finishedLengthCapped
  | finishedAborted
  | finishedIgnored
  deriving DecidableEq

def RequestStatus.isFinished : RequestStatus → Bool
  | .finishedStopped | .finishedLengthCapped | .finishedAborted | .finishedIgnored => true
  | _ => false

structure RequestSpec (ι η μ : Type) where
  requestId : ι
  promptTokenIds : List Token
  params : RequestParams
  eosTokenId : Option Token
  arrivalTime : Int
  mmFeatures : List (MmFeature μ)
  loraRequest : Option LoRARequest
  priority : Int
  blockHasher : List Token → List η
  skipReadingPrefixCache : Bool

structure Request (ι η μ : Type) extends RequestSpec ι η μ where
  status : RequestStatus
  outputTokenIds : List Token
  numOutputPlaceholders : Int
  specTokenIds : List Token
  numComputedTokens : Int
  numCachedTokens : Int

variable {ι η μ : Type}

namespace RequestSpec

variable (q : RequestSpec ι η μ)

def useStructuredOutput : Bool :=
  match q.params with
  | .sampling p => p.structuredOutput
  | .pooling => false

def maxTokens (q : RequestSpec ι η μ) : Nat :=
  match q.params with
  | .sampling p => p.maxTokens
  | .pooling => 1

def numPromptTokens : Nat := q.promptTokenIds.length

def hasEncoderInputs : Bool := !q.mmFeatures.isEmpty

def numEncoderTokens (i : Nat) : Nat := (q.mmFeatures[i]?.map MmFeature.length).getD 0

def new : Request ι η μ where
  toRequestSpec := q
  status := if q.useStructuredOutput then .waitingForFsm else .waiting
  outputTokenIds := []
  numOutputPlaceholders := 0
  specTokenIds := []
  numComputedTokens := 0
  numCachedTokens := -1

end RequestSpec

namespace Request

variable (q : Request ι η μ)

def allTokenIds : List Token := q.promptTokenIds ++ q.outputTokenIds

def numTokens : Nat := q.allTokenIds.length

def numOutputTokens : Nat := q.outputTokenIds.length

def numTokensWithSpec : Nat := q.numTokens + q.specTokenIds.length

def blockHashes : List η := q.blockHasher q.allTokenIds

def isFinished (q : Request ι η μ) : Bool := q.status.isFinished

def kv : Kv.Request ι η :=
  ⟨q.requestId, q.numComputedTokens.toNat, q.numTokens, q.blockHashes, q.skipReadingPrefixCache⟩

end Request

inductive SchedulingPolicy where
  | fcfs
  | priority
  deriving DecidableEq

/-! ### Queues

`rank` gives the priority and the arrival time of a request. Requests with the same rank, which the heap would compare
themselves, are kept newest first.
-/

section Queue
variable (policy : SchedulingPolicy) (rank : ι → Int × Int)

def rankLe (a b : ι) : Prop := (rank a).1 < (rank b).1 ∨ (rank a).1 = (rank b).1 ∧ (rank a).2 ≤ (rank b).2

instance (a b : ι) : Decidable (rankLe rank a b) := inferInstanceAs (Decidable (_ ∨ _))

def addRequest (queue : List ι) (r : ι) : List ι :=
  match policy with
  | .fcfs => queue ++ [r]
  | .priority => queue.orderedInsert (rankLe rank) r

def prependRequest (queue : List ι) (r : ι) : List ι :=
  match policy with
  | .fcfs => r :: queue
  | .priority => queue.orderedInsert (rankLe rank) r

def prependRequests (queue requests : List ι) : List ι :=
  match policy with
  | .fcfs => requests ++ queue
  | .priority => requests.foldl (fun q r => q.orderedInsert (rankLe rank) r) queue

def lowestPriority : List ι → Option ι
  | [] => none
  | r :: rs =>
    match lowestPriority rs with
    | none => some r
    | some v => if rankLe rank v r then some r else some v

variable {policy rank}

theorem addRequest_perm (queue : List ι) (r : ι) : (addRequest policy rank queue r).Perm (r :: queue) := by
  cases policy with
  | fcfs => exact perm_append_singleton r queue
  | priority => exact perm_orderedInsert _ r queue

theorem prependRequest_perm (queue : List ι) (r : ι) : (prependRequest policy rank queue r).Perm (r :: queue) := by
  cases policy with
  | fcfs => exact Perm.refl _
  | priority => exact perm_orderedInsert _ r queue

theorem prependRequests_perm (queue requests : List ι) :
    (prependRequests policy rank queue requests).Perm (requests ++ queue) := by
  cases policy with
  | fcfs => exact Perm.refl _
  | priority =>
    induction requests generalizing queue with
    | nil => exact Perm.refl _
    | cons r rs ih => exact (ih _).trans (((perm_orderedInsert _ r queue).append_left rs).trans perm_middle)

theorem lowestPriority_mem {l : List ι} {v : ι} (h : lowestPriority rank l = some v) : v ∈ l := by
  induction l generalizing v with
  | nil => cases h
  | cons r rs ih =>
    rw [lowestPriority] at h
    split at h
    · exact Option.some.inj h ▸ mem_cons_self
    next w hw =>
      split at h
      · exact Option.some.inj h ▸ mem_cons_self
      · exact Option.some.inj h ▸ mem_cons_of_mem r (ih hw)

end Queue

end Xmix.Sched
