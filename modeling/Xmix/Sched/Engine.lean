import Xmix.Lib.Runs
import Xmix.Sched.Schedule

/-!
# The other calls of the scheduler, and its runs

`update_from_output` with the stop check, `add_request`, `update_draft_token_ids` and
`finish_requests`. An engine is the scheduler with the outputs of `schedule` that have not come back
yet; a run is any sequence of calls in which the outputs come back in order. Outputs to the clients,
statistics and grammar states are left out, as no call reads them.
-/

namespace Xmix.Sched

open Kv (KVCacheManager)

variable {ι η μ : Type} [DecidableEq ι] [DecidableEq η] [DecidableEq μ]

structure ModelRunnerOutput (ι : Type) where
  sampledTokenIds : ι → List Token
  poolerOutput : Option (ι → Bool)
  finishedRecving : List ι
  finishedSending : List ι
  invalidBlockIds : List Nat

def stopStatus (maxModelLen : Nat) (q : Request ι η μ) (pooled : Bool) : Except Raised (Option RequestStatus) :=
  match q.params with
  | .pooling => .ok (if pooled then some .finishedStopped else none)
  | .sampling p =>
    if q.numOutputTokens < p.minTokens then .ok none
    else
      match q.outputTokenIds.getLast? with
      | none => .error .emptyOutput
      | some t => .ok <|
        if p.ignoreEos = false ∧ q.eosTokenId = some t then some .finishedStopped
        else if t ∈ p.stopTokenIds then some .finishedStopped
        else if maxModelLen ≤ q.numTokens ∨ q.maxTokens ≤ q.numOutputTokens then some .finishedLengthCapped
        else none

def checkStop (maxModelLen : Nat) (q : Request ι η μ) (pooled : Bool) : Except Raised (Request ι η μ × Bool) := do
  match ← stopStatus maxModelLen q pooled with
  | none => .ok (q, false)
  | some st => .ok ({ q with status := st }, true)

def appendTokens (maxModelLen : Nat) : Request ι η μ → List Token → Except Raised (Request ι η μ × List Token × Bool)
  | q, [] => .ok (q, [], false)
  | q, t :: ts => do
    let (q, stopped) ← checkStop maxModelLen { q with outputTokenIds := q.outputTokenIds ++ [t] } false
    if stopped then .ok (q, [t], true)
    else do
      let (q, new, stopped) ← appendTokens maxModelLen q ts
      .ok (q, t :: new, stopped)

def removeAll (l items : List ι) : List ι :=
  match items with
  | [] => l
  | [x] => l.erase x
  | items => l.filter (· ∉ items)

namespace Scheduler

variable (s : Scheduler ι η μ) (q : Request ι η μ)

def freeBlocks (r : ι) : Except Raised (Scheduler ι η μ) := do
  let kv ← orRaise .kvCacheManager (s.kvCacheManager.free r)
  .ok { s with kvCacheManager := kv, requests := s.requests.pop r }

def freeRequest (delay : ι → Bool) : Except Raised (Scheduler ι η μ) :=
  let s := { s.setRequest q with
    encoderCacheManager := s.encoderCacheManager.free q.toRequestSpec
    finishedReqIds := s.finishedReqIds.insert q.requestId }
  if s.config.hasConnector && delay q.requestId then .ok s else s.freeBlocks q.requestId

/-! ### Blocks that failed to load -/

structure InvalidScan where
  affected : Bool
  marked : Bool
  markedIds : List Nat
  numComputed : Int

def scanBlocks (blockSize : Nat) (invalid : List Nat) : Nat → List Nat → InvalidScan → InvalidScan
  | _, [], x => x
  | idx, b :: bs, x =>
    scanBlocks blockSize invalid (idx + 1) bs <|
      if b ∉ invalid then x
      else if b ∈ x.markedIds then { x with affected := true }
      else if x.marked then { x with affected := true, markedIds := b :: x.markedIds }
      else ⟨true, true, b :: x.markedIds, idx * blockSize⟩

def numLoadedTokens (blocks : List Nat) : Int :=
  if q.status = .waitingForRemoteKvs then
    if q.requestId ∈ s.failedRecvingKvReqIds then q.numComputedTokens else blocks.length * s.config.blockSize
  else q.numCachedTokens

def invalidateBlocks (invalid : List Nat) (x : Scheduler ι η μ × List ι × List Nat) (r : ι) :
    Except Raised (Scheduler ι η μ × List ι × List Nat) := do
  let (s, affected, markedIds) := x
  let q ← s.request r
  match getBlocks s.kvCacheManager r with
  | [blocks] =>
    let n := (numLoadedTokens s q blocks + s.config.blockSize - 1) / s.config.blockSize
    let y := scanBlocks s.config.blockSize invalid 0 (blocks.take n.toNat)
      ⟨false, false, markedIds, q.numComputedTokens⟩
    let q := { q with numComputedTokens := if y.affected ∧ y.marked = false then q.numCachedTokens else y.numComputed }
    .ok (s.setRequest q, if y.affected then affected ++ [r] else affected, y.markedIds)
  | _ => .error .kvCacheManager

def handleInvalidBlocks (invalid : List Nat) : Except Raised (Scheduler ι η μ × List ι) := do
  let loading := s.waiting.filter fun r => (s.requests.get? r).any fun q => q.status = .waitingForRemoteKvs
  let (s, failed, _) ← loading.foldlM (invalidateBlocks invalid) (s, [], [])
  let s := { s with failedRecvingKvReqIds := s.failedRecvingKvReqIds ∪ failed }
  let (s, skipped, _) ← s.running.foldlM (invalidateBlocks invalid) (s, [], [])
  .ok (s, skipped)

/-! ### update_from_output -/

def rejectDrafts (numDrafts numGenerated : Nat) : Request ι η μ :=
  if numDrafts = 0 then q
  else
    let numRejected : Int := numDrafts - (numGenerated - 1)
    { q with
      numComputedTokens := if 0 < q.numComputedTokens then q.numComputedTokens - numRejected else q.numComputedTokens
      numOutputPlaceholders :=
        if 0 < q.numOutputPlaceholders then q.numOutputPlaceholders - numRejected else q.numOutputPlaceholders }

def updateRequestWithOutput (tokens : List Token) :
    Except Raised (Scheduler ι η μ × Request ι η μ × Bool) := do
  let (q', new, stopped) ← appendTokens s.config.maxModelLen q tokens
  if s.config.async then
    let q' := { q' with numOutputPlaceholders := q'.numOutputPlaceholders - new.length }
    if q'.numOutputPlaceholders < 0 then .error .placeholders
    else if q.status = .running then do
      let kv ← orRaise .kvCacheManager
        (Pass.cacheBlocks s.kvCacheManager q' (q'.numComputedTokens - q'.numOutputPlaceholders))
      .ok ({ s with kvCacheManager := kv }, q', stopped)
    else .ok (s, q', stopped)
  else .ok (s, q', stopped)

structure Update (ι η μ : Type) where
  sched : Scheduler ι η μ
  stoppedRunning : List ι
  stoppedPreempted : List ι

def applyOutput (res : ModelRunnerOutput ι) (q : Request ι η μ) :
    Except Raised (Scheduler ι η μ × Request ι η μ × Bool) := do
  let tokens := res.sampledTokenIds q.requestId
  let (s, q, stopped) ← (if tokens = [] then .ok (s, q, false) else s.updateRequestWithOutput q tokens)
  match res.poolerOutput with
  | none => .ok (s, q, stopped)
  | some pooled => do
    let (q, stopped) ← checkStop s.config.maxModelLen q (pooled q.requestId)
    .ok (s, q, stopped)

def updateRequest (out : SchedulerOutput ι μ) (res : ModelRunnerOutput ι) (delay : ι → Bool) (skipped : List ι)
    (u : Update ι η μ) (e : ι × Int) : Except Raised (Update ι η μ) :=
  if e.2 ≤ 0 then .error .notScheduled
  else if e.1 ∈ skipped then .ok u
  else
    match u.sched.requests.get? e.1 with
    | none => .ok u
    | some q => do
      let numDrafts := ((out.scheduledSpecDecodeTokens.get? e.1).getD []).length
      let (s, q', stopped) ← u.sched.applyOutput res (rejectDrafts q numDrafts (res.sampledTokenIds e.1).length)
      if stopped then do
        let s ← s.freeRequest q' delay
        .ok (if q.status = .running then { u with sched := s, stoppedRunning := u.stoppedRunning ++ [e.1] }
          else { u with sched := s, stoppedPreempted := u.stoppedPreempted ++ [e.1] })
      else .ok { u with sched := s.setRequest q' }

def finishSending (r : ι) : Except Raised (Scheduler ι η μ) := do
  let q ← s.request r
  if q.isFinished then s.freeBlocks r else .error .invalidStatus

def updateFromOutput (out : SchedulerOutput ι μ) (res : ModelRunnerOutput ι) (delay : ι → Bool) (s : Scheduler ι η μ) :
    Except Raised (Scheduler ι η μ) := do
  let (s, skipped) ← (if res.invalidBlockIds = [] then .ok (s, []) else s.handleInvalidBlocks res.invalidBlockIds)
  let u ← out.numScheduledTokens.entries.foldlM (updateRequest out res delay skipped) ⟨s, [], []⟩
  let s := { u.sched with
    running := removeAll u.sched.running u.stoppedRunning
    waiting := u.sched.waiting.filter (· ∉ u.stoppedPreempted) }
  let s := { s with finishedRecvingKvReqIds := s.finishedRecvingKvReqIds ∪ res.finishedRecving }
  res.finishedSending.foldlM finishSending s

/-! ### The other calls -/

def addRequest (s : Scheduler ι η μ) (q : RequestSpec ι η μ) : Scheduler ι η μ :=
  let s := s.setRequest q.new
  { s with waiting := Sched.addRequest s.config.policy s.rank s.waiting q.requestId }

def setDraftTokenIds (d : ι × List Token) : Scheduler ι η μ :=
  match s.requests.get? d.1 with
  | none => s
  | some q => if q.isFinished then s else s.setRequest { q with specTokenIds := d.2 }

def updateDraftTokenIds (drafts : List (ι × List Token)) : Scheduler ι η μ := drafts.foldl setDraftTokenIds s

def unfinished (ids : List ι) : List (Request ι η μ) :=
  (ids.dedup.filterMap s.requests.get?).filter fun q => !q.isFinished

def finishRequests (ids : List ι) (status : RequestStatus) (delay : ι → Bool) :
    Except Raised (Scheduler ι η μ) :=
  if status.isFinished then
    let valid := s.unfinished ids
    let running := (valid.filter fun q => q.status = .running).map fun q => q.requestId
    let waiting := (valid.filter fun q => q.status ≠ .running).map fun q => q.requestId
    let s := { s with running := removeAll s.running running, waiting := s.waiting.filter (· ∉ waiting) }
    valid.foldlM (fun s q => s.freeRequest { q with status := status } delay) s
  else .error .invalidStatus

def resetPrefixCache (s : Scheduler ι η μ) : Scheduler ι η μ :=
  { s with kvCacheManager := s.kvCacheManager.resetPrefixCache.2 }

def init (config : SchedulerConfig) (kv : KVCacheManager ι η) (encoderCacheSize : Nat) : Scheduler ι η μ where
  config := config
  requests := .empty
  waiting := []
  running := []
  finishedReqIds := []
  prevStepScheduledReqIds := []
  finishedRecvingKvReqIds := []
  failedRecvingKvReqIds := []
  kvCacheManager := kv
  encoderCacheManager := .init encoderCacheSize

end Scheduler

/-! ### Runs -/

structure Engine (ι η μ : Type) where
  sched : Scheduler ι η μ
  inFlight : List (SchedulerOutput ι μ)

inductive Action (ι η μ : Type) where
  | addRequest (q : RequestSpec ι η μ)
  | schedule (env : Env ι)
  | updateFromOutput (res : ModelRunnerOutput ι) (delay : ι → Bool)
  | updateDraftTokenIds (drafts : List (ι × List Token))
  | finishRequests (ids : List ι) (status : RequestStatus) (delay : ι → Bool)
  | resetPrefixCache

namespace Engine

def init (config : SchedulerConfig) (kv : KVCacheManager ι η) (encoderCacheSize : Nat) : Engine ι η μ :=
  ⟨.init config kv encoderCacheSize, []⟩

def exec (e : Engine ι η μ) : Action ι η μ → Except Failure (Engine ι η μ)
  | .addRequest q => .ok { e with sched := e.sched.addRequest q }
  | .schedule env => do
    let (out, s) ← e.sched.schedule env
    .ok ⟨s, e.inFlight ++ [out]⟩
  | .updateFromOutput res delay =>
    match e.inFlight with
    | [] => .error (.raised .notInFlight)
    | out :: outs => do
      let s ← (e.sched.updateFromOutput out res delay).mapError .raised
      .ok ⟨s, outs⟩
  | .updateDraftTokenIds drafts => .ok { e with sched := e.sched.updateDraftTokenIds drafts }
  | .finishRequests ids status delay => do
    let s ← (e.sched.finishRequests ids status delay).mapError .raised
    .ok { e with sched := s }
  | .resetPrefixCache => .ok { e with sched := e.sched.resetPrefixCache }

def step (e : Engine ι η μ) (a : Action ι η μ) : Option (Engine ι η μ) := (e.exec a).toOption

end Engine

/-! ### A small engine

Eight blocks of two tokens, no prefix caching, and requests that want four tokens.
-/

namespace Small

def config : SchedulerConfig where
  policy := .fcfs
  maxNumRunningReqs := 4
  maxNumScheduledTokens := 8
  maxModelLen := 16
  longPrefillTokenThreshold := 0
  enableChunkedPrefill := true
  encoder := ⟨false, false⟩
  maxNumEncoderInputTokens := 8
  crossEncoderTokens := 0
  numSpecTokens := 0
  numLookaheadTokens := 0
  maxLoras := none
  hasConnector := false
  hasEcConnector := false
  blockSize := 2
  usePp := false
  useV2ModelRunner := false
  async := false

def manager : KVCacheManager Nat Nat :=
  (KVCacheManager.init 16 8 false false [⟨.full, 2, Nat.zero_lt_two, trivial⟩]).get rfl

def request (r numPrompt : Nat) : RequestSpec Nat Nat Nat where
  requestId := r
  promptTokenIds := List.replicate numPrompt 0
  params := .sampling ⟨4, 0, true, [], false⟩
  eosTokenId := none
  arrivalTime := r
  mmFeatures := []
  loraRequest := none
  priority := 0
  blockHasher := fun _ => []
  skipReadingPrefixCache := false

def env : Env Nat := ⟨fun _ => true, fun _ => (some 0, false), fun _ _ => false⟩

def sampled (rs : List Nat) : ModelRunnerOutput Nat := ⟨fun r => if r ∈ rs then [1] else [], none, [], [], []⟩

end Small

end Xmix.Sched
