import Xmix.Kv.CommonPrefix
import Xmix.Sched.Encoder

/-!
# Scheduler.schedule

The state of the scheduler, the local variables of `schedule` (`Pass`), its loop over the running
requests with the preemptions in it, its loop over the waiting requests, and what it returns. The
two loops take as many rounds as there are requests in the queue they work through. What the grammar
compiler and the connectors answer during a call is its environment `Env`. Statistics, events and
log lines are left out.
-/

namespace Xmix.Sched

open Kv (KVCacheManager)

structure SchedulerConfig where
  policy : SchedulingPolicy
  maxNumRunningReqs : Nat
  maxNumScheduledTokens : Nat
  maxModelLen : Nat
  longPrefillTokenThreshold : Nat
  enableChunkedPrefill : Bool
  encoder : EncoderConfig
  /-- The compute budget; a cross-attention group gets slots for `crossEncoderTokens`. -/
  maxNumEncoderInputTokens : Nat
  crossEncoderTokens : Nat
  numSpecTokens : Nat
  numLookaheadTokens : Nat
  /-- `lora_config.max_loras`. -/
  maxLoras : Option Nat
  hasConnector : Bool
  hasEcConnector : Bool
  blockSize : Nat
  usePp : Bool
  useV2ModelRunner : Bool
  /-- The class is `AsyncScheduler`. -/
  async : Bool

structure Scheduler (ι η μ : Type) where
  config : SchedulerConfig
  requests : Dict ι (Request ι η μ)
  waiting : List ι
  running : List ι
  finishedReqIds : List ι
  prevStepScheduledReqIds : List ι
  finishedRecvingKvReqIds : List ι
  failedRecvingKvReqIds : List ι
  kvCacheManager : KVCacheManager ι η
  encoderCacheManager : EncoderCacheManager ι μ

structure Env (ι : Type) where
  grammarReady : ι → Bool
  matched : ι → Option Nat × Bool
  remoteHas : ι → Nat → Bool

inductive Raised where
  | keyError
  | kvCacheManager
  | encoderCacheManager
  | popFromEmpty
  | noExternalTokens
  | noNewTokens
  | invalidStatus
  | emptyOutput
  | notScheduled
  | placeholders
  | notInFlight
  deriving DecidableEq

inductive Failure where
  | raised (e : Raised)
  | scheduledLoras
  | totalNumScheduledTokens
  | tokenBudget
  | maxNumRunningReqs
  | numScheduledReqs
  | scheduledInPrevStep
  deriving DecidableEq

def orRaise {α : Type} (e : Raised) : Option α → Except Raised α
  | some a => .ok a
  | none => .error e

structure NewRequestData (ι μ : Type) where
  reqId : ι
  promptTokenIds : List Token
  mmFeatures : List (MmFeature μ)
  loraRequest : Option LoRARequest
  blockIds : List (List Nat)
  numComputedTokens : Int
  prefillTokenIds : Option (List Token)

structure CachedRequestData (ι : Type) where
  reqIds : List ι
  resumedReqIds : List ι
  newTokenIds : List (List Token)
  allTokenIds : Dict ι (List Token)
  newBlockIds : List (Option (List (List Nat)))
  numComputedTokens : List Int
  numOutputTokens : List Int

structure SchedulerOutput (ι μ : Type) where
  scheduledNewReqs : List (NewRequestData ι μ)
  scheduledCachedReqs : CachedRequestData ι
  numScheduledTokens : Dict ι Int
  totalNumScheduledTokens : Int
  scheduledSpecDecodeTokens : Dict ι (List Token)
  scheduledEncoderInputs : Dict ι (List Nat)
  numCommonPrefixBlocks : List Nat
  preemptedReqIds : List ι
  finishedReqIds : List ι
  freeEncoderMmHashes : List μ

structure Pass (ι η μ : Type) where
  sched : Scheduler ι η μ
  scheduledNewReqs : List ι
  scheduledResumedReqs : List ι
  scheduledRunningReqs : List ι
  preemptedReqs : List ι
  reqToNewBlocks : Dict ι (List (List Nat))
  numScheduledTokens : Dict ι Int
  tokenBudget : Int
  scheduledEncoderInputs : Dict ι (List Nat)
  encoderComputeBudget : Int
  scheduledSpecDecodeTokens : Dict ι (List Token)
  reqIndex : Nat
  scheduledLoras : List Nat
  skippedWaitingRequests : List ι

variable {ι η μ : Type} [DecidableEq ι] [DecidableEq η] [DecidableEq μ]

def allocateSlots (m : KVCacheManager ι η) (q : Request ι η μ) (numNew : Int) (numNewComputed : Nat)
    (newComputedBlocks : Option (List (List Nat))) (lookahead : Nat) (delay : Bool) (encoder : Nat) :
    Option (KVCacheManager ι η × Option (List (List Nat))) :=
  if numNew = 0 then none
  else do
    let newComputed := newComputedBlocks.getD m.emptyBlocks
    let m ← m.removeSkippedBlocks q.requestId q.numComputedTokens.toNat
    let needSlot := (min (q.numComputedTokens + numNewComputed + numNew + lookahead) m.maxModelLen).toNat
    let needed ← KVCacheManager.numBlocksToAllocate m.blockPool q.requestId needSlot encoder newComputed 0 m.groups
    let m := { m with groups := m.groups.map (·.access q.requestId) }
    if m.blockPool.getNumFreeBlocks < needed then some (m, none)
    else do
      let numToCache := (min (q.numComputedTokens + numNewComputed + numNew) q.numTokens).toNat
      let (m, new) ← m.commitSlots q.kv needSlot encoder numToCache newComputed delay
      some (m, some new)

def getBlocks (m : KVCacheManager ι η) (r : ι) : List (List Nat) := m.groups.map fun gm => gm.blocksOf r

namespace Scheduler

variable (s : Scheduler ι η μ)

def request (r : ι) : Except Raised (Request ι η μ) := orRaise .keyError (s.requests.get? r)

def setRequest (q : Request ι η μ) : Scheduler ι η μ := { s with requests := s.requests.set q.requestId q }

def rank (r : ι) : Int × Int :=
  match s.requests.get? r with
  | some q => (q.priority, q.arrivalTime)
  | none => (0, 0)

def remote (env : Env ι) (r : ι) (i : Nat) : Bool := s.config.hasEcConnector && env.remoteHas r i

def planEncoder (env : Env ι) (q : Request ι η μ) (numComputed numNewTokens encoderComputeBudget : Int) :
    Except Raised (EncoderPlan ι μ) :=
  orRaise .encoderCacheManager <|
    tryScheduleEncoderInputs s.config.encoder (s.remote env q.requestId) s.encoderCacheManager
      q.toRequestSpec numComputed
      numNewTokens encoderComputeBudget

end Scheduler

namespace Pass

variable (env : Env ι) (p : Pass ι η μ) (s : Scheduler ι η μ) (q : Request ι η μ) (c : Computed) (cfg : SchedulerConfig)

def init : Pass ι η μ where
  sched := s
  scheduledNewReqs := []
  scheduledResumedReqs := []
  scheduledRunningReqs := []
  preemptedReqs := []
  reqToNewBlocks := .empty
  numScheduledTokens := .empty
  tokenBudget := s.config.maxNumScheduledTokens
  scheduledEncoderInputs := .empty
  encoderComputeBudget := s.config.maxNumEncoderInputTokens
  scheduledSpecDecodeTokens := .empty
  reqIndex := 0
  scheduledLoras := []
  skippedWaitingRequests := []

def withKv (kv : KVCacheManager ι η) : Pass ι η μ := { p with sched := { p.sched with kvCacheManager := kv } }

def withEncoder (cache : EncoderCacheManager ι μ) : Pass ι η μ :=
  { p with sched := { p.sched with encoderCacheManager := cache } }

/-! ### The running requests -/

def maxTotalTokens (q : RequestSpec ι η μ) : Int := min (q.numPromptTokens + q.maxTokens) cfg.maxModelLen

def capPrefill (n : Int) : Int :=
  if 0 < cfg.longPrefillTokenThreshold ∧ (cfg.longPrefillTokenThreshold : Int) <
    n then (cfg.longPrefillTokenThreshold : Int) else n

def numNewTokens (tokenBudget : Int) (q : Request ι η μ) : Int :=
  let n := q.numTokensWithSpec + q.numOutputPlaceholders - q.numComputedTokens
  let n := capPrefill cfg n
  let n := min n tokenBudget
  min n (maxTotalTokens cfg q.toRequestSpec - 1 - q.numComputedTokens)

def unschedule (v : ι) : Pass ι η μ :=
  if v ∈ p.scheduledRunningReqs then
    let inputs := (p.scheduledEncoderInputs.get? v).getD []
    let restored := (inputs.map fun i => ((p.sched.requests.get? v).map fun q => q.numEncoderTokens i).getD 0).sum
    { p with
      scheduledRunningReqs := p.scheduledRunningReqs.erase v
      tokenBudget := p.tokenBudget + (p.numScheduledTokens.get? v).getD 0
      reqToNewBlocks := p.reqToNewBlocks.pop v
      numScheduledTokens := p.numScheduledTokens.pop v
      scheduledSpecDecodeTokens := p.scheduledSpecDecodeTokens.pop v
      scheduledEncoderInputs := p.scheduledEncoderInputs.pop v
      encoderComputeBudget := p.encoderComputeBudget + restored
      reqIndex := p.reqIndex - 1 }
  else p

def takeVictim : Except Raised (ι × Pass ι η μ) :=
  match p.sched.config.policy with
  | .priority =>
    match lowestPriority p.sched.rank p.sched.running with
    | none => .error .popFromEmpty
    | some v => .ok (v, unschedule { p with sched := { p.sched with running := p.sched.running.erase v } } v)
  | .fcfs =>
    match p.sched.running.getLast? with
    | none => .error .popFromEmpty
    | some v => .ok (v, { p with sched := { p.sched with running := p.sched.running.dropLast } })

def evict (v : ι) : Except Raised (Pass ι η μ) := do
  let q ← p.sched.request v
  let kv ← orRaise .kvCacheManager (p.sched.kvCacheManager.free v)
  let sched := { p.sched with
    kvCacheManager := kv
    encoderCacheManager := p.sched.encoderCacheManager.free q.toRequestSpec
    waiting := prependRequest p.sched.config.policy p.sched.rank p.sched.waiting v }
  .ok { p with
    sched := sched.setRequest { q with status := .preempted, numComputedTokens := 0 }
    preemptedReqs := p.preemptedReqs ++ [v] }

def allocateOrPreempt (q : Request ι η μ) (n : Int) : Nat → Pass ι η μ →
    Except Raised (Pass ι η μ × Option (List (List Nat)))
  | 0, _ => .error .popFromEmpty
  | rounds + 1, p => do
    let (kv, blocks) ← orRaise .kvCacheManager
      (allocateSlots p.sched.kvCacheManager q n 0 none p.sched.config.numLookaheadTokens false 0)
    let p := p.withKv kv
    match blocks with
    | some blocks => .ok (p, some blocks)
    | none => do
      let (v, p) ← p.takeVictim
      let p ← p.evict v
      if v = q.requestId then .ok (p, none) else allocateOrPreempt q n rounds p

def scheduleSpec (n : Int) : Pass ι η μ :=
  if q.specTokenIds = [] then p
  else
    let numSpec := n + q.numComputedTokens - q.numTokens - q.numOutputPlaceholders
    let p := { p with sched := p.sched.setRequest { q with specTokenIds := [] } }
    if 0 < numSpec then
      { p with scheduledSpecDecodeTokens :=
        p.scheduledSpecDecodeTokens.set q.requestId (q.specTokenIds.take numSpec.toNat) }
    else p

def allocateInputs (q : RequestSpec ι η μ) (cache : EncoderCacheManager ι μ) (inputs : List Nat) :
    Option (EncoderCacheManager ι μ) :=
  inputs.foldlM (fun cache i => do
    let f ← q.mmFeatures[i]?
    cache.allocate q.requestId f.identifier f.length) cache

def scheduleEncoder (q : RequestSpec ι η μ) (plan : EncoderPlan ι μ) : Except Raised (Pass ι η μ) := do
  let cache ← orRaise .encoderCacheManager
    (allocateInputs q p.sched.encoderCacheManager (plan.inputs ++ plan.externalLoad))
  let p := p.withEncoder cache
  if plan.inputs = [] then .ok p
  else
    .ok { p with
      scheduledEncoderInputs := p.scheduledEncoderInputs.set q.requestId plan.inputs
      encoderComputeBudget := plan.computeBudget }

def scheduleRunning (blocks : List (List Nat)) (plan : EncoderPlan ι μ) :
    Except Raised (Pass ι η μ) :=
  let p := { p with
    scheduledRunningReqs := p.scheduledRunningReqs ++ [q.requestId]
    reqToNewBlocks := p.reqToNewBlocks.set q.requestId blocks
    numScheduledTokens := p.numScheduledTokens.set q.requestId plan.numNewTokens
    tokenBudget := p.tokenBudget - plan.numNewTokens
    reqIndex := p.reqIndex + 1 }
  (p.scheduleSpec q plan.numNewTokens).scheduleEncoder q.toRequestSpec plan

def runningStep (r : ι) : Except Raised (Pass ι η μ × Bool) := do
  let q ← p.sched.request r
  let plan ← p.sched.planEncoder env q q.numComputedTokens (numNewTokens p.sched.config p.tokenBudget q)
    p.encoderComputeBudget
  let p := p.withEncoder plan.cache
  if plan.numNewTokens = 0 then .ok ({ p with reqIndex := p.reqIndex + 1 }, true)
  else do
    let (p, blocks) ← p.allocateOrPreempt q plan.numNewTokens p.sched.running.length
    match blocks with
    | none => .ok (p, false)
    | some blocks => do
      let p ← p.scheduleRunning q blocks plan
      .ok (p, true)

def runningLoop (env : Env ι) : Nat → Pass ι η μ → Except Raised (Pass ι η μ)
  | 0, p => .ok p
  | rounds + 1, p =>
    if 0 < p.tokenBudget then
      match p.sched.running[p.reqIndex]? with
      | none => .ok p
      | some r => do
        let (p, next) ← p.runningStep env r
        if next then runningLoop env rounds p else .ok p
    else .ok p

def runningLoras : List Nat :=
  (p.scheduledRunningReqs.filterMap fun r => (p.sched.requests.get? r).bind fun q =>
    q.loraRequest.map LoRARequest.loraIntId).dedup

/-! ### The waiting requests -/

def setAside (r : ι) : Pass ι η μ :=
  { p with
    sched := { p.sched with waiting := p.sched.waiting.tail }
    skippedWaitingRequests := prependRequest p.sched.config.policy p.sched.rank p.skippedWaitingRequests r }

def cacheBlocks (m : KVCacheManager ι η) (q : Request ι η μ) (n : Int) : Option (KVCacheManager ι η) :=
  if m.enableCaching then m.cacheBlocks q.kv n.toNat else some m

def receiveKv : Except Raised (Scheduler ι η μ) :=
  if q.requestId ∈ s.failedRecvingKvReqIds then do
    let kv ← orRaise .kvCacheManager <|
      if q.numComputedTokens ≠ 0 then cacheBlocks s.kvCacheManager q q.numComputedTokens else
        s.kvCacheManager.free q.requestId
    .ok { s with kvCacheManager := kv, failedRecvingKvReqIds := s.failedRecvingKvReqIds.erase q.requestId }
  else
    match getBlocks s.kvCacheManager q.requestId with
    | [blocks] => do
      let n := min (blocks.length * s.config.blockSize) q.numTokens
      let n := if n = q.numTokens then (n : Int) - 1 else n
      let kv ← orRaise .kvCacheManager (cacheBlocks s.kvCacheManager q n)
      .ok ({ s with kvCacheManager := kv }.setRequest { q with numComputedTokens := n })
    | _ => .error .kvCacheManager

def updateWaitingForRemoteKv : Except Raised (Option (Scheduler ι η μ)) :=
  if q.requestId ∉ s.finishedRecvingKvReqIds then .ok none
  else do
    let s ← receiveKv s q
    .ok (some { s with finishedRecvingKvReqIds := s.finishedRecvingKvReqIds.erase q.requestId })

def makeReady : Except Raised (Option (Pass ι η μ)) :=
  match q.status with
  | .waitingForRemoteKvs => do
    match ← updateWaitingForRemoteKv p.sched q with
    | none => .ok none
    | some s => do
      let q ← s.request q.requestId
      .ok (some { p with sched := s.setRequest { q with status := .waiting } })
  | .waitingForFsm =>
    if q.useStructuredOutput && env.grammarReady q.requestId then
      .ok (some { p with sched := p.sched.setRequest { q with status := .waiting } })
    else .ok none
  | _ => .ok (some p)

def loraBlocked (q : RequestSpec ι η μ) : Bool :=
  match p.sched.config.maxLoras, q.loraRequest with
  | some maxLoras, some lora => p.scheduledLoras.length = maxLoras && lora.loraIntId ∉ p.scheduledLoras
  | _, _ => false

structure Computed where
  blocks : List (List Nat)
  numLocal : Nat
  numExternal : Nat
  loadKvAsync : Bool
  total : Int

def findComputed : Except Raised (Option Computed) :=
  if q.numComputedTokens = 0 then do
    let (blocks, n) ← orRaise .kvCacheManager (p.sched.kvCacheManager.getComputedBlocks q.kv)
    if p.sched.config.hasConnector then
      match env.matched q.requestId with
      | (none, _) => .ok none
      | (some ext, async) => .ok (some ⟨blocks, n, ext, async, n + ext⟩)
    else .ok (some ⟨blocks, n, 0, false, n⟩)
  else .ok (some ⟨p.sched.kvCacheManager.emptyBlocks, 0, 0, false, q.numComputedTokens⟩)

inductive Verdict (ι μ : Type) where
  | skip
  | stop (cache : EncoderCacheManager ι μ)
  | go (plan : EncoderPlan ι μ)

def planWaiting : Except Raised (Verdict ι μ) :=
  if c.loadKvAsync then
    if c.numExternal = 0 then .error .noExternalTokens
    else .ok (.go ⟨[], 0, p.encoderComputeBudget, [], p.sched.encoderCacheManager⟩)
  else
    let cfg := p.sched.config
    let n := q.numTokens - c.total
    let n := capPrefill cfg n
    if cfg.enableChunkedPrefill = false ∧ p.tokenBudget < n then .ok .skip
    else
      let n := min n p.tokenBudget
      if n ≤ 0 then .error .noNewTokens
      else do
        let plan ← p.sched.planEncoder env q c.total n p.encoderComputeBudget
        if plan.numNewTokens = 0 then .ok (.stop plan.cache) else .ok (.go plan)

def allocateWaiting (n : Int) :
    Except Raised (KVCacheManager ι η × Option (List (List Nat))) :=
  let lookahead := if q.numComputedTokens = 0 then 0 else p.sched.config.numLookaheadTokens
  let encoder :=
    if p.sched.config.encoder.isEncoderDecoder && q.hasEncoderInputs then p.sched.config.crossEncoderTokens else 0
  orRaise .kvCacheManager
    (allocateSlots p.sched.kvCacheManager q (n + c.numExternal) c.numLocal (some c.blocks) lookahead
      c.loadKvAsync encoder)

def startLoad : Pass ι η μ :=
  { p.setAside q.requestId with
    sched := (p.setAside q.requestId).sched.setRequest { q with status := .waitingForRemoteKvs } }

def addLora (q : RequestSpec ι η μ) : List Nat :=
  match p.sched.config.maxLoras, q.loraRequest with
  | some _, some lora => p.scheduledLoras.insert lora.loraIntId
  | _, _ => p.scheduledLoras

def recordAdmitted : Except Raised (Pass ι η μ) :=
  match q.status with
  | .waiting => .ok { p with scheduledNewReqs := p.scheduledNewReqs ++ [q.requestId] }
  | .preempted => .ok { p with scheduledResumedReqs := p.scheduledResumedReqs ++ [q.requestId] }
  | _ => .error .invalidStatus

def scheduleWaiting (plan : EncoderPlan ι μ) : Except Raised (Pass ι η μ) := do
  let p ← recordAdmitted { p with
    sched := { p.sched with waiting := p.sched.waiting.tail, running := p.sched.running ++ [q.requestId] }
    reqIndex := p.reqIndex + 1 } q
  let p := { p with
    scheduledLoras := p.addLora q.toRequestSpec
    reqToNewBlocks := p.reqToNewBlocks.set q.requestId (getBlocks p.sched.kvCacheManager q.requestId)
    numScheduledTokens := p.numScheduledTokens.set q.requestId plan.numNewTokens
    tokenBudget := p.tokenBudget - plan.numNewTokens
    sched := p.sched.setRequest { q with
      status := .running
      numComputedTokens := c.total
      numCachedTokens := if q.numCachedTokens < 0 then c.total else q.numCachedTokens } }
  p.scheduleEncoder q.toRequestSpec plan

def waitingStep (r : ι) : Except Raised (Pass ι η μ × Bool) := do
  let q ← p.sched.request r
  match ← p.makeReady env q with
  | none => .ok (p.setAside r, true)
  | some p => do
    let q ← p.sched.request r
    if p.loraBlocked q.toRequestSpec then .ok (p.setAside r, true)
    else
      match ← p.findComputed env q with
      | none => .ok (p.setAside r, true)
      | some c =>
        match ← p.planWaiting env q c with
        | .skip => .ok (p.setAside r, true)
        | .stop cache => .ok (p.withEncoder cache, false)
        | .go plan => do
          let p := p.withEncoder plan.cache
          let (kv, blocks) ← p.allocateWaiting q c plan.numNewTokens
          let p := p.withKv kv
          match blocks with
          | none => .ok (p, false)
          | some _ =>
            if c.loadKvAsync then .ok (p.startLoad q, true)
            else do
              let p ← p.scheduleWaiting q c plan
              .ok (p, true)

def waitingLoop (env : Env ι) : Nat → Pass ι η μ → Except Raised (Pass ι η μ)
  | 0, p => .ok p
  | rounds + 1, p =>
    if 0 < p.tokenBudget ∧ p.sched.running.length ≠ p.sched.config.maxNumRunningReqs then
      match p.sched.waiting with
      | [] => .ok p
      | r :: _ => do
        let (p, next) ← p.waitingStep env r
        if next then waitingLoop env rounds p else .ok p
    else .ok p

def waitingPass : Except Raised (Pass ι η μ) :=
  if p.preemptedReqs = [] then p.waitingLoop env p.sched.waiting.length else .ok p

def putBack : Pass ι η μ :=
  { p with
    sched := { p.sched with
      waiting := prependRequests p.sched.config.policy p.sched.rank p.sched.waiting p.skippedWaitingRequests }
    skippedWaitingRequests := [] }

/-! ### The output -/

def blockIdsOrNone (blocks : List (List Nat)) : Option (List (List Nat)) :=
  if blocks.all List.isEmpty then none else some blocks

def newRequestData (r : ι) : Except Raised (NewRequestData ι μ) := do
  let q ← p.sched.request r
  let blocks ← orRaise .keyError (p.reqToNewBlocks.get? r)
  .ok ⟨r, q.promptTokenIds, q.mmFeatures, q.loraRequest, blocks, q.numComputedTokens,
    if p.sched.config.useV2ModelRunner then some q.allTokenIds else none⟩

def cachedRequestData (resumed : Bool) (d : CachedRequestData ι) (r : ι) : Except Failure (CachedRequestData ι) := do
  let q ← (p.sched.request r).mapError .raised
  let n ← (orRaise .keyError (p.numScheduledTokens.get? r)).mapError .raised
  let blocks ← (orRaise .keyError (p.reqToNewBlocks.get? r)).mapError .raised
  let n := n - ((p.scheduledSpecDecodeTokens.get? r).getD []).length
  let prev := decide (r ∈ p.sched.prevStepScheduledReqIds)
  if resumed && prev then .error .scheduledInPrevStep
  else
    .ok {
      reqIds := d.reqIds ++ [r]
      resumedReqIds := if resumed then d.resumedReqIds ++ [r] else d.resumedReqIds
      newTokenIds :=
        if p.sched.config.usePp then d.newTokenIds ++
          [(q.allTokenIds.drop q.numComputedTokens.toNat).take n.toNat] else d.newTokenIds
      allTokenIds := if prev then d.allTokenIds else d.allTokenIds.set r q.allTokenIds
      newBlockIds := d.newBlockIds ++ [blockIdsOrNone blocks]
      numComputedTokens := d.numComputedTokens ++ [q.numComputedTokens]
      numOutputTokens := d.numOutputTokens ++ [q.numOutputTokens + q.numOutputPlaceholders] }

def makeCachedRequestData (resumed : List ι) : Except Failure (CachedRequestData ι) := do
  let d ← p.scheduledRunningReqs.foldlM (p.cachedRequestData false) ⟨[], [], [], .empty, [], [], []⟩
  resumed.foldlM (p.cachedRequestData true) d

def checkConstraints : Except Failure Unit :=
  if p.sched.config.maxNumScheduledTokens < p.numScheduledTokens.values.sum then .error .totalNumScheduledTokens
  else if p.tokenBudget < 0 then .error .tokenBudget
  else if p.sched.config.maxNumRunningReqs < p.sched.running.length then .error .maxNumRunningReqs
  else if p.sched.running.length < p.scheduledNewReqs.length + p.scheduledResumedReqs.length +
    p.scheduledRunningReqs.length then
    .error .numScheduledReqs
  else .ok ()

def newAndResumed : List ι × List ι :=
  if p.sched.config.useV2ModelRunner then (p.scheduledNewReqs ++ p.scheduledResumedReqs, [])
  else (p.scheduledNewReqs, p.scheduledResumedReqs)

def commonPrefixBlocks : List Nat × KVCacheManager ι η :=
  match s.running with
  | [] => (s.kvCacheManager.groups.map fun _ => 0, s.kvCacheManager)
  | r :: _ => s.kvCacheManager.getNumCommonPrefixBlocks r

end Pass

namespace Scheduler

def freeEncoderInputs (cfg : EncoderConfig) (cache : EncoderCacheManager ι μ) (q : Request ι η μ) :
    EncoderCacheManager ι μ :=
  (cache.getCachedInputIds q.toRequestSpec).foldl (fun cache f =>
    if cfg.isEncoderDecoder = true ∧ 0 < q.numComputedTokens ∨
      ((f.offset + f.length : Nat) : Int) ≤ q.numComputedTokens then
      cache.freeEncoderInput q.requestId f
    else cache) cache

def advance (s : Scheduler ι η μ) (e : ι × Int) : Except Raised (Scheduler ι η μ) := do
  let q ← s.request e.1
  let q := { q with numComputedTokens := q.numComputedTokens + e.2 }
  let s := s.setRequest q
  .ok (if q.hasEncoderInputs then
    { s with encoderCacheManager := freeEncoderInputs s.config.encoder s.encoderCacheManager q } else s)

def addPlaceholders (spec : Dict ι (List Token)) (s : Scheduler ι η μ) (r : ι) : Except Raised (Scheduler ι η μ) := do
  let q ← s.request r
  let numSpec := ((spec.get? r).getD []).length
  .ok (if q.numComputedTokens = q.numTokens + q.numOutputPlaceholders + numSpec then
    s.setRequest { q with
      numOutputPlaceholders := q.numOutputPlaceholders + 1 + numSpec
      specTokenIds := List.replicate s.config.numSpecTokens (-1) }
    else s)

def updateAfterSchedule (s : Scheduler ι η μ) (out : SchedulerOutput ι μ) : Except Raised (Scheduler ι η μ) := do
  let s ← out.numScheduledTokens.entries.foldlM advance s
  let s := { s with finishedReqIds := [] }
  if s.config.async then out.numScheduledTokens.keys.foldlM (addPlaceholders out.scheduledSpecDecodeTokens) s else .ok s

end Scheduler

namespace Pass

def finish (p : Pass ι η μ) : Except Failure (SchedulerOutput ι μ × Scheduler ι η μ) := do
  p.checkConstraints
  let (common, kv) := commonPrefixBlocks p.sched
  let p := p.withKv kv
  let (new, resumed) := p.newAndResumed
  let newReqs ← (new.mapM p.newRequestData).mapError .raised
  let cached ← p.makeCachedRequestData resumed
  let out : SchedulerOutput ι μ := {
    scheduledNewReqs := newReqs
    scheduledCachedReqs := cached
    numScheduledTokens := p.numScheduledTokens
    totalNumScheduledTokens := p.numScheduledTokens.values.sum
    scheduledSpecDecodeTokens := p.scheduledSpecDecodeTokens
    scheduledEncoderInputs := p.scheduledEncoderInputs
    numCommonPrefixBlocks := common
    preemptedReqIds := p.preemptedReqs
    finishedReqIds := p.sched.finishedReqIds
    freeEncoderMmHashes := p.sched.encoderCacheManager.getFreedMmHashes.1 }
  let s := { p.sched with
    prevStepScheduledReqIds := p.numScheduledTokens.keys
    encoderCacheManager := p.sched.encoderCacheManager.getFreedMmHashes.2 }
  let s ← (s.updateAfterSchedule out).mapError .raised
  .ok (out, s)

end Pass

def lorasExceeded (maxLoras : Option Nat) (loras : List Nat) : Bool := maxLoras.any fun n => n < loras.length

def Scheduler.schedule (env : Env ι) (s : Scheduler ι η μ) :
    Except Failure (SchedulerOutput ι μ × Scheduler ι η μ) := do
  let p ← ((Pass.init s).runningLoop env s.running.length).mapError .raised
  if lorasExceeded p.sched.config.maxLoras p.runningLoras then .error .scheduledLoras
  else do
    let p := if p.sched.config.maxLoras.isSome then { p with scheduledLoras := p.runningLoras } else p
    let p ← (p.waitingPass env).mapError .raised
    p.putBack.finish

end Xmix.Sched
