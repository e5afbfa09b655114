import Xmix.Sched.Engine
import Xmix.Sched.Steps

/-!
# What the calls do

One lemma for each part of the scheduler's calls that says which fields it changes, so that no later
proof has to open it. `Keeps f` is a change of the request objects that keeps the queues and the
value `f` of every request.
-/

namespace Xmix.Sched

open Xmix.Except List Option
open Kv (KVCacheManager)

variable {ι η μ : Type} [DecidableEq ι]

variable {maxModelLen : Nat} {q q' : Request ι η μ}

variable (q)

def Request.state : RequestSpec ι η μ × RequestStatus := (q.toRequestSpec, q.status)

def Request.unpromised : Request ι η μ := { q with numOutputPlaceholders := 0, specTokenIds := [] }

def Request.advanced (n : Int) : Request ι η μ := { q with numComputedTokens := q.numComputedTokens + n }

omit [DecidableEq ι] in
theorem Request.requestId_of_unpromised (q q' : Request ι η μ) (h : q.unpromised = q'.unpromised) :
    q.requestId = q'.requestId := by
  have := congrArg (fun x : Request ι η μ => x.requestId) h
  exact this

variable {q}

def Owned (requests : Dict ι (Request ι η μ)) : Prop := ∀ r q, requests.get? r = some q → q.requestId = r

variable {r : ι}

theorem Owned.set {d : Dict ι (Request ι η μ)} (hd : Owned d) (hq : q.requestId = r) :
    Owned (d.set r q) := fun r' x hx => by
  rw [Dict.get?_set] at hx
  split at hx
  next hr =>
    cases hx
    exact hq.trans hr.symm
  next => exact hd r' x hx

theorem map_get?_set {α : Type} {f : Request ι η μ → α} {d : Dict ι (Request ι η μ)} (hq : d.get? r = some q)
    (hf : f q' = f q) (r' : ι) : ((d.set r q').get? r').map f = (d.get? r').map f := by
  rw [Dict.get?_set]
  split
  next hr => rw [hr, hq, map_some, map_some, hf]
  next => rfl

namespace Scheduler

variable {s s' s'' : Scheduler ι η μ} {α : Type} {f : Request ι η μ → α}

structure Keeps (f : Request ι η μ → α) (s s' : Scheduler ι η μ) : Prop where
  config : s'.config = s.config
  running : s'.running = s.running
  waiting : s'.waiting = s.waiting
  prev : s'.prevStepScheduledReqIds = s.prevStepScheduledReqIds
  requests : ∀ r, (s'.requests.get? r).map f = (s.requests.get? r).map f

theorem Keeps.refl (f : Request ι η μ → α) (s : Scheduler ι η μ) : Keeps f s s := ⟨rfl, rfl, rfl, rfl, fun _ => rfl⟩

theorem Keeps.trans (h : Keeps f s s') (h' : Keeps f s' s'') : Keeps f s s'' :=
  ⟨h'.config.trans h.config, h'.running.trans h.running, h'.waiting.trans h.waiting, h'.prev.trans h.prev,
    fun r => (h'.requests r).trans (h.requests r)⟩

theorem Keeps.get?_back (h : Keeps f s s') {q' : Request ι η μ} (hq : s'.requests.get? r = some q') :
    ∃ q, s.requests.get? r = some q ∧ f q = f q' := by
  have := (h.requests r).symm
  rw [hq, map_some, map_eq_some_iff] at this
  exact this

theorem keeps_setRequest {q q' : Request ι η μ} (hq : s.requests.get? q'.requestId = some q) (hf : f q' = f q) :
    Keeps f s (s.setRequest q') :=
  ⟨rfl, rfl, rfl, rfl, map_get?_set hq hf⟩

theorem Keeps.owned (h : Keeps f s s') (hf : ∀ q q', f q = f q' → q.requestId = q'.requestId) (hs : Owned s.requests) :
    Owned s'.requests := fun r q hq => by
  obtain ⟨q₀, hq₀, hfq⟩ := h.get?_back hq
  exact (hf _ _ hfq).symm.trans (hs r q₀ hq₀)

/-! ### The end of `schedule` -/

variable [DecidableEq μ]

theorem advance_eq {e : ι × Int} (h : s.advance e = .ok s') : ∃ q cache, s.requests.get? e.1 = some q ∧
    s' = { s with
      requests := s.requests.set q.requestId (q.advanced e.2)
      encoderCacheManager := cache } := by
  obtain ⟨q, hq, h⟩ := bind_eq_ok.1 h
  rw [request_eq_ok] at hq
  cases h
  split
  · exact ⟨q, _, hq, rfl⟩
  · exact ⟨q, _, hq, rfl⟩

theorem advance_foldlM {es : List (ι × Int)} (hes : (es.map Prod.fst).Nodup) (hs : Owned s.requests)
    (h : es.foldlM advance s = .ok s') :
    (∃ requests cache, s' = { s with requests := requests, encoderCacheManager := cache }) ∧
      ∀ r, s'.requests.get? r = (s.requests.get? r).map fun q => q.advanced ((Dict.lookup es r).getD 0) := by
  induction es generalizing s with
  | nil =>
    cases h
    exact ⟨⟨_, _, rfl⟩, fun r => by simp [Dict.lookup, Request.advanced]⟩
  | cons e es ih =>
    obtain ⟨r₀, n⟩ := e
    rw [foldlM_cons] at h
    obtain ⟨s₁, hs₁, h⟩ := bind_eq_ok.1 h
    obtain ⟨q, cache, hq, rfl⟩ := advance_eq hs₁
    obtain rfl : q.requestId = r₀ := hs _ q hq
    rw [map_cons, nodup_cons] at hes
    have hown : Owned (s.requests.set q.requestId (q.advanced n)) := hs.set rfl
    obtain ⟨⟨requests, cache', rfl⟩, hget⟩ := ih hes.2 hown h
    refine ⟨⟨_, _, rfl⟩, fun r => (hget r).trans ?_⟩
    rw [Dict.get?_set]
    split
    next hr =>
      -- the id does not come again
      rw [hr, hq, Dict.lookup_eq_none.2 hes.1]
      simp [Dict.lookup, Request.advanced]
    next hr => rw [Dict.lookup, if_neg (Ne.symm hr)]

omit [DecidableEq μ] in
theorem addPlaceholders_keeps {spec : Dict ι (List Token)}
    (hs : Owned s.requests) (h : addPlaceholders spec s r = .ok s') :
    (∃ requests, s' = { s with requests := requests }) ∧ Keeps Request.unpromised s s' := by
  obtain ⟨q, hq, h⟩ := bind_eq_ok.1 h
  rw [request_eq_ok] at hq
  obtain rfl := hs r q hq
  cases h
  split
  · exact ⟨⟨_, rfl⟩, keeps_setRequest hq rfl⟩
  · exact ⟨⟨_, rfl⟩, .refl _ _⟩

omit [DecidableEq μ] in
theorem addPlaceholders_foldlM {spec : Dict ι (List Token)} {rs : List ι} (hs : Owned s.requests)
    (h : rs.foldlM (addPlaceholders spec) s = .ok s') :
    (∃ requests, s' = { s with requests := requests }) ∧ Keeps Request.unpromised s s' := by
  induction rs generalizing s with
  | nil =>
    cases h
    exact ⟨⟨_, rfl⟩, .refl _ _⟩
  | cons r rs ih =>
    rw [foldlM_cons] at h
    obtain ⟨s₁, hs₁, h⟩ := bind_eq_ok.1 h
    obtain ⟨⟨requests, rfl⟩, hkeep⟩ := addPlaceholders_keeps hs hs₁
    obtain ⟨⟨requests', rfl⟩, hkeep'⟩ := ih (hkeep.owned Request.requestId_of_unpromised hs) h
    exact ⟨⟨_, rfl⟩, hkeep.trans hkeep'⟩

theorem updateAfterSchedule_eq {out : SchedulerOutput ι μ}
    (hs : Owned s.requests) (h : s.updateAfterSchedule out = .ok s') :
    (∃ requests cache, s' = { s with requests := requests, encoderCacheManager := cache, finishedReqIds := [] }) ∧
      (∀ r, (s'.requests.get? r).map Request.unpromised =
        (s.requests.get? r).map fun q => (q.advanced ((out.numScheduledTokens.get? r).getD 0)).unpromised) ∧
      (s.config.async = false → ∀ r, s'.requests.get? r =
        (s.requests.get? r).map fun q => q.advanced ((out.numScheduledTokens.get? r).getD 0)) := by
  obtain ⟨s₁, hs₁, h⟩ := bind_eq_ok.1 h
  obtain ⟨⟨requests, cache, rfl⟩, hget⟩ := advance_foldlM out.numScheduledTokens.nodup hs hs₁
  simp only at h
  split at h
  next hasync =>
    have hown : Owned requests := fun r q hq => by
      have := hget r
      rw [hq] at this
      obtain ⟨q₀, hq₀, rfl⟩ := map_eq_some_iff.1 this.symm
      exact hs r q₀ hq₀
    obtain ⟨⟨requests', rfl⟩, hkeep⟩ := addPlaceholders_foldlM hown h
    refine ⟨⟨_, _, rfl⟩, fun r => ?_, fun hsync => ?_⟩
    · refine (hkeep.requests r).trans ?_
      rw [hget r, Option.map_map]
      rfl
    · exact absurd (hasync.symm.trans hsync) (by simp)
  next =>
    cases h
    refine ⟨⟨_, _, rfl⟩, fun r => ?_, fun _ => hget⟩
    rw [hget r, Option.map_map]
    rfl

end Scheduler

namespace Pass

variable {p : Pass ι η μ}

def atOutput (p : Pass ι η μ) : Scheduler ι η μ :=
  { p.sched with
    kvCacheManager := (commonPrefixBlocks p.sched).2
    prevStepScheduledReqIds := p.numScheduledTokens.keys
    encoderCacheManager := p.sched.encoderCacheManager.getFreedMmHashes.2 }

def output (p : Pass ι η μ) (new : List (NewRequestData ι μ)) (cached : CachedRequestData ι) : SchedulerOutput ι μ where
  scheduledNewReqs := new
  scheduledCachedReqs := cached
  numScheduledTokens := p.numScheduledTokens
  totalNumScheduledTokens := p.numScheduledTokens.values.sum
  scheduledSpecDecodeTokens := p.scheduledSpecDecodeTokens
  scheduledEncoderInputs := p.scheduledEncoderInputs
  numCommonPrefixBlocks := (commonPrefixBlocks p.sched).1
  preemptedReqIds := p.preemptedReqs
  finishedReqIds := p.sched.finishedReqIds
  freeEncoderMmHashes := p.sched.encoderCacheManager.getFreedMmHashes.1

variable [DecidableEq μ]

theorem finish_eq {out : SchedulerOutput ι μ} {s' : Scheduler ι η μ} (h : p.finish = .ok (out, s')) :
    p.checkConstraints = .ok () ∧ ∃ new cached,
      p.newAndResumed.1.mapM (p.withKv (commonPrefixBlocks p.sched).2).newRequestData = .ok new ∧
      (p.withKv (commonPrefixBlocks p.sched).2).makeCachedRequestData p.newAndResumed.2 = .ok cached ∧
      out = p.output new cached ∧ p.atOutput.updateAfterSchedule out = .ok s' := by
  obtain ⟨⟨⟩, hcheck, h⟩ := bind_eq_ok.1 h
  obtain ⟨new, hnew, h⟩ := bind_eq_ok.1 h
  obtain ⟨cached, hcached, h⟩ := bind_eq_ok.1 h
  obtain ⟨s, hs, h⟩ := bind_eq_ok.1 h
  cases h
  exact ⟨hcheck, new, cached, mapError_eq_ok.1 hnew, hcached, rfl, mapError_eq_ok.1 hs⟩

end Pass

variable [DecidableEq μ] in
theorem Pass.finish_sched {p : Pass ι η μ} {out : SchedulerOutput ι μ}
    {s' : Scheduler ι η μ} (hown : Owned p.sched.requests) (h : p.finish = .ok (out, s')) :
    (∃ requests cache, s' = { p.sched with
      requests := requests
      kvCacheManager := (commonPrefixBlocks p.sched).2
      encoderCacheManager := cache
      prevStepScheduledReqIds := p.numScheduledTokens.keys
      finishedReqIds := [] }) ∧
      (∀ r, (s'.requests.get? r).map Request.unpromised =
        (p.sched.requests.get? r).map fun q => (q.advanced ((p.numScheduledTokens.get? r).getD 0)).unpromised) ∧
      (p.sched.config.async = false → ∀ r, s'.requests.get? r =
        (p.sched.requests.get? r).map fun q => q.advanced ((p.numScheduledTokens.get? r).getD 0)) := by
  obtain ⟨-, new, cached, -, -, rfl, hupd⟩ := finish_eq h
  have hown' : Owned p.atOutput.requests := hown
  obtain ⟨⟨requests, cache, rfl⟩, hget, hsync⟩ := Scheduler.updateAfterSchedule_eq hown' hupd
  exact ⟨⟨_, _, rfl⟩, hget, hsync⟩

variable [DecidableEq η] [DecidableEq μ] in
theorem Scheduler.schedule_eq {s s' : Scheduler ι η μ}
    {env : Env ι} {out : SchedulerOutput ι μ} (h : s.schedule env = .ok (out, s')) :
    ∃ p, Pass.Reaches env (.init s) p .waiting ∧ p.putBack.finish = .ok (out, s') := by
  obtain ⟨e, he⟩ | ⟨p, -, -, he⟩ | ⟨p, hreach, he⟩ := schedule_reaches env s
  · rw [he] at h
    cases h
  · rw [he] at h
    cases h
  · exact ⟨p, hreach, he.symm.trans h⟩

/-! ### The stop check -/

section

omit [DecidableEq ι]

theorem stopStatus_isFinished {pooled : Bool} {st : RequestStatus}
    (h : stopStatus maxModelLen q pooled = .ok (some st)) : st.isFinished = true := by
  rw [stopStatus] at h
  split at h
  · split at h <;> cases h
    rfl
  · split at h
    · cases h
    · split at h
      · cases h
      · rw [Except.ok.injEq] at h
        split at h
        · exact some.inj h ▸ rfl
        · split at h
          · exact some.inj h ▸ rfl
          · split at h
            · exact some.inj h ▸ rfl
            · cases h

theorem stopStatus_congr {x : Request ι η μ} (hspec : x.toRequestSpec = q.toRequestSpec)
    (hout : x.outputTokenIds = q.outputTokenIds) (pooled : Bool) :
    stopStatus maxModelLen x pooled = stopStatus maxModelLen q pooled := by
  cases x
  cases q
  obtain rfl : _ = _ := hspec
  obtain rfl : _ = _ := hout
  rfl

theorem stopStatus_pooled {st : RequestStatus} (h : stopStatus maxModelLen q false = .ok (some st))
    (pooled : Bool) : stopStatus maxModelLen q pooled = .ok (some st) := by
  rw [stopStatus] at h ⊢
  split at h
  · cases h
  · exact h

theorem checkStop_cases {pooled stopped : Bool}
    (h : checkStop maxModelLen q pooled = .ok (q', stopped)) :
    stopped = false ∧ q' = q ∧ stopStatus maxModelLen q pooled = .ok none ∨
      stopped = true ∧ ∃ st, q' = { q with status := st } ∧ stopStatus maxModelLen q pooled = .ok (some st) := by
  obtain ⟨st, hst, h⟩ := bind_eq_ok.1 h
  cases st with
  | none =>
    cases h
    exact .inl ⟨rfl, rfl, hst⟩
  | some st =>
    cases h
    exact .inr ⟨rfl, st, rfl, hst⟩

end

variable {stopped : Bool}

omit [DecidableEq ι] in
theorem appendTokens_eq {ts new : List Token}
    (h : appendTokens maxModelLen q ts = .ok (q', new, stopped)) :
    new <+: ts ∧ ∃ st, q' = { q with outputTokenIds := q.outputTokenIds ++ new, status := st } ∧
      if stopped then ∃ x, stopStatus maxModelLen x false = .ok (some st) ∧
        x.toRequestSpec = q'.toRequestSpec ∧ x.outputTokenIds = q'.outputTokenIds
      else st = q.status ∧ new = ts := by
  induction ts generalizing q new with
  | nil =>
    cases h
    exact ⟨ nil_prefix, q'.status, by simp, rfl, rfl⟩
  | cons t ts ih =>
    obtain ⟨⟨q₁, b⟩, hcheck, h⟩ := bind_eq_ok.1 h
    rcases checkStop_cases hcheck with ⟨rfl, rfl, -⟩ | ⟨rfl, st, rfl, hst⟩
    · obtain ⟨⟨q₂, new', b⟩, hrest, h⟩ := bind_eq_ok.1 h
      cases h
      obtain ⟨hpre, st, rfl, hst⟩ := ih hrest
      refine ⟨cons_prefix_cons.2 ⟨rfl, hpre⟩, st, by simp, ?_⟩
      cases stopped with
      | true => exact hst
      | false => exact ⟨hst.1, congrArg _ hst.2⟩
    · cases h
      exact ⟨by simp, st, rfl, _, hst, rfl, rfl⟩

variable {async : Bool}

namespace Scheduler

variable {s s' : Scheduler ι η μ}

variable {invalid : List Nat} {q q' : Request ι η μ}
variable [DecidableEq η]

def Caches (kv kv' : KVCacheManager ι η) : Prop :=
  kv' = kv ∨ ∃ (q : Kv.Request ι η) (n : Nat), kv.cacheBlocks q n = some kv'

theorem cacheBlocks_caches {kv kv' : KVCacheManager ι η}
    {n : Int} (h : Pass.cacheBlocks kv q n = some kv') : Caches kv kv' := by
  rw [Pass.cacheBlocks] at h
  split at h
  · exact .inr ⟨_, _, h⟩
  · cases h
    exact .inl rfl

theorem updateRequestWithOutput_eq {ts : List Token}
    (h : s.updateRequestWithOutput q ts = .ok (s', q', stopped)) :
    ∃ kv x new, Caches s.kvCacheManager kv ∧ s' = { s with kvCacheManager := kv } ∧
      appendTokens s.config.maxModelLen q ts = .ok (x, new, stopped) ∧
      q' = { x with numOutputPlaceholders :=
        if s.config.async then x.numOutputPlaceholders - new.length else x.numOutputPlaceholders } := by
  obtain ⟨⟨x, new, b⟩, happ, h⟩ := bind_eq_ok.1 h
  simp only at h
  split at h
  next ha =>
    split at h
    · cases h
    · split at h
      · obtain ⟨kv, hkv, h⟩ := bind_eq_ok.1 h
        cases h
        exact ⟨kv, x, new, cacheBlocks_caches (orRaise_eq_ok.1 hkv), rfl, happ, by rw [if_pos ha]⟩
      · cases h
        exact ⟨_, x, new, .inl rfl, rfl, happ, by rw [if_pos ha]⟩
  next ha =>
    cases h
    exact ⟨_, _, new, .inl rfl, rfl, happ, by rw [if_neg ha]⟩

/-- `q` takes some of its sampled tokens and gets a status for which `ended`. -/
def Takes (s : Scheduler ι η μ) (res : ModelRunnerOutput ι) (q : Request ι η μ) (s' : Scheduler ι η μ)
    (q' : Request ι η μ)
    (ended : RequestStatus → Prop) : Prop :=
  (∃ kv, Caches s.kvCacheManager kv ∧ s' = { s with kvCacheManager := kv }) ∧
    ∃ new st placeholders, new <+: res.sampledTokenIds q.requestId ∧
      q' = { q with outputTokenIds := q.outputTokenIds ++ new, status := st, numOutputPlaceholders := placeholders } ∧
      (s.config.async = false → placeholders = q.numOutputPlaceholders) ∧ ended st

theorem applyOutput_spec {res : ModelRunnerOutput ι} (h : s.applyOutput res q = .ok (s', q', stopped)) :
    s.Takes res q s' q' fun st => if stopped then st.isFinished = true else st = q.status := by
  obtain ⟨⟨s₁, q₁, stopped₁⟩, h₁, h⟩ := bind_eq_ok.1 h
  -- what the tokens do
  have htokens : s.Takes res q s₁ q₁ fun st => if stopped₁ then st.isFinished = true ∧
    ∀ pooled, stopStatus s.config.maxModelLen q₁ pooled = .ok (some st)
      else st = q.status := by
    split at h₁
    · cases h₁
      exact ⟨⟨_, .inl rfl, rfl⟩, [], q.status, _, nil_prefix, by simp, fun _ => rfl, rfl⟩
    · obtain ⟨kv, x, new, hkv, rfl, happ, rfl⟩ := updateRequestWithOutput_eq h₁
      obtain ⟨hpre, st, rfl, hst⟩ := appendTokens_eq happ
      refine ⟨⟨kv, hkv, rfl⟩, new, st, _, hpre, rfl, fun ha => by simp [ha], ?_⟩
      cases stopped₁ with
      | false => exact hst.1
      | true =>
        obtain ⟨y, hy, hspec, hout⟩ := hst
        exact ⟨stopStatus_isFinished hy, fun pooled =>
          stopStatus_pooled ((stopStatus_congr hspec.symm hout.symm false).trans hy) pooled⟩
  obtain ⟨⟨kv, hkv, rfl⟩, new, st, placeholders, hpre, rfl, hph, hst⟩ := htokens
  rcases hpool : res.poolerOutput with - | pooled
  · simp only [hpool] at h
    cases h
    refine ⟨⟨kv, hkv, rfl⟩, new, st, placeholders, hpre, rfl, hph, ?_⟩
    cases stopped with
    | false => exact hst
    | true => exact hst.1
  · simp only [hpool] at h
    obtain ⟨⟨q₂, stopped₂⟩, hcheck, h⟩ := bind_eq_ok.1 h
    cases h
    rcases checkStop_cases hcheck with ⟨rfl, rfl, hnone⟩ | ⟨rfl, st', rfl, hst'⟩
    · refine ⟨⟨kv, hkv, rfl⟩, new, st, placeholders, hpre, rfl, hph, ?_⟩
      cases stopped₁ with
      | false => exact hst
      | true =>
        rw [hst.2] at hnone
        cases hnone
    · exact ⟨⟨kv, hkv, rfl⟩, new, st', placeholders, hpre, rfl, hph, stopStatus_isFinished hst'⟩

/-! ### Freeing requests -/

omit [DecidableEq η] in
theorem freeBlocks_eq (h : s.freeBlocks r = .ok s') : ∃ kv, s.kvCacheManager.free r = some kv ∧
    s' = { s with kvCacheManager := kv, requests := s.requests.pop r } := by
  obtain ⟨kv, hkv, h⟩ := bind_eq_ok.1 h
  cases h
  exact ⟨kv, orRaise_eq_ok.1 hkv, rfl⟩

variable [DecidableEq μ] in
omit [DecidableEq η] in
theorem freeRequest_eq {delay : ι → Bool} (h : s.freeRequest q delay = .ok s') :
    (∃ kv, s.kvCacheManager.free q.requestId = some kv ∧ s' = { s with
        kvCacheManager := kv
        requests := s.requests.pop q.requestId
        encoderCacheManager := s.encoderCacheManager.free q.toRequestSpec
        finishedReqIds := s.finishedReqIds.insert q.requestId }) ∨
      s.config.hasConnector = true ∧ s' = { s with
        requests := s.requests.set q.requestId q
        encoderCacheManager := s.encoderCacheManager.free q.toRequestSpec
        finishedReqIds := s.finishedReqIds.insert q.requestId } := by
  simp only [freeRequest] at h
  split at h
  next hc =>
    cases h
    exact .inr ⟨(Bool.and_eq_true _ _).mp hc |>.1, rfl⟩
  next =>
    obtain ⟨kv, hkv, rfl⟩ := freeBlocks_eq h
    refine .inl ⟨kv, hkv, ?_⟩
    simp [setRequest]

/-! ### update_from_output -/

/-- `q` without the drafts of the step that were rejected. -/
def verified (out : SchedulerOutput ι μ) (res : ModelRunnerOutput ι) (q : Request ι η μ) : Request ι η μ :=
  rejectDrafts q ((out.scheduledSpecDecodeTokens.get? q.requestId).getD []).length
    (res.sampledTokenIds q.requestId).length

structure Outputs (out : SchedulerOutput ι μ) (res : ModelRunnerOutput ι) (async : Bool)
    (q q' : Request ι η μ) : Prop where
  eq : ∃ new st placeholders, new <+: res.sampledTokenIds q.requestId ∧
    q' = { verified out res q with
      outputTokenIds := q.outputTokenIds ++ new, status := st, numOutputPlaceholders := placeholders } ∧
    (async = false → placeholders = (verified out res q).numOutputPlaceholders)

omit [DecidableEq η] in
theorem verified_eq (out : SchedulerOutput ι μ) (res : ModelRunnerOutput ι) (q : Request ι η μ) :
    ∃ computed placeholders,
    verified out res q = { q with numComputedTokens := computed, numOutputPlaceholders := placeholders } := by
  rw [verified, rejectDrafts]
  split
  · exact ⟨_, _, rfl⟩
  · exact ⟨_, _, rfl⟩

omit [DecidableEq η] in
theorem Outputs.spec {out : SchedulerOutput ι μ} {res : ModelRunnerOutput ι}
    (h : Outputs out res async q q') : q'.toRequestSpec = q.toRequestSpec := by
  obtain ⟨new, st, ph, -, rfl, -⟩ := h.eq
  obtain ⟨computed, ph', heq⟩ := verified_eq out res q
  rw [heq]

variable {out : SchedulerOutput ι μ} {res : ModelRunnerOutput ι} {delay : ι → Bool} {skipped : List ι}
  {u u' : Update ι η μ}
variable [DecidableEq μ]

theorem updateRequest_cases {e : ι × Int} (hown : Owned u.sched.requests)
    (h : updateRequest out res delay skipped u e = .ok u') :
    0 < e.2 ∧ (u' = u ∧ (e.1 ∈ skipped ∨ u.sched.requests.get? e.1 = none) ∨
      ∃ q q' kv, u.sched.requests.get? e.1 = some q ∧
      Caches u.sched.kvCacheManager kv ∧ Outputs out res u.sched.config.async q q' ∧
      (q'.status = q.status ∧ u' = { u with sched := { u.sched with kvCacheManager := kv }.setRequest q' } ∨
        q'.status.isFinished = true ∧ ∃ s', { u.sched with kvCacheManager := kv }.freeRequest q' delay = .ok s' ∧
          u' = if q.status = .running then { u with sched := s', stoppedRunning := u.stoppedRunning ++ [e.1] }
            else { u with sched := s', stoppedPreempted := u.stoppedPreempted ++ [e.1] })) := by
  obtain ⟨r, n⟩ := e
  simp only [updateRequest] at h
  split at h
  · cases h
  next hn =>
    refine ⟨by omega, ?_⟩
    split at h
    next hskip =>
      cases h
      exact .inl ⟨rfl, .inl hskip⟩
    next =>
      split at h
      next hnone =>
        cases h
        exact .inl ⟨rfl, .inr hnone⟩
      next q hq =>
        obtain rfl := hown r q hq
        obtain ⟨⟨s, q', stopped⟩, happ, h⟩ := bind_eq_ok.1 h
        replace happ : u.sched.applyOutput res (verified out res q) = .ok (s, q', stopped) := happ
        obtain ⟨computed, ph', heq⟩ := verified_eq out res q
        obtain ⟨⟨kv, hkv, rfl⟩, new, st, ph, hpre, hq', hph, hst⟩ := applyOutput_spec happ
        have hout : Outputs out res u.sched.config.async q q' := by
          refine ⟨new, st, ph, ?_, ?_, hph⟩
          · rw [heq] at hpre
            exact hpre
          · rw [hq', heq]
        refine .inr ⟨q, q', kv, hq, hkv, hout, ?_⟩
        rw [heq] at hq' hst
        cases stopped with
        | false =>
          cases h
          refine .inl ⟨?_, rfl⟩
          rw [hq']
          exact hst
        | true =>
          obtain ⟨s', hs', h⟩ := bind_eq_ok.1 h
          cases h
          refine .inr ⟨?_, s', hs', rfl⟩
          rw [hq']
          exact hst

end Scheduler

/-! ### Calls other than `schedule` -/

structure Request.Later (async : Bool) (q q' : Request ι η μ) : Prop where
  spec : q'.toRequestSpec = q.toRequestSpec
  status : q'.status = q.status ∨ q'.status.isFinished = true
  placeholders : async = false → q.numOutputPlaceholders = 0 → q'.numOutputPlaceholders = 0

omit [DecidableEq ι] in
theorem Request.Later.refl (async : Bool) (q : Request ι η μ) : q.Later async q := ⟨rfl, .inl rfl, fun _ h => h⟩

omit [DecidableEq ι] in
theorem Request.Later.trans {q'' : Request ι η μ} (h : q.Later async q') (h' : q'.Later async q'') :
    q.Later async q'' := by
  refine ⟨h'.spec.trans h.spec, ?_, fun ha hq => h'.placeholders ha (h.placeholders ha hq)⟩
  rcases h'.status with hst | hst
  · rw [hst]
    exact h.status
  · exact .inr hst

namespace Scheduler

variable {s s' s'' : Scheduler ι η μ}

variable {q q' : Request ι η μ}

structure Later (s s' : Scheduler ι η μ) : Prop where
  config : s'.config = s.config
  prev : s'.prevStepScheduledReqIds = s.prevStepScheduledReqIds
  running : s'.running.Sublist s.running
  requests : ∀ r q', s'.requests.get? r = some q' → ∃ q, s.requests.get? r = some q ∧ q.Later s.config.async q'

theorem Later.refl (s : Scheduler ι η μ) : Later s s := ⟨rfl, rfl, .refl _, fun _ q hq => ⟨q, hq, .refl _ q⟩⟩

theorem Later.trans (h : Later s s') (h' : Later s' s'') : Later s s'' := by
  refine ⟨h'.config.trans h.config, h'.prev.trans h.prev, h'.running.trans h.running, fun r q'' hq'' => ?_⟩
  obtain ⟨q', hq', hl'⟩ := h'.requests r q'' hq''
  obtain ⟨q, hq, hl⟩ := h.requests r q' hq'
  rw [h.config] at hl'
  exact ⟨q, hq, hl.trans hl'⟩

theorem Later.setRequest (h : Later s s') (hq : s.requests.get? q'.requestId = some q)
    (hl : q.Later s.config.async q') : Later s (s'.setRequest q') := by
  refine ⟨h.config, h.prev, h.running, fun r x hx => ?_⟩
  rw [Scheduler.setRequest, Dict.get?_set] at hx
  split at hx
  next hr =>
    cases hx
    rw [hr]
    exact ⟨q, hq, hl⟩
  next => exact h.requests r x hx

theorem Later.pop (h : Later s s') (r : ι) : Later s { s' with requests := s'.requests.pop r } := by
  refine ⟨h.config, h.prev, h.running, fun r' x hx => ?_⟩
  rw [Dict.get?_pop] at hx
  split at hx
  · cases hx
  · exact h.requests r' x hx

theorem Later.frame (h : Later s s') (hrun : s''.running.Sublist s'.running := by exact .refl _)
    (hcfg : s''.config = s'.config := by rfl)
    (hprev : s''.prevStepScheduledReqIds = s'.prevStepScheduledReqIds := by rfl)
    (hreq : s''.requests = s'.requests := by rfl) : Later s s'' :=
  ⟨hcfg.trans h.config, hprev.trans h.prev, hrun.trans h.running, by rw [hreq]; exact h.requests⟩

variable {out : SchedulerOutput ι μ} {res : ModelRunnerOutput ι} {delay : ι → Bool} {skipped : List ι}
  {u u' : Update ι η μ}

theorem Outputs.placeholders (h : Outputs out res async q q') (ha : async = false)
    (hq : q.numOutputPlaceholders = 0) : q'.numOutputPlaceholders = 0 := by
  obtain ⟨new, st, ph, -, rfl, hph⟩ := h.eq
  refine (hph ha).trans ?_
  rw [verified, rejectDrafts]
  split
  · exact hq
  · simp [hq]

theorem Later.owned (h : Later s s') (hs : Owned s.requests) : Owned s'.requests := fun r q' hq' => by
  obtain ⟨q, hq, hl⟩ := h.requests r q' hq'
  exact (congrArg RequestSpec.requestId hl.spec).trans (hs r q hq)

theorem mem_unfinished (hown : Owned s.requests) {ids : List ι} :
    q ∈ s.unfinished ids ↔ q.requestId ∈ ids ∧ s.requests.get? q.requestId = some q ∧ q.status.isFinished = false := by
  simp only [unfinished, mem_filter, mem_filterMap, mem_dedup, Request.isFinished, Bool.not_eq_true']
  constructor
  · rintro ⟨⟨r, hr, hq⟩, hfin⟩
    obtain rfl := hown r q hq
    exact ⟨hr, hq, hfin⟩
  · rintro ⟨hr, hq, hfin⟩
    exact ⟨⟨_, hr, hq⟩, hfin⟩

end Scheduler

end Xmix.Sched
