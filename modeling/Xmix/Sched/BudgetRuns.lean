import Xmix.Sched.Budgets
import Xmix.Sched.Moves

/-!
# What every run schedules

The assertions at the end of `schedule` and its output, from the invariants of the pass; and over
all runs of the engine.
-/

namespace Xmix.Sched

open Xmix.Except List Option
open Kv (KVCacheManager)

variable {ι η μ : Type} [DecidableEq ι] {f : Failure}

namespace Pass

variable {p : Pass ι η μ}

/-! ### The end of schedule -/

variable {resumed : Bool}

theorem cachedRequestData_error {d : CachedRequestData ι} {r : ι}
    (h : p.cachedRequestData resumed d r = .error f) :
    (∃ e, f = .raised e) ∨ f = .scheduledInPrevStep ∧ resumed = true ∧ r ∈ p.sched.prevStepScheduledReqIds := by
  rcases bind_eq_error.1 h with h | ⟨q, -, h⟩
  · exact .inl (mapError_raised h)
  rcases bind_eq_error.1 h with h | ⟨n, -, h⟩
  · exact .inl (mapError_raised h)
  rcases bind_eq_error.1 h with h | ⟨blocks, -, h⟩
  · exact .inl (mapError_raised h)
  by_cases hprev : (resumed && decide (r ∈ p.sched.prevStepScheduledReqIds)) = true
  · simp only [hprev, if_true] at h
    cases h
    simp only [Bool.and_eq_true, decide_eq_true_eq] at hprev
    exact .inr ⟨rfl, hprev⟩
  · simp only [hprev] at h
    cases h

theorem cachedRequestData_reqIds {d d' : CachedRequestData ι} {r : ι} (h : p.cachedRequestData resumed d r = .ok d') :
    d'.reqIds = d.reqIds ++ [r] := by
  obtain ⟨q, -, h⟩ := bind_eq_ok.1 h
  obtain ⟨n, -, h⟩ := bind_eq_ok.1 h
  obtain ⟨blocks, -, h⟩ := bind_eq_ok.1 h
  by_cases hprev : (resumed && decide (r ∈ p.sched.prevStepScheduledReqIds)) = true
  · simp only [hprev, if_true] at h
    cases h
  · simp only [hprev] at h
    cases h
    rfl

theorem cachedRequestData_foldlM {d d' : CachedRequestData ι} {rs : List ι}
    (h : rs.foldlM (p.cachedRequestData resumed) d = .ok d') : d'.reqIds = d.reqIds ++ rs := by
  induction rs generalizing d with
  | nil =>
    cases h
    rw [append_nil]
  | cons r rs ih =>
    rw [foldlM_cons] at h
    obtain ⟨d₁, hd₁, h⟩ := bind_eq_ok.1 h
    rw [ih h, cachedRequestData_reqIds hd₁, append_assoc, singleton_append]

theorem makeCachedRequestData_reqIds {resumed : List ι}
    {d : CachedRequestData ι} (h : p.makeCachedRequestData resumed = .ok d) :
    d.reqIds = p.scheduledRunningReqs ++ resumed := by
  obtain ⟨d₁, hd₁, h⟩ := bind_eq_ok.1 h
  rw [cachedRequestData_foldlM h, cachedRequestData_foldlM hd₁, nil_append]

theorem makeCachedRequestData_error {resumed : List ι} (h : p.makeCachedRequestData resumed = .error f) :
    (∃ e, f = .raised e) ∨ f = .scheduledInPrevStep ∧ ∃ r ∈ resumed, r ∈ p.sched.prevStepScheduledReqIds := by
  rcases bind_eq_error.1 h with h | ⟨d, -, h⟩
  · obtain ⟨d, r, -, h⟩ := foldlM_eq_error h
    rcases cachedRequestData_error h with hraised | ⟨-, hres, -⟩
    · exact .inl hraised
    · cases hres
  · obtain ⟨d, r, hmem, h⟩ := foldlM_eq_error h
    rcases cachedRequestData_error h with hraised | ⟨hf, -, hprev⟩
    · exact .inl hraised
    · exact .inr ⟨hf, r, hmem, hprev⟩

theorem newRequestData_reqId {r : ι} {d : NewRequestData ι μ} (h : p.newRequestData r = .ok d) : d.reqId = r := by
  obtain ⟨q, -, h⟩ := bind_eq_ok.1 h
  obtain ⟨blocks, -, h⟩ := bind_eq_ok.1 h
  cases h
  rfl

theorem mapM_newRequestData {rs : List ι} {ds : List (NewRequestData ι μ)} (h : rs.mapM p.newRequestData = .ok ds) :
    ds.map (fun d => d.reqId) = rs := by
  induction mapM_eq_ok.1 h with
  | nil => rfl
  | cons hx hrest ih => rw [map_cons, newRequestData_reqId hx, ih (mapM_eq_ok.2 hrest)]

theorem Budgeted.checkConstraints (h : Budgeted p) (hl : Listed p) : p.checkConstraints = .ok () := by
  have htokens : p.numScheduledTokens.values.sum + p.tokenBudget = p.sched.config.maxNumScheduledTokens := h.tokens
  have hnonneg := h.nonneg
  have hlen : p.numScheduledTokens.keys.length ≤ p.sched.running.length :=
    (subperm_of_subset p.numScheduledTokens.nodup fun r hr => hl.mem_running hr).length_le
  have hkeys := hl.keys.length_eq
  simp only [length_append] at hkeys
  rw [Pass.checkConstraints, if_neg (by omega), if_neg (by omega), if_neg (Nat.not_lt.2 hl.room), if_neg (by omega)]

theorem Listed.putBack (h : Listed p) : Listed p.putBack where
  keys := h.keys
  visited := h.visited
  encoder := h.encoder
  spec := h.spec
  preempted := fun r hr => (prependRequests_perm _ _).mem_iff.2 (mem_append_right _ (h.preempted r hr))
  order := h.order
  room := h.room
  prev := h.prev
  resumed := h.resumed

theorem Budgeted.putBack (h : Budgeted p) : Budgeted p.putBack := { h with }

variable [DecidableEq μ]

theorem finish_error (hf : p.finish = .error f) : p.checkConstraints = .error f ∨ (∃ e, f = .raised e) ∨
    f = .scheduledInPrevStep ∧ ∃ r ∈ p.scheduledResumedReqs, r ∈ p.sched.prevStepScheduledReqIds := by
  rcases bind_eq_error.1 hf with hf | ⟨⟨⟩, -, hf⟩
  · exact .inl hf
  rcases bind_eq_error.1 hf with hf | ⟨new, -, hf⟩
  · exact .inr (.inl (mapError_raised hf))
  rcases bind_eq_error.1 hf with hf | ⟨cached, -, hf⟩
  · refine .inr ((makeCachedRequestData_error hf).imp_right fun ⟨hf, r, hr, hprev⟩ => ⟨hf, r, ?_, hprev⟩)
    replace hr : r ∈ p.newAndResumed.2 := hr
    rw [newAndResumed] at hr
    split at hr
    · cases hr
    · exact hr
  rcases bind_eq_error.1 hf with hf | ⟨s', -, hf⟩
  · exact .inr (.inl (mapError_raised hf))
  · cases hf

theorem finish_ne_scheduledLoras : p.finish ≠ .error .scheduledLoras := by
  intro hf
  rcases finish_error hf with hf | ⟨e, he⟩ | ⟨he, -⟩
  · rw [checkConstraints] at hf
    split at hf
    · cases hf
    · split at hf
      · cases hf
      · split at hf
        · cases hf
        · split at hf <;> cases hf
  · cases he
  · cases he

theorem Budgeted.finish_error (h : Budgeted p) (hl : Listed p) (hf : p.finish = .error f) : ∃ e, f = .raised e := by
  rcases Pass.finish_error hf with hf | hraised | ⟨-, r, hr, hprev⟩
  · rw [h.checkConstraints hl] at hf
    cases hf
  · exact hraised
  · exact absurd hprev (hl.resumed r hr)

end Pass

namespace Scheduler

variable {s s' : Scheduler ι η μ} {env : Env ι} {out : SchedulerOutput ι μ}

/-- The schedule keeps to the budgets and to the running requests. -/
structure Respects (s s' : Scheduler ι η μ) (out : SchedulerOutput ι μ) : Prop where
  tokens : out.totalNumScheduledTokens = out.numScheduledTokens.values.sum ∧
    out.totalNumScheduledTokens ≤ s.config.maxNumScheduledTokens
  encoder : out.scheduledEncoderInputs.sum (Pass.inputCost s'.requests) ≤ s.config.maxNumEncoderInputTokens
  keys : out.numScheduledTokens.keys.Perm (out.scheduledNewReqs.map (fun d => d.reqId) ++
    out.scheduledCachedReqs.reqIds)
  running : ∀ r ∈ out.numScheduledTokens.keys, r ∈ s'.running
  room : s'.running.length ≤ s.config.maxNumRunningReqs
  preempted : ∀ r ∈ out.preemptedReqIds, r ∉ out.numScheduledTokens.keys
  known : ∀ r n, out.numScheduledTokens.get? r = some n → ∃ q q', s.requests.get? r = some q ∧
    s'.requests.get? r = some q' ∧ 0 < n ∧
    q'.numComputedTokens - ((out.scheduledSpecDecodeTokens.get? r).getD []).length ≤
      if s.config.async then Pass.numKnown q else q.numTokens

theorem inputCost_congr {requests requests' : Dict ι (Request ι η μ)} (h : ∀ r,
      (requests'.get? r).map Request.toRequestSpec = (requests.get? r).map Request.toRequestSpec) :
    Pass.inputCost requests' = Pass.inputCost requests := by
  funext r inputs
  have hr := congrArg (Option.map fun q : RequestSpec ι η μ => q.inputTokens inputs) (h r)
  rw [Option.map_map, Option.map_map] at hr
  exact congrArg (fun x : Option Int => x.getD 0) hr

variable [DecidableEq η] [DecidableEq μ]

theorem Steady.respects (h : s.Steady) (hready : s.Ready) (hs : s.schedule env = .ok (out, s')) :
    Respects s s' out := by
  obtain ⟨p, hreach, hfin⟩ := schedule_eq hs
  have hruns := h.reaches hreach
  have hl := hruns.listed
  have hb := hruns.budgeted hready
  obtain ⟨-, new, cached, hnew, hcached, rfl, -⟩ := Pass.finish_eq hfin
  have hback : p.putBack.sched.Wf := hruns.wf.putBack
  obtain ⟨⟨requests, cache, rfl⟩, hget, -⟩ := Pass.finish_sched hback.own hfin
  refine ⟨⟨rfl, ?_⟩, ?_, ?_, fun r hr => hl.mem_running hr, ?_, fun r hr hkey => ?_, fun r n hn => ?_⟩
  · have := hb.tokens
    have := hb.nonneg
    rw [← hruns.config]
    show (p.numScheduledTokens.sum fun _ n => n) ≤ _
    omega
  · have hcost : Pass.inputCost requests = Pass.inputCost p.sched.requests := inputCost_congr fun r => by
      have := congrArg (Option.map Request.toRequestSpec) (hget r)
      rw [Option.map_map, Option.map_map] at this
      exact this
    have := hb.encoder
    have := hb.encoderNonneg
    show p.scheduledEncoderInputs.sum (Pass.inputCost requests) ≤ _
    rw [hcost, ← hruns.config]
    omega
  · show p.numScheduledTokens.keys.Perm (new.map _ ++ cached.reqIds)
    rw [Pass.mapM_newRequestData hnew, Pass.makeCachedRequestData_reqIds hcached]
    refine hl.keys.trans ?_
    show (p.scheduledRunningReqs ++ (p.scheduledNewReqs ++ p.scheduledResumedReqs)).Perm
      (p.newAndResumed.1 ++ (p.scheduledRunningReqs ++ p.newAndResumed.2))
    rw [Pass.newAndResumed]
    split
    · rw [append_nil]
      exact perm_append_comm
    · rw [← append_assoc, ← append_assoc]
      exact perm_append_comm.append_right _
  · rw [← hruns.config]
    exact hl.room
  · exact hruns.wf.not_mem_waiting (hl.mem_running hkey) (mem_append_left _ (hl.preempted r hr))
  · replace hn : p.numScheduledTokens.get? r = some n := hn
    have hmem := hl.mem_running (Dict.mem_keys.2 (by rw [hn]; rfl))
    obtain ⟨q₁, hq₁, -⟩ := (hruns.wf.running r).1 hmem
    have hq := hruns.tokens r
    rw [hq₁, map_some, eq_comm, map_eq_some_iff] at hq
    obtain ⟨q, hq, htok⟩ := hq
    have hq' := hget r
    replace hq' : (requests.get? r).map Request.unpromised = (p.sched.requests.get? r).map _ := hq'
    rw [hq₁, map_some, map_eq_some_iff] at hq'
    obtain ⟨q', hq', heq⟩ := hq'
    obtain ⟨hpos, hle⟩ := hb.reach r q₁ n hq₁ hn
    refine ⟨q, q', hq, hq', hpos, ?_⟩
    have hcomputed : q'.numComputedTokens = q₁.numComputedTokens + n := by
      have := congrArg Request.numComputedTokens heq
      refine this.trans ?_
      show q₁.numComputedTokens + (p.numScheduledTokens.get? r).getD 0 = _
      rw [hn, Option.getD_some]
    have hout : q.outputTokenIds = q₁.outputTokenIds := congrArg (fun x => x.2.1) htok
    have hprompt : q.toRequestSpec = q₁.toRequestSpec := congrArg (fun x => x.1) htok
    have hph : q.numOutputPlaceholders = q₁.numOutputPlaceholders := congrArg (fun x => x.2.2) htok
    have hnum : q.numTokens = q₁.numTokens := by
      rw [Request.numTokens, Request.numTokens, Request.allTokenIds, Request.allTokenIds, hprompt, hout]
    rw [hcomputed]
    refine hle.trans ?_
    rw [Pass.numKnown, Pass.numKnown, hnum, hph]
    split
    · exact Int.le_refl _
    next hasync =>
      have := h.placeholders (Bool.eq_false_iff.2 hasync) r q hq
      rw [hph] at this
      rw [this]
      simp

theorem Steady.schedule_error (h : s.Steady) (hready : s.Ready) (hs : s.schedule env = .error f) :
    (∃ e, f = .raised e) ∨ f = .scheduledLoras := by
  obtain ⟨e, he⟩ | ⟨p, -, -, he⟩ | ⟨p, hreach, he⟩ := schedule_reaches env s
  · rw [he] at hs
    cases hs
    exact .inl ⟨e, rfl⟩
  · rw [he] at hs
    cases hs
    exact .inr rfl
  · have hruns := h.reaches hreach
    rw [he] at hs
    exact .inl ((hruns.budgeted hready).putBack.finish_error hruns.listed.putBack hs)

/-! ### Runs -/

theorem Steady.schedule (h : s.Steady) (hs : s.schedule env = .ok (out, s')) : s'.Steady ∧ s'.config = s.config := by
  have hwf := h.wf.schedule hs
  obtain ⟨p, hreach, hfin⟩ := schedule_eq hs
  have hruns := h.reaches hreach
  have hl := hruns.listed
  have hback : p.putBack.sched.Wf := hruns.wf.putBack
  obtain ⟨⟨requests, cache, rfl⟩, -, hsync⟩ := Pass.finish_sched hback.own hfin
  refine ⟨⟨hwf, hl.room, fun r q hq hst hkey => ?_, fun hasync r q hq => ?_⟩, hruns.config⟩
  · have hrun := (hwf.mem_running hq).1 (hl.mem_running hkey)
    rw [hst] at hrun
    cases hrun
  · rw [hsync hasync r] at hq
    obtain ⟨q₁, hq₁, rfl⟩ := map_eq_some_iff.1 hq
    have htok := hruns.tokens r
    replace hq₁ : p.sched.requests.get? r = some q₁ := hq₁
    rw [hq₁, map_some, eq_comm, map_eq_some_iff] at htok
    obtain ⟨q₀, hq₀, htok⟩ := htok
    have hph : q₀.numOutputPlaceholders = q₁.numOutputPlaceholders := congrArg (fun x => x.2.2) htok
    replace hasync : p.sched.config.async = false := hasync
    rw [hruns.config] at hasync
    exact hph.symm.trans (h.placeholders hasync r q₀ hq₀)

section

omit [DecidableEq η] [DecidableEq μ]

theorem Steady.later (h : s.Steady) (hl : Later s s') (hwf : s'.Wf) : s'.Steady := by
  refine ⟨hwf, ?_, fun r q' hq' hst => ?_, fun hasync r q' hq' => ?_⟩
  · rw [hl.config]
    exact hl.running.length_le.trans h.room
  · obtain ⟨q, hq, hlater⟩ := hl.requests r q' hq'
    rw [hl.prev]
    rcases hlater.status with heq | hfin
    · exact h.prev r q hq (heq.symm.trans hst)
    · rw [hst] at hfin
      cases hfin
  · obtain ⟨q, hq, hlater⟩ := hl.requests r q' hq'
    rw [hl.config] at hasync
    exact hlater.placeholders hasync (h.placeholders hasync r q hq)

theorem Steady.addRequest {q : RequestSpec ι η μ} (h : s.Steady)
    (hq : s.requests.get? q.requestId = none) : (s.addRequest q).Steady := by
  refine ⟨h.wf.addRequest hq, h.room, fun r q' hq' hst => ?_, fun hasync r q' hq' => ?_⟩
  · replace hq' : (s.requests.set q.requestId q.new).get? r = some q' := hq'
    rw [Dict.get?_set] at hq'
    split at hq'
    · cases hq'
      replace hst : (if q.useStructuredOutput then RequestStatus.waitingForFsm else .waiting) = .preempted := hst
      split at hst <;> cases hst
    · exact h.prev r q' hq' hst
  · replace hq' : (s.requests.set q.requestId q.new).get? r = some q' := hq'
    rw [Dict.get?_set] at hq'
    split at hq'
    · cases hq'
      rfl
    · exact h.placeholders hasync r q' hq'

end

end Scheduler

namespace Engine

variable {e e' : Engine ι η μ}

theorem init_steady (config : SchedulerConfig) (kv : KVCacheManager ι η) (size : Nat) :
    (init config kv size : Engine ι η μ).sched.Steady :=
  ⟨init_wf config kv size, Nat.zero_le _, fun _ _ hq => (nomatch hq), fun _ _ _ hq => (nomatch hq)⟩

variable [DecidableEq η] [DecidableEq μ]

theorem step_steady {a : Action ι η μ} (h : e.sched.Steady) (ha : e.Fresh a) (hstep : e.step a = some e') :
    e'.sched.Steady ∧ e'.sched.config = e.sched.config := by
  obtain ⟨q, rfl, rfl⟩ | ⟨env, out, rfl, hs, -⟩ | ⟨hchanges, -⟩ := step_changes h.wf hstep
  · exact ⟨h.addRequest ha, rfl⟩
  · exact h.schedule hs
  · exact ⟨h.later hchanges.later (hchanges.moves.wf h.wf), hchanges.later.config⟩

theorem run_steady {config : SchedulerConfig} {kv : KVCacheManager ι η}
    {size : Nat} {as : List (Action ι η μ)} (hfresh : Along step Fresh (init config kv size) as)
    (hrun : runFrom step (init config kv size) as = some e) : e.sched.Steady :=
  hfresh.invariant (I := fun e => e.sched.Steady) (fun _ _ _ h ha hstep => (step_steady h ha hstep).1)
    (init_steady config kv size) hrun

/-- A request that is not finished stands in one queue, once. -/
theorem run_queued {config : SchedulerConfig} {kv : KVCacheManager ι η} {size : Nat} {as : List (Action ι η μ)}
    (hfresh : Along step Fresh (init config kv size) as) (hrun : runFrom step (init config kv size) as = some e) :
    (e.sched.running ++ e.sched.waiting).Nodup ∧ e.sched.running.length ≤ e.sched.config.maxNumRunningReqs ∧
      ∀ r, r ∈ e.sched.running ++ e.sched.waiting ↔ ∃ q, e.sched.requests.get? r = some q ∧ q.isFinished = false := by
  have h := run_steady hfresh hrun
  refine ⟨h.wf.nodup, h.room, fun r => ?_⟩
  rw [mem_append, h.wf.running, h.wf.waiting, ← exists_or]
  refine exists_congr fun q => ?_
  rw [← and_or_left, Request.isFinished, RequestStatus.IsWaiting]
  refine and_congr_right fun _ => ?_
  by_cases hst : q.status = .running <;> simp [hst, RequestStatus.isFinished]

/-- After every run, a call of `schedule` ends without a failed assertion on its budgets and with a
schedule within them. -/
theorem run_schedule_respects {config : SchedulerConfig} {kv : KVCacheManager ι η}
    {size : Nat} {as : List (Action ι η μ)} (hfresh : Along step Fresh (init config kv size) as)
    (hrun : runFrom step (init config kv size) as = some e) (hready : e.sched.Ready) (env : Env ι) :
    (∀ f, e.sched.schedule env = .error f → (∃ x, f = .raised x) ∨ f = .scheduledLoras) ∧
      ∀ out s', e.sched.schedule env = .ok (out, s') → Scheduler.Respects e.sched s' out :=
  ⟨fun _ hf => (run_steady hfresh hrun).schedule_error hready hf,
    fun _ _ hs => (run_steady hfresh hrun).respects hready hs⟩

def readyCheck (s : Scheduler ι η μ) : Bool :=
  s.requests.entries.all fun x => 0 ≤ x.2.numTokensWithSpec + x.2.numOutputPlaceholders - x.2.numComputedTokens &&
    decide (x.2.numComputedTokens < Pass.maxTotalTokens s.config x.2.toRequestSpec)

omit [DecidableEq η] [DecidableEq μ] in
theorem ready_of_check {s : Scheduler ι η μ} (h : readyCheck s = true) : s.Ready := by
  intro r q hq _ budget hb
  have := all_eq_true.1 h (r, q) (Dict.get?_eq_some.1 hq)
  simp only [Bool.and_eq_true, decide_eq_true_eq] at this
  simp only [Pass.numNewTokens, Pass.capPrefill]
  split <;> omega

def smallRun : List (Action Nat Nat Nat) :=
  [.addRequest (Small.request 0 3), .addRequest (Small.request 1 3), .schedule Small.env,
    .updateFromOutput (Small.sampled [0, 1]) fun _ => false]

theorem smallRun_fresh : Along step Fresh (init Small.config Small.manager 0) smallRun :=
  fun _ h => ⟨rfl, fun _ _ => ⟨by cases h; rfl, fun _ _ => ⟨trivial, fun _ _ => ⟨trivial, trivial⟩⟩⟩⟩

theorem smallRun_queued : ∃ e, runFrom step (init Small.config Small.manager 0) smallRun = some e ∧
      (e.sched.running ++ e.sched.waiting).Nodup :=
  ⟨_, rfl, (run_queued smallRun_fresh rfl).1⟩

theorem smallRun_respects : ∃ e, runFrom step (init Small.config Small.manager 0) smallRun = some e ∧ e.sched.Ready ∧
    ∃ out s', e.sched.schedule Small.env = .ok (out, s') ∧ out.totalNumScheduledTokens = 2 ∧
      Scheduler.Respects e.sched s' out := by
  obtain ⟨e, he⟩ :=
    isSome_iff_exists.1 (show (runFrom step (init Small.config Small.manager 0) smallRun).isSome from rfl)
  have hcheck : ((runFrom step (init Small.config Small.manager 0) smallRun).all fun e => readyCheck e.sched) =
    true := by decide +kernel
  have htotal : ((runFrom step (init Small.config Small.manager 0) smallRun).any fun e =>
      (e.sched.schedule Small.env).toOption.any fun x => x.1.totalNumScheduledTokens = 2) = true := by decide +kernel
  rw [he, all_some] at hcheck
  rw [he, Option.any_some, Option.any_eq_true] at htotal
  have hready := ready_of_check hcheck
  obtain ⟨⟨out, s'⟩, hs, hout⟩ := htotal
  have hs' := toOption_eq_some.1 hs
  exact ⟨e, he, hready, out, s', hs', of_decide_eq_true hout,
    (run_schedule_respects smallRun_fresh he hready Small.env).2 out s' hs'⟩

end Engine

end Xmix.Sched
