import Xmix.Sched.BudgetRuns

/-!
# LoRA adapters

A request is admitted if its adapter is one of those of the requests that are scheduled in the step,
or if there is room for one more. Running requests that the step skips keep their adapters and are
not counted, so that the assertion on `scheduled_loras` can fail in a later step. It cannot if every
adapter that runs belongs to some running request with work to do, or if the adapters of all
requests fit together.
-/

namespace Xmix.Sched

open List Option
open Kv (KVCacheManager)

variable {ι η μ : Type} [DecidableEq ι]

def adapterOf (requests : Dict ι (Request ι η μ)) (r : ι) : Option Nat :=
  (requests.get? r).bind fun q => q.loraRequest.map LoRARequest.loraIntId

def adapters (requests : Dict ι (Request ι η μ)) (rs : List ι) : List Nat := (rs.filterMap (adapterOf requests)).dedup

variable {ls : List Nat}

section
variable {requests requests' : Dict ι (Request ι η μ)} {rs rs' : List ι}

theorem mem_adapters {l : Nat} : l ∈ adapters requests rs ↔ ∃ r ∈ rs, adapterOf requests r = some l := by
  rw [adapters, mem_dedup, mem_filterMap]

theorem adapters_length_le (h : ∀ r ∈ rs, ∀ l, adapterOf requests r = some l → l ∈ ls) :
    (adapters requests rs).length ≤ ls.length := by
  refine (subperm_of_subset (nodup_dedup _) fun l hl => ?_).length_le
  obtain ⟨r, hr, hl⟩ := mem_adapters.1 hl
  exact h r hr l hl

theorem adapterOf_congr (r : ι)
    (h : (requests'.get? r).map Request.toRequestSpec = (requests.get? r).map Request.toRequestSpec) :
    adapterOf requests' r = adapterOf requests r := by
  have hr := congrArg (fun x : Option (RequestSpec ι η μ) => x.bind fun q => q.loraRequest.map LoRARequest.loraIntId) h
  simp only [bind_map] at hr
  exact hr

theorem adapterOf_set {r : ι} {q q' : Request ι η μ}
    (hq : requests.get? r = some q) (hspec : q'.toRequestSpec = q.toRequestSpec) :
    adapterOf (requests.set r q') = adapterOf requests :=
  funext fun r' => adapterOf_congr r' (map_get?_set hq hspec r')

end

variable [DecidableEq μ]

namespace Pass

variable {p p' : Pass ι η μ} {env : Env ι} {s : Scheduler ι η μ}

structure Adapted (p : Pass ι η μ) (m : Nat) : Prop where
  nodup : p.scheduledLoras.Nodup
  room : p.scheduledLoras.length ≤ m
  recorded : ∀ r ∈ p.numScheduledTokens.keys, ∀ l, adapterOf p.sched.requests r = some l → l ∈ p.scheduledLoras

def Records (s : Scheduler ι η μ) (m : Nat) (p : Pass ι η μ) : Phase ι η μ → Prop
  | .waiting => p.Adapted m
  | _ => p.scheduledNewReqs ++ p.scheduledResumedReqs = [] ∧ p.sched.running ⊆ s.running

variable {m : Nat}

theorem lorasExceeded_eq_false : lorasExceeded (some m) ls = false ↔ ls.length ≤ m := by
  simp [lorasExceeded]

theorem Adapted.enter {q : Request ι η μ} {c : Computed} {plan : EncoderPlan ι μ} (h : p.Adapted m)
    (hm : p.sched.config.maxLoras = some m) (hq : p.sched.requests.get? q.requestId = some q)
    (hlora : p.loraBlocked q.toRequestSpec = false) (hs : p.scheduleWaiting q c plan = .ok p') :
    p'.Adapted m := by
  obtain ⟨cache, -, -, rfl⟩ := scheduleWaiting_eq hs
  have hadd : p.addLora q.toRequestSpec = (q.loraRequest.map LoRARequest.loraIntId).elim
    p.scheduledLoras p.scheduledLoras.insert := by
    rw [addLora, hm]
    cases q.loraRequest <;> rfl
  have hself : adapterOf p.sched.requests q.requestId = q.loraRequest.map LoRARequest.loraIntId := by
    rw [adapterOf, hq]
    rfl
  have hspec : adapterOf (p.sched.requests.set q.requestId (admitted q c)) = adapterOf p.sched.requests :=
    adapterOf_set hq rfl
  refine ⟨?_, ?_, fun r hr l hl => ?_⟩
  · rw [hadd]
    cases q.loraRequest with
    | none => exact h.nodup
    | some l => exact h.nodup.insert
  · rw [hadd]
    cases hl : q.loraRequest with
    | none => exact h.room
    | some l =>
      simp only [loraBlocked, hm, hl, Bool.and_eq_false_iff, decide_eq_false_iff_not, not_not] at hlora
      show (p.scheduledLoras.insert l.loraIntId).length ≤ m
      by_cases hmem : l.loraIntId ∈ p.scheduledLoras
      · rw [insert_of_mem hmem]
        exact h.room
      · have hne := hlora.resolve_right hmem
        have := h.room
        rw [length_insert_of_not_mem hmem]
        omega
  · rw [hspec] at hl
    rw [hadd]
    by_cases hrq : r = q.requestId
    · rw [hrq, hself] at hl
      rw [hl]
      exact mem_insert_self
    · have hkey : r ∈ p.numScheduledTokens.keys := by
        rw [Dict.mem_keys, Dict.get?_set_of_ne hrq] at hr
        exact Dict.mem_keys.2 hr
      have hmem := h.recorded r hkey l hl
      cases q.loraRequest with
      | none => exact hmem
      | some l' => exact mem_insert_of_mem hmem

omit [DecidableEq μ] in
theorem Adapted.frame (h : p.Adapted m) (s' : Scheduler ι η μ)
    (hreq : adapterOf s'.requests = adapterOf p.sched.requests) :
    ({ p with sched := s' } : Pass ι η μ).Adapted m := by
  refine ⟨h.nodup, h.room, fun r hr l hl => ?_⟩
  simp only [hreq] at hl
  exact h.recorded r hr l hl

variable [DecidableEq η] in
theorem Step.records {x y : Pass ι η μ × Phase ι η μ} (hstep : Step env x y) (hwf : x.1.Wf) (hl : Listed x.1)
    (hm : x.1.sched.config.maxLoras = some m) (h : x.1.Records s m x.2) : y.1.Records s m y.2 := by
  cases hstep with
  | skip => exact h
  | visit => exact h
  | @evict p q plan kv v p₁ p' hslots hv he =>
    have hpass : p'.scheduledNewReqs ++ p'.scheduledResumedReqs = [] ∧ p'.sched.running ⊆ s.running := by
      obtain ⟨s', x, hpre, ⟨-, hmem, rfl⟩ | ⟨-, rfl⟩⟩ := preempt_cases hwf hv he
      · refine ⟨?_, ?_⟩
        · rw [unschedule, if_pos hmem]
          exact h.1
        · rw [hpre.running]
          exact fun r hr => h.2 (erase_subset hr)
      · refine ⟨h.1, ?_⟩
        rw [hpre.running]
        exact fun r hr => h.2 (erase_subset hr)
    split
    · exact hpass
    · exact hpass
  | @grant p q plan kv blocks p' hslots hs =>
    obtain ⟨cache, -, rfl⟩ := scheduleRunning_eq hs
    exact h
  | @loras p hex =>
    have hkeys := hl.keys
    rw [h.1, append_nil] at hkeys
    have hls : (if p.sched.config.maxLoras.isSome then p.runningLoras else p.scheduledLoras) =
      adapters p.sched.requests p.scheduledRunningReqs := by
      rw [show p.sched.config.maxLoras = some m from hm]
      rfl
    refine ⟨?_, ?_, fun r hr l hrl => ?_⟩
    · simp only [hls]
      exact nodup_dedup _
    · rw [show p.sched.config.maxLoras = some m from hm, lorasExceeded_eq_false] at hex
      simp only [hls]
      exact hex
    · simp only [hls]
      exact mem_adapters.2 ⟨r, hkeys.mem_iff.1 hr, hrl⟩
  | @ready p r q p' hh hr =>
    obtain ⟨rfl, hst, -⟩ := hwf.head hh
    obtain rfl | ⟨-, kv, failed, recving, n, rfl⟩ := makeReady_eq hh.request hr
    · exact h
    · refine Adapted.frame h _ (adapterOf_set hh.request ?_)
      rfl
  | @aside p r q hh =>
    have hframe := Adapted.frame h { p.sched with waiting := p.sched.waiting.tail } rfl
    exact ⟨hframe.nodup, hframe.room, hframe.recorded⟩
  | stop => exact Adapted.frame h _ rfl
  | starve => exact Adapted.frame h _ rfl
  | @load p r q c plan kv blocks hd ha =>
    obtain ⟨rfl, hst, -⟩ := hwf.head hd.toHead
    have hreq : adapterOf (((p.withEncoder plan.cache).withKv kv).startLoad q).sched.requests =
      adapterOf p.sched.requests := by
      refine adapterOf_set hd.request ?_
      rfl
    have hframe := Adapted.frame h _ hreq
    exact ⟨hframe.nodup, hframe.room, hframe.recorded⟩
  | @enter p r q c plan kv blocks p' hd ha hs =>
    obtain ⟨rfl, -, -⟩ := hwf.head hd.toHead
    have hkv : ((p.withEncoder plan.cache).withKv kv).Adapted m := Adapted.frame h _ rfl
    exact hkv.enter hm hd.request hd.lora hs

/-! ### Running requests with work to do -/

variable {q : Request ι η μ} {plan : EncoderPlan ι μ}

/-- The running loop schedules the request when it comes to it. -/
def Eager (cfg : SchedulerConfig) (q : Request ι η μ) : Prop :=
  q.hasEncoderInputs = false ∧ 0 < q.numTokensWithSpec + q.numOutputPlaceholders - q.numComputedTokens ∧
    0 < maxTotalTokens cfg q.toRequestSpec - 1 - q.numComputedTokens

instance (cfg : SchedulerConfig) (q : Request ι η μ) : Decidable (Eager cfg q) :=
  inferInstanceAs (Decidable (_ ∧ _ ∧ _))

omit [DecidableEq ι] [DecidableEq μ] in
theorem Eager.numNewTokens_pos {cfg : SchedulerConfig} {budget : Int} (h : Eager cfg q) (hb : 0 < budget) :
    0 < numNewTokens cfg budget q := by
  have hcap : 0 < capPrefill cfg (q.numTokensWithSpec + q.numOutputPlaceholders - q.numComputedTokens) := by
    rw [capPrefill]
    split
    next hlong => exact Int.natCast_pos.2 hlong.1
    · exact h.2.1
  exact lt_min (lt_min hcap hb) h.2.2

theorem Eager.plan_ne (h : Eager p.sched.config q) (hb : 0 < p.tokenBudget)
    (hplan : p.sched.planEncoder env q q.numComputedTokens (numNewTokens p.sched.config p.tokenBudget q)
      p.encoderComputeBudget = .ok plan) : plan.numNewTokens ≠ 0 := by
  rw [Scheduler.planEncoder, orRaise_eq_ok, tryScheduleEncoderInputs, if_pos (.inr h.1)] at hplan
  cases hplan
  exact (h.numNewTokens_pos hb).ne'

structure Swept (s : Scheduler ι η μ) (p : Pass ι η μ) : Prop where
  running : p.sched.running = s.running
  untouched : ∀ r, r ∉ p.scheduledRunningReqs → p.sched.requests.get? r = s.requests.get? r
  eager : ∀ i < p.reqIndex, ∀ r q, p.sched.running[i]? = some r → s.requests.get? r = some q → Eager s.config q →
    r ∈ p.scheduledRunningReqs

def Counted (p : Pass ι η μ) : Prop :=
  ∀ r ∈ p.sched.running, ∀ l, adapterOf p.sched.requests r = some l → l ∈ p.scheduledLoras

/-- As long as no request is preempted, the loop has scheduled every request with work to do that it
has come to; the waiting loop admits requests only when it has come to all of them. -/
def Sweeps (s : Scheduler ι η μ) (p : Pass ι η μ) : Phase ι η μ → Prop
  | .idle => p.preemptedReqs = [] → p.Swept s
  | .visiting q _ => p.preemptedReqs = [] → p.Swept s ∧ p.sched.running[p.reqIndex]? = some q.requestId
  | .waiting => (p.Waits → p.Counted) ∧ (p.sched.running ⊆ s.running ∨ p.Waits)

omit [DecidableEq μ] in
theorem Counted.frame (h : p.Counted) (s' : Scheduler ι η μ) (hrun : s'.running = p.sched.running)
    (hreq : adapterOf s'.requests = adapterOf p.sched.requests) : ({ p with sched := s' } : Pass ι η μ).Counted := by
  intro r hr l hl
  simp only [hrun, hreq] at hr hl
  exact h r hr l hl

theorem Counted.enter {c : Computed} (h : p.Counted) (hm : p.sched.config.maxLoras = some m)
    (hq : p.sched.requests.get? q.requestId = some q) (hs : p.scheduleWaiting q c plan = .ok p') : p'.Counted := by
  obtain ⟨cache, -, -, rfl⟩ := scheduleWaiting_eq hs
  intro r hr l hl
  have hspec : adapterOf (p.sched.requests.set q.requestId (admitted q c)) = adapterOf p.sched.requests :=
    adapterOf_set hq rfl
  rw [hspec] at hl
  show l ∈ p.addLora q.toRequestSpec
  rw [addLora, hm]
  rcases mem_append.1 hr with hr | hr
  · have hmem := h r hr l hl
    split
    · exact mem_insert_of_mem hmem
    · exact hmem
  · rw [mem_singleton.1 hr, adapterOf, hq, bind_some] at hl
    obtain ⟨lora, hlora, rfl⟩ := map_eq_some_iff.1 hl
    rw [hlora]
    exact mem_insert_self

variable [DecidableEq η]

theorem Step.sweeps {x y : Pass ι η μ × Phase ι η μ} (hstep : Step env x y) (hx : s.RunsAt x)
    (hm : s.config.maxLoras = some m) (hrec : x.1.Records s m x.2)
    (hcov : ∀ l ∈ adapters s.requests s.running, ∃ r ∈ s.running, ∃ q, s.requests.get? r = some q ∧
      q.loraRequest.map LoRARequest.loraIntId = some l ∧ Eager s.config q)
    (h : x.1.Sweeps s x.2) : y.1.Sweeps s y.2 := by
  cases hstep with
  | @skip p r q plan ht hn =>
    intro hnone
    obtain ⟨hrun, hsame, heager⟩ := h hnone
    refine ⟨hrun, hsame, fun i hi r' q' hr' hq' he => ?_⟩
    rcases Nat.lt_succ_iff_lt_or_eq.1 hi with hi | rfl
    · exact heager i hi r' q' hr' hq' he
    · cases ht.index.symm.trans hr'
      by_contra hno
      cases ht.request.symm.trans ((hsame r hno).trans hq')
      exact (show Eager p.sched.config q from hx.config ▸ he).plan_ne ht.budget ht.planned hn
  | @visit p r q plan ht hn =>
    intro hnone
    refine ⟨{ h hnone with }, ?_⟩
    rw [hx.wf.own r q ht.request]
    exact ht.index
  | @evict p q plan kv v p₁ p' hslots hv he =>
    have hsome : p'.preemptedReqs ≠ [] := by
      obtain ⟨q', kv', -, -, rfl⟩ := evict_eq he
      exact append_ne_nil_of_right_ne_nil _ (cons_ne_nil _ _)
    split
    · exact fun hnone => absurd hnone hsome
    · exact fun hnone => absurd hnone hsome
  | @grant p q plan kv blocks p' hslots hs =>
    obtain ⟨cache, -, rfl⟩ := scheduleRunning_eq hs
    intro hnone
    obtain ⟨⟨hrun, hsame, heager⟩, hindex⟩ := h hnone
    refine ⟨hrun, fun r hr => ?_, fun i hi r q' hr hq' he => ?_⟩
    · have hr' := not_or.1 (fun hor => hr (mem_append.2 hor))
      exact (get?_undrafted_of_ne (fun hrq => hr'.2 (mem_singleton.2 hrq)) _).trans (hsame r hr'.1)
    · rcases Nat.lt_succ_iff_lt_or_eq.1 hi with hi | rfl
      · exact mem_append_left _ (heager i hi r q' hr hq' he)
      · cases hindex.symm.trans hr
        exact mem_append_right _ (mem_singleton_self _)
  | @loras p hex =>
    refine ⟨fun hw r hr l hl => ?_, .inl hrec.2⟩
    obtain ⟨hrun, -, heager⟩ := h hw.nonePreempted
    have hmax : p.sched.config.maxLoras = some m := (congrArg SchedulerConfig.maxLoras hx.config).trans hm
    have hadapt : adapterOf p.sched.requests = adapterOf s.requests := funext fun r => adapterOf_congr r (hx.specs r)
    simp only [hadapt] at hl
    obtain ⟨r', hr', q', hq', hl', he⟩ := hcov l (mem_adapters.2 ⟨r, hrun ▸ hr, hl⟩)
    obtain ⟨i, hi⟩ := getElem?_of_mem hr'
    have hlt : i < p.reqIndex := by
      have := (List.getElem?_eq_some_iff.1 hi).1
      have hall : p.sched.running.length ≤ p.reqIndex := hw.allVisited
      rw [hrun] at hall
      omega
    have hmem : l ∈ adapters p.sched.requests p.scheduledRunningReqs := by
      refine mem_adapters.2 ⟨r', heager i hlt r' q' (hrun ▸ hi) hq' he, ?_⟩
      rw [hadapt, adapterOf, hq']
      exact hl'
    show l ∈ if p.sched.config.maxLoras.isSome then p.runningLoras else p.scheduledLoras
    rw [hmax]
    exact hmem
  | @ready p r q p' hh hr =>
    obtain ⟨rfl, -, -⟩ := hx.wf.head hh
    obtain rfl | ⟨-, kv, failed, recving, n, rfl⟩ := makeReady_eq hh.request hr
    · exact h
    · refine ⟨fun hw => (h.1 ⟨hw.nonePreempted, hw.allVisited⟩).frame _ rfl (adapterOf_set hh.request ?_),
        h.2.imp id fun hw => ⟨hw.nonePreempted, hw.allVisited⟩⟩
      rfl
  | aside hh | stop hh =>
    exact ⟨fun _ => (h.1 ⟨hh.nonePreempted, hh.allVisited⟩).frame _ rfl rfl, .inr ⟨hh.nonePreempted, hh.allVisited⟩⟩
  | starve hd =>
    exact ⟨fun _ => (h.1 ⟨hd.nonePreempted, hd.allVisited⟩).frame _ rfl rfl, .inr ⟨hd.nonePreempted, hd.allVisited⟩⟩
  | @load p r q c plan kv blocks hd ha =>
    obtain ⟨rfl, -, -⟩ := hx.wf.head hd.toHead
    refine ⟨fun _ => (h.1 ⟨hd.nonePreempted, hd.allVisited⟩).frame _ rfl (adapterOf_set hd.request ?_),
      .inr ⟨hd.nonePreempted, hd.allVisited⟩⟩
    rfl
  | @enter p r q c plan kv blocks p' hd ha hs =>
    have hwaits : p'.Waits := (Step.enter hd ha hs).waits
    obtain ⟨rfl, -, -⟩ := hx.wf.head hd.toHead
    have hmax : p.sched.config.maxLoras = some m := (congrArg SchedulerConfig.maxLoras hx.config).trans hm
    have hkv : ((p.withEncoder plan.cache).withKv kv).Counted := (h.1 ⟨hd.nonePreempted, hd.allVisited⟩).frame _ rfl rfl
    exact ⟨fun _ => hkv.enter hmax hd.request hs, .inr hwaits⟩

end Pass

/-! ### schedule -/

variable [DecidableEq η]

namespace Scheduler

variable {s s' : Scheduler ι η μ} {env : Env ι} {out : SchedulerOutput ι μ} {m : Nat}

def runningAdapters (s : Scheduler ι η μ) : List Nat := adapters s.requests s.running

theorem Steady.records {p : Pass ι η μ} {x : Phase ι η μ} (h : s.Steady) (hm : s.config.maxLoras = some m)
    (hreach : Pass.Reaches env (.init s) p x) : s.Runs p ∧ p.Records s m x := by
  have hinv := hreach.induction (I := fun p x => s.RunsAt (p, x) ∧ p.Records s m x) ⟨h.runsAt, rfl, fun _ hr => hr⟩
    fun x y hstep ⟨hx, hrec⟩ =>
      ⟨hx.step hstep, hstep.records hx.wf hx.listed ((congrArg SchedulerConfig.maxLoras hx.config).trans hm) hrec⟩
  exact ⟨hinv.1.toRuns, hinv.2⟩

omit [DecidableEq η] [DecidableEq μ] in
theorem Runs.adapterOf {p : Pass ι η μ} (h : s.Runs p) : adapterOf p.sched.requests = adapterOf s.requests :=
  funext fun r => adapterOf_congr r (h.specs r)

section
variable (h : s.Steady) (hm : s.config.maxLoras = some m)
include h hm

theorem Steady.scheduled_adapters (hs : s.schedule env = .ok (out, s')) :
    (adapters s'.requests out.numScheduledTokens.keys).length ≤ m ∧ adapterOf s'.requests = adapterOf s.requests := by
  obtain ⟨p, hreach, hfin⟩ := schedule_eq hs
  obtain ⟨hruns, hrec⟩ := h.records hm hreach
  obtain ⟨-, new, cached, -, -, rfl, -⟩ := Pass.finish_eq hfin
  have hback : p.putBack.sched.Wf := hruns.wf.putBack
  obtain ⟨⟨requests, cache, rfl⟩, hget, -⟩ := Pass.finish_sched hback.own hfin
  have hsame : Sched.adapterOf requests = Sched.adapterOf p.sched.requests := funext fun r => by
    refine adapterOf_congr r ?_
    have hr := congrArg (Option.map Request.toRequestSpec) (hget r)
    rw [Option.map_map, Option.map_map] at hr
    exact hr
  refine ⟨(adapters_length_le fun r hr l hl => ?_).trans hrec.room, hsame.trans hruns.adapterOf⟩
  rw [hsame] at hl
  exact hrec.recorded r hr l hl

/-- The adapters that run after a call fit if every adapter before it belongs to a running request with work to do. -/
theorem Steady.schedule_runningAdapters (hle : s.runningAdapters.length ≤ m)
    (hcov : ∀ l ∈ s.runningAdapters, ∃ r ∈ s.running, ∃ q, s.requests.get? r = some q ∧
      q.loraRequest.map LoRARequest.loraIntId = some l ∧ Pass.Eager s.config q)
    (hs : s.schedule env = .ok (out, s')) : s'.runningAdapters.length ≤ m := by
  obtain ⟨p, hreach, hfin⟩ := schedule_eq hs
  have hinv := hreach.induction (I := fun p x => s.RunsAt (p, x) ∧ p.Records s m x ∧ p.Sweeps s x)
    ⟨h.runsAt, ⟨rfl, fun _ hr => hr⟩, fun _ => ⟨rfl, fun _ _ => rfl, fun i hi => absurd hi (Nat.not_lt_zero i)⟩⟩
    fun x y hstep ⟨hx, hrec, hsw⟩ => ⟨hx.step hstep,
      hstep.records hx.wf hx.listed ((congrArg SchedulerConfig.maxLoras hx.config).trans hm) hrec,
        hstep.sweeps hx hm hrec hcov hsw⟩
  obtain ⟨hruns, hrec, hcount, hadmits⟩ := hinv
  obtain ⟨-, hsame⟩ := h.scheduled_adapters hm hs
  have hrun : s'.running = p.sched.running := by
    obtain ⟨⟨requests, cache, rfl⟩, -, -⟩ := Pass.finish_sched hruns.wf.putBack.own hfin
    rfl
  rcases hadmits with hsub | hw
  · refine (adapters_length_le fun r hr l hl => mem_adapters.2 ⟨r, hsub (hrun ▸ hr), hsame ▸ hl⟩).trans hle
  · refine (adapters_length_le fun r hr l hl => ?_).trans hrec.room
    refine hcount hw r (hrun ▸ hr) l ?_
    rw [hruns.toRuns.adapterOf, ← hsame]
    exact hl

theorem Steady.not_scheduledLoras (hle : s.runningAdapters.length ≤ m) :
    s.schedule env ≠ .error .scheduledLoras := by
  intro hs
  obtain ⟨e, he⟩ | ⟨p, hreach, hex, -⟩ | ⟨p, hreach, he⟩ := schedule_reaches env s
  · rw [he] at hs
    cases hs
  · obtain ⟨hruns, -, hsub⟩ := h.records hm hreach
    have hlen : (adapters p.sched.requests p.scheduledRunningReqs).length ≤ m := by
      refine (adapters_length_le fun r hr l hl => ?_).trans hle
      have hkey := hruns.listed.keys.mem_iff.2 (mem_append_left _ hr)
      rw [hruns.adapterOf] at hl
      exact mem_adapters.2 ⟨r, hsub (hruns.listed.mem_running hkey), hl⟩
    have hfine : lorasExceeded (some m) p.runningLoras = false := Pass.lorasExceeded_eq_false.2 hlen
    rw [Pass.Exceeds, hruns.config, hm, hfine] at hex
    cases hex
  · rw [he] at hs
    exact Pass.finish_ne_scheduledLoras hs

end

section

omit [DecidableEq η] [DecidableEq μ]

theorem runningAdapters_length_le (h : ∀ r ∈ s.running, ∀ l, Sched.adapterOf s.requests r = some l → l ∈ ls) :
    s.runningAdapters.length ≤ ls.length := adapters_length_le h

theorem Later.runningAdapters (h : Later s s') : s'.runningAdapters.length ≤ s.runningAdapters.length := by
  refine runningAdapters_length_le fun r hr l hl => mem_adapters.2 ⟨r, h.running.subset hr, ?_⟩
  obtain ⟨q', hq', hl⟩ := bind_eq_some_iff.1 hl
  obtain ⟨q, hq, hlater⟩ := h.requests r q' hq'
  rw [Sched.adapterOf, hq, bind_some, ← hlater.spec]
  exact hl

end

end Scheduler

/-! ### Runs -/

namespace Engine

variable {e e' : Engine ι η μ}

/-- Before a call of `schedule`, every adapter that runs belongs to a running request with work to
do, or the adapters of all requests fit. -/
def Covers (m : Nat) (e : Engine ι η μ) : Action ι η μ → Prop
  | .schedule _ => (adapters e.sched.requests e.sched.requests.keys).length ≤ m ∨
      ∀ l ∈ e.sched.runningAdapters, ∃ r ∈ e.sched.running, ∃ q, e.sched.requests.get? r = some q ∧
        q.loraRequest.map LoRARequest.loraIntId = some l ∧ Pass.Eager e.sched.config q
  | _ => True

theorem step_runningAdapters {a : Action ι η μ} {m : Nat}
    (h : e.sched.Steady) (hm : e.sched.config.maxLoras = some m) (ha : e.Fresh a)
    (hc : e.Covers m a) (hle : e.sched.runningAdapters.length ≤ m) (hstep : e.step a = some e') :
    e'.sched.runningAdapters.length ≤ m := by
  obtain ⟨q, rfl, rfl⟩ | ⟨env, out, rfl, hs, -⟩ | ⟨hchanges, -⟩ := step_changes h.wf hstep
  · refine (Scheduler.runningAdapters_length_le fun r hr l hl => mem_adapters.2 ⟨r, hr, ?_⟩).trans hle
    replace hl : adapterOf (e.sched.requests.set q.requestId q.new) r = some l := hl
    have hne : r ≠ q.requestId := fun hrq => by
      obtain ⟨x, hx, -⟩ := (h.wf.running r).1 hr
      rw [hrq, show e.sched.requests.get? q.requestId = none from ha] at hx
      cases hx
    rwa [adapterOf, Dict.get?_set_of_ne hne] at hl
  · rcases hc with hall | hcov
    · refine (Scheduler.runningAdapters_length_le fun r hr l hl => ?_).trans hall
      have hl' := (h.scheduled_adapters hm hs).2 ▸ hl
      obtain ⟨q, hq, -⟩ := bind_eq_some_iff.1 hl'
      exact mem_adapters.2 ⟨r, Dict.mem_keys.2 (by rw [hq]; rfl), hl'⟩
    · exact h.schedule_runningAdapters hm hle hcov hs
  · exact hchanges.later.runningAdapters.trans hle

/-- In every run whose steps cover the adapters that run, no call of `schedule` fails for its
adapters; and a schedule that is returned never uses too many. -/
theorem run_adapters {config : SchedulerConfig} {kv : KVCacheManager ι η} {size m : Nat} {as : List (Action ι η μ)}
    (hm : config.maxLoras = some m) (hsteps : Along step (fun e a => e.Fresh a ∧ e.Covers m a) (init config kv size) as)
    (hrun : runFrom step (init config kv size) as = some e) (env : Env ι) :
    e.sched.schedule env ≠ .error .scheduledLoras ∧
      ∀ out s', e.sched.schedule env = .ok (out, s') →
        (adapters s'.requests out.numScheduledTokens.keys).length ≤ m := by
  have hinv : e.sched.Steady ∧ e.sched.config.maxLoras = some m ∧ e.sched.runningAdapters.length ≤ m := by
    refine hsteps.invariant (I := fun e => e.sched.Steady ∧ e.sched.config.maxLoras = some m ∧
      e.sched.runningAdapters.length ≤ m)
      (fun s a s' h ha hstep => ?_) ⟨init_steady config kv size, hm, Nat.zero_le m⟩ hrun
    obtain ⟨hs, hcfg⟩ := step_steady h.1 ha.1 hstep
    exact ⟨hs, hcfg ▸ h.2.1, step_runningAdapters h.1 h.2.1 ha.1 ha.2 h.2.2 hstep⟩
  exact ⟨hinv.1.not_scheduledLoras hinv.2.1 hinv.2.2, fun out s' hs => (hinv.1.scheduled_adapters hinv.2.1 hs).1⟩

def loraRequest (r l : Nat) (hl : 0 < l) : RequestSpec Nat Nat Nat :=
  { Small.request r 3 with loraRequest := some ⟨l, hl⟩ }

def oneLora : SchedulerConfig := { Small.config with maxLoras := some 1 }

def coversCheck (e : Engine ι η μ) : Action ι η μ → Bool
  | .addRequest q => (e.sched.requests.get? q.requestId).isNone
  | .schedule _ =>
    e.sched.runningAdapters.all fun l => e.sched.running.any fun r => (e.sched.requests.get? r).any fun q =>
      decide (q.loraRequest.map LoRARequest.loraIntId = some l ∧ Pass.Eager e.sched.config q)
  | _ => true

omit [DecidableEq η] [DecidableEq μ] in
theorem covers_of_check {m : Nat} (e : Engine ι η μ) (a : Action ι η μ) (h : e.coversCheck a = true) :
    e.Fresh a ∧ e.Covers m a := by
  cases a with
  | addRequest q => exact ⟨isNone_iff_eq_none.1 h, trivial⟩
  | schedule env =>
    refine ⟨trivial, .inr fun l hl => ?_⟩
    obtain ⟨r, hr, hq⟩ := any_eq_true.1 (all_eq_true.1 h l hl)
    obtain ⟨q, hq, hfacts⟩ := (any_eq_true _ _).1 hq
    exact ⟨r, hr, q, hq, of_decide_eq_true hfacts⟩
  | _ => exact ⟨trivial, trivial⟩

def coveredRun : List (Action Nat Nat Nat) :=
  [.addRequest (loraRequest 0 1 Nat.one_pos), .addRequest (loraRequest 1 2 Nat.two_pos), .schedule Small.env,
    .updateFromOutput (Small.sampled [0]) fun _ => false, .schedule Small.env,
      .updateFromOutput (Small.sampled [0]) fun _ => false]

theorem coveredRun_adapters : ∃ e, runFrom step (init oneLora Small.manager 0) coveredRun = some e ∧
      e.sched.runningAdapters = [1] ∧
    e.sched.schedule Small.env ≠ .error .scheduledLoras := by
  obtain ⟨e, he⟩ := isSome_iff_exists.1 (show (runFrom step (init oneLora Small.manager 0) coveredRun).isSome from rfl)
  have hsteps := along_of_check (covers_of_check (m := 1))
    (show alongCheck step coversCheck (init oneLora Small.manager 0) coveredRun = true by decide +kernel)
  have hone : ((runFrom step (init oneLora Small.manager 0) coveredRun).any fun e =>
    e.sched.runningAdapters = [1]) = true := by decide +kernel
  rw [he, any_some, decide_eq_true_eq] at hone
  exact ⟨e, he, hone, (run_adapters rfl hsteps he Small.env).1⟩

def skippedRun : List (Action Nat Nat Nat) :=
  [.addRequest (loraRequest 0 1 Nat.one_pos), .addRequest (loraRequest 1 2 Nat.two_pos),
    .schedule Small.env, .schedule Small.env,
    .updateFromOutput (Small.sampled [0]) fun _ => false, .updateFromOutput (Small.sampled [1]) fun _ => false]

theorem skippedRun_fails : ∃ e, runFrom step (init oneLora Small.manager 0) skippedRun = some e ∧
      e.sched.schedule Small.env = .error .scheduledLoras := by
  obtain ⟨e, he⟩ := isSome_iff_exists.1 (show (runFrom step (init oneLora Small.manager 0) skippedRun).isSome from rfl)
  have hfail : ((runFrom step (init oneLora Small.manager 0) skippedRun).any fun e =>
      Except.error? (e.sched.schedule Small.env) = some .scheduledLoras) = true := by decide +kernel
  rw [he, any_some, decide_eq_true_eq] at hfail
  exact ⟨e, he, Except.error?_eq_some.1 hfail⟩

end Engine

end Xmix.Sched
