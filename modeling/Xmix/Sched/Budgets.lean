import Xmix.Sched.Queues

/-!
# Budgets

What holds in the course of `schedule`: the scheduled requests are running requests before the index
of the loop (`Listed`), and what is scheduled and what is left of the two budgets add up
(`Budgeted`). The index survives the removal of any victim because every scheduled request stays
before it.
-/

namespace Xmix.Sched

open List Option Dict
open Kv (KVCacheManager)

theorem mem_take_append {α : Type} {l l' : List α} {k : Nat} {a : α} (h : a ∈ l) (hk : l.length ≤ k) :
    a ∈ (l ++ l').take k := by
  rw [take_append, take_of_length_le hk]
  exact mem_append_left _ h

section
variable {α : Type} [DecidableEq α] {l : List α} {k : Nat} {a v : α}

theorem mem_take_erase_of_mem (hv : v ∈ l.take k) (h : a ∈ l.take k) (hne : a ≠ v) :
    a ∈ (l.erase v).take (k - 1) := by
  rw [← take_append_drop k l, erase_append_left _ hv]
  refine mem_take_append ((mem_erase_of_ne hne).2 h) ?_
  rw [length_erase_of_mem hv, length_take]
  omega

theorem mem_take_erase (h : a ∈ l.take k) (hne : a ≠ v) : a ∈ (l.erase v).take k := by
  by_cases hv : v ∈ l.take k
  · exact (take_sublist_take_left (Nat.sub_le k 1)).subset (mem_take_erase_of_mem hv h hne)
  · rw [← take_append_drop k l, erase_append_right _ hv]
    exact mem_take_append h (length_take_le k l)

end

variable {ι η μ : Type} [DecidableEq ι]

namespace Pass

variable {p p' : Pass ι η μ} {env : Env ι}

variable {budget n : Int} {plan : EncoderPlan ι μ} {q : Request ι η μ} {r : ι} {s' : Scheduler ι η μ}
  {y : Pass ι η μ × Phase ι η μ}

structure Listed (p : Pass ι η μ) : Prop where
  keys : p.numScheduledTokens.keys.Perm (p.scheduledRunningReqs ++ (p.scheduledNewReqs ++ p.scheduledResumedReqs))
  visited : ∀ r ∈ p.numScheduledTokens.keys, r ∈ p.sched.running.take p.reqIndex
  encoder : ∀ r, p.numScheduledTokens.get? r = none → p.scheduledEncoderInputs.get? r = none
  spec : ∀ r, p.numScheduledTokens.get? r = none → p.scheduledSpecDecodeTokens.get? r = none
  preempted : ∀ r ∈ p.preemptedReqs, r ∈ p.sched.waiting
  order : p.scheduledNewReqs ++ p.scheduledResumedReqs = [] ∨ p.sched.running.length ≤ p.reqIndex
  room : p.sched.running.length ≤ p.sched.config.maxNumRunningReqs
  /-- A request that waits to be resumed was not scheduled in the step before. -/
  prev : ∀ r q, p.sched.requests.get? r = some q → q.status = .preempted → r ∉ p.preemptedReqs →
    r ∉ p.sched.prevStepScheduledReqIds
  resumed : ∀ r ∈ p.scheduledResumedReqs, r ∉ p.sched.prevStepScheduledReqIds

def Turning (p : Pass ι η μ) : Phase ι η μ → Prop
  | .visiting q _ =>
    q.requestId ∈ p.sched.running.take (p.reqIndex + 1) ∧ p.numScheduledTokens.get? q.requestId = none ∧
    p.scheduledNewReqs ++ p.scheduledResumedReqs = [] ∧
    (p.sched.config.policy = .fcfs → p.sched.running[p.reqIndex]? = some q.requestId)
  | _ => True

theorem Listed.mem_running (h : Listed p) (hr : r ∈ p.numScheduledTokens.keys) : r ∈ p.sched.running :=
  mem_of_mem_take (h.visited r hr)

theorem Wf.running_nodup (h : p.Wf) : p.sched.running.Nodup := (nodup_append.1 h.nodup).1

omit [DecidableEq ι] in
theorem notMem_take_of_index {l : List ι} (hl : l.Nodup) {k : Nat} (h : l[k]? = some r) : r ∉ l.take k := fun hr => by
  obtain ⟨i, hi, hget⟩ := List.mem_take_iff_getElem.1 hr
  obtain ⟨hk, hget'⟩ := List.getElem?_eq_some_iff.1 h
  have := (hl.getElem_inj_iff).1 (hget.trans hget'.symm)
  omega

section
variable (h : Listed p)
include h

theorem Listed.get?_waits (hwf : p.Wf) (hq : p.sched.requests.get? r = some q) (hst : q.status ≠ .running) :
    p.numScheduledTokens.get? r = none :=
  get?_eq_none.2 fun hm => hst ((hwf.mem_running hq).1 (h.mem_running hm))

variable [DecidableEq μ] in
theorem Listed.turn (hwf : p.Wf) (ht : Turn env p r q plan) :
    q.requestId = r ∧ q.status = .running ∧ p.Turning (.visiting q plan) := by
  obtain rfl : q.requestId = r := hwf.own r q ht.request
  obtain ⟨q', hq', hst⟩ := hwf.get?_running (List.mem_of_getElem? ht.index)
  obtain rfl : q = q' := some.inj (ht.request.symm.trans hq')
  have hlt := (List.getElem?_eq_some_iff.1 ht.index).1
  refine ⟨rfl, hst, ?_, ?_, h.order.resolve_right (by omega), fun _ => ht.index⟩
  · rw [mem_take_iff_getElem]
    exact ⟨p.reqIndex, by omega, (List.getElem?_eq_some_iff.1 ht.index).2⟩
  · exact get?_eq_none.2 fun hmem => notMem_take_of_index hwf.running_nodup ht.index (h.visited _ hmem)

theorem Listed.unschedule {v : ι} {x : Request ι η μ}
    (hpre : Preempts p.sched s' v x) (hpol : p.sched.config.policy = .priority) (hmem : v ∈ p.scheduledRunningReqs)
    (ht : p.Turning (.visiting q plan)) :
    Listed { p.unschedule v with sched := s', preemptedReqs := p.preemptedReqs ++ [v] } ∧
      (v ≠ q.requestId →
        Turning { p.unschedule v with sched := s', preemptedReqs := p.preemptedReqs ++ [v] } (.visiting q plan)) := by
  obtain ⟨hq, hnone, hnew, -⟩ := ht
  have hkey : v ∈ p.numScheduledTokens.keys := h.keys.mem_iff.2 (mem_append_left _ hmem)
  have hbefore := h.visited v hkey
  have hidx : 0 < p.reqIndex := by
    rcases Nat.eq_zero_or_pos p.reqIndex with h0 | h0
    · simp [h0] at hbefore
    · exact h0
  have hnodup : p.numScheduledTokens.keys.Nodup := p.numScheduledTokens.nodup
  rw [Pass.unschedule, if_pos hmem]
  refine ⟨⟨?_, fun r hr => ?_, fun r hr => ?_, fun r hr => ?_, fun r hr => ?_, .inl hnew, ?_,
    fun r y hy hst hr => ?_, ?_⟩, fun hne => ⟨?_, ?_, hnew, ?_⟩⟩
  · rw [keys_pop, ← erase_append_left _ hmem]
    exact h.keys.erase v
  · rw [keys_pop, hnodup.mem_erase_iff] at hr
    rw [hpre.running]
    exact mem_take_erase_of_mem hbefore (h.visited r hr.2) hr.1
  · rw [get?_pop] at hr ⊢
    split
    · rfl
    next hne =>
      rw [if_neg hne] at hr
      exact h.encoder r hr
  · rw [get?_pop] at hr ⊢
    split
    · rfl
    next hne =>
      rw [if_neg hne] at hr
      exact h.spec r hr
  · exact hpre.preempted h.preempted r hr
  · rw [hpre.running, hpre.config]
    exact (erase_sublist.length_le).trans h.room
  · obtain ⟨hy, hr⟩ := hpre.get?_preempted hy hr
    rw [hpre.prev]
    exact h.prev r y hy hst hr
  · rw [hpre.prev]
    exact h.resumed
  · rw [hpre.running, Nat.sub_add_cancel hidx]
    exact mem_take_erase_of_mem ((take_sublist_take_left (Nat.le_succ _)).subset hbefore) hq (Ne.symm hne)
  · rw [get?_pop_of_ne (Ne.symm hne)]
    exact hnone
  · intro hfcfs
    rw [hpre.config, hpol] at hfcfs
    cases hfcfs

theorem Listed.drop {v : ι} {x : Request ι η μ} (hwf : p.Wf)
    (hpre : Preempts p.sched s' v x) (hcase : p.sched.config.policy = .priority ∧
      v ∉ p.scheduledRunningReqs ∨ p.sched.config.policy = .fcfs ∧ p.sched.running.getLast? = some v)
    (ht : p.Turning (.visiting q plan)) :
    Listed { p with sched := s', preemptedReqs := p.preemptedReqs ++ [v] } ∧ p.numScheduledTokens.get? v = none ∧
      (v ≠ q.requestId → Turning { p with sched := s', preemptedReqs := p.preemptedReqs ++ [v] }
        (.visiting q plan)) := by
  obtain ⟨hq, hnone, hnew, hidx⟩ := ht
  -- under FCFS the victim is the last of the running requests, and the one that is visited stands before it
  have hkey : v ∉ p.numScheduledTokens.keys := fun hkey => by
    rcases hcase with ⟨-, hmem⟩ | ⟨hpol, hlast⟩
    · rw [h.keys.mem_iff, hnew, append_nil] at hkey
      exact hmem hkey
    · have hlt := (List.getElem?_eq_some_iff.1 (hidx hpol)).1
      rw [getLast?_eq_getElem?] at hlast
      refine notMem_take_of_index hwf.running_nodup hlast ?_
      exact (take_sublist_take_left (by omega)).subset (h.visited v hkey)
  refine ⟨⟨h.keys, fun r hr => ?_, h.encoder, h.spec, hpre.preempted h.preempted, .inl hnew, ?_,
    fun r y hy hst hr => ?_, ?_⟩, get?_eq_none.2 hkey, fun hne => ⟨?_, hnone, hnew, fun hpol => ?_⟩⟩
  · rw [hpre.running]
    exact mem_take_erase (h.visited r hr) (fun hrv => hkey (hrv ▸ hr))
  · rw [hpre.running, hpre.config]
    exact (erase_sublist.length_le).trans h.room
  · obtain ⟨hy, hr⟩ := hpre.get?_preempted hy hr
    rw [hpre.prev]
    exact h.prev r y hy hst hr
  · rw [hpre.prev]
    exact h.resumed
  · rw [hpre.running]
    exact mem_take_erase hq (Ne.symm hne)
  · have hpol' : p.sched.config.policy = .fcfs := hpre.config ▸ hpol
    rcases hcase with ⟨hprio, -⟩ | ⟨-, hlast⟩
    · rw [hpol'] at hprio
      cases hprio
    · obtain ⟨l, hl⟩ := getLast?_eq_some_iff.1 hlast
      have hat := hidx hpol'
      have hv : v ∉ l := by
        have hnodup := hwf.running_nodup
        rw [hl, nodup_append] at hnodup
        exact fun hm => hnodup.2.2 v hm v (mem_singleton_self v) rfl
      rw [hpre.running, hl, erase_append_right _ hv]
      rw [hl, getElem?_append] at hat
      split at hat
      next hlt => rw [getElem?_append_left hlt, hat]
      next hge =>
        have hmem := mem_of_getElem? hat
        exact absurd (mem_singleton.1 hmem).symm hne

theorem Listed.frame (s' : Scheduler ι η μ) (hwait : p.preemptedReqs = [] ∨
      s'.waiting = p.sched.waiting := by exact .inr rfl) (hreq : ∀ r q, s'.requests.get? r = some q →
      q.status = .preempted → p.sched.requests.get? r = some q := by exact fun _ _ hq _ => hq)
    (hcfg : s'.config = p.sched.config := by rfl) (hrun : s'.running = p.sched.running := by rfl)
    (hprev : s'.prevStepScheduledReqIds = p.sched.prevStepScheduledReqIds := by rfl) :
    Listed { p with sched := s' } := by
  refine ⟨h.keys, ?_, h.encoder, h.spec, ?_, ?_, ?_, fun r q hq hst hr => ?_, ?_⟩
  · simp only [hrun]
    exact h.visited
  · rcases hwait with hnone | hwait
    · simp [hnone]
    · simp only [hwait]
      exact h.preempted
  · simp only [hrun]
    exact h.order
  · simp only [hrun, hcfg]
    exact h.room
  · simp only [hprev]
    exact h.prev r q (hreq r q hq hst) hst hr
  · simp only [hprev]
    exact h.resumed

end

theorem get?_ite_set_eq_none {ν : Type} {d : Dict ι ν}
    {k : ι} {v : ν} {c : Prop} [Decidable c] (hd : d.get? r = none) (hr : r ≠ k) :
    (if c then d else d.set k v).get? r = none := by
  split
  · exact hd
  · rw [get?_set_of_ne hr, hd]

variable [DecidableEq μ] in
theorem Listed.grant {blocks : List (List Nat)} (h : Listed p) (hvis : p.Visits (.visiting q plan))
    (ht : p.Turning (.visiting q plan)) (hs : p.scheduleRunning q blocks plan = .ok p') :
    Listed p' := by
  obtain ⟨hq, hnone, hnew, -⟩ := ht
  obtain ⟨cache, -, rfl⟩ := scheduleRunning_eq hs
  refine ⟨?_, fun r hr => ?_, fun r hr => ?_, fun r hr => ?_, h.preempted, .inl hnew, h.room,
    fun r y hy hst hr => ?_, h.resumed⟩
  · have hkeys := h.keys
    rw [hnew, append_nil] at hkeys
    rw [keys_set_of_none hnone, hnew, append_nil]
    exact hkeys.append_right _
  · rw [keys_set_of_none hnone, mem_append, mem_singleton] at hr
    rcases hr with hr | rfl
    · exact (take_sublist_take_left (Nat.le_succ _)).subset (h.visited r hr)
    · exact hq
  · obtain ⟨hne, hr⟩ := get?_set_eq_none.1 hr
    exact get?_ite_set_eq_none (h.encoder r hr) hne
  · obtain ⟨hne, hr⟩ := get?_set_eq_none.1 hr
    exact get?_ite_set_eq_none (h.spec r hr) hne
  · simp only [undrafted] at hy
    split at hy
    · exact h.prev r y hy hst hr
    · rw [get?_set] at hy
      split at hy
      · cases hy
        exact absurd (hvis.2.symm.trans hst) (by simp)
      · exact h.prev r y hy hst hr

variable [DecidableEq μ] in
theorem Listed.enter {c : Computed} (h : Listed p) (hwf : p.Wf) (hh : Head p q.requestId q)
    (hs : p.scheduleWaiting q c plan = .ok p') : Listed p' := by
  obtain ⟨-, hwaits, hcons⟩ := hwf.head hh
  have hnone := h.get?_waits hwf hh.request hwaits.1
  obtain ⟨cache, -, hst, rfl⟩ := scheduleWaiting_eq hs
  have hvisited := hh.allVisited
  refine ⟨?_, fun r hr => ?_, fun r hr => ?_, fun r hr => ?_, ?_, .inr ?_, ?_, fun r y hy hst hr => ?_, ?_⟩
  · rw [keys_set_of_none hnone]
    have hkeys := h.keys.append_right [q.requestId]
    simp only
    split
    · refine hkeys.trans ?_
      simp only [append_assoc]
      exact (perm_append_comm.append_left _).append_left _
    · simpa only [append_assoc] using hkeys
  · rw [keys_set_of_none hnone, mem_append] at hr
    rw [take_of_length_le (by simpa using hvisited), mem_append]
    exact hr.imp_left h.mem_running
  · obtain ⟨hne, hr⟩ := get?_set_eq_none.1 hr
    exact get?_ite_set_eq_none (h.encoder r hr) hne
  · exact h.spec r (get?_set_eq_none.1 hr).2
  · rw [hh.nonePreempted]
    simp
  · simpa using hvisited
  · have := h.room
    have := hh.room
    simp only [length_append, length_singleton]
    omega
  · rw [get?_set] at hy
    split at hy
    · cases hy
      cases hst
    · exact h.prev r y hy hst hr
  · intro r hr
    simp only at hr
    split at hr
    · exact h.resumed r hr
    next hwaiting =>
      rcases mem_append.1 hr with hr | hr
      · exact h.resumed r hr
      · rw [mem_singleton.1 hr]
        refine h.prev _ q hh.request (hst.resolve_left hwaiting) ?_
        rw [hh.nonePreempted]
        exact not_mem_nil

variable {x : Pass ι η μ × Phase ι η μ}

variable [DecidableEq η] [DecidableEq μ] in
theorem Step.listed (hstep : Step env x y) (hwf : x.1.Wf) (hvis : x.1.Visits x.2) (h : Listed x.1)
    (ht : x.1.Turning x.2) : Listed y.1 ∧ y.1.Turning y.2 := by
  cases hstep with
  | @skip p r q plan hturn hn =>
    have hframe := h.frame { p.sched with encoderCacheManager := plan.cache }
    refine ⟨⟨hframe.keys, fun r hr => ?_, hframe.encoder, hframe.spec, hframe.preempted, .inl ?_,
      hframe.room, hframe.prev, hframe.resumed⟩, trivial⟩
    · exact (take_sublist_take_left (Nat.le_succ _)).subset (hframe.visited r hr)
    · exact (h.turn hwf hturn).2.2.2.2.1
  | @visit p r q plan hturn hn =>
    exact ⟨h.frame _, (h.turn hwf hturn).2.2⟩
  | @evict p q plan kv v p₁ p' hslots hv he =>
    obtain ⟨s', x, hpre, ⟨hpol, hmem, rfl⟩ | ⟨hcase, rfl⟩⟩ := preempt_cases hwf hv he
    · obtain ⟨hl, hturn⟩ := h.unschedule hpre hpol hmem ht
      refine ⟨hl, ?_⟩
      split
      · trivial
      next hne => exact hturn hne
    · obtain ⟨hl, -, hturn⟩ := h.drop hwf hpre hcase ht
      refine ⟨hl, ?_⟩
      split
      · trivial
      next hne => exact hturn hne
  | @grant p q plan kv blocks p' hslots hs =>
    have hkv := h.frame { p.sched with kvCacheManager := kv }
    exact ⟨hkv.grant hvis ht hs, trivial⟩
  | loras => exact ⟨{ h with }, trivial⟩
  | @ready p r q p' hh hr =>
    obtain ⟨rfl, hst, -⟩ := hwf.head hh
    obtain rfl | ⟨-, kv, failed, recving, n, rfl⟩ := makeReady_eq hh.request hr
    · exact ⟨h, trivial⟩
    · refine ⟨h.frame _ (.inr rfl) fun r y hy hst => ?_, trivial⟩
      rw [get?_set] at hy
      split at hy
      · cases hy
        cases hst
      · exact hy
  | @aside p r q hh =>
    have hframe := h.frame { p.sched with waiting := p.sched.waiting.tail } (.inl hh.nonePreempted)
    exact ⟨{ hframe with }, trivial⟩
  | stop => exact ⟨h.frame _, trivial⟩
  | starve => exact ⟨h.frame _, trivial⟩
  | @load p r q c plan kv blocks hd ha =>
    have hframe :=
      h.frame (((p.withEncoder plan.cache).withKv kv).startLoad q).sched (.inl hd.nonePreempted) fun r y hy hst => by
      simp only [startLoad, setAside, Scheduler.setRequest] at hy
      rw [get?_set] at hy
      split at hy
      · cases hy
        cases hst
      · exact hy
    exact ⟨{ hframe with }, trivial⟩
  | @enter p r q c plan kv blocks p' hd ha hs =>
    obtain ⟨rfl, -, -⟩ := hwf.head hd.toHead
    have hkv := h.frame ((p.withEncoder plan.cache).withKv kv).sched
    have hh := hd.toHead
    exact ⟨hkv.enter hwf { hh with } hs, trivial⟩

/-! ### The budgets -/

def numKnown (q : Request ι η μ) : Int := q.numTokens + max 0 q.numOutputPlaceholders

def Schedulable (cfg : SchedulerConfig) (q : Request ι η μ) : Prop :=
  ∀ budget, 0 < budget → 0 ≤ numNewTokens cfg budget q

omit [DecidableEq ι] in
theorem numNewTokens_le (cfg : SchedulerConfig) (budget : Int) (q : Request ι η μ) :
    numNewTokens cfg budget q ≤ budget ∧ numNewTokens cfg budget q ≤
      q.numTokensWithSpec + q.numOutputPlaceholders - q.numComputedTokens := by
  have := capPrefill_le cfg (q.numTokensWithSpec + q.numOutputPlaceholders - q.numComputedTokens)
  simp only [numNewTokens]
  omega

def inputCost (requests : Dict ι (Request ι η μ)) (r : ι) (inputs : List Nat) : Int :=
  ((requests.get? r).map fun q => q.inputTokens inputs).getD 0

theorem inputCost_set {requests : Dict ι (Request ι η μ)} {q' : Request ι η μ} (hq : requests.get? r = some q)
    (hspec : q'.toRequestSpec = q.toRequestSpec) : inputCost (requests.set r q') = inputCost requests := by
  funext r' inputs
  rw [inputCost, inputCost, get?_set]
  split
  next hr => rw [hr, hq, map_some, map_some, hspec]
  next => rfl

structure Budgeted (p : Pass ι η μ) : Prop where
  tokens : (p.numScheduledTokens.sum fun _ n => n) + p.tokenBudget = p.sched.config.maxNumScheduledTokens
  nonneg : 0 ≤ p.tokenBudget
  encoder : p.scheduledEncoderInputs.sum (inputCost p.sched.requests) + p.encoderComputeBudget ≤
    p.sched.config.maxNumEncoderInputTokens
  encoderNonneg : 0 ≤ p.encoderComputeBudget
  ready : ∀ r q, p.sched.requests.get? r = some q → q.status = .running →
    p.numScheduledTokens.get? r = none → Schedulable p.sched.config q
  reach : ∀ r q n, p.sched.requests.get? r = some q → p.numScheduledTokens.get? r = some n →
    0 < n ∧ q.numComputedTokens + n - ((p.scheduledSpecDecodeTokens.get? r).getD []).length ≤ numKnown q

def Affords (p : Pass ι η μ) : Phase ι η μ → Prop
  | .visiting q plan => 0 < plan.numNewTokens ∧ plan.numNewTokens ≤ p.tokenBudget ∧
    q.numComputedTokens + plan.numNewTokens ≤ q.numTokensWithSpec + q.numOutputPlaceholders ∧
    0 ≤ plan.computeBudget ∧ plan.computeBudget + q.inputTokens plan.inputs ≤ p.encoderComputeBudget
  | _ => True

variable [DecidableEq μ] in
theorem planEncoder_within {s : Scheduler ι η μ} {numComputed : Int} (hn : 0 ≤ n) (hb : 0 ≤ budget)
    (h : s.planEncoder env q numComputed n budget = .ok plan) : plan.Within q.toRequestSpec n budget :=
  tryScheduleEncoderInputs_within hn hb (orRaise_eq_ok.1 h)

omit [DecidableEq ι] in
theorem sub_draftsIn_le (h : q.numComputedTokens + n ≤ q.numTokensWithSpec + q.numOutputPlaceholders) :
    q.numComputedTokens + n - (draftsIn q n).length ≤ numKnown q := by
  rw [draftsIn, length_take, numKnown]
  rw [Request.numTokensWithSpec] at h
  omega

theorem Budgeted.frame (h : Budgeted p) (s' : Scheduler ι η μ) (hcfg : s'.config = p.sched.config := by rfl)
    (hreq : s'.requests = p.sched.requests := by rfl) : Budgeted { p with sched := s' } := by
  refine ⟨?_, h.nonneg, ?_, h.encoderNonneg, ?_, ?_⟩
  · simp only [hcfg]
    exact h.tokens
  · simp only [hcfg, hreq]
    exact h.encoder
  · simp only [hcfg, hreq]
    exact h.ready
  · simp only [hreq]
    exact h.reach

theorem Budgeted.setIdle (h : Budgeted p) (s' : Scheduler ι η μ) (q' : Request ι η μ)
    (hq : p.sched.requests.get? r = some q) (hkey : p.numScheduledTokens.get? r = none)
    (hst' : q'.status ≠ .running) (hreq : s'.requests = p.sched.requests.set r q')
    (hspec : q'.toRequestSpec = q.toRequestSpec := by rfl)
    (hcfg : s'.config = p.sched.config := by rfl) : Budgeted { p with sched := s' } := by
  refine ⟨?_, h.nonneg, ?_, h.encoderNonneg, fun r' y hy hyst hr' => ?_, fun r' y n hy hn => ?_⟩
  · simp only [hcfg]
    exact h.tokens
  · simp only [hcfg, hreq, inputCost_set hq hspec]
    exact h.encoder
  · simp only [hcfg, hreq] at hy ⊢
    rw [get?_set] at hy
    split at hy
    · cases hy
      exact absurd hyst hst'
    · exact h.ready r' y hy hyst hr'
  · simp only [hreq] at hy
    have hne : r' ≠ r := fun hr => by
      rw [hr, hkey] at hn
      cases hn
    rw [get?_set_of_ne hne] at hy
    exact h.reach r' y n hy hn

theorem Budgeted.unschedule {v : ι} {x : Request ι η μ} (h : Budgeted p)
    (hpre : Preempts p.sched s' v x) (hmem : v ∈ p.scheduledRunningReqs) (ha : p.Affords (.visiting q plan)) :
    Budgeted { p.unschedule v with sched := s', preemptedReqs := p.preemptedReqs ++ [v] } ∧
      Affords { p.unschedule v with sched := s', preemptedReqs := p.preemptedReqs ++ [v] } (.visiting q plan) := by
  have hgiven : 0 ≤ (p.numScheduledTokens.get? v).getD 0 := by
    cases hn : p.numScheduledTokens.get? v with
    | none => exact Int.le_refl 0
    | some n => exact (h.reach v x n hpre.request hn).1.le
  -- the tokens of the inputs that are taken back
  have hcost : (((p.scheduledEncoderInputs.get? v).getD []).map fun i =>
    ((p.sched.requests.get? v).map fun q => (q.numEncoderTokens i : Int)).getD 0).sum =
      (p.scheduledEncoderInputs.get? v).elim 0 (inputCost p.sched.requests v) := by
    cases p.scheduledEncoderInputs.get? v with
    | none => rfl
    | some inputs =>
      rw [elim_some, inputCost, hpre.request]
      rfl
  have hrestored : 0 ≤ (p.scheduledEncoderInputs.get? v).elim 0 (inputCost p.sched.requests v) := by
    cases p.scheduledEncoderInputs.get? v with
    | none => exact Int.le_refl 0
    | some inputs =>
      rw [elim_some, inputCost, hpre.request]
      exact x.toRequestSpec.inputTokens_nonneg inputs
  rw [Pass.unschedule, if_pos hmem]
  have hother : ∀ r y, s'.requests.get? r = some y → r ≠ v → p.sched.requests.get? r = some y := fun r y hy hne => by
    rwa [hpre.requests, get?_set_of_ne hne] at hy
  refine ⟨⟨?_, ?_, ?_, ?_, fun r y hy hst hr => ?_, fun r y n hy hn => ?_⟩, ha.1, ?_, ha.2.2.1, ha.2.2.2.1, ?_⟩
  · have hsum := sum_pop (d := p.numScheduledTokens) (k := v) fun _ n => n
    have htokens := h.tokens
    rw [hpre.config]
    cases hn : p.numScheduledTokens.get? v <;>
      simp only [hn, elim_none, elim_some, getD_none, getD_some] at hsum ⊢ <;> omega
  · show 0 ≤ p.tokenBudget + (p.numScheduledTokens.get? v).getD 0
    have := h.nonneg
    omega
  · show (p.scheduledEncoderInputs.pop v).sum (inputCost s'.requests) + (p.encoderComputeBudget + _) ≤
      s'.config.maxNumEncoderInputTokens
    have hsum := sum_pop (d := p.scheduledEncoderInputs) (k := v) (inputCost p.sched.requests)
    have hencoder := h.encoder
    rw [hpre.requests, inputCost_set hpre.request (by rfl), hpre.config]
    omega
  · have := h.encoderNonneg
    show 0 ≤ p.encoderComputeBudget + _
    omega
  · rw [hpre.requests] at hy
    rw [hpre.config]
    rw [get?_set] at hy
    split at hy
    · cases hy
      cases hst
    next hne =>
      rw [get?_pop_of_ne hne] at hr
      exact h.ready r y hy hst hr
  · rw [get?_pop] at hn
    split at hn
    · cases hn
    next hne =>
      rw [get?_pop_of_ne hne]
      exact h.reach r y n (hother r y hy hne) hn
  · show plan.numNewTokens ≤ p.tokenBudget + (p.numScheduledTokens.get? v).getD 0
    have := ha.2.1
    omega
  · show plan.computeBudget + q.inputTokens plan.inputs ≤ p.encoderComputeBudget + _
    have := ha.2.2.2.2
    omega

theorem sum_inputCost_le {d : Dict ι (List Nat)} {requests : Dict ι (Request ι η μ)}
    {bound : Int} (hnone : d.get? q.requestId = none)
    (hq : requests.get? q.requestId = some q) (hsum : d.sum (inputCost requests) + budget ≤ bound)
    (hplan : plan.computeBudget + q.inputTokens plan.inputs ≤ budget) :
    (withInputs plan q.requestId d).sum (inputCost requests) + budgetAfter plan budget ≤ bound := by
  unfold withInputs budgetAfter
  split
  · exact hsum
  · have hcost : inputCost requests q.requestId plan.inputs = q.inputTokens plan.inputs := by
      rw [inputCost, hq, map_some, getD_some]
    rw [sum_set_of_none _ hnone, hcost]
    omega

omit [DecidableEq ι] in
theorem budgetAfter_nonneg (hb : 0 ≤ budget) (hplan : 0 ≤ plan.computeBudget) : 0 ≤ budgetAfter plan budget := by
  unfold budgetAfter
  split
  · exact hb
  · exact hplan

variable [DecidableEq μ]

theorem Budgeted.grant {blocks : List (List Nat)} (h : Budgeted p) (hl : Listed p)
    (hvis : p.Visits (.visiting q plan)) (ht : p.Turning (.visiting q plan)) (ha : p.Affords (.visiting q plan))
    (hs : p.scheduleRunning q blocks plan = .ok p') : Budgeted p' := by
  obtain ⟨-, hnone, -, -⟩ := ht
  obtain ⟨hpos, hle, hreach, hbudget, hcost⟩ := ha
  obtain ⟨cache, -, rfl⟩ := scheduleRunning_eq hs
  have hspec := hl.spec q.requestId hnone
  -- the request loses its draft tokens, and no more
  have hrequests : ∀ r y, (undrafted q p.sched.requests).get? r = some y →
      (r ≠ q.requestId ∧ p.sched.requests.get? r = some y) ∨
        r = q.requestId ∧ y.numComputedTokens = q.numComputedTokens ∧ numKnown y = numKnown q := by
    intro r y hy
    by_cases hr : r = q.requestId
    · refine .inr ⟨hr, ?_⟩
      subst hr
      unfold undrafted at hy
      split at hy
      · cases hvis.1.symm.trans hy
        exact ⟨rfl, rfl⟩
      · rw [get?_set_self] at hy
        cases hy
        exact ⟨rfl, rfl⟩
    · exact .inl ⟨hr, (get?_undrafted_of_ne hr _).symm.trans hy⟩
  have hinputs : inputCost (undrafted q p.sched.requests) = inputCost p.sched.requests := by
    unfold undrafted
    split
    · rfl
    · exact inputCost_set hvis.1 rfl
  refine ⟨?_, ?_, ?_, budgetAfter_nonneg h.encoderNonneg hbudget, fun r y hy hst hr => ?_, fun r y n hy hn => ?_⟩
  · have := h.tokens
    rw [sum_set_of_none _ hnone]
    simp only
    omega
  · show 0 ≤ p.tokenBudget - plan.numNewTokens
    omega
  · simp only [hinputs]
    exact sum_inputCost_le (hl.encoder _ hnone) hvis.1 h.encoder hcost
  · obtain ⟨hne, hr⟩ := get?_set_eq_none.1 hr
    obtain ⟨-, hy⟩ | ⟨hr', -⟩ := hrequests r y hy
    · exact h.ready r y hy hst hr
    · exact absurd hr' hne
  · obtain ⟨hne, hy⟩ | ⟨rfl, hcomputed, hknown⟩ := hrequests r y hy
    · rw [get?_set_of_ne hne] at hn
      simp only [withDrafts]
      split
      · exact h.reach r y n hy hn
      · rw [get?_set_of_ne hne]
        exact h.reach r y n hy hn
    · rw [get?_set_self] at hn
      cases hn
      rw [hcomputed, hknown]
      refine ⟨hpos, ?_⟩
      have hdrafts := sub_draftsIn_le hreach
      simp only [withDrafts]
      split
      next hnil =>
        rw [hnil] at hdrafts
        rw [hspec]
        exact hdrafts
      next =>
        rw [get?_set_self]
        exact hdrafts

theorem Budgeted.enter {c : Computed} (h : Budgeted p)
    (hl : Listed p) (hwf : p.Wf) (hh : Head p q.requestId q) (hn : n ≤ p.tokenBudget)
    (hn' : n ≤ q.numTokens - c.total) (hplan : plan.Within q.toRequestSpec n p.encoderComputeBudget)
    (hne : plan.numNewTokens ≠ 0) (hs : p.scheduleWaiting q c plan = .ok p') : Budgeted p' := by
  obtain ⟨-, hwaits, -⟩ := hwf.head hh
  have hnone := hl.get?_waits hwf hh.request hwaits.1
  obtain ⟨cache, -, -, rfl⟩ := scheduleWaiting_eq hs
  obtain ⟨⟨hpos, hle⟩, hspent, hbudget⟩ := hplan
  refine ⟨?_, ?_, ?_, budgetAfter_nonneg h.encoderNonneg hbudget, fun r y hy hst hr => ?_, fun r y m hy hm => ?_⟩
  · have := h.tokens
    rw [sum_set_of_none _ hnone]
    simp only
    omega
  · show 0 ≤ p.tokenBudget - plan.numNewTokens
    omega
  · rw [inputCost_set hh.request (by rfl)]
    exact sum_inputCost_le (hl.encoder _ hnone) hh.request h.encoder hspent.le
  · obtain ⟨hne, hr⟩ := get?_set_eq_none.1 hr
    rw [get?_set_of_ne hne] at hy
    exact h.ready r y hy hst hr
  · rw [get?_set] at hm hy
    split at hm
    next hr =>
      rw [if_pos hr] at hy
      cases hm
      cases hy
      rw [hr, hl.spec _ hnone]
      refine ⟨by omega, ?_⟩
      show c.total + plan.numNewTokens - ((none : Option (List Token)).getD []).length ≤ numKnown q
      rw [numKnown]
      omega
    next hr =>
      rw [if_neg hr] at hy
      exact h.reach r y m hy hm

variable [DecidableEq η]

theorem Step.budgeted (hstep : Step env x y) (hwf : x.1.Wf) (hvis : x.1.Visits x.2) (hl : Listed x.1)
    (ht : x.1.Turning x.2) (h : Budgeted x.1) (ha : x.1.Affords x.2) : Budgeted y.1 ∧ y.1.Affords y.2 := by
  cases hstep with
  | @skip p r q plan hturn hn =>
    have hframe := h.frame { p.sched with encoderCacheManager := plan.cache }
    exact ⟨{ hframe with }, trivial⟩
  | @visit p r q plan hturn hn =>
    obtain ⟨rfl, hst, -, hnone, -⟩ := hl.turn hwf hturn
    have hnonneg := h.ready q.requestId q hturn.request hst hnone p.tokenBudget hturn.budget
    have hplan : plan.Within q.toRequestSpec (numNewTokens p.sched.config p.tokenBudget q) p.encoderComputeBudget :=
      planEncoder_within hnonneg h.encoderNonneg hturn.planned
    obtain ⟨hle, hle'⟩ := numNewTokens_le p.sched.config p.tokenBudget q
    refine ⟨h.frame _, ?_, ?_, ?_, hplan.budget, hplan.spent.le⟩
    · have := hplan.tokens
      omega
    · exact hplan.tokens.2.trans hle
    · have := hplan.tokens
      omega
  | @evict p q plan kv v p₁ p' hslots hv he =>
    obtain ⟨s', x, hpre, ⟨hpol, hmem, rfl⟩ | ⟨hcase, rfl⟩⟩ := preempt_cases hwf hv he
    · obtain ⟨hb, haff⟩ := h.unschedule hpre hmem ha
      refine ⟨hb, ?_⟩
      split
      · trivial
      · exact haff
    · obtain ⟨-, hnone, -⟩ := hl.drop hwf hpre hcase ht
      have hset := h.setIdle s' _ hpre.request hnone (by simp) hpre.requests rfl hpre.config
      refine ⟨{ hset with }, ?_⟩
      split
      · trivial
      · exact ha
  | @grant p q plan kv blocks p' hslots hs =>
    have hlkv := hl.frame { p.sched with kvCacheManager := kv }
    have hkv := h.frame { p.sched with kvCacheManager := kv }
    exact ⟨hkv.grant hlkv hvis ht ha hs, trivial⟩
  | loras => exact ⟨{ h with }, trivial⟩
  | @ready p r q p' hh hr =>
    obtain ⟨rfl, hst, -⟩ := hwf.head hh
    obtain rfl | ⟨-, kv, failed, recving, n, rfl⟩ := makeReady_eq hh.request hr
    · exact ⟨h, trivial⟩
    · exact ⟨h.setIdle _ { q with status := .waiting, numComputedTokens := n } hh.request
        (hl.get?_waits hwf hh.request hst.1) (by simp) rfl, trivial⟩
  | @aside p r q hh =>
    have hframe := h.frame { p.sched with waiting := p.sched.waiting.tail }
    exact ⟨{ hframe with }, trivial⟩
  | stop => exact ⟨h.frame _, trivial⟩
  | starve => exact ⟨h.frame _, trivial⟩
  | @load p r q c plan kv blocks hd ha =>
    obtain ⟨rfl, hst, -⟩ := hwf.head hd.toHead
    have hset : Budgeted { p with sched := (((p.withEncoder plan.cache).withKv kv).startLoad q).sched } :=
      h.setIdle _ { q with status := .waitingForRemoteKvs } hd.request
        (hl.get?_waits hwf hd.request hst.1) (by simp) rfl
    exact ⟨{ hset with }, trivial⟩
  | @enter p r q c plan kv blocks p' hd hsync hs =>
    obtain ⟨rfl, -, -⟩ := hwf.head hd.toHead
    obtain ⟨n, hpos, hle, hle', hplan, hne⟩ := planWaiting_go hsync hd.planned
    have hlkv := hl.frame ((p.withEncoder plan.cache).withKv kv).sched
    have hkv := h.frame ((p.withEncoder plan.cache).withKv kv).sched
    have hh := hd.toHead
    exact ⟨hkv.enter hlkv hwf { hh with } hle hle'
      (planEncoder_within hpos.le h.encoderNonneg hplan) hne hs, trivial⟩

/-! ### The tokens of the requests -/

def tokensOf (q : Request ι η μ) : RequestSpec ι η μ × List Token × Int :=
  (q.toRequestSpec, q.outputTokenIds, q.numOutputPlaceholders)

theorem Step.requests {x : Pass ι η μ × Phase ι η μ} (hstep : Step env x y) (hwf : x.1.Wf) (hvis : x.1.Visits x.2) :
    (y.1.sched.config = x.1.sched.config ∧ y.1.sched.prevStepScheduledReqIds = x.1.sched.prevStepScheduledReqIds) ∧
      (y.1.sched.requests = x.1.sched.requests ∨ ∃ q q', x.1.sched.requests.get? q.requestId = some q ∧
        y.1.sched.requests = x.1.sched.requests.set q.requestId q' ∧ tokensOf q' = tokensOf q) := by
  cases hstep with
  | skip | visit | loras | stop | starve | aside => exact ⟨⟨rfl, rfl⟩, .inl rfl⟩
  | @evict p q plan kv v p₁ p' hslots hv he =>
    obtain ⟨s', x, hpre, hcase⟩ := preempt_cases hwf hv he
    obtain rfl := hwf.own v x hpre.request
    obtain ⟨-, hmem, rfl⟩ | ⟨-, rfl⟩ :=
      hcase <;> exact ⟨⟨hpre.config, hpre.prev⟩, .inr ⟨x, _, hpre.request, hpre.requests, rfl⟩⟩
  | @grant p q plan kv blocks p' hslots hs =>
    obtain ⟨cache, -, rfl⟩ := scheduleRunning_eq hs
    refine ⟨⟨rfl, rfl⟩, ?_⟩
    by_cases hspec : q.specTokenIds = []
    · exact .inl (if_pos hspec)
    · exact .inr ⟨q, _, hvis.1, if_neg hspec, rfl⟩
  | @ready p r' q p' hh hr =>
    obtain ⟨rfl, -, -⟩ := hwf.head hh
    obtain rfl | ⟨-, kv, failed, recving, n, rfl⟩ := makeReady_eq hh.request hr
    · exact ⟨⟨rfl, rfl⟩, .inl rfl⟩
    · exact ⟨⟨rfl, rfl⟩, .inr ⟨q, _, hh.request, rfl, rfl⟩⟩
  | @load p r' q c plan kv blocks hd ha =>
    obtain ⟨rfl, -, -⟩ := hwf.head hd.toHead
    exact ⟨⟨rfl, rfl⟩, .inr ⟨q, _, hd.request, rfl, rfl⟩⟩
  | @enter p r' q c plan kv blocks p' hd ha hs =>
    obtain ⟨rfl, -, -⟩ := hwf.head hd.toHead
    obtain ⟨cache, -, -, rfl⟩ := scheduleWaiting_eq hs
    exact ⟨⟨rfl, rfl⟩, .inr ⟨q, _, hd.request, rfl, rfl⟩⟩

theorem Step.tokens (hstep : Step env x y) (hwf : x.1.Wf) (hvis : x.1.Visits x.2) (r : ι) :
    (y.1.sched.requests.get? r).map tokensOf = (x.1.sched.requests.get? r).map tokensOf := by
  obtain ⟨-, heq | ⟨q, q', hq, heq, htok⟩⟩ := hstep.requests hwf hvis
  · rw [heq]
  · rw [heq]
    exact map_get?_set hq htok r

end Pass

/-! ### schedule -/

namespace Scheduler

variable {s s' : Scheduler ι η μ} {env : Env ι}

structure Steady (s : Scheduler ι η μ) : Prop where
  wf : s.Wf
  room : s.running.length ≤ s.config.maxNumRunningReqs
  prev : ∀ r q, s.requests.get? r = some q → q.status = .preempted → r ∉ s.prevStepScheduledReqIds
  placeholders : s.config.async = false → ∀ r q, s.requests.get? r = some q → q.numOutputPlaceholders = 0

def Ready (s : Scheduler ι η μ) : Prop :=
  ∀ r q, s.requests.get? r = some q → q.status = .running → Pass.Schedulable s.config q

theorem Steady.listed (h : s.Steady) : (Pass.init s).Listed where
  keys := .refl []
  visited := fun _ hr => (nomatch hr)
  encoder := fun _ _ => rfl
  spec := fun _ _ => rfl
  preempted := fun _ hr => (nomatch hr)
  order := .inl rfl
  room := h.room
  prev := fun r q hq hst _ => h.prev r q hq hst
  resumed := fun _ hr => (nomatch hr)

theorem Ready.budgeted (h : s.Ready) : (Pass.init s).Budgeted where
  tokens := Int.zero_add _
  nonneg := Int.natCast_nonneg _
  encoder := (Int.zero_add _).le
  encoderNonneg := Int.natCast_nonneg _
  ready := fun r q hq hst _ => h r q hq hst
  reach := fun _ _ _ _ hn => (nomatch hn)

structure Runs (s : Scheduler ι η μ) (p : Pass ι η μ) : Prop where
  config : p.sched.config = s.config
  prev : p.sched.prevStepScheduledReqIds = s.prevStepScheduledReqIds
  wf : p.Wf
  listed : p.Listed
  tokens : ∀ r, (p.sched.requests.get? r).map Pass.tokensOf = (s.requests.get? r).map Pass.tokensOf
  budgeted : s.Ready → p.Budgeted

/-- A request that is there was there before, with the same spec. -/
def SpecsFrom (requests requests' : Dict ι (Request ι η μ)) : Prop :=
  ∀ r q', requests'.get? r = some q' → ∃ q, requests.get? r = some q ∧ q.toRequestSpec = q'.toRequestSpec

theorem SpecsFrom.of_eq {requests requests' : Dict ι (Request ι η μ)} (h : ∀ r,
      (requests'.get? r).map Request.toRequestSpec = (requests.get? r).map Request.toRequestSpec) :
    SpecsFrom requests requests' := by
  intro r q' hq'
  have hr := h r
  rw [hq', map_some, eq_comm] at hr
  exact Option.map_eq_some_iff.1 hr

variable {p : Pass ι η μ}

theorem Runs.specs (h : s.Runs p) (r : ι) :
    (p.sched.requests.get? r).map Request.toRequestSpec = (s.requests.get? r).map Request.toRequestSpec := by
  have hr := congrArg (Option.map Prod.fst) (h.tokens r)
  rw [Option.map_map, Option.map_map] at hr
  exact hr

theorem Runs.back (h : s.Runs p) : SpecsFrom s.requests p.sched.requests := .of_eq h.specs

structure RunsAt (s : Scheduler ι η μ) (x : Pass ι η μ × Phase ι η μ) : Prop extends s.Runs x.1 where
  visits : x.1.Visits x.2
  turning : x.1.Turning x.2
  affords : s.Ready → x.1.Affords x.2

theorem Steady.runsAt (h : s.Steady) : s.RunsAt (.init s, .idle) where
  config := rfl
  prev := rfl
  wf := h.wf.init
  listed := h.listed
  tokens := fun _ => rfl
  budgeted := fun hs => hs.budgeted
  visits := trivial
  turning := trivial
  affords := fun _ => trivial

variable [DecidableEq η] [DecidableEq μ]

theorem RunsAt.step {x y : Pass ι η μ × Phase ι η μ} (h : s.RunsAt x) (hstep : Pass.Step env x y) : s.RunsAt y := by
  have hcfg := (hstep.requests h.wf h.visits).1
  have hwf := hstep.wf ⟨h.wf, h.visits⟩
  have hl := hstep.listed h.wf h.visits h.listed h.turning
  have hb := fun hs => hstep.budgeted h.wf h.visits h.listed h.turning (h.budgeted hs) (h.affords hs)
  exact {
    config := hcfg.1.trans h.config
    prev := hcfg.2.trans h.prev
    wf := hwf.1
    listed := hl.1
    tokens := fun r => (hstep.tokens h.wf h.visits r).trans (h.tokens r)
    budgeted := fun hs => (hb hs).1
    visits := hwf.2
    turning := hl.2
    affords := fun hs => (hb hs).2 }

theorem Steady.reaches {x : Phase ι η μ} (h : s.Steady) (hreach : Pass.Reaches env (.init s) p x) : s.Runs p :=
  (hreach.induction (I := fun p x => s.RunsAt (p, x)) h.runsAt fun _ _ hstep hx => hx.step hstep).toRuns

end Scheduler

end Xmix.Sched
