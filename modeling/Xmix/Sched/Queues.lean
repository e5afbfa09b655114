import Xmix.Sched.Calls

/-!
# The queues and the statuses

A request is in the running list exactly if its status is `RUNNING`, and in the waiting queue exactly if it is neither
running nor finished (`Queues`). Every step of `schedule` and every call of the scheduler preserve this.
-/

namespace Xmix.Sched

open Xmix.Except
open Kv (KVCacheManager)
open List hiding beq_eq_decide

variable {ι η μ : Type} [DecidableEq ι]

def RequestStatus.IsWaiting (st : RequestStatus) : Prop := st ≠ .running ∧ st.isFinished = false

structure Queues (requests : Dict ι (Request ι η μ)) (running waiting : List ι) : Prop where
  nodup : (running ++ waiting).Nodup
  own : ∀ r q, requests.get? r = some q → q.requestId = r
  running : ∀ r, r ∈ running ↔ ∃ q, requests.get? r = some q ∧ q.status = .running
  waiting : ∀ r, r ∈ waiting ↔ ∃ q, requests.get? r = some q ∧ q.status.IsWaiting

namespace Queues

variable {requests : Dict ι (Request ι η μ)} {running waiting waiting' : List ι} {r : ι} {q q' : Request ι η μ}

theorem get?_set_iff {P : Request ι η μ → Prop} {d : Dict ι (Request ι η μ)} {r' : ι} :
    (∃ x, (d.set r q').get? r' = some x ∧ P x) ↔ if r' = r then P q' else ∃ x, d.get? r' = some x ∧ P x := by
  rw [Dict.get?_set]
  split <;> simp

section

variable (h : Queues requests running waiting)
include h

theorem perm (hw : waiting'.Perm waiting) : Queues requests running waiting' where
  nodup := (hw.append_left running).nodup_iff.2 h.nodup
  own := h.own
  running := h.running
  waiting := fun r => hw.mem_iff.trans (h.waiting r)

section
variable (hq : requests.get? r = some q)
include hq

theorem mem_running : r ∈ running ↔ q.status = .running := by
  rw [h.running, hq]
  simp

theorem mem_waiting : r ∈ waiting ↔ q.status.IsWaiting := by
  rw [h.waiting, hq]
  simp

theorem set (hid : q'.requestId = r)
    (hrun : q'.status = .running ↔ q.status = .running) (hfin : q'.status.isFinished = q.status.isFinished) :
    Queues (requests.set r q') running waiting where
  nodup := h.nodup
  own := Owned.set h.own hid
  running := fun r' => by
    rw [get?_set_iff]
    split
    next hr => rw [hr, hrun, h.mem_running hq]
    next => exact h.running r'
  waiting := fun r' => by
    rw [get?_set_iff]
    split
    next hr => rw [hr, RequestStatus.IsWaiting, hfin, Ne, hrun, h.mem_waiting hq, RequestStatus.IsWaiting]
    next => exact h.waiting r'

end

theorem not_mem_waiting (hr : r ∈ running) : r ∉ waiting :=
  fun hw => (nodup_append.1 h.nodup).2.2 r hr r hw rfl

theorem preempt (hr : r ∈ running) (hid : q'.requestId = r) (hst : q'.status = .preempted) :
    Queues (requests.set r q') (running.erase r) (r :: waiting) := by
  have hrun : running.Nodup := (nodup_append.1 h.nodup).1
  refine ⟨?_, Owned.set h.own hid, fun r' => ?_, fun r' => ?_⟩
  · have hperm : (running.erase r ++ r :: waiting).Perm (running ++ waiting) :=
      perm_middle.trans (((perm_cons_erase hr).append_right waiting).symm)
    exact hperm.nodup_iff.2 h.nodup
  · rw [get?_set_iff, hrun.mem_erase_iff, hst]
    split
    next hr' => simp [hr']
    next hr' => simpa [hr'] using h.running r'
  · rw [get?_set_iff, mem_cons, hst]
    split
    next hr' => simp [hr', RequestStatus.IsWaiting, RequestStatus.isFinished]
    next hr' => simpa [hr'] using h.waiting r'

end

theorem enter (h : Queues requests running (r :: waiting)) (hid : q'.requestId = r) (hst : q'.status = .running) :
    Queues (requests.set r q') (running ++ [r]) waiting := by
  have hw : r ∉ running ∧ r ∉ waiting := by
    have := h.nodup
    simp only [nodup_append, nodup_cons, mem_cons] at this
    exact ⟨fun hr => this.2.2 r hr r (.inl rfl) rfl, this.2.1.1⟩
  refine ⟨?_, Owned.set h.own hid, fun r' => ?_, fun r' => ?_⟩
  · rw [append_assoc]
    exact h.nodup
  · rw [get?_set_iff, mem_append, mem_singleton, hst]
    split
    next hr' => simp [hr']
    next hr' => simpa [hr'] using h.running r'
  · rw [get?_set_iff, hst]
    split
    next hr' => simp [hr', hw.2, RequestStatus.IsWaiting]
    next hr' => simpa [hr'] using h.waiting r'

theorem add (h : Queues requests running waiting) (hr : requests.get? r = none)
    (hid : q'.requestId = r) (hst : q'.status.IsWaiting) :
    Queues (requests.set r q') running (r :: waiting) := by
  have hrun : r ∉ running := fun hm => by
    obtain ⟨x, hx, -⟩ := (h.running r).1 hm
    simp [hr] at hx
  have hwait : r ∉ waiting := fun hm => by
    obtain ⟨x, hx, -⟩ := (h.waiting r).1 hm
    simp [hr] at hx
  refine ⟨?_, Owned.set h.own hid, fun r' => ?_, fun r' => ?_⟩
  · refine (perm_middle.nodup_iff).2 (nodup_cons.2 ⟨?_, h.nodup⟩)
    simp [hrun, hwait]
  · rw [get?_set_iff]
    split
    next hr' => simp [hr', hrun, hst.1]
    next hr' => exact h.running r'
  · rw [get?_set_iff, mem_cons]
    split
    next hr' => simp [hr', hst]
    next hr' => simpa [hr'] using h.waiting r'

end Queues

def Scheduler.Wf (s : Scheduler ι η μ) : Prop := Queues s.requests s.running s.waiting

namespace Pass

def Wf (p : Pass ι η μ) : Prop := Queues p.sched.requests p.sched.running (p.sched.waiting ++ p.skippedWaitingRequests)

def Visits (p : Pass ι η μ) : Phase ι η μ → Prop
  | .visiting q _ => p.sched.requests.get? q.requestId = some q ∧ q.status = .running
  | _ => True

variable {p p' : Pass ι η μ} {env : Env ι} {r : ι}

theorem Wf.get?_running (h : p.Wf) (hr : r ∈ p.sched.running) :
    ∃ q, p.sched.requests.get? r = some q ∧ q.status = .running :=
  (h.running r).1 hr

theorem takeVictim_running (hnodup : p.sched.running.Nodup) {v : ι} (h : p.takeVictim = .ok (v, p')) :
    p'.sched = { p.sched with running := p.sched.running.erase v } := by
  obtain ⟨-, -, rfl⟩ | ⟨-, hv, rfl⟩ := takeVictim_cases h
  · exact unschedule_sched _ v
  · obtain ⟨l, hl⟩ := getLast?_eq_some_iff.1 hv
    have hmem : v ∉ l := by
      rw [hl, nodup_append] at hnodup
      exact fun hm => hnodup.2.2 v hm v (mem_singleton_self v) rfl
    have herase : p.sched.running.erase v = p.sched.running.dropLast := by
      rw [hl, dropLast_concat, erase_append_right _ hmem]
      simp
    rw [herase]

structure Preempts (s s' : Scheduler ι η μ) (v : ι) (x : Request ι η μ) : Prop where
  mem : v ∈ s.running
  request : s.requests.get? v = some x
  config : s'.config = s.config
  running : s'.running = s.running.erase v
  waiting : s'.waiting.Perm (v :: s.waiting)
  requests : s'.requests = s.requests.set v { x with status := .preempted, numComputedTokens := 0 }
  prev : s'.prevStepScheduledReqIds = s.prevStepScheduledReqIds

namespace Preempts

variable {s s' : Scheduler ι η μ} {v : ι} {x : Request ι η μ} {rs : List ι}

theorem preempted (h : Preempts s s' v x) (hrs : ∀ r ∈ rs, r ∈ s.waiting) (r : ι) (hr : r ∈ rs ++ [v]) :
    r ∈ s'.waiting := by
  rw [h.waiting.mem_iff, mem_cons]
  rcases mem_append.1 hr with hr | hr
  · exact .inr (hrs r hr)
  · exact .inl (mem_singleton.1 hr)

theorem get?_preempted (h : Preempts s s' v x) {q : Request ι η μ}
    (hq : s'.requests.get? r = some q) (hr : r ∉ rs ++ [v]) :
    s.requests.get? r = some q ∧ r ∉ rs := by
  rw [mem_append, not_or, mem_singleton] at hr
  rw [h.requests, Dict.get?_set_of_ne hr.2] at hq
  exact ⟨hq, hr.1⟩

end Preempts

variable [DecidableEq μ] in
theorem preempt_cases {kv : KVCacheManager ι η} {v : ι} {p₁ : Pass ι η μ}
    (h : p.Wf) (hv : (p.withKv kv).takeVictim = .ok (v, p₁)) (he : p₁.evict v = .ok p') :
    ∃ s' x, Preempts p.sched s' v x ∧
      (p.sched.config.policy = .priority ∧ v ∈ p.scheduledRunningReqs ∧
          p' = { p.unschedule v with sched := s', preemptedReqs := p.preemptedReqs ++ [v] } ∨
        (p.sched.config.policy = .priority ∧ v ∉ p.scheduledRunningReqs ∨
          p.sched.config.policy = .fcfs ∧ p.sched.running.getLast? = some v) ∧
          p' = { p with sched := s', preemptedReqs := p.preemptedReqs ++ [v] }) := by
  have hnodup : (p.withKv kv).sched.running.Nodup := (nodup_append.1 h.nodup).1
  have hrun := takeVictim_running hnodup hv
  obtain ⟨x, kv', hx, -, hp'⟩ := evict_eq he
  rw [hrun] at hx
  have hid : x.requestId = v := h.own v x hx
  have hmem := takeVictim_mem hv
  refine ⟨p'.sched, x, ⟨hmem, hx, ?_, ?_, ?_, ?_, ?_⟩, ?_⟩
  · rw [hp', hrun]
    rfl
  · rw [hp', hrun]
    rfl
  · rw [hp', hrun]
    exact prependRequest_perm _ v
  · rw [hp', hrun, hid]
    rfl
  · rw [hp', hrun]
    rfl
  · obtain ⟨hpol, -, rfl⟩ | ⟨hpol, hlast, rfl⟩ := takeVictim_cases hv
    · by_cases hmem : v ∈ p.scheduledRunningReqs
      · refine .inl ⟨hpol, hmem, ?_⟩
        rw [hp']
        simp [unschedule, withKv, hmem]
      · refine .inr ⟨.inl ⟨hpol, hmem⟩, ?_⟩
        rw [hp']
        simp [unschedule, withKv, hmem]
    · refine .inr ⟨.inr ⟨hpol, hlast⟩, ?_⟩
      rw [hp']
      rfl

theorem Wf.head {q : Request ι η μ} (h : p.Wf) (hh : Head p r q) :
    q.requestId = r ∧ q.status.IsWaiting ∧ p.sched.waiting = r :: p.sched.waiting.tail := by
  have hcons : p.sched.waiting = r :: p.sched.waiting.tail := (cons_head?_tail hh.head).symm
  refine ⟨h.own r q hh.request, (h.mem_waiting hh.request).1 ?_, hcons⟩
  rw [hcons]
  simp

theorem Wf.ne_of_mem_tail {r r' : ι} (h : p.Wf) (hcons : p.sched.waiting = r :: p.sched.waiting.tail)
    (hr' : r' ∈ p.sched.waiting.tail) : r' ≠ r := by
  have hnodup : p.sched.waiting.Nodup := (nodup_append.1 (nodup_append.1 h.nodup).2.1).1
  rw [hcons] at hnodup
  rintro rfl
  exact (nodup_cons.1 hnodup).1 hr'

theorem setAside_perm (h : p.sched.waiting = r :: p.sched.waiting.tail) :
    ((p.setAside r).sched.waiting ++ (p.setAside r).skippedWaitingRequests).Perm
      (p.sched.waiting ++ p.skippedWaitingRequests) := by
  refine ((prependRequest_perm _ r).append_left p.sched.waiting.tail).trans (perm_middle.trans ?_)
  rw [← cons_append, ← h]

variable [DecidableEq η] [DecidableEq μ]

theorem Step.wf {x y : Pass ι η μ × Phase ι η μ} (hstep : Step env x y) (h : x.1.Wf ∧ x.1.Visits x.2) :
    y.1.Wf ∧ y.1.Visits y.2 := by
  obtain ⟨h, hvis⟩ := h
  cases hstep with
  | skip | stop | starve | loras => exact ⟨h, trivial⟩
  | @visit p r q plan ht hn =>
    obtain ⟨q', hq', hst⟩ := h.get?_running (mem_of_getElem? ht.index)
    obtain rfl : q = q' := Option.some.inj (ht.request.symm.trans hq')
    refine ⟨h, ?_, hst⟩
    rw [h.own r q hq']
    exact hq'
  | @evict p q plan kv v p₁ p' hslots hv he =>
    obtain ⟨s', x, hpre, hcase⟩ := preempt_cases h hv he
    have hp' : p'.sched = s' ∧ p'.skippedWaitingRequests = p.skippedWaitingRequests := by
      obtain ⟨-, -, rfl⟩ | ⟨-, rfl⟩ := hcase
      · rw [unschedule]
        split <;> exact ⟨rfl, rfl⟩
      · exact ⟨rfl, rfl⟩
    have hid : ({ x with status := .preempted, numComputedTokens := 0 } : Request ι η μ).requestId = v :=
      h.own v x hpre.request
    constructor
    · rw [Wf, hp'.1, hp'.2, hpre.running, hpre.requests]
      exact (Queues.preempt h hpre.mem hid rfl).perm (hpre.waiting.append_right _)
    · split
      · trivial
      next hne =>
        refine ⟨?_, hvis.2⟩
        rw [hp'.1, hpre.requests, Dict.get?_set_of_ne (Ne.symm hne)]
        exact hvis.1
  | @grant p q plan kv blocks p' hslots hs =>
    obtain ⟨cache, -, rfl⟩ := scheduleRunning_eq hs
    refine ⟨?_, trivial⟩
    unfold undrafted
    split
    · exact h
    · exact Queues.set h hvis.1 rfl Iff.rfl rfl
  | @ready p r q p' hh hr =>
    obtain ⟨rfl, hst, -⟩ := h.head hh
    obtain rfl | ⟨hst', kv, failed, recving, n, rfl⟩ := makeReady_eq hh.request hr
    · exact ⟨h, trivial⟩
    · refine ⟨Queues.set h hh.request rfl ?_ ?_, trivial⟩
      · exact ⟨fun h => (by cases h), fun h => absurd h hst.1⟩
      · exact hst.2.symm
  | @aside p r q hh => exact ⟨Queues.perm h (setAside_perm (h.head hh).2.2), trivial⟩
  | @load p r q c plan kv blocks hd ha =>
    obtain ⟨rfl, hst, hcons⟩ := h.head hd.toHead
    refine ⟨Queues.perm (Queues.set h hd.request rfl ?_ ?_) (setAside_perm hcons), trivial⟩
    · exact ⟨fun h => (by cases h), fun h => absurd h hst.1⟩
    · exact hst.2.symm
  | @enter p r q c plan kv blocks p' hd ha hs =>
    obtain ⟨rfl, hst, hcons⟩ := h.head hd.toHead
    obtain ⟨cache, -, -, rfl⟩ := scheduleWaiting_eq hs
    rw [Wf, hcons, cons_append] at h
    exact ⟨Queues.enter h rfl rfl, trivial⟩

theorem Reaches.wf {x : Phase ι η μ} (h : Reaches env p p' x) (hp : p.Wf) : p'.Wf :=
  (h.induction (I := fun p x => p.Wf ∧ p.Visits x) ⟨hp, trivial⟩ fun _ _ => Step.wf).1

omit [DecidableEq η] [DecidableEq μ] in
theorem Wf.putBack (h : p.Wf) : p.putBack.sched.Wf :=
  Queues.perm h ((prependRequests_perm _ _).trans perm_append_comm)

end Pass

/-! ### The calls -/

namespace Queues

variable {requests requests' : Dict ι (Request ι η μ)} {running waiting : List ι} {r : ι}

theorem congr {α : Type} {f : Request ι η μ → α} (h : Queues requests running waiting)
    (hf : ∀ q q', f q = f q' → q.requestId = q'.requestId ∧ q.status = q'.status)
    (hreq : ∀ r, (requests'.get? r).map f = (requests.get? r).map f) : Queues requests' running waiting := by
  have hiff : ∀ (P : RequestStatus → Prop) r, (∃ q, requests'.get? r = some q ∧ P q.status) ↔
    ∃ q, requests.get? r = some q ∧ P q.status := by
    intro P r
    have hr := hreq r
    rcases hx : requests'.get? r with - | x <;> rcases hy : requests.get? r with - | y <;> rw [hx, hy] at hr
    · cases hr
    · cases hr
    · have := (hf x y (Option.some.inj hr)).2
      simp [this]
  refine ⟨h.nodup, fun r q hq => ?_, fun r => (h.running r).trans (hiff (· = .running) r).symm,
    fun r => (h.waiting r).trans (hiff RequestStatus.IsWaiting r).symm⟩
  have hr := hreq r
  rw [hq, Option.map_some, eq_comm, Option.map_eq_some_iff] at hr
  obtain ⟨q₀, hq₀, hfq⟩ := hr
  exact (hf _ _ hfq).1.symm.trans (h.own r q₀ hq₀)

theorem remove (h : Queues requests running waiting)
    (hr : ∀ q, requests'.get? r = some q → q.requestId = r ∧ q.status.isFinished = true)
    (hne : ∀ x, x ≠ r → requests'.get? x = requests.get? x) :
    Queues requests' (running.filter (· ≠ r)) (waiting.filter (· ≠ r)) := by
  have hiff : ∀ (P : RequestStatus → Prop), (∀ st, st.isFinished = true → ¬P st) → ∀ x,
      (∃ q, requests'.get? x = some q ∧ P q.status) ↔ (∃ q, requests.get? x = some q ∧ P q.status) ∧ x ≠ r := by
    intro P hP x
    by_cases hx : x = r
    · subst hx
      constructor
      · rintro ⟨q, hq, hPq⟩
        exact absurd hPq (hP _ (hr q hq).2)
      · exact fun hx => absurd rfl hx.2
    · rw [hne x hx]
      simp [hx]
  refine ⟨h.nodup.sublist (filter_sublist.append filter_sublist), fun x q hq => ?_, fun x => ?_, fun x => ?_⟩
  · by_cases hx : x = r
    · subst hx
      exact (hr q hq).1
    · rw [hne x hx] at hq
      exact h.own x q hq
  · rw [hiff (· = .running) (fun st hst he => by simp [he, RequestStatus.isFinished] at hst) x, mem_filter, h.running x]
    simp
  · rw [hiff RequestStatus.IsWaiting (fun st hst he => by simp [he.2] at hst) x, mem_filter, h.waiting x]
    simp

end Queues

theorem removeAll_eq_filter {l items : List ι} (hl : l.Nodup) : removeAll l items = l.filter (· ∉ items) := by
  rcases items with - | ⟨x, - | ⟨y, items⟩⟩
  · simp [removeAll]
  · rw [removeAll, hl.erase_eq_filter]
    exact filter_congr fun y _ => by simp [bne, beq_eq_decide]
  · rfl

namespace Scheduler

variable {s s' : Scheduler ι η μ} {env : Env ι}

theorem Wf.init (h : s.Wf) : (Pass.init s).Wf := by
  show Queues _ _ (s.waiting ++ [])
  rw [append_nil]
  exact h

variable [DecidableEq η] [DecidableEq μ] in
theorem Wf.schedule {out : SchedulerOutput ι μ} (h : s.Wf) (hs : s.schedule env = .ok (out, s')) : s'.Wf := by
  obtain ⟨p, hreach, hfin⟩ := schedule_eq hs
  have hback : p.putBack.sched.Wf := (hreach.wf h.init).putBack
  obtain ⟨⟨requests, cache, rfl⟩, hget, -⟩ := Pass.finish_sched hback.own hfin
  refine Queues.congr hback (f := fun q => (q.requestId, q.status)) ?_ fun r => ?_
  · exact fun q q' hf => ⟨congrArg Prod.fst hf, congrArg Prod.snd hf⟩
  · have := congrArg (Option.map fun q : Request ι η μ => (q.requestId, q.status)) (hget r)
    rw [Option.map_map, Option.map_map] at this
    exact this

theorem Wf.addRequest {q : RequestSpec ι η μ} (h : s.Wf) (hq : s.requests.get? q.requestId = none) :
    (s.addRequest q).Wf := by
  refine Queues.perm (Queues.add h hq rfl ?_) (addRequest_perm _ _)
  show RequestStatus.IsWaiting (if _ then _ else _)
  split <;> simp [RequestStatus.IsWaiting, RequestStatus.isFinished]

structure Update.Wf (u : Update ι η μ) : Prop where
  queues : Queues u.sched.requests (u.sched.running.filter (· ∉ u.stoppedRunning))
    (u.sched.waiting.filter (· ∉ u.stoppedPreempted))
  nodup : u.sched.running.Nodup

theorem filter_notMem_append {l xs ys : List ι} : l.filter (· ∉ xs ++ ys) = (l.filter (· ∉ xs)).filter (· ∉ ys) := by
  rw [filter_filter]
  refine filter_congr fun x _ => ?_
  simp [Bool.and_comm]

theorem Wf.finishRequests_queues (h : s.Wf) (ids : List ι) :
    removeAll s.running (((s.unfinished ids).filter fun q => q.status = .running).map fun q => q.requestId) =
        s.running.filter (· ∉ (s.unfinished ids).map fun q => q.requestId) ∧
      s.waiting.filter (· ∉ ((s.unfinished ids).filter fun q => q.status ≠ .running).map fun q => q.requestId) =
        s.waiting.filter (· ∉ (s.unfinished ids).map fun q => q.requestId) := by
  have hsplit : ∀ (P : Request ι η μ → Bool) r, (∀ q, s.requests.get? r = some q → P q = true) →
      (r ∈ ((s.unfinished ids).filter P).map (fun q => q.requestId) ↔
        r ∈ (s.unfinished ids).map fun q => q.requestId) := by
    intro P r hP
    refine ⟨fun hr => (filter_sublist.map _).subset hr, fun hr => ?_⟩
    obtain ⟨q, hq, rfl⟩ := mem_map.1 hr
    exact mem_map.2 ⟨q, mem_filter.2 ⟨hq, hP q ((mem_unfinished h.own).1 hq).2.1⟩, rfl⟩
  constructor
  · rw [removeAll_eq_filter (nodup_append.1 h.nodup).1]
    refine filter_congr fun r hr => ?_
    exact decide_eq_decide.2 (not_congr (hsplit _ r fun q hq => by simpa using (h.mem_running hq).1 hr))
  · refine filter_congr fun r hr => ?_
    exact decide_eq_decide.2 (not_congr (hsplit _ r fun q hq => by simpa using ((h.mem_waiting hq).1 hr).1))

theorem unfinished_nodup (hown : Owned s.requests) (ids : List ι) :
    ((s.unfinished ids).map fun q => q.requestId).Nodup := by
  refine Nodup.sublist (filter_sublist.map _) ?_
  rw [map_filterMap]
  refine Nodup.filterMap (fun a b x ha hb => ?_) (nodup_dedup ids)
  obtain ⟨q, hq, rfl⟩ := Option.map_eq_some_iff.1 ha
  obtain ⟨q', hq', heq⟩ := Option.map_eq_some_iff.1 hb
  rw [← hown a q hq, ← hown b q' hq', heq]

end Scheduler

namespace Engine

variable {e e' : Engine ι η μ}

def Fresh (e : Engine ι η μ) : Action ι η μ → Prop
  | .addRequest q => e.sched.requests.get? q.requestId = none
  | _ => True

variable [DecidableEq η] [DecidableEq μ] in
theorem step_eq_some {a : Action ι η μ} : e.step a = some e' ↔ e.exec a = .ok e' := toOption_eq_some

theorem init_wf (config : SchedulerConfig) (kv : KVCacheManager ι η) (size : Nat) :
    (init config kv size : Engine ι η μ).sched.Wf :=
  ⟨by simp [init, Scheduler.init], by simp [init, Scheduler.init], by simp [init, Scheduler.init], by
    simp [init, Scheduler.init]⟩

end Engine

end Xmix.Sched
