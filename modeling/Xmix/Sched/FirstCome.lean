import Xmix.Sched.BudgetRuns

/-!
# First come, first served

Skipped requests are collected at the head of a second queue, the last one first, and that queue is
put back in front of the waiting one as it is. What is skipped therefore comes back in the reverse
order: the requests that still wait keep their order if `schedule` can skip at most one of them.
-/

namespace Xmix.Sched

open List
open Kv (KVCacheManager)

variable {ι η μ : Type} [DecidableEq ι]

/-! ### Lists without repetitions -/

theorem filter_mem_of_sublist {l l' : List ι} (hl : l.Nodup) (h : l'.Sublist l) : l.filter (· ∈ l') = l' := by
  have hsub : l'.Sublist (l.filter (· ∈ l')) := by
    have := h.filter (· ∈ l')
    rwa [filter_eq_self.2 fun x hx => by simpa using hx] at this
  refine (hsub.eq_of_length_le ?_).symm
  exact ((hl.filter _).subperm fun x hx => by simpa using (mem_filter.1 hx).2).length_le

omit [DecidableEq ι] in
theorem reverse_of_length_le_one {l : List ι} (h : l.length ≤ 1) : l.reverse = l := by
  rcases l with - | ⟨a, - | ⟨b, t⟩⟩
  · rfl
  · rfl
  · simp at h

namespace Scheduler

/-- The request waits for its grammar or for blocks of another instance. -/
def Stuck (s : Scheduler ι η μ) (env : Env ι) (r : ι) : Prop := ∃ q, s.requests.get? r = some q ∧
  (q.status = .waitingForRemoteKvs ∧ r ∉ s.finishedRecvingKvReqIds ∨
    q.status = .waitingForFsm ∧ (q.useStructuredOutput && env.grammarReady r) = false)

/-- What a call of `schedule` needs to find in order to set a waiting request aside: it is stuck, or it has an adapter
while their number is limited, or the connector does not know its match or loads it asynchronously, or prompts are not
split. -/
def Skippable (s : Scheduler ι η μ) (env : Env ι) (r : ι) : Prop :=
  s.Stuck env r ∨ s.config.maxLoras.isSome ∧ (∃ q, s.requests.get? r = some q ∧ q.loraRequest.isSome) ∨
    s.config.hasConnector = true ∧ ((env.matched r).1 = none ∨ (env.matched r).2 = true) ∨
    s.config.enableChunkedPrefill = false

theorem Stuck.frame {s s' : Scheduler ι η μ} {env : Env ι} {r : ι} (h : s'.Stuck env r)
    (hreq : s'.requests.get? r = s.requests.get? r)
    (hrecv : r ∈ s.finishedRecvingKvReqIds → r ∈ s'.finishedRecvingKvReqIds) : s.Stuck env r := by
  obtain ⟨q, hq, hst⟩ := h
  exact ⟨q, hreq ▸ hq, hst.imp (And.imp_right fun hno hr => hno (hrecv hr)) id⟩

end Scheduler

namespace Pass

variable {s : Scheduler ι η μ} {p p' : Pass ι η μ} {env : Env ι} {taken : List ι} {r : ι} {q : Request ι η μ}

variable [DecidableEq η] in
theorem stuck_of_unready (hq : p.sched.requests.get? q.requestId = some q) (h : p.makeReady env q = .ok none) :
    p.sched.Stuck env q.requestId := by
  rw [makeReady] at h
  split at h
  next hst =>
    obtain ⟨s', hs', h⟩ := Except.bind_eq_ok.1 h
    cases s' with
    | some s' =>
      obtain ⟨_, _, h⟩ := Except.bind_eq_ok.1 h
      cases h
    | none =>
      rw [updateWaitingForRemoteKv] at hs'
      split at hs'
      next hno => exact ⟨q, hq, .inl ⟨hst, hno⟩⟩
      · obtain ⟨_, _, hs'⟩ := Except.bind_eq_ok.1 hs'
        cases hs'
  next hst =>
    split at h
    · cases h
    next hno => exact ⟨q, hq, .inr ⟨hst, Bool.eq_false_iff.2 hno⟩⟩
  · cases h

variable [DecidableEq η] in
theorem makeReady_recving (h : p.makeReady env q = .ok (some p')) (hr : r ≠ q.requestId)
    (hmem : r ∈ p.sched.finishedRecvingKvReqIds) : r ∈ p'.sched.finishedRecvingKvReqIds := by
  rw [makeReady] at h
  split at h
  · obtain ⟨s', hs', h⟩ := Except.bind_eq_ok.1 h
    cases s' with
    | none => cases h
    | some s' =>
      obtain ⟨_, _, h⟩ := Except.bind_eq_ok.1 h
      cases h
      obtain ⟨s₁, hs₁, rfl⟩ := updateWaitingForRemoteKv_eq hs'
      obtain ⟨kv, failed, rfl | ⟨n, rfl⟩⟩ := receiveKv_eq hs₁ <;> exact (mem_erase_of_ne hr).2 hmem
  · split at h <;> cases h
    exact hmem
  · cases h
    exact hmem

variable [DecidableEq η] in
omit [DecidableEq ι] in
theorem findComputed_connector {c : Option Computed} (h : p.findComputed env q = .ok c)
    (hc : c = none ∨ ∃ c', c = some c' ∧ c'.loadKvAsync = true) :
    p.sched.config.hasConnector = true ∧ ((env.matched q.requestId).1 = none ∨ (env.matched q.requestId).2 = true) := by
  rw [findComputed] at h
  split at h
  · obtain ⟨⟨blocks, n⟩, -, h⟩ := Except.bind_eq_ok.1 h
    simp only at h
    split at h
    next hcon =>
      split at h
      next hm =>
        rw [hm]
        exact ⟨hcon, .inl rfl⟩
      next ext async hm =>
        cases h
        obtain hc | ⟨c', hc, ha⟩ := hc <;> cases hc
        rw [hm]
        exact ⟨hcon, .inr ha⟩
    · cases h
      obtain hc | ⟨c', hc, ha⟩ := hc <;> cases hc
      cases ha
  · cases h
    obtain hc | ⟨c', hc, ha⟩ := hc <;> cases hc
    cases ha

variable [DecidableEq μ] in
theorem planWaiting_skip {c : Computed} (h : p.planWaiting env q c = .ok .skip) :
    p.sched.config.enableChunkedPrefill = false := by
  simp only [planWaiting] at h
  split at h
  · split at h <;> cases h
  · split at h
    next hno => exact hno.1
    · split at h
      · cases h
      · obtain ⟨plan, -, h⟩ := Except.bind_eq_ok.1 h
        split at h <;> cases h

/-- Requests are taken in order, and each is set aside or runs. -/
structure Serves (s : Scheduler ι η μ) (env : Env ι) (taken : List ι) (p : Pass ι η μ) : Prop where
  waiting : p.preemptedReqs.reverse ++ s.waiting = taken ++ p.sched.waiting
  skipped : p.skippedWaitingRequests.reverse.Sublist taken
  served : ∀ r ∈ taken, r ∈ p.skippedWaitingRequests ∨ r ∈ p.sched.running
  early : p.preemptedReqs = [] ∨ taken = []
  stuck : ∀ r ∈ p.sched.waiting, p.sched.Stuck env r → s.Stuck env r
  why : ∀ r ∈ p.skippedWaitingRequests, s.Skippable env r

def ServesAt (s : Scheduler ι η μ) (env : Env ι) (p : Pass ι η μ) : Phase ι η μ → Prop
  | .waiting => ∃ taken, p.Serves s env taken
  | _ => p.Serves s env []

theorem Serves.frame (h : p.Serves s env taken) (s' : Scheduler ι η μ) (hrun : s'.running = p.sched.running)
    (hwait : s'.waiting = p.sched.waiting)
    (hstuck : ∀ r ∈ p.sched.waiting, s'.Stuck env r → p.sched.Stuck env r) :
    ({ p with sched := s' } : Pass ι η μ).Serves s env taken :=
  ⟨hwait ▸ h.waiting, h.skipped, hrun ▸ h.served, h.early,
    fun r hr hs => h.stuck r (hwait ▸ hr) (hstuck r (hwait ▸ hr) hs), h.why⟩

theorem Serves.take (h : p.Serves s env taken) (hh : Head p r q) (hp' : p'.preemptedReqs = p.preemptedReqs)
    (hwait : p'.sched.waiting = p.sched.waiting.tail) (hskip : p'.skippedWaitingRequests.reverse.Sublist (taken ++ [r]))
    (hserved : ∀ x ∈ taken ++ [r], x ∈ p'.skippedWaitingRequests ∨ x ∈ p'.sched.running)
    (hstuck : ∀ x ∈ p.sched.waiting.tail, p'.sched.Stuck env x → p.sched.Stuck env x)
    (hwhy : ∀ x ∈ p'.skippedWaitingRequests, s.Skippable env x) : p'.Serves s env (taken ++ [r]) := by
  refine ⟨?_, hskip, hserved, .inl (hp'.trans hh.nonePreempted), fun x hx hs => ?_, hwhy⟩
  · rw [hp', hwait, h.waiting, append_assoc, singleton_append, cons_head?_tail hh.head]
  · rw [hwait] at hx
    exact h.stuck x (mem_of_mem_tail hx) (hstuck x hx hs)

theorem Serves.setAside (h : p.Serves s env taken) (hpol : p.sched.config.policy = .fcfs) (hh : Head p r q)
    (hwhy : s.Skippable env r) : (p.setAside r).Serves s env (taken ++ [r]) := by
  have hskip : (p.setAside r).skippedWaitingRequests = r :: p.skippedWaitingRequests := by
    simp [Pass.setAside, prependRequest, hpol]
  refine h.take hh rfl rfl ?_ (fun x hx => ?_) (fun x _ hs => hs) ?_
  · rw [hskip, reverse_cons]
    exact h.skipped.append (.refl [r])
  · rw [hskip, mem_cons]
    rcases mem_append.1 hx with hx | hx
    · exact (h.served x hx).imp .inr id
    · exact .inl (.inl (mem_singleton.1 hx))
  · rw [hskip]
    exact forall_mem_cons.2 ⟨hwhy, h.why⟩

variable [DecidableEq η] [DecidableEq μ]

theorem Serves.skippable (h : p.Serves s env taken) (hr : s.Runs p) (hh : Head p r q) (hq : Postpones env p q) :
    s.Skippable env r := by
  obtain ⟨rfl, -, hcons⟩ := hr.wf.head hh
  cases hq with
  | unready hno =>
    refine .inl (h.stuck _ ?_ (stuck_of_unready hh.request hno))
    rw [hcons]
    exact mem_cons_self
  | adapter hl =>
    obtain ⟨q₀, hq₀, hspec⟩ := hr.back _ q hh.request
    rw [loraBlocked] at hl
    split at hl
    next m l hm hlora => exact .inr (.inl ⟨by rw [← hr.config, hm]; rfl, q₀, hq₀, by rw [hspec, hlora]; rfl⟩)
    · cases hl
  | unmatched hc =>
    have hcon := findComputed_connector hc (.inl rfl)
    exact .inr (.inr (.inl ⟨hr.config ▸ hcon.1, hcon.2⟩))
  | whole hplan => exact .inr (.inr (.inr (hr.config ▸ planWaiting_skip hplan)))

theorem Step.serves {x y : Pass ι η μ × Phase ι η μ} (hstep : Step env x y) (hx : s.RunsAt x)
    (hpol : s.config.policy = .fcfs) (h : x.1.ServesAt s env x.2) : y.1.ServesAt s env y.2 := by
  have hpol' : x.1.sched.config.policy = .fcfs := (congrArg SchedulerConfig.policy hx.config).trans hpol
  cases hstep with
  | skip | visit => exact { h with }
  | @evict p q plan kv v p₁ p' hslots hv he =>
    have hp' : p'.Serves s env [] := by
      obtain ⟨hprio, -, -⟩ | ⟨-, hlast, rfl⟩ := takeVictim_cases hv
      · cases hprio.symm.trans hpol'
      · obtain ⟨q', kv', hq', -, rfl⟩ := evict_eq he
        have hid : q'.requestId = v := hx.wf.own v q' hq'
        have hwait : p.preemptedReqs.reverse ++ s.waiting = p.sched.waiting := h.waiting
        have hnew : ∀ rank, prependRequest p.sched.config.policy rank p.sched.waiting v =
          v :: p.sched.waiting := fun _ => by
          simp only [prependRequest, show p.sched.config.policy = _ from hpol']
        refine ⟨?_, h.skipped, fun r hr => (by cases hr), .inr rfl, fun r hr hs => ?_, h.why⟩
        · show (p.preemptedReqs ++ [v]).reverse ++ s.waiting = prependRequest p.sched.config.policy _ p.sched.waiting v
          rw [hnew, ← hwait, reverse_append]
          rfl
        · -- the victim waits as a preempted request, the others as before
          by_cases hrv : r = q'.requestId
          · obtain ⟨x, hget, hst⟩ := hs
            replace hget : (p.sched.requests.set q'.requestId _).get? r = some x := hget
            rw [hrv, Dict.get?_set_self] at hget
            cases hget
            obtain ⟨hst, -⟩ | ⟨hst, -⟩ := hst <;> cases hst
          · have hmem : r ∈ p.sched.waiting := by
              rw [hid] at hrv
              exact (mem_cons.1 ((hnew _).symm ▸ hr)).resolve_left hrv
            exact h.stuck r hmem (hs.frame (Dict.get?_set_of_ne hrv) id)
    split
    · exact hp'
    · exact hp'
  | @grant p q plan kv blocks p' hslots hs =>
    obtain ⟨cache, -, rfl⟩ := scheduleRunning_eq hs
    have hrun : q.requestId ∈ p.sched.running := (hx.wf.running _).2 ⟨q, hx.visits⟩
    refine ⟨h.waiting, h.skipped, h.served, h.early, fun r hr hst => h.stuck r hr (hst.frame ?_ id), h.why⟩
    have hne : r ≠ q.requestId := fun hrq => hx.wf.not_mem_waiting hrun (mem_append_left _ (hrq ▸ hr))
    exact get?_undrafted_of_ne hne _
  | @loras p hex => exact ⟨[], h.waiting, h.skipped, h.served, h.early, h.stuck, h.why⟩
  | @ready p r q p' hh hr =>
    obtain ⟨taken, h⟩ := h
    obtain ⟨rfl, -, -⟩ := hx.wf.head hh
    have hrecv := fun r' => makeReady_recving (r := r') hr
    obtain rfl | ⟨-, kv, failed, recving, n, rfl⟩ := makeReady_eq hh.request hr
    · exact ⟨taken, h⟩
    refine ⟨taken, h.frame _ rfl rfl fun r' _ hst => ?_⟩
    by_cases hr' : r' = q.requestId
    · obtain ⟨x, hget, hst⟩ := hst
      replace hget : (p.sched.requests.set q.requestId _).get? r' = some x := hget
      rw [hr', Dict.get?_set_self] at hget
      cases hget
      obtain ⟨hst, -⟩ | ⟨hst, -⟩ := hst <;> cases hst
    · exact hst.frame (Dict.get?_set_of_ne hr') (hrecv r' hr')
  | @aside p r q hh hq =>
    obtain ⟨taken, h⟩ := h
    exact ⟨_, h.setAside hpol' hh (h.skippable hx.toRuns hh hq)⟩
  | stop | starve =>
    obtain ⟨taken, h⟩ := h
    exact ⟨taken, h.frame _ rfl rfl fun _ _ hs => hs⟩
  | @load p r q c plan kv blocks hd ha =>
    obtain ⟨taken, h⟩ := h
    obtain ⟨rfl, -, hcons⟩ := hx.wf.head hd.toHead
    have hcon := findComputed_connector hd.computed (.inr ⟨c, rfl, ha⟩)
    have haside := h.setAside hpol' hd.toHead (.inr (.inr (.inl ⟨hx.config ▸ hcon.1, hcon.2⟩)))
    refine ⟨_, haside.waiting, haside.skipped, haside.served, haside.early,
      fun r' hr' hs => haside.stuck r' hr' ?_, haside.why⟩
    exact hs.frame (Dict.get?_set_of_ne (hx.wf.ne_of_mem_tail hcons hr')) id
  | @enter p r q c plan kv blocks p' hd ha hs =>
    obtain ⟨taken, h⟩ := h
    obtain ⟨rfl, -, hcons⟩ := hx.wf.head hd.toHead
    obtain ⟨cache, -, -, rfl⟩ := scheduleWaiting_eq hs
    refine ⟨_, h.take hd.toHead rfl rfl (h.skipped.trans (sublist_append_left _ _)) (fun x hx => ?_)
      (fun r' hr' hs => ?_) h.why⟩
    · rcases mem_append.1 hx with hx | hx
      · exact (h.served x hx).imp id (mem_append_left _)
      · exact .inr (mem_append_right _ hx)
    · exact hs.frame (Dict.get?_set_of_ne (hx.wf.ne_of_mem_tail hcons hr')) id

omit [DecidableEq η] [DecidableEq μ] in
theorem Serves.still_waiting (h : p.Serves s env taken)
    (hw : s.waiting.Nodup) (hwf : p.Wf) (hnone : p.preemptedReqs = []) :
    s.waiting.filter (· ∈ p.skippedWaitingRequests ++ p.sched.waiting) =
      p.skippedWaitingRequests.reverse ++ p.sched.waiting := by
  have hsplit : s.waiting = taken ++ p.sched.waiting := by
    have := h.waiting
    rwa [hnone] at this
  have hdisj : ∀ r ∈ p.sched.running, r ∉ p.sched.waiting :=
    fun r hr hm => hwf.not_mem_waiting hr (mem_append_left _ hm)
  rw [hsplit, nodup_append] at hw
  rw [hsplit, filter_append]
  congr 1
  · -- a request that was taken out of the queue waits only if it was skipped
    rw [← filter_mem_of_sublist hw.1 h.skipped]
    refine filter_congr fun r hr => decide_eq_decide.2 ?_
    rw [mem_append, mem_reverse]
    refine ⟨fun hm => hm.resolve_right fun hm => ?_, .inl⟩
    exact hw.2.2 r hr r hm rfl
  · exact filter_eq_self.2 fun r hr => by simp [hr]

end Pass

/-! ### schedule -/

variable [DecidableEq η] [DecidableEq μ]

namespace Scheduler

variable {s s' : Scheduler ι η μ} {env : Env ι} {out : SchedulerOutput ι μ}

/-- Who still waits keeps the order, behind preempted requests. -/
def KeepsOrder (s s' : Scheduler ι η μ) (preempted : List ι) : Prop :=
  ∃ front, s'.waiting = front ++ s.waiting.filter (· ∈ s'.waiting) ∧ ∀ r ∈ front, r ∈ preempted

theorem Steady.serves {p : Pass ι η μ} {x : Phase ι η μ} (h : s.Steady) (hpol : s.config.policy = .fcfs)
    (hreach : Pass.Reaches env (.init s) p x) : s.Runs p ∧ p.ServesAt s env x := by
  have hinit : (Pass.init s).Serves s env [] :=
    ⟨rfl, .refl _, fun _ hr => (by cases hr), .inl rfl, fun _ _ hs => hs, fun _ hr => (by cases hr)⟩
  have hinv := hreach.induction (I := fun p x => s.RunsAt (p, x) ∧ p.ServesAt s env x) ⟨h.runsAt, hinit⟩
    fun x y hstep ⟨hx, hserves⟩ => ⟨hx.step hstep, hstep.serves hx hpol hserves⟩
  exact ⟨hinv.1.toRuns, hinv.2⟩

theorem Steady.keepsOrder (h : s.Steady) (hpol : s.config.policy = .fcfs)
    (hone : ∀ r ∈ s.waiting, ∀ r' ∈ s.waiting, s.Skippable env r → s.Skippable env r' → r = r')
    (hs : s.schedule env = .ok (out, s')) : KeepsOrder s s' out.preemptedReqIds := by
  obtain ⟨p, hreach, hfin⟩ := schedule_eq hs
  obtain ⟨hruns, taken, hserves⟩ := h.serves hpol hreach
  have hwait : s'.waiting = p.skippedWaitingRequests ++ p.sched.waiting := by
    obtain ⟨⟨requests, cache, rfl⟩, -, -⟩ := Pass.finish_sched hruns.wf.putBack.own hfin
    show prependRequests p.sched.config.policy _ _ _ = _
    rw [hruns.config, hpol]
    rfl
  have hout : out.preemptedReqIds = p.preemptedReqs := by
    obtain ⟨-, new, cached, -, -, rfl, -⟩ := Pass.finish_eq hfin
    rfl
  have hw : s.waiting.Nodup := (nodup_append.1 h.wf.nodup).2.1
  rw [KeepsOrder, hwait, hout]
  rcases hserves.early with hnone | rfl
  · have hnodup : p.skippedWaitingRequests.Nodup := (nodup_append.1 (nodup_append.1 hruns.wf.nodup).2.1).2.1
    have hmem : ∀ r ∈ p.skippedWaitingRequests, r ∈ s.waiting := fun r hr => by
      have hall : s.waiting = taken ++ p.sched.waiting := by
        have := hserves.waiting
        rwa [hnone] at this
      rw [hall]
      exact mem_append_left _ (hserves.skipped.subset (mem_reverse.2 hr))
    have hlen : p.skippedWaitingRequests.length ≤ 1 := by
      rcases hl : p.skippedWaitingRequests with - | ⟨a, - | ⟨b, rest⟩⟩
      · simp
      · simp
      · rw [hl] at hnodup
        have ha : a ∈ p.skippedWaitingRequests := by simp [hl]
        have hb : b ∈ p.skippedWaitingRequests := by simp [hl]
        have heq := hone a (hmem a ha) b (hmem b hb) (hserves.why a ha) (hserves.why b hb)
        exact absurd (heq ▸ mem_cons_self) (nodup_cons.1 hnodup).1
    rw [hserves.still_waiting hw hruns.wf hnone, reverse_of_length_le_one hlen]
    exact ⟨[], rfl, fun r hr => absurd hr not_mem_nil⟩
  · -- with preemptions nothing is taken out of the queue
    have hnil : p.skippedWaitingRequests = [] := reverse_eq_nil_iff.1 (sublist_nil.1 hserves.skipped)
    have hall : p.preemptedReqs.reverse ++ s.waiting = p.sched.waiting := hserves.waiting
    have hstill : s.waiting.filter (· ∈ p.sched.waiting) = s.waiting :=
      filter_eq_self.2 fun r hr => by simp [← hall, hr]
    rw [hnil, nil_append, hstill]
    exact ⟨p.preemptedReqs.reverse, hall.symm, fun r hr => mem_reverse.1 hr⟩

end Scheduler

/-! ### Runs -/

namespace Engine

variable {e e' : Engine ι η μ}

def grammarRequest (r : Nat) : RequestSpec Nat Nat Nat :=
  { Small.request r 3 with params := .sampling ⟨4, 0, true, [], true⟩ }

def compiling : Env Nat := { Small.env with grammarReady := fun _ => false }

def oneGrammar : List (Action Nat Nat Nat) := [.addRequest (grammarRequest 0), .addRequest (Small.request 1 3)]

def twoGrammars : List (Action Nat Nat Nat) := [.addRequest (grammarRequest 0), .addRequest (grammarRequest 1)]

end Engine

end Xmix.Sched
