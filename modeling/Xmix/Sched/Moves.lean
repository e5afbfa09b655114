import Xmix.Sched.Queues

/-!
# The calls between two steps

What `update_from_output`, `update_draft_token_ids`, `finish_requests` and `reset_prefix_cache` do to the scheduler, one
request at a time. The source takes requests out of the queues before or after a loop over them; seen from outside, each
request leaves the queues as it is freed.
-/

namespace Xmix.Sched

open Xmix.Except List
open Kv (KVCacheManager)
open Relation (ReflTransGen)

variable {ι η μ : Type} [DecidableEq ι] [DecidableEq η] [DecidableEq μ]

namespace Scheduler

inductive Move : Scheduler ι η μ → Scheduler ι η μ → Prop
  | revise {s r q q' kv} (hq : s.requests.get? r = some q) (hspec : q'.toRequestSpec = q.toRequestSpec)
    (hst : q'.status = q.status)
    (hkv : Caches s.kvCacheManager kv) : Move s { s with kvCacheManager := kv, requests := s.requests.set r q' }
  | finish {s r q kv kv'} (hq : s.requests.get? r = some q) (hkv : Caches s.kvCacheManager kv)
    (hfree : kv.free r = some kv') :
    Move s { s with
      kvCacheManager := kv'
      requests := s.requests.pop r
      encoderCacheManager := s.encoderCacheManager.free q.toRequestSpec
      finishedReqIds := s.finishedReqIds.insert r
      running := s.running.filter (· ≠ r)
      waiting := s.waiting.filter (· ≠ r) }
  | delay {s r q q' kv} (hq : s.requests.get? r = some q) (hspec : q'.toRequestSpec = q.toRequestSpec)
    (hfin : q'.status.isFinished = true) (hkv : Caches s.kvCacheManager kv) (hconn : s.config.hasConnector = true) :
    Move s { s with
      kvCacheManager := kv
      requests := s.requests.set r q'
      encoderCacheManager := s.encoderCacheManager.free q.toRequestSpec
      finishedReqIds := s.finishedReqIds.insert r
      running := s.running.filter (· ≠ r)
      waiting := s.waiting.filter (· ≠ r) }
  | sent {s r q kv} (hq : s.requests.get? r = some q) (hfin : q.status.isFinished = true)
    (hfree : s.kvCacheManager.free r = some kv) :
    Move s { s with kvCacheManager := kv, requests := s.requests.pop r }
  | receive {s} (finished failed : List ι) :
    Move s { s with finishedRecvingKvReqIds := finished, failedRecvingKvReqIds := failed }
  | reset {s} : Move s s.resetPrefixCache

def Moves : Scheduler ι η μ → Scheduler ι η μ → Prop := ReflTransGen Move

variable {s s' : Scheduler ι η μ} {out : SchedulerOutput ι μ} {res : ModelRunnerOutput ι} {delay : ι → Bool}

theorem Move.later (h : Move s s') : (Owned s.requests → Owned s'.requests) ∧ s'.config = s.config := by
  cases h with
  | revise hq hspec hst hkv =>
    refine ⟨fun hs => hs.set ?_, rfl⟩
    exact (congrArg RequestSpec.requestId hspec).trans (hs _ _ hq)
  | delay hq hspec hfin hkv hconn =>
    refine ⟨fun hs => hs.set ?_, rfl⟩
    exact (congrArg RequestSpec.requestId hspec).trans (hs _ _ hq)
  | finish hq | sent hq =>
    refine ⟨fun hs r' x hx => ?_, rfl⟩
    rw [Dict.get?_pop] at hx
    split at hx
    · cases hx
    · exact hs r' x hx
  | receive | reset => exact ⟨id, rfl⟩

theorem filter_ne_of_notMem {l : List ι} {r : ι} (h : r ∉ l) : l.filter (· ≠ r) = l :=
  filter_eq_self.2 fun x hx => decide_eq_true fun hxr : x = r => h (hxr ▸ hx)

theorem Move.wf (h : Move s s') (hs : s.Wf) : s'.Wf := by
  cases h with
  | revise hq hspec hst hkv =>
    exact Queues.set hs hq ((congrArg RequestSpec.requestId hspec).trans (hs.own _ _ hq)) (by rw [hst]) (by rw [hst])
  | finish hq hkv hfree => exact Queues.remove hs (by simp) fun x hx => Dict.get?_pop_of_ne hx
  | @delay r q q' kv hq hspec hfin hkv hconn =>
    refine Queues.remove hs (fun x hx => ?_) fun x hx => Dict.get?_set_of_ne hx
    obtain rfl : q' = x := by simpa using hx
    exact ⟨(congrArg RequestSpec.requestId hspec).trans (hs.own r q hq), hfin⟩
  | @sent r q kv hq hfin hfree =>
    have hrun : r ∉ s.running := fun hm => by
      rw [hs.mem_running hq] at hm
      simp [hm, RequestStatus.isFinished] at hfin
    have hwait : r ∉ s.waiting := fun hm => by
      rw [hs.mem_waiting hq] at hm
      simp [hm.2] at hfin
    have hrem : Queues (s.requests.pop r) _ _ := Queues.remove hs (by simp) fun x hx => Dict.get?_pop_of_ne hx
    rwa [filter_ne_of_notMem hrun, filter_ne_of_notMem hwait] at hrem
  | receive | reset => exact hs

theorem Moves.wf (h : Moves s s') (hs : s.Wf) : s'.Wf := by
  induction h with
  | refl => exact hs
  | tail _ hmove ih => exact hmove.wf ih

def Changes : Scheduler ι η μ → Scheduler ι η μ → Prop := ReflTransGen fun s s' => Move s s' ∧ Later s s'

theorem Changes.refl (s : Scheduler ι η μ) : Changes s s := ReflTransGen.refl

theorem Changes.moves (h : Changes s s') : Moves s s' := ReflTransGen.mono (p := Move) (fun _ _ hm => hm.1) s s' h

theorem Changes.later (h : Changes s s') : Later s s' := by
  induction h with
  | refl => exact .refl s
  | tail _ hmove ih => exact ih.trans hmove.2

theorem Changes.owned (h : Changes s s') (hs : Owned s.requests) : Owned s'.requests := h.later.owned hs

theorem Changes.revise {r : ι} {q q' : Request ι η μ}
    {kv : KVCacheManager ι η} (hown : Owned s.requests) (hq : s.requests.get? r = some q)
    (hl : q.Later s.config.async q') (hst : q'.status = q.status) (hkv : Caches s.kvCacheManager kv) :
    Changes s ({ s with kvCacheManager := kv }.setRequest q') := by
  have hid : q'.requestId = r := (congrArg RequestSpec.requestId hl.spec).trans (hown r q hq)
  subst hid
  exact .single ⟨.revise hq hl.spec hst hkv, ((Later.refl s).setRequest hq hl).frame⟩

theorem Changes.receive (h : Changes s s') (finished failed : List ι) :
    Changes s { s' with finishedRecvingKvReqIds := finished, failedRecvingKvReqIds := failed } :=
  h.tail ⟨.receive finished failed, (Later.refl s').frame⟩

/-! ### Freeing one request -/

theorem freeRequest_move {q q' : Request ι η μ} {kv : KVCacheManager ι η} (hq : s.requests.get? q'.requestId = some q)
    (hl : q.Later s.config.async q') (hfin : q'.status.isFinished = true) (hkv : Caches s.kvCacheManager kv)
    {running waiting : List ι}
    (h : { s with kvCacheManager := kv, running := running, waiting := waiting }.freeRequest q' delay = .ok s') :
    ∃ t, (Move s t ∧ Later s t) ∧ t.running = s.running.filter (· ≠ q'.requestId) ∧
      t.waiting = s.waiting.filter (· ≠ q'.requestId) ∧
      s' = { t with running := running, waiting := waiting } ∧ ∀ r, r ≠ q'.requestId →
        t.requests.get? r = s.requests.get? r := by
  rcases freeRequest_eq h with ⟨kv', hfree, rfl⟩ | ⟨hconn, rfl⟩
  · refine ⟨_, ⟨.finish hq hkv hfree, ((Later.refl s).pop _).frame filter_sublist⟩, rfl, rfl, ?_,
      fun r hr => Dict.get?_pop_of_ne hr⟩
    rw [hl.spec]
  · refine ⟨_, ⟨.delay hq hl.spec hfin hkv hconn, ((Later.refl s).setRequest hq hl).frame filter_sublist⟩, rfl, rfl, ?_,
      fun r hr => Dict.get?_set_of_ne hr⟩
    rw [hl.spec]

/-! ### update_from_output -/

theorem filter_notMem_singleton (l : List ι) (r : ι) : l.filter (· ∉ [r]) = l.filter (· ≠ r) :=
  filter_congr fun x _ => by simp

def Update.view (u : Update ι η μ) : Scheduler ι η μ :=
  { u.sched with
    running := u.sched.running.filter (· ∉ u.stoppedRunning)
    waiting := u.sched.waiting.filter (· ∉ u.stoppedPreempted) }

variable {skipped : List ι} {u u' : Update ι η μ}

theorem Update.Wf.view_step {e : ι × Int} (h : u.Wf) (hu : updateRequest out res delay skipped u e = .ok u') :
    Changes u.view u'.view ∧ u'.sched.running = u.sched.running := by
  obtain ⟨-, ⟨rfl, -⟩ | ⟨q, q', kv, hq, hkv, hout, hcase⟩⟩ := updateRequest_cases h.queues.own hu
  · exact ⟨.refl _, rfl⟩
  rcases hcase with ⟨hst, rfl⟩ | ⟨hfin, s', hs', rfl⟩
  · exact ⟨Changes.revise (s := u.view) h.queues.own hq ⟨hout.spec, .inl hst, hout.placeholders⟩ hst hkv, rfl⟩
  · have hid : q'.requestId = e.1 := (congrArg RequestSpec.requestId hout.spec).trans (h.queues.own _ q hq)
    rw [← hid] at hq
    obtain ⟨t, hmove, hrun, hwait, rfl, -⟩ :=
      freeRequest_move (s := u.view) hq ⟨hout.spec, .inr hfin, hout.placeholders⟩ hfin hkv hs'
    have hview : ∀ {xs ys}, u.sched.running.filter (· ∉ xs) = t.running → u.sched.waiting.filter (· ∉ ys) = t.waiting →
        Update.view ⟨{ t with running := u.sched.running, waiting := u.sched.waiting }, xs, ys⟩ = t := fun hx hy => by
      rw [Update.view, hx, hy]
    -- the request is in one of the queues at most
    split
    next hst =>
      have hmem : q'.requestId ∉ u.view.waiting := h.queues.not_mem_waiting ((h.queues.mem_running hq).2 hst)
      rw [filter_ne_of_notMem hmem] at hwait
      refine ⟨.single ?_, rfl⟩
      rwa [hview (by rw [filter_notMem_append, filter_notMem_singleton, ← hid]; exact hrun.symm) hwait.symm]
    next hst =>
      have hmem : q'.requestId ∉ u.view.running := fun hmem => hst ((h.queues.mem_running hq).1 hmem)
      rw [filter_ne_of_notMem hmem] at hrun
      refine ⟨.single ?_, rfl⟩
      rwa [hview hrun.symm (by rw [filter_notMem_append, filter_notMem_singleton, ← hid]; exact hwait.symm)]

theorem invalidateBlocks_changes {invalid marked marked' : List Nat}
    {affected affected' : List ι} {r : ι} (hown : Owned s.requests)
    (h : invalidateBlocks invalid (s, affected, marked) r = .ok (s', affected', marked')) :
    Changes s s' := by
  obtain ⟨q, hq, h⟩ := bind_eq_ok.1 h
  rw [request_eq_ok] at hq
  split at h
  · cases h
    exact .revise hown hq ⟨rfl, .inl rfl, fun _ h => h⟩ rfl (.inl rfl)
  · cases h

theorem Moves.owned (h : Moves s s') (hs : Owned s.requests) : Owned s'.requests := by
  induction h with
  | refl => exact hs
  | tail _ hmove ih => exact hmove.later.1 ih

theorem invalidateBlocks_foldlM {invalid marked marked' : List Nat}
    {affected affected' rs : List ι} (hown : Owned s.requests)
    (h : rs.foldlM (invalidateBlocks invalid) (s, affected, marked) = .ok (s', affected', marked')) :
    Changes s s' :=
  foldlM_inv (fun x : Scheduler ι η μ × List ι × List Nat => Changes s x.1)
    (fun _ _ _ _ hx hstep => hx.trans (invalidateBlocks_changes (hx.owned hown) hstep)) (.refl s) h

theorem handleInvalidBlocks_changes {invalid : List Nat}
    (hown : Owned s.requests) (h : s.handleInvalidBlocks invalid = .ok (s', skipped)) :
    Changes s s' := by
  obtain ⟨⟨s₁, failed, marked⟩, h₁, h⟩ := bind_eq_ok.1 h
  obtain ⟨⟨s₂, skipped', marked'⟩, h₂, h⟩ := bind_eq_ok.1 h
  cases h
  have hchanges :=
    (invalidateBlocks_foldlM hown h₁).receive s₁.finishedRecvingKvReqIds (s₁.failedRecvingKvReqIds ∪ failed)
  exact hchanges.trans (invalidateBlocks_foldlM (hchanges.owned hown) h₂)

theorem updateFromOutput_changes (h : s.Wf) (hs : s.updateFromOutput out res delay = .ok s') : Changes s s' := by
  obtain ⟨⟨s₁, skipped⟩, hs₁, hs⟩ := bind_eq_ok.1 hs
  obtain ⟨u, hu, hs⟩ := bind_eq_ok.1 hs
  have hchanges₁ : Changes s s₁ := by
    split at hs₁
    · cases hs₁
      exact .refl _
    · exact handleInvalidBlocks_changes h.own hs₁
  have hview : Update.view ⟨s₁, [], []⟩ = s₁ := by simp [Update.view]
  have hstart : Update.Wf ⟨s₁, [], []⟩ := by
    have hwf := hchanges₁.moves.wf h
    refine ⟨?_, (nodup_append.1 hwf.nodup).1⟩
    rw [← hview] at hwf
    exact hwf
  obtain ⟨hwf, hchanges⟩ : u.Wf ∧ Changes s u.view := by
    refine foldlM_inv (fun u => u.Wf ∧ Changes s u.view)
      (fun u e u' _ hx hstep => ?_) ⟨hstart, hview.symm ▸ hchanges₁⟩ hu
    obtain ⟨hstep, hrun⟩ := hx.1.view_step hstep
    exact ⟨⟨hstep.moves.wf hx.1.queues, hrun ▸ hx.1.nodup⟩, hx.2.trans hstep⟩
  refine foldlM_inv (Changes s) (fun x r y _ hx hstep => ?_) ?_ hs
  · obtain ⟨q, hq, hstep⟩ := bind_eq_ok.1 hstep
    rw [request_eq_ok] at hq
    split at hstep
    next hfin =>
      obtain ⟨kv, hkv, rfl⟩ := freeBlocks_eq hstep
      exact hx.tail ⟨.sent hq hfin hkv, ((Later.refl x).pop r).frame⟩
    · cases hstep
  · rw [removeAll_eq_filter hwf.nodup]
    exact hchanges.receive _ _

/-! ### The other calls -/

theorem updateDraftTokenIds_changes (hown : Owned s.requests) (drafts : List (ι × List Token)) :
    Changes s (s.updateDraftTokenIds drafts) := by
  induction drafts generalizing s with
  | nil => exact .refl _
  | cons d drafts ih =>
    have hstep : Changes s (s.setDraftTokenIds d) := by
      rw [setDraftTokenIds]
      split
      · exact .refl _
      next q hq =>
        split
        · exact .refl _
        · exact .revise hown hq ⟨rfl, .inl rfl, fun _ h => h⟩ rfl (.inl rfl)
    exact hstep.trans (ih (hstep.owned hown))

theorem freeRequests_changes {qs : List (Request ι η μ)} {status : RequestStatus} (hst : status.isFinished = true)
    (hqs : ∀ q ∈ qs, s.requests.get? q.requestId = some q) (hnodup : (qs.map fun q => q.requestId).Nodup)
    (h : qs.foldlM (fun (s : Scheduler ι η μ) (q : Request ι η μ) => s.freeRequest
      { q with status := status } delay) { s with
      running := s.running.filter (· ∉ qs.map fun q : Request ι η μ => q.requestId)
      waiting := s.waiting.filter (· ∉ qs.map fun q : Request ι η μ => q.requestId) } = .ok s') : Changes s s' := by
  induction qs generalizing s with
  | nil =>
    cases h
    simp only [map_nil, not_mem_nil, not_false_eq_true, decide_true, filter_true]
    exact .refl s
  | cons q qs ih =>
    rw [foldlM_cons] at h
    obtain ⟨s₁, hs₁, h⟩ := bind_eq_ok.1 h
    rw [map_cons, nodup_cons] at hnodup
    obtain ⟨t, hmove, hrun, hwait, rfl, hne⟩ :=
      freeRequest_move
        (show s.requests.get? ({ q with status := status } : Request ι η μ).requestId = some q from
          hqs q mem_cons_self)
        ⟨rfl, .inr hst, fun _ h => h⟩ hst (.inl rfl) hs₁
    refine .head hmove (ih (fun x hx => ?_) hnodup.2 ?_)
    · have hx' : x.requestId ≠ q.requestId := fun heq => hnodup.1 (heq ▸ mem_map_of_mem hx)
      rw [hne x.requestId hx']
      exact hqs x (mem_cons_of_mem q hx)
    · have hfilter : ∀ l : List ι, (l.filter (· ≠ q.requestId)).filter (· ∉ qs.map fun q => q.requestId) =
          l.filter (· ∉ (q :: qs).map fun q => q.requestId) := fun l => by
        rw [filter_filter]
        refine filter_congr fun x _ => ?_
        rw [map_cons, ← Bool.decide_and, decide_eq_decide, mem_cons, not_or, and_comm]
      rw [hrun, hwait, hfilter, hfilter]
      exact h

theorem finishRequests_changes {ids : List ι} {status : RequestStatus} (h : s.Wf)
    (hs : s.finishRequests ids status delay = .ok s') :
    Changes s s' := by
  rw [finishRequests] at hs
  split at hs
  next hst =>
    obtain ⟨hrun, hwait⟩ := h.finishRequests_queues ids
    simp only [hrun, hwait] at hs
    refine freeRequests_changes hst (fun q hq => ((mem_unfinished h.own).1 hq).2.1) ?_ hs
    exact unfinished_nodup h.own ids
  next => cases hs

end Scheduler

namespace Engine

variable {e e' : Engine ι η μ}

theorem step_changes {a : Action ι η μ} (h : e.sched.Wf) (hstep : e.step a = some e') :
    (∃ q, a = .addRequest q ∧ e' = ⟨e.sched.addRequest q, e.inFlight⟩) ∨
      (∃ env out, a = .schedule env ∧ e.sched.schedule env = .ok (out, e'.sched) ∧ e'.inFlight = e.inFlight ++ [out]) ∨
      Scheduler.Changes e.sched e'.sched ∧ e'.inFlight.Sublist e.inFlight ∧ ∀ env, a ≠ .schedule env := by
  rw [step_eq_some] at hstep
  cases a with
  | addRequest q =>
    cases hstep
    exact .inl ⟨q, rfl, rfl⟩
  | schedule env =>
    obtain ⟨⟨out, s⟩, hs, hstep⟩ := bind_eq_ok.1 hstep
    cases hstep
    exact .inr (.inl ⟨env, out, rfl, hs, rfl⟩)
  | updateFromOutput res delay =>
    simp only [exec] at hstep
    split at hstep
    · cases hstep
    next out outs hout =>
      obtain ⟨s, hs, hstep⟩ := bind_eq_ok.1 hstep
      cases hstep
      exact .inr (.inr ⟨Scheduler.updateFromOutput_changes h (mapError_eq_ok.1 hs), by
        rw [hout]; exact sublist_cons_self _ _, fun _ => (by simp)⟩)
  | updateDraftTokenIds drafts =>
    cases hstep
    exact .inr (.inr ⟨Scheduler.updateDraftTokenIds_changes h.own drafts, .refl _, fun _ => (by simp)⟩)
  | finishRequests ids status delay =>
    obtain ⟨s, hs, hstep⟩ := bind_eq_ok.1 hstep
    cases hstep
    exact .inr (.inr ⟨Scheduler.finishRequests_changes h (mapError_eq_ok.1 hs), .refl _, fun _ => (by simp)⟩)
  | resetPrefixCache =>
    cases hstep
    exact .inr (.inr ⟨.single ⟨.reset, (Scheduler.Later.refl e.sched).frame⟩, .refl _, fun _ => (by simp)⟩)

end Engine

end Xmix.Sched
