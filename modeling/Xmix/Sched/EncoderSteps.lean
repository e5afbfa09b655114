import Xmix.Sched.BudgetRuns
import Xmix.Sched.EncoderCalls

/-!
# The scheduler as a caller of the encoder cache manager

Whatever the scheduler does to its encoder cache manager is a sequence of the calls of
`Xmix.Sched.EncoderCalls`, each for an input of a request it knows. So the counters of the manager
are right in every run of a decoder-only model.
-/

namespace Xmix.Sched

open List Option
open Kv (KVCacheManager)
open Relation (ReflTransGen)

variable {ι η μ : Type} [DecidableEq ι] [DecidableEq μ]

namespace CacheRun

variable {cfg : EncoderConfig} {P P' : CacheCall ι μ → Prop} {s s' s'' : CacheRun ι μ} {q : RequestSpec ι η μ}

variable {cache' : EncoderCacheManager ι μ} {requests : Dict ι (Request ι η μ)}

def Calls (cfg : EncoderConfig) (P : CacheCall ι μ → Prop) : CacheRun ι μ → CacheRun ι μ → Prop :=
  ReflTransGen fun s s' => ∃ c, P c ∧ s.Issues cfg c ∧ s.exec c = some s'

variable (q)

def By : CacheCall ι μ → Prop
  | .check r f | .canAllocate r f _ | .allocate r f | .freeInput r f => r = q.requestId ∧ f ∈ q.mmFeatures
  | _ => True

def Looks : CacheCall ι μ → Prop
  | .check r f | .canAllocate r f _ => r = q.requestId ∧ f ∈ q.mmFeatures
  | _ => False

omit [DecidableEq ι] [DecidableEq μ] in
theorem Looks.by (c : CacheCall ι μ) (h : Looks q c) : By q c := by
  cases c with
  | check | canAllocate => exact h
  | _ => exact h.elim

theorem Calls.refl (s : CacheRun ι μ) : Calls cfg P s s := ReflTransGen.refl

theorem Calls.trans (h : Calls cfg P s s') (h' : Calls cfg P s' s'') : Calls cfg P s s'' := ReflTransGen.trans h h'

theorem Calls.tail {c : CacheCall ι μ} (h : Calls cfg P s s')
    (hP : P c) (hissued : s'.Issues cfg c) (hexec : s'.exec c = some s'') :
    Calls cfg P s s'' := ReflTransGen.tail h ⟨c, hP, hissued, hexec⟩

theorem Calls.single {c : CacheCall ι μ} (hP : P c)
    (hissued : s.Issues cfg c) (hexec : s.exec c = some s') : Calls cfg P s s' :=
  (Calls.refl s).tail hP hissued hexec

theorem Calls.invariant {I : CacheRun ι μ → Prop} (h : Calls cfg P s s')
    (hstep : ∀ s c s', I s → P c → s.Issues cfg c → s.exec c = some s' → I s') (hs : I s) : I s' := by
  induction h with
  | refl => exact hs
  | tail _ hcall ih =>
    obtain ⟨c, hP, hissued, hexec⟩ := hcall
    exact hstep _ c _ ih hP hissued hexec

theorem Calls.mono (h : Calls cfg P s s') (hP : ∀ c, P c → P' c) : Calls cfg P' s s' :=
  h.invariant (fun _ c _ hs hc hissued hexec => hs.tail (hP c hc) hissued hexec) (.refl s)

theorem Sound.calls {len : μ → Nat} (h : Sound cfg len s)
    (hdec : cfg.isEncoderDecoder = false) (hcalls : Calls cfg (Sized len) s s') :
    Sound cfg len s' := by
  refine hcalls.invariant (fun s c s' h hsized hissued hexec => h.step hsized hissued ?_ hexec) h
  cases c with
  | allocate r f => exact fun hdec' => absurd (hdec.symm.trans hdec') (by simp)
  | _ => trivial

def inputsOf (inputs : List Nat) : List (ι × MmFeature μ) :=
  inputs.filterMap fun i => q.mmFeatures[i]?.map (q.requestId, ·)

omit [DecidableEq ι] [DecidableEq μ] in
theorem inputsOf_append (xs ys : List Nat) : inputsOf q (xs ++ ys) = inputsOf q xs ++ inputsOf q ys :=
  filterMap_append

variable {q}

/-! ### The scan -/

structure Scans (cfg : EncoderConfig) (q : RequestSpec ι η μ) (cache : EncoderCacheManager ι μ) (x : EncoderScan ι μ)
    (pending : List (ι × MmFeature μ)) : Prop where
  calls : Calls cfg (Looks q) ⟨cache, []⟩ ⟨x.cache, pending⟩
  perm : pending.Perm (inputsOf q (x.inputs ++ x.externalLoad))
  hashes : ∀ y ∈ pending, y.2.identifier ∈ x.hashesToSchedule
  tokens : CacheRun.tokens pending = x.numTokensToSchedule

variable {cache : EncoderCacheManager ι μ} {x : EncoderScan ι μ} {pending : List (ι × MmFeature μ)}
  {i : Nat} {f : MmFeature μ}

section
variable (h : Scans cfg q cache x pending) (hf : q.mmFeatures[i]? = some f)
include h hf

theorem Scans.hit (hdec : cfg.isEncoderDecoder = false)
    (hcheck : x.cache.checkAndUpdateCache q.requestId f.identifier = some (true, cache')) :
    Scans cfg q cache { x with cache := cache' } pending := by
  refine ⟨h.calls.tail (c := .check q.requestId f) ⟨rfl, mem_of_getElem? hf⟩ hdec ?_, h.perm, h.hashes, h.tokens⟩
  rw [exec, hcheck]
  rfl

theorem Scans.choose {remote : Nat → Bool} {numComputed : Int}
    (hpass : ¬Passed cfg numComputed f x)
    (hnone : cfg.isEncoderDecoder = false → x.cache.cached.get? f.identifier = none)
    (hcan : x.cache.canAllocate f.length x.computeBudget x.numTokensToSchedule = some (true, cache')) :
    Scans cfg q cache (chosen remote i f cache' x) (pending ++ [(q.requestId, f)]) := by
  have hinput : inputsOf q [i] = [(q.requestId, f)] := by
    rw [inputsOf, filterMap_cons, hf]
    rfl
  refine ⟨h.calls.tail (c := .canAllocate q.requestId f x.computeBudget) ⟨rfl, mem_of_getElem? hf⟩
    (fun hdec => ⟨hnone hdec, fun y hy hid => ?_⟩) ?_, ?_, fun y hy => ?_, ?_⟩
  · exact hpass (.inr (.inr ⟨hdec, hid ▸ h.hashes y hy⟩))
  · rw [exec, h.tokens, hcan]
    rfl
  · refine (h.perm.append_right _).trans ?_
    rw [← hinput, ← inputsOf_append]
    cases hremote : remote i with
    | true =>
      simp only [chosen, hremote, if_true, append_assoc]
      exact .refl _
    | false =>
      simp only [chosen, hremote, Bool.false_eq_true, if_false, inputsOf_append, append_assoc]
      exact perm_append_comm.append_left _
  · rcases mem_append.1 hy with hy | hy
    · exact mem_cons_of_mem _ (h.hashes y hy)
    · rw [mem_singleton.1 hy]
      exact mem_cons_self
  · rw [tokens_concat, h.tokens]
    rfl

end

/-- The calls that lead to a plan look at features of `q` only, and leave its inputs to be allocated. -/
def Plans (cfg : EncoderConfig) (q : RequestSpec ι η μ) (cache : EncoderCacheManager ι μ)
    (plan : EncoderPlan ι μ) : Prop :=
  ∃ pending, Calls cfg (Looks q) ⟨cache, []⟩ ⟨plan.cache, pending⟩ ∧
    pending.Perm (inputsOf q (plan.inputs ++ plan.externalLoad))

theorem tryScheduleEncoderInputs_calls {remote : Nat → Bool} {numComputed n budget : Int} {plan : EncoderPlan ι μ}
    (h : tryScheduleEncoderInputs cfg remote cache q numComputed n budget = some plan) : Plans cfg q cache plan := by
  simp only [tryScheduleEncoderInputs] at h
  split at h
  · cases h
    exact ⟨[], .refl _, .refl _⟩
  · rw [← drop_zero (l := q.mmFeatures)] at h
    refine scanFeatures_rule (fun _ x => ∃ pending, Scans cfg q cache x pending)
      (Plans cfg q cache) ?_ ?_ (fun _ _ _ _ hx _ => hx) ?_ ?_ h ⟨[], .refl _, .refl _, fun _ hy => (by cases hy), rfl⟩
    · rintro i x ⟨pending, hx⟩ -
      exact ⟨pending, hx.calls, hx.perm⟩
    · rintro i f x n - ⟨pending, hx⟩ - -
      exact ⟨pending, hx.calls, hx.perm⟩
    · rintro i f x cache' hf ⟨pending, hx⟩ hdec hcheck
      exact ⟨pending, hx.hit hf hdec hcheck⟩
    · rintro i f x cache' hf ⟨pending, hx⟩ - hpass hnone hcan
      exact ⟨_, hx.choose hf hpass hnone hcan⟩

/-! ### Allocating and freeing -/

omit [DecidableEq ι] [DecidableEq μ] in
theorem inputsOf_cons {i : Nat} {inputs : List Nat} (hf : q.mmFeatures[i]? = some f) :
    inputsOf q (i :: inputs) = (q.requestId, f) :: inputsOf q inputs := by
  rw [inputsOf, filterMap_cons, hf]
  rfl

theorem allocateInputs_calls {inputs : List Nat} (h : Pass.allocateInputs q cache inputs = some cache')
    (hpending : pending.Perm (inputsOf q inputs)) : Calls cfg (By q) ⟨cache, pending⟩ ⟨cache', []⟩ := by
  induction inputs generalizing cache pending with
  | nil =>
    cases h
    rw [hpending.eq_nil]
    exact .refl _
  | cons i inputs ih =>
    rw [Pass.allocateInputs, foldlM_cons] at h
    obtain ⟨cache₁, hcache₁, h⟩ := bind_eq_some_iff.1 h
    obtain ⟨f, hf, halloc⟩ := bind_eq_some_iff.1 hcache₁
    rw [inputsOf_cons hf] at hpending
    have hmem : (q.requestId, f) ∈ pending := hpending.mem_iff.2 mem_cons_self
    have hexec : exec ⟨cache, pending⟩ (.allocate q.requestId f) = some ⟨cache₁, pending.erase (q.requestId, f)⟩ := by
      rw [exec, halloc]
      rfl
    have hissued : Issues cfg ⟨cache, pending⟩ (.allocate q.requestId f) := hmem
    refine (Calls.single (c := .allocate q.requestId f) ⟨rfl, mem_of_getElem? hf⟩ hissued hexec).trans (ih h ?_)
    exact ((perm_cons_erase hmem).symm.trans hpending).cons_inv

theorem freeInputs_calls (test : EncoderCacheManager ι μ → MmFeature μ → Bool)
    (r : ι) (fs : List (MmFeature μ)) (hP : ∀ f ∈ fs, P (.freeInput r f)) :
    Calls cfg P ⟨cache, pending⟩ ⟨fs.foldl (fun m f => if test m f then m.freeEncoderInput r f else m)
      cache, pending⟩ := by
  induction fs generalizing cache with
  | nil => exact .refl _
  | cons f fs ih =>
    rw [foldl_cons]
    have hrest : ∀ f ∈ fs, P (.freeInput r f) := fun f hf => hP f (mem_cons_of_mem _ hf)
    split
    · exact (Calls.single (c := .freeInput r f) (hP f mem_cons_self) trivial rfl).trans (ih hrest)
    · exact ih hrest

theorem free_calls : Calls cfg (By q) ⟨cache, pending⟩ ⟨cache.free q, pending⟩ := by
  have h : Calls cfg (By q) ⟨cache, pending⟩
      ⟨(cache.getCachedInputIds q).foldl
        (fun m f => if true then m.freeEncoderInput q.requestId f else m) cache, pending⟩ :=
    freeInputs_calls (fun _ _ => true) q.requestId _ fun f hf => ⟨rfl, (mem_filter.1 hf).1⟩
  exact h

def Of (requests : Dict ι (Request ι η μ)) : CacheCall ι μ → Prop
  | .check r f | .canAllocate r f _ | .allocate r f | .freeInput r f => ∃ q, requests.get? r = some q ∧ f ∈ q.mmFeatures
  | _ => True

section
variable {q : Request ι η μ} (hq : requests.get? q.requestId = some q) (c : CacheCall ι μ)
include hq c

omit [DecidableEq μ] in
theorem By.of
    (h : By q.toRequestSpec c) : Of requests c := by
  cases c with
  | giveUp | getFreed => trivial
  | _ =>
    obtain ⟨rfl, hf⟩ := h
    exact ⟨q, hq, hf⟩

omit [DecidableEq μ] in
theorem Looks.of
    (h : Looks q.toRequestSpec c) : Of requests c := By.of hq c (h.by q.toRequestSpec c)

end

def FreesOf (requests : Dict ι (Request ι η μ)) : CacheCall ι μ → Prop
  | .freeInput r f => ∃ q, requests.get? r = some q ∧ f ∈ q.mmFeatures
  | .getFreed => True
  | _ => False

omit [DecidableEq μ] in
theorem FreesOf.of (c : CacheCall ι μ) (h : FreesOf requests c) : Of requests c := by
  cases c with
  | freeInput r f => exact h
  | getFreed => trivial
  | _ => exact h.elim

omit [DecidableEq μ] in
theorem FreesOf.back {requests' : Dict ι (Request ι η μ)}
    (hback : Scheduler.SpecsFrom requests requests') (c : CacheCall ι μ) (h : FreesOf requests' c) :
    FreesOf requests c := by
  cases c with
  | freeInput r f =>
    obtain ⟨q', hq', hf⟩ := h
    obtain ⟨q, hq, hspec⟩ := hback r q' hq'
    exact ⟨q, hq, hspec ▸ hf⟩
  | getFreed => trivial
  | _ => exact h.elim

end CacheRun

/-! ### The steps of `schedule` -/

namespace Pass

open CacheRun

variable {p p' : Pass ι η μ} {env : Env ι}

def pendingAt : Phase ι η μ → List (ι × MmFeature μ)
  | .visiting q plan => inputsOf q.toRequestSpec (plan.inputs ++ plan.externalLoad)
  | _ => []

theorem planEncoder_calls {s : Scheduler ι η μ} {q : Request ι η μ} {numComputed n budget : Int}
    {plan : EncoderPlan ι μ} (h : s.planEncoder env q numComputed n budget = .ok plan) :
    Plans s.config.encoder q.toRequestSpec s.encoderCacheManager plan :=
  tryScheduleEncoderInputs_calls (orRaise_eq_ok.1 h)

theorem planWaiting_calls {q : Request ι η μ} {c : Computed}
    {verdict : Verdict ι μ} (h : p.planWaiting env q c = .ok verdict) :
    (∀ plan, verdict = .go plan → Plans p.sched.config.encoder q.toRequestSpec p.sched.encoderCacheManager plan) ∧
      ∀ cache, verdict = .stop cache → ∃ pending,
        Calls p.sched.config.encoder (Looks q.toRequestSpec) ⟨p.sched.encoderCacheManager, []⟩ ⟨cache, pending⟩ := by
  simp only [planWaiting] at h
  split at h
  · split at h
    · cases h
    · cases h
      refine ⟨fun plan hplan => ?_, fun cache hcache => (by cases hcache)⟩
      cases hplan
      exact ⟨[], .refl _, .refl _⟩
  · split at h
    · cases h
      exact ⟨fun plan hplan => (by cases hplan), fun cache hcache => (by cases hcache)⟩
    · split at h
      · cases h
      · obtain ⟨plan, hplan, h⟩ := Except.bind_eq_ok.1 h
        obtain ⟨pending, hcalls, hperm⟩ := planEncoder_calls hplan
        split at h
        · cases h
          refine ⟨fun plan hplan => (by cases hplan), fun cache hcache => ?_⟩
          cases hcache
          exact ⟨pending, hcalls⟩
        · cases h
          refine ⟨fun plan hplan => ?_, fun cache hcache => (by cases hcache)⟩
          cases hplan
          exact ⟨pending, hcalls, hperm⟩

theorem giveUp_calls {cfg : EncoderConfig} {P : CacheCall ι μ → Prop}
    {s : CacheRun ι μ} {cache : EncoderCacheManager ι μ} {pending : List (ι × MmFeature μ)}
    (h : Calls cfg P s ⟨cache, pending⟩) (hP : P .giveUp) : Calls cfg P s ⟨cache, []⟩ :=
  h.tail hP trivial rfl

variable [DecidableEq η]

theorem Step.calls {x y : Pass ι η μ × Phase ι η μ} (hstep : Step env x y) (hwf : x.1.Wf) (hvis : x.1.Visits x.2)
    {pending : List (ι × MmFeature μ)} (hpending : pending.Perm (pendingAt x.2)) :
    ∃ pending', pending'.Perm (pendingAt y.2) ∧ Calls x.1.sched.config.encoder (Of x.1.sched.requests)
      ⟨x.1.sched.encoderCacheManager, pending⟩ ⟨y.1.sched.encoderCacheManager, pending'⟩ := by
  cases hstep with
  | @skip p r q plan ht hn =>
    obtain rfl := hwf.own r q ht.request
    obtain ⟨pending', hcalls, -⟩ := planEncoder_calls ht.planned
    rw [hpending.eq_nil]
    exact ⟨[], .refl _, giveUp_calls (hcalls.mono (Looks.of ht.request)) trivial⟩
  | @visit p r q plan ht hn =>
    obtain rfl := hwf.own r q ht.request
    obtain ⟨pending', hcalls, hperm⟩ := planEncoder_calls ht.planned
    rw [hpending.eq_nil]
    exact ⟨pending', hperm, hcalls.mono (Looks.of ht.request)⟩
  | @evict p q plan kv v p₁ p' hslots hv he =>
    have hnodup : (p.withKv kv).sched.running.Nodup := (nodup_append.1 hwf.nodup).1
    have hrun := takeVictim_running hnodup hv
    obtain ⟨x', kv', hx', -, rfl⟩ := evict_eq he
    rw [hrun] at hx'
    obtain rfl := hwf.own v x' hx'
    have hcalls : Calls p.sched.config.encoder (Of p.sched.requests) ⟨p.sched.encoderCacheManager, pending⟩
        ⟨p₁.sched.encoderCacheManager.free x'.toRequestSpec, pending⟩ := by
      rw [hrun]
      exact free_calls.mono (By.of hx')
    split
    · exact ⟨[], .refl _, giveUp_calls hcalls trivial⟩
    · exact ⟨pending, hpending, hcalls⟩
  | @grant p q plan kv blocks p' hslots hs =>
    obtain ⟨cache, hcache, rfl⟩ := scheduleRunning_eq hs
    exact ⟨[], .refl _, (allocateInputs_calls hcache hpending).mono (By.of hvis.1)⟩
  | loras | aside => exact ⟨[], .refl _, by rw [hpending.eq_nil]; exact .refl _⟩
  | @ready p r q p' hh hr =>
    obtain ⟨rfl, hst, -⟩ := hwf.head hh
    rw [hpending.eq_nil]
    obtain rfl | ⟨-, kv, failed, recving, n, rfl⟩ := makeReady_eq hh.request hr
    · exact ⟨[], .refl _, .refl _⟩
    · exact ⟨[], .refl _, .refl _⟩
  | @stop p r q c cache hh hc hplan =>
    obtain ⟨rfl, -, -⟩ := hwf.head hh
    obtain ⟨pending', hcalls⟩ := (planWaiting_calls hplan).2 cache rfl
    rw [hpending.eq_nil]
    exact ⟨[], .refl _, giveUp_calls (hcalls.mono (Looks.of hh.request)) trivial⟩
  | @starve p r q c plan kv hd | @load p r q c plan kv blocks hd ha =>
    obtain ⟨rfl, -, -⟩ := hwf.head hd.toHead
    obtain ⟨pending', hcalls, -⟩ := (planWaiting_calls hd.planned).1 plan rfl
    rw [hpending.eq_nil]
    exact ⟨[], .refl _, giveUp_calls (hcalls.mono (Looks.of hd.request)) trivial⟩
  | @enter p r q c plan kv blocks p' hd ha hs =>
    obtain ⟨rfl, -, -⟩ := hwf.head hd.toHead
    obtain ⟨pending', hcalls, hperm⟩ := (planWaiting_calls hd.planned).1 plan rfl
    obtain ⟨cache, hcache, -, rfl⟩ := scheduleWaiting_eq hs
    rw [hpending.eq_nil]
    exact ⟨[], .refl _, ((hcalls.mono (Looks.by _)).trans (allocateInputs_calls hcache hperm)).mono (By.of hd.request)⟩

end Pass

/-! ### The end of `schedule`, and the other calls -/

namespace Scheduler

open CacheRun

variable {s s' : Scheduler ι η μ} {cfg : EncoderConfig} {P : CacheCall ι μ → Prop} {pending : List (ι × MmFeature μ)}

theorem freeEncoderInputs_calls {cache : EncoderCacheManager ι μ}
    {q : Request ι η μ} (hP : ∀ f ∈ q.mmFeatures, P (.freeInput q.requestId f)) :
    Calls cfg P ⟨cache, pending⟩ ⟨freeEncoderInputs cfg cache q, pending⟩ := by
  have h : Calls cfg P ⟨cache, pending⟩ ⟨(cache.getCachedInputIds q.toRequestSpec).foldl (fun m f =>
      if decide (cfg.isEncoderDecoder = true ∧ 0 < q.numComputedTokens ∨
        ((f.offset + f.length : Nat) : Int) ≤ q.numComputedTokens) then
        m.freeEncoderInput q.requestId f else m) cache, pending⟩ :=
    freeInputs_calls (fun _ f => decide (cfg.isEncoderDecoder = true ∧ 0 < q.numComputedTokens ∨
      ((f.offset + f.length : Nat) : Int) ≤ q.numComputedTokens)) q.requestId _ fun f hf => hP f (mem_filter.1 hf).1
  simp only [decide_eq_true_eq] at h
  exact h

section
variable {e : ι × Int} (hown : Owned s.requests) (h : s.advance e = .ok s')
include hown h

theorem advance_calls
    (hP : ∀ q, s.requests.get? e.1 = some q → ∀ f ∈ q.mmFeatures, P (.freeInput e.1 f)) :
    Calls s.config.encoder P ⟨s.encoderCacheManager, pending⟩ ⟨s'.encoderCacheManager, pending⟩ := by
  obtain ⟨q, hq, h⟩ := Except.bind_eq_ok.1 h
  rw [request_eq_ok] at hq
  have hP' := hP q hq
  rw [← hown _ q hq] at hP'
  cases h
  split
  · refine freeEncoderInputs_calls ?_
    exact hP'
  · exact .refl _

theorem advance_specs (r : ι) :
    (s'.requests.get? r).map Request.toRequestSpec = (s.requests.get? r).map Request.toRequestSpec := by
  obtain ⟨q, cache, hq, rfl⟩ := advance_eq h
  rw [← hown _ q hq] at hq
  refine map_get?_set hq ?_ r
  rfl

end

theorem advance_foldlM_calls {es : List (ι × Int)} (hown : Owned s.requests) (h : es.foldlM advance s = .ok s')
    (hP : ∀ r ∈ es.map Prod.fst, ∀ q, s.requests.get? r = some q → ∀ f ∈ q.mmFeatures, P (.freeInput r f)) :
    Calls s.config.encoder P ⟨s.encoderCacheManager, pending⟩ ⟨s'.encoderCacheManager, pending⟩ := by
  have hinv := Except.foldlM_inv (fun t : Scheduler ι η μ => t.config = s.config ∧ Owned t.requests ∧
      (∀ r, (t.requests.get? r).map Request.toRequestSpec = (s.requests.get? r).map Request.toRequestSpec) ∧
      Calls s.config.encoder P ⟨s.encoderCacheManager, pending⟩ ⟨t.encoderCacheManager, pending⟩)
    (fun t e t' he ht hstep => ?_) ⟨rfl, hown, fun _ => rfl, .refl _⟩ h
  · exact hinv.2.2.2
  · obtain ⟨hcfg, hown, hspecs, hcalls⟩ := ht
    have hspecs' := advance_specs hown hstep
    refine ⟨?_, fun r q' hq' => ?_, fun r => (hspecs' r).trans (hspecs r), hcalls.trans ?_⟩
    · obtain ⟨q, cache, -, rfl⟩ := advance_eq hstep
      exact hcfg
    · obtain ⟨q, hq, hspec⟩ := SpecsFrom.of_eq hspecs' r q' hq'
      exact (congrArg RequestSpec.requestId hspec).symm.trans (hown r q hq)
    · rw [← hcfg]
      refine advance_calls hown hstep fun q' hq' f hf => ?_
      obtain ⟨q, hq, hspec⟩ := SpecsFrom.of_eq hspecs e.1 q' hq'
      exact hP e.1 (mem_map_of_mem he) q hq f (hspec ▸ hf)

end Scheduler

open CacheRun in
theorem Pass.finish_calls {p : Pass ι η μ} {out : SchedulerOutput ι μ} {s' : Scheduler ι η μ}
    {P : CacheCall ι μ → Prop} (hown : Owned p.sched.requests) (h : p.finish = .ok (out, s'))
    (hget : P .getFreed) (hP : ∀ r ∈ p.numScheduledTokens.keys, ∀ q, p.sched.requests.get? r = some q →
      ∀ f ∈ q.mmFeatures, P (.freeInput r f)) :
    Calls p.sched.config.encoder P ⟨p.sched.encoderCacheManager, []⟩ ⟨s'.encoderCacheManager, []⟩ := by
  obtain ⟨-, new, cached, -, -, rfl, hupd⟩ := finish_eq h
  obtain ⟨s₁, hs₁, hupd⟩ := Except.bind_eq_ok.1 hupd
  have hget : Calls p.sched.config.encoder P ⟨p.sched.encoderCacheManager, []⟩ ⟨p.atOutput.encoderCacheManager, []⟩ :=
    Calls.single (c := .getFreed) hget trivial rfl
  have hadv := hget.trans (Scheduler.advance_foldlM_calls (P := P) (show Owned p.atOutput.requests from hown) hs₁ hP)
  have hown₁ : Owned s₁.requests := by
    obtain ⟨-, hget⟩ :=
      Scheduler.advance_foldlM p.numScheduledTokens.nodup (show Owned p.atOutput.requests from hown) hs₁
    intro r q hq
    have hr := hget r
    rw [hq] at hr
    obtain ⟨q₀, hq₀, rfl⟩ := map_eq_some_iff.1 hr.symm
    exact hown r q₀ hq₀
  simp only at hupd
  split at hupd
  · obtain ⟨⟨requests, rfl⟩, -⟩ := Scheduler.addPlaceholders_foldlM (s := { s₁ with finishedReqIds := [] }) hown₁ hupd
    exact hadv
  · cases hupd
    exact hadv

variable [DecidableEq η]

namespace Scheduler

open CacheRun

variable {s s' : Scheduler ι η μ}

theorem Move.calls (h : Move s s') (hown : Owned s.requests) (cfg : EncoderConfig) :
    Calls cfg (FreesOf s.requests) ⟨s.encoderCacheManager, []⟩ ⟨s'.encoderCacheManager, []⟩ := by
  have hfree : ∀ r q, s.requests.get? r = some q → Calls cfg (FreesOf s.requests) ⟨s.encoderCacheManager, []⟩
      ⟨s.encoderCacheManager.free q.toRequestSpec, []⟩ := fun r q hq => by
    obtain rfl := hown r q hq
    have h : Calls cfg (FreesOf s.requests) ⟨s.encoderCacheManager, []⟩
      ⟨(s.encoderCacheManager.getCachedInputIds q.toRequestSpec).foldl
        (fun m f => if true then m.freeEncoderInput q.requestId f else m) s.encoderCacheManager, []⟩ :=
      freeInputs_calls (fun _ _ => true) q.requestId _ fun f hf => ⟨q, hq, (mem_filter.1 hf).1⟩
    exact h
  cases h with
  | finish hq | delay hq => exact hfree _ _ hq
  | revise | sent | receive | reset => exact .refl _

theorem Move.back (h : Move s s') : SpecsFrom s.requests s'.requests := by
  have hset : ∀ (r₀ : ι) (q x : Request ι η μ), s.requests.get? r₀ = some q → x.toRequestSpec = q.toRequestSpec →
      SpecsFrom s.requests (s.requests.set r₀ x) := by
    intro r₀ q x hq hspec r q' hx
    rw [Dict.get?_set] at hx
    split at hx
    next hr =>
      cases hx
      exact ⟨q, hr ▸ hq, hspec.symm⟩
    next => exact ⟨q', hx, rfl⟩
  have hpop : ∀ r₀ : ι, SpecsFrom s.requests (s.requests.pop r₀) := by
    intro r₀ r q' hx
    rw [Dict.get?_pop] at hx
    split at hx
    · cases hx
    · exact ⟨q', hx, rfl⟩
  cases h with
  | revise hq hspec | delay hq hspec => exact hset _ _ _ hq hspec
  | finish hq | sent hq => exact hpop _
  | receive | reset => exact fun _ q' hq' => ⟨q', hq', rfl⟩

theorem Moves.back (h : Moves s s') : SpecsFrom s.requests s'.requests := by
  induction h with
  | refl => exact fun _ q' hq' => ⟨q', hq', rfl⟩
  | tail _ hmove ih =>
    intro r q' hq'
    obtain ⟨q₁, hq₁, hspec₁⟩ := hmove.back r q' hq'
    obtain ⟨q, hq, hspec⟩ := ih r q₁ hq₁
    exact ⟨q, hq, hspec.trans hspec₁⟩

theorem Moves.calls (h : Moves s s') (hown : Owned s.requests) (cfg : EncoderConfig) :
    Calls cfg (FreesOf s.requests) ⟨s.encoderCacheManager, []⟩ ⟨s'.encoderCacheManager, []⟩ := by
  induction h with
  | refl => exact .refl _
  | tail hmoves hmove ih =>
    exact ih.trans ((hmove.calls (Moves.owned hmoves hown) cfg).mono (FreesOf.back (Moves.back hmoves)))

/-! ### The counters -/

def Sized (len : μ → Nat) (requests : Dict ι (Request ι η μ)) : Prop :=
  ∀ r q, requests.get? r = some q → ∀ f ∈ q.mmFeatures, f.length = len f.identifier

variable {len : μ → Nat} {env : Env ι} {out : SchedulerOutput ι μ}

section

omit [DecidableEq η] [DecidableEq μ]

theorem Sized.of {requests : Dict ι (Request ι η μ)}
    (h : Sized len requests) (c : CacheCall ι μ) (hc : Of requests c) : CacheRun.Sized len c := by
  cases c with
  | giveUp | getFreed => trivial
  | _ =>
    obtain ⟨q, hq, hf⟩ := hc
    exact h _ q hq _ hf

theorem Sized.back {requests requests' : Dict ι (Request ι η μ)}
    (h : Sized len requests) (hback : SpecsFrom requests requests') :
    Sized len requests' := by
  intro r q' hq' f hf
  obtain ⟨q, hq, hspec⟩ := hback r q' hq'
  exact h r q hq f (hspec ▸ hf)

end

theorem Steady.schedule_specs (h : s.Steady) (hs : s.schedule env = .ok (out, s')) (r : ι) :
    (s'.requests.get? r).map Request.toRequestSpec = (s.requests.get? r).map Request.toRequestSpec := by
  obtain ⟨p, hreach, hfin⟩ := schedule_eq hs
  have hruns := h.reaches hreach
  obtain ⟨-, hget, -⟩ := Pass.finish_sched hruns.wf.putBack.own hfin
  have hr := congrArg (Option.map Request.toRequestSpec) (hget r)
  rw [Option.map_map, Option.map_map] at hr
  exact hr.trans (hruns.specs r)

theorem Steady.schedule_sound (h : s.Steady) (hdec : s.config.encoder.isEncoderDecoder = false)
    (hsized : Sized len s.requests) (hsound : Sound s.config.encoder len ⟨s.encoderCacheManager, []⟩)
    (hs : s.schedule env = .ok (out, s')) :
    Sound s.config.encoder len ⟨s'.encoderCacheManager, []⟩ := by
  obtain ⟨p, hreach, hfin⟩ := schedule_eq hs
  have hinv := hreach.induction (I := fun p x => s.RunsAt (p, x) ∧
      ∃ pending, pending.Perm (Pass.pendingAt x) ∧ Sound s.config.encoder len ⟨p.sched.encoderCacheManager, pending⟩)
    ⟨h.runsAt, [], .refl _, hsound⟩ fun x y hstep ⟨hx, pending, hperm, hpend⟩ => by
      obtain ⟨pending', hperm', hcalls⟩ := hstep.calls hx.wf hx.visits hperm
      rw [hx.config] at hcalls
      exact ⟨hx.step hstep, pending', hperm', hpend.calls hdec (hcalls.mono (hsized.back hx.toRuns.back).of)⟩
  obtain ⟨hruns, pending, hperm, hpend⟩ := hinv
  rw [hperm.eq_nil] at hpend
  have hcalls :=
    Pass.finish_calls (P := FreesOf p.sched.requests) hruns.wf.putBack.own hfin trivial fun r _ q hq f hf => ⟨q, hq, hf⟩
  replace hcalls : Calls p.sched.config.encoder (FreesOf p.sched.requests)
    ⟨p.sched.encoderCacheManager, []⟩ ⟨s'.encoderCacheManager, []⟩ := hcalls
  rw [hruns.config] at hcalls
  exact hpend.calls hdec (hcalls.mono fun c hc => (hsized.back hruns.toRuns.back).of c hc.of)

end Scheduler

namespace Engine

variable {e e' : Engine ι η μ} {len : μ → Nat}

def AddsSized (len : μ → Nat) : Action ι η μ → Prop
  | .addRequest q => ∀ f ∈ q.mmFeatures, f.length = len f.identifier
  | _ => True

/-- After every run the counters of the encoder cache are right. -/
theorem run_encoderAccounts {config : SchedulerConfig} {kv : KVCacheManager ι η} {size : Nat} {as : List (Action ι η μ)}
    (hdec : config.encoder.isEncoderDecoder = false)
    (hsteps : Along step (fun e a => e.Fresh a ∧ AddsSized len a) (init config kv size) as)
    (hrun : runFrom step (init config kv size) as = some e) : e.sched.encoderCacheManager.Accounts len := by
  have hinv : e.sched.Steady ∧ e.sched.config = config ∧ Scheduler.Sized len e.sched.requests ∧
      CacheRun.Sound config.encoder len ⟨e.sched.encoderCacheManager, []⟩ := by
    refine hsteps.invariant (I := fun e => e.sched.Steady ∧ e.sched.config = config ∧
      Scheduler.Sized len e.sched.requests ∧
        CacheRun.Sound config.encoder len ⟨e.sched.encoderCacheManager, []⟩) (fun e a e' h ha hstep => ?_)
      ⟨init_steady config kv size, rfl, fun _ _ hq => (by cases hq), CacheRun.start_sound _ len size⟩ hrun
    obtain ⟨hsteady, hcfg, hsized, hsound⟩ := h
    obtain ⟨hsteady', hcfg'⟩ := step_steady hsteady ha.1 hstep
    refine ⟨hsteady', hcfg'.trans hcfg, ?_⟩
    obtain ⟨q, rfl, rfl⟩ | ⟨env, out, rfl, hs, -⟩ | ⟨hchanges, -⟩ := step_changes hsteady.wf hstep
    · refine ⟨fun r x hx f hf => ?_, hsound⟩
      replace hx : (e.sched.requests.set q.requestId q.new).get? r = some x := hx
      rw [Dict.get?_set] at hx
      split at hx
      · cases hx
        exact ha.2 f hf
      · exact hsized r x hx f hf
    · refine ⟨hsized.back (.of_eq (hsteady.schedule_specs hs)), ?_⟩
      subst hcfg
      exact hsteady.schedule_sound hdec hsized hsound hs
    · refine ⟨hsized.back hchanges.moves.back, ?_⟩
      exact hsound.calls hdec ((hchanges.moves.calls hsteady.wf.own config.encoder).mono fun c hc => hsized.of c hc.of)
  exact hinv.2.2.2.accounts

def encDec : SchedulerConfig := { Small.config with encoder := ⟨true, false⟩ }

def audioTokens (h : Nat) : Nat := if h = 7 then 4 else 8

def audioRequest (r h : Nat) : RequestSpec Nat Nat Nat :=
  { Small.request r 3 with mmFeatures := [⟨h, 0, audioTokens h⟩] }

def pairedAudio : List (Action Nat Nat Nat) :=
  [.addRequest (audioRequest 0 7), .addRequest (audioRequest 1 7), .schedule Small.env]

/-- Both requests refer to the one entry. -/
theorem pairedAudio_accounts : ∃ e, runFrom step (init Small.config Small.manager 10) pairedAudio = some e ∧
    e.sched.encoderCacheManager.cached.get? 7 = some [1, 0] ∧ e.sched.encoderCacheManager.Accounts audioTokens := by
  have hsized : ∀ r, AddsSized audioTokens (.addRequest (audioRequest r 7)) := fun r f hf => by rw [mem_singleton.1 hf]
  have hsteps : Along step (fun e a => e.Fresh a ∧ AddsSized audioTokens a)
    (init Small.config Small.manager 10) pairedAudio :=
    fun _ h => ⟨⟨rfl, hsized 0⟩, fun _ _ => ⟨⟨by cases h; rfl, hsized 1⟩, fun _ _ => ⟨⟨trivial, trivial⟩, trivial⟩⟩⟩
  exact ⟨_, rfl, rfl, run_encoderAccounts rfl hsteps rfl⟩

def sharedAudio : List (Action Nat Nat Nat) :=
  [.addRequest (audioRequest 0 7), .schedule Small.env, .updateFromOutput (Small.sampled [0]) fun _ => false,
    .addRequest (audioRequest 1 7), .schedule Small.env, .updateFromOutput (Small.sampled [0, 1]) fun _ => false,
    .addRequest (audioRequest 2 8)]

/-- The input is allocated twice, and the eviction loop runs out of entries. -/
theorem sharedAudio_raises : ∃ e, runFrom step (init encDec Small.manager 10) sharedAudio = some e ∧
    ¬e.sched.encoderCacheManager.Accounts audioTokens ∧
    e.sched.schedule Small.env = .error (.raised .encoderCacheManager) := by
  obtain ⟨e, he⟩ := isSome_iff_exists.1 (show (runFrom step (init encDec Small.manager 10) sharedAudio).isSome from rfl)
  have hsched : ((runFrom step (init encDec Small.manager 10) sharedAudio).any fun e =>
      e.sched.encoderCacheManager.numFreeSlots = 2 &&
        decide (e.sched.encoderCacheManager.cached.sum (fun h _ => (audioTokens h : Int)) = 4) &&
        decide (e.sched.encoderCacheManager.cacheSize = 10) &&
        decide (Except.error? (e.sched.schedule Small.env) = some (.raised .encoderCacheManager))) =
          true := by decide +kernel
  rw [he, any_some, Bool.and_eq_true, Bool.and_eq_true, Bool.and_eq_true, decide_eq_true_eq,
    decide_eq_true_eq, decide_eq_true_eq, decide_eq_true_eq] at hsched
  obtain ⟨⟨⟨hfree, hsum⟩, hsize⟩, hraise⟩ := hsched
  refine ⟨e, he, fun hacc => ?_, Except.error?_eq_some.1 hraise⟩
  have := hacc.free
  rw [hfree, hsize, hsum] at this
  exact absurd this (by decide)

end Engine

end Xmix.Sched
