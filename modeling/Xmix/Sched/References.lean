import Xmix.Sched.EncoderSteps

/-!
# The references of the encoder cache

A lookup that hits takes a reference, before it is known whether the request gets its blocks. Of a
request that runs, is preempted or finishes the references are given back sooner or later; of a
request that the waiting loop gives up on they are not. Only running requests hold references as
long as no waiting request can hit: none of its inputs is in the cache or belongs to another request
as well.
-/

namespace Xmix.Sched

open EncoderCacheManager List Option Dict
open Kv (KVCacheManager)
open Relation (ReflTransGen)

variable {ι η μ : Type} [DecidableEq ι] [DecidableEq μ]

namespace EncoderCacheManager

variable {m m' : EncoderCacheManager ι μ} {r r' : ι} {k : μ} {f : MmFeature μ}

variable {refs : List ι}

variable (m r)

def Refers (k : μ) : Prop := ∃ refs, m.cached.get? k = some refs ∧ r ∈ refs

def Distinct : Prop := ∀ k refs, m.cached.get? k = some refs → refs.Nodup

variable {m r}

omit [DecidableEq ι] in
theorem init_distinct (size : Nat) : (init size : EncoderCacheManager ι μ).Distinct := fun _ _ h => (by cases h)

theorem checkAndUpdateCache_refs {h : μ} {hit : Bool}
    (hm : m.checkAndUpdateCache r h = some (hit, m')) (hk : m'.cached.get? k = some refs) :
    m.cached.get? k = some refs ∨ h = k ∧ (m.cached.get? k).isSome ∧ refs = ((m.cached.get? k).getD []).insert r := by
  rw [checkAndUpdateCache] at hm
  split at hm
  · cases hm
    exact .inl hk
  next hc =>
    obtain ⟨n, -, hm⟩ := bind_eq_some_iff.1 hm
    cases hm
    rw [get?_set] at hk
    split at hk
    next hkh =>
      cases hk
      rw [hkh, hc]
      exact .inr ⟨rfl, rfl, rfl⟩
    next => exact .inl hk
  next refs₀ _ hc =>
    cases hm
    rw [get?_set] at hk
    split at hk
    next hkh =>
      cases hk
      rw [hkh, hc]
      exact .inr ⟨rfl, rfl, rfl⟩
    next => exact .inl hk

omit [DecidableEq ι] in
theorem evictLoop_back {n : Int} {es : List (μ × Nat)}
    (hm : m.evictLoop n es = some m') (hk : m'.cached.get? k = some refs) :
    m.cached.get? k = some refs := by
  induction es generalizing m with
  | nil =>
    rw [evictLoop] at hm
    split at hm
    · cases hm
      exact hk
    · cases hm
  | cons e es ih =>
    obtain ⟨h, n'⟩ := e
    rw [evictLoop] at hm
    split at hm
    · cases hm
      exact hk
    · obtain ⟨-, -, hm⟩ := bind_eq_some_iff.1 hm
      have hk₁ : (m.cached.pop h).get? k = some refs := ih hm
      rw [get?_pop] at hk₁
      split at hk₁
      · cases hk₁
      · exact hk₁

omit [DecidableEq ι] in
theorem canAllocate_back {n j : Nat} {budget : Int} {fits : Bool} (hm : m.canAllocate n budget j = some (fits, m'))
    (hk : m'.cached.get? k = some refs) : m.cached.get? k = some refs := by
  simp only [canAllocate] at hm
  split at hm
  · cases hm
    exact hk
  · split at hm
    · cases hm
      exact hk
    · split at hm
      · cases hm
        exact hk
      · obtain ⟨m₁, hm₁, hm⟩ := map_eq_some_iff.1 hm
        cases hm
        exact evictLoop_back hm₁ hk

theorem freeEncoderInput_get? (m : EncoderCacheManager ι μ) (r : ι) (f : MmFeature μ) (k : μ) :
    (m.freeEncoderInput r f).cached.get? k = if f.identifier =
      k then (m.cached.get? k).map (·.erase r) else m.cached.get? k := by
  have hset : ∀ refs, m.cached.get? f.identifier = some refs → (m.cached.set f.identifier (refs.erase r)).get? k =
      if f.identifier = k then (m.cached.get? k).map (·.erase r) else m.cached.get? k := by
    intro refs hc
    rw [get?_set]
    by_cases hk : f.identifier = k
    · rw [if_pos hk, if_pos hk.symm, ← hk, hc]
      rfl
    · rw [if_neg hk, if_neg (Ne.symm hk)]
  rw [freeEncoderInput]
  split
  next hc =>
    by_cases hk : f.identifier = k
    · rw [if_pos hk, ← hk, hc]
      rfl
    · rw [if_neg hk]
  next hc =>
    by_cases hk : f.identifier = k
    · rw [if_pos hk, ← hk, hc]
      rfl
    · rw [if_neg hk]
  next refs _ hc =>
    simp only
    split
    · exact hset refs hc
    · exact hset refs hc

theorem not_refers_freeEncoderInput (hd : m.Distinct) : ¬(m.freeEncoderInput r f).Refers r f.identifier := by
  rintro ⟨refs, hc, hmem⟩
  rw [freeEncoderInput_get?, if_pos rfl] at hc
  obtain ⟨refs₀, hc₀, rfl⟩ := map_eq_some_iff.1 hc
  exact (hd _ _ hc₀).not_mem_erase hmem

end EncoderCacheManager

/-! ### Calls -/

namespace CacheRun

variable {cfg : EncoderConfig} {P : CacheCall ι μ → Prop} {s s' : CacheRun ι μ} {c : CacheCall ι μ}
  {r : ι} {k : μ} {q : RequestSpec ι η μ}

section
variable (h : s.exec c = some s')
include h

theorem exec_refs {refs : List ι} (hk : s'.cache.cached.get? k = some refs) :
    s.cache.cached.get? k = some refs ∨
      (∃ r f, (c = .check r f ∧ (s.cache.cached.get? k).isSome ∨ c = .allocate r f) ∧ f.identifier = k ∧
        refs = ((s.cache.cached.get? k).getD []).insert r) ∨
      ∃ r refs₀, s.cache.cached.get? k = some refs₀ ∧ refs = refs₀.erase r := by
  cases c with
  | check r f =>
    obtain ⟨⟨hit, m⟩, hm, rfl⟩ := map_eq_some_iff.1 h
    rcases checkAndUpdateCache_refs hm hk with hsame | ⟨hid, hsome, hrefs⟩
    · exact .inl hsame
    · exact .inr (.inl ⟨r, f, .inl ⟨rfl, hsome⟩, hid, hrefs⟩)
  | canAllocate r f budget =>
    obtain ⟨⟨fits, m⟩, hm, rfl⟩ := map_eq_some_iff.1 h
    exact .inl (canAllocate_back hm hk)
  | allocate r f =>
    obtain ⟨m, hm, rfl⟩ := map_eq_some_iff.1 h
    obtain ⟨-, rfl⟩ := allocate_eq_some hm
    rw [get?_set] at hk
    split at hk
    next hkf =>
      cases hk
      exact .inr (.inl ⟨r, f, .inr rfl, hkf.symm, by rw [hkf]⟩)
    next => exact .inl hk
  | freeInput r f =>
    cases h
    rw [freeEncoderInput_get?] at hk
    split at hk
    · obtain ⟨refs₀, hc, rfl⟩ := map_eq_some_iff.1 hk
      exact .inr (.inr ⟨r, refs₀, hc, rfl⟩)
    · exact .inl hk
  | giveUp | getFreed =>
    cases h
    exact .inl hk

theorem exec_distinct (hd : s.cache.Distinct) : s'.cache.Distinct := by
  intro k refs hk
  rcases exec_refs h hk with hsame | ⟨r, f, -, -, rfl⟩ | ⟨r, refs₀, hc, rfl⟩
  · exact hd k refs hsame
  · refine Nodup.insert ?_
    cases hc : s.cache.cached.get? k with
    | none => exact nodup_nil
    | some refs₀ => exact hd k refs₀ hc
  · exact (hd k refs₀ hc).erase r

theorem exec_refers (hr : s'.cache.Refers r k) :
    s.cache.Refers r k ∨ ∃ f, (c = .check r f ∧ (s.cache.cached.get? k).isSome ∨ c = .allocate r f) ∧
      f.identifier = k := by
  obtain ⟨refs, hk, hmem⟩ := hr
  rcases exec_refs h hk with hsame | ⟨r', f, hc, hid, rfl⟩ | ⟨r', refs₀, hc, rfl⟩
  · exact .inl ⟨refs, hsame, hmem⟩
  · rcases mem_insert_iff.1 hmem with rfl | hmem
    · exact .inr ⟨f, hc, hid⟩
    · cases hc₀ : s.cache.cached.get? k with
      | none =>
        rw [hc₀] at hmem
        cases hmem
      | some refs₀ =>
        rw [hc₀] at hmem
        exact .inl ⟨refs₀, hc₀, hmem⟩
  · exact .inl ⟨refs₀, hc, mem_of_mem_erase hmem⟩

theorem exec_uncached (hk : s.cache.cached.get? k = none)
    (hc : ∀ r f, c = .allocate r f → f.identifier ≠ k) : s'.cache.cached.get? k = none := by
  rcases hk' : s'.cache.cached.get? k with - | refs
  · rfl
  rcases exec_refs h hk' with hsame | ⟨r, f, ⟨-, hsome⟩ | hal, hid, -⟩ | ⟨r, refs₀, hsame, -⟩
  · cases hk.symm.trans hsame
  · rw [hk] at hsome
    cases hsome
  · exact absurd hid (hc r f hal)
  · cases hk.symm.trans hsame

end

theorem Calls.distinct (h : Calls cfg P s s') (hd : s.cache.Distinct) : s'.cache.Distinct :=
  h.invariant (I := fun s => s.cache.Distinct) (fun _ _ _ hd _ _ hexec => exec_distinct hexec hd) hd

theorem Calls.refers (h : Calls cfg P s s') (hr : s'.cache.Refers r k) :
    s.cache.Refers r k ∨ ∃ c f, P c ∧ (c = .check r f ∨ c = .allocate r f) ∧ f.identifier = k := by
  refine h.invariant (I := fun t => t.cache.Refers r k → s.cache.Refers r k ∨ ∃ c f, P c ∧
    (c = .check r f ∨ c = .allocate r f) ∧ f.identifier = k)
    (fun t c t' ht hP _ hexec hr => ?_) .inl hr
  rcases exec_refers hexec hr with hr | ⟨f, hc, hid⟩
  · exact ht hr
  · exact .inr ⟨c, f, hP, hc.imp And.left id, hid⟩

theorem Calls.refers_by (h : Calls cfg (By q) s s') (hr : s'.cache.Refers r k) :
    s.cache.Refers r k ∨ r = q.requestId ∧ ∃ f ∈ q.mmFeatures, f.identifier = k := by
  obtain hr | ⟨c, f, hP, rfl | rfl, hid⟩ := h.refers hr
  · exact .inl hr
  · exact .inr ⟨hP.1, f, hP.2, hid⟩
  · exact .inr ⟨hP.1, f, hP.2, hid⟩

theorem Calls.refers_frees {requests : Dict ι (Request ι η μ)}
    (h : Calls cfg (FreesOf requests) s s') (hr : s'.cache.Refers r k) : s.cache.Refers r k := by
  obtain hr | ⟨c, f, hP, rfl | rfl, -⟩ := h.refers hr
  · exact hr
  · exact hP.elim
  · exact hP.elim

theorem Calls.uncached_by (h : Calls cfg (By q) s s') (hk : s.cache.cached.get? k = none)
    (hq : ∀ f ∈ q.mmFeatures, f.identifier ≠ k) : s'.cache.cached.get? k = none := by
  refine h.invariant (I := fun s => s.cache.cached.get? k = none) (fun s c s' hk hP _ hexec => ?_) hk
  refine exec_uncached hexec hk fun r f hc => ?_
  subst hc
  exact hq f hP.2

theorem Calls.uncached_looks (h : Calls cfg (Looks q) s s') (hk : s.cache.cached.get? k = none) :
    s'.cache.cached.get? k = none := by
  refine h.invariant (I := fun s => s.cache.cached.get? k = none) (fun s c s' hk hP _ hexec => ?_) hk
  refine exec_uncached hexec hk fun r f hc => ?_
  subst hc
  exact hP.elim

/-- Looking up what is not in the cache takes no reference. -/
theorem Calls.refers_looks (h : Calls cfg (Looks q) s s')
    (hq : ∀ f ∈ q.mmFeatures, s.cache.cached.get? f.identifier = none) (hr : s'.cache.Refers r k) :
    s.cache.Refers r k := by
  refine (h.invariant (I := fun t => (∀ f ∈ q.mmFeatures, t.cache.cached.get? f.identifier = none) ∧
    (t.cache.Refers r k → s.cache.Refers r k)) (fun t c t' ht hP hissued hexec => ?_) ⟨hq, id⟩).2 hr
  refine ⟨fun f hf => uncached_looks (.single hP hissued hexec) (ht.1 f hf), fun hr => ?_⟩
  rcases exec_refers hexec hr with hr | ⟨f, ⟨rfl, hsome⟩ | rfl, rfl⟩
  · exact ht.2 hr
  · rw [ht.1 f hP.2] at hsome
    cases hsome
  · exact hP.elim

end CacheRun

namespace EncoderCacheManager

open CacheRun

variable {m : EncoderCacheManager ι μ} {q : RequestSpec ι η μ} {f : MmFeature μ} {r : ι} {k : μ}

theorem foldl_freeEncoderInput_refers {fs : List (MmFeature μ)}
    (hr : (fs.foldl (fun m f => m.freeEncoderInput q.requestId f) m).Refers r k) :
    m.Refers r k := by
  induction fs generalizing m with
  | nil => exact hr
  | cons f fs ih =>
    obtain hr | ⟨f', ⟨hc, -⟩ | hc, -⟩ := exec_refers (s := ⟨m, []⟩) (c := .freeInput q.requestId f) rfl (ih hr)
    · exact hr
    · cases hc
    · cases hc

theorem not_refers_free (hd : m.Distinct) (hf : f ∈ q.mmFeatures) : ¬(m.free q).Refers q.requestId f.identifier := by
  have hfold : ∀ (fs : List (MmFeature μ)) (m : EncoderCacheManager ι μ), m.Distinct → f ∈ fs →
      ¬(fs.foldl (fun m f => m.freeEncoderInput q.requestId f) m).Refers q.requestId f.identifier := by
    intro fs
    induction fs with
    | nil => exact fun _ _ hf => (by cases hf)
    | cons g fs ih =>
      intro m hd hf hr
      rcases mem_cons.1 hf with rfl | hf
      · exact not_refers_freeEncoderInput hd (foldl_freeEncoderInput_refers hr)
      · exact ih _ (exec_distinct (s := ⟨m, []⟩) (c := .freeInput q.requestId g) rfl hd) hf hr
  by_cases hc : (m.cached.get? f.identifier).isSome
  · exact hfold _ m hd (mem_filter.2 ⟨hf, hc⟩)
  · intro hr
    obtain ⟨refs, hrefs, -⟩ := foldl_freeEncoderInput_refers hr
    rw [hrefs] at hc
    exact hc rfl

end EncoderCacheManager

/-! ### The scheduler -/

namespace Scheduler

open CacheRun

variable {s s' : Scheduler ι η μ} {env : Env ι} {out : SchedulerOutput ι μ}

variable {requests : Dict ι (Request ι η μ)}

structure OwnsRefs (requests : Dict ι (Request ι η μ)) (m : EncoderCacheManager ι μ) : Prop where
  distinct : m.Distinct
  own : ∀ r k, m.Refers r k → ∃ q, requests.get? r = some q ∧ ∃ f ∈ q.mmFeatures, f.identifier = k

/-- Only running requests refer to encoder outputs. -/
def RefsRun (s : Scheduler ι η μ) : Prop := ∀ r k, s.encoderCacheManager.Refers r k → r ∈ s.running

/-- No waiting request has an input that is in the cache or that another request has as well. -/
def Unshared (s : Scheduler ι η μ) : Prop := ∀ r ∈ s.waiting, ∀ q, s.requests.get? r = some q → ∀ f ∈ q.mmFeatures,
  s.encoderCacheManager.cached.get? f.identifier = none ∧
    ∀ r' q', s.requests.get? r' = some q' → r' ≠ r → ∀ f' ∈ q'.mmFeatures, f'.identifier ≠ f.identifier

theorem OwnsRefs.calls {cfg : EncoderConfig} {m m' : EncoderCacheManager ι μ}
    {pending pending' : List (ι × MmFeature μ)} (h : OwnsRefs requests m)
    (hcalls : Calls cfg (Of requests) ⟨m, pending⟩ ⟨m', pending'⟩) : OwnsRefs requests m' := by
  refine ⟨hcalls.distinct h.distinct, fun r k hr => ?_⟩
  obtain hr | ⟨c, f, hP, rfl | rfl, hid⟩ := hcalls.refers hr
  · exact h.own r k hr
  · obtain ⟨q, hq, hf⟩ := hP
    exact ⟨q, hq, f, hf, hid⟩
  · obtain ⟨q, hq, hf⟩ := hP
    exact ⟨q, hq, f, hf, hid⟩

theorem OwnsRefs.specs {requests' : Dict ι (Request ι η μ)} {m : EncoderCacheManager ι μ}
    (h : OwnsRefs requests m) (hspecs : ∀ r, (requests'.get? r).map Request.toRequestSpec =
      (requests.get? r).map Request.toRequestSpec) : OwnsRefs requests' m := by
  refine ⟨h.distinct, fun r k hr => ?_⟩
  obtain ⟨q, hq, f, hf, hid⟩ := h.own r k hr
  obtain ⟨q', hq', hspec⟩ := SpecsFrom.of_eq (fun r => (hspecs r).symm) r q hq
  exact ⟨q', hq', f, hspec ▸ hf, hid⟩

theorem OwnsRefs.free {m : EncoderCacheManager ι μ} {q : Request ι η μ} {k : μ} (h : OwnsRefs requests m)
    (hq : requests.get? q.requestId = some q) : ¬(m.free q.toRequestSpec).Refers q.requestId k := by
  intro hr
  obtain ⟨q', hq', f, hf, rfl⟩ := h.own _ k (foldl_freeEncoderInput_refers hr)
  obtain rfl : q = q' := some.inj (hq.symm.trans hq')
  exact not_refers_free h.distinct hf hr

end Scheduler

/-! ### schedule -/

namespace Pass

open CacheRun Scheduler

variable {s : Scheduler ι η μ} {p p' : Pass ι η μ} {env : Env ι} {r : ι}

variable [DecidableEq η] in
theorem Step.ownsRefs {x y : Pass ι η μ × Phase ι η μ} (hstep : Step env x y)
    (hx : s.RunsAt x) (hown : OwnsRefs s.requests x.1.sched.encoderCacheManager) :
    OwnsRefs s.requests y.1.sched.encoderCacheManager := by
  obtain ⟨pending, -, hcalls⟩ := hstep.calls hx.wf hx.visits (.refl _)
  refine hown.calls (hcalls.mono fun c hc => ?_)
  cases c with
  | giveUp | getFreed => trivial
  | _ =>
    obtain ⟨q', hq', hf⟩ := hc
    obtain ⟨q, hq, hspec⟩ := hx.toRuns.back _ q' hq'
    exact ⟨q, hq, hspec ▸ hf⟩

/-- Only running requests have been looked up with success; a request that may still be looked up will miss. -/
structure Looked (s : Scheduler ι η μ) (p : Pass ι η μ) : Prop where
  refs : p.sched.RefsRun
  waiting : p.preemptedReqs = [] → ∀ r ∈ p.sched.waiting, r ∈ s.waiting ∧ ∀ q, s.requests.get? r = some q →
    ∀ f ∈ q.mmFeatures, p.sched.encoderCacheManager.cached.get? f.identifier = none

theorem Looked.head {q : Request ι η μ} (h : p.Looked s) (hr : s.Runs p) (hh : Head p r q) :
    ∀ f ∈ q.mmFeatures, p.sched.encoderCacheManager.cached.get? f.identifier = none := by
  intro f hf
  obtain ⟨q₀, hq₀, hspec⟩ := hr.back r q hh.request
  exact (h.waiting hh.nonePreempted r (mem_of_mem_head? hh.head)).2 q₀ hq₀ f (hspec ▸ hf)

variable {q : Request ι η μ} {cache : EncoderCacheManager ι μ} {pending : List (ι × MmFeature μ)}

section
variable (h : p.Looked s)
  (hcalls : Calls p.sched.config.encoder (Looks q.toRequestSpec) ⟨p.sched.encoderCacheManager, []⟩ ⟨cache, pending⟩)
include h hcalls

theorem Looked.looks (hrefs : (p.withEncoder cache).sched.RefsRun) : (p.withEncoder cache).Looked s :=
  ⟨hrefs, fun hnone r hr => ⟨(h.waiting hnone r hr).1, fun q' hq' f hf =>
    hcalls.uncached_looks ((h.waiting hnone r hr).2 q' hq' f hf)⟩⟩

theorem Looked.miss (hr : s.Runs p) (hh : Head p r q) : (p.withEncoder cache).Looked s :=
  h.looks hcalls fun r' k hr' => h.refs r' k (hcalls.refers_looks (h.head hr hh) hr')

theorem Looked.hit (hrun : q.requestId ∈ p.sched.running) : (p.withEncoder cache).Looked s := by
  refine h.looks hcalls fun r' k hr' => ?_
  obtain hr' | ⟨rfl, -⟩ := (hcalls.mono (Looks.by _)).refers_by hr'
  · exact h.refs r' k hr'
  · exact hrun

end

theorem Looked.tail (h : p.Looked s) :
    ({ p with sched := { p.sched with waiting := p.sched.waiting.tail } } : Pass ι η μ).Looked s :=
  ⟨h.refs, fun hnone r hr => h.waiting hnone r (mem_of_mem_tail hr)⟩

variable [DecidableEq η]

theorem Step.looked {x y : Pass ι η μ × Phase ι η μ} (hstep : Step env x y) (hx : s.RunsAt x)
    (hown : OwnsRefs s.requests x.1.sched.encoderCacheManager) (hun : s.Unshared) (h : x.1.Looked s) :
    y.1.Looked s := by
  -- what is allocated for another request is not an input of a waiting one
  have hother : ∀ q : Request ι η μ, x.1.sched.requests.get? q.requestId = some q → ∀ r ∈ s.waiting, q.requestId ≠ r →
      ∀ q₀, s.requests.get? r = some q₀ → ∀ f ∈ q₀.mmFeatures, ∀ f' ∈ q.mmFeatures, f'.identifier ≠ f.identifier := by
    intro q hq r hr hne q₀ hq₀ f hf f' hf'
    obtain ⟨q₁, hq₁, hspec⟩ := hx.toRuns.back _ q hq
    exact (hun r hr q₀ hq₀ f hf).2 _ q₁ hq₁ hne f' (hspec ▸ hf')
  cases hstep with
  | @skip p r q plan ht hn | @visit p r q plan ht hn =>
    obtain ⟨pending, hcalls, -⟩ := planEncoder_calls ht.planned
    have hmem : q.requestId ∈ p.sched.running := by
      rw [hx.wf.own r q ht.request]
      exact mem_of_getElem? ht.index
    exact { h.hit hcalls hmem with }
  | @evict p q plan kv v p₁ p' hslots hv he =>
    have hnodup : (p.withKv kv).sched.running.Nodup := (nodup_append.1 hx.wf.nodup).1
    have hrun := takeVictim_running hnodup hv
    obtain ⟨x', kv', hx', -, rfl⟩ := evict_eq he
    rw [hrun] at hx'
    obtain rfl := hx.wf.own v x' hx'
    refine ⟨fun r' k hr' => ?_, fun hnone => absurd hnone (append_ne_nil_of_right_ne_nil _ (cons_ne_nil _ _))⟩
    rw [hrun] at hr' ⊢
    have hne : r' ≠ x'.requestId := by
      rintro rfl
      exact (hown.specs hx.toRuns.specs).free hx' hr'
    exact (mem_erase_of_ne hne).2 (h.refs r' k (foldl_freeEncoderInput_refers hr'))
  | @grant p q plan kv blocks p' hslots hs =>
    obtain ⟨cache, hcache, rfl⟩ := scheduleRunning_eq hs
    have hrun : q.requestId ∈ p.sched.running := (hx.wf.running _).2 ⟨q, hx.visits⟩
    have hcalls : Calls s.config.encoder (By q.toRequestSpec) ⟨p.sched.encoderCacheManager, _⟩ ⟨cache, []⟩ :=
      allocateInputs_calls hcache (.refl _)
    refine ⟨fun r' k hr' => ?_, fun hnone r' hr' => ⟨(h.waiting hnone r' hr').1, fun q' hq' f hf => ?_⟩⟩
    · obtain hr' | ⟨rfl, -⟩ := hcalls.refers_by hr'
      · exact h.refs r' k hr'
      · exact hrun
    · obtain ⟨hw, hnone⟩ := h.waiting hnone r' hr'
      have hne : q.requestId ≠ r' := fun heq => hx.wf.not_mem_waiting hrun (mem_append_left _ (heq ▸ hr'))
      exact hcalls.uncached_by (hnone q' hq' f hf) (hother q hx.visits.1 r' hw hne q' hq' f hf)
  | loras => exact { h with }
  | @ready p r q p' hh hr =>
    obtain ⟨rfl, -, -⟩ := hx.wf.head hh
    obtain rfl | ⟨-, kv, failed, recving, n, rfl⟩ := makeReady_eq hh.request hr
    · exact h
    · exact { h with }
  | aside => exact { h.tail with }
  | @stop p r q c cache hh hc hplan =>
    obtain ⟨pending, hcalls⟩ := (planWaiting_calls hplan).2 cache rfl
    exact h.miss hcalls hx.toRuns hh
  | @starve p r q c plan kv hd =>
    obtain ⟨pending, hcalls, -⟩ := (planWaiting_calls hd.planned).1 plan rfl
    exact { h.miss hcalls hx.toRuns hd.toHead with }
  | @load p r q c plan kv blocks hd ha =>
    obtain ⟨pending, hcalls, -⟩ := (planWaiting_calls hd.planned).1 plan rfl
    exact { (h.miss hcalls hx.toRuns hd.toHead).tail with }
  | @enter p r q c plan kv blocks p' hd ha hs =>
    obtain ⟨rfl, -, hcons⟩ := hx.wf.head hd.toHead
    obtain ⟨pending, hcalls, hperm⟩ := (planWaiting_calls hd.planned).1 plan rfl
    obtain ⟨cache, hcache, -, rfl⟩ := scheduleWaiting_eq hs
    replace hcalls := (hcalls.mono (Looks.by _)).trans (allocateInputs_calls hcache hperm)
    refine ⟨fun r' k hr' => ?_, fun hnone r' hr' => ?_⟩
    · obtain hr' | ⟨rfl, -⟩ := hcalls.refers_by hr'
      · exact mem_append_left _ (h.refs r' k hr')
      · exact mem_append_right _ (mem_singleton_self _)
    · obtain ⟨hw, hnone⟩ := h.waiting hnone r' (mem_of_mem_tail hr')
      exact ⟨hw, fun q' hq' f hf => hcalls.uncached_by (hnone q' hq' f hf)
        (hother q hd.request r' hw (hx.wf.ne_of_mem_tail hcons hr').symm q' hq' f hf)⟩

end Pass

variable [DecidableEq η]

namespace Scheduler

open CacheRun

variable {s s' : Scheduler ι η μ} {env : Env ι} {out : SchedulerOutput ι μ}

theorem Steady.schedule_refs (h : s.Steady) (hown : OwnsRefs s.requests s.encoderCacheManager)
    (hrun : s.RefsRun) (hun : s.Unshared) (hs : s.schedule env = .ok (out, s')) :
    OwnsRefs s'.requests s'.encoderCacheManager ∧ s'.RefsRun := by
  obtain ⟨p, hreach, hfin⟩ := schedule_eq hs
  have hinit : (Pass.init s).Looked s := ⟨hrun, fun _ r hr => ⟨hr, fun q hq f hf => (hun r hr q hq f hf).1⟩⟩
  have hinv := hreach.induction
    (I := fun p x => s.RunsAt (p, x) ∧ OwnsRefs s.requests p.sched.encoderCacheManager ∧ p.Looked s)
    ⟨h.runsAt, hown, hinit⟩
    fun x y hstep ⟨hx, hrefs, hlook⟩ => ⟨hx.step hstep, hstep.ownsRefs hx hrefs, hstep.looked hx hrefs hun hlook⟩
  obtain ⟨hruns, hownp, hlook⟩ := hinv
  obtain ⟨⟨requests, cache, hs'⟩, -, -⟩ := Pass.finish_sched hruns.wf.putBack.own hfin
  have hrunning : s'.running = p.sched.running := by rw [hs']; rfl
  have hfrees : Calls p.sched.config.encoder (FreesOf p.sched.requests)
    ⟨p.sched.encoderCacheManager, []⟩ ⟨s'.encoderCacheManager, []⟩ :=
    Pass.finish_calls (p := p.putBack) hruns.wf.putBack.own hfin trivial fun r _ q hq f hf => ⟨q, hq, hf⟩
  refine ⟨OwnsRefs.specs ?_ (h.schedule_specs hs), fun r k hr => ?_⟩
  · exact ⟨hfrees.distinct hownp.distinct, fun r k hr => hownp.own r k (hfrees.refers_frees hr)⟩
  · rw [hrunning]
    exact hlook.refs r k (hfrees.refers_frees hr)

/-! ### The other calls -/

structure Refs (s : Scheduler ι η μ) : Prop extends OwnsRefs s.requests s.encoderCacheManager where
  stored : ∀ r ∈ s.running, ∃ q, s.requests.get? r = some q ∧ q.status = .running
  run : s.RefsRun

theorem Move.refs (hmove : Move s s') (hown : Owned s.requests) (h : s.Refs) : s'.Refs := by
  have hfree : ∀ (r : ι) (q : Request ι η μ) (k : μ) (r' : ι), s.requests.get? r = some q →
      (s.encoderCacheManager.free q.toRequestSpec).Refers r' k → s.encoderCacheManager.Refers r' k ∧ r' ≠ r := by
    intro r q k r' hq hr'
    obtain rfl := hown r q hq
    refine ⟨foldl_freeEncoderInput_refers hr', ?_⟩
    rintro rfl
    exact h.toOwnsRefs.free hq hr'
  have hdist : ∀ (r : ι) (q : Request ι η μ), s.requests.get? r = some q →
    (s.encoderCacheManager.free q.toRequestSpec).Distinct :=
    fun r q _ => by
      have hcalls : Calls s.config.encoder (By q.toRequestSpec) ⟨s.encoderCacheManager, []⟩
        ⟨s.encoderCacheManager.free q.toRequestSpec, []⟩ := free_calls
      exact hcalls.distinct h.distinct
  cases hmove with
  | @revise r q q' kv hq hspec hst hkv =>
    refine ⟨h.toOwnsRefs.specs (map_get?_set hq hspec), fun r' hr' => ?_, h.run⟩
    rw [get?_set]
    split
    next heq =>
      obtain ⟨x, hx, hst'⟩ := h.stored r' hr'
      rw [heq, hq] at hx
      cases hx
      exact ⟨q', rfl, hst.trans hst'⟩
    next => exact h.stored r' hr'
  | @finish r q kv kv' hq hkv hf =>
    refine ⟨⟨hdist r q hq, fun r' k hr' => ?_⟩, fun r' hr' => ?_, fun r' k hr' => ?_⟩
    · obtain ⟨hr', hne⟩ := hfree r q k r' hq hr'
      rw [get?_pop_of_ne hne]
      exact h.own r' k hr'
    · obtain ⟨hmem, hne⟩ := mem_filter.1 hr'
      rw [get?_pop_of_ne (of_decide_eq_true hne)]
      exact h.stored r' hmem
    · obtain ⟨hr', hne⟩ := hfree r q k r' hq hr'
      exact mem_filter.2 ⟨h.run r' k hr', decide_eq_true hne⟩
  | @delay r q q' kv hq hspec hfin hkv hconn =>
    refine ⟨⟨hdist r q hq, fun r' k hr' => ?_⟩, fun r' hr' => ?_, fun r' k hr' => ?_⟩
    · obtain ⟨hr', hne⟩ := hfree r q k r' hq hr'
      rw [get?_set_of_ne hne]
      exact h.own r' k hr'
    · obtain ⟨hmem, hne⟩ := mem_filter.1 hr'
      rw [get?_set_of_ne (of_decide_eq_true hne)]
      exact h.stored r' hmem
    · obtain ⟨hr', hne⟩ := hfree r q k r' hq hr'
      exact mem_filter.2 ⟨h.run r' k hr', decide_eq_true hne⟩
  | @sent r q kv hq hfin hf =>
    -- a request that has finished does not run
    have hne : ∀ r' ∈ s.running, r' ≠ r := by
      rintro r' hr' rfl
      obtain ⟨x, hx, hst⟩ := h.stored r' hr'
      rw [hq] at hx
      cases hx
      rw [hst] at hfin
      cases hfin
    refine ⟨⟨h.distinct, fun r' k hr' => ?_⟩, fun r' hr' => ?_, h.run⟩
    · rw [get?_pop_of_ne (hne r' (h.run r' k hr'))]
      exact h.own r' k hr'
    · rw [get?_pop_of_ne (hne r' hr')]
      exact h.stored r' hr'
  | receive | reset => exact ⟨h.toOwnsRefs, h.stored, h.run⟩

theorem Moves.refs (hmoves : Moves s s') (hown : Owned s.requests) (h : s.Refs) : s'.Refs := by
  induction hmoves with
  | refl => exact h
  | tail hmoves hmove ih => exact hmove.refs (Moves.owned hmoves hown) ih

end Scheduler

/-! ### Runs -/

namespace Engine

open Scheduler (OwnsRefs)

variable {e e' : Engine ι η μ} {a : Action ι η μ}

def LooksUnshared (e : Engine ι η μ) : Action ι η μ → Prop
  | .schedule _ => e.sched.Unshared
  | _ => True

theorem step_refs (h : e.sched.Steady) (ha : e.Fresh a) (hun : e.LooksUnshared a)
    (hrefs : OwnsRefs e.sched.requests e.sched.encoderCacheManager ∧ e.sched.RefsRun) (hstep : e.step a = some e') :
    OwnsRefs e'.sched.requests e'.sched.encoderCacheManager ∧ e'.sched.RefsRun := by
  obtain ⟨q, rfl, rfl⟩ | ⟨env, out, rfl, hs, -⟩ | ⟨hchanges, -⟩ := step_changes h.wf hstep
  · refine ⟨⟨hrefs.1.distinct, fun r k hr => ?_⟩, hrefs.2⟩
    obtain ⟨x, hx, hf⟩ := hrefs.1.own r k hr
    have hne : r ≠ q.requestId := by
      rintro rfl
      exact absurd (hx.symm.trans ha) (by simp)
    refine ⟨x, ?_, hf⟩
    show (e.sched.requests.set q.requestId q.new).get? r = some x
    rw [get?_set_of_ne hne]
    exact hx
  · exact h.schedule_refs hrefs.1 hrefs.2 hun hs
  · have hrefs' := hchanges.moves.refs h.wf.own ⟨hrefs.1, fun r hr => (h.wf.running r).1 hr, hrefs.2⟩
    exact ⟨hrefs'.toOwnsRefs, hrefs'.run⟩

/-- In every run in which `schedule` is called with no shared input in the waiting queue, only running requests hold
references. -/
theorem run_refsRun {config : SchedulerConfig} {kv : KVCacheManager ι η} {size : Nat} {as : List (Action ι η μ)}
    (hsteps : Along step (fun e a => e.Fresh a ∧ e.LooksUnshared a) (init config kv size) as)
    (hrun : runFrom step (init config kv size) as = some e) : e.sched.RefsRun := by
  have hinv := hsteps.invariant
    (I := fun e => e.sched.Steady ∧ OwnsRefs e.sched.requests e.sched.encoderCacheManager ∧ e.sched.RefsRun)
    (fun e a e' h ha hstep => ⟨(step_steady h.1 ha.1 hstep).1, step_refs h.1 ha.1 ha.2 h.2 hstep⟩)
    ⟨init_steady config kv size, ⟨init_distinct size, fun _ _ ⟨_, hr, _⟩ => (by cases hr)⟩,
      fun _ _ ⟨_, hr, _⟩ => (by cases hr)⟩ hrun
  exact hinv.2.2

def unsharedCheck (e : Engine ι η μ) : Action ι η μ → Bool
  | .addRequest q => (e.sched.requests.get? q.requestId).isNone
  | .schedule _ => e.sched.waiting.all fun r => (e.sched.requests.get? r).all fun q => q.mmFeatures.all fun f =>
      (e.sched.encoderCacheManager.cached.get? f.identifier).isNone && e.sched.requests.entries.all fun x =>
        x.1 == r || x.2.mmFeatures.all fun f' => f'.identifier != f.identifier
  | _ => true

omit [DecidableEq η] in
theorem unshared_of_check (e : Engine ι η μ) (a : Action ι η μ) (h : e.unsharedCheck a = true) :
    e.Fresh a ∧ e.LooksUnshared a := by
  cases a with
  | addRequest q => exact ⟨isNone_iff_eq_none.1 h, trivial⟩
  | schedule env =>
    refine ⟨trivial, fun r hr q hq f hf => ?_⟩
    have hfacts := all_eq_true.1 h r hr
    rw [hq, all_some] at hfacts
    have hitem := all_eq_true.1 hfacts f hf
    rw [Bool.and_eq_true, isNone_iff_eq_none] at hitem
    refine ⟨hitem.1, fun r' q' hq' hne f' hf' => ?_⟩
    have hrest := all_eq_true.1 hitem.2 (r', q') (get?_eq_some.1 hq')
    rw [Bool.or_eq_true, beq_iff_eq] at hrest
    exact bne_iff_ne.1 (all_eq_true.1 (hrest.resolve_left hne) f' hf')
  | _ => exact ⟨trivial, trivial⟩

def imageRequest (r numPrompt image : Nat) : RequestSpec Nat Nat Nat :=
  { Small.request r numPrompt with mmFeatures := [⟨image, 1, 4⟩] }

def starvedImage (image : Nat) : List (Action Nat Nat Nat) :=
  [.addRequest (imageRequest 0 8 7), .schedule Small.env, .updateFromOutput (Small.sampled [0]) fun _ => false,
    .addRequest (imageRequest 1 8 image), .schedule Small.env]

/-- The second request gets no blocks for its own image and holds no reference. -/
theorem starvedImage_refsRun : ∃ e, runFrom step (init Small.config Small.manager 10) (starvedImage 8) = some e ∧
    e.sched.waiting = [1] ∧ e.sched.RefsRun := by
  obtain ⟨e, he⟩ :=
    isSome_iff_exists.1 (show (runFrom step (init Small.config Small.manager 10) (starvedImage 8)).isSome from rfl)
  have hsteps := along_of_check unshared_of_check
    (show alongCheck step unsharedCheck (init Small.config Small.manager 10) (starvedImage 8) = true by decide +kernel)
  have hwait : ((runFrom step (init Small.config Small.manager 10) (starvedImage 8)).any fun e =>
    e.sched.waiting = [1]) = true := by
    decide +kernel
  rw [he, any_some, decide_eq_true_eq] at hwait
  exact ⟨e, he, hwait, run_refsRun hsteps he⟩

theorem starvedImage_holds : ∃ e, runFrom step (init Small.config Small.manager 10)
      (starvedImage 7) = some e ∧ e.sched.running = [0] ∧
    e.sched.waiting = [1] ∧ e.sched.encoderCacheManager.cached.get? 7 = some [1] ∧ ¬e.sched.RefsRun := by
  obtain ⟨e, he⟩ :=
    isSome_iff_exists.1 (show (runFrom step (init Small.config Small.manager 10) (starvedImage 7)).isSome from rfl)
  have href : ((runFrom step (init Small.config Small.manager 10) (starvedImage 7)).any fun e =>
      e.sched.running = [0] && decide (e.sched.waiting = [1]) &&
        decide (e.sched.encoderCacheManager.cached.get? 7 = some [1])) = true := by
    decide +kernel
  rw [he, any_some, Bool.and_eq_true, Bool.and_eq_true, decide_eq_true_eq, decide_eq_true_eq, decide_eq_true_eq] at href
  obtain ⟨⟨hrun, hwait⟩, href⟩ := href
  refine ⟨e, he, hrun, hwait, href, fun h => ?_⟩
  have hmem := h 1 7 ⟨[1], href, mem_singleton_self 1⟩
  rw [hrun] at hmem
  exact absurd hmem (by decide)

end Engine

end Xmix.Sched
