import Xmix.Lib.Except
import Xmix.Sched.Schedule

/-!
# The steps of `schedule`

`schedule` as a small-step system: the pass at a time, with the running request that is being
visited if there is one. A step is one of the things a round of a loop does; `schedule_reaches` says
that the loops do nothing else, so that what every step preserves holds when `schedule` comes to its
assertions.
-/

namespace Xmix.Sched

open Xmix.Except List
open Kv (KVCacheManager)
open Relation (ReflTransGen)

variable {ι η μ : Type} [DecidableEq ι]

variable {α : Type}

@[simp] theorem orRaise_eq_ok {e : Raised} {x : Option α} {a : α} : orRaise e x = .ok a ↔ x = some a := by
  cases x <;> simp [orRaise]

theorem mapError_eq_ok {ε ε' : Type} {f : ε → ε'} {x : Except ε α} {a : α} : x.mapError f = .ok a ↔ x = .ok a := by
  cases x <;> simp [Except.mapError]

theorem mapError_raised {x : Except Raised α} {f : Failure} (h : x.mapError .raised = .error f) :
    ∃ e, f = .raised e := by
  cases x with
  | error e =>
    cases h
    exact ⟨e, rfl⟩
  | ok a => cases h

variable {r : ι}

theorem Scheduler.request_eq_ok {s : Scheduler ι η μ} {q : Request ι η μ} :
    s.request r = .ok q ↔ s.requests.get? r = some q :=
  orRaise_eq_ok

inductive Phase (ι η μ : Type) where
  | idle
  | visiting (q : Request ι η μ) (plan : EncoderPlan ι μ)
  | waiting

namespace Pass

section Relation
variable [DecidableEq η] [DecidableEq μ]

structure Turn (env : Env ι) (p : Pass ι η μ) (r : ι) (q : Request ι η μ) (plan : EncoderPlan ι μ) : Prop where
  budget : 0 < p.tokenBudget
  index : p.sched.running[p.reqIndex]? = some r
  request : p.sched.requests.get? r = some q
  planned : p.sched.planEncoder env q q.numComputedTokens (numNewTokens p.sched.config p.tokenBudget q)
    p.encoderComputeBudget = .ok plan

structure Head (p : Pass ι η μ) (r : ι) (q : Request ι η μ) : Prop where
  budget : 0 < p.tokenBudget
  room : p.sched.running.length ≠ p.sched.config.maxNumRunningReqs
  head : p.sched.waiting.head? = some r
  request : p.sched.requests.get? r = some q
  nonePreempted : p.preemptedReqs = []
  allVisited : p.sched.running.length ≤ p.reqIndex

structure Decides (env : Env ι) (p : Pass ι η μ) (r : ι) (q : Request ι η μ) (c : Computed) (plan : EncoderPlan ι μ)
    (kv : KVCacheManager ι η) (blocks : Option (List (List Nat))) : Prop extends Head p r q where
  lora : p.loraBlocked q.toRequestSpec = false
  computed : p.findComputed env q = .ok (some c)
  planned : p.planWaiting env q c = .ok (.go plan)
  slots : (p.withEncoder plan.cache).allocateWaiting q c plan.numNewTokens = .ok (kv, blocks)

def slotsFor (p : Pass ι η μ) (q : Request ι η μ) (plan : EncoderPlan ι μ) :
    Option (KVCacheManager ι η × Option (List (List Nat))) :=
  allocateSlots p.sched.kvCacheManager q plan.numNewTokens 0 none p.sched.config.numLookaheadTokens false 0

/-- Why the waiting loop sets a request aside. -/
inductive Postpones (env : Env ι) (p : Pass ι η μ) (q : Request ι η μ) : Prop
  | unready (h : p.makeReady env q = .ok none)
  | adapter (h : p.loraBlocked q.toRequestSpec = true)
  | unmatched (h : p.findComputed env q = .ok none)
  | whole {c : Computed} (h : p.planWaiting env q c = .ok .skip)

inductive Step (env : Env ι) : Pass ι η μ × Phase ι η μ → Pass ι η μ × Phase ι η μ → Prop
  | skip {p r q plan} (h : Turn env p r q plan) (hn : plan.numNewTokens = 0) :
    Step env (p, .idle) ({ p.withEncoder plan.cache with reqIndex := p.reqIndex + 1 }, .idle)
  | visit {p r q plan} (h : Turn env p r q plan) (hn : plan.numNewTokens ≠ 0) :
    Step env (p, .idle) (p.withEncoder plan.cache, .visiting q plan)
  | evict {p q plan kv v p₁ p'} (hslots : p.slotsFor q plan = some (kv, none))
    (hv : (p.withKv kv).takeVictim = .ok (v, p₁))
    (he : p₁.evict v = .ok p') : Step env (p, .visiting q plan)
      (p', if v = q.requestId then .idle else .visiting q plan)
  | grant {p q plan kv blocks p'} (hslots : p.slotsFor q plan = some (kv, some blocks))
    (hs : (p.withKv kv).scheduleRunning q blocks plan = .ok p') : Step env (p, .visiting q plan) (p', .idle)
  | loras {p} (h : lorasExceeded p.sched.config.maxLoras p.runningLoras = false) :
    Step env (p, .idle) ({ p with scheduledLoras := if p.sched.config.maxLoras.isSome then
      p.runningLoras else p.scheduledLoras }, .waiting)
  | ready {p r q p'} (h : Head p r q) (hr : p.makeReady env q = .ok (some p')) : Step env (p, .waiting) (p', .waiting)
  | aside {p r q} (h : Head p r q) (hq : Postpones env p q) : Step env (p, .waiting) (p.setAside r, .waiting)
  | stop {p r q c cache} (h : Head p r q) (hc : p.findComputed env q = .ok (some c))
    (hplan : p.planWaiting env q c = .ok (.stop cache)) : Step env (p, .waiting) (p.withEncoder cache, .waiting)
  | starve {p r q c plan kv} (h : Decides env p r q c plan kv none) :
    Step env (p, .waiting) ((p.withEncoder plan.cache).withKv kv, .waiting)
  | load {p r q c plan kv blocks} (h : Decides env p r q c plan kv (some blocks)) (ha : c.loadKvAsync = true) :
    Step env (p, .waiting) (((p.withEncoder plan.cache).withKv kv).startLoad q, .waiting)
  | enter {p r q c plan kv blocks p'} (h : Decides env p r q c plan kv (some blocks)) (ha : c.loadKvAsync = false)
    (hs : ((p.withEncoder plan.cache).withKv kv).scheduleWaiting q c plan = .ok p') :
      Step env (p, .waiting) (p', .waiting)

def Reaches (env : Env ι) (p p' : Pass ι η μ) (x : Phase ι η μ) : Prop := ReflTransGen (Step env) (p, .idle) (p', x)

theorem Reaches.induction {env : Env ι} {I : Pass ι η μ → Phase ι η μ → Prop}
    {p p' : Pass ι η μ} {x : Phase ι η μ} (h : Reaches env p p' x)
    (hp : I p .idle) (hstep : ∀ x y, Step env x y → I x.1 x.2 → I y.1 y.2) : I p' x := by
  have hall : ∀ y, ReflTransGen (Step env) (p, .idle) y → I y.1 y.2 := fun y hy => by
    induction hy with
    | refl => exact hp
    | tail _ hxy ih => exact hstep _ _ hxy ih
  exact hall _ h

end Relation

/-! ### What the operations on a pass do -/

variable {p p' : Pass ι η μ} {env : Env ι}

variable {next : Bool} {plan : EncoderPlan ι μ} {rounds : Nat} {v : ι}

theorem takeVictim_cases (h : p.takeVictim = .ok (v, p')) :
    p.sched.config.policy = .priority ∧ lowestPriority p.sched.rank p.sched.running = some v ∧
        p' = unschedule { p with sched := { p.sched with running := p.sched.running.erase v } } v ∨
      p.sched.config.policy = .fcfs ∧ p.sched.running.getLast? = some v ∧
        p' = { p with sched := { p.sched with running := p.sched.running.dropLast } } := by
  rw [takeVictim] at h
  split at h
  next hp =>
    split at h
    · cases h
    next w hw =>
      cases h
      exact .inl ⟨hp, hw, rfl⟩
  next hp =>
    split at h
    · cases h
    next w hw =>
      cases h
      exact .inr ⟨hp, hw, rfl⟩

theorem unschedule_sched (p : Pass ι η μ) (v : ι) : (p.unschedule v).sched = p.sched := by
  rw [unschedule]
  split <;> rfl

theorem unschedule_reqIndex (p : Pass ι η μ) (v : ι) : p.reqIndex ≤ (p.unschedule v).reqIndex + 1 := by
  rw [unschedule]
  split
  · show p.reqIndex ≤ p.reqIndex - 1 + 1
    omega
  · omega

variable [DecidableEq μ]

theorem evict_eq (h : p.evict v = .ok p') : ∃ q kv, p.sched.requests.get? v = some q ∧
    p.sched.kvCacheManager.free v = some kv ∧
    p' = { p with
      sched := { p.sched with
        kvCacheManager := kv
        encoderCacheManager := p.sched.encoderCacheManager.free q.toRequestSpec
        waiting := prependRequest p.sched.config.policy p.sched.rank p.sched.waiting v
        requests := p.sched.requests.set q.requestId { q with status := .preempted, numComputedTokens := 0 } }
      preemptedReqs := p.preemptedReqs ++ [v] } := by
  obtain ⟨q, hq, h⟩ := bind_eq_ok.1 h
  obtain ⟨kv, hkv, h⟩ := bind_eq_ok.1 h
  cases h
  exact ⟨q, kv, Scheduler.request_eq_ok.1 hq, orRaise_eq_ok.1 hkv, rfl⟩

def draftsIn (q : Request ι η μ) (n : Int) : List Token :=
  q.specTokenIds.take (n + q.numComputedTokens - q.numTokens - q.numOutputPlaceholders).toNat

def undrafted (q : Request ι η μ) (requests : Dict ι (Request ι η μ)) : Dict ι (Request ι η μ) :=
  if q.specTokenIds = [] then requests else requests.set q.requestId { q with specTokenIds := [] }

omit [DecidableEq μ] in
theorem get?_undrafted_of_ne {q : Request ι η μ} (hr : r ≠ q.requestId) (requests : Dict ι (Request ι η μ)) :
    (undrafted q requests).get? r = requests.get? r := by
  unfold undrafted
  split
  · rfl
  · exact Dict.get?_set_of_ne hr

def withDrafts (q : Request ι η μ) (n : Int) (d : Dict ι (List Token)) : Dict ι (List Token) :=
  if draftsIn q n = [] then d else d.set q.requestId (draftsIn q n)

def withInputs (plan : EncoderPlan ι μ) (r : ι) (d : Dict ι (List Nat)) : Dict ι (List Nat) :=
  if plan.inputs = [] then d else d.set r plan.inputs

def budgetAfter (plan : EncoderPlan ι μ) (budget : Int) : Int := if plan.inputs = [] then budget else plan.computeBudget

def admitted (q : Request ι η μ) (c : Computed) : Request ι η μ :=
  { q with
    status := .running
    numComputedTokens := c.total
    numCachedTokens := if q.numCachedTokens < 0 then c.total else q.numCachedTokens }

omit [DecidableEq μ] in
theorem scheduleSpec_eq (p : Pass ι η μ) (q : Request ι η μ) (n : Int) :
    p.scheduleSpec q n = { p with
      sched := { p.sched with requests := undrafted q p.sched.requests }
      scheduledSpecDecodeTokens := withDrafts q n p.scheduledSpecDecodeTokens } := by
  rw [scheduleSpec, undrafted, withDrafts, draftsIn]
  by_cases hspec : q.specTokenIds = []
  · simp [hspec]
  · simp only [hspec, if_false, take_eq_nil_iff, or_false]
    by_cases hn : 0 < n + q.numComputedTokens - q.numTokens - q.numOutputPlaceholders
    · rw [if_pos hn, if_neg (by omega)]
      rfl
    · rw [if_neg hn, if_pos (by omega)]
      rfl

theorem scheduleEncoder_eq {q : RequestSpec ι η μ} (h : p.scheduleEncoder q plan = .ok p') :
    ∃ cache, allocateInputs q p.sched.encoderCacheManager (plan.inputs ++ plan.externalLoad) = some cache ∧
      p' = { p with
        sched := { p.sched with encoderCacheManager := cache }
        scheduledEncoderInputs := withInputs plan q.requestId p.scheduledEncoderInputs
        encoderComputeBudget := budgetAfter plan p.encoderComputeBudget } := by
  obtain ⟨cache, hcache, h⟩ := bind_eq_ok.1 h
  refine ⟨cache, orRaise_eq_ok.1 hcache, ?_⟩
  split at h
  next hin =>
    cases h
    simp only [withInputs, budgetAfter, hin, if_true]
    rfl
  next hin =>
    cases h
    simp only [withInputs, budgetAfter, hin, if_false]
    rfl

theorem scheduleRunning_eq {q : Request ι η μ} {blocks : List (List Nat)}
    (h : p.scheduleRunning q blocks plan = .ok p') :
    ∃ cache, allocateInputs q.toRequestSpec p.sched.encoderCacheManager
      (plan.inputs ++ plan.externalLoad) = some cache ∧
      p' = { p with
        sched := { p.sched with
          encoderCacheManager := cache
          requests := undrafted q p.sched.requests }
        scheduledRunningReqs := p.scheduledRunningReqs ++ [q.requestId]
        reqToNewBlocks := p.reqToNewBlocks.set q.requestId blocks
        numScheduledTokens := p.numScheduledTokens.set q.requestId plan.numNewTokens
        tokenBudget := p.tokenBudget - plan.numNewTokens
        reqIndex := p.reqIndex + 1
        scheduledSpecDecodeTokens := withDrafts q plan.numNewTokens p.scheduledSpecDecodeTokens
        scheduledEncoderInputs := withInputs plan q.requestId p.scheduledEncoderInputs
        encoderComputeBudget := budgetAfter plan p.encoderComputeBudget } := by
  rw [scheduleRunning, scheduleSpec_eq] at h
  exact scheduleEncoder_eq h

theorem scheduleWaiting_eq {q : Request ι η μ} {c : Computed} (h : p.scheduleWaiting q c plan = .ok p') :
    ∃ cache, allocateInputs q.toRequestSpec p.sched.encoderCacheManager
      (plan.inputs ++ plan.externalLoad) = some cache ∧
      (q.status = .waiting ∨ q.status = .preempted) ∧
      p' = { p with
        sched := { p.sched with
          waiting := p.sched.waiting.tail
          running := p.sched.running ++ [q.requestId]
          encoderCacheManager := cache
          requests := p.sched.requests.set q.requestId (admitted q c) }
        reqIndex := p.reqIndex + 1
        scheduledNewReqs := if q.status = .waiting then p.scheduledNewReqs ++ [q.requestId] else p.scheduledNewReqs
        scheduledResumedReqs :=
          if q.status = .waiting then p.scheduledResumedReqs else p.scheduledResumedReqs ++ [q.requestId]
        scheduledLoras := p.addLora q.toRequestSpec
        reqToNewBlocks := p.reqToNewBlocks.set q.requestId (getBlocks p.sched.kvCacheManager q.requestId)
        numScheduledTokens := p.numScheduledTokens.set q.requestId plan.numNewTokens
        tokenBudget := p.tokenBudget - plan.numNewTokens
        scheduledEncoderInputs := withInputs plan q.requestId p.scheduledEncoderInputs
        encoderComputeBudget := budgetAfter plan p.encoderComputeBudget } := by
  obtain ⟨p₁, hp₁, h⟩ := bind_eq_ok.1 h
  obtain ⟨cache, hcache, rfl⟩ := scheduleEncoder_eq h
  rcases hst : q.status with - | - | - | - | - | - | - | - | - <;> simp only [recordAdmitted, hst] at hp₁ <;> cases hp₁
  · exact ⟨cache, hcache, .inl rfl, rfl⟩
  · exact ⟨cache, hcache, .inr rfl, rfl⟩

theorem capPrefill_le (cfg : SchedulerConfig) (n : Int) : capPrefill cfg n ≤ n := by
  rw [capPrefill]
  split <;> omega

theorem planWaiting_go {q : Request ι η μ} {c : Computed} (ha : c.loadKvAsync = false)
    (h : p.planWaiting env q c = .ok (.go plan)) :
    ∃ n, 0 < n ∧ n ≤ p.tokenBudget ∧ n ≤ q.numTokens - c.total ∧
      p.sched.planEncoder env q c.total n p.encoderComputeBudget = .ok plan ∧
      plan.numNewTokens ≠ 0 := by
  simp only [planWaiting, ha, Bool.false_eq_true, if_false] at h
  split at h
  · cases h
  · split at h
    · cases h
    next hn =>
      obtain ⟨plan', hplan, h⟩ := bind_eq_ok.1 h
      split at h
      · cases h
      next hne =>
        cases h
        have hcap := capPrefill_le p.sched.config (q.numTokens - c.total)
        exact ⟨_, by omega, by omega, by omega, hplan, hne⟩

/-! ### The loop over the running requests -/

def unvisited (p : Pass ι η μ) : Nat := p.sched.running.length - p.reqIndex

omit [DecidableEq μ] in
theorem takeVictim_mem (h : p.takeVictim = .ok (v, p')) : v ∈ p.sched.running := by
  obtain ⟨-, hv, -⟩ | ⟨-, hv, -⟩ := takeVictim_cases h
  · exact lowestPriority_mem hv
  · exact mem_of_getLast? hv

omit [DecidableEq μ] in
theorem takeVictim_unvisited (h : p.takeVictim = .ok (v, p')) : p'.unvisited ≤ p.unvisited := by
  have hmem := takeVictim_mem h
  obtain ⟨-, -, rfl⟩ | ⟨-, -, rfl⟩ := takeVictim_cases h
  · have hidx := unschedule_reqIndex { p with sched := { p.sched with running := p.sched.running.erase v } } v
    rw [unvisited, unvisited, unschedule_sched]
    simp only [length_erase_of_mem hmem] at hidx ⊢
    omega
  · simp only [unvisited, length_dropLast]
    omega

theorem evict_unvisited (h : p.evict v = .ok p') : p'.unvisited = p.unvisited := by
  obtain ⟨q, kv, -, -, rfl⟩ := evict_eq h
  rfl

theorem evict_preemptedReqs (h : p.evict v = .ok p') : p'.preemptedReqs ≠ [] := by
  obtain ⟨q, kv, -, -, rfl⟩ := evict_eq h
  exact append_ne_nil_of_right_ne_nil _ (cons_ne_nil _ _)

variable [DecidableEq η]

variable (env) in
theorem allocateOrPreempt_reaches {q : Request ι η μ} {res : Option (List (List Nat))}
    (h : p.allocateOrPreempt q plan.numNewTokens rounds = .ok (p', res)) :
    (∃ p₁ kv blocks, res = some blocks ∧ ReflTransGen (Step env) (p, .visiting q plan) (p₁, .visiting q plan) ∧
        p₁.slotsFor q plan = some (kv, some blocks) ∧ p' = p₁.withKv kv ∧ p₁.unvisited ≤ p.unvisited) ∨
      res = none ∧ ReflTransGen (Step env) (p, .visiting q plan) (p', .idle) ∧ p'.preemptedReqs ≠ [] := by
  induction rounds generalizing p with
  | zero => cases h
  | succ rounds ih =>
    obtain ⟨⟨kv, blocks⟩, hslots, h⟩ := bind_eq_ok.1 h
    rw [orRaise_eq_ok] at hslots
    cases blocks with
    | some blocks =>
      cases h
      exact .inl ⟨p, kv, blocks, rfl, .refl, hslots, rfl, Nat.le_refl _⟩
    | none =>
      obtain ⟨⟨v, p₁⟩, hv, h⟩ := bind_eq_ok.1 h
      obtain ⟨p₂, he, h⟩ := bind_eq_ok.1 h
      have hstep : Step env (p, .visiting q plan) (p₂, if v = q.requestId then .idle else .visiting q plan) :=
        .evict hslots hv he
      have hless := (evict_unvisited he).trans_le (takeVictim_unvisited hv)
      by_cases hvq : v = q.requestId
      · rw [if_pos hvq] at h hstep
        cases h
        exact .inr ⟨rfl, .single hstep, evict_preemptedReqs he⟩
      · rw [if_neg hvq] at h hstep
        rcases ih h with ⟨p₃, kv', blocks, hres, hreach, hslots', hp', hle⟩ | ⟨hres, hreach, hpre⟩
        · exact .inl ⟨p₃, kv', blocks, hres, .head hstep hreach, hslots', hp', hle.trans hless⟩
        · exact .inr ⟨hres, .head hstep hreach, hpre⟩

omit [DecidableEq η] in
theorem scheduleRunning_unvisited {q : Request ι η μ} {blocks : List (List Nat)}
    (h : p.scheduleRunning q blocks plan = .ok p') : p'.unvisited = p.unvisited - 1 := by
  obtain ⟨cache, -, rfl⟩ := scheduleRunning_eq h
  simp only [unvisited]
  omega

theorem runningStep_reaches (hb : 0 < p.tokenBudget) (hr : p.sched.running[p.reqIndex]? = some r)
    (h : p.runningStep env r = .ok (p', next)) :
    Reaches env p p' .idle ∧ if next then p'.unvisited < p.unvisited else p'.preemptedReqs ≠ [] := by
  obtain ⟨q, hq, h⟩ := bind_eq_ok.1 h
  obtain ⟨plan, hplan, h⟩ := bind_eq_ok.1 h
  have hturn : Turn env p r q plan := ⟨hb, hr, Scheduler.request_eq_ok.1 hq, hplan⟩
  have hpos : 0 < p.unvisited := by
    have := (List.getElem?_eq_some_iff.1 hr).1
    rw [unvisited]
    omega
  by_cases hn : plan.numNewTokens = 0
  · rw [if_pos hn] at h
    cases h
    refine ⟨.single (.skip hturn hn), ?_⟩
    show p.sched.running.length - (p.reqIndex + 1) < p.sched.running.length - p.reqIndex
    rw [unvisited] at hpos
    omega
  · rw [if_neg hn] at h
    obtain ⟨⟨p₁, blocks⟩, halloc, h⟩ := bind_eq_ok.1 h
    have hvisit : Step env (p, .idle) (p.withEncoder plan.cache, .visiting q plan) := .visit hturn hn
    rcases allocateOrPreempt_reaches env halloc with ⟨p₂, kv, bs, rfl, hreach, hslots, rfl, hle⟩ | ⟨rfl, hreach, hpre⟩
    · obtain ⟨p₃, hs, h⟩ := bind_eq_ok.1 h
      cases h
      refine ⟨.head hvisit (hreach.tail (.grant hslots hs)), ?_⟩
      have h₁ := scheduleRunning_unvisited hs
      have h₂ : (p₂.withKv kv).unvisited ≤ p.unvisited := hle
      show p'.unvisited < p.unvisited
      omega
    · cases h
      exact ⟨.head hvisit hreach, hpre⟩

theorem runningLoop_reaches (hrounds : p.unvisited ≤ rounds) (h : p.runningLoop env rounds = .ok p') :
    Reaches env p p' .idle ∧ (p'.tokenBudget ≤ 0 ∨ p'.sched.running.length ≤ p'.reqIndex ∨ p'.preemptedReqs ≠ []) := by
  induction rounds generalizing p with
  | zero =>
    cases h
    refine ⟨.refl, .inr (.inl ?_)⟩
    rw [unvisited] at hrounds
    omega
  | succ rounds ih =>
    rw [runningLoop] at h
    split at h
    next hb =>
      split at h
      next hr =>
        cases h
        exact ⟨.refl, .inr (.inl (getElem?_eq_none_iff.1 hr))⟩
      next r hr =>
        obtain ⟨⟨p₁, next⟩, hstep, h⟩ := bind_eq_ok.1 h
        obtain ⟨hreach, hnext⟩ := runningStep_reaches hb hr hstep
        cases next with
        | true =>
          obtain ⟨hreach', hend⟩ := ih (by simp only [if_true] at hnext; omega) h
          exact ⟨hreach.trans hreach', hend⟩
        | false =>
          cases h
          exact ⟨hreach, .inr (.inr hnext)⟩
    next hb =>
      cases h
      exact ⟨.refl, .inl (by omega)⟩

/-! ### The loop over the waiting requests -/

section
variable {q : Request ι η μ}

section

omit [DecidableEq μ]

theorem receiveKv_eq {s s' : Scheduler ι η μ} (h : receiveKv s q = .ok s') :
    ∃ kv failed, s' = { s with kvCacheManager := kv, failedRecvingKvReqIds := failed } ∨
      ∃ n, s' = { s with
        kvCacheManager := kv, failedRecvingKvReqIds := failed
        requests := s.requests.set q.requestId { q with numComputedTokens := n } } := by
  rw [receiveKv] at h
  split at h
  · obtain ⟨kv, -, h⟩ := bind_eq_ok.1 h
    cases h
    exact ⟨kv, _, .inl rfl⟩
  · split at h
    · obtain ⟨kv, -, h⟩ := bind_eq_ok.1 h
      cases h
      exact ⟨kv, s.failedRecvingKvReqIds, .inr ⟨_, rfl⟩⟩
    · cases h

theorem updateWaitingForRemoteKv_eq {s s' : Scheduler ι η μ} (h : updateWaitingForRemoteKv s q = .ok (some s')) :
    ∃ s₁, receiveKv s q = .ok s₁ ∧
      s' = { s₁ with finishedRecvingKvReqIds := s₁.finishedRecvingKvReqIds.erase q.requestId } := by
  rw [updateWaitingForRemoteKv] at h
  split at h
  · cases h
  · obtain ⟨s₁, hs₁, h⟩ := bind_eq_ok.1 h
    cases h
    exact ⟨s₁, hs₁, rfl⟩

theorem makeReady_eq (hq : p.sched.requests.get? q.requestId = some q) (h : p.makeReady env q = .ok (some p')) :
    p' = p ∨ (q.status = .waitingForFsm ∨ q.status = .waitingForRemoteKvs) ∧ ∃ kv failed recving n,
      p' = { p with sched := { p.sched with
        kvCacheManager := kv
        failedRecvingKvReqIds := failed
        finishedRecvingKvReqIds := recving
        requests := p.sched.requests.set q.requestId { q with status := .waiting, numComputedTokens := n } } } := by
  rw [makeReady] at h
  split at h
  next hst =>
    obtain ⟨s, hs, h⟩ := bind_eq_ok.1 h
    cases s with
    | none => cases h
    | some s =>
      obtain ⟨q', hq', h⟩ := bind_eq_ok.1 h
      rw [Scheduler.request_eq_ok] at hq'
      cases h
      obtain ⟨s₁, hs₁, rfl⟩ := updateWaitingForRemoteKv_eq hs
      refine .inr ⟨.inr hst, ?_⟩
      obtain ⟨kv, failed, rfl | ⟨n, rfl⟩⟩ := receiveKv_eq hs₁
      · obtain rfl : q = q' := Option.some.inj (hq.symm.trans hq')
        exact ⟨kv, failed, _, q.numComputedTokens, rfl⟩
      · rw [Dict.get?_set_self] at hq'
        cases hq'
        refine ⟨kv, failed, p.sched.finishedRecvingKvReqIds.erase q.requestId, n, ?_⟩
        simp [Scheduler.setRequest]
  next hst =>
    split at h
    · cases h
      exact .inr ⟨.inl hst, _, _, _, _, rfl⟩
    · cases h
  next =>
    cases h
    exact .inl rfl

theorem makeReady_frame (h : p.makeReady env q = .ok (some p')) : ∃ s, p' = { p with sched := s } ∧
    s.config = p.sched.config ∧ s.running = p.sched.running ∧ s.waiting = p.sched.waiting := by
  rw [makeReady] at h
  split at h
  · obtain ⟨s, hs, h⟩ := bind_eq_ok.1 h
    cases s with
    | none => cases h
    | some s =>
      obtain ⟨q', -, h⟩ := bind_eq_ok.1 h
      cases h
      obtain ⟨s₁, hs₁, rfl⟩ := updateWaitingForRemoteKv_eq hs
      obtain ⟨kv, failed, rfl | ⟨n, rfl⟩⟩ := receiveKv_eq hs₁ <;> exact ⟨_, rfl, rfl, rfl, rfl⟩
  · split at h <;> cases h
    exact ⟨_, rfl, rfl, rfl, rfl⟩
  · cases h
    exact ⟨_, rfl, rfl, rfl, rfl⟩

end

end

omit [DecidableEq μ] in
theorem Head.ready {q q' : Request ι η μ} (h : Head p r q) (hr : p.makeReady env q = .ok (some p'))
    (hq' : p'.sched.requests.get? r = some q') : Head p' r q' := by
  obtain ⟨s, rfl, hcfg, hrun, hwait⟩ := makeReady_frame hr
  refine ⟨h.budget, ?_, hwait ▸ h.head, hq', h.nonePreempted, hrun ▸ h.allVisited⟩
  rw [hcfg, hrun]
  exact h.room

structure Waits (p : Pass ι η μ) : Prop where
  nonePreempted : p.preemptedReqs = []
  allVisited : p.sched.running.length ≤ p.reqIndex

theorem Step.waits (h : Step env (p, .waiting) (p', .waiting)) : Waits p' := by
  cases h with
  | ready hh hr =>
    obtain ⟨s, rfl, -, hrun, -⟩ := makeReady_frame hr
    exact ⟨hh.nonePreempted, hrun ▸ hh.allVisited⟩
  | aside hh | stop hh => exact ⟨hh.nonePreempted, hh.allVisited⟩
  | starve hd | load hd => exact ⟨hd.nonePreempted, hd.allVisited⟩
  | enter hd ha hs =>
    obtain ⟨cache, -, -, rfl⟩ := scheduleWaiting_eq hs
    refine ⟨hd.nonePreempted, ?_⟩
    rw [length_append, length_singleton]
    exact Nat.succ_le_succ hd.allVisited

theorem waitingStep_reaches (hw : Waits p) (hb : 0 < p.tokenBudget)
    (hroom : p.sched.running.length ≠ p.sched.config.maxNumRunningReqs) (hr : p.sched.waiting.head? = some r)
    (h : p.waitingStep env r = .ok (p', next)) :
    ∃ p₁, ReflTransGen (Step env) (p, .waiting) (p₁, .waiting) ∧ Step env (p₁, .waiting) (p', .waiting) := by
  obtain ⟨q₀, hq₀, h⟩ := bind_eq_ok.1 h
  have hhead₀ : Head p r q₀ := ⟨hb, hroom, hr, Scheduler.request_eq_ok.1 hq₀, hw.nonePreempted, hw.allVisited⟩
  obtain ⟨ready, hready, h⟩ := bind_eq_ok.1 h
  cases ready with
  | none =>
    cases h
    exact ⟨p, .refl, .aside hhead₀ (.unready hready)⟩
  | some p₁ =>
    obtain ⟨q, hq, h⟩ := bind_eq_ok.1 h
    have hhead : Head p₁ r q := hhead₀.ready hready (Scheduler.request_eq_ok.1 hq)
    refine ⟨p₁, .single (.ready hhead₀ hready), ?_⟩
    by_cases hlora : p₁.loraBlocked q.toRequestSpec = true
    · rw [if_pos hlora] at h
      cases h
      exact .aside hhead (.adapter hlora)
    · rw [if_neg hlora] at h
      obtain ⟨c, hc, h⟩ := bind_eq_ok.1 h
      cases c with
      | none =>
        cases h
        exact .aside hhead (.unmatched hc)
      | some c =>
        obtain ⟨verdict, hplan, h⟩ := bind_eq_ok.1 h
        cases verdict with
        | skip =>
          cases h
          exact .aside hhead (.whole hplan)
        | stop cache =>
          cases h
          exact .stop hhead hc hplan
        | go plan =>
          obtain ⟨⟨kv, blocks⟩, hslots, h⟩ := bind_eq_ok.1 h
          have hdec : Decides env p₁ r q c plan kv blocks := ⟨hhead, Bool.eq_false_iff.2 hlora, hc, hplan, hslots⟩
          cases blocks with
          | none =>
            cases h
            exact .starve hdec
          | some blocks =>
            by_cases ha : c.loadKvAsync = true
            · simp only [ha, if_true] at h
              cases h
              exact .load hdec ha
            · simp only [ha] at h
              obtain ⟨p₂, hadm, h⟩ := bind_eq_ok.1 h
              cases h
              exact .enter hdec (Bool.eq_false_iff.2 ha) hadm

theorem waitingLoop_of_spent (hb : p.tokenBudget ≤ 0) : p.waitingLoop env rounds = .ok p := by
  cases rounds with
  | zero => rfl
  | succ rounds => rw [waitingLoop, if_neg (by omega)]

theorem waitingLoop_reaches (hw : Waits p) (h : p.waitingLoop env rounds = .ok p') :
    ReflTransGen (Step env) (p, .waiting) (p', .waiting) := by
  induction rounds generalizing p with
  | zero =>
    cases h
    exact .refl
  | succ rounds ih =>
    rw [waitingLoop] at h
    split at h
    next hb =>
      split at h
      next =>
        cases h
        exact .refl
      next r rest hr =>
        obtain ⟨⟨p₁, next⟩, hstep, h⟩ := bind_eq_ok.1 h
        obtain ⟨p₀, hreach, hlast⟩ := waitingStep_reaches hw hb.1 hb.2 (by rw [hr, head?_cons]) hstep
        cases next with
        | true => exact (hreach.tail hlast).trans (ih hlast.waits h)
        | false =>
          cases h
          exact hreach.tail hlast
    next =>
      cases h
      exact .refl

end Pass

/-! ### schedule -/

def Pass.Exceeds (p : Pass ι η μ) : Prop := lorasExceeded p.sched.config.maxLoras p.runningLoras = true

def Pass.withLoras (p : Pass ι η μ) : Pass ι η μ :=
  { p with scheduledLoras := if p.sched.config.maxLoras.isSome then p.runningLoras else p.scheduledLoras }

variable [DecidableEq η] [DecidableEq μ]

theorem Scheduler.schedule_reaches (env : Env ι) (s : Scheduler ι η μ) :
    (∃ e, s.schedule env = .error (.raised e)) ∨
      (∃ p, Pass.Reaches env (.init s) p .idle ∧ p.Exceeds ∧ s.schedule env = .error .scheduledLoras) ∨
      ∃ p, Pass.Reaches env (.init s) p .waiting ∧ s.schedule env = p.putBack.finish := by
  rw [schedule]
  rcases hrun : (Pass.init s).runningLoop env s.running.length with e | p
  · exact .inl ⟨e, rfl⟩
  have hrounds : (Pass.init s).unvisited ≤ s.running.length := Nat.sub_le _ _
  obtain ⟨hreach, hend⟩ := Pass.runningLoop_reaches hrounds hrun
  simp only [Except.mapError, ok_bind]
  by_cases hex : lorasExceeded p.sched.config.maxLoras p.runningLoras = true
  · rw [if_pos hex]
    exact .inr (.inl ⟨p, hreach, hex, rfl⟩)
  rw [if_neg hex]
  -- the adapters are recorded if there are any
  have hp₁ : (if p.sched.config.maxLoras.isSome then { p with scheduledLoras := p.runningLoras } else p) =
    p.withLoras := by
    rw [Pass.withLoras]
    split <;> rfl
  have hreach₁ : Pass.Reaches env (.init s) p.withLoras .waiting := hreach.tail (.loras (Bool.eq_false_iff.2 hex))
  have hend₁ : p.withLoras.tokenBudget ≤ 0 ∨ p.withLoras.sched.running.length ≤ p.withLoras.reqIndex ∨
      p.withLoras.preemptedReqs ≠ [] := hend
  rw [hp₁, Pass.waitingPass]
  by_cases hpre : p.withLoras.preemptedReqs = []
  · rw [if_pos hpre]
    rcases hwait : p.withLoras.waitingLoop env p.withLoras.sched.waiting.length with e | p₂
    · exact .inl ⟨e, rfl⟩
    · refine .inr (.inr ⟨p₂, ?_, rfl⟩)
      rcases hend₁ with hspent | hvisited | hpre'
      · rw [Pass.waitingLoop_of_spent hspent] at hwait
        cases hwait
        exact hreach₁
      · exact hreach₁.trans (Pass.waitingLoop_reaches ⟨hpre, hvisited⟩ hwait)
      · exact absurd hpre hpre'
  · rw [if_neg hpre]
    exact .inr (.inr ⟨p.withLoras, hreach₁, rfl⟩)

end Xmix.Sched
