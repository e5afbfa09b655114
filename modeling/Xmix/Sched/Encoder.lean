import Xmix.Sched.Request

/-!
# The encoder cache

`EncoderCacheManager`, and the choice of the encoder inputs that a request needs for its next tokens
(`_try_schedule_encoder_inputs`). `none` is a call that raises.
-/

namespace Xmix.Sched

open Option

variable {ι η μ : Type} [DecidableEq ι] [DecidableEq μ]

structure EncoderConfig where
  isEncoderDecoder : Bool
  disableChunkedMmInput : Bool

structure EncoderCacheManager (ι μ : Type) where
  cacheSize : Nat
  numFreeSlots : Int
  numFreeableSlots : Int
  cached : Dict μ (List ι)
  freeable : Dict μ Nat
  freed : List μ

namespace EncoderCacheManager

def init (cacheSize : Nat) : EncoderCacheManager ι μ := ⟨cacheSize, cacheSize, cacheSize, .empty, .empty, []⟩

variable (m : EncoderCacheManager ι μ)

def checkAndUpdateCache (r : ι) (h : μ) : Option (Bool × EncoderCacheManager ι μ) :=
  match m.cached.get? h with
  | none => some (false, m)
  | some [] => do
    let n ← m.freeable.get? h
    some (true, { m with
      freeable := m.freeable.pop h
      numFreeableSlots := m.numFreeableSlots - n
      cached := m.cached.set h [r] })
  | some refs => some (true, { m with cached := m.cached.set h (refs.insert r) })

def evictLoop (numTokens : Int) : List (μ × Nat) → EncoderCacheManager ι μ → Option (EncoderCacheManager ι μ)
  | [], m => if numTokens ≤ m.numFreeSlots then some m else none
  | (h, n) :: entries, m =>
    if numTokens ≤ m.numFreeSlots then some m
    else do
      let _ ← m.cached.get? h
      evictLoop numTokens entries { m with
        freeable := m.freeable.pop h
        cached := m.cached.pop h
        freed := m.freed ++ [h]
        numFreeSlots := m.numFreeSlots + n }

def canAllocate (numTokens : Nat) (encoderComputeBudget : Int) (numTokensToSchedule : Nat) :
    Option (Bool × EncoderCacheManager ι μ) :=
  if encoderComputeBudget < numTokens then some (false, m)
  else
    let numTokens : Int := numTokens + numTokensToSchedule
    if numTokens ≤ m.numFreeSlots then some (true, m)
    else if m.numFreeableSlots < numTokens then some (false, m)
    else (m.evictLoop numTokens m.freeable.entries).map fun m => (true, m)

def allocate (r : ι) (h : μ) (numTokens : Nat) : Option (EncoderCacheManager ι μ) :=
  if numTokens ≤ m.numFreeSlots ∧ numTokens ≤ m.numFreeableSlots then
    some { m with
      cached := m.cached.set h (((m.cached.get? h).getD []).insert r)
      numFreeSlots := m.numFreeSlots - numTokens
      numFreeableSlots := m.numFreeableSlots - numTokens }
  else none

def getCachedInputIds (q : RequestSpec ι η μ) : List (MmFeature μ) :=
  q.mmFeatures.filter fun f => (m.cached.get? f.identifier).isSome

def freeEncoderInput (r : ι) (f : MmFeature μ) : EncoderCacheManager ι μ :=
  match m.cached.get? f.identifier with
  | none | some [] => m
  | some refs =>
    let refs := refs.erase r
    let m := { m with cached := m.cached.set f.identifier refs }
    if refs = [] then
      { m with freeable := m.freeable.set f.identifier f.length, numFreeableSlots := m.numFreeableSlots + f.length }
    else m

def free (q : RequestSpec ι η μ) : EncoderCacheManager ι μ :=
  (m.getCachedInputIds q).foldl (fun m f => m.freeEncoderInput q.requestId f) m

def getFreedMmHashes : List μ × EncoderCacheManager ι μ := (m.freed, { m with freed := [] })

end EncoderCacheManager

def EncoderCacheManager.lookUp (m : EncoderCacheManager ι μ) (cfg : EncoderConfig) (r : ι) (h : μ) :
    Option (Bool × EncoderCacheManager ι μ) :=
  if cfg.isEncoderDecoder then some (false, m) else m.checkAndUpdateCache r h

structure EncoderPlan (ι μ : Type) where
  inputs : List Nat
  numNewTokens : Int
  computeBudget : Int
  externalLoad : List Nat
  cache : EncoderCacheManager ι μ

structure EncoderScan (ι μ : Type) extends EncoderPlan ι μ where
  hashesToSchedule : List μ
  numTokensToSchedule : Nat

def scanFeatures (cfg : EncoderConfig) (remote : Nat → Bool) (r : ι) (numComputed : Int) :
    Nat → List (MmFeature μ) → EncoderScan ι μ → Option (EncoderPlan ι μ)
  | _, [], x => some x.toEncoderPlan
  | i, f :: fs, x =>
    let next := fun x : EncoderScan ι μ => scanFeatures cfg remote r numComputed (i + 1) fs x
    if numComputed + x.numNewTokens ≤ f.offset then some x.toEncoderPlan
    else if cfg.isEncoderDecoder = true ∧ 0 < numComputed then
      if f.offset = 0 then next x else none
    else if (f.offset + f.length : Nat) ≤ numComputed then next x
    else if cfg.isEncoderDecoder = false ∧ f.identifier ∈ x.hashesToSchedule then next x
    else do
      let (hit, cache) ← x.cache.lookUp cfg r f.identifier
      let x := { x with cache := cache }
      if hit then next x
      else if cfg.disableChunkedMmInput = true ∧ numComputed < f.offset ∧
          numComputed + x.numNewTokens < (f.offset + f.length : Nat) then
        some { x.toEncoderPlan with numNewTokens := f.offset - numComputed }
      else do
        let (fits, cache) ← x.cache.canAllocate f.length x.computeBudget x.numTokensToSchedule
        let x := { x with cache := cache }
        if !fits then
          -- only the tokens before the input, if there are any
          some { x.toEncoderPlan with numNewTokens := if numComputed < f.offset then f.offset - numComputed else 0 }
        else if remote i then
          next { x with
            hashesToSchedule := f.identifier :: x.hashesToSchedule
            externalLoad := x.externalLoad ++ [i]
            numTokensToSchedule := x.numTokensToSchedule + f.length }
        else
          next { x with
            hashesToSchedule := f.identifier :: x.hashesToSchedule
            inputs := x.inputs ++ [i]
            numTokensToSchedule := x.numTokensToSchedule + f.length
            computeBudget := x.computeBudget - f.length }

def tryScheduleEncoderInputs (cfg : EncoderConfig) (remote : Nat → Bool) (cache : EncoderCacheManager ι μ)
    (q : RequestSpec ι η μ) (numComputed numNewTokens encoderComputeBudget : Int) : Option (EncoderPlan ι μ) :=
  let start : EncoderPlan ι μ := ⟨[], numNewTokens, encoderComputeBudget, [], cache⟩
  if numNewTokens = 0 ∨ q.hasEncoderInputs = false then some start
  else scanFeatures cfg remote q.requestId numComputed 0 q.mmFeatures
    { start with hashesToSchedule := [], numTokensToSchedule := 0 }

/-! ### What a round of the scan does -/

namespace EncoderCacheManager

variable {m m' : EncoderCacheManager ι μ}

omit [DecidableEq ι] in
theorem canAllocate_false {n k : Nat} {budget : Int} (h : m.canAllocate n budget k = some (false, m')) : m' = m := by
  simp only [canAllocate] at h
  split at h
  · cases h
    rfl
  · split at h
    · cases h
    · split at h
      · cases h
        rfl
      · obtain ⟨m₁, -, h⟩ := map_eq_some_iff.1 h
        cases h

omit [DecidableEq ι] in
theorem evictLoop_of_le {n : Int} {entries : List (μ × Nat)} (h : n ≤ m.numFreeSlots) :
    m.evictLoop n entries = some m := by
  cases entries <;> rw [evictLoop, if_pos h]

theorem checkAndUpdateCache_false {r : ι} {h : μ} (hm : m.checkAndUpdateCache r h = some (false, m')) :
    m' = m ∧ m.cached.get? h = none := by
  rw [checkAndUpdateCache] at hm
  split at hm
  next hnone =>
    cases hm
    exact ⟨rfl, hnone⟩
  · obtain ⟨n, -, hm⟩ := bind_eq_some_iff.1 hm
    cases hm
  · cases hm

theorem lookUp_cases {cfg : EncoderConfig} {r : ι} {h : μ} {hit : Bool} (hm : m.lookUp cfg r h = some (hit, m')) :
    hit = true ∧ cfg.isEncoderDecoder = false ∧ m.checkAndUpdateCache r h = some (true, m') ∨
      hit = false ∧ m' = m ∧ (cfg.isEncoderDecoder = false → m.cached.get? h = none) := by
  rw [lookUp] at hm
  split at hm
  next hcfg =>
    cases hm
    exact .inr ⟨rfl, rfl, fun hfalse => absurd (hcfg.symm.trans hfalse) (by simp)⟩
  next hcfg =>
    cases hit with
    | true => exact .inl ⟨rfl, Bool.eq_false_iff.2 hcfg, hm⟩
    | false => exact .inr ⟨rfl, (checkAndUpdateCache_false hm).1, fun _ => (checkAndUpdateCache_false hm).2⟩

omit [DecidableEq ι] in
theorem canAllocate_true {n k : Nat} {budget : Int} (h : m.canAllocate n budget k = some (true, m')) :
    (n : Int) ≤ budget ∧ m.evictLoop (n + k) m.freeable.entries = some m' := by
  simp only [canAllocate] at h
  split at h
  · cases h
  next hb =>
    refine ⟨by omega, ?_⟩
    split at h
    next hfree =>
      cases h
      rw [evictLoop_of_le hfree]
    next =>
      split at h
      · cases h
      · obtain ⟨m₁, hm₁, h⟩ := map_eq_some_iff.1 h
        cases h
        exact hm₁

end EncoderCacheManager

section Scan
variable {cfg : EncoderConfig} {remote : Nat → Bool} {r : ι} {numComputed : Int} {i : Nat}
  {f : MmFeature μ} {fs : List (MmFeature μ)}
  {x : EncoderScan ι μ} {plan : EncoderPlan ι μ}

def Passed (cfg : EncoderConfig) (numComputed : Int) (f : MmFeature μ) (x : EncoderScan ι μ) : Prop :=
  cfg.isEncoderDecoder = true ∧ 0 < numComputed ∨ ((f.offset + f.length : Nat) : Int) ≤ numComputed ∨
    cfg.isEncoderDecoder = false ∧ f.identifier ∈ x.hashesToSchedule

def chosen (remote : Nat → Bool) (i : Nat) (f : MmFeature μ) (cache : EncoderCacheManager ι μ)
    (x : EncoderScan ι μ) : EncoderScan ι μ :=
  { x with
    cache := cache
    hashesToSchedule := f.identifier :: x.hashesToSchedule
    externalLoad := if remote i then x.externalLoad ++ [i] else x.externalLoad
    inputs := if remote i then x.inputs else x.inputs ++ [i]
    numTokensToSchedule := x.numTokensToSchedule + f.length
    computeBudget := if remote i then x.computeBudget else x.computeBudget - f.length }

theorem scanFeatures_cons (h : scanFeatures cfg remote r numComputed i (f :: fs) x = some plan) :
    (numComputed + x.numNewTokens ≤ f.offset ∧ plan = x.toEncoderPlan) ∨
      numComputed + x.numNewTokens > f.offset ∧
        (Passed cfg numComputed f x ∧ scanFeatures cfg remote r numComputed (i + 1) fs x = some plan ∨
          (∃ cache, cfg.isEncoderDecoder = false ∧ x.cache.checkAndUpdateCache r f.identifier = some (true, cache) ∧
            scanFeatures cfg remote r numComputed (i + 1) fs { x with cache := cache } = some plan) ∨
          (∃ n : Int, (n = 0 ∨ n = f.offset - numComputed ∧ numComputed < f.offset) ∧
            plan = { x.toEncoderPlan with numNewTokens := n }) ∨
          ∃ cache, ¬Passed cfg numComputed f x ∧
            (cfg.isEncoderDecoder = false → x.cache.cached.get? f.identifier = none) ∧
            x.cache.canAllocate f.length x.computeBudget x.numTokensToSchedule = some (true, cache) ∧
            scanFeatures cfg remote r numComputed (i + 1) fs (chosen remote i f cache x) = some plan) := by
  rw [scanFeatures] at h
  split at h
  next hle =>
    cases h
    exact .inl ⟨hle, rfl⟩
  next hgt =>
    refine .inr ⟨by omega, ?_⟩
    split at h
    next hdec =>
      split at h
      · exact .inl ⟨.inl hdec, h⟩
      · cases h
    next hdec =>
      split at h
      next hdone => exact .inl ⟨.inr (.inl hdone), h⟩
      next hdone =>
        split at h
        next hsame => exact .inl ⟨.inr (.inr hsame), h⟩
        next hsame =>
          obtain ⟨⟨hit, cache⟩, hlook, h⟩ := bind_eq_some_iff.1 h
          rcases EncoderCacheManager.lookUp_cases hlook with ⟨rfl, hcfg, hcheck⟩ | ⟨rfl, rfl, hnone⟩
          · exact .inr (.inl ⟨cache, hcfg, hcheck, h⟩)
          · simp only [Bool.false_eq_true, if_false] at h
            split at h
            next hcut =>
              cases h
              exact .inr (.inr (.inl ⟨_, .inr ⟨rfl, hcut.2.1⟩, rfl⟩))
            next =>
              obtain ⟨⟨fits, cache⟩, hcan, h⟩ := bind_eq_some_iff.1 h
              cases fits with
              | false =>
                cases h
                obtain rfl := EncoderCacheManager.canAllocate_false hcan
                refine .inr (.inr (.inl ⟨_, ?_, rfl⟩))
                by_cases hbefore : numComputed < f.offset
                · exact .inr ⟨if_pos hbefore, hbefore⟩
                · exact .inl (if_neg hbefore)
              | true =>
                refine .inr (.inr (.inr ⟨cache, ?_, hnone, hcan, ?_⟩))
                · rintro (hp | hp | hp)
                  · exact hdec hp
                  · exact hdone hp
                  · exact hsame hp
                · cases hremote : remote i <;> simpa [chosen, hremote] using h

theorem scanFeatures_rule {all : List (MmFeature μ)}
    (P : Nat → EncoderScan ι μ → Prop) (Q : EncoderPlan ι μ → Prop) (hend : ∀ i x, P i x →
      (∀ f, all[i]? = some f → numComputed + x.numNewTokens ≤ f.offset) → Q x.toEncoderPlan)
    (hcut : ∀ i f x n, all[i]? = some f → P i x → numComputed + x.numNewTokens > f.offset →
      (n = 0 ∨ n = f.offset - numComputed ∧ numComputed < f.offset) →
      Q { x.toEncoderPlan with numNewTokens := n })
    (hpass : ∀ i f x, all[i]? = some f → P i x → Passed cfg numComputed f x → P (i + 1) x)
    (hhit : ∀ i f x cache, all[i]? = some f → P i x →
      cfg.isEncoderDecoder = false → x.cache.checkAndUpdateCache r f.identifier = some (true, cache) →
      P (i + 1) { x with cache := cache }) (hchoose : ∀ i f x cache, all[i]? = some f →
      P i x → numComputed + x.numNewTokens > f.offset → ¬Passed cfg numComputed f x →
      (cfg.isEncoderDecoder = false → x.cache.cached.get? f.identifier = none) →
      x.cache.canAllocate f.length x.computeBudget x.numTokensToSchedule = some (true, cache) →
      P (i + 1) (chosen remote i f cache x))
    (h : scanFeatures cfg remote r numComputed i (all.drop i) x = some plan) (hx : P i x) : Q plan := by
  generalize hfs : all.drop i = fs at h
  induction fs generalizing i x with
  | nil =>
    cases h
    refine hend i x hx fun f hf => ?_
    rw [List.drop_eq_nil_iff] at hfs
    rw [List.getElem?_eq_none hfs] at hf
    cases hf
  | cons f fs ih =>
    have hf : all[i]? = some f := by
      rw [← List.head?_drop, hfs, List.head?_cons]
    have hrest : all.drop (i + 1) = fs := by
      rw [← List.tail_drop, hfs, List.tail_cons]
    obtain ⟨hle, rfl⟩ | ⟨hgt, ⟨hp, h⟩ | ⟨cache, hdec, hcheck, h⟩ | ⟨n, hn, rfl⟩ |
      ⟨cache, hp, hnone, hcan, h⟩⟩ := scanFeatures_cons h
    · refine hend i x hx fun f' hf' => ?_
      cases hf.symm.trans hf'
      exact hle
    · exact ih (hpass i f x hf hx hp) hrest h
    · exact ih (hhit i f x cache hf hx hdec hcheck) hrest h
    · exact hcut i f x n hf hx hgt hn
    · exact ih (hchoose i f x cache hf hx hgt hp hnone hcan) hrest h

end Scan

variable (q : RequestSpec ι η μ) (inputs : List Nat)

def RequestSpec.inputTokens : Int :=
  (inputs.map fun i => (q.numEncoderTokens i : Int)).sum

section

omit [DecidableEq ι] [DecidableEq μ]

theorem RequestSpec.inputTokens_concat (i : Nat) :
    q.inputTokens (inputs ++ [i]) = q.inputTokens inputs + q.numEncoderTokens i := by
  simp [inputTokens]

theorem RequestSpec.inputTokens_nonneg : 0 ≤ q.inputTokens inputs := by
  induction inputs with
  | nil => exact Int.le_refl 0
  | cons i inputs ih =>
    show 0 ≤ (q.numEncoderTokens i : Int) + q.inputTokens inputs
    omega

end

structure EncoderPlan.Within (plan : EncoderPlan ι μ) (q : RequestSpec ι η μ) (numNewTokens budget : Int) : Prop where
  tokens : 0 ≤ plan.numNewTokens ∧ plan.numNewTokens ≤ numNewTokens
  spent : plan.computeBudget + q.inputTokens plan.inputs = budget
  budget : 0 ≤ plan.computeBudget

theorem tryScheduleEncoderInputs_within {cfg : EncoderConfig} {remote : Nat → Bool} {cache : EncoderCacheManager ι μ}
    {q : RequestSpec ι η μ} {numComputed n budget : Int} {plan : EncoderPlan ι μ} (hn : 0 ≤ n) (hb : 0 ≤ budget)
    (h : tryScheduleEncoderInputs cfg remote cache q numComputed n budget = some plan) : plan.Within q n budget := by
  have hstart : q.inputTokens [] = 0 := rfl
  simp only [tryScheduleEncoderInputs] at h
  split at h
  · cases h
    exact ⟨⟨hn, Int.le_refl n⟩, by rw [hstart, Int.add_zero], hb⟩
  · rw [← List.drop_zero (l := q.mmFeatures)] at h
    refine scanFeatures_rule (fun _ x => x.toEncoderPlan.Within q n budget) (fun plan => plan.Within q n budget)
      (fun _ _ hx _ => hx) ?_ (fun _ _ _ _ hx _ => hx) (fun _ _ _ _ _ hx _ _ => ⟨hx.tokens, hx.spent, hx.budget⟩) ?_ h
      ⟨⟨hn, Int.le_refl n⟩, by rw [hstart, Int.add_zero], hb⟩
    · intro i f x m _ hx hgt hm
      refine ⟨?_, hx.spent, hx.budget⟩
      have := hx.tokens
      simp only
      omega
    · intro i f x cache' hf hx _ _ _ hcan
      have hle := (EncoderCacheManager.canAllocate_true hcan).1
      cases hremote : remote i with
      | true =>
        refine ⟨hx.tokens, ?_, ?_⟩
        · simpa [chosen, hremote] using hx.spent
        · simpa [chosen, hremote] using hx.budget
      | false =>
        refine ⟨hx.tokens, ?_, ?_⟩
        · simp only [chosen, hremote, Bool.false_eq_true, if_false, RequestSpec.inputTokens_concat,
            RequestSpec.numEncoderTokens, hf, map_some, getD_some]
          have := hx.spent
          omega
        · simp only [chosen, hremote, Bool.false_eq_true, if_false]
          omega

end Xmix.Sched
