import Xmix.Kv.Specs
import Xmix.Lib.Bisect

/-!
# The estimate of the model length

`estimate_max_model_len` looks for the largest length that fits into the memory by bisection. Each
probe writes the length into the configuration, and nothing writes the configured length back.
-/

namespace Xmix.Kv.Layout

open Option

variable {cfg cfg' : VllmConfig} {specs : List KVCacheSpec} {availableMemory : Int}

def fitsInMemory (cfg : VllmConfig) (specs : List KVCacheSpec) (availableMemory modelLen : Int) :
    Option (Bool × VllmConfig) :=
  (maxMemoryUsageBytes { cfg with maxModelLen := modelLen } specs).map fun memoryNeeded =>
    (decide (memoryNeeded ≤ availableMemory), { cfg with maxModelLen := modelLen })

def searchLoop (specs : List KVCacheSpec) (availableMemory : Int) (cfg : VllmConfig)
    (left right result : Int) : Option (Int × VllmConfig) :=
  if left ≤ right then
    (fitsInMemory cfg specs availableMemory ((left + right) / 2)).bind fun x =>
      if x.1 then searchLoop specs availableMemory x.2 ((left + right) / 2 + 1) right ((left + right) / 2)
      else searchLoop specs availableMemory x.2 left ((left + right) / 2 - 1) result
  else some (result, cfg)
termination_by (right + 1 - left).toNat
decreasing_by
  · omega
  · omega

variable (cfg)

def estimateMaxModelLen (specs : Dict String KVCacheSpec) (availableMemory : Int) : Option (Int × VllmConfig) := do
  let currentMax := cfg.maxModelLen
  let (fits, cfg) ← fitsInMemory cfg specs.values availableMemory 1
  if fits then searchLoop specs.values availableMemory cfg 1 currentMax 1
  else some (0, cfg)

def fits (specs : List KVCacheSpec) (availableMemory n : Int) : Bool :=
  (maxMemoryUsageBytes { cfg with maxModelLen := n } specs).any fun memoryNeeded =>
    decide (memoryNeeded ≤ availableMemory)

/-- The largest length that fits, or 0 if none does. -/
def Largest (specs : List KVCacheSpec) (availableMemory n : Int) : Prop :=
  IsGreatest {n | 1 ≤ n ∧ n ≤ cfg.maxModelLen ∧ fits cfg specs availableMemory n = true} n ∨
    n = 0 ∧ ∀ n, 1 ≤ n → n ≤ cfg.maxModelLen → fits cfg specs availableMemory n = false

variable {cfg}

/-! ### The loop is the bisection -/

theorem fitsInMemory_eq {m n : Int}
    (hm : maxMemoryUsageBytes { cfg with maxModelLen := n } specs = some m) (last : Int) :
    fitsInMemory { cfg with maxModelLen := last } specs availableMemory n =
      some (fits cfg specs availableMemory n, { cfg with maxModelLen := n }) := by
  rw [fitsInMemory, fits, hm]
  rfl

theorem fits_down {m n : Int} (h : m ≤ n) (hn : fits cfg specs availableMemory n = true) :
    fits cfg specs availableMemory m = true := by
  rw [fits, any_eq_true] at hn ⊢
  obtain ⟨k, hk, hle⟩ := hn
  obtain hnone | ⟨g, hg, hsome⟩ := maxMemoryUsageBytes_cases cfg specs
  · rw [hnone n] at hk
    cases hk
  · rw [hsome n] at hk
    cases hk
    exact ⟨g m, hsome m, decide_eq_true ((hg _ _ h).trans (of_decide_eq_true hle))⟩

theorem searchLoop_eq {g : Int → Int}
    (hg : ∀ n, maxMemoryUsageBytes { cfg with maxModelLen := n } specs = some (g n))
    (left right result last : Int) :
    searchLoop specs availableMemory { cfg with maxModelLen := last } left right result =
      some ((bisect (fits cfg specs availableMemory) left right result last).1,
        { cfg with maxModelLen := (bisect (fits cfg specs availableMemory) left right result last).2 }) := by
  fun_induction bisect (fits cfg specs availableMemory) left right result last with
  | case1 l r b x hle ht ih =>
    rw [searchLoop, if_pos hle, fitsInMemory_eq (hg _) x, bind_some, if_pos ht]
    exact ih
  | case2 l r b x hle ht ih =>
    rw [searchLoop, if_pos hle, fitsInMemory_eq (hg _) x, bind_some, if_neg ht]
    exact ih
  | case3 l r b x hgt => rw [searchLoop, if_neg hgt]

section
variable {specs : Dict String KVCacheSpec}

theorem estimateMaxModelLen_eq {g : Int → Int}
    (hg : ∀ n, maxMemoryUsageBytes { cfg with maxModelLen := n } specs.values = some (g n)) :
    estimateMaxModelLen cfg specs availableMemory =
      if fits cfg specs.values availableMemory 1 then
        some ((bisect (fits cfg specs.values availableMemory) 1 cfg.maxModelLen 1 1).1,
          { cfg with maxModelLen := (bisect (fits cfg specs.values availableMemory) 1 cfg.maxModelLen 1 1).2 })
      else some (0, { cfg with maxModelLen := 1 }) := by
  have hone : fitsInMemory cfg specs.values availableMemory 1 = _ := fitsInMemory_eq (hg 1) cfg.maxModelLen
  rw [estimateMaxModelLen, hone]
  simp only [bind_eq_bind, bind_some]
  rw [searchLoop_eq hg]

theorem exists_of_estimate {n : Int} (h : estimateMaxModelLen cfg specs availableMemory = some (n, cfg')) :
    ∃ g : Int → Int, ∀ n, maxMemoryUsageBytes { cfg with maxModelLen := n } specs.values = some (g n) := by
  obtain hnone | ⟨g, -, hsome⟩ := maxMemoryUsageBytes_cases cfg specs.values
  · rw [estimateMaxModelLen, fitsInMemory, hnone 1] at h
    cases h
  · exact ⟨g, hsome⟩

theorem estimateMaxModelLen_largest {n : Int} (hpos : 1 ≤ cfg.maxModelLen)
    (h : estimateMaxModelLen cfg specs availableMemory = some (n, cfg')) :
    Largest cfg specs.values availableMemory n := by
  obtain ⟨g, hg⟩ := exists_of_estimate h
  rw [estimateMaxModelLen_eq hg] at h
  split at h
  next hfit =>
    cases h
    have hgreat := @bisect_isGreatest _ 1 cfg.maxModelLen 1 1 cfg.maxModelLen (fun m n => fits_down)
      hfit hpos (.inl rfl) (le_refl _) (fun n h h' => absurd h (by omega))
    refine .inl ⟨⟨hgreat.2 ⟨hpos, hfit⟩, hgreat.1.1, hgreat.1.2⟩, fun k hk => hgreat.2 ⟨hk.2.1, hk.2.2⟩⟩
  next hfit =>
    cases h
    exact .inr ⟨rfl, fun k hk _ => Bool.eq_false_iff.2 fun hk' => hfit (fits_down hk hk')⟩

end

/-- The estimate is the largest length that fits and leaves the configuration as it was exactly if the length below the
configured one fits; for then it probes the configured length last. -/
theorem estimateMaxModelLen_iff {specs : Dict String KVCacheSpec}
    {n : Int} (h : estimateMaxModelLen cfg specs availableMemory = some (n, cfg')) :
    Largest cfg specs.values availableMemory n ∧ cfg' = cfg ↔
      1 ≤ cfg.maxModelLen ∧
        (cfg.maxModelLen = 1 ∨ fits cfg specs.values availableMemory (cfg.maxModelLen - 1) = true) := by
  obtain ⟨g, hg⟩ := exists_of_estimate h
  have hsame : ∀ k : Int, { cfg with maxModelLen := k } = cfg ↔ k = cfg.maxModelLen := fun k =>
    ⟨fun heq => congrArg VllmConfig.maxModelLen heq, fun heq => by rw [heq]⟩
  have h' := h
  rw [estimateMaxModelLen_eq hg] at h'
  by_cases hpos : 1 ≤ cfg.maxModelLen
  · have hlargest := estimateMaxModelLen_largest hpos h
    rw [and_iff_right hlargest, and_iff_right hpos]
    split at h'
    next hfit =>
      cases h'
      rw [hsame, bisect_last_eq_iff (fun m n => fits_down) hpos, eq_comm]
    next hfit =>
      cases h'
      rw [hsame, eq_comm]
      refine ⟨.inl, fun hor => hor.elim id fun hbelow => ?_⟩
      by_cases hone : cfg.maxModelLen = 1
      · exact hone
      · exact absurd (fits_down (by omega) hbelow) hfit
  · refine ⟨fun hboth => absurd ?_ hpos, fun hboth => absurd hboth.1 hpos⟩
    split at h'
    · rw [bisect_of_lt (by omega)] at h'
      cases h'
      have := (hsame 1).1 hboth.2
      omega
    · cases h'
      have := (hsame 1).1 hboth.2
      omega

def oneLayer : Dict String KVCacheSpec := Dict.empty.set "layer" (.full ⟨1, 1, 1, ⟨"int8", 1⟩⟩ none none)

def fourTokens : VllmConfig := ⟨4, 8, 0, 1, 1⟩

theorem oneLayer_estimate : ∃ n cfg', estimateMaxModelLen fourTokens oneLayer 6 = some (n, cfg') ∧
    Largest fourTokens oneLayer.values 6 n ∧ cfg' = fourTokens := by
  obtain ⟨⟨n, cfg'⟩, he⟩ :=
    isSome_iff_exists.1 (show (estimateMaxModelLen fourTokens oneLayer 6).isSome by decide +kernel)
  exact ⟨n, cfg', he, (estimateMaxModelLen_iff he).2 ⟨by decide, .inr (by decide)⟩⟩

/-- Memory for one token of four: the configuration is left with the length 1. -/
theorem oneLayer_shortened : estimateMaxModelLen fourTokens oneLayer 2 =
      some (1, { fourTokens with maxModelLen := 1 }) ∧
    ({ fourTokens with maxModelLen := 1 } : VllmConfig) ≠ fourTokens := by
  refine ⟨?_, by decide⟩
  decide +kernel

end Xmix.Kv.Layout
