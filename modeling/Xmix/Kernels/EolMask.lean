import Xmix.Lib.Launch
import Mathlib.Data.Fin.VecNotation
import Mathlib.Data.Nat.Log

/-!
# The EOL mask

`eol_mask_kernel` and `EOLTokenDetector`. One program has a lane for each position of the mask, rounded up to a power of
two, and stores on all of them. `none` is an access outside of a buffer.
-/

namespace Xmix.Kernels

open Launch List

def toInt32 (i : Int) : Int := i.bmod (2 ^ 32)

def nextPowerOf2 (n : Nat) : Nat := if n = 0 then 0 else 2 ^ Nat.clog 2 n

theorem le_nextPowerOf2 (n : Nat) : n ≤ nextPowerOf2 n := by
  rw [nextPowerOf2]
  split
  · omega
  · exact Nat.le_pow_clog (by omega) n

theorem nextPowerOf2_le_iff {n : Nat} (hn : 0 < n) : nextPowerOf2 n ≤ n ↔ ∃ k, n = 2 ^ k := by
  have hpow : nextPowerOf2 n = 2 ^ Nat.clog 2 n := if_neg (Nat.pos_iff_ne_zero.1 hn)
  constructor
  · exact fun h => ⟨_, ((le_nextPowerOf2 n).antisymm h).trans hpow⟩
  · rintro ⟨k, rfl⟩
    rw [hpow, Nat.clog_pow 2 k (by omega)]

structure EOLTokenDetector (vocabSize maxTokens : Nat) (σ : Type) where
  lookup : Buffer vocabSize Bool
  sinks : List σ

def EOLTokenDetector.init {σ : Type} {vocabSize : Nat} (eolTokenIds : List (Fin vocabSize))
    (maxTokens : Nat) (sinks : List σ) :
    EOLTokenDetector vocabSize maxTokens σ :=
  ⟨fun i => decide (i ∈ eolTokenIds), sinks⟩

def eolMaskKernel {n v m : Nat} (inputIds : Buffer n Int) (lookup : Buffer v Bool) (nTokens vocabSize block : Nat)
    (out : Buffer m Int) : Option (Buffer m Int) := do
  let idx := range block
  let inInput := fun i : Nat => decide (i < nTokens)
  let loaded ← inputIds.loadTile idx (fun i => i) inInput 0
  let tokenIds := fun i => toInt32 (loaded i)
  let inRange := fun i => decide (0 ≤ tokenIds i) && decide (tokenIds i < vocabSize)
  let flag ← lookup.loadTile idx tokenIds (fun i => inInput i && inRange i) false
  -- the store has no mask
  out.storeTile idx (fun i => i) (fun _ => true) fun i => if inInput i && flag i then 1 else 0

def EOLTokenDetector.forward {σ : Type} [DecidableEq σ] {v m n : Nat} (d : EOLTokenDetector v m σ)
    (inputIds : Buffer n Int)
    (mem : σ → Buffer m Int) : Option (σ → Buffer m Int) :=
  d.sinks.foldlM (fun mem s => do
    let out ← eolMaskKernel inputIds d.lookup n v (nextPowerOf2 m) (mem s)
    some (Function.update mem s out)) mem

/-! ### What the mask should be -/

variable {v n m : Nat} {eol : List (Fin v)} {ids : Buffer n Int}

def IsEol (eol : List (Fin v)) (t : Int) : Prop := ∃ e ∈ eol, t = e.val

instance (eol : List (Fin v)) (t : Int) : Decidable (IsEol eol t) := inferInstanceAs (Decidable (∃ e ∈ eol, _))

def eolMask (eol : List (Fin v)) (t : Buffer n Int) (i : Fin m) : Int :=
  if h : i.val < n then if IsEol eol (t ⟨i, h⟩) then 1 else 0 else 0

/-- The sinks get the mask, and nothing else is written. -/
def Detects {σ : Type} (eol : List (Fin v)) (sinks : List σ) (t : Buffer n Int) (mem mem' : σ → Buffer m Int) : Prop :=
  (∀ s ∈ sinks, mem' s = eolMask eol t) ∧ ∀ s, s ∉ sinks → mem' s = mem s

/-! ### The kernel -/

theorem flag_eq {t : Int} :
    (if 0 ≤ t ∧ t < v then if h : InBounds v t then decide (toCell h ∈ eol) else false else false) =
    decide (IsEol eol t) := by
  by_cases ht : 0 ≤ t ∧ t < v
  · rw [if_pos ht, dif_pos (show InBounds v t from ht), decide_eq_decide]
    constructor
    · exact fun h => ⟨_, h, (Int.toNat_of_nonneg ht.1).symm⟩
    · rintro ⟨e, he, rfl⟩
      exact he
  · rw [if_neg ht, eq_comm, decide_eq_false_iff_not]
    rintro ⟨e, -, rfl⟩
    exact ht ⟨by omega, by omega⟩

theorem eolMaskKernel_loads (block : Nat) (out : Buffer m Int) :
    eolMaskKernel ids (fun i => decide (i ∈ eol)) n v block out =
      out.storeTile (range block) (fun i : Nat => (i : Int)) (fun _ => true) fun i =>
        if h : i < n then if IsEol eol (toInt32 (ids ⟨i, h⟩)) then 1 else 0 else 0 := by
  have hload := @Buffer.loadTile_eq n Int Nat ids (range block) (fun i => i) (fun i => decide (i < n)) 0
    fun j _ hj => ⟨by omega, by simpa using hj⟩
  simp only [eolMaskKernel, hload, Option.bind_eq_bind, Option.bind_some]
  rw [Buffer.loadTile_eq fun j _ hj => by
    obtain ⟨-, hrange⟩ := Bool.and_eq_true_iff.1 hj
    obtain ⟨hlow, hhigh⟩ := Bool.and_eq_true_iff.1 hrange
    exact ⟨of_decide_eq_true hlow, of_decide_eq_true hhigh⟩, Option.bind_some]
  refine congrArg (out.storeTile _ _ _) (funext fun i => ?_)
  by_cases hi : i < n
  · have hb : InBounds n (i : Int) := ⟨by omega, by omega⟩
    have hcell : toCell hb = ⟨i, hi⟩ := Fin.ext (Int.toNat_natCast _)
    have hflag := @flag_eq v eol (toInt32 (ids ⟨i, hi⟩))
    simp [hi, hb, hcell, hflag]
  · simp [hi]

theorem eolMaskKernel_eq (out : Buffer m Int) :
    eolMaskKernel ids (fun i => decide (i ∈ eol)) n v (nextPowerOf2 m) out =
      if nextPowerOf2 m ≤ m then some (eolMask eol fun i => toInt32 (ids i)) else none := by
  rw [eolMaskKernel_loads]
  split
  next hle =>
    obtain ⟨b', hb', hval, -⟩ :=
      @Buffer.storeTile_spec m Int Nat out (range (nextPowerOf2 m)) (fun i => i) (fun _ => true)
      (fun i => if h : i < n then if IsEol eol (toInt32 (ids ⟨i, h⟩)) then 1 else 0 else 0)
      (fun j hj _ => ⟨by omega, by have := mem_range.1 hj; omega⟩) (fun j _ k _ _ _ h => by simpa using h)
    refine hb'.trans (congrArg some (funext fun i => ?_))
    exact hval i i.val (mem_range.2 (Nat.lt_of_lt_of_le i.isLt (le_nextPowerOf2 m))) rfl rfl
  next hgt =>
    refine if_neg fun h => ?_
    have hlt : (m : Int) < m := (h m (mem_range.2 (by omega)) rfl).2
    omega

/-! ### The detector -/

section Detector
variable {σ : Type} [DecidableEq σ] {sinks : List σ}

theorem foldlM_sinks {f : Buffer m Int → Option (Buffer m Int)} {mask : Buffer m Int} (hf : ∀ b, f b = some mask)
    (sinks : List σ) (mem : σ → Buffer m Int) :
    sinks.foldlM (fun mem s => do let out ← f (mem s); some (Function.update mem s out)) mem =
      some fun s => if s ∈ sinks then mask else mem s := by
  induction sinks generalizing mem with
  | nil => simp
  | cons s sinks ih =>
    rw [foldlM_cons, hf]
    refine (ih _).trans (congrArg some (funext fun t => ?_))
    by_cases ht : t = s
    · simp [ht]
    · simp [ht]

/-- The detector stays inside its sinks and marks exactly the EOL tokens if and only if its length is a power of two and
no token changes its meaning when it is truncated to 32 bits. -/
theorem forward_detects_iff (hm : 0 < m) (hn : n ≤ m) (eol : List (Fin v)) (sinks : List σ) (ids : Buffer n Int)
    (mem : σ → Buffer m Int) :
    (∃ mem', (EOLTokenDetector.init eol m sinks).forward ids mem = some mem' ∧ Detects eol sinks ids mem mem') ↔
      sinks = [] ∨ (∃ k, m = 2 ^ k) ∧ ∀ i, IsEol eol (toInt32 (ids i)) ↔ IsEol eol (ids i) := by
  rcases sinks with - | ⟨s, sinks⟩
  · simp only [true_or, iff_true]
    exact ⟨mem, rfl, fun s hs => (by cases hs), fun _ _ => rfl⟩
  simp only [reduceCtorEq, false_or, ← nextPowerOf2_le_iff hm]
  by_cases hle : nextPowerOf2 m ≤ m
  · have hforward : (EOLTokenDetector.init eol m (s :: sinks)).forward ids mem =
        some fun t => if t ∈ s :: sinks then eolMask eol (fun i => toInt32 (ids i)) else mem t :=
      foldlM_sinks (fun b => (eolMaskKernel_eq b).trans (if_pos hle)) _ mem
    rw [hforward]
    simp only [Option.some.injEq, exists_eq_left', hle, true_and]
    constructor
    · intro hdet i
      have := congrFun (hdet.1 s mem_cons_self) ⟨i.val, Nat.lt_of_lt_of_le i.isLt hn⟩
      simp only [if_pos mem_cons_self, eolMask, dif_pos i.isLt] at this
      by_cases h₁ : IsEol eol (toInt32 (ids i)) <;> by_cases h₂ : IsEol eol (ids i) <;> simp_all
    · intro hids
      refine ⟨fun t ht => ?_, fun t ht => if_neg ht⟩
      simp only [if_pos ht]
      funext i
      simp [eolMask, hids]
  · refine iff_of_false ?_ fun h => hle h.1
    rintro ⟨mem', hforward, -⟩
    have hnone : eolMaskKernel ids (fun i => decide (i ∈ eol)) n v (nextPowerOf2 m) (mem s) = none :=
      (eolMaskKernel_eq (mem s)).trans (if_neg hle)
    rw [EOLTokenDetector.forward, EOLTokenDetector.init, foldlM_cons, hnone] at hforward
    cases hforward

/-- Four positions, vocabulary of ten tokens, token 7 ends a line. -/
theorem forward_detects_four : ∃ mem', (EOLTokenDetector.init [(7 : Fin 10)] 4 [()]).forward (![7, 3] : Buffer 2 Int)
    (fun _ _ => 5) = some mem' ∧ Detects [(7 : Fin 10)] [()] (![7, 3] : Buffer 2 Int) (fun _ _ => 5) mem' :=
  (forward_detects_iff (m := 4) (by omega) (by omega) _ _ _ _).2 (.inr ⟨⟨2, rfl⟩, by decide⟩)

/-- With three positions the fourth lane stores behind the sink. -/
theorem forward_three_outside : (EOLTokenDetector.init [(7 : Fin 10)] 3 [()]).forward
      (![7, 3] : Buffer 2 Int) (fun _ _ => 5) = none := by
  decide

end Detector

end Xmix.Kernels
