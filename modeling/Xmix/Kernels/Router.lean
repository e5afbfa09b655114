import Xmix.Kernels.Steering
import Mathlib

/-!
# Router steering

`moe_router_logit_steer_kernel` and `MoERouterLogitSteerer`. A program has all experts of a row in one tile of lanes, as
many as the next power of two; lanes without an expert hold infinities, so the lanes have values in `EReal`. What a row
becomes is said by `steeredRow`, and for the routing only its order counts: `IsTopK` is any choice of the `k` largest.
-/

namespace Xmix.Kernels

open Option List
open Launch

/-! ### Choosing the largest -/

section TopK
variable {ι α : Type} [DecidableEq ι] [LinearOrder α] {v : ι → α} {k : Nat} {S : Finset ι}

structure IsTopK (v : ι → α) (k : Nat) (S : Finset ι) : Prop where
  card : S.card = k
  le : ∀ i ∈ S, ∀ j ∉ S, v j ≤ v i

theorem IsTopK.subset_of_above (h : IsTopK v k S) {P : Finset ι}
    (habove : ∀ i ∈ P, ∀ j ∉ P, v j < v i) (hk : P.card ≤ k) : P ⊆ S := by
  intro i hi
  by_contra hout
  -- otherwise everything chosen is in `P`, but not `i`
  have hsub : S ⊆ P.erase i := fun j hj => Finset.mem_erase.2
    ⟨fun he => hout (he ▸ hj), by_contra fun hj' => (habove i hi j hj').not_ge (h.le j hj i hout)⟩
  have hcard := Finset.card_le_card hsub
  have hpos := Finset.card_pos.2 ⟨i, hi⟩
  rw [h.card, Finset.card_erase_of_mem hi] at hcard
  omega

theorem IsTopK.disjoint_of_below [Fintype ι] (h : IsTopK v k S) {N : Finset ι} (hbelow : ∀ i ∈ N, ∀ j ∉ N, v i < v j)
    (hk : k + N.card ≤ Fintype.card ι) : Disjoint S N := by
  rw [Finset.disjoint_right]
  intro i hi hin
  have hsub : Sᶜ ⊆ N.erase i := fun j hj => Finset.mem_erase.2
    ⟨fun he => Finset.mem_compl.1 hj (he ▸ hin), by_contra fun hj' =>
      (hbelow i hi j hj').not_ge (h.le i hin j (Finset.mem_compl.1 hj))⟩
  have hcard := Finset.card_le_card hsub
  have hpos := Finset.card_pos.2 ⟨i, hi⟩
  rw [Finset.card_compl, h.card, Finset.card_erase_of_mem hi] at hcard
  omega

end TopK

/-! ### The kernel -/

structure MoERouterLogitSteerer (maxTokens numExperts : Nat) where
  weights : Buffer numExperts Int
  inputMap : Buffer maxTokens Int
  eps : ℝ

variable {maxTokens numExperts nRows : Nat}

noncomputable def tileMax (lanes : Nat) (v : Nat → EReal) : EReal := (Finset.range lanes).sup v

noncomputable def tileMin (lanes : Nat) (v : Nat → EReal) : EReal := (Finset.range lanes).inf v

noncomputable def logSm (blockE : Nat) (em : Nat → Bool) (x : Nat → EReal) : Nat → EReal :=
  let xmax := tileMax blockE x
  let shifted := fun e => if em e then x e - xmax else ⊥
  let denom := ∑ e ∈ Finset.range blockE, EReal.exp (shifted e)
  fun e => shifted e - ENNReal.log denom

noncomputable def steerLanes (blockE : Nat) (em : Nat → Bool) (w : Nat → Int) (eps : ℝ)
    (x : Nat → EReal) : Nat → EReal :=
  let logSm := logSm blockE em x
  let rowMax := tileMax blockE logSm
  let rowMin := tileMin blockE fun e => if em e then logSm e else ⊤
  fun e => if 0 < w e then rowMax + eps else if w e < 0 then rowMin - eps else logSm e

noncomputable def moeRouterLogitSteerKernel (s : MoERouterLogitSteerer maxTokens numExperts)
    (nValidBuf : Buffer 1 Int) (blockE : Nat) (row : Nat)
    (logits : Buffer (nRows * numExperts) ℝ) : Option (Buffer (nRows * numExperts) ℝ) := do
  let nValid ← nValidBuf.load 0
  if nValid ≤ row then some logits
  else do
    let flag ← s.inputMap.load row
    if flag = 0 then some logits
    else do
      let em := fun e : Nat => decide (e < numExperts)
      let x ← Buffer.loadTile (fun i => (logits i : EReal)) (range blockE)
        (fun e => ((row * numExperts + e : Nat) : Int)) em ⊥
      let w ← s.weights.loadTile (range blockE) (fun e => (e : Int)) em 0
      logits.storeTile (range blockE) (fun e => ((row * numExperts + e : Nat) : Int)) em fun e =>
        (steerLanes blockE em w s.eps x e).toReal

noncomputable def MoERouterLogitSteerer.forward (s : MoERouterLogitSteerer maxTokens numExperts)
    (nValidBuf : Buffer 1 Int) (order : List Nat)
    (logits : Buffer (nRows * numExperts) ℝ) : Option (Buffer (nRows * numExperts) ℝ) :=
  launch (moeRouterLogitSteerKernel s nValidBuf (nextPowerOf2 numExperts)) order logits

/-! ### The reference -/

section Reference
variable {w : Fin numExperts → Int} {eps : ℝ} {v : Fin numExperts → ℝ}

variable (v)

noncomputable def logSoftmax (e : Fin numExperts) : ℝ := v e - Real.log (∑ i, Real.exp (v i))

noncomputable def steeredRow (w : Fin numExperts → Int) (eps : ℝ) (v : Fin numExperts → ℝ) (e : Fin numExperts) : ℝ :=
  if 0 < w e then (⨆ i, logSoftmax v i) + eps else if w e < 0 then (⨅ i, logSoftmax v i) - eps else logSoftmax v e

theorem logSoftmax_le_iSup (e : Fin numExperts) : logSoftmax v e ≤ ⨆ i, logSoftmax v i :=
  le_ciSup (Set.finite_range _).bddAbove e

theorem iInf_le_logSoftmax (e : Fin numExperts) : ⨅ i, logSoftmax v i ≤ logSoftmax v e :=
  ciInf_le (Set.finite_range _).bddBelow e

variable {v} {e e' : Fin numExperts}

theorem steeredRow_lt_of_promoted (heps : 0 < eps) (he : 0 < w e) (he' : w e' ≤ 0) :
    steeredRow w eps v e' < steeredRow w eps v e := by
  have hmax := logSoftmax_le_iSup v e'
  have hmin := iInf_le_logSoftmax v e'
  rw [steeredRow, steeredRow, if_pos he, if_neg he'.not_gt]
  split <;> linarith

theorem steeredRow_lt_of_suppressed (heps : 0 < eps) (he : w e < 0) (he' : 0 ≤ w e') :
    steeredRow w eps v e < steeredRow w eps v e' := by
  have hmax := logSoftmax_le_iSup v e'
  have hmin := iInf_le_logSoftmax v e'
  rw [steeredRow, steeredRow, if_neg he.not_gt, if_pos he, if_neg he'.not_gt]
  split <;> linarith

theorem steeredRow_le_iff (he : w e = 0) (he' : w e' = 0) :
    steeredRow w eps v e ≤ steeredRow w eps v e' ↔ v e ≤ v e' := by
  have hplain : ∀ {i : Fin numExperts}, w i = 0 → steeredRow w eps v i = logSoftmax v i := fun h => by
    rw [steeredRow, if_neg (by omega), if_neg (by omega)]
  rw [hplain he, hplain he', logSoftmax, logSoftmax]
  exact sub_le_sub_iff_right _

end Reference

/-! ### The lanes of a row -/

section Lanes
variable {blockE : Nat} {x : Nat → EReal} {v : Fin numExperts → ℝ}

structure HoldsRow (x : Nat → EReal) (v : Fin numExperts → ℝ) : Prop where
  expert : ∀ e : Fin numExperts, x e = v e
  padding : ∀ e, numExperts ≤ e → x e = ⊥

section
variable [Nonempty (Fin numExperts)]

theorem tileMax_eq (h : HoldsRow x v) (hblock : numExperts ≤ blockE) : tileMax blockE x = (⨆ i, v i : ℝ) := by
  refine le_antisymm (Finset.sup_le fun e _ => ?_) ?_
  · rcases Nat.lt_or_ge e numExperts with he | he
    · rw [h.expert ⟨e, he⟩]
      exact EReal.coe_le_coe_iff.2 (le_ciSup (Set.finite_range v).bddAbove _)
    · exact (h.padding e he).trans_le bot_le
  · obtain ⟨e, he⟩ := exists_eq_ciSup_of_finite (f := v)
    rw [← he, ← h.expert e]
    exact Finset.le_sup (Finset.mem_range.2 (e.isLt.trans_le hblock))

theorem tileMin_eq (h : HoldsRow x v) (hblock : numExperts ≤ blockE) :
    tileMin blockE (fun e => if decide (e < numExperts) then x e else ⊤) = (⨅ i, v i : ℝ) := by
  refine le_antisymm ?_ (Finset.le_inf fun e _ => ?_)
  · obtain ⟨e, he⟩ := exists_eq_ciInf_of_finite (f := v)
    refine (Finset.inf_le (Finset.mem_range.2 (e.isLt.trans_le hblock))).trans_eq ?_
    rw [if_pos (decide_eq_true e.isLt), h.expert e, he]
  · by_cases he : e < numExperts
    · rw [if_pos (decide_eq_true he), h.expert ⟨e, he⟩]
      exact EReal.coe_le_coe_iff.2 (ciInf_le (Set.finite_range v).bddBelow _)
    · rw [if_neg (by simpa using he)]
      exact le_top

theorem log_sum_exp_sub (v : Fin numExperts → ℝ) (m : ℝ) :
    Real.log (∑ i, Real.exp (v i - m)) = Real.log (∑ i, Real.exp (v i)) - m := by
  have hpos : 0 < ∑ i, Real.exp (v i) := Finset.sum_pos (fun i _ => Real.exp_pos _) Finset.univ_nonempty
  calc Real.log (∑ i, Real.exp (v i - m))
      = Real.log ((∑ i, Real.exp (v i)) / Real.exp m) := by rw [Finset.sum_div]; simp only [Real.exp_sub]
    _ = _ := by rw [Real.log_div hpos.ne' (Real.exp_pos m).ne', Real.log_exp]

theorem holdsRow_logSm (h : HoldsRow x v) (hblock : numExperts ≤ blockE) :
    HoldsRow (logSm blockE (fun e => decide (e < numExperts)) x) (logSoftmax v) := by
  have hmax := tileMax_eq h hblock
  set m : ℝ := ⨆ i, v i
  have hshift : ∀ e : Fin numExperts,
    (if decide (e.val < numExperts) then x e - tileMax blockE x else ⊥) = ((v e - m : ℝ) : EReal) :=
    fun e => by rw [if_pos (decide_eq_true e.isLt), h.expert, hmax, EReal.coe_sub]
  have hpad : ∀ e, numExperts ≤ e → (if decide (e < numExperts) then x e - tileMax blockE x else (⊥ : EReal)) = ⊥ :=
    fun e he => if_neg (by simpa using he)
  have hpos : 0 < ∑ i, Real.exp (v i - m) := Finset.sum_pos (fun i _ => Real.exp_pos _) Finset.univ_nonempty
  have hdenom : ∑ e ∈ Finset.range blockE, EReal.exp (if decide (e < numExperts) then x e - tileMax blockE x else ⊥) =
      ENNReal.ofReal (∑ i, Real.exp (v i - m)) := by
    rw [ENNReal.ofReal_sum_of_nonneg fun i _ => (Real.exp_pos _).le]
    calc _ = ∑ e ∈ Finset.range numExperts,
      EReal.exp (if decide (e < numExperts) then x e - tileMax blockE x else ⊥) := by
          refine (Finset.sum_subset (Finset.range_subset_range.2 hblock) fun e _ he => ?_).symm
          rw [hpad e (Nat.not_lt.1 (Finset.mem_range.not.1 he)), EReal.exp_bot]
      _ = ∑ i : Fin numExperts, EReal.exp (if decide (i.val < numExperts) then x i - tileMax blockE x else ⊥) :=
          (Fin.sum_univ_eq_sum_range
            (fun e => EReal.exp (if decide (e < numExperts) then x e - tileMax blockE x else ⊥)) _).symm
      _ = _ := Finset.sum_congr rfl fun i _ => by rw [hshift, EReal.exp_coe]
  have hlog : ENNReal.log (ENNReal.ofReal (∑ i, Real.exp (v i - m))) =
    ((Real.log (∑ i, Real.exp (v i)) - m : ℝ) : EReal) := by
    rw [ENNReal.log_ofReal_of_pos hpos, log_sum_exp_sub]
  refine ⟨fun e => ?_, fun e he => ?_⟩
  · rw [logSm]
    simp only [hdenom, hlog]
    rw [hshift, ← EReal.coe_sub, logSoftmax, EReal.coe_eq_coe_iff]
    ring
  · rw [logSm]
    simp only [hdenom, hlog]
    rw [hpad e he, EReal.bot_sub]

theorem steerLanes_eq (h : HoldsRow x v) (hblock : numExperts ≤ blockE) {w : Nat → Int} (eps : ℝ) (e : Fin numExperts) :
    steerLanes blockE (fun e => decide (e < numExperts)) w eps x e = (steeredRow (fun e => w e) eps v e : ℝ) := by
  have hlog := holdsRow_logSm h hblock
  rw [steerLanes]
  simp only [tileMax_eq hlog hblock, tileMin_eq hlog hblock]
  rw [hlog.expert, steeredRow]
  split
  next => exact (EReal.coe_add _ _).symm
  next =>
    split
    next => exact (EReal.coe_sub _ _).symm
    next => rfl

end

end Lanes

/-! ### The launch -/

namespace MoERouterLogitSteerer

def Steers (s : MoERouterLogitSteerer maxTokens numExperts) (nValid : Int) (row : Nat) : Prop :=
  (row : Int) < nValid ∧ ∃ h : row < maxTokens, s.inputMap ⟨row, h⟩ ≠ 0

variable {s : MoERouterLogitSteerer maxTokens numExperts} {nValidBuf : Buffer 1 Int} {row : Nat}

theorem kernel_of_not_steers (hrow : row < maxTokens)
    (h : ¬ s.Steers (nValidBuf 0) row) (blockE : Nat) (logits : Buffer (nRows * numExperts) ℝ) :
    moeRouterLogitSteerKernel s nValidBuf blockE row logits = some logits := by
  rw [moeRouterLogitSteerKernel, Buffer.load_one, bind_eq_bind, bind_some]
  split
  next => rfl
  next hlt =>
    rw [Buffer.load_of_lt hrow, bind_some, if_pos]
    by_contra hflag
    exact h ⟨Int.not_le.1 hlt, hrow, hflag⟩

theorem kernel_of_steers (hx : row < nRows) (h : s.Steers (nValidBuf 0) row)
    {blockE : Nat} (hblock : numExperts ≤ blockE) (logits : Buffer (nRows * numExperts) ℝ) :
    ∃ out, moeRouterLogitSteerKernel s nValidBuf blockE row logits = some out ∧
      (∀ e : Fin numExperts, out (flat ⟨row, hx⟩ e) =
        steeredRow s.weights s.eps (fun e => logits (flat ⟨row, hx⟩ e)) e) ∧
      ∀ i : Fin (nRows * numExperts), i.val / numExperts ≠ row → out i = logits i := by
  obtain ⟨hvalid, hrow, hflag⟩ := h
  have hcell : ∀ e ∈ range blockE, decide (e < numExperts) = true →
      InBounds (nRows * numExperts) ((row * numExperts + e : Nat) : Int) :=
        fun e _ he => inBounds_flat hx (of_decide_eq_true he)
  obtain ⟨x, hload, hlane, hpad⟩ := Buffer.loadTile_spec (fun i => (logits i : EReal)) (range blockE)
    (fun e => ((row * numExperts + e : Nat) : Int)) (fun e => decide (e < numExperts)) ⊥ hcell
  obtain ⟨w, hweights, hw, -⟩ :=
    s.weights.loadTile_spec (range blockE) (fun e => (e : Int)) (fun e => decide (e < numExperts)) 0
    fun e _ he => ⟨by omega, by have := of_decide_eq_true he; omega⟩
  obtain ⟨out, hstore, hin, hout⟩ := @Buffer.storeTile_spec _ ℝ Nat logits (range blockE)
    (fun e => ((row * numExperts + e : Nat) : Int)) (fun e => decide (e < numExperts))
    (fun e => (steerLanes blockE (fun e => decide (e < numExperts)) w s.eps x e).toReal) hcell
    fun e _ e' _ _ _ h => by have := Int.ofNat.inj h; omega
  refine ⟨out, ?_, fun e => ?_, fun i hi => hout i fun e _ he hindex => hi ?_⟩
  · rw [moeRouterLogitSteerKernel, Buffer.load_one, bind_eq_bind, bind_some,
      if_neg (Int.not_le.2 hvalid), Buffer.load_of_lt hrow, bind_some, if_neg hflag]
    simp only [bind_eq_bind, hload, hweights, bind_some]
    exact hstore
  · have : Nonempty (Fin numExperts) := ⟨e⟩
    have hholds : HoldsRow x fun e => logits (flat (⟨row, hx⟩ : Fin nRows) e) :=
      ⟨fun e => hlane e (decide_eq_true e.isLt) _ rfl, fun e he => hpad e (decide_eq_false (Nat.not_lt.2 he))⟩
    have hsigns : (fun e : Fin numExperts => w e) = s.weights := funext fun e => hw e (decide_eq_true e.isLt) e rfl
    rw [hin _ e.val (mem_range.2 (e.isLt.trans_le hblock))
      (decide_eq_true e.isLt) rfl, steerLanes_eq hholds hblock, EReal.toReal_coe, hsigns]
  · have hflat : i = flat (⟨row, hx⟩ : Fin nRows) ⟨e, of_decide_eq_true he⟩ := Fin.ext (Int.ofNat.inj hindex).symm
    rw [hflat, flat_div]

variable (s nValidBuf)

theorem forward_steeredRow (hvalid : nValidBuf 0 ≤ nRows)
    {order : List Nat} (horder : order.Perm (range maxTokens)) (logits : Buffer (nRows * numExperts) ℝ) :
    ∃ out, s.forward nValidBuf order logits = some out ∧
      (∀ row : Fin nRows, s.Steers (nValidBuf 0) row →
        (fun e => out (flat row e)) = steeredRow s.weights s.eps fun e => logits (flat row e)) ∧
      ∀ row : Fin nRows, ¬ s.Steers (nValidBuf 0) row → (fun e => out (flat row e)) = fun e => logits (flat row e) := by
  have hlt : ∀ {row : Nat}, s.Steers (nValidBuf 0) row → row < nRows := fun h => by have := h.1; omega
  have howns : ∀ row ∈ order, Owns (moeRouterLogitSteerKernel s nValidBuf (nextPowerOf2 numExperts) row)
      (fun i : Fin (nRows * numExperts) => s.Steers (nValidBuf 0) row ∧ i.val / numExperts = row)
      (fun logits i => steeredRow s.weights s.eps (fun e => logits (flat (rowIndex i) e))
        ⟨i.val % numExperts, Nat.mod_lt _ (Nat.pos_of_mul_pos_left (Nat.zero_lt_of_lt i.isLt))⟩) := by
    intro row hrow
    refine ⟨fun logits => ?_, fun logits logits' h i hi => ?_⟩
    · by_cases hs : s.Steers (nValidBuf 0) row
      · obtain ⟨out, hrun, hin, hout⟩ := kernel_of_steers (hlt hs) hs (le_nextPowerOf2 numExperts) logits
        refine ⟨out, hrun, fun i hi => ?_, fun i hi => hout i fun he => hi ⟨hs, he⟩⟩
        obtain ⟨r, e, rfl⟩ := exists_flat i
        obtain rfl : r = ⟨row, hlt hs⟩ := Fin.ext ((flat_div r e).symm.trans hi.2)
        rw [hin e]
        congr 1
        · funext e'
          exact congrArg (fun r => logits (flat r e')) (Fin.ext (flat_div _ e).symm)
        · exact Fin.ext (flat_mod _ e).symm
      · exact ⟨logits, kernel_of_not_steers (mem_range.1 (horder.mem_iff.1 hrow)) hs _ _,
          fun i hi => (hs hi.1).elim, fun _ _ => rfl⟩
    · have hsame : (fun e => logits (flat (rowIndex i) e)) = fun e => logits' (flat (rowIndex i) e) := funext fun e =>
        h _ ⟨hi.1, (flat_div _ _).trans hi.2⟩
      simp [hsame]
  obtain ⟨out, hlaunch, hin, hout⟩ := launch_owned (horder.nodup_iff.2 nodup_range) howns
    (fun g _ g' _ i hi hi' => hi.2.symm.trans hi'.2) logits
  refine ⟨out, hlaunch, fun row hs => funext fun e => ?_, fun row hs => funext fun e => hout _ fun g _ hi => hs ?_⟩
  · obtain ⟨-, hmax, -⟩ := id hs
    rw [hin row (horder.mem_iff.2 (mem_range.2 hmax)) _ ⟨hs, flat_div row e⟩]
    congr 1
    · funext e'
      exact congrArg (fun r => logits (flat r e')) (Fin.ext (flat_div row e))
    · exact Fin.ext (flat_mod row e)
  · rw [← flat_div row e, hi.2]
    exact hi.1

def promoted : Finset (Fin numExperts) := {e | 0 < s.weights e}

def suppressed : Finset (Fin numExperts) := {e | s.weights e < 0}

variable {s nValidBuf}

/-- Promoted experts come first, suppressed ones last, and the rest keep their order. -/
structure Routed (s : MoERouterLogitSteerer maxTokens numExperts) (v v' : Fin numExperts → ℝ) : Prop where
  above : ∀ e e', 0 < s.weights e → s.weights e' ≤ 0 → v' e' < v' e
  below : ∀ e e', s.weights e < 0 → 0 ≤ s.weights e' → v' e < v' e'
  order : ∀ e e', s.weights e = 0 → s.weights e' = 0 → (v' e ≤ v' e' ↔ v e ≤ v e')
  topK : ∀ k, s.promoted.card ≤ k → k ≤ numExperts - s.suppressed.card → ∀ S, IsTopK v' k S →
    s.promoted ⊆ S ∧ Disjoint S s.suppressed

theorem routed_steeredRow (s : MoERouterLogitSteerer maxTokens numExperts) (heps : 0 < s.eps) (v : Fin numExperts → ℝ) :
    s.Routed v (steeredRow s.weights s.eps v) := by
  refine ⟨fun e e' => steeredRow_lt_of_promoted heps, fun e e' => steeredRow_lt_of_suppressed heps,
    fun e e' => steeredRow_le_iff,
    fun k hpos hneg S hS => ⟨hS.subset_of_above (fun e he e' he' => ?_) hpos,
      hS.disjoint_of_below (fun e he e' he' => ?_) ?_⟩⟩
  · simp only [promoted, Finset.mem_filter_univ] at he he'
    exact steeredRow_lt_of_promoted heps he (Int.not_lt.1 he')
  · simp only [suppressed, Finset.mem_filter_univ] at he he'
    exact steeredRow_lt_of_suppressed heps he (Int.not_lt.1 he')
  · have := Finset.card_le_univ s.suppressed
    rw [Fintype.card_fin] at this ⊢
    omega

/-- A launch routes the rows that are steered and leaves the others alone. -/
theorem forward_routed (s : MoERouterLogitSteerer maxTokens numExperts)
    (heps : 0 < s.eps) (nValidBuf : Buffer 1 Int) (hvalid : nValidBuf 0 ≤ nRows) {order : List Nat}
    (horder : order.Perm (range maxTokens)) (logits : Buffer (nRows * numExperts) ℝ) :
    ∃ out, s.forward nValidBuf order logits = some out ∧
      (∀ row : Fin nRows, s.Steers (nValidBuf 0) row →
        s.Routed (fun e => logits (flat row e)) fun e => out (flat row e)) ∧
      ∀ row : Fin nRows, ¬ s.Steers (nValidBuf 0) row → ∀ e, out (flat row e) = logits (flat row e) := by
  obtain ⟨out, hforward, hsteered, hother⟩ := s.forward_steeredRow nValidBuf hvalid horder logits
  refine ⟨out, hforward, fun row hs => ?_, fun row hs => congrFun (hother row hs)⟩
  rw [hsteered row hs]
  exact s.routed_steeredRow heps _

noncomputable def threeExperts : MoERouterLogitSteerer 2 3 := ⟨![-1, 0, 1], ![1, 0], 1⟩

theorem threeExperts_routed : ∃ out, threeExperts.forward (fun _ => 2)
      [1, 0] (fun _ => 0 : Buffer (2 * 3) ℝ) = some out ∧
    out (flat 0 0) < out (flat 0 1) ∧ out (flat 0 1) < out (flat 0 2) ∧ out (flat 1 0) = 0 := by
  obtain ⟨out, hforward, hsteered, hother⟩ := forward_routed threeExperts zero_lt_one (fun _ => 2) (Int.le_refl 2)
    (Perm.swap 0 1 []) (fun _ => 0 : Buffer (2 * 3) ℝ)
  have hrow := hsteered 0 ⟨by decide, by decide, by decide⟩
  refine ⟨out, hforward, hrow.below 0 1 (by decide) (by decide), hrow.above 2 1 (by decide) (by decide), hother 1 ?_ 0⟩
  rintro ⟨-, _, h⟩
  exact h rfl

end MoERouterLogitSteerer

end Xmix.Kernels
