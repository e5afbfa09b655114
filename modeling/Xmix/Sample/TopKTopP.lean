import Mathlib.Algebra.BigOperators.Field
import Mathlib.Algebra.Order.BigOperators.Group.Finset
import Mathlib.Algebra.Order.Field.Basic
import Mathlib.Algebra.Order.Field.Rat
import Mathlib.Data.Fin.Tuple.Sort
import Mathlib.Order.Lattice.Nat

/-!
# Top-k and top-p

`apply_top_k_top_p` of `topk_topp_sampler.py` over exact arithmetic. The masks are computed on the
ascending sort and scattered back; the cumulative sum at a position and the mass sorted above it add
up to one. The sorting permutations are parameters, as `sort` and `topk` promise the order and
nothing about ties; so is the exponential.
-/

namespace Xmix.Sample

open Finset

variable {K : Type} [LinearOrder K] {V B : Nat}

/-- What `k` may be for a vocabulary of `V` tokens. -/
structure TopK (V : Nat) where
  k : Nat
  pos : 1 ≤ k
  le : k ≤ V

/-- The place of the k-th largest logit in the ascending sort. -/
def TopK.index (k : TopK V) : Fin V := ⟨V - k.k, by have := k.pos; have := k.le; omega⟩

/-- The place of the k-th largest logit in the descending sort. -/
def TopK.rank (k : TopK V) : Fin V := ⟨k.k - 1, by have := k.pos; have := k.le; omega⟩

def applyTopKOnly (logits : Fin B → Fin V → WithBot K) (desc : Fin B → Equiv.Perm (Fin V))
    (k : Fin B → TopK V) (b : Fin B) :
    Option (Fin V → WithBot K) :=
  let ks b := if (k b).k = V then 1 else (k b).k
  let maxTopK := univ.sup ks
  -- gathering past the values of `topk` raises
  if maxTopK ≤ ks b - 1 then none
  else
    let topKMask := if (k b).k = V then ⊥ else logits b (desc b (k b).rank)
    some fun v => if logits b v < topKMask then ⊥ else logits b v

def maskTopK (sorted : Fin V → WithBot K) (k : Option (TopK V)) (i : Fin V) : WithBot K :=
  match k with
  | none => sorted i
  | some k => if sorted i < sorted k.index then ⊥ else sorted i

section

variable (x : Fin V → WithBot K) (σ τ : Equiv.Perm (Fin V)) (k : TopK V)

/-- The ascending and the descending arrangement of a row. -/
structure Sorts : Prop where
  asc : ∀ i j, i ≤ j → x (σ i) ≤ x (σ j)
  desc : ∀ i j, i ≤ j → x (τ j) ≤ x (τ i)

/-- The tokens with a logit of at least the k-th largest. -/
def survivors : Finset (Fin V) := {v | x (τ k.rank) ≤ x v}

end

variable {x : Fin V → WithBot K} {σ τ : Equiv.Perm (Fin V)} {k : TopK V}

theorem mem_survivors {v : Fin V} : v ∈ survivors x τ k ↔ x (τ k.rank) ≤ x v := by
  simp [survivors]

theorem Sorts.kth (hs : Sorts x σ τ) : x (σ k.index) = x (τ k.rank) := by
  have hrev : Monotone (x ∘ (Fin.revPerm.trans τ)) := fun i j hij => hs.desc _ _ (Fin.rev_le_rev.2 hij)
  have heq := congrFun (Tuple.unique_monotone (fun i j hij => hs.asc i j hij) hrev) k.index
  have hrank : k.index.rev = k.rank := by
    have := k.pos
    have := k.le
    ext
    simp only [Fin.val_rev, TopK.index, TopK.rank]
    omega
  simpa [hrank] using heq

/-- The last of the sort is a largest logit. -/
theorem Sorts.le_last (hs : Sorts x σ τ) {i : Fin V} (hi : i.val + 1 = V) (v : Fin V) : x v ≤ x (σ i) := by
  have hle := hs.asc (σ.symm v) i (Fin.le_def.2 (by omega))
  rwa [Equiv.apply_symm_apply] at hle

/-- The masked row in the order of the sort. -/
theorem maskTopK_eq (hs : Sorts x σ τ) (i : Fin V) :
    maskTopK (x ∘ σ) (some k) i = if σ i ∈ survivors x τ k then x (σ i) else ⊥ := by
  simp only [maskTopK, Function.comp_apply, hs.kth, mem_survivors, ← not_le, ite_not]

theorem applyTopKOnly_eq {logits : Fin B → Fin V → WithBot K} {desc : Fin B → Equiv.Perm (Fin V)}
    {k : Fin B → TopK V} {b : Fin B} (hs : Sorts (logits b) σ (desc b)) :
    applyTopKOnly logits desc k b = some fun v => if v ∈ survivors (logits b) (desc b)
      (k b) then logits b v else ⊥ := by
  unfold applyTopKOnly
  have := (k b).pos
  have := (k b).le
  have hmax := le_sup (f := fun b => if (k b).k = V then 1 else (k b).k) (mem_univ b)
  rw [if_neg (by grind)]
  simp only [mem_survivors, ← not_le, ite_not]
  split
  · -- the k-th largest of all `V` logits is the smallest
    rename_i hV
    have hrank (v : Fin V) : logits b (desc b (k b).rank) ≤ logits b v := by
      have hle := hs.desc ((desc b).symm v) (k b).rank (Fin.le_def.2 (by simp only [TopK.rank]; omega))
      rwa [Equiv.apply_symm_apply] at hle
    simp [hrank]
  · rfl

variable [Field K]

/-- `exp` of a logit that may be minus infinity. -/
def weight (e : K → K) (y : WithBot K) : K := y.recBotCoe 0 e

def softmax (e : K → K) (y : Fin V → WithBot K) (i : Fin V) : K := weight e (y i) / ∑ j, weight e (y j)

def maskTopP (e : K → K) (p : K) (y : Fin V → WithBot K) (i : Fin V) : WithBot K :=
  if ∑ j with j ≤ i, softmax e y j ≤ 1 - p ∧ i.val + 1 ≠ V then ⊥ else y i

def applyTopKTopP (e : K → K) (logits : Fin B → Fin V → WithBot K)
    (asc desc : Fin B → Equiv.Perm (Fin V)) (k : Option (Fin B → TopK V))
    (p : Option (Fin B → K)) (b : Fin B) : Option (Fin V → WithBot K) :=
  match p, k with
  | none, none => some (logits b)
  | none, some k => applyTopKOnly logits desc k b
  | some p, k => some (maskTopP e (p b) (maskTopK (logits b ∘ asc b) (k.map (· b))) ∘ (asc b).symm)

variable (e : K → K) (x σ τ k) in
/-- The probability of the survivors sorted above `v`. -/
def massAbove (v : Fin V) : K :=
  (∑ u ∈ survivors x τ k with σ.symm v < σ.symm u, weight e (x u)) / ∑ u ∈ survivors x τ k, weight e (x u)

variable {e : K → K}

/-- A sum over the masked row is one over the survivors. -/
theorem sum_weight (hs : Sorts x σ τ) (q : Fin V → Prop) [DecidablePred q] :
    ∑ j with q j, weight e (maskTopK (x ∘ σ) (some k) j) = ∑ u ∈ survivors x τ k with q (σ.symm u), weight e (x u) := by
  calc
    _ = ∑ u with q (σ.symm u), if u ∈ survivors x τ k then weight e (x u) else 0 := by
      refine sum_equiv σ (by simp) fun j _ => ?_
      rw [maskTopK_eq hs]
      split <;> rfl
    _ = _ := by
      rw [← sum_filter, filter_filter]
      congr 1
      ext u
      simp [and_comm]

/-- Every token lies at or below a position of the sort, or above it. -/
theorem cumsum_eq (hs : Sorts x σ τ) (hZ : ∑ u ∈ survivors x τ k, weight e (x u) ≠ 0) (i : Fin V) :
    ∑ j with j ≤ i, softmax e (maskTopK (x ∘ σ) (some k)) j = 1 - massAbove x σ τ k e (σ i) := by
  have hall := sum_weight (e := e) (k := k) hs fun _ => True
  simp only [filter_true] at hall
  have hsplit := sum_filter_add_sum_filter_not univ (· ≤ i) (softmax e (maskTopK (x ∘ σ) (some k)))
  simp only [softmax, ← sum_div, hall, sum_weight hs, div_self hZ, not_le] at hsplit ⊢
  rw [massAbove, Equiv.symm_apply_apply]
  exact eq_sub_of_add_eq hsplit

/-- Nothing is sorted above the last, which survives as a largest logit. -/
theorem last_kept (hs : Sorts x σ τ) {i : Fin V} (hi : i.val + 1 = V) :
    σ i ∈ survivors x τ k ∧ massAbove x σ τ k e (σ i) = 0 := by
  refine ⟨mem_survivors.2 (hs.le_last hi _), ?_⟩
  have hnone : {u ∈ survivors x τ k | i < σ.symm u} = ∅ :=
    filter_eq_empty_iff.2 fun u _ => Fin.not_lt.2 (Fin.le_def.2 (by omega))
  rw [massAbove, Equiv.symm_apply_apply, hnone, sum_empty, zero_div]

section

variable (he : ∀ y, 0 < e y)
include he

theorem weight_pos {y : WithBot K} (hy : y ≠ ⊥) : 0 < weight e y := by
  obtain ⟨y, rfl⟩ := WithBot.ne_bot_iff_exists.1 hy
  exact he y

theorem weight_nonneg (y : WithBot K) : 0 ≤ weight e y := by
  cases y with
  | bot => exact le_rfl
  | coe y => exact (he y).le

variable [IsStrictOrderedRing K]

theorem sum_survivors_pos (hs : Sorts x σ τ) {i : Fin V} (hi : i.val + 1 = V) (hb : ∃ v, x v ≠ ⊥) :
    0 < ∑ u ∈ survivors x τ k, weight e (x u) := by
  obtain ⟨v, hv⟩ := hb
  have hlast := weight_pos he (ne_bot_of_le_ne_bot hv (hs.le_last hi v))
  exact sum_pos' (fun u _ => weight_nonneg he _) ⟨_, mem_survivors.2 (hs.le_last hi _), hlast⟩

/-- A survivor that has mass of its own leaves less than one above it. -/
theorem massAbove_lt_one (hZ : 0 < ∑ u ∈ survivors x τ k, weight e (x u))
    {v : Fin V} (hv : v ∈ survivors x τ k) (hne : x v ≠ ⊥) :
    massAbove x σ τ k e v < 1 := by
  rw [massAbove, div_lt_one hZ]
  exact sum_lt_sum_of_subset (filter_subset _ _) hv (by simp) (weight_pos he hne) fun u _ _ => weight_nonneg he _

end

variable [IsStrictOrderedRing K]

theorem maskTopP_eq (hs : Sorts x σ τ) (hZ : 0 < ∑ u ∈ survivors x τ k, weight e (x u))
    {p : K} (hp : 0 < p) (v : Fin V) :
    maskTopP e p (maskTopK (x ∘ σ) (some k)) (σ.symm v) = if v ∈ survivors x τ k ∧
      massAbove x σ τ k e v < p then x v else ⊥ := by
  rw [maskTopP, cumsum_eq hs hZ.ne', maskTopK_eq hs, Equiv.apply_symm_apply]
  by_cases hmass : massAbove x σ τ k e v < p
  · rw [if_neg (fun h => absurd (sub_le_sub_iff_left 1 |>.1 h.1) hmass.not_ge)]
    simp [hmass]
  · -- the exemption of the last position changes nothing: no mass lies above it
    have hne : (σ.symm v).val + 1 ≠ V := by
      intro h
      have hv := (last_kept (e := e) (k := k) hs h).2
      rw [Equiv.apply_symm_apply] at hv
      exact hmass (hv ▸ hp)
    rw [if_pos ⟨sub_le_sub_left (not_lt.1 hmass) 1, hne⟩, if_neg (fun h => hmass h.2)]

/-- What stays are the top k with less than p of their mass above, and at least one token does. -/
theorem applyTopKTopP_nucleus (logits : Fin B → Fin V → WithBot K)
    (asc desc : Fin B → Equiv.Perm (Fin V)) (k : Fin B → TopK V)
    (p : Fin B → K) (b : Fin B) (he : ∀ y, 0 < e y)
    (hs : Sorts (logits b) (asc b) (desc b)) (hp : 0 < p b) (hb : ∃ v, logits b v ≠ ⊥) :
    let kept v := v ∈ survivors (logits b) (desc b) (k b) ∧ massAbove (logits b) (asc b) (desc b) (k b) e v < p b
    ∃ out, applyTopKTopP e logits asc desc (some k) (some p) b = some out ∧ (∀ v, kept v → out v = logits b v) ∧
      (∀ v, ¬kept v → out v = ⊥) ∧ (∃ v, kept v) ∧ (p b = 1 → applyTopKOnly logits desc k b = some out) := by
  intro kept
  obtain ⟨i, hi⟩ : ∃ i : Fin V, i.val + 1 = V :=
    ⟨⟨V - 1, by have := (k b).index.isLt; omega⟩, Nat.sub_add_cancel ((k b).pos.trans (k b).le)⟩
  have hlast := last_kept (e := e) (k := k b) hs hi
  have hZ := sum_survivors_pos (k := k b) he hs hi hb
  have hout := maskTopP_eq hs hZ hp
  refine ⟨_, rfl, fun v hv => (hout v).trans (if_pos hv), fun v hv => (hout v).trans (if_neg hv),
    ⟨_, hlast.1, hlast.2 ▸ hp⟩, fun hone => ?_⟩
  rw [applyTopKOnly_eq hs]
  refine congrArg some (funext fun v => Eq.trans ?_ (hout v).symm)
  by_cases hv : v ∈ survivors (logits b) (desc b) (k b)
  · by_cases hne : logits b v = ⊥
    · simp [hne]
    · simp [hv, hone, massAbove_lt_one he hZ hv hne]
  · simp [hv]

/-- Three tokens, two of them tied: `k` drops the first, and of the tie `p` leaves the one that is sorted last. -/
theorem applyTopKTopP_nucleus_tie : let x : Fin 1 → Fin 3 → WithBot ℚ := fun _ v => if v = 0 then 0 else 1
    let k : Fin 1 → TopK 3 := fun _ => ⟨2, by decide, by decide⟩
    ∃ out, applyTopKTopP (fun _ => 1) x (fun _ => 1) (fun _ => Equiv.swap 0 2) (some k)
      (some fun _ => 1 / 2) 0 = some out ∧
      out 0 = ⊥ ∧ out 1 = ⊥ ∧ out 2 = 1 := by
  intro x k
  obtain ⟨out, ho, hkept, hdropped, -⟩ :=
    applyTopKTopP_nucleus (e := fun _ => 1) x (fun _ => 1) (fun _ => Equiv.swap 0 2)
    k (fun _ => 1 / 2) 0 (fun _ => by decide) ⟨by decide +kernel, by decide +kernel⟩ (by decide +kernel)
      ⟨0, by decide +kernel⟩
  exact ⟨out, ho, hdropped 0 (by decide +kernel), hdropped 1 (by decide +kernel), hkept 2 (by decide +kernel)⟩

end Xmix.Sample
