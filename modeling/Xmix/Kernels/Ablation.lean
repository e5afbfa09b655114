import Xmix.Kernels.Steering
import Mathlib.Algebra.BigOperators.Fin
import Mathlib.Analysis.Real.Sqrt
import Mathlib.LinearAlgebra.Matrix.DotProduct

/-!
# Direction ablation

Two ways to remove the component of rows along a direction: `subtract_refusal_projection`, whose dot products are
accumulated atomically by one program for each tile and subtracted by a second launch, and
`fused_subtract_projection_selected_kernel` with one program for each selected row. Both give the projection onto the
orthogonal complement (`ablate`), in any order of their programs. `none` is an access outside of a buffer.
-/

namespace Xmix.Kernels

open List Option
open Launch Matrix

/-! ### The kernels -/

section Model
variable {hidden nRows maxTokens : Nat} {R : Type} [CommRing R]

variable (x : Buffer (nRows * hidden) R) (r : Buffer hidden R)

def dotProductKernel (gates : Buffer nRows Int) (block : Nat) (g : Nat × Nat)
    (dot : Buffer nRows R) : Option (Buffer nRows R) := do
  let flagRun ← gates.load g.1
  if flagRun = 0 then some dot
  else do
    let cols := fun c : Nat => g.2 * block + c
    let mask := fun c => decide (cols c < hidden) && decide (flagRun ≠ 0)
    let xs ← x.loadTile (range block) (fun c => ((g.1 * hidden + cols c : Nat) : Int)) mask 0
    let rs ← r.loadTile (range block) (fun c => (cols c : Int)) mask 0
    dot.atomicAdd g.1 (∑ c ∈ Finset.range block, xs c * rs c)

def subtractProjectionKernel (dot : Buffer nRows R) (gates : Buffer nRows Int) (block : Nat) (junk : R)
    (g : Nat × Nat) (x : Buffer (nRows * hidden) R) : Option (Buffer (nRows * hidden) R) := do
  let flagRun ← gates.load g.1
  if flagRun = 0 then some x
  else do
    let cols := fun c : Nat => g.2 * block + c
    let mask := fun c => decide (cols c < hidden) && decide (flagRun ≠ 0)
    let d ← dot.load g.1
    let xs ← x.loadTile (range block) (fun c => ((g.1 * hidden + cols c : Nat) : Int)) mask junk
    let rs ← r.loadTile (range block) (fun c => (cols c : Int)) mask 0
    x.storeTile (range block) (fun c => ((g.1 * hidden + cols c : Nat) : Int)) mask fun c => xs c - d * rs c

def subtractAlong (u : Buffer hidden R) (gates : Buffer nRows Int) (block : Nat) (junk : R)
    (order order' : List (Nat × Nat))
    (x : Buffer (nRows * hidden) R) : Option (Buffer (nRows * hidden) R) := do
  let dot ← launch (dotProductKernel x u gates block) order fun _ => 0
  launch (subtractProjectionKernel u dot gates block junk) order' x

def fusedDot (row : Int) (blockC : Nat) (dot : R) (t : Nat) : Option R := do
  let cIdx := fun c : Nat => t * blockC + c
  let cMask := fun c => decide (cIdx c < hidden)
  let xs ← x.loadTile (range blockC) (fun c => row * hidden + cIdx c) cMask 0
  let rs ← r.loadTile (range blockC) (fun c => (cIdx c : Int)) cMask 0
  some (dot + ∑ c ∈ Finset.range blockC, xs c * rs c)

def fusedSubtract (row : Int) (blockC : Nat) (junk dot : R) (x : Buffer (nRows * hidden) R) (t : Nat) :
    Option (Buffer (nRows * hidden) R) := do
  let cIdx := fun c : Nat => t * blockC + c
  let cMask := fun c => decide (cIdx c < hidden)
  let xs ← x.loadTile (range blockC) (fun c => row * hidden + cIdx c) cMask junk
  let rs ← r.loadTile (range blockC) (fun c => (cIdx c : Int)) cMask 0
  x.storeTile (range blockC) (fun c => row * hidden + cIdx c) cMask fun c => xs c - dot * rs c

def fusedSubtractProjectionSelectedKernel (indices : Buffer maxTokens Int) (nValidBuf : Buffer 1 Int)
    (gates : Buffer nRows Int) (blockC : Nat) (junk : R) (sel : Nat) (x : Buffer (nRows * hidden) R) :
    Option (Buffer (nRows * hidden) R) := do
  let nValid ← nValidBuf.load 0
  if nValid ≤ sel then some x
  else do
    let row ← indices.load sel
    let flag ← gates.load row
    if flag = 0 then some x
    else do
      let dot ← (range (cdiv hidden blockC)).foldlM (fusedDot x r row blockC) 0
      (range (cdiv hidden blockC)).foldlM (fusedSubtract r row blockC junk dot) x

def subtractProjectionSelected (indices : Buffer maxTokens Int) (nValidBuf : Buffer 1 Int)
    (gates : Buffer nRows Int) (blockC : Nat) (junk : R) (order : List Nat) (x : Buffer (nRows * hidden) R) :
    Option (Buffer (nRows * hidden) R) :=
  launch (fusedSubtractProjectionSelectedKernel r indices nValidBuf gates blockC junk) order x

end Model

noncomputable def normalized {hidden : Nat} (r : Buffer hidden ℝ) : Buffer hidden ℝ := fun i => r i / √(∑ j, r j * r j)

noncomputable def subtractRefusalProjection {hidden nRows : Nat} (r : Buffer hidden ℝ)
    (gates : Buffer nRows Int) (block : Nat) (junk : ℝ)
    (order order' : List (Nat × Nat)) (x : Buffer (nRows * hidden) ℝ) : Option (Buffer (nRows * hidden) ℝ) :=
  subtractAlong (normalized r) gates block junk order order' x

/-! ### The projection -/

section Projection
variable {hidden : Nat} {r : Fin hidden → ℝ}

noncomputable def ablate (r v : Fin hidden → ℝ) : Fin hidden → ℝ := v - (v ⬝ᵥ r / r ⬝ᵥ r) • r

theorem ablate_dotProduct (hr : r ≠ 0) (v : Fin hidden → ℝ) : ablate r v ⬝ᵥ r = 0 := by
  rw [ablate, sub_dotProduct, smul_dotProduct, smul_eq_mul,
    div_mul_cancel₀ _ (dotProduct_self_eq_zero.not.2 hr), sub_self]

theorem ablate_ablate (hr : r ≠ 0) (v : Fin hidden → ℝ) : ablate r (ablate r v) = ablate r v := by
  rw [ablate, ablate_dotProduct hr, zero_div, zero_smul, sub_zero]

theorem sub_normalized (r v : Fin hidden → ℝ) (c : Fin hidden) :
    v c - v ⬝ᵥ normalized r * normalized r c = ablate r v c := by
  have hnorm : √(r ⬝ᵥ r) * √(r ⬝ᵥ r) = r ⬝ᵥ r := Real.mul_self_sqrt (Finset.sum_nonneg fun i _ => mul_self_nonneg (r i))
  have hunit : normalized r = (√(r ⬝ᵥ r))⁻¹ • r := funext fun i => div_eq_inv_mul _ _
  have hinv : (r ⬝ᵥ r)⁻¹ = (√(r ⬝ᵥ r))⁻¹ * (√(r ⬝ᵥ r))⁻¹ := by rw [← mul_inv, hnorm]
  rw [hunit, dotProduct_smul, ablate, Pi.sub_apply, Pi.smul_apply, Pi.smul_apply, smul_eq_mul, smul_eq_mul, smul_eq_mul,
    div_eq_mul_inv, hinv]
  ring

end Projection

/-! ### Tiles -/

section Tiles
variable {hidden nRows maxTokens : Nat} {R : Type} [CommRing R] (x : Buffer (nRows * hidden) R) (u : Buffer hidden R)
  (row : Fin nRows) {block t : Nat} {index : Nat → Int} {mask : Nat → Bool}

def rowOf : Fin hidden → R := fun c => x (flat row c)

def product (c : Nat) : R := if h : c < hidden then x (flat row ⟨c, h⟩) * u ⟨c, h⟩ else 0

theorem sum_product : ∑ c ∈ Finset.range hidden, product x u row c = rowOf x row ⬝ᵥ u := by
  rw [← Fin.sum_univ_eq_sum_range]
  exact Finset.sum_congr rfl fun c _ => dif_pos c.isLt

theorem tile_loads (other : R) (hindex : ∀ c, index c = ((row * hidden + (t * block + c) : Nat) : Int))
    (hmask : ∀ c, mask c = true ↔ t * block + c < hidden) :
    ∃ xs us, x.loadTile (range block) index mask other = some xs ∧
      u.loadTile (range block) (fun c => ((t * block + c : Nat) : Int)) mask 0 = some us ∧
      (∀ c (h : t * block + c < hidden), xs c = x (flat row ⟨_, h⟩) ∧ us c = u ⟨_, h⟩) ∧
        ∀ c, ¬ t * block + c < hidden → us c = 0 := by
  obtain ⟨xs, hxs, hx, -⟩ := x.loadTile_spec (range block) index mask other fun c _ hc => by
    rw [hindex]
    exact inBounds_flat row.isLt ((hmask c).1 hc)
  obtain ⟨us, hus, hu, hzero⟩ :=
    u.loadTile_spec (range block) (fun c => ((t * block + c : Nat) : Int)) mask 0 fun c _ hc =>
    ⟨by omega, by have := (hmask c).1 hc; omega⟩
  refine ⟨xs, us, hxs, hus, fun c h => ⟨hx c ((hmask c).2 h) _ (hindex c), hu c ((hmask c).2 h) _ rfl⟩,
    fun c h => hzero c ?_⟩
  exact Bool.eq_false_iff.2 fun hc => h ((hmask c).1 hc)

def partialDot (block t : Nat) : R :=
  ∑ c ∈ Finset.range block, if t * block + c < hidden then product x u row (t * block + c) else 0

variable {x u row} in
theorem partialDot_eq {xs us : Nat → R}
    (h : ∀ c (h : t * block + c < hidden), xs c = x (flat row ⟨_, h⟩) ∧ us c = u ⟨_, h⟩)
    (hzero : ∀ c, ¬ t * block + c < hidden → us c = 0) :
    ∑ c ∈ Finset.range block, xs c * us c = partialDot x u row block t := by
  refine Finset.sum_congr rfl fun c _ => ?_
  split
  next hc => rw [(h c hc).1, (h c hc).2, product, dif_pos hc]
  next hc => rw [hzero c hc, mul_zero]

theorem sum_partialDot (hblock : 0 < block) :
    ∑ t ∈ Finset.range (cdiv hidden block), partialDot x u row block t = rowOf x row ⬝ᵥ u := by
  rw [← sum_product, ← sum_tiles (product x u row) hblock]
  rfl

def colOf (i : Fin (nRows * hidden)) : R := if h : i.val % hidden < hidden then u ⟨_, h⟩ else 0

theorem colOf_flat (col : Fin hidden) : colOf u (flat row col) = u col := by
  have h : (flat row col).val % hidden < hidden := by
    rw [flat_mod]
    exact col.isLt
  rw [colOf, dif_pos h]
  simp [flat_mod]

theorem owns_subtract (hblock : 0 < block) (hindex : ∀ c, index c = ((row * hidden + (t * block + c) : Nat) : Int))
    (hmask : ∀ c, mask c = true ↔ t * block + c < hidden) (d junk : R) :
    Owns (n := nRows * hidden) (fun x => do
        let xs ← x.loadTile (range block) index mask junk
        let us ← u.loadTile (range block) (fun c => ((t * block + c : Nat) : Int)) mask 0
        x.storeTile (range block) index mask fun c => xs c - d * us c)
      (fun i => i.val / hidden = row ∧ i.val % hidden / block = t) fun x i => x i - d * colOf u i := by
  refine ⟨fun x => ?_, fun x x' h i hi => by rw [h i hi]⟩
  obtain ⟨xs, us, hxs, hus, hval, -⟩ := tile_loads x u row junk hindex hmask
  obtain ⟨x', hstore, hin, hout⟩ := @Buffer.storeTile_spec _ R Nat x (range block) index mask (fun c => xs c - d * us c)
    (fun c _ hc => by
      rw [hindex]
      exact inBounds_flat row.isLt ((hmask c).1 hc))
    (fun c _ c' _ _ _ h => by
      rw [hindex, hindex] at h
      omega)
  refine ⟨x', ?_, fun i hi => ?_, fun i hi => hout i fun c hc hm he => hi ?_⟩
  · simp only [hxs, hus, bind_eq_bind, bind_some, hstore]
  · obtain ⟨row', col, rfl⟩ := exists_flat i
    rw [flat_div, flat_mod] at hi
    obtain rfl : row' = row := Fin.ext hi.1
    have hlane : t * block + col.val % block = col.val := by rw [← hi.2, Nat.mul_comm, Nat.div_add_mod]
    have hlt : t * block + col.val % block < hidden := by rw [hlane]; exact col.isLt
    have hcol : (⟨_, hlt⟩ : Fin hidden) = col := Fin.ext hlane
    rw [hin _ _ (mem_range.2 (Nat.mod_lt _ hblock)) ((hmask _).2 hlt)
      (by rw [hindex, hlane]; rfl), (hval _ hlt).1, (hval _ hlt).2, hcol, colOf_flat]
  · have hlt := (hmask c).1 hm
    have hflat : i = flat row ⟨_, hlt⟩ := Fin.ext (Int.ofNat.inj ((hindex c).symm.trans he)).symm
    rw [hflat, flat_div, flat_mod]
    exact ⟨rfl, tile_div (mem_range.1 hc)⟩

/-! ### Two launches -/

variable (gates : Buffer nRows Int) {order order' : List (Nat × Nat)}

def dotCell (g : Nat × Nat) : Option (Fin nRows) :=
  if h : g.1 < nRows then if gates ⟨g.1, h⟩ = 0 then none else some ⟨g.1, h⟩ else none

theorem launch_dot (hblock : 0 < block) (horder : order.Perm (grid nRows (cdiv hidden block))) :
    ∃ dot, launch (dotProductKernel x u gates block) order (fun _ => 0) = some dot ∧
      ∀ row, gates row ≠ 0 → dot row = rowOf x row ⬝ᵥ u := by
  have hprog : ∀ g ∈ order, ∀ b : Buffer nRows R, dotProductKernel x u gates block g b =
    some ((dotCell gates g).elim b fun i =>
      Function.update b i (b i + if h : g.1 < nRows then partialDot x u ⟨g.1, h⟩ block g.2 else 0)) := by
    intro g hg b
    have hrow := (mem_grid.1 (horder.mem_iff.1 hg)).1
    rw [dotProductKernel, Buffer.load_of_lt hrow, bind_eq_bind, bind_some, dotCell, dif_pos hrow]
    by_cases hgate : gates ⟨g.1, hrow⟩ = 0
    · rw [if_pos hgate, if_pos hgate, elim_none]
    · obtain ⟨xs, us, hxs, hus, hval, hzero⟩ := @tile_loads hidden nRows R _ x u ⟨g.1, hrow⟩ block g.2
        (fun c => ((g.1 * hidden + (g.2 * block + c) : Nat) : Int))
        (fun c => decide (g.2 * block + c < hidden) && decide (gates ⟨g.1, hrow⟩ ≠ 0)) 0 (fun _ => rfl)
          (by simp [hgate])
      rw [if_neg hgate, if_neg hgate, elim_some, dif_pos hrow]
      simp only [bind_eq_bind, hxs, hus, bind_some, partialDot_eq hval hzero]
      exact Buffer.atomicAdd_of_lt hrow b _
  refine ⟨_, launch_atomic (horder.nodup_iff.2 (nodup_grid _ _)) hprog _, fun row hgate => ?_⟩
  rw [zero_add, ← sum_partialDot x u row hblock]
  have hcell : ∀ g : Nat × Nat, dotCell gates g = some row ↔ g.1 = row := fun g => by
    rw [dotCell]
    constructor
    · intro h
      split at h
      next =>
        split at h
        · cases h
        · exact congrArg Fin.val (some.inj h)
      next => cases h
    · intro h
      have hlt : g.1 < nRows := by rw [h]; exact row.isLt
      have heq : (⟨g.1, hlt⟩ : Fin nRows) = row := Fin.ext h
      rw [dif_pos hlt, heq, if_neg hgate]
  refine Finset.sum_nbij' (fun g => g.2) (fun t => (row.val, t)) (fun g hg => ?_) (fun t ht => ?_)
    (fun g hg => ?_) (fun _ _ => rfl) fun g hg => ?_
  · obtain ⟨hg, -⟩ := Finset.mem_filter.1 hg
    exact Finset.mem_range.2 (mem_grid.1 (horder.mem_iff.1 (mem_toFinset.1 hg))).2
  · refine Finset.mem_filter.2
      ⟨mem_toFinset.2 (horder.mem_iff.2 (mem_grid.2 ⟨row.isLt, Finset.mem_range.1 ht⟩)), (hcell _).2 rfl⟩
  · exact Prod.ext ((hcell g).1 (Finset.mem_filter.1 hg).2).symm rfl
  · have hrow := (hcell g).1 (Finset.mem_filter.1 hg).2
    have hlt : g.1 < nRows := by rw [hrow]; exact row.isLt
    have heq : (⟨g.1, hlt⟩ : Fin nRows) = row := Fin.ext hrow
    rw [dif_pos hlt, heq]

structure Ablated (x x' : Buffer (nRows * hidden) R) : Prop where
  gated : ∀ row, gates row ≠ 0 → ∀ col, x' (flat row col) = x (flat row col) - rowOf x row ⬝ᵥ u * u col
  other : ∀ row, gates row = 0 → ∀ col, x' (flat row col) = x (flat row col)

theorem subtractAlong_spec (hblock : 0 < block) (horder : order.Perm (grid nRows (cdiv hidden block)))
    (horder' : order'.Perm (grid nRows (cdiv hidden block))) (junk : R) :
    ∃ x', subtractAlong u gates block junk order order' x = some x' ∧ Ablated u gates x x' := by
  obtain ⟨dot, hdot, hval⟩ := launch_dot x u gates hblock horder
  have howns : ∀ g ∈ order', Owns (subtractProjectionKernel u dot gates block junk g)
      (fun i : Fin (nRows * hidden) => (∃ h : g.1 < nRows, gates ⟨g.1, h⟩ ≠ 0) ∧ i.val / hidden = g.1 ∧
        i.val % hidden / block = g.2)
      fun x i => x i - (if h : g.1 < nRows then dot ⟨g.1, h⟩ else 0) * colOf u i := by
    intro g hg
    have hrow := (mem_grid.1 (horder'.mem_iff.1 hg)).1
    by_cases hgate : gates ⟨g.1, hrow⟩ = 0
    · refine ⟨fun x => ⟨x, ?_, fun i hi => absurd hgate hi.1.2, fun _ _ => rfl⟩, fun x x' h i hi => by rw [h i hi]⟩
      rw [subtractProjectionKernel, Buffer.load_of_lt hrow, bind_eq_bind, bind_some, if_pos hgate]
    · refine (@owns_subtract hidden nRows R _ u ⟨g.1, hrow⟩ block g.2
        (fun c => ((g.1 * hidden + (g.2 * block + c) : Nat) : Int))
        (fun c => decide (g.2 * block + c < hidden) && decide (gates ⟨g.1, hrow⟩ ≠ 0)) hblock
          (fun _ => rfl) (by simp [hgate])
        (dot ⟨g.1, hrow⟩) junk).congr (fun x => ?_) (fun i => ?_) fun x i _ => by rw [dif_pos hrow]
      · simp only [subtractProjectionKernel, Buffer.load_of_lt hrow, bind_eq_bind, bind_some, if_neg hgate]
      · exact ⟨fun h => h.2, fun h => ⟨⟨hrow, hgate⟩, h⟩⟩
  obtain ⟨x', hlaunch, hin, hout⟩ := launch_owned (horder'.nodup_iff.2 (nodup_grid _ _)) howns
    (fun g _ g' _ i hi hi' => Prod.ext (hi.2.1.symm.trans hi'.2.1) (hi.2.2.symm.trans hi'.2.2)) x
  refine ⟨x', ?_, fun row hgate col => ?_, fun row hgate col => hout _ fun g _ hi => ?_⟩
  · rw [subtractAlong, hdot]
    exact hlaunch
  · have :=
      hin (row.val, col.val / block) (horder'.mem_iff.2 (mem_grid.2 ⟨row.isLt, div_lt_cdiv hblock col.isLt⟩))
      (flat row col)
      ⟨⟨row.isLt, hgate⟩, flat_div row col, by rw [flat_mod]⟩
    rw [this, dif_pos row.isLt, colOf_flat, hval row hgate]
  · obtain ⟨⟨h, hne⟩, hrow, -⟩ := hi
    rw [flat_div] at hrow
    exact hne (by rw [show (⟨g.1, h⟩ : Fin nRows) = row from Fin.ext hrow.symm]; exact hgate)

/-! ### One program for each selected row -/

variable {indices : Buffer maxTokens Int} {nValidBuf : Buffer 1 Int} {blockC : Nat}

theorem fusedDot_loop (blockC : Nat) (ts : List Nat) (d : R) :
    ts.foldlM (fusedDot x u row blockC) d = some (d + (ts.map (partialDot x u row blockC)).sum) := by
  induction ts generalizing d with
  | nil => simp
  | cons t ts ih =>
    obtain ⟨xs, us, hxs, hus, hval, hzero⟩ :=
      @tile_loads hidden nRows R _ x u row blockC t (fun c => (row.val : Int) * hidden + (t * blockC + c : Nat))
      (fun c => decide (t * blockC + c < hidden)) 0 (fun c => by push_cast; rfl) (by simp)
    rw [foldlM_cons, fusedDot]
    simp only [hxs, hus, bind_eq_bind, bind_some, partialDot_eq hval hzero, map_cons, sum_cons, ← add_assoc]
    exact ih _

variable {row gates}

theorem fused_gated (hC : 0 < blockC) {sel : Nat} (hsel : sel < maxTokens) (hvalid : (sel : Int) < nValidBuf 0)
    (hrow : indices ⟨sel, hsel⟩ = row.val) (hgate : gates row ≠ 0) (junk : R) :
    Owns (fusedSubtractProjectionSelectedKernel u indices nValidBuf gates blockC junk sel)
      (fun i : Fin (nRows * hidden) => i.val / hidden = row) fun x i => x i - rowOf x row ⬝ᵥ u * colOf u i := by
  have hreads : ∀ x x' : Buffer (nRows * hidden) R, (∀ i, i.val / hidden = row → x i = x' i) →
    rowOf x row = rowOf x' row :=
    fun x x' h => funext fun c => h _ (flat_div row c)
  refine ⟨fun x => ?_, fun x x' h i hi => by rw [h i hi, hreads x x' h]⟩
  have hdot : (range (cdiv hidden blockC)).foldlM (fusedDot x u row blockC) 0 = some (rowOf x row ⬝ᵥ u) := by
    rw [fusedDot_loop, zero_add, ← sum_partialDot x u row hC]
    rfl
  -- the second pass is a launch of its tiles
  have howns : ∀ t ∈ range (cdiv hidden blockC), Owns (fun y => fusedSubtract u row blockC junk (rowOf x row ⬝ᵥ u) y t)
      (fun i : Fin (nRows * hidden) => i.val / hidden = row ∧
        i.val % hidden / blockC = t) fun y i => y i - rowOf x row ⬝ᵥ u * colOf u i :=
    fun t _ => @owns_subtract hidden nRows R _ u row blockC t
      (fun c => (row.val : Int) * hidden + (t * blockC + c : Nat))
      (fun c => decide (t * blockC + c < hidden)) hC (fun c => by push_cast; rfl) (by simp) (rowOf x row ⬝ᵥ u) junk
  obtain ⟨x', hlaunch, hin, hout⟩ := launch_owned nodup_range howns (fun t _ t' _ i hi hi' => hi.2.symm.trans hi'.2) x
  refine ⟨x', ?_, fun i hi => ?_, fun i hi => hout i fun t _ h => hi h.1⟩
  · have hload : gates.load (row.val : Int) = some (gates row) := Buffer.load_of_lt row.isLt gates
    rw [fusedSubtractProjectionSelectedKernel, Buffer.load_one, bind_eq_bind, bind_some,
      if_neg (Int.not_le.2 hvalid), Buffer.load_of_lt hsel, bind_some, hrow, hload, bind_some, if_neg hgate, hdot]
    exact hlaunch
  · refine hin _ ?_ i ⟨hi, rfl⟩
    obtain ⟨row', col, rfl⟩ := exists_flat i
    rw [flat_mod]
    exact mem_range.2 (div_lt_cdiv hC col.isLt)

theorem subtractProjectionSelected_spec (hC : 0 < blockC) {rows : List (Fin nRows)}
    (hnd : rows.Nodup) (hlen : rows.length ≤ maxTokens) (hall : ∀ row, gates row ≠ 0 → row ∈ rows)
    (hvalid : nValidBuf 0 = rows.length) (hidx : ∀ (sel : Nat) (h : sel < rows.length),
      indices ⟨sel, Nat.lt_of_lt_of_le h hlen⟩ = (rows[sel]).val)
    {order : List Nat} (horder : order.Perm (List.range maxTokens)) (junk : R) :
    ∃ x', subtractProjectionSelected u indices nValidBuf gates blockC junk order x = some x' ∧
      Ablated u gates x x' := by
  have hstop : ∀ sel x, (h : sel < maxTokens) → (∀ row, rows[sel]? = some row → gates row = 0) →
      fusedSubtractProjectionSelectedKernel u indices nValidBuf gates blockC junk sel x = some x :=
        fun sel x hsel hclosed => by
    rw [fusedSubtractProjectionSelectedKernel, Buffer.load_one, bind_eq_bind, bind_some]
    split
    next => rfl
    next hlt =>
      have hlt' : sel < rows.length := by omega
      have hload : gates.load ((rows[sel]).val : Int) = some (gates rows[sel]) :=
        Buffer.load_of_lt (rows[sel]).isLt gates
      rw [Buffer.load_of_lt hsel, bind_some, hidx sel hlt', hload, bind_some,
        if_pos (hclosed _ (getElem?_eq_getElem hlt'))]
  have howns : ∀ sel ∈ order, Owns (fusedSubtractProjectionSelectedKernel u indices nValidBuf gates blockC junk sel)
      (fun i : Fin (nRows * hidden) => rows[sel]? = some (rowIndex i) ∧ gates (rowIndex i) ≠ 0)
      fun x i => x i - rowOf x (rowIndex i) ⬝ᵥ u * colOf u i := by
    intro sel hsel
    have hsel : sel < maxTokens := mem_range.1 (horder.mem_iff.1 hsel)
    by_cases hopen : ∃ row, rows[sel]? = some row ∧ gates row ≠ 0
    · obtain ⟨row, hrow, hgate⟩ := hopen
      obtain ⟨hlt, hget⟩ := List.getElem?_eq_some_iff.1 hrow
      refine (fused_gated u hC hsel (by omega) ((hidx sel hlt).trans (by rw [hget])) hgate junk).congr
        (fun _ => rfl) (fun i => ?_)
        fun x i hi => by rw [show rowIndex i = row from Fin.ext hi]
      rw [hrow]
      exact ⟨fun h => congrArg Fin.val (Option.some.inj h.1).symm,
        fun h => by rw [show rowIndex i = row from Fin.ext h]; exact ⟨rfl, hgate⟩⟩
    · have hnot : ∀ i : Fin (nRows * hidden), ¬ (rows[sel]? = some (rowIndex i) ∧ gates (rowIndex i) ≠ 0) :=
        fun i hi => hopen ⟨_, hi⟩
      refine ⟨fun x => ⟨x, hstop sel x hsel fun row hrow => ?_, fun i hi => (hnot i hi).elim, fun _ _ => rfl⟩,
        fun x x' _ i hi => (hnot i hi).elim⟩
      by_contra hgate
      exact hopen ⟨row, hrow, hgate⟩
  obtain ⟨x', hlaunch, hin, hout⟩ :=
    launch_owned (horder.nodup_iff.2 nodup_range) howns (fun sel _ sel' _ i hi hi' =>
    (List.getElem?_inj (List.getElem?_eq_some_iff.1 hi.1).1 hnd).1 (hi.1.trans hi'.1.symm)) x
  refine ⟨x', hlaunch, fun row hgate col => ?_, fun row hgate col => hout _ fun sel _ hi => hi.2 ?_⟩
  · obtain ⟨sel, hsel⟩ := getElem?_of_mem (hall row hgate)
    have hrow : rowIndex (flat row col) = row := Fin.ext (flat_div row col)
    have hlt := (List.getElem?_eq_some_iff.1 hsel).1
    rw [hin sel (horder.mem_iff.2 (mem_range.2 (by omega))) (flat row col)
      (by rw [hrow]; exact ⟨hsel, hgate⟩), hrow, colOf_flat]
  · rw [show rowIndex (flat row col) = row from Fin.ext (flat_div row col)]
    exact hgate

variable {x u} in
theorem Ablated.unique {x₁ x₂ : Buffer (nRows * hidden) R}
    (h₁ : Ablated u gates x x₁) (h₂ : Ablated u gates x x₂) : x₁ = x₂ := by
  funext i
  obtain ⟨row, col, rfl⟩ := exists_flat i
  by_cases hgate : gates row = 0
  · rw [h₁.other row hgate, h₂.other row hgate]
  · rw [h₁.gated row hgate, h₂.gated row hgate]

end Tiles

/-! ### Both give the projection -/

section Real
variable {hidden nRows : Nat} {r : Buffer hidden ℝ} {gates : Buffer nRows Int} {x x' : Buffer (nRows * hidden) ℝ}

theorem Ablated.rowOf_eq (h : Ablated (normalized r) gates x x') {row : Fin nRows} (hgate : gates row ≠ 0) :
    rowOf x' row = ablate r (rowOf x row) := by
  funext col
  exact (h.gated row hgate col).trans (sub_normalized r (rowOf x row) col)

theorem Ablated.again (hr : r ≠ 0) (h : Ablated (normalized r) gates x x') : Ablated (normalized r) gates x' x' := by
  refine ⟨fun row hgate col => ?_, fun _ _ _ => rfl⟩
  have := sub_normalized r (rowOf x' row) col
  rw [h.rowOf_eq hgate, ablate_ablate hr, ← h.rowOf_eq hgate] at this
  exact this.symm

/-- For every tiling and in every order of the programs: the gated rows lose their component along `r` and the others
stay, a second run changes nothing, and one program for each selected row computes the same matrix. -/
theorem subtractRefusalProjection_spec (hr : r ≠ 0)
    (gates : Buffer nRows Int) (x : Buffer (nRows * hidden) ℝ) {block : Nat} (hblock : 0 < block)
    (junk : ℝ) {order order' : List (Nat × Nat)} (horder : order.Perm (grid nRows (cdiv hidden block)))
    (horder' : order'.Perm (grid nRows (cdiv hidden block))) :
    ∃ x', subtractRefusalProjection r gates block junk order order' x = some x' ∧
      (∀ row, gates row ≠ 0 → rowOf x' row = ablate r (rowOf x row) ∧ rowOf x' row ⬝ᵥ r = 0) ∧
      (∀ row, gates row = 0 → rowOf x' row = rowOf x row) ∧
      (∀ (block₂ : Nat) (junk₂ : ℝ) (order₂ order₂' : List (Nat × Nat)), 0 < block₂ →
        order₂.Perm (grid nRows (cdiv hidden block₂)) →
        order₂'.Perm (grid nRows (cdiv hidden block₂)) →
          subtractRefusalProjection r gates block₂ junk₂ order₂ order₂' x' = some x') ∧
      ∀ (maxTokens blockC : Nat) (indices : Buffer maxTokens Int) (nValidBuf : Buffer 1 Int) (junk₃ : ℝ)
        (order₃ : List Nat) (rows : List (Fin nRows)) (hlen : rows.length ≤ maxTokens), 0 < blockC →
          order₃.Perm (range maxTokens) → rows.Nodup →
        (∀ row, gates row ≠ 0 → row ∈ rows) → nValidBuf 0 = rows.length →
        (∀ (sel : Nat) (h : sel < rows.length), indices ⟨sel, Nat.lt_of_lt_of_le h hlen⟩ = (rows[sel]).val) →
        subtractProjectionSelected (normalized r) indices nValidBuf gates blockC junk₃ order₃ x = some x' := by
  obtain ⟨x', hrun, habl⟩ := subtractAlong_spec x (normalized r) gates hblock horder horder' junk
  refine ⟨x', hrun, fun row hgate => ?_, fun row hgate => funext fun col => habl.other row hgate col, ?_, ?_⟩
  · rw [habl.rowOf_eq hgate]
    exact ⟨rfl, ablate_dotProduct hr _⟩
  · intro block₂ junk₂ order₂ order₂' hblock₂ h₂ h₂'
    obtain ⟨x'', hrun', habl'⟩ := subtractAlong_spec x' (normalized r) gates hblock₂ h₂ h₂' junk₂
    rw [subtractRefusalProjection, hrun', habl'.unique (habl.again hr)]
  · intro maxTokens blockC indices nValidBuf junk₃ order₃ rows hlen hC h₃ hnd hall hvalid hidx
    obtain ⟨x'', hrun', habl'⟩ := subtractProjectionSelected_spec x (normalized r) hC hnd hlen hall hvalid hidx h₃ junk₃
    rw [hrun', habl'.unique habl]

/-- Two tiles in each row; the first row is gated and loses `11 / 25` of the direction. -/
theorem twoColumns_ablated : ∃ x', subtractRefusalProjection (![3, 4] : Buffer 2 ℝ) (![1, 0] : Buffer 2 Int) 1 0
    (grid 2 (cdiv 2 1)).reverse (grid 2 (cdiv 2 1)) (![1, 2, 5, 6] : Buffer (2 * 2) ℝ) = some x' ∧
    rowOf x' 0 = ![-8 / 25, 6 / 25] ∧ rowOf x' 1 = ![5, 6] := by
  have hr : (![3, 4] : Buffer 2 ℝ) ≠ 0 := fun h => three_ne_zero (congrFun h 0)
  obtain ⟨x', hrun, hgated, hother, -⟩ := subtractRefusalProjection_spec hr ![1, 0] ![1, 2, 5, 6] Nat.one_pos 0
    (reverse_perm (grid 2 (cdiv 2 1))) (Perm.refl _)
  have hrow : (rowOf (![1, 2, 5, 6] : Buffer (2 * 2) ℝ) (0 : Fin 2) : Fin 2 → ℝ) = ![1, 2] :=
    funext fun col => by fin_cases col <;> rfl
  refine ⟨x', hrun, (hgated 0 (by decide)).1.trans ?_,
    (hother 1 rfl).trans (funext fun col => by fin_cases col <;> rfl)⟩
  rw [hrow]
  funext col
  fin_cases col <;> norm_num [ablate, dotProduct, Fin.sum_univ_two]

end Real

end Xmix.Kernels
