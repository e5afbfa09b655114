import Xmix.Kernels.EolMask

/-!
# Per-token weighted steering

`add_scaled_summed_vectors_kernel` and `SteeringVectorAdder`. The tables are row-major; a program
has one row of `x` and one tile of its columns, and all vectors of the row at once. Sums and
products are exact, and `none` is an access outside of a buffer.
-/

namespace Xmix.Kernels

open Option List
open Launch

structure SteeringVectorAdder (maxTokens maxVecs hidden : Nat) (R : Type) where
  r : Buffer (maxVecs * hidden) R
  scales : Buffer (maxTokens * maxVecs) R
  vecIndices : Buffer (maxTokens * maxVecs) (Fin maxVecs)
  nVecsPerToken : Buffer maxTokens Int
  inputMap : Buffer maxTokens Int

variable {maxTokens maxVecs hidden nRows : Nat} {R : Type} [CommRing R]

def addScaledSummedVectorsKernel (a : SteeringVectorAdder maxTokens maxVecs hidden R) (nValidBuf : Buffer 1 Int)
    (blockV blockC : Nat) (junk : R) (g : Nat × Nat) (x : Buffer (nRows * hidden) R) :
      Option (Buffer (nRows * hidden) R) := do
  let nValid ← nValidBuf.load 0
  if nValid ≤ g.1 then some x
  else do
    let flag ← a.inputMap.load g.1
    if flag = 0 then some x
    else do
      let nVecs ← a.nVecsPerToken.load g.1
      let cIdx := fun c : Nat => g.2 * blockC + c
      let vMask := fun v : Nat => decide ((v : Int) < nVecs)
      let cMask := fun c : Nat => decide (cIdx c < hidden)
      let scales ← a.scales.loadTile (range blockV) (fun v => ((g.1 * maxVecs + v : Nat) : Int)) vMask 0
      let vecIdxs ← Buffer.loadTile (fun i => ((a.vecIndices i).val : Int)) (range blockV)
        (fun v => ((g.1 * maxVecs + v : Nat) : Int)) vMask 0
      let r ← a.r.loadTile (product (range blockV) (range blockC))
        (fun l => vecIdxs l.1 * hidden + cIdx l.2) (fun l => vMask l.1 && cMask l.2) 0
      let combined := fun c => ∑ v ∈ Finset.range blockV, scales v * r (v, c)
      let old ← x.loadTile (range blockC) (fun c => ((g.1 * hidden + cIdx c : Nat) : Int)) cMask junk
      x.storeTile (range blockC) (fun c => ((g.1 * hidden + cIdx c : Nat) : Int)) cMask fun c => old c + combined c

namespace SteeringVectorAdder

def blockC : Nat := 512

def forward (a : SteeringVectorAdder maxTokens maxVecs hidden R) (nValidBuf : Buffer 1 Int) (junk : R)
    (order : List (Nat × Nat))
    (x : Buffer (nRows * hidden) R) : Option (Buffer (nRows * hidden) R) :=
  launch (addScaledSummedVectorsKernel a nValidBuf (nextPowerOf2 maxVecs) blockC junk) order x

/-! ### The reference -/

def steering (a : SteeringVectorAdder maxTokens maxVecs hidden R) (row : Fin maxTokens) (col : Fin hidden) : R :=
  ∑ v : Fin maxVecs with (v.val : Int) < a.nVecsPerToken row,
    a.scales (flat row v) * a.r (flat (a.vecIndices (flat row v)) col)

def Steers (a : SteeringVectorAdder maxTokens maxVecs hidden R) (nValid : Int) (row : Nat) : Prop :=
  (row : Int) < nValid ∧ ∃ h : row < maxTokens, a.inputMap ⟨row, h⟩ ≠ 0

/-! ### One program -/

variable {a : SteeringVectorAdder maxTokens maxVecs hidden R} {nValidBuf : Buffer 1 Int} {junk : R} {row cb : Nat}
  {x : Buffer (nRows * hidden) R}

theorem kernel_of_not_steers (hrow : row < maxTokens) (h : ¬ a.Steers (nValidBuf 0) row) (blockV blockC : Nat) :
    addScaledSummedVectorsKernel a nValidBuf blockV blockC junk (row, cb) x = some x := by
  rw [addScaledSummedVectorsKernel, Buffer.load_one, bind_eq_bind, bind_some]
  split
  next => rfl
  next hlt =>
    rw [Buffer.load_of_lt hrow, bind_some, if_pos]
    by_contra hflag
    exact h ⟨Int.not_le.1 hlt, hrow, hflag⟩

theorem sum_lanes (row : Fin maxTokens) (col : Fin hidden)
    (hcount : a.nVecsPerToken row ≤ maxVecs) {blockV : Nat} (hblock : maxVecs ≤ blockV)
    {scales r : Nat → R} (hscales : ∀ v : Fin maxVecs, (v.val : Int) < a.nVecsPerToken row →
      scales v = a.scales (flat row v)) (hr : ∀ v : Fin maxVecs, (v.val : Int) < a.nVecsPerToken row →
      r v = a.r (flat (a.vecIndices (flat row v)) col))
    (hzero : ∀ v : Nat, ¬ (v : Int) < a.nVecsPerToken row → scales v = 0) :
    ∑ v ∈ Finset.range blockV, scales v * r v = a.steering row col := by
  rw [steering, Finset.sum_filter]
  calc ∑ v ∈ Finset.range blockV, scales v * r v
      = ∑ v ∈ Finset.range maxVecs, scales v * r v := by
        refine (Finset.sum_subset (Finset.range_subset_range.2 hblock) fun v _ hv => ?_).symm
        rw [hzero v (by have := Finset.mem_range.not.1 hv; omega), zero_mul]
    _ = ∑ v : Fin maxVecs, scales v * r v := (Fin.sum_univ_eq_sum_range (fun v => scales v * r v) maxVecs).symm
    _ = _ := by
        refine Finset.sum_congr rfl fun v _ => ?_
        split
        next hv => rw [hscales v hv, hr v hv]
        next hv => rw [hzero v hv, zero_mul]

theorem kernel_of_steers (hcount : ∀ t, a.nVecsPerToken t ≤ maxVecs)
    (hrow : row < maxTokens) (hx : row < nRows) (h : a.Steers (nValidBuf 0) row) {blockV blockC : Nat}
    (hblock : maxVecs ≤ blockV) (hC : 0 < blockC) (x : Buffer (nRows * hidden) R) :
    ∃ x', addScaledSummedVectorsKernel a nValidBuf blockV blockC junk (row, cb) x = some x' ∧
      (∀ (col : Fin hidden), col.val / blockC = cb →
        x' (flat ⟨row, hx⟩ col) = x (flat ⟨row, hx⟩ col) + a.steering ⟨row, hrow⟩ col) ∧
      ∀ i : Fin (nRows * hidden), ¬ (i.val / hidden = row ∧ i.val % hidden / blockC = cb) → x' i = x i := by
  obtain ⟨hvalid, _, hflag⟩ := h
  have hvec : ∀ v : Nat, decide ((v : Int) < a.nVecsPerToken ⟨row, hrow⟩) = true → v < maxVecs := fun v hv => by
    have := hcount ⟨row, hrow⟩
    have := of_decide_eq_true hv
    omega
  have hcell : ∀ c : Nat, decide (cb * blockC + c < hidden) = true →
      InBounds (nRows * hidden) ((row * hidden + (cb * blockC + c) : Nat) : Int) :=
        fun c hc => inBounds_flat hx (of_decide_eq_true hc)
  obtain ⟨scales, hscales, hscale, hzero⟩ :=
    a.scales.loadTile_spec (range blockV) (fun v => ((row * maxVecs + v : Nat) : Int))
    (fun v => decide ((v : Int) < a.nVecsPerToken ⟨row, hrow⟩)) 0 fun v _ hv => inBounds_flat hrow (hvec v hv)
  obtain ⟨idx, hidxs, hidx, -⟩ := Buffer.loadTile_spec (fun i => ((a.vecIndices i).val : Int)) (range blockV)
    (fun v => ((row * maxVecs + v : Nat) : Int)) (fun v => decide ((v : Int) < a.nVecsPerToken ⟨row, hrow⟩)) 0
    fun v _ hv => inBounds_flat hrow (hvec v hv)
  have hidx' : ∀ v : Nat, (hv : decide ((v : Int) < a.nVecsPerToken ⟨row, hrow⟩) = true) →
      idx v = (a.vecIndices (flat ⟨row, hrow⟩ ⟨v, hvec v hv⟩)).val := fun v hv => hidx v hv _ rfl
  obtain ⟨r, hrs, hr, -⟩ := a.r.loadTile_spec (product (range blockV) (range blockC))
    (fun l => idx l.1 * hidden + (cb * blockC + l.2 : Nat))
    (fun l => decide ((l.1 : Int) < a.nVecsPerToken ⟨row, hrow⟩) && decide (cb * blockC + l.2 < hidden))
      0 fun l _ hl => by
      obtain ⟨hv, hc⟩ := Bool.and_eq_true_iff.1 hl
      rw [hidx' l.1 hv]
      exact_mod_cast inBounds_flat (a.vecIndices _).isLt (of_decide_eq_true hc)
  obtain ⟨old, holds, hold, -⟩ :=
    x.loadTile_spec (range blockC) (fun c => ((row * hidden + (cb * blockC + c) : Nat) : Int))
    (fun c => decide (cb * blockC + c < hidden)) junk fun c _ hc => hcell c hc
  obtain ⟨x', hstore, hin, hout⟩ := @Buffer.storeTile_spec _ R Nat x (range blockC)
    (fun c => ((row * hidden + (cb * blockC + c) : Nat) : Int)) (fun c => decide (cb * blockC + c < hidden))
    (fun c => old c + ∑ v ∈ Finset.range blockV, scales v * r (v, c)) (fun c _ hc => hcell c hc)
    (fun c _ c' _ _ _ h => by have := Int.ofNat.inj h; omega)
  refine ⟨x', ?_, fun col hcol => ?_, fun i hi => hout i fun c hc hm he => hi ?_⟩
  · rw [addScaledSummedVectorsKernel, Buffer.load_one, bind_eq_bind, bind_some,
      if_neg (Int.not_le.2 hvalid), Buffer.load_of_lt hrow, bind_some, if_neg hflag, Buffer.load_of_lt hrow, bind_some]
    simp only [bind_eq_bind, hscales, hidxs, hrs, holds, bind_some]
    exact hstore
  · have hlane : cb * blockC + col.val % blockC = col.val := by rw [← hcol, Nat.mul_comm, Nat.div_add_mod]
    have hmask : decide (cb * blockC + col.val % blockC < hidden) = true :=
      decide_eq_true (by rw [hlane]; exact col.isLt)
    have hi : ((row * hidden + (cb * blockC + col.val % blockC) : Nat) : Int) =
      (flat (⟨row, hx⟩ : Fin nRows) col).val :=
      congrArg (fun c => ((row * hidden + c : Nat) : Int)) hlane
    rw [hin _ _ (mem_range.2 (Nat.mod_lt _ hC)) hmask hi, hold _ hmask _ hi]
    refine congrArg (x _ + ·) (sum_lanes ⟨row, hrow⟩ col (hcount _) hblock (fun v hv => ?_)
      (fun v hv => ?_) fun v hv => ?_)
    · exact hscale v (decide_eq_true hv) _ rfl
    · refine hr (v.val, _) (Bool.and_eq_true_iff.2 ⟨decide_eq_true hv, hmask⟩) _ ?_
      rw [hidx' v (decide_eq_true hv), hlane]
      rfl
    · exact hzero v (decide_eq_false hv)
  · have hcol : cb * blockC + c < hidden := of_decide_eq_true hm
    have hflat : i = flat (⟨row, hx⟩ : Fin nRows) ⟨cb * blockC + c, hcol⟩ := Fin.ext (Int.ofNat.inj he).symm
    rw [hflat, flat_div, flat_mod]
    exact ⟨rfl, tile_div (mem_range.1 hc)⟩

/-! ### The launch -/

variable (a)

def Tile (nValid : Int) (blockC : Nat) (g : Nat × Nat) (i : Fin (nRows * hidden)) : Prop :=
  a.Steers nValid g.1 ∧ i.val / hidden = g.1 ∧ i.val % hidden / blockC = g.2

def addend (i : Fin (nRows * hidden)) : R :=
  if h : i.val / hidden < maxTokens ∧ i.val % hidden < hidden then a.steering ⟨_, h.1⟩ ⟨_, h.2⟩ else 0

variable {a}

theorem addend_flat {row : Fin nRows} (h : row.val < maxTokens) (col : Fin hidden) :
    a.addend (flat row col) = a.steering ⟨row, h⟩ col := by
  have hpos : (flat row col).val / hidden < maxTokens ∧ (flat row col).val % hidden < hidden := by
    rw [flat_div, flat_mod]
    exact ⟨h, col.isLt⟩
  rw [addend, dif_pos hpos]
  simp [flat_div, flat_mod]

theorem owns_tile (hcount : ∀ t, a.nVecsPerToken t ≤ maxVecs)
    (hvalid : nValidBuf 0 ≤ nRows) {g : Nat × Nat}
    (hg : g.1 < maxTokens) {blockV blockC : Nat} (hblock : maxVecs ≤ blockV) (hC : 0 < blockC) :
    Owns (n := nRows * hidden) (addScaledSummedVectorsKernel a nValidBuf blockV blockC junk g)
      (a.Tile (nValidBuf 0) blockC g)
      fun x i => x i + a.addend i := by
  refine ⟨fun x => ?_, fun x x' h i hi => by rw [h i hi]⟩
  by_cases hs : a.Steers (nValidBuf 0) g.1
  · have hx : g.1 < nRows := by have := hs.1; omega
    obtain ⟨x', hrun, hin, hout⟩ := kernel_of_steers hcount hg hx hs hblock hC x
    refine ⟨x', hrun, fun i hi => ?_, fun i hi => hout i fun h => hi ⟨hs, h⟩⟩
    obtain ⟨row, col, rfl⟩ := exists_flat i
    obtain ⟨-, hrow, hcol⟩ := hi
    rw [flat_div] at hrow
    rw [flat_mod] at hcol
    have hrow' : (⟨g.1, hx⟩ : Fin nRows) = row := Fin.ext hrow.symm
    have := hin col hcol
    rw [hrow'] at this
    rw [this, addend_flat (hrow ▸ hg)]
    simp [hrow]
  · exact ⟨x, kernel_of_not_steers hg hs _ _, fun i hi => (hs hi.1).elim, fun _ _ => rfl⟩

/-- In any order, a launch adds the scaled sum of its vectors to every steered row and leaves the others alone, and no
access is outside of its buffer. -/
theorem forward_spec (a : SteeringVectorAdder maxTokens maxVecs hidden R) (hcount : ∀ t, a.nVecsPerToken t ≤ maxVecs)
    (nValidBuf : Buffer 1 Int) (hvalid : nValidBuf 0 ≤ min nRows maxTokens) (junk : R) {order : List (Nat × Nat)}
    (horder : order.Perm (grid maxTokens (cdiv hidden blockC))) (x : Buffer (nRows * hidden) R) :
    ∃ x', a.forward nValidBuf junk order x = some x' ∧
      (∀ (row : Fin nRows) (h : row.val < maxTokens), (row.val : Int) < nValidBuf 0 → a.inputMap ⟨row, h⟩ ≠ 0 →
        ∀ col, x' (flat row col) = x (flat row col) + a.steering ⟨row, h⟩ col) ∧
      ∀ row : Fin nRows, ¬ a.Steers (nValidBuf 0) row → ∀ col, x' (flat row col) = x (flat row col) := by
  have hC : 0 < blockC := by decide
  have howns : ∀ g ∈ order, Owns (addScaledSummedVectorsKernel a nValidBuf (nextPowerOf2 maxVecs) blockC junk g)
      (a.Tile (nValidBuf 0) blockC g) fun (x : Buffer (nRows * hidden) R) i => x i + a.addend i := fun g hg =>
    owns_tile hcount (by omega) (mem_grid.1 (horder.mem_iff.1 hg)).1 (le_nextPowerOf2 maxVecs) hC
  obtain ⟨x', hlaunch, hin, hout⟩ := launch_owned (horder.nodup_iff.2 (nodup_grid _ _)) howns
    (fun g _ g' _ i hi hi' => Prod.ext (hi.2.1.symm.trans hi'.2.1) (hi.2.2.symm.trans hi'.2.2)) x
  refine ⟨x', hlaunch, fun row h hlt hmap col => ?_, fun row hs col => hout _ fun g _ hi => hs ?_⟩
  · rw [← addend_flat h col]
    refine hin (row, col.val / blockC) ?_ _ ⟨⟨hlt, h, hmap⟩, flat_div row col, by rw [flat_mod]⟩
    exact horder.mem_iff.2 (mem_grid.2 ⟨h, div_lt_cdiv hC col.isLt⟩)
  · rw [← flat_div row col, hi.2.1]
    exact hi.1

def oneVector : SteeringVectorAdder 2 1 1 Int :=
  ⟨fun _ => 3, fun _ => 2, fun _ => 0, fun _ => 1, fun t => if t = 0 then 1 else 0⟩

theorem oneVector_forward : ∃ x', oneVector.forward (fun _ => 2) 0 (grid 2 (cdiv 1 blockC))
      (fun _ => 10 : Buffer (2 * 1) Int) = some x' ∧
    x' (flat 0 0) = 16 ∧ x' (flat 1 0) = 10 := by
  obtain ⟨x', hforward, hsteered, hother⟩ :=
    forward_spec oneVector (by decide) (fun _ => 2) (by decide) 0 (Perm.refl _)
    (fun _ => 10 : Buffer (2 * 1) Int)
  refine ⟨x', hforward, ?_, ?_⟩
  · rw [hsteered 0 (by decide) (by decide) (by decide) 0]
    decide
  · refine hother 1 ?_ 0
    rintro ⟨-, _, h⟩
    exact h rfl

end SteeringVectorAdder

end Xmix.Kernels
