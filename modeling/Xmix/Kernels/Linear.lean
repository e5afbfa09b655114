import Mathlib
import Xmix.Kernels.Steering

/-!
# Linear steering

`linear_select_write_kernel` and `SteeringLinear`. A matrix product puts `W x + b` of every row into
the module's own buffer, and a launch copies the rows it selects back to `x`. A row is selected when
an entry of `token_indices` below `n_valid_buf` names it, and copied when its gate in `vec_indices`
is not zero. Sums and products are exact, and `none` is an access outside of a buffer.
-/

namespace Xmix.Kernels

open Option List
open Launch Matrix

structure SteeringLinear (maxTokens hidden : Nat) (R : Type) where
  W : Buffer (hidden * hidden) R
  b : Buffer hidden R
  outputBuf : Buffer (maxTokens * hidden) R
  tokenIndices : Buffer maxTokens Int
  nValidBuf : Buffer 1 Int
  vecIndices : Buffer maxTokens Int

variable {maxTokens hidden nRows : Nat} {R : Type} [CommRing R]

def linearSelectWriteKernel (out : Buffer (maxTokens * hidden) R)
    (indices vecIndices : Buffer maxTokens Int) (nValidBuf : Buffer 1 Int)
    (blockH : Nat) (sel : Nat) (x : Buffer (nRows * hidden) R) : Option (Buffer (nRows * hidden) R) := do
  let nValid ← nValidBuf.load 0
  if nValid ≤ sel then some x
  else do
    let row ← indices.load sel
    let flag ← vecIndices.load row
    if flag = 0 then some x
    else do
      let mask := fun c : Nat => decide (c < hidden)
      -- only the type of `x_raw` is used
      let _ ← x.loadTile (range blockH) (fun c => row * hidden + c) mask 0
      let val ← out.loadTile (range blockH) (fun c => row * hidden + c) mask 0
      x.storeTile (range blockH) (fun c => row * hidden + c) mask val

namespace SteeringLinear

variable (W : Buffer (hidden * hidden) R) (b : Buffer hidden R) (vecIndices : Buffer maxTokens Int)

def init : SteeringLinear maxTokens hidden R :=
  ⟨W, b, fun _ => 0, fun _ => 0, fun _ => 0, vecIndices⟩

def mm (s : SteeringLinear maxTokens hidden R) (x : Buffer (nRows * hidden) R) :
    Buffer (maxTokens * hidden) R := fun i =>
  if h : i.val / hidden < nRows ∧ i.val % hidden < hidden then
    (∑ j : Fin hidden, x (flat ⟨_, h.1⟩ j) * s.W (flat ⟨_, h.2⟩ j)) + s.b ⟨_, h.2⟩
  else s.outputBuf i

def forward (s : SteeringLinear maxTokens hidden R) (order : List Nat) (x : Buffer (nRows * hidden) R) :
    Option (SteeringLinear maxTokens hidden R × Buffer (nRows * hidden) R) :=
  if nRows ≤ maxTokens then do
    let out := s.mm x
    let x' ← launch (linearSelectWriteKernel out s.tokenIndices s.vecIndices s.nValidBuf (nextPowerOf2 hidden)) order x
    some ({ s with outputBuf := out }, x')
  else none

def run (s : SteeringLinear maxTokens hidden R) (_r : Buffer hidden R)
    (_steeredTokensNum : Buffer 1 Int) (order : List Nat)
    (x : Buffer (nRows * hidden) R) : Option (SteeringLinear maxTokens hidden R × Buffer (nRows * hidden) R) :=
      s.forward order x

/-! ### The reference -/

def affine (v : Fin hidden → R) : Fin hidden → R :=
  (Matrix.of fun i j => W (flat i j)) *ᵥ v + b

/-- The affine map acts on the rows with an open gate. -/
structure Gated (W : Buffer (hidden * hidden) R) (b : Buffer hidden R) (gates : Nat → Prop)
    (x x' : Buffer (nRows * hidden) R) : Prop where
  steered : ∀ row : Fin nRows, gates row → (fun col => x' (flat row col)) = affine W b fun col => x (flat row col)
  other : ∀ row : Fin nRows, ¬ gates row → (fun col => x' (flat row col)) = fun col => x (flat row col)

def Open (row : Nat) : Prop := ∃ h : row < maxTokens, vecIndices ⟨row, h⟩ ≠ 0

def Selects (s : SteeringLinear maxTokens hidden R) (sel row : Nat) : Prop :=
  (sel : Int) < s.nValidBuf ⟨0, Nat.one_pos⟩ ∧ ∃ h : sel < maxTokens, s.tokenIndices ⟨sel, h⟩ = row

/-! ### One program -/

variable {s : SteeringLinear maxTokens hidden R} {x : Buffer (nRows * hidden) R} {sel : Nat}

variable (s x)

theorem mm_flat {row : Nat} (hrow : row < maxTokens) (hx : row < nRows)
    (col : Fin hidden) : s.mm x (flat ⟨row, hrow⟩ col) = affine s.W s.b (fun j => x (flat ⟨row, hx⟩ j)) col := by
  have hcell : (flat (⟨row, hrow⟩ : Fin maxTokens) col).val / hidden < nRows ∧
    (flat (⟨row, hrow⟩ : Fin maxTokens) col).val % hidden < hidden := by
    rw [flat_div, flat_mod]
    exact ⟨hx, col.isLt⟩
  rw [mm, dif_pos hcell, affine, Pi.add_apply]
  simp only [flat_div, flat_mod]
  refine congrArg (· + s.b col) (Finset.sum_congr rfl fun j _ => ?_)
  exact mul_comm _ _

variable {s x}

theorem kernel_of_closed (hsel : sel < maxTokens)
    (hin : (sel : Int) < s.nValidBuf 0 → ∃ row, row < maxTokens ∧ s.Selects sel row)
    (hclosed : ∀ row, s.Selects sel row → ¬ Open s.vecIndices row)
    (out : Buffer (maxTokens * hidden) R) (blockH : Nat) :
    linearSelectWriteKernel out s.tokenIndices s.vecIndices s.nValidBuf blockH sel x = some x := by
  rw [linearSelectWriteKernel, show s.nValidBuf.load 0 = some (s.nValidBuf 0) from rfl, bind_eq_bind, bind_some]
  split
  next => rfl
  next hlt =>
    obtain ⟨row, hrow, hs⟩ := hin (Int.not_le.1 hlt)
    obtain ⟨-, _, hindex⟩ := id hs
    rw [Buffer.load_of_lt hsel, bind_some, hindex, Buffer.load_of_lt hrow, bind_some, if_pos]
    by_contra hflag
    exact hclosed row hs ⟨hrow, hflag⟩

theorem kernel_of_open {row : Nat} (hs : s.Selects sel row) (hrow : row < maxTokens)
    (hx : row < nRows) (hopen : Open s.vecIndices row) (out : Buffer (maxTokens * hidden) R)
    {blockH : Nat} (hblock : hidden ≤ blockH) (x : Buffer (nRows * hidden) R) :
    ∃ x', linearSelectWriteKernel out s.tokenIndices s.vecIndices s.nValidBuf blockH sel x = some x' ∧
      (∀ col : Fin hidden, x' (flat ⟨row, hx⟩ col) = out (flat ⟨row, hrow⟩ col)) ∧
      ∀ i : Fin (nRows * hidden), i.val / hidden ≠ row → x' i = x i := by
  obtain ⟨hvalid, hsel, hindex⟩ := hs
  obtain ⟨_, hflag⟩ := hopen
  have hcell : ∀ {m : Nat}, row < m → ∀ c ∈ range blockH, decide (c < hidden) = true →
    InBounds (m * hidden) ((row : Int) * hidden + c) :=
    fun hm c _ hc => by exact_mod_cast inBounds_flat hm (of_decide_eq_true hc)
  obtain ⟨old, hold, -⟩ :=
    x.loadTile_spec (range blockH) (fun c => (row : Int) * hidden + c) (fun c => decide (c < hidden)) 0 (hcell hx)
  obtain ⟨val, hval, hlane, -⟩ :=
    out.loadTile_spec (range blockH) (fun c => (row : Int) * hidden + c) (fun c => decide (c < hidden)) 0
    (hcell hrow)
  obtain ⟨x', hstore, hin, hout⟩ := @Buffer.storeTile_spec _ R Nat x (range blockH) (fun c => (row : Int) * hidden + c)
    (fun c => decide (c < hidden)) val (hcell hx) fun c _ c' _ _ _ h => by omega
  refine ⟨x', ?_, fun col => ?_, fun i hi => hout i fun c _ hc he => hi ?_⟩
  · rw [linearSelectWriteKernel, show s.nValidBuf.load 0 = some (s.nValidBuf ⟨0, Nat.one_pos⟩) from rfl,
      bind_eq_bind, bind_some,
      if_neg (Int.not_le.2 hvalid), Buffer.load_of_lt hsel, bind_some, hindex, Buffer.load_of_lt hrow,
        bind_some, if_neg hflag]
    simp only [bind_eq_bind, hold, hval, bind_some]
    exact hstore
  · have hmask : decide (col.val < hidden) = true := decide_eq_true col.isLt
    rw [hin _ col.val (mem_range.2 (Nat.lt_of_lt_of_le col.isLt hblock)) hmask (by simp [flat])]
    exact hlane col.val hmask _ (by simp [flat])
  · have hflat : i = flat (⟨row, hx⟩ : Fin nRows) ⟨c, of_decide_eq_true hc⟩ := Fin.ext (by simp only [flat]; omega)
    rw [hflat, flat_div]

/-! ### The launch -/

variable (s)

theorem forward_gated (hrows : nRows ≤ maxTokens) (hsel : ∀ sel : Fin maxTokens,
      (sel.val : Int) < s.nValidBuf 0 → InBounds nRows (s.tokenIndices sel))
    {order : List Nat} (horder : order.Perm (range maxTokens)) (x : Buffer (nRows * hidden) R) :
    ∃ s' x', s.forward order x = some (s', x') ∧
      Gated s.W s.b (fun row => Open s.vecIndices row ∧ ∃ sel, s.Selects sel row) x x' := by
  have hfind : ∀ sel < maxTokens, (sel : Int) < s.nValidBuf 0 → ∃ row, row < nRows ∧
    s.Selects sel row := fun sel hlt hvalid => by
    obtain ⟨h0, h1⟩ := hsel ⟨sel, hlt⟩ hvalid
    exact ⟨(s.tokenIndices ⟨sel, hlt⟩).toNat, by omega, hvalid, hlt, by omega⟩
  obtain ⟨x', hlaunch, hin, hout⟩ := @launch_table (nRows * hidden) R Nat order
    (linearSelectWriteKernel (s.mm x) s.tokenIndices s.vecIndices s.nValidBuf (nextPowerOf2 hidden))
    (fun sel i => s.Selects sel (i.val / hidden) ∧ Open s.vecIndices (i.val / hidden))
    (fun i => s.mm x (Fin.castLE (Nat.mul_le_mul_right _ hrows) i)) (fun sel hmem y => by
      have hlt : sel < maxTokens := mem_range.1 (horder.mem_iff.1 hmem)
      by_cases hopen : ∃ row, s.Selects sel row ∧ Open s.vecIndices row
      · obtain ⟨row, hs, hopen⟩ := hopen
        have hunique : ∀ row', s.Selects sel row' → row' = row := fun row' h => Int.ofNat.inj (h.2.2.symm.trans hs.2.2)
        obtain ⟨row', hx, hs'⟩ := hfind sel hlt hs.1
        obtain rfl := hunique row' hs'
        obtain ⟨y', hrun, hcopy, hkeep⟩ :=
          kernel_of_open hs (Nat.lt_of_lt_of_le hx hrows) hx hopen (s.mm x) (le_nextPowerOf2 hidden) y
        refine ⟨y', hrun, fun i hi => ?_, fun i hi => hkeep i fun he => hi (he ▸ ⟨hs, hopen⟩)⟩
        obtain ⟨r, c, rfl⟩ := exists_flat i
        rw [flat_div] at hi
        obtain rfl : r = ⟨row', hx⟩ := Fin.ext (hunique r hi.1)
        exact hcopy c
      · refine ⟨y, kernel_of_closed hlt (fun hvalid => ?_) (fun row hs ho => hopen ⟨row, hs, ho⟩) _ _,
          fun i hi => (hopen ⟨_, hi⟩).elim, fun _ _ => rfl⟩
        obtain ⟨row, hx, hs⟩ := hfind sel hlt hvalid
        exact ⟨row, Nat.lt_of_lt_of_le hx hrows, hs⟩) x
  refine ⟨{ s with outputBuf := s.mm x }, x', ?_, fun row h => funext fun col => ?_, fun row h => funext fun col => ?_⟩
  · rw [forward, if_pos hrows]
    simp [hlaunch]
  · obtain ⟨hopen, sel, hs⟩ := h
    rw [hin sel (horder.mem_iff.2 (mem_range.2 hs.2.1)) (flat row col) (by rw [flat_div]; exact ⟨hs, hopen⟩)]
    exact mm_flat s x (Nat.lt_of_lt_of_le row.isLt hrows) row.isLt col
  · refine hout _ fun sel _ hi => h ?_
    rw [flat_div] at hi
    exact ⟨hi.2, sel, hi.1⟩

theorem Gated.congr {W : Buffer (hidden * hidden) R} {b : Buffer hidden R}
    {gates gates' : Nat → Prop} {x x' : Buffer (nRows * hidden) R} (h : Gated W b gates x x')
    (hgates : ∀ row : Fin nRows, gates row ↔ gates' row) : Gated W b gates' x x' :=
  ⟨fun row hrow => h.steered row ((hgates row).2 hrow), fun row hrow => h.other row ((hgates row).not.2 hrow)⟩

/-- If every open row is selected, the layer acts on the open rows and on no other. -/
theorem forward_open (hrows : nRows ≤ maxTokens)
    (hsel : ∀ sel : Fin maxTokens, (sel.val : Int) < s.nValidBuf 0 → InBounds nRows (s.tokenIndices sel))
    (hall : ∀ row : Fin nRows, Open s.vecIndices row → ∃ sel, s.Selects sel row) {order : List Nat}
    (horder : order.Perm (range maxTokens)) (x : Buffer (nRows * hidden) R) :
    ∃ s' x', s.forward order x = some (s', x') ∧ Gated s.W s.b (Open s.vecIndices) x x' := by
  obtain ⟨s', x', hforward, hgated⟩ := s.forward_gated hrows hsel horder x
  exact ⟨s', x', hforward, hgated.congr fun row => ⟨And.left, fun h => ⟨h, hall row h⟩⟩⟩

/-- Both rows are selected, row 1 is open. -/
def rowOneOpen : SteeringLinear 2 1 Int :=
  { init (fun _ => 2) (fun _ => 1) fun t => t.val with nValidBuf := fun _ => 2, tokenIndices := fun sel => 1 - sel.val }

theorem forward_open_one : ∃ s' x', rowOneOpen.forward [1, 0]
      (fun i => 3 + i.val : Buffer (2 * 1) Int) = some (s', x') ∧
    x' 0 = 3 ∧ x' 1 = 9 := by
  have hsel : ∀ row : Fin 2, rowOneOpen.Selects (1 - row.val) row :=
    Fin.forall_fin_two.2 ⟨⟨by decide, by decide, rfl⟩, by decide, by decide, rfl⟩
  obtain ⟨s', x', hforward, hsteered, hother⟩ := rowOneOpen.forward_open (Nat.le_refl 2) (by decide)
    (fun row _ => ⟨_, hsel row⟩) (Perm.swap 0 1 []) (fun i => 3 + i.val : Buffer (2 * 1) Int)
  have hclosed : ¬ Open rowOneOpen.vecIndices 0 := by
    rintro ⟨_, h⟩
    exact h rfl
  exact ⟨s', x', hforward, congrFun (hother 0 hclosed) 0,
    (congrFun (hsteered 1 ⟨by decide, by decide⟩) 0).trans (by decide)⟩

variable {s}

theorem run_init (hrows : nRows ≤ maxTokens) (r : Buffer hidden R) (n : Buffer 1 Int)
    {order : List Nat} (horder : order.Perm (range maxTokens)) (x : Buffer (nRows * hidden) R) :
    ∃ s', (init W b vecIndices).run r n order x = some (s', x) := by
  have hnone : ∀ sel row, ¬ (init W b vecIndices).Selects sel row := fun sel row h => by
    have : (sel : Int) < 0 := h.1
    omega
  obtain ⟨s', x', hforward, hgated⟩ := (init W b vecIndices).forward_gated hrows
    (fun sel h => by have : (sel.val : Int) < 0 := h; omega) horder x
  refine ⟨s', hforward.trans (congrArg (fun x => some (s', x)) (funext fun i => ?_))⟩
  obtain ⟨row, col, rfl⟩ := exists_flat i
  exact congrFun (hgated.other row fun h => h.2.elim fun sel => hnone sel row) col

/-- On a fresh module the hook does what is documented exactly for the inputs on which the documented operation does
nothing. -/
theorem run_init_gated_iff (W : Buffer (hidden * hidden) R)
    (b : Buffer hidden R) (vecIndices : Buffer maxTokens Int)
    (hrows : nRows ≤ maxTokens) (r : Buffer hidden R) (n : Buffer 1 Int)
    {order : List Nat} (horder : order.Perm (range maxTokens)) (x : Buffer (nRows * hidden) R) :
    (∃ s' x', (init W b vecIndices).run r n order x = some (s', x') ∧ Gated W b (Open vecIndices) x x') ↔
      ∀ row : Fin nRows, Open vecIndices row →
        affine W b (fun col => x (flat row col)) = fun col => x (flat row col) := by
  obtain ⟨s, hrun⟩ := run_init W b vecIndices hrows r n horder x
  constructor
  · rintro ⟨s', x', hrun', hgated⟩ row hrow
    obtain rfl : x = x' := congrArg Prod.snd (some.inj (hrun.symm.trans hrun'))
    exact (hgated.steered row hrow).symm
  · exact fun h => ⟨s, x, hrun, fun row hrow => (h row hrow).symm, fun _ _ => rfl⟩

def firstRow : Buffer 2 Int := fun row => if row = ⟨0, Nat.two_pos⟩ then 1 else 0

theorem firstRow_unchanged : ¬ ∃ s' x', (init (fun _ => 2) (fun _ => 1) firstRow).run (fun _ => 0) (fun _ => 2) [0, 1]
    (fun _ => 3 : Buffer (2 * 1) Int) = some (s', x') ∧
      Gated (fun _ => 2) (fun _ => 1) (Open firstRow) (fun _ => 3) x' := by
  rintro ⟨s', x', hrun, hgated⟩
  obtain ⟨s, hrun'⟩ :=
    run_init (fun _ => 2) (fun _ => 1) firstRow (Nat.le_refl 2) (fun _ => 0) (fun _ => 2) (Perm.refl [0, 1])
    (fun _ => 3 : Buffer (2 * 1) Int)
  obtain rfl : (fun _ => 3) = x' := congrArg Prod.snd (some.inj (hrun'.symm.trans hrun))
  have hfirst := congrFun (hgated.steered 0 ⟨by decide, by decide⟩) 0
  revert hfirst
  decide

/-- A fixed point of the map. -/
theorem fixed_row_gated : ∃ s' x', (init (fun _ => 2) (fun _ => -3) firstRow).run (fun _ => 0) (fun _ => 2) [1, 0]
    (fun _ => 3 : Buffer (2 * 1) Int) = some (s', x') ∧
      Gated (fun _ => 2) (fun _ => -3) (Open firstRow) (fun _ => 3) x' := by
  refine (run_init_gated_iff _ _ _ (Nat.le_refl 2) _ _ (Perm.swap 0 1 []) _).2 fun _ _ => funext fun col => ?_
  revert col
  decide

end SteeringLinear

end Xmix.Kernels
