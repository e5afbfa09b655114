import Mathlib.Algebra.BigOperators.Intervals
import Mathlib.Algebra.Order.BigOperators.Group.Finset
import Mathlib.Algebra.Order.Ring.Int
import Mathlib.Tactic.Ring

/-!
# Launches of tile programs

A buffer of `n` cells. Loads and stores act on the lanes of a tile, each with an index and a mask;
an active lane outside of the buffer makes them fail, an inactive lane touches nothing. The programs
of a launch run one after another, in an order that is not known. Three rules say what a launch
leaves behind in any order: for programs that own the cells they store (`launch_owned`), for
programs that add to cells atomically (`launch_atomic`), and for programs that store parts of one
table (`launch_table`).
-/

namespace Xmix.Launch

open List Function

abbrev Buffer (n : Nat) (α : Type) := Fin n → α

variable {n : Nat} {α ℓ γ : Type}

def InBounds (n : Nat) (i : Int) : Prop := 0 ≤ i ∧ i < n

instance (n : Nat) (i : Int) : Decidable (InBounds n i) := inferInstanceAs (Decidable (_ ∧ _))

def toCell {i : Int} (h : InBounds n i) : Fin n := ⟨i.toNat, by have := h.1; have := h.2; omega⟩

namespace Buffer

def load (b : Buffer n α) (i : Int) : Option α := if h : InBounds n i then some (b (toCell h)) else none

def loadTile (b : Buffer n α) (lanes : List ℓ) (index : ℓ → Int) (mask : ℓ → Bool) (other : α) : Option (ℓ → α) :=
  if ∀ j ∈ lanes, mask j = true → InBounds n (index j) then
    some fun j => if mask j then if h : InBounds n (index j) then b (toCell h) else other else other
  else none

def put (index : ℓ → Int) (mask : ℓ → Bool) (value : ℓ → α) (b : Buffer n α) (j : ℓ) : Buffer n α :=
  if mask j then if h : InBounds n (index j) then update b (toCell h) (value j) else b else b

def storeTile (b : Buffer n α) (lanes : List ℓ) (index : ℓ → Int) (mask : ℓ → Bool) (value : ℓ → α) :
    Option (Buffer n α) :=
  if ∀ j ∈ lanes, mask j = true → InBounds n (index j) then some (lanes.foldl (put index mask value) b) else none

def atomicAdd [Add α] (b : Buffer n α) (i : Int) (v : α) : Option (Buffer n α) :=
  if h : InBounds n i then some (update b (toCell h) (b (toCell h) + v)) else none

variable {b b' : Buffer n α} {lanes : List ℓ} {index : ℓ → Int} {mask : ℓ → Bool} {value : ℓ → α} {other : α}

theorem load_of_lt {i : Nat} (h : i < n) (b : Buffer n α) : b.load i = some (b ⟨i, h⟩) :=
  dif_pos (show InBounds n i from ⟨by omega, by omega⟩)

theorem load_one (b : Buffer 1 α) : b.load 0 = some (b 0) := rfl

theorem atomicAdd_of_lt [Add α] {i : Nat} (h : i < n) (b : Buffer n α) (v : α) :
    b.atomicAdd i v = some (update b ⟨i, h⟩ (b ⟨i, h⟩ + v)) := dif_pos (show InBounds n i from ⟨by omega, by omega⟩)

theorem loadTile_eq (h : ∀ j ∈ lanes, mask j = true → InBounds n (index j)) :
    b.loadTile lanes index mask other =
      some fun j => if mask j then if h : InBounds n (index j) then b (toCell h) else other else other := if_pos h

theorem loadTile_spec (b : Buffer n α) (lanes : List ℓ) (index : ℓ → Int) (mask : ℓ → Bool) (other : α)
    (h : ∀ j ∈ lanes, mask j = true → InBounds n (index j)) :
    ∃ v, b.loadTile lanes index mask other = some v ∧ (∀ j, mask j = true → ∀ i : Fin n, index j = i → v j = b i) ∧
      ∀ j, mask j = false → v j = other := by
  refine ⟨_, loadTile_eq h, fun j hj i hi => ?_, fun j hj => by simp [hj]⟩
  have hb : InBounds n (index j) := by rw [hi]; exact ⟨by omega, by omega⟩
  have hcell : toCell hb = i := Fin.ext (by simp [toCell, hi])
  simp [hj, dif_pos hb, hcell]

theorem foldl_put_of_ne {i : Fin n} (h : ∀ j ∈ lanes, mask j = true → index j ≠ i) :
    lanes.foldl (put index mask value) b i = b i := by
  induction lanes generalizing b with
  | nil => rfl
  | cons j lanes ih =>
    rw [foldl_cons, ih fun k hk => h k (mem_cons_of_mem _ hk), put]
    split
    next hm =>
      split
      next hb =>
        refine update_of_ne (fun he => h j mem_cons_self hm ?_) _ _
        rw [he, toCell]
        have := hb.1
        simp only
        omega
      next => rfl
    next => rfl

theorem foldl_put_of_mem (hinj : ∀ j ∈ lanes, ∀ k ∈ lanes, mask j = true →
      mask k = true → index j = index k → j = k) {i : Fin n} {j : ℓ} (hj : j ∈ lanes)
    (hm : mask j = true) (hi : index j = i) : lanes.foldl (put index mask value) b i = value j := by
  induction lanes generalizing b with
  | nil => cases hj
  | cons k lanes ih =>
    have hrest : ∀ j ∈ lanes, ∀ k ∈ lanes, mask j = true → mask k = true → index j = index k → j = k := fun j hj k hk =>
      hinj j (mem_cons_of_mem _ hj) k (mem_cons_of_mem _ hk)
    rw [foldl_cons]
    by_cases hin : j ∈ lanes
    · exact ih hrest hin
    · obtain rfl : j = k := (mem_cons.1 hj).resolve_right hin
      rw [foldl_put_of_ne fun k hk hmk he => hin
        (hinj j hj k (mem_cons_of_mem _ hk) hm hmk (hi.trans he.symm) ▸ hk), put, if_pos hm]
      have hb : InBounds n (index j) := by rw [hi]; exact ⟨by omega, by omega⟩
      have hcell : toCell hb = i := Fin.ext (by simp [toCell, hi])
      rw [dif_pos hb, hcell, update_self]

theorem storeTile_spec (hin : ∀ j ∈ lanes, mask j = true → InBounds n (index j))
    (hinj : ∀ j ∈ lanes, ∀ k ∈ lanes, mask j = true → mask k = true → index j = index k → j = k) :
    ∃ b', b.storeTile lanes index mask value = some b' ∧
      (∀ i : Fin n, ∀ j ∈ lanes, mask j = true → index j = i → b' i = value j) ∧
      ∀ i : Fin n, (∀ j ∈ lanes, mask j = true → index j ≠ i) → b' i = b i :=
  ⟨_, if_pos hin, fun _ _ hj hm hi => foldl_put_of_mem hinj hj hm hi, fun _ h => foldl_put_of_ne h⟩

end Buffer

/-! ### Launches -/

def launch {σ : Type} (prog : γ → σ → Option σ) (order : List γ) (s : σ) : Option σ :=
  order.foldlM (fun s g => prog g s) s

def grid (rows cols : Nat) : List (Nat × Nat) := product (range rows) (range cols)

theorem mem_grid {rows cols : Nat} {g : Nat × Nat} : g ∈ grid rows cols ↔ g.1 < rows ∧ g.2 < cols := by
  obtain ⟨i, j⟩ := g
  rw [grid, pair_mem_product, mem_range, mem_range]

theorem nodup_grid (rows cols : Nat) : (grid rows cols).Nodup := nodup_range.product nodup_range

structure Owns (p : Buffer n α → Option (Buffer n α)) (S : Fin n → Prop) (F : Buffer n α → Buffer n α) : Prop where
  runs : ∀ b, ∃ b', p b = some b' ∧ (∀ i, S i → b' i = F b i) ∧ ∀ i, ¬ S i → b' i = b i
  reads : ∀ b b', (∀ i, S i → b i = b' i) → ∀ i, S i → F b i = F b' i

theorem Owns.congr {p p' : Buffer n α → Option (Buffer n α)}
    {S S' : Fin n → Prop} {F F' : Buffer n α → Buffer n α} (h : Owns p S F) (hp : ∀ b, p' b = p b)
    (hS : ∀ i, S' i ↔ S i) (hF : ∀ b i, S i → F' b i = F b i) : Owns p' S' F' := by
  refine ⟨fun b => ?_, fun b b' hb i hi => ?_⟩
  · obtain ⟨b', hrun, hin, hout⟩ := h.runs b
    exact ⟨b', (hp b).trans hrun, fun i hi => (hin i ((hS i).1 hi)).trans (hF b i ((hS i).1 hi)).symm,
      fun i hi => hout i fun hi' => hi ((hS i).2 hi')⟩
  · have hi' := (hS i).1 hi
    rw [hF b i hi', hF b' i hi']
    exact h.reads b b' (fun k hk => hb k ((hS k).2 hk)) i hi'

variable {a k m : Nat} {order : List γ} {prog : γ → Buffer n α → Option (Buffer n α)}

theorem launch_owned {S : γ → Fin n → Prop} {F : γ → Buffer n α → Buffer n α}
    (hnd : order.Nodup) (h : ∀ g ∈ order, Owns (prog g) (S g) (F g))
    (hdisj : ∀ g ∈ order, ∀ g' ∈ order, ∀ i, S g i → S g' i → g = g') (b : Buffer n α) :
    ∃ b', launch prog order b = some b' ∧ (∀ g ∈ order, ∀ i, S g i → b' i = F g b i) ∧
      ∀ i, (∀ g ∈ order, ¬ S g i) → b' i = b i := by
  induction order generalizing b with
  | nil => exact ⟨b, rfl, fun g hg => (by cases hg), fun _ _ => rfl⟩
  | cons g order ih =>
    obtain ⟨hg, hnd⟩ := nodup_cons.1 hnd
    have hown := h g mem_cons_self
    obtain ⟨b₁, hrun, hcells, hother⟩ := hown.runs b
    obtain ⟨b', hlaunch, hF, hrest⟩ := ih hnd (fun g' hg' => h g' (mem_cons_of_mem _ hg'))
      (fun g' hg' k hk => hdisj g' (mem_cons_of_mem _ hg') k (mem_cons_of_mem _ hk)) b₁
    have hapart : ∀ g' ∈ order, ∀ i, S g' i → ¬ S g i := fun g' hg' i hi hi' =>
      hg (hdisj g mem_cons_self g' (mem_cons_of_mem _ hg') i hi' hi ▸ hg')
    refine ⟨b', ?_, fun g' hg' i hi => ?_, fun i hi => ?_⟩
    · rw [launch, foldlM_cons, hrun]
      exact hlaunch
    · rcases mem_cons.1 hg' with rfl | hg'
      · rw [hrest i fun k hk hki => hapart k hk i hki hi]
        exact hcells i hi
      · rw [hF g' hg' i hi]
        exact (h g' (mem_cons_of_mem _ hg')).reads b₁ b (fun k hk => hother k (hapart g' hg' k hk)) i hi
    · rw [hrest i fun g' hg' => hi g' (mem_cons_of_mem _ hg')]
      exact hother i (hi g mem_cons_self)

theorem launch_atomic [AddCommMonoid α] [DecidableEq γ] {cell : γ → Option (Fin n)}
    {amount : γ → α} (hnd : order.Nodup)
    (h : ∀ g ∈ order, ∀ b, prog g b = some ((cell g).elim b fun i => update b i (b i + amount g))) (b : Buffer n α) :
    launch prog order b = some fun i => b i + ∑ g ∈ order.toFinset with cell g = some i, amount g := by
  induction order generalizing b with
  | nil => simp [launch]
  | cons g order ih =>
    obtain ⟨hg, hnd⟩ := nodup_cons.1 hnd
    rw [launch, foldlM_cons, h g mem_cons_self]
    refine (ih hnd (fun g' hg' => h g' (mem_cons_of_mem _ hg')) _).trans (congrArg some (funext fun i => ?_))
    have hg' : g ∉ {x ∈ order.toFinset | cell x = some i} :=
      fun hmem => hg (mem_toFinset.1 (Finset.mem_filter.1 hmem).1)
    rw [toFinset_cons, Finset.filter_insert]
    rcases hc : cell g with - | k
    · rw [if_neg (by simp), Option.elim_none]
    · rw [Option.elim_some]
      by_cases hk : k = i
      · subst hk
        rw [if_pos rfl, Finset.sum_insert hg']
        simp only [update_self]
        exact add_assoc _ _ _
      · rw [if_neg (fun he => hk (Option.some.inj he))]
        simp only [update_of_ne (Ne.symm hk)]

theorem launch_table {S : γ → Fin n → Prop} {table : Buffer n α} (h : ∀ g ∈ order, ∀ b, ∃ b',
      prog g b = some b' ∧ (∀ i, S g i → b' i = table i) ∧ ∀ i, ¬ S g i → b' i = b i) (b : Buffer n α) :
    ∃ b', launch prog order b = some b' ∧ (∀ g ∈ order, ∀ i, S g i → b' i = table i) ∧
      ∀ i, (∀ g ∈ order, ¬ S g i) → b' i = b i := by
  induction order generalizing b with
  | nil => exact ⟨b, rfl, fun g hg => (by cases hg), fun _ _ => rfl⟩
  | cons g order ih =>
    obtain ⟨b₁, hrun, hin, hout⟩ := h g mem_cons_self b
    obtain ⟨b', hlaunch, hstored, hrest⟩ := ih (fun g' hg' => h g' (mem_cons_of_mem _ hg')) b₁
    refine ⟨b', ?_, fun g' hg' i hi => ?_, fun i hi => ?_⟩
    · rw [launch, foldlM_cons, hrun]
      exact hlaunch
    · rcases mem_cons.1 hg' with rfl | hg'
      · by_cases hlater : ∃ k ∈ order, S k i
        · obtain ⟨k, hk, hki⟩ := hlater
          exact hstored k hk i hki
        · rw [hrest i fun k hk hki => hlater ⟨k, hk, hki⟩]
          exact hin i hi
      · exact hstored g' hg' i hi
    · rw [hrest i fun g' hg' => hi g' (mem_cons_of_mem _ hg')]
      exact hout i (hi g mem_cons_self)

/-! ### Tiles of a row -/

theorem tile_div {b t c : Nat} (hc : c < b) : (t * b + c) / b = t := by
  rw [Nat.add_comm, Nat.add_mul_div_right _ _ (Nat.zero_lt_of_lt hc), Nat.div_eq_of_lt hc, Nat.zero_add]

def flat {m k : Nat} (i : Fin m) (j : Fin k) : Fin (m * k) :=
  ⟨i * k + j, Nat.lt_of_lt_of_le (Nat.add_lt_add_left j.isLt _) (Nat.succ_mul i k ▸ Nat.mul_le_mul_right k i.isLt)⟩

theorem flat_div (i : Fin m) (j : Fin k) : (flat i j).val / k = i := tile_div j.isLt

theorem flat_mod (i : Fin m) (j : Fin k) : (flat i j).val % k = j := by
  show (i.val * k + j.val) % k = j
  rw [Nat.add_comm, Nat.add_mul_mod_self_right, Nat.mod_eq_of_lt j.isLt]

def rowIndex {m k : Nat} (i : Fin (m * k)) : Fin m := ⟨i / k, Nat.div_lt_of_lt_mul (Nat.mul_comm m k ▸ i.isLt)⟩

theorem exists_flat (i : Fin (m * k)) : ∃ (r : Fin m) (c : Fin k), i = flat r c := by
  have hk : 0 < k := Nat.pos_of_mul_pos_left (Nat.zero_lt_of_lt i.isLt)
  exact ⟨⟨i / k, (Nat.div_lt_iff_lt_mul hk).2 i.isLt⟩, ⟨i % k, Nat.mod_lt _ hk⟩, Fin.ext (Nat.div_add_mod' i k).symm⟩

theorem inBounds_flat {i j : Nat} (hi : i < m) (hj : j < k) : InBounds (m * k) ((i * k + j : Nat) : Int) :=
  ⟨by omega, by exact_mod_cast (flat ⟨i, hi⟩ ⟨j, hj⟩).isLt⟩

def cdiv (a b : Nat) : Nat := (a + b - 1) / b

theorem le_cdiv_mul {b : Nat} (hb : 0 < b) : a ≤ cdiv a b * b := by
  have := Nat.div_add_mod (a + b - 1) b
  have := Nat.mod_lt (a + b - 1) hb
  rw [cdiv, Nat.mul_comm]
  omega

theorem div_lt_cdiv {b c : Nat} (hb : 0 < b) (hc : c < a) : c / b < cdiv a b := by
  rw [Nat.div_lt_iff_lt_mul hb]
  exact Nat.lt_of_lt_of_le hc (le_cdiv_mul hb)

theorem sum_range_mul {M : Type} [AddCommMonoid M] (f : Nat → M) (k b : Nat) :
    ∑ i ∈ Finset.range (k * b), f i = ∑ t ∈ Finset.range k, ∑ j ∈ Finset.range b, f (t * b + j) := by
  induction k with
  | zero => simp
  | succ k ih => rw [Nat.succ_mul, Finset.sum_range_add, ih, Finset.sum_range_succ]

theorem sum_tiles {M : Type} [AddCommMonoid M] (f : Nat → M) {b : Nat} (hb : 0 < b) :
    ∑ t ∈ Finset.range (cdiv a b), ∑ j ∈ Finset.range b, (if t * b + j < a then f (t * b + j) else 0) =
      ∑ i ∈ Finset.range a, f i := by
  rw [← sum_range_mul fun i => if i < a then f i else 0, ← Finset.sum_filter]
  refine Finset.sum_congr (Finset.ext fun i => ?_) fun _ _ => rfl
  have := @le_cdiv_mul a b hb
  simp only [Finset.mem_filter, Finset.mem_range]
  omega

end Xmix.Launch
