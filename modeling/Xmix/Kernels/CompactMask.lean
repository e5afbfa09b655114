import Xmix.Kernels.EolMask

/-!
# Stream compaction

`compact_mask_kernel`: one program with a lane for each position of the mask, rounded up to a power
of two. A lane whose flag is set stores its number at the place the prefix sum of the flags gives
it.
-/

namespace Xmix.Kernels

open Launch List

variable {n m : Nat}

def cumsum (v : Nat → Int) (i : Nat) : Int := ((range (i + 1)).map v).sum

def ones (flags : Nat → Bool) (i : Nat) : Int := if flags i then 1 else 0

def writePos (flags : Nat → Bool) (i : Nat) : Int := cumsum (ones flags) i - 1

def compactMaskKernel (mask : Buffer n Bool) (nMask block : Nat) (out : Buffer m Int) (count : Buffer 1 Int) :
    Option (Buffer m Int × Buffer 1 Int) := do
  let idx := range block
  let valid := fun i : Nat => decide (i < nMask)
  let flags ← mask.loadTile idx (fun i => i) valid false
  let total := (idx.map (ones flags)).sum
  let out ← out.storeTile idx (writePos flags) (fun i => flags i && valid i) fun i => i
  return (out, Function.update count (Fin.last 0) total)

def compactMaskToIndices (mask : Buffer n Bool) (out : Buffer m Int) (count : Buffer 1 Int) :
    Option (Buffer m Int × Buffer 1 Int) :=
  compactMaskKernel mask n (nextPowerOf2 n) out count

/-! ### Places of the set flags -/

def flagAt (mask : Buffer n Bool) (i : Nat) : Bool := if h : i < n then mask ⟨i, h⟩ else false

def trues (mask : Buffer n Bool) : List Nat := (range n).filter (flagAt mask)

variable {f : Nat → Bool} {i k : Nat} {mask : Buffer n Bool}

theorem sum_ones (f : Nat → Bool) (k : Nat) : ((range k).map (ones f)).sum = ((range k).filter f).length := by
  induction k with
  | zero => rfl
  | succ k ih =>
    rw [range_succ, map_append, sum_append, ih, filter_append, length_append, map_singleton, sum_singleton, ones]
    by_cases hk : f k <;> simp [hk]

theorem filter_range_succ (hf : f i = true) : (range (i + 1)).filter f = (range i).filter f ++ [i] := by
  rw [range_succ, filter_append]
  simp [hf]

theorem writePos_eq (hf : f i = true) : writePos f i = ((range i).filter f).length := by
  rw [writePos, cumsum, sum_ones, filter_range_succ hf, length_append, length_singleton]
  omega

/-- A lane whose flag is set finds its own number at its place among all that are set. -/
theorem filter_range_at (hf : f i = true) (hi : i < k) :
    ((range k).filter f)[((range i).filter f).length]? = some i := by
  obtain ⟨d, rfl⟩ : ∃ d, k = i + 1 + d := ⟨k - (i + 1), by omega⟩
  rw [range_add, filter_append, filter_range_succ hf, append_assoc, getElem?_append_right (Nat.le_refl _), Nat.sub_self]
  rfl

theorem mem_trues : i ∈ trues mask ↔ flagAt mask i = true := by
  rw [trues, mem_filter, mem_range, and_iff_right_iff_imp, flagAt]
  intro h
  by_contra hi
  simp [hi] at h

theorem filter_lanes (mask : Buffer n Bool) (hk : n ≤ k) : (range k).filter (flagAt mask) = trues mask := by
  obtain ⟨d, rfl⟩ : ∃ d, k = n + d := ⟨k - n, by omega⟩
  rw [range_add, filter_append, trues, append_right_eq_self, filter_eq_nil_iff]
  intro i hi
  obtain ⟨j, -, rfl⟩ := mem_map.1 hi
  simp [flagAt]

theorem loadTile_mask (mask : Buffer n Bool) (block : Nat) :
    mask.loadTile (range block) (fun i => i) (fun i => decide (i < n)) false = some (flagAt mask) := by
  rw [Buffer.loadTile_eq fun j _ hj => ⟨by omega, by simpa using hj⟩]
  refine congrArg some (funext fun i => ?_)
  by_cases hi : i < n
  · have hb : InBounds n (i : Int) := ⟨by omega, by omega⟩
    simp [flagAt, hi, hb, toCell]
  · simp [flagAt, hi]

/-- The set positions of the mask in order, their number, and no two lanes that write one cell. -/
theorem compactMaskToIndices_trues (mask : Buffer n Bool) (hm : n ≤ m) (out : Buffer m Int) (count : Buffer 1 Int) :
    (∃ out' count', compactMaskToIndices mask out count = some (out', count') ∧ count' 0 = (trues mask).length ∧
      (∀ (i : Fin m) k, (trues mask)[i.val]? = some k → out' i = k) ∧
        ∀ i : Fin m, (trues mask).length ≤ i → out' i = out i) ∧
    (trues mask).Pairwise (· < ·) ∧ (∀ k, k ∈ trues mask ↔ ∃ h : k < n, mask ⟨k, h⟩ = true) ∧
    ∀ i j, flagAt mask i = true → flagAt mask j = true →
      writePos (flagAt mask) i = writePos (flagAt mask) j → i = j := by
  have hinj (i j : Nat) (hi : flagAt mask i = true) (hj : flagAt mask j = true)
      (h : writePos (flagAt mask) i = writePos (flagAt mask) j) : i = j := by
    rw [writePos_eq hi, writePos_eq hj, Int.natCast_inj] at h
    have hat := @filter_range_at _ i (i + j + 1) hi (by omega)
    rw [h, filter_range_at hj (by omega)] at hat
    exact (Option.some.inj hat).symm
  -- the place of a set flag is its index in the list
  have hat (i : Nat) (hi : flagAt mask i = true) : (trues mask)[((range i).filter (flagAt mask)).length]? = some i := by
    have hn : i < n := mem_range.1 (mem_filter.1 (mem_trues.2 hi)).1
    exact filter_range_at hi hn
  have hlt (i : Nat) (hi : flagAt mask i = true) : ((range i).filter (flagAt mask)).length < (trues mask).length :=
    (List.getElem?_eq_some_iff.1 (hat i hi)).1
  have hlen : (trues mask).length ≤ m := (length_filter_le ..).trans (length_range ▸ hm)
  refine ⟨?_, pairwise_lt_range.filter _, fun k => by rw [mem_trues, flagAt]; simp, hinj⟩
  obtain ⟨out', hout, hval, hrest⟩ :=
    @Buffer.storeTile_spec m Int Nat out (range (nextPowerOf2 n)) (writePos (flagAt mask))
    (fun i => flagAt mask i && decide (i < n)) (fun i => i)
    (fun j _ hj => by
      obtain ⟨hj, -⟩ := Bool.and_eq_true_iff.1 hj
      have := hlt j hj
      rw [writePos_eq hj]
      exact ⟨by omega, by omega⟩)
    fun j _ k _ hj hk => hinj j k (Bool.and_eq_true_iff.1 hj).1 (Bool.and_eq_true_iff.1 hk).1
  refine ⟨out', Function.update count 0 (trues mask).length, ?_, Function.update_self ..,
    fun i k hk => ?_, fun i hi => hrest i fun j _ hj he => ?_⟩
  · simp only [compactMaskToIndices, compactMaskKernel, loadTile_mask, hout, sum_ones,
      filter_lanes mask (le_nextPowerOf2 n), Option.bind_eq_bind, Option.bind_some]
    rfl
  · have hflag := mem_trues.1 (mem_of_getElem? hk)
    have hkn : k < n := mem_range.1 (mem_filter.1 (mem_of_getElem? hk)).1
    refine hval i k (mem_range.2 (hkn.trans_le (le_nextPowerOf2 n))) (by simp [hflag, hkn]) ?_
    rw [writePos_eq hflag]
    have hnd : (trues mask).Nodup := nodup_range.filter _
    have := (getElem?_inj (hlt k hflag) hnd).1 ((hat k hflag).trans hk.symm)
    exact_mod_cast this
  · obtain ⟨hj, -⟩ := Bool.and_eq_true_iff.1 hj
    have := hlt j hj
    rw [writePos_eq hj] at he
    omega

theorem compactMaskToIndices_three : 3 ≤ 4 ∧
      ∃ out' count', compactMaskToIndices (![true, false, true] : Buffer 3 Bool)
      (fun _ : Fin 4 => 9) (fun _ => 7) = some (out', count') ∧
    count' 0 = 2 ∧ (∀ (i : Fin 4) (k : Nat), (trues (![true, false, true] : Buffer 3 Bool))[i.val]? =
      some k → out' i = k) ∧ ∀ i : Fin 4, 2 ≤ i.val → out' i = 9 :=
  ⟨by omega, (compactMaskToIndices_trues (m := 4) _ (by omega) _ _).1⟩

end Xmix.Kernels
