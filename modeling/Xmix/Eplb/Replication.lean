import Mathlib.Algebra.BigOperators.Intervals
import Mathlib.Algebra.Order.BigOperators.Group.Finset
import Mathlib.Algebra.Order.Field.Rat
import Mathlib.Data.List.MinMax
import Xmix.Lib.Except

/-!
# Replication of experts

`replicate_experts` of `rebalance_algo.py`: every expert has one replica, and each redundant slot
goes to the expert whose replicas carry the largest load. The greedy choice is globally optimal: an
expert that has more replicas than another count vector gives it was the most loaded one when it got
its last replica, so that the other vector loads it at least as much.
-/

namespace Xmix.Eplb

open List

section Model

variable {K : Type} [LinearOrder K] [Div K] [NatCast K]

/-- One row of `phy2log` and `rank`, a pair for each slot, and of `logcnt`. -/
structure Replicas where
  slots : List (Nat × Nat)
  logcnt : Nat → Nat

namespace Replicas

def start (numLog : Nat) : Replicas := ⟨(range numLog).map fun e => (e, 0), fun _ => 1⟩

def add (r : Replicas) (e : Nat) : Replicas :=
  ⟨r.slots ++ [(e, r.logcnt e)], Function.update r.logcnt e (r.logcnt e + 1)⟩

def ranks (r : Replicas) (e : Nat) : List Nat := (r.slots.filter (·.1 = e)).map (·.2)

end Replicas

/-- The first expert with the largest load per replica; `max` raises where there is none. -/
def redundantIndex (w : Nat → K) (numLog : Nat) (logcnt : Nat → Nat) : Option Nat :=
  (range numLog).argmax fun e => w e / (logcnt e : K)

def replicateLoop (w : Nat → K) (numLog : Nat) : Nat → Option Replicas
  | 0 => some (.start numLog)
  | k + 1 => (replicateLoop w numLog k).bind fun r => (redundantIndex w numLog r.logcnt).map r.add

def replicateExperts (weight : List (Nat → K)) (numLog numPhy : Nat) : Option (List Replicas) :=
  if numPhy < numLog then none else weight.mapM fun w => replicateLoop w numLog (numPhy - numLog)

/-- Every expert has a replica, and all slots are used. -/
def IsCount (numLog numPhy : Nat) (cnt : Nat → Nat) : Prop :=
  (∀ e < numLog, 1 ≤ cnt e) ∧ ∑ e ∈ Finset.range numLog, cnt e = numPhy

def maxLoad (w : Nat → K) (numLog : Nat) (cnt : Nat → Nat) : WithBot K :=
  ((range numLog).map fun e => w e / (cnt e : K)).maximum

variable {w : Nat → K} {numLog numPhy e k : Nat} {r : Replicas} {P : Replicas → Prop}

theorem redundantIndex_eq_some {cnt : Nat → Nat} (h : redundantIndex w numLog cnt = some e) :
    e < numLog ∧ ∀ j < numLog, w j / (cnt j : K) ≤ w e / (cnt e : K) :=
  ⟨mem_range.1 (argmax_mem h), fun _ hj => le_of_mem_argmax (mem_range.2 hj) h⟩

structure Replicas.Valid (numLog : Nat) (r : Replicas) : Prop where
  pos : ∀ e < numLog, 1 ≤ r.logcnt e
  expert : ∀ x ∈ r.slots, x.1 < numLog
  ranks : ∀ e < numLog, r.ranks e = range (r.logcnt e)
  total : ∑ e ∈ Finset.range numLog, r.logcnt e = r.slots.length

namespace Replicas

theorem slots_add (r : Replicas) (e : Nat) : (r.add e).slots = r.slots ++ [(e, r.logcnt e)] := rfl

theorem logcnt_add_self (r : Replicas) (e : Nat) : (r.add e).logcnt e = r.logcnt e + 1 := Function.update_self ..

theorem logcnt_add_of_ne {j : Nat} (h : j ≠ e) : (r.add e).logcnt j = r.logcnt j := Function.update_of_ne h ..

theorem valid_start (numLog : Nat) : (start numLog).Valid numLog where
  pos _ _ := le_rfl
  expert x hx := by
    obtain ⟨e, he, rfl⟩ := mem_map.1 hx
    exact mem_range.1 he
  ranks e he := by
    have hone : (range numLog).filter (· = e) = [e] := by
      rw [filter_eq, count_eq_one_of_mem nodup_range (mem_range.2 he), replicate_one]
    simp only [ranks, start, filter_map, Function.comp_def, hone]
    rfl
  total := by simp [start]

theorem Valid.add (h : r.Valid numLog) (he : e < numLog) : (r.add e).Valid numLog where
  pos j hj := by
    rcases eq_or_ne j e with rfl | hje
    · rw [logcnt_add_self]
      exact Nat.le_add_left 1 _
    · rw [logcnt_add_of_ne hje]
      exact h.pos j hj
  expert x hx := by
    rcases mem_append.1 hx with hx | hx
    · exact h.expert x hx
    · rwa [mem_singleton.1 hx]
  ranks j hj := by
    have hr := h.ranks j hj
    rw [Replicas.ranks] at hr
    rw [Replicas.ranks, slots_add, filter_append, map_append, hr]
    rcases eq_or_ne j e with rfl | hje
    · rw [logcnt_add_self, range_succ]
      simp
    · rw [logcnt_add_of_ne hje]
      simp [hje.symm]
  total := by
    have hsum := Finset.sum_update_of_mem (Finset.mem_range.2 he) r.logcnt (r.logcnt e + 1)
    have hrest := Finset.sum_sdiff (Finset.singleton_subset_iff.2 (Finset.mem_range.2 he)) (f := r.logcnt)
    have htotal := h.total
    rw [Finset.sum_singleton] at hrest
    simp only [Replicas.add, length_append, length_singleton]
    omega

end Replicas

/-- The loop comes to its end unless there is no expert to choose, and keeps what every choice keeps. -/
theorem replicateLoop_rule (hne : numLog = 0 → k = 0) (hstart : P (.start numLog))
    (hadd : ∀ r e, r.Valid numLog → P r → redundantIndex w numLog r.logcnt = some e → P (r.add e)) :
    ∃ r, replicateLoop w numLog k = some r ∧ r.Valid numLog ∧ r.slots.length = numLog + k ∧ P r := by
  induction k with
  | zero => exact ⟨_, rfl, Replicas.valid_start numLog, by simp [Replicas.start], hstart⟩
  | succ k ih =>
    obtain ⟨r, hr, hvalid, hlen, hP⟩ := ih fun h => absurd (hne h) (by omega)
    have hsome : redundantIndex w numLog r.logcnt ≠ none := by
      rw [redundantIndex, Ne, argmax_eq_none, range_eq_nil]
      exact fun h => absurd (hne h) (by omega)
    obtain ⟨e, he⟩ := Option.ne_none_iff_exists'.1 hsome
    refine ⟨r.add e, ?_, hvalid.add (redundantIndex_eq_some he).1, ?_, hadd r e hvalid hP he⟩
    · rw [replicateLoop, hr, Option.bind_some, he, Option.map_some]
    · rw [Replicas.slots_add, length_append, hlen, length_singleton, Nat.add_assoc]

end Model

/-! ### The exchange argument -/

section Optimality

variable {K : Type} [Field K] [LinearOrder K] [IsStrictOrderedRing K] {w : Nat → K}
  {numLog numPhy e : Nat} {cnt cnt' : Nat → Nat} {r : Replicas}

/-- Whoever has more than one replica was the most loaded with one replica less. -/
def Greedy (w : Nat → K) (numLog : Nat) (cnt : Nat → Nat) : Prop :=
  ∀ i < numLog, 2 ≤ cnt i → ∀ j < numLog, w j / (cnt j : K) ≤ w i / ((cnt i - 1 : Nat) : K)

theorem load_anti {x : K} (hx : 0 ≤ x) {m n : Nat} (hm : 1 ≤ m) (hmn : m ≤ n) : x / (n : K) ≤ x / (m : K) :=
  div_le_div_of_nonneg_left hx (Nat.cast_pos.2 hm) (Nat.cast_le.2 hmn)

theorem Greedy.add (h : Greedy w numLog r.logcnt) (hw : ∀ e < numLog, 0 ≤ w e) (hpos : ∀ e < numLog, 1 ≤ r.logcnt e)
    (he : redundantIndex w numLog r.logcnt = some e) : Greedy w numLog (r.add e).logcnt := by
  intro i hi htwo j hj
  have hle : w j / ((r.add e).logcnt j : K) ≤ w j / (r.logcnt j : K) := by
    refine load_anti (hw j hj) (hpos j hj) ?_
    rcases eq_or_ne j e with rfl | hje
    · exact (r.logcnt_add_self j).ge.trans' (Nat.le_succ _)
    · exact (Replicas.logcnt_add_of_ne hje).ge
  rcases eq_or_ne i e with rfl | hie
  · rw [Replicas.logcnt_add_self, Nat.add_sub_cancel]
    exact hle.trans ((redundantIndex_eq_some he).2 j hj)
  · rw [Replicas.logcnt_add_of_ne hie] at htwo ⊢
    exact hle.trans (h i hi htwo j hj)

omit [IsStrictOrderedRing K] in
theorem le_maxLoad (he : e < numLog) : ((w e / (cnt e : K) : K) : WithBot K) ≤ maxLoad w numLog cnt :=
  le_maximum_of_mem' (mem_map_of_mem (mem_range.2 he))

theorem Greedy.maxLoad_le (h : Greedy w numLog cnt) (hw : ∀ e < numLog, 0 ≤ w e) (hc : IsCount numLog numPhy cnt)
    (hc' : IsCount numLog numPhy cnt') : maxLoad w numLog cnt ≤ maxLoad w numLog cnt' := by
  refine maximum_le_of_forall_le fun x hx => ?_
  obtain ⟨j, hj, rfl⟩ := mem_map.1 hx
  have hj := mem_range.1 hj
  by_cases hle : ∀ i < numLog, cnt i ≤ cnt' i
  · -- the counts have the same sum, so they are the same
    have heq := (Finset.sum_eq_sum_iff_of_le fun i hi => hle i (Finset.mem_range.1 hi)).1 (hc.2.trans hc'.2.symm)
    rw [heq j (Finset.mem_range.2 hj)]
    exact le_maxLoad hj
  · push Not at hle
    obtain ⟨i, hi, hlt⟩ := hle
    have hpos := hc'.1 i hi
    refine le_trans (WithBot.coe_le_coe.2 ?_) (le_maxLoad hi)
    exact (h i hi (by omega) j hj).trans (load_anti (hw i hi) hpos (by omega))

/-- Every expert gets a replica, and no other distribution has a smaller largest load. -/
theorem replicateExperts_optimal {weight : List (Nat → K)} (hle : numLog ≤ numPhy) (hne : numLog = 0 → numPhy = 0)
    (hw : ∀ w ∈ weight, ∀ e < numLog, 0 ≤ w e) :
    ∃ out, replicateExperts weight numLog numPhy = some out ∧
      Forall₂ (fun w r => IsCount numLog numPhy r.logcnt ∧
        (∀ cnt, IsCount numLog numPhy cnt → maxLoad w numLog r.logcnt ≤ maxLoad w numLog cnt) ∧
        ∀ e < numLog, r.ranks e = range (r.logcnt e)) weight out := by
  have hrow : ∀ w ∈ weight, ∃ r, replicateLoop w numLog (numPhy - numLog) = some r ∧ r.Valid numLog ∧
      r.slots.length = numLog + (numPhy - numLog) ∧ Greedy w numLog r.logcnt := fun w hmem => by
    refine replicateLoop_rule (by omega) ?_ fun r e hvalid hg he => hg.add (hw w hmem) hvalid.pos he
    exact fun i _ htwo => absurd htwo (by simp [Replicas.start])
  obtain ⟨out, hout⟩ := Except.exists_forall₂.2 hrow
  rw [replicateExperts, if_neg (by omega)]
  refine ⟨out, Except.mapM_eq_some.2 (hout.imp fun w r h => h.1), ?_⟩
  refine ((forall₂_and_left weight out).2 ⟨hw, hout⟩).imp fun w r h => ?_
  obtain ⟨hnonneg, -, hvalid, hlen, hg⟩ := h
  have hcount : IsCount numLog numPhy r.logcnt := ⟨hvalid.pos, by rw [hvalid.total, hlen]; omega⟩
  exact ⟨hcount, fun cnt hcnt => hg.maxLoad_le hnonneg hcount hcnt, hvalid.ranks⟩

theorem replicateExperts_optimal_pair : ∃ out, replicateExperts [fun e => (e : ℚ)] 2 4 = some out ∧
    Forall₂ (fun w r => IsCount 2 4 r.logcnt ∧ (∀ cnt, IsCount 2 4 cnt → maxLoad w 2 r.logcnt ≤ maxLoad w 2 cnt) ∧
      ∀ e < 2, r.ranks e = range (r.logcnt e)) [fun e => (e : ℚ)] out := by
  refine replicateExperts_optimal (by decide) (by decide) fun w hw e _ => ?_
  rw [mem_singleton.1 hw]
  exact Nat.cast_nonneg e

end Optimality

end Xmix.Eplb
