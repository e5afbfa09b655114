import Mathlib.Algebra.Order.Ring.Int
import Mathlib.Data.List.Nodup

/-!
# Dictionaries in insertion order

A finite map kept as its list of entries, oldest key first: a new key goes to the end and a key that is set again keeps
its place, so that the first and the last entry are those an ordered dictionary gives.
-/

namespace Xmix

open List

structure Dict (κ ν : Type) where
  entries : List (κ × ν)
  nodup : (entries.map Prod.fst).Nodup

-- stores are cells of functions or entries of dictionaries
attribute [grind =] Function.update_apply

namespace Dict

variable {κ ν : Type}

variable {j : κ} {l : List (κ × ν)} {w : ν}

def empty : Dict κ ν := ⟨[], by simp⟩

def len (d : Dict κ ν) : Nat := d.entries.length

def keys (d : Dict κ ν) : List κ := d.entries.map Prod.fst

def values (d : Dict κ ν) : List ν := d.entries.map Prod.snd

theorem len_eq_length_keys (d : Dict κ ν) : d.len = d.keys.length := by
  simp [len, keys]

theorem map_fst_mapValues {ω : Type} (f : ν → ω) (l : List (κ × ν)) :
    (l.map fun e => (e.1, f e.2)).map Prod.fst = l.map Prod.fst := by
  rw [map_map]
  rfl

def mapValues {ω : Type} (f : ν → ω) (d : Dict κ ν) : Dict κ ω :=
  ⟨d.entries.map fun e => (e.1, f e.2), (map_fst_mapValues f d.entries).symm ▸ d.nodup⟩

theorem keys_mapValues {ω : Type} (f : ν → ω) (d : Dict κ ν) : (d.mapValues f).keys = d.keys :=
      map_fst_mapValues f d.entries

variable [DecidableEq κ]

def lookup : List (κ × ν) → κ → Option ν
  | [], _ => none
  | (a, v) :: l, k => if a = k then some v else lookup l k

def put : List (κ × ν) → κ → ν → List (κ × ν)
  | [], k, v => [(k, v)]
  | (a, w) :: l, k, v => if a = k then (a, v) :: l else (a, w) :: put l k v

def del : List (κ × ν) → κ → List (κ × ν)
  | [], _ => []
  | (a, w) :: l, k => if a = k then l else (a, w) :: del l k

theorem lookup_eq_none {k : κ} : lookup l k = none ↔ k ∉ l.map Prod.fst := by
  induction l with
  | nil => simp [lookup]
  | cons e l ih =>
    obtain ⟨a, v⟩ := e
    by_cases h : a = k
    · simp [lookup, h]
    · have : k ≠ a := fun hk => h hk.symm
      simp only [lookup, if_neg h, ih, map_cons, mem_cons, this, false_or]

theorem lookup_eq_some (hl : (l.map Prod.fst).Nodup) {k : κ} {v : ν} : lookup l k = some v ↔ (k, v) ∈ l := by
  induction l with
  | nil => simp [lookup]
  | cons e l ih =>
    obtain ⟨a, w⟩ := e
    rw [map_cons, nodup_cons] at hl
    by_cases h : a = k
    · subst h
      have hn : (a, v) ∉ l := fun hm => hl.1 (mem_map.2 ⟨(a, v), hm, rfl⟩)
      simp only [lookup, if_pos, Option.some.injEq, mem_cons, Prod.mk.injEq, true_and, hn, or_false]
      exact eq_comm
    · have : k ≠ a := fun hk => h hk.symm
      simp only [lookup, if_neg h, ih hl.2, mem_cons, Prod.mk.injEq, this, false_and, false_or]

theorem map_fst_put (l : List (κ × ν)) (k : κ) (v : ν) :
    (put l k v).map Prod.fst = if k ∈ l.map Prod.fst then l.map Prod.fst else l.map Prod.fst ++ [k] := by
  induction l with
  | nil => simp [put]
  | cons e l ih =>
    obtain ⟨a, w⟩ := e
    by_cases h : a = k
    · simp [put, h]
    · have hk : k ≠ a := fun hk => h hk.symm
      simp only [put, if_neg h, map_cons, mem_cons, hk, false_or, ih]
      split <;> rfl

theorem nodup_put (hl : (l.map Prod.fst).Nodup) (k : κ) (v : ν) : ((put l k v).map Prod.fst).Nodup := by
  rw [map_fst_put]
  split
  next => exact hl
  next h => exact hl.append (by simp) (by simpa using h)

variable (l)

theorem del_sublist (k : κ) : (del l k).Sublist l := by
  induction l with
  | nil => simp [del]
  | cons e l ih =>
    obtain ⟨a, w⟩ := e
    rw [del]
    split
    · exact sublist_cons_self _ _
    · exact ih.cons_cons _

theorem map_fst_del (k : κ) : (del l k).map Prod.fst = (l.map Prod.fst).erase k := by
  induction l with
  | nil => rfl
  | cons e l ih =>
    obtain ⟨a, w⟩ := e
    by_cases h : a = k
    · simp [del, h]
    · simp [del, h, ih]

theorem lookup_put (k : κ) (v : ν) (j : κ) : lookup (put l k v) j = if j = k then some v else lookup l j := by
  induction l with
  | nil => simp only [put, lookup, eq_comm]
  | cons e l ih =>
    obtain ⟨a, w⟩ := e
    by_cases h : a = k
    · by_cases hj : a = j <;> grind [put, lookup]
    · by_cases hj : a = j <;> grind [put, lookup]

variable {l}

theorem lookup_del (hl : (l.map Prod.fst).Nodup) (k j : κ) :
    lookup (del l k) j = if j = k then none else lookup l j := by
  induction l with
  | nil => simp [del, lookup]
  | cons e l ih =>
    obtain ⟨a, w⟩ := e
    rw [map_cons, nodup_cons] at hl
    by_cases h : a = k
    · subst h
      by_cases hj : j = a
      · rw [del, if_pos rfl, if_pos hj, hj]
        exact lookup_eq_none.2 hl.1
      · have : a ≠ j := fun hk => hj hk.symm
        rw [del, if_pos rfl, if_neg hj, lookup, if_neg this]
    · by_cases hj : a = j
      · have : j ≠ k := hj ▸ h
        simp only [del, if_neg h, lookup, if_pos hj, if_neg this]
      · simp only [del, if_neg h, lookup, if_neg hj, ih hl.2]

theorem length_del {k : κ} (h : k ∈ l.map Prod.fst) : (del l k).length + 1 = l.length := by
  induction l with
  | nil => simp at h
  | cons e l ih =>
    obtain ⟨a, w⟩ := e
    by_cases ha : a = k
    · simp [del, ha]
    · have hk : k ≠ a := fun hk => ha hk.symm
      simp only [map_cons, mem_cons, hk, false_or] at h
      simp only [del, if_neg ha, length_cons, ih h]

theorem del_of_notMem {k : κ} (h : k ∉ l.map Prod.fst) : del l k = l := by
  induction l with
  | nil => rfl
  | cons e l ih =>
    obtain ⟨a, w⟩ := e
    simp only [map_cons, mem_cons, not_or] at h
    have ha : a ≠ k := fun ha => h.1 ha.symm
    rw [del, if_neg ha, ih h.2]

def get? (d : Dict κ ν) (k : κ) : Option ν := lookup d.entries k

def set (d : Dict κ ν) (k : κ) (v : ν) : Dict κ ν := ⟨put d.entries k v, nodup_put d.nodup k v⟩

def pop (d : Dict κ ν) (k : κ) : Dict κ ν := ⟨del d.entries k, d.nodup.sublist ((del_sublist _ _).map _)⟩

variable {d : Dict κ ν} {k : κ} {v : ν}

@[simp, grind =] theorem get?_empty (k : κ) : (empty : Dict κ ν).get? k = none := rfl

@[grind =] theorem get?_set (d : Dict κ ν) (k : κ) (v : ν) (j : κ) :
    (d.set k v).get? j = if j = k then some v else d.get? j :=
  lookup_put _ _ _ _

@[simp] theorem get?_set_self (d : Dict κ ν) (k : κ) (v : ν) : (d.set k v).get? k = some v := by
  rw [get?_set, if_pos rfl]

theorem get?_set_of_ne (h : j ≠ k) : (d.set k v).get? j = d.get? j := by
  rw [get?_set, if_neg h]

theorem get?_set_eq_none : (d.set k v).get? j = none ↔ j ≠ k ∧ d.get? j = none := by
  rw [get?_set]
  split <;> simp_all

variable (l k)

theorem put_put (v w : ν) : put (put l k v) k w = put l k w := by
  induction l with
  | nil => simp [put]
  | cons e l ih =>
    obtain ⟨a, u⟩ := e
    by_cases h : a = k
    · simp only [put, if_pos h]
    · simp only [put, if_neg h, ih]

@[simp] theorem set_set (d : Dict κ ν) (k : κ) (v w : ν) : (d.set k v).set k w = d.set k w := by
  have := put_put d.entries k v w
  simp [set, this]

theorem del_put (v : ν) : del (put l k v) k = del l k := by
  induction l with
  | nil => simp [put, del]
  | cons e l ih =>
    obtain ⟨a, u⟩ := e
    by_cases h : a = k
    · simp only [put, del, if_pos h]
    · simp only [put, del, if_neg h, ih]

variable {l k}

@[simp] theorem pop_set (d : Dict κ ν) (k : κ) (v : ν) : (d.set k v).pop k = d.pop k := by
  have := del_put d.entries k v
  simp [set, pop, this]

@[grind =] theorem get?_pop (d : Dict κ ν) (k j : κ) : (d.pop k).get? j = if j = k then none else d.get? j :=
  lookup_del d.nodup _ _

@[simp] theorem get?_pop_self (d : Dict κ ν) (k : κ) : (d.pop k).get? k = none := by
  rw [get?_pop, if_pos rfl]

theorem get?_pop_of_ne (h : j ≠ k) : (d.pop k).get? j = d.get? j := by
  rw [get?_pop, if_neg h]

theorem get?_eq_none : d.get? k = none ↔ k ∉ d.keys :=
  lookup_eq_none

theorem get?_eq_some : d.get? k = some v ↔ (k, v) ∈ d.entries :=
  lookup_eq_some d.nodup

theorem mem_keys : k ∈ d.keys ↔ (d.get? k).isSome := by
  rw [Option.isSome_iff_ne_none, ne_eq, get?_eq_none, not_not]

theorem keys_set_of_none (h : d.get? k = none) : (d.set k v).keys = d.keys ++ [k] :=
  (map_fst_put d.entries k v).trans (if_neg (get?_eq_none.1 h))

theorem keys_set_of_some (h : d.get? k = some w) : (d.set k v).keys = d.keys :=
  (map_fst_put d.entries k v).trans (if_pos (mem_keys.2 (by simp [h])))

theorem keys_pop (d : Dict κ ν) (k : κ) : (d.pop k).keys = d.keys.erase k := map_fst_del _ _

theorem len_set_of_none (h : d.get? k = none) : (d.set k v).len = d.len + 1 := by
  rw [len_eq_length_keys, len_eq_length_keys, keys_set_of_none h]
  simp

theorem len_set_of_some (h : d.get? k = some w) : (d.set k v).len = d.len := by
  rw [len_eq_length_keys, len_eq_length_keys, keys_set_of_some h]

theorem len_pop_of_some (h : d.get? k = some v) : (d.pop k).len + 1 = d.len :=
  length_del (mem_keys.2 (by simp [h]))

theorem get?_of_len_eq_zero (h : d.len = 0) (k : κ) : d.get? k = none := by
  rw [get?_eq_none, keys, length_eq_zero_iff.1 h]
  simp

theorem pop_of_none (h : d.get? k = none) : d.pop k = d := by
  have : del d.entries k = d.entries := del_of_notMem (get?_eq_none.1 h)
  cases d
  simp_all [pop]

/-! ### Sums over the entries -/

section Sums
variable {M : Type} [AddCommMonoid M]

theorem sum_put (f : κ → ν → M) (l : List (κ × ν)) (k : κ) (v : ν) :
    ((put l k v).map fun e => f e.1 e.2).sum + (lookup l k).elim 0 (f k) = (l.map fun e => f e.1 e.2).sum + f k v := by
  induction l with
  | nil => simp [put, lookup]
  | cons e l ih =>
    obtain ⟨a, w⟩ := e
    by_cases h : a = k
    · subst h
      simp only [put, lookup, if_pos, map_cons, sum_cons, Option.elim_some]
      rw [add_right_comm, add_comm (f a v), add_right_comm]
    · simp only [put, lookup, if_neg h, map_cons, sum_cons, add_assoc, ih]

theorem sum_del (f : κ → ν → M) (l : List (κ × ν)) (k : κ) :
    ((del l k).map fun e => f e.1 e.2).sum + (lookup l k).elim 0 (f k) = (l.map fun e => f e.1 e.2).sum := by
  induction l with
  | nil => simp [del, lookup]
  | cons e l ih =>
    obtain ⟨a, w⟩ := e
    by_cases h : a = k
    · subst h
      simp only [del, lookup, if_pos, map_cons, sum_cons, Option.elim_some, add_comm]
    · simp only [del, lookup, if_neg h, map_cons, sum_cons, add_assoc, ih]

end Sums

def sum (d : Dict κ ν) (f : κ → ν → Int) : Int := (d.entries.map fun e => f e.1 e.2).sum

theorem sum_set_of_none (f : κ → ν → Int) (h : d.get? k = none) : (d.set k v).sum f = d.sum f + f k v := by
  have hput : (d.set k v).sum f + (d.get? k).elim 0 (f k) = d.sum f + f k v := sum_put f _ _ _
  simpa [h] using hput

theorem sum_set_of_some (f : κ → ν → Int) (h : d.get? k = some w) (hf : f k v = f k w) :
    (d.set k v).sum f = d.sum f := by
  have hput : (d.set k v).sum f + (d.get? k).elim 0 (f k) = d.sum f + f k v := sum_put f _ _ _
  rw [h, Option.elim_some, hf] at hput
  exact add_right_cancel hput

theorem sum_pop (f : κ → ν → Int) : (d.pop k).sum f + (d.get? k).elim 0 (f k) = d.sum f := sum_del f _ _

def total (d : Dict κ ν) (f : ν → Nat) : Nat := (d.entries.map fun e => f e.2).sum

theorem total_set (f : ν → Nat) : (d.set k v).total f + (d.get? k).elim 0 f = d.total f + f v :=
  sum_put (fun _ => f) _ _ _

theorem total_pop (f : ν → Nat) : (d.pop k).total f + (d.get? k).elim 0 f = d.total f := sum_del (fun _ => f) _ _

theorem total_eq_len_iff {f : ν → Nat} (hf : ∀ k v, d.get? k = some v → f v ≤ 1) :
    d.total f = d.len ↔ ∀ k v, d.get? k = some v → f v = 1 := by
  have hsum : ∀ l : List (κ × ν), (∀ e ∈ l, f e.2 ≤ 1) →
      (l.map fun e => f e.2).sum ≤ l.length ∧
        ((l.map fun e => f e.2).sum = l.length ↔ ∀ e ∈ l, f e.2 = 1) := fun l => by
    induction l with
    | nil => simp
    | cons e l ih =>
      intro hl
      obtain ⟨h₁, h₂⟩ := ih fun e he => hl e (by simp [he])
      have := hl e (by simp)
      simp only [map_cons, sum_cons, length_cons, forall_mem_cons, ← h₂]
      omega
  refine (hsum d.entries fun e he => hf e.1 e.2 (get?_eq_some.2 he)).2.trans
    ⟨fun h k v hk => h (k, v) (get?_eq_some.1 hk), fun h e he => ?_⟩
  exact h e.1 e.2 (get?_eq_some.2 he)

end Dict

end Xmix
