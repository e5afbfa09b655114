import Mathlib.Data.List.Perm.Basic
import Mathlib.Order.Lattice
import Mathlib.Order.Defs.LinearOrder
import Mathlib.Tactic.Common

/-!
# Binary heaps in a list, with a comparison that may raise

The functions of Python's `heapq`: the children of position `i` are at `2 * i + 1` and `2 * i + 2`,
a new element moves up by exchanges with its parents, and an element at the root moves down to a
leaf and up again. `none` is an exception of the comparison. Whatever the comparison answers, the
elements stay the same; if it compares keys of a linear order, nothing is raised, the list stays in
heap order and the root has the least key.
-/

namespace Xmix.Heap

open List Option

variable {α : Type}

def swap (l : List α) (i j : Nat) : List α :=
  match l[i]?, l[j]? with
  | some a, some b => (l.set i b).set j a
  | _, _ => l

def parent (i : Nat) : Nat := (i - 1) / 2

section Functions
variable (lt : α → α → Option Bool)

def lessAt (l : List α) (i j : Nat) : Option Bool := l[i]?.bind fun a => l[j]?.bind fun b => lt a b

def siftdown (startpos : Nat) : Nat → List α → Nat → Option (List α)
  | 0, l, _ => some l
  | rounds + 1, l, pos =>
    if startpos < pos then
      (lessAt lt l pos (parent pos)).bind fun less =>
        if less then siftdown startpos rounds (swap l pos (parent pos)) (parent pos) else some l
    else some l

def childpos (l : List α) (pos : Nat) : Option Nat :=
  if 2 * pos + 2 < l.length then
    (lessAt lt l (2 * pos + 1) (2 * pos + 2)).map fun less => if less then 2 * pos + 1 else 2 * pos + 2
  else some (2 * pos + 1)

def sink : Nat → List α → Nat → Option (List α × Nat)
  | 0, l, pos => some (l, pos)
  | rounds + 1, l, pos =>
    if 2 * pos + 1 < l.length then
      (childpos lt l pos).bind fun child => sink rounds (swap l pos child) child
    else some (l, pos)

def siftup (l : List α) (pos : Nat) : Option (List α) :=
  (sink lt l.length l pos).bind fun x => siftdown lt pos x.2 x.1 x.2

def heappush (l : List α) (a : α) : Option (List α) := siftdown lt 0 l.length (l ++ [a]) l.length

def heappop (l : List α) : Option (Option (α × List α)) :=
  match l with
  | [] => some none
  | [a] => some (some (a, []))
  | a :: b :: l => (siftup lt ((b :: l).getLast (cons_ne_nil b l) :: (b :: l).dropLast) 0).map fun l' => some (a, l')

def heapifyLoop : Nat → List α → Option (List α)
  | 0, l => some l
  | n + 1, l => (siftup lt l n).bind fun l' => heapifyLoop n l'

def heapify (l : List α) : Option (List α) := heapifyLoop lt (l.length / 2) l

def popAll : Nat → List α → Option (List α)
  | 0, _ => some []
  | rounds + 1, l => (heappop lt l).bind fun
    | none => some []
    | some (a, l') => (popAll rounds l').map (a :: ·)

end Functions

/-! ### The elements -/

variable {lt : α → α → Option Bool} {l l' : List α} {i j k pos start rounds : Nat}

theorem swap_perm (l : List α) (i j : Nat) : (swap l i j).Perm l := by
  rw [swap]
  split
  next a b ha hb =>
    obtain ⟨hi, rfl⟩ := List.getElem?_eq_some_iff.1 ha
    obtain ⟨hj, rfl⟩ := List.getElem?_eq_some_iff.1 hb
    exact set_set_perm hi hj
  next => exact .refl l

theorem siftdown_perm (h : siftdown lt start rounds l pos = some l') : l'.Perm l := by
  induction rounds generalizing l pos with
  | zero =>
    cases h
    exact .refl _
  | succ rounds ih =>
    rw [siftdown] at h
    split at h
    · obtain ⟨less, -, h⟩ := bind_eq_some_iff.1 h
      split at h
      · exact (ih h).trans (swap_perm l pos (parent pos))
      · cases h
        exact .refl _
    · cases h
      exact .refl _

theorem sink_perm {p : Nat} (h : sink lt rounds l pos = some (l', p)) : l'.Perm l := by
  induction rounds generalizing l pos with
  | zero =>
    cases h
    exact .refl _
  | succ rounds ih =>
    rw [sink] at h
    split at h
    · obtain ⟨child, -, h⟩ := bind_eq_some_iff.1 h
      exact (ih h).trans (swap_perm l pos child)
    · cases h
      exact .refl _

theorem siftup_perm (h : siftup lt l pos = some l') : l'.Perm l := by
  obtain ⟨⟨l₁, p⟩, hsink, h⟩ := bind_eq_some_iff.1 h
  exact (siftdown_perm h).trans (sink_perm hsink)

variable {a : α}

theorem heappush_perm (h : heappush lt l a = some l') : l'.Perm (a :: l) :=
  (siftdown_perm h).trans (perm_append_singleton a l)

theorem getLast_cons_dropLast_perm {l : List α} (hl : l ≠ []) : (l.getLast hl :: l.dropLast).Perm l := by
  refine (perm_append_singleton (l.getLast hl) l.dropLast).symm.trans ?_
  rw [dropLast_append_getLast hl]

theorem heappop_perm (h : heappop lt l = some (some (a, l'))) : (a :: l').Perm l := by
  rcases l with - | ⟨x, - | ⟨b, l⟩⟩
  · cases h
  · cases h
    exact .refl _
  · obtain ⟨l₁, hl₁, h⟩ := map_eq_some_iff.1 h
    cases h
    exact ((siftup_perm hl₁).trans (getLast_cons_dropLast_perm _)).cons a

theorem heapifyLoop_perm {n : Nat} (h : heapifyLoop lt n l = some l') : l'.Perm l := by
  induction n generalizing l with
  | zero =>
    cases h
    exact .refl _
  | succ n ih =>
    obtain ⟨l₁, hl₁, h⟩ := bind_eq_some_iff.1 h
    exact (ih h).trans (siftup_perm hl₁)

theorem heapify_perm (h : heapify lt l = some l') : l'.Perm l := heapifyLoop_perm h

/-! ### Positions -/

theorem parent_lt (h : 0 < i) : parent i < i := by
  unfold parent
  omega

theorem parent_eq_iff (h : 0 < i) : parent i = k ↔ i = 2 * k + 1 ∨ i = 2 * k + 2 := by
  unfold parent
  omega

inductive Path (start : Nat) : Nat → Prop
  | refl : Path start start
  | child {i : Nat} (hi : 0 < i) (h : Path start (parent i)) : Path start i

theorem Path.le (h : Path start pos) : start ≤ pos := by
  induction h with
  | refl => exact Nat.le_refl _
  | child hi _ ih => exact ih.trans (parent_lt hi).le

theorem Path.parent (h : Path start pos) (hpos : start < pos) : Path start (Heap.parent pos) := by
  cases h with
  | refl => exact absurd hpos (Nat.lt_irrefl _)
  | child _ h => exact h

theorem path_zero (i : Nat) : Path 0 i := by
  induction i using Nat.strong_induction_on with
  | _ i ih =>
    rcases Nat.eq_zero_or_pos i with rfl | hi
    · exact .refl
    · exact .child hi (ih _ (parent_lt hi))

def exch (i j k : Nat) : Nat := if k = i then j else if k = j then i else k

theorem getElem?_swap (hi : i < l.length) (hj : j < l.length) (k : Nat) : (swap l i j)[k]? = l[exch i j k]? := by
  have hswap : swap l i j = (l.set i l[j]).set j l[i] := by
    rw [swap, getElem?_eq_getElem hi, getElem?_eq_getElem hj]
  rw [hswap, exch, getElem?_set, getElem?_set, length_set]
  by_cases hki : k = i
  · subst hki
    rw [if_pos rfl, if_pos rfl, if_pos hi, getElem?_eq_getElem hj]
    split
    next hjk => simp [hjk]
    next => rfl
  · rw [if_neg hki, if_neg (Ne.symm hki)]
    by_cases hkj : k = j
    · rw [if_pos hkj, if_pos hkj.symm, if_pos hj, getElem?_eq_getElem hi]
    · rw [if_neg hkj, if_neg (Ne.symm hkj)]

/-! ### The order -/

section Order
variable {κ : Type} [LinearOrder κ] (key : α → κ)

def Compares (lt : α → α → Option Bool) (l : List α) : Prop := ∀ a ∈ l, ∀ b ∈ l, lt a b = some (decide (key a < key b))

def Le (l : List α) (i j : Nat) : Prop := ∀ a b, l[i]? = some a → l[j]? = some b → key a ≤ key b

def OrderedFrom (l : List α) (start : Nat) : Prop := ∀ i, 0 < i → start ≤ parent i → Le key l (parent i) i

structure UpOrder (l : List α) (start pos : Nat) : Prop where
  path : Path start pos
  off : ∀ i, 0 < i → start ≤ parent i → i ≠ pos → Le key l (parent i) i
  grand : start < pos → ∀ c, 0 < c → parent c = pos → Le key l (parent pos) c

structure DownOrder (l : List α) (start pos : Nat) : Prop where
  path : Path start pos
  off : ∀ i, 0 < i → start ≤ parent i → i ≠ pos → parent i ≠ pos → Le key l (parent i) i
  grand : start < pos → ∀ c, 0 < c → parent c = pos → Le key l (parent pos) c

variable {key}

theorem Compares.perm (h : Compares key lt l) (hl : l'.Perm l) : Compares key lt l' :=
  fun a ha b hb => h a (hl.mem_iff.1 ha) b (hl.mem_iff.1 hb)

theorem Compares.lessAt (h : Compares key lt l) (hi : i < l.length) (hj : j < l.length) :
    lessAt lt l i j = some (decide (key l[i] < key l[j])) := by
  rw [Heap.lessAt, getElem?_eq_getElem hi, getElem?_eq_getElem hj]
  exact h _ (getElem_mem hi) _ (getElem_mem hj)

theorem le_iff (hi : i < l.length) (hj : j < l.length) : Le key l i j ↔ key l[i] ≤ key l[j] := by
  simp [Le, getElem?_eq_getElem hi, getElem?_eq_getElem hj]

theorem Le.trans (h : Le key l i j) (h' : Le key l j k) (hj : j < l.length) : Le key l i k := fun a c ha hc =>
  (h a _ ha (getElem?_eq_getElem hj)).trans (h' _ c (getElem?_eq_getElem hj) hc)

theorem le_of_length_le (h : l.length ≤ j) : Le key l i j := fun a b _ hb => by
  rw [getElem?_eq_none h] at hb
  cases hb

theorem le_swap (hi : i < l.length) (hj : j < l.length) {a b : Nat} :
    Le key (swap l i j) a b ↔ Le key l (exch i j a) (exch i j b) := by
  rw [Le, Le, getElem?_swap hi hj, getElem?_swap hi hj]

/-! ### Towards the start -/

section
variable (h : UpOrder key l start pos)
include h

theorem UpOrder.move (hpos : start < pos) (hlen : pos < l.length) (hlt : Le key l pos (parent pos)) :
    UpOrder key (swap l pos (parent pos)) start (parent pos) := by
  have hp : parent pos < pos := parent_lt (Nat.zero_lt_of_lt hpos)
  have hpath := h.path.parent hpos
  have hplen : parent pos < l.length := hp.trans hlen
  refine ⟨hpath, fun i hi hs hne => ?_, fun hsp c hc hcp => ?_⟩
  · have hpi := parent_lt hi
    rw [le_swap hlen hplen]
    by_cases hip : i = pos
    · subst hip
      rw [exch, exch, if_neg hp.ne, if_pos rfl, if_pos rfl]
      exact hlt
    · rw [show exch pos (parent pos) i = i by rw [exch, if_neg hip, if_neg hne]]
      by_cases hparpos : parent i = pos
      · rw [hparpos, exch, if_pos rfl]
        exact h.grand hpos i hi hparpos
      · by_cases hpar : parent i = parent pos
        · rw [hpar, exch, if_neg hp.ne, if_pos rfl]
          have hsib := h.off i hi hs hip
          rw [hpar] at hsib
          exact hlt.trans hsib hplen
        · rw [exch, if_neg hparpos, if_neg hpar]
          exact h.off i hi hs hip
  · have hp0 : 0 < parent pos := Nat.zero_lt_of_lt hsp
    have hpp := parent_lt hp0
    have hup := h.off (parent pos) hp0 (hpath.parent hsp).le hp.ne
    rw [le_swap hlen hplen, show exch pos (parent pos) (parent (parent pos)) = parent (parent pos) by
      rw [exch, if_neg (hpp.trans hp).ne, if_neg hpp.ne]]
    by_cases hcpos : c = pos
    · rw [hcpos, exch, if_pos rfl]
      exact hup
    · have hcne : c ≠ parent pos := fun hc' => by
        have := parent_lt hc
        omega
      rw [exch, if_neg hcpos, if_neg hcne]
      have hsib := h.off c hc (hcp ▸ hpath.le) hcpos
      rw [hcp] at hsib
      exact hup.trans hsib hplen

theorem UpOrder.finish (hpos : start < pos → Le key l (parent pos) pos) : OrderedFrom key l start := by
  intro i hi hs
  by_cases hip : i = pos
  · subst hip
    exact hpos (hs.trans_lt (parent_lt hi))
  · exact h.off i hi hs hip

theorem UpOrder.siftdown (hlen : pos < l.length) (hcmp : Compares key lt l) (hrounds : pos ≤ rounds) :
    ∃ l', siftdown lt start rounds l pos = some l' ∧ OrderedFrom key l' start := by
  induction rounds generalizing l pos with
  | zero => exact ⟨l, rfl, h.finish fun hpos => absurd hpos (by omega)⟩
  | succ rounds ih =>
    by_cases hpos : start < pos
    · have hp : Heap.parent pos < pos := parent_lt (Nat.zero_lt_of_lt hpos)
      have hplen : Heap.parent pos < l.length := hp.trans hlen
      rw [Heap.siftdown, if_pos hpos, hcmp.lessAt hlen hplen, bind_some]
      by_cases hless : key l[pos] < key l[Heap.parent pos]
      · rw [decide_eq_true hless, if_pos rfl]
        have hperm := swap_perm l pos (Heap.parent pos)
        exact ih (h.move hpos hlen ((le_iff hlen hplen).2 hless.le)) (hperm.length_eq ▸ hplen)
          (hcmp.perm hperm) (by omega)
      · rw [decide_eq_false hless]
        exact ⟨l, rfl, h.finish fun _ => (le_iff hplen hlen).2 (not_lt.1 hless)⟩
    · rw [Heap.siftdown, if_neg hpos]
      exact ⟨l, rfl, h.finish fun hpos' => absurd hpos' hpos⟩

end

/-! ### Down to a leaf -/

theorem Compares.childpos (hcmp : Compares key lt l) (hlen : 2 * pos + 1 < l.length) :
    ∃ c, childpos lt l pos = some c ∧ c < l.length ∧ parent c = pos ∧ 0 < c ∧ ∀ d, 0 < d →
      parent d = pos → Le key l c d := by
  have hpar : ∀ d, d = 2 * pos + 1 ∨ d = 2 * pos + 2 → parent d = pos ∧ 0 < d := fun d hd => by
    have hd0 : 0 < d := by omega
    exact ⟨(parent_eq_iff hd0).2 hd, hd0⟩
  have hself : ∀ c, Le key l c c := fun c a b ha hb => by
    rw [ha] at hb
    cases hb
    exact le_rfl
  rw [Heap.childpos]
  by_cases hright : 2 * pos + 2 < l.length
  · rw [if_pos hright, hcmp.lessAt hlen hright, map_some]
    by_cases hless : key l[2 * pos + 1] < key l[2 * pos + 2]
    · rw [decide_eq_true hless, if_pos rfl]
      refine ⟨_, rfl, hlen, (hpar _ (.inl rfl)).1, (hpar _ (.inl rfl)).2, fun d hd hdp => ?_⟩
      rcases (parent_eq_iff hd).1 hdp with rfl | rfl
      · exact hself _
      · exact (le_iff hlen hright).2 hless.le
    · rw [decide_eq_false hless]
      refine ⟨_, rfl, hright, (hpar _ (.inr rfl)).1, (hpar _ (.inr rfl)).2, fun d hd hdp => ?_⟩
      rcases (parent_eq_iff hd).1 hdp with rfl | rfl
      · exact (le_iff hright hlen).2 (not_lt.1 hless)
      · exact hself _
  · rw [if_neg hright]
    refine ⟨_, rfl, hlen, (hpar _ (.inl rfl)).1, (hpar _ (.inl rfl)).2, fun d hd hdp => ?_⟩
    rcases (parent_eq_iff hd).1 hdp with rfl | rfl
    · exact hself _
    · exact le_of_length_le (not_lt.1 hright)

section
variable (h : DownOrder key l start pos)
include h

theorem DownOrder.move {c : Nat} (hlen : c < l.length) (hc : 0 < c) (hcp : parent c = pos)
    (hmin : ∀ d, 0 < d → parent d = pos → Le key l c d) : DownOrder key (swap l pos c) start c := by
  have hpc : pos < c := hcp ▸ parent_lt hc
  have hplen : pos < l.length := hpc.trans hlen
  refine ⟨.child hc (hcp ▸ h.path), fun i hi hs hne hpar => ?_, fun hsc d hd hdc => ?_⟩
  · have hpi := parent_lt hi
    rw [le_swap hplen hlen]
    by_cases hip : i = pos
    · subst hip
      rw [show exch i c (parent i) = parent i by rw [exch, if_neg hpi.ne, if_neg (hpi.trans hpc).ne], exch, if_pos rfl]
      exact h.grand (hs.trans_lt hpi) c hc hcp
    · rw [show exch pos c i = i by rw [exch, if_neg hip, if_neg hne]]
      by_cases hparpos : parent i = pos
      · rw [hparpos, exch, if_pos rfl]
        exact hmin i hi hparpos
      · rw [exch, if_neg hparpos, if_neg hpar]
        exact h.off i hi hs hip hparpos
  · have hcd : c < d := hdc ▸ parent_lt hd
    rw [le_swap hplen hlen, hcp, exch, if_pos rfl, exch, if_neg (hpc.trans hcd).ne', if_neg hcd.ne']
    have hoff := h.off d hd (hdc ▸ h.path.le.trans hpc.le) (hpc.trans hcd).ne' (hdc ▸ hpc.ne')
    rwa [hdc] at hoff

theorem DownOrder.up (hleaf : l.length ≤ 2 * pos + 1) : UpOrder key l start pos := by
  refine ⟨h.path, fun i hi hs hne => ?_, h.grand⟩
  by_cases hpar : parent i = pos
  · refine le_of_length_le ?_
    have := (parent_eq_iff hi).1 hpar
    omega
  · exact h.off i hi hs hne hpar

theorem DownOrder.sink (hlen : pos < l.length) (hcmp : Compares key lt l) (hrounds : l.length ≤ pos + rounds) :
    ∃ l' p, sink lt rounds l pos = some (l', p) ∧ UpOrder key l' start p ∧ p < l'.length := by
  induction rounds generalizing l pos with
  | zero => exact absurd hlen (by omega)
  | succ rounds ih =>
    rw [Heap.sink]
    by_cases hchild : 2 * pos + 1 < l.length
    · obtain ⟨c, hc, hclen, hcp, hc0, hmin⟩ := hcmp.childpos hchild
      rw [if_pos hchild, hc, bind_some]
      have hpc : pos < c := hcp ▸ parent_lt hc0
      have hperm := swap_perm l pos c
      refine ih (h.move hclen hc0 hcp hmin) (hperm.length_eq ▸ hclen) (hcmp.perm hperm) ?_
      rw [hperm.length_eq]
      omega
    · rw [if_neg hchild]
      exact ⟨l, pos, rfl, h.up (by omega), hlen⟩

end

/-! ### The operations -/

theorem siftup_ordered (hcmp : Compares key lt l) (hlen : pos < l.length) (h : OrderedFrom key l (pos + 1)) :
    ∃ l', siftup lt l pos = some l' ∧ OrderedFrom key l' pos := by
  have hdown : DownOrder key l pos pos := by
    refine ⟨.refl, fun i hi hs hne hpar => ?_, fun hpos => absurd hpos (Nat.lt_irrefl _)⟩
    exact h i hi (by omega)
  obtain ⟨l₁, p, hsink, hup, hp⟩ := hdown.sink hlen hcmp (Nat.le_add_left _ _)
  obtain ⟨l', hl', hord⟩ := hup.siftdown hp (hcmp.perm (sink_perm hsink)) (Nat.le_refl p)
  exact ⟨l', by rw [siftup, hsink]; exact hl', hord⟩

theorem heappush_ordered (hcmp : Compares key lt (a :: l)) (h : OrderedFrom key l 0) :
    ∃ l', heappush lt l a = some l' ∧ OrderedFrom key l' 0 := by
  have hlen : l.length < (l ++ [a]).length := by simp
  have hup : UpOrder key (l ++ [a]) 0 l.length := by
    refine ⟨path_zero _, fun i hi _ hne => ?_, fun _ c hc hcp => ?_⟩
    · rcases Nat.lt_or_ge i l.length with hil | hil
      · intro x y hx hy
        rw [getElem?_append_left ((parent_lt hi).trans hil)] at hx
        rw [getElem?_append_left hil] at hy
        exact h i hi (Nat.zero_le _) x y hx hy
      · refine le_of_length_le ?_
        rw [length_append, length_singleton]
        omega
    · refine le_of_length_le ?_
      have := parent_lt hc
      rw [length_append, length_singleton]
      omega
  exact hup.siftdown hlen (hcmp.perm (perm_append_singleton a l)) (Nat.le_refl _)

theorem root_le {a b : α} (h : OrderedFrom key l 0) (ha : l.head? = some a) (hb : b ∈ l) : key a ≤ key b := by
  obtain ⟨i, hi, rfl⟩ := getElem_of_mem hb
  rw [head?_eq_getElem?] at ha
  induction i using Nat.strong_induction_on with
  | _ i ih =>
    rcases Nat.eq_zero_or_pos i with rfl | hpos
    · rw [getElem?_eq_getElem hi] at ha
      cases ha
      exact le_rfl
    · have hp := parent_lt hpos
      exact (ih (parent i) hp (hp.trans hi) (getElem_mem _)).trans
        ((le_iff (hp.trans hi) hi).1 (h i hpos (Nat.zero_le _)))

theorem heappop_ordered (hcmp : Compares key lt (a :: l)) (h : OrderedFrom key (a :: l) 0) :
    ∃ l', heappop lt (a :: l) = some (some (a, l')) ∧ OrderedFrom key l' 0 ∧ ∀ b ∈ a :: l, key a ≤ key b := by
  have hroot : ∀ b ∈ a :: l, key a ≤ key b := fun b hb => root_le h rfl hb
  rcases l with - | ⟨b, l⟩
  · exact ⟨[], rfl, fun i _ _ => le_of_length_le (Nat.zero_le i), hroot⟩
  · have hne : b :: l ≠ [] := cons_ne_nil b l
    have hperm := getLast_cons_dropLast_perm hne
    have hcmp' : Compares key lt ((b :: l).getLast hne :: (b :: l).dropLast) := fun x hx y hy =>
      hcmp x (mem_cons_of_mem a (hperm.mem_iff.1 hx)) y (mem_cons_of_mem a (hperm.mem_iff.1 hy))
    have hord : OrderedFrom key ((b :: l).getLast hne :: (b :: l).dropLast) 1 := by
      intro i hi hs x y hx hy
      -- behind the root the list is what it was, without its last element
      have hget : ∀ k z, 0 < k → ((b :: l).getLast hne :: (b :: l).dropLast)[k]? = some z →
        (a :: b :: l)[k]? = some z := by
        intro k z hk hz
        obtain ⟨k, rfl⟩ := Nat.exists_eq_succ_of_ne_zero hk.ne'
        rw [getElem?_cons_succ, getElem?_dropLast] at hz
        rw [getElem?_cons_succ]
        split at hz
        · exact hz
        · cases hz
      exact h i hi (Nat.zero_le _) x y (hget _ x (by omega) hx) (hget i y hi hy)
    obtain ⟨l', hl', hl'ord⟩ := siftup_ordered hcmp' (Nat.zero_lt_succ _) hord
    exact ⟨l', by rw [heappop, hl']; rfl, hl'ord, hroot⟩

theorem heapifyLoop_ordered {n : Nat} (hcmp : Compares key lt l) (hn : n ≤ l.length) (h : OrderedFrom key l n) :
    ∃ l', heapifyLoop lt n l = some l' ∧ OrderedFrom key l' 0 := by
  induction n generalizing l with
  | zero => exact ⟨l, rfl, h⟩
  | succ n ih =>
    obtain ⟨l₁, hl₁, hord⟩ := siftup_ordered hcmp hn h
    have hperm := siftup_perm hl₁
    obtain ⟨l', hl', hord'⟩ := ih (hcmp.perm hperm) (by rw [hperm.length_eq]; omega) hord
    exact ⟨l', by rw [heapifyLoop, hl₁]; exact hl', hord'⟩

theorem heapify_ordered (hcmp : Compares key lt l) : ∃ l', heapify lt l = some l' ∧ OrderedFrom key l' 0 := by
  refine heapifyLoop_ordered hcmp (Nat.div_le_self _ _) fun i hi hs => le_of_length_le ?_
  -- the second half has no children
  unfold parent at hs
  omega

theorem popAll_sorted (hcmp : Compares key lt l) (h : OrderedFrom key l 0) (hrounds : l.length ≤ rounds) :
    ∃ out, popAll lt rounds l = some out ∧ out.Perm l ∧ out.Pairwise fun a b => key a ≤ key b := by
  induction rounds generalizing l with
  | zero =>
    obtain rfl : l = [] := length_eq_zero_iff.1 (Nat.le_zero.1 hrounds)
    exact ⟨[], rfl, .refl [], .nil⟩
  | succ rounds ih =>
    rcases l with - | ⟨a, l⟩
    · exact ⟨[], rfl, .refl [], .nil⟩
    · obtain ⟨l', hpop, hord, hroot⟩ := heappop_ordered hcmp h
      have hperm := heappop_perm hpop
      have hl' : l'.Perm l := hperm.cons_inv
      have hcmp' : Compares key lt l' := fun x hx y hy =>
        hcmp x (mem_cons_of_mem a (hl'.mem_iff.1 hx)) y (mem_cons_of_mem a (hl'.mem_iff.1 hy))
      obtain ⟨out, hout, hperm', hsorted⟩ := ih hcmp' hord (by rw [hl'.length_eq]; exact Nat.le_of_succ_le_succ hrounds)
      refine ⟨a :: out, by rw [popAll, hpop, bind_some]; simp only [hout, map_some], (hperm'.trans hl').cons a, ?_⟩
      exact .cons (fun b hb => hroot b (mem_cons_of_mem a ((hperm'.trans hl').mem_iff.1 hb))) hsorted

end Order

end Xmix.Heap
