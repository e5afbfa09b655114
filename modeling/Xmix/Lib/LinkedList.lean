import Mathlib.Data.List.Chain
import Mathlib.Data.List.Nodup
import Mathlib.Logic.Function.Basic

/-!
# Doubly linked lists with a fake head and a fake tail

The links are two partial functions on nodes, as intrusive lists keep them in their elements. A list is spelled by links
when it stands between the fake head and the fake tail with both links right for every neighbouring pair.
-/

namespace Xmix

open Function List

inductive Node (α : Type) where
  | head
  | tail
  | item (a : α)
  deriving DecidableEq

structure Links (α : Type) where
  prev : Node α → Option (Node α)
  next : Node α → Option (Node α)

namespace Links

variable {α : Type} {L L' : Links α}

def Linked (L : Links α) (x y : Node α) : Prop := L.next x = some y ∧ L.prev y = some x

def Seg (L : Links α) (xs : List (Node α)) : Prop := xs.IsChain L.Linked

structure Spells (L : Links α) (l : List α) : Prop where
  seg : L.Seg (.head :: (l.map .item ++ [.tail]))
  nodup : l.Nodup

def none : Links α := ⟨fun _ => .none, fun _ => .none⟩

section

variable [DecidableEq α]

def connect (L : Links α) (x y : Node α) : Links α :=
  ⟨update L.prev y (some x), update L.next x (some y)⟩

def unlink (L : Links α) (x : Node α) : Links α :=
  ⟨update L.prev x .none, update L.next x .none⟩

def connectAll : List (Node α) → Links α → Links α
  | x :: y :: xs, L => connectAll (y :: xs) (L.connect x y)
  | _, L => L

def ofList (l : List α) : Links α := connectAll (.head :: (l.map .item ++ [.tail])) none

def appendLoop : List α → Node α → Links α → Node α × Links α
  | [], last, L => (last, L)
  | a :: l, last, L => appendLoop l (.item a) (L.connect last (.item a))

def popLoop : Nat → Option (Node α) → Links α → Option (List α × Option (Node α) × Links α)
  | 0, curr, L => some ([], curr, L)
  | n + 1, some (.item a), L => do
    let (l, curr, L') ← popLoop n (L.next (.item a)) (L.unlink (.item a))
    some (a :: l, curr, L')
  | _ + 1, _, _ => .none

end

variable {xs : List (Node α)}

theorem Seg.congr (h : L.Seg xs) (hn : ∀ x ∈ xs.dropLast, L'.next x = L.next x)
    (hp : ∀ y ∈ xs.tail, L'.prev y = L.prev y) : L'.Seg xs := by
  induction xs with
  | nil => exact .nil
  | cons x xs ih =>
    obtain - | ⟨y, ys⟩ := xs
    · exact .singleton _
    obtain ⟨hxy, hys⟩ := isChain_cons_cons.1 h
    refine isChain_cons_cons.2 ⟨⟨?_, ?_⟩, ih hys ?_ ?_⟩
    · rw [hn x (by simp)]
      exact hxy.1
    · rw [hp y (by simp)]
      exact hxy.2
    · exact fun z hz => hn z (by simp [hz])
    · exact fun z hz => hp z (by simpa using .inr hz)

variable {l : List α}

theorem nodup_nodes (h : l.Nodup) : (Node.head :: (l.map Node.item ++ [Node.tail])).Nodup := by
  have hmap : (l.map Node.item).Nodup := h.map fun _ _ hab => by simpa using hab
  simp [nodup_append', hmap]

theorem Spells.next_head {a : α} (h : L.Spells (a :: l)) : L.next .head = some (.item a) :=
  (isChain_cons_cons.1 h.seg).1.1

variable [DecidableEq α]

theorem linked_connect (L : Links α) (x y : Node α) : (L.connect x y).Linked x y := by
  simp [Linked, connect]

theorem Seg.unlink {x : Node α} (h : L.Seg xs) (hx : x ∉ xs) : (L.unlink x).Seg xs := by
  refine h.congr (fun y hy => ?_) (fun y hy => ?_)
  · have hyx : y ≠ x := fun hyx => hx (hyx ▸ (dropLast_subset _ hy))
    exact update_of_ne hyx _ _
  · have hyx : y ≠ x := fun hyx => hx (hyx ▸ mem_of_mem_tail hy)
    exact update_of_ne hyx _ _

theorem Seg.connect {xs ys : List (Node α)} {p s : Node α} (hx : L.Seg (xs ++ [p])) (hy : L.Seg (s :: ys))
    (hnd : (xs ++ p :: s :: ys).Nodup) : (L.connect p s).Seg (xs ++ p :: s :: ys) := by
  rw [nodup_append'] at hnd
  obtain ⟨-, hys, hdisj⟩ := hnd
  obtain ⟨hp, hs⟩ := nodup_cons.1 hys
  refine isChain_append_cons_cons.2 ⟨hx.congr ?_ ?_, linked_connect L p s, hy.congr ?_ ?_⟩
  · intro x hx
    rw [dropLast_concat] at hx
    have hxp : x ≠ p := fun hxp => hdisj hx (by simp [hxp])
    exact update_of_ne hxp _ _
  · intro x hx
    have hxs : x ≠ s := by
      rintro rfl
      rcases mem_append.1 (mem_of_mem_tail hx) with hx | hx
      · exact hdisj hx (by simp)
      · exact hp (by simp [mem_singleton.1 hx])
    exact update_of_ne hxs _ _
  · intro x hx
    have hxp : x ≠ p := fun hxp => hp (hxp ▸ (dropLast_subset _ hx))
    exact update_of_ne hxp _ _
  · intro x hx
    have hxs : x ≠ s := fun hxs => (nodup_cons.1 hs).1 (hxs ▸ hx)
    exact update_of_ne hxs _ _

theorem seg_connectAll {xs ys : List (Node α)} {x : Node α} (h : L.Seg (xs ++ [x])) (hnd : (xs ++ x :: ys).Nodup) :
    (connectAll (x :: ys) L).Seg (xs ++ x :: ys) := by
  induction ys generalizing xs x L with
  | nil => exact h
  | cons y ys ih =>
    have hnd' : (xs ++ x :: [y]).Nodup := hnd.sublist (Sublist.append_left (by simp) xs)
    have hseg : (L.connect x y).Seg ((xs ++ [x]) ++ [y]) := by
      simpa using h.connect (.singleton _) hnd'
    simpa [connectAll] using ih hseg (by simpa using hnd)

theorem spells_ofList (h : l.Nodup) : (ofList l).Spells l :=
  ⟨@seg_connectAll α none _ [] _ .head (.singleton _) (nodup_nodes h), h⟩

theorem popLoop_spec {n : Nat} {curr : Node α} (h : L.Seg (curr :: ys)) (hcurr : curr :: ys = l.map .item ++ [.tail])
    (hnd : l.Nodup) (hn : n ≤ l.length) :
    ∃ curr' ys' L', popLoop n (some curr) L = some (l.take n, some curr', L') ∧ L'.Seg (curr' :: ys') ∧
      curr' :: ys' = (l.drop n).map .item ++ [.tail] := by
  induction n generalizing l curr ys L with
  | zero => exact ⟨curr, ys, L, by simp [popLoop], h, hcurr⟩
  | succ n ih =>
    obtain - | ⟨a, l⟩ := l
    · simp at hn
    obtain ⟨rfl, rfl⟩ : curr = .item a ∧ ys = l.map .item ++ [.tail] := by simpa using hcurr
    obtain ⟨ha, hl⟩ := nodup_cons.1 hnd
    obtain ⟨s, zs, hs⟩ : ∃ s zs, l.map Node.item ++ [Node.tail] = s :: zs := by
      cases l <;> simp
    rw [hs] at h
    obtain ⟨hlink, hseg⟩ := isChain_cons_cons.1 h
    have hmem : Node.item a ∉ s :: zs := by
      rw [← hs]
      simpa using ha
    obtain ⟨curr', ys', L', hpop, hseg', heq⟩ := ih (Seg.unlink hseg hmem) hs.symm hl (by simpa using hn)
    refine ⟨curr', ys', L', ?_, hseg', heq⟩
    rw [popLoop, hlink.1, hpop]
    rfl

theorem Spells.pop {n : Nat} (h : L.Spells l) (hn : n ≤ l.length) :
    ∃ curr L', popLoop n (L.next .head) L = some (l.take n, some curr, L') ∧
      (L'.connect .head curr).Spells (l.drop n) := by
  obtain ⟨s, zs, hs⟩ : ∃ s zs, l.map Node.item ++ [Node.tail] = s :: zs := by
    cases l <;> simp
  have hseg := h.seg
  rw [hs] at hseg
  obtain ⟨hlink, hseg⟩ := isChain_cons_cons.1 hseg
  obtain ⟨curr, ys, L', hpop, hseg', heq⟩ := popLoop_spec hseg hs.symm h.nodup hn
  have hnd := h.nodup.sublist (drop_sublist n l)
  refine ⟨curr, L', by rw [hlink.1, hpop], ?_, hnd⟩
  have hnodes := nodup_nodes hnd
  rw [← heq] at hnodes ⊢
  exact @Seg.connect α L' _ [] ys .head curr (.singleton _) hseg' hnodes

theorem Spells.remove {a : α} (h : L.Spells l) (ha : a ∈ l) :
    ∃ p s, L.prev (.item a) = some p ∧ L.next (.item a) = some s ∧
      ((L.connect p s).unlink (.item a)).Spells (l.erase a) := by
  obtain ⟨l₁, l₂, rfl⟩ := append_of_mem ha
  have hnd := h.nodup
  have hnot : a ∉ l₁ := fun hmem => (nodup_append'.1 hnd).2.2 hmem (by simp)
  have herase : (l₁ ++ a :: l₂).erase a = l₁ ++ l₂ := by
    rw [erase_append_right _ hnot, erase_cons_head]
  obtain ⟨xs, p, hp⟩ : ∃ xs p, Node.head :: l₁.map Node.item = xs ++ [p] := by
    have : Node.head :: l₁.map Node.item ≠ [] := by simp
    exact ⟨_, _, (dropLast_append_getLast this).symm⟩
  obtain ⟨s, ys, hs⟩ : ∃ s ys, l₂.map Node.item ++ [Node.tail] = s :: ys := by
    cases l₂ <;> simp
  have hnodes : Node.head :: ((l₁ ++ a :: l₂).map Node.item ++ [Node.tail]) = xs ++ p :: .item a :: s :: ys := by
    rw [map_append, map_cons, append_assoc, cons_append, hs, ← cons_append, hp]
    simp
  have hrest : Node.head :: ((l₁ ++ l₂).map Node.item ++ [Node.tail]) = xs ++ p :: s :: ys := by
    rw [map_append, append_assoc, hs, ← cons_append, hp]
    simp
  have hseg := h.seg
  have hnd' := nodup_nodes hnd
  rw [hnodes] at hseg hnd'
  obtain ⟨hxs, hpa, hrest'⟩ := isChain_append_cons_cons.1 hseg
  obtain ⟨has, hys⟩ := isChain_cons_cons.1 hrest'
  refine ⟨p, s, hpa.2, has.1, ?_, ?_⟩
  · rw [herase, hrest]
    have hsub : (xs ++ p :: s :: ys).Sublist (xs ++ p :: .item a :: s :: ys) :=
      Sublist.append_left (.cons_cons _ (sublist_cons_self _ _)) xs
    refine Seg.unlink (Seg.connect hxs hys (hnd'.sublist hsub)) ?_
    rw [← hrest]
    have : a ∉ l₁ ++ l₂ := (nodup_middle.1 hnd).notMem
    simpa using this
  · exact hnd.erase a

theorem appendLoop_spec {last : Node α} (h : L.Seg (xs ++ [last]))
    (hnd : (xs ++ last :: l.map .item).Nodup) :
    ∃ ys, ys ++ [(appendLoop l last L).1] = xs ++ last :: l.map .item ∧
      (appendLoop l last L).2.Seg (xs ++ last :: l.map .item) := by
  induction l generalizing xs last L with
  | nil => exact ⟨xs, rfl, h⟩
  | cons a l ih =>
    have hsub : (xs ++ last :: [Node.item a]).Nodup := hnd.sublist (Sublist.append_left (by simp) xs)
    have hseg := h.connect (.singleton _) hsub
    have hseg' : (L.connect last (.item a)).Seg ((xs ++ [last]) ++ [.item a]) := by
      simpa using hseg
    simpa [appendLoop] using ih hseg' (by simpa using hnd)

theorem Spells.append {l l' : List α} (h : L.Spells l) (hnd : (l ++ l').Nodup) :
    ∃ last, L.prev .tail = some last ∧
      ((appendLoop l' last L).2.connect (appendLoop l' last L).1 .tail).Spells (l ++ l') := by
  obtain ⟨xs, p, hp⟩ : ∃ xs p, Node.head :: l.map Node.item = xs ++ [p] := by
    have : Node.head :: l.map Node.item ≠ [] := by simp
    exact ⟨_, _, (dropLast_append_getLast this).symm⟩
  have hseg := h.seg
  rw [← cons_append, hp, append_assoc] at hseg
  obtain ⟨hxs, hlink, -⟩ := isChain_append_cons_cons.1 hseg
  have hnodes : Node.head :: ((l ++ l').map Node.item ++ [Node.tail]) = (xs ++ p :: l'.map .item) ++ [.tail] := by
    rw [map_append, ← cons_append, ← cons_append, hp]
    simp
  have hnd' := nodup_nodes hnd
  rw [hnodes] at hnd'
  obtain ⟨ys, hys, hsegs⟩ := appendLoop_spec (l := l') hxs (hnd'.sublist (sublist_append_left _ _))
  refine ⟨p, hlink.2, ?_, hnd⟩
  rw [hnodes]
  rw [← hys] at hsegs hnd' ⊢
  have := @Seg.connect α _ _ ys [] _ .tail hsegs (.singleton _) (by simpa using hnd')
  simpa using this

end Links

end Xmix
