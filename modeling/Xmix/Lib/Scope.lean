import Mathlib.Data.List.Basic

/-!
# Names in code spread over several places

A program is a sequence of lines, each written to one place. A line sees the names given at its
place and those bound by earlier lines of the same place, and no others. `Closed` says that every
name a line reads is seen there; it is read off line by line (`closed_cons`) and piece by piece
(`closed_append`, `closed_flatMap`).
-/

namespace Xmix.Scope

open List

variable {K N α : Type}

structure Line (K N : Type) where
  dest : K
  uses : List N
  binds : List N

def after (given : K → N → Prop) (ls : List (Line K N)) (k : K) (n : N) : Prop :=
  given k n ∨ ∃ l ∈ ls, l.dest = k ∧ n ∈ l.binds

def Closed (given : K → N → Prop) (ls : List (Line K N)) : Prop :=
  ∀ pre l post, ls = pre ++ l :: post → ∀ n ∈ l.uses, after given pre l.dest n

variable {given given' : K → N → Prop}

@[simp] theorem after_nil (k : K) (n : N) : after given [] k n ↔ given k n := by simp [after]

theorem after_singleton (l : Line K N) (k : K) (n : N) :
    after given [l] k n ↔ given k n ∨ l.dest = k ∧ n ∈ l.binds := by
  simp [after]

theorem after_cons (l : Line K N) (ls : List (Line K N)) : after given (l :: ls) = after (after given [l]) ls := by
  funext k n
  simp [after, or_assoc]

theorem after_append (ls ls' : List (Line K N)) : after given (ls ++ ls') = after (after given ls) ls' := by
  funext k n
  simp only [after, mem_append, or_assoc, or_and_right, exists_or]

theorem after_flatMap (f : α → List (Line K N)) (xs : List α) (k : K) (n : N) :
    after given (xs.flatMap f) k n ↔ given k n ∨ ∃ x ∈ xs, after (fun _ _ => False) (f x) k n := by
  simp only [after, mem_flatMap, false_or]
  constructor
  · rintro (h | ⟨l, ⟨x, hx, hl⟩, hb⟩)
    · exact .inl h
    · exact .inr ⟨x, hx, l, hl, hb⟩
  · rintro (h | ⟨x, hx, l, hl, hb⟩)
    · exact .inl h
    · exact .inr ⟨l, ⟨x, hx, hl⟩, hb⟩

@[simp] theorem closed_nil : Closed given [] := by
  intro pre l post h
  simp at h

theorem closed_cons (l : Line K N) (ls : List (Line K N)) :
    Closed given (l :: ls) ↔ (∀ n ∈ l.uses, given l.dest n) ∧ Closed (after given [l]) ls := by
  constructor
  · intro h
    refine ⟨fun n hn => by simpa using h [] l ls rfl n hn, ?_⟩
    rintro pre l' post rfl n hn
    rw [← after_cons]
    exact h (l :: pre) l' post rfl n hn
  · rintro ⟨hl, hls⟩ pre l' post h n hn
    cases pre with
    | nil =>
      obtain ⟨rfl, rfl⟩ : l = l' ∧ ls = post := by simpa using h
      simpa using hl n hn
    | cons l₀ pre =>
      obtain ⟨rfl, rfl⟩ : l = l₀ ∧ ls = pre ++ l' :: post := by simpa using h
      rw [after_cons]
      exact hls pre l' post rfl n hn

theorem closed_append (ls ls' : List (Line K N)) :
    Closed given (ls ++ ls') ↔ Closed given ls ∧ Closed (after given ls) ls' := by
  induction ls generalizing given with
  | nil =>
    have h : after given ([] : List (Line K N)) = given := by funext k n; simp
    simp [h]
  | cons l ls ih => rw [cons_append, closed_cons, closed_cons, ih, after_cons l ls, and_assoc]

theorem closed_flatMap (f : α → List (Line K N)) (xs : List α) :
    Closed given (xs.flatMap f) ↔ ∀ pre x post, xs = pre ++ x :: post → Closed (after given (pre.flatMap f)) (f x) := by
  induction xs generalizing given with
  | nil => simp
  | cons x xs ih =>
    rw [flatMap_cons, closed_append, ih]
    constructor
    · rintro ⟨hx, hxs⟩ pre y post h
      cases pre with
      | nil =>
        obtain ⟨rfl, rfl⟩ : x = y ∧ xs = post := by simpa using h
        have hnil : after given (([] : List α).flatMap f) = given := by funext k n; simp
        rw [hnil]
        exact hx
      | cons y₀ pre =>
        obtain ⟨rfl, rfl⟩ : x = y₀ ∧ xs = pre ++ y :: post := by simpa using h
        rw [flatMap_cons, after_append]
        exact hxs pre y post rfl
    · intro h
      refine ⟨?_, ?_⟩
      · have hnil : after given (([] : List α).flatMap f) = given := by funext k n; simp
        have := h [] x xs rfl
        rwa [hnil] at this
      · rintro pre y post rfl
        have := h (x :: pre) y post rfl
        rwa [flatMap_cons, after_append] at this

theorem closed_flatMap_zipIdx (f : α × Nat → List (Line K N)) (xs : List α) :
    Closed given (xs.zipIdx.flatMap f) ↔
      ∀ pre x post, xs = pre ++ x :: post → Closed (after given (pre.zipIdx.flatMap f)) (f (x, pre.length)) := by
  rw [closed_flatMap]
  constructor
  · rintro h pre x post rfl
    exact h pre.zipIdx (x, pre.length) (post.zipIdx (pre.length + 1)) (by simp [zipIdx_append, zipIdx_cons])
  · intro h pre x post heq
    have hxs : xs = pre.map Prod.fst ++ x.1 :: post.map Prod.fst := by
      have := congrArg (map Prod.fst) heq
      simpa using this
    have hzip : (pre.map Prod.fst).zipIdx ++ (x.1, pre.length) :: (post.map Prod.fst).zipIdx (pre.length + 1) =
        pre ++ x :: post := by
      rw [← heq, hxs, zipIdx_append, zipIdx_cons]
      simp
    obtain ⟨hpre, hx⟩ := append_inj hzip (by simp)
    obtain ⟨hx, -⟩ := cons.inj hx
    have := h _ _ _ hxs
    rwa [hpre, length_map, hx] at this

theorem closed_congr {ls : List (Line K N)} (h : ∀ l ∈ ls, ∀ n, given l.dest n ↔ given' l.dest n) :
    Closed given ls ↔ Closed given' ls := by
  have hafter : ∀ pre l post, ls = pre ++ l :: post → ∀ n, after given pre l.dest n ↔ after given' pre l.dest n := by
    rintro pre l post rfl n
    simp [after, h l (by simp)]
  constructor
  · intro hc pre l post heq n hn
    exact (hafter pre l post heq n).1 (hc pre l post heq n hn)
  · intro hc pre l post heq n hn
    exact (hafter pre l post heq n).2 (hc pre l post heq n hn)

end Xmix.Scope
