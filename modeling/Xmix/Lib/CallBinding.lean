import Mathlib.Data.List.Basic
import Mathlib.Data.List.Nodup
import Xmix.Lib.Except

/-!
# Binding a call to a parameter list

A call passes values by position and by keyword to a function whose parameters have a name and, some
of them, a default. `bindCall` is the language's rule: positional values fill the parameters from the
left, a keyword may only name a parameter no other argument has filled, and what is left needs a
default. `bindCall_eq` is the same rule over the dictionary of all given arguments.
-/

namespace CallBinding

open List Option

variable {κ α δ : Type} [BEq κ]

def argument (pos : List α) (kws : List (κ × α)) (i : Nat) (param : κ × Option δ) : Option (κ × (α ⊕ δ)) :=
  ((((pos[i]?).or (kws.lookup param.1)).map .inl).or (param.2.map .inr)).map (param.1, ·)

def bindCall [DecidableEq κ] [LawfulBEq κ] (params : List (κ × Option δ)) (pos : List α)
    (kws : List (κ × α)) : Option (List (κ × (α ⊕ δ))) :=
  if pos.length ≤ params.length ∧ (∀ kw ∈ kws, kw.1 ∈ (params.map Prod.fst).drop pos.length) ∧
    (kws.map Prod.fst).Nodup then
    params.zipIdx.mapM fun (param, i) => argument pos kws i param
  else none

def given (params : List (κ × Option δ)) (pos : List α) (kws : List (κ × α)) : List (κ × α) :=
  (params.map Prod.fst).zip pos ++ kws

def entry (given : List (κ × α)) (param : κ × Option δ) : Option (κ × (α ⊕ δ)) :=
  (((given.lookup param.1).map .inl).or (param.2.map .inr)).map (param.1, ·)

theorem lookup_zip [LawfulBEq κ] {keys : List κ} (hkeys : keys.Nodup)
    {pos : List α} {i : Nat} {k : κ} (hi : keys[i]? = some k) :
    (keys.zip pos).lookup k = pos[i]? := by
  induction keys generalizing pos i with
  | nil => simp at hi
  | cons key keys ih =>
    rw [nodup_cons] at hkeys
    cases pos with
    | nil => simp
    | cons v pos =>
      cases i with
      | zero =>
        obtain rfl : key = k := by simpa using hi
        simp
      | succ i =>
        have hi' : keys[i]? = some k := by simpa using hi
        have hne : (k == key) = false := by
          simp only [beq_eq_false_iff_ne, ne_eq]
          rintro rfl
          exact hkeys.1 (mem_of_getElem? hi')
        rw [zip_cons_cons, lookup_cons, hne]
        simpa using ih hkeys.2 hi'

theorem mapM_zipIdx {β γ : Type} {f : β × Nat → Option γ} {g : β → Option γ} {xs : List β}
    (h : ∀ (i : Nat) (x : β), xs[i]? = some x → f (x, i) = g x) : xs.zipIdx.mapM f = xs.mapM g := by
  have hgen : ∀ (xs : List β) (n : Nat), (∀ (i : Nat) (x : β), xs[i]? = some x → f (x, n + i) = g x) →
      (xs.zipIdx n).mapM f = xs.mapM g := by
    intro xs
    induction xs with
    | nil => exact fun _ _ => rfl
    | cons x xs ih =>
      intro n h
      have hx : f (x, n) = g x := by simpa using h 0 x rfl
      rw [zipIdx_cons, mapM_cons, mapM_cons, hx, ih (n + 1)]
      intro i y hy
      have := h (i + 1) y (by simpa using hy)
      rwa [show n + 1 + i = n + (i + 1) by omega]
  exact hgen xs 0 fun i x hx => by simpa using h i x hx

omit [BEq κ] in
theorem map_fst_zip (keys : List κ) (pos : List α) : (keys.zip pos).map Prod.fst = keys.take pos.length := by
  induction keys generalizing pos with
  | nil => simp
  | cons k keys ih =>
    cases pos with
    | nil => rfl
    | cons v pos => simp [ih]

section
variable [DecidableEq κ] [LawfulBEq κ] {params : List (κ × Option δ)}

theorem bindCall_eq (hkeys : (params.map Prod.fst).Nodup)
    (pos : List α) (kws : List (κ × α)) :
    bindCall params pos kws =
      if pos.length ≤ params.length ∧ (∀ kw ∈ kws, kw.1 ∈ params.map Prod.fst) ∧
          ((given params pos kws).map Prod.fst).Nodup then
        params.mapM (entry (given params pos kws))
      else none := by
  have hcond : (∀ kw ∈ kws, kw.1 ∈ (params.map Prod.fst).drop pos.length) ∧ (kws.map Prod.fst).Nodup ↔
      (∀ kw ∈ kws, kw.1 ∈ params.map Prod.fst) ∧ ((given params pos kws).map Prod.fst).Nodup := by
    rw [given, map_append, map_fst_zip, nodup_append]
    have hsplit : ∀ k, k ∈ (params.map Prod.fst).drop pos.length ↔
        k ∈ params.map Prod.fst ∧ k ∉ (params.map Prod.fst).take pos.length := by
      intro k
      constructor
      · intro hk
        exact ⟨mem_of_mem_drop hk, fun ht => disjoint_take_drop hkeys (Nat.le_refl _) ht hk⟩
      · rintro ⟨hk, hnot⟩
        rw [← take_append_drop pos.length (params.map Prod.fst), mem_append] at hk
        exact hk.resolve_left hnot
    constructor
    · rintro ⟨hin, hnd⟩
      refine ⟨fun kw hkw => ((hsplit _).1 (hin kw hkw)).1, hkeys.take, hnd, ?_⟩
      rintro a ha b hb rfl
      obtain ⟨kw, hkw, rfl⟩ := mem_map.1 hb
      exact ((hsplit _).1 (hin kw hkw)).2 ha
    · rintro ⟨hin, -, hnd, hdisj⟩
      refine ⟨fun kw hkw => (hsplit _).2 ⟨hin kw hkw, fun ht => ?_⟩, hnd⟩
      exact hdisj _ ht _ (mem_map_of_mem hkw) rfl
  unfold bindCall
  simp only [hcond]
  split
  · refine mapM_zipIdx fun i param hi => ?_
    have hkey : (params.map Prod.fst)[i]? = some param.1 := by simp [hi]
    simp [argument, entry, given, lookup_append, lookup_zip hkeys hkey]
  · rfl

theorem keys_of_bindCall {pos : List α} {kws : List (κ × α)} {bound : List (κ × (α ⊕ δ))}
    (h : bindCall params pos kws = some bound) : bound.map Prod.fst = params.map Prod.fst := by
  unfold bindCall at h
  split at h
  · have hkeys : Forall₂ (fun param e => param.1.1 = e.1) params.zipIdx bound :=
      (Xmix.Except.mapM_eq_some.1 h).imp fun param e he => by
        obtain ⟨v, -, rfl⟩ := map_eq_some_iff.1 he
        rfl
    rw [← forall₂_map_right_iff, ← forall₂_map_left_iff, forall₂_eq_eq_eq] at hkeys
    rw [← hkeys, ← zipIdx_map_fst 0 params, List.map_map, zipIdx_map_fst]
    rfl
  · cases h

end

theorem entry_eq_some {g : List (κ × α)} {param : κ × Option δ} {e : κ × (α ⊕ δ)} (h : entry g param = some e) :
    e.1 = param.1 ∧ (e.2.isLeft = (g.lookup param.1).isSome) := by
  unfold entry at h
  obtain ⟨v, hv, rfl⟩ := map_eq_some_iff.1 h
  refine ⟨rfl, ?_⟩
  cases hl : g.lookup param.1 with
  | none =>
    rw [hl] at hv
    obtain ⟨d, -, rfl⟩ := map_eq_some_iff.1 hv
    rfl
  | some a =>
    rw [hl] at hv
    cases hv
    rfl

theorem isSome_entry {g : List (κ × α)} {param : κ × Option δ} :
    (entry g param).isSome = ((g.lookup param.1).isSome || param.2.isSome) := by
  simp [entry, isSome_or]

end CallBinding
