import Mathlib.Data.List.Forall2

/-!
# Computations that may raise

When a sequence, a traversal or a loop of computations in `Except` succeeds.
-/

namespace Xmix.Except

open List Option

variable {ε α β σ : Type}

variable {e : ε} {s s' : σ} {xs : List α} {ys : List β}

variable {x : Except ε α} {f : α → Except ε β}

theorem bind_eq_ok {b : β} : x >>= f = .ok b ↔ ∃ a, x = .ok a ∧ f a = .ok b := by
  cases x with
  | error e => simp [bind, Except.bind]
  | ok a => simp [bind, Except.bind]

theorem bind_eq_error :
    x >>= f = .error e ↔ x = .error e ∨ ∃ a, x = .ok a ∧ f a = .error e := by
  cases x with
  | error e' => simp [bind, Except.bind]
  | ok a => simp [bind, Except.bind]

def error? : Except ε α → Option ε
  | .error e => some e
  | .ok _ => none

theorem error?_eq_some : error? x = some e ↔ x = .error e := by
  cases x <;> simp [error?]

theorem toOption_eq_some {a : α} : x.toOption = some a ↔ x = .ok a := by
  cases x <;> simp [Except.toOption]

@[simp] theorem ok_bind (a : α) (f : α → Except ε β) : (Except.ok a >>= f) = f a := rfl

@[simp] theorem error_bind (e : ε) (f : α → Except ε β) : ((Except.error e : Except ε α) >>= f) = .error e := rfl

@[simp] theorem pure_eq_ok {a b : α} : (pure a : Except ε α) = .ok b ↔ a = b := by
  simp [pure, Except.pure]

theorem exists_of_mem_forall₂ {R : α → β → Prop} (h : List.Forall₂ R xs ys) {y : β} (hy : y ∈ ys) :
    ∃ x ∈ xs, R x y := by
  induction h with
  | nil => simp at hy
  | @cons x y' xs ys hx _ ih =>
    rcases mem_cons.1 hy with rfl | hy
    · exact ⟨x, by simp, hx⟩
    · obtain ⟨x', hx', hR⟩ := ih hy
      exact ⟨x', by simp [hx'], hR⟩

theorem exists_forall₂ {R : α → β → Prop} : (∃ ys, List.Forall₂ R xs ys) ↔ ∀ x ∈ xs, ∃ y, R x y := by
  induction xs with
  | nil => exact ⟨fun _ x hx => absurd hx not_mem_nil, fun _ => ⟨[], .nil⟩⟩
  | cons x xs ih =>
    rw [forall_mem_cons, ← ih]
    simp only [forall₂_cons_left_iff]
    exact ⟨fun ⟨_, y, ys, hy, hys, _⟩ => ⟨⟨y, hy⟩, ys, hys⟩, fun ⟨⟨y, hy⟩, ys, hys⟩ => ⟨_, y, ys, hy, hys, rfl⟩⟩

theorem mapM_eq_ok :
    xs.mapM f = .ok ys ↔ List.Forall₂ (fun x y => f x = .ok y) xs ys := by
  induction xs generalizing ys with
  | nil =>
    simp only [mapM_nil, pure_eq_ok, forall₂_nil_left_iff]
    exact eq_comm
  | cons x xs ih =>
    simp only [mapM_cons, bind_eq_ok, pure_eq_ok, ih, forall₂_cons_left_iff]
    constructor
    · rintro ⟨y, hy, ys, hys, rfl⟩
      exact ⟨y, ys, hy, hys, rfl⟩
    · rintro ⟨y, ys, hy, hys, rfl⟩
      exact ⟨y, hy, ys, hys, rfl⟩

theorem length_mapM (h : xs.mapM f = .ok ys) : xs.length = ys.length :=
  (mapM_eq_ok.1 h).length_eq

theorem exists_of_mem_mapM (h : xs.mapM f = .ok ys) {y : β}
    (hy : y ∈ ys) : ∃ x ∈ xs, f x = .ok y :=
  exists_of_mem_forall₂ (mapM_eq_ok.1 h) hy

theorem exists_mem_of_mapM (h : xs.mapM f = .ok ys) {x : α}
    (hx : x ∈ xs) : ∃ y ∈ ys, f x = .ok y :=
  exists_of_mem_forall₂ (mapM_eq_ok.1 h).flip hx

theorem exists_mapM_ok : (∃ ys, xs.mapM f = .ok ys) ↔ ∀ x ∈ xs, ∃ y, f x = .ok y := by
  simp only [mapM_eq_ok]
  exact exists_forall₂

theorem mapM_eq_ok_map {P : α → Prop} {g : α → β} (h : ∀ x y, f x = .ok y ↔ P x ∧ y = g x)
    : xs.mapM f = .ok ys ↔ (∀ x ∈ xs, P x) ∧ ys = xs.map g := by
  have hmap : Forall₂ (fun x y => y = g x) xs ys ↔ ys = xs.map g := by
    rw [eq_comm, ← forall₂_eq_eq_eq, forall₂_map_left_iff]
    simp only [eq_comm]
  simp only [mapM_eq_ok, h, forall₂_and_left, hmap]

section
variable {f : σ → α → Except ε σ}

theorem foldlM_inv (P : σ → Prop)
    (hstep : ∀ s x s', x ∈ xs → P s → f s x = .ok s' → P s') (hs : P s) (h : xs.foldlM f s = .ok s') :
    P s' := by
  induction xs generalizing s with
  | nil =>
    obtain rfl : s = s' := by simpa using h
    exact hs
  | cons x xs ih =>
    rw [foldlM_cons, bind_eq_ok] at h
    obtain ⟨t, ht, hrest⟩ := h
    exact ih (fun s x s' hx => hstep s x s' (by simp [hx])) (hstep s x t (by simp) hs ht) hrest

theorem foldlM_eq_error (h : xs.foldlM f s = .error e) :
    ∃ t, ∃ x ∈ xs, f t x = .error e := by
  induction xs generalizing s with
  | nil => cases h
  | cons x xs ih =>
    rw [foldlM_cons, bind_eq_error] at h
    rcases h with h | ⟨t, -, h⟩
    · exact ⟨s, x, by simp, h⟩
    · obtain ⟨t', y, hy, hf⟩ := ih h
      exact ⟨t', y, by simp [hy], hf⟩

theorem foldlM_mem (h : xs.foldlM f s = .ok s') {x : α} (hx : x ∈ xs) :
    ∃ t t', f t x = .ok t' := by
  induction xs generalizing s with
  | nil => exact absurd hx not_mem_nil
  | cons y xs ih =>
    rw [foldlM_cons, bind_eq_ok] at h
    obtain ⟨t, ht, hrest⟩ := h
    rcases mem_cons.1 hx with rfl | hx
    · exact ⟨s, t, ht⟩
    · exact ih hrest hx

theorem foldlM_reaches (P : σ → Prop) (hkeep : ∀ s x s', P s → f s x = .ok s' → P s')
    {x : α} (hx : x ∈ xs) (hreach : ∀ s s', f s x = .ok s' → P s') (h : xs.foldlM f s = .ok s') :
    P s' := by
  induction xs generalizing s with
  | nil => exact absurd hx not_mem_nil
  | cons y xs ih =>
    rw [foldlM_cons, bind_eq_ok] at h
    obtain ⟨t, ht, hrest⟩ := h
    rcases mem_cons.1 hx with rfl | hx
    · exact foldlM_inv P (fun s x s' _ => hkeep s x s') (hreach s t ht) hrest
    · exact ih hx hrest

end

/-! ### Partial functions -/

section
variable {f : α → Option β}

theorem mapM_eq_some :
    xs.mapM f = some ys ↔ List.Forall₂ (fun x y => f x = some y) xs ys := by
  induction xs generalizing ys with
  | nil =>
    simp only [List.mapM_nil, Option.pure_def, Option.some.injEq, List.forall₂_nil_left_iff]
    exact eq_comm
  | cons x xs ih =>
    simp only [List.mapM_cons, Option.bind_eq_bind, Option.bind_eq_some_iff, Option.pure_def, Option.some.injEq, ih,
      List.forall₂_cons_left_iff]
    constructor
    · rintro ⟨y, hy, ys, hys, rfl⟩
      exact ⟨y, ys, hy, hys, rfl⟩
    · rintro ⟨y, ys, hy, hys, rfl⟩
      exact ⟨y, hy, ys, hys, rfl⟩

theorem exists_mapM : (∃ ys, xs.mapM f = some ys) ↔ ∀ x ∈ xs, (f x).isSome := by
  simp only [mapM_eq_some, isSome_iff_exists]
  exact exists_forall₂

theorem mapM_some_map {g : α → β} (h : ∀ x ∈ xs, f x = some (g x)) : xs.mapM f = some (xs.map g) := by
  refine mapM_eq_some.2 ?_
  induction xs with
  | nil => exact .nil
  | cons x xs ih => exact .cons (h x mem_cons_self) (ih fun y hy => h y (mem_cons_of_mem x hy))

theorem exists_mem_of_mapM_some (h : xs.mapM f = some ys) {x : α} (hx : x ∈ xs) :
    ∃ y ∈ ys, f x = some y :=
  exists_of_mem_forall₂ (mapM_eq_some.1 h).flip hx

theorem forall₂_mapM_mapM {γ : Type} {g : β → Option γ} {zs : List γ} {R : α → γ → Prop}
    (hf : xs.mapM f = some ys) (hg : ys.mapM g = some zs) (h : ∀ x ∈ xs, ∀ y z, f x = some y → g y = some z → R x z) :
    List.Forall₂ R xs zs := by
  induction mapM_eq_some.1 hf generalizing zs with
  | nil =>
    cases mapM_eq_some.1 hg
    exact .nil
  | @cons x y xs ys hxy hxs ih =>
    obtain _ | ⟨hyz, hys⟩ := mapM_eq_some.1 hg
    exact .cons (h x mem_cons_self y _ hxy hyz)
      (ih (mapM_eq_some.2 hxs) (mapM_eq_some.2 hys) fun x' hx' => h x' (mem_cons_of_mem x hx'))

theorem exists_of_mem_mapM_some (h : xs.mapM f = some ys) {y : β}
    (hy : y ∈ ys) : ∃ x ∈ xs, f x = some y :=
  exists_of_mem_forall₂ (mapM_eq_some.1 h) hy

end

end Xmix.Except
