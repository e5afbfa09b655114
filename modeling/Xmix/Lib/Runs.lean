import Mathlib.Data.List.Infix

/-!
# Runs of a deterministic system

A step takes an input in a state and may fail. What every step preserves holds after a run; and where a step preserves a
property exactly under a condition, the property holds in all states of a run exactly if all steps meet the condition.
-/

namespace Xmix

open Option

variable {σ α : Type} (exec : σ → α → Option σ)

def runFrom (s : σ) (as : List α) : Option σ := as.foldlM exec s

def Along (C : σ → α → Prop) : σ → List α → Prop
  | _, [] => True
  | s, a :: as => ∀ s', exec s a = some s' → C s a ∧ Along C s' as

def alongCheck (test : σ → α → Bool) : σ → List α → Bool
  | _, [] => true
  | s, a :: as => (exec s a).all fun s' => test s a && alongCheck test s' as

variable {exec} {C C' : σ → α → Prop} {I J : σ → Prop} {s s' : σ} {a : α} {as bs : List α}

theorem runFrom_cons : runFrom exec s (a :: as) = (exec s a).bind fun s' => runFrom exec s' as := by
  rw [runFrom, List.foldlM_cons]
  rfl

theorem along_of_check {test : σ → α → Bool} (htest : ∀ s a, test s a = true → C s a)
    (h : alongCheck exec test s as = true) : Along exec C s as := by
  induction as generalizing s with
  | nil => trivial
  | cons a as ih =>
    intro s' hs'
    rw [alongCheck, hs', all_some, Bool.and_eq_true] at h
    exact ⟨htest s a h.1, ih h.2⟩

theorem Along.invariant (h : Along exec C s as) (hstep : ∀ s a s', I s → C s a → exec s a = some s' → I s') (hs : I s)
    (hrun : runFrom exec s as = some s') : I s' := by
  induction as generalizing s with
  | nil => exact some.inj hrun ▸ hs
  | cons a as ih =>
    rw [runFrom_cons] at hrun
    obtain ⟨s₁, hs₁, hrun⟩ := bind_eq_some_iff.1 hrun
    exact ih (h s₁ hs₁).2 (hstep s a s₁ hs (h s₁ hs₁).1 hs₁) hrun

theorem along_true (exec : σ → α → Option σ) (s : σ) (as : List α) : Along exec (fun _ _ => True) s as := by
  induction as generalizing s with
  | nil => trivial
  | cons a as ih => exact fun s' _ => ⟨trivial, ih s'⟩

theorem runFrom_invariant (hstep : ∀ s a s', I s → exec s a = some s' → I s')
    (hs : I s) (hrun : runFrom exec s as = some s') : I s' :=
  (along_true exec s as).invariant (fun s a s' hs _ => hstep s a s' hs) hs hrun

theorem Along.along_iff {F : σ → α → Prop} (hF : Along exec F s as)
    (hJ : ∀ s a s', J s → F s a → exec s a = some s' → J s')
    (hI : ∀ s a s', J s → F s a → I s → exec s a = some s' → (I s' ↔ C s a)) (hs : J s) (hIs : I s) :
    Along exec C s as ↔ ∀ bs, bs <+: as → ∀ s', runFrom exec s bs = some s' → I s' := by
  induction as generalizing s with
  | nil =>
    refine ⟨fun _ bs hbs s' hrun => ?_, fun _ => trivial⟩
    rw [List.prefix_nil.1 hbs] at hrun
    exact some.inj hrun ▸ hIs
  | cons a as ih =>
    constructor
    · intro h bs hbs s' hrun
      rcases bs with - | ⟨b, bs⟩
      · exact some.inj hrun ▸ hIs
      · obtain ⟨rfl, hrest⟩ := List.cons_prefix_cons.1 hbs
        rw [runFrom_cons] at hrun
        obtain ⟨s₁, hs₁, hrun⟩ := bind_eq_some_iff.1 hrun
        obtain ⟨hFs, hF₁⟩ := hF s₁ hs₁
        exact (ih hF₁ (hJ s b s₁ hs hFs hs₁) ((hI s b s₁ hs hFs hIs hs₁).2 (h s₁ hs₁).1)).1 (h s₁ hs₁).2
          bs hrest s' hrun
    · intro h s₁ hs₁
      have hrun : ∀ bs, runFrom exec s (a :: bs) = runFrom exec s₁ bs := fun bs => by
        rw [runFrom_cons, hs₁]
        rfl
      have hI₁ : I s₁ := h [a] (by simp) s₁ (hrun [])
      obtain ⟨hFs, hF₁⟩ := hF s₁ hs₁
      refine ⟨(hI s a s₁ hs hFs hIs hs₁).1 hI₁, (ih hF₁ (hJ s a s₁ hs hFs hs₁) hI₁).2 fun bs hbs s' hs' => ?_⟩
      exact h (a :: bs) (List.cons_prefix_cons.2 ⟨rfl, hbs⟩) s' ((hrun bs).trans hs')

theorem along_iff (hJ : ∀ s a s', J s → exec s a = some s' → J s')
    (hI : ∀ s a s', J s → I s → exec s a = some s' → (I s' ↔ C s a)) (hs : J s) (hIs : I s) :
    Along exec C s as ↔ ∀ bs, bs <+: as → ∀ s', runFrom exec s bs = some s' → I s' :=
  (along_true exec s as).along_iff (fun s a s' hs _ => hJ s a s' hs) (fun s a s' hs _ => hI s a s' hs) hs hIs

end Xmix
