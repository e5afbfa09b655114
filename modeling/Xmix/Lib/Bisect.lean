import Mathlib.Order.Bounds.Defs
import Mathlib.Algebra.Order.Ring.Int
import Mathlib.Tactic.Common

/-!
# Bisection

The loop that looks for the largest integer with a property that holds below every integer it holds at. Besides the best
integer the loop keeps the last one it has tested.
-/

namespace Xmix

def bisect (test : Int → Bool) (left right best last : Int) : Int × Int :=
  if left ≤ right then
    if test ((left + right) / 2) then bisect test ((left + right) / 2 + 1) right ((left + right) / 2)
      ((left + right) / 2)
    else bisect test left ((left + right) / 2 - 1) best ((left + right) / 2)
  else (best, last)
termination_by (right + 1 - left).toNat
decreasing_by
  · omega
  · omega

variable {test : Int → Bool} {left right best last : Int}

theorem bisect_of_lt (h : right < left) : bisect test left right best last = (best, last) := by
  unfold bisect
  rw [if_neg (by omega)]

theorem bisect_rule (I : Int → Int → Int → Int → Prop) (hstart : I left right best last)
    (hpass : ∀ l r b x, I l r b x → l ≤ r → test ((l + r) / 2) = true →
      I ((l + r) / 2 + 1) r ((l + r) / 2) ((l + r) / 2)) (hfail : ∀ l r b x, I l r b x →
      l ≤ r → test ((l + r) / 2) = false → I l ((l + r) / 2 - 1) b ((l + r) / 2)) :
    ∃ l r, r < l ∧ I l r (bisect test left right best last).1 (bisect test left right best last).2 := by
  fun_induction bisect test left right best last with
  | case1 l r b x hle ht ih => exact ih (hpass l r b x hstart hle ht)
  | case2 l r b x hle ht ih => exact ih (hfail l r b x hstart hle (Bool.eq_false_iff.2 ht))
  | case3 l r b x hgt => exact ⟨l, r, by omega, hstart⟩

theorem bisect_isGreatest {top : Int} (hdown : ∀ m n, m ≤ n → test n = true → test m = true)
    (hbest : test best = true) (hle : best ≤ top) (hleft : best = left ∨ best + 1 = left)
    (hright : right ≤ top) (hfail : ∀ n, right < n → n ≤ top → test n = false) :
    IsGreatest {n | n ≤ top ∧ test n = true} (bisect test left right best last).1 := by
  have hrule := @bisect_rule test left right best last
    (fun l r b _ => test b = true ∧ b ≤ top ∧ (b = l ∨ b + 1 = l) ∧ r ≤ top ∧ ∀ n, r < n → n ≤ top → test n = false)
    ⟨hbest, hle, hleft, hright, hfail⟩ ?_ ?_
  · obtain ⟨l, r, hlt, hbest', hle', hleft', -, hfail'⟩ := hrule
    refine ⟨⟨hle', hbest'⟩, fun n hn => ?_⟩
    obtain ⟨hn, ht⟩ := hn
    -- a larger one would be beyond `r`
    refine Int.not_lt.1 fun hlt' => ?_
    rw [hfail' n (by omega) hn] at ht
    cases ht
  · intro l r b _ h hlr ht
    exact ⟨ht, by omega, .inr rfl, h.2.2.2.1, h.2.2.2.2⟩
  · intro l r b _ h hlr ht
    refine ⟨h.1, h.2.1, h.2.2.1, by omega, fun n hn _ => Bool.eq_false_iff.2 fun hn' => ?_⟩
    rw [hdown ((l + r) / 2) n (by omega) hn'] at ht
    cases ht

theorem bisect_last_le {bound : Int} (hlast : last ≤ bound) (hright : right ≤ bound) :
    (bisect test left right best last).2 ≤ bound := by
  have hrule := @bisect_rule test left right best last (fun _ r _ x => x ≤ bound ∧ r ≤ bound) ⟨hlast, hright⟩ ?_ ?_
  · obtain ⟨l, r, -, hx, -⟩ := hrule
    exact hx
  · intro l r b _ h hlr _
    exact ⟨by omega, h.2⟩
  · intro l r b _ h hlr _
    exact ⟨by omega, by omega⟩

theorem bisect_last_eq_iff (hdown : ∀ m n, m ≤ n → test n = true → test m = true) (h : left ≤ right) :
    (bisect test left right best last).2 = right ↔ left = right ∨ test (right - 1) = true := by
  fun_induction bisect test left right best last with
  | case1 l r b x hle ht ih =>
    by_cases hmid : (l + r) / 2 = r
    · rw [bisect_of_lt (by omega)]
      exact ⟨fun _ => .inl (by omega), fun _ => hmid⟩
    · rw [ih (by omega)]
      refine ⟨fun hor => .inr ?_, fun hor => .inr ?_⟩
      · rcases hor with heq | hr
        · rwa [show r - 1 = (l + r) / 2 by omega]
        · exact hr
      · rcases hor with heq | hr
        · omega
        · exact hr
  | case2 l r b x hle ht ih =>
    by_cases hmid : (l + r) / 2 = r
    · rw [bisect_of_lt (by omega)]
      exact ⟨fun _ => .inl (by omega), fun _ => hmid⟩
    · have hlast : (bisect test l ((l + r) / 2 - 1) b ((l + r) / 2)).2 ≤ (l + r) / 2 :=
        bisect_last_le (le_refl _) (by omega)
      refine ⟨fun heq => by omega, fun hor => ?_⟩
      rcases hor with heq | hr
      · omega
      · exact absurd (hdown ((l + r) / 2) (r - 1) (by omega) hr) ht
  | case3 l r b x hgt => exact absurd h hgt

end Xmix
