import Mathlib.Algebra.Order.BigOperators.Group.List
import Xmix.Lib.Runs
import Xmix.Sched.Encoder

/-!
# The calls of the encoder cache manager

The calls that the scheduler makes, one by one. From `can_allocate` to `allocate` an input is
pending. The counters of the manager are right after every sequence of calls, if no input is
allocated whose hash is in the cache. For a decoder-only model `check_and_update_cache` sees to
that; an encoder-decoder model does not ask it.
-/

namespace Xmix.Sched

open EncoderCacheManager List Option Dict

variable {ι η μ : Type} [DecidableEq ι] [DecidableEq μ] {f : MmFeature μ}

namespace EncoderCacheManager

variable {m m' : EncoderCacheManager ι μ} {len : μ → Nat} {r : ι} {h : μ} {n : Nat}

/-- The counters are the sizes of what is cached and of what nobody refers to. -/
structure Accounts (m : EncoderCacheManager ι μ) (len : μ → Nat) : Prop where
  free : m.numFreeSlots = m.cacheSize - m.cached.sum fun h _ => len h
  freeable : m.numFreeableSlots = m.numFreeSlots + m.freeable.sum fun _ n => n
  unused : ∀ h n, m.freeable.get? h = some n ↔ m.cached.get? h = some [] ∧ n = len h

section

omit [DecidableEq ι]

theorem init_accounts (len : μ → Nat) (size : Nat) : (init size : EncoderCacheManager ι μ).Accounts len where
  free := (Int.sub_zero _).symm
  freeable := (Int.add_zero _).symm
  unused := fun h n => by simp [init]

theorem Accounts.freeable_eq_none (hm : m.Accounts len) (hc : m.cached.get? h ≠ some []) : m.freeable.get? h = none :=
  eq_none_iff_forall_ne_some.2 fun n hn => hc ((hm.unused h n).1 hn).1

omit [DecidableEq μ] in
theorem sum_natCast_nonneg (d : Dict μ Nat) : 0 ≤ d.sum fun _ n => (n : Int) :=
  sum_nonneg fun x hx => by
    obtain ⟨e, -, rfl⟩ := mem_map.1 hx
    exact Int.natCast_nonneg _

theorem Accounts.free_le (hm : m.Accounts len) : m.numFreeSlots ≤ m.numFreeableSlots := by
  have := sum_natCast_nonneg m.freeable
  rw [hm.freeable]
  omega

theorem set_get?_eq_none {refs refs' : List ι} (hc : m.cached.get? h = some refs) (k : μ) :
    (m.cached.set h refs').get? k = none ↔ m.cached.get? k = none := by
  rw [get?_set_eq_none]
  refine and_iff_right_of_imp fun hk hkh => ?_
  rw [hkh, hc] at hk
  cases hk

theorem sum_set_cached {refs refs' : List ι} (len : μ → Nat) (hc : m.cached.get? h = some refs) :
    ((m.cached.set h refs').sum fun h _ => (len h : Int)) = m.cached.sum fun h _ => (len h : Int) :=
  sum_set_of_some (fun h _ => (len h : Int)) hc rfl

end

section
variable (hm : m.Accounts len)
include hm

omit [DecidableEq ι] in
theorem Accounts.refer_unused (hc : m.cached.get? h = some []) :
    ({ m with
      freeable := m.freeable.pop h
      numFreeableSlots := m.numFreeableSlots - len h
      cached := m.cached.set h [r] } : EncoderCacheManager ι μ).Accounts len := by
  have hf := (hm.unused h (len h)).2 ⟨hc, rfl⟩
  refine ⟨?_, ?_, fun k n => ?_⟩
  · simp only [sum_set_cached len hc]
    exact hm.free
  · have hpop := sum_pop (d := m.freeable) (k := h) fun _ n => (n : Int)
    rw [hf, elim_some] at hpop
    simp only [hm.freeable]
    omega
  · simp only [get?_pop, get?_set]
    split
    · simp
    · exact hm.unused k n

theorem Accounts.refer {refs : List ι} (hc : m.cached.get? h = some refs) (hne : refs ≠ []) :
    ({ m with cached := m.cached.set h (refs.insert r) } : EncoderCacheManager ι μ).Accounts len := by
  refine ⟨?_, hm.freeable, fun k n => ?_⟩
  · simp only [sum_set_cached len hc]
    exact hm.free
  · simp only [hm.unused, get?_set]
    split
    next hk =>
      rw [hk, hc]
      simp [hne, ne_nil_of_mem (mem_insert_self (a := r) (l := refs))]
    next => exact Iff.rfl

theorem checkAndUpdateCache_cases (r : ι) (h : μ) :
    (m.cached.get? h = none ∧ m.checkAndUpdateCache r h = some (false, m)) ∨
      (m.cached.get? h = some [] ∧ m.checkAndUpdateCache r h = some (true, { m with
        freeable := m.freeable.pop h, numFreeableSlots := m.numFreeableSlots - len h, cached := m.cached.set h [r] })) ∨
      ∃ refs, m.cached.get? h = some refs ∧ refs ≠ [] ∧
        m.checkAndUpdateCache r h = some (true, { m with cached := m.cached.set h (refs.insert r) }) := by
  rcases hc : m.cached.get? h with - | - | ⟨x, refs⟩
  · exact .inl ⟨rfl, by rw [checkAndUpdateCache, hc]⟩
  · have hf := (hm.unused h (len h)).2 ⟨hc, rfl⟩
    exact .inr (.inl ⟨rfl, by simp only [checkAndUpdateCache, hc, hf, bind_eq_bind, bind_some]⟩)
  · exact .inr (.inr ⟨_, rfl, cons_ne_nil x refs, by simp only [checkAndUpdateCache, hc]⟩)

theorem Accounts.checkAndUpdateCache (r : ι) (h : μ) :
    ∃ hit m', m.checkAndUpdateCache r h = some (hit, m') ∧ m'.Accounts len ∧ m'.numFreeSlots = m.numFreeSlots ∧
      ∀ k, m'.cached.get? k = none ↔ m.cached.get? k = none := by
  obtain ⟨-, he⟩ | ⟨hc, he⟩ | ⟨refs, hc, hne, he⟩ := checkAndUpdateCache_cases hm r h
  · exact ⟨_, _, he, hm, rfl, fun _ => Iff.rfl⟩
  · exact ⟨_, _, he, hm.refer_unused hc, rfl, set_get?_eq_none hc⟩
  · exact ⟨_, _, he, hm.refer hc hne, rfl, set_get?_eq_none hc⟩

end

structure Evicts (m m' : EncoderCacheManager ι μ) : Prop where
  back : ∀ h refs, m'.cached.get? h = some refs → m.cached.get? h = some refs
  kept : ∀ h refs, m.cached.get? h = some refs → refs ≠ [] → m'.cached.get? h = some refs

section

omit [DecidableEq ι]

theorem Evicts.refl (m : EncoderCacheManager ι μ) : Evicts m m := ⟨fun _ _ h => h, fun _ _ h _ => h⟩

theorem Accounts.evictLoop {numTokens : Int} (hm : m.Accounts len) (hn : numTokens ≤ m.numFreeableSlots) :
    ∃ m', m.evictLoop numTokens m.freeable.entries = some m' ∧ m'.Accounts len ∧
      numTokens ≤ m'.numFreeSlots ∧ Evicts m m' := by
  generalize hes : m.freeable.entries = es
  induction es generalizing m with
  | nil =>
    have hzero : (m.freeable.sum fun _ n => (n : Int)) = 0 := by rw [Dict.sum, hes]; rfl
    have hle : numTokens ≤ m.numFreeSlots := by
      rw [hm.freeable, hzero] at hn
      omega
    exact ⟨m, evictLoop_of_le hle, hm, hle, .refl m⟩
  | cons e es ih =>
    obtain ⟨h, n⟩ := e
    by_cases hle : numTokens ≤ m.numFreeSlots
    · exact ⟨m, evictLoop_of_le hle, hm, hle, .refl m⟩
    have hf : m.freeable.get? h = some n := get?_eq_some.2 (by rw [hes]; exact mem_cons_self)
    obtain ⟨hc, rfl⟩ := (hm.unused h n).1 hf
    let m₁ : EncoderCacheManager ι μ := { m with
      freeable := m.freeable.pop h, cached := m.cached.pop h, freed := m.freed ++ [h], numFreeSlots :=
        m.numFreeSlots + len h }
    have hm₁ : m₁.Accounts len := by
      refine ⟨?_, ?_, fun k n => ?_⟩
      · have hpop := sum_pop (d := m.cached) (k := h) fun h _ => (len h : Int)
        rw [hc, elim_some] at hpop
        show m.numFreeSlots + len h = m.cacheSize - (m.cached.pop h).sum _
        rw [hm.free]
        omega
      · have hpop := sum_pop (d := m.freeable) (k := h) fun _ n => (n : Int)
        rw [hf, elim_some] at hpop
        show m.numFreeableSlots = m.numFreeSlots + len h + (m.freeable.pop h).sum _
        rw [hm.freeable]
        omega
      · rw [get?_pop, get?_pop]
        split
        · simp
        · exact hm.unused k n
    have hes₁ : m₁.freeable.entries = es := by
      show del m.freeable.entries h = es
      rw [hes, del, if_pos rfl]
    obtain ⟨m', hm', hacc, hle', hev⟩ := ih hm₁ hn hes₁
    refine ⟨m', ?_, hacc, hle', fun k refs hk => ?_, fun k refs hk hne => ?_⟩
    · rw [evictLoop, if_neg hle, hc]
      exact hm'
    · have hk₁ : (m.cached.pop h).get? k = some refs := hev.back k refs hk
      rw [get?_pop] at hk₁
      split at hk₁
      · cases hk₁
      · exact hk₁
    · refine hev.kept k refs ?_ hne
      have hkh : k ≠ h := fun hkh => by
        rw [hkh, hc] at hk
        exact hne (some.inj hk).symm
      rw [get?_pop_of_ne hkh]
      exact hk

theorem Accounts.canAllocate (hm : m.Accounts len) (n : Nat) (budget : Int) (k : Nat) :
    ∃ fits m', m.canAllocate n budget k = some (fits, m') ∧ m'.Accounts len ∧ Evicts m m' ∧
      (fits = true → (n : Int) + k ≤ m'.numFreeSlots) ∧ (fits = false → m' = m) := by
  rw [EncoderCacheManager.canAllocate]
  by_cases hb : budget < n
  · exact ⟨false, m, if_pos hb, hm, .refl m, fun h => (by cases h), fun _ => rfl⟩
  · rw [if_neg hb]
    by_cases hfree : (n : Int) + k ≤ m.numFreeSlots
    · exact ⟨true, m, if_pos hfree, hm, .refl m, fun _ => hfree, fun h => (by cases h)⟩
    · rw [if_neg hfree]
      by_cases hfreeable : m.numFreeableSlots < (n : Int) + k
      · exact ⟨false, m, if_pos hfreeable, hm, .refl m, fun h => (by cases h), fun _ => rfl⟩
      · obtain ⟨m', hm', hacc, hle, hev⟩ := hm.evictLoop (show (n : Int) + k ≤ m.numFreeableSlots by omega)
        rw [if_neg hfreeable, hm']
        exact ⟨true, m', rfl, hacc, hev, fun _ => hle, fun h => (by cases h)⟩

end

theorem Accounts.allocate_isSome (hm : m.Accounts len)
    (hn : (n : Int) ≤ m.numFreeSlots) (r : ι) (h : μ) : (m.allocate r h n).isSome := by
  rw [allocate, if_pos ⟨hn, hn.trans hm.free_le⟩]
  rfl

theorem allocate_eq_some (hm : m.allocate r h n = some m') : (n : Int) ≤ m.numFreeSlots ∧
    m' = { m with
      cached := m.cached.set h (((m.cached.get? h).getD []).insert r)
      numFreeSlots := m.numFreeSlots - n
      numFreeableSlots := m.numFreeableSlots - n } := by
  rw [allocate] at hm
  split at hm
  next hle =>
    cases hm
    exact ⟨hle.1, rfl⟩
  · cases hm

theorem Accounts.allocate (hm : m.Accounts len) (hc : m.cached.get? h = none)
    (hm' : m.allocate r h (len h) = some m') : m'.Accounts len := by
  obtain ⟨-, rfl⟩ := allocate_eq_some hm'
  refine ⟨?_, ?_, fun k n => ?_⟩
  · show m.numFreeSlots - len h = m.cacheSize - (m.cached.set h _).sum _
    rw [sum_set_of_none _ hc, hm.free]
    omega
  · simp only [hm.freeable]
    omega
  · rw [hm.unused, get?_set]
    split
    next hk =>
      rw [hk, hc]
      simp
    next => exact Iff.rfl

theorem Accounts.freeEncoderInput (hm : m.Accounts len) (hf : f.length = len f.identifier) (r : ι) :
    (m.freeEncoderInput r f).Accounts len := by
  rw [EncoderCacheManager.freeEncoderInput]
  split
  · exact hm
  · exact hm
  next refs hne hc =>
    have hnone : m.freeable.get? f.identifier = none :=
      hm.freeable_eq_none fun h => hne (some.inj (hc.symm.trans h))
    simp only
    split
    next hempty =>
      refine ⟨?_, ?_, fun k n => ?_⟩
      · simp only [sum_set_cached len hc]
        exact hm.free
      · simp only [sum_set_of_none _ hnone]
        rw [hm.freeable]
        omega
      · rw [get?_set, get?_set]
        split
        next hk =>
          rw [hempty, hf, hk]
          simp [eq_comm]
        next => exact hm.unused k n
    next hfull =>
      refine ⟨?_, hm.freeable, fun k n => ?_⟩
      · simp only [sum_set_cached len hc]
        exact hm.free
      · rw [get?_set]
        split
        next hk =>
          rw [hk, hnone]
          simp [hfull]
        next => exact hm.unused k n

theorem freeEncoderInput_frame (m : EncoderCacheManager ι μ) (r : ι) (f : MmFeature μ) :
    (m.freeEncoderInput r f).numFreeSlots = m.numFreeSlots ∧
      ∀ k, (m.freeEncoderInput r f).cached.get? k = none ↔ m.cached.get? k = none := by
  rw [freeEncoderInput]
  split
  · exact ⟨rfl, fun _ => Iff.rfl⟩
  · exact ⟨rfl, fun _ => Iff.rfl⟩
  next refs _ hc =>
    simp only
    split
    · exact ⟨rfl, set_get?_eq_none hc⟩
    · exact ⟨rfl, set_get?_eq_none hc⟩

end EncoderCacheManager

/-! ### Calls -/

inductive CacheCall (ι μ : Type) where
  | check (r : ι) (f : MmFeature μ)
  | canAllocate (r : ι) (f : MmFeature μ) (encoderComputeBudget : Int)
  | allocate (r : ι) (f : MmFeature μ)
  | giveUp
  | freeInput (r : ι) (f : MmFeature μ)
  | getFreed

structure CacheRun (ι μ : Type) where
  cache : EncoderCacheManager ι μ
  pending : List (ι × MmFeature μ)

namespace CacheRun

def tokens (inputs : List (ι × MmFeature μ)) : Nat := (inputs.map fun x => x.2.length).sum

def start (size : Nat) : CacheRun ι μ := ⟨.init size, []⟩

def exec (s : CacheRun ι μ) : CacheCall ι μ → Option (CacheRun ι μ)
  | .check r f => (s.cache.checkAndUpdateCache r f.identifier).map fun x => { s with cache := x.2 }
  | .canAllocate r f encoderComputeBudget =>
    (s.cache.canAllocate f.length encoderComputeBudget (tokens s.pending)).map fun x =>
    ⟨x.2, if x.1 then s.pending ++ [(r, f)] else s.pending⟩
  | .allocate r f => (s.cache.allocate r f.identifier f.length).map fun cache => ⟨cache, s.pending.erase (r, f)⟩
  | .giveUp => some { s with pending := [] }
  | .freeInput r f => some { s with cache := s.cache.freeEncoderInput r f }
  | .getFreed => some { s with cache := s.cache.getFreedMmHashes.2 }

def Issues (cfg : EncoderConfig) (s : CacheRun ι μ) : CacheCall ι μ → Prop
  | .check _ _ => cfg.isEncoderDecoder = false
  | .canAllocate _ f _ => cfg.isEncoderDecoder = false →
    s.cache.cached.get? f.identifier = none ∧ ∀ x ∈ s.pending, x.2.identifier ≠ f.identifier
  | .allocate r f => (r, f) ∈ s.pending
  | _ => True

/-- An encoder-decoder model allocates no input that is cached. -/
def Uncached (cfg : EncoderConfig) (s : CacheRun ι μ) : CacheCall ι μ → Prop
  | .allocate _ f => cfg.isEncoderDecoder = true → s.cache.cached.get? f.identifier = none
  | _ => True

def Sized (len : μ → Nat) : CacheCall ι μ → Prop
  | .check _ f | .canAllocate _ f _ | .allocate _ f | .freeInput _ f => f.length = len f.identifier
  | _ => True

variable {cfg : EncoderConfig} {len : μ → Nat} {s s' : CacheRun ι μ} {c : CacheCall ι μ} {size : Nat}

structure Sound (cfg : EncoderConfig) (len : μ → Nat) (s : CacheRun ι μ) : Prop where
  accounts : s.cache.Accounts len
  room : (tokens s.pending : Int) ≤ s.cache.numFreeSlots
  sized : ∀ x ∈ s.pending, x.2.length = len x.2.identifier
  distinct : cfg.isEncoderDecoder = false → (s.pending.map fun x => x.2.identifier).Nodup
  uncached : cfg.isEncoderDecoder = false → ∀ x ∈ s.pending, s.cache.cached.get? x.2.identifier = none

omit [DecidableEq ι] in
theorem start_sound (cfg : EncoderConfig) (len : μ → Nat) (size : Nat) : Sound cfg len (start size : CacheRun ι μ) where
  accounts := init_accounts len size
  room := Int.natCast_nonneg _
  sized := fun _ hx => (by cases hx)
  distinct := fun _ => nodup_nil
  uncached := fun _ _ hx => (by cases hx)

omit [DecidableEq ι] [DecidableEq μ] in
theorem tokens_concat (inputs : List (ι × MmFeature μ)) (r : ι) (f : MmFeature μ) :
    tokens (inputs ++ [(r, f)]) = tokens inputs + f.length := by
  simp [tokens]

theorem tokens_erase {inputs : List (ι × MmFeature μ)} {x : ι × MmFeature μ} (hx : x ∈ inputs) :
    tokens inputs = x.2.length + tokens (inputs.erase x) := by
  have hperm := (perm_cons_erase hx).map fun x : ι × MmFeature μ => x.2.length
  rw [tokens, hperm.sum_eq, map_cons, sum_cons, tokens]

section

variable (h : Sound cfg len s)
include h

section
variable {m : EncoderCacheManager ι μ}

omit [DecidableEq ι] in
theorem Sound.frame (hm : m.Accounts len) (hfree : m.numFreeSlots = s.cache.numFreeSlots)
    (hcached : ∀ k, s.cache.cached.get? k = none → m.cached.get? k = none) : Sound cfg len { s with cache := m } where
  accounts := hm
  room := hfree ▸ h.room
  sized := h.sized
  distinct := h.distinct
  uncached := fun hdec x hx => hcached _ (h.uncached hdec x hx)

omit [DecidableEq ι] in
theorem Sound.canAllocate {r : ι} {budget : Int} {fits : Bool}
    (hissued : s.Issues cfg (.canAllocate r f budget)) (hf : f.length = len f.identifier)
    (hm : m.Accounts len) (hev : EncoderCacheManager.Evicts s.cache m)
    (hroom : fits = true → (f.length : Int) + tokens s.pending ≤ m.numFreeSlots)
    (hsame : fits = false → m = s.cache) :
    Sound cfg len ⟨m, if fits then s.pending ++ [(r, f)] else s.pending⟩ := by
  have hnone : ∀ k, s.cache.cached.get? k = none → m.cached.get? k = none := fun k hk =>
    eq_none_iff_forall_ne_some.2 fun refs hrefs => absurd ((hev.back k refs hrefs).symm.trans hk) (by simp)
  cases fits with
  | false =>
    rw [hsame rfl]
    exact h
  | true =>
    rw [if_pos rfl]
    refine ⟨hm, ?_, fun x hx => ?_, fun hdec => ?_, fun hdec x hx => ?_⟩
    · have := hroom rfl
      show (tokens (s.pending ++ [(r, f)]) : Int) ≤ m.numFreeSlots
      rw [tokens_concat]
      omega
    · rcases mem_append.1 hx with hx | hx
      · exact h.sized x hx
      · rw [mem_singleton.1 hx]
        exact hf
    · rw [map_append, nodup_append]
      refine ⟨h.distinct hdec, nodup_singleton _, fun a ha b hb hab => ?_⟩
      obtain ⟨x, hx, rfl⟩ := mem_map.1 ha
      obtain rfl := mem_singleton.1 hb
      exact (hissued hdec).2 x hx hab
    · rcases mem_append.1 hx with hx | hx
      · exact hnone _ (h.uncached hdec x hx)
      · rw [mem_singleton.1 hx]
        exact hnone _ (hissued hdec).1

theorem Sound.allocate {r : ι} (hissued : s.Issues cfg (.allocate r f))
    (hnone : s.cache.cached.get? f.identifier = none) (hm : s.cache.allocate r f.identifier f.length = some m) :
    Sound cfg len ⟨m, s.pending.erase (r, f)⟩ := by
  have hperm := perm_cons_erase hissued
  have hsub : ∀ x ∈ s.pending.erase (r, f), x ∈ s.pending := fun x hx => mem_of_mem_erase hx
  have hf := h.sized _ hissued
  obtain ⟨-, hmeq⟩ := allocate_eq_some hm
  rw [show f.length = len f.identifier from hf] at hm
  refine ⟨h.accounts.allocate hnone hm, ?_, fun x hx => h.sized x (hsub x hx), fun hdec => ?_, fun hdec x hx => ?_⟩
  · have hroom := h.room
    rw [tokens_erase hissued] at hroom
    rw [hmeq]
    show (tokens (s.pending.erase (r, f)) : Int) ≤ s.cache.numFreeSlots - f.length
    simp only at hroom
    omega
  · exact (h.distinct hdec).sublist (erase_sublist.map _)
  · -- the hashes of pending inputs are distinct
    have hne : x.2.identifier ≠ f.identifier := fun heq => by
      have hnodup := (hperm.map fun x : ι × MmFeature μ => x.2.identifier).nodup_iff.1 (h.distinct hdec)
      exact (nodup_cons.1 hnodup).1 (mem_map.2 ⟨x, hx, heq⟩)
    rw [hmeq]
    rw [get?_set_of_ne hne]
    exact h.uncached hdec x (hsub x hx)

end

theorem Sound.exec_isSome (hissued : s.Issues cfg c) : (s.exec c).isSome := by
  cases c with
  | check r f =>
    obtain ⟨hit, m, he, -⟩ := h.accounts.checkAndUpdateCache r f.identifier
    rw [exec, he]
    rfl
  | canAllocate r f budget =>
    obtain ⟨fits, m, he, -⟩ := h.accounts.canAllocate f.length budget (tokens s.pending)
    rw [exec, he]
    rfl
  | allocate r f =>
    have hroom := h.room
    rw [tokens_erase hissued] at hroom
    have hle : (f.length : Int) ≤ s.cache.numFreeSlots := by
      simp only at hroom
      omega
    rw [exec, isSome_map]
    exact h.accounts.allocate_isSome hle r f.identifier
  | giveUp | freeInput | getFreed => rfl

theorem Sound.step (hsized : Sized len c) (hissued : s.Issues cfg c) (hunc : s.Uncached cfg c)
    (hstep : s.exec c = some s') : Sound cfg len s' := by
  cases c with
  | check r f =>
    obtain ⟨hit, m, he, hm, hfree, hcached⟩ := h.accounts.checkAndUpdateCache r f.identifier
    rw [exec, he] at hstep
    cases hstep
    exact h.frame hm hfree fun k hk => (hcached k).2 hk
  | canAllocate r f budget =>
    obtain ⟨fits, m, he, hm, hev, hroom, hsame⟩ := h.accounts.canAllocate f.length budget (tokens s.pending)
    rw [exec, he] at hstep
    cases hstep
    exact h.canAllocate hissued hsized hm hev hroom hsame
  | allocate r f =>
    obtain ⟨m, hm, rfl⟩ := map_eq_some_iff.1 hstep
    refine h.allocate hissued ?_ hm
    cases hdec : cfg.isEncoderDecoder with
    | true => exact hunc hdec
    | false => exact h.uncached hdec _ hissued
  | giveUp =>
    cases hstep
    exact ⟨h.accounts, (Int.natCast_nonneg 0).trans ((Int.natCast_nonneg _).trans h.room),
      fun _ hx => (by cases hx), fun _ => nodup_nil, fun _ _ hx => (by cases hx)⟩
  | freeInput r f =>
    cases hstep
    obtain ⟨hfree, hcached⟩ := freeEncoderInput_frame s.cache r f
    exact h.frame (h.accounts.freeEncoderInput hsized r) hfree fun k hk => (hcached k).2 hk
  | getFreed =>
    cases hstep
    exact h.frame ⟨h.accounts.free, h.accounts.freeable, h.accounts.unused⟩ rfl fun _ hk => hk

end

/-- After every sequence of calls the counters are right, and no call that the scheduler makes next
raises: inputs with one hash have one number of tokens, and an encoder-decoder model allocates none
whose hash is in the cache. -/
theorem run_accounts {calls : List (CacheCall ι μ)}
    (hcalls : Along exec (fun s c => s.Issues cfg c ∧ Sized len c ∧ s.Uncached cfg c) (start size) calls)
    (hrun : runFrom exec (start size) calls = some s) :
    s.cache.Accounts len ∧ ∀ c, s.Issues cfg c → (s.exec c).isSome := by
  have hsound : Sound cfg len s :=
    hcalls.invariant (I := Sound cfg len) (fun _ _ _ h hc hstep => h.step hc.2.1 hc.1 hc.2.2 hstep)
      (start_sound cfg len size) hrun
  exact ⟨hsound.accounts, fun c hissued => hsound.exec_isSome hissued⟩

def sharedCalls : List (CacheCall Nat Nat) :=
  [.check 0 ⟨7, 0, 4⟩, .canAllocate 0 ⟨7, 0, 4⟩ 8, .allocate 0 ⟨7, 0, 4⟩, .check 1 ⟨7, 1, 4⟩,
    .freeInput 0 ⟨7, 0, 4⟩, .getFreed]

theorem sharedCalls_accounts : ∃ s, runFrom exec (start 10) sharedCalls = some s ∧ s.cache.cached.get? 7 = some [1] ∧
    s.cache.Accounts (fun _ => 4) ∧ (s.exec (.canAllocate 1 ⟨8, 5, 6⟩ 8)).isSome := by
  obtain ⟨s, hs⟩ := isSome_iff_exists.1 (show (runFrom exec (start 10) sharedCalls).isSome from rfl)
  have hcalls : Along exec (fun s c => s.Issues ⟨false, false⟩ c ∧ Sized (fun _ => 4) c ∧
    s.Uncached ⟨false, false⟩ c) (start 10) sharedCalls :=
    fun _ h₁ => ⟨⟨rfl, rfl, trivial⟩, by
      cases h₁
      exact fun _ h₂ => ⟨⟨fun _ => ⟨rfl, fun _ hx => (by cases hx)⟩, rfl, trivial⟩, by
        cases h₂
        exact fun _ h₃ => ⟨⟨mem_singleton.2 rfl, rfl, fun h => (by cases h)⟩, by
          cases h₃
          exact fun _ _ => ⟨⟨rfl, rfl, trivial⟩, fun _ _ =>
            ⟨⟨trivial, rfl, trivial⟩, fun _ _ => ⟨⟨trivial, trivial, trivial⟩, trivial⟩⟩⟩⟩⟩⟩
  have href : ((runFrom exec (start 10) sharedCalls).any fun s =>
      decide (s.cache.cached.get? 7 = some [1]) && decide (s.cache.cached.get? 8 = none) &&
        decide (s.pending = [])) = true := by decide +kernel
  rw [hs, any_some, Bool.and_eq_true, Bool.and_eq_true, decide_eq_true_eq, decide_eq_true_eq, decide_eq_true_eq] at href
  have hacc := run_accounts hcalls hs
  exact ⟨s, hs, href.1.1, hacc.1, hacc.2 _ fun _ => ⟨href.1.2, href.2 ▸ fun _ hx => (by cases hx)⟩⟩

end CacheRun

end Xmix.Sched
