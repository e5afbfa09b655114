import Xmix.Kv.Groups

/-!
# The stages of `allocate_slots`

Each stage is a loop of the coordinator over the groups. `eachGroup_spec` is the rule for such a
loop: what a step does to one group and to the pool, whatever the other groups hold, the loop does
to all of them. The stages then say what becomes of each group (`Moves`), and that the pool counts
the references of the new lists.
-/

namespace Xmix.Kv

open GroupManager List Option

variable {ι η : Type} [DecidableEq η]

namespace KVCacheManager

def occurrences (m : KVCacheManager ι η) (b : Nat) : Nat := (m.groups.map fun gm => gm.occ b).sum

def weigh (w : Nat → GroupManager ι → Nat → Nat) : Nat → List (GroupManager ι) → Nat → Nat
  | _, [], _ => 0
  | g, m :: ms, b => w g m b + weigh w (g + 1) ms b

omit [DecidableEq η] in
theorem weigh_occ (g : Nat) (ms : List (GroupManager ι)) (b : Nat) :
    weigh (fun _ gm => gm.occ) g ms b = (ms.map fun gm => gm.occ b).sum := by
  induction ms generalizing g with
  | nil => rfl
  | cons m ms ih => simp [weigh, ih, sum_cons]

def Clear (p : BlockPool η) : Prop := p.blockHash p.nullBlock = none

def PoolStep (N : Prop) (p p' : BlockPool η) : Prop := p.SameShape p' ∧ (N → Clear p → Clear p')

variable {N : Prop} {p p' : BlockPool η}

section

omit [DecidableEq η]

theorem PoolStep.refl (N : Prop) (p : BlockPool η) : PoolStep N p p := ⟨⟨rfl, rfl, rfl⟩, fun _ h => h⟩

theorem PoolStep.trans {p'' : BlockPool η} (h : PoolStep N p p') (h' : PoolStep N p' p'') : PoolStep N p p'' :=
  ⟨h.1.trans h'.1, fun hN hp => h'.2 hN (h.2 hN hp)⟩

theorem PoolStep.of_hash (hs : p.SameShape p')
    (h : N → p'.blockHash p.nullBlock = p.blockHash p.nullBlock) : PoolStep N p p' :=
  ⟨hs, fun hN hp => by
    rw [Clear, hs.2.2, h hN]
    exact hp⟩

end

section Loop
variable {α : Type} {f : GroupStep ι η α}

theorem eachGroup_spec {w w' : Nat → GroupManager ι → Nat → Nat}
    {R : Nat → GroupManager ι → GroupManager ι → α → Prop}
    {ms ms' : List (GroupManager ι)} {as : List α} {g : Nat}
    {o : Nat → Nat} (hstep : ∀ i gm, ms[i]? = some gm → ∀ q (o : Nat → Nat) a gm' q', PoolStep N p q →
      q.Inv (fun b => o b + w (g + i) gm b) → f (g + i) gm q = some (a, gm', q') →
      q'.Inv (fun b => o b + w' (g + i) gm' b) ∧ PoolStep N q q' ∧ R (g + i) gm gm' a)
    (hp : p.Inv fun b => o b + weigh w g ms b) (h : eachGroup f g ms p = some (as, ms', p')) :
    p'.Inv (fun b => o b + weigh w' g ms' b) ∧ PoolStep N p p' ∧ ms'.length = ms.length ∧ as.length = ms.length ∧
      ∀ i gm, ms[i]? = some gm → ∃ gm' a, ms'[i]? = some gm' ∧ as[i]? = some a ∧ R (g + i) gm gm' a := by
  induction ms generalizing g o p as ms' with
  | nil =>
    cases h
    exact ⟨hp, .refl N _, rfl, rfl, by simp⟩
  | cons gm ms ih =>
    obtain ⟨⟨a, gm', p₁⟩, hf, h⟩ := bind_eq_some_iff.1 h
    obtain ⟨⟨as', ms₁, p₂⟩, hrest, h⟩ := bind_eq_some_iff.1 h
    cases h
    -- the groups still to come are part of the frame
    obtain ⟨h₁, h₂, h₃⟩ := hstep 0 gm rfl p (fun b => o b + weigh w (g + 1) ms b) a gm' p₁ (.refl N p)
      (hp.congr fun b _ => by simp only [weigh, Nat.add_zero]; omega) hf
    obtain ⟨h₄, h₅, h₆, h₇, h₈⟩ := ih (p := p₁) (g := g + 1) (o := fun b => o b + w' g gm' b)
      (fun i x hx q o a x' q' hq hinv hfx => by
        have := hstep (i + 1) x (by simpa using hx) q o a x' q' (h₂.trans hq)
        rw [show g + (i + 1) = g + 1 + i by omega] at this
        exact this hinv hfx)
      (h₁.congr fun b _ => by simp only [Nat.add_zero]; omega) hrest
    refine ⟨h₄.congr fun b _ => by simp only [weigh]; omega, h₂.trans h₅, by simp [h₆], by simp [h₇], fun i x hx => ?_⟩
    cases i with
    | zero =>
      obtain rfl : gm = x := by simpa using hx
      exact ⟨gm', a, rfl, rfl, h₃⟩
    | succ i =>
      obtain ⟨x', a', h₉⟩ := h₈ i x (by simpa using hx)
      refine ⟨x', a', by simpa using h₉.1, by simpa using h₉.2.1, ?_⟩
      rw [show g + (i + 1) = g + 1 + i by omega]
      exact h₉.2.2

omit [DecidableEq η] in
theorem eachGroup_id {ms : List (GroupManager ι)} {g : Nat} (a : α) (h : ∀ gm ∈ ms, ∀ g q, f g gm q = some (a, gm, q)) :
    eachGroup f g ms p = some (ms.map fun _ => a, ms, p) := by
  induction ms generalizing g with
  | nil => rfl
  | cons gm ms ih =>
    have hrest := ih (g := g + 1) fun x hx => h x (by simp [hx])
    simp [eachGroup, h gm (by simp), hrest]

omit [DecidableEq η] in
theorem eachGroup_keeps {β : Type} {t : BlockPool η → β} {ms ms' : List (GroupManager ι)}
    {as : List α} {g : Nat} (hf : ∀ g gm q a gm' q', f g gm q = some (a, gm', q') → t q' = t q)
    (h : eachGroup f g ms p = some (as, ms', p')) : t p' = t p := by
  induction ms generalizing g p as ms' with
  | nil =>
    cases h
    rfl
  | cons gm ms ih =>
    obtain ⟨⟨a, gm', p₁⟩, h₁, h⟩ := bind_eq_some_iff.1 h
    obtain ⟨⟨as', ms₁, p₂⟩, h₂, h⟩ := bind_eq_some_iff.1 h
    cases h
    exact (ih h₂).trans (hf _ _ _ _ _ _ h₁)

end Loop

structure Moves (N : Prop) (R : Nat → GroupManager ι → GroupManager ι → Prop) (m m' : KVCacheManager ι η) : Prop where
  counted : m'.blockPool.Inv m'.occurrences
  pool : PoolStep N m.blockPool m'.blockPool
  maxModelLen : m'.maxModelLen = m.maxModelLen
  useEagle : m'.useEagle = m.useEagle
  length : m'.groups.length = m.groups.length
  each : ∀ g gm, m.groups[g]? = some gm → ∃ gm', m'.groups[g]? = some gm' ∧ R g gm gm'

variable {m m' m'' : KVCacheManager ι η} {R R' : Nat → GroupManager ι → GroupManager ι → Prop}

theorem Moves.refl (h : m.blockPool.Inv m.occurrences) : Moves N (fun _ gm gm' => gm' = gm) m m :=
  ⟨h, .refl N _, rfl, rfl, rfl, fun _ gm hg => ⟨gm, hg, rfl⟩⟩

section

variable (h : Moves N R m m')
include h

theorem Moves.mono (hR : ∀ g gm gm', m.groups[g]? = some gm → R g gm gm' → R' g gm gm') : Moves N R' m m' :=
  { h with
    each := fun g gm hg => by
      obtain ⟨gm', h₁, h₂⟩ := h.each g gm hg
      exact ⟨gm', h₁, hR g gm gm' hg h₂⟩ }

theorem Moves.trans (h' : Moves N R' m' m'') :
    Moves N (fun g gm gm'' => ∃ gm', R g gm gm' ∧ R' g gm' gm'') m m'' where
  counted := h'.counted
  pool := h.pool.trans h'.pool
  maxModelLen := h'.maxModelLen.trans h.maxModelLen
  useEagle := h'.useEagle.trans h.useEagle
  length := h'.length.trans h.length
  each := fun g gm hg => by
    obtain ⟨gm', h₁, h₂⟩ := h.each g gm hg
    obtain ⟨gm'', h₃, h₄⟩ := h'.each g gm' h₁
    exact ⟨gm'', h₃, gm', h₂, h₄⟩

theorem Moves.of_mem {gm' : GroupManager ι} (hgm : gm' ∈ m'.groups) :
    ∃ g gm, m.groups[g]? = some gm ∧ m'.groups[g]? = some gm' ∧ R g gm gm' := by
  obtain ⟨g, hg⟩ := getElem?_of_mem hgm
  have hlt : g < m.groups.length := by
    rw [← h.length]
    exact (List.getElem?_eq_some_iff.1 hg).1
  obtain ⟨x, hx, hR⟩ := h.each g _ (getElem?_eq_getElem hlt)
  cases hx.symm.trans hg
  exact ⟨g, _, getElem?_eq_getElem hlt, hg, hR⟩

theorem Moves.map_eq {β : Type} {f : GroupManager ι → β} (hf : ∀ g gm gm', R g gm gm' → f gm' = f gm) :
    m'.groups.map f = m.groups.map f := by
  refine ext_getElem? fun g => ?_
  rw [getElem?_map, getElem?_map]
  rcases hg : m.groups[g]? with - | gm
  · rw [getElem?_eq_none (by rw [h.length]; exact getElem?_eq_none_iff.1 hg)]
  · obtain ⟨gm', hgm', hR⟩ := h.each g gm hg
    rw [hgm', map_some, map_some, hf g gm gm' hR]

theorem Moves.caching : m'.enableCaching = m.enableCaching := h.pool.1.2.1

theorem Moves.null : m'.blockPool.nullBlock = m.blockPool.nullBlock := h.pool.1.2.2

end

theorem forGroups_moves {α : Type} {f : GroupStep ι η α} {as : List α}
    {w : Nat → GroupManager ι → Nat → Nat} {R : Nat → GroupManager ι → GroupManager ι → α → Prop}
    (hp : m.blockPool.Inv (weigh w 0 m.groups)) (hstep : ∀ g gm, m.groups[g]? = some gm →
      ∀ q (o : Nat → Nat) a gm' q', PoolStep N m.blockPool q → q.Inv (fun b => o b + w g gm b) →
      f g gm q = some (a, gm', q') → q'.Inv (fun b => o b + gm'.occ b) ∧ PoolStep N q q' ∧ R g gm gm' a)
    (h : m.forGroups f = some (as, m')) :
    Moves N (fun g gm gm' => ∃ a, as[g]? = some a ∧ R g gm gm' a) m m' := by
  obtain ⟨⟨as', ms, p'⟩, heach, h⟩ := bind_eq_some_iff.1 h
  obtain ⟨rfl, rfl⟩ := Prod.mk.inj (some.inj h)
  obtain ⟨h₁, h₂, h₃, -, h₅⟩ := @eachGroup_spec ι η _ N _ _ α f w (fun _ gm => gm.occ) R m.groups ms as' 0 (fun _ => 0)
    (fun i gm hi => by
      rw [Nat.zero_add]
      exact hstep i gm hi)
    (hp.congr fun b _ => Nat.zero_add _) heach
  refine ⟨h₁.congr fun b _ => ?_, h₂, rfl, rfl, h₃, fun g gm hg => ?_⟩
  · rw [Nat.zero_add, weigh_occ]
    rfl
  · obtain ⟨gm', a, h₆, h₇, h₈⟩ := h₅ g gm hg
    rw [Nat.zero_add] at h₈
    exact ⟨gm', h₆, a, h₇, h₈⟩

section
variable {f : GroupUpdate ι η}

theorem runGroups_moves {w : Nat → GroupManager ι → Nat → Nat}
    (hp : m.blockPool.Inv (weigh w 0 m.groups)) (hstep : ∀ g gm, m.groups[g]? = some gm →
      ∀ q (o : Nat → Nat) gm' q', PoolStep N m.blockPool q → q.Inv (fun b => o b + w g gm b) →
      f g gm q = some (gm', q') → q'.Inv (fun b => o b + gm'.occ b) ∧ PoolStep N q q' ∧ R g gm gm')
    (h : m.runGroups f = some m') : Moves N R m m' := by
  obtain ⟨⟨as, m₁⟩, hfor, h⟩ := bind_eq_some_iff.1 h
  cases h
  refine (forGroups_moves (R := fun g gm gm' _ => R g gm gm') hp ?_ hfor).mono fun g gm gm' _ hR => ?_
  · intro g gm hg q o a gm' q' hq hinv hf
    obtain ⟨x, hx, heq⟩ := map_eq_some_iff.1 hf
    obtain ⟨-, rfl⟩ := Prod.mk.inj heq
    exact hstep g gm hg q o gm' q' hq hinv hx
  · obtain ⟨_, _, hR⟩ := hR
    exact hR

omit [DecidableEq η] in
theorem runGroups_keeps {β : Type}
    {t : BlockPool η → β} (hf : ∀ g gm q gm' q', f g gm q = some (gm', q') → t q' = t q) (h : m.runGroups f = some m') :
    t m'.blockPool = t m.blockPool := by
  obtain ⟨⟨as, m₁⟩, hfor, h⟩ := bind_eq_some_iff.1 h
  obtain ⟨⟨as', ms, p'⟩, heach, hfor⟩ := bind_eq_some_iff.1 hfor
  cases h
  cases hfor
  refine eachGroup_keeps (fun g gm q a gm' q' hq => ?_) heach
  obtain ⟨x, hx, heq⟩ := map_eq_some_iff.1 hq
  obtain ⟨-, rfl⟩ := Prod.mk.inj heq
  exact hf g gm q gm' q' hx

end

theorem counted_weigh (h : m.blockPool.Inv m.occurrences) : m.blockPool.Inv (weigh (fun _ gm => gm.occ) 0 m.groups) :=
  h.congr fun b _ => weigh_occ 0 m.groups b

/-! ### The stages -/

variable [DecidableEq ι] {r : ι}

def Once (m : KVCacheManager ι η) (r : ι) : Prop := ∀ gm ∈ m.groups, gm.Once m.blockPool.nullBlock r

/-- The blocks of `r` that the window leaves behind after `n` tokens are null in `gm'`. -/
def Skipped (m : KVCacheManager ι η) (r : ι) (n : Nat) (gm gm' : GroupManager ι) : Prop :=
  gm.Skips r m.blockPool.nullBlock (numSkippedBlocks gm.spec n) gm'

theorem removeSkippedBlocks_moves {n : Nat} (hp : m.blockPool.Inv m.occurrences) (hone : m.Once r)
    (h : m.removeSkippedBlocks r n = some m') : Moves N (fun _ => m.Skipped r n) m m' := by
  refine runGroups_moves (counted_weigh hp) ?_ h
  intro g gm hg q o gm' q' hq hinv hf
  have hnull : q.nullBlock = m.blockPool.nullBlock := hq.1.2.2
  obtain ⟨h₁, h₂, h₃, h₄⟩ := removeSkippedBlocks_spec hinv
    (fun b hb => hone gm (mem_of_getElem? hg) b (hnull ▸ hb)) hf
  rw [hnull] at h₄
  exact ⟨h₁, .of_hash h₂ fun _ => by rw [h₃], h₄⟩

omit [DecidableEq η] in
theorem removeSkippedBlocks_id {n : Nat} (h : ∀ gm ∈ m.groups, getNumSkippedTokens gm.spec n ≤ 0) :
    m.removeSkippedBlocks r n = some m := by
  have hid := @eachGroup_id ι η m.blockPool Unit
    (fun _ gm p => (gm.removeSkippedBlocks p r n).map fun x => ((), x)) m.groups 0 ()
    (fun gm hgm _ q => by simp only [GroupManager.removeSkippedBlocks, if_pos (h gm hgm), map_some])
  simp [removeSkippedBlocks, runGroups, forGroups, hid]

structure Computed (m : KVCacheManager ι η) (newComputed : List (List Nat)) : Prop where
  length : newComputed.length = m.groups.length
  bound : ∀ bs ∈ newComputed, ∀ b ∈ bs, b < m.blockPool.numGpuBlocks
  once : ∀ b, b ≠ m.blockPool.nullBlock → newComputed.flatten.count b ≤ 1

def numEvictable (p : BlockPool η) (newComputed : List (List Nat)) : Nat :=
  (newComputed.flatten.filter fun b => p.refCnt b = 0 ∧ b ≠ p.nullBlock).length

omit [DecidableEq η] [DecidableEq ι] in
theorem weigh_computed (ms : List (GroupManager ι))
    (g : Nat) (newComputed : List (List Nat)) (hlen : newComputed.length = ms.length + g) (b : Nat) :
    weigh (fun g gm b => gm.occ b + ((newComputed[g]?).getD []).count b) g ms b =
      (ms.map fun gm => gm.occ b).sum + (newComputed.drop g).flatten.count b := by
  induction ms generalizing g with
  | nil =>
    rw [drop_of_length_le (by simp at hlen; omega)]
    simp [weigh]
  | cons gm ms ih =>
    have hg : g < newComputed.length := by simp at hlen; omega
    rw [weigh, ih (g + 1) (by simp at hlen; omega), drop_eq_getElem_cons hg, flatten_cons, count_append,
      getElem?_eq_getElem hg, getD_some, map_cons, sum_cons]
    omega

theorem takeComputed_moves {newComputed : List (List Nat)} (hp : m.blockPool.Inv m.occurrences)
    (hc : m.Computed newComputed) (h : m.takeComputed r newComputed = some m') :
    Moves N (fun g gm gm' => ∃ new, newComputed[g]? = some new ∧ GroupManager.Saved r new gm gm') m m' ∧
      m'.blockPool.getNumFreeBlocks = m.blockPool.getNumFreeBlocks - numEvictable m.blockPool newComputed := by
  rw [takeComputed] at h
  split at h
  next hany =>
    split at h
    · obtain ⟨p₁, htouch, h⟩ := bind_eq_some_iff.1 h
      obtain ⟨p₂, hp₂, hinv, hshape, hhash, hfree⟩ := BlockPool.touch_spec hp (l := newComputed.flatten) (fun b hb => by
        obtain ⟨bs, hbs, hb⟩ := mem_flatten.1 hb
        exact hc.bound bs hbs b hb)
      cases htouch.symm.trans hp₂
      have hweigh : p₁.Inv (weigh (fun g gm b => gm.occ b + ((newComputed[g]?).getD []).count b) 0 m.groups) :=
        hinv.congr fun b _ => by
          rw [weigh_computed _ _ _ (by rw [hc.length, Nat.add_zero])]
          rfl
      have hkeep : m'.blockPool = p₁ := runGroups_keeps (t := id) (fun g gm q gm' q' hf => by
        obtain ⟨new, -, hf⟩ := bind_eq_some_iff.1 hf
        obtain ⟨gm₁, -, hf⟩ := bind_eq_some_iff.1 hf
        cases hf
        rfl) h
      have hmoves := @runGroups_moves ι η _ N { m with blockPool := p₁ } m'
        (fun g gm gm' => ∃ new, newComputed[g]? = some new ∧ Saved r new gm gm') _ _ hweigh ?_ h
      · refine ⟨{ hmoves with pool := (PoolStep.of_hash hshape fun _ => by rw [hhash]).trans hmoves.pool }, ?_⟩
        rw [hkeep, hfree hc.once, numEvictable]
        refine congrArg (fun l : List Nat => m.blockPool.getNumFreeBlocks - (l.length : Int))
          (filter_congr fun b _ => ?_)
        by_cases hb : b = m.blockPool.nullBlock
        · simp [hb]
        · simp [hp.refs b hb]
      · intro g gm hg q o gm' q' hq hinv hf
        obtain ⟨new, hnew, hf⟩ := bind_eq_some_iff.1 hf
        obtain ⟨gm₁, hsave, hf⟩ := bind_eq_some_iff.1 hf
        cases hf
        obtain ⟨h₁, h₂⟩ := saveNewComputedBlocks_spec hsave
        refine ⟨hinv.congr fun b _ => ?_, .refl N _, new, hnew, h₁⟩
        rw [h₂, hnew, getD_some]
    · cases h
  next hany =>
    cases h
    have hnil : ∀ bs ∈ newComputed, bs = [] := fun bs hbs => by
      simp only [anyComputed, List.any_eq_true, not_exists, not_and, Bool.not_eq_true', Bool.not_eq_false] at hany
      exact List.isEmpty_iff.1 (hany bs hbs)
    refine ⟨(Moves.refl hp).mono fun g gm gm' hg hgm => ?_, ?_⟩
    · have hlt : g < newComputed.length := by
        rw [hc.length]
        exact (List.getElem?_eq_some_iff.1 hg).1
      rw [hgm]
      refine ⟨_, getElem?_eq_getElem hlt, ?_⟩
      rw [hnil _ (getElem_mem hlt)]
      exact .refl r gm
    · have : newComputed.flatten = [] := by
        rw [flatten_eq_nil_iff]
        exact hnil
      simp [numEvictable, this]

/-! ### New blocks -/

def requiredBlocks (spec : GroupSpec) (n encoder : Nat) : Nat :=
  cdiv (slotTokens spec (tokensFor spec n encoder)) spec.blockSize

def demand (r : ι) (n encoder : Nat) (gm : GroupManager ι) : Nat :=
  requiredBlocks gm.spec n encoder - (gm.blocksOf r).length

section
variable {α : Type} {f : GroupStep ι η α}
omit [DecidableEq η] [DecidableEq ι]

theorem eachGroup_cons_isSome {g : Nat} {gm gm' : GroupManager ι}
    {ms : List (GroupManager ι)} {a : α} {p' : BlockPool η} (h : f g gm p = some (a, gm', p')) :
    (eachGroup f g (gm :: ms) p).isSome = (eachGroup f (g + 1) ms p').isSome := by
  simp only [eachGroup, h, bind_eq_bind, bind_some]
  cases eachGroup f (g + 1) ms p' <;> rfl

theorem forGroups_isSome : (m.forGroups f).isSome = (eachGroup f 0 m.groups m.blockPool).isSome := by
  simp only [forGroups, bind_eq_bind]
  cases eachGroup f 0 m.groups m.blockPool <;> rfl

end

theorem eachGroup_allocate_isSome {n encoder g : Nat} {ms : List (GroupManager ι)} {o : Nat → Nat}
    (hp : p.Inv fun b => o b + weigh (fun _ gm => gm.occ) g ms b) :
    (eachGroup (fun _ gm p => gm.allocateNewBlocks p r (tokensFor gm.spec n encoder)) g ms p).isSome ↔
      ((ms.map (demand r n encoder)).sum : Int) ≤ p.getNumFreeBlocks := by
  induction ms generalizing g p o with
  | nil =>
    simp only [eachGroup, isSome_some, map_nil, sum_nil, true_iff]
    exact hp.free_nonneg
  | cons gm ms ih =>
    have hnonneg := hp.free_nonneg
    have hp' : p.Inv fun b => (o b + weigh (fun _ gm => gm.occ) (g + 1) ms b) + gm.occ b :=
      hp.congr fun b _ => by simp only [weigh]; omega
    rw [map_cons, sum_cons]
    by_cases hfree : ((demand r n encoder gm : Nat) : Int) ≤ p.getNumFreeBlocks
    · obtain ⟨new, gm', p', hstep, hinv, -, hgrown, hnum, -⟩ := allocateNewBlocks_spec hp' hfree
      have hrest := ih (g := g + 1) (o := fun b => o b + gm'.occ b) (hinv.congr fun b _ => by omega)
      have hlen : new.length = demand r n encoder gm := hgrown.length
      rw [hnum, hlen] at hrest
      rw [eachGroup_cons_isSome hstep, hrest]
      omega
    · have hnone : gm.allocateNewBlocks p r (tokensFor gm.spec n encoder) = none := by
        refine allocateNewBlocks_eq_none (by simpa [demand, requiredBlocks] using hfree) ?_
        rw [demand, requiredBlocks] at hfree
        omega
      simp only [eachGroup, hnone, bind_eq_bind, bind_none, isSome_none, Bool.false_eq_true, false_iff]
      omega

theorem allocateNewBlocks_isSome {n encoder : Nat} (hp : m.blockPool.Inv m.occurrences) :
    (m.allocateNewBlocks r n encoder).isSome ↔
      ((m.groups.map (demand r n encoder)).sum : Int) ≤ m.blockPool.getNumFreeBlocks := by
  rw [← eachGroup_allocate_isSome (o := fun _ => 0) (g := 0) ((counted_weigh hp).congr fun b _ => Nat.zero_add _),
    allocateNewBlocks, forGroups_isSome]

theorem allocateNewBlocks_moves {n encoder : Nat} {new : List (List Nat)} (hp : m.blockPool.Inv m.occurrences)
    (h : m.allocateNewBlocks r n encoder = some (new, m')) :
    Moves N (fun g gm gm' => ∃ bs, new[g]? = some bs ∧ GroupManager.Grown r m.blockPool.nullBlock
      (requiredBlocks gm.spec n encoder) bs gm gm') m m' := by
  refine forGroups_moves (counted_weigh hp) ?_ h
  intro g gm hg q o bs gm' q' hq hinv hf
  have hnonneg := hinv.free_nonneg
  by_cases hfree : ((cdiv (slotTokens gm.spec (tokensFor gm.spec n encoder)) gm.spec.blockSize -
      (gm.blocksOf r).length : Nat) : Int) ≤ q.getNumFreeBlocks
  · obtain ⟨bs', gm₁, q₁, hstep, h₁, h₂, h₃, -, h₅⟩ := allocateNewBlocks_spec hinv hfree
    cases hf.symm.trans hstep
    refine ⟨h₁, .of_hash h₂ fun _ => ?_, hq.1.2.2 ▸ h₃⟩
    rw [h₅, if_neg fun hmem => (h₃.fresh _ hmem.2).1 rfl]
  · rw [allocateNewBlocks_eq_none (by omega) (by omega)] at hf
    cases hf

/-! ### Caching and freeing -/

theorem cacheBlocks_moves {q : Request ι η} {n : Nat} (hp : m.blockPool.Inv m.occurrences)
    (hN : N → ∀ gm ∈ m.groups, gm.NullsCached m.blockPool.nullBlock q.requestId) (h : m.cacheBlocks q n = some m') :
    Moves N (fun _ gm gm' => GroupManager.CachedUpTo q.requestId n gm gm') m m' := by
  refine runGroups_moves (counted_weigh hp) ?_ h
  intro g gm hg p o gm' p' hq hinv hf
  obtain ⟨h₁, h₂, -, h₄, h₅⟩ := cacheBlocks_spec hinv hf
  refine ⟨h₁, .of_hash h₂ fun hn => h₅ ?_, h₄⟩
  rw [hq.1.2.2]
  exact hN hn gm (mem_of_getElem? hg)

theorem free_moves (hp : m.blockPool.Inv m.occurrences) (hone : m.Once r) (h : m.free r = some m') :
    Moves N (fun _ gm gm' => GroupManager.Only r gm gm' ∧ gm'.blocksOf r = [] ∧
      gm'.numCachedBlock.get? r = none) m m' := by
  refine runGroups_moves (counted_weigh hp) ?_ h
  intro g gm hg q o gm' q' hq hinv hf
  obtain ⟨gm₁, q₁, hstep, h₁, h₂, h₃, h₄⟩ := free_spec hinv (r := r) (by
    rw [hq.1.2.2]
    exact hone gm (mem_of_getElem? hg))
  cases hf.symm.trans hstep
  exact ⟨h₁, .of_hash h₂ fun _ => by rw [h₃], h₄⟩

/-! ### The whole call -/

def Committed (r : ι) (null : Nat) (computed : List Nat) (required cacheTo : Nat) (caching : Bool) (new : List Nat)
    (gm gm' : GroupManager ι) : Prop :=
  ∃ gm₁ gm₂, GroupManager.Saved r computed gm gm₁ ∧ GroupManager.Grown r null required new gm₁ gm₂ ∧
    if caching then GroupManager.CachedUpTo r cacheTo gm₂ gm' else gm' = gm₂

section Committed
variable {null required cacheTo : Nat} {computed new : List Nat} {caching : Bool} {gm gm' : GroupManager ι}

theorem Committed.le_numCached (h : Committed r null computed required cacheTo true new gm gm') :
    cacheTo / gm'.spec.blockSize ≤ gm'.numCached r := by
  obtain ⟨gm₁, gm₂, -, -, h₃ : CachedUpTo r cacheTo gm₂ gm'⟩ := h
  rw [h₃.spec, h₃.num]
  exact Nat.le_max_right _ _

variable (h : Committed r null computed required cacheTo caching new gm gm')
include h

theorem Committed.only : GroupManager.Only r gm gm' := by
  obtain ⟨gm₁, gm₂, h₁, h₂, h₃⟩ := h
  refine (h₁.toOnly.trans h₂.toOnly).trans ?_
  split at h₃
  · exact h₃.toOnly
  · rw [h₃]
    exact .refl r gm₂

theorem Committed.once (hone : gm.Once null r)
    (hcomp : ∀ b, b ≠ null → computed.count b ≤ 1) : gm'.Once null r := by
  obtain ⟨gm₁, gm₂, h₁, h₂, h₃⟩ := h
  have := h₂.once (h₁.once hone hcomp)
  split at h₃
  · exact h₃.once this
  · rw [h₃]
    exact this

theorem Committed.nullsCached (hn : gm.NullsCached null r) :
    gm'.NullsCached null r := by
  obtain ⟨gm₁, gm₂, h₁, h₂, h₃⟩ := h
  have := h₂.nullsCached (h₁.nullsCached hn)
  split at h₃
  · exact h₃.nullsCached this
  · rw [h₃]
    exact this

theorem Committed.blocksOf_eq :
    gm'.blocksOf r = gm.blocksOf r ++ computed ++ new := by
  obtain ⟨gm₁, gm₂, h₁, h₂, h₃⟩ := h
  rw [← h₁.list, ← h₂.list]
  split at h₃
  · exact h₃.list
  · rw [h₃]

theorem Committed.length_blocksOf :
    (gm'.blocksOf r).length = max ((gm.blocksOf r).length + computed.length) required := by
  rw [h.blocksOf_eq]
  obtain ⟨gm₁, gm₂, h₁, h₂, -⟩ := h
  rw [← h₁.list, ← h₂.list, h₂.length_blocksOf, h₁.list, length_append]

theorem Committed.nullsFirst (hgm : NullsFirst null (gm.blocksOf r))
    (hcomp : NullsFirst null computed) : NullsFirst null (gm'.blocksOf r) := by
  rw [h.blocksOf_eq]
  obtain ⟨gm₁, gm₂, h₁, h₂, h₃⟩ := h
  refine NullsFirst.append ?_ fun hmem => (h₂.fresh _ hmem).1 rfl
  rcases h₁.first with ⟨-, rfl⟩ | ⟨hnil, -⟩
  · rwa [append_nil]
  · rwa [hnil, nil_append]

end Committed

section Whole
variable {q : Request ι η} {n encoder cacheTo : Nat} {newComputed : List (List Nat)}

theorem commitSlots_moves {new : List (List Nat)} {delay : Bool} (hp : m.blockPool.Inv m.occurrences)
    (hc : m.Computed newComputed) (hN : N → m.enableCaching = true →
      ∀ gm ∈ m.groups, gm.NullsCached m.blockPool.nullBlock q.requestId)
    (h : m.commitSlots q n encoder cacheTo newComputed delay = some (m', new)) :
    Moves N (fun g gm gm' => ∃ computed bs, newComputed[g]? = some computed ∧ new[g]? = some bs ∧
      Committed q.requestId m.blockPool.nullBlock computed (requiredBlocks gm.spec n encoder) cacheTo
        (m.enableCaching && !delay) bs gm gm') m m' := by
  obtain ⟨m₁, htake, h⟩ := bind_eq_some_iff.1 h
  obtain ⟨⟨new', m₂⟩, halloc, h⟩ := bind_eq_some_iff.1 h
  have h₁ := (takeComputed_moves (N := N) hp hc htake).1
  have h₂ := allocateNewBlocks_moves (N := N) h₁.counted halloc
  have h₁₂ := h₁.trans h₂
  rw [h₁.null] at h₁₂
  have hcond : (!m₂.enableCaching || delay) = !(m.enableCaching && !delay) := by
    rw [h₁₂.caching, Bool.not_and, Bool.not_not]
  simp only [hcond] at h
  cases hca : m.enableCaching && !delay with
  | false =>
    rw [hca] at h
    cases h
    refine h₁₂.mono fun g gm gm' _ hR => ?_
    obtain ⟨gm₁, ⟨computed, hcomp, hsaved⟩, bs, hbs, hgrown⟩ := hR
    rw [hsaved.spec] at hgrown
    exact ⟨computed, bs, hcomp, hbs, gm₁, gm', hsaved, hgrown, rfl⟩
  | true =>
    rw [hca] at h
    obtain ⟨m₃, hcb, h⟩ := bind_eq_some_iff.1 h
    cases h
    have h₃ := cacheBlocks_moves (N := N) h₂.counted (fun hn gm hgm => by
      obtain ⟨g, gm₀, hg, -, gm₁, ⟨computed, -, hsaved⟩, bs, -, hgrown⟩ := h₁₂.of_mem hgm
      rw [h₁₂.null]
      exact hgrown.nullsCached (hsaved.nullsCached (hN hn (Bool.and_eq_true_iff.1 hca).1 gm₀ (mem_of_getElem? hg)))) hcb
    refine (h₁₂.trans h₃).mono fun g gm gm' _ hR => ?_
    obtain ⟨gm₂, ⟨gm₁, ⟨computed, hcomp, hsaved⟩, bs, hbs, hgrown⟩, hcached⟩ := hR
    rw [hsaved.spec] at hgrown
    exact ⟨computed, bs, hcomp, hbs, gm₁, gm₂, hsaved, hgrown, hcached⟩

theorem access_moves (hp : m.blockPool.Inv m.occurrences) :
    Moves N (fun _ gm gm' => gm' = gm.access r) m { m with groups := m.groups.map (·.access r) } := by
  refine ⟨hp.congr fun b _ => ?_, .refl N _, rfl, rfl, by simp, fun g gm hg => ⟨gm.access r, by simp [hg], rfl⟩⟩
  simp only [occurrences, List.map_map]
  refine congrArg List.sum (List.map_congr_left fun gm _ => ?_)
  exact occ_access gm r b

omit [DecidableEq ι] in
theorem Computed.moves (hc : m.Computed newComputed) (h : Moves N R m m') : m'.Computed newComputed :=
  ⟨hc.length.trans h.length.symm, by rw [h.pool.1.1]; exact hc.bound, by rw [h.null]; exact hc.once⟩

def Slotted (m : KVCacheManager ι η) (q : Request ι η) (computed : List (List Nat))
    (required : GroupSpec → Nat) (cacheTo : Nat)
    (res : Option (List (List Nat))) (g : Nat) (gm gm' : GroupManager ι) : Prop :=
  ∃ gm₁, m.Skipped q.requestId q.numComputedTokens gm gm₁ ∧
    (res = none ∧ gm' = gm₁ ∨ ∃ new comp bs, res = some new ∧ computed[g]? = some comp ∧ new[g]? = some bs ∧
      Committed q.requestId m.blockPool.nullBlock comp (required gm.spec) cacheTo m.enableCaching bs gm₁ gm')

section Slotted
variable {required : GroupSpec → Nat} {res : Option (List (List Nat))} {g : Nat} {gm gm' : GroupManager ι}

variable (h : Slotted m q newComputed required cacheTo res g gm gm')
include h

omit [DecidableEq η] in
theorem Slotted.only : GroupManager.Only q.requestId gm gm' := by
  obtain ⟨gm₁, hskips, ⟨-, rfl⟩ | ⟨_, _, _, -, -, -, hcom⟩⟩ := h
  · exact hskips.toOnly
  · exact hskips.toOnly.trans hcom.only

omit [DecidableEq η] in
theorem Slotted.length_blocksOf :
    res = none ∧ (gm'.blocksOf q.requestId).length = (gm.blocksOf q.requestId).length ∨
      ∃ new comp, res = some new ∧ newComputed[g]? = some comp ∧
        (gm'.blocksOf q.requestId).length = max ((gm.blocksOf q.requestId).length + comp.length)
          (required gm.spec) := by
  obtain ⟨gm₁, hskips, ⟨hres, rfl⟩ | ⟨new, comp, _, hres, hcomp, -, hcom⟩⟩ := h
  · exact .inl ⟨hres, hskips.length⟩
  · refine .inr ⟨new, comp, hres, hcomp, ?_⟩
    rw [hcom.length_blocksOf, hskips.length]

end Slotted

variable {numNew numNewComputed lookahead : Nat} {computed : Option (List (List Nat))} {res : Option (List (List Nat))}
  (hp : m.blockPool.Inv m.occurrences) (hone : m.Once q.requestId)
include hp hone

/-- The call drops the blocks that are skipped, and then stops or commits. -/
theorem allocateSlots_cases {delay : Bool}
    (h : m.allocateSlots q numNew numNewComputed computed lookahead delay encoder = some (m', res)) :
    numNew ≠ 0 ∧ ∃ m₁, m₁.blockPool.blockHash = m.blockPool.blockHash ∧
      Moves N (fun _ => m.Skipped q.requestId q.numComputedTokens) m m₁ ∧
      (res = none ∧ m' = m₁ ∨ ∃ new, res = some new ∧
        m₁.commitSlots q (m.tokensNeedSlot q numNew numNewComputed lookahead) encoder
        (tokensToCache q numNew numNewComputed) (computed.getD m.emptyBlocks) delay = some (m', new)) := by
  rw [allocateSlots] at h
  split at h
  · cases h
  next hnew =>
    obtain ⟨m₁, hskip, h⟩ := bind_eq_some_iff.1 h
    obtain ⟨needed, -, h⟩ := bind_eq_some_iff.1 h
    have h₁ := removeSkippedBlocks_moves (N := N) hp hone hskip
    have hhash : m₁.blockPool.blockHash = m.blockPool.blockHash :=
      runGroups_keeps (fun g gm p gm' p' hf => removeSkippedBlocks_blockHash hf) hskip
    refine ⟨hnew, { m₁ with groups := m₁.groups.map (·.access q.requestId) }, hhash,
      (h₁.trans (access_moves (N := N) (r := q.requestId) h₁.counted)).mono fun g gm gm' _ hR => ?_, ?_⟩
    · obtain ⟨gm₁, hskips, rfl⟩ := hR
      exact hskips.access
    · simp only at h
      split at h
      · cases h
        exact .inl ⟨rfl, rfl⟩
      · obtain ⟨⟨m₃, new⟩, hcommit, h⟩ := bind_eq_some_iff.1 h
        cases h
        rw [tokensNeedSlot, ← h₁.maxModelLen]
        exact .inr ⟨new, rfl, hcommit⟩

theorem allocateSlots_moves (hc : m.Computed (computed.getD m.emptyBlocks))
    (hN : N → m.enableCaching = true → ∀ gm ∈ m.groups, gm.NullsCached m.blockPool.nullBlock q.requestId ∧
      numSkippedBlocks gm.spec q.numComputedTokens ≤ gm.numCached q.requestId)
    (h : m.allocateSlots q numNew numNewComputed computed lookahead false encoder = some (m', res)) :
    Moves N (Slotted m q (computed.getD m.emptyBlocks)
      (fun spec => requiredBlocks spec (m.tokensNeedSlot q numNew numNewComputed lookahead) encoder)
      (tokensToCache q numNew numNewComputed) res) m m' := by
  obtain ⟨-, m₁, -, h₂, ⟨rfl, rfl⟩ | ⟨new, rfl, hcommit⟩⟩ := allocateSlots_cases (N := N) hp hone h
  · exact h₂.mono fun g gm gm' _ hR => ⟨gm', hR, .inl ⟨rfl, rfl⟩⟩
  · have h₃ := commitSlots_moves (N := N) h₂.counted (hc.moves h₂) (fun hn hca gm hgm => by
      obtain ⟨g, gm₀, hg, -, hskips⟩ := h₂.of_mem hgm
      obtain ⟨h₄, h₅⟩ := hN hn (h₂.caching ▸ hca) gm₀ (mem_of_getElem? hg)
      rw [h₂.null]
      exact hskips.nullsCached h₄ h₅) hcommit
    refine (h₂.trans h₃).mono fun g gm gm' _ hR => ?_
    obtain ⟨gm₁, hskips, comp, bs, hcomp, hbs, hcom⟩ := hR
    refine ⟨gm₁, hskips, .inr ⟨new, comp, bs, rfl, hcomp, hbs, ?_⟩⟩
    rw [h₂.null, h₂.caching, hskips.spec, Bool.not_false, Bool.and_true] at hcom
    exact hcom

end Whole

end KVCacheManager

end Xmix.Kv
