import Xmix.Kv.PoolRuns

/-!
# Where cached blocks come from

A block carries a hash since some call cached it for a request. No operation of the pool writes a hash but
`cache_full_blocks`, so after a call every hash is an old one or one that the call's request has at the place where the
block stands in its list (`exec_blockHash`); by induction, every hash of a run has its origin in one of the calls
(`run_cachedFor`). If block hashes do not collide, the request of that call has the tokens the hash stands for.
-/

namespace Xmix.Kv

open GroupManager BlockPool List Option

/-! ### Block hashes that do not collide -/

/-- A hash stands for one block and all tokens up to its end. -/
structure BlockHashes {τ η : Type} (bs : Nat) (H : List τ → List η → Prop) : Prop where
  length : ∀ {ts hs}, H ts hs → hs.length = ts.length / bs
  inj : ∀ {ts hs ts' hs'} {i j : Nat} {h}, H ts hs → H ts' hs' → hs[i]? = some h → hs'[j]? = some h →
    i = j ∧ ts.take ((i + 1) * bs) = ts'.take ((i + 1) * bs)

theorem BlockHashes.nodup {τ η : Type} {bs : Nat} {H : List τ → List η → Prop}
    (hH : BlockHashes bs H) {ts : List τ} {hs : List η} (h : H ts hs) : hs.Nodup := by
  refine nodup_iff_getElem?_ne_getElem?.2 fun i j hij hj heq => ?_
  have hx := heq.trans (getElem?_eq_getElem hj)
  exact absurd (hH.inj h h hx (getElem?_eq_getElem hj)).1 (by omega)

variable {τ : Type}

def prefixHashes (bs : Nat) (ts : List τ) : List (List τ) :=
  (range (ts.length / bs)).map fun i => ts.take ((i + 1) * bs)

theorem prefixHashes_blockHashes {bs : Nat} (hbs : 0 < bs) :
    BlockHashes bs fun (ts : List τ) hs => hs = prefixHashes bs ts where
  length := by
    rintro ts hs rfl
    simp [prefixHashes]
  inj := by
    rintro ts hs ts' hs' i j h rfl rfl hi hj
    have hget : ∀ {ts : List τ} {k : Nat}, (prefixHashes bs ts)[k]? = some h →
      ts.take ((k + 1) * bs) = h ∧ h.length = (k + 1) * bs := fun {ts k} hk => by
      rw [prefixHashes, getElem?_map] at hk
      obtain ⟨x, hx, rfl⟩ := map_eq_some_iff.1 hk
      obtain ⟨hlt, rfl⟩ := List.getElem?_eq_some_iff.1 hx
      rw [List.length_range] at hlt
      rw [getElem_range, length_take]
      exact ⟨rfl, Nat.min_eq_left ((Nat.le_div_iff_mul_le hbs).1 hlt)⟩
    obtain ⟨h₁, h₂⟩ := hget hi
    obtain ⟨h₃, h₄⟩ := hget hj
    obtain rfl : i = j := by
      have := Nat.eq_of_mul_eq_mul_right hbs (h₂.symm.trans h₄)
      omega
    exact ⟨rfl, h₁.trans h₃.symm⟩

/-! ### What writes a hash -/

variable {ι η : Type} [DecidableEq ι] [DecidableEq η]

namespace BlockPool

variable {p p' : BlockPool η} {b : Nat} {k : η × Nat}

theorem cacheLoop_blockHash {g : Nat} {l : List (Nat × η)}
    (h : cacheLoop g l p = some p') (hk : p'.blockHash b = some k) :
    p.blockHash b = some k ∨ ∃ x ∈ l, x.1 = b ∧ (x.2, g) = k := by
  induction l generalizing p with
  | nil =>
    cases h
    exact .inl hk
  | cons x l ih =>
    obtain ⟨a, y⟩ := x
    rw [cacheLoop] at h
    split at h
    · rcases ih h with hold | ⟨x, hx, hxb⟩
      · by_cases hb : b = a
        · subst hb
          exact .inr ⟨(b, y), by simp, rfl, by simpa using hold⟩
        · exact .inl (by simpa [Function.update_of_ne hb] using hold)
      · exact .inr ⟨x, by simp [hx], hxb⟩
    · cases h

omit [DecidableEq η] in
theorem resetPrefixCache_blockHash (hk : p.resetPrefixCache.2.blockHash b = some k) : p.blockHash b = some k := by
  rw [resetPrefixCache] at hk
  split at hk
  · exact hk
  · cases hk

end BlockPool

namespace GroupManager

variable {m m' : GroupManager ι} {p p' : BlockPool η} {r : ι} {b : Nat} {k : η × Nat}

theorem cacheBlocks_blockHash {q : Request ι η} {g n : Nat}
    (h : m.cacheBlocks g p q n = some (m', p')) (hk : p'.blockHash b = some k) :
    p.blockHash b = some k ∨ ∃ i : Nat, k.2 = g ∧ (m'.blocksOf q.requestId)[i]? = some b ∧
      q.blockHashes[i]? = some k.1 := by
  rw [cacheBlocks] at h
  split at h
  · cases h
  simp only at h
  split at h
  · cases h
    exact .inl hk
  obtain ⟨p₁, hcache, h⟩ := bind_eq_some_iff.1 h
  cases h
  rw [blocksOf_access, cacheFullBlocks] at hcache
  split at hcache
  · cases hcache
    exact .inl hk
  split at hcache
  · cases hcache
  rcases cacheLoop_blockHash hcache hk with hold | ⟨x, hx, hxb, hxk⟩
  · exact .inl hold
  obtain ⟨j, hj⟩ := getElem?_of_mem hx
  obtain ⟨hj₁, hj₂⟩ := getElem?_zip_eq_some.1 hj
  rw [getElem?_drop, getElem?_take] at hj₁
  rw [getElem?_drop] at hj₂
  split at hj₁
  · refine .inr ⟨_, by rw [← hxk], ?_, by rw [hj₂, ← hxk]⟩
    show ((m.access q.requestId).blocksOf q.requestId)[(m.numCachedBlock.get? q.requestId).getD 0 + j]? = some b
    rw [blocksOf_access, hj₁, hxb]
  · cases hj₁

end GroupManager

namespace KVCacheManager

variable {m m' : KVCacheManager ι η} {b : Nat} {k : η × Nat}

def Stored (m : KVCacheManager ι η) (q : Request ι η) (i b : Nat) (k : η × Nat) : Prop :=
  ∃ gm, m.groups[k.2]? = some gm ∧ (gm.blocksOf q.requestId)[i]? = some b ∧ q.blockHashes[i]? = some k.1

section

omit [DecidableEq ι] [DecidableEq η]

theorem eachGroup_blockHash {α : Type} {f : GroupStep ι η α} {N : Nat → GroupManager ι → Prop}
    (hf : ∀ g gm p a gm' p', f g gm p = some (a, gm', p') → p'.blockHash b = some k →
      p.blockHash b = some k ∨ N g gm') {g : Nat} {ms ms' : List (GroupManager ι)} {p p' : BlockPool η}
    {as : List α} (h : eachGroup f g ms p = some (as, ms', p')) (hk : p'.blockHash b = some k) :
    p.blockHash b = some k ∨ ∃ i gm', ms'[i]? = some gm' ∧ N (g + i) gm' := by
  induction ms generalizing g p as ms' with
  | nil =>
    cases h
    exact .inl hk
  | cons gm ms ih =>
    obtain ⟨⟨a, gm', p₁⟩, h₁, h⟩ := bind_eq_some_iff.1 h
    obtain ⟨⟨as', ms₁, p₂⟩, h₂, h⟩ := bind_eq_some_iff.1 h
    cases h
    rcases ih h₂ with hold | ⟨i, gm'', hi, hnew⟩
    · rcases hf _ _ _ _ _ _ h₁ hold with hold | hnew
      · exact .inl hold
      · exact .inr ⟨0, gm', rfl, hnew⟩
    · exact .inr ⟨i + 1, gm'', by simpa using hi, by rwa [show g + (i + 1) = g + 1 + i by omega]⟩

theorem runGroups_blockHash {f : GroupUpdate ι η}
    {N : Nat → GroupManager ι → Prop}
    (hf : ∀ g gm p gm' p', f g gm p = some (gm', p') → p'.blockHash b = some k → p.blockHash b = some k ∨ N g gm')
    (h : m.runGroups f = some m') (hk : m'.blockPool.blockHash b = some k) :
    m.blockPool.blockHash b = some k ∨ ∃ i gm', m'.groups[i]? = some gm' ∧ N i gm' := by
  obtain ⟨⟨as, m₁⟩, hfor, h⟩ := bind_eq_some_iff.1 h
  obtain ⟨⟨as', ms, p'⟩, heach, hfor⟩ := bind_eq_some_iff.1 hfor
  cases h
  cases hfor
  have := eachGroup_blockHash (N := N) (fun g gm p a gm' p' hq hk => by
    obtain ⟨x, hx, heq⟩ := map_eq_some_iff.1 hq
    obtain ⟨-, rfl⟩ := Prod.mk.inj heq
    exact hf g gm p gm' p' hx hk) heach hk
  simpa only [Nat.zero_add] using this

end

omit [DecidableEq η] in
theorem takeComputed_blockHash {r : ι} {newComputed : List (List Nat)} (h : m.takeComputed r newComputed = some m') :
    m'.blockPool.blockHash = m.blockPool.blockHash := by
  rw [takeComputed] at h
  split at h
  · split at h
    · obtain ⟨p₁, htouch, h⟩ := bind_eq_some_iff.1 h
      have hkeep := runGroups_keeps (t := blockHash) (fun g gm q gm' q' hf => by
        obtain ⟨new, -, hf⟩ := bind_eq_some_iff.1 hf
        obtain ⟨gm₁, -, hf⟩ := bind_eq_some_iff.1 hf
        cases hf
        rfl) h
      exact hkeep.trans (touch_cache htouch).1
    · cases h
  · cases h
    rfl

theorem eachGroup_allocate_fresh {r : ι} {n encoder g : Nat}
    {ms ms' : List (GroupManager ι)} {p p' : BlockPool η} {new : List (List Nat)} {o : Nat → Nat}
    (hca : p.enableCaching = true) (hp : p.Inv fun b => o b + weigh (fun _ gm => gm.occ) g ms b)
    (h : eachGroup (fun _ gm p => gm.allocateNewBlocks p r (tokensFor gm.spec n encoder)) g ms p =
      some (new, ms', p')) (hk : p'.blockHash b = some k) :
    p.blockHash b = some k ∧ ∀ l ∈ new, b ∉ l := by
  induction ms generalizing g p new ms' o with
  | nil =>
    cases h
    exact ⟨hk, by simp⟩
  | cons gm ms ih =>
    obtain ⟨⟨l, gm', p₁⟩, h₁, h⟩ := bind_eq_some_iff.1 h
    obtain ⟨⟨new', ms₁, p₂⟩, h₂, h⟩ := bind_eq_some_iff.1 h
    cases h
    have hp' : p.Inv fun b => (o b + weigh (fun _ gm => gm.occ) (g + 1) ms b) + gm.occ b :=
      hp.congr fun b _ => by simp only [weigh]; omega
    have hnonneg := hp.free_nonneg
    have hfree : ((demand r n encoder gm : Nat) : Int) ≤ p.getNumFreeBlocks := by
      by_contra hlt
      rw [demand, requiredBlocks] at hlt
      have hnone : gm.allocateNewBlocks p r (tokensFor gm.spec n encoder) = none :=
        allocateNewBlocks_eq_none (by omega) (by omega)
      cases hnone.symm.trans h₁
    obtain ⟨_, _, _, hstep, hinv, hshape, -, -, hhash⟩ := allocateNewBlocks_spec hp' hfree
    cases h₁.symm.trans hstep
    obtain ⟨hold, hrest⟩ :=
      ih (o := fun b => o b + gm'.occ b) (hshape.2.1.trans hca) (hinv.congr fun b _ => by omega) h₂
    have hnot : b ∉ l := fun hmem => by
      rw [hhash, if_pos ⟨hca, hmem⟩] at hold
      cases hold
    rw [hhash, if_neg fun hmem => hnot hmem.2] at hold
    refine ⟨hold, fun l' hl' => ?_⟩
    rcases mem_cons.1 hl' with rfl | hl'
    · exact hnot
    · exact hrest l' hl'

section Slots
variable {q : Request ι η} {n encoder cacheTo : Nat} {newComputed : List (List Nat)}

section
variable {delay : Bool} (hca : m.enableCaching = true) (hp : m.blockPool.Inv m.occurrences)
include hca hp

theorem commitSlots_blockHash {new : List (List Nat)}
    (hc : m.Computed newComputed) (h : m.commitSlots q n encoder cacheTo newComputed delay = some (m', new))
    (hk : m'.blockPool.blockHash b = some k) :
    (m.blockPool.blockHash b = some k ∧ ∀ l ∈ new, b ∉ l) ∨ ∃ i, m'.Stored q i b k := by
  obtain ⟨m₁, htake, h⟩ := bind_eq_some_iff.1 h
  obtain ⟨⟨new', m₂⟩, halloc, h⟩ := bind_eq_some_iff.1 h
  have hmoves := (takeComputed_moves (N := False) hp hc htake).1
  have hold : m₂.blockPool.blockHash b = some k → m.blockPool.blockHash b = some k ∧ ∀ l ∈ new', b ∉ l := fun hk => by
    obtain ⟨⟨as, ms, p'⟩, heach, halloc⟩ := bind_eq_some_iff.1 halloc
    cases halloc
    rw [← takeComputed_blockHash htake]
    exact eachGroup_allocate_fresh (o := fun _ => 0) (hmoves.caching.trans hca)
      ((counted_weigh hmoves.counted).congr fun b _ => Nat.zero_add _) heach hk
  simp only at h
  split at h
  · cases h
    exact .inl (hold hk)
  · obtain ⟨m₃, hcache, h⟩ := bind_eq_some_iff.1 h
    cases h
    rcases runGroups_blockHash (N := fun g gm' => ∃ i : Nat, k.2 = g ∧
      (gm'.blocksOf q.requestId)[i]? = some b ∧ q.blockHashes[i]? = some k.1)
      (fun g gm p gm' p' hf hk => cacheBlocks_blockHash hf hk) hcache hk with hk | ⟨g, gm', hg, i, rfl, hi⟩
    · exact .inl (hold hk)
    · exact .inr ⟨i, gm', hg, hi⟩

theorem allocateSlots_blockHash {numNew numNewComputed lookahead : Nat} {computed : Option (List (List Nat))}
    {res : Option (List (List Nat))} (hone : m.Once q.requestId)
    (hc : m.Computed (computed.getD m.emptyBlocks))
    (h : m.allocateSlots q numNew numNewComputed computed lookahead delay encoder = some (m', res))
    (hk : m'.blockPool.blockHash b = some k) :
    (m.blockPool.blockHash b = some k ∧ ∀ new, res = some new → ∀ l ∈ new, b ∉ l) ∨ ∃ i, m'.Stored q i b k := by
  obtain ⟨-, m₁, hsame, h₂, ⟨rfl, rfl⟩ | ⟨new, rfl, hcommit⟩⟩ := allocateSlots_cases (N := False) hp hone h
  · exact .inl ⟨by rw [← hsame]; exact hk, fun new hnew => by cases hnew⟩
  · rcases commitSlots_blockHash (h₂.caching.trans hca) h₂.counted (hc.moves h₂) hcommit hk with ⟨hold, hnew⟩ | hi
    · refine .inl ⟨by rw [← hsame]; exact hold, fun new' hnew' => ?_⟩
      cases hnew'
      exact hnew
    · exact .inr hi

end

end Slots

omit [DecidableEq η] in
theorem free_blockHash {r : ι} (h : m.free r = some m') : m'.blockPool.blockHash = m.blockPool.blockHash :=
  runGroups_keeps (fun g gm p gm' p' hf => by
    obtain ⟨p₁, hfree, hf⟩ := bind_eq_some_iff.1 hf
    cases hf
    exact (freeBlocks_cache hfree).1) h

end KVCacheManager

namespace CacheState

open KVCacheManager

variable {s s' : CacheState ι η} {b : Nat} {k : η × Nat}

variable {c : Call ι η} {cs : List (Call ι η)}

theorem exec_blockHash (hs : s.Sound) (hca : s.manager.enableCaching = true) (hc : s.Permits c) (h : s.exec c = some s')
    (hk : s'.manager.blockPool.blockHash b = some k) :
    s.manager.blockPool.blockHash b = some k ∨ ∃ q i, c.request? = some q ∧ s'.manager.Stored q i b k := by
  rcases exec_cases hs hc h with ⟨q, _, _, _, _, _, res, hal⟩ | ⟨r, m', hfree, rfl⟩ | rfl
  · obtain ⟨a, rfl⟩ := hal.served
    rw [served_manager] at hk ⊢
    rcases allocateSlots_blockHash hca hs.counted (hs.once _) hal.valid hal.slots hk with ⟨hold, -⟩ | ⟨i, hi⟩
    · exact .inl hold
    · exact .inr ⟨q, i, hal.request, hi⟩
  · rw [show m'.blockPool.blockHash = _ from free_blockHash hfree] at hk
    exact .inl hk
  · exact .inl (resetPrefixCache_blockHash hk)

theorem exec_config (hs : s.Sound) (hc : s.Permits c) (h : s.exec c = some s') :
    s'.manager.enableCaching = s.manager.enableCaching ∧ s'.manager.maxModelLen = s.manager.maxModelLen := by
  rcases exec_cases hs hc h with ⟨q, _, _, _, _, _, ⟨m', new⟩, hal⟩ | ⟨r, m', hfree, rfl⟩ | rfl
  · have hm := allocateSlots_moves (N := False) hs.counted (hs.once _) hal.valid (fun hf => hf.elim) hal.slots
    obtain ⟨a, rfl⟩ := hal.served
    rw [served_manager]
    exact ⟨hm.caching, hm.maxModelLen⟩
  · have hm := free_moves (N := False) hs.counted (hs.once r) hfree
    exact ⟨hm.caching, hm.maxModelLen⟩
  · exact ⟨(resetPrefixCache_spec hs.counted).2.1.2.1, rfl⟩

variable (s cs)

def CachedFor (q : Request ι η) (i b : Nat) (k : η × Nat) : Prop :=
  ∃ cs₁ c cs₂ s₂, cs = cs₁ ++ c :: cs₂ ∧ c.request? = some q ∧ s.run (cs₁ ++ [c]) = some s₂ ∧
    s₂.manager.Stored q i b k ∧
    ∀ cs₃ s₃, cs₃ <+: cs₂ → s₂.run cs₃ = some s₃ → s₃.manager.blockPool.blockHash b = some k

theorem run_append (cs cs' : List (Call ι η)) : s.run (cs ++ cs') = (s.run cs).bind fun s' => s'.run cs' := by
  simp only [run, foldlM_append]
  rfl

theorem run_singleton (c : Call ι η) : s.run [c] = s.exec c := by
  simp [run]

variable {s cs}

theorem Follows.append {C : CacheState ι η → Call ι η → Prop} {cs' : List (Call ι η)} (hcs : Follows C s (cs ++ cs')) :
    Follows C s cs ∧ ∀ s', s.run cs = some s' → Follows C s' cs' := by
  induction cs generalizing s with
  | nil =>
    refine ⟨trivial, fun s' h => ?_⟩
    cases h
    exact hcs
  | cons c cs ih =>
    refine ⟨⟨hcs.1, fun s₁ hc => (ih (hcs.2 s₁ hc)).1⟩, fun s' h => ?_⟩
    rw [run, foldlM_cons] at h
    obtain ⟨s₁, hc, h⟩ := bind_eq_some_iff.1 h
    exact (ih (hcs.2 s₁ hc)).2 s' h

theorem Follows.mono {C C' : CacheState ι η → Call ι η → Prop} (hcs : Follows C s cs) (h : ∀ s c, C s c → C' s c) :
    Follows C' s cs := by
  induction cs generalizing s with
  | nil => trivial
  | cons c cs ih => exact ⟨h s c hcs.1, fun s' hs' => ih (hcs.2 s' hs')⟩

omit [DecidableEq ι] [DecidableEq η] in
theorem init_pool {maxModelLen numGpuBlocks : Nat}
    {caching eagle : Bool} {specs : List GroupSpec} {m : KVCacheManager ι η}
    (hm : KVCacheManager.init maxModelLen numGpuBlocks caching eagle specs = some m) :
    (init m).manager.enableCaching = caching ∧ ∀ b, (init m).manager.blockPool.blockHash b = none := by
  obtain ⟨p, hp, hm⟩ := bind_eq_some_iff.1 hm
  obtain ⟨⟨null, queue⟩, -, hp⟩ := bind_eq_some_iff.1 hp
  cases hp
  split at hm
  · cases hm
  cases hm
  exact ⟨rfl, fun _ => rfl⟩

theorem run_cachedFor (hs : s.Sound) (hca : s.manager.enableCaching = true)
    (hnone : ∀ b, s.manager.blockPool.blockHash b = none) (hcs : Follows Permits s cs)
    (h : s.run cs = some s') (hk : s'.manager.blockPool.blockHash b = some k) :
    ∃ q i, s.CachedFor cs q i b k := by
  induction cs using reverseRecOn generalizing s' with
  | nil =>
    cases h
    rw [hnone] at hk
    cases hk
  | append_singleton cs c ih =>
    have hall := h
    rw [run_append] at h
    obtain ⟨s₁, hrun, hc⟩ := bind_eq_some_iff.1 h
    rw [run_singleton] at hc
    obtain ⟨hcs₁, hlast⟩ := hcs.append
    have hs₁ : s₁.Sound ∧ s₁.manager.enableCaching = true :=
      hcs₁.run_induction (I := fun s => s.Sound ∧ s.manager.enableCaching = true)
      (fun s c s' hs hc h => ⟨hs.1.exec hc h, (exec_config hs.1 hc h).1.trans hs.2⟩) ⟨hs, hca⟩ hrun
    rcases exec_blockHash hs₁.1 hs₁.2 (hlast s₁ hrun).1 hc hk with hold | ⟨q, i, hq, hi⟩
    · -- the origin is in an earlier call; this one has left the hash alone
      obtain ⟨q, i, cs₁, c', cs₂, s₂, rfl, hq, hs₂, hstored, hkept⟩ := ih hcs₁ hrun hold
      refine ⟨q, i, cs₁, c', cs₂ ++ [c], s₂, by simp, hq, hs₂, hstored, fun cs₃ s₃ hpre hs₃ => ?_⟩
      rcases prefix_concat_iff.1 (by simpa using hpre) with rfl | hpre
      · have : s.run (cs₁ ++ [c'] ++ (cs₂ ++ [c])) = some s₃ := by
          rw [run_append, hs₂, bind_some]
          exact hs₃
        rw [show cs₁ ++ [c'] ++ (cs₂ ++ [c]) = cs₁ ++ c' :: cs₂ ++ [c] by simp, hall] at this
        cases this
        exact hk
      · exact hkept cs₃ s₃ hpre hs₃
    · refine ⟨q, i, cs, c, [], s', rfl, hq, hall, hi, fun cs₃ s₃ hpre hs₃ => ?_⟩
      rw [prefix_nil.1 hpre] at hs₃
      cases hs₃
      exact hk

def Brings (H : List τ → List η → Prop) (s : CacheState ι η) (c : Call ι η) : Prop :=
  (match c with
    | .start q _ _ _ => s.active q.requestId = none ∧ q.numComputedTokens = 0
    | .extend q _ _ => ∃ a, s.active q.requestId = some a ∧ q.numComputedTokens ≤ a.scheduled
    | .free _ | .resetPrefixCache => True) ∧
  ∀ q, c.request? = some q → ∃ ts, H ts q.blockHashes ∧ ts.length = q.numTokens

omit [DecidableEq ι] [DecidableEq η] in
theorem Brings.permits {H : List τ → List η → Prop}
    {bs : Nat} (hH : BlockHashes bs H) (h : Brings H s c) : s.Permits c := by
  obtain ⟨hcall, hhash⟩ := h
  cases c with
  | start q numNew lookahead encoder =>
    obtain ⟨ts, hts, -⟩ := hhash q rfl
    exact ⟨hcall.1, hcall.2, hH.nodup hts⟩
  | extend q numNew lookahead => exact hcall
  | free r => trivial
  | resetPrefixCache => trivial

end CacheState

end Xmix.Kv
