import Xmix.Kv.CacheHits

/-!
# The operations of one KV cache group

What each method of a group's manager does to the blocks of its request, to the other requests (nothing) and to the pool
that all groups share. The references that the other groups hold are a frame `o`: an operation turns a pool that counts
`o b + m.occ b` references into one that counts `o b + m'.occ b`.
-/

namespace Xmix.Kv

open BlockPool List Option Dict

variable {ι η : Type} [DecidableEq ι] [DecidableEq η]

namespace BlockPool

variable {p : BlockPool η} {occ occ' : Nat → Nat}

theorem Inv.congr (h : p.Inv occ) (hocc : ∀ b, b ≠ p.nullBlock → occ' b = occ b) : p.Inv occ' := by
  refine { h with refs := fun b hb => ?_, bound := fun b hb => ?_ }
  · rw [hocc b hb]
    exact h.refs b hb
  · by_cases hn : b = p.nullBlock
    · rw [hn]
      exact h.null
    · exact h.bound b (by rw [← hocc b hn]; exact hb)

end BlockPool

def NullsFirst (null : Nat) (bs : List Nat) : Prop := ∀ i j : Nat, i ≤ j → bs[j]? = some null → bs[i]? = some null

section NullsFirst
variable {null : Nat} {bs : List Nat}

theorem NullsFirst.nil : NullsFirst null [] := fun i j _ h => by simp at h

theorem NullsFirst.append (h : NullsFirst null bs) {new : List Nat} (hnew : null ∉ new) :
    NullsFirst null (bs ++ new) := by
  intro i j hij hj
  rw [getElem?_append] at hj
  split at hj
  next hlt =>
    rw [getElem?_append_left (by omega)]
    exact h i j hij hj
  next => exact absurd (mem_of_getElem? hj) hnew

end NullsFirst

namespace GroupManager

variable {n : Nat}

def occ (m : GroupManager ι) (b : Nat) : Nat := m.reqToBlocks.total (count b)

def numCached (m : GroupManager ι) (r : ι) : Nat := (m.numCachedBlock.get? r).getD 0

variable {m m' : GroupManager ι} {r : ι}

variable (m r)

theorem elim_count (b : Nat) :
    (m.reqToBlocks.get? r).elim 0 (count b) = (m.blocksOf r).count b := by
  rw [blocksOf]
  cases m.reqToBlocks.get? r <;> simp

theorem count_le_occ (b : Nat) : (m.blocksOf r).count b ≤ m.occ b := by
  have := @total_pop _ _ _ m.reqToBlocks r (count b)
  rw [elim_count] at this
  rw [occ]
  omega

variable {m r}

def NullsCached (null : Nat) (m : GroupManager ι) (r : ι) : Prop :=
  ∀ i : Nat, (m.blocksOf r)[i]? = some null → i < m.numCached r

def Once (null : Nat) (m : GroupManager ι) (r : ι) : Prop := ∀ b, b ≠ null → (m.blocksOf r).count b ≤ 1

structure Only (r : ι) (m m' : GroupManager ι) : Prop where
  spec : m'.spec = m.spec
  blocks : ∀ r', r' ≠ r → m'.blocksOf r' = m.blocksOf r'
  cached : ∀ r', r' ≠ r → m'.numCachedBlock.get? r' = m.numCachedBlock.get? r'

theorem Only.refl (r : ι) (m : GroupManager ι) : Only r m m := ⟨rfl, fun _ _ => rfl, fun _ _ => rfl⟩

theorem Only.trans {m'' : GroupManager ι} (h : Only r m m') (h' : Only r m' m'') : Only r m m'' :=
  ⟨h'.spec.trans h.spec, fun r' hr => (h'.blocks r' hr).trans (h.blocks r' hr),
    fun r' hr => (h'.cached r' hr).trans (h.cached r' hr)⟩

theorem Only.blocksOf_eq (h : Only r m m') (hr : m'.blocksOf r = m.blocksOf r) (r' : ι) :
    m'.blocksOf r' = m.blocksOf r' := by
  by_cases hne : r' = r
  · rw [hne, hr]
  · exact h.blocks r' hne

def withBlocks (m : GroupManager ι) (r : ι) (bs : List Nat) : GroupManager ι :=
  { m with reqToBlocks := m.reqToBlocks.set r bs }

section

variable (m : GroupManager ι)

@[simp] theorem blocksOf_withBlocks (r : ι) (bs : List Nat) : (m.withBlocks r bs).blocksOf r = bs := by
  simp [withBlocks, blocksOf]

theorem occ_withBlocks (r : ι) (bs : List Nat) (b : Nat) :
    (m.withBlocks r bs).occ b + (m.blocksOf r).count b = m.occ b + bs.count b := by
  rw [← elim_count]
  exact total_set _

theorem only_withBlocks (r : ι) (bs : List Nat) : Only r m (m.withBlocks r bs) :=
  ⟨rfl, fun r' hr => by simp [withBlocks, blocksOf, get?_set_of_ne hr], fun _ _ => rfl⟩

theorem access_eq (r : ι) : m.access r = m ∨ m.access r = m.withBlocks r [] ∧ m.blocksOf r = [] := by
  rcases h : m.reqToBlocks.get? r with - | bs
  · refine .inr ⟨?_, by simp [blocksOf, h]⟩
    simp only [access, h]
    rfl
  · left
    simp [access, h]

@[simp] theorem blocksOf_access (r r' : ι) : (m.access r).blocksOf r' = m.blocksOf r' := by
  rcases m.access_eq r with h | ⟨h, hnil⟩
  · rw [h]
  · rw [h]
    by_cases hr : r' = r
    · rw [hr, hnil, blocksOf_withBlocks]
    · exact (m.only_withBlocks r []).blocks r' hr

@[simp] theorem spec_access (r : ι) : (m.access r).spec = m.spec := by
  rcases m.access_eq r with h | ⟨h, -⟩ <;> rw [h]
  rfl

@[simp] theorem numCachedBlock_access (r : ι) : (m.access r).numCachedBlock = m.numCachedBlock := by
  rcases m.access_eq r with h | ⟨h, -⟩ <;> rw [h]
  rfl

@[simp] theorem occ_access (r : ι) (b : Nat) : (m.access r).occ b = m.occ b := by
  rcases m.access_eq r with h | ⟨h, hnil⟩
  · rw [h]
  · have := m.occ_withBlocks r [] b
    rw [h]
    simpa [hnil] using this

theorem only_access (r : ι) : Only r m (m.access r) := ⟨by simp, by simp, by simp⟩

end

/-! ### remove_skipped_blocks -/

def numSkippedBlocks (spec : GroupSpec) (numComputed : Nat) : Nat :=
  (getNumSkippedTokens spec numComputed).toNat / spec.blockSize

theorem numSkippedBlocks_le (spec : GroupSpec) (numComputed : Nat) :
    numSkippedBlocks spec numComputed ≤ numComputed / spec.blockSize := by
  refine Nat.div_le_div_right ?_
  have hpos := spec.kindPos
  rw [getNumSkippedTokens]
  split
  next w hk =>
    rw [hk] at hpos
    simp only [GroupKind.Positive] at hpos
    omega
  next c hk =>
    rw [Int.toNat_natCast]
    exact Nat.div_mul_le_self _ _
  next => simp

theorem numSkippedBlocks_of_not_windowed {spec : GroupSpec} (h : spec.kind.windowed = false) (numComputed : Nat) :
    getNumSkippedTokens spec numComputed = 0 := by
  rw [getNumSkippedTokens]
  rcases hk : spec.kind with - | w | c | k | - <;> simp_all [GroupKind.windowed]

section
variable {null k : Nat} {bs removed bs' : List Nat}

theorem skipLoop_spec (h : skipLoop null k bs = some (removed, bs')) :
    bs'.length = bs.length ∧ null ∉ removed ∧ (∀ b, b ≠ null → bs'.count b + removed.count b = bs.count b) ∧
      ∀ i b : Nat, bs'[i]? = some b → bs[i]? = some b ∨ (b = null ∧ i < k) := by
  induction k generalizing bs removed bs' with
  | zero =>
    cases h
    exact ⟨rfl, by simp, by simp, fun i b hb => .inl hb⟩
  | succ k ih =>
    obtain ⟨a, ha, h⟩ := bind_eq_some_iff.1 h
    split at h
    · cases h
      exact ⟨rfl, by simp, by simp, fun i b hb => .inl hb⟩
    next hne =>
      obtain ⟨⟨removed', bs''⟩, hloop, h⟩ := bind_eq_some_iff.1 h
      cases h
      obtain ⟨h₁, h₂, h₃, h₄⟩ := ih hloop
      have hk := (List.getElem?_eq_some_iff.1 ha).1
      refine ⟨by simpa using h₁, ?_, fun b hb => ?_, fun i b hb => ?_⟩
      · rw [mem_cons, not_or]
        exact ⟨fun hn => hne hn.symm, h₂⟩
      · have h₅ := h₃ b hb
        have h₆ := count_set (l := bs) (a := null) (b := b) hk
        have h₇ := (List.getElem?_eq_some_iff.1 ha).2
        have hpos : b = a → 0 < bs.count b := fun hba => count_pos_iff.2 (hba ▸ mem_of_getElem? ha)
        have hnb : (null == b) = false := by simpa using fun hn : null = b => hb hn.symm
        rw [h₇, hnb] at h₆
        rw [count_cons]
        by_cases hab : a = b
        · subst hab
          simp at h₆ ⊢
          omega
        · have : (a == b) = false := by simpa using hab
          simp [this] at h₆ ⊢
          omega
      · rcases h₄ i b hb with h₅ | ⟨h₅, h₆⟩
        · rw [getElem?_set] at h₅
          split at h₅
          next hki =>
            cases h₅
            exact .inr ⟨rfl, by omega⟩
          next => exact .inl h₅
        · exact .inr ⟨h₅, by omega⟩

theorem skipLoop_null (hbs : ∀ i j : Nat, i ≤ j → j < k → bs[j]? = some null → bs[i]? = some null)
    (h : skipLoop null k bs = some (removed, bs')) : ∀ i < k, bs'[i]? = some null := by
  induction k generalizing bs removed bs' with
  | zero => exact fun i hi => absurd hi (Nat.not_lt_zero i)
  | succ k ih =>
    obtain ⟨a, ha, h⟩ := bind_eq_some_iff.1 h
    simp only at h
    split at h
    next hnull =>
      cases h
      subst hnull
      exact fun i hi => hbs i k (by omega) (by omega) ha
    next hne =>
      obtain ⟨⟨removed', bs''⟩, hloop, h⟩ := bind_eq_some_iff.1 h
      cases h
      have hlt := (List.getElem?_eq_some_iff.1 ha).1
      intro i hi
      rcases Nat.lt_or_ge i k with hik | hik
      · refine ih (fun i j hij hjk hj => ?_) hloop i hik
        rw [getElem?_set_ne (by omega)] at hj ⊢
        exact hbs i j hij (by omega) hj
      · obtain rfl : i = k := by omega
        obtain ⟨hlen, -, -, hentry⟩ := skipLoop_spec hloop
        rw [length_set] at hlen
        have hlt' : i < bs''.length := by omega
        -- the rest of the loop is about the blocks before
        rcases hentry i _ (getElem?_eq_getElem hlt') with hold | ⟨-, hbad⟩
        · rw [getElem?_set_self hlt] at hold
          rw [getElem?_eq_getElem hlt', ← hold]
        · omega

theorem skipLoop_nullsFirst (hbs : NullsFirst null bs)
    (h : skipLoop null k bs = some (removed, bs')) : NullsFirst null bs' := by
  obtain ⟨hlen, -, -, hentry⟩ := skipLoop_spec h
  have hnull := skipLoop_null (fun i j hij _ => hbs i j hij) h
  intro i j hij hj
  rcases Nat.lt_or_ge i k with hik | hik
  · exact hnull i hik
  · rcases hentry j null hj with hold | ⟨-, hjk⟩
    · have hi := hbs i j hij hold
      have hlt : i < bs'.length := by
        rw [hlen]
        exact (List.getElem?_eq_some_iff.1 hi).1
      rcases hentry i _ (getElem?_eq_getElem hlt) with hsame | ⟨-, hbad⟩
      · rw [getElem?_eq_getElem hlt, ← hsame, hi]
      · omega
    · omega

end

structure Skips (r : ι) (null k : Nat) (m m' : GroupManager ι) : Prop extends Only r m m' where
  sameCached : m'.numCachedBlock = m.numCachedBlock
  length : (m'.blocksOf r).length = (m.blocksOf r).length
  count : ∀ b, b ≠ null → (m'.blocksOf r).count b ≤ (m.blocksOf r).count b
  entry : ∀ i b : Nat, (m'.blocksOf r)[i]? = some b → (m.blocksOf r)[i]? = some b ∨ (b = null ∧ i < k)
  dropped : NullsFirst null (m.blocksOf r) → NullsFirst null (m'.blocksOf r) ∧ ∀ i < k, (m'.blocksOf r)[i]? = some null

variable {p p' : BlockPool η} {o : Nat → Nat}

theorem removeSkippedBlocks_spec (hp : p.Inv fun b => o b + m.occ b)
    (hone : m.Once p.nullBlock r) (h : m.removeSkippedBlocks p r n = some (m', p')) :
    p'.Inv (fun b => o b + m'.occ b) ∧ p.SameShape p' ∧ p'.blockHash = p.blockHash ∧
      Skips r p.nullBlock (numSkippedBlocks m.spec n) m m' := by
  simp only [removeSkippedBlocks] at h
  split at h
  next hle =>
    cases h
    refine ⟨hp, ⟨rfl, rfl, rfl⟩, rfl, ⟨.refl r m, rfl, rfl, fun _ _ => Nat.le_refl _, fun _ _ hb => .inl hb,
      fun hfirst => ⟨hfirst, fun i hi => ?_⟩⟩⟩
    rw [numSkippedBlocks, Int.toNat_of_nonpos hle, Nat.zero_div] at hi
    omega
  next hpos =>
    obtain ⟨⟨removed, bs⟩, hloop, h⟩ := bind_eq_some_iff.1 h
    obtain ⟨p₁, hfree, h⟩ := bind_eq_some_iff.1 h
    cases h
    rw [blocksOf_access, spec_access] at hloop
    obtain ⟨h₁, h₂, h₃, h₄⟩ := skipLoop_spec hloop
    have hcount : ∀ b, removed.count b ≤ (m.blocksOf r).count b := fun b => by
      by_cases hb : b = p.nullBlock
      · rw [hb, count_eq_zero_of_not_mem h₂]
        omega
      · have := h₃ b hb
        omega
    obtain ⟨p₂, hp₂, hinv, hshape, hhash⟩ := freeBlocks_spec hp
      (fun b => Nat.le_trans (hcount b) (Nat.le_trans (m.count_le_occ r b) (Nat.le_add_left _ _)))
      (fun b hb => Nat.le_trans (hcount b) (hone b hb))
    cases hfree.symm.trans hp₂
    have hm : Only r m ((m.access r).withBlocks r bs) := (m.only_access r).trans (only_withBlocks _ r bs)
    refine ⟨hinv.congr fun b hb => ?_, hshape, hhash, ⟨hm, ?_, ?_, fun b hb => ?_, ?_, fun hfirst => ?_⟩⟩
    · have h₅ := (m.access r).occ_withBlocks r bs b
      have h₆ := h₃ b (by rw [← hshape.2.2]; exact hb)
      have h₇ := m.count_le_occ r b
      simp only [blocksOf_access, occ_access] at h₅
      show o b + ((m.access r).withBlocks r bs).occ b = o b + m.occ b - removed.count b
      omega
    · exact numCachedBlock_access m r
    · show (((m.access r).withBlocks r bs).blocksOf r).length = _
      rw [blocksOf_withBlocks, h₁]
    · show (((m.access r).withBlocks r bs).blocksOf r).count b ≤ _
      rw [blocksOf_withBlocks]
      have := h₃ b hb
      omega
    · intro i b hb
      refine h₄ i b ?_
      rw [← blocksOf_withBlocks (m.access r) r bs]
      exact hb
    · show NullsFirst _ (((m.access r).withBlocks r bs).blocksOf r) ∧
        ∀ i < _, (((m.access r).withBlocks r bs).blocksOf r)[i]? = _
      rw [blocksOf_withBlocks]
      exact ⟨skipLoop_nullsFirst hfirst hloop, skipLoop_null (fun i j hij _ => hfirst i j hij) hloop⟩

omit [DecidableEq η] in
theorem removeSkippedBlocks_blockHash {n : Nat} (h : m.removeSkippedBlocks p r n = some (m', p')) :
    p'.blockHash = p.blockHash := by
  simp only [removeSkippedBlocks] at h
  split at h
  · cases h
    rfl
  · obtain ⟨⟨removed, blocks⟩, -, h⟩ := bind_eq_some_iff.1 h
    obtain ⟨p₁, hfree, h⟩ := bind_eq_some_iff.1 h
    cases h
    exact (freeBlocks_cache hfree).1

/-! ### save_new_computed_blocks and allocate_new_blocks -/

structure Saved (r : ι) (new : List Nat) (m m' : GroupManager ι) : Prop extends Only r m m' where
  list : m'.blocksOf r = m.blocksOf r ++ new
  first : m'.numCachedBlock = m.numCachedBlock ∧ new = [] ∨
    m.blocksOf r = [] ∧ m'.numCachedBlock.get? r = some new.length
  cross : m.spec.kind = .crossAttention → new = []

theorem Saved.refl (r : ι) (m : GroupManager ι) : Saved r [] m m := ⟨.refl r m, by simp, .inl ⟨rfl, rfl⟩, fun _ => rfl⟩

theorem saveNewComputedBlocks_spec {new : List Nat} (h : m.saveNewComputedBlocks r new = some m') :
    Saved r new m m' ∧ ∀ b, m'.occ b = m.occ b + new.count b := by
  have hsame : new = [] → m' = m → Saved r new m m' ∧ ∀ b, m'.occ b = m.occ b + new.count b := by
    rintro rfl rfl
    exact ⟨.refl r _, by simp⟩
  rw [saveNewComputedBlocks] at h
  split at h
  · split at h
    next hnil => exact hsame hnil (some.inj h).symm
    next => cases h
  next hcross =>
    split at h
    · split at h
      next hnil =>
        cases h
        have hb : ∀ b, (m.withBlocks r new).occ b = m.occ b + new.count b := fun b => by
          have := m.occ_withBlocks r new b
          rw [hnil] at this
          simpa using this
        refine ⟨⟨⟨rfl, (m.only_withBlocks r new).blocks, fun r' hr => get?_set_of_ne hr⟩, ?_,
          .inr ⟨hnil, get?_set_self _ _ _⟩, fun hkind => absurd hkind hcross⟩, hb⟩
        rw [hnil]
        exact m.blocksOf_withBlocks r new
      next => cases h
    · split at h
      next hnil => exact hsame hnil (some.inj h).symm
      next => cases h

structure Grown (r : ι) (null required : Nat) (new : List Nat) (m m' : GroupManager ι) : Prop extends Only r m m' where
  sameCached : m'.numCachedBlock = m.numCachedBlock
  list : m'.blocksOf r = m.blocksOf r ++ new
  length : new.length = required - (m.blocksOf r).length
  nodup : new.Nodup
  fresh : ∀ b ∈ new, b ≠ null ∧ m.occ b = 0

theorem allocateNewBlocks_spec (hp : p.Inv fun b => o b + m.occ b)
    (hfree : ((cdiv (slotTokens m.spec n) m.spec.blockSize - (m.blocksOf r).length : Nat) : Int) ≤ p.getNumFreeBlocks) :
    ∃ new m' p', m.allocateNewBlocks p r n = some (new, m', p') ∧ p'.Inv (fun b => o b + m'.occ b) ∧ p.SameShape p' ∧
      Grown r p.nullBlock (cdiv (slotTokens m.spec n) m.spec.blockSize) new m m' ∧
      p'.getNumFreeBlocks = p.getNumFreeBlocks - new.length ∧
      ∀ b, p'.blockHash b = if p.enableCaching = true ∧ b ∈ new then none else p.blockHash b := by
  simp only [allocateNewBlocks, blocksOf_access, spec_access]
  split
  next hle =>
    refine ⟨_, _, _, rfl, by simpa using hp, ⟨rfl, rfl, rfl⟩,
      ⟨m.only_access r, by simp, by simp, ?_, by simp, by simp⟩, by simp, by simp⟩
    simp only [length_nil]
    omega
  next hlt =>
    obtain ⟨new, p', hget, hinv, hshape, hlen, hnd, hfresh, hnum, hhash⟩ := getNewBlocks_spec hp hfree
    have hspec : { m.access r with
        reqToBlocks := (m.access r).reqToBlocks.set r (m.blocksOf r ++ new)
        spec := m.spec } =
        (m.access r).withBlocks r (m.blocksOf r ++ new) := by rw [withBlocks, ← spec_access m r]
    simp only [hget, bind_eq_bind, bind_some]
    refine ⟨new, (m.access r).withBlocks r (m.blocksOf r ++ new), p', by rw [← hspec], ?_, hshape, ?_, ?_, hhash⟩
    · refine hinv.congr fun b _ => ?_
      have h₁ := (m.access r).occ_withBlocks r (m.blocksOf r ++ new) b
      simp only [blocksOf_access, occ_access, count_append] at h₁
      omega
    · exact ⟨(m.only_access r).trans (only_withBlocks _ r _), numCachedBlock_access m r,
        blocksOf_withBlocks _ _ _, hlen, hnd,
        fun b hb => ⟨(hfresh b hb).2.1, Nat.eq_zero_of_add_eq_zero_left (hfresh b hb).2.2⟩⟩
    · rw [hnum, hlen]

theorem allocateNewBlocks_eq_none (hfree : p.getNumFreeBlocks <
      ((cdiv (slotTokens m.spec n) m.spec.blockSize - (m.blocksOf r).length : Nat) : Int))
    (hneed : (m.blocksOf r).length < cdiv (slotTokens m.spec n) m.spec.blockSize) :
    m.allocateNewBlocks p r n = none := by
  simp only [allocateNewBlocks, blocksOf_access, spec_access, if_neg (Nat.not_le.2 hneed), getNewBlocks_eq_none hfree,
    bind_eq_bind, bind_none]

/-! ### cache_blocks and free -/

structure CachedUpTo (r : ι) (n : Nat) (m m' : GroupManager ι) : Prop extends Only r m m' where
  list : m'.blocksOf r = m.blocksOf r
  num : m'.numCached r = max (m.numCached r) (n / m.spec.blockSize)

theorem cacheBlocks_spec {q : Request ι η} {g : Nat} (hp : p.Inv fun b => o b + m.occ b)
    (h : m.cacheBlocks g p q n = some (m', p')) :
    p'.Inv (fun b => o b + m'.occ b) ∧ p.SameShape p' ∧ p'.freeBlockQueue = p.freeBlockQueue ∧
      CachedUpTo q.requestId n m m' ∧
      ((∀ i, (m.blocksOf q.requestId)[i]? = some p.nullBlock → i < m.numCached q.requestId) →
        p'.blockHash p.nullBlock = p.blockHash p.nullBlock) := by
  rw [cacheBlocks] at h
  split at h
  · cases h
  simp only at h
  split at h
  next hle =>
    cases h
    exact ⟨hp, ⟨rfl, rfl, rfl⟩, rfl, ⟨.refl _ m, rfl, (Nat.max_eq_left hle).symm⟩, fun _ => rfl⟩
  next hlt =>
    obtain ⟨p₁, hcache, h⟩ := bind_eq_some_iff.1 h
    cases h
    rw [blocksOf_access, cacheFullBlocks, if_neg hlt] at hcache
    split at hcache
    · cases hcache
    have hmem : ∀ x ∈ ((take (n / m.spec.blockSize) (m.blocksOf q.requestId)).drop (m.numCached q.requestId)).zip
        (q.blockHashes.drop (m.numCached q.requestId)),
        x.1 ∈ (take (n / m.spec.blockSize) (m.blocksOf q.requestId)).drop (m.numCached q.requestId) :=
      fun x hx => (of_mem_zip hx).1
    obtain ⟨h₁, h₂, h₃, h₄, h₅⟩ := cacheLoop_spec hp (fun x hx => by
      refine hp.bound x.1 (Nat.lt_of_lt_of_le ?_ (Nat.le_add_left _ _))
      refine Nat.lt_of_lt_of_le (count_pos_iff.2 ?_) (m.count_le_occ q.requestId x.1)
      exact mem_of_mem_take (mem_of_mem_drop (hmem x hx))) hcache
    refine ⟨?_, h₂, h₄, ⟨⟨by simp, ?_, fun r' hr => ?_⟩, ?_, ?_⟩, fun hnull => h₅ _ fun x hx hx' => ?_⟩
    · refine h₁.congr fun b _ => ?_
      exact congrArg (o b + ·) (occ_access m q.requestId b)
    · exact fun r' hr => blocksOf_access m q.requestId r'
    · simp only [numCachedBlock_access]
      exact get?_set_of_ne hr
    · exact blocksOf_access m q.requestId q.requestId
    · simp only [numCached, get?_set_self, getD_some]
      omega
    · -- the cached entries start at `numCached`
      obtain ⟨i, hi⟩ := getElem?_of_mem (hmem x hx)
      rw [getElem?_drop, getElem?_take, hx'] at hi
      split at hi
      · have := hnull _ hi
        omega
      · cases hi

theorem free_spec (hp : p.Inv fun b => o b + m.occ b) (hone : m.Once p.nullBlock r) :
    ∃ m' p', m.free p r = some (m', p') ∧ p'.Inv (fun b => o b + m'.occ b) ∧ p.SameShape p' ∧
      p'.blockHash = p.blockHash ∧
      Only r m m' ∧ m'.blocksOf r = [] ∧ m'.numCachedBlock.get? r = none := by
  have hle := m.count_le_occ r
  obtain ⟨p', hp', hinv, hshape, hhash⟩ := freeBlocks_spec hp (l := (m.blocksOf r).reverse)
    (fun b => by
      rw [count_reverse]
      exact Nat.le_trans (hle b) (Nat.le_add_left _ _))
    (fun b hb => by
      rw [count_reverse]
      exact hone b hb)
  simp only [free, hp', bind_eq_bind, bind_some]
  refine ⟨_, _, rfl, ?_, hshape, hhash, ⟨rfl, fun r' hr => ?_, fun r' hr => get?_pop_of_ne hr⟩, ?_, get?_pop_self _ _⟩
  · refine hinv.congr fun b _ => ?_
    have h₁ := @total_pop _ _ _ m.reqToBlocks r (count b)
    have h₂ := hle b
    rw [elim_count] at h₁
    simp only [occ, count_reverse] at h₂ ⊢
    omega
  · simp only [blocksOf, get?_pop_of_ne hr]
  · simp only [blocksOf, get?_pop_self, getD_none]

/-! ### What the steps keep of a request -/

section Steps
variable {null : Nat} {new : List Nat}

variable {k required : Nat}

theorem Skips.access (h : Skips r null k m m') : Skips r null k m (m'.access r) :=
  ⟨h.toOnly.trans (m'.only_access r), (numCachedBlock_access m' r).trans h.sameCached, by
    rw [blocksOf_access]; exact h.length,
    fun b hb => by
      rw [blocksOf_access]; exact h.count b hb, fun i b hb => h.entry i b (by rw [← blocksOf_access m' r]; exact hb),
    fun hfirst => by rw [blocksOf_access]; exact h.dropped hfirst⟩

theorem Skips.once (h : Skips r null k m m') (hone : m.Once null r) : m'.Once null r :=
  fun b hb => Nat.le_trans (h.count b hb) (hone b hb)

theorem Skips.nullsCached (h : Skips r null k m m') (hn : m.NullsCached null r) (hk : k ≤ m.numCached r) :
    m'.NullsCached null r := by
  intro i hi
  rw [numCached, h.sameCached]
  rcases h.entry i null hi with hi | ⟨-, hi⟩
  · exact hn i hi
  · exact Nat.lt_of_lt_of_le hi hk

theorem Saved.of_access (h : Saved r new (m.access r) m') : Saved r new m m' :=
  ⟨(m.only_access r).trans h.toOnly, by rw [h.list, blocksOf_access], by
    have := h.first
    rwa [numCachedBlock_access, blocksOf_access] at this, fun hk => h.cross (by rwa [spec_access])⟩

theorem Saved.once (h : Saved r new m m') (hone : m.Once null r) (hnew : ∀ b, b ≠ null → new.count b ≤ 1) :
    m'.Once null r := by
  intro b hb
  rw [h.list]
  rcases h.first with ⟨-, rfl⟩ | ⟨hnil, -⟩
  · simpa using hone b hb
  · simpa [hnil] using hnew b hb

theorem Saved.nullsCached (h : Saved r new m m') (hn : m.NullsCached null r) : m'.NullsCached null r := by
  intro i hi
  rw [h.list] at hi
  rcases h.first with ⟨heq, rfl⟩ | ⟨hnil, hnum⟩
  · rw [numCached, heq]
    exact hn i (by simpa using hi)
  · rw [numCached, hnum]
    rw [hnil, nil_append] at hi
    exact (List.getElem?_eq_some_iff.1 hi).1

section
variable (h : Grown r null required new m m')
include h

theorem Grown.once (hone : m.Once null r) : m'.Once null r := by
  intro b hb
  rw [h.list, count_append]
  by_cases hmem : b ∈ new
  · have h₁ := (h.fresh b hmem).2
    have h₂ := m.count_le_occ r b
    have h₃ := count_eq_one_of_mem h.nodup hmem
    omega
  · rw [count_eq_zero_of_not_mem hmem]
    exact hone b hb

theorem Grown.nullsCached (hn : m.NullsCached null r) :
    m'.NullsCached null r := by
  intro i hi
  rw [numCached, h.sameCached]
  rw [h.list, getElem?_append] at hi
  split at hi
  · exact hn i hi
  · exact absurd rfl (h.fresh null (mem_of_getElem? hi)).1

theorem Grown.length_blocksOf :
    (m'.blocksOf r).length = max (m.blocksOf r).length required := by
  rw [h.list, length_append, h.length]
  omega

end

theorem CachedUpTo.once {n : Nat} (h : CachedUpTo r n m m') (hone : m.Once null r) : m'.Once null r := by
  intro b hb
  rw [h.list]
  exact hone b hb

theorem CachedUpTo.nullsCached {n : Nat} (h : CachedUpTo r n m m') (hn : m.NullsCached null r) :
    m'.NullsCached null r := by
  intro i hi
  rw [h.list] at hi
  rw [h.num]
  exact Nat.lt_of_lt_of_le (hn i hi) (Nat.le_max_left _ _)

end Steps

end GroupManager

end Xmix.Kv
