import Xmix.Kv.LongestHit
import Xmix.Kv.PoolRuns

/-!
# Attention windows

Which tokens a token attends to, against the blocks that are found in the cache for it and the blocks that are dropped
while its request runs. A block that has left the window before it was cached stands as the null block where
`cache_full_blocks` takes it: draft tokens that were accepted can bring this about, and from then on the null block is
found in the cache.
-/

namespace Xmix.Kv

open GroupManager List Option

def GroupKind.Attends : GroupKind → Nat → Nat → Prop
  | .full, _, _ => True
  | .slidingWindow w, t, pos => t < pos + w
  | .chunkedLocal c, t, pos => pos / c = t / c
  | .mamba _, t, pos => t ≤ pos + 1
  | .crossAttention, _, _ => False

variable {spec : GroupSpec}

section Hits
variable {η : Type} [DecidableEq η] {p : BlockPool η} {groups : List Nat} {hashes : List η}

theorem le_cdiv_mul_blockSize {a b : Nat} (hb : 0 < b) : a ≤ cdiv a b * b := by
  have := Nat.div_add_mod (a + b - 1) b
  have := Nat.mod_lt (a + b - 1) hb
  rw [cdiv, Nat.mul_comm]
  omega

theorem needFrom_le {L pos : Nat} (h : spec.kind.Attends (L * spec.blockSize) pos) (hpos : pos < L * spec.blockSize) :
    needFrom spec L ≤ pos / spec.blockSize := by
  rw [needFrom, Nat.le_div_iff_mul_le spec.blockPos]
  rcases hk : spec.kind with - | w | c | k | - <;> rw [hk] at h
  · simp
  · have hle := @le_cdiv_mul_blockSize (w - 1) spec.blockSize spec.blockPos
    have hmax := Nat.mul_le_mul_right spec.blockSize (Nat.le_max_right 1 (cdiv (w - 1) spec.blockSize))
    have : L * spec.blockSize < pos + w := h
    simp only [Nat.sub_mul]
    omega
  · have heq : pos / c = L * spec.blockSize / c := h
    have h₁ := Nat.div_mul_le_self (L * spec.blockSize / c * c) spec.blockSize
    have h₂ := Nat.div_mul_le_self pos c
    rw [heq] at h₂
    exact Nat.le_trans h₁ h₂
  · have : L * spec.blockSize ≤ pos + 1 := h
    have := spec.blockPos
    simp only [Nat.sub_mul, Nat.one_mul]
    omega
  · exact h.elim

/-- The hit holds every block that the next token attends to. -/
structure Sufficient (spec : GroupSpec) (p : BlockPool η) (groups : List Nat) (hashes : List η)
    (maxLength : Nat) (lists : List (List Nat))
    (L : Nat) : Prop where
  bound : L * spec.blockSize ≤ maxLength
  count : lists.length = groups.length
  lengths : ∀ list ∈ lists, list.length = L
  cached : ∀ (j g : Nat) (list : List Nat), groups[j]? = some g → lists[j]? = some list →
    ∀ i b : Nat, list[i]? = some b → b ≠ p.nullBlock →
    ∃ x, hashes[i]? = some x ∧ p.cachedBlockHashToBlock.getOneBlock (x, g) = some b
  covered : ∀ list ∈ lists, ∀ pos < L * spec.blockSize, spec.kind.Attends (L * spec.blockSize) pos →
    ∃ b, list[pos / spec.blockSize]? = some b ∧ b ≠ p.nullBlock

/-- A hit is sufficient exactly if no token that is attended to after the longest prefix the pool can serve is cached
as the null block. -/
theorem findHits_sufficient_iff (hg : groups ≠ []) {spec : GroupSpec} (hspec : spec.Aligned) {maxLength : Nat}
    {rows : List (List Nat)} (h : findHits spec p groups hashes maxLength false = some rows) :
    Sufficient spec p groups hashes maxLength (columns groups.length rows) rows.length ↔
      ∀ L, IsGreatest {L | L ≤ maxLength / spec.blockSize ∧ Serves spec p groups hashes L} L →
        ∀ pos < L * spec.blockSize, spec.kind.Attends (L * spec.blockSize) pos → ∀ g ∈ groups, ∀ x,
          hashes[pos / spec.blockSize]? = some x → p.cachedBlockHashToBlock.getOneBlock (x, g) ≠ some p.nullBlock := by
  obtain ⟨hle, hmax, hshape⟩ := findHits_longest hg h
  replace hshape := hshape (.inl hspec)
  have hgreat : IsGreatest {L | L ≤ maxLength / spec.blockSize ∧ Serves spec p groups hashes L} rows.length :=
    ⟨⟨hle, hshape.serves hg⟩, fun L hL => Nat.not_lt.1 fun hlt => hmax L hlt hL.1 hL.2⟩
  have hcount : (columns groups.length rows).length = groups.length := by simp [columns]
  -- the entry of a group for a token that is attended to
  have hentry : ∀ pos < rows.length * spec.blockSize, spec.kind.Attends (rows.length * spec.blockSize) pos →
      ∀ (j g : Nat) (list : List Nat), groups[j]? = some g → (columns groups.length rows)[j]? = some list →
        ∃ x b, hashes[pos / spec.blockSize]? = some x ∧ list[pos / spec.blockSize]? = some b ∧
          p.cachedBlockHashToBlock.getOneBlock (x, g) = some b := by
    intro pos hpos hatt j g list hj hlist
    have hlt : pos / spec.blockSize < list.length := by
      rw [(getElem?_columns hlist).2, length_map]
      exact (Nat.div_lt_iff_lt_mul spec.blockPos).2 hpos
    have hfrom := needFrom_le hatt hpos
    rcases hshape.entry hj hlist (getElem?_eq_getElem hlt) with ⟨hbefore, -⟩ | ⟨-, x, hx, hb⟩
    · omega
    · exact ⟨x, _, hx, getElem?_eq_getElem hlt, hb⟩
  constructor
  · intro hs L hL
    rw [hL.unique hgreat]
    intro pos hpos hatt g hmem x hx hnull
    obtain ⟨j, hj⟩ := getElem?_of_mem hmem
    have hlt : j < (columns groups.length rows).length := by
      rw [hcount]
      exact (List.getElem?_eq_some_iff.1 hj).1
    obtain ⟨y, b, hy, hb, hget⟩ := hentry pos hpos hatt j g _ hj (getElem?_eq_getElem hlt)
    obtain ⟨b', hb', hne⟩ := hs.covered _ (getElem_mem hlt) pos hpos hatt
    cases hy.symm.trans hx
    cases hb.symm.trans hb'
    exact hne (some.inj (hget.symm.trans hnull))
  · intro hnull
    refine ⟨(Nat.le_div_iff_mul_le spec.blockPos).1 hle, hcount, fun list hlist => ?_,
      fun j g list hj hlist i b hb hne => ?_, fun list hlist pos hpos hatt => ?_⟩
    · obtain ⟨j, -, rfl⟩ := mem_map.1 hlist
      rw [length_map]
    · rcases hshape.entry hj hlist hb with ⟨-, rfl⟩ | ⟨-, hx⟩
      · exact absurd rfl hne
      · exact hx
    · obtain ⟨j, hj⟩ := getElem?_of_mem hlist
      have hlt : j < groups.length := (getElem?_columns hj).1
      obtain ⟨x, b, hx, hb, hget⟩ := hentry pos hpos hatt j _ list (getElem?_eq_getElem hlt) hj
      refine ⟨b, hb, fun heq => ?_⟩
      exact hnull _ hgreat pos hpos hatt _ (getElem_mem hlt) x hx (heq ▸ hget)

/-- The hits of `windowPool` for a window of three tokens. -/
theorem windowPool_sufficient :
    ∃ rows, findHits ⟨.slidingWindow 3, 2, Nat.zero_lt_two, Nat.succ_pos 2⟩ windowPool [0] [10, 11, 12, 13] 9 false =
        some rows ∧
      Sufficient ⟨.slidingWindow 3, 2, Nat.zero_lt_two, Nat.succ_pos 2⟩ windowPool [0]
        [10, 11, 12, 13] 9 (columns 1 rows)
        rows.length := by
  have hnull : ∀ x ∈ [10, 11, 12, 13], windowPool.cachedBlockHashToBlock.getOneBlock (x, 0) ≠
    some windowPool.nullBlock := by
    decide
  refine ⟨[[0], [0], [5]], by decide, ?_⟩
  refine (findHits_sufficient_iff (by decide) (fun c hc => ?_) (by decide)).2 fun L _ pos _ _ g hg x hx => ?_
  · cases hc
  · rw [mem_singleton.1 hg]
    exact hnull x (mem_of_getElem? hx)

end Hits

/-! ### Blocks that leave the window -/

def Passed (spec : GroupSpec) (n i : Nat) : Prop :=
  ∀ t ≥ n, ∀ pos ≤ t, pos / spec.blockSize = i → ¬ spec.kind.Attends t pos

theorem attends_iff (hw : spec.kind.windowed = true) {t pos : Nat} (hpos : pos ≤ t) :
    spec.kind.Attends t pos ↔ getNumSkippedTokens spec t ≤ pos := by
  rw [getNumSkippedTokens]
  rcases hk : spec.kind with - | w | c | k | - <;> rw [hk] at hw <;> try cases hw
  · show t < pos + w ↔ (t : Int) - w + 1 ≤ pos
    omega
  · have hc := spec.kindPos
    rw [hk] at hc
    rw [Int.ofNat_le, ← Nat.le_div_iff_mul_le hc]
    exact ⟨fun h => h.ge, fun h => (Nat.div_le_div_right hpos).antisymm h⟩

theorem getNumSkippedTokens_le (spec : GroupSpec) (t : Nat) : getNumSkippedTokens spec t ≤ t := by
  have hpos := spec.kindPos
  rw [getNumSkippedTokens]
  split
  next w hk =>
    rw [hk] at hpos
    have : 0 < w := hpos
    omega
  next c hk => exact Int.ofNat_le.2 (Nat.div_mul_le_self t c)
  next => omega

theorem getNumSkippedTokens_mono {n t : Nat} (h : n ≤ t) :
    getNumSkippedTokens spec n ≤ getNumSkippedTokens spec t := by
  rw [getNumSkippedTokens, getNumSkippedTokens]
  split
  · omega
  · exact Int.ofNat_le.2 (Nat.mul_le_mul_right _ (Nat.div_le_div_right h))
  · exact Int.le_refl 0

theorem passed_iff (hw : spec.kind.windowed = true) {n i : Nat} :
    Passed spec n i ↔ i < numSkippedBlocks spec n := by
  have hbs := spec.blockPos
  rw [numSkippedBlocks, Nat.lt_div_iff_mul_lt hbs]
  constructor
  · intro h
    -- the last token of the block, seen from the first token that is not before it
    have hlast : (i * spec.blockSize + (spec.blockSize - 1)) / spec.blockSize = i := by
      rw [Nat.add_comm, Nat.add_mul_div_right _ _ hbs, Nat.div_eq_of_lt (by omega), Nat.zero_add]
    have := h (max n (i * spec.blockSize + (spec.blockSize - 1))) (Nat.le_max_left _ _) _ (Nat.le_max_right _ _) hlast
    rw [attends_iff hw (Nat.le_max_right _ _), Int.not_le] at this
    have hle := getNumSkippedTokens_le spec (max n (i * spec.blockSize + (spec.blockSize - 1)))
    have hmax : max n (i * spec.blockSize + (spec.blockSize - 1)) = n := by omega
    rw [hmax] at this
    omega
  · intro h t ht pos hpos hblock hatt
    have h₁ := (attends_iff hw hpos).1 hatt
    have h₂ := @getNumSkippedTokens_mono spec n t ht
    have h₃ := Nat.div_add_mod pos spec.blockSize
    have h₄ := Nat.mod_lt pos hbs
    rw [hblock] at h₃
    have h₅ : spec.blockSize * i = i * spec.blockSize := Nat.mul_comm _ _
    omega

section Groups
variable {ι η : Type} [DecidableEq ι] [DecidableEq η]

namespace GroupManager

def handed (gm : GroupManager ι) (r : ι) (n : Nat) : List Nat :=
  ((gm.blocksOf r).take (n / gm.spec.blockSize)).drop (gm.numCached r)

end GroupManager

namespace KVCacheManager

variable {m m' : KVCacheManager ι η} {r : ι}

/-- The call up to where it caches blocks: it ends there if the caching is delayed. -/
def stageSlots (m : KVCacheManager ι η) (q : Request ι η) (numNew numNewComputed : Nat)
    (newComputedBlocks : Option (List (List Nat)))
    (lookahead encoder : Nat) : Option (KVCacheManager ι η × Option (List (List Nat))) :=
  m.allocateSlots q numNew numNewComputed newComputedBlocks lookahead true encoder

structure SlotsKept (m : KVCacheManager ι η) (q : Request ι η) (numNew numNewComputed : Nat)
    (computed : Option (List (List Nat)))
    (lookahead encoder : Nat) : Prop where
  safe : ∀ m', m.removeSkippedBlocks q.requestId q.numComputedTokens = some m' → ∀ (g : Nat) (gm gm' : GroupManager ι),
    m.groups[g]? = some gm → m'.groups[g]? = some gm' → gm.spec.kind.windowed = true →
      ∀ i b : Nat, (gm.blocksOf q.requestId)[i]? = some b →
      (gm'.blocksOf q.requestId)[i]? ≠ some b → Passed gm.spec q.numComputedTokens i
  complete : ∀ m', m.removeSkippedBlocks q.requestId q.numComputedTokens = some m' →
    ∀ gm' ∈ m'.groups, gm'.spec.kind.windowed = true →
    ∀ i, Passed gm'.spec q.numComputedTokens i → (gm'.blocksOf q.requestId)[i]? = some m.blockPool.nullBlock
  handed : m.enableCaching = true → ∀ m' new,
    m.stageSlots q numNew numNewComputed computed lookahead encoder = some (m', some new) →
    ∀ gm' ∈ m'.groups, m.blockPool.nullBlock ∉ gm'.handed q.requestId (tokensToCache q numNew numNewComputed)

end KVCacheManager

omit [DecidableEq η] in
theorem GroupManager.NullsCached.not_mem_handed {gm : GroupManager ι}
    {null : Nat} {r : ι} (h : gm.NullsCached null r) (n : Nat) :
    null ∉ gm.handed r n := fun hmem => by
  obtain ⟨i, hi⟩ := getElem?_of_mem hmem
  rw [handed, getElem?_drop, getElem?_take] at hi
  split at hi
  · have := h _ hi
    omega
  · cases hi

end Groups

/-! ### Hits have their null blocks first -/

section HitLists
variable {η : Type} [DecidableEq η] {p : BlockPool η} {hashes : List η}

theorem Shape.nullsFirst {groups : List Nat} {start : Nat}
    {rows : List (List Nat)} (h : Shape p groups hashes start rows)
    (hnull : ∀ k, p.cachedBlockHashToBlock.getOneBlock k ≠ some p.nullBlock) :
    ∀ list ∈ columns groups.length rows, NullsFirst p.nullBlock list := by
  intro list hlist i k hik hk
  obtain ⟨j, hj⟩ := getElem?_of_mem hlist
  have hlt := (getElem?_columns hj).1
  rcases h.entry (getElem?_eq_getElem hlt) hj hk with ⟨hks, -⟩ | ⟨-, x, -, hx⟩
  · have hi : i < list.length := Nat.lt_of_le_of_lt hik (List.getElem?_eq_some_iff.1 hk).1
    rcases h.entry (getElem?_eq_getElem hlt) hj (getElem?_eq_getElem hi) with ⟨-, hb⟩ | ⟨hge, -⟩
    · rw [getElem?_eq_getElem hi, hb]
    · omega
  · exact absurd hx (hnull _)

theorem coordinatorHits_nullsFirst {specs : List GroupSpec} {maxLength hit : Nat} {eagle : Bool}
    {lists : List (List Nat)} (hnull : ∀ k, p.cachedBlockHashToBlock.getOneBlock k ≠ some p.nullBlock)
    (h : coordinatorHits specs p hashes maxLength eagle = some (lists, hit)) :
    ∀ list ∈ lists, NullsFirst p.nullBlock list := by
  rw [coordinatorHits.eq_def] at h
  split at h
  next spec =>
    obtain ⟨rows, hrows, h⟩ := bind_eq_some_iff.1 h
    cases h
    obtain ⟨start, hshape⟩ := findHits_shape (cons_ne_nil 0 []) hrows
    exact hshape.nullsFirst hnull
  next =>
    obtain ⟨⟨fullIds, full, otherIds, other, fullFirst⟩, hsplit, h⟩ := bind_eq_some_iff.1 h
    obtain ⟨fullRows, hfull, h⟩ := bind_eq_some_iff.1 h
    obtain ⟨otherRows, hother, h⟩ := bind_eq_some_iff.1 h
    obtain ⟨hfullIds, hotherIds, -⟩ := splitGroups_full hsplit
    simp only at h
    split at h
    · cases h
    cases h
    obtain ⟨start, hshape⟩ := findHits_shape hotherIds hother
    obtain ⟨start', hshape'⟩ := @findHits_shape η _ p fullIds hashes eagle
      ⟨.full, full.blockSize, full.blockPos, trivial⟩ fullRows hfullIds maxLength hfull
    have h₁ := hshape.nullsFirst hnull
    have h₂ := (hshape'.take (otherRows.length * other.blockSize / full.blockSize)).nullsFirst hnull
    intro list hlist
    cases fullFirst with
    | true => exact (mem_append.1 hlist).elim (h₂ list) (h₁ list)
    | false => exact (mem_append.1 hlist).elim (h₁ list) (h₂ list)

end HitLists

/-! ### Runs -/

namespace CacheState

open KVCacheManager

variable {ι η : Type} [DecidableEq ι] [DecidableEq η] {s s' : CacheState ι η} {q : Request ι η}

def Finalized (s : CacheState ι η) : Call ι η → Prop
  | .extend q _ _ => s.manager.enableCaching = true → ∀ gm ∈ s.manager.groups,
      numSkippedBlocks gm.spec q.numComputedTokens ≤ gm.numCached q.requestId
  | _ => True

def WindowsKept (s : CacheState ι η) : Call ι η → Prop
  | .start q numNew lookahead encoder => ∀ blocks hit, s.manager.getComputedBlocks q = some (blocks, hit) →
      s.manager.SlotsKept q numNew hit (some blocks) lookahead encoder
  | .extend q numNew lookahead => s.manager.SlotsKept q numNew 0 none lookahead 0
  | .free _ | .resetPrefixCache => True

structure Framed (s : CacheState ι η) : Prop where
  sound : s.Sound
  safe : s.NullSafe
  first : ∀ gm ∈ s.manager.groups, ∀ r, NullsFirst s.manager.blockPool.nullBlock (gm.blocksOf r)

section Slots
variable {numNew numNewComputed lookahead encoder : Nat} {computed : Option (List (List Nat))}

section
variable (hs : s.Framed) (hc : s.manager.Computed (computed.getD s.manager.emptyBlocks))
include hs hc

theorem Framed.slotsKept
    (hskipped : s.manager.enableCaching = true → ∀ gm ∈ s.manager.groups,
      GroupManager.numSkippedBlocks gm.spec q.numComputedTokens ≤ gm.numCached q.requestId) :
    s.manager.SlotsKept q numNew numNewComputed computed lookahead encoder := by
  refine ⟨fun m' h g gm gm' hg hg' hw i b hb hb' => ?_, fun m' h gm' hgm' hw i hi => ?_,
    fun hca m' new h gm' hgm' => ?_⟩
  · obtain ⟨gm₁, hg₁, hskip⟩ :=
      (removeSkippedBlocks_moves (N := False) hs.sound.counted (hs.sound.once _) h).each g gm hg
    cases hg₁.symm.trans hg'
    rw [passed_iff hw]
    have hlt : i < (gm'.blocksOf q.requestId).length := by
      rw [hskip.length]
      exact (List.getElem?_eq_some_iff.1 hb).1
    rcases hskip.entry i _ (getElem?_eq_getElem hlt) with hsame | ⟨-, hik⟩
    · exact absurd ((getElem?_eq_getElem hlt).trans (hsame.symm.trans hb)) hb'
    · exact hik
  · obtain ⟨g, gm, hg, -, hskip⟩ :=
      (removeSkippedBlocks_moves (N := False) hs.sound.counted (hs.sound.once _) h).of_mem hgm'
    rw [passed_iff hw, hskip.spec] at hi
    exact (hskip.dropped (hs.first gm (mem_of_getElem? hg) _)).2 i hi
  · rw [stageSlots] at h
    obtain ⟨-, m₁, -, h₁, ⟨hnone, -⟩ | ⟨_, -, hcommit⟩⟩ :=
      allocateSlots_cases (N := False) hs.sound.counted (hs.sound.once _) h
    · cases hnone
    have h₂ := commitSlots_moves (N := False) h₁.counted (hc.moves h₁) (fun hf => hf.elim) hcommit
    obtain ⟨g, gm, hg, -, gm₁, hskip, comp, bs, -, -, hcom⟩ := (h₁.trans h₂).of_mem hgm'
    have hgm := mem_of_getElem? hg
    rw [h₁.null] at hcom
    exact (hcom.nullsCached (hskip.nullsCached (hs.safe.nulls hca gm hgm _) (hskipped hca gm hgm))).not_mem_handed _

theorem Framed.served {a : Active} {res : KVCacheManager ι η × Option (List (List Nat))}
    (hfirst : ∀ bs ∈ computed.getD s.manager.emptyBlocks, NullsFirst s.manager.blockPool.nullBlock bs)
    (hskipped : s.manager.enableCaching = true → ∀ gm ∈ s.manager.groups,
      numSkippedBlocks gm.spec q.numComputedTokens ≤ gm.numCached q.requestId)
    (h : s.manager.allocateSlots q numNew numNewComputed computed lookahead false encoder = some res) :
    (s.served q.requestId a res).Framed := by
  refine ⟨Sound.served hs.sound hc h, NullSafe.served hs.sound hc h hskipped hs.safe, ?_⟩
  obtain ⟨m', new⟩ := res
  rw [served_manager]
  obtain ⟨-, m₁, -, h₁, hres⟩ := allocateSlots_cases (N := False) hs.sound.counted (hs.sound.once _) h
  have hskipped : ∀ gm' ∈ m₁.groups, ∀ r, NullsFirst s.manager.blockPool.nullBlock (gm'.blocksOf r) :=
    fun gm' hgm' r => by
    obtain ⟨g, gm, hg, -, hskip⟩ := h₁.of_mem hgm'
    have hgm := hs.first gm (mem_of_getElem? hg)
    by_cases hr : r = q.requestId
    · rw [hr]
      exact (hskip.dropped (hgm _)).1
    · rw [hskip.blocks r hr]
      exact hgm r
  obtain ⟨-, rfl⟩ | ⟨_, -, hcommit⟩ := hres
  · rw [h₁.null]
    exact hskipped
  have h₂ := commitSlots_moves (N := False) h₁.counted (hc.moves h₁) (fun hf => hf.elim) hcommit
  intro gm' hgm' r
  obtain ⟨g, gm, hg, -, comp, bs, hcomp, -, hcom⟩ := h₂.of_mem hgm'
  rw [h₂.null, h₁.null]
  rw [h₁.null] at hcom
  by_cases hr : r = q.requestId
  · subst hr
    exact hcom.nullsFirst (hskipped gm (mem_of_getElem? hg) _) (hfirst comp (mem_of_getElem? hcomp))
  · rw [hcom.only.blocks r hr]
    exact hskipped gm (mem_of_getElem? hg) r

end

end Slots

theorem NullSafe.getOneBlock_ne (hp : s.manager.blockPool.Inv s.manager.occurrences) (hn : s.NullSafe) (k : η × Nat) :
    s.manager.blockPool.cachedBlockHashToBlock.getOneBlock k ≠ some s.manager.blockPool.nullBlock := fun h => by
  have := (hp.hashes _ k).2 (BlockMap.holds_of_getOneBlock h)
  rw [hn.clear] at this
  cases this

theorem Framed.hits_nullsFirst (hs : s.Framed) {blocks : List (List Nat)}
    {hit : Nat} (h : s.manager.getComputedBlocks q = some (blocks, hit)) :
    ∀ bs ∈ blocks, NullsFirst s.manager.blockPool.nullBlock bs := by
  rw [getComputedBlocks] at h
  split at h
  · cases h
    intro bs hbs
    obtain ⟨_, -, rfl⟩ := mem_map.1 hbs
    exact .nil
  · exact coordinatorHits_nullsFirst (hs.safe.getOneBlock_ne hs.sound.counted) h

omit [DecidableEq η] in
theorem skipped_le_of_new (hq : q.numComputedTokens = 0) (gm : GroupManager ι) :
    numSkippedBlocks gm.spec q.numComputedTokens ≤ gm.numCached q.requestId := by
  have := numSkippedBlocks_le gm.spec q.numComputedTokens
  rw [hq, Nat.zero_div] at this
  rw [hq]
  omega

section
variable {c : Call ι η} (hs : s.Framed) (hc : s.Permits c) (hf : s.Finalized c)
include hs hc hf

theorem Framed.exec (h : s.exec c = some s') : s'.Framed := by
  cases c with
  | start q numNew lookahead encoder =>
    obtain ⟨⟨blocks, hit⟩, hget, h⟩ := bind_eq_some_iff.1 h
    obtain ⟨res, halloc, h⟩ := bind_eq_some_iff.1 h
    cases h
    exact hs.served (show s.manager.Computed
      ((some blocks).getD _) from (getComputedBlocks_hits hs.sound.counted hc.2.2 hget).computed)
      (hs.hits_nullsFirst hget) (fun _ gm _ => skipped_le_of_new hc.2.1 gm) halloc
  | extend q numNew lookahead =>
    obtain ⟨res, halloc, h⟩ := bind_eq_some_iff.1 h
    cases h
    refine hs.served (show s.manager.Computed ((none : Option _).getD _) from emptyBlocks_computed _)
      (fun bs hbs => ?_) hf halloc
    obtain ⟨_, -, rfl⟩ := mem_map.1 hbs
    exact .nil
  | free r =>
    refine ⟨hs.sound.exec hc h, ?_, ?_⟩ <;> obtain ⟨m', hfree, h⟩ := bind_eq_some_iff.1 h <;> cases some.inj h
    · exact NullSafe.free hs.sound hs.safe hfree
    · have hm := free_moves (N := False) hs.sound.counted (hs.sound.once r) hfree
      intro gm' hgm' r'
      obtain ⟨g, gm, hg, -, honly, hnil, -⟩ := hm.of_mem hgm'
      rw [hm.null]
      by_cases hr : r' = r
      · rw [hr, hnil]
        exact .nil
      · rw [honly.blocks r' hr]
        exact hs.first gm (mem_of_getElem? hg) r'
  | resetPrefixCache =>
    refine ⟨hs.sound.exec hc h, ?_, ?_⟩ <;> cases some.inj h
    · exact NullSafe.resetPrefixCache hs.sound.counted hs.safe
    · intro gm hgm r
      show NullsFirst s.manager.blockPool.resetPrefixCache.2.nullBlock (gm.blocksOf r)
      rw [(BlockPool.resetPrefixCache_spec hs.sound.counted).2.1.2.2]
      exact hs.first gm hgm r

theorem Framed.windowsKept : s.WindowsKept c := by
  cases c with
  | start q numNew lookahead encoder =>
    intro blocks hit hget
    exact hs.slotsKept (show s.manager.Computed
      ((some blocks).getD _) from (getComputedBlocks_hits hs.sound.counted hc.2.2 hget).computed)
      fun _ gm _ => skipped_le_of_new hc.2.1 gm
  | extend q numNew lookahead =>
    exact hs.slotsKept (show s.manager.Computed ((none : Option _).getD _) from emptyBlocks_computed _) hf
  | free r => trivial
  | resetPrefixCache => trivial

end

theorem init_framed {maxModelLen numGpuBlocks : Nat}
    {caching eagle : Bool} {specs : List GroupSpec} {m : KVCacheManager ι η}
    (h : KVCacheManager.init maxModelLen numGpuBlocks caching eagle specs = some m) :
    (init m).Framed := by
  obtain ⟨hsound, htidy⟩ := init_sound h
  refine ⟨hsound, ⟨htidy.clear, htidy.nulls⟩, fun gm hgm r => ?_⟩
  rw [(hsound.idle gm hgm r rfl).1]
  exact .nil

/-- In a run in which no block leaves the window before it is cached, every call keeps the windows. -/
theorem run_windowsKept {maxModelLen numGpuBlocks : Nat}
    {caching eagle : Bool} {specs : List GroupSpec} {m : KVCacheManager ι η}
    (hm : KVCacheManager.init maxModelLen numGpuBlocks caching eagle specs = some m)
    {cs : List (Call ι η)} (hcs : Follows (fun s c => s.Permits c ∧ s.Finalized c) (init m) cs)
    (h : (init m).run cs = some s) {c : Call ι η} (hc : s.Permits c) (hf : s.Finalized c) :
    s.WindowsKept c :=
  (hcs.run_induction (fun _ _ _ hs hc => hs.exec hc.1 hc.2) (init_framed hm) h).windowsKept hc hf

def draftSpec : GroupSpec := ⟨.slidingWindow 2, 1, Nat.one_pos, Nat.zero_lt_two⟩

def draftRequest (r numComputed numTokens : Nat) : Request Nat Nat :=
  ⟨r, numComputed, numTokens, range numTokens, false⟩

def draftManager : KVCacheManager Nat Nat := (KVCacheManager.init 16 16 true false [draftSpec]).get rfl

theorem draftManager_eq : KVCacheManager.init 16 16 true false [draftSpec] = some draftManager := rfl

def draftCalls : List (Call Nat Nat) := [.start (draftRequest 0 0 2) 2 0 0, .extend (draftRequest 0 2 3) 3 0]

def promptState : CacheState Nat Nat := ((init draftManager).run (draftCalls.take 1)).get rfl

def draftState : CacheState Nat Nat := ((init draftManager).run draftCalls).get rfl

theorem promptState_windowsKept : (init draftManager).run (draftCalls.take 1) = some promptState ∧
    promptState.WindowsKept (.extend (draftRequest 0 2 3) 3 0) := by
  have hrun : (init draftManager).run (draftCalls.take 1) = some promptState := rfl
  have hcalls : Follows (fun s c => s.Permits c ∧ s.Finalized c) (init draftManager) (draftCalls.take 1) :=
    ⟨⟨⟨rfl, rfl, by decide⟩, trivial⟩, fun _ _ => trivial⟩
  have hfinal : ∀ gm ∈ promptState.manager.groups, numSkippedBlocks gm.spec 2 ≤ gm.numCached 0 := by decide
  exact ⟨hrun, run_windowsKept draftManager_eq hcalls hrun ⟨_, rfl, Nat.le_refl 2⟩ fun _ => hfinal⟩

/-- Both drafts are accepted: the block of the first one has left the window and was not cached. -/
theorem draftState_hands_null : (init draftManager).run draftCalls = some draftState ∧
      draftState.Permits (.extend (draftRequest 0 5 6) 1 0) ∧
    ¬ draftState.WindowsKept (.extend (draftRequest 0 5 6) 1 0) := by
  refine ⟨rfl, ⟨_, rfl, Nat.le_refl 5⟩, fun h => ?_⟩
  have hnew : ((draftState.manager.stageSlots (draftRequest 0 5 6) 1 0 none 0 0).bind (·.2)).isSome := by decide
  have hnull : ¬ ∀ x ∈ draftState.manager.stageSlots (draftRequest 0 5 6) 1 0 none 0 0,
    ∀ gm ∈ x.1.groups, 0 ∉ gm.handed 0 6 := by decide
  obtain ⟨new, hnew⟩ := isSome_iff_exists.1 hnew
  obtain ⟨⟨m', res⟩, hstage, hres⟩ := bind_eq_some_iff.1 hnew
  obtain rfl : res = some new := hres
  refine hnull fun x hx => ?_
  cases hstage.symm.trans hx
  exact h.handed rfl m' new hstage

end CacheState

/-- From then on the null block is found for the token it was hashed for. -/
theorem draft_hits_insufficient : ∃ s rows, (CacheState.init CacheState.draftManager).run
      (CacheState.draftCalls ++ [.extend (CacheState.draftRequest 0 5 6) 1 0]) = some s ∧
    findHits CacheState.draftSpec s.manager.blockPool [0] [0, 1, 2, 3, 4] 4 false = some rows ∧
    ¬ Sufficient CacheState.draftSpec s.manager.blockPool [0] [0, 1, 2, 3, 4] 4 (columns 1 rows) rows.length := by
  refine ⟨_, [[0], [0], [0], [0]], rfl, by decide, fun h => ?_⟩
  obtain ⟨b, hb, hne⟩ := h.covered [0, 0, 0, 0] (by decide) 3 (by decide) (show 4 < 3 + 2 by decide)
  exact hne (some.inj hb).symm

end Xmix.Kv
