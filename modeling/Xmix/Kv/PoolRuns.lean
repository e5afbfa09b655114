import Xmix.Kv.AllocateSlots
import Xmix.Kv.Isolation

/-!
# Runs of the KV cache manager

The calls a scheduler issues, with the record it keeps of the requests that hold blocks. Two
invariants, one over the other. `Sound`: the pool counts the references of all lists, and a request
without a record holds nothing. `Tidy`, where no window is scheduled beyond the tokens of its
request: null blocks stand only among cached blocks, so that none is ever hashed. Together they give
the state of the pool after any run (`PoolOk`).
-/

namespace Xmix.Kv

open BlockPool List Option Function

variable {ι η : Type} [DecidableEq ι] [DecidableEq η]

structure Active where
  scheduled : Nat
  slots : Nat
  encoder : Nat

structure CacheState (ι η : Type) where
  manager : KVCacheManager ι η
  active : ι → Option Active

inductive Call (ι η : Type) where
  /-- `get_computed_blocks` and `allocate_slots` for a new or resumed request. -/
  | start (q : Request ι η) (numNew lookahead encoder : Nat)
  /-- `allocate_slots` for a running request. -/
  | extend (q : Request ι η) (numNew lookahead : Nat)
  | free (r : ι)
  | resetPrefixCache

def Call.request? : Call ι η → Option (Request ι η)
  | .start q _ _ _ | .extend q _ _ => some q
  | .free _ | .resetPrefixCache => none

namespace CacheState

open KVCacheManager

def served (s : CacheState ι η) (r : ι) (a : Active) : KVCacheManager ι η × Option (List (List Nat)) → CacheState ι η
  | (m, none) => ⟨m, s.active⟩
  | (m, some _) => ⟨m, update s.active r (some a)⟩

def exec (s : CacheState ι η) : Call ι η → Option (CacheState ι η)
  | .start q numNew lookahead encoder => do
    let (blocks, hit) ← s.manager.getComputedBlocks q
    let res ← s.manager.allocateSlots q numNew hit (some blocks) lookahead false encoder
    some (s.served q.requestId
      ⟨q.numComputedTokens + hit + numNew, s.manager.tokensNeedSlot q numNew hit lookahead, encoder⟩ res)
  | .extend q numNew lookahead => do
    let res ← s.manager.allocateSlots q numNew 0 none lookahead false 0
    let old := (s.active q.requestId).getD ⟨0, 0, 0⟩
    some (s.served q.requestId
      ⟨q.numComputedTokens + numNew, max old.slots (s.manager.tokensNeedSlot q numNew 0 lookahead), old.encoder⟩ res)
  | .free r => do
    let m ← s.manager.free r
    some ⟨m, update s.active r none⟩
  | .resetPrefixCache => some ⟨s.manager.resetPrefixCache.2, s.active⟩

def run (s : CacheState ι η) (cs : List (Call ι η)) : Option (CacheState ι η) := cs.foldlM exec s

def init (m : KVCacheManager ι η) : CacheState ι η := ⟨m, fun _ => none⟩

def Follows (C : CacheState ι η → Call ι η → Prop) : CacheState ι η → List (Call ι η) → Prop
  | _, [] => True
  | s, c :: cs => C s c ∧ ∀ s', s.exec c = some s' → Follows C s' cs

def Permits (s : CacheState ι η) : Call ι η → Prop
  | .start q _ _ _ => s.active q.requestId = none ∧ q.numComputedTokens = 0 ∧ q.blockHashes.Nodup
  | .extend q _ _ => ∃ a, s.active q.requestId = some a ∧ q.numComputedTokens ≤ a.scheduled
  | .free _ | .resetPrefixCache => True

def WithinTokens (s : CacheState ι η) : Call ι η → Prop
  | .start q numNew _ _ => ∀ blocks hit, s.manager.getComputedBlocks q = some (blocks, hit) → hit + numNew ≤ q.numTokens
  | .extend q numNew _ => q.numComputedTokens + numNew ≤ q.numTokens
  | .free _ | .resetPrefixCache => True

def Windowed (s : CacheState ι η) : Prop := ∃ gm ∈ s.manager.groups, gm.spec.kind.windowed = true

theorem Follows.run_induction {C : CacheState ι η → Call ι η → Prop} {I : CacheState ι η → Prop}
    (hstep : ∀ s c s', I s → C s c → s.exec c = some s' → I s') {s s' : CacheState ι η}
    {cs : List (Call ι η)} (hs : I s) (hcs : Follows C s cs) (h : s.run cs = some s') : I s' := by
  induction cs generalizing s with
  | nil =>
    cases h
    exact hs
  | cons c cs ih =>
    rw [run, foldlM_cons] at h
    obtain ⟨s₁, hc, h⟩ := bind_eq_some_iff.1 h
    exact ih (hstep s c s₁ hs hcs.1 hc) (hcs.2 s₁ hc) h

/-! ### The invariants -/

structure Sound (s : CacheState ι η) : Prop where
  counted : s.manager.blockPool.Inv s.manager.occurrences
  once : ∀ r, s.manager.Once r
  idle : ∀ gm ∈ s.manager.groups, ∀ r, s.active r = none → gm.blocksOf r = [] ∧ gm.numCachedBlock.get? r = none

structure NullSafe (s : CacheState ι η) : Prop where
  clear : Clear s.manager.blockPool
  nulls : s.manager.enableCaching = true → ∀ gm ∈ s.manager.groups, ∀ r, gm.NullsCached s.manager.blockPool.nullBlock r

structure Tidy (s : CacheState ι η) : Prop where
  clear : Clear s.manager.blockPool
  nulls : s.manager.enableCaching = true → ∀ gm ∈ s.manager.groups, ∀ r, gm.NullsCached s.manager.blockPool.nullBlock r
  window : s.manager.enableCaching = true → ∀ gm ∈ s.manager.groups, gm.spec.kind.windowed = true → ∀ r a,
    s.active r = some a → a.scheduled / gm.spec.blockSize ≤ gm.numCached r

variable {s s' : CacheState ι η} {q : Request ι η}

/-! ### Hits -/

section

omit [DecidableEq ι] [DecidableEq η]

theorem count_flatten_le_one {lists : List (List Nat)} {b : Nat} (hone : ∀ bs ∈ lists, bs.count b ≤ 1)
    (hat : ∀ (g g' : Nat) (bs bs' : List Nat), lists[g]? = some bs →
      lists[g']? = some bs' → b ∈ bs → b ∈ bs' → g = g') :
    lists.flatten.count b ≤ 1 := by
  induction lists with
  | nil => simp
  | cons l lists ih =>
    rw [flatten_cons, count_append]
    by_cases hb : b ∈ l
    · have : lists.flatten.count b = 0 := count_eq_zero_of_not_mem fun hmem => by
        obtain ⟨bs, hbs, hb'⟩ := mem_flatten.1 hmem
        obtain ⟨g, hg⟩ := getElem?_of_mem hbs
        exact absurd (hat 0 (g + 1) l bs (by simp) (by simpa using hg) hb hb') (by omega)
      have := hone l (by simp)
      omega
    · rw [count_eq_zero_of_not_mem hb, Nat.zero_add]
      refine ih (fun bs hbs => hone bs (by simp [hbs])) fun g g' bs bs' hg hg' h h' => ?_
      have := hat (g + 1) (g' + 1) bs bs' (by simpa using hg) (by simpa using hg') h h'
      omega

structure Hits (m : KVCacheManager ι η) (q : Request ι η) (blocks : List (List Nat)) (hit : Nat) : Prop where
  computed : m.Computed blocks
  le : hit ≤ q.numTokens - 1
  tokens : ∀ (g : Nat) (gm : GroupManager ι) (bs : List Nat), m.groups[g]? = some gm → blocks[g]? = some bs →
    bs.length * gm.spec.blockSize = hit

theorem emptyBlocks_computed (m : KVCacheManager ι η) : m.Computed m.emptyBlocks := by
  have hnil : ∀ bs ∈ m.emptyBlocks, bs = [] := fun bs hbs => by
    obtain ⟨_, -, rfl⟩ := mem_map.1 hbs
    rfl
  refine ⟨by simp [emptyBlocks], fun bs hbs b hb => ?_, fun b _ => ?_⟩
  · rw [hnil bs hbs] at hb
    cases hb
  · rw [flatten_eq_nil_iff.2 hnil]
    simp

end

omit [DecidableEq ι] in
theorem getComputedBlocks_hits {m : KVCacheManager ι η} {blocks : List (List Nat)} {hit : Nat}
    (hp : m.blockPool.Inv m.occurrences) (hnd : q.blockHashes.Nodup) (h : m.getComputedBlocks q = some (blocks, hit)) :
    Hits m q blocks hit := by
  rw [getComputedBlocks] at h
  split at h
  · cases h
    refine ⟨emptyBlocks_computed m, Nat.zero_le _, fun g gm bs hg hbs => ?_⟩
    simp only [emptyBlocks, getElem?_map, hg, map_some, some.injEq] at hbs
    simp [← hbs]
  · obtain ⟨n, hlists, hle, hn⟩ := coordinatorHits_spec h
    have hlen : blocks.length = m.groups.length := by
      rw [hlists.length]
      simp
    have hhit : ∀ (g : Nat) (bs : List Nat), blocks[g]? = some bs →
        bs.length = n g ∧ ∀ i b : Nat, bs[i]? = some b → Hit m.blockPool q.blockHashes g i b := fun g bs hbs => by
      have hg : g < blocks.length := (List.getElem?_eq_some_iff.1 hbs).1
      refine hlists.hit g g bs (getElem?_range ?_) hbs
      rw [length_map, ← hlen]
      exact hg
    refine ⟨⟨hlen, fun bs hbs b hb => ?_, fun b hb => ?_⟩, hle, fun g gm bs hg hbs => ?_⟩
    · obtain ⟨g, hg⟩ := getElem?_of_mem hbs
      obtain ⟨i, hi⟩ := getElem?_of_mem hb
      exact ((hhit g bs hg).2 i b hi).lt hp
    · refine count_flatten_le_one (fun bs hbs => ?_) fun g g' bs bs' hg hg' hmem hmem' => ?_
      · obtain ⟨g, hg⟩ := getElem?_of_mem hbs
        exact Hit.count_le_one hp hnd (hhit g bs hg).2 hb
      · -- a block has one hash, and with it one group
        obtain ⟨i, hi⟩ := getElem?_of_mem hmem
        obtain ⟨i', hi'⟩ := getElem?_of_mem hmem'
        obtain ⟨x, -, hx⟩ := ((hhit g bs hg).2 i b hi).resolve_left hb
        obtain ⟨y, -, hy⟩ := ((hhit g' bs' hg').2 i' b hi').resolve_left hb
        have := ((hp.hashes b _).2 hx).symm.trans ((hp.hashes b _).2 hy)
        exact (Prod.mk.inj (some.inj this)).2
    · rw [(hhit g bs hbs).1]
      exact hn g gm.spec (by simp [hg])

/-! ### The calls keep the invariants -/

section Slots
variable {numNew numNewComputed lookahead encoder : Nat} {computed : Option (List (List Nat))} {a : Active}
  {res : KVCacheManager ι η × Option (List (List Nat))}

omit [DecidableEq η] in
theorem served_manager {r : ι} (res : KVCacheManager ι η × Option (List (List Nat))) :
    (s.served r a res).manager = res.1 := by
  obtain ⟨m, new⟩ := res
  cases new <;> rfl

omit [DecidableEq η] in
theorem served_active {r r' : ι} (hr : r' ≠ r) (res : KVCacheManager ι η × Option (List (List Nat))) :
    (s.served r a res).active r' = s.active r' := by
  obtain ⟨m, - | new⟩ := res
  · rfl
  · exact update_of_ne hr _ _

variable (hs : s.Sound) (hc : s.manager.Computed (computed.getD s.manager.emptyBlocks))
  (h : s.manager.allocateSlots q numNew numNewComputed computed lookahead false encoder = some res)
include hs hc h

theorem Sound.served : (s.served q.requestId a res).Sound := by
  obtain ⟨m', new⟩ := res
  have hm := allocateSlots_moves (N := False) hs.counted (hs.once _) hc (fun hf => hf.elim) h
  constructor
  all_goals rw [served_manager]
  · exact hm.counted
  · intro r gm' hgm'
    obtain ⟨g, gm, hg, -, hR⟩ := hm.of_mem hgm'
    have hgm := mem_of_getElem? hg
    rw [hm.null]
    by_cases hr : r = q.requestId
    · subst hr
      obtain ⟨gm₁, hskip, ⟨-, rfl⟩ | ⟨_, comp, _, -, hcomp, -, hcom⟩⟩ := hR
      · exact hskip.once (hs.once _ gm hgm)
      · refine hcom.once (hskip.once (hs.once _ gm hgm)) fun b hb => ?_
        exact Nat.le_trans (Sublist.count_le b (sublist_flatten_of_mem (mem_of_getElem? hcomp))) (hc.once b hb)
    · intro b hb
      rw [hR.only.blocks r hr]
      exact hs.once r gm hgm b hb
  · intro gm' hgm' r hr
    obtain ⟨g, gm, hg, -, hR⟩ := hm.of_mem hgm'
    have hgm := mem_of_getElem? hg
    by_cases hrq : r = q.requestId
    · subst hrq
      obtain ⟨gm₁, hskip, ⟨rfl, rfl⟩ | ⟨_, _, _, rfl, -⟩⟩ := hR
      · obtain ⟨h₁, h₂⟩ := hs.idle gm hgm _ hr
        have hlen := hskip.length
        rw [h₁, length_nil] at hlen
        exact ⟨length_eq_zero_iff.1 hlen, by rw [hskip.sameCached, h₂]⟩
      · simp [served] at hr
    · rw [served_active hrq] at hr
      obtain ⟨h₁, h₂⟩ := hs.idle gm hgm r hr
      exact ⟨by rw [hR.only.blocks r hrq, h₁], by rw [hR.only.cached r hrq, h₂]⟩

variable (hskipped : s.manager.enableCaching = true → ∀ gm ∈ s.manager.groups,
  GroupManager.numSkippedBlocks gm.spec q.numComputedTokens ≤ gm.numCached q.requestId)
include hskipped

theorem NullSafe.served (hn : s.NullSafe) : (s.served q.requestId a res).NullSafe := by
  obtain ⟨m', new⟩ := res
  have hm := allocateSlots_moves (N := True) hs.counted (hs.once _) hc
    (fun _ hca gm hgm => ⟨hn.nulls hca gm hgm _, hskipped hca gm hgm⟩) h
  constructor
  all_goals rw [served_manager]
  · exact hm.pool.2 trivial hn.clear
  · intro hca gm' hgm' r
    have hca' : s.manager.enableCaching = true := hm.caching ▸ hca
    obtain ⟨g, gm, hg, -, hR⟩ := hm.of_mem hgm'
    have hgm := mem_of_getElem? hg
    rw [hm.null]
    by_cases hr : r = q.requestId
    · subst hr
      obtain ⟨gm₁, hskip, hres⟩ := hR
      have hnulls := hskip.nullsCached (hn.nulls hca' gm hgm _) (hskipped hca' gm hgm)
      obtain ⟨-, rfl⟩ | ⟨_, _, _, -, -, -, hcom⟩ := hres
      · exact hnulls
      · exact hcom.nullsCached hnulls
    · intro i hi
      rw [hR.only.blocks r hr] at hi
      rw [GroupManager.numCached, hR.only.cached r hr]
      exact hn.nulls hca' gm hgm r i hi

theorem Tidy.served (ht : s.Tidy) (hcacheTo : s.Windowed → tokensToCache q numNew numNewComputed = a.scheduled) :
    (s.served q.requestId a res).Tidy := by
  have hsafe : (s.served q.requestId a res).NullSafe := NullSafe.served hs hc h hskipped ⟨ht.clear, ht.nulls⟩
  refine ⟨hsafe.clear, hsafe.nulls, ?_⟩
  obtain ⟨m', new⟩ := res
  have hm := allocateSlots_moves (N := False) hs.counted (hs.once _) hc (fun hf => hf.elim) h
  rw [served_manager]
  intro hca gm' hgm' hw r b hb
  have hca' : s.manager.enableCaching = true := hm.caching ▸ hca
  obtain ⟨g, gm, hg, -, hR⟩ := hm.of_mem hgm'
  have hgm := mem_of_getElem? hg
  have hspec := hR.only.spec
  by_cases hr : r = q.requestId
  · subst hr
    obtain ⟨gm₁, hskip, ⟨rfl, rfl⟩ | ⟨_, _, _, rfl, -, -, hcom⟩⟩ := hR
    · rw [hspec] at hw ⊢
      rw [GroupManager.numCached, hskip.sameCached]
      exact ht.window hca' gm hgm hw _ b hb
    · obtain rfl : a = b := by simpa [served] using hb
      rw [hca'] at hcom
      rw [← hcacheTo ⟨gm, hgm, hspec ▸ hw⟩]
      exact hcom.le_numCached
  · rw [served_active hr] at hb
    rw [hspec] at hw ⊢
    rw [GroupManager.numCached, hR.only.cached r hr]
    exact ht.window hca' gm hgm hw r b hb

end Slots

structure Allocates (s : CacheState ι η) (c : Call ι η) (s' : CacheState ι η) (q : Request ι η) (numNew hit : Nat)
    (computed : Option (List (List Nat))) (lookahead encoder : Nat)
      (res : KVCacheManager ι η × Option (List (List Nat))) : Prop where
  request : c.request? = some q
  valid : s.manager.Computed (computed.getD s.manager.emptyBlocks)
  hits : computed = none ∨ s.active q.requestId = none ∧ ∃ blocks, computed = some blocks ∧
    s.manager.getComputedBlocks q = some (blocks, hit)
  slots : s.manager.allocateSlots q numNew hit computed lookahead false encoder = some res
  served : ∃ a, s' = s.served q.requestId a res

section
variable {c : Call ι η} (hs : s.Sound) (hc : s.Permits c) (h : s.exec c = some s')
include hs hc h

theorem exec_cases :
    (∃ q numNew hit computed lookahead encoder res, Allocates s c s' q numNew hit computed lookahead encoder res) ∨
      (∃ r m', s.manager.free r = some m' ∧ s' = ⟨m', update s.active r none⟩) ∨
      s' = ⟨s.manager.resetPrefixCache.2, s.active⟩ := by
  cases c with
  | start q numNew lookahead encoder =>
    obtain ⟨⟨blocks, hit⟩, hget, h⟩ := bind_eq_some_iff.1 h
    obtain ⟨res, halloc, h⟩ := bind_eq_some_iff.1 h
    refine .inl ⟨q, numNew, hit, some blocks, lookahead, encoder, res, rfl, ?_,
      .inr ⟨hc.1, blocks, rfl, hget⟩, halloc, _, (some.inj h).symm⟩
    exact (getComputedBlocks_hits hs.counted hc.2.2 hget).computed
  | extend q numNew lookahead =>
    obtain ⟨res, halloc, h⟩ := bind_eq_some_iff.1 h
    exact .inl ⟨q, numNew, 0, none, lookahead, 0, res, rfl, emptyBlocks_computed _, .inl rfl, halloc, _,
      (some.inj h).symm⟩
  | free r =>
    obtain ⟨m', hfree, h⟩ := bind_eq_some_iff.1 h
    exact .inr (.inl ⟨r, m', hfree, (some.inj h).symm⟩)
  | resetPrefixCache => exact .inr (.inr (some.inj h).symm)

theorem Sound.exec : s'.Sound := by
  rcases exec_cases hs hc h with ⟨q, _, _, _, _, _, res, hal⟩ | ⟨r, m', hfree, rfl⟩ | rfl
  · obtain ⟨a, rfl⟩ := hal.served
    exact Sound.served hs hal.valid hal.slots
  · have hm := free_moves (N := False) hs.counted (hs.once r) hfree
    refine ⟨hm.counted, fun r' gm' hgm' => ?_, fun gm' hgm' r' hr' => ?_⟩
    · obtain ⟨g, gm, hg, -, honly, hnil, -⟩ := hm.of_mem hgm'
      intro b hb
      by_cases hr : r' = r
      · subst hr
        simp [hnil]
      · rw [honly.blocks r' hr]
        rw [hm.null] at hb
        exact hs.once r' gm (mem_of_getElem? hg) b hb
    · obtain ⟨g, gm, hg, -, honly, hnil, hcached⟩ := hm.of_mem hgm'
      by_cases hr : r' = r
      · subst hr
        exact ⟨hnil, hcached⟩
      · have hr'' : s.active r' = none := by simpa [update_of_ne hr] using hr'
        obtain ⟨h₁, h₂⟩ := hs.idle gm (mem_of_getElem? hg) r' hr''
        exact ⟨by rw [honly.blocks r' hr, h₁], by rw [honly.cached r' hr, h₂]⟩
  · obtain ⟨h₁, h₂, -⟩ := resetPrefixCache_spec hs.counted
    refine ⟨h₁, fun r gm hgm => ?_, hs.idle⟩
    show gm.Once s.manager.blockPool.resetPrefixCache.2.nullBlock r
    rw [h₂.2.2]
    exact hs.once r gm hgm

end

omit [DecidableEq η] in
theorem Tidy.skipped_le (ht : s.Tidy) {gm : GroupManager ι}
    (hgm : gm ∈ s.manager.groups) (hca : s.manager.enableCaching = true)
    {r : ι} {n : Nat} (h : n = 0 ∨ ∃ a, s.active r = some a ∧ n ≤ a.scheduled) :
    GroupManager.numSkippedBlocks gm.spec n ≤ gm.numCached r := by
  have hle := GroupManager.numSkippedBlocks_le gm.spec n
  rcases h with rfl | ⟨a, ha, hn⟩
  · rw [Nat.zero_div] at hle
    omega
  · cases hw : gm.spec.kind.windowed with
    | false =>
      rw [GroupManager.numSkippedBlocks, GroupManager.numSkippedBlocks_of_not_windowed hw]
      simp
    | true =>
      have h₁ := ht.window hca gm hgm hw r a ha
      have h₂ := Nat.div_le_div_right (c := gm.spec.blockSize) hn
      omega

theorem NullSafe.free {m' : KVCacheManager ι η} {r : ι}
    (hs : s.Sound) (hn : s.NullSafe) (hfree : s.manager.free r = some m') :
    NullSafe ⟨m', update s.active r none⟩ := by
  have hm := free_moves (N := True) hs.counted (hs.once r) hfree
  refine ⟨hm.pool.2 trivial hn.clear, fun hca gm' hgm' r' => ?_⟩
  obtain ⟨g, gm, hg, -, honly, hnil, -⟩ := hm.of_mem hgm'
  intro i hi
  by_cases hr : r' = r
  · subst hr
    simp [hnil] at hi
  · rw [honly.blocks r' hr, hm.null] at hi
    rw [GroupManager.numCached, honly.cached r' hr]
    exact hn.nulls (hm.caching ▸ hca) gm (mem_of_getElem? hg) r' i hi

theorem NullSafe.resetPrefixCache (hs : s.manager.blockPool.Inv s.manager.occurrences) (hn : s.NullSafe) :
    NullSafe ⟨s.manager.resetPrefixCache.2, s.active⟩ := by
  obtain ⟨-, h₂, -, -, h₅⟩ := resetPrefixCache_spec hs
  have hsame : s.manager.resetPrefixCache.2.enableCaching = s.manager.enableCaching := h₂.2.1
  refine ⟨?_, fun hca gm hgm r => ?_⟩
  · show s.manager.blockPool.resetPrefixCache.2.blockHash s.manager.blockPool.resetPrefixCache.2.nullBlock = none
    rw [h₂.2.2]
    exact h₅ _ hn.clear
  · show gm.NullsCached s.manager.blockPool.resetPrefixCache.2.nullBlock r
    rw [h₂.2.2]
    exact hn.nulls (hsame ▸ hca) gm hgm r

theorem Tidy.exec {c : Call ι η} (hs : s.Sound) (ht : s.Tidy) (hc : s.Permits c) (hw : s.Windowed → s.WithinTokens c)
    (h : s.exec c = some s') : s'.Tidy := by
  cases c with
  | start q numNew lookahead encoder =>
    obtain ⟨⟨blocks, hit⟩, hget, h⟩ := bind_eq_some_iff.1 h
    obtain ⟨res, halloc, h⟩ := bind_eq_some_iff.1 h
    cases h
    refine Tidy.served hs (show s.manager.Computed
      ((some blocks).getD _) from (getComputedBlocks_hits hs.counted hc.2.2 hget).computed)
      halloc (fun hca gm hgm => ht.skipped_le hgm hca (.inl hc.2.1)) ht fun hwin => ?_
    have := hw hwin blocks hit hget
    have := hc.2.1
    simp only [tokensToCache]
    omega
  | extend q numNew lookahead =>
    obtain ⟨res, halloc, h⟩ := bind_eq_some_iff.1 h
    cases h
    refine Tidy.served hs (show s.manager.Computed ((none : Option _).getD _) from emptyBlocks_computed _) halloc
      (fun hca gm hgm => ht.skipped_le hgm hca (.inr hc)) ht fun hwin => ?_
    have : q.numComputedTokens + numNew ≤ q.numTokens := hw hwin
    simp only [tokensToCache]
    omega
  | free r =>
    obtain ⟨m', hfree, h⟩ := bind_eq_some_iff.1 h
    cases h
    have hm := free_moves (N := True) hs.counted (hs.once r) hfree
    have hsafe := NullSafe.free hs ⟨ht.clear, ht.nulls⟩ hfree
    refine ⟨hsafe.clear, hsafe.nulls, fun hca gm' hgm' hwin r' a ha => ?_⟩
    obtain ⟨g, gm, hg, -, honly, -⟩ := hm.of_mem hgm'
    have hr : r' ≠ r := by
      rintro rfl
      simp at ha
    rw [honly.spec] at hwin ⊢
    rw [GroupManager.numCached, honly.cached r' hr]
    exact ht.window (hm.caching ▸ hca) gm (mem_of_getElem? hg) hwin r' a (by simpa [update_of_ne hr] using ha)
  | resetPrefixCache =>
    cases h
    obtain ⟨-, h₂, -⟩ := resetPrefixCache_spec hs.counted
    have hsame : s.manager.resetPrefixCache.2.enableCaching = s.manager.enableCaching := h₂.2.1
    have hsafe := NullSafe.resetPrefixCache hs.counted ⟨ht.clear, ht.nulls⟩
    exact ⟨hsafe.clear, hsafe.nulls, fun hca gm hgm hwin r a ha => ht.window (hsame ▸ hca) gm hgm hwin r a ha⟩

/-! ### Runs -/

theorem init_sound {maxModelLen numGpuBlocks : Nat}
    {caching eagle : Bool} {specs : List GroupSpec} {m : KVCacheManager ι η}
    (h : KVCacheManager.init maxModelLen numGpuBlocks caching eagle specs = some m) :
    (init m).Sound ∧ (init m).Tidy := by
  obtain ⟨p, hp, h⟩ := bind_eq_some_iff.1 h
  split at h
  · cases h
  cases h
  have hpos : 0 < numGpuBlocks := by
    rcases Nat.eq_zero_or_pos numGpuBlocks with rfl | hpos
    · cases hp
    · exact hpos
  obtain ⟨p', hp', hinv, -, -, -, hnone⟩ := init_spec (η := η) hpos caching
  cases hp.symm.trans hp'
  have hgm : ∀ gm ∈ specs.map (GroupManager.init (ι := ι)), ∀ r, gm.blocksOf r = [] ∧
    gm.numCachedBlock.get? r = none := by
    intro gm hgm r
    obtain ⟨spec, -, rfl⟩ := mem_map.1 hgm
    exact ⟨rfl, rfl⟩
  refine ⟨⟨hinv.congr fun b _ => ?_, fun r gm hmem b _ => ?_, fun gm hmem r _ => hgm gm hmem r⟩,
    ⟨hnone _, fun _ gm hmem r i hi => ?_, fun _ gm hmem _ r a ha => by cases ha⟩⟩
  · have : (specs.map GroupManager.init).map (fun gm : GroupManager ι => gm.occ b) = specs.map fun _ => 0 := by
      rw [List.map_map]
      rfl
    simp only [init, occurrences, this]
    simp
  · rw [(hgm gm hmem r).1]
    simp
  · rw [(hgm gm hmem r).1] at hi
    simp at hi

/-- Queue, reference counts and hashes agree, and the null block is never handed out. -/
structure PoolOk (m : KVCacheManager ι η) : Prop where
  queue : ∃ free, m.blockPool.freeBlockQueue.Lists free ∧
    ∀ b, b ∈ free ↔ b < m.blockPool.numGpuBlocks ∧ b ≠ m.blockPool.nullBlock ∧ m.blockPool.refCnt b = 0
  refs : ∀ b, b ≠ m.blockPool.nullBlock → m.blockPool.refCnt b = m.occurrences b
  hashes : ∀ b k, m.blockPool.blockHash b = some k ↔ m.blockPool.cachedBlockHashToBlock.Holds k b
  nullHash : m.blockPool.blockHash m.blockPool.nullBlock = none
  nullNew : ∀ n bs p, m.blockPool.getNewBlocks n = some (bs, p) → m.blockPool.nullBlock ∉ bs

theorem Sound.poolOk (hs : s.Sound) (ht : s.Tidy) : PoolOk s.manager where
  queue := hs.counted.queue
  refs := hs.counted.refs
  hashes := hs.counted.hashes
  nullHash := ht.clear
  nullNew := by
    intro n bs p h hmem
    by_cases hn : (n : Int) ≤ s.manager.blockPool.getNumFreeBlocks
    · obtain ⟨bs', p', hget, -, -, -, -, hfresh, -⟩ := getNewBlocks_spec hs.counted hn
      cases h.symm.trans hget
      exact (hfresh _ hmem).2.1 rfl
    · rw [getNewBlocks_eq_none (by omega)] at h
      cases h

/-- The calls of a scheduler whose requests come with their hashes. -/
def Issues (hash : HashInput → Bytes) (noneHash : Bytes) (bs : Nat) (s : CacheState ι Bytes)
    (c : Call ι Bytes) : Prop :=
  (match c with
    | .start q _ _ _ =>
      s.active q.requestId = none ∧ q.numComputedTokens = 0 ∧ HashReq.Made hash noneHash bs q.blockHashes
    | .extend q _ _ => ∃ a, s.active q.requestId = some a ∧ q.numComputedTokens ≤ a.scheduled
    | .free _ | .resetPrefixCache => True) ∧
  (s.Windowed → s.WithinTokens c)

omit [DecidableEq ι] in
theorem Issues.permits {hash : HashInput → Bytes} {noneHash : Bytes} (hH : HashFn hash noneHash)
    {bs : Nat} {s : CacheState ι Bytes} {c : Call ι Bytes} (h : Issues hash noneHash bs s c) :
    s.Permits c := by
  cases c with
  | start q numNew lookahead encoder => exact ⟨h.1.1, h.1.2.1, hH.nodup_of_made h.1.2.2⟩
  | extend q numNew lookahead => exact h.1
  | free r => trivial
  | resetPrefixCache => trivial

/-- After every call of every run, the pool is as it should be. -/
theorem run_poolOk {hash : HashInput → Bytes} {noneHash : Bytes} (hH : HashFn hash noneHash) {bs : Nat}
    {maxModelLen numGpuBlocks : Nat} {caching eagle : Bool} {specs : List GroupSpec} {m : KVCacheManager ι Bytes}
    (hm : KVCacheManager.init maxModelLen numGpuBlocks caching eagle specs = some m) {cs : List (Call ι Bytes)}
    (hcs : Follows (Issues hash noneHash bs) (init m) cs) {s' : CacheState ι Bytes} (h : (init m).run cs = some s') :
    PoolOk s'.manager := by
  have hstep : ∀ (s : CacheState ι Bytes) c s', (s.Sound ∧ s.Tidy) → Issues hash noneHash bs s c →
    s.exec c = some s' → s'.Sound ∧ s'.Tidy :=
    fun s c s' hs hc hexec => ⟨hs.1.exec (hc.permits hH) hexec, Tidy.exec hs.1 hs.2 (hc.permits hH) hc.2 hexec⟩
  obtain ⟨hs, ht⟩ := hcs.run_induction hstep (init_sound hm) h
  exact hs.poolOk ht

def tinySpec : GroupSpec := ⟨.full, 2, by decide, trivial⟩

/-- A request of three tokens, the first two hashed to `n` zeros. -/
def tinyCached (r numComputed n : Nat) : Request Nat Bytes := ⟨r, numComputed, 3, [replicate n 0], false⟩

/-- Request 0 is computed in two parts and its first block is cached, request 1 hits that block, and
request 3 takes it. -/
def tinyCalls : List (Call Nat Bytes) :=
  [.start (tinyCached 0 0 40) 2 0 0, .extend (tinyCached 0 2 40) 1 0, .free 0,
    .start (tinyCached 1 0 40) 1 0 0, .free 1,
    .start (tinyCached 2 0 404) 3 0 0, .start ⟨3, 0, 1, [], false⟩ 1 0 0]

theorem made_zeros : HashReq.Made unaryHash [1] 2 [replicate 40 0] ∧ HashReq.Made unaryHash [1] 2 [replicate 404 0] ∧
    HashReq.Made unaryHash [1] 2 [] :=
  ⟨⟨⟨[0, 0, 7], [], none, none, none, []⟩, [], by decide +kernel⟩,
    ⟨⟨[1, 0, 7], [], none, none, none, []⟩, [], by decide +kernel⟩,
    ⟨[7], [], none, none, none, []⟩, [], rfl⟩

def tinyManager : KVCacheManager Nat Bytes := (KVCacheManager.init 16 4 true false [tinySpec]).get rfl

theorem tinyManager_eq : KVCacheManager.init 16 4 true false [tinySpec] = some tinyManager := rfl

theorem tinyCalls_issued : Follows (Issues unaryHash [1] 2) (init tinyManager) tinyCalls := by
  obtain ⟨h₀, h₁, h₂⟩ := made_zeros
  refine ⟨⟨⟨rfl, rfl, h₀⟩, fun _ blocks hit h => ?_⟩, fun s' hs' => ?_⟩
  · cases h
    decide
  cases hs'
  refine ⟨⟨⟨_, rfl, show (2 : Nat) ≤ 2 by decide⟩, fun _ => show 2 + 1 ≤ 3 by decide⟩, fun s' hs' => ?_⟩
  cases hs'
  refine ⟨⟨trivial, fun _ => trivial⟩, fun s' hs' => ?_⟩
  cases hs'
  refine ⟨⟨⟨rfl, rfl, h₀⟩, fun _ blocks hit h => ?_⟩, fun s' hs' => ?_⟩
  · cases h
    decide
  cases hs'
  refine ⟨⟨trivial, fun _ => trivial⟩, fun s' hs' => ?_⟩
  cases hs'
  refine ⟨⟨⟨rfl, rfl, h₁⟩, fun _ blocks hit h => ?_⟩, fun s' hs' => ?_⟩
  · cases h
    decide
  cases hs'
  refine ⟨⟨⟨rfl, rfl, h₂⟩, fun _ blocks hit h => ?_⟩, fun s' hs' => trivial⟩
  cases h
  decide

theorem tinyCalls_poolOk : ∃ s, (init tinyManager).run tinyCalls = some s ∧ PoolOk s.manager := by
  obtain ⟨s, hs⟩ := isSome_iff_exists.1 (show ((init tinyManager).run tinyCalls).isSome from rfl)
  exact ⟨s, hs, run_poolOk unaryHash_hashFn tinyManager_eq tinyCalls_issued hs⟩

end CacheState

end Xmix.Kv
