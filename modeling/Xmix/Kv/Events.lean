import Mathlib.Data.Set.Basic
import Xmix.Kv.BlockPool
import Xmix.Lib.Runs

/-!
# KV cache events

`BlockPool` with its queue of events, for one group. A consumer that adds what is stored, removes what is removed and
forgets everything when all blocks are cleared follows the cache as long as no block is evicted while another block is
cached under the same hash: `_maybe_evict_cached_block` reports the hash as removed although it is still found.
-/

namespace Xmix.Kv

open Function BlockPool List Option

inductive KVCacheEvent (ζ : Type) where
  | blockStored (blockHashes : List ζ) (parentBlockHash : Option ζ) (tokenIds : List Nat)
    (blockSize : Nat) (loraId : Option Nat) (medium : String)
  | blockRemoved (blockHashes : List ζ) (medium : String)
  | allBlocksCleared

def mediumGpu : String := "GPU"

structure CachedRequest (η : Type) where
  blockHashes : List η
  allTokenIds : List Nat
  loraId : Option Nat

structure EventPool (η ζ : Type) where
  pool : BlockPool η
  enableKvCacheEvents : Bool
  kvEventQueue : List (KVCacheEvent ζ)

namespace EventPool

variable {η ζ : Type} [DecidableEq η]

def init (numGpuBlocks : Nat) (enableCaching enableKvCacheEvents : Bool) : Option (EventPool η ζ) := do
  let p ← BlockPool.init numGpuBlocks enableCaching
  some ⟨p, enableKvCacheEvents, []⟩

def emit (p : EventPool η ζ) (e : KVCacheEvent ζ) : EventPool η ζ :=
  if p.enableKvCacheEvents then { p with kvEventQueue := p.kvEventQueue ++ [e] } else p

variable (conv : η → ζ)

def parentBlockHash (p : BlockPool η) (blocks : List Nat) (numCached : Nat) : Option (Option ζ) :=
  if numCached = 0 then some none
  else do
    let parent ← blocks[numCached - 1]?
    let k ← p.blockHash parent
    some (some (conv k.1))

def cacheFullBlocks (p : EventPool η ζ) (q : CachedRequest η) (blocks : List Nat)
    (numCached numFull blockSize : Nat) : Option (EventPool η ζ) :=
  if numFull ≤ numCached then some p
  else do
    let pool ← p.pool.cacheFullBlocks q.blockHashes blocks numCached numFull 0
    let p := { p with pool := pool }
    if p.enableKvCacheEvents then do
      let parent ← parentBlockHash conv pool blocks numCached
      let newHashes := ((blocks.take numFull).drop numCached).zip (q.blockHashes.drop numCached)
      some (p.emit (.blockStored (newHashes.map fun x => conv x.2) parent
        ((q.allTokenIds.take (numFull * blockSize)).drop (numCached * blockSize)) blockSize q.loraId mediumGpu))
    else some p

def maybeEvictCachedBlock (p : EventPool η ζ) (b : Nat) : EventPool η ζ :=
  match p.pool.blockHash b with
  | none => p
  | some k =>
    let evicted := { p with pool := p.pool.maybeEvictCachedBlock b }
    match (p.pool.cachedBlockHashToBlock.popBlock k b).1 with
    | none => evicted
    | some _ => evicted.emit (.blockRemoved [conv k.1] mediumGpu)

def takeLoop : List Nat → EventPool η ζ → Option (EventPool η ζ)
  | [], p => some p
  | b :: l, p =>
    let p := if p.pool.enableCaching then maybeEvictCachedBlock conv p b else p
    if p.pool.refCnt b = 0 then
      takeLoop l { p with pool := { p.pool with refCnt := update p.pool.refCnt b (p.pool.refCnt b + 1) } }
    else none

def getNewBlocks (p : EventPool η ζ) (n : Nat) : Option (List Nat × EventPool η ζ) :=
  if p.pool.getNumFreeBlocks < n then none
  else do
    let (ret, queue) ← p.pool.freeBlockQueue.popleftN n
    let p ← takeLoop conv ret { p with pool := { p.pool with freeBlockQueue := queue } }
    some (ret, p)

def resetPrefixCache (p : EventPool η ζ) : Bool × EventPool η ζ :=
  let (ok, pool) := p.pool.resetPrefixCache
  let p := { p with pool := pool }
  (ok, if ok then p.emit .allBlocksCleared else p)

def takeEvents (p : EventPool η ζ) : List (KVCacheEvent ζ) × EventPool η ζ :=
  if p.enableKvCacheEvents then (p.kvEventQueue, { p with kvEventQueue := [] }) else ([], p)

/-! ### The pool with events is the pool -/

variable {conv} {p p' : EventPool η ζ}

omit [DecidableEq η] in
@[simp] theorem pool_emit (e : KVCacheEvent ζ) : (p.emit e).pool = p.pool := by
  rw [emit]
  split <;> rfl

variable (conv) in
theorem pool_maybeEvictCachedBlock (b : Nat) :
    (maybeEvictCachedBlock conv p b).pool = p.pool.maybeEvictCachedBlock b := by
  rw [maybeEvictCachedBlock]
  split
  next h => rw [BlockPool.maybeEvictCachedBlock, h]
  · split
    · rfl
    · exact pool_emit _

end EventPool

/-! ### The consumer -/

section Consumer
variable {ζ : Type}

def applyEvent (S : Set ζ) : KVCacheEvent ζ → Set ζ
  | .blockStored hs _ _ _ _ _ => S ∪ {z | z ∈ hs}
  | .blockRemoved hs _ => S \ {z | z ∈ hs}
  | .allBlocksCleared => ∅

def replay (es : List (KVCacheEvent ζ)) : Set ζ := es.foldl applyEvent ∅

theorem replay_concat (es : List (KVCacheEvent ζ)) (e : KVCacheEvent ζ) :
    replay (es ++ [e]) = applyEvent (replay es) e := by
  simp [replay]

end Consumer

structure EventState (η ζ : Type) where
  pool : EventPool η ζ
  taken : List (KVCacheEvent ζ)

inductive PoolOp (η : Type) where
  | cacheFullBlocks (q : CachedRequest η) (blocks : List Nat) (numCached numFull blockSize : Nat)
  | getNewBlocks (n : Nat)
  | touch (blocks : List Nat)
  | freeBlocks (blocks : List Nat)
  | resetPrefixCache
  | takeEvents

namespace EventState

variable {η ζ : Type} [DecidableEq η] (conv : η → ζ)

variable (s : EventState η ζ)

def exec : PoolOp η → Option (EventState η ζ)
  | .cacheFullBlocks q blocks numCached numFull blockSize =>
    (s.pool.cacheFullBlocks conv q blocks numCached numFull blockSize).map fun p => { s with pool := p }
  | .getNewBlocks n => (s.pool.getNewBlocks conv n).map fun x => { s with pool := x.2 }
  | .touch blocks => (BlockPool.touch blocks s.pool.pool).map fun p => { s with pool := { s.pool with pool := p } }
  | .freeBlocks blocks => (s.pool.pool.freeBlocks blocks).map fun p => { s with pool := { s.pool with pool := p } }
  | .resetPrefixCache => some { s with pool := s.pool.resetPrefixCache.2 }
  | .takeEvents => some ⟨s.pool.takeEvents.2, s.taken ++ s.pool.takeEvents.1⟩

def start (p : EventPool η ζ) : EventState η ζ := ⟨p, []⟩

def events : List (KVCacheEvent ζ) := s.taken ++ s.pool.kvEventQueue

def cached : Set ζ := {z | ∃ h, (s.pool.pool.getCachedBlock h [0]).isSome ∧ conv h = z}

/-- Who reads the events knows the cached hashes. -/
def Replays : Prop := replay s.events = s.cached conv

/-- No block in front of the free queue that the call would evict shares its hash with a block that stays. -/
def Sole : PoolOp η → Prop
  | .getNewBlocks n => s.pool.pool.enableCaching = true →
    ∀ ret queue, s.pool.pool.freeBlockQueue.popleftN n = some (ret, queue) → ∀ b ∈ ret, ∀ b' ∉ ret, ∀ k k',
      s.pool.pool.blockHash b = some k → s.pool.pool.blockHash b' = some k' → conv k.1 ≠ conv k'.1
  | _ => True

structure Coherent (p : EventPool η ζ) : Prop where
  agree : p.pool.HashesAgree
  group : ∀ b k, p.pool.blockHash b = some k → k.2 = 0
  events : p.enableKvCacheEvents = true

def hashSet (p : BlockPool η) : Set ζ := {z | ∃ b k, p.blockHash b = some k ∧ conv k.1 = z}

end EventState

theorem BlockMap.getOneBlock_isSome {η : Type} [DecidableEq η] {m : BlockMap η} {k : η × Nat} :
    (m.getOneBlock k).isSome ↔ ∃ b, m.Holds k b := by
  constructor
  · intro h
    obtain ⟨b, hb⟩ := isSome_iff_exists.1 h
    exact ⟨b, holds_of_getOneBlock hb⟩
  · rintro ⟨b, hb⟩
    rw [Holds] at hb
    rw [getOneBlock]
    rcases hk : m.get? k with - | a | d
    · rw [hk] at hb
      exact hb.elim
    · rfl
    · rw [hk] at hb
      have hmem := Dict.mem_keys.2 hb
      exact isSome_head?.2 (ne_nil_of_mem hmem)

theorem BlockPool.cacheLoop_agree {η : Type} [DecidableEq η] {p p' : BlockPool η}
    {g : Nat} {l : List (Nat × η)} (h : p.HashesAgree) (hloop : cacheLoop g l p = some p') :
    p'.HashesAgree ∧ ∀ b k, p'.blockHash b = some k ↔ p.blockHash b = some k ∨ ∃ x ∈ l, x.1 = b ∧ (x.2, g) = k := by
  induction l generalizing p with
  | nil =>
    cases hloop
    exact ⟨h, by simp⟩
  | cons x l ih =>
    obtain ⟨a, y⟩ := x
    rw [cacheLoop] at hloop
    split at hloop
    next hnone =>
      obtain ⟨h₁, h₂⟩ := ih (p := { p with
          blockHash := update p.blockHash a (some (y, g))
          cachedBlockHashToBlock := p.cachedBlockHashToBlock.insert (y, g) a }) (fun b k => by
        rw [BlockMap.holds_insert, ← h b k]
        by_cases hb : b = a
        · subst hb
          simp [hnone, eq_comm]
        · simp [hb]) hloop
      refine ⟨h₁, fun b k => (h₂ b k).trans ?_⟩
      by_cases hb : b = a
      · subst hb
        simp [hnone]
      · simp [hb, eq_comm]
    next => cases hloop

namespace EventState

variable {η ζ : Type} [DecidableEq η] {conv : η → ζ} {p p' : EventPool η ζ} {s s' : EventState η ζ}

omit [DecidableEq η] in
theorem hashSet_congr {p p' : BlockPool η} (h : p'.blockHash = p.blockHash) : hashSet conv p' = hashSet conv p := by
  simp [hashSet, h]

theorem Coherent.congr {pool : BlockPool η} (h : Coherent p) (hhash : pool.blockHash = p.pool.blockHash)
    (hmap : pool.cachedBlockHashToBlock = p.pool.cachedBlockHashToBlock) : Coherent { p with pool := pool } where
  agree := fun b k => by
    rw [hhash, hmap]
    exact h.agree b k
  group := fun b k hk => h.group b k (by rw [← hhash]; exact hk)
  events := h.events

theorem Coherent.cached_eq (h : Coherent s.pool) : s.cached conv = hashSet conv s.pool.pool := by
  ext z
  have hone : ∀ x, (s.pool.pool.getCachedBlock x [0]).isSome ↔ ∃ b, s.pool.pool.blockHash b = some (x, 0) := fun x => by
    rw [getCachedBlock, mapM_cons, mapM_nil]
    have : (s.pool.pool.cachedBlockHashToBlock.getOneBlock (x, 0)).isSome ↔
      ∃ b, s.pool.pool.blockHash b = some (x, 0) := by
      rw [BlockMap.getOneBlock_isSome]
      exact exists_congr fun b => (h.agree b _).symm
    rw [← this]
    cases s.pool.pool.cachedBlockHashToBlock.getOneBlock (x, 0) <;> simp
  constructor
  · rintro ⟨x, hx, rfl⟩
    obtain ⟨b, hb⟩ := (hone x).1 hx
    exact ⟨b, (x, 0), hb, rfl⟩
  · rintro ⟨b, ⟨x, g⟩, hb, rfl⟩
    obtain rfl : g = 0 := h.group b _ hb
    exact ⟨x, (hone x).2 ⟨b, hb⟩, rfl⟩

omit [DecidableEq η] in
theorem queue_emit (h : p.enableKvCacheEvents = true) (e : KVCacheEvent ζ) :
    (p.emit e).kvEventQueue = p.kvEventQueue ++ [e] := by
  rw [EventPool.emit, if_pos h]

omit [DecidableEq η] in
theorem enabled_emit (e : KVCacheEvent ζ) : (p.emit e).enableKvCacheEvents = p.enableKvCacheEvents := by
  rw [EventPool.emit]
  split <;> rfl

variable (conv p p') in
/-- `p'` is `p` after the blocks `l` have lost their hashes, and its events say so. -/
structure EvictsAll (l : List Nat) : Prop where
  coherent : Coherent p'
  hashes : ∀ b, p'.pool.blockHash b =
    if p.pool.enableCaching = true ∧ b ∈ l then none else p.pool.blockHash b
  events : ∀ t, replay (t ++ p'.kvEventQueue) = replay (t ++ p.kvEventQueue) \
    {z | p.pool.enableCaching = true ∧ ∃ b ∈ l, ∃ k, p.pool.blockHash b = some k ∧ conv k.1 = z}

section
variable (h : Coherent p)
include h

variable (conv) in
theorem Coherent.evict (b : Nat) : Coherent (p.maybeEvictCachedBlock conv b) ∧
    (p.maybeEvictCachedBlock conv b).pool.blockHash = update p.pool.blockHash b none ∧
    ∀ t, replay (t ++ (p.maybeEvictCachedBlock conv b).kvEventQueue) =
      replay (t ++ p.kvEventQueue) \ {z | ∃ k, p.pool.blockHash b = some k ∧ conv k.1 = z} := by
  obtain ⟨h₁, -, -, -, hhash⟩ := evict_spec h.agree b
  rw [← EventPool.pool_maybeEvictCachedBlock conv] at h₁ hhash
  have hgroup : ∀ b' k, (p.maybeEvictCachedBlock conv b).pool.blockHash b' = some k → k.2 = 0 := fun b' k hk => by
    rw [hhash] at hk
    by_cases hb : b' = b
    · rw [hb, update_self] at hk
      cases hk
    · rw [update_of_ne hb] at hk
      exact h.group b' k hk
  rcases hb : p.pool.blockHash b with - | k
  · have hsame : p.maybeEvictCachedBlock conv b = p := by rw [EventPool.maybeEvictCachedBlock, hb]
    rw [hsame] at h₁ hhash hgroup ⊢
    refine ⟨⟨h₁, hgroup, h.events⟩, hhash, fun t => ?_⟩
    simp
  · have hsome := BlockMap.popBlock_isSome ((h.agree b k).1 hb)
    obtain ⟨x, hx⟩ := isSome_iff_exists.1 hsome
    have hevent : p.maybeEvictCachedBlock conv b =
        EventPool.emit { p with pool := p.pool.maybeEvictCachedBlock b } (.blockRemoved [conv k.1] mediumGpu) := by
      simp [EventPool.maybeEvictCachedBlock, hb, hx]
    refine ⟨⟨h₁, hgroup, ?_⟩, hhash, fun t => ?_⟩
    · rw [hevent, enabled_emit]
      exact h.events
    · have hqueue :=
        queue_emit (p := { p with pool := p.pool.maybeEvictCachedBlock b }) h.events
        (.blockRemoved [conv k.1] mediumGpu)
      rw [hevent, hqueue, ← append_assoc, replay_concat]
      ext z
      simp [applyEvent, eq_comm]

theorem Coherent.takeLoop {l : List Nat} (hloop : EventPool.takeLoop conv l p = some p') :
    EvictsAll conv p p' l := by
  induction l generalizing p with
  | nil =>
    cases hloop
    exact ⟨h, by simp, by simp⟩
  | cons a l ih =>
    have hca : (p.maybeEvictCachedBlock conv a).pool.enableCaching = p.pool.enableCaching := by
      rw [EventPool.pool_maybeEvictCachedBlock]
      exact (evict_spec h.agree a).2.1.2.1
    -- the step is `ih` after the eviction, or after nothing
    have hrest : ∀ p₁ : EventPool η ζ, Coherent p₁ →
        (if p₁.pool.refCnt a = 0 then
          EventPool.takeLoop conv l
            { p₁ with pool := { p₁.pool with refCnt := update p₁.pool.refCnt a (p₁.pool.refCnt a + 1) } }
        else none) = some p' → EvictsAll conv p₁ p' l := fun p₁ hp₁ hloop => by
      split at hloop
      · obtain ⟨h₁, h₂, h₃⟩ := ih (by exact ⟨hp₁.agree, hp₁.group, hp₁.events⟩) hloop
        exact ⟨h₁, h₂, h₃⟩
      · cases hloop
    simp only [EventPool.takeLoop] at hloop
    split at hloop
    next hc =>
      obtain ⟨hco, hhash, hq⟩ := h.evict conv a
      obtain ⟨h₁, h₂, h₃⟩ := hrest _ hco hloop
      refine ⟨h₁, fun b => ?_, fun t => ?_⟩
      · rw [h₂, hca, hhash, hc]
        by_cases hb : b = a
        · simp [hb]
        · simp [hb]
      · rw [h₃, hq, hca, hhash, hc, Set.sdiff_sdiff]
        congr 1
        ext z
        simp only [true_and, Set.mem_union, Set.mem_ofPred_eq, mem_cons, exists_eq_or_imp]
        constructor
        · rintro (ha | ⟨b, hb, k, hk, rfl⟩)
          · exact .inl ha
          · by_cases hba : b = a
            · rw [hba, update_self] at hk
              cases hk
            · exact .inr ⟨b, hb, k, by rwa [update_of_ne hba] at hk, rfl⟩
        · rintro (ha | ⟨b, hb, k, hk, rfl⟩)
          · exact .inl ha
          · by_cases hba : b = a
            · exact .inl ⟨k, hba ▸ hk, rfl⟩
            · exact .inr ⟨b, hb, k, by rwa [update_of_ne hba], rfl⟩
    next hc =>
      obtain ⟨h₁, h₂, h₃⟩ := hrest _ h hloop
      refine ⟨h₁, fun b => ?_, fun t => ?_⟩
      · rw [h₂]
        simp [hc]
      · rw [h₃]
        simp [hc]

theorem Coherent.getNewBlocks {n : Nat} {ret : List Nat} (hget : p.getNewBlocks conv n = some (ret, p')) :
    (∃ queue, p.pool.freeBlockQueue.popleftN n = some (ret, queue)) ∧ EvictsAll conv p p' ret := by
  rw [EventPool.getNewBlocks] at hget
  split at hget
  · cases hget
  · obtain ⟨⟨ret', queue⟩, hpop, hget⟩ := bind_eq_some_iff.1 hget
    obtain ⟨p₁, hloop, hget⟩ := bind_eq_some_iff.1 hget
    cases hget
    obtain ⟨h₁, h₂, h₃⟩ := Coherent.takeLoop (by exact ⟨h.agree, h.group, h.events⟩) hloop
    exact ⟨⟨queue, hpop⟩, h₁, h₂, h₃⟩

theorem Coherent.cacheFullBlocks {q : CachedRequest η} {blocks : List Nat} {numCached numFull blockSize : Nat}
    (hcache : p.cacheFullBlocks conv q blocks numCached numFull blockSize = some p') :
    Coherent p' ∧ ∃ S, hashSet conv p'.pool = hashSet conv p.pool ∪ S ∧
      ∀ t, replay (t ++ p'.kvEventQueue) = replay (t ++ p.kvEventQueue) ∪ S := by
  rw [EventPool.cacheFullBlocks] at hcache
  split at hcache
  · cases hcache
    exact ⟨h, ∅, by simp, by simp⟩
  next hlt =>
    obtain ⟨pool, hpool, hcache⟩ := bind_eq_some_iff.1 hcache
    rw [if_pos h.events] at hcache
    obtain ⟨parent, -, hcache⟩ := bind_eq_some_iff.1 hcache
    cases hcache
    rw [cacheFullBlocks, if_neg hlt] at hpool
    split at hpool
    · cases hpool
    generalize ((blocks.take numFull).drop numCached).zip (q.blockHashes.drop numCached) = new at hpool ⊢
    obtain ⟨hagree, hhash⟩ := cacheLoop_agree h.agree hpool
    refine ⟨⟨by rw [EventPool.pool_emit]; exact hagree, fun b k hk => ?_, by rw [enabled_emit]; exact h.events⟩,
      {z | z ∈ new.map fun x => conv x.2}, ?_, fun t => ?_⟩
    · rw [EventPool.pool_emit] at hk
      rcases (hhash b k).1 hk with hold | ⟨x, -, -, rfl⟩
      · exact h.group b k hold
      · rfl
    · rw [EventPool.pool_emit]
      ext z
      simp only [hashSet, Set.mem_union, Set.mem_ofPred_eq, List.mem_map, hhash]
      constructor
      · rintro ⟨b, k, hold | ⟨x, hx, -, rfl⟩, rfl⟩
        · exact .inl ⟨b, k, hold, rfl⟩
        · exact .inr ⟨x, hx, rfl⟩
      · rintro (⟨b, k, hold, rfl⟩ | ⟨x, hx, rfl⟩)
        · exact ⟨b, k, .inl hold, rfl⟩
        · exact ⟨x.1, (x.2, 0), .inr ⟨x, hx, rfl, rfl⟩, rfl⟩
    · rw [queue_emit (p := { p with pool := pool }) h.events, ← List.append_assoc, replay_concat]
      rfl

variable (conv) in
theorem Coherent.resetPrefixCache : Coherent p.resetPrefixCache.2 ∧
    ((hashSet conv p.resetPrefixCache.2.pool = hashSet conv p.pool ∧
      p.resetPrefixCache.2.kvEventQueue = p.kvEventQueue) ∨
      (hashSet conv p.resetPrefixCache.2.pool = ∅ ∧ ∀ t, replay (t ++ p.resetPrefixCache.2.kvEventQueue) = ∅)) := by
  by_cases hused : (p.pool.numGpuBlocks : Int) - p.pool.getNumFreeBlocks = 1
  · have hreset : p.resetPrefixCache.2 = EventPool.emit
      { p with pool := { p.pool with cachedBlockHashToBlock := .empty, blockHash := fun _ => none } }
        .allBlocksCleared := by
      simp [EventPool.resetPrefixCache, BlockPool.resetPrefixCache, hused]
    rw [hreset]
    refine ⟨⟨?_, fun b k hk => ?_, ?_⟩, .inr ⟨?_, fun t => ?_⟩⟩
    · rw [EventPool.pool_emit]
      exact fun b k => by simp [BlockMap.not_holds_empty]
    · rw [EventPool.pool_emit] at hk
      cases hk
    · rw [enabled_emit]
      exact h.events
    · rw [EventPool.pool_emit]
      simp [hashSet]
    · rw [queue_emit (by exact h.events), ← append_assoc, replay_concat]
      rfl
  · have hreset : p.resetPrefixCache.2 = p := by
      simp [EventPool.resetPrefixCache, BlockPool.resetPrefixCache, hused]
    rw [hreset]
    exact ⟨h, .inl ⟨rfl, rfl⟩⟩

end

/-! ### Steps and runs -/

omit [DecidableEq η] in
theorem sdiff_evicted_iff {hash hash' : Nat → Option (η × Nat)}
    {ret : List Nat} (hhash : ∀ b, hash' b = if b ∈ ret then none else hash b) :
    {z | ∃ b k, hash b = some k ∧ conv k.1 = z} \ {z | ∃ b ∈ ret, ∃ k, hash b = some k ∧ conv k.1 = z} =
        {z | ∃ b k, hash' b = some k ∧ conv k.1 = z} ↔
      ∀ b ∈ ret, ∀ b' ∉ ret, ∀ k k', hash b = some k → hash b' = some k' → conv k.1 ≠ conv k'.1 := by
  have hkept : ∀ b k, hash' b = some k ↔ b ∉ ret ∧ hash b = some k := fun b k => by
    rw [hhash]
    by_cases hb : b ∈ ret <;> simp [hb]
  constructor
  · intro heq b hb b' hb' k k' hk hk' hconv
    have hmem : conv k'.1 ∈ {z | ∃ b k, hash' b = some k ∧ conv k.1 = z} := ⟨b', k', (hkept b' k').2 ⟨hb', hk'⟩, rfl⟩
    rw [← heq] at hmem
    exact hmem.2 ⟨b, hb, k, hk, hconv⟩
  · intro hsole
    ext z
    constructor
    · rintro ⟨⟨b, k, hk, rfl⟩, hnot⟩
      exact ⟨b, k, (hkept b k).2 ⟨fun hb => hnot ⟨b, hb, k, hk, rfl⟩, hk⟩, rfl⟩
    · rintro ⟨b, k, hk, rfl⟩
      obtain ⟨hb, hk⟩ := (hkept b k).1 hk
      refine ⟨⟨b, k, hk, rfl⟩, ?_⟩
      rintro ⟨b', hb', k', hk', hconv⟩
      exact hsole b' hb' b hb k' k hk' hk hconv

theorem exec_spec {op : PoolOp η} (h : Coherent s.pool) (hexec : s.exec conv op = some s') :
    Coherent s'.pool ∧ (s.Replays conv → (s'.Replays conv ↔ s.Sole conv op)) := by
  have hsame : ∀ (s' : EventState η ζ), Coherent s'.pool →
    hashSet conv s'.pool.pool = hashSet conv s.pool.pool → s'.events = s.events →
      (s.Replays conv → (s'.Replays conv ↔ True)) := fun {s'} hs' hhash hevents hrep => by
    simp only [Replays, hevents, hs'.cached_eq, hhash, iff_true]
    rw [← h.cached_eq]
    exact hrep
  cases op with
  | cacheFullBlocks q blocks numCached numFull blockSize =>
    obtain ⟨p', hp', rfl⟩ := map_eq_some_iff.1 hexec
    obtain ⟨hco, S, hset, hq⟩ := h.cacheFullBlocks hp'
    refine ⟨hco, fun hrep => ?_⟩
    simp only [Replays, events, hq, Coherent.cached_eq (s := { s with pool := p' }) hco, hset, Sole, iff_true]
    rw [← h.cached_eq]
    exact congrArg (· ∪ S) hrep
  | getNewBlocks n =>
    obtain ⟨⟨ret, p'⟩, hget, rfl⟩ := map_eq_some_iff.1 hexec
    obtain ⟨⟨queue, hpop⟩, hco, hhash, hq⟩ := h.getNewBlocks hget
    refine ⟨hco, fun hrep => ?_⟩
    have hrep' : replay (s.taken ++ s.pool.kvEventQueue) = hashSet conv s.pool.pool := hrep.trans h.cached_eq
    have hsole : s.Sole conv (.getNewBlocks n) ↔ (s.pool.pool.enableCaching = true → ∀ b ∈ ret, ∀ b' ∉ ret, ∀ k k',
        s.pool.pool.blockHash b = some k → s.pool.pool.blockHash b' = some k' → conv k.1 ≠ conv k'.1) := by
      refine ⟨fun hs hca => hs hca ret queue hpop, fun hs hca ret' queue' hpop' => ?_⟩
      cases hpop.symm.trans hpop'
      exact hs hca
    rw [hsole]
    simp only [Replays, events, hq, Coherent.cached_eq (s := { s with pool := p' }) hco, hrep']
    cases hca : s.pool.pool.enableCaching with
    | false =>
      rw [hca] at hhash
      have : p'.pool.blockHash = s.pool.pool.blockHash := funext fun b => by simpa using hhash b
      simp [hashSet_congr this]
    | true =>
      rw [hca] at hhash
      simp only [true_and, true_implies]
      exact sdiff_evicted_iff fun b => by simpa using hhash b
  | touch blocks =>
    obtain ⟨p', hp', rfl⟩ := map_eq_some_iff.1 hexec
    obtain ⟨hhash, hmap⟩ := touch_cache hp'
    have hco := h.congr hhash hmap
    exact ⟨hco, hsame { s with pool := { s.pool with pool := p' } } hco (hashSet_congr hhash) rfl⟩
  | freeBlocks blocks =>
    obtain ⟨p', hp', rfl⟩ := map_eq_some_iff.1 hexec
    obtain ⟨hhash, hmap⟩ := freeBlocks_cache hp'
    have hco := h.congr hhash hmap
    exact ⟨hco, hsame { s with pool := { s.pool with pool := p' } } hco (hashSet_congr hhash) rfl⟩
  | resetPrefixCache =>
    cases hexec
    obtain ⟨hco, ⟨hset, hq⟩ | ⟨hset, hq⟩⟩ := h.resetPrefixCache conv
    · exact ⟨hco, hsame { s with pool := s.pool.resetPrefixCache.2 } hco hset (by simp only [events, hq])⟩
    · refine ⟨hco, fun _ => ?_⟩
      simp [Replays, events, hq, Coherent.cached_eq (s := { s with pool := s.pool.resetPrefixCache.2 }) hco, hset, Sole]
  | takeEvents =>
    cases hexec
    have htake : s.pool.takeEvents = (s.pool.kvEventQueue, { s.pool with kvEventQueue := [] }) := by
      rw [EventPool.takeEvents, if_pos h.events]
    rw [htake]
    have hco : Coherent ({ s.pool with kvEventQueue := [] } : EventPool η ζ) := ⟨h.agree, h.group, h.events⟩
    exact ⟨hco, hsame ⟨{ s.pool with kvEventQueue := [] }, s.taken ++ s.pool.kvEventQueue⟩ hco rfl (by simp [events])⟩

variable (conv) in
theorem init_coherent {numGpuBlocks : Nat} {caching : Bool}
    (hinit : EventPool.init numGpuBlocks caching true = some p) :
    Coherent p ∧ (start p).Replays conv := by
  obtain ⟨pool, hpool, hinit⟩ := bind_eq_some_iff.1 hinit
  obtain ⟨⟨null, queue⟩, -, hpool⟩ := bind_eq_some_iff.1 hpool
  cases hpool
  cases hinit
  have hco : Coherent (⟨⟨numGpuBlocks, caching, fun _ => 0, fun _ => none, queue, .empty, null⟩, true,
    []⟩ : EventPool η ζ) :=
    ⟨fun b k => by simp [BlockMap.not_holds_empty], fun b k hk => (nomatch hk), rfl⟩
  refine ⟨hco, ?_⟩
  rw [Replays, Coherent.cached_eq (s := start _) hco]
  simp [start, events, replay, hashSet]

/-- Over every run from a new pool, the events replay to the cache in all states exactly if no operation evicts a block
that shares its hash. After a take, the events are those taken. -/
theorem run_replays_iff {numGpuBlocks : Nat} {caching : Bool}
    (hinit : EventPool.init numGpuBlocks caching true = some p) (ops : List (PoolOp η)) :
    (∀ pre, pre <+: ops → ∀ s, runFrom (exec conv) (start p) pre = some s →
      s.Replays conv ∧ ∀ s', s.exec conv .takeEvents = some s' → replay s'.taken = s'.cached conv) ↔
    Along (exec conv) (Sole conv) (start p) ops := by
  obtain ⟨hco, hrep⟩ := init_coherent conv hinit
  rw [along_iff (J := fun s => Coherent s.pool) (I := Replays conv) (fun s op s' hs h => (exec_spec hs h).1)
    (fun s op s' hs hI h => (exec_spec hs h).2 hI) hco hrep]
  refine ⟨fun h pre hpre s hs => (h pre hpre s hs).1, fun h pre hpre s hs => ⟨h pre hpre s hs, fun s' hs' => ?_⟩⟩
  have hs₁ : Coherent s.pool :=
    runFrom_invariant (I := fun s => Coherent s.pool) (fun s op s' hs h => (exec_spec hs h).1) hco hs
  have hs₂ := ((exec_spec hs₁ hs').2 (h pre hpre s hs)).2 trivial
  have hqueue : s'.pool.kvEventQueue = [] := by
    cases hs'
    simp only [EventPool.takeEvents, if_pos hs₁.events]
  rw [Replays, events, hqueue, append_nil] at hs₂
  exact hs₂

def smallPool : EventPool Nat Nat := (EventPool.init 4 true true).get rfl

theorem smallPool_eq : EventPool.init 4 true true = some smallPool := rfl

def seven : CachedRequest Nat := ⟨[7], [5], none⟩

/-- The last call evicts block 1, the only one with a hash. -/
def evictingOps : List (PoolOp Nat) :=
  [.getNewBlocks 1, .cacheFullBlocks seven [1] 0 1 1, .freeBlocks [1], .getNewBlocks 3]

theorem smallPool_replays : ∃ s, runFrom (exec id) (start smallPool) evictingOps = some s ∧ s.Replays id := by
  obtain ⟨s, hs⟩ := isSome_iff_exists.1 (show (runFrom (exec id) (start smallPool) evictingOps).isSome from rfl)
  refine ⟨s, hs, (((run_replays_iff smallPool_eq _).2 ?_) _ prefix_rfl s hs).1⟩
  intro s₁ hs₁
  cases hs₁
  refine ⟨fun _ ret queue hpop b hb b' hb' k k' hk hk' => (by cases hk), fun s₂ hs₂ => ?_⟩
  cases hs₂
  refine ⟨trivial, fun s₃ hs₃ => ?_⟩
  cases hs₃
  refine ⟨trivial, fun s₄ hs₄ => ?_⟩
  cases hs₄
  refine ⟨fun _ ret queue hpop b hb b' hb' k k' hk hk' => ?_, trivial⟩
  cases hpop
  have hne : b' ≠ 1 := fun h => hb' (by rw [h]; decide)
  cases (update_of_ne hne _ _).symm.trans hk'

/-- Two requests compute the same block; when one of the two blocks is evicted, the consumer forgets
the hash of both. -/
theorem smallPool_forgets : ∃ s, runFrom (exec id) (start smallPool)
      [.getNewBlocks 2, .cacheFullBlocks seven [1] 0 1 1, .cacheFullBlocks seven [2] 0 1 1,
    .freeBlocks [1], .getNewBlocks 2, .takeEvents] = some s ∧ 7 ∉ replay s.taken ∧ 7 ∈ s.cached id := by
  obtain ⟨s, hs⟩ :=
    isSome_iff_exists.1 (show (runFrom (exec id) (start smallPool) [.getNewBlocks 2, .cacheFullBlocks seven [1] 0 1 1,
    .cacheFullBlocks seven [2] 0 1 1, .freeBlocks [1], .getNewBlocks 2, .takeEvents]).isSome from rfl)
  cases some.inj hs
  refine ⟨_, hs, ?_, 7, rfl, rfl⟩
  show 7 ∉ replay [.blockStored [7] none [5] 1 none mediumGpu,
    .blockStored [7] none [5] 1 none mediumGpu, .blockRemoved [7] mediumGpu]
  simp [replay, applyEvent]

end EventState

end Xmix.Kv
