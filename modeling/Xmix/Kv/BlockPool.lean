import Xmix.Lib.Dict
import Xmix.Lib.LinkedList

/-!
# The pool of KV blocks

`FreeKVCacheBlockQueue`, `BlockHashToBlockMap` and `BlockPool`. A block is its id; its reference count, its hash and its
links in the free queue are kept beside it. `none` is a call that raises. Events are left out.
-/

namespace Xmix.Kv

open Function List Option Dict

/-! ### FreeKVCacheBlockQueue -/

structure FreeQueue where
  links : Links Nat
  numFreeBlocks : Int

variable {n : Nat}

namespace FreeQueue

def ofBlocks (blocks : List Nat) : FreeQueue := ⟨.ofList blocks, blocks.length⟩

def popleft (q : FreeQueue) : Option (Nat × FreeQueue) :=
  match q.links.next .head with
  | some (.item b) => do
    let second ← q.links.next (.item b)
    some (b, ⟨(q.links.connect .head second).unlink (.item b), q.numFreeBlocks - 1⟩)
  | _ => none

def popleftN (q : FreeQueue) (n : Nat) : Option (List Nat × FreeQueue) :=
  if n = 0 then some ([], q)
  else if q.numFreeBlocks < n then none
  else do
    let (ret, curr, links) ← Links.popLoop n (q.links.next .head) q.links
    let links := match curr with
      | some curr => links.connect .head curr
      | none => links
    some (ret, ⟨links, q.numFreeBlocks - n⟩)

def remove (q : FreeQueue) (b : Nat) : Option FreeQueue := do
  let prev ← q.links.prev (.item b)
  let next ← q.links.next (.item b)
  some ⟨(q.links.connect prev next).unlink (.item b), q.numFreeBlocks - 1⟩

def appendN (q : FreeQueue) (blocks : List Nat) : Option FreeQueue :=
  if blocks = [] then some q
  else do
    let last ← q.links.prev .tail
    let (last, links) := Links.appendLoop blocks last q.links
    some ⟨links.connect last .tail, q.numFreeBlocks + blocks.length⟩

structure Lists (q : FreeQueue) (l : List Nat) : Prop where
  spells : q.links.Spells l
  count : q.numFreeBlocks = l.length

variable {q : FreeQueue} {l : List Nat}

theorem lists_ofBlocks (h : l.Nodup) : (ofBlocks l).Lists l := ⟨Links.spells_ofList h, rfl⟩

theorem popleft_spec {b : Nat} (h : q.Lists (b :: l)) : ∃ q', q.popleft = some (b, q') ∧ q'.Lists l := by
  obtain ⟨p, s, hp, hs, hspell⟩ := h.spells.remove (a := b) (by simp)
  have hhead : p = .head := by
    have := (isChain_cons_cons.1 h.spells.seg).1.2
    rw [this] at hp
    exact (some.inj hp).symm
  subst hhead
  have hc := h.count
  simp only [popleft, h.spells.next_head, hs, bind_eq_bind, bind_some]
  refine ⟨_, rfl, ⟨?_, ?_⟩⟩
  · simpa using hspell
  · simp only [length_cons] at hc ⊢
    omega

theorem popleftN_spec (h : q.Lists l) (hn : n ≤ l.length) :
    ∃ q', q.popleftN n = some (l.take n, q') ∧ q'.Lists (l.drop n) := by
  have hc := h.count
  by_cases h0 : n = 0
  · exact ⟨q, by simp [popleftN, h0], by simpa [h0] using h⟩
  obtain ⟨curr, L, hpop, hspell⟩ := h.spells.pop hn
  have hle : ¬ q.numFreeBlocks < n := by omega
  simp only [popleftN, if_neg h0, if_neg hle, hpop, bind_eq_bind, bind_some]
  refine ⟨_, rfl, hspell, ?_⟩
  simp only [length_drop]
  omega

theorem remove_spec {b : Nat} (h : q.Lists l) (hb : b ∈ l) : ∃ q', q.remove b = some q' ∧ q'.Lists (l.erase b) := by
  obtain ⟨p, s, hp, hs, hspell⟩ := h.spells.remove hb
  have hc := h.count
  simp only [remove, hp, hs, bind_eq_bind, bind_some]
  refine ⟨_, rfl, hspell, ?_⟩
  have := length_erase_of_mem hb
  have := length_pos_of_mem hb
  simp only
  omega

theorem appendN_spec {l' : List Nat} (h : q.Lists l) (hnd : (l ++ l').Nodup) :
    ∃ q', q.appendN l' = some q' ∧ q'.Lists (l ++ l') := by
  by_cases hnil : l' = []
  · exact ⟨q, if_pos hnil, by simpa [hnil] using h⟩
  obtain ⟨last, hlast, hspell⟩ := h.spells.append hnd
  have hc := h.count
  simp only [appendN, if_neg hnil, hlast, bind_eq_bind, bind_some]
  refine ⟨_, rfl, hspell, ?_⟩
  simp only [length_append, hc]
  omega

end FreeQueue

/-! ### BlockHashToBlockMap -/

inductive CachedBlocks where
  | one (b : Nat)
  | many (d : Dict Nat Unit)

abbrev BlockMap (η : Type) := Dict (η × Nat) CachedBlocks

namespace BlockMap

variable {η : Type} [DecidableEq η]

def getOneBlock (m : BlockMap η) (k : η × Nat) : Option Nat :=
  match m.get? k with
  | some (.one b) => some b
  | some (.many d) => d.keys.head?
  | none => none

def insert (m : BlockMap η) (k : η × Nat) (b : Nat) : BlockMap η :=
  match m.get? k with
  | none => m.set k (.one b)
  | some (.one a) => m.set k (.many ((empty.set a ()).set b ()))
  | some (.many d) => m.set k (.many (d.set b ()))

def popBlock (m : BlockMap η) (k : η × Nat) (b : Nat) : Option Nat × BlockMap η :=
  match m.get? k with
  | none => (none, m)
  | some (.one a) => if a = b then (some a, m.pop k) else (none, (m.pop k).set k (.one a))
  | some (.many d) =>
    let found := if (d.get? b).isSome then some b else none
    (found, if 0 < (d.pop b).len then (m.pop k).set k (.many (d.pop b)) else m.pop k)

def Holds (m : BlockMap η) (k : η × Nat) (b : Nat) : Prop :=
  match m.get? k with
  | none => False
  | some (.one a) => a = b
  | some (.many d) => (d.get? b).isSome

variable {m : BlockMap η} {k k' : η × Nat} {b b' : Nat}

theorem holds_of_getOneBlock (h : m.getOneBlock k = some b) : m.Holds k b := by
  rw [getOneBlock] at h
  rw [Holds]
  rcases hk : m.get? k with - | a | d
  · rw [hk] at h
    cases h
  · rw [hk] at h
    exact some.inj h
  · rw [hk] at h
    exact mem_keys.1 (mem_of_head? h)

theorem holds_insert : Holds (insert m k b) k' b' ↔ (k' = k ∧ b' = b) ∨ Holds m k' b' := by
  rw [insert]
  by_cases hk : k' = k
  · subst hk
    rcases hm : m.get? k' with - | a | d <;> simp only [Holds, get?_set_self, hm, get?_set, get?_empty, true_and]
    · simp [eq_comm]
    · by_cases hb : b' = b
      · simp [hb]
      · by_cases ha : b' = a
        · simp [ha]
        · simp [hb, ha, eq_comm]
    · by_cases hb : b' = b <;> simp [hb]
  · rcases hm : m.get? k with - | a | d <;> simp [Holds, get?_set_of_ne hk, hk]

theorem holds_popBlock : Holds (popBlock m k b).2 k' b' ↔ Holds m k' b' ∧ ¬ (k' = k ∧ b' = b) := by
  rw [popBlock]
  by_cases hk : k' = k
  · subst hk
    rcases hm : m.get? k' with - | a | d
    · simp [Holds, hm]
    · by_cases hab : a = b
      · subst hab
        simp [Holds, hm, eq_comm]
      · by_cases hb : a = b' <;> grind [Holds]
    · simp only [true_and]
      by_cases hlen : 0 < (d.pop b).len
      · rw [if_pos hlen]
        simp only [Holds, get?_set_self, hm, get?_pop]
        by_cases hb : b' = b <;> simp [hb]
      · rw [if_neg hlen]
        have hnone := get?_of_len_eq_zero (Nat.le_zero.1 (Nat.le_of_not_lt hlen)) b'
        simp only [Holds, get?_pop_self, hm, false_iff, not_and, not_not]
        intro hb
        by_contra hne
        rw [get?_pop_of_ne hne] at hnone
        simp [hnone] at hb
  · have : ∀ m' : CachedBlocks, Holds ((m.pop k).set k m') k' b' ↔ Holds m k' b' := fun m' => by
      simp [Holds, get?_set_of_ne hk, get?_pop_of_ne hk]
    have hpop : Holds (m.pop k) k' b' ↔ Holds m k' b' := by simp [Holds, get?_pop_of_ne hk]
    rcases hm : m.get? k with - | a | d
    · simp [hk]
    · by_cases hab : a = b <;> simp [hab, hk, this, hpop]
    · by_cases hlen : 0 < (d.pop b).len <;> simp [hlen, hk, this, hpop]

theorem popBlock_isSome (h : m.Holds k b) : (popBlock m k b).1.isSome := by
  rw [Holds] at h
  rw [popBlock]
  rcases hm : m.get? k with - | a | d
  · rw [hm] at h
    exact h.elim
  · rw [hm] at h
    simp [h]
  · rw [hm] at h
    simp [h]

theorem not_holds_empty (k : η × Nat) (b : Nat) : ¬ Holds (.empty : BlockMap η) k b := by
  simp [Holds]

end BlockMap

/-! ### BlockPool -/

structure BlockPool (η : Type) where
  numGpuBlocks : Nat
  enableCaching : Bool
  refCnt : Nat → Int
  blockHash : Nat → Option (η × Nat)
  freeBlockQueue : FreeQueue
  cachedBlockHashToBlock : BlockMap η
  nullBlock : Nat

namespace BlockPool

variable {η : Type} [DecidableEq η]

def init (numGpuBlocks : Nat) (enableCaching : Bool) : Option (BlockPool η) := do
  let (null, queue) ← (FreeQueue.ofBlocks (range numGpuBlocks)).popleft
  some ⟨numGpuBlocks, enableCaching, fun _ => 0, fun _ => none, queue, .empty, null⟩

def getNumFreeBlocks (p : BlockPool η) : Int := p.freeBlockQueue.numFreeBlocks

def getCachedBlock (p : BlockPool η) (h : η) (groups : List Nat) : Option (List Nat) :=
  groups.mapM fun g => p.cachedBlockHashToBlock.getOneBlock (h, g)

def cacheLoop (g : Nat) : List (Nat × η) → BlockPool η → Option (BlockPool η)
  | [], p => some p
  | (b, h) :: l, p =>
    if p.blockHash b = none then
      cacheLoop g l { p with
        blockHash := update p.blockHash b (some (h, g))
        cachedBlockHashToBlock := p.cachedBlockHashToBlock.insert (h, g) b }
    else none

def cacheFullBlocks (p : BlockPool η) (hashes : List η) (blocks : List Nat)
    (numCached numFull g : Nat) : Option (BlockPool η) :=
  if numFull ≤ numCached then some p
  else if hashes.length < numFull then none
  else p.cacheLoop g (((blocks.take numFull).drop numCached).zip (hashes.drop numCached))

def maybeEvictCachedBlock (p : BlockPool η) (b : Nat) : BlockPool η :=
  match p.blockHash b with
  | none => p
  | some k =>
    match p.cachedBlockHashToBlock.popBlock k b with
    | (none, m) => { p with cachedBlockHashToBlock := m }
    | (some _, m) => { p with cachedBlockHashToBlock := m, blockHash := update p.blockHash b none }

def takeLoop : List Nat → BlockPool η → Option (BlockPool η)
  | [], p => some p
  | b :: l, p =>
    let p := if p.enableCaching then p.maybeEvictCachedBlock b else p
    if p.refCnt b = 0 then takeLoop l { p with refCnt := update p.refCnt b (p.refCnt b + 1) } else none

def getNewBlocks (p : BlockPool η) (n : Nat) : Option (List Nat × BlockPool η) :=
  if p.getNumFreeBlocks < n then none
  else do
    let (ret, queue) ← p.freeBlockQueue.popleftN n
    let p ← takeLoop ret { p with freeBlockQueue := queue }
    some (ret, p)

def leaveQueue (p : BlockPool η) (b : Nat) : Option FreeQueue :=
  if p.refCnt b = 0 ∧ b ≠ p.nullBlock then p.freeBlockQueue.remove b else some p.freeBlockQueue

def touch : List Nat → BlockPool η → Option (BlockPool η)
  | [], p => some p
  | b :: l, p => do
    let queue ← p.leaveQueue b
    touch l { p with freeBlockQueue := queue, refCnt := update p.refCnt b (p.refCnt b + 1) }

def release (refCnt : Nat → Int) (blocks : List Nat) : Nat → Int :=
  blocks.foldl (fun r b => update r b (r b - 1)) refCnt

def freeBlocks (p : BlockPool η) (blocks : List Nat) : Option (BlockPool η) := do
  let refCnt := release p.refCnt blocks
  let queue ← p.freeBlockQueue.appendN (blocks.filter fun b => refCnt b = 0 ∧ b ≠ p.nullBlock)
  some { p with refCnt := refCnt, freeBlockQueue := queue }

def resetPrefixCache (p : BlockPool η) : Bool × BlockPool η :=
  if p.numGpuBlocks - p.getNumFreeBlocks ≠ 1 then (false, p)
  else (true, { p with cachedBlockHashToBlock := .empty, blockHash := fun _ => none })

structure Inv (p : BlockPool η) (occ : Nat → Nat) : Prop where
  queue : ∃ free, p.freeBlockQueue.Lists free ∧ ∀ b, b ∈ free ↔ b < p.numGpuBlocks ∧ b ≠ p.nullBlock ∧ p.refCnt b = 0
  refs : ∀ b, b ≠ p.nullBlock → p.refCnt b = occ b
  bound : ∀ b, 0 < occ b → b < p.numGpuBlocks
  hashes : ∀ b k, p.blockHash b = some k ↔ p.cachedBlockHashToBlock.Holds k b
  hashed : ∀ b k, p.blockHash b = some k → b < p.numGpuBlocks
  null : p.nullBlock < p.numGpuBlocks

def SameShape (p p' : BlockPool η) : Prop :=
  p'.numGpuBlocks = p.numGpuBlocks ∧ p'.enableCaching = p.enableCaching ∧ p'.nullBlock = p.nullBlock

omit [DecidableEq η] in
theorem SameShape.trans {p p' p'' : BlockPool η} (h : p.SameShape p') (h' : p'.SameShape p'') : p.SameShape p'' :=
  ⟨h'.1.trans h.1, h'.2.1.trans h.2.1, h'.2.2.trans h.2.2⟩

variable {p p' : BlockPool η} {occ : Nat → Nat}

theorem init_spec (hn : 0 < n) (caching : Bool) :
    ∃ p : BlockPool η, init n caching = some p ∧ p.Inv (fun _ => 0) ∧ p.numGpuBlocks = n ∧ p.enableCaching = caching ∧
      p.getNumFreeBlocks = n - 1 ∧ ∀ b, p.blockHash b = none := by
  obtain ⟨m, rfl⟩ : ∃ m, n = m + 1 := ⟨n - 1, by omega⟩
  have hlists := FreeQueue.lists_ofBlocks (nodup_range (n := m + 1))
  have hnd := nodup_range (n := m + 1)
  have hmem : ∀ b, b ∈ range (m + 1) ↔ b < m + 1 := fun b => mem_range
  rw [range_succ_eq_map] at hlists hnd hmem
  obtain ⟨q, hq, hlq⟩ := FreeQueue.popleft_spec hlists
  refine ⟨⟨m + 1, caching, fun _ => 0, fun _ => none, q, .empty, 0⟩, ?_,
    ⟨⟨_, hlq, ?_⟩, ?_, ?_, ?_, ?_, ?_⟩, rfl, rfl, ?_, fun _ => rfl⟩
  · simp only [init, range_succ_eq_map, hq, bind_eq_bind, bind_some]
  · intro b
    have h₁ := hmem b
    have h₂ := (nodup_cons.1 hnd).1
    simp only [mem_cons] at h₁
    simp only [ne_eq, and_true]
    constructor
    · intro hb
      exact ⟨h₁.1 (.inr hb), fun hb0 => h₂ (hb0 ▸ hb)⟩
    · rintro ⟨hb, hb0⟩
      exact (h₁.2 hb).resolve_left hb0
  · simp
  · simp
  · intro b k
    simp [BlockMap.not_holds_empty]
  · simp
  · simp
  · have := hlq.count
    simp [getNumFreeBlocks, this]

def HashesAgree (p : BlockPool η) : Prop := ∀ b k, p.blockHash b = some k ↔ p.cachedBlockHashToBlock.Holds k b

theorem evict_spec (h : p.HashesAgree) (b : Nat) :
    (p.maybeEvictCachedBlock b).HashesAgree ∧ p.SameShape (p.maybeEvictCachedBlock b) ∧
      (p.maybeEvictCachedBlock b).refCnt = p.refCnt ∧ (p.maybeEvictCachedBlock b).freeBlockQueue = p.freeBlockQueue ∧
      (p.maybeEvictCachedBlock b).blockHash = update p.blockHash b none := by
  rcases hb : p.blockHash b with - | k
  · have heq : p.maybeEvictCachedBlock b = p := by simp only [maybeEvictCachedBlock, hb]
    rw [heq]
    refine ⟨h, ⟨rfl, rfl, rfl⟩, rfl, rfl, ?_⟩
    rw [← hb, update_eq_self]
  · have hsome := BlockMap.popBlock_isSome ((h b k).1 hb)
    rcases hp : p.cachedBlockHashToBlock.popBlock k b with ⟨- | x, m⟩
    · rw [hp] at hsome
      cases hsome
    · have heq : p.maybeEvictCachedBlock b =
          { p with cachedBlockHashToBlock := m, blockHash := update p.blockHash b none } := by
        simp [maybeEvictCachedBlock, hb, hp]
      rw [heq]
      refine ⟨?_, ⟨rfl, rfl, rfl⟩, rfl, rfl, rfl⟩
      intro b' k'
      have hpop := @BlockMap.holds_popBlock η _ p.cachedBlockHashToBlock k k' b b'
      rw [hp] at hpop
      simp only [hpop, ← h b' k']
      by_cases hbb : b' = b
      · subst hbb
        simp only [update_self, reduceCtorEq, false_iff]
        rintro ⟨hk, hne⟩
        rw [hb] at hk
        exact hne ⟨(some.inj hk).symm, trivial⟩
      · simp [hbb]

variable {l : List Nat}

theorem takeLoop_spec (hnd : l.Nodup) (hl : ∀ b ∈ l, p.refCnt b = 0) (hh : p.HashesAgree) :
    ∃ p', takeLoop l p = some p' ∧ (∀ b, p'.refCnt b = p.refCnt b + l.count b) ∧ p'.freeBlockQueue = p.freeBlockQueue ∧
      p.SameShape p' ∧ p'.HashesAgree ∧
      ∀ b, p'.blockHash b = if p.enableCaching = true ∧ b ∈ l then none else p.blockHash b := by
  induction l generalizing p with
  | nil => exact ⟨p, rfl, by simp, rfl, ⟨rfl, rfl, rfl⟩, hh, by simp⟩
  | cons a l ih =>
    obtain ⟨ha, hnd'⟩ := nodup_cons.1 hnd
    -- the block without its hash, if there is a cache
    obtain ⟨p₁, hp₁, h₁, hshape, href, hq, hhash⟩ :
      ∃ p₁, (if p.enableCaching then p.maybeEvictCachedBlock a else p) = p₁ ∧
        p₁.HashesAgree ∧ p.SameShape p₁ ∧ p₁.refCnt = p.refCnt ∧ p₁.freeBlockQueue = p.freeBlockQueue ∧
        ∀ b, p₁.blockHash b = if p.enableCaching = true ∧ b = a then none else p.blockHash b := by
      refine ⟨_, rfl, ?_⟩
      by_cases hc : p.enableCaching = true
      · obtain ⟨h₁, h₂, h₃, h₄, h₅⟩ := evict_spec hh a
        rw [if_pos hc]
        refine ⟨h₁, h₂, h₃, h₄, fun b => ?_⟩
        rw [h₅]
        by_cases hb : b = a
        · simp [hb, hc]
        · simp [hb]
      · rw [if_neg hc]
        exact ⟨hh, ⟨rfl, rfl, rfl⟩, rfl, rfl, by simp [hc]⟩
    have hzero : p₁.refCnt a = 0 := by
      rw [href]
      exact hl a (by simp)
    obtain ⟨p', hp', hrefs, hq', hshape', hh', hhash'⟩ :=
      @ih { p₁ with refCnt := update p₁.refCnt a (p₁.refCnt a + 1) } hnd'
      (fun b hb => by
        have hba : b ≠ a := fun hba => ha (hba ▸ hb)
        simp only [update_of_ne hba, href]
        exact hl b (by simp [hb])) h₁
    refine ⟨p', ?_, ?_, hq'.trans hq, hshape.trans hshape', hh', ?_⟩
    · simp only [takeLoop, hp₁, if_pos hzero, hp']
    · intro b
      rw [hrefs]
      by_cases hb : b = a
      · subst hb
        simp [href, count_eq_zero_of_not_mem ha]
      · have hab : ¬ a = b := fun hab => hb hab.symm
        simp [update_of_ne hb, href, hab]
    · intro b
      have hc : p₁.enableCaching = p.enableCaching := hshape.2.1
      rw [hhash']
      simp only [hc, hhash, mem_cons]
      by_cases hcache : p.enableCaching = true
      · by_cases hb : b ∈ l <;> by_cases hba : b = a <;> simp [hcache, hb, hba]
      · simp [hcache]

theorem Inv.free_nonneg (h : p.Inv occ) : 0 ≤ p.getNumFreeBlocks := by
  obtain ⟨free, hlists, -⟩ := h.queue
  rw [getNumFreeBlocks, hlists.count]
  omega

theorem Inv.agree (h : p.Inv occ) : p.HashesAgree := h.hashes

theorem getNewBlocks_spec (h : p.Inv occ) (hn : (n : Int) ≤ p.getNumFreeBlocks) :
    ∃ bs p', p.getNewBlocks n = some (bs, p') ∧ p'.Inv (fun b => occ b + bs.count b) ∧ p.SameShape p' ∧ bs.length = n ∧
      bs.Nodup ∧ (∀ b ∈ bs, b < p.numGpuBlocks ∧ b ≠ p.nullBlock ∧ occ b = 0) ∧
      p'.getNumFreeBlocks = p.getNumFreeBlocks - n ∧
      ∀ b, p'.blockHash b = if p.enableCaching = true ∧ b ∈ bs then none else p.blockHash b := by
  obtain ⟨free, hlists, hfree⟩ := h.queue
  have hlen : n ≤ free.length := by
    have := hlists.count
    simp only [getNumFreeBlocks] at hn
    omega
  obtain ⟨q, hq, hlq⟩ := FreeQueue.popleftN_spec hlists hlen
  have hnd := hlists.spells.nodup
  have htake : (free.take n).Nodup := hnd.sublist (take_sublist _ _)
  have hsub : ∀ b ∈ free.take n, b < p.numGpuBlocks ∧ b ≠ p.nullBlock ∧ p.refCnt b = 0 := fun b hb =>
    (hfree b).1 (mem_of_mem_take hb)
  obtain ⟨p', hp', hrefs, hq', hshape, hh, hhash⟩ :=
    @takeLoop_spec η _ { p with freeBlockQueue := q } (free.take n) htake
    (fun b hb => (hsub b hb).2.2) h.agree
  have hdisj : ∀ b, b ∈ free ↔ b ∈ free.take n ∨ b ∈ free.drop n := fun b => by
    rw [← mem_append, take_append_drop]
  have hnotboth : ∀ b, b ∈ free.take n → b ∉ free.drop n := fun b => by
    rw [← take_append_drop n free, nodup_append'] at hnd
    exact fun h₁ h₂ => hnd.2.2 h₁ h₂
  refine ⟨free.take n, p', ?_, ?_, hshape, by simp [hlen], htake, ?_, ?_, hhash⟩
  · have : ¬ p.getNumFreeBlocks < n := by omega
    simp only [getNewBlocks, if_neg this, hq, bind_eq_bind, bind_some, hp']
  · constructor
    case queue =>
      refine ⟨free.drop n, by rw [hq']; exact hlq, fun b => ?_⟩
      rw [hshape.1, hshape.2.2, hrefs]
      by_cases hb : b ∈ free.take n
      · have hcount : (free.take n).count b = 1 := count_eq_one_of_mem htake hb
        have := (hsub b hb).2.2
        simp only [hnotboth b hb, false_iff, not_and, hcount, this]
        omega
      · have hcount : (free.take n).count b = 0 := count_eq_zero_of_not_mem hb
        have := hdisj b
        simp only [hb, false_or] at this
        rw [← this, hfree, hcount]
        simp
    case refs =>
      intro b hb
      rw [hrefs]
      have := h.refs b (by rw [← hshape.2.2]; exact hb)
      simp only [this]
      push_cast
      rfl
    case bound =>
      intro b hb
      rw [hshape.1]
      by_cases hmem : b ∈ free.take n
      · exact (hsub b hmem).1
      · rw [count_eq_zero_of_not_mem hmem] at hb
        exact h.bound b hb
    case hashes => exact hh
    case hashed =>
      intro b k hb
      rw [hhash] at hb
      rw [hshape.1]
      split at hb
      · cases hb
      · exact h.hashed b k hb
    case null =>
      rw [hshape.1, hshape.2.2]
      exact h.null
  · intro b hb
    obtain ⟨h₁, h₂, h₃⟩ := hsub b hb
    have := h.refs b h₂
    exact ⟨h₁, h₂, by omega⟩
  · have h₁ := hlists.count
    have h₂ := hlq.count
    simp only [getNumFreeBlocks, hq', h₁, h₂, length_drop]
    omega

theorem getNewBlocks_eq_none (hn : p.getNumFreeBlocks < n) : p.getNewBlocks n = none := if_pos hn

theorem touch_one (h : p.Inv occ) {a : Nat} (ha : a < p.numGpuBlocks) :
    ∃ q, p.leaveQueue a = some q ∧
      Inv { p with freeBlockQueue := q, refCnt := update p.refCnt a (p.refCnt a + 1) } (fun b => occ b + [a].count b) ∧
      q.numFreeBlocks = p.freeBlockQueue.numFreeBlocks - if occ a = 0 ∧ a ≠ p.nullBlock then 1 else 0 := by
  obtain ⟨free, hlists, hfree⟩ := h.queue
  have hone : ∀ b, [a].count b = if b = a then 1 else 0 := fun b => by
    by_cases hb : b = a
    · simp [hb]
    · have hab : ¬ a = b := fun hab => hb hab.symm
      simp [hb, hab]
  have hrest : ∀ q : FreeQueue, (∃ free', q.Lists free' ∧ ∀ b, b ∈ free' ↔ b < p.numGpuBlocks ∧ b ≠ p.nullBlock ∧
        update p.refCnt a (p.refCnt a + 1) b = 0) →
      Inv { p with freeBlockQueue := q, refCnt := update p.refCnt a (p.refCnt a + 1) }
        (fun b => occ b + [a].count b) := by
    intro q hq
    refine { h with queue := hq, refs := ?_, bound := ?_ }
    · intro b hb
      have := h.refs b hb
      simp only [hone]
      by_cases hba : b = a
      · subst hba
        simp [this]
      · simp [hba, this]
    · intro b hb
      simp only [hone] at hb
      by_cases hba : b = a
      · rw [hba]
        exact ha
      · exact h.bound b (by simpa [hba] using hb)
  by_cases hcond : p.refCnt a = 0 ∧ a ≠ p.nullBlock
  · obtain ⟨q, hq, hlq⟩ := FreeQueue.remove_spec hlists ((hfree a).2 ⟨ha, hcond.2, hcond.1⟩)
    have hocc : occ a = 0 := by
      have := h.refs a hcond.2
      omega
    refine ⟨q, (if_pos hcond).trans hq, hrest q ⟨_, hlq, fun b => ?_⟩, ?_⟩
    · rw [hlists.spells.nodup.mem_erase_iff, hfree]
      by_cases hba : b = a
      · subst hba
        simp [hcond.1]
      · simp [hba]
    · have h₁ := hlists.count
      have h₂ := hlq.count
      have h₃ := length_erase_of_mem ((hfree a).2 ⟨ha, hcond.2, hcond.1⟩)
      have h₄ := length_pos_of_mem ((hfree a).2 ⟨ha, hcond.2, hcond.1⟩)
      rw [if_pos ⟨hocc, hcond.2⟩]
      omega
  · refine ⟨p.freeBlockQueue, if_neg hcond, hrest _ ⟨free, hlists, fun b => ?_⟩, ?_⟩
    · rw [hfree]
      by_cases hba : b = a
      · subst hba
        by_cases hnull : b = p.nullBlock
        · simp [hnull]
        · have h₁ := h.refs b hnull
          have h₂ : p.refCnt b ≠ 0 := fun h₂ => hcond ⟨h₂, hnull⟩
          have h₃ : p.refCnt b + 1 ≠ 0 := by omega
          simp [h₂, h₃]
      · simp [hba]
    · have : ¬ (occ a = 0 ∧ a ≠ p.nullBlock) := fun hocc => hcond ⟨by rw [h.refs a hocc.2, hocc.1]; rfl, hocc.2⟩
      rw [if_neg this]
      omega

theorem touch_spec (h : p.Inv occ) (hl : ∀ b ∈ l, b < p.numGpuBlocks) :
    ∃ p', touch l p = some p' ∧ p'.Inv (fun b => occ b + l.count b) ∧ p.SameShape p' ∧ p'.blockHash = p.blockHash ∧
      ((∀ b, b ≠ p.nullBlock → l.count b ≤ 1) →
        p'.getNumFreeBlocks = p.getNumFreeBlocks - (l.filter fun b => occ b = 0 ∧ b ≠ p.nullBlock).length) := by
  induction l generalizing p occ with
  | nil => exact ⟨p, rfl, by simpa using h, ⟨rfl, rfl, rfl⟩, rfl, by simp⟩
  | cons a l ih =>
    obtain ⟨q, hq, hinv, hnum⟩ := touch_one h (hl a (by simp))
    obtain ⟨p', hp', hinv', hshape, hhash, hfree⟩ := ih hinv (fun b hb => hl b (by simp [hb]))
    refine ⟨p', ?_, ?_, hshape, hhash, fun hnd => ?_⟩
    · simp [touch, hq, hp']
    · refine cast (congrArg p'.Inv (funext fun b => ?_)) hinv'
      rw [Nat.add_assoc, ← count_append, singleton_append]
    · have hnd' : ∀ b, b ≠ p.nullBlock → l.count b ≤ 1 := fun b hb =>
        Nat.le_trans (Sublist.count_le b (sublist_cons_self a l)) (hnd b hb)
      have hsame : (l.filter fun b => decide (occ b + [a].count b = 0 ∧ b ≠ p.nullBlock)) =
          l.filter fun b => decide (occ b = 0 ∧ b ≠ p.nullBlock) := by
        refine filter_congr fun b hb => ?_
        by_cases hnull : b = p.nullBlock
        · simp [hnull]
        · have hba : b ≠ a := by
            rintro rfl
            have := hnd b hnull
            rw [count_cons_self] at this
            have := count_pos_iff.2 hb
            omega
          have hab : ¬ a = b := fun hab => hba hab.symm
          simp [hab]
      have := hfree hnd'
      simp only [getNumFreeBlocks, hnum] at this ⊢
      rw [this, hsame]
      by_cases hcond : occ a = 0 ∧ a ≠ p.nullBlock
      · rw [if_pos hcond, filter_cons_of_pos (by simpa using hcond), length_cons]
        omega
      · rw [if_neg hcond, filter_cons_of_neg (by simpa using hcond)]
        omega

theorem release_eq (r : Nat → Int) (l : List Nat) (b : Nat) : release r l b = r b - l.count b := by
  induction l generalizing r with
  | nil => simp [release]
  | cons a l ih =>
    have : release r (a :: l) = release (update r a (r a - 1)) l := rfl
    rw [this, ih]
    by_cases hb : b = a
    · subst hb
      simp only [update_self, count_cons_self]
      omega
    · have hab : ¬ a = b := fun hab => hb hab.symm
      simp [update_of_ne hb, hab]

theorem freeBlocks_spec (h : p.Inv occ) (hle : ∀ b, l.count b ≤ occ b)
    (hnd : ∀ b, b ≠ p.nullBlock → l.count b ≤ 1) :
    ∃ p', p.freeBlocks l = some p' ∧ p'.Inv (fun b => occ b - l.count b) ∧ p.SameShape p' ∧
      p'.blockHash = p.blockHash := by
  obtain ⟨free, hlists, hfree⟩ := h.queue
  have hrel : ∀ b, b ≠ p.nullBlock → release p.refCnt l b = ((occ b - l.count b : Nat) : Int) := by
    intro b hb
    have := h.refs b hb
    have := hle b
    rw [release_eq]
    omega
  have hmem : ∀ b, b ∈ (l.filter fun b => decide (release p.refCnt l b = 0 ∧ b ≠ p.nullBlock)) ↔
      b ∈ l ∧ release p.refCnt l b = 0 ∧ b ≠ p.nullBlock := by
    simp
  have hnd' : (free ++ l.filter fun b => decide (release p.refCnt l b = 0 ∧ b ≠ p.nullBlock)).Nodup := by
    rw [nodup_append']
    refine ⟨hlists.spells.nodup, ?_, ?_⟩
    · rw [nodup_iff_count_le_one]
      intro b
      by_cases hb : b = p.nullBlock
      · rw [count_eq_zero_of_not_mem (by rw [hmem]; tauto)]
        omega
      · exact Nat.le_trans (Sublist.count_le b filter_sublist) (hnd b hb)
    · intro b hb hb'
      obtain ⟨h₁, -, h₃⟩ := (hmem b).1 hb'
      have h₄ := ((hfree b).1 hb).2.2
      have h₅ := h.refs b h₃
      have h₆ := hle b
      have h₇ := count_pos_iff.2 h₁
      omega
  obtain ⟨q, hq, hlq⟩ := FreeQueue.appendN_spec hlists hnd'
  simp only [freeBlocks, hq, bind_eq_bind, bind_some]
  refine ⟨_, rfl, ?_, ⟨rfl, rfl, rfl⟩, rfl⟩
  refine { h with queue := ⟨_, hlq, fun b => ?_⟩, refs := hrel, bound := ?_ }
  · simp only [mem_append, hmem, hfree]
    constructor
    · rintro (⟨h₁, h₂, h₃⟩ | ⟨h₁, h₂, h₃⟩)
      · have h₄ := h.refs b h₂
        have h₅ := hle b
        have h₆ := hrel b h₂
        exact ⟨h₁, h₂, by omega⟩
      · have h₄ := count_pos_iff.2 h₁
        have h₅ := hle b
        exact ⟨h.bound b (by omega), h₃, h₂⟩
    · rintro ⟨h₁, h₂, h₃⟩
      by_cases hb : b ∈ l
      · exact .inr ⟨hb, h₃, h₂⟩
      · rw [release_eq, count_eq_zero_of_not_mem hb] at h₃
        exact .inl ⟨h₁, h₂, by simpa using h₃⟩
  · intro b hb
    exact h.bound b (by omega)

theorem cacheLoop_spec {g : Nat} {l : List (Nat × η)} (h : p.Inv occ) (hl : ∀ x ∈ l, x.1 < p.numGpuBlocks)
    (hp' : p.cacheLoop g l = some p') :
    p'.Inv occ ∧ p.SameShape p' ∧ p'.refCnt = p.refCnt ∧ p'.freeBlockQueue = p.freeBlockQueue ∧
      ∀ b, (∀ x ∈ l, x.1 ≠ b) → p'.blockHash b = p.blockHash b := by
  induction l generalizing p with
  | nil =>
    cases hp'
    exact ⟨h, ⟨rfl, rfl, rfl⟩, rfl, rfl, fun _ _ => rfl⟩
  | cons x l ih =>
    obtain ⟨b, k⟩ := x
    rw [cacheLoop] at hp'
    split at hp'
    next hnone =>
      have hb := hl (b, k) (by simp)
      have hinv : Inv { p with
          blockHash := update p.blockHash b (some (k, g))
          cachedBlockHashToBlock := p.cachedBlockHashToBlock.insert (k, g) b } occ := by
        refine { h with hashes := ?_, hashed := ?_ }
        · intro b' k'
          rw [BlockMap.holds_insert, ← h.hashes]
          by_cases hbb : b' = b
          · subst hbb
            simp [hnone, eq_comm]
          · simp [hbb]
        · intro b' k' hb'
          by_cases hbb : b' = b
          · rw [hbb]
            exact hb
          · exact h.hashed b' k' (by simpa [hbb] using hb')
      obtain ⟨h₁, h₂, h₃, h₄, h₅⟩ := ih hinv (fun x hx => hl x (by simp [hx])) hp'
      refine ⟨h₁, h₂, h₃, h₄, fun b' hb' => ?_⟩
      have hne : b' ≠ b := fun hbb => hb' (b, k) (by simp) hbb.symm
      rw [h₅ b' fun x hx => hb' x (by simp [hx])]
      exact update_of_ne hne _ _
    next => cases hp'

omit [DecidableEq η] in
theorem touch_cache (h : touch l p = some p') :
    p'.blockHash = p.blockHash ∧ p'.cachedBlockHashToBlock = p.cachedBlockHashToBlock := by
  induction l generalizing p with
  | nil =>
    cases h
    exact ⟨rfl, rfl⟩
  | cons a l ih =>
    obtain ⟨queue, -, h⟩ := bind_eq_some_iff.1 h
    have := ih h
    exact this

omit [DecidableEq η] in
theorem freeBlocks_cache (h : p.freeBlocks l = some p') :
    p'.blockHash = p.blockHash ∧ p'.cachedBlockHashToBlock = p.cachedBlockHashToBlock := by
  obtain ⟨queue, -, h⟩ := bind_eq_some_iff.1 h
  cases h
  exact ⟨rfl, rfl⟩

theorem resetPrefixCache_spec (h : p.Inv occ) : (p.resetPrefixCache).2.Inv occ ∧ p.SameShape (p.resetPrefixCache).2 ∧
    (p.resetPrefixCache).2.refCnt = p.refCnt ∧ (p.resetPrefixCache).2.freeBlockQueue = p.freeBlockQueue ∧
    ∀ b, p.blockHash b = none → (p.resetPrefixCache).2.blockHash b = none := by
  rw [resetPrefixCache]
  split
  · exact ⟨h, ⟨rfl, rfl, rfl⟩, rfl, rfl, fun _ hb => hb⟩
  · refine ⟨{ h with hashes := ?_, hashed := ?_ }, ⟨rfl, rfl, rfl⟩, rfl, rfl, fun _ _ => rfl⟩
    · intro b k
      simp [BlockMap.not_holds_empty]
    · simp

end BlockPool

end Xmix.Kv
