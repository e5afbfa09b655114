import Xmix.Kv.BlockPool

/-!
# The KV cache manager

The managers of the KV cache groups, the three coordinators and `KVCacheManager`. A request is what
these read of it. Statistics, events and context parallelism are left out; a group's block size is
the effective one. `none` is a call that raises.
-/

namespace Xmix.Kv

def cdiv (a b : Nat) : Nat := (a + b - 1) / b

theorem cdiv_pos {a b : Nat} (ha : 0 < a) (hb : 0 < b) : 0 < cdiv a b := Nat.div_pos (by omega) hb

inductive GroupKind where
  | full
  | slidingWindow (window : Nat)
  | chunkedLocal (chunk : Nat)
  | mamba (numSpeculativeBlocks : Nat)
  | crossAttention
  deriving DecidableEq

def GroupKind.Positive : GroupKind → Prop
  | .slidingWindow w => 0 < w
  | .chunkedLocal c => 0 < c
  | _ => True

def GroupKind.windowed : GroupKind → Bool
  | .slidingWindow _ | .chunkedLocal _ => true
  | _ => false

structure GroupSpec where
  kind : GroupKind
  blockSize : Nat
  blockPos : 0 < blockSize
  kindPos : kind.Positive
  deriving DecidableEq

structure Request (ι η : Type) where
  requestId : ι
  numComputedTokens : Nat
  numTokens : Nat
  blockHashes : List η
  skipReadingPrefixCache : Bool

structure GroupManager (ι : Type) where
  spec : GroupSpec
  reqToBlocks : Dict ι (List Nat)
  numCachedBlock : Dict ι Nat

variable {ι η : Type} [DecidableEq ι] [DecidableEq η]

namespace GroupManager

variable (m : GroupManager ι) (p : BlockPool η) (r : ι) (spec : GroupSpec)

def init : GroupManager ι := ⟨spec, .empty, .empty⟩

def blocksOf : List Nat := (m.reqToBlocks.get? r).getD []

def access : GroupManager ι :=
  match m.reqToBlocks.get? r with
  | some _ => m
  | none => { m with reqToBlocks := m.reqToBlocks.set r [] }

def slotTokens (n : Nat) : Nat :=
  match spec.kind with
  | .mamba k => if 0 < k then n + spec.blockSize * k else n
  | _ => n

def getNumBlocksToAllocate (n : Nat) (newComputed : List Nat) : Int :=
  (cdiv (slotTokens m.spec n) m.spec.blockSize : Int) - newComputed.length - (m.blocksOf r).length +
    (newComputed.filter fun b => p.refCnt b = 0 ∧ b ≠ p.nullBlock).length

def saveNewComputedBlocks (newComputed : List Nat) : Option (GroupManager ι) :=
  match m.spec.kind with
  | .crossAttention => if newComputed = [] then some m else none
  | _ =>
    match m.numCachedBlock.get? r with
    | none =>
      if m.blocksOf r = [] then
        some { m with
          reqToBlocks := m.reqToBlocks.set r newComputed
          numCachedBlock := m.numCachedBlock.set r newComputed.length }
      else none
    | some _ => if newComputed = [] then some m else none

def allocateNewBlocks (n : Nat) :
    Option (List Nat × GroupManager ι × BlockPool η) :=
  let m := m.access r
  let required := cdiv (slotTokens m.spec n) m.spec.blockSize
  if required ≤ (m.blocksOf r).length then some ([], m, p)
  else do
    let (new, p) ← p.getNewBlocks (required - (m.blocksOf r).length)
    some (new, { m with reqToBlocks := m.reqToBlocks.set r (m.blocksOf r ++ new) }, p)

def cacheBlocks (g : Nat) (p : BlockPool η) (q : Request ι η) (n : Nat) :
    Option (GroupManager ι × BlockPool η) :=
  match m.spec.kind with
  | .crossAttention => none
  | _ =>
    let numCached := (m.numCachedBlock.get? q.requestId).getD 0
    let numFull := n / m.spec.blockSize
    if numFull ≤ numCached then some (m, p)
    else do
      let m := m.access q.requestId
      let p ← p.cacheFullBlocks q.blockHashes (m.blocksOf q.requestId) numCached numFull g
      some ({ m with numCachedBlock := m.numCachedBlock.set q.requestId numFull }, p)

def free : Option (GroupManager ι × BlockPool η) := do
  let p ← p.freeBlocks (m.blocksOf r).reverse
  some ({ m with reqToBlocks := m.reqToBlocks.pop r, numCachedBlock := m.numCachedBlock.pop r }, p)

def getNumSkippedTokens (numComputed : Nat) : Int :=
  match spec.kind with
  | .slidingWindow w => numComputed - w + 1
  | .chunkedLocal c => (numComputed / c * c : Nat)
  | _ => 0

def skipLoop (null : Nat) : Nat → List Nat → Option (List Nat × List Nat)
  | 0, blocks => some ([], blocks)
  | i + 1, blocks => do
    let b ← blocks[i]?
    if b = null then some ([], blocks)
    else do
      let (removed, blocks) ← skipLoop null i (blocks.set i null)
      some (b :: removed, blocks)

def removeSkippedBlocks (numComputed : Nat) :
    Option (GroupManager ι × BlockPool η) :=
  let skipped := getNumSkippedTokens m.spec numComputed
  if skipped ≤ 0 then some (m, p)
  else do
    let m := m.access r
    let (removed, blocks) ← skipLoop p.nullBlock (skipped.toNat / m.spec.blockSize) (m.blocksOf r)
    let p ← p.freeBlocks removed
    some ({ m with reqToBlocks := m.reqToBlocks.set r blocks }, p)

end GroupManager

/-! ### Prefix cache hits

The hits of several groups are a list of rows, one for each block of the prefix, with a block for every group.
-/

variable (p : BlockPool η) (groups : List Nat) (specs : List GroupSpec)

def cachedRow (h : η) : Option (List Nat) :=
  (p.getCachedBlock h groups).filter (· ≠ [])

def nullRow : List Nat := groups.map fun _ => p.nullBlock

def hitsFrom (p : BlockPool η) (groups : List Nat) (hashes : List η) : Nat → Nat → Option (List (List Nat))
  | 0, _ => some []
  | n + 1, i => do
    let h ← hashes[i]?
    match cachedRow p groups h with
    | some row => do
      let rows ← hitsFrom p groups hashes n (i + 1)
      some (row :: rows)
    | none => some []

def dropForEagle (eagle : Bool) (rows : List (List Nat)) : List (List Nat) := if eagle then rows.dropLast else rows

def fullHits (hashes : List η) (maxLength blockSize : Nat) (eagle : Bool) :
    Option (List (List Nat)) := do
  let rows ← hitsFrom p groups hashes (min (maxLength / blockSize) hashes.length) 0
  some (dropForEagle eagle rows)

def slidingLoop (p : BlockPool η) (groups : List Nat) (hashes : List η) (need : Nat) :
    Nat → List (List Nat) → Nat → Option (List (List Nat) × Nat × Bool)
  | 0, rows, contiguous => some (rows, contiguous, false)
  | i + 1, rows, contiguous => do
    let h ← hashes[i]?
    match cachedRow p groups h with
    | some row =>
      if need ≤ contiguous + 1 then some ((rows.set i row).take (i + (contiguous + 1)), contiguous + 1, true)
      else slidingLoop p groups hashes need i (rows.set i row) (contiguous + 1)
    | none => slidingLoop p groups hashes need i rows 0

def slidingHits (hashes : List η) (maxLength blockSize window : Nat) (eagle : Bool) :
    Option (List (List Nat)) := do
  let need := cdiv (window - 1) blockSize + if eagle then 1 else 0
  let n := maxLength / blockSize
  let (rows, contiguous, found) ← slidingLoop p groups hashes need n (List.replicate n (nullRow p groups)) 0
  some (dropForEagle eagle (if found then rows else rows.take contiguous))

def chunkedHits (hashes : List η) (maxLength blockSize chunk : Nat) (eagle : Bool) :
    Option (List (List Nat)) :=
  if eagle then none
  else do
    let start := maxLength / chunk * chunk / blockSize
    let rows ← hitsFrom p groups hashes (maxLength / blockSize - start) start
    some (List.replicate start (nullRow p groups) ++ rows)

def mambaHits (p : BlockPool η) (groups : List Nat) (hashes : List η) : Nat → Option (List (List Nat))
  | 0 => some []
  | i + 1 => do
    let h ← hashes[i]?
    match cachedRow p groups h with
    | some row => some (List.replicate i (nullRow p groups) ++ [row])
    | none => mambaHits p groups hashes i

def findHits (spec : GroupSpec) (p : BlockPool η) (groups : List Nat) (hashes : List η)
    (maxLength : Nat) (eagle : Bool) :
    Option (List (List Nat)) :=
  match spec.kind with
  | .full => fullHits p groups hashes maxLength spec.blockSize eagle
  | .slidingWindow w => slidingHits p groups hashes maxLength spec.blockSize w eagle
  | .chunkedLocal c => chunkedHits p groups hashes maxLength spec.blockSize c eagle
  | .mamba _ => mambaHits p groups hashes (maxLength / spec.blockSize)
  | .crossAttention => none

def columns (n : Nat) (rows : List (List Nat)) : List (List Nat) :=
  (List.range n).map fun j => rows.map fun row => row.getD j 0

def isFullAt (g : Nat) : Bool := (specs[g]?.map fun s => decide (s.kind = .full)).getD false

def splitGroups : Option (List Nat × GroupSpec × List Nat × GroupSpec × Bool) :=
  let fullIds := (List.range specs.length).filter (isFullAt specs)
  let otherIds := (List.range specs.length).filter fun i => !isFullAt specs i
  match fullIds.head?.bind (specs[·]?), otherIds.head?.bind (specs[·]?) with
  | some full, some other =>
    if (fullIds.all fun i => specs[i]? = some full) && (otherIds.all fun i => specs[i]? = some other) &&
        other.blockSize % full.blockSize = 0 then
      if fullIds.all fun i => otherIds.all fun j => i < j then some (fullIds, full, otherIds, other, true)
      else if fullIds.all fun i => otherIds.all fun j => j < i then some (fullIds, full, otherIds, other, false)
      else none
    else none
  | _, _ => none

def coordinatorHits (p : BlockPool η) (hashes : List η) (maxLength : Nat) (eagle : Bool) :
    Option (List (List Nat) × Nat) :=
  match specs with
  | [spec] => do
    let rows ← findHits spec p [0] hashes maxLength eagle
    some (columns 1 rows, rows.length * spec.blockSize)
  | _ => do
    let (fullIds, full, otherIds, other, fullFirst) ← splitGroups specs
    let fullRows ← fullHits p fullIds hashes maxLength full.blockSize eagle
    let otherRows ← findHits other p otherIds hashes (fullRows.length * full.blockSize) eagle
    let hitLength := otherRows.length * other.blockSize
    if hitLength % full.blockSize ≠ 0 then none
    else
      let fullCols := columns fullIds.length (fullRows.take (hitLength / full.blockSize))
      let otherCols := columns otherIds.length otherRows
      some (if fullFirst then fullCols ++ otherCols else otherCols ++ fullCols, hitLength)

/-! ### KVCacheManager -/

structure KVCacheManager (ι η : Type) where
  maxModelLen : Nat
  useEagle : Bool
  blockPool : BlockPool η
  groups : List (GroupManager ι)

namespace KVCacheManager

def enableCaching (m : KVCacheManager ι η) : Bool := m.blockPool.enableCaching

def groupsCacheable : List GroupSpec → Bool
  | [] => false
  | [_] => true
  | s :: specs => (specs.all fun t => t.blockSize = s.blockSize) && (splitGroups (s :: specs)).isSome

def init (maxModelLen numGpuBlocks : Nat) (enableCaching useEagle : Bool) (specs : List GroupSpec) :
    Option (KVCacheManager ι η) := do
  let p ← BlockPool.init numGpuBlocks enableCaching
  if enableCaching && !groupsCacheable specs then none
  else some ⟨maxModelLen, useEagle, p, specs.map GroupManager.init⟩

variable (m : KVCacheManager ι η) (q : Request ι η)

def emptyBlocks : List (List Nat) := m.groups.map fun _ => []

def getComputedBlocks : Option (List (List Nat) × Nat) :=
  if !m.enableCaching || q.skipReadingPrefixCache then some (m.emptyBlocks, 0)
  else coordinatorHits (m.groups.map (·.spec)) m.blockPool q.blockHashes (q.numTokens - 1) m.useEagle

/-- What a loop over the groups does to one of them and to the pool. -/
abbrev GroupStep (ι η α : Type) := Nat → GroupManager ι → BlockPool η → Option (α × GroupManager ι × BlockPool η)

abbrev GroupUpdate (ι η : Type) := Nat → GroupManager ι → BlockPool η → Option (GroupManager ι × BlockPool η)

def eachGroup {α : Type} (f : GroupStep ι η α) :
    Nat → List (GroupManager ι) → BlockPool η → Option (List α × List (GroupManager ι) × BlockPool η)
  | _, [], p => some ([], [], p)
  | g, m :: ms, p => do
    let (a, m, p) ← f g m p
    let (as, ms, p) ← eachGroup f (g + 1) ms p
    some (a :: as, m :: ms, p)

def forGroups {α : Type} (m : KVCacheManager ι η) (f : GroupStep ι η α) :
    Option (List α × KVCacheManager ι η) := do
  let (as, groups, p) ← eachGroup f 0 m.groups m.blockPool
  some (as, { m with groups := groups, blockPool := p })

def runGroups (f : GroupUpdate ι η) : Option (KVCacheManager ι η) := do
  let (_, m) ← m.forGroups fun g gm p => (f g gm p).map fun x => ((), x)
  some m

def tokensFor (spec : GroupSpec) (n encoder : Nat) : Nat :=
  match spec.kind with
  | .crossAttention => encoder
  | _ => n

def computedFor (spec : GroupSpec) (newComputed : List (List Nat)) (g : Nat) : Option (List Nat) :=
  match spec.kind with
  | .crossAttention => some []
  | _ => newComputed[g]?

def numBlocksToAllocate (p : BlockPool η) (r : ι) (n encoder : Nat) (newComputed : List (List Nat)) :
    Nat → List (GroupManager ι) → Option Int
  | _, [] => some 0
  | g, m :: ms => do
    let new ← computedFor m.spec newComputed g
    let rest ← numBlocksToAllocate p r n encoder newComputed (g + 1) ms
    some (m.getNumBlocksToAllocate p r (tokensFor m.spec n encoder) new + rest)

def removeSkippedBlocks (m : KVCacheManager ι η) (r : ι) (numComputed : Nat) : Option (KVCacheManager ι η) :=
  m.runGroups fun _ gm p => gm.removeSkippedBlocks p r numComputed

def anyComputed (newComputed : List (List Nat)) : Bool := newComputed.any fun bs => !bs.isEmpty

def takeComputed (r : ι) (newComputed : List (List Nat)) : Option (KVCacheManager ι η) :=
  if anyComputed newComputed then
    if m.enableCaching then do
      let p ← BlockPool.touch newComputed.flatten m.blockPool
      { m with blockPool := p }.runGroups fun g gm p => do
        let new ← newComputed[g]?
        let gm ← gm.saveNewComputedBlocks r new
        some (gm, p)
    else none
  else some m

def allocateNewBlocks (m : KVCacheManager ι η) (r : ι) (n encoder : Nat) :
    Option (List (List Nat) × KVCacheManager ι η) :=
  m.forGroups fun _ gm p => gm.allocateNewBlocks p r (tokensFor gm.spec n encoder)

def cacheBlocks (m : KVCacheManager ι η) (q : Request ι η) (n : Nat) : Option (KVCacheManager ι η) :=
  m.runGroups fun g gm p => gm.cacheBlocks g p q n

def commitSlots (needSlot encoder numToCache : Nat) (newComputed : List (List Nat))
    (delay : Bool) : Option (KVCacheManager ι η × List (List Nat)) := do
  let m ← m.takeComputed q.requestId newComputed
  let (new, m) ← m.allocateNewBlocks q.requestId needSlot encoder
  if !m.enableCaching || delay then some (m, new)
  else do
    let m ← m.cacheBlocks q numToCache
    some (m, new)

def tokensNeedSlot (numNew numNewComputed lookahead : Nat) : Nat :=
  min (q.numComputedTokens + numNewComputed + numNew + lookahead) m.maxModelLen

def tokensToCache (numNew numNewComputed : Nat) : Nat :=
  min (q.numComputedTokens + numNewComputed + numNew) q.numTokens

def allocateSlots (numNew numNewComputed : Nat)
    (newComputedBlocks : Option (List (List Nat))) (lookahead : Nat) (delay : Bool) (encoder : Nat) :
    Option (KVCacheManager ι η × Option (List (List Nat))) :=
  if numNew = 0 then none
  else do
    let newComputed := newComputedBlocks.getD m.emptyBlocks
    let m ← m.removeSkippedBlocks q.requestId q.numComputedTokens
    let needSlot := m.tokensNeedSlot q numNew numNewComputed lookahead
    let needed ← numBlocksToAllocate m.blockPool q.requestId needSlot encoder newComputed 0 m.groups
    -- counting has looked the request up in every group
    let m := { m with groups := m.groups.map (·.access q.requestId) }
    if m.blockPool.getNumFreeBlocks < needed then some (m, none)
    else do
      let (m, new) ← m.commitSlots q needSlot encoder (tokensToCache q numNew numNewComputed) newComputed delay
      some (m, some new)

def free (m : KVCacheManager ι η) (r : ι) : Option (KVCacheManager ι η) := m.runGroups fun _ gm p => gm.free p r

def resetPrefixCache (m : KVCacheManager ι η) : Bool × KVCacheManager ι η :=
  (m.blockPool.resetPrefixCache.1, { m with blockPool := m.blockPool.resetPrefixCache.2 })

end KVCacheManager

end Xmix.Kv
