import Xmix.Kv.LongestHit
import Xmix.Kv.Origins

/-!
# Hits of the hybrid coordinator

Full attention is searched first, and the other attention within what full attention has found. Two
searches are enough: full attention serves every prefix of what it serves, so a longer common length
would lie within its hit, where the other search has found the longest. A hit block was cached for a
request with the same tokens, because its hash says so; this takes one block size for all groups,
which the manager asserts. With two of them the same hash stands for prefixes of different lengths.
-/

namespace Xmix.Kv

open List Option

variable {ι η : Type} [DecidableEq ι] [DecidableEq η] {p : BlockPool η} {hashes : List η}

/-! ### The searches return -/

variable {groups : List Nat}

theorem hitsFrom_isSome {n i : Nat} (h : i + n ≤ hashes.length) : (hitsFrom p groups hashes n i).isSome := by
  induction n generalizing i with
  | zero => rfl
  | succ n ih =>
    rw [hitsFrom, getElem?_eq_getElem (show i < hashes.length by omega), bind_eq_bind, bind_some]
    split
    · obtain ⟨rows, hrows⟩ := isSome_iff_exists.1 (ih (i := i + 1) (by omega))
      rw [hrows]
      rfl
    · rfl

theorem mambaHits_isSome {n : Nat} (h : n ≤ hashes.length) : (mambaHits p groups hashes n).isSome := by
  induction n with
  | zero => rfl
  | succ n ih =>
    rw [mambaHits, getElem?_eq_getElem (show n < hashes.length by omega), bind_eq_bind, bind_some]
    split
    · rfl
    · exact ih (by omega)

theorem fullHits_isSome (groups : List Nat) (maxLength bs : Nat) :
    ∃ rows, fullHits p groups hashes maxLength bs false = some rows ∧
    rows.length ≤ hashes.length := by
  obtain ⟨rows, hrows⟩ := isSome_iff_exists.1
    (@hitsFrom_isSome η _ p hashes groups (min (maxLength / bs) hashes.length) 0 (by omega))
  refine ⟨rows, by rw [fullHits, hrows]; rfl, ?_⟩
  have := (hitsFrom_ok hrows).2
  omega

theorem findHits_isSome {spec : GroupSpec} (hcross : spec.kind ≠ .crossAttention) (groups : List Nat) {maxLength : Nat}
    (h : maxLength / spec.blockSize ≤ hashes.length) : (findHits spec p groups hashes maxLength false).isSome := by
  rw [findHits]
  split
  · obtain ⟨rows, hrows, -⟩ := @fullHits_isSome η _ p hashes groups maxLength spec.blockSize
    rw [hrows]
    rfl
  · exact slidingHits_isSome.2 h
  next c _ =>
    have hle : maxLength / c * c / spec.blockSize ≤ maxLength / spec.blockSize :=
      Nat.div_le_div_right (Nat.div_mul_le_self _ _)
    obtain ⟨rows, hrows⟩ := isSome_iff_exists.1 (@hitsFrom_isSome η _ p hashes groups
      (maxLength / spec.blockSize - maxLength / c * c / spec.blockSize) (maxLength / c * c / spec.blockSize) (by omega))
    simp only [chunkedHits, Bool.false_eq_true, if_false, hrows, bind_eq_bind, bind_some]
    rfl
  · exact mambaHits_isSome h
  next hk => exact absurd hk hcross

/-! ### Joint maximality -/

def Succeeds (spec : GroupSpec) (p : BlockPool η) (groups : List Nat) (hashes : List η) (n : Nat) : Prop :=
  ∃ rows, findHits spec p groups hashes n false = some rows ∧ rows.length * spec.blockSize = n

theorem Succeeds.serves {spec : GroupSpec} {n : Nat} (hg : groups ≠ []) (h : Succeeds spec p groups hashes n) :
    n / spec.blockSize * spec.blockSize = n ∧ Serves spec p groups hashes (n / spec.blockSize) := by
  obtain ⟨rows, hrows, rfl⟩ := h
  have hlen : rows.length * spec.blockSize / spec.blockSize = rows.length := Nat.mul_div_cancel _ spec.blockPos
  rw [hlen]
  exact ⟨rfl, ((findHits_longest hg hrows).2.2 (.inr rfl)).serves hg⟩

/-- All lists end at `hit`, and no longer prefix is a hit in both kinds of groups. -/
structure Joint (specs : List GroupSpec) (p : BlockPool η) (hashes : List η) (maxLength : Nat)
    (lists : List (List Nat)) (hit : Nat) : Prop where
  le : hit ≤ maxLength
  count : lists.length = specs.length
  lengths : ∀ (g : Nat) (spec : GroupSpec) (list : List Nat), specs[g]? = some spec →
    lists[g]? = some list → list.length * spec.blockSize = hit
  maximal : ∀ fullIds full otherIds other fullFirst,
    splitGroups specs = some (fullIds, full, otherIds, other, fullFirst) →
    ∀ n, hit < n → n ≤ maxLength → ¬ (Succeeds full p fullIds hashes n ∧ Succeeds other p otherIds hashes n)

theorem coordinatorHits_joint {specs : List GroupSpec}
    {bs : Nat} (htwo : 2 ≤ specs.length) (hsplit : (splitGroups specs).isSome)
    (hsize : ∀ spec ∈ specs, spec.blockSize = bs) (hcross : ∀ spec ∈ specs, spec.kind ≠ .crossAttention)
    (p : BlockPool η) (hashes : List η) (maxLength : Nat) :
    ∃ lists hit, coordinatorHits specs p hashes maxLength false = some (lists, hit) ∧
      Joint specs p hashes maxLength lists hit := by
  obtain ⟨⟨fullIds, full, otherIds, other, fullFirst⟩, hsplit⟩ := isSome_iff_exists.1 hsplit
  obtain ⟨hfne, hone, hkind⟩ := splitGroups_full hsplit
  obtain ⟨-, hfullSpec, hotherSpec, -⟩ := splitGroups_spec hsplit
  have hmemOf : ∀ {ids : List Nat} {spec : GroupSpec}, ids ≠ [] → (∀ g ∈ ids, specs[g]? = some spec) →
    spec ∈ specs := fun hne hids => by
    obtain ⟨g, hg⟩ := exists_mem_of_ne_nil _ hne
    exact mem_of_getElem? (hids g hg)
  have hfull := hmemOf hfne hfullSpec
  have hother := hmemOf hone hotherSpec
  have hbs : full.blockSize = other.blockSize := (hsize full hfull).trans (hsize other hother).symm
  obtain ⟨fullRows, hfullRows, hlen⟩ := @fullHits_isSome η _ p hashes fullIds maxLength full.blockSize
  obtain ⟨otherRows, hotherRows⟩ :=
    isSome_iff_exists.1 (@findHits_isSome η _ p hashes other (hcross other hother) otherIds
    (fullRows.length * full.blockSize) (by rw [hbs, Nat.mul_div_cancel _ other.blockPos]; exact hlen))
  have hcoord : ∃ lists, coordinatorHits specs p hashes maxLength false =
    some (lists, otherRows.length * other.blockSize) := by
    rw [coordinatorHits.eq_def]
    split
    next spec => simp at htwo
    next =>
      simp only [hsplit, hfullRows, hotherRows, bind_eq_bind, bind_some]
      rw [if_neg (by rw [hbs, Nat.mul_mod_left]; exact fun h => h rfl)]
      exact ⟨_, rfl⟩
  obtain ⟨lists, hlists⟩ := hcoord
  obtain ⟨n, hok, hle, hn⟩ := coordinatorHits_spec hlists
  refine ⟨lists, _, hlists, hle, by rw [hok.length, length_range], fun g spec list hg hlist => ?_, ?_⟩
  · have hlt := (List.getElem?_eq_some_iff.1 hg).1
    rw [(hok.hit g g list (getElem?_range hlt) hlist).1]
    exact hn g spec hg
  · intro fullIds' full' otherIds' other' fullFirst' hsplit' n hlt hnle hboth
    obtain ⟨rfl, rfl, rfl, rfl, -⟩ : fullIds = fullIds' ∧ full = full' ∧ otherIds = otherIds' ∧
      other = other' ∧ fullFirst = fullFirst' := by
      simpa using hsplit.symm.trans hsplit'
    obtain ⟨hfn, hfserves⟩ := hboth.1.serves hfne
    obtain ⟨hon, hoserves⟩ := hboth.2.serves hone
    -- full attention has found all of the longer prefix, so that the other search has looked there
    have hfound : n / full.blockSize ≤ fullRows.length := by
      refine (fullHits_greatest hfne hfullRows).1.2 ⟨Nat.div_le_div_right hnle, fun i hi => hfserves i ?_ hi⟩
      rw [needFrom, hkind]
      exact Nat.zero_le i
    refine (findHits_longest hone hotherRows).2.1 _ ?_ ?_ hoserves
    · refine Nat.lt_of_mul_lt_mul_right (a := other.blockSize) ?_
      rw [hon]
      exact hlt
    · rw [← hbs, Nat.mul_div_cancel _ full.blockPos]
      exact hfound

/-! ### Soundness -/

namespace CacheState

/-- Block `b` was cached for the same tokens. -/
def Matches {τ : Type} (H : List τ → List η → Prop) (s₀ : CacheState ι η) (cs : List (Call ι η))
    (ts : List τ) (g i bs b : Nat) : Prop :=
  ∃ q x ts', s₀.CachedFor cs q i b (x, g) ∧ H ts' q.blockHashes ∧ ts'.take ((i + 1) * bs) = ts.take ((i + 1) * bs)

variable {τ : Type} {H : List τ → List η → Prop} {bs : Nat}

section
variable {s₀ : CacheState ι η} {cs : List (Call ι η)} {q : Request ι η} {i b : Nat} {k : η × Nat}
  (h : s₀.CachedFor cs q i b k)
include h

theorem CachedFor.request {C : CacheState ι η → Call ι η → Prop}
    (hcs : Follows C s₀ cs) : ∃ s c, C s c ∧ c.request? = some q := by
  obtain ⟨cs₁, c, cs₂, s₂, rfl, hq, hrun, -⟩ := h
  rw [run_append] at hrun
  obtain ⟨s₁, hs₁, -⟩ := bind_eq_some_iff.1 hrun
  exact ⟨s₁, c, (hcs.append.2 s₁ hs₁).1, hq⟩

theorem CachedFor.stored : q.blockHashes[i]? = some k.1 := by
  obtain ⟨cs₁, c, cs₂, s₂, -, -, -, ⟨gm, -, -, hx⟩, -⟩ := h
  exact hx

end

/-- Hits of the hybrid coordinator after any run: a common length, the longest one both searches find, and blocks that
were cached for the same tokens. -/
theorem run_hybrid_hits {maxModelLen numGpuBlocks : Nat}
    {specs : List GroupSpec} {m : KVCacheManager ι η} (hH : BlockHashes bs H) (htwo : 2 ≤ specs.length)
    (hsize : ∀ spec ∈ specs, spec.blockSize = bs) (hcross : ∀ spec ∈ specs, spec.kind ≠ .crossAttention)
    (hm : KVCacheManager.init maxModelLen numGpuBlocks true false specs = some m) {cs : List (Call ι η)}
    (hcs : Follows (Brings H) (init m) cs) {s : CacheState ι η} (h : (init m).run cs = some s)
    {ts : List τ} {hashes : List η} (hts : H ts hashes) (maxLength : Nat) :
    ∃ lists hit, coordinatorHits specs s.manager.blockPool hashes maxLength false = some (lists, hit) ∧
      Joint specs s.manager.blockPool hashes maxLength lists hit ∧
      ∀ (g : Nat) (spec : GroupSpec) (list : List Nat), specs[g]? = some spec → lists[g]? = some list →
        ∀ i b : Nat, list[i]? = some b →
        b ≠ s.manager.blockPool.nullBlock → Matches H (init m) cs ts g i spec.blockSize b := by
  have hsound := (init_sound hm).1
  have hsplit : (splitGroups specs).isSome := by
    obtain ⟨p, -, hm⟩ := Option.bind_eq_some_iff.1 hm
    split at hm
    · cases hm
    next hcache =>
      rcases specs with - | ⟨s₁, - | ⟨s₂, specs⟩⟩
      · cases htwo
      · simp at htwo
      · simp only [KVCacheManager.groupsCacheable, Bool.true_and, Bool.not_eq_true', Bool.not_eq_false,
          Bool.and_eq_true] at hcache
        exact hcache.2
  have hpermit : Follows Permits (init m) cs := hcs.mono fun s c hc => hc.permits hH
  have hs := hpermit.run_induction (fun s c s' hs hc h => Sound.exec hs hc h) hsound h
  obtain ⟨hca, hnone⟩ := init_pool hm
  obtain ⟨lists, hit, hlists, hjoint⟩ :=
    coordinatorHits_joint htwo hsplit hsize hcross s.manager.blockPool hashes maxLength
  refine ⟨lists, hit, hlists, hjoint, fun g spec list hg hlist i b hb hne => ?_⟩
  obtain ⟨n, hok, -⟩ := coordinatorHits_spec hlists
  have hlt := (List.getElem?_eq_some_iff.1 hg).1
  obtain ⟨x, hx, hholds⟩ := ((hok.hit g g list (getElem?_range hlt) hlist).2 i b hb).resolve_left hne
  -- the block has its hash from a call of the run
  obtain ⟨q, j, hfor⟩ := run_cachedFor hsound hca hnone hpermit h ((hs.counted.hashes b _).2 hholds)
  obtain ⟨s₁, c, hc, hq⟩ := hfor.request hcs
  obtain ⟨ts', hts', -⟩ := hc.2 q hq
  obtain ⟨rfl, htake⟩ := hH.inj hts' hts hfor.stored hx
  refine ⟨q, x, ts', hfor, hts', ?_⟩
  rw [hsize spec (mem_of_getElem? hg)]
  exact htake

def hybridSpecs (bs bs' : Nat) (h : 0 < bs) (h' : 0 < bs') : List GroupSpec :=
  [⟨.full, bs, h, trivial⟩, ⟨.slidingWindow 3, bs', h', Nat.succ_pos 2⟩]

def prefixRequest (bs r : Nat) (ts : List Nat) : Request Nat (List Nat) := ⟨r, 0, ts.length, prefixHashes bs ts, false⟩

theorem prefixRequest_brought {bs : Nat} {s : CacheState Nat (List Nat)}
    {r : Nat} (ts : List Nat) (numNew : Nat) (h : s.active r = none) :
    Brings (fun ts hs => hs = prefixHashes bs ts) s (.start (prefixRequest bs r ts) numNew 0 0) := by
  refine ⟨⟨h, rfl⟩, fun q hq => ?_⟩
  cases hq
  exact ⟨ts, rfl, rfl⟩

def evenManager : KVCacheManager Nat (List Nat) :=
  (KVCacheManager.init 16 16 true false (hybridSpecs 2 2 Nat.zero_lt_two Nat.zero_lt_two)).get rfl

theorem evenManager_eq : KVCacheManager.init 16 16
      true false (hybridSpecs 2 2 Nat.zero_lt_two Nat.zero_lt_two) = some evenManager :=
      rfl

theorem evenManager_hits : ∃ s, (init evenManager).run [.start (prefixRequest 2 0 [1, 2, 3]) 3 0 0] = some s ∧
    coordinatorHits (hybridSpecs 2 2 Nat.zero_lt_two Nat.zero_lt_two) s.manager.blockPool
      (prefixHashes 2 [1, 2, 4, 5]) 3 false = some ([[1], [3]], 2) ∧
    Joint (hybridSpecs 2 2 Nat.zero_lt_two Nat.zero_lt_two) s.manager.blockPool
      (prefixHashes 2 [1, 2, 4, 5]) 3 [[1], [3]] 2 ∧
    Matches (fun ts hs => hs = prefixHashes 2 ts) (init evenManager)
      [.start (prefixRequest 2 0 [1, 2, 3]) 3 0 0] [1, 2, 4, 5] 1 0 2 3 := by
  obtain ⟨s, hs⟩ :=
    isSome_iff_exists.1 (show ((init evenManager).run [.start (prefixRequest 2 0 [1, 2, 3]) 3 0 0]).isSome from rfl)
  have hcs : Follows (Brings fun ts hs => hs = prefixHashes 2 ts) (init evenManager)
    [.start (prefixRequest 2 0 [1, 2, 3]) 3 0 0] :=
    ⟨prefixRequest_brought _ _ rfl, fun s' _ => trivial⟩
  cases some.inj hs
  obtain ⟨lists, hit, hlists, hjoint, hmatch⟩ := run_hybrid_hits (prefixHashes_blockHashes Nat.zero_lt_two)
    (show 2 ≤ (hybridSpecs 2 2 Nat.zero_lt_two Nat.zero_lt_two).length from Nat.le_refl 2)
      (by simp [hybridSpecs]) (by simp [hybridSpecs]) evenManager_eq hcs hs
    (show (prefixHashes 2 [1, 2, 4, 5]) = prefixHashes 2 [1, 2, 4, 5] from rfl) 3
  have hval := hlists.symm.trans (show _ = some ([[1], [3]], 2) from rfl)
  obtain ⟨rfl, rfl⟩ := Prod.mk.inj (some.inj hval)
  exact ⟨_, hs, hlists, hjoint, hmatch 1 _ _ rfl rfl 0 3 rfl nofun⟩

def unevenManager : KVCacheManager Nat (List Nat) where
  maxModelLen := 16
  useEagle := false
  blockPool := (BlockPool.init 16 true).get rfl
  groups := (hybridSpecs 1 2 Nat.one_pos Nat.zero_lt_two).map GroupManager.init

def unevenCalls : List (Call Nat (List Nat)) :=
  [.start (prefixRequest 1 0 [1, 9]) 2 0 0, .start (prefixRequest 1 1 [1, 2, 3]) 3 0 0]

/-- A request that starts with `1, 2` gets the block of a request that starts with `1, 9`: both have the hash of the
prefix `1` at index 0. -/
theorem unevenManager_mismatch : (splitGroups (hybridSpecs 1 2 Nat.one_pos Nat.zero_lt_two)).isSome ∧
      ∃ s, (init unevenManager).run unevenCalls = some s ∧
    coordinatorHits (hybridSpecs 1 2 Nat.one_pos Nat.zero_lt_two) s.manager.blockPool
      (prefixHashes 1 [1, 2, 3, 4]) 3 false = some ([[1, 5], [3]], 2) ∧
    3 ≠ s.manager.blockPool.nullBlock ∧
    ¬ Matches (fun ts hs => hs = prefixHashes 1 ts) (init unevenManager) unevenCalls [1, 2, 3, 4] 1 0 2 3 := by
  obtain ⟨s, hs⟩ := isSome_iff_exists.1 (show ((init unevenManager).run unevenCalls).isSome from rfl)
  refine ⟨rfl, s, hs, ?_, ?_, ?_⟩
  · cases hs
    rfl
  · cases hs
    nofun
  · rintro ⟨q, x, ts', ⟨cs₁, c, cs₂, s₂, hcs, hq, hrun, ⟨gm, hgm, hblock, -⟩, -⟩, hts', htake⟩
    rcases cs₁ with - | ⟨c₁, - | ⟨c₂, cs₁⟩⟩
    · -- the first request has the block, and starts with `1, 9`
      obtain ⟨rfl, -⟩ := cons.inj hcs
      cases hq
      have hsecond := ((prefixHashes_blockHashes Nat.one_pos).inj (i := 1) (j := 1) (h := [1, 9]) hts'
        (show prefixHashes 1 [1, 9] = prefixHashes 1 [1, 9] from rfl) rfl rfl).2
      exact absurd (hsecond.symm.trans htake) (by decide)
    · -- the second request has other blocks
      obtain ⟨rfl, hrest⟩ := cons.inj hcs
      obtain ⟨rfl, -⟩ := cons.inj hrest
      cases hq
      cases hrun
      cases hgm
      exact absurd hblock (by decide)
    · simp [unevenCalls] at hcs

end CacheState

end Xmix.Kv
