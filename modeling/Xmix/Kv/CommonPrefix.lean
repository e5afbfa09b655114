import Mathlib.Data.List.TakeWhile
import Xmix.Kv.LongestHit
import Xmix.Kv.Origins

/-!
# The common prefix of all requests

`get_num_common_prefix_blocks` compares no lists: a block of a running request counts as common if
it has as many references as there are entries in `req_to_blocks`. With one group of full attention
this is right as far as the lists go, because a block stands at the same place of every list it
stands in (`InPlace`): a block that is found in the cache has a hash, and a hash belongs to one
place. But an entry may be empty, since looking a request up makes one, and then no block has enough
references.
-/

namespace Xmix.Kv

open List Option

variable {ι η : Type} [DecidableEq ι] [DecidableEq η]

/-! ### The count -/

def GroupManager.getNumCommonPrefixBlocks (m : GroupManager ι) (p : BlockPool η) (r : ι) : Nat × GroupManager ι :=
  match m.spec.kind with
  | .full =>
    let m := m.access r
    (((m.blocksOf r).takeWhile fun b => p.refCnt b = m.reqToBlocks.len).length, m)
  | _ => (0, m)

def KVCacheManager.getNumCommonPrefixBlocks (m : KVCacheManager ι η) (r : ι) : List Nat × KVCacheManager ι η :=
  if m.enableCaching then
    (m.groups.map fun gm => (gm.getNumCommonPrefixBlocks m.blockPool r).1,
      { m with groups := m.groups.map fun gm => (gm.getNumCommonPrefixBlocks m.blockPool r).2 })
  else (m.groups.map fun _ => 0, m)

omit [DecidableEq ι] [DecidableEq η] in
theorem not_of_length_takeWhile {α : Type} {P : α → Bool}
    {l : List α} {a : α} (h : l[(l.takeWhile P).length]? = some a) : P a = false := by
  rw [takeWhile_eq_take_findIdx_not, length_take, Nat.min_eq_left findIdx_le_length] at h
  simpa using findIdx_of_getElem?_eq_some h

namespace GroupManager

/-- All lists that are not empty begin with the same `n` blocks. -/
def Shared (m : GroupManager ι) (n : Nat) : Prop :=
  ∃ l : List Nat, l.length = n ∧ ∀ r, m.blocksOf r ≠ [] → l <+: m.blocksOf r

def Occupied (m : GroupManager ι) : Prop := ∀ r bs, m.reqToBlocks.get? r = some bs → bs ≠ []

structure InPlace (I : η → Nat → Prop) (p : BlockPool η) (m : GroupManager ι) : Prop where
  null : ∀ r, p.nullBlock ∉ m.blocksOf r
  place : ∀ {r r' : ι} {i j b : Nat}, (m.blocksOf r)[i]? = some b → (m.blocksOf r')[j]? = some b → i = j
  hash : ∀ {r : ι} {i b : Nat} {k : η × Nat}, (m.blocksOf r)[i]? = some b → p.blockHash b = some k → I k.1 i

variable {I : η → Nat → Prop} {p : BlockPool η} {m m' : GroupManager ι} {r : ι}

omit [DecidableEq η] in
theorem blocksOf_eq {bs : List Nat} (h : m.reqToBlocks.get? r = some bs) : m.blocksOf r = bs := by
  rw [blocksOf, h, getD_some]

section
variable (h : InPlace I p m) (hp : p.Inv m.occ) (hone : ∀ r, m.Once p.nullBlock r)
include h hp hone

theorem InPlace.refCnt_eq_len_iff {i b : Nat}
    (hb : (m.blocksOf r)[i]? = some b) :
    p.refCnt b = m.reqToBlocks.len ↔ ∀ r' bs, m.reqToBlocks.get? r' = some bs → bs[i]? = some b := by
  have hnull : b ≠ p.nullBlock := fun hn => h.null r (hn ▸ mem_of_getElem? hb)
  have hle : ∀ r' bs, m.reqToBlocks.get? r' = some bs → bs.count b ≤ 1 := fun r' bs hbs => by
    have := hone r' b hnull
    rwa [blocksOf_eq hbs] at this
  rw [hp.refs b hnull, Nat.cast_inj, occ, Dict.total_eq_len_iff hle]
  refine forall_congr' fun r' => forall_congr' fun bs => imp_congr_right fun hbs => ⟨fun hcount => ?_, fun hi => ?_⟩
  · obtain ⟨j, hj⟩ := getElem?_of_mem (count_pos_iff.1 (show 0 < bs.count b by omega))
    have hj' : (m.blocksOf r')[j]? = some b := by rwa [blocksOf_eq hbs]
    rwa [h.place hb hj']
  · have := count_pos_iff.2 (mem_of_getElem? hi)
    have := hle r' bs hbs
    omega

theorem InPlace.isGreatest_takeWhile (hr : m.blocksOf r ≠ [])
    (hocc : m.Occupied) : IsGreatest {n | m.Shared n}
      ((m.blocksOf r).takeWhile fun b => p.refCnt b = m.reqToBlocks.len).length := by
  have hentry : ∀ r', m.blocksOf r' ≠ [] → m.reqToBlocks.get? r' = some (m.blocksOf r') := fun r' hr' => by
    rcases hget : m.reqToBlocks.get? r' with - | bs
    · rw [blocksOf, hget] at hr'
      exact absurd rfl hr'
    · rw [blocksOf_eq hget]
  have hpre := takeWhile_prefix (l := m.blocksOf r) fun b => decide (p.refCnt b = m.reqToBlocks.len)
  refine ⟨⟨_, rfl, fun r' hr' => prefix_iff_getElem?.2 fun i hi => ?_⟩, fun n hn => ?_⟩
  · have hb := prefix_iff_getElem?.1 hpre i hi
    have hcnt := mem_takeWhile_imp (getElem_mem hi)
    exact (h.refCnt_eq_len_iff hp hone hb).1 (of_decide_eq_true hcnt) r' _ (hentry r' hr')
  · -- a longer common prefix would have the block at which the count stops
    obtain ⟨l, rfl, hl⟩ := hn
    by_contra hlt
    rw [Nat.not_le] at hlt
    have hstop := prefix_iff_getElem?.1 (hl r hr) _ hlt
    have hcnt := not_of_length_takeWhile hstop
    refine absurd ((h.refCnt_eq_len_iff hp hone hstop).2 fun r' bs hbs => ?_) (of_decide_eq_false hcnt)
    have := prefix_iff_getElem?.1 (hl r' (by rw [blocksOf_eq hbs]; exact hocc r' bs hbs)) _ hlt
    rwa [blocksOf_eq hbs] at this

theorem InPlace.takeWhile_eq_nil (hocc : ¬ m.Occupied) :
    ((m.blocksOf r).takeWhile fun b => p.refCnt b = m.reqToBlocks.len) = [] := by
  obtain ⟨r', hr'⟩ : ∃ r', m.reqToBlocks.get? r' = some [] := by
    by_contra hno
    refine hocc fun r' bs hbs hnil => hno ⟨r', ?_⟩
    rw [hbs, hnil]
  refine takeWhile_eq_nil_iff.2 fun hlen hcnt => ?_
  have := (h.refCnt_eq_len_iff hp hone (getElem?_eq_getElem hlen)).1 (of_decide_eq_true hcnt) r' [] hr'
  cases this

end

/-! ### The stages keep blocks in place -/

omit [DecidableEq η] in
theorem Skips.list {null : Nat} (h : Skips r null 0 m m') : m'.blocksOf r = m.blocksOf r := by
  refine ext_getElem? fun i => ?_
  rcases hi : (m'.blocksOf r)[i]? with - | b
  · rw [getElem?_eq_none (by rw [← h.length]; exact getElem?_eq_none_iff.1 hi)]
  · rcases h.entry i b hi with hb | ⟨-, hlt⟩
    · exact hb.symm
    · exact absurd hlt (Nat.not_lt_zero i)

section
variable {p' : BlockPool η} (h : InPlace I p m) (hnull : p'.nullBlock = p.nullBlock)
include h hnull

omit [DecidableEq η] in
/-- Blocks stay in place when lists get entries that stand nowhere else. -/
theorem InPlace.extend {N : Nat → Nat → Prop}
    (hentry : ∀ {r : ι} {i b : Nat}, (m'.blocksOf r)[i]? = some b → (m.blocksOf r)[i]? = some b ∨ N i b)
    (hne : ∀ {i b}, N i b → b ≠ p.nullBlock)
    (hplace : ∀ {i j b}, N i b → (∃ r, (m.blocksOf r)[j]? = some b) ∨ N j b → i = j)
    (hhash : ∀ {r : ι} {i b : Nat} {k : η × Nat}, (m'.blocksOf r)[i]? = some b → p'.blockHash b = some k →
      I k.1 i ∨ ∃ r j, (m'.blocksOf r)[j]? = some b ∧ I k.1 j) : InPlace I p' m' := by
  have hsame : ∀ {r₁ r₂ : ι} {i j b : Nat}, (m'.blocksOf r₁)[i]? = some b →
    (m'.blocksOf r₂)[j]? = some b → i = j := fun hi hj => by
    rcases hentry hi with hi | hi
    · rcases hentry hj with hj | hj
      · exact h.place hi hj
      · exact (hplace hj (.inl ⟨_, hi⟩)).symm
    · exact hplace hi ((hentry hj).imp_left fun hj => ⟨_, hj⟩)
  refine ⟨fun r hmem => ?_, hsame, fun hi hk => ?_⟩
  · obtain ⟨i, hi⟩ := getElem?_of_mem hmem
    rw [hnull] at hi
    rcases hentry hi with hi | hi
    · exact h.null r (mem_of_getElem? hi)
    · exact hne hi rfl
  · obtain hI | ⟨r, j, hj, hI⟩ := hhash hi hk
    · exact hI
    · rw [hsame hi hj]
      exact hI

omit [DecidableEq η] in
theorem InPlace.congr (hlist : ∀ r, m'.blocksOf r = m.blocksOf r)
    (hhash : ∀ {b : Nat} {k : η × Nat}, p'.blockHash b = some k →
      p.blockHash b = some k ∨ ∃ r i, (m'.blocksOf r)[i]? = some b ∧ I k.1 i) :
    InPlace I p' m' :=
  h.extend (N := fun _ _ => False) hnull (fun {r i b} hi => .inl (by rwa [hlist] at hi))
    (fun hf => hf.elim) (fun hf => hf.elim)
    fun {r i b k} hi hk => (hhash hk).imp_left fun hold => by
      rw [hlist] at hi
      exact h.hash hi hold

end

omit [DecidableEq η] in
theorem InPlace.saved {comp : List Nat} (hI : ∀ {x i j}, I x i → I x j → i = j)
    (h : InPlace I p m) (hsaved : Saved r comp m m')
    (hcomp : ∀ i b : Nat, comp[i]? = some b → b ≠ p.nullBlock ∧ ∃ k, p.blockHash b = some k ∧ I k.1 i) :
    InPlace I p m' := by
  have hentry : ∀ {r' : ι} {i b : Nat}, (m'.blocksOf r')[i]? = some b → (m.blocksOf r')[i]? = some b ∨
    comp[i]? = some b := fun {r' i b} hi => by
    by_cases hr : r' = r
    · rw [hr, hsaved.list] at hi
      rcases hsaved.first with ⟨-, rfl⟩ | ⟨hnil, -⟩
      · rw [append_nil] at hi
        exact .inl (hr ▸ hi)
      · rw [hnil, nil_append] at hi
        exact .inr hi
    · rw [hsaved.blocks r' hr] at hi
      exact .inl hi
  have hnew : ∀ {i b : Nat} {k : η × Nat}, comp[i]? = some b → p.blockHash b = some k → I k.1 i :=
    fun {i b k} hi hk => by
    obtain ⟨-, k', hk', hIi⟩ := hcomp i b hi
    cases hk.symm.trans hk'
    exact hIi
  refine h.extend (N := fun i b => comp[i]? = some b) rfl hentry (fun {i b} hi => (hcomp i b hi).1)
    (fun {i j b} hi hj => ?_) fun hi hk => .inl ?_
  · obtain ⟨-, k, hk, hIi⟩ := hcomp i b hi
    exact hI hIi (hj.elim (fun ⟨_, hj⟩ => h.hash hj hk) fun hj => hnew hj hk)
  · exact (hentry hi).elim (fun hi => h.hash hi hk) fun hi => hnew hi hk

omit [DecidableEq η] in
theorem InPlace.grown {p' : BlockPool η} {new : List Nat} {required : Nat} (h : InPlace I p m)
    (hgrown : Grown r p.nullBlock required new m m') (hnull : p'.nullBlock = p.nullBlock)
    (hhash : ∀ {b : Nat} {k : η × Nat}, p'.blockHash b = some k → (p.blockHash b = some k ∧ b ∉ new) ∨
      ∃ r i, (m'.blocksOf r)[i]? = some b ∧ I k.1 i) : InPlace I p' m' := by
  have hfresh : ∀ b ∈ new, ∀ r', b ∉ m.blocksOf r' := fun b hb r' hmem => by
    have := (hgrown.fresh b hb).2
    have := m.count_le_occ r' b
    have := count_pos_iff.2 hmem
    omega
  -- an entry is an old one, or one of the new blocks at the end of the list of `r`
  have hentry : ∀ {r' : ι} {i b : Nat}, (m'.blocksOf r')[i]? = some b →
      (m.blocksOf r')[i]? = some b ∨ ∃ j, i = (m.blocksOf r).length + j ∧ new[j]? = some b := fun {r' i b} hi => by
    by_cases hr : r' = r
    · subst hr
      rw [hgrown.list, getElem?_append] at hi
      split at hi
      · exact .inl hi
      · exact .inr ⟨_, by omega, hi⟩
    · rw [hgrown.blocks r' hr] at hi
      exact .inl hi
  refine h.extend hnull hentry (fun {i b} hnew => ?_) ?_ fun hi hk => ?_
  · obtain ⟨j, -, hj⟩ := hnew
    exact (hgrown.fresh b (mem_of_getElem? hj)).1
  · rintro _ j b ⟨i, rfl, hi⟩ (⟨r', hj⟩ | ⟨j, rfl, hj⟩)
    · exact absurd (mem_of_getElem? hj) (hfresh b (mem_of_getElem? hi) r')
    · rw [(List.getElem?_inj (List.getElem?_eq_some_iff.1 hi).1 hgrown.nodup).1 (hi.trans hj.symm)]
  · refine (hhash hk).imp_left fun hold => ?_
    rcases hentry hi with hi | ⟨j, -, hj⟩
    · exact h.hash hi hold.1
    · exact absurd (mem_of_getElem? hj) hold.2

end GroupManager

/-! ### Runs with one group of full attention -/

namespace KVCacheManager

theorem requiredBlocks_pos {spec : GroupSpec} (hfull : spec.kind = .full) {n : Nat} (hn : 0 < n) (encoder : Nat) :
    0 < requiredBlocks spec n encoder := by
  have hpos := spec.blockPos
  simp only [requiredBlocks, tokensFor, GroupManager.slotTokens, hfull]
  exact Nat.div_pos (by omega) hpos

omit [DecidableEq ι] in
theorem Moves.groups_eq {N : Prop} {R : Nat → GroupManager ι → GroupManager ι → Prop}
    {m m' : KVCacheManager ι η} (h : Moves N R m m') {gm : GroupManager ι} (hm : m.groups = [gm]) :
    ∃ gm', m'.groups = [gm'] ∧ R 0 gm gm' := by
  obtain ⟨gm', hg, hR⟩ := h.each 0 gm (by rw [hm]; rfl)
  have hlen := h.length
  rw [hm] at hlen
  obtain ⟨x, hx⟩ := length_eq_one_iff.1 hlen
  rw [hx] at hg
  cases hg
  exact ⟨_, hx, hR⟩

end KVCacheManager

namespace CacheState

open KVCacheManager

variable {τ : Type} {H : List τ → List η → Prop} {bs : Nat} {s s' : CacheState ι η} {c : Call ι η}

def HashAt (H : List τ → List η → Prop) (x : η) (i : Nat) : Prop := ∃ ts hs, H ts hs ∧ hs[i]? = some x

omit [DecidableEq η] in
theorem HashAt.unique (hH : BlockHashes bs H) {x : η} {i j : Nat} (hi : HashAt H x i) (hj : HashAt H x j) : i = j := by
  obtain ⟨ts, hs, hts, hx⟩ := hi
  obtain ⟨ts', hs', hts', hx'⟩ := hj
  exact (hH.inj hts hts' hx hx').1

structure OneFull (H : List τ → List η → Prop) (s : CacheState ι η) (gm : GroupManager ι) : Prop where
  groups : s.manager.groups = [gm]
  full : gm.spec.kind = .full
  inPlace : s.manager.enableCaching = true → gm.InPlace (HashAt H) s.manager.blockPool
  holds : 0 < s.manager.maxModelLen → ∀ r, s.active r ≠ none → gm.blocksOf r ≠ []

variable {gm : GroupManager ι}

theorem OneFull.occ (h : OneFull H s gm) (hs : s.manager.blockPool.Inv s.manager.occurrences) :
    s.manager.blockPool.Inv gm.occ :=
  hs.congr fun b _ => by simp [occurrences, h.groups]

theorem OneFull.hits (h : OneFull H s gm) (hp : s.manager.blockPool.Inv s.manager.occurrences)
    (hclear : Clear s.manager.blockPool) {q : Request ι η}
    {blocks : List (List Nat)} {hit : Nat} (hget : s.manager.getComputedBlocks q = some (blocks, hit))
    {comp : List Nat} (hcomp : blocks[0]? = some comp) {i b : Nat} (hb : comp[i]? = some b) :
    b ≠ s.manager.blockPool.nullBlock ∧ ∃ k, s.manager.blockPool.blockHash b = some k ∧
      q.blockHashes[i]? = some k.1 := by
  rw [getComputedBlocks] at hget
  split at hget
  · cases hget
    rw [emptyBlocks, h.groups] at hcomp
    cases hcomp
    cases hb
  · rw [h.groups, map_singleton, coordinatorHits] at hget
    obtain ⟨rows, hrows, hget⟩ := bind_eq_some_iff.1 hget
    cases hget
    rw [findHits, h.full] at hrows
    have hshape := fullHits_shape (cons_ne_nil 0 []) hrows
    rcases hshape.entry rfl hcomp hb with ⟨hlt, -⟩ | ⟨-, x, hx, hone⟩
    · exact absurd hlt (Nat.not_lt_zero i)
    · have hk := (hp.hashes b _).2 (BlockMap.holds_of_getOneBlock hone)
      refine ⟨fun hn => ?_, _, hk, hx⟩
      rw [hn, hclear] at hk
      cases hk

section Step
variable {q : Request ι η} {numNew hit lookahead encoder : Nat} {computed : Option (List (List Nat))}
  {res : KVCacheManager ι η × Option (List (List Nat))}

theorem OneFull.allocates (hH : BlockHashes bs H) (hs : s.Sound) (hclear : Clear s.manager.blockPool)
    (h : OneFull H s gm) (hal : Allocates s c s' q numNew hit computed lookahead encoder res)
    (hq : ∃ ts, H ts q.blockHashes ∧ ts.length = q.numTokens) :
    ∃ gm', OneFull H s' gm' := by
  obtain ⟨m', new⟩ := res
  have hm := allocateSlots_moves (N := False) hs.counted (hs.once _) hal.valid (fun hf => hf.elim) hal.slots
  obtain ⟨a, rfl⟩ := hal.served
  obtain ⟨ts, hts, -⟩ := hq
  have hskipped : GroupManager.numSkippedBlocks gm.spec q.numComputedTokens = 0 := by
    rw [GroupManager.numSkippedBlocks, GroupManager.numSkippedBlocks_of_not_windowed (by rw [h.full]; rfl)]
    simp
  -- a hash that the call wrote stands at its place
  have hstored : ∀ {gm' : GroupManager ι} {i b : Nat} {k : η × Nat}, m'.groups = [gm'] → m'.Stored q i b k →
      (gm'.blocksOf q.requestId)[i]? = some b ∧ HashAt H k.1 i := fun hgm' hst => by
    obtain ⟨x, hx, hi, hhash⟩ := hst
    rw [hgm'] at hx
    obtain rfl : x = _ := mem_singleton.1 (mem_of_getElem? hx)
    exact ⟨hi, ts, q.blockHashes, hts, hhash⟩
  obtain ⟨gm', hgm', gm₁, hskip, hres⟩ := Moves.groups_eq hm h.groups
  rw [KVCacheManager.Skipped, hskipped] at hskip
  have hlist := hskip.blocksOf_eq hskip.list
  obtain ⟨rfl, rfl⟩ | ⟨new, comp, fresh, rfl, hcomp, hfresh, hcom⟩ := hres
  · refine ⟨gm', hgm', by rw [hskip.spec]; exact h.full, fun hca => ?_, fun hlen r hr => ?_⟩
    · have hca' : s.manager.enableCaching = true := hm.caching ▸ hca
      refine (h.inPlace hca').congr hm.null hlist fun hk => ?_
      rcases allocateSlots_blockHash hca' hs.counted (hs.once _) hal.valid hal.slots hk with ⟨hold, -⟩ | ⟨i, hi⟩
      · exact .inl hold
      · exact .inr ⟨_, i, hstored hgm' hi⟩
    · rw [hlist]
      exact h.holds (hm.maxModelLen ▸ hlen) r hr
  · have honly := hcom.only
    have hlength := hcom.length_blocksOf
    obtain ⟨gm₂, gm₃, hsaved, hgrown, hcached⟩ := hcom
    refine ⟨gm', hgm', by rw [honly.spec, hskip.spec]; exact h.full, fun hca => ?_, fun hlen r hr => ?_⟩
    · have hca' : s.manager.enableCaching = true := hm.caching ▸ hca
      rw [if_pos hca'] at hcached
      have hlist₃ := hcached.blocksOf_eq hcached.list
      have h₁ : gm₁.InPlace (HashAt H) s.manager.blockPool := (h.inPlace hca').congr rfl hlist fun hk => .inl hk
      have h₂ : gm₂.InPlace (HashAt H) s.manager.blockPool := by
        refine h₁.saved (HashAt.unique hH) hsaved fun i b hb => ?_
        rcases hal.hits with rfl | ⟨-, blocks, rfl, hget⟩
        · rw [getD_none, emptyBlocks, h.groups] at hcomp
          cases hcomp
          cases hb
        · obtain ⟨hne, k, hk, hx⟩ := h.hits hs.counted hclear hget hcomp hb
          exact ⟨hne, k, hk, ts, q.blockHashes, hts, hx⟩
      refine GroupManager.InPlace.congr (h₂.grown hgrown hm.null fun hk => ?_) rfl hlist₃ fun hk => .inl hk
      rcases allocateSlots_blockHash hca' hs.counted (hs.once _) hal.valid hal.slots hk with ⟨hold, hnot⟩ | ⟨i, hi⟩
      · exact .inl ⟨hold, hnot new rfl fresh (mem_of_getElem? hfresh)⟩
      · obtain ⟨hi, hI⟩ := hstored hgm' hi
        exact .inr ⟨_, i, by rw [← hlist₃]; exact hi, hI⟩
    · have hlen' : 0 < s.manager.maxModelLen := hm.maxModelLen ▸ hlen
      by_cases hrq : r = q.requestId
      · obtain ⟨hnew, -⟩ := allocateSlots_cases (N := False) hs.counted (hs.once _) hal.slots
        have hpos := requiredBlocks_pos h.full (n := s.manager.tokensNeedSlot q numNew hit lookahead)
          (by rw [tokensNeedSlot]; omega) encoder
        rw [hrq, ← length_pos_iff, hlength]
        exact hpos.trans_le (Nat.le_max_right _ _)
      · rw [honly.blocks r hrq, hlist]
        exact h.holds hlen' r (by simpa [served, Function.update_of_ne hrq] using hr)

end Step

theorem OneFull.free {r : ι} {m' : KVCacheManager ι η}
    (hs : s.Sound) (h : OneFull H s gm) (hfree : s.manager.free r = some m') :
    ∃ gm', OneFull H ⟨m', Function.update s.active r none⟩ gm' := by
  have hm := free_moves (N := False) hs.counted (hs.once r) hfree
  obtain ⟨gm', hgm', honly, hnil, -⟩ := hm.groups_eq h.groups
  have hlist : ∀ {r' : ι} {i b : Nat}, (gm'.blocksOf r')[i]? = some b → (gm.blocksOf r')[i]? = some b :=
    fun {r' i b} hi => by
    by_cases hr : r' = r
    · rw [hr, hnil] at hi
      cases hi
    · rwa [honly.blocks r' hr] at hi
  refine ⟨gm', hgm', by rw [honly.spec]; exact h.full, fun hca => ?_, fun hlen r' hr' => ?_⟩
  · have hin := h.inPlace (hm.caching ▸ hca)
    refine ⟨fun r' hmem => ?_, fun hi hj => hin.place (hlist hi) (hlist hj), fun hi hk => hin.hash (hlist hi) ?_⟩
    · obtain ⟨i, hi⟩ := getElem?_of_mem hmem
      exact hin.null r' (hm.null ▸ mem_of_getElem? (hlist hi))
    · rwa [show m'.blockPool.blockHash = _ from free_blockHash hfree] at hk
  · have hr : r' ≠ r := by
      rintro rfl
      simp at hr'
    rw [honly.blocks r' hr]
    exact h.holds (hm.maxModelLen ▸ hlen) r' (by simpa [Function.update_of_ne hr] using hr')

theorem OneFull.resetPrefixCache (hs : s.Sound) (h : OneFull H s gm) :
    OneFull H ⟨s.manager.resetPrefixCache.2, s.active⟩ gm := by
  obtain ⟨-, hshape, -⟩ := BlockPool.resetPrefixCache_spec hs.counted
  have hca : s.manager.resetPrefixCache.2.enableCaching = s.manager.enableCaching := hshape.2.1
  refine ⟨h.groups, h.full, fun hc => ?_, h.holds⟩
  have hin := h.inPlace (hca ▸ hc)
  refine hin.congr hshape.2.2 (fun _ => rfl) fun hk => .inl (BlockPool.resetPrefixCache_blockHash hk)

structure OneFullRun (H : List τ → List η → Prop) (caching : Bool) (maxModelLen : Nat) (s : CacheState ι η) : Prop where
  sound : s.Sound
  tidy : s.Tidy
  one : ∃ gm, OneFull H s gm
  caching : s.manager.enableCaching = caching
  maxModelLen : s.manager.maxModelLen = maxModelLen

theorem OneFullRun.exec {caching : Bool} {maxModelLen : Nat} (hH : BlockHashes bs H)
    (h : OneFullRun H caching maxModelLen s) (hc : Brings H s c) (hexec : s.exec c = some s') :
    OneFullRun H caching maxModelLen s' := by
  have hp := hc.permits hH
  obtain ⟨gm, hone⟩ := h.one
  have hwin : ¬ s.Windowed := by
    rintro ⟨x, hx, hw⟩
    rw [hone.groups] at hx
    rw [mem_singleton.1 hx, hone.full] at hw
    cases hw
  obtain ⟨hca, hlen⟩ := exec_config h.sound hp hexec
  refine ⟨h.sound.exec hp hexec, h.tidy.exec h.sound hp (fun hw => absurd hw hwin) hexec, ?_,
    hca.trans h.caching, hlen.trans h.maxModelLen⟩
  rcases exec_cases h.sound hp hexec with ⟨q, _, _, _, _, _, res, hal⟩ | ⟨r, m', hfree, rfl⟩ | rfl
  · exact hone.allocates hH h.sound h.tidy.clear hal (hc.2 q hal.request)
  · exact hone.free h.sound hfree
  · exact ⟨gm, hone.resetPrefixCache h.sound⟩

theorem init_oneFullRun {maxModelLen numGpuBlocks : Nat}
    {caching eagle : Bool} {spec : GroupSpec} {m : KVCacheManager ι η} (hfull : spec.kind = .full)
    (hm : KVCacheManager.init maxModelLen numGpuBlocks caching eagle [spec] = some m) :
    OneFullRun H caching maxModelLen (init m) := by
  obtain ⟨hs, ht⟩ := init_sound hm
  obtain ⟨p, hp, hm⟩ := bind_eq_some_iff.1 hm
  obtain ⟨⟨null, queue⟩, -, hp⟩ := bind_eq_some_iff.1 hp
  cases hp
  split at hm
  · cases hm
  cases hm
  refine ⟨hs, ht, ⟨.init spec, rfl, hfull, fun _ => ⟨fun r hmem => ?_, fun hi => ?_, fun hi => ?_⟩,
    fun _ r hr => absurd rfl hr⟩, rfl, rfl⟩
  · cases hmem
  · cases hi
  · cases hi

/-- After any run the count is the length of the longest common prefix exactly if there is none, or
the prefix cache is on and no entry is empty. -/
theorem run_commonPrefix_iff {maxModelLen numGpuBlocks : Nat}
    {caching eagle : Bool} {spec : GroupSpec} {m : KVCacheManager ι η}
    (hH : BlockHashes spec.blockSize H) (hfull : spec.kind = .full) (hlen : 0 < maxModelLen)
    (hm : KVCacheManager.init maxModelLen numGpuBlocks caching eagle [spec] = some m)
    {cs : List (Call ι η)} (hcs : Follows (Brings H) (init m) cs)
    (h : (init m).run cs = some s) {r : ι} (hr : s.active r ≠ none) :
    ∃ gm n, s.manager.groups = [gm] ∧ (s.manager.getNumCommonPrefixBlocks r).1 = [n] ∧
      (IsGreatest {n | gm.Shared n} n ↔ IsGreatest {n | gm.Shared n} 0 ∨ caching = true ∧ gm.Occupied) := by
  obtain ⟨hs, -, ⟨gm, hone⟩, hca, hmax⟩ :=
    hcs.run_induction (fun s c s' hs hc h => OneFullRun.exec hH hs hc h) (init_oneFullRun hfull hm) h
  have hne := hone.holds (hmax ▸ hlen) r hr
  have hp := hone.occ hs.counted
  have honce : ∀ r, gm.Once s.manager.blockPool.nullBlock r :=
    fun r => hs.once r gm (by rw [hone.groups]; exact mem_singleton.2 rfl)
  have haccess : gm.access r = gm := by
    rcases gm.access_eq r with heq | ⟨-, hnil⟩
    · exact heq
    · exact absurd hnil hne
  cases caching with
  | false =>
    refine ⟨gm, 0, hone.groups, ?_, by simp⟩
    rw [getNumCommonPrefixBlocks, if_neg (by rw [hca]; decide), hone.groups]
    rfl
  | true =>
    have hin := hone.inPlace hca
    refine ⟨gm, ((gm.blocksOf r).takeWhile fun b => s.manager.blockPool.refCnt b = gm.reqToBlocks.len).length,
      hone.groups, ?_, fun hmax => ?_, fun hor => ?_⟩
    · rw [getNumCommonPrefixBlocks, if_pos hca, hone.groups, map_singleton,
        GroupManager.getNumCommonPrefixBlocks, hone.full]
      simp [haccess]
    · by_cases hocc : gm.Occupied
      · exact .inr ⟨rfl, hocc⟩
      · rw [hin.takeWhile_eq_nil hp honce hocc] at hmax
        exact .inl hmax
    · by_cases hocc : gm.Occupied
      · exact hin.isGreatest_takeWhile hp honce hne hocc
      · rw [hin.takeWhile_eq_nil hp honce hocc]
        exact hor.resolve_right fun hboth => hocc hboth.2

def threeTokens (r : Nat) : Request Nat (List Nat) := ⟨r, 0, 3, prefixHashes 2 [5, 5, 7], false⟩

def threeBlocks : KVCacheManager Nat (List Nat) := (KVCacheManager.init 16 4 true false [tinySpec]).get rfl

theorem threeBlocks_eq : KVCacheManager.init 16 4 true false [tinySpec] = some threeBlocks := rfl

/-- The second request hits the first block of the first one. -/
def sharingCalls : List (Call Nat (List Nat)) := [.start (threeTokens 0) 3 0 0, .start (threeTokens 1) 1 0 0]

theorem threeTokens_brought {s : CacheState Nat (List Nat)} {r n : Nat} (h : s.active r = none) :
    Brings (fun ts hs => hs = prefixHashes 2 ts) s (.start (threeTokens r) n 0 0) := by
  refine ⟨⟨h, rfl⟩, fun q hq => ?_⟩
  cases hq
  exact ⟨[5, 5, 7], rfl, rfl⟩

theorem sharingCalls_commonPrefix : ∃ s gm, (init threeBlocks).run sharingCalls = some s ∧ s.manager.groups = [gm] ∧
    gm.Occupied ∧ (s.manager.getNumCommonPrefixBlocks 0).1 = [1] ∧ IsGreatest {n | gm.Shared n} 1 := by
  obtain ⟨s, hs⟩ := isSome_iff_exists.1 (show ((init threeBlocks).run sharingCalls).isSome from rfl)
  have hcs : Follows (Brings fun ts hs => hs = prefixHashes 2 ts) (init threeBlocks) sharingCalls := by
    refine ⟨threeTokens_brought rfl, fun s' hs' => ⟨threeTokens_brought ?_, fun _ _ => trivial⟩⟩
    cases hs'
    rfl
  cases some.inj hs
  obtain ⟨gm, n, hgm, hn, hiff⟩ :=
    run_commonPrefix_iff (prefixHashes_blockHashes Nat.zero_lt_two) rfl (Nat.succ_pos 15) threeBlocks_eq hcs hs
    (r := 0) nofun
  obtain rfl : 1 = n := singleton_injective hn
  have hocc : gm.Occupied := fun r bs hbs => by
    have hmem := Dict.get?_eq_some.1 hbs
    rw [← head_eq_of_cons_eq hgm] at hmem
    rcases mem_pair.1 hmem with h | h <;> cases h <;> nofun
  exact ⟨_, gm, hs, hgm, hocc, hn, hiff.2 (.inr ⟨rfl, hocc⟩)⟩

/-- Looking for slots for a third request, in vain, leaves an empty entry, and the block of the other two does not count
as common any more. -/
theorem sharingCalls_not_commonPrefix :
    ∃ s gm, (init threeBlocks).run (sharingCalls ++ [.start (threeTokens 2) 1 0 0]) = some s ∧
    s.active 0 ≠ none ∧ s.manager.groups = [gm] ∧ (s.manager.getNumCommonPrefixBlocks 0).1 = [0] ∧ gm.Shared 1 := by
  obtain ⟨s, hs⟩ := isSome_iff_exists.1
    (show ((init threeBlocks).run (sharingCalls ++ [.start (threeTokens 2) 1 0 0])).isSome from rfl)
  cases some.inj hs
  refine ⟨_, _, hs, nofun, rfl, rfl, [1], rfl, fun r hr => ?_⟩
  rcases r with - | - | - | r
  · exact prefix_append [1] [2]
  · exact prefix_append [1] [3]
  · exact absurd rfl hr
  · exact absurd rfl hr

end CacheState

end Xmix.Kv
