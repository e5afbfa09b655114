import Xmix.Kv.Admission

/-!
# A request alone

In a pool of full attention blocks a request alone is never refused if there is one block more than
the request has, since one block is the null block; with fewer blocks the first call is refused.
When no request is left, every block is free.
-/

namespace Xmix.Kv

open BlockPool List Option

theorem BlockPool.Inv.free_ge {η : Type} [DecidableEq η] {p : BlockPool η} {occ : Nat → Nat}
    (h : p.Inv occ) {used : List Nat} (hused : ∀ b, b ≠ p.nullBlock → 0 < occ b → b ∈ used) :
    (p.numGpuBlocks : Int) ≤ p.getNumFreeBlocks + 1 + used.length := by
  obtain ⟨free, hlists, hfree⟩ := h.queue
  have hsub : range p.numGpuBlocks ⊆ p.nullBlock :: (free ++ used) := fun b hb => by
    by_cases hnull : b = p.nullBlock
    · exact hnull ▸ mem_cons_self
    · refine mem_cons_of_mem _ (mem_append.2 ?_)
      rcases Nat.eq_zero_or_pos (occ b) with hz | hpos
      · exact .inl ((hfree b).2 ⟨mem_range.1 hb, hnull, by rw [h.refs b hnull, hz]; rfl⟩)
      · exact .inr (hused b hnull hpos)
  have hlen := (nodup_range.subperm hsub).length_le
  rw [length_range, length_cons, length_append] at hlen
  rw [getNumFreeBlocks, hlists.count]
  omega

variable {ι η : Type} [DecidableEq ι] [DecidableEq η]

theorem GroupManager.exists_of_occ_pos {gm : GroupManager ι} {b : Nat} (h : 0 < gm.occ b) : ∃ r, b ∈ gm.blocksOf r := by
  rw [GroupManager.occ, Dict.total] at h
  obtain ⟨n, hn, hpos⟩ := List.sum_pos_iff_exists_pos_nat.1 h
  obtain ⟨e, he, rfl⟩ := List.mem_map.1 hn
  refine ⟨e.1, ?_⟩
  have hget : gm.reqToBlocks.get? e.1 = some e.2 := Dict.get?_eq_some.2 he
  rw [GroupManager.blocksOf, hget]
  exact List.count_pos_iff.1 hpos

namespace CacheState

open KVCacheManager

structure Setup (maxModelLen numGpuBlocks : Nat) (specs : List GroupSpec) (s : CacheState ι η) : Prop where
  maxModelLen : s.manager.maxModelLen = maxModelLen
  numGpuBlocks : s.manager.blockPool.numGpuBlocks = numGpuBlocks
  specs : s.manager.groups.map (·.spec) = specs

def Refused (s : CacheState ι η) (c : Call ι η) : Prop :=
  ∃ x m', s.slotArgs c = some x ∧
    s.manager.allocateSlots x.q x.numNew x.hit (some x.computed) x.lookahead false x.encoder = some (m', none)

def Call.request : Call ι η → Option ι
  | .start q _ _ _ | .extend q _ _ => some q.requestId
  | .free r => some r
  | .resetPrefixCache => none

variable {s s' : CacheState ι η} {L N : Nat} {specs : List GroupSpec}

omit [DecidableEq ι] in
theorem Setup.moves {P : Prop} {R : Nat → GroupManager ι → GroupManager ι → Prop}
    {m' : KVCacheManager ι η} {a : ι → Option Active} (hs : s.Setup L N specs)
    (hm : Moves P R s.manager m') (hR : ∀ g gm gm', R g gm gm' → gm'.spec = gm.spec) :
    Setup L N specs ⟨m', a⟩ :=
  ⟨hm.maxModelLen.trans hs.maxModelLen, hm.pool.1.1.trans hs.numGpuBlocks, (hm.map_eq hR).trans hs.specs⟩

theorem Setup.served (hs : s.Setup L N specs) (hsound : s.Sound) {q : Request ι η} {numNew hit lookahead encoder : Nat}
    {computed : Option (List (List Nat))} (hc : s.manager.Computed (computed.getD s.manager.emptyBlocks)) {a : Active}
    {res : KVCacheManager ι η × Option (List (List Nat))}
    (h : s.manager.allocateSlots q numNew hit computed lookahead false encoder = some res) :
    (s.served q.requestId a res).Setup L N specs := by
  obtain ⟨m', new⟩ := res
  have hm := allocateSlots_moves (N := False) hsound.counted (hsound.once _) hc (fun hF => hF.elim) h
  cases new <;> exact hs.moves hm fun _ _ _ hR => hR.only.spec

theorem Setup.exec {c : Call ι η} (hsound : s.Sound)
    (hs : s.Setup L N specs) (hc : s.Permits c) (h : s.exec c = some s') :
    s'.Setup L N specs := by
  rcases exec_cases hsound hc h with ⟨q, _, _, _, _, _, res, hal⟩ | ⟨r, m', hfree, rfl⟩ | rfl
  · obtain ⟨a, rfl⟩ := hal.served
    exact hs.served hsound hal.valid hal.slots
  · exact hs.moves (free_moves (N := False) hsound.counted (hsound.once r) hfree) fun _ _ _ hR => hR.1.spec
  · obtain ⟨-, hshape, -⟩ := resetPrefixCache_spec hsound.counted
    exact ⟨hs.maxModelLen, hshape.1.trans hs.numGpuBlocks, hs.specs⟩

theorem not_refused_of_alone {c : Call ι η} {r : ι} {bs : Nat} {hbs : 0 < bs} (hsound : s.Sound)
    (hs : s.Setup L N [⟨.full, bs, hbs, trivial⟩]) (hN : cdiv L bs < N) (halone : ∀ r', r' ≠ r → s.active r' = none)
    (hr : Call.request c = some r) : ¬ s.Refused c := by
  rintro ⟨x, m', hx, halloc⟩
  have hreq : x.q.requestId = r := by
    cases c with
    | start q numNew lookahead encoder =>
      obtain ⟨_, -, hx⟩ := bind_eq_some_iff.1 hx
      cases hx
      exact some.inj hr
    | extend q numNew lookahead =>
      cases hx
      exact some.inj hr
    | free r => cases hx
    | resetPrefixCache => cases hx
  obtain ⟨gm, hgroups, hspec⟩ : ∃ gm, s.manager.groups = [gm] ∧ gm.spec = ⟨.full, bs, hbs, trivial⟩ := by
    obtain ⟨gm, l, hl, hgm, hnil⟩ := map_eq_cons_iff.1 hs.specs
    rw [map_eq_nil_iff.1 hnil] at hl
    exact ⟨gm, hl, hgm⟩
  -- every block in use is in the list of the request
  have hused : ∀ b, b ≠ s.manager.blockPool.nullBlock → 0 < s.manager.occurrences b →
    b ∈ gm.blocksOf r := fun b _ hpos => by
    rw [occurrences, hgroups, map_singleton, sum_singleton] at hpos
    obtain ⟨r', hr'⟩ := GroupManager.exists_of_occ_pos hpos
    by_cases hne : r' = r
    · exact hne ▸ hr'
    · rw [(hsound.idle gm (by simp [hgroups]) r' (halone r' hne)).1] at hr'
      cases hr'
  have hfree := hsound.counted.free_ge hused
  rw [hs.numGpuBlocks] at hfree
  -- a group of full attention skips nothing, so the check sees the state itself
  rw [allocateSlots] at halloc
  split at halloc
  · cases halloc
  rw [removeSkippedBlocks_id (fun gm' hgm' => by
    rw [hgroups, mem_singleton] at hgm'
    rw [hgm', hspec]
    rfl)] at halloc
  simp only [bind_eq_bind, bind_some, hgroups] at halloc
  obtain ⟨needed, hneeded, halloc⟩ := bind_eq_some_iff.1 halloc
  split at halloc
  next hlt =>
    obtain ⟨comp, -, hneeded⟩ := bind_eq_some_iff.1 hneeded
    obtain ⟨rest, hrest, hneeded⟩ := bind_eq_some_iff.1 hneeded
    cases hrest
    cases hneeded
    have hfilter :=
      length_filter_le (fun b => decide (s.manager.blockPool.refCnt b = 0 ∧ b ≠ s.manager.blockPool.nullBlock)) comp
    have hreq' : cdiv (s.manager.tokensNeedSlot x.q x.numNew x.hit x.lookahead) bs ≤ cdiv L bs :=
      cdiv_mono (hs.maxModelLen ▸ Nat.min_le_right _ _)
    simp only [GroupManager.getNumBlocksToAllocate, GroupManager.slotTokens, tokensFor, hspec, hreq] at hlt
    omega
  next =>
    obtain ⟨_, -, halloc⟩ := bind_eq_some_iff.1 halloc
    cases halloc

theorem refused_of_fresh {m : KVCacheManager ι η} {caching eagle : Bool}
    {r : ι} {bs : Nat} {hbs : 0 < bs} {hashes : List η}
    (hm : KVCacheManager.init L N caching eagle [⟨.full, bs, hbs, trivial⟩] = some m)
    (hL : 0 < L) (hN : N ≤ cdiv L bs) :
    (init m).Refused (.start ⟨r, 0, L, hashes, false⟩ L 0 0) := by
  obtain ⟨p, hp, hm⟩ := bind_eq_some_iff.1 hm
  have hpos : 0 < N := by
    rcases Nat.eq_zero_or_pos N with rfl | h
    · cases hp
    · exact h
  obtain ⟨p', hp', -, -, -, hfree, -⟩ := init_spec (η := η) hpos caching
  cases hp.symm.trans hp'
  split at hm
  · cases hm
  cases hm
  refine ⟨⟨⟨r, 0, L, hashes, false⟩, L, 0, [[]], 0, 0⟩,
    ⟨L, eagle, p, [(GroupManager.init ⟨.full, bs, hbs, trivial⟩).access r]⟩, ?_, ?_⟩
  · have hrow : ∀ h : η, cachedRow p [0] h = none := fun h => by
      obtain ⟨x, -, hp⟩ := bind_eq_some_iff.1 hp
      cases hp
      rfl
    have hhits : fullHits p [0] hashes (L - 1) bs eagle = some [] := by
      have hfrom : hitsFrom p [0] hashes (min ((L - 1) / bs) hashes.length) 0 = some [] := by
        rcases hn : min ((L - 1) / bs) hashes.length with - | n
        · rfl
        · obtain ⟨h, hh⟩ : ∃ h, hashes[0]? = some h := ⟨_, getElem?_eq_getElem (by omega)⟩
          simp only [hitsFrom, hh, bind_eq_bind, bind_some, hrow h]
      rw [fullHits, hfrom]
      cases eagle <;> rfl
    simp only [slotArgs, init, getComputedBlocks, map_cons, map_nil, GroupManager.init, coordinatorHits,
      findHits, hhits, emptyBlocks]
    split
    · rfl
    · simp [columns]
  · rw [allocateSlots, if_neg (Nat.pos_iff_ne_zero.1 hL), init, map_singleton, removeSkippedBlocks_id (fun gm hgm => by
      rw [mem_singleton.1 hgm]
      rfl)]
    have hlt : p.getNumFreeBlocks < (cdiv (min L L) bs : Int) := by
      rw [hfree, Nat.min_self]
      omega
    have hneed : numBlocksToAllocate p r (min L L) 0 [[]] 0 [GroupManager.init ⟨.full, bs, hbs, trivial⟩] =
        some (cdiv (min L L) bs : Int) := by
      simp [numBlocksToAllocate, computedFor, GroupManager.getNumBlocksToAllocate, GroupManager.slotTokens, tokensFor,
        GroupManager.init, GroupManager.blocksOf]
    simp only [bind_eq_bind, bind_some, tokensNeedSlot, getD_some, Nat.zero_add, Nat.add_zero, hneed, if_pos hlt,
      map_cons, map_nil]

/-- When no request is left, every block is free again. -/
theorem run_idle_reset {caching eagle : Bool} {m : KVCacheManager ι η}
    (hm : KVCacheManager.init L N caching eagle specs = some m)
    {cs : List (Call ι η)} (hcs : Follows Permits (init m) cs) (h : (init m).run cs = some s)
    (hidle : ∀ r, s.active r = none) : s.manager.resetPrefixCache.1 = true := by
  have hs := hcs.run_induction (fun s c s' hs hc h => Sound.exec hs hc h) (init_sound hm).1 h
  have hocc : ∀ b, s.manager.occurrences b = 0 := fun b => by
    refine List.sum_eq_zero_iff_forall_eq_nat.2 fun x hx => ?_
    obtain ⟨gm, hgm, rfl⟩ := mem_map.1 hx
    by_contra hpos
    obtain ⟨r, hr⟩ := GroupManager.exists_of_occ_pos (Nat.pos_of_ne_zero hpos)
    rw [(hs.idle gm hgm r (hidle r)).1] at hr
    cases hr
  obtain ⟨free, hlists, hfree⟩ := hs.counted.queue
  have hge := @BlockPool.Inv.free_ge _ _ _ _ hs.counted [] fun b _ hpos => absurd (hocc b) (by omega)
  have hnd : (s.manager.blockPool.nullBlock :: free).Nodup :=
    nodup_cons.2 ⟨fun hmem => ((hfree _).1 hmem).2.1 rfl, hlists.spells.nodup⟩
  have hle :=
    (hnd.subperm (cons_subset.2 ⟨mem_range.2 hs.counted.null, fun b hb => mem_range.2 ((hfree b).1 hb).1⟩)).length_le
  rw [length_cons, length_range] at hle
  rw [BlockPool.getNumFreeBlocks, hlists.count, length_nil] at hge
  rw [KVCacheManager.resetPrefixCache, BlockPool.resetPrefixCache, BlockPool.getNumFreeBlocks,
    hlists.count, if_neg (by omega)]

theorem tinyCalls_reset : ∃ s, (init tinyManager).run (tinyCalls.take 1 ++ [.free 0]) = some s ∧
      s.manager.resetPrefixCache.1 = true := by
  have hcs : Follows Permits (init tinyManager) (tinyCalls.take 1 ++ [.free 0]) :=
    ⟨⟨rfl, rfl, nodup_singleton _⟩, fun _ _ => ⟨trivial, fun _ _ => trivial⟩⟩
  exact ⟨_, rfl, run_idle_reset tinyManager_eq hcs rfl fun r => by cases r <;> rfl⟩

/-- After every run, a request that is alone gets its blocks. -/
def NeverRefused (hash : HashInput → Bytes) (noneHash : Bytes) (bs : Nat) (m : KVCacheManager ι Bytes) : Prop :=
  ∀ cs s, Follows (IssuesAny hash noneHash bs) (init m) cs → (init m).run cs = some s →
    ∀ r c, (∀ r', r' ≠ r → s.active r' = none) → Call.request c = some r →
      IssuesAny hash noneHash bs s c → ¬ s.Refused c

theorem neverRefused_of_lt {hash : HashInput → Bytes} {noneHash : Bytes}
    (hH : HashFn hash noneHash) {m : KVCacheManager ι Bytes} {caching eagle : Bool} {bs : Nat}
    {hbs : 0 < bs} (hm : KVCacheManager.init L N caching eagle [⟨.full, bs, hbs, trivial⟩] = some m)
    (hN : cdiv L bs < N) : NeverRefused hash noneHash bs m := by
  intro cs s hcs hrun r c halone hr _
  have hstep : ∀ (s : CacheState ι Bytes) c s', (s.Sound ∧ s.Setup L N [⟨.full, bs, hbs, trivial⟩]) →
    IssuesAny hash noneHash bs s c →
      s.exec c = some s' → s'.Sound ∧ s'.Setup L N [⟨.full, bs, hbs, trivial⟩] := fun s c s' hs hc hexec =>
    ⟨hs.1.exec (hc.schedules hH).1 hexec, Setup.exec hs.1 hs.2 (hc.schedules hH).1 hexec⟩
  have hinit : (init m).Setup L N [⟨.full, bs, hbs, trivial⟩] := by
    obtain ⟨p, hp, hm⟩ := bind_eq_some_iff.1 hm
    obtain ⟨p', hp', -, hnum, -⟩ := init_spec (η := Bytes) (show 0 < N by omega) caching
    cases hp.symm.trans hp'
    split at hm
    · cases hm
    cases hm
    exact ⟨rfl, hnum, rfl⟩
  obtain ⟨hsound, hs⟩ := hcs.run_induction hstep ⟨(init_sound hm).1, hinit⟩ hrun
  exact not_refused_of_alone hsound hs hN halone hr

end CacheState

end Xmix.Kv
