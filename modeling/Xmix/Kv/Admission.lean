import Xmix.Kv.PoolRuns

/-!
# The admission check of `allocate_slots`

One number, summed over the groups, is compared with the free blocks, and then each group allocates
for itself. A group that has more blocks than it needs lowers the sum without lowering what the
others take. Except for cross-attention that never matters: the lists of a request cover one number
of tokens in every group (`Sized`), so that all groups have too many blocks or none has. A
cross-attention group is asked for no encoder tokens once the request runs, and its blocks count
against what the other groups need.
-/

namespace Xmix.Kv

open List Option

variable {ι η : Type} [DecidableEq ι] [DecidableEq η]

/-! ### Required blocks -/

theorem cdiv_mono {a a' b : Nat} (h : a ≤ a') : cdiv a b ≤ cdiv a' b := Nat.div_le_div_right (by omega)

theorem le_cdiv_of_mul_le {k a b : Nat} (hb : 0 < b) (h : k * b ≤ a) : k ≤ cdiv a b :=
  (Nat.le_div_iff_mul_le hb).2 (by omega)

namespace KVCacheManager

theorem requiredBlocks_mono (spec : GroupSpec) {n n' : Nat} (h : n ≤ n') (encoder : Nat) :
    requiredBlocks spec n encoder ≤ requiredBlocks spec n' encoder := by
  refine cdiv_mono ?_
  rcases hk : spec.kind with - | w | c | k | - <;> simp only [GroupManager.slotTokens, tokensFor, hk] <;> try exact h
  · split <;> omega
  · exact Nat.le_refl _

theorem requiredBlocks_max (spec : GroupSpec) (n n' encoder : Nat) :
    requiredBlocks spec (max n n') encoder = max (requiredBlocks spec n encoder) (requiredBlocks spec n' encoder) := by
  rcases Nat.le_total n n' with h | h
  · rw [Nat.max_eq_right h, Nat.max_eq_right (requiredBlocks_mono spec h encoder)]
  · rw [Nat.max_eq_left h, Nat.max_eq_left (requiredBlocks_mono spec h encoder)]

section
variable {spec : GroupSpec}

theorem requiredBlocks_encoder (h : spec.kind ≠ .crossAttention) (n e e' : Nat) :
    requiredBlocks spec n e = requiredBlocks spec n e' := by
  rcases hk : spec.kind with - | w | c | k | -
  case crossAttention => exact absurd hk h
  all_goals simp only [requiredBlocks, tokensFor, hk]

theorem requiredBlocks_cross (h : spec.kind = .crossAttention) (n n' e : Nat) :
    requiredBlocks spec n e = requiredBlocks spec n' e := by
  simp [requiredBlocks, tokensFor, h]

theorem requiredBlocks_cross_zero (h : spec.kind = .crossAttention) (n : Nat) :
    requiredBlocks spec n 0 = 0 := by
  have := spec.blockPos
  simp only [requiredBlocks, tokensFor, GroupManager.slotTokens, h, cdiv]
  exact Nat.div_eq_of_lt (by omega)

theorem le_requiredBlocks (h : spec.kind ≠ .crossAttention) {k n : Nat} (hn : k * spec.blockSize ≤ n)
    (encoder : Nat) : k ≤ requiredBlocks spec n encoder := by
  refine le_cdiv_of_mul_le spec.blockPos (Nat.le_trans hn ?_)
  rcases hk : spec.kind with - | w | c | k | - <;>
    simp only [GroupManager.slotTokens, tokensFor, hk] <;> try exact Nat.le_refl n
  · split <;> omega
  · exact absurd hk h

end

end KVCacheManager

namespace CacheState

open KVCacheManager

/-! ### The arguments of the call -/

structure SlotArgs (ι η : Type) where
  q : Request ι η
  numNew : Nat
  hit : Nat
  computed : List (List Nat)
  lookahead : Nat
  encoder : Nat

def slotArgs (s : CacheState ι η) : Call ι η → Option (SlotArgs ι η)
  | .start q numNew lookahead encoder => do
    let (blocks, hit) ← s.manager.getComputedBlocks q
    some ⟨q, numNew, hit, blocks, lookahead, encoder⟩
  | .extend q numNew lookahead => some ⟨q, numNew, 0, s.manager.emptyBlocks, lookahead, 0⟩
  | .free _ | .resetPrefixCache => none

def needSlot (s : CacheState ι η) (x : SlotArgs ι η) : Nat := s.manager.tokensNeedSlot x.q x.numNew x.hit x.lookahead

def encoderOf (s : CacheState ι η) (x : SlotArgs ι η) : Nat :=
  ((s.active x.q.requestId).map Active.encoder).getD x.encoder

structure Admitted (s : CacheState ι η) (x : SlotArgs ι η) (m₁ : KVCacheManager ι η) (needed : Int) : Prop where
  skipped : s.manager.removeSkippedBlocks x.q.requestId x.q.numComputedTokens = some m₁
  counted : numBlocksToAllocate m₁.blockPool x.q.requestId (s.needSlot x) x.encoder x.computed 0 m₁.groups = some needed
  enough : needed ≤ m₁.blockPool.getNumFreeBlocks

/-- Once the check admits a request, its blocks can be allocated. -/
def AdmissionSuffices (s : CacheState ι η) (c : Call ι η) : Prop :=
  ∀ x, s.slotArgs c = some x → ∀ m₁ needed, s.Admitted x m₁ needed →
    ∀ m₂, takeComputed { m₁ with groups := m₁.groups.map (·.access x.q.requestId) } x.q.requestId x.computed = some m₂ →
      ∃ new m₃, m₂.allocateNewBlocks x.q.requestId (s.needSlot x) x.encoder = some (new, m₃) ∧
        ∀ gm ∈ m₃.groups, requiredBlocks gm.spec (s.needSlot x) (s.encoderOf x) ≤ (gm.blocksOf x.q.requestId).length

def crossSurplus (r : ι) (n encoder : Nat) (gms : List (GroupManager ι)) : Nat :=
  (gms.map fun gm => if gm.spec.kind = .crossAttention then
    (gm.blocksOf r).length - requiredBlocks gm.spec n encoder else 0).sum

/-- The surplus of a cross-attention list makes up for blocks that are missing, and another list
must grow. -/
def Overcommits (s : CacheState ι η) (c : Call ι η) : Prop :=
  ∃ x m₁ needed, s.slotArgs c = some x ∧ s.Admitted x m₁ needed ∧
    m₁.blockPool.getNumFreeBlocks < needed + crossSurplus x.q.requestId (s.needSlot x) x.encoder m₁.groups ∧
    ∃ gm ∈ m₁.groups, gm.spec.kind ≠ .crossAttention ∧
      (gm.blocksOf x.q.requestId).length < requiredBlocks gm.spec (s.needSlot x) x.encoder

/-! ### The lists of a request cover one number of tokens -/

/-- A list of an active request covers its tokens, and only one of cross-attention is longer. -/
structure Sized (s : CacheState ι η) : Prop where
  self : ∀ gm ∈ s.manager.groups, gm.spec.kind ≠ .crossAttention → ∀ r a, s.active r = some a →
    (gm.blocksOf r).length = requiredBlocks gm.spec a.slots a.encoder
  cross : ∀ gm ∈ s.manager.groups, gm.spec.kind = .crossAttention → ∀ r a, s.active r = some a →
    requiredBlocks gm.spec a.slots a.encoder ≤ (gm.blocksOf r).length

variable {s s' : CacheState ι η} {q : Request ι η}

def Schedules (s : CacheState ι η) (c : Call ι η) : Prop :=
  s.Permits c ∧ match c with
    | .start q _ _ _ => q.numTokens ≤ s.manager.maxModelLen
    | _ => True

section

omit [DecidableEq ι] [DecidableEq η]

theorem hit_le_needSlot {numNew hit lookahead : Nat} {blocks : List (List Nat)}
    {m : KVCacheManager ι η} (hh : Hits m q blocks hit) (hlen : q.numTokens ≤ m.maxModelLen) :
    hit ≤ m.tokensNeedSlot q numNew hit lookahead := by
  have := hh.le
  simp only [tokensNeedSlot]
  omega

theorem emptyBlocks_getElem? {m : KVCacheManager ι η}
    {g : Nat} {bs : List Nat} (h : m.emptyBlocks[g]? = some bs) : bs = [] := by
  obtain ⟨_, -, rfl⟩ := mem_map.1 (mem_of_getElem? h)
  rfl

end

theorem Sized.served (hz : s.Sized) {numNew hit lookahead encoder : Nat}
    {computed : Option (List (List Nat))} {a : Active}
    {res : KVCacheManager ι η × Option (List (List Nat))}
    (hs : s.Sound) (hc : s.manager.Computed (computed.getD s.manager.emptyBlocks))
    (h : s.manager.allocateSlots q numNew hit computed lookahead false encoder = some res)
    (hself : ∀ gm ∈ s.manager.groups, gm.spec.kind ≠ .crossAttention → ∀ comp : List Nat, (∃ g : Nat,
      s.manager.groups[g]? = some gm ∧ (computed.getD s.manager.emptyBlocks)[g]? = some comp) →
      max ((gm.blocksOf q.requestId).length + comp.length)
      (requiredBlocks gm.spec (s.manager.tokensNeedSlot q numNew hit lookahead) encoder) =
      requiredBlocks gm.spec a.slots a.encoder)
    (hcross : ∀ gm ∈ s.manager.groups, gm.spec.kind = .crossAttention →
      requiredBlocks gm.spec a.slots a.encoder ≤ max (gm.blocksOf q.requestId).length
      (requiredBlocks gm.spec (s.manager.tokensNeedSlot q numNew hit lookahead) encoder)) :
    (s.served q.requestId a res).Sized := by
  obtain ⟨m', new⟩ := res
  have hm := allocateSlots_moves (N := False) hs.counted (hs.once _) hc (fun hf => hf.elim) h
  constructor
  all_goals
    rw [served_manager]
    intro gm' hgm' hk r b hb
    obtain ⟨g, gm, hg, -, hR⟩ := hm.of_mem hgm'
    have hgm := mem_of_getElem? hg
    rw [hR.only.spec] at hk ⊢
    by_cases hr : r = q.requestId
  · subst hr
    obtain ⟨rfl, hl⟩ | ⟨_, comp, rfl, hcomp, hl⟩ := hR.length_blocksOf
    · rw [hl]
      exact hz.self gm hgm hk _ b hb
    · obtain rfl : a = b := by simpa [CacheState.served] using hb
      rw [hl]
      exact hself gm hgm hk comp ⟨g, hg, hcomp⟩
  · rw [served_active hr] at hb
    rw [hR.only.blocks r hr]
    exact hz.self gm hgm hk r b hb
  · subst hr
    obtain ⟨rfl, hl⟩ | ⟨_, comp, rfl, -, hl⟩ := hR.length_blocksOf
    · rw [hl]
      exact hz.cross gm hgm hk _ b hb
    · obtain rfl : a = b := by simpa [CacheState.served] using hb
      have := hcross gm hgm hk
      omega
  · rw [served_active hr] at hb
    rw [hR.only.blocks r hr]
    exact hz.cross gm hgm hk r b hb

variable {c : Call ι η}

theorem Sized.exec (hs : s.Sound) (hz : s.Sized) (hc : s.Schedules c) (h : s.exec c = some s') : s'.Sized := by
  cases c with
  | start q numNew lookahead encoder =>
    obtain ⟨⟨blocks, hit⟩, hget, h⟩ := bind_eq_some_iff.1 h
    obtain ⟨res, halloc, h⟩ := bind_eq_some_iff.1 h
    cases h
    obtain ⟨⟨hidle, -, hnd⟩, hmax⟩ := hc
    have hh := getComputedBlocks_hits hs.counted hnd hget
    refine Sized.served hz hs (show s.manager.Computed ((some blocks).getD _) from hh.computed) halloc
      ?_ fun gm _ _ => Nat.le_max_right _ _
    intro gm hgm hk comp hcomp
    obtain ⟨g, hg, hcomp⟩ := hcomp
    rw [(hs.idle gm hgm _ hidle).1, length_nil, Nat.zero_add]
    refine Nat.max_eq_right (le_requiredBlocks hk ?_ encoder)
    rw [hh.tokens g gm comp hg hcomp]
    exact hit_le_needSlot hh hmax
  | extend q numNew lookahead =>
    obtain ⟨res, halloc, h⟩ := bind_eq_some_iff.1 h
    cases h
    obtain ⟨⟨a, ha, -⟩, -⟩ := hc
    refine Sized.served hz hs (show s.manager.Computed ((none : Option _).getD _) from emptyBlocks_computed _)
      halloc ?_ ?_
    · intro gm hgm hk comp hcomp
      obtain ⟨g, hg, hcomp⟩ := hcomp
      obtain rfl := emptyBlocks_getElem? hcomp
      rw [length_nil, Nat.add_zero, hz.self gm hgm hk _ a ha, requiredBlocks_max]
      simp only [ha, getD_some]
      rw [requiredBlocks_encoder hk _ 0 a.encoder]
    · intro gm hgm hk
      have := hz.cross gm hgm hk _ a ha
      simp only [ha, getD_some]
      rw [requiredBlocks_cross hk _ a.slots]
      omega
  | free r =>
    obtain ⟨m', hfree, h⟩ := bind_eq_some_iff.1 h
    cases h
    have hm := free_moves (N := False) hs.counted (hs.once r) hfree
    refine ⟨fun gm' hgm' hk r' a ha => ?_, fun gm' hgm' hk r' a ha => ?_⟩
    all_goals
      obtain ⟨g, gm, hg, -, honly, -⟩ := hm.of_mem hgm'
      have hr : r' ≠ r := by
        rintro rfl
        simp at ha
      have ha' : s.active r' = some a := by simpa [Function.update_of_ne hr] using ha
      rw [honly.spec] at hk ⊢
      rw [honly.blocks r' hr]
    · exact hz.self gm (mem_of_getElem? hg) hk r' a ha'
    · exact hz.cross gm (mem_of_getElem? hg) hk r' a ha'
  | resetPrefixCache =>
    cases h
    exact ⟨hz.self, hz.cross⟩

/-! ### Counting -/

section Counting
variable {r : ι} {n encoder : Nat}

def need (r : ι) (n encoder : Nat) (gm : GroupManager ι) : Int :=
  requiredBlocks gm.spec n encoder - (gm.blocksOf r).length

omit [DecidableEq η] in
theorem numBlocksToAllocate_eq {p : BlockPool η} {newComputed : List (List Nat)}
    {g : Nat} {ms ms₂ : List (GroupManager ι)} (hlen : ms₂.length = ms.length)
    (hcomp : newComputed.length = ms.length + g) (hsaved : ∀ i gm, ms[i]? = some gm → ∃ gm₂,
      ms₂[i]? = some gm₂ ∧ ∃ new, newComputed[g + i]? = some new ∧ GroupManager.Saved r new gm gm₂) :
    numBlocksToAllocate p r n encoder newComputed g ms =
      some ((ms₂.map (need r n encoder)).sum + numEvictable p (newComputed.drop g)) := by
  induction ms generalizing g ms₂ with
  | nil =>
    obtain rfl := length_eq_zero_iff.1 hlen
    rw [drop_of_length_le (by simp at hcomp; omega)]
    simp [numBlocksToAllocate, numEvictable]
  | cons gm ms ih =>
    rcases ms₂ with - | ⟨gm₂, ms₂⟩
    · cases hlen
    have hg : g < newComputed.length := by simp at hcomp; omega
    obtain ⟨gm₂', h₂, new, hnew, hsv⟩ := hsaved 0 gm rfl
    obtain rfl : gm₂ = gm₂' := by simpa using h₂
    rw [Nat.add_zero] at hnew
    have hrest := @ih (g + 1) ms₂ (by simpa using hlen) (by simp at hcomp; omega) fun i x hx => by
      have := hsaved (i + 1) x (by simpa using hx)
      rw [show g + (i + 1) = g + 1 + i by omega] at this
      simpa using this
    have hfor : computedFor gm.spec newComputed g = some new := by
      rcases hk : gm.spec.kind with - | w | c | k | -
      case crossAttention => rw [computedFor, hk, hsv.cross hk]
      all_goals rw [computedFor, hk, hnew]
    have hdrop : newComputed.drop g = new :: newComputed.drop (g + 1) := by
      rw [drop_eq_getElem_cons hg]
      rw [getElem?_eq_getElem hg] at hnew
      rw [some.inj hnew]
    simp only [numBlocksToAllocate, hfor, hrest, bind_eq_bind, bind_some, hdrop, numEvictable, flatten_cons,
      filter_append, length_append, map_cons, sum_cons, GroupManager.getNumBlocksToAllocate, need,
      requiredBlocks, hsv.spec, hsv.list, some.injEq, Int.natCast_add]
    omega

theorem sum_demand_eq {ms : List (GroupManager ι)}
    (h : ∀ gm ∈ ms, gm.spec.kind ≠ .crossAttention → (gm.blocksOf r).length ≤ requiredBlocks gm.spec n encoder) :
    ((ms.map (demand r n encoder)).sum : Int) = (ms.map (need r n encoder)).sum + crossSurplus r n encoder ms := by
  induction ms with
  | nil => rfl
  | cons gm ms ih =>
    have hrest := ih fun x hx => h x (by simp [hx])
    have hgm := h gm (by simp)
    simp only [crossSurplus] at hrest
    simp only [map_cons, sum_cons, crossSurplus, Int.natCast_add]
    rw [hrest]
    by_cases hk : gm.spec.kind = .crossAttention
    · rw [if_pos hk]
      simp only [demand, need]
      omega
    · have := hgm hk
      rw [if_neg hk]
      simp only [demand, need]
      omega

theorem sum_demand_eq_zero {ms : List (GroupManager ι)}
    (h : ∀ gm ∈ ms, requiredBlocks gm.spec n encoder ≤ (gm.blocksOf r).length) :
    (ms.map (demand r n encoder)).sum = 0 := by
  induction ms with
  | nil => rfl
  | cons gm ms ih =>
    have := h gm (by simp)
    rw [map_cons, sum_cons, ih fun x hx => h x (by simp [hx]), demand]
    omega

end Counting

/-! ### The check and the allocation -/

inductive ArgsOk (s : CacheState ι η) (x : SlotArgs ι η) : Prop
  | start (idle : s.active x.q.requestId = none) (hits : Hits s.manager x.q x.computed x.hit)
      (le : x.q.numTokens ≤ s.manager.maxModelLen)
  | extend (a : Active) (active : s.active x.q.requestId = some a) (computed : x.computed = s.manager.emptyBlocks)
      (encoder : x.encoder = 0)

variable {x : SlotArgs ι η} {m₁ m₂ : KVCacheManager ι η} {needed : Int}

theorem Schedules.argsOk (hs : s.Sound) (hc : s.Schedules c) (hx : s.slotArgs c = some x) : s.ArgsOk x := by
  cases c with
  | start q numNew lookahead encoder =>
    obtain ⟨⟨blocks, hit⟩, hget, hx⟩ := bind_eq_some_iff.1 hx
    cases hx
    exact .start hc.1.1 (getComputedBlocks_hits hs.counted hc.1.2.2 hget) hc.2
  | extend q numNew lookahead =>
    cases hx
    obtain ⟨a, ha, -⟩ := hc.1
    exact .extend a ha rfl rfl
  | free r => cases hx
  | resetPrefixCache => cases hx

omit [DecidableEq ι] [DecidableEq η] in
theorem ArgsOk.computed (h : s.ArgsOk x) : s.manager.Computed x.computed := by
  rcases h with ⟨-, hits, -⟩ | ⟨a, -, hcomp, -⟩
  · exact hits.computed
  · rw [hcomp]
    exact emptyBlocks_computed _

structure Ready (s : CacheState ι η) (x : SlotArgs ι η) (gm gm₂ : GroupManager ι) (comp : List Nat) : Prop where
  spec : gm₂.spec = gm.spec
  length : (gm₂.blocksOf x.q.requestId).length = (gm.blocksOf x.q.requestId).length + comp.length
  cross : gm.spec.kind = .crossAttention → comp = []

def Taken (s : CacheState ι η) (x : SlotArgs ι η) (m₂ : KVCacheManager ι η) : Prop :=
  Moves False (fun g gm gm₂ => ∃ comp, x.computed[g]? = some comp ∧ s.Ready x gm gm₂ comp) s.manager m₂

def Skipped (s : CacheState ι η) (x : SlotArgs ι η) (m₁ : KVCacheManager ι η) : Prop :=
  Moves False (fun _ => s.manager.Skipped x.q.requestId x.q.numComputedTokens) s.manager m₁

/-- A group other than cross-attention has fewer blocks than the call asks for. -/
def Short (s : CacheState ι η) (x : SlotArgs ι η) (m₁ : KVCacheManager ι η) : Prop :=
  ∃ gm ∈ m₁.groups, gm.spec.kind ≠ .crossAttention ∧
    (gm.blocksOf x.q.requestId).length < requiredBlocks gm.spec (s.needSlot x) x.encoder

theorem ready_spec (hs : s.Sound) (hx : s.ArgsOk x) (hadm : s.Admitted x m₁ needed)
    (htake : takeComputed { m₁ with groups := m₁.groups.map (·.access x.q.requestId) }
      x.q.requestId x.computed = some m₂) :
    s.Taken x m₂ ∧ crossSurplus x.q.requestId (s.needSlot x) x.encoder m₂.groups =
      crossSurplus x.q.requestId (s.needSlot x) x.encoder m₁.groups ∧
    (m₁.blockPool.getNumFreeBlocks - m₂.blockPool.getNumFreeBlocks : Int) =
      needed - (m₂.groups.map (need x.q.requestId (s.needSlot x) x.encoder)).sum := by
  have h₁ := removeSkippedBlocks_moves (N := False) hs.counted (hs.once _) hadm.skipped
  have hacc := access_moves (N := False) (r := x.q.requestId) h₁.counted
  obtain ⟨h₂, hfree⟩ := takeComputed_moves (N := False) hacc.counted ((hx.computed.moves h₁).moves hacc) htake
  have h₁₂ : Moves False (fun g gm gm₂ => ∃ new, x.computed[g]? = some new ∧
    GroupManager.Saved x.q.requestId new gm gm₂) m₁ m₂ :=
    (hacc.trans h₂).mono fun g gm gm₂ _ hR => by
      obtain ⟨_, rfl, new, hnew, hsaved⟩ := hR
      exact ⟨new, hnew, hsaved.of_access⟩
  refine ⟨(h₁.trans h₁₂).mono fun g gm gm₂ _ hR => ?_, ?_, ?_⟩
  · obtain ⟨gm₁, hskip, new, hnew, hsaved⟩ := hR
    refine ⟨new, hnew, hsaved.spec.trans hskip.spec, ?_, fun hk => hsaved.cross (hskip.spec ▸ hk)⟩
    rw [hsaved.list, length_append, hskip.length]
  · refine congrArg sum (h₁₂.map_eq fun g gm gm₂ hR => ?_)
    obtain ⟨new, -, hsaved⟩ := hR
    rw [hsaved.spec]
    by_cases hk : gm.spec.kind = .crossAttention
    · rw [if_pos hk, if_pos hk, hsaved.list, hsaved.cross hk, append_nil]
    · rw [if_neg hk, if_neg hk]
  · have hcount :=
      @numBlocksToAllocate_eq ι η _ x.q.requestId (s.needSlot x) x.encoder m₁.blockPool x.computed 0 _ _ h₁₂.length
      (by rw [Nat.add_zero]; exact (hx.computed.moves h₁).length) (fun i gm hi => by
        rw [Nat.zero_add]
        exact h₁₂.each i gm hi)
    have heq := some.inj (hadm.counted.symm.trans hcount)
    rw [drop_zero] at heq
    have hfree' : m₂.blockPool.getNumFreeBlocks =
      m₁.blockPool.getNumFreeBlocks - numEvictable m₁.blockPool x.computed := hfree
    rw [heq, hfree']
    omega

theorem crossSurplus_start (hs : s.Sound) (hidle : s.active x.q.requestId = none) {n : Nat} (h₁ : s.Skipped x m₁) :
    crossSurplus x.q.requestId n x.encoder m₁.groups = 0 := by
  refine (congrArg sum (map_congr_left (g := fun _ => 0) fun gm₁ hgm₁ => ?_)).trans (by simp)
  obtain ⟨g, gm, hg, -, hskip⟩ := h₁.of_mem hgm₁
  have := hskip.length
  rw [(hs.idle gm (mem_of_getElem? hg) _ hidle).1, length_nil] at this
  rw [this, Nat.zero_sub, ite_self]

theorem Taken.sign (hs : s.Sound) (hz : s.Sized) (hx : s.ArgsOk x) (hm : s.Taken x m₂) (h₁ : s.Skipped x m₁) :
    ((∀ gm ∈ m₂.groups, gm.spec.kind ≠ .crossAttention →
        (gm.blocksOf x.q.requestId).length ≤ requiredBlocks gm.spec (s.needSlot x) x.encoder) ∧
      (s.Short x m₁ ∨ crossSurplus x.q.requestId (s.needSlot x) x.encoder m₁.groups = 0)) ∨
    ((∀ gm ∈ m₂.groups, requiredBlocks gm.spec (s.needSlot x) x.encoder ≤ (gm.blocksOf x.q.requestId).length) ∧
      ¬ s.Short x m₁) := by
  rcases hx with ⟨hidle, hits, hle⟩ | ⟨a, ha, hcomp, henc⟩
  · -- a request that starts has no blocks in any group
    refine .inl ⟨fun gm₂ hgm₂ hk => ?_, .inr (crossSurplus_start hs hidle h₁)⟩
    obtain ⟨g, gm, hg, -, comp, hc, hr⟩ := hm.of_mem hgm₂
    rw [hr.length, hr.spec, (hs.idle gm (mem_of_getElem? hg) _ hidle).1, length_nil, Nat.zero_add]
    refine le_requiredBlocks (hr.spec ▸ hk) ?_ _
    rw [hits.tokens g gm comp hg hc]
    exact hit_le_needSlot hits hle
  · have hlen₂ : ∀ gm₂ ∈ m₂.groups, ∃ gm ∈ s.manager.groups, gm₂.spec = gm.spec ∧
        (gm₂.blocksOf x.q.requestId).length = (gm.blocksOf x.q.requestId).length := fun gm₂ hgm₂ => by
      obtain ⟨g, gm, hg, -, comp, hc, hr⟩ := hm.of_mem hgm₂
      rw [hcomp] at hc
      rw [hr.length, emptyBlocks_getElem? hc]
      exact ⟨gm, mem_of_getElem? hg, hr.spec, rfl⟩
    by_cases hneeds : s.Short x m₁
    · -- one group needs more than it has, so more tokens than ever need slots
      refine .inl ⟨fun gm₂ hgm₂ hk => ?_, .inl hneeds⟩
      obtain ⟨gm₁, hgm₁, hk₁, hlt⟩ := hneeds
      obtain ⟨g, gm, hg, -, hskip⟩ := h₁.of_mem hgm₁
      rw [hskip.spec] at hk₁ hlt
      rw [hskip.length, hz.self gm (mem_of_getElem? hg) hk₁ _ a ha, requiredBlocks_encoder hk₁ _ _ x.encoder] at hlt
      have hslots : a.slots ≤ s.needSlot x := by
        by_contra hgt
        have := requiredBlocks_mono gm.spec (Nat.le_of_not_le hgt) x.encoder
        omega
      obtain ⟨gm', hgm', hspec, hl⟩ := hlen₂ gm₂ hgm₂
      rw [hspec] at hk ⊢
      rw [hl, hz.self gm' hgm' hk _ a ha, requiredBlocks_encoder hk _ _ x.encoder]
      exact requiredBlocks_mono _ hslots _
    · refine .inr ⟨fun gm₂ hgm₂ => ?_, hneeds⟩
      obtain ⟨g, gm, hg, -, comp, hc, hr⟩ := hm.of_mem hgm₂
      rw [hr.spec, hr.length]
      by_cases hk : gm.spec.kind = .crossAttention
      · rw [henc, requiredBlocks_cross_zero hk]
        omega
      · obtain ⟨gm₁, hgm₁, hskip⟩ := h₁.each g gm hg
        have hnot : ¬ (gm₁.blocksOf x.q.requestId).length <
          requiredBlocks gm₁.spec (s.needSlot x) x.encoder := fun hlt =>
          hneeds ⟨gm₁, mem_of_getElem? hgm₁, hskip.spec.symm ▸ hk, hlt⟩
        rw [hskip.length, hskip.spec] at hnot
        omega

theorem Taken.enough {m₃ : KVCacheManager ι η} {new : List (List Nat)}
    (hz : s.Sized) (hx : s.ArgsOk x) (hm : s.Taken x m₂)
    (h : m₂.allocateNewBlocks x.q.requestId (s.needSlot x) x.encoder = some (new, m₃))
    {gm : GroupManager ι} (hgm : gm ∈ m₃.groups) :
    requiredBlocks gm.spec (s.needSlot x) (s.encoderOf x) ≤ (gm.blocksOf x.q.requestId).length := by
  obtain ⟨g, gm₀, hg, -, gm₂, ⟨comp, -, hr⟩, bs, -, hgrown⟩ :=
    (hm.trans (allocateNewBlocks_moves (N := False) hm.counted h)).of_mem hgm
  rw [hgrown.length_blocksOf, hgrown.spec, hr.length]
  by_cases hk : gm₂.spec.kind = .crossAttention
  · have hk₀ : gm₀.spec.kind = .crossAttention := hr.spec ▸ hk
    rcases hx with ⟨hidle, -, -⟩ | ⟨a, ha, -, -⟩
    · simp only [encoderOf, hidle, map_none, getD_none]
      exact Nat.le_max_right _ _
    · have := hz.cross gm₀ (mem_of_getElem? hg) hk₀ _ a ha
      simp only [encoderOf, ha, map_some, getD_some]
      rw [requiredBlocks_cross hk _ a.slots, hr.spec]
      omega
  · rw [requiredBlocks_encoder hk _ _ x.encoder]
    exact Nat.le_max_right _ _

theorem Admitted.skips (hadm : s.Admitted x m₁ needed) (hs : s.Sound) : s.Skipped x m₁ :=
  removeSkippedBlocks_moves hs.counted (hs.once _) hadm.skipped

theorem admissionSuffices_of_invariants (hs : s.Sound) (hz : s.Sized) (hc : s.Schedules c) :
    s.AdmissionSuffices c ↔ ¬ s.Overcommits c := by
  constructor
  · rintro hsuff ⟨x, m₁, needed, hx, hadm, hlt, hneeds⟩
    have hargs := hc.argsOk hs hx
    have h₁ := hadm.skips hs
    rcases hargs with ⟨hidle, hits, hle⟩ | ⟨a, ha, hcomp, henc⟩
    · have := hadm.enough
      rw [crossSurplus_start hs hidle h₁] at hlt
      omega
    · have hnone : anyComputed x.computed = false := by
        rw [hcomp, anyComputed, List.any_eq_false]
        intro bs hbs
        obtain ⟨g, hg⟩ := getElem?_of_mem hbs
        rw [emptyBlocks_getElem? hg]
        simp
      have htake : takeComputed { m₁ with groups := m₁.groups.map (·.access x.q.requestId) } x.q.requestId x.computed =
          some { m₁ with groups := m₁.groups.map (·.access x.q.requestId) } := by
        rw [takeComputed, hnone]
        rfl
      obtain ⟨new, m₃, halloc, -⟩ := hsuff x hx m₁ needed hadm _ htake
      have hargs := hc.argsOk hs hx
      obtain ⟨hm, hsur, hfree⟩ := ready_spec hs hargs hadm htake
      have hsome := (allocateNewBlocks_isSome (n := s.needSlot x) hm.counted).1 (by rw [halloc]; rfl)
      rcases Taken.sign hs hz hargs hm h₁ with ⟨hle, -⟩ | ⟨-, hnot⟩
      · rw [sum_demand_eq hle, hsur] at hsome
        omega
      · exact hnot hneeds
  · intro hnot x hx m₁ needed hadm m₂ htake
    have hargs := hc.argsOk hs hx
    have h₁ := hadm.skips hs
    obtain ⟨hm, hsur, hfree⟩ := ready_spec hs hargs hadm htake
    have hsome : (m₂.allocateNewBlocks x.q.requestId (s.needSlot x) x.encoder).isSome := by
      rw [allocateNewBlocks_isSome hm.counted]
      have henough := hadm.enough
      rcases Taken.sign hs hz hargs hm h₁ with ⟨hle, hor⟩ | ⟨hge, -⟩
      · rw [sum_demand_eq hle, hsur]
        rcases hor with hneeds | hzero
        · have : ¬ m₁.blockPool.getNumFreeBlocks <
            needed + crossSurplus x.q.requestId (s.needSlot x) x.encoder m₁.groups :=
            fun hlt => hnot ⟨x, m₁, needed, hx, hadm, hlt, hneeds⟩
          omega
        · rw [hzero]
          omega
      · rw [sum_demand_eq_zero hge]
        exact hm.counted.free_nonneg
    obtain ⟨⟨new, m₃⟩, halloc⟩ := isSome_iff_exists.1 hsome
    exact ⟨new, m₃, halloc, fun gm hgm => Taken.enough hz hargs hm halloc hgm⟩

def IssuesAny (hash : HashInput → Bytes) (noneHash : Bytes) (bs : Nat) (s : CacheState ι Bytes) : Call ι Bytes → Prop
  | .start q _ _ _ =>
    s.active q.requestId = none ∧ q.numComputedTokens = 0 ∧ HashReq.Made hash noneHash bs q.blockHashes ∧
    q.numTokens ≤ s.manager.maxModelLen
  | .extend q _ _ => ∃ a, s.active q.requestId = some a ∧ q.numComputedTokens ≤ a.scheduled
  | .free _ | .resetPrefixCache => True

omit [DecidableEq ι] in
theorem IssuesAny.schedules {hash : HashInput → Bytes} {noneHash : Bytes} (hH : HashFn hash noneHash) {bs : Nat}
    {s : CacheState ι Bytes} {c : Call ι Bytes} (h : IssuesAny hash noneHash bs s c) : s.Schedules c := by
  cases c with
  | start q numNew lookahead encoder => exact ⟨⟨h.1, h.2.1, hH.nodup_of_made h.2.2.1⟩, h.2.2.2⟩
  | extend q numNew lookahead => exact ⟨h, trivial⟩
  | free r => exact ⟨trivial, trivial⟩
  | resetPrefixCache => exact ⟨trivial, trivial⟩

/-- After any run, the check of a call suffices exactly if it does not overcommit. -/
theorem run_admissionSuffices_iff {hash : HashInput → Bytes} {noneHash : Bytes} (hH : HashFn hash noneHash) {bs : Nat}
    {maxModelLen numGpuBlocks : Nat} {caching eagle : Bool} {specs : List GroupSpec} {m : KVCacheManager ι Bytes}
    (hm : KVCacheManager.init maxModelLen numGpuBlocks caching eagle specs = some m) {cs : List (Call ι Bytes)}
    (hcs : Follows (IssuesAny hash noneHash bs) (init m) cs) {s : CacheState ι Bytes} (h : (init m).run cs = some s)
    {c : Call ι Bytes} (hc : IssuesAny hash noneHash bs s c) : s.AdmissionSuffices c ↔ ¬ s.Overcommits c := by
  have hstep : ∀ (s : CacheState ι Bytes) c s', (s.Sound ∧ s.Sized) → IssuesAny hash noneHash bs s c →
    s.exec c = some s' →
      s'.Sound ∧ s'.Sized := fun s c s' hs hc hexec =>
    ⟨hs.1.exec (hc.schedules hH).1 hexec, Sized.exec hs.1 hs.2 (hc.schedules hH) hexec⟩
  have hinit : (init m).Sound ∧ (init m).Sized :=
    ⟨(init_sound hm).1, ⟨fun _ _ _ r a ha => (by cases ha), fun _ _ _ r a ha => (by cases ha)⟩⟩
  obtain ⟨hs, hz⟩ := hcs.run_induction hstep hinit h
  exact admissionSuffices_of_invariants hs hz (hc.schedules hH)

theorem tiny_admission :
    (∃ s, (init tinyManager).run (tinyCalls.take 1) = some s ∧
      (s.AdmissionSuffices (.extend (tinyCached 0 2 40) 1 0) ↔ ¬ s.Overcommits (.extend (tinyCached 0 2 40) 1 0))) ∧
    ∃ s, (init tinyManager).run (tinyCalls.take 4) = some s ∧
      (s.AdmissionSuffices (.start (tinyCached 2 0 404) 3 0 0) ↔
        ¬ s.Overcommits (.start (tinyCached 2 0 404) 3 0 0)) := by
  obtain ⟨h₀, h₁, -⟩ := made_zeros
  have hone : Follows (IssuesAny unaryHash [1] 2) (init tinyManager) (tinyCalls.take 1) :=
    ⟨⟨rfl, rfl, h₀, by decide⟩, fun _ _ => trivial⟩
  have hfour : Follows (IssuesAny unaryHash [1] 2) (init tinyManager) (tinyCalls.take 4) := by
    refine ⟨⟨rfl, rfl, h₀, by decide⟩, fun s hs => ?_⟩
    cases hs
    refine ⟨⟨_, rfl, by decide⟩, fun s hs => ⟨trivial, fun s' hs' => ?_⟩⟩
    cases hs
    cases hs'
    exact ⟨⟨rfl, rfl, h₀, by decide⟩, fun _ _ => trivial⟩
  exact ⟨⟨_, rfl, run_admissionSuffices_iff unaryHash_hashFn tinyManager_eq hone rfl ⟨_, rfl, by decide⟩⟩,
    _, rfl, run_admissionSuffices_iff unaryHash_hashFn tinyManager_eq hfour rfl ⟨rfl, rfl, h₁, by decide⟩⟩

/-! ### A request that cannot be extended -/

def unitSpec (kind : GroupKind) (h : kind.Positive) : GroupSpec := ⟨kind, 1, by decide, h⟩

def crossManager : KVCacheManager Nat Bytes :=
  (KVCacheManager.init 8 4 false false [unitSpec .full trivial, unitSpec .crossAttention trivial]).get rfl

/-- One token and two encoder tokens take all three blocks; the check of the next token counts the two encoder blocks as
spare, and no block is left. -/
theorem cross_check_insufficient : ∃ s, Follows (IssuesAny unaryHash [1] 2)
      (init crossManager) [.start (tinyCached 0 0 40) 1 0 2] ∧
    (init crossManager).run [.start (tinyCached 0 0 40) 1 0 2] = some s ∧
    IssuesAny unaryHash [1] 2 s (.extend (tinyCached 0 1 40) 1 0) ∧
      ¬ s.AdmissionSuffices (.extend (tinyCached 0 1 40) 1 0) := by
  refine ⟨_, ⟨⟨rfl, rfl, made_zeros.1, by decide⟩, fun _ _ => trivial⟩, rfl, ⟨_, rfl, by decide⟩, fun h => ?_⟩
  obtain ⟨new, m₃, halloc, -⟩ := h _ rfl _ (-1) ⟨rfl, rfl, by decide⟩ _ rfl
  cases (show (none : Option (List (List Nat) × KVCacheManager Nat Bytes)) = some (new, m₃) from halloc)

end CacheState

end Xmix.Kv
