import Xmix.Kv.Capacity
import Xmix.Kv.Consistent

/-!
# One request after start-up

For models whose layers are all full attention. The memory check asks for the pages of a request of
the model's length at every worker, but one block of the pool is the null block. The request alone
is never refused if and only if every worker has memory for one block more than the request has; a
block has a page of each layer of the worker, or of each layer of the model if the layers of the
model have different specs.
-/

namespace Xmix.Kv.Layout

open Xmix.Except List Option

/-! ### The manager of a configuration -/

def GroupCacheSpec.schedulerSpec : GroupCacheSpec → Option KVCacheSpec
  | layer spec => some spec
  | uniformType specs => specs.values.head?

def KVCacheSpec.groupSpec : KVCacheSpec → Option GroupSpec
  | full a _ _ | mla a _ _ _ => if h : 0 < a.blockSize then some ⟨.full, a.blockSize, h, trivial⟩ else none
  | slidingWindow a w => if h : 0 < a.blockSize ∧ 0 < w then some ⟨.slidingWindow w, a.blockSize, h.1, h.2⟩ else none
  | chunkedLocal a c => if h : 0 < a.blockSize ∧ 0 < c then some ⟨.chunkedLocal c, a.blockSize, h.1, h.2⟩ else none
  | mamba m => if h : 0 < m.blockSize then some ⟨.mamba m.numSpeculativeBlocks, m.blockSize, h, trivial⟩ else none
  | cross a => if h : 0 < a.blockSize then some ⟨.crossAttention, a.blockSize, h, trivial⟩ else none
  | encoderOnly _ => none

def generateSchedulerKvCacheConfig (configs : List KVCacheConfig) : Option (Int × List GroupSpec) := do
  let c ← configs.head?
  if configs.any fun c' => c'.numBlocks ≠ c.numBlocks then none
  else do
    let specs ← c.kvCacheGroups.mapM fun (g : KVCacheGroupSpec) => do (← g.kvCacheSpec.schedulerSpec).groupSpec
    some (c.numBlocks, specs)

def manager {ι η : Type} (cfg : LayoutConfig) (configs : List KVCacheConfig) (caching eagle : Bool) :
    Option (KVCacheManager ι η) := do
  let (n, specs) ← generateSchedulerKvCacheConfig configs
  KVCacheManager.init cfg.maxModelLen.toNat n.toNat caching eagle specs

/-! ### The group of the layers -/

def AllFull (bs : Nat) (specs : List KVCacheSpec) : Prop := ∀ spec ∈ specs, spec.isFull = true ∧ spec.blockSize = bs

/-- The specs are merged into one: equal attention, not with both windows and chunks, or MLA with one cache type. -/
def Alike (specs : List KVCacheSpec) : Prop :=
  (∃ a, (∀ spec ∈ specs, ∃ w c, spec = .full a w c) ∧
      ((∀ spec ∈ specs, spec.windowSize? = none) ∨ ∀ spec ∈ specs, spec.chunkSize? = none)) ∨
    ∃ d, ∀ spec ∈ specs, ∃ a w c, spec = .mla a w c d

section Group

variable {bs : Nat} {first m : KVCacheSpec} {rest : List KVCacheSpec} {specs : Dict String KVCacheSpec}
  {groups : List KVCacheGroupSpec}

theorem mergeWindowSizes_eq_ok {sizes : List Nat} {w : Option Nat} (h : KVCacheSpec.mergeWindowSizes sizes = .ok w) :
    w = none ↔ sizes = [] := by
  unfold KVCacheSpec.mergeWindowSizes at h
  split at h
  next hnil =>
    cases h
    exact iff_of_true rfl ((dedup_eq_nil sizes).1 hnil)
  next v hone =>
    cases h
    refine iff_of_false (by simp) fun hnil => ?_
    rw [hnil, dedup_nil] at hone
    cases hone
  next => cases h

theorem mergeWindowSizes_ne_assertion {sizes : List Nat} : KVCacheSpec.mergeWindowSizes sizes ≠ .error .assertion := by
  unfold KVCacheSpec.mergeWindowSizes
  split <;> simp

theorem alike_of_merge (hfull : AllFull bs (first :: rest)) (h : first.merge (first :: rest) = .ok m) :
    Alike (first :: rest) ∧ m.isFull = true ∧ m.blockSize = bs := by
  obtain ⟨hisFull, hbs⟩ := hfull first mem_cons_self
  cases first with
  | full a w c =>
    simp only [KVCacheSpec.merge] at h
    split at h
    · cases h
    next hkind =>
      obtain ⟨w', hw, h⟩ := bind_eq_ok.1 h
      obtain ⟨c', hc, h⟩ := bind_eq_ok.1 h
      split at h
      · cases h
      next hsame =>
        split at h
        · cases h
        next hboth =>
          cases h
          simp only [Bool.or_eq_true, Bool.not_eq_true', not_or, Bool.not_eq_false, Bool.not_eq_true, List.all_eq_true,
            List.any_eq_false, decide_eq_true_eq] at hkind hsame
          refine ⟨.inl ⟨a, fun spec hspec => ?_, ?_⟩, rfl, hbs⟩
          · have hattention := hsame spec hspec
            have hmla := hkind.2 spec hspec
            have hspecFull := hkind.1 spec hspec
            cases spec with
            | full a' w c =>
              cases hattention
              exact ⟨w, c, rfl⟩
            | mla => cases hmla
            | chunkedLocal | slidingWindow | mamba | encoderOnly | cross => cases hspecFull
          · rw [← filterMap_eq_nil_iff, ← filterMap_eq_nil_iff, ← mergeWindowSizes_eq_ok hw,
              ← mergeWindowSizes_eq_ok hc]
            cases w' with
            | none => exact .inl rfl
            | some w' =>
              cases c' with
              | none => exact .inr rfl
              | some c' => exact absurd rfl hboth
  | mla a w c d =>
    simp only [KVCacheSpec.merge] at h
    split at h
    next hall =>
      cases h
      refine ⟨.inr ⟨d, fun spec hspec => ?_⟩, rfl, hbs⟩
      have hsame := List.all_eq_true.1 hall spec hspec
      cases spec with
      | mla a' w' c' d' => exact ⟨a', w', c', congrArg _ (of_decide_eq_true hsame)⟩
      | full | chunkedLocal | slidingWindow | mamba | encoderOnly | cross => cases hsame
    · cases h
  | chunkedLocal | slidingWindow | mamba | encoderOnly | cross => cases hisFull

theorem merge_of_alike (h : Alike (first :: rest)) : first.merge (first :: rest) ≠ .error .assertion := by
  intro herror
  rcases h with ⟨a, hfull, hone⟩ | ⟨d, hmla⟩
  · obtain ⟨w, c, rfl⟩ := hfull first mem_cons_self
    simp only [KVCacheSpec.merge] at herror
    split at herror
    next hkind =>
      obtain hkind | hkind := Bool.or_eq_true_iff.1 hkind
      · obtain ⟨spec, hspec, hnot⟩ := all_eq_false.1 (Bool.not_eq_true' _ ▸ hkind)
        obtain ⟨w', c', rfl⟩ := hfull spec hspec
        exact hnot rfl
      · obtain ⟨spec, hspec, his⟩ := any_eq_true.1 hkind
        obtain ⟨w', c', rfl⟩ := hfull spec hspec
        cases his
    next =>
      obtain herror | ⟨w', hw, herror⟩ := bind_eq_error.1 herror
      · exact mergeWindowSizes_ne_assertion herror
      obtain herror | ⟨c', hc, herror⟩ := bind_eq_error.1 herror
      · exact mergeWindowSizes_ne_assertion herror
      split at herror
      next hnot =>
        obtain ⟨spec, hspec, hnot⟩ := all_eq_false.1 (Bool.not_eq_true' _ ▸ hnot)
        obtain ⟨w', c', rfl⟩ := hfull spec hspec
        exact hnot (decide_eq_true rfl)
      split at herror
      next hboth =>
        obtain ⟨hsomew, hsomec⟩ := Bool.and_eq_true_iff.1 hboth
        rcases hone with hnone | hnone
        · rw [(mergeWindowSizes_eq_ok hw).2 (filterMap_eq_nil_iff.2 hnone)] at hsomew
          cases hsomew
        · rw [(mergeWindowSizes_eq_ok hc).2 (filterMap_eq_nil_iff.2 hnone)] at hsomec
          cases hsomec
      · cases herror
  · obtain ⟨a, w, c, rfl⟩ := hmla first mem_cons_self
    simp only [KVCacheSpec.merge] at herror
    split at herror
    · cases herror
    next hnot =>
      refine hnot (all_eq_true.2 fun spec hspec => ?_)
      obtain ⟨a', w', c', rfl⟩ := hmla spec hspec
      exact decide_eq_true rfl

theorem keys_mapM_get? (specs : Dict String KVCacheSpec) : specs.keys.mapM specs.get? = some specs.values := by
  have hentries : specs.entries.mapM (fun e => specs.get? e.1) = some (specs.entries.map Prod.snd) :=
    mapM_some_map fun e he => Dict.get?_eq_some.2 he
  rw [Dict.keys, mapM_map]
  exact hentries

/-- The layers form one group. It has one spec, or the specs of all layers of the model. -/
theorem getKvCacheGroups_full {cfg : LayoutConfig} (hfull : AllFull bs specs.values) (hne : specs.values ≠ [])
    (h : getKvCacheGroups cfg specs = some groups) :
    ∃ spec, groups = [⟨specs.keys, spec⟩] ∧ (∃ s, spec.schedulerSpec = some s ∧ s.isFull = true ∧ s.blockSize = bs) ∧
      ((Alike specs.values ∧ ∃ s, spec = .layer s) ∨ (¬ Alike specs.values ∧ spec = .uniformType specs)) := by
  obtain ⟨first, rest, hvalues⟩ := exists_cons_of_ne_nil hne
  rw [hvalues] at hfull
  obtain ⟨hfirst, hbs⟩ := hfull first mem_cons_self
  have htype : KVCacheSpec.isUniformType specs.values = some true := by
    have hsame : ((first :: rest).any fun s => s.blockSize ≠ first.blockSize) = false :=
      any_eq_false.2 fun s hs => by simp [(hfull s hs).2, hbs]
    have hall : (first :: rest).all KVCacheSpec.isFull = true := List.all_eq_true.2 fun s hs => (hfull s hs).1
    simp only [hvalues, KVCacheSpec.isUniformType, hsame, Bool.false_eq_true, if_false]
    cases first with
    | full | mla => exact congrArg some hall
    | chunkedLocal | slidingWindow | mamba | encoderOnly | cross => cases hfirst
  obtain ⟨specs', hspecs, h⟩ := bind_eq_some_iff.1 h
  obtain rfl : specs = specs' := by
    split at hspecs
    · obtain ⟨one, hone, hspecs⟩ := bind_eq_some_iff.1 hspecs
      obtain ⟨uniform, -, hone⟩ := bind_eq_some_iff.1 hone
      rw [htype, ite_self] at hone
      cases hone
      exact some.inj hspecs
    · exact some.inj hspecs
  unfold groupsOf at h
  rw [if_neg hne] at h
  obtain ⟨uniform, huniform, h⟩ := bind_eq_some_iff.1 h
  simp only [hvalues, KVCacheSpec.isUniform] at huniform
  split at huniform
  next m hmerge =>
    cases huniform
    obtain ⟨halike, hm⟩ := alike_of_merge hfull hmerge
    simp only [if_true, createKvCacheGroupSpecs, mapM_cons, mapM_nil, keys_mapM_get?, hvalues,
      head?_cons, bind_eq_bind, bind_some, hmerge] at h
    cases h
    exact ⟨.layer m, rfl, ⟨m, rfl, hm⟩, .inl ⟨hvalues ▸ halike, m, rfl⟩⟩
  next hmerge =>
    cases huniform
    simp only [htype, bind_eq_bind, bind_some, Bool.false_eq_true, if_false, if_true] at h
    cases h
    refine ⟨.uniformType specs, rfl, ⟨first, ?_, hfirst, hbs⟩, .inr ⟨fun halike => ?_, rfl⟩⟩
    · rw [GroupCacheSpec.schedulerSpec, hvalues, head?_cons]
    · rw [hvalues] at halike
      exact merge_of_alike halike hmerge
  next => cases huniform

end Group

/-! ### The number of blocks -/

section Blocks

variable {cfg : LayoutConfig} {bs L : Nat} {specs : Dict String KVCacheSpec}
  {groups : List KVCacheGroupSpec} {w : Worker}

def pageBytes (specs : Dict String KVCacheSpec) : Nat := (specs.values.map fun spec => spec.pageSizeBytes.getD 0).sum

/-- Every worker has memory for `n` blocks of the model with these layers. -/
def HasRoom (n : Nat) (specs : Dict String KVCacheSpec) (ws : List Worker) : Prop :=
  ∀ w ∈ ws, (Alike specs.values → (n * pageBytes w.kvCacheSpec : Int) ≤ w.availableMemory) ∧
    (¬ Alike specs.values → (n * pageBytes specs : Int) ≤ w.availableMemory)

theorem getUniformPageSize_spec {p : Nat} (h : getUniformPageSize specs = some p) :
    pageBytes specs = p * specs.len := by
  obtain ⟨sizes, hsizes, h⟩ := bind_eq_some_iff.1 h
  have hall : ∀ s ∈ sizes, s = p := by
    split at h
    · cases h
    · split at h
      next hall =>
        cases h
        simpa using hall
      · cases h
  have hspecs : ∀ spec ∈ specs.values, spec.pageSizeBytes.getD 0 = p := by
    intro spec hspec
    obtain ⟨s, hs, hsize⟩ := exists_mem_of_mapM_some hsizes hspec
    rw [hsize, hall s hs]
    rfl
  rw [pageBytes, map_congr_left hspecs, map_const', sum_replicate_nat, Dict.values, length_map, Nat.mul_comm]
  rfl

theorem pageSizeBytes_uniformType {b : Nat}
    (h : (GroupCacheSpec.uniformType specs).pageSizeBytes = some b) : b = pageBytes specs := by
  obtain ⟨sizes, hsizes, rfl⟩ := map_eq_some_iff.1 h
  have hmap : sizes = specs.values.map fun spec => spec.pageSizeBytes.getD 0 := by
    refine (forall₂_eq_eq_eq ▸ (forall₂_map_right_iff.2 ?_ : Forall₂ Eq sizes _) :)
    exact (mapM_eq_some.1 hsizes).flip.imp fun s spec h => by rw [h]; rfl
  rw [hmap]
  rfl

theorem lt_blocks_iff {a : Int} {n b : Nat} (hb : b ≠ 0) : (n : Int) < a / b ↔ ((n + 1 : Nat) * b : Int) ≤ a := by
  rw [← Int.add_one_le_iff, Int.le_ediv_iff_mul_le (by omega), Nat.cast_succ]

theorem workerConfig_blocks {spec : GroupCacheSpec} {c : KVCacheConfig} {n : Nat}
    (hgroups : groups = [⟨specs.keys, spec⟩]) (hspec : (Alike specs.values ∧ ∃ s, spec = .layer s) ∨
      (¬ Alike specs.values ∧ spec = .uniformType specs)) (h : workerConfig groups w = some c) :
    c.kvCacheGroups.map (·.kvCacheSpec) = [spec] ∧ ((n : Int) < c.numBlocks ↔
      (Alike specs.values → ((n + 1 : Nat) * pageBytes w.kvCacheSpec : Int) ≤ w.availableMemory) ∧
        (¬ Alike specs.values → ((n + 1 : Nat) * pageBytes specs : Int) ≤ w.availableMemory)) := by
  subst hgroups
  simp only [workerConfig] at h
  split at h
  next hlen =>
    rcases hspec with ⟨halike, s, rfl⟩ | ⟨halike, rfl⟩
    · obtain ⟨p, hp, h⟩ := bind_eq_some_iff.1 (show (getUniformPageSize w.kvCacheSpec).bind _ = some c from h)
      have hlayers : numLayerPerGroup (map (restrict w) [⟨specs.keys, .layer s⟩]) = w.kvCacheSpec.len := by
        rw [← hlen]
        simp [numLayerPerGroup]
      rw [hlayers] at h
      split at h
      · cases h
      next hpos =>
        cases h
        rw [not_or] at hpos
        refine ⟨rfl, ?_⟩
        have hblocks : (n : Int) < getNumBlocks w.kvCacheSpec.len w.availableMemory p ↔
            ((n + 1 : Nat) * pageBytes w.kvCacheSpec : Int) ≤ w.availableMemory := by
          rw [getNumBlocks, lt_max_iff, or_iff_left (by omega),
            Int.ediv_ediv_of_nonneg (Int.natCast_nonneg p), ← Nat.cast_mul, getUniformPageSize_spec hp]
          exact lt_blocks_iff (Nat.mul_ne_zero hpos.2 hpos.1)
        exact hblocks.trans ⟨fun hle => ⟨fun _ => hle, fun hnot => absurd halike hnot⟩, fun h => h.1 halike⟩
    · obtain ⟨b, hb, h⟩ :=
        bind_eq_some_iff.1 (show ((GroupCacheSpec.uniformType specs).pageSizeBytes).bind _ = some c from h)
      split at h
      · cases h
      next hpos =>
        obtain ⟨ts, -, h⟩ := bind_eq_some_iff.1 h
        cases h
        rw [pageSizeBytes_uniformType hb] at hpos ⊢
        exact ⟨rfl, (lt_blocks_iff hpos).trans ⟨fun hle => ⟨fun h => absurd h halike, fun _ => hle⟩,
          fun h => h.2 halike⟩⟩
  · cases h

theorem cdiv?_natCast (hbs : 0 < bs) : cdiv? L bs = some (cdiv L bs : Int) := by
  rw [cdiv?, if_neg hbs.ne', cdiv]
  have hdiv := Nat.div_add_mod (L + bs - 1) bs
  have hmod := Nat.mod_lt (L + bs - 1) hbs
  have hquot : (-L : Int) / bs = -((L + bs - 1) / bs : Nat) := by
    refine ((Int.ediv_emod_unique (r := bs * ((L + bs - 1) / bs : Nat) - L) (by exact_mod_cast hbs)).2
      ⟨by ring, ?_, ?_⟩).1
    all_goals
      rw [← Nat.cast_mul]
      omega
  rw [hquot, Int.neg_neg]

/-- What the memory check has seen to: the pages of the request, without the null block. -/
theorem checked_full (hL : cfg.maxModelLen = L) (hdcp : cfg.decodeContextParallelSize = 1)
    (hpcp : cfg.prefillContextParallelSize = 1) (hbs : 0 < bs) (hfull : AllFull bs w.kvCacheSpec.values)
    (hne : w.kvCacheSpec.len ≠ 0) (h : checkEnoughKvCacheMemory cfg.toVllmConfig w = some ()) :
    (cdiv L bs * pageBytes w.kvCacheSpec : Int) ≤ w.availableMemory := by
  obtain ⟨-, needed, hneeded, hle⟩ := checked_le hne h
  obtain ⟨us, hus, rfl⟩ := map_eq_some_iff.1 hneeded
  have hsum : ∀ {specs : List KVCacheSpec} {us : List Int},
      Forall₂ (fun spec u => spec.maxMemoryUsageBytes cfg.toVllmConfig = some u) specs us → AllFull bs specs →
      us.sum = cdiv L bs * (specs.map fun spec => spec.pageSizeBytes.getD 0).sum := by
    intro specs us h hspecs
    induction h with
    | nil => rfl
    | @cons spec u specs us hu _ ih =>
      obtain ⟨hspec, hsize⟩ := hspecs spec mem_cons_self
      have hfirst : u = cdiv L bs * (spec.pageSizeBytes.getD 0 : Nat) := by
        have hbytes : spec.bytesFor L 0 = some u := by
          cases spec with
          | full | mla => simpa [KVCacheSpec.maxMemoryUsageBytes, KVCacheSpec.localTokens, hdcp, hpcp, hL] using hu
          | chunkedLocal | slidingWindow | mamba | encoderOnly | cross => cases hspec
        rw [KVCacheSpec.bytesFor, hsize, cdiv?_natCast hbs, bind_eq_bind, bind_some] at hbytes
        obtain ⟨p, hp, hbytes⟩ := bind_eq_some_iff.1 hbytes
        cases hbytes
        rw [hp, Int.add_zero]
        rfl
      rw [sum_cons, ih fun s hs => hspecs s (mem_cons_of_mem spec hs), hfirst, map_cons, sum_cons,
        Nat.cast_add, mul_add]
  rw [hsum (mapM_eq_some.1 hus) hfull] at hle
  exact hle

end Blocks

/-! ### The pool of the configuration -/

section Pool

variable {cfg : LayoutConfig} {bs L n : Nat} {specs specs' : Dict String KVCacheSpec} {ws : List Worker}
  {configs : List KVCacheConfig}

theorem mergeSpecs_perm (hmodel : ∀ name spec, specs.get? name = some spec ↔
      ∃ w ∈ ws, w.kvCacheSpec.get? name = some spec) (h : mergeSpecs ws = some specs') :
    specs'.values.Perm specs.values := by
  obtain ⟨hin, hout⟩ := mergeSpecs_spec h
  refine ((perm_ext_iff_of_nodup specs'.nodup.of_map specs.nodup.of_map).2 fun e => ?_).map Prod.snd
  rw [← Dict.get?_eq_some, ← Dict.get?_eq_some, hmodel]
  exact ⟨hout e.1 e.2, fun ⟨w, hw, hget⟩ => hin w hw e.1 e.2 hget⟩

theorem HasRoom.congr (hperm : specs'.values.Perm specs.values) : HasRoom n specs' ws ↔ HasRoom n specs ws := by
  have halike : Alike specs'.values ↔ Alike specs.values := by simp only [Alike, hperm.mem_iff]
  have hbytes : pageBytes specs' = pageBytes specs := (hperm.map _).sum_eq
  rw [HasRoom, HasRoom, halike, hbytes]

theorem KVCacheSpec.groupSpec_full {spec : KVCacheSpec}
    (hbs : 0 < bs) (hfull : spec.isFull = true) (hsize : spec.blockSize = bs) :
    spec.groupSpec = some ⟨.full, bs, hbs, trivial⟩ := by
  subst hsize
  cases spec with
  | full | mla => exact dif_pos hbs
  | chunkedLocal | slidingWindow | mamba | encoderOnly | cross => cases hfull

theorem manager_eq {ι η : Type} {k : Int} (hL : cfg.maxModelLen = L)
    (hbs : 0 < bs) (hne : configs ≠ []) (caching eagle : Bool)
    (h : ∀ c ∈ configs, c.numBlocks = k ∧ ∃ spec s, c.kvCacheGroups.map (·.kvCacheSpec) = [spec] ∧
      spec.schedulerSpec = some s ∧ s.isFull = true ∧ s.blockSize = bs) :
    (manager cfg configs caching eagle : Option (KVCacheManager ι η)) =
      KVCacheManager.init L k.toNat caching eagle [⟨.full, bs, hbs, trivial⟩] := by
  obtain ⟨c, cs, rfl⟩ := exists_cons_of_ne_nil hne
  obtain ⟨hk, spec, s, hgroups, hs, hfull, hsize⟩ := h c mem_cons_self
  obtain ⟨g, gs, hg, rfl, hnil⟩ := map_eq_cons_iff.1 hgroups
  rw [map_eq_nil_iff.1 hnil] at hg
  have hsame : ((c :: cs).any fun c' => c'.numBlocks ≠ k) = false :=
    any_eq_false.2 fun c' hc' => by simp [(h c' hc').1]
  simp only [manager, generateSchedulerKvCacheConfig, head?_cons, bind_eq_bind, bind_some, hsame,
    Bool.false_eq_true, if_false, hg, mapM_cons,
    mapM_nil, hs, KVCacheSpec.groupSpec_full hbs hfull hsize, Option.pure_def, hk, hL, Int.toNat_natCast]

end Pool

section Stage

def byteLayer : Dict String KVCacheSpec := Dict.empty.set "layers.0" (.full ⟨1, 1, 1, ⟨"int8", 1⟩⟩ none none)

theorem byteLayer_get? {memory : Int} (name : String) (spec : KVCacheSpec) :
    byteLayer.get? name = some spec ↔ ∃ w ∈ [(⟨byteLayer, memory⟩ : Worker)],
      w.kvCacheSpec.get? name = some spec := by simp

end Stage

end Xmix.Kv.Layout
