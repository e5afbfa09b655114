import Mathlib.Algebra.BigOperators.Ring.List
import Mathlib.Tactic.Ring
import Xmix.Kv.Layout

/-!
# When the layout is consistent and fits

A worker with `k` pages per block has `availableMemory / (p * k)` blocks of pages of size `p`, and
the tensors of these blocks fit in its memory. What is left is that there is a block at all. Groups
of layers with one spec have no more pages per block than the worker has layers, and the memory
check has asked for a page of each layer that keeps tokens (`pages_le_of_layer`). A group of layers
of one type with different specs has the pages of all layers of the model, which the check of a
worker with some of them has not seen.
-/

namespace Xmix.Kv.Layout

open Xmix.Except List Option

structure Laid (p : Nat) (n : Int) (w : Worker) (c : KVCacheConfig) : Prop where
  numBlocks : c.numBlocks = n
  groups : (c.kvCacheGroups.flatMap (·.layerNames)).Perm w.kvCacheSpec.keys
  tensors : (c.kvCacheTensors.flatMap (·.sharedBy)).Perm w.kvCacheSpec.keys
  apart : ∀ t ∈ c.kvCacheTensors, ∀ g ∈ c.kvCacheGroups, ∀ a ∈ t.sharedBy, ∀ b ∈ t.sharedBy,
    a ∈ g.layerNames → b ∈ g.layerNames → a = b
  size : ∀ t ∈ c.kvCacheTensors, t.size = p * n
  fits : (c.kvCacheTensors.map (·.size)).sum ≤ w.availableMemory

def pagesPerBlock (groups : List KVCacheGroupSpec) (w : Worker) : Nat :=
  match groups with
  | [⟨_, .uniformType specs⟩] => specs.len
  | _ => numLayerPerGroup (groups.map (restrict w))

/-! ### Tensors across groups -/

theorem flatMap_range_getElem? {α : Type} (l : List α) {k : Nat} (h : l.length ≤ k) :
    ((range k).flatMap fun i => l[i]?.toList) = l := by
  induction l generalizing k with
  | nil => simp
  | cons a l ih =>
    cases k with
    | zero => cases h
    | succ k =>
      rw [range_succ_eq_map, flatMap_cons, flatMap_map]
      exact congrArg (a :: ·) (ih (Nat.le_of_succ_le_succ h))

theorem transpose_perm (groups : List KVCacheGroupSpec) {k : Nat} (h : ∀ g ∈ groups, g.layerNames.length ≤ k) :
    ((range k).flatMap fun i => groups.filterMap (·.layerNames[i]?)).Perm (groups.flatMap (·.layerNames)) := by
  induction groups with
  | nil =>
    rw [flatMap_eq_nil_iff.2 fun _ _ => filterMap_nil]
    exact .refl _
  | cons g gs ih =>
    have hcons : ∀ i : Nat, (g :: gs).filterMap (·.layerNames[i]?) = g.layerNames[i]?.toList ++
      gs.filterMap (·.layerNames[i]?) := by
      intro i
      rw [filterMap_cons]
      cases g.layerNames[i]? <;> rfl
    simp only [hcons]
    refine (flatMap_append_perm _ _ _).symm.trans ?_
    rw [flatMap_range_getElem? _ (h g mem_cons_self), flatMap_cons]
    exact (ih fun g' hg' => h g' (mem_cons_of_mem g hg')).append_left _

section
variable {groups : List KVCacheGroupSpec} {g : KVCacheGroupSpec}

theorem length_le_numLayerPerGroup (hg : g ∈ groups) :
    g.layerNames.length ≤ numLayerPerGroup groups := by
  have hmax : ∀ (l : List Nat) (a : Nat), a ≤ l.foldl max a ∧ ∀ b ∈ l, b ≤ l.foldl max a := by
    intro l
    induction l with
    | nil => exact fun a => ⟨le_rfl, fun b hb => (by cases hb)⟩
    | cons c l ih =>
      intro a
      refine ⟨(le_max_left a c).trans (ih (max a c)).1, fun b hb => ?_⟩
      rcases mem_cons.1 hb with rfl | hb
      · exact (le_max_right a b).trans (ih (max a b)).1
      · exact (ih (max a c)).2 b hb
  exact (hmax _ 0).2 _ (mem_map_of_mem hg)

theorem eq_of_place (hnodup : (groups.flatMap (·.layerNames)).Nodup) {i : Nat} (hg : g ∈ groups)
    {a : String} (ha : a ∈ groups.filterMap (·.layerNames[i]?)) (hag : a ∈ g.layerNames) :
    g.layerNames[i]? = some a := by
  obtain ⟨g', hg', ha⟩ := mem_filterMap.1 ha
  by_cases heq : g' = g
  · exact heq ▸ ha
  · have : Std.Symm (Function.onFun Disjoint fun x : KVCacheGroupSpec => x.layerNames) :=
      ⟨fun _ _ h _ ha hb => h hb ha⟩
    exact absurd hag ((nodup_flatMap.1 hnodup).2.forall hg' hg heq (mem_of_getElem? ha))

end

/-! ### A worker's configuration -/

section Worker

variable {groups : List KVCacheGroupSpec} {w : Worker} {p : Nat}

theorem keys_ne_nil {d : Dict String KVCacheSpec} (h : d.len ≠ 0) : d.keys ≠ [] := by
  intro hnil
  rw [Dict.len_eq_length_keys, hnil] at h
  exact h rfl

theorem checked_le {cfg : VllmConfig} (hne : w.kvCacheSpec.len ≠ 0) (h : checkEnoughKvCacheMemory cfg w = some ()) :
    0 < w.availableMemory ∧ ∃ needed, maxMemoryUsageBytes cfg w.kvCacheSpec.values = some needed ∧
      needed ≤ w.availableMemory := by
  unfold checkEnoughKvCacheMemory at h
  rw [if_neg hne] at h
  split at h
  · cases h
  next hpos =>
    obtain ⟨needed, hneeded, h⟩ := bind_eq_some_iff.1 h
    split at h
    · cases h
    next hle => exact ⟨not_le.1 hpos, needed, hneeded, not_lt.1 hle⟩

theorem getUniformPageSize_eq (hne : w.kvCacheSpec.keys ≠ []) (hpage : Paged p w.kvCacheSpec) :
    getUniformPageSize w.kvCacheSpec = some p := by
  have hsizes : w.kvCacheSpec.values.mapM KVCacheSpec.pageSizeBytes =
    some (w.kvCacheSpec.values.map fun _ => p) := mapM_some_map hpage
  unfold getUniformPageSize
  rw [hsizes, bind_eq_bind, bind_some]
  have hentries : w.kvCacheSpec.entries ≠ [] := fun h => hne (by rw [Dict.keys, h]; rfl)
  obtain ⟨e, es, heq⟩ := exists_cons_of_ne_nil hentries
  rw [Dict.values, heq, map_cons, map_cons]
  simp

theorem uniformType_pageSizeBytes {specs : Dict String KVCacheSpec} (hpage : Paged p specs) :
    (GroupCacheSpec.uniformType specs).pageSizeBytes = some (p * specs.len) := by
  have hsizes : specs.values.mapM KVCacheSpec.pageSizeBytes = some (specs.values.map fun _ => p) := mapM_some_map hpage
  show (specs.values.mapM KVCacheSpec.pageSizeBytes).map sum = _
  rw [hsizes, map_some, map_const', sum_replicate_nat, Dict.values, length_map, Nat.mul_comm]
  rfl

theorem blocks_fit {a : Int} {m k : Nat} (ha : 0 ≤ a) (hm : m ≤ k) : m * (p * (a / (p * k))) ≤ a := by
  have hq : 0 ≤ a / (p * k : Int) := Int.ediv_nonneg ha (mul_nonneg (Int.natCast_nonneg p) (Int.natCast_nonneg k))
  calc (m : Int) * (p * (a / (p * k)))
      ≤ k * (p * (a / (p * k))) :=
        mul_le_mul_of_nonneg_right (by exact_mod_cast hm) (mul_nonneg (Int.natCast_nonneg p) hq)
    _ = a / (p * k) * (p * k) := by ring
    _ ≤ a := by
      by_cases hk : (p * k : Int) = 0
      · rw [hk, mul_zero]
        exact ha
      · exact Int.ediv_mul_le a hk

theorem sum_size_eq {ts : List KVCacheTensor} {size : Int} (h : ∀ t ∈ ts, t.size = size) :
    (ts.map (·.size)).sum = ts.length * size := by
  rw [map_congr_left h, map_const', sum_replicate, nsmul_eq_mul]

def Shaped (p : Nat) (groups : List KVCacheGroupSpec) : Prop :=
  (∃ specs, groups = [⟨specs.keys, .uniformType specs⟩] ∧ Paged p specs) ∨
    ∀ g ∈ groups, ∃ spec, g.kvCacheSpec = .layer spec

theorem sum_length_eq (hperm : Holds groups w) :
    ((groups.map (restrict w)).map (·.layerNames.length)).sum = w.kvCacheSpec.len := by
  rw [Dict.len_eq_length_keys, ← hperm.length_eq, length_flatMap]

theorem numLayerPerGroup_pos (hperm : (groups.flatMap (·.layerNames)).Perm w.kvCacheSpec.keys)
    (hne : w.kvCacheSpec.keys ≠ []) :
    0 < numLayerPerGroup groups := by
  obtain ⟨name, hname⟩ := exists_mem_of_ne_nil _ hne
  obtain ⟨g, hg, hname⟩ := mem_flatMap.1 (hperm.mem_iff.2 hname)
  exact (length_pos_of_mem hname).trans_le (length_le_numLayerPerGroup hg)

theorem workerConfig_layer (hlayer : ∀ g ∈ groups, ∃ spec, g.kvCacheSpec = .layer spec)
    (hperm : Holds groups w) (hne : w.kvCacheSpec.keys ≠ [])
    (hpage : Paged p w.kvCacheSpec) :
    pagesPerBlock groups w = numLayerPerGroup (groups.map (restrict w)) ∧
      workerConfig groups w = if p = 0 then none else
        let n := getNumBlocks (numLayerPerGroup (groups.map (restrict w))) w.availableMemory p
        some ⟨n, (range (numLayerPerGroup (groups.map (restrict w)))).map fun i =>
          ⟨p * n, (groups.map (restrict w)).filterMap (·.layerNames[i]?)⟩,
          groups.map (restrict w)⟩ := by
  constructor
  · unfold pagesPerBlock
    split
    next specs =>
      obtain ⟨spec, hspec⟩ := hlayer _ (mem_singleton_self _)
      cases hspec
    next => rfl
  · unfold workerConfig
    simp only [sum_length_eq hperm, if_true]
    have hpos := numLayerPerGroup_pos hperm hne
    unfold getKvCacheConfigFromGroups
    split
    next heq =>
      rw [Holds, heq] at hperm
      exact absurd hperm.nil_eq.symm hne
    next names specs heq =>
      obtain ⟨g, hg, hrest⟩ :=
        mem_map.1 (show (⟨names, .uniformType specs⟩ : KVCacheGroupSpec) ∈
          groups.map (restrict w) from heq ▸ mem_singleton_self _)
      obtain ⟨spec, hspec⟩ := hlayer g hg
      have hspec' : g.kvCacheSpec = .uniformType specs := congrArg KVCacheGroupSpec.kvCacheSpec hrest
      rw [hspec] at hspec'
      cases hspec'
    next =>
      rw [getUniformPageSize_eq hne hpage]
      simp [hpos.ne']

theorem workerConfig_uniform {specs : Dict String KVCacheSpec} (hgroups : groups = [⟨specs.keys, .uniformType specs⟩])
    (hspecs : Paged p specs)
    (hperm : Holds groups w) :
    pagesPerBlock groups w = specs.len ∧
      workerConfig groups w = if p * specs.len = 0 then none else
        let n := w.availableMemory / (p * specs.len : Nat)
        some ⟨n, ((groups.map (restrict w)).flatMap (·.layerNames)).map fun name => ⟨p * n, [name]⟩,
          groups.map (restrict w)⟩ := by
  subst hgroups
  refine ⟨rfl, ?_⟩
  unfold workerConfig
  simp only [sum_length_eq hperm, if_true]
  show (do
    let pageSize ← (GroupCacheSpec.uniformType specs).pageSizeBytes
    if pageSize = 0 then none else
      let numBlocks := w.availableMemory / pageSize
      let tensors ← (specs.keys.filter fun name => (w.kvCacheSpec.get? name).isSome).mapM fun name => do
        let spec ← specs.get? name
        let pageSize ← spec.pageSizeBytes
        some (⟨pageSize * numBlocks, [name]⟩ : KVCacheTensor)
      some (⟨numBlocks, tensors, [restrict w ⟨specs.keys, .uniformType specs⟩]⟩ : KVCacheConfig)) = _
  rw [uniformType_pageSizeBytes hspecs, bind_eq_bind, bind_some]
  split
  · rfl
  · have htensors : ((specs.keys.filter fun name => (w.kvCacheSpec.get? name).isSome).mapM fun name => do
        let spec ← specs.get? name
        let pageSize ← spec.pageSizeBytes
        some (⟨pageSize * (w.availableMemory / (p * specs.len : Nat)), [name]⟩ : KVCacheTensor)) =
        some ((specs.keys.filter fun name => (w.kvCacheSpec.get? name).isSome).map fun name =>
          ⟨p * (w.availableMemory / (p * specs.len : Nat)), [name]⟩) := by
      refine mapM_some_map fun name hname => ?_
      obtain ⟨spec, hspec⟩ := isSome_iff_exists.1 (Dict.mem_keys.1 (mem_filter.1 hname).1)
      have hmem : spec ∈ specs.values := mem_map.2 ⟨_, Dict.get?_eq_some.1 hspec, rfl⟩
      rw [hspec, bind_eq_bind, bind_some, hspecs spec hmem]
      rfl
    simp only [htensors, map_cons, map_nil, flatMap_singleton]
    rfl

theorem workerConfig_zero (hshape : Shaped 0 groups) (hperm : Holds groups w)
    (hne : w.kvCacheSpec.keys ≠ []) (hpage : Paged 0 w.kvCacheSpec) : workerConfig groups w = none := by
  rcases hshape with ⟨specs, hgroups, hspecs⟩ | hlayer
  · rw [(workerConfig_uniform hgroups hspecs hperm).2, if_pos (Nat.zero_mul _)]
  · rw [(workerConfig_layer hlayer hperm hne hpage).2, if_pos rfl]

theorem workerConfig_laid {cfg : VllmConfig} (hp : 0 < p) (hshape : Shaped p groups) (hperm : Holds groups w)
    (hlen : w.kvCacheSpec.len ≠ 0) (hpage : Paged p w.kvCacheSpec) (hcheck : checkEnoughKvCacheMemory cfg w = some ()) :
    0 < pagesPerBlock groups w ∧ ∃ c, workerConfig groups w = some c ∧ c.kvCacheGroups = groups.map (restrict w) ∧
      Laid p (w.availableMemory / (p * pagesPerBlock groups w)) w c := by
  have hne := keys_ne_nil hlen
  have hmem := (checked_le hlen hcheck).1.le
  have hnodup : ((groups.map (restrict w)).flatMap (·.layerNames)).Nodup := hperm.nodup_iff.2 w.kvCacheSpec.nodup
  rcases hshape with ⟨specs, hgroups, hspecs⟩ | hlayer
  · obtain ⟨hpages, hconfig⟩ := workerConfig_uniform hgroups hspecs hperm
    have hnames : (groups.map (restrict w)).flatMap (·.layerNames) =
      specs.keys.filter fun name => (w.kvCacheSpec.get? name).isSome := by
      rw [hgroups, map_singleton, flatMap_singleton]
      rfl
    have hlen : w.kvCacheSpec.keys.length ≤ specs.len := by
      rw [← hperm.length_eq, hnames, Dict.len_eq_length_keys]
      exact length_filter_le _ _
    have hpos : 0 < specs.len := (length_pos_of_ne_nil hne).trans_le hlen
    rw [if_neg (Nat.mul_pos hp hpos).ne'] at hconfig
    rw [hpages]
    refine ⟨hpos, _, hconfig, rfl, ?_⟩
    have hcast : ((p * specs.len : Nat) : Int) = p * specs.len := Nat.cast_mul p specs.len
    have hsize : ∀ t ∈ ((groups.map (restrict w)).flatMap (·.layerNames)).map fun name =>
      (⟨p * (w.availableMemory / (p * specs.len : Nat)), [name]⟩ : KVCacheTensor),
        t.size = p * (w.availableMemory / (p * specs.len)) := by
      intro t ht
      obtain ⟨name, -, rfl⟩ := mem_map.1 ht
      rw [hcast]
    refine ⟨by rw [hcast], hperm, ?_, ?_, hsize, ?_⟩
    · rw [flatMap_map, flatMap_singleton']
      exact hperm
    · intro t ht g hg a ha b hb _ _
      obtain ⟨name, -, rfl⟩ := mem_map.1 ht
      exact (mem_singleton.1 ha).trans (mem_singleton.1 hb).symm
    · rw [sum_size_eq hsize, length_map, hperm.length_eq]
      exact blocks_fit hmem hlen
  · obtain ⟨hpages, hconfig⟩ := workerConfig_layer hlayer hperm hne hpage
    have hpos := numLayerPerGroup_pos hperm hne
    rw [if_neg hp.ne'] at hconfig
    rw [hpages]
    have hblocks : getNumBlocks (numLayerPerGroup (groups.map (restrict w))) w.availableMemory p =
        w.availableMemory / (p * numLayerPerGroup (groups.map (restrict w))) := by
      unfold getNumBlocks
      rw [Int.ediv_ediv_of_nonneg (Int.natCast_nonneg p)]
      exact max_eq_left (Int.ediv_nonneg hmem (mul_nonneg (Int.natCast_nonneg p) (Int.natCast_nonneg _)))
    simp only [hblocks] at hconfig
    refine ⟨hpos, _, hconfig, rfl, ?_⟩
    have hsize : ∀ t ∈ (range (numLayerPerGroup (groups.map (restrict w)))).map fun i =>
        (⟨p * (w.availableMemory / (p * numLayerPerGroup (groups.map (restrict w)))),
          (groups.map (restrict w)).filterMap (·.layerNames[i]?)⟩ : KVCacheTensor),
        t.size = p * (w.availableMemory / (p * numLayerPerGroup (groups.map (restrict w)))) := by
      intro t ht
      obtain ⟨i, -, rfl⟩ := mem_map.1 ht
      rfl
    refine ⟨rfl, hperm, ?_, ?_, hsize, ?_⟩
    · rw [flatMap_map]
      exact (transpose_perm _ fun g hg => length_le_numLayerPerGroup hg).trans hperm
    · intro t ht g hg a ha b hb hag hbg
      obtain ⟨i, -, rfl⟩ := mem_map.1 ht
      have hai := eq_of_place hnodup hg ha hag
      rw [eq_of_place hnodup hg hb hbg] at hai
      exact (some.inj hai).symm
    · rw [sum_size_eq hsize, length_map, length_range]
      exact blocks_fit hmem le_rfl

end Worker

/-! ### What the memory check gives -/

section Check

variable {cfg : VllmConfig} {groups : List KVCacheGroupSpec} {w : Worker} {p : Nat}

/-- A layer with this spec keeps some tokens of every request of the model's length. -/
def KVCacheSpec.Occupies (cfg : VllmConfig) : KVCacheSpec → Prop
  | encoderOnly _ => False
  | cross _ => 0 < cfg.maxNumEncoderInputTokens
  | chunkedLocal _ n | slidingWindow _ n => 0 < cfg.maxModelLen ∧ 0 < n + cfg.maxNumBatchedTokens
  | _ => 0 < cfg.maxModelLen

instance (cfg : VllmConfig) (spec : KVCacheSpec) : Decidable (spec.Occupies cfg) := by
  cases spec <;> unfold KVCacheSpec.Occupies <;> infer_instance

theorem cdiv?_nonneg {a n : Int} {b : Nat} (ha : 0 ≤ a) (h : cdiv? a b = some n) : 0 ≤ n ∧ (0 < a → 0 < n) := by
  unfold cdiv? at h
  split at h
  · cases h
  next hb =>
    cases h
    have hb' : (0 : Int) < b := by omega
    refine ⟨Int.neg_nonneg_of_nonpos (Int.ediv_nonpos_of_nonpos_of_neg (by omega) hb'), fun ha => ?_⟩
    exact Int.neg_pos_of_neg (Int.ediv_neg_of_neg_of_pos (by omega) hb')

theorem KVCacheSpec.le_bytesFor {spec : KVCacheSpec} {n extra u : Int} (hpage : spec.pageSizeBytes = some p)
    (hn : 0 ≤ n) (hextra : 0 ≤ extra) (hpos : 0 < n + extra) (h : spec.bytesFor n extra = some u) : p ≤ u := by
  obtain ⟨pages, hpages, h⟩ := bind_eq_some_iff.1 h
  rw [hpage] at h
  cases h
  obtain ⟨hnonneg, hone⟩ := cdiv?_nonneg hn hpages
  have hsum : 1 ≤ pages + extra := by
    rcases hn.lt_or_eq with hn | rfl
    · have := hone hn
      omega
    · omega
  calc (p : Int) = 1 * p := (one_mul _).symm
    _ ≤ (pages + extra) * p := mul_le_mul_of_nonneg_right hsum (Int.natCast_nonneg p)

theorem KVCacheSpec.Occupies.le_maxMemoryUsageBytes {spec : KVCacheSpec} {u : Int} (hocc : spec.Occupies cfg)
    (hpage : spec.pageSizeBytes = some p) (h : spec.maxMemoryUsageBytes cfg = some u) : p ≤ u := by
  have hlocal : 0 < cfg.maxModelLen → ∀ n, localTokens cfg = some n → 0 < n := by
    intro hlen n hn
    simp only [localTokens] at hn
    split at hn
    · exact (cdiv?_nonneg hlen.le hn).2 hlen
    · cases hn
      exact hlen
  cases spec with
  | full | mla =>
    obtain ⟨n, hn, h⟩ := bind_eq_some_iff.1 h
    have hn := hlocal hocc n hn
    exact le_bytesFor hpage hn.le le_rfl (by omega) h
  | chunkedLocal a chunk =>
    obtain ⟨hlen, hchunk⟩ := hocc
    exact le_bytesFor hpage (by omega) le_rfl (by omega) h
  | slidingWindow a window =>
    obtain ⟨hlen, hwindow⟩ := hocc
    simp only [maxMemoryUsageBytes] at h
    split at h
    · cases h
    · exact le_bytesFor hpage (by omega) Int.one_nonneg (by omega) h
  | mamba m =>
    have hlen : 0 < cfg.maxModelLen := hocc
    exact le_bytesFor hpage hlen.le le_rfl (by omega) h
  | encoderOnly a => exact hocc.elim
  | cross a =>
    have htokens : 0 < cfg.maxNumEncoderInputTokens := hocc
    exact le_bytesFor hpage (by omega) le_rfl (by omega) h

theorem numLayerPerGroup_le_sum (groups : List KVCacheGroupSpec) :
    numLayerPerGroup groups ≤ (groups.map (·.layerNames.length)).sum := by
  have hmax : ∀ (l : List Nat) (a : Nat), l.foldl max a ≤ a + l.sum := by
    intro l
    induction l with
    | nil => exact fun a => le_rfl
    | cons b l ih =>
      intro a
      have := ih (max a b)
      rw [foldl_cons, sum_cons]
      omega
  exact (hmax _ 0).trans_eq (Nat.zero_add _)

/-- A worker whose layers all keep tokens has passed the check with the pages of a block of groups
with one spec each. -/
theorem pages_le_of_layer (hne : w.kvCacheSpec.len ≠ 0) (hcheck : checkEnoughKvCacheMemory cfg w = some ())
    (hpage : Paged p w.kvCacheSpec) (hocc : ∀ spec ∈ w.kvCacheSpec.values, spec.Occupies cfg)
    (hperm : Holds groups w) : (p * numLayerPerGroup (groups.map (restrict w)) : Int) ≤ w.availableMemory := by
  obtain ⟨-, needed, hneeded, hle⟩ := checked_le hne hcheck
  obtain ⟨us, hus, rfl⟩ := map_eq_some_iff.1 hneeded
  have hsum : ∀ {specs : List KVCacheSpec} {us : List Int},
    Forall₂ (fun spec u => spec.maxMemoryUsageBytes cfg = some u) specs us →
      (∀ spec ∈ specs, spec.pageSizeBytes = some p ∧ spec.Occupies cfg) → (p * specs.length : Int) ≤ us.sum := by
    intro specs us h hspecs
    induction h with
    | nil => simp
    | @cons spec u specs us hu _ ih =>
      obtain ⟨hp, ho⟩ := hspecs spec mem_cons_self
      have hfirst := ho.le_maxMemoryUsageBytes hp hu
      have hrest := ih fun s hs => hspecs s (mem_cons_of_mem spec hs)
      rw [length_cons, sum_cons, Nat.cast_succ, mul_add, mul_one]
      omega
  have hlayers : (numLayerPerGroup (groups.map (restrict w)) : Int) ≤ w.kvCacheSpec.values.length := by
    have hgroup := numLayerPerGroup_le_sum (groups.map (restrict w))
    rw [sum_length_eq hperm] at hgroup
    rw [Dict.values, length_map]
    exact_mod_cast hgroup
  calc (p * numLayerPerGroup (groups.map (restrict w)) : Int)
      ≤ p * w.kvCacheSpec.values.length := mul_le_mul_of_nonneg_left hlayers (Int.natCast_nonneg p)
    _ ≤ us.sum := hsum (mapM_eq_some.1 hus) fun spec hspec => ⟨hpage spec hspec, hocc spec hspec⟩
    _ ≤ w.availableMemory := hle

end Check

/-! ### The same number of blocks for all -/

variable {c : KVCacheConfig}

theorem shrink_laid {cfg : VllmConfig} {p : Nat} {m n : Int} {w : Worker} (h : Laid p m w c) (hn : 1 ≤ n) (hmn : n ≤ m)
    (hreport : reportKvCacheConfig cfg c = some ()) : ∃ c', shrink cfg n c = some c' ∧ Laid p n w c' := by
  have htensors : c.kvCacheTensors.mapM (shrinkTensor c.numBlocks n) =
    some (c.kvCacheTensors.map fun t => { t with size := p * n }) := by
    refine mapM_some_map fun t ht => ?_
    have hm : m ≠ 0 := by omega
    unfold shrinkTensor
    rw [h.numBlocks, h.size t ht, Int.mul_fmod_left, Int.mul_fdiv_cancel _ hm, if_neg (by simp [hm])]
  refine ⟨{ c with numBlocks := n, kvCacheTensors := c.kvCacheTensors.map fun t => { t with size := p * n } },
    ?_, rfl, h.groups, ?_, ?_, ?_, ?_⟩
  · unfold shrink
    simp only [htensors, bind_eq_bind, bind_some]
    show (reportKvCacheConfig cfg c).bind _ = _
    rw [hreport]
    rfl
  · rw [flatMap_map]
    exact h.tensors
  · intro t ht
    obtain ⟨t', ht', rfl⟩ := mem_map.1 ht
    exact h.apart t' ht'
  · intro t ht
    obtain ⟨t, ht, rfl⟩ := mem_map.1 ht
    rfl
  · have hsmall : ∀ t ∈ c.kvCacheTensors.map fun t => { t with size := p * n }, t.size = p * n := by
      intro t ht
      obtain ⟨t, ht, rfl⟩ := mem_map.1 ht
      rfl
    have hfits := h.fits
    rw [sum_size_eq h.size] at hfits
    rw [sum_size_eq hsmall, length_map]
    exact le_trans (mul_le_mul_of_nonneg_left (mul_le_mul_of_nonneg_left hmn (Int.natCast_nonneg p))
      (Int.natCast_nonneg _)) hfits

theorem reportKvCacheConfig_eq {cfg : VllmConfig} (hne : c.kvCacheGroups ≠ []) :
    reportKvCacheConfig cfg c = some () ↔ ∃ n, numBlockPerRequest cfg c.kvCacheGroups = some n ∧ n ≠ 0 := by
  unfold reportKvCacheConfig
  rw [if_neg (by rwa [List.isEmpty_iff]), Option.bind_eq_bind, Option.bind_eq_some_iff]
  refine exists_congr fun n => and_congr_right fun _ => ?_
  split
  next h => exact iff_of_false (fun h => by cases h) fun hn => hn h
  next h => exact iff_of_true rfl h

theorem shrink_report {cfg : VllmConfig} {n : Int} {c c' : KVCacheConfig} (h : shrink cfg n c = some c') :
    c'.numBlocks = n ∧ c'.kvCacheGroups = c.kvCacheGroups ∧ reportKvCacheConfig cfg c = some () := by
  obtain ⟨ts, -, h⟩ := bind_eq_some_iff.1 h
  obtain ⟨_, hreport, h⟩ := bind_eq_some_iff.1 h
  cases h
  exact ⟨rfl, rfl, hreport⟩

/-- All workers lay out one positive number of blocks. -/
def Consistent (p : Nat) (ws : List Worker) (configs : List KVCacheConfig) : Prop :=
  ∃ n, 1 ≤ n ∧ List.Forall₂ (Laid p n) ws configs

/-- The layers can be grouped and a request has a block. The memory of a block is needed only for a group of different
specs, or where a layer keeps no tokens: elsewhere the check has asked for it. -/
def Workable (cfg : LayoutConfig) (p : Nat) (ws : List Worker) : Prop :=
  ws ≠ [] ∧ 0 < p ∧ ∃ specs groups, mergeSpecs ws = some specs ∧ getKvCacheGroups cfg specs = some groups ∧
    ∀ w ∈ ws, ((∀ g ∈ groups, ∃ spec, g.kvCacheSpec = .layer spec) ∧
      (∀ spec ∈ w.kvCacheSpec.values, spec.Occupies cfg.toVllmConfig) ∨
        p * pagesPerBlock groups w ≤ w.availableMemory) ∧
      ∃ n, numBlockPerRequest cfg.toVllmConfig (groups.map (restrict w)) = some n ∧ n ≠ 0

section Configs

variable {cfg : LayoutConfig} {p : Nat} {ws : List Worker} {specs : Dict String KVCacheSpec}
  {groups : List KVCacheGroupSpec}

theorem shaped_of_groups (hpage : ∀ w ∈ ws, Paged p w.kvCacheSpec) (hmerge : mergeSpecs ws = some specs)
    (hgroups : getKvCacheGroups cfg specs = some groups) :
    Shaped p groups ∧ ∀ w ∈ ws, Holds groups w := by
  have hspecs : Paged p specs := by
    intro spec hspec
    obtain ⟨e, he, rfl⟩ := mem_map.1 hspec
    obtain ⟨w, hw, hget⟩ := (mergeSpecs_spec hmerge).2 e.1 e.2 (Dict.get?_eq_some.2 he)
    exact hpage w hw _ (mem_map.2 ⟨_, Dict.get?_eq_some.1 hget, rfl⟩)
  obtain ⟨hperm, hcase⟩ := getKvCacheGroups_cases hspecs hgroups
  refine ⟨hcase.imp_left ?_, fun w hw => restrict_perm hmerge hperm hw⟩
  rintro ⟨specs', rfl, hkeys, hspecs'⟩
  exact ⟨specs', by rw [hkeys], hspecs'⟩

theorem Laid.groups_ne_nil {n : Int} {w : Worker} (h : Laid p n w c) (hne : w.kvCacheSpec.len ≠ 0) :
    c.kvCacheGroups ≠ [] := by
  intro hnil
  have hempty := h.groups
  rw [hnil] at hempty
  exact keys_ne_nil hne hempty.nil_eq.symm

theorem one_le_blocks {a : Int} {k : Nat} (hp : 0 < p) (hk : 0 < k) : 1 ≤ a / (p * k : Int) ↔ (p * k : Int) ≤ a := by
  rw [Int.le_ediv_iff_mul_le (by exact_mod_cast Nat.mul_pos hp hk), one_mul]

end Configs

section Stages

def oneHead : KVCacheSpec := .full ⟨1, 1, 2, ⟨"int8", 1⟩⟩ none none

def twoHeads : KVCacheSpec := .full ⟨1, 2, 1, ⟨"int8", 1⟩⟩ none none

def windowed : KVCacheSpec := .slidingWindow ⟨1, 1, 2, ⟨"int8", 1⟩⟩ 2

def oneToken : LayoutConfig := ⟨⟨1, 1, 0, 1, 1⟩, false⟩

def hybridStages : List Worker :=
  [⟨((Dict.empty.set "full.0" oneHead).set "window.0" windowed).set "window.1" windowed, 60⟩,
   ⟨(Dict.empty.set "full.1" oneHead).set "window.2" windowed, 100⟩]

def fullStages : List Worker := [⟨Dict.empty.set "full.0" oneHead, 4⟩, ⟨Dict.empty.set "full.1" twoHeads, 4⟩]

end Stages

end Xmix.Kv.Layout
