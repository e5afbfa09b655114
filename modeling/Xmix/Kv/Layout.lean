import Mathlib.Data.List.Perm.Basic
import Xmix.Kv.Specs

/-!
# The layout of the cache memory

`get_kv_cache_configs`: the layers of all workers are merged and grouped, each worker has its part
of the groups, the layers at one place of the groups share a tensor, and all workers get the
smallest number of blocks. `none` is a call that raises.

A worker's memory is divided by the pages of one block. If all layers are of one type and not equal,
those are the pages of all layers of the model, also for a worker that has a part of the layers.
-/

namespace Xmix.Kv.Layout

open List Option Dict

variable {groups : List KVCacheGroupSpec} {specs : Dict String KVCacheSpec}

/-! ### Merging specs -/

inductive MergeError where
  | assertion
  | value

namespace KVCacheSpec

def mergeWindowSizes (sizes : List Nat) : Except MergeError (Option Nat) :=
  match sizes.dedup with
  | [] => .ok none
  | [w] => .ok (some w)
  | _ => .error .value

def isFull : KVCacheSpec → Bool
  | full .. | mla .. => true
  | _ => false

def isMla : KVCacheSpec → Bool
  | mla .. => true
  | _ => false

def windowSize? : KVCacheSpec → Option Nat
  | full _ w _ | mla _ w _ _ => w
  | _ => none

def chunkSize? : KVCacheSpec → Option Nat
  | full _ _ c | mla _ _ c _ => c
  | _ => none

def attention? : KVCacheSpec → Option AttentionSpec
  | full a _ _ | mla a _ _ _ | chunkedLocal a _ | slidingWindow a _ | encoderOnly a | cross a => some a
  | mamba _ => none

def merge (first : KVCacheSpec) (specs : List KVCacheSpec) : Except MergeError KVCacheSpec :=
  match first with
  | full a _ _ =>
    if !specs.all isFull || specs.any isMla then .error .assertion
    else do
      let w ← mergeWindowSizes (specs.filterMap windowSize?)
      let c ← mergeWindowSizes (specs.filterMap chunkSize?)
      if !specs.all fun s => s.attention? = some a then .error .assertion
      else if w.isSome && c.isSome then .error .assertion
      else .ok (full a w c)
  | mla a _ _ d =>
    if specs.all fun s => match s with
      | mla _ _ _ d' => d' = d
      | _ => false
    then .ok (mla a none none d)
    else .error .assertion
  | _ => if specs.all (· = first) then .ok first else .error .assertion

def isUniformType (specs : List KVCacheSpec) : Option Bool :=
  match specs with
  | [] => none
  | first :: _ =>
    if specs.any fun s => s.blockSize ≠ first.blockSize then some false
    else
      match first with
      | full .. | mla .. => some (specs.all isFull)
      | cross _ => some (specs.all fun s => match s with
        | cross _ => true
        | _ => false)
      | slidingWindow _ w => some (specs.all fun s => match s with
        | slidingWindow _ w' => w' = w
        | _ => false)
      | chunkedLocal _ c => some (specs.all fun s => match s with
        | chunkedLocal _ c' => c' = c
        | _ => false)
      | mamba m => some (specs.all fun s => match s with
        | mamba m' => m'.numSpeculativeBlocks = m.numSpeculativeBlocks
        | _ => false)
      | encoderOnly _ => none

def isUniform (specs : List KVCacheSpec) : Option Bool :=
  match specs with
  | [] => some true
  | first :: _ =>
    match first.merge specs with
    | .ok _ => some true
    | .error .assertion => some false
    | .error .value => none

def toFull : KVCacheSpec → KVCacheSpec
  | slidingWindow a w => full a (some w) none
  | chunkedLocal a c => full a none (some c)
  | spec => spec

def isWindowed : KVCacheSpec → Bool
  | slidingWindow .. | chunkedLocal .. => true
  | _ => false

end KVCacheSpec

def isOneType (specs : List KVCacheSpec) : Option Bool := do
  if ← KVCacheSpec.isUniform specs then some true else KVCacheSpec.isUniformType specs

def unifyHybridKvCacheSpecs (specs : Dict String KVCacheSpec) : Option (Dict String KVCacheSpec) := do
  if ← isOneType specs.values then some specs
  else
    let specs := if specs.values.any KVCacheSpec.isFull && specs.values.any KVCacheSpec.isWindowed then
      specs.mapValues KVCacheSpec.toFull else specs
    if ← isOneType specs.values then some specs else none

/-! ### Groups -/

inductive GroupCacheSpec where
  | layer (spec : KVCacheSpec)
  | uniformType (specs : Dict String KVCacheSpec)

namespace GroupCacheSpec

def pageSizeBytes : GroupCacheSpec → Option Nat
  | layer spec => spec.pageSizeBytes
  | uniformType specs => (specs.values.mapM KVCacheSpec.pageSizeBytes).map sum

def numPages (cfg : VllmConfig) (spec : KVCacheSpec) : Option Int := do
  cdiv? (← spec.maxMemoryUsageBytes cfg) (← spec.pageSizeBytes)

def maxMemoryUsageBytes (cfg : VllmConfig) (spec : GroupCacheSpec) : Option Int :=
  match spec with
  | layer s => s.maxMemoryUsageBytes cfg
  | uniformType specs => do
    let pages ← specs.values.mapM (numPages cfg)
    let maxNumPages ← pages.max?
    some (maxNumPages * (← spec.pageSizeBytes))

end GroupCacheSpec

structure KVCacheGroupSpec where
  layerNames : List String
  kvCacheSpec : GroupCacheSpec

structure LayoutConfig extends VllmConfig where
  disableHybridKvCacheManager : Bool

def strided {α : Type} (l : List α) (i n : Nat) : List α :=
  (l.zipIdx.filter fun x => i ≤ x.2 ∧ (x.2 - i) % n = 0).map Prod.fst

variable (specs)

def sameTypeLayers : Dict KVCacheSpec (List String) :=
  specs.entries.foldl (fun d e => d.set e.2 ((d.get? e.2).getD [] ++ [e.1])) .empty

def groupedLayers : Option (List (List String)) := do
  let groupSize ← ((sameTypeLayers specs).values.map length).min?
  some ((sameTypeLayers specs).values.flatMap fun layers =>
    (range (cdiv layers.length groupSize)).map fun i => strided layers i (cdiv layers.length groupSize))

def createKvCacheGroupSpecs (grouped : List (List String)) : Option (List KVCacheGroupSpec) :=
  grouped.mapM fun names => do
    let layerSpecs ← names.mapM specs.get?
    let first ← layerSpecs.head?
    let merged ← (first.merge layerSpecs).toOption
    some ⟨names, .layer merged⟩

def groupsOf : Option (List KVCacheGroupSpec) := do
  if specs.values = [] then some []
  else if ← KVCacheSpec.isUniform specs.values then createKvCacheGroupSpecs specs [specs.keys]
  else if ← KVCacheSpec.isUniformType specs.values then some [⟨specs.keys, .uniformType specs⟩]
  else
    match ← specs.values.mapM KVCacheSpec.pageSizeBytes with
    | [] => none
    | p :: ps => if ps.all (· = p) then createKvCacheGroupSpecs specs (← groupedLayers specs) else none

variable {specs}

def getKvCacheGroups (cfg : LayoutConfig) (specs : Dict String KVCacheSpec) : Option (List KVCacheGroupSpec) :=
  (if cfg.disableHybridKvCacheManager then unifyHybridKvCacheSpecs specs else some specs).bind groupsOf

/-! ### Configurations -/

structure KVCacheTensor where
  size : Int
  sharedBy : List String

structure KVCacheConfig where
  numBlocks : Int
  kvCacheTensors : List KVCacheTensor
  kvCacheGroups : List KVCacheGroupSpec

structure Worker where
  kvCacheSpec : Dict String KVCacheSpec
  availableMemory : Int

def checkEnoughKvCacheMemory (cfg : VllmConfig) (w : Worker) : Option Unit :=
  if w.kvCacheSpec.len = 0 then some ()
  else if w.availableMemory ≤ 0 then none
  else do
    let needed ← maxMemoryUsageBytes cfg w.kvCacheSpec.values
    if w.availableMemory < needed then none else some ()

def mergeSpecs (ws : List Worker) : Option (Dict String KVCacheSpec) :=
  ws.foldlM (fun d w => w.kvCacheSpec.entries.foldlM (fun d e =>
    match d.get? e.1 with
    | none => some (d.set e.1 e.2)
    | some spec => if spec = e.2 then some d else none) d) .empty

def getUniformPageSize (specs : Dict String KVCacheSpec) : Option Nat := do
  match ← specs.values.mapM KVCacheSpec.pageSizeBytes with
  | [] => none
  | p :: ps => if ps.all (· = p) then some p else none

def getNumBlocks (numLayers : Nat) (availableMemory : Int) (pageSize : Nat) : Int :=
  max (availableMemory / pageSize / numLayers) 0

variable (groups)

def numLayerPerGroup : Nat := (groups.map (·.layerNames.length)).foldl max 0

def getKvCacheConfigFromGroups (w : Worker) : Option KVCacheConfig :=
  match groups with
  | [] => some ⟨1, [], []⟩
  | [⟨names, .uniformType specs⟩] => do
    let pageSize ← (GroupCacheSpec.uniformType specs).pageSizeBytes
    if pageSize = 0 then none
    else
      let numBlocks := w.availableMemory / pageSize
      let tensors ← names.mapM fun name => do
        let spec ← specs.get? name
        let pageSize ← spec.pageSizeBytes
        some (⟨pageSize * numBlocks, [name]⟩ : KVCacheTensor)
      some ⟨numBlocks, tensors, groups⟩
  | _ => do
    let pageSize ← getUniformPageSize w.kvCacheSpec
    if numLayerPerGroup groups = 0 ∨ pageSize = 0 then none
    else
      let numBlocks := getNumBlocks (numLayerPerGroup groups) w.availableMemory pageSize
      some ⟨numBlocks, (range (numLayerPerGroup groups)).map fun i =>
        ⟨pageSize * numBlocks, groups.filterMap (·.layerNames[i]?)⟩, groups⟩

def restrict (w : Worker) (g : KVCacheGroupSpec) : KVCacheGroupSpec :=
  ⟨g.layerNames.filter fun name => (w.kvCacheSpec.get? name).isSome, g.kvCacheSpec⟩

def numBlockPerRequest (cfg : VllmConfig) (groups : List KVCacheGroupSpec) : Option Int := do
  let usage ← (groups.mapM fun (g : KVCacheGroupSpec) => g.kvCacheSpec.maxMemoryUsageBytes cfg).map List.sum
  let first ← groups.head?
  let pageSize ← first.kvCacheSpec.pageSizeBytes
  cdiv? (numLayerPerGroup groups * usage) (pageSize * numLayerPerGroup groups)

def reportKvCacheConfig (cfg : VllmConfig) (c : KVCacheConfig) : Option Unit :=
  if c.kvCacheGroups.isEmpty then some ()
  else do if (← numBlockPerRequest cfg c.kvCacheGroups) = 0 then none else some ()

def shrinkTensor (old new : Int) (t : KVCacheTensor) : Option KVCacheTensor :=
  if old = 0 ∨ t.size.fmod old ≠ 0 then none else some { t with size := t.size.fdiv old * new }

def shrink (cfg : VllmConfig) (n : Int) (c : KVCacheConfig) : Option KVCacheConfig := do
  let tensors ← c.kvCacheTensors.mapM (shrinkTensor c.numBlocks n)
  let c := { c with numBlocks := n, kvCacheTensors := tensors }
  reportKvCacheConfig cfg c
  some c

def workerConfig (w : Worker) : Option KVCacheConfig :=
  let mine := groups.map (restrict w)
  if (mine.map (·.layerNames.length)).sum = w.kvCacheSpec.len then getKvCacheConfigFromGroups mine w else none

variable {groups}

def getKvCacheConfigs (cfg : LayoutConfig) (ws : List Worker) : Option (List KVCacheConfig) := do
  let _ ← ws.mapM (checkEnoughKvCacheMemory cfg.toVllmConfig)
  let specs ← mergeSpecs ws
  let groups ← getKvCacheGroups cfg specs
  let configs ← ws.mapM (workerConfig groups)
  let n ← (configs.map (·.numBlocks)).min?
  configs.mapM (shrink cfg.toVllmConfig n)

/-! ### Names in groups -/

theorem filter_range_mod {n : Nat} (hn : 0 < n) (j : Nat) :
    (range n).filter (fun i => i ≤ j ∧ (j - i) % n = 0) = [j % n] := by
  refine perm_singleton.1 ((perm_ext_iff_of_nodup (nodup_range.filter _) (nodup_singleton _)).2 fun i => ?_)
  rw [mem_filter, mem_range, mem_singleton, decide_eq_true_eq]
  constructor
  · rintro ⟨hi, hle, hmod⟩
    obtain ⟨k, hk⟩ := Nat.dvd_of_mod_eq_zero hmod
    rw [show j = i + n * k by omega, Nat.add_mul_mod_self_left, Nat.mod_eq_of_lt hi]
  · rintro rfl
    exact ⟨Nat.mod_lt j hn, Nat.mod_le j n, Nat.sub_mod_eq_zero_of_mod_eq (Nat.mod_mod j n).symm⟩

theorem flatMap_filter_perm {α : Type} {is : List Nat}
    {test : Nat → α → Bool} (xs : List α) (h : ∀ x ∈ xs, (is.filter fun i => test i x).length = 1) :
    (is.flatMap fun i => xs.filter (test i)).Perm xs := by
  induction xs with
  | nil => simp
  | cons x xs ih =>
    have hx : (is.flatMap fun i => if test i x then [x] else []) = [x] := by
      have hfilter : ∀ js : List Nat, (js.flatMap fun i => if test i x then [x] else []) =
        (js.filter fun i => test i x).map fun _ => x := by
        intro js
        induction js with
        | nil => rfl
        | cons j js ih =>
          rw [flatMap_cons, ih, filter_cons]
          split <;> rfl
      obtain ⟨i, hi⟩ := length_eq_one_iff.1 (h x mem_cons_self)
      rw [hfilter, hi]
      rfl
    have hcons : ∀ i, (x :: xs).filter (test i) = (if test i x then [x] else []) ++ xs.filter (test i) := fun i => by
      rw [filter_cons]
      split <;> rfl
    simp only [hcons]
    refine (flatMap_append_perm is _ _).symm.trans ?_
    rw [hx]
    exact (ih fun y hy => h y (mem_cons_of_mem x hy)).cons x

theorem strided_perm {α : Type} (l : List α) {n : Nat} (hn : 0 < n) :
    ((range n).flatMap fun i => strided l i n).Perm l := by
  have hperm :=
    (@flatMap_filter_perm _ (range n) (fun i (x : α × Nat) => i ≤ x.2 ∧ (x.2 - i) % n = 0) l.zipIdx fun x _ => by
    rw [filter_range_mod hn]
    rfl).map Prod.fst
  rw [map_flatMap, zipIdx_map_fst] at hperm
  exact hperm

theorem flatten_put_perm {κ : Type} [DecidableEq κ] (es : List (κ × List String)) (k : κ) (name : String) :
    (((Dict.put es k ((Dict.lookup es k).getD [] ++ [name])).map Prod.snd).flatten).Perm
      ((es.map Prod.snd).flatten ++ [name]) := by
  induction es with
  | nil => exact .refl _
  | cons e es ih =>
    obtain ⟨a, layers⟩ := e
    by_cases h : a = k
    · simp only [Dict.put, Dict.lookup, h, if_true, getD_some, map_cons, flatten_cons, append_assoc]
      exact perm_append_comm.append_left layers
    · simp only [Dict.put, Dict.lookup, h, if_false, map_cons, flatten_cons, append_assoc]
      exact ih.append_left layers

theorem sameTypeLayers_spec (specs : Dict String KVCacheSpec) :
    (sameTypeLayers specs).values.flatten.Perm specs.keys ∧ ∀ layers ∈ (sameTypeLayers specs).values, layers ≠ [] := by
  have hfold : ∀ (es : List (String × KVCacheSpec)) (d : Dict KVCacheSpec (List String)),
    (∀ layers ∈ d.values, layers ≠ []) →
      ((es.foldl (fun d e => d.set e.2 ((d.get? e.2).getD [] ++ [e.1])) d).values.flatten).Perm
        (d.values.flatten ++ es.map Prod.fst) ∧
        ∀ layers ∈ (es.foldl (fun d e => d.set e.2 ((d.get? e.2).getD [] ++ [e.1])) d).values, layers ≠ [] := by
    intro es
    induction es with
    | nil => exact fun d hd => ⟨by simp, hd⟩
    | cons e es ih =>
      intro d hd
      have hne : ∀ layers ∈ (d.set e.2 ((d.get? e.2).getD [] ++ [e.1])).values, layers ≠ [] := by
        intro layers hl
        obtain ⟨⟨k, layers'⟩, he, rfl⟩ := mem_map.1 hl
        have hget := get?_eq_some.2 he
        rw [get?_set] at hget
        split at hget
        · cases hget
          simp
        · exact hd _ (mem_map.2 ⟨_, get?_eq_some.1 hget, rfl⟩)
      obtain ⟨hperm, hall⟩ := ih _ hne
      refine ⟨hperm.trans ?_, hall⟩
      have hput := (flatten_put_perm d.entries e.2 e.1).append_right (es.map Prod.fst)
      rw [append_assoc] at hput
      exact hput
  obtain ⟨hperm, hne⟩ := hfold specs.entries .empty (fun _ h => (by cases h))
  exact ⟨hperm, hne⟩

theorem groupedLayers_perm {grouped : List (List String)} (h : groupedLayers specs = some grouped) :
    grouped.flatten.Perm specs.keys := by
  obtain ⟨groupSize, hmin, h⟩ := bind_eq_some_iff.1 h
  cases h
  obtain ⟨hperm, hne⟩ := sameTypeLayers_spec specs
  refine List.Perm.trans ?_ hperm
  have hpos : 0 < groupSize := by
    obtain ⟨hmem, -⟩ := min?_eq_some_iff.1 hmin
    obtain ⟨layers, hl, rfl⟩ := mem_map.1 hmem
    exact length_pos_of_ne_nil (hne layers hl)
  generalize (sameTypeLayers specs).values = types at hne
  induction types with
  | nil => exact .refl _
  | cons layers types ih =>
    rw [flatMap_cons, flatten_append, flatten_cons, ← flatMap_def]
    refine (strided_perm layers (cdiv_pos ?_ hpos)).append (ih fun l hl => hne l (mem_cons_of_mem _ hl))
    exact length_pos_of_ne_nil (hne layers mem_cons_self)

theorem createKvCacheGroupSpecs_spec {grouped : List (List String)}
    (h : createKvCacheGroupSpecs specs grouped = some groups) :
    groups.flatMap (·.layerNames) = grouped.flatten ∧ ∀ g ∈ groups, ∃ spec, g.kvCacheSpec = .layer spec := by
  have hone : ∀ names g, (do
      let layerSpecs ← names.mapM specs.get?
      let first ← layerSpecs.head?
      let merged ← (first.merge layerSpecs).toOption
      some (⟨names, .layer merged⟩ : KVCacheGroupSpec)) = some g → g.layerNames = names ∧
        ∃ spec, g.kvCacheSpec = .layer spec := by
    intro names g hg
    obtain ⟨layerSpecs, -, hg⟩ := bind_eq_some_iff.1 hg
    obtain ⟨first, -, hg⟩ := bind_eq_some_iff.1 hg
    obtain ⟨merged, -, hg⟩ := bind_eq_some_iff.1 hg
    cases hg
    exact ⟨rfl, merged, rfl⟩
  rw [createKvCacheGroupSpecs, Except.mapM_eq_some] at h
  refine ⟨?_, fun g hg => ?_⟩
  · rw [flatMap_def]
    refine congrArg flatten ?_
    induction h with
    | nil => rfl
    | cons hg _ ih => rw [map_cons, (hone _ _ hg).1, ih]
  · induction h with
    | nil => cases hg
    | cons hg' _ ih =>
      rcases mem_cons.1 hg with rfl | hg
      · exact (hone _ _ hg').2
      · exact ih hg

theorem groupsOf_cases (h : groupsOf specs = some groups) :
    (groups.flatMap (·.layerNames)).Perm specs.keys ∧
      (groups = [⟨specs.keys, .uniformType specs⟩] ∨ ∀ g ∈ groups, ∃ spec, g.kvCacheSpec = .layer spec) := by
  rw [groupsOf] at h
  split at h
  next hnil =>
    cases h
    refine ⟨?_, .inr fun g hg => (by cases hg)⟩
    rw [Dict.keys, map_eq_nil_iff.1 hnil]
    exact .refl _
  · obtain ⟨uniform, -, h⟩ := bind_eq_some_iff.1 h
    split at h
    · obtain ⟨hnames, hlayer⟩ := createKvCacheGroupSpecs_spec h
      refine ⟨?_, .inr hlayer⟩
      rw [hnames, flatten_singleton]
    · obtain ⟨uniformType, -, h⟩ := bind_eq_some_iff.1 h
      split at h
      · cases h
        refine ⟨?_, .inl rfl⟩
        rw [flatMap_singleton]
      · obtain ⟨sizes, -, h⟩ := bind_eq_some_iff.1 h
        split at h
        · cases h
        · split at h
          · obtain ⟨grouped, hgrouped, h⟩ := bind_eq_some_iff.1 h
            obtain ⟨hnames, hlayer⟩ := createKvCacheGroupSpecs_spec h
            refine ⟨?_, .inr hlayer⟩
            rw [hnames]
            exact groupedLayers_perm hgrouped
          · cases h

theorem toFull_pageSizeBytes (spec : KVCacheSpec) : spec.toFull.pageSizeBytes = spec.pageSizeBytes := by
  cases spec <;> rfl

/-- Every layer has pages of `p` bytes. -/
abbrev Paged (p : Nat) (specs : Dict String KVCacheSpec) : Prop := ∀ spec ∈ specs.values, spec.pageSizeBytes = some p

theorem getKvCacheGroups_cases {cfg : LayoutConfig}
    {p : Nat} (hpage : Paged p specs) (h : getKvCacheGroups cfg specs = some groups) :
    (groups.flatMap (·.layerNames)).Perm specs.keys ∧
      ((∃ specs', groups = [⟨specs.keys, .uniformType specs'⟩] ∧ specs'.keys = specs.keys ∧ Paged p specs') ∨
        ∀ g ∈ groups, ∃ spec, g.kvCacheSpec = .layer spec) := by
  obtain ⟨specs', hspecs', h⟩ := bind_eq_some_iff.1 h
  have hsame : specs'.keys = specs.keys ∧ Paged p specs' := by
    split at hspecs'
    · obtain ⟨one, -, hspecs'⟩ := bind_eq_some_iff.1 hspecs'
      split at hspecs'
      · cases hspecs'
        exact ⟨rfl, hpage⟩
      · obtain ⟨one', -, hspecs'⟩ := bind_eq_some_iff.1 hspecs'
        split at hspecs'
        · cases hspecs'
          split
          · refine ⟨keys_mapValues _ _, fun spec hspec => ?_⟩
            obtain ⟨e, he, rfl⟩ := mem_map.1 hspec
            obtain ⟨e', he', rfl⟩ := mem_map.1 he
            rw [toFull_pageSizeBytes]
            exact hpage _ (mem_map_of_mem he')
          · exact ⟨rfl, hpage⟩
        · cases hspecs'
    · cases hspecs'
      exact ⟨rfl, hpage⟩
  obtain ⟨hperm, hcase⟩ := groupsOf_cases h
  rw [hsame.1] at hperm hcase
  exact ⟨hperm, hcase.imp_left fun heq => ⟨specs', heq, hsame⟩⟩

/-! ### The layers of a worker -/

theorem mergeSpecs_spec {ws : List Worker} (h : mergeSpecs ws = some specs) :
    (∀ w ∈ ws, ∀ name spec, w.kvCacheSpec.get? name = some spec → specs.get? name = some spec) ∧
      ∀ name spec, specs.get? name = some spec → ∃ w ∈ ws, w.kvCacheSpec.get? name = some spec := by
  let merge (d : Dict String KVCacheSpec) (e : String × KVCacheSpec) := match d.get? e.1 with
    | none => some (d.set e.1 e.2)
    | some spec => if spec = e.2 then some d else none
  have hentries : ∀ es d (d' : Dict String KVCacheSpec), foldlM merge d es = some d' →
      (∀ name spec, d.get? name = some spec → d'.get? name = some spec) ∧ (∀ e ∈ es, d'.get? e.1 = some e.2) ∧
        ∀ name spec, d'.get? name = some spec → d.get? name = some spec ∨ (name, spec) ∈ es := by
    intro es
    induction es with
    | nil =>
      intro d d' hd
      cases hd
      exact ⟨fun _ _ h => h, fun _ he => (by cases he), fun _ _ h => .inl h⟩
    | cons e es ih =>
      intro d d' hd
      rw [foldlM_cons] at hd
      obtain ⟨d₁, hd₁, hd⟩ := bind_eq_some_iff.1 hd
      obtain ⟨hkeep, hall, hback⟩ := ih d₁ d' hd
      -- the entry is in the dictionary, and nothing else is new
      have hone : (∀ name spec, d.get? name = some spec → d₁.get? name = some spec) ∧ d₁.get? e.1 = some e.2 ∧
          ∀ name spec, d₁.get? name = some spec → d.get? name = some spec ∨ (name, spec) = e := by
        simp only [merge] at hd₁
        split at hd₁
        next hnone =>
          cases hd₁
          refine ⟨fun name spec hn => ?_, get?_set_self _ _ _, fun name spec hn => ?_⟩
          · rw [get?_set_of_ne (fun heq => by rw [heq, hnone] at hn; cases hn)]
            exact hn
          · rw [get?_set] at hn
            split at hn
            next heq =>
              cases hn
              exact .inr (by rw [heq])
            next => exact .inl hn
        next spec hsome =>
          split at hd₁
          next heq =>
            cases hd₁
            exact ⟨fun _ _ h => h, heq ▸ hsome, fun _ _ h => .inl h⟩
          · cases hd₁
      refine ⟨fun name spec hn => hkeep name spec (hone.1 name spec hn), fun e' he' => ?_, fun name spec hn => ?_⟩
      · rcases mem_cons.1 he' with rfl | he'
        · exact hkeep _ _ hone.2.1
        · exact hall e' he'
      · rcases hback name spec hn with hn | hmem
        · exact (hone.2.2 name spec hn).imp_right fun heq => mem_cons.2 (.inl heq)
        · exact .inr (mem_cons_of_mem e hmem)
  have hflat : ∀ (ws : List Worker) d, foldlM (fun d w => w.kvCacheSpec.entries.foldlM merge d) d ws =
      (ws.flatMap (·.kvCacheSpec.entries)).foldlM merge d := by
    intro ws
    induction ws with
    | nil => exact fun d => rfl
    | cons w ws ih =>
      intro d
      rw [foldlM_cons, flatMap_cons, foldlM_append]
      exact congrArg _ (funext ih)
  obtain ⟨-, hall, hback⟩ := hentries _ .empty specs ((hflat ws .empty).symm.trans h)
  refine ⟨fun w hw name spec hn => hall (name, spec) (mem_flatMap.2 ⟨w, hw, get?_eq_some.1 hn⟩), fun name spec hn => ?_⟩
  obtain ⟨w, hw, hmem⟩ := mem_flatMap.1 ((hback name spec hn).resolve_left fun hempty => (by cases hempty))
  exact ⟨w, hw, get?_eq_some.2 hmem⟩

theorem flatMap_restrict (w : Worker) (groups : List KVCacheGroupSpec) :
    (groups.map (restrict w)).flatMap (·.layerNames) =
      (groups.flatMap (·.layerNames)).filter fun name => (w.kvCacheSpec.get? name).isSome := by
  rw [filter_flatMap, flatMap_map]
  rfl

/-- The groups hold the layers of a worker, each once. -/
abbrev Holds (groups : List KVCacheGroupSpec) (w : Worker) : Prop :=
  ((groups.map (restrict w)).flatMap (·.layerNames)).Perm w.kvCacheSpec.keys

theorem restrict_perm {ws : List Worker} {w : Worker} (h : mergeSpecs ws = some specs)
    (hperm : (groups.flatMap (·.layerNames)).Perm specs.keys) (hw : w ∈ ws) : Holds groups w := by
  rw [Holds, flatMap_restrict]
  refine (hperm.filter _).trans ((perm_ext_iff_of_nodup (specs.nodup.filter _) w.kvCacheSpec.nodup).2 fun name => ?_)
  rw [mem_filter]
  refine ⟨fun hn => mem_keys.2 hn.2, fun hn => ?_⟩
  obtain ⟨spec, hspec⟩ := isSome_iff_exists.1 (mem_keys.1 hn)
  refine ⟨mem_keys.2 ?_, mem_keys.1 hn⟩
  rw [(mergeSpecs_spec h).1 w hw name spec hspec]
  rfl

end Xmix.Kv.Layout
