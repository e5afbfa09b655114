import Xmix.Kv.CacheHits
import Mathlib.Order.Bounds.Defs

/-!
# The longest prefix cache hit

The searches of the managers, each in its own direction, against one description. A prefix of `L`
blocks serves a group when the blocks that the token behind it attends to are cached (`Serves`);
they are the blocks from `needFrom` on. What a search returns is the longest such prefix
(`findHits_longest`), with null blocks before `needFrom`.
-/

namespace Xmix.Kv

open List Option

variable {η : Type} [DecidableEq η] {p : BlockPool η} {groups : List Nat} {hashes : List η}

/-- The `i`-th hash is cached in every group. -/
def CachedAt (p : BlockPool η) (groups : List Nat) (hashes : List η) (i : Nat) : Prop :=
  ∃ h, hashes[i]? = some h ∧ ∀ g ∈ groups, (p.cachedBlockHashToBlock.getOneBlock (h, g)).isSome

theorem getCachedBlock_isSome {h : η} : (p.getCachedBlock h groups).isSome ↔
      ∀ g ∈ groups, (p.cachedBlockHashToBlock.getOneBlock (h, g)).isSome := by
  rw [BlockPool.getCachedBlock, isSome_iff_exists, Except.exists_mapM]

section
variable (hg : groups ≠ []) {i : Nat} {h : η} (hi : hashes[i]? = some h)
include hg hi

theorem cachedRow_isSome :
    (cachedRow p groups h).isSome ↔ CachedAt p groups hashes i := by
  have hcached : CachedAt p groups hashes i ↔ (p.getCachedBlock h groups).isSome := by
    rw [getCachedBlock_isSome]
    constructor
    · rintro ⟨h', hi', hall⟩
      cases hi'.symm.trans hi
      exact hall
    · exact fun hall => ⟨h, hi, hall⟩
  rw [hcached, cachedRow]
  rcases hrow : p.getCachedBlock h groups with - | row
  · simp
  · have hne : row ≠ [] :=
      fun hnil => hg (length_eq_zero_iff.1 ((getCachedBlock_ok hrow).1.symm.trans (by rw [hnil]; rfl)))
    simp [hne]

theorem cachedAt_of_row {row : List Nat} (hrow : cachedRow p groups h = some row) :
    CachedAt p groups hashes i := (cachedRow_isSome hg hi).1 (by rw [hrow]; rfl)

theorem not_cachedAt_of_none (hrow : cachedRow p groups h = none) :
    ¬ CachedAt p groups hashes i := fun hc => by
  have := (cachedRow_isSome hg hi).2 hc
  rw [hrow] at this
  cases this

end

structure Shape (p : BlockPool η) (groups : List Nat) (hashes : List η) (start : Nat)
    (rows : List (List Nat)) : Prop where
  null : ∀ k row, rows[k]? = some row → k < start → row = nullRow p groups
  cached : ∀ k row, rows[k]? = some row → start ≤ k → ∃ h, hashes[k]? = some h ∧ cachedRow p groups h = some row

variable {eagle : Bool} {spec : GroupSpec} {start window : Nat}

theorem Shape.take {rows : List (List Nat)} (h : Shape p groups hashes start rows) (n : Nat) :
    Shape p groups hashes start (rows.take n) := by
  have hget : ∀ {k : Nat} {row : List Nat}, (rows.take n)[k]? = some row → rows[k]? = some row := fun hk => by
    rw [getElem?_take] at hk
    split at hk
    · exact hk
    · cases hk
  exact ⟨fun k row hk => h.null k row (hget hk), fun k row hk => h.cached k row (hget hk)⟩

/-! ### Blocks in a row -/

def Reaches (hit : Nat → Prop) (need L : Nat) : Prop := ∀ i, L - need ≤ i → i < L → hit i

structure Searching (hit : Nat → Prop) (need n i c : Nat) : Prop where
  few : c < need
  inside : i + c ≤ n
  hits : ∀ k, i ≤ k → k < i + c → hit k
  longer : ∀ L, i + c < L → L ≤ n → ¬ Reaches hit need L

section Search
variable {hit : Nat → Prop} {need n i c : Nat}

theorem Searching.init (hneed : 0 < need) : Searching hit need n n 0 :=
  ⟨hneed, Nat.le_refl _, fun k h₁ h₂ => by omega, fun L h₁ h₂ => by omega⟩

section
variable (h : Searching hit need n (i + 1) c)
include h

theorem Searching.step (hi : hit i) (hc : c + 1 < need) : Searching hit need n i (c + 1) := by
  refine ⟨hc, by have := h.inside; omega, fun k h₁ h₂ => ?_, fun L h₁ h₂ => h.longer L (by omega) h₂⟩
  rcases Nat.eq_or_lt_of_le h₁ with rfl | hlt
  · exact hi
  · exact h.hits k hlt (by omega)

theorem Searching.miss (hi : ¬ hit i) : Searching hit need n i 0 := by
  refine ⟨by have := h.few; omega, by have := h.inside; omega, fun k h₁ h₂ => by omega, fun L h₁ h₂ hL => ?_⟩
  rcases Nat.lt_or_ge (i + 1 + c) L with hlt | hge
  · exact h.longer L hlt h₂ hL
  · have := h.few
    exact hi (hL i (by omega) (by omega))

theorem Searching.found (hi : hit i) (hc : need ≤ c + 1) :
    IsGreatest {L | L ≤ n ∧ Reaches hit need L} (i + (c + 1)) := by
  have hin := h.inside
  refine ⟨⟨by omega, fun k h₁ h₂ => ?_⟩, fun L hL => ?_⟩
  · rcases Nat.eq_or_lt_of_le (show i ≤ k by omega) with rfl | hlt
    · exact hi
    · exact h.hits k hlt (by omega)
  · by_contra hlt
    exact h.longer L (by omega) hL.1 hL.2

end

theorem Searching.exhausted (h : Searching hit need n 0 c) : IsGreatest {L | L ≤ n ∧ Reaches hit need L} c := by
  have hin := h.inside
  refine ⟨⟨by omega, fun k _ h₂ => h.hits k (Nat.zero_le k) (by omega)⟩, fun L hL => ?_⟩
  by_contra hlt
  exact h.longer L (by omega) hL.1 hL.2

end Search

/-! ### Sliding windows -/

theorem slidingLoop_isSome {need i c : Nat} {rows : List (List Nat)} :
    (slidingLoop p groups hashes need i rows c).isSome ↔ i ≤ hashes.length := by
  constructor
  · intro h
    rcases i with - | i
    · exact Nat.zero_le _
    · obtain ⟨res, h⟩ := isSome_iff_exists.1 h
      obtain ⟨x, hx, -⟩ := bind_eq_some_iff.1 h
      exact (List.getElem?_eq_some_iff.1 hx).1
  · intro h
    induction i generalizing rows c with
    | zero => rfl
    | succ i ih =>
      rw [slidingLoop, getElem?_eq_getElem h, bind_eq_bind, bind_some]
      split
      · split
        · rfl
        · exact ih (Nat.le_of_succ_le h)
      · exact ih (Nat.le_of_succ_le h)

variable {rows : List (List Nat)}

theorem slidingLoop_greatest (hg : groups ≠ []) {need n i c : Nat} {res : List (List Nat) × Nat × Bool}
    (hs : 0 < need → Searching (CachedAt p groups hashes) need n i c) (hin : i + c ≤ n) (hlen : rows.length = n)
    (hshape : Shape p groups hashes i (rows.take (i + c))) (h : slidingLoop p groups hashes need i rows c = some res) :
    ∃ start, Shape p groups hashes start (if res.2.2 then res.1 else res.1.take res.2.1) ∧ (0 < need →
      IsGreatest {L | L ≤ n ∧ Reaches (CachedAt p groups hashes) need L}
        (if res.2.2 then res.1 else res.1.take res.2.1).length ∧
      start = (if res.2.2 then res.1 else res.1.take res.2.1).length - need) := by
  induction i generalizing rows c with
  | zero =>
    cases h
    have hout : (rows.take c).length = c := by rw [length_take]; omega
    rw [Nat.zero_add] at hshape
    simp only [Bool.false_eq_true, if_false, hout]
    refine ⟨0, hshape, fun hneed => ⟨(hs hneed).exhausted, ?_⟩⟩
    have := (hs hneed).few
    omega
  | succ i ih =>
    obtain ⟨x, hx, h⟩ := bind_eq_some_iff.1 h
    rcases hrow : cachedRow p groups x with - | row
    · rw [hrow] at h
      refine ih (fun hneed => (hs hneed).miss (not_cachedAt_of_none hg hx hrow)) (by omega) hlen
        ⟨fun k row' hk hki => ?_, fun k row' hk hki => ?_⟩ h
      · rw [getElem?_take] at hk
        split at hk
        · exact hshape.null k row' (by rw [getElem?_take, if_pos (by omega)]; exact hk) (by omega)
        · cases hk
      · rw [getElem?_take, if_neg (by omega)] at hk
        cases hk
    · rw [hrow] at h
      have hset : Shape p groups hashes i ((rows.set i row).take (i + (c + 1))) := by
        refine ⟨fun k row' hk hki => ?_, fun k row' hk hki => ?_⟩
        · rw [getElem?_take, if_pos (by omega), getElem?_set_ne (by omega)] at hk
          exact hshape.null k row' (by rw [getElem?_take, if_pos (by omega)]; exact hk) (by omega)
        · rcases Nat.eq_or_lt_of_le hki with rfl | hlt
          · rw [getElem?_take, if_pos (by omega), getElem?_set_self (by omega)] at hk
            cases hk
            exact ⟨x, hx, hrow⟩
          · rw [getElem?_take] at hk
            split at hk
            next hkc =>
              rw [getElem?_set_ne (by omega)] at hk
              exact hshape.cached k row' (by rw [getElem?_take, if_pos (by omega)]; exact hk) (by omega)
            next => cases hk
      have hhit := cachedAt_of_row hg hx hrow
      simp only at h
      split at h
      next hneed =>
        cases h
        have hout : ((rows.set i row).take (i + (c + 1))).length = i + (c + 1) := by
          rw [length_take, length_set]
          omega
        simp only [if_true, hout]
        refine ⟨i, hset, fun hpos => ⟨(hs hpos).found hhit hneed, ?_⟩⟩
        have := (hs hpos).few
        omega
      next hneed =>
        exact ih (fun hpos => (hs hpos).step hhit (Nat.not_le.1 hneed)) (by omega)
          (by rw [length_set]; exact hlen) hset h

theorem shape_nullRows (n : Nat) : Shape p groups hashes n ((replicate n (nullRow p groups)).take (n + 0)) := by
  refine ⟨fun k row hk _ => ?_, fun k row hk hle => ?_⟩
  · exact eq_of_mem_replicate (mem_of_mem_take (mem_of_getElem? hk))
  · rw [getElem?_take, if_neg (by omega)] at hk
    cases hk

variable {maxLength bs : Nat}

theorem slidingHits_eq (hg : groups ≠ [])
    (h : slidingHits p groups hashes maxLength bs window eagle = some rows) :
    ∃ out start, rows = dropForEagle eagle out ∧ Shape p groups hashes start out ∧
      (0 < cdiv (window - 1) bs + (if eagle then 1 else 0) →
      IsGreatest {L | L ≤ maxLength / bs ∧ Reaches (CachedAt p groups hashes)
        (cdiv (window - 1) bs + if eagle then 1 else 0) L} out.length ∧
      start = out.length - (cdiv (window - 1) bs + if eagle then 1 else 0)) := by
  obtain ⟨res, hloop, h⟩ := bind_eq_some_iff.1 h
  cases h
  obtain ⟨start, hshape, hgreat⟩ :=
    slidingLoop_greatest hg .init (Nat.le_refl _) length_replicate (shape_nullRows _) hloop
  exact ⟨_, start, rfl, hshape, hgreat⟩

theorem slidingHits_isSome :
    (slidingHits p groups hashes maxLength bs window eagle).isSome ↔ maxLength / bs ≤ hashes.length := by
  rw [← @slidingLoop_isSome η _ p groups hashes (cdiv (window - 1) bs + if eagle then 1 else 0) (maxLength / bs) 0
    (replicate (maxLength / bs) (nullRow p groups)), slidingHits]
  rcases slidingLoop p groups hashes (cdiv (window - 1) bs + if eagle then 1 else 0) (maxLength / bs)
    (replicate (maxLength / bs) (nullRow p groups)) 0 with - | res <;> rfl

/-- Sliding window hits are maximal. The search raises exactly if there are not enough hashes. -/
theorem slidingWindow_greatest (p : BlockPool η) (hg : groups ≠ [])
    (hashes : List η) {bs window : Nat} (hbs : 0 < bs) (hw : 2 ≤ window) (maxLength : Nat) :
    (∀ eagle, slidingHits p groups hashes maxLength bs window eagle = none ↔ hashes.length < maxLength / bs) ∧
      (∀ rows, slidingHits p groups hashes maxLength bs window false = some rows →
        IsGreatest {L | L ≤ maxLength / bs ∧ ∀ i, L - cdiv (window - 1) bs ≤ i → i < L →
          CachedAt p groups hashes i} rows.length ∧
        ∀ list ∈ columns groups.length rows, ∀ i < rows.length - cdiv (window - 1) bs, list[i]? = some p.nullBlock) ∧
      ∀ rows, slidingHits p groups hashes maxLength bs window true = some rows →
        ∃ L, IsGreatest {L | L ≤ maxLength / bs ∧ ∀ i, L - (cdiv (window - 1) bs + 1) ≤ i → i < L →
          CachedAt p groups hashes i} L ∧
          rows.length = L - 1 := by
  have hneed : 0 < cdiv (window - 1) bs := cdiv_pos (by omega) hbs
  refine ⟨fun eagle => ?_, fun rows h => ?_, fun rows h => ?_⟩
  · rw [← Nat.not_le, ← slidingHits_isSome, not_isSome_iff_eq_none]
  · obtain ⟨out, start, hout, hshape, hgreat⟩ := slidingHits_eq hg h
    obtain rfl : rows = out := hout
    obtain ⟨hmax, rfl⟩ := hgreat hneed
    refine ⟨hmax, fun list hlist i hi => ?_⟩
    obtain ⟨j, hj, rfl⟩ := mem_map.1 hlist
    have hlt : i < rows.length := by omega
    rw [getElem?_map, getElem?_eq_getElem hlt, map_some, hshape.null i _ (getElem?_eq_getElem hlt) hi]
    have hj' : j < groups.length := mem_range.1 hj
    simp [nullRow, hj']
  · obtain ⟨out, start, rfl, -, hgreat⟩ := slidingHits_eq hg h
    exact ⟨out.length, (hgreat (Nat.succ_pos _)).1, by simp [dropForEagle]⟩

def windowPool : BlockPool Nat where
  numGpuBlocks := 8
  enableCaching := true
  refCnt := fun _ => 0
  blockHash := fun _ => none
  freeBlockQueue := .ofBlocks []
  cachedBlockHashToBlock := BlockMap.insert (BlockMap.insert .empty (10, 0) 4) (12, 0) 5
  nullBlock := 0

theorem windowPool_greatest : slidingHits windowPool [0] [10, 11, 12, 13] 9 2 3 false = some [[0], [0], [5]] ∧
    IsGreatest {L | L ≤ 9 / 2 ∧ ∀ i, L - cdiv (3 - 1) 2 ≤ i → i < L → CachedAt windowPool [0] [10, 11, 12, 13] i} 3 ∧
    slidingHits windowPool [0] [10] 9 2 3 false = none := by
  have hrows : slidingHits windowPool [0] [10, 11, 12, 13] 9 2 3 false = some [[0], [0], [5]] := by decide
  refine ⟨hrows, ?_, ?_⟩
  · exact ((slidingWindow_greatest windowPool (by decide) [10, 11, 12, 13] (by decide) (by decide) 9).2.1 _ hrows).1
  · exact ((slidingWindow_greatest windowPool (by decide) [10] (by decide) (by decide) 9).1 false).2 (by decide)

/-! ### The other searches -/

theorem hitsFrom_greatest (hg : groups ≠ []) {n i : Nat} (h : hitsFrom p groups hashes n i = some rows) :
    rows.length ≤ n ∧ (∀ k row, rows[k]? = some row → ∃ h, hashes[i + k]? = some h ∧ cachedRow p groups h = some row) ∧
      (rows.length < n → ¬ CachedAt p groups hashes (i + rows.length)) := by
  induction n generalizing i rows with
  | zero =>
    cases h
    exact ⟨Nat.le_refl _, by simp, by simp⟩
  | succ n ih =>
    obtain ⟨x, hx, h⟩ := bind_eq_some_iff.1 h
    rcases hrow : cachedRow p groups x with - | row
    · rw [hrow] at h
      cases h
      exact ⟨Nat.zero_le _, by simp, fun _ => not_cachedAt_of_none hg hx hrow⟩
    · rw [hrow] at h
      obtain ⟨rest, hrest, h⟩ := bind_eq_some_iff.1 h
      cases h
      obtain ⟨hle, hcached, hstop⟩ := ih hrest
      refine ⟨by simpa using hle, fun k row' hk => ?_, fun hlt => ?_⟩
      · cases k with
        | zero =>
          obtain rfl : row = row' := by simpa using hk
          exact ⟨x, hx, hrow⟩
        | succ k =>
          have := hcached k row' (by simpa using hk)
          rwa [show i + (k + 1) = i + 1 + k by omega]
      · have := hstop (by simpa using hlt)
        rwa [length_cons, show i + (rest.length + 1) = i + 1 + rest.length by omega]

def needFrom (spec : GroupSpec) (L : Nat) : Nat :=
  match spec.kind with
  | .slidingWindow w => L - max 1 (cdiv (w - 1) spec.blockSize)
  | .chunkedLocal c => L * spec.blockSize / c * c / spec.blockSize
  | .mamba _ => L - 1
  | _ => 0

def Serves (spec : GroupSpec) (p : BlockPool η) (groups : List Nat) (hashes : List η) (L : Nat) : Prop :=
  ∀ i, needFrom spec L ≤ i → i < L → CachedAt p groups hashes i

def GroupSpec.Aligned (spec : GroupSpec) : Prop := ∀ c, spec.kind = .chunkedLocal c → spec.blockSize ∣ c

theorem Shape.serves (hg : groups ≠ []) (h : Shape p groups hashes (needFrom spec rows.length) rows) :
    Serves spec p groups hashes rows.length := fun i hi hlt => by
  obtain ⟨x, hx, hrow⟩ := h.cached i _ (getElem?_eq_getElem hlt) hi
  exact cachedAt_of_row hg hx hrow

theorem fullHits_greatest (hg : groups ≠ [])
    (h : fullHits p groups hashes maxLength bs false = some rows) :
    IsGreatest {L | L ≤ maxLength / bs ∧ ∀ i < L, CachedAt p groups hashes i} rows.length ∧
      Shape p groups hashes 0 rows := by
  obtain ⟨rows', hrows, h⟩ := bind_eq_some_iff.1 h
  obtain rfl : rows' = rows := some.inj h
  obtain ⟨hle, hcached, hstop⟩ := hitsFrom_greatest hg hrows
  simp only [Nat.zero_add] at hcached hstop
  refine ⟨⟨⟨by omega, fun i hi => ?_⟩, fun L hL => ?_⟩, fun k row _ hk => by omega, fun k row hk _ => hcached k row hk⟩
  · obtain ⟨x, hx, hrow⟩ := hcached i _ (getElem?_eq_getElem hi)
    exact cachedAt_of_row hg hx hrow
  · by_contra hlt
    have hmiss := hL.2 rows'.length (by omega)
    obtain ⟨x, hx, -⟩ := id hmiss
    have hlen := (List.getElem?_eq_some_iff.1 hx).1
    have := hL.1
    exact hstop (by omega) hmiss

theorem slidingLoop_zero {i c : Nat} :
    slidingLoop p groups hashes 0 i rows c = slidingLoop p groups hashes 1 i rows c := by
  induction i generalizing rows c with
  | zero => rfl
  | succ i ih =>
    rw [slidingLoop, slidingLoop]
    refine congrArg _ (funext fun x => ?_)
    split
    · rw [if_pos (Nat.zero_le _), if_pos (by omega)]
    · exact ih

theorem slidingHits_greatest (hg : groups ≠ [])
    (h : slidingHits p groups hashes maxLength bs window false = some rows) :
    IsGreatest {L | L ≤ maxLength / bs ∧ Reaches (CachedAt p groups hashes)
      (max 1 (cdiv (window - 1) bs)) L} rows.length ∧
      Shape p groups hashes (rows.length - max 1 (cdiv (window - 1) bs)) rows := by
  have hloop : slidingLoop p groups hashes (cdiv (window - 1) bs) (maxLength / bs)
    (replicate (maxLength / bs) (nullRow p groups)) 0 =
      slidingLoop p groups hashes (max 1 (cdiv (window - 1) bs)) (maxLength / bs)
        (replicate (maxLength / bs) (nullRow p groups)) 0 := by
    rcases Nat.eq_zero_or_pos (cdiv (window - 1) bs) with hz | hpos
    · rw [hz]
      exact slidingLoop_zero
    · rw [max_eq_right hpos]
  obtain ⟨res, hres, h⟩ := bind_eq_some_iff.1 h
  obtain ⟨start, hshape, hgreat⟩ :=
    slidingLoop_greatest hg .init (Nat.le_refl _) length_replicate (shape_nullRows _) (hloop.symm.trans hres)
  obtain ⟨hmax, rfl⟩ := hgreat (by omega)
  cases h
  exact ⟨hmax, hshape⟩

theorem chunk_start {a b bs c : Nat} (hc : 0 < c) (hle : a / c * c ≤ b * bs) (hb : b * bs ≤ a) :
    b * bs / c = a / c := by
  refine Nat.le_antisymm (Nat.div_le_div_right hb) ?_
  rw [Nat.le_div_iff_mul_le hc]
  exact hle

theorem chunkedHits_greatest (hg : groups ≠ []) {maxLength bs chunk : Nat} (hbs : 0 < bs) (hc : 0 < chunk)
    (h : chunkedHits p groups hashes maxLength bs chunk false = some rows) :
    rows.length ≤ maxLength / bs ∧
      (∀ L, rows.length < L → L ≤ maxLength / bs → ¬ ∀ i, L * bs / chunk * chunk / bs ≤ i → i < L →
        CachedAt p groups hashes i) ∧
      Shape p groups hashes (maxLength / chunk * chunk / bs) rows ∧
      (bs ∣ chunk → rows.length * bs / chunk * chunk / bs = maxLength / chunk * chunk / bs) := by
  obtain ⟨rows', hrows, h⟩ := bind_eq_some_iff.1 h
  cases h
  obtain ⟨hle, hcached, hstop⟩ := hitsFrom_greatest hg hrows
  have hfloor := Nat.div_add_mod (maxLength / chunk * chunk) bs
  have hmod := Nat.mod_lt (maxLength / chunk * chunk) hbs
  have hdvd : bs ∣ chunk → maxLength / chunk * chunk / bs * bs = maxLength / chunk * chunk :=
    fun hd => Nat.div_mul_cancel (Dvd.dvd.mul_left hd _)
  have hself := Nat.div_mul_le_self maxLength chunk
  generalize hs : maxLength / chunk * chunk / bs = start at *
  have hsle : start ≤ maxLength / bs := by
    rw [← hs]
    exact Nat.div_le_div_right hself
  have hlen : (replicate start (nullRow p groups) ++ rows').length = start + rows'.length := by simp
  rw [hlen]
  refine ⟨by omega, fun L h₁ h₂ hL => ?_, ⟨fun k row hk hlt => ?_, fun k row hk hle => ?_⟩, fun hd => ?_⟩
  · -- a longer prefix ends in the chunk of `maxLength`
    have hchunk : maxLength / chunk * chunk ≤ L * bs := by
      have := Nat.mul_le_mul_right bs (show start + 1 ≤ L by omega)
      rw [Nat.succ_mul, Nat.mul_comm start] at this
      omega
    refine hstop (by omega) (hL _ ?_ (by omega))
    rw [chunk_start hc hchunk ((Nat.le_div_iff_mul_le hbs).1 h₂), hs]
    omega
  · rw [getElem?_append_left (by simpa using hlt)] at hk
    exact eq_of_mem_replicate (mem_of_getElem? hk)
  · rw [getElem?_append_right (by simpa using hle), length_replicate] at hk
    have := hcached _ row hk
    rwa [show start + (k - start) = k by omega] at this
  · rw [chunk_start hc ?_ ((Nat.le_div_iff_mul_le hbs).1 (show start + rows'.length ≤ maxLength / bs by omega)), hs]
    rw [← hdvd hd]
    exact Nat.mul_le_mul_right bs (Nat.le_add_right _ _)

theorem mambaHits_greatest (hg : groups ≠ []) {n : Nat} (h : mambaHits p groups hashes n = some rows) :
    IsGreatest {L | L ≤ n ∧ ∀ i, L - 1 ≤ i → i < L → CachedAt p groups hashes i} rows.length ∧
      Shape p groups hashes (rows.length - 1) rows := by
  induction n with
  | zero =>
    cases h
    exact ⟨⟨⟨Nat.le_refl _, by simp⟩, fun L hL => hL.1⟩, by simp, by simp⟩
  | succ n ih =>
    obtain ⟨x, hx, h⟩ := bind_eq_some_iff.1 h
    rcases hrow : cachedRow p groups x with - | row
    · rw [hrow] at h
      obtain ⟨⟨⟨hle, hcached⟩, hmax⟩, hshape⟩ := ih h
      refine ⟨⟨⟨by omega, hcached⟩, fun L hL => hmax ⟨?_, hL.2⟩⟩, hshape⟩
      by_contra hlt
      exact not_cachedAt_of_none hg hx hrow (hL.2 n (by have := hL.1; omega) (by omega))
    · rw [hrow] at h
      cases h
      have hlen : (replicate n (nullRow p groups) ++ [row]).length = n + 1 := by simp
      rw [hlen, Nat.add_sub_cancel]
      refine ⟨⟨⟨Nat.le_refl _, fun i hi hlt => ?_⟩, fun L hL => hL.1⟩, fun k row' hk hlt => ?_, fun k row' hk hle => ?_⟩
      · obtain rfl : i = n := by omega
        exact cachedAt_of_row hg hx hrow
      · rw [getElem?_append_left (by simpa using hlt)] at hk
        exact eq_of_mem_replicate (mem_of_getElem? hk)
      · have hkn : k = n := by
          have := (List.getElem?_eq_some_iff.1 hk).1
          omega
        subst hkn
        rw [getElem?_append_right (by simp), length_replicate, Nat.sub_self] at hk
        obtain rfl : row = row' := by simpa using hk
        exact ⟨x, hx, hrow⟩

theorem findHits_longest (hg : groups ≠ []) {maxLength : Nat}
    (h : findHits spec p groups hashes maxLength false = some rows) :
    rows.length ≤ maxLength / spec.blockSize ∧
      (∀ L, rows.length < L → L ≤ maxLength / spec.blockSize → ¬ Serves spec p groups hashes L) ∧
      (spec.Aligned ∨ maxLength = rows.length * spec.blockSize →
        Shape p groups hashes (needFrom spec rows.length) rows) := by
  have hof : ∀ {P : Nat → Prop}, IsGreatest {L | L ≤ maxLength / spec.blockSize ∧ P L} rows.length →
      rows.length ≤ maxLength / spec.blockSize ∧ ∀ L, rows.length < L → L ≤ maxLength / spec.blockSize →
        ¬ P L := fun hgreat =>
    ⟨hgreat.1.1, fun L h₁ h₂ hL => absurd (hgreat.2 ⟨h₂, hL⟩) (Nat.not_le.2 h₁)⟩
  rw [findHits] at h
  unfold Serves needFrom
  split at h
  next hk =>
    simp only [hk, Nat.zero_le, true_implies]
    obtain ⟨hgreat, hshape⟩ := fullHits_greatest hg h
    exact ⟨(hof hgreat).1, (hof hgreat).2, fun _ => hshape⟩
  next w hk =>
    simp only [hk]
    obtain ⟨hgreat, hshape⟩ := slidingHits_greatest hg h
    exact ⟨(hof hgreat).1, (hof hgreat).2, fun _ => hshape⟩
  next c hk =>
    simp only [hk]
    have hpos := spec.kindPos
    rw [hk] at hpos
    obtain ⟨hle, hmax, hshape, hsame⟩ := chunkedHits_greatest hg spec.blockPos hpos h
    refine ⟨hle, hmax, fun halign => ?_⟩
    rcases halign with halign | rfl
    · rw [hsame (halign c hk)]
      exact hshape
    · exact hshape
  next k hk =>
    simp only [hk]
    obtain ⟨hgreat, hshape⟩ := mambaHits_greatest hg h
    exact ⟨(hof hgreat).1, (hof hgreat).2, fun _ => hshape⟩
  next => cases h

theorem Shape.dropForEagle {rows : List (List Nat)} (h : Shape p groups hashes start rows) (eagle : Bool) :
    Shape p groups hashes start (dropForEagle eagle rows) := by
  cases eagle with
  | false => exact h
  | true =>
    show Shape p groups hashes start rows.dropLast
    rw [dropLast_eq_take]
    exact h.take _

theorem hitsFrom_shape (hg : groups ≠ []) {n i : Nat} (h : hitsFrom p groups hashes n i = some rows) :
    Shape p groups hashes i (replicate i (nullRow p groups) ++ rows) := by
  obtain ⟨-, hcached, -⟩ := hitsFrom_greatest hg h
  refine ⟨fun k row hk hlt => ?_, fun k row hk hle => ?_⟩
  · rw [getElem?_append_left (by simpa using hlt)] at hk
    exact eq_of_mem_replicate (mem_of_getElem? hk)
  · rw [getElem?_append_right (by simpa using hle), length_replicate] at hk
    have := hcached _ row hk
    rwa [show i + (k - i) = k by omega] at this

theorem fullHits_shape (hg : groups ≠ [])
    (h : fullHits p groups hashes maxLength bs eagle = some rows) : Shape p groups hashes 0 rows := by
  obtain ⟨rows', hrows, h⟩ := bind_eq_some_iff.1 h
  cases h
  exact (hitsFrom_shape hg hrows).dropForEagle eagle

theorem findHits_shape (hg : groups ≠ []) {maxLength : Nat}
    (h : findHits spec p groups hashes maxLength eagle = some rows) : ∃ start, Shape p groups hashes start rows := by
  rw [findHits] at h
  split at h
  · exact ⟨0, fullHits_shape hg h⟩
  · obtain ⟨out, start, rfl, hshape, -⟩ := slidingHits_eq hg h
    exact ⟨start, hshape.dropForEagle eagle⟩
  · rw [chunkedHits] at h
    split at h
    · cases h
    · obtain ⟨rows', hrows, h⟩ := bind_eq_some_iff.1 h
      cases h
      exact ⟨_, hitsFrom_shape hg hrows⟩
  · exact ⟨_, (mambaHits_greatest hg h).2⟩
  · cases h

theorem getElem?_columns {n j : Nat} {list : List Nat} (h : (columns n rows)[j]? = some list) :
    j < n ∧ list = rows.map fun row => row.getD j 0 := by
  rw [columns, getElem?_map] at h
  obtain ⟨i, hi, rfl⟩ := map_eq_some_iff.1 h
  obtain ⟨hlt, rfl⟩ := List.getElem?_eq_some_iff.1 hi
  rw [List.length_range] at hlt
  simp [hlt]

theorem Shape.entry (h : Shape p groups hashes start rows) {j g i b : Nat} {list : List Nat}
    (hg : groups[j]? = some g) (hlist : (columns groups.length rows)[j]? = some list) (hb : list[i]? = some b) :
    i < start ∧ b = p.nullBlock ∨ start ≤ i ∧ ∃ x, hashes[i]? = some x ∧
      p.cachedBlockHashToBlock.getOneBlock (x, g) = some b := by
  obtain ⟨hj, rfl⟩ := getElem?_columns hlist
  rw [getElem?_map] at hb
  obtain ⟨row, hrow, rfl⟩ := map_eq_some_iff.1 hb
  rcases Nat.lt_or_ge i start with hlt | hge
  · left
    rw [h.null i row hrow hlt]
    exact ⟨hlt, by simp [nullRow, hj]⟩
  · right
    obtain ⟨x, hx, hcached⟩ := h.cached i row hrow hge
    have hget := (filter_eq_some_iff.1 hcached).1
    refine ⟨hge, x, hx, ?_⟩
    have hlt : j < row.length := by rw [(getCachedBlock_ok hget).1]; exact hj
    refine (getCachedBlock_ok hget).2 j g _ hg ?_
    rw [getD_eq_getElem?_getD, getElem?_eq_getElem hlt, getD_some]

theorem splitGroups_full {specs : List GroupSpec} {fullIds otherIds : List Nat} {full other : GroupSpec}
    {fullFirst : Bool} (h : splitGroups specs = some (fullIds, full, otherIds, other, fullFirst)) :
    fullIds ≠ [] ∧ otherIds ≠ [] ∧ full.kind = .full := by
  simp only [splitGroups] at h
  split at h
  next full' other' hfull hother =>
    have hne : ∀ {ids : List Nat} {spec : GroupSpec}, ids.head?.bind (specs[·]?) = some spec →
      ids ≠ [] := fun hids hnil => by
      rw [hnil] at hids
      cases hids
    have hkind : full'.kind = .full := by
      obtain ⟨g, hg, hspec⟩ := bind_eq_some_iff.1 hfull
      have hfullAt := (mem_filter.1 (mem_of_head? hg)).2
      rw [isFullAt, hspec] at hfullAt
      exact of_decide_eq_true hfullAt
    split at h
    · split at h
      · cases h
        exact ⟨hne hfull, hne hother, hkind⟩
      · split at h
        · cases h
          exact ⟨hne hfull, hne hother, hkind⟩
        · cases h
    · cases h
  · cases h

end Xmix.Kv
