import Mathlib.Data.List.NodupEquivFin
import Xmix.Kv.Manager
import Xmix.Lib.Except

/-!
# What a prefix cache hit returns

The entry at index `i` of a group's list is the null block or a block that the map holds under the `i`-th hash and that
group, whatever the kinds of the groups (`coordinatorHits_spec`). With distinct hashes no block comes twice.
-/

namespace Xmix.Kv

open List Option

variable {η : Type} [DecidableEq η] {p : BlockPool η} {hashes : List η}

def Hit (p : BlockPool η) (hashes : List η) (g i b : Nat) : Prop :=
  b = p.nullBlock ∨ ∃ h, hashes[i]? = some h ∧ p.cachedBlockHashToBlock.Holds (h, g) b

structure RowOk (p : BlockPool η) (hashes : List η) (groups : List Nat) (i : Nat) (row : List Nat) : Prop where
  length : row.length = groups.length
  hit : ∀ j g b : Nat, groups[j]? = some g → row[j]? = some b → Hit p hashes g i b

def RowsOk (p : BlockPool η) (hashes : List η) (groups : List Nat) (i : Nat) (rows : List (List Nat)) : Prop :=
  ∀ (k : Nat) (row : List Nat), rows[k]? = some row → RowOk p hashes groups (i + k) row

section Rows
variable {groups : List Nat} {i : Nat} {rows rows' : List (List Nat)} {row : List Nat}

variable {bs maxLength n : Nat} {eagle : Bool}

theorem getCachedBlock_ok {h : η} (hrow : p.getCachedBlock h groups = some row) :
    row.length = groups.length ∧ ∀ j g b : Nat, groups[j]? = some g → row[j]? = some b →
      p.cachedBlockHashToBlock.getOneBlock (h, g) = some b := by
  obtain ⟨hlen, hget⟩ := forall₂_iff_get.1 (Except.mapM_eq_some.1 hrow)
  refine ⟨hlen.symm, fun j g b hg hb => ?_⟩
  obtain ⟨hj, rfl⟩ := List.getElem?_eq_some_iff.1 hg
  obtain ⟨hj', rfl⟩ := List.getElem?_eq_some_iff.1 hb
  exact hget j hj hj'

theorem cachedRow_ok {h : η} (hh : hashes[i]? = some h) (hrow : cachedRow p groups h = some row) :
    RowOk p hashes groups i row := by
  obtain ⟨hlen, hget⟩ := getCachedBlock_ok (filter_eq_some_iff.1 hrow).1
  exact ⟨hlen, fun j g b hg hb => .inr ⟨h, hh, BlockMap.holds_of_getOneBlock (hget j g b hg hb)⟩⟩

theorem nullRow_ok (p : BlockPool η) (hashes : List η) (groups : List Nat) (i : Nat) :
    RowOk p hashes groups i (nullRow p groups) := by
  refine ⟨by simp [nullRow], fun j g b hg hb => .inl ?_⟩
  simp only [nullRow, getElem?_map, hg, map_some, some.injEq] at hb
  exact hb.symm

theorem RowsOk.nil : RowsOk p hashes groups i [] := fun k row h => by simp at h

theorem RowsOk.cons (h : RowOk p hashes groups i row) (hs : RowsOk p hashes groups (i + 1) rows) :
    RowsOk p hashes groups i (row :: rows) := by
  intro k row' hk
  cases k with
  | zero =>
    obtain rfl : row = row' := by simpa using hk
    exact h
  | succ k =>
    have := hs k row' (by simpa using hk)
    rwa [show i + (k + 1) = i + 1 + k by omega]

section
variable (h : RowsOk p hashes groups i rows)
include h

theorem RowsOk.append (h' : RowsOk p hashes groups (i + rows.length) rows') :
    RowsOk p hashes groups i (rows ++ rows') := by
  intro k row hk
  rw [getElem?_append] at hk
  split at hk
  · exact h k row hk
  · have := h' _ row hk
    rwa [show i + rows.length + (k - rows.length) = i + k by omega] at this

theorem RowsOk.take (n : Nat) : RowsOk p hashes groups i (rows.take n) := by
  intro k row hk
  rw [getElem?_take] at hk
  split at hk
  · exact h k row hk
  · cases hk

theorem RowsOk.set {k : Nat} (hrow : RowOk p hashes groups (i + k) row) :
    RowsOk p hashes groups i (rows.set k row) := by
  intro j row' hj
  rw [getElem?_set] at hj
  split at hj
  next heq =>
    split at hj
    · cases hj
      exact heq ▸ hrow
    · cases hj
  next => exact h j row' hj

end

theorem RowsOk.replicate (n : Nat) : RowsOk p hashes groups i (replicate n (nullRow p groups)) := by
  intro k row hk
  obtain rfl := eq_of_mem_replicate (mem_of_getElem? hk)
  exact nullRow_ok p hashes groups _

theorem RowsOk.dropForEagle (h : RowsOk p hashes groups i rows) (eagle : Bool) :
    RowsOk p hashes groups i (dropForEagle eagle rows) := by
  cases eagle with
  | false => exact h
  | true =>
    show RowsOk p hashes groups i rows.dropLast
    rw [dropLast_eq_take]
    exact h.take _

theorem length_dropForEagle_le (eagle : Bool) (rows : List (List Nat)) :
    (dropForEagle eagle rows).length ≤ rows.length := by
  cases eagle <;> simp [dropForEagle]

theorem hitsFrom_ok (h : hitsFrom p groups hashes n i = some rows) :
    RowsOk p hashes groups i rows ∧ rows.length ≤ n := by
  induction n generalizing i rows with
  | zero =>
    cases h
    exact ⟨.nil, Nat.le_refl _⟩
  | succ n ih =>
    obtain ⟨x, hx, h⟩ := bind_eq_some_iff.1 h
    rcases hrow : cachedRow p groups x with - | row
    · rw [hrow] at h
      cases h
      exact ⟨.nil, by simp⟩
    · rw [hrow] at h
      obtain ⟨rest, hrest, h⟩ := bind_eq_some_iff.1 h
      cases h
      obtain ⟨h₁, h₂⟩ := ih hrest
      exact ⟨.cons (cachedRow_ok hx hrow) h₁, by simpa using h₂⟩

theorem slidingLoop_ok {need c : Nat} {res : List (List Nat) × Nat × Bool} (hrows : RowsOk p hashes groups 0 rows)
    (h : slidingLoop p groups hashes need n rows c = some res) :
    RowsOk p hashes groups 0 res.1 ∧ res.1.length ≤ rows.length := by
  induction n generalizing rows c with
  | zero =>
    cases h
    exact ⟨hrows, Nat.le_refl _⟩
  | succ n ih =>
    obtain ⟨x, hx, h⟩ := bind_eq_some_iff.1 h
    rcases hrow : cachedRow p groups x with - | row
    · rw [hrow] at h
      exact ih hrows h
    · rw [hrow] at h
      have hset : RowsOk p hashes groups 0 (rows.set n row) :=
        hrows.set (by rw [Nat.zero_add]; exact cachedRow_ok hx hrow)
      simp only at h
      split at h
      · cases h
        exact ⟨hset.take _, by simp⟩
      · have := ih hset h
        simpa using this

theorem mambaHits_ok (h : mambaHits p groups hashes n = some rows) :
    RowsOk p hashes groups 0 rows ∧ rows.length ≤ n := by
  induction n with
  | zero =>
    cases h
    exact ⟨.nil, Nat.le_refl _⟩
  | succ n ih =>
    obtain ⟨x, hx, h⟩ := bind_eq_some_iff.1 h
    rcases hrow : cachedRow p groups x with - | row
    · rw [hrow] at h
      obtain ⟨h₁, h₂⟩ := ih h
      exact ⟨h₁, by omega⟩
    · rw [hrow] at h
      cases h
      refine ⟨(RowsOk.replicate n).append (.cons ?_ .nil), by simp⟩
      simpa using cachedRow_ok hx hrow

theorem fullHits_ok (h : fullHits p groups hashes maxLength bs eagle = some rows) :
    RowsOk p hashes groups 0 rows ∧ rows.length ≤ maxLength / bs := by
  obtain ⟨rows', hrows, h⟩ := bind_eq_some_iff.1 h
  cases h
  obtain ⟨h₁, h₂⟩ := hitsFrom_ok hrows
  have := length_dropForEagle_le eagle rows'
  exact ⟨h₁.dropForEagle eagle, by omega⟩

theorem slidingHits_ok {window : Nat}
    (h : slidingHits p groups hashes maxLength bs window eagle = some rows) :
    RowsOk p hashes groups 0 rows ∧ rows.length ≤ maxLength / bs := by
  obtain ⟨⟨rows', c, found⟩, hloop, h⟩ := bind_eq_some_iff.1 h
  cases h
  obtain ⟨h₁, h₂⟩ := slidingLoop_ok (RowsOk.replicate _) hloop
  simp only [length_replicate] at h₁ h₂
  have h₃ := length_dropForEagle_le eagle (if found then rows' else rows'.take c)
  cases found with
  | true =>
    refine ⟨h₁.dropForEagle eagle, ?_⟩
    simp only [if_true] at h₃ ⊢
    omega
  | false =>
    refine ⟨(h₁.take c).dropForEagle eagle, ?_⟩
    simp only [Bool.false_eq_true, if_false, length_take] at h₃ ⊢
    omega

theorem chunkedHits_ok {chunk : Nat}
    (h : chunkedHits p groups hashes maxLength bs chunk eagle = some rows) :
    RowsOk p hashes groups 0 rows ∧ rows.length ≤ maxLength / bs := by
  rw [chunkedHits] at h
  split at h
  · cases h
  obtain ⟨rows', hrows, h⟩ := bind_eq_some_iff.1 h
  cases h
  obtain ⟨h₁, h₂⟩ := hitsFrom_ok hrows
  refine ⟨(RowsOk.replicate _).append (by simpa using h₁), ?_⟩
  have hstart : maxLength / chunk * chunk / bs ≤ maxLength / bs := Nat.div_le_div_right (Nat.div_mul_le_self _ _)
  rw [length_append, length_replicate]
  omega

theorem findHits_ok {spec : GroupSpec}
    (h : findHits spec p groups hashes maxLength eagle = some rows) :
    RowsOk p hashes groups 0 rows ∧ rows.length * spec.blockSize ≤ maxLength := by
  suffices RowsOk p hashes groups 0 rows ∧ rows.length ≤ maxLength / spec.blockSize from
    ⟨this.1, (Nat.le_div_iff_mul_le spec.blockPos).1 this.2⟩
  rw [findHits] at h
  split at h
  · exact fullHits_ok h
  · exact slidingHits_ok h
  · exact chunkedHits_ok h
  · exact mambaHits_ok h
  · cases h

end Rows

structure ListsOk (p : BlockPool η) (hashes : List η) (n : Nat → Nat) (groups : List Nat)
    (lists : List (List Nat)) : Prop where
  length : lists.length = groups.length
  hit : ∀ (j g : Nat) (bs : List Nat), groups[j]? = some g → lists[j]? = some bs → bs.length = n g ∧
    ∀ i b : Nat, bs[i]? = some b → Hit p hashes g i b

theorem columns_ok {groups : List Nat} {rows : List (List Nat)} (h : RowsOk p hashes groups 0 rows) :
    ListsOk p hashes (fun _ => rows.length) groups (columns groups.length rows) := by
  refine ⟨by simp [columns], fun j g bs hg hbs => ?_⟩
  have hj : j < groups.length := (List.getElem?_eq_some_iff.1 hg).1
  simp only [columns, getElem?_map, getElem?_range hj, map_some, some.injEq] at hbs
  subst hbs
  refine ⟨by simp, fun i b hb => ?_⟩
  rw [getElem?_map] at hb
  obtain ⟨row, hrow, rfl⟩ := map_eq_some_iff.1 hb
  have hok := h i row hrow
  rw [Nat.zero_add] at hok
  have hlen : j < row.length := by rw [hok.length]; exact hj
  exact hok.hit j g _ hg (by rw [getD_eq_getElem?_getD, getElem?_eq_getElem hlen]; rfl)

theorem ListsOk.append {n : Nat → Nat} {gs gs' : List Nat} {ls ls' : List (List Nat)} (h : ListsOk p hashes n gs ls)
    (h' : ListsOk p hashes n gs' ls') : ListsOk p hashes n (gs ++ gs') (ls ++ ls') := by
  refine ⟨by simp [h.length, h'.length], fun j g bs hg hbs => ?_⟩
  rw [getElem?_append] at hg hbs
  rw [h.length] at hbs
  split at hg
  next hlt =>
    rw [if_pos hlt] at hbs
    exact h.hit j g bs hg hbs
  next hge =>
    rw [if_neg hge] at hbs
    exact h'.hit _ g bs hg hbs

theorem ListsOk.congr {n n' : Nat → Nat} {gs : List Nat} {ls : List (List Nat)} (h : ListsOk p hashes n gs ls)
    (hn : ∀ g ∈ gs, n g = n' g) : ListsOk p hashes n' gs ls :=
  ⟨h.length, fun j g bs hg hbs => by
    rw [← hn g (mem_of_getElem? hg)]
    exact h.hit j g bs hg hbs⟩

theorem filter_append_filter_not_range {n : Nat} {q : Nat → Bool}
    (h : ∀ i ∈ (range n).filter q, ∀ j ∈ (range n).filter (fun i => !q i), i < j) :
    (range n).filter q ++ (range n).filter (fun i => !q i) = range n := by
  refine Perm.eq_of_pairwise (fun a b _ _ h₁ h₂ => absurd h₁ (Nat.lt_asymm h₂)) ?_ pairwise_lt_range
    (filter_append_perm q _)
  exact pairwise_append.2 ⟨pairwise_lt_range.filter _, pairwise_lt_range.filter _, h⟩

def joinedIds (fullIds otherIds : List Nat) (fullFirst : Bool) : List Nat :=
  if fullFirst then fullIds ++ otherIds else otherIds ++ fullIds

theorem splitGroups_spec {specs : List GroupSpec} {fullIds otherIds : List Nat} {full other : GroupSpec}
    {fullFirst : Bool} (h : splitGroups specs = some (fullIds, full, otherIds, other, fullFirst)) :
    joinedIds fullIds otherIds fullFirst = List.range specs.length ∧ (∀ g ∈ fullIds, specs[g]? = some full) ∧
      (∀ g ∈ otherIds, specs[g]? = some other) ∧ ∀ g ∈ fullIds, g ∉ otherIds := by
  simp only [splitGroups] at h
  generalize hfull : (range specs.length).filter (isFullAt specs) = full' at h
  generalize hother : ((range specs.length).filter fun i => !isFullAt specs i) = other' at h
  have hdisj : ∀ g ∈ full', g ∉ other' := fun g hg hg' => by
    rw [← hfull] at hg
    rw [← hother] at hg'
    have h₁ := (mem_filter.1 hg).2
    have h₂ := (mem_filter.1 hg').2
    rw [h₁] at h₂
    cases h₂
  split at h
  · split at h
    next hall =>
      simp only [Bool.and_eq_true, List.all_eq_true, decide_eq_true_eq] at hall
      split at h
      next hlt =>
        simp only [List.all_eq_true, decide_eq_true_eq] at hlt
        cases h
        refine ⟨?_, hall.1.1, hall.1.2, hdisj⟩
        subst hfull hother
        exact filter_append_filter_not_range hlt
      next =>
        split at h
        next hlt =>
          simp only [List.all_eq_true, decide_eq_true_eq] at hlt
          cases h
          refine ⟨?_, hall.1.1, hall.1.2, hdisj⟩
          have hnot : fullIds = (List.range specs.length).filter fun i => !(!isFullAt specs i) := by simp [← hfull]
          rw [← hother] at hlt ⊢
          rw [hnot]
          refine filter_append_filter_not_range fun i hi j hj => hlt j ?_ i hi
          rw [hnot]
          exact hj
        next => cases h
    next => cases h
  · cases h

theorem coordinatorHits_spec {specs : List GroupSpec} {maxLength hit : Nat} {eagle : Bool} {lists : List (List Nat)}
    (h : coordinatorHits specs p hashes maxLength eagle = some (lists, hit)) :
    ∃ n : Nat → Nat, ListsOk p hashes n (List.range specs.length) lists ∧ hit ≤ maxLength ∧
      ∀ g spec, specs[g]? = some spec → n g * spec.blockSize = hit := by
  rw [coordinatorHits.eq_def] at h
  split at h
  next spec =>
    obtain ⟨rows, hrows, h⟩ := bind_eq_some_iff.1 h
    cases h
    obtain ⟨h₁, h₂⟩ := findHits_ok hrows
    refine ⟨fun _ => rows.length, columns_ok h₁, h₂, fun g spec' hg => ?_⟩
    have : spec' ∈ [spec] := mem_of_getElem? hg
    rw [mem_singleton.1 this]
  next =>
    obtain ⟨⟨fullIds, full, otherIds, other, fullFirst⟩, hsplit, h⟩ := bind_eq_some_iff.1 h
    obtain ⟨fullRows, hfull, h⟩ := bind_eq_some_iff.1 h
    obtain ⟨otherRows, hother, h⟩ := bind_eq_some_iff.1 h
    obtain ⟨hids, hfullSpec, hotherSpec, hdisj⟩ := splitGroups_spec hsplit
    obtain ⟨hf₁, hf₂⟩ := fullHits_ok hfull
    obtain ⟨ho₁, ho₂⟩ := findHits_ok hother
    simp only at h
    split at h
    · cases h
    next hdvd =>
    cases h
    have hk : otherRows.length * other.blockSize / full.blockSize * full.blockSize =
      otherRows.length * other.blockSize :=
      Nat.div_mul_cancel (Nat.dvd_of_mod_eq_zero (not_not.1 hdvd))
    have hle : otherRows.length * other.blockSize / full.blockSize ≤ fullRows.length :=
      Nat.div_le_of_le_mul (by rw [Nat.mul_comm full.blockSize]; exact ho₂)
    have htake := hf₁.take (otherRows.length * other.blockSize / full.blockSize)
    -- as many rows as each kind has
    let n : Nat → Nat := fun g =>
      if g ∈ otherIds then otherRows.length else otherRows.length * other.blockSize / full.blockSize
    have hn₁ : ListsOk p hashes n fullIds _ := (columns_ok htake).congr fun g hg => by
      simp only [n, if_neg (hdisj g hg), length_take]
      omega
    have hn₂ : ListsOk p hashes n otherIds _ := (columns_ok ho₁).congr fun g hg => by simp only [n, if_pos hg]
    refine ⟨n, ?_, ?_, ?_⟩
    · rw [← hids, joinedIds]
      cases fullFirst with
      | true => exact hn₁.append hn₂
      | false => exact hn₂.append hn₁
    · have := (Nat.le_div_iff_mul_le full.blockPos).1 hf₂
      omega
    · intro g spec hg
      have hmem : g ∈ joinedIds fullIds otherIds fullFirst := by
        rw [hids, mem_range]
        exact (List.getElem?_eq_some_iff.1 hg).1
      by_cases hgo : g ∈ otherIds
      · cases (hotherSpec g hgo).symm.trans hg
        simp only [n, if_pos hgo]
      · have hgf : g ∈ fullIds := by
          rw [joinedIds] at hmem
          cases fullFirst <;> simp only [Bool.false_eq_true, if_false, if_true, mem_append] at hmem <;> tauto
        cases (hfullSpec g hgf).symm.trans hg
        simp only [n, if_neg hgo]
        exact hk

theorem Hit.count_le_one {occ : Nat → Nat} (hp : p.Inv occ) (hnd : hashes.Nodup) {g : Nat} {bs : List Nat}
    (h : ∀ i b : Nat, bs[i]? = some b → Hit p hashes g i b) {b : Nat} (hb : b ≠ p.nullBlock) : bs.count b ≤ 1 := by
  by_contra hlt
  obtain ⟨i, j, hij, hi, hj⟩ :=
    duplicate_iff_exists_distinct_get.1 (duplicate_iff_two_le_count.2 (show 2 ≤ bs.count b by omega))
  have hat : ∀ k : Fin bs.length, b = bs.get k → bs[k.val]? = some b := fun k hk => by
    rw [hk]
    exact getElem?_eq_getElem k.isLt
  obtain ⟨x, hx, hhx⟩ := (h i b (hat i hi)).resolve_left hb
  obtain ⟨y, hy, hhy⟩ := (h j b (hat j hj)).resolve_left hb
  have hxy := ((hp.hashes b (x, g)).2 hhx).symm.trans ((hp.hashes b (y, g)).2 hhy)
  obtain rfl : x = y := (Prod.mk.inj (Option.some.inj hxy)).1
  have hlen := (List.getElem?_eq_some_iff.1 hx).1
  exact absurd ((getElem?_inj hlen hnd).1 (hx.trans hy.symm)) (Nat.ne_of_lt hij)

theorem Hit.lt {occ : Nat → Nat} (hp : p.Inv occ) {g i b : Nat} (h : Hit p hashes g i b) : b < p.numGpuBlocks := by
  rcases h with rfl | ⟨x, -, hx⟩
  · exact hp.null
  · exact hp.hashed b _ ((hp.hashes b _).2 hx)

end Xmix.Kv
