import Mathlib.Data.List.Chain
import Xmix.Kv.BlockHash

/-!
# Isolation by block hashes

Two requests share cached blocks when a block hash of one is a block hash of the other. Without
collisions the chained hash gives back what every block up to it was hashed with: the tokens, the
bytes of the embeddings and one flat list of texts, LoRA name, item identifiers and salt. The flat
list does not say which text is which, so requests are kept apart if and only if no name is used in
two roles. An item that crosses a block boundary is listed on both sides of it, like two items with
one identifier that meet there, so adjacent items must have different identifiers.
-/

namespace Xmix.Kv

open List

/-- A hash function without collisions. -/
structure HashFn (hash : HashInput → Bytes) (noneHash : Bytes) : Prop where
  inj : Function.Injective hash
  ne_nil : ∀ x, hash x ≠ []
  fresh : ∀ x, hash x ≠ noneHash

def flatTexts (bs : Nat) (r : HashReq) (k : Nat) : List String :=
  genLoraExtraHashKeys r ++ blockIds bs r k ++ cacheSaltKeys r (k * bs)

structure SameInput (bs : Nat) (r₁ r₂ : HashReq) (k : Nat) : Prop where
  tokens : blockTokens bs r₁ k = blockTokens bs r₂ k
  texts : flatTexts bs r₁ k = flatTexts bs r₂ k
  embeds : genPromptEmbedsExtraHashKeys r₁ (k * bs)
    ((k + 1) * bs) = genPromptEmbedsExtraHashKeys r₂ (k * bs) ((k + 1) * bs)

def HashReq.embedsUpTo (r : HashReq) (n : Nat) : Option Bytes := r.promptEmbeds.map fun rows => (rows.take n).flatten

/-- Both blocks end equal prefixes, with equal adapters, salts, embeddings and inputs. -/
structure Isolated (bs : Nat) (r₁ r₂ : HashReq) (i j : Nat) : Prop where
  index : i = j
  tokens : r₁.allTokenIds.take ((i + 1) * bs) = r₂.allTokenIds.take ((i + 1) * bs)
  lora : r₁.loraName = r₂.loraName
  salt : r₁.cacheSalt = r₂.cacheSalt
  embeds : r₁.embedsUpTo ((i + 1) * bs) = r₂.embedsUpTo ((i + 1) * bs)
  items : idsIn r₁.mmFeatures 0 ((i + 1) * bs) = idsIn r₂.mmFeatures 0 ((i + 1) * bs)

def HashReq.Made (hash : HashInput → Bytes) (noneHash : Bytes) (bs : Nat) (hashes : List Bytes) : Prop :=
  ∃ (r : HashReq) (outs : List (List Nat)),
    hashes = (outs.foldl (HashReq.append hash noneHash bs) (r.create hash noneHash bs)).blockHashes

/-- A request over these LoRA names, salts and item identifiers, whose adjacent items have different identifiers. -/
structure HashReq.Over (loras salts ids : Set String) (r : HashReq) : Prop where
  lora : ∀ x, r.loraName = some x → x ∈ loras
  salt : ∀ x, r.cacheSalt = some x → x ∈ salts
  item : ∀ f ∈ r.mmFeatures, f.identifier ∈ ids
  placed : Placed r.mmFeatures
  apart : (r.mmFeatures.map MmFeature.identifier).IsChain (· ≠ ·)

/-- No text is used in two roles, and no salt is empty. -/
structure NamesApart (loras salts ids : Set String) : Prop where
  salt : "" ∉ salts
  lora_salt : ∀ x ∈ loras, x ∉ salts
  lora_id : ∀ x ∈ loras, x ∉ ids
  salt_id : ∀ x ∈ salts, x ∉ ids

/-! ### Distinct hashes -/

section Distinct
variable {hash : HashInput → Bytes} {noneHash : Bytes} {bs : Nat}

variable {hs : List Bytes}

def Chained (hash : HashInput → Bytes) (prev : Bytes) : List Bytes → Prop
  | [] => True
  | h :: hs => (∃ ts ks, h = hash (prev, ts, ks)) ∧ Chained hash h hs

theorem Chained.append {prev : Bytes} {hs' : List Bytes} (h : Chained hash prev hs)
    (h' : Chained hash (hs.getLast?.getD prev) hs') : Chained hash prev (hs ++ hs') := by
  induction hs generalizing prev with
  | nil => exact h'
  | cons x hs ih =>
    refine ⟨h.1, ih h.2 ?_⟩
    rw [getLast?_cons] at h'
    exact h'

section

variable (hH : HashFn hash noneHash)
include hH

theorem HashFn.chained_hashLoop (r : HashReq) {fuel start : Nat} {i : Int} {prev : Option Bytes}
    (hprev : prev ≠ some []) : Chained hash (prev.getD noneHash) (hashLoop hash noneHash bs r fuel start i prev) := by
  induction fuel generalizing start i prev with
  | zero => trivial
  | succ fuel ih =>
    rw [hashLoop]
    split
    · trivial
    · refine ⟨?_, ih fun hnil => hH.ne_nil _ (Option.some.inj hnil)⟩
      rw [hashBlockTokens]
      rcases prev with - | prev
      · exact ⟨_, _, rfl⟩
      · have : prev ≠ [] := fun hnil => hprev (by rw [hnil])
        simp only [Option.getD_some, if_neg this]
        exact ⟨_, _, rfl⟩

theorem Chained.getLast?_ne {prev : Bytes} (h : Chained hash prev hs) :
    hs.getLast? ≠ some [] := by
  induction hs generalizing prev with
  | nil => simp
  | cons x hs ih =>
    rcases hs with - | ⟨y, hs⟩
    · obtain ⟨ts, ks, rfl⟩ := h.1
      simpa using hH.ne_nil _
    · rw [getLast?_cons_cons]
      exact ih h.2

theorem HashFn.chained_hasher (r : HashReq) (hr : Chained hash noneHash r.blockHashes) :
    Chained hash noneHash (r.blockHashes ++ requestBlockHasher hash noneHash bs r) := by
  refine hr.append ?_
  rw [requestBlockHasher]
  split
  · trivial
  · exact hH.chained_hashLoop r (hr.getLast?_ne hH)

theorem Chained.getElem?_inj (h : Chained hash noneHash hs) {i j : Nat} (hij : i < j)
    {x : Bytes} (hi : hs[i]? = some x) (hj : hs[j]? = some x) : False := by
  have hstep : ∀ (hs : List Bytes) (prev : Bytes), Chained hash prev hs → ∀ (k : Nat) (x : Bytes), hs[k]? = some x →
      ∃ ts ks, x = hash ((if k = 0 then some prev else hs[k - 1]?).getD [], ts, ks) := by
    intro hs
    induction hs with
    | nil => simp
    | cons a hs ih =>
      intro prev hc k x hk
      cases k with
      | zero =>
        obtain rfl : a = x := by simpa using hk
        exact hc.1
      | succ k =>
        obtain ⟨ts, ks, hx⟩ := ih a hc.2 k x (by simpa using hk)
        refine ⟨ts, ks, ?_⟩
        cases k <;> simpa using hx
  induction i generalizing j x with
  | zero =>
    obtain ⟨ts, ks, hx⟩ := hstep hs noneHash h 0 x hi
    obtain ⟨ts', ks', hx'⟩ := hstep hs noneHash h j x hj
    have hlen : j - 1 < hs.length := by
      have := (List.getElem?_eq_some_iff.1 hj).1
      omega
    obtain ⟨ts'', ks'', hy⟩ := hstep hs noneHash h (j - 1) _ (getElem?_eq_getElem hlen)
    rw [if_neg (by omega), getElem?_eq_getElem hlen] at hx'
    have := (Prod.mk.inj (hH.inj (hx.symm.trans hx'))).1
    exact hH.fresh _ (hy.symm.trans (by simpa using this.symm))
  | succ i ih =>
    obtain ⟨ts, ks, hx⟩ := hstep hs noneHash h (i + 1) x hi
    obtain ⟨ts', ks', hx'⟩ := hstep hs noneHash h j x hj
    have h₁ : i < hs.length := by
      have := (List.getElem?_eq_some_iff.1 hi).1
      omega
    have h₂ : j - 1 < hs.length := by
      have := (List.getElem?_eq_some_iff.1 hj).1
      omega
    rw [if_neg (by omega), Nat.add_sub_cancel, getElem?_eq_getElem h₁] at hx
    rw [if_neg (by omega), getElem?_eq_getElem h₂] at hx'
    have := (Prod.mk.inj (hH.inj (hx.symm.trans hx'))).1
    simp only [Option.getD_some] at this
    exact ih (j := j - 1) (by omega) (getElem?_eq_getElem h₁) (by rw [getElem?_eq_getElem h₂, this])

theorem HashFn.nodup_of_made {hashes : List Bytes} (h : HashReq.Made hash noneHash bs hashes) :
    hashes.Nodup := by
  obtain ⟨r, outs, rfl⟩ := h
  have hchain : ∀ (outs : List (List Nat)) (r : HashReq), Chained hash noneHash r.blockHashes →
      Chained hash noneHash (outs.foldl (HashReq.append hash noneHash bs) r).blockHashes := by
    intro outs
    induction outs with
    | nil => exact fun r hr => hr
    | cons out outs ih =>
      intro r hr
      exact ih _ (hH.chained_hasher { r with allTokenIds := r.allTokenIds ++ out } hr)
  have hcreate : Chained hash noneHash (r.create hash noneHash bs).blockHashes :=
    hH.chained_hasher { r with blockHashes := [] } trivial
  have hc := hchain outs _ hcreate
  rw [nodup_iff_pairwise_ne, pairwise_iff_getElem]
  intro i j hi hj hij heq
  exact hc.getElem?_inj hH hij (getElem?_eq_getElem hi) (by rw [getElem?_eq_getElem hj, heq])

end

end Distinct

/-! ### Reading the chain back -/

section Chain
variable {hash : HashInput → Bytes} {noneHash : Bytes} (hH : HashFn hash noneHash) {bs : Nat}
  {r₁ r₂ : HashReq} {ids ids' : Nat → List String}
include hH

theorem HashFn.chainWith_ne_nil (r : HashReq) (k : Nat) : chainWith hash noneHash bs r ids k ≠ [] := by
  rw [chainWith_eq]
  exact hH.ne_nil _

theorem HashFn.chainWith_ne_none (r : HashReq) (k : Nat) : chainWith hash noneHash bs r ids k ≠ noneHash := by
  rw [chainWith_eq]
  exact hH.fresh _

theorem HashFn.chainWith_succ (r : HashReq) (k : Nat) : chainWith hash noneHash bs r ids (k + 1) =
    hash (chainWith hash noneHash bs r ids k, blockTokens bs r (k + 1), keysWith bs r ids (k + 1)) := by
  show hash (if chainWith hash noneHash bs r ids k = [] then _ else chainWith hash noneHash bs r ids k, _, _) = _
  rw [if_neg (hH.chainWith_ne_nil r k)]

omit hH in
theorem chainWith_zero (r : HashReq) :
    chainWith hash noneHash bs r ids 0 = hash (noneHash, blockTokens bs r 0, keysWith bs r ids 0) :=
      rfl

theorem HashFn.chainWith_eq_iff {i j : Nat} :
    chainWith hash noneHash bs r₁ ids i = chainWith hash noneHash bs r₂ ids' j ↔
    i = j ∧ ∀ k ≤ i, blockTokens bs r₁ k = blockTokens bs r₂ k ∧ keysWith bs r₁ ids k = keysWith bs r₂ ids' k := by
  induction i generalizing j with
  | zero =>
    cases j with
    | zero =>
      rw [chainWith_zero, chainWith_zero, hH.inj.eq_iff, Prod.mk.injEq, Prod.mk.injEq]
      exact ⟨fun h => ⟨rfl, fun k hk => by rw [Nat.le_zero.1 hk]; exact h.2⟩, fun h => ⟨rfl, h.2 0 (Nat.le_refl 0)⟩⟩
    | succ j =>
      refine ⟨fun h => ?_, fun h => by omega⟩
      rw [chainWith_zero, hH.chainWith_succ] at h
      exact absurd (congrArg Prod.fst (hH.inj h)).symm (hH.chainWith_ne_none r₂ j)
  | succ i ih =>
    cases j with
    | zero =>
      refine ⟨fun h => ?_, fun h => by omega⟩
      rw [chainWith_zero, hH.chainWith_succ] at h
      exact absurd (congrArg Prod.fst (hH.inj h)) (hH.chainWith_ne_none r₁ i)
    | succ j =>
      rw [hH.chainWith_succ, hH.chainWith_succ, hH.inj.eq_iff, Prod.mk.injEq, Prod.mk.injEq, ih]
      constructor
      · rintro ⟨⟨rfl, hbefore⟩, hlast⟩
        refine ⟨rfl, fun k hk => ?_⟩
        rcases Nat.lt_or_ge i k with hlt | hle
        · obtain rfl : k = i + 1 := by omega
          exact hlast
        · exact hbefore k hle
      · rintro ⟨hij, hall⟩
        obtain rfl : i = j := by omega
        exact ⟨⟨rfl, fun k hk => hall k (by omega)⟩, hall (i + 1) (Nat.le_refl _)⟩

omit hH in
theorem keys_eq_iff (k : Nat) : blockTokens bs r₁ k = blockTokens bs r₂ k ∧
    keysWith bs r₁ (blockIds bs r₁) k = keysWith bs r₂ (blockIds bs r₂) k ↔ SameInput bs r₁ r₂ k := by
  constructor
  · rintro ⟨htokens, hkeys⟩
    obtain ⟨htexts, hembeds⟩ := joinKeys_inj hkeys
    exact ⟨htokens, htexts, hembeds⟩
  · intro h
    have htexts := congrArg (map ExtraKey.str) h.texts
    rw [flatTexts, flatTexts, map_append, map_append, map_append, map_append] at htexts
    exact ⟨h.tokens, by rw [keysWith, keysWith, joinKeys, joinKeys, htexts, h.embeds]⟩

theorem HashFn.chain_eq_iff {i j : Nat} :
    chain hash noneHash bs r₁ i = chain hash noneHash bs r₂ j ↔ i = j ∧ ∀ k ≤ i, SameInput bs r₁ r₂ k := by
  simp only [chain, hH.chainWith_eq_iff, keys_eq_iff]

end Chain

/-! ### Items across a boundary -/

def crossIds (fs : List MmFeature) (b : Nat) : List String :=
  (fs.filter fun f => f.offset < b && b < f.stop).map MmFeature.identifier

def startIds (fs : List MmFeature) (b e : Nat) : List String :=
  (fs.filter fun f => b ≤ f.offset && f.offset < e).map MmFeature.identifier

section Items
variable {fs : List MmFeature} (hp : Placed fs)

variable {b e : Nat}
include hp

theorem Placed.offsets : fs.Pairwise fun f g => f.offset ≤ g.offset :=
  hp.sorted.imp fun {f _} h => f.offset_le_stop.trans h

theorem Placed.filter_split (q : MmFeature → Bool) (b : Nat) :
    fs.filter q = (fs.filter fun f => f.offset < b && q f) ++ fs.filter fun f => b ≤ f.offset && q f := by
  have hoff := hp.offsets
  clear hp
  induction fs with
  | nil => rfl
  | cons f fs ih =>
    obtain ⟨hf, hoff⟩ := pairwise_cons.1 hoff
    by_cases hb : f.offset < b
    · have hnot : ¬ b ≤ f.offset := by omega
      by_cases hq : q f = true
      · simp [hb, hnot, hq, ih hoff]
      · simp [hb, hnot, hq, ih hoff]
    · -- the items after one that starts past `b` do so too
      have hnone : fs.filter (fun f => f.offset < b && q f) = [] := by
        refine filter_eq_nil_iff.2 fun g hg => ?_
        have := hf g hg
        simp only [Bool.and_eq_true, decide_eq_true_eq, not_and]
        omega
      have hge : b ≤ f.offset := by omega
      have hrest := ih hoff
      rw [hnone, nil_append] at hrest
      by_cases hq : q f = true
      · simp [hb, hge, hq, hnone, ← hrest]
      · simp [hb, hge, hq, hnone, ← hrest]

theorem Placed.idsIn_split {s : Nat} (hs : s ≤ b) :
    idsIn fs s e = (fs.filter fun f => f.offset < b && f.overlaps s e).map MmFeature.identifier ++ startIds fs b e := by
  rw [idsIn, hp.filter_split _ b, map_append, startIds]
  congr 2
  refine filter_congr fun f hf => ?_
  have := hp.pos f hf
  have hstop : f.stop = f.offset + f.length := rfl
  rw [Bool.eq_iff_iff]
  simp only [MmFeature.overlaps, Bool.and_eq_true, decide_eq_true_eq]
  omega

theorem Placed.idsIn_eq (hle : b ≤ e) : idsIn fs b e = crossIds fs b ++ startIds fs b e := by
  rw [hp.idsIn_split (Nat.le_refl b), crossIds]
  congr 2
  refine filter_congr fun f _ => ?_
  rw [Bool.eq_iff_iff]
  simp only [MmFeature.overlaps, Bool.and_eq_true, decide_eq_true_eq]
  omega

theorem Placed.idsIn_zero (hle : b ≤ e) : idsIn fs 0 e = idsIn fs 0 b ++ startIds fs b e := by
  rw [hp.idsIn_split (Nat.zero_le b), idsIn]
  congr 2
  refine filter_congr fun f _ => ?_
  rw [Bool.eq_iff_iff]
  simp only [MmFeature.overlaps, Bool.and_eq_true, decide_eq_true_eq]
  omega

theorem Placed.idsIn_prefix (e : Nat) : idsIn fs 0 e <+: fs.map MmFeature.identifier := by
  refine ⟨(fs.filter fun f => e ≤ f.offset && true).map MmFeature.identifier, ?_⟩
  conv_rhs => rw [← filter_true fs, hp.filter_split _ e, map_append]
  rw [idsIn]
  congr 2
  refine filter_congr fun f hf => ?_
  have hstop : f.stop = f.offset + f.length := rfl
  have := hp.pos f hf
  rw [Bool.eq_iff_iff]
  simp only [MmFeature.overlaps, Bool.and_eq_true, decide_eq_true_eq, and_true]
  omega

-- at most one item crosses a boundary, and it is the last one that starts before it
theorem Placed.crossIds_cases (b : Nat) : crossIds fs b = [] ∨
      ∃ x, crossIds fs b = [x] ∧ (idsIn fs 0 b).getLast? = some x := by
  rcases hcross : fs.filter fun f => f.offset < b && b < f.stop with _ | ⟨f, gs⟩
  · exact .inl (by rw [crossIds, hcross, map_nil])
  have hf : f ∈ fs.filter fun f => f.offset < b && b < f.stop := hcross ▸ mem_cons_self
  obtain ⟨hmem, hf'⟩ := mem_filter.1 hf
  simp only [Bool.and_eq_true, decide_eq_true_eq] at hf'
  obtain ⟨before, after, rfl⟩ := append_of_mem hmem
  obtain ⟨-, hafter, hbefore⟩ := pairwise_append.1 hp.sorted
  have hafter := (pairwise_cons.1 hafter).1
  have hbefore : ∀ g ∈ before, g.stop ≤ f.offset := fun g hg => hbefore g hg f mem_cons_self
  refine .inr ⟨f.identifier, ?_, ?_⟩
  · have hnone : before.filter (fun g => g.offset < b && b < g.stop) = [] ∧
      after.filter (fun g => g.offset < b && b < g.stop) = [] := by
      refine ⟨filter_eq_nil_iff.2 fun g hg => ?_, filter_eq_nil_iff.2 fun g hg => ?_⟩
      · have := hbefore g hg
        simp only [Bool.and_eq_true, decide_eq_true_eq]
        omega
      · have := hafter g hg
        simp only [Bool.and_eq_true, decide_eq_true_eq]
        omega
    rw [crossIds, filter_append, hnone.1, nil_append, filter_cons_of_pos (by simp [hf']), hnone.2]
    rfl
  · have hnone : after.filter (MmFeature.overlaps 0 b) = [] := by
      refine filter_eq_nil_iff.2 fun g hg => ?_
      have := hafter g hg
      rw [MmFeature.overlaps_iff]
      omega
    have hover : f.overlaps 0 b = true := by
      rw [MmFeature.overlaps_iff]
      omega
    simp [idsIn, filter_append, hnone, hover]

theorem Placed.startIds_eq {gs : List MmFeature} (hq : Placed gs)
    (hle : b ≤ e) (hfs : (fs.map MmFeature.identifier).IsChain (· ≠ ·))
    (hgs : (gs.map MmFeature.identifier).IsChain (· ≠ ·))
    (hblock : idsIn fs b e = idsIn gs b e) (hbefore : idsIn fs 0 b = idsIn gs 0 b) :
    startIds fs b e = startIds gs b e := by
  have hmeet : ∀ {ks : List MmFeature}, Placed ks → (ks.map MmFeature.identifier).IsChain (· ≠ ·) →
    ∀ {x : String} {xs : List String},
      (idsIn ks 0 b).getLast? = some x → startIds ks b e ≠ x :: xs := by
    intro ks hk hks x xs hlast hstart
    obtain ⟨rest, hrest⟩ := hk.idsIn_prefix e
    rw [← hrest, hk.idsIn_zero hle, hstart] at hks
    exact (isChain_append.1 (isChain_append.1 hks).1).2.2 x hlast x rfl rfl
  rw [hp.idsIn_eq hle, hq.idsIn_eq hle] at hblock
  rcases hp.crossIds_cases b with hf | ⟨x, hf, hlastf⟩ <;> rcases hq.crossIds_cases b with hg | ⟨y, hg, hlastg⟩ <;>
    rw [hf, hg] at hblock
  · exact hblock
  · exact absurd hblock (hmeet hp hfs (hbefore ▸ hlastg))
  · exact absurd hblock.symm (hmeet hq hgs (hbefore ▸ hlastf))
  · exact (cons.inj hblock).2

end Items

section Isolation
variable {bs : Nat} {r₁ r₂ : HashReq}

variable {i : Nat}

theorem take_blocks {α : Type} (l : List α) (i : Nat) :
    l.take ((i + 2) * bs) = l.take ((i + 1) * bs) ++ (l.take ((i + 2) * bs)).drop ((i + 1) * bs) := by
  have hsplit := take_append_drop ((i + 1) * bs) (l.take ((i + 2) * bs))
  rw [take_take, Nat.min_eq_left (Nat.mul_le_mul_right _ (by omega))] at hsplit
  exact hsplit.symm

theorem take_eq_of_same (h : ∀ k ≤ i, blockTokens bs r₁ k = blockTokens bs r₂ k) :
    r₁.allTokenIds.take ((i + 1) * bs) = r₂.allTokenIds.take ((i + 1) * bs) := by
  induction i with
  | zero => simpa only [blockTokens, Nat.zero_mul, drop_zero] using h 0 (Nat.le_refl 0)
  | succ i ih =>
    rw [take_blocks, take_blocks r₂.allTokenIds, ih fun k hk => h k (by omega)]
    exact congrArg _ (h (i + 1) (Nat.le_refl _))

theorem embeds_eq_of_same (h : ∀ k ≤ i, SameInput bs r₁ r₂ k) :
    r₁.embedsUpTo ((i + 1) * bs) = r₂.embedsUpTo ((i + 1) * bs) := by
  have hkeys := fun k hk => (h k hk).embeds
  clear h
  rw [HashReq.embedsUpTo, HashReq.embedsUpTo]
  unfold genPromptEmbedsExtraHashKeys at hkeys
  cases h₁ : r₁.promptEmbeds with
  | none =>
    cases h₂ : r₂.promptEmbeds with
    | none => rfl
    | some rows₂ => have := hkeys 0 (Nat.zero_le i); simp [h₁, h₂] at this
  | some rows₁ =>
    cases h₂ : r₂.promptEmbeds with
    | none => have := hkeys 0 (Nat.zero_le i); simp [h₁, h₂] at this
    | some rows₂ =>
      simp only [h₁, h₂, Option.toList_some, map_cons, map_nil, cons.injEq, and_true] at hkeys
      refine congrArg some ?_
      induction i with
      | zero => simpa only [Nat.zero_mul, drop_zero] using hkeys 0 (Nat.le_refl 0)
      | succ i ih =>
        have hrows : (rows₁.take ((i + 1) * bs)).flatten = (rows₂.take ((i + 1) * bs)).flatten :=
          ih fun k hk => hkeys k (by omega)
        show (rows₁.take ((i + 2) * bs)).flatten = (rows₂.take ((i + 2) * bs)).flatten
        rw [take_blocks, take_blocks rows₂, flatten_append, flatten_append, hrows, hkeys (i + 1) (Nat.le_refl _)]

theorem parts_eq {loras salts ids : Set String} (h : NamesApart loras salts ids)
    {l l' m m' t t' : List String} (hl : ∀ x ∈ l, x ∈ loras) (hl' : ∀ x ∈ l', x ∈ loras)
    (hm : ∀ x ∈ m, x ∈ ids) (hm' : ∀ x ∈ m', x ∈ ids) (ht : ∀ x ∈ t, x ∈ salts)
    (ht' : ∀ x ∈ t', x ∈ salts) (heq : l ++ m ++ t = l' ++ m' ++ t') : l = l' ∧ m = m' ∧ t = t' := by
  classical
  -- each part is what its role filters out of the list
  have hroles : ∀ {l m t : List String}, (∀ x ∈ l, x ∈ loras) → (∀ x ∈ m, x ∈ ids) → (∀ x ∈ t, x ∈ salts) →
      (l ++ m ++ t).filter (· ∈ loras) = l ∧ (l ++ m ++ t).filter (· ∈ salts) = t := by
    intro l m t hl hm ht
    have hlora : m.filter (· ∈ loras) = [] ∧ t.filter (· ∈ loras) = [] :=
      ⟨filter_eq_nil_iff.2 fun x hx hx' => h.lora_id x (of_decide_eq_true hx') (hm x hx),
        filter_eq_nil_iff.2 fun x hx hx' => h.lora_salt x (of_decide_eq_true hx') (ht x hx)⟩
    have hsalt : l.filter (· ∈ salts) = [] ∧ m.filter (· ∈ salts) = [] :=
      ⟨filter_eq_nil_iff.2 fun x hx hx' => h.lora_salt x (hl x hx) (of_decide_eq_true hx'),
        filter_eq_nil_iff.2 fun x hx hx' => h.salt_id x (of_decide_eq_true hx') (hm x hx)⟩
    rw [filter_append, filter_append, filter_append, filter_append, hlora.1, hlora.2, hsalt.1, hsalt.2]
    exact ⟨by simpa using hl, by simpa using ht⟩
  obtain ⟨hlora, hsalt⟩ := hroles hl hm ht
  obtain ⟨hlora', hsalt'⟩ := hroles hl' hm' ht'
  obtain rfl : l = l' := by rw [← hlora, heq, hlora']
  obtain rfl : t = t' := by rw [← hsalt, heq, hsalt']
  rw [append_cancel_right_eq, append_cancel_left_eq] at heq
  exact ⟨rfl, heq, rfl⟩

theorem toList_inj {o o' : Option String} (h : o.toList = o'.toList) : o = o' := by
  cases o <;> cases o' <;> simp_all

section Names

variable {loras salts ids : Set String} (h₁ : r₁.Over loras salts ids) (h₂ : r₂.Over loras salts ids)
  (hapart : NamesApart loras salts ids)
include h₁ h₂

include hapart in
theorem SameInput.parts {k : Nat} (h : SameInput bs r₁ r₂ k) :
    r₁.loraName = r₂.loraName ∧ blockIds bs r₁ k = blockIds bs r₂ k ∧
    cacheSaltKeys r₁ (k * bs) = cacheSaltKeys r₂ (k * bs) := by
  have hlora : ∀ {r : HashReq}, r.Over loras salts ids → ∀ x ∈ genLoraExtraHashKeys r, x ∈ loras :=
    fun hr x hx => hr.lora x (Option.mem_toList.1 hx)
  have hids : ∀ {r : HashReq}, r.Over loras salts ids → ∀ x ∈ blockIds bs r k, x ∈ ids := by
    intro r hr x hx
    obtain ⟨f, hf, rfl⟩ := mem_map.1 hx
    exact hr.item f (mem_filter.1 hf).1
  have hsalt : ∀ {r : HashReq}, r.Over loras salts ids → ∀ x ∈ cacheSaltKeys r (k * bs), x ∈ salts := by
    intro r hr x hx
    rw [cacheSaltKeys] at hx
    split at hx
    · exact hr.salt x (Option.mem_toList.1 (mem_filter.1 hx).1)
    · cases hx
  obtain ⟨hl, hm, ht⟩ := parts_eq hapart (hlora h₁) (hlora h₂) (hids h₁) (hids h₂) (hsalt h₁) (hsalt h₂) h.texts
  exact ⟨toList_inj hl, hm, ht⟩

include hapart in
theorem salt_eq_of_same (h : cacheSaltKeys r₁ 0 = cacheSaltKeys r₂ 0) : r₁.cacheSalt = r₂.cacheSalt := by
  have hkeys : ∀ {r : HashReq}, r.Over loras salts ids → cacheSaltKeys r 0 = r.cacheSalt.toList := by
    intro r hr
    rw [cacheSaltKeys, if_pos rfl]
    refine filter_eq_self.2 fun x hx => decide_eq_true fun hempty => ?_
    exact hapart.salt (hempty ▸ hr.salt x (Option.mem_toList.1 hx))
  rw [hkeys h₁, hkeys h₂] at h
  exact toList_inj h

theorem items_eq_of_same (hids : ∀ k ≤ i, blockIds bs r₁ k = blockIds bs r₂ k) :
    idsIn r₁.mmFeatures 0 ((i + 1) * bs) = idsIn r₂.mmFeatures 0 ((i + 1) * bs) := by
  induction i with
  | zero => simpa only [blockIds, Nat.zero_mul] using hids 0 (Nat.le_refl 0)
  | succ i ih =>
    have hle : (i + 1) * bs ≤ (i + 1 + 1) * bs := Nat.mul_le_mul_right _ (by omega)
    have ih := ih fun k hk => hids k (by omega)
    have hstart := h₁.placed.startIds_eq h₂.placed hle h₁.apart h₂.apart (hids (i + 1) (Nat.le_refl _)) ih
    rw [h₁.placed.idsIn_zero hle, h₂.placed.idsIn_zero hle, ih, hstart]

end Names

theorem getElem?_create {hash : HashInput → Bytes} {noneHash : Bytes} {r : HashReq} (hbs : 0 < bs)
    (hp : Placed r.mmFeatures) {h : Bytes} : (r.create hash noneHash bs).blockHashes[i]? = some h ↔
      (i + 1) * bs ≤ r.numTokens ∧ chain hash noneHash bs r i = h := by
  rw [blockHashes_create hbs hp, getElem?_map, Option.map_eq_some_iff]
  simp only [getElem?_eq_some_iff, length_range, getElem_range]
  constructor
  · rintro ⟨_, ⟨hi, rfl⟩, hh⟩
    exact ⟨(Nat.le_div_iff_mul_le hbs).1 hi, hh⟩
  · rintro ⟨hi, hh⟩
    exact ⟨i, ⟨(Nat.le_div_iff_mul_le hbs).2 hi, rfl⟩, hh⟩

def oneBlock (bs : Nat) (fs : List MmFeature) (lora salt : Option String) : HashReq :=
  ⟨replicate bs 0, fs, lora, salt, none, []⟩

end Isolation

theorem unaryHash_hashFn : HashFn unaryHash [1] where
  inj := unaryHash_injective
  ne_nil x := by simp [unaryHash]
  fresh x := by simp [unaryHash, replicate_succ]

def twoTokens (lora salt : Option String) : HashReq := ⟨[5, 7], [], lora, salt, none, []⟩

end Xmix.Kv
