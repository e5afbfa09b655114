import Mathlib.Data.List.Basic
import Mathlib.Data.Nat.Basic
import Mathlib.Logic.Equiv.List
import Mathlib.Order.Basic
import Mathlib.Tactic.Common

/-!
# Block hashes of a request

The hasher of `kv_cache_utils.py`: a full block of tokens is hashed together with the hash of the
block before it and with extra keys, an untagged concatenation of the LoRA name, the identifiers of
the multimodal items in the block, the cache salt (first block only) and the bytes of the prompt
embeddings. `Request` calls it when it is created and after every append; the multimodal items are
found with a cursor that moves from block to block.

`chain` says what the hashes mean: block `k` is hashed with the items that overlap block `k`. At
creation the hasher computes it. An append restarts the cursor at the last item, and agrees with it
exactly when no other item reaches into the block being completed.
-/

namespace Xmix.Kv

open List

abbrev Bytes := List UInt8

structure MmFeature where
  identifier : String
  offset : Nat
  length : Nat
deriving DecidableEq, Repr

def MmFeature.stop (f : MmFeature) : Nat := f.offset + f.length

inductive ExtraKey where
  | str (s : String)
  | bytes (b : Bytes)
deriving DecidableEq, Repr

abbrev HashInput := Bytes × List Nat × Option (List ExtraKey)

structure HashReq where
  allTokenIds : List Nat
  mmFeatures : List MmFeature
  loraName : Option String
  cacheSalt : Option String
  promptEmbeds : Option (List Bytes)
  blockHashes : List Bytes

variable (r : HashReq) (fs : List MmFeature) (start stop : Nat)

def HashReq.numTokens : Nat := r.allTokenIds.length

def mmLoop (start stop : Nat) : List MmFeature → Nat → List String × Nat
  | [], i => ([], i)
  | f :: fs, i =>
    if stop > f.offset then
      if start > f.offset + f.length then mmLoop start stop fs (i + 1)
      else if stop ≥ f.offset + f.length then
        (f.identifier :: (mmLoop start stop fs (i + 1)).1, (mmLoop start stop fs (i + 1)).2)
      else ([f.identifier], i)
    else ([], i)

def genMmExtraHashKeys (i : Int) : List String × Int :=
  match fs.getLast? with
  | none => ([], i)
  | some last =>
    if last.offset + last.length < start then ([], i)
    else
      let i := if i < 0 then (fs.length + i).toNat else i.toNat
      ((mmLoop start stop (fs.drop i) i).1, (mmLoop start stop (fs.drop i) i).2)

def genLoraExtraHashKeys : List String := r.loraName.toList

def cacheSaltKeys (start : Nat) : List String :=
  if start = 0 then r.cacheSalt.toList.filter (· ≠ "") else []

def genPromptEmbedsExtraHashKeys : List Bytes :=
  r.promptEmbeds.toList.map fun rows => ((rows.take stop).drop start).flatten

def joinKeys (lora mm salt : List String) (embeds : List Bytes) : Option (List ExtraKey) :=
  match lora.map .str ++ mm.map .str ++ salt.map .str ++ embeds.map .bytes with
  | [] => none
  | k :: ks => some (k :: ks)

def generateBlockHashExtraKeys (i : Int) : Option (List ExtraKey) × Int :=
  (joinKeys (genLoraExtraHashKeys r) (genMmExtraHashKeys r.mmFeatures start stop i).1 (cacheSaltKeys r start)
    (genPromptEmbedsExtraHashKeys r start stop), (genMmExtraHashKeys r.mmFeatures start stop i).2)

section Hasher
variable (hash : HashInput → Bytes) (noneHash : Bytes) (blockSize : Nat)

def hashBlockTokens (parent : Option Bytes) (tokens : List Nat) (extraKeys : Option (List ExtraKey)) : Bytes :=
  let parent := parent.getD []
  hash (if parent = [] then noneHash else parent, tokens, extraKeys)

def hashLoop (r : HashReq) : (fuel start : Nat) → Int → Option Bytes → List Bytes
  | 0, _, _, _ => []
  | fuel + 1, start, i, prev =>
    let stop := start + blockSize
    if stop > r.numTokens then []
    else
      let (extraKeys, i) := generateBlockHashExtraKeys r start stop i
      let h := hashBlockTokens hash noneHash prev ((r.allTokenIds.take stop).drop start) extraKeys
      h :: hashLoop r fuel stop i (some h)

def requestBlockHasher (r : HashReq) : List Bytes :=
  let start := r.blockHashes.length * blockSize
  if start + blockSize > r.numTokens then []
  else hashLoop hash noneHash blockSize r (r.numTokens + 1) start (if start > 0 then -1 else 0) r.blockHashes.getLast?

def HashReq.create (r : HashReq) : HashReq :=
  { r with blockHashes := requestBlockHasher hash noneHash blockSize { r with blockHashes := [] } }

def HashReq.append (r : HashReq) (tokens : List Nat) : HashReq :=
  let r := { r with allTokenIds := r.allTokenIds ++ tokens }
  { r with blockHashes := r.blockHashes ++ requestBlockHasher hash noneHash blockSize r }

end Hasher

/-! ### The items of a block -/

/-- The features are in order and do not overlap. -/
structure Placed (fs : List MmFeature) : Prop where
  sorted : fs.Pairwise fun f g => f.stop ≤ g.offset
  pos : ∀ f ∈ fs, 0 < f.length

def MmFeature.overlaps (start stop : Nat) (f : MmFeature) : Bool := f.offset < stop && start < f.stop

def idsIn : List String :=
  (fs.filter (MmFeature.overlaps start stop)).map MmFeature.identifier

theorem MmFeature.overlaps_iff {start stop : Nat} {f : MmFeature} :
    f.overlaps start stop = true ↔ f.offset < stop ∧ start < f.stop := by
  simp [overlaps]

theorem MmFeature.offset_le_stop (f : MmFeature) : f.offset ≤ f.stop := Nat.le_add_right _ _

theorem Placed.tail {f : MmFeature} {fs : List MmFeature} (h : Placed (f :: fs)) : Placed fs :=
  ⟨(pairwise_cons.1 h.sorted).2, fun g hg => h.pos g (by simp [hg])⟩

theorem Placed.drop {fs : List MmFeature} (h : Placed fs) (n : Nat) : Placed (fs.drop n) :=
  ⟨h.sorted.sublist (drop_sublist n fs), fun f hf => h.pos f (mem_of_mem_drop hf)⟩

theorem idsIn_eq_nil {fs : List MmFeature} {start stop : Nat} (h : ∀ f ∈ fs, ¬ (f.offset < stop ∧ start < f.stop)) :
    idsIn fs start stop = [] := by
  have hnil : fs.filter (MmFeature.overlaps start stop) = [] := by
    refine filter_eq_nil_iff.2 fun f hf hov => h f hf (MmFeature.overlaps_iff.1 hov)
  rw [idsIn, hnil]
  rfl

theorem mmLoop_spec {start stop : Nat} {fs : List MmFeature}
    (hp : Placed fs) (hcur : ∀ f ∈ fs, start < f.stop) (i : Nat) :
    (mmLoop start stop fs i).1 = idsIn fs start stop ∧
      ∃ n, (mmLoop start stop fs i).2 = i + n ∧ (∀ f ∈ fs.take n, f.stop ≤ stop) ∧ ∀ f ∈ fs.drop n, stop < f.stop := by
  induction fs generalizing i with
  | nil => exact ⟨rfl, 0, rfl, by simp, by simp⟩
  | cons f fs ih =>
    have hf : start < f.stop := hcur f (by simp)
    have hlen : 0 < f.length := hp.pos f (by simp)
    have hafter : ∀ g ∈ fs, f.stop ≤ g.offset := (pairwise_cons.1 hp.sorted).1
    have hstop : f.stop = f.offset + f.length := rfl
    unfold mmLoop
    by_cases hreach : stop > f.offset
    · have hnot : ¬ start > f.offset + f.length := by omega
      have hov : f.overlaps start stop = true := MmFeature.overlaps_iff.2 ⟨hreach, hf⟩
      rw [if_pos hreach, if_neg hnot]
      by_cases hend : stop ≥ f.offset + f.length
      · obtain ⟨hkeys, n, hn, hbefore, hrest⟩ := ih hp.tail (fun g hg => hcur g (by simp [hg])) (i + 1)
        rw [if_pos hend]
        refine ⟨?_, n + 1, by show (mmLoop start stop fs (i + 1)).2 = _; omega, ?_, by simpa using hrest⟩
        · rw [hkeys, idsIn, idsIn, filter_cons_of_pos hov, map_cons]
        · intro g hg
          rw [take_succ_cons] at hg
          rcases mem_cons.1 hg with rfl | hg
          · exact hend
          · exact hbefore g hg
      · -- the block ends inside the item, so later items start past it
        have hnone : idsIn fs start stop = [] := idsIn_eq_nil fun g hg hov => by
          have := hafter g hg
          omega
        rw [if_neg hend]
        refine ⟨?_, 0, rfl, by simp, fun g hg => ?_⟩
        · rw [idsIn, filter_cons_of_pos hov, map_cons]
          exact congrArg (f.identifier :: ·) hnone.symm
        · rcases mem_cons.1 hg with rfl | hg
          · omega
          · have := hafter g hg
            have := g.offset_le_stop
            omega
    · rw [if_neg hreach]
      refine ⟨(idsIn_eq_nil fun g hg hov => ?_).symm, 0, rfl, by simp, fun g hg => ?_⟩
      · rcases mem_cons.1 hg with rfl | hg
        · omega
        · have := hafter g hg
          omega
      · rcases mem_cons.1 hg with rfl | hg
        · omega
        · have := hafter g hg
          have := g.offset_le_stop
          omega

def Cursor (i : Int) (start : Nat) : Prop :=
  (0 ≤ i ∧ (∀ f ∈ fs.take i.toNat, f.stop ≤ start) ∧ ∀ f ∈ fs.drop i.toNat, start < f.stop) ∨ ∀ f ∈ fs, f.stop < start

section
variable {fs : List MmFeature} (hp : Placed fs)
include hp

theorem Cursor.zero : Cursor fs 0 0 := by
  refine .inl ⟨by omega, by simp, fun f hf => ?_⟩
  have := hp.pos f (by simpa using hf)
  show 0 < f.offset + f.length
  omega

theorem Placed.stop_le_last {last : MmFeature} (hlast : fs.getLast? = some last) :
    ∀ f ∈ fs, f.stop ≤ last.stop := by
  obtain ⟨init, rfl⟩ := getLast?_eq_some_iff.1 hlast
  intro f hf
  rcases mem_append.1 hf with hf | hf
  · have := (pairwise_append.1 hp.sorted).2.2 f hf last (by simp)
    exact this.trans last.offset_le_stop
  · rw [mem_singleton.1 hf]

theorem genMmExtraHashKeys_spec {start stop : Nat} (hle : start ≤ stop) {i : Int}
    (hcur : Cursor fs i start) : (genMmExtraHashKeys fs start stop i).1 = idsIn fs start stop ∧
      Cursor fs (genMmExtraHashKeys fs start stop i).2 stop := by
  unfold genMmExtraHashKeys
  cases hlast : fs.getLast? with
  | none =>
    obtain rfl := getLast?_eq_none_iff.1 hlast
    exact ⟨rfl, .inr (by simp)⟩
  | some last =>
    by_cases hpast : last.offset + last.length < start
    · have hall : ∀ f ∈ fs, f.stop < start := fun f hf => (hp.stop_le_last hlast f hf).trans_lt hpast
      simp only [if_pos hpast]
      refine ⟨(idsIn_eq_nil fun f hf hov => ?_).symm, .inr fun f hf => (hall f hf).trans_le hle⟩
      have := hall f hf
      omega
    · simp only [if_neg hpast]
      rcases hcur with ⟨hi, hbefore, hafter⟩ | hall
      · obtain ⟨hkeys, n, hn, htake, hdrop⟩ := @mmLoop_spec start stop _ (hp.drop i.toNat) hafter i.toNat
        simp only [if_neg (show ¬ i < 0 by omega), hn, hkeys]
        have hsplit : idsIn fs start stop = idsIn (fs.drop i.toNat) start stop := by
          have hnone : idsIn (fs.take i.toNat) start stop = [] := idsIn_eq_nil fun f hf hov => by
            have := hbefore f hf
            omega
          conv_lhs => rw [← take_append_drop i.toNat fs]
          rw [idsIn, filter_append, map_append]
          exact (congrArg (· ++ _) hnone).trans (nil_append _)
        refine ⟨hsplit.symm, .inl ⟨by omega, fun f hf => ?_, fun f hf => ?_⟩⟩
        · rw [show ((i.toNat + n : Nat) : Int).toNat = i.toNat + n by omega, take_add] at hf
          rcases mem_append.1 hf with hf | hf
          · exact (hbefore f hf).trans hle
          · exact htake f hf
        · rw [show ((i.toNat + n : Nat) : Int).toNat = i.toNat + n by omega, ← drop_drop] at hf
          exact hdrop f hf
      · obtain ⟨init, rfl⟩ := getLast?_eq_some_iff.1 hlast
        exact absurd (hall last (by simp)) hpast

end

/-! ### What the hashes mean -/

section Chain
variable (hash : HashInput → Bytes) (noneHash : Bytes) (bs : Nat) (r : HashReq) (ids : Nat → List String)

def blockTokens (k : Nat) : List Nat := (r.allTokenIds.take ((k + 1) * bs)).drop (k * bs)

def keysWith (k : Nat) : Option (List ExtraKey) :=
  joinKeys (genLoraExtraHashKeys r) (ids k) (cacheSaltKeys r (k * bs))
    (genPromptEmbedsExtraHashKeys r (k * bs) ((k + 1) * bs))

def chainWith : Nat → Bytes
  | 0 => hashBlockTokens hash noneHash none (blockTokens bs r 0) (keysWith bs r ids 0)
  | k + 1 => hashBlockTokens hash noneHash (some (chainWith k)) (blockTokens bs r (k + 1)) (keysWith bs r ids (k + 1))

def blockIds (k : Nat) : List String := idsIn r.mmFeatures (k * bs) ((k + 1) * bs)

def chain : Nat → Bytes := chainWith hash noneHash bs r (blockIds bs r)

def prevHash : Nat → Option Bytes
  | 0 => none
  | k + 1 => some (chainWith hash noneHash bs r ids k)

def HashReq.upTo (r : HashReq) (m : Nat) (hashes : List Bytes) : HashReq :=
  { r with allTokenIds := r.allTokenIds.take m, blockHashes := hashes }

end Chain

section Spec
variable {hash : HashInput → Bytes} {noneHash : Bytes} {bs : Nat} {r : HashReq} {ids : Nat → List String}

theorem chainWith_eq (k : Nat) : chainWith hash noneHash bs r ids k =
    hashBlockTokens hash noneHash (prevHash hash noneHash bs r ids k) (blockTokens bs r k) (keysWith bs r ids k) := by
  cases k <;> rfl

theorem numTokens_upTo {m : Nat} (hm : m ≤ r.numTokens) (hashes : List Bytes) : (r.upTo m hashes).numTokens = m := by
  rw [HashReq.numTokens, HashReq.upTo, length_take]
  exact Nat.min_eq_left hm

theorem getLast?_chain (n : Nat) :
    ((range n).map (chainWith hash noneHash bs r ids)).getLast? = prevHash hash noneHash bs r ids n := by
  cases n with
  | zero => rfl
  | succ n => rw [range_succ, map_append]; simp [prevHash]

section
variable {m : Nat} {hashes : List Bytes} {i : Int} {prev : Option Bytes}

theorem hashLoop_succ (hm : m ≤ r.numTokens) {k : Nat} (hk : (k + 1) * bs ≤ m) {fuel : Nat}
    (hprev : prev = prevHash hash noneHash bs r ids k)
    (hids : (genMmExtraHashKeys r.mmFeatures (k * bs) ((k + 1) * bs) i).1 = ids k) :
    hashLoop hash noneHash bs (r.upTo m hashes) (fuel + 1) (k * bs) i prev = chainWith hash noneHash bs r ids k ::
      hashLoop hash noneHash bs (r.upTo m hashes) fuel ((k + 1) * bs)
        (genMmExtraHashKeys r.mmFeatures (k * bs) ((k + 1) * bs) i).2
        (prevHash hash noneHash bs r ids (k + 1)) := by
  have hstop : k * bs + bs = (k + 1) * bs := by rw [Nat.add_mul, Nat.one_mul]
  have htokens : (((r.upTo m hashes).allTokenIds.take ((k + 1) * bs)).drop (k * bs)) = blockTokens bs r k := by
    show ((r.allTokenIds.take m).take _).drop _ = _
    rw [take_take, Nat.min_eq_left hk]
    rfl
  have hkeys : (generateBlockHashExtraKeys (r.upTo m hashes) (k * bs) ((k + 1) * bs) i).1 = keysWith bs r ids k := by
    show joinKeys _ (genMmExtraHashKeys r.mmFeatures (k * bs) ((k + 1) * bs) i).1 _ _ = _
    rw [hids]
    rfl
  have hhash : hashBlockTokens hash noneHash prev (blockTokens bs r k)
    (keysWith bs r ids k) = chainWith hash noneHash bs r ids k := by
    rw [hprev, chainWith_eq]
  simp only [hashLoop, hstop, numTokens_upTo hm]
  rw [if_neg (by omega), htokens, hkeys, hhash]
  rfl

theorem hashLoop_spec (hbs : 0 < bs) (hp : Placed r.mmFeatures) (hm : m ≤ r.numTokens) {fuel k : Nat}
    (hprev : prev = prevHash hash noneHash bs r ids k) (hcur : Cursor r.mmFeatures i (k * bs))
    (hids : ∀ j ≥ k, j < m / bs → ids j = blockIds bs r j) (hfuel : m / bs - k < fuel) :
    hashLoop hash noneHash bs (r.upTo m hashes) fuel (k * bs) i prev =
      (range' k (m / bs - k)).map (chainWith hash noneHash bs r ids) := by
  induction fuel generalizing k i prev with
  | zero => omega
  | succ fuel ih =>
    have hroom : k + 1 ≤ m / bs ↔ (k + 1) * bs ≤ m := Nat.le_div_iff_mul_le hbs
    by_cases hk : (k + 1) * bs ≤ m
    · have hle : k * bs ≤ (k + 1) * bs := Nat.mul_le_mul_right _ (by omega)
      obtain ⟨hkeys, hnext⟩ := genMmExtraHashKeys_spec hp hle hcur
      have hlen : m / bs - k = m / bs - (k + 1) + 1 := by have := hroom.2 hk; omega
      rw [hashLoop_succ hm hk hprev (hkeys.trans (hids k (Nat.le_refl k) (hroom.2 hk)).symm),
        ih rfl hnext (fun j hj => hids j (by omega)) (by omega), hlen, range'_succ, map_cons]
    · have hdone : m / bs - k = 0 := by
        have : ¬ k + 1 ≤ m / bs := fun h => hk (hroom.1 h)
        omega
      have hstop : k * bs + bs = (k + 1) * bs := by rw [Nat.add_mul, Nat.one_mul]
      rw [hdone]
      simp only [hashLoop, hstop, numTokens_upTo hm]
      rw [if_pos (by omega)]
      rfl

end

section
variable (hbs : 0 < bs) (hp : Placed r.mmFeatures) {m : Nat} (hm : m ≤ r.numTokens)
  (hids : ∀ j < m / bs, ids j = blockIds bs r j)
include hbs hp hm hids

theorem requestBlockHasher_new :
    requestBlockHasher hash noneHash bs (r.upTo m []) = (range (m / bs)).map (chainWith hash noneHash bs r ids) := by
  have hfuel : m / bs < m + 1 := by have := Nat.div_le_self m bs; omega
  rw [requestBlockHasher, show (r.upTo m []).blockHashes = [] from rfl, numTokens_upTo hm]
  simp only [length_nil, Nat.zero_mul, Nat.zero_add, gt_iff_lt, Nat.lt_irrefl, if_false]
  split
  · next h => rw [Nat.div_eq_of_lt h]; rfl
  · have hloop : hashLoop hash noneHash bs (r.upTo m []) (m + 1) (0 * bs) 0 none =
        (range' 0 (m / bs - 0)).map (chainWith hash noneHash bs r ids) := by
      refine hashLoop_spec hbs hp hm rfl ?_ (fun j _ => hids j) hfuel
      rw [Nat.zero_mul]
      exact .zero hp
    rw [Nat.zero_mul] at hloop
    rw [getLast?_nil, hloop, range_eq_range', Nat.sub_zero]

theorem create_eq (hashes : List Bytes) : (r.upTo m hashes).create hash noneHash bs =
      r.upTo m ((range (m / bs)).map (chainWith hash noneHash bs r ids)) := by
  rw [← requestBlockHasher_new hbs hp hm hids]
  rfl

end

theorem HashReq.upTo_all (r : HashReq) : r.upTo r.numTokens r.blockHashes = r := by
  simp [upTo, numTokens]

theorem blockHashes_create (hbs : 0 < bs) (hp : Placed r.mmFeatures) :
    (r.create hash noneHash bs).blockHashes = (range (r.numTokens / bs)).map (chain hash noneHash bs r) := by
  have h := @create_eq hash noneHash bs r _ hbs hp _ (Nat.le_refl _) (fun j _ => rfl) r.blockHashes
  rw [r.upTo_all] at h
  rw [h]
  rfl

end Spec

/-! ### Appending -/

def restartIds (start : Nat) : List String :=
  (fs.getLast?.toList.filter fun f => start ≤ f.stop).map MmFeature.identifier

def appendIds (bs : Nat) (r : HashReq) (p k : Nat) : List String :=
  if k = p / bs ∧ 0 < k then restartIds r.mmFeatures (k * bs) else blockIds bs r k

theorem take_append_part {l tokens rest : List Nat}
    {m : Nat} (h : l = l.take m ++ (tokens ++ rest)) (hm : m ≤ l.length) :
    l.take (m + tokens.length) = l.take m ++ tokens ∧ m + tokens.length ≤ l.length := by
  have hlen : (l.take m).length = m := by rw [length_take]; exact Nat.min_eq_left hm
  constructor
  · conv_lhs => rw [h]
    rw [take_append, hlen, take_of_length_le (by rw [hlen]; omega)]
    simp
  · have := congrArg length h
    simp only [length_append, hlen] at this
    omega

section Append
variable {hash : HashInput → Bytes} {noneHash : Bytes} {bs : Nat} {r : HashReq} {p : Nat}

theorem genMmExtraHashKeys_restart {fs : List MmFeature} {start stop : Nat} (hstop : ∀ f ∈ fs, f.stop < stop) :
    (genMmExtraHashKeys fs start stop (-1)).1 = restartIds fs start := by
  unfold genMmExtraHashKeys restartIds
  cases hlast : fs.getLast? with
  | none => rfl
  | some last =>
    obtain ⟨init, rfl⟩ := getLast?_eq_some_iff.1 hlast
    have hdef : last.stop = last.offset + last.length := rfl
    by_cases hpast : last.offset + last.length < start
    · have hno : ¬ start ≤ last.stop := by omega
      simp [hpast, hno]
    · have hyes : start ≤ last.stop := by omega
      have hin := hstop last (by simp)
      have hidx : (((init ++ [last]).length : Int) + -1).toNat = init.length := by
        rw [length_append, length_singleton]
        omega
      have hloop : mmLoop start stop [last] init.length = ([last.identifier], init.length + 1) := by
        rw [mmLoop, if_pos (by omega), if_neg (by omega), if_pos (by omega)]
        rfl
      have hcur : (-1 : Int) < 0 := by decide
      simp only [if_neg hpast, if_pos hcur, hidx, drop_left, hloop]
      simp [hyes]

variable (hbs : 0 < bs) (hp : Placed r.mmFeatures) (hin : ∀ f ∈ r.mmFeatures, f.stop ≤ p)
include hbs hp hin

theorem requestBlockHasher_upTo {n m : Nat} (hn : p / bs ≤ n) (hm : m ≤ r.numTokens) :
    requestBlockHasher hash noneHash bs (r.upTo m ((range n).map (chainWith hash noneHash bs r (appendIds bs r p)))) =
      (range' n (m / bs - n)).map (chainWith hash noneHash bs r (appendIds bs r p)) := by
  have hroom : n + 1 ≤ m / bs ↔ (n + 1) * bs ≤ m := Nat.le_div_iff_mul_le hbs
  have hstop : n * bs + bs = (n + 1) * bs := by rw [Nat.add_mul, Nat.one_mul]
  have hfuel : m / bs < m + 1 := by have := Nat.div_le_self m bs; omega
  simp only [requestBlockHasher, numTokens_upTo hm]
  rw [show (r.upTo m _).blockHashes = (range n).map
    (chainWith hash noneHash bs r (appendIds bs r p)) from rfl, length_map,
    length_range, hstop, getLast?_chain]
  split
  · have hdone : m / bs - n = 0 := by
      have : ¬ n + 1 ≤ m / bs := fun h => by have := hroom.1 h; omega
      omega
    rw [hdone]
    rfl
  next hk =>
  -- every item ends before the block after the one the prompt ends in
  have hpast : ∀ k, p / bs < k → ∀ f ∈ r.mmFeatures, f.stop < k * bs := by
    intro k hlt f hf
    have := (Nat.div_lt_iff_lt_mul hbs).1 hlt
    have := hin f hf
    omega
  rcases Nat.eq_zero_or_pos n with rfl | hpos
  · have hids : ∀ j ≥ 0, j < m / bs → appendIds bs r p j = blockIds bs r j := by
      intro j _ _
      refine if_neg fun h => ?_
      rw [h.1, Nat.le_zero.1 hn] at h
      exact Nat.lt_irrefl 0 h.2
    rw [if_neg (by simp)]
    exact hashLoop_spec hbs hp hm rfl (by rw [Nat.zero_mul]; exact .zero hp) hids (by omega)
  · rw [if_pos (Nat.mul_pos hpos hbs)]
    have hids : ∀ j, p / bs < j → appendIds bs r p j = blockIds bs r j := fun j hj => if_neg fun h => by omega
    rcases Nat.lt_or_ge (p / bs) n with hlt | hge
    · exact hashLoop_spec hbs hp hm rfl (.inr (hpast n hlt)) (fun j hj _ => hids j (by omega)) (by omega)
    · obtain rfl : n = p / bs := Nat.le_antisymm hge hn
      have hnext := hpast (p / bs + 1) (Nat.lt_succ_self _)
      have hfirst : (genMmExtraHashKeys r.mmFeatures (p / bs * bs) ((p / bs + 1) * bs) (-1)).1 =
        appendIds bs r p (p / bs) := by
        rw [genMmExtraHashKeys_restart hnext, appendIds, if_pos ⟨rfl, hpos⟩]
      have hlen : m / bs - p / bs = m / bs - (p / bs + 1) + 1 := by
        omega
      rw [hashLoop_succ hm (by omega) rfl hfirst, hlen, range'_succ, map_cons]
      congr 1
      exact hashLoop_spec hbs hp hm rfl (.inr hnext) (fun j hj _ => hids j (by omega)) (by omega)

theorem append_upTo {m : Nat} {tokens rest : List Nat} (hpm : p ≤ m)
    (ht : r.allTokenIds = r.allTokenIds.take m ++ (tokens ++ rest)) (hm : m ≤ r.numTokens) :
    (r.upTo m ((range (m / bs)).map (chainWith hash noneHash bs r (appendIds bs r p)))).append hash noneHash bs tokens =
      r.upTo (m + tokens.length)
        ((range ((m + tokens.length) / bs)).map (chainWith hash noneHash bs r (appendIds bs r p))) := by
  obtain ⟨htake, hm'⟩ := take_append_part ht hm
  have hle : m / bs ≤ (m + tokens.length) / bs := Nat.div_le_div_right (by omega)
  have hrange : range ((m + tokens.length) / bs) =
      range (m / bs) ++ range' (m / bs) ((m + tokens.length) / bs - m / bs) := by
    have happ := range'_append_1 (s := 0) (m := m / bs) (n := (m + tokens.length) / bs - m / bs)
    rw [Nat.zero_add] at happ
    rw [range_eq_range', range_eq_range', happ]
    congr 1
    omega
  rw [hrange, map_append, ← requestBlockHasher_upTo hbs hp hin (Nat.div_le_div_right hpm) hm']
  simp [HashReq.append, HashReq.upTo, htake]

theorem appends_upTo {m : Nat} (hpm : p ≤ m) {outs : List (List Nat)}
    (ht : r.allTokenIds = r.allTokenIds.take m ++ outs.flatten) (hm : m ≤ r.numTokens) :
    outs.foldl (HashReq.append hash noneHash bs)
        (r.upTo m ((range (m / bs)).map (chainWith hash noneHash bs r (appendIds bs r p)))) =
      r.upTo r.numTokens ((range (r.numTokens / bs)).map (chainWith hash noneHash bs r (appendIds bs r p))) := by
  induction outs generalizing m with
  | nil =>
    have hall : m = r.numTokens := by
      have := congrArg length ht
      simp only [flatten_nil, append_nil, length_take] at this
      rw [HashReq.numTokens] at hm ⊢
      omega
    rw [hall]
    rfl
  | cons tokens outs ih =>
    rw [flatten_cons] at ht
    obtain ⟨htake, hm'⟩ := take_append_part ht hm
    rw [foldl_cons, append_upTo hbs hp hin hpm ht hm]
    exact ih (by omega) (by rw [htake, append_assoc]; exact ht) hm'

end Append

/-! ### Equal keys -/

theorem joinKeys_inj {lora mm salt lora' mm' salt' : List String} {embeds embeds' : List Bytes}
    (h : joinKeys lora mm salt embeds = joinKeys lora' mm' salt' embeds') :
    lora ++ mm ++ salt = lora' ++ mm' ++ salt' ∧ embeds = embeds' := by
  have hlist : ∀ (a b : List String) (c d : List Bytes),
    a.map ExtraKey.str ++ c.map .bytes = b.map .str ++ d.map .bytes →
      a = b ∧ c = d := by
    intro a
    induction a with
    | nil =>
      intro b c d heq
      cases b with
      | nil => exact ⟨rfl, map_injective_iff.2 (fun _ _ h => ExtraKey.bytes.inj h) (by simpa using heq)⟩
      | cons x b => cases c <;> simp at heq
    | cons x a ih =>
      intro b c d heq
      cases b with
      | nil => cases d <;> simp at heq
      | cons y b =>
        simp only [map_cons, cons_append, cons.injEq, ExtraKey.str.injEq] at heq
        obtain ⟨rfl, rfl⟩ := ih b c d heq.2
        exact ⟨by rw [heq.1], rfl⟩
  have hopt : ∀ {a b : List ExtraKey}, (match a with | [] => none | k :: ks => some (k :: ks)) =
      (match b with | [] => none | k :: ks => some (k :: ks)) → a = b := by
    intro a b hab
    cases a <;> cases b <;> simp_all
  have hkeys := hopt h
  refine hlist _ _ _ _ ?_
  simpa only [map_append] using hkeys

section Restart
variable {fs : List MmFeature} {start stop : Nat}

theorem idsIn_append (fs gs : List MmFeature) (start stop : Nat) :
    idsIn (fs ++ gs) start stop = idsIn fs start stop ++ idsIn gs start stop := by
  rw [idsIn, filter_append, map_append]
  rfl

theorem restartIds_eq_iff (hp : Placed fs) (hstop : ∀ f ∈ fs, f.stop < stop) :
    restartIds fs start = idsIn fs start stop ↔
    ∀ last, fs.getLast? = some last → last.stop < start ∨ start < last.stop ∧ ∀ f ∈ fs.dropLast, f.stop ≤ start := by
  cases hlast : fs.getLast? with
  | none =>
    obtain rfl := getLast?_eq_none_iff.1 hlast
    exact ⟨fun _ _ h => by simp at h, fun _ => rfl⟩
  | some last =>
    have hle := hp.stop_le_last hlast
    obtain ⟨init, rfl⟩ := getLast?_eq_some_iff.1 hlast
    have hoff : last.offset < stop := last.offset_le_stop.trans_lt (hstop last (by simp))
    have hinit : idsIn init start stop = [] ↔ ∀ f ∈ init, f.stop ≤ start := by
      refine ⟨fun h f hf => ?_, fun h => idsIn_eq_nil fun f hf hov => ?_⟩
      · by_contra hlt
        have hov : f.overlaps start stop = true :=
          MmFeature.overlaps_iff.2 ⟨f.offset_le_stop.trans_lt (hstop f (by simp [hf])), by omega⟩
        have := mem_map_of_mem (f := MmFeature.identifier) (mem_filter.2 ⟨hf, hov⟩)
        rw [show map MmFeature.identifier (filter _ init) = [] from h] at this
        exact absurd this not_mem_nil
      · have := h f hf
        omega
    rw [idsIn_append, restartIds, hlast, dropLast_concat]
    rcases Nat.lt_trichotomy last.stop start with hlt | heq | hgt
    · have hnone : idsIn (init ++ [last]) start stop = [] := idsIn_eq_nil fun f hf hov => by
        have := hle f hf
        omega
      rw [← idsIn_append, hnone]
      simp [hlt, show ¬ start ≤ last.stop by omega]
    · have hnone : idsIn (init ++ [last]) start stop = [] := idsIn_eq_nil fun f hf hov => by
        have := hle f hf
        omega
      rw [← idsIn_append, hnone]
      simp [heq]
    · have hone : idsIn [last] start stop = [last.identifier] := by
        simp [idsIn, MmFeature.overlaps, hoff, hgt]
      rw [hone, ← hinit]
      simp [show start ≤ last.stop by omega, hgt, show ¬ last.stop < start by omega]

end Restart

def HashReq.resent (outs : List (List Nat)) : HashReq := { r with allTokenIds := r.allTokenIds ++ outs.flatten }

/-- Where a restart after `p` tokens, which looks at the last feature only, misses none. -/
def RestartsRight (bs : Nat) (fs : List MmFeature) (p total : Nat) : Prop :=
  p < bs ∨ total < (p / bs + 1) * bs ∨ ∀ last, fs.getLast? = some last →
    last.stop < p / bs * bs ∨ p / bs * bs < last.stop ∧ ∀ f ∈ fs.dropLast, f.stop ≤ p / bs * bs

section Arrival
variable {hash : HashInput → Bytes} {noneHash : Bytes} {bs : Nat}

theorem chainWith_congr {r : HashReq} {ids ids' : Nat → List String} {k : Nat} (h : ∀ j ≤ k, ids j = ids' j) :
    chainWith hash noneHash bs r ids k = chainWith hash noneHash bs r ids' k := by
  induction k with
  | zero => rw [chainWith, chainWith, keysWith, keysWith, h 0 (Nat.le_refl 0)]
  | succ k ih => rw [chainWith, chainWith, keysWith, keysWith, h (k + 1) (Nat.le_refl _), ih fun j hj => h j (by omega)]

theorem hashBlockTokens_inj (hinj : Function.Injective hash)
    {prev prev' : Option Bytes} {ts ts' : List Nat} {ks ks' : Option (List ExtraKey)}
    (h : hashBlockTokens hash noneHash prev ts ks = hashBlockTokens hash noneHash prev' ts' ks') :
    ts = ts' ∧ ks = ks' := by
  have := hinj h
  simp only [Prod.mk.injEq] at this
  exact this.2

theorem blockHashes_appends {r : HashReq} (hbs : 0 < bs) (hp : Placed r.mmFeatures)
    (hin : ∀ f ∈ r.mmFeatures, f.stop ≤ r.numTokens) (outs : List (List Nat)) :
    (outs.foldl (HashReq.append hash noneHash bs) (r.create hash noneHash bs)).blockHashes =
      (range ((r.resent outs).numTokens / bs)).map
        (chainWith hash noneHash bs (r.resent outs) (appendIds bs (r.resent outs) r.numTokens)) := by
  have htake : (r.resent outs).allTokenIds.take r.numTokens = r.allTokenIds := by
    simp [HashReq.resent, HashReq.numTokens]
  have hm : r.numTokens ≤ (r.resent outs).numTokens := by
    simp [HashReq.resent, HashReq.numTokens]
  have hreq : r = (r.resent outs).upTo r.numTokens r.blockHashes := by
    rw [HashReq.upTo, htake]
    rfl
  have hids : ∀ j < r.numTokens / bs, appendIds bs (r.resent outs) r.numTokens j = blockIds bs (r.resent outs) j :=
    fun j hj => if_neg fun h => by omega
  have hcreate := @create_eq hash noneHash bs (r.resent outs) _ hbs hp _ hm hids r.blockHashes
  rw [← hreq] at hcreate
  rw [hcreate, @appends_upTo hash noneHash bs (r.resent outs) _ hbs hp hin _ (Nat.le_refl _) outs
    (by rw [htake]; rfl) hm]
  rfl

/-- The hashes after the appends are those of a request created with the whole list of tokens when the
loop restarts right, and, without collisions, only then. -/
theorem blockHashes_arrival {r : HashReq} (hbs : 0 < bs) (hp : Placed r.mmFeatures)
    (hin : ∀ f ∈ r.mmFeatures, f.stop ≤ r.numTokens) (outs : List (List Nat)) :
    ((r.resent outs).create hash noneHash bs).blockHashes =
        (range ((r.resent outs).numTokens / bs)).map (chain hash noneHash bs (r.resent outs)) ∧
      (RestartsRight bs r.mmFeatures r.numTokens (r.resent outs).numTokens →
        (outs.foldl (HashReq.append hash noneHash bs) (r.create hash noneHash bs)).blockHashes =
          ((r.resent outs).create hash noneHash bs).blockHashes) ∧
      (Function.Injective hash →
        (outs.foldl (HashReq.append hash noneHash bs) (r.create hash noneHash bs)).blockHashes =
          ((r.resent outs).create hash noneHash bs).blockHashes →
        RestartsRight bs r.mmFeatures r.numTokens (r.resent outs).numTokens) := by
  have hscratch := @blockHashes_create hash noneHash bs (r.resent outs) hbs hp
  have happends := @blockHashes_appends hash noneHash bs r hbs hp hin outs
  have hstop : ∀ f ∈ r.mmFeatures, f.stop < (r.numTokens / bs + 1) * bs := by
    intro f hf
    have := (Nat.div_lt_iff_lt_mul hbs).1 (Nat.lt_add_one (r.numTokens / bs))
    have := hin f hf
    omega
  have hroom : r.numTokens / bs + 1 ≤ (r.resent outs).numTokens / bs ↔
    (r.numTokens / bs + 1) * bs ≤ (r.resent outs).numTokens :=
    Nat.le_div_iff_mul_le hbs
  refine ⟨hscratch, fun hright => ?_, fun hinj heq => ?_⟩
  · rw [happends, hscratch]
    refine map_congr_left fun k hk => chainWith_congr fun j hj => ?_
    have hk := mem_range.1 hk
    rw [appendIds]
    split
    · next h =>
      obtain ⟨rfl, hpos⟩ := h
      rcases hright with hsmall | hshort | halone
      · rw [Nat.div_eq_of_lt hsmall] at hpos
        exact absurd hpos (Nat.lt_irrefl 0)
      · omega
      · exact (restartIds_eq_iff hp hstop).2 halone
    · rfl
  · by_cases hsmall : r.numTokens < bs
    · exact .inl hsmall
    by_cases hshort : (r.resent outs).numTokens < (r.numTokens / bs + 1) * bs
    · exact .inr (.inl hshort)
    refine .inr (.inr ((restartIds_eq_iff hp hstop).1 ?_))
    have hpos : 0 < r.numTokens / bs := Nat.div_pos (by omega) hbs
    have hk : r.numTokens / bs ∈ range ((r.resent outs).numTokens / bs) := mem_range.2 (hroom.2 (by omega))
    rw [happends, hscratch] at heq
    have hchain := map_inj_left.1 heq _ hk
    rw [chain, chainWith_eq, chainWith_eq] at hchain
    have hkeys := (joinKeys_inj (hashBlockTokens_inj hinj hchain).2).1
    rw [append_cancel_right_eq, append_cancel_left_eq, appendIds, if_pos ⟨rfl, hpos⟩] at hkeys
    exact hkeys

end Arrival

/-! ### A hash function and two requests -/

def ExtraKey.code : ExtraKey → Bool × List Nat
  | .str s => (true, s.toList.map Char.toNat)
  | .bytes b => (false, b.map UInt8.toNat)

theorem ExtraKey.code_injective : Function.Injective ExtraKey.code := by
  intro a b h
  have hchar : Function.Injective Char.toNat := fun c d h => by rw [← Char.ofNat_toNat c, h, Char.ofNat_toNat]
  cases a <;> cases b <;> simp only [code, Prod.mk.injEq, reduceCtorEq, false_and, true_and] at h
  · exact congrArg _ (String.toList_injective (map_injective_iff.2 hchar h))
  · exact congrArg _ (map_injective_iff.2 (fun _ _ h => UInt8.toNat_inj.1 h) h)

def unaryHash (x : HashInput) : Bytes :=
  replicate (Encodable.encode (x.1.map UInt8.toNat, x.2.1, x.2.2.map (map ExtraKey.code)) + 1) 0

theorem unaryHash_injective : Function.Injective unaryHash := by
  rintro ⟨a, t, k⟩ ⟨b, u, l⟩ h
  have hlen := congrArg length h
  simp only [unaryHash, length_replicate, Nat.add_right_cancel_iff, Encodable.encode_inj, Prod.mk.injEq] at hlen
  obtain ⟨ha, rfl, hk⟩ := hlen
  rw [map_injective_iff.2 (fun _ _ h => UInt8.toNat_inj.1 h) ha,
    Option.map_injective (map_injective_iff.2 ExtraKey.code_injective) hk]

def oneItem (offset length : Nat) : HashReq := ⟨[5, 5, 7], [⟨"cat", offset, length⟩], none, none, none, []⟩

theorem oneItem_placed {offset length : Nat} (h : 0 < length) : Placed (oneItem offset length).mmFeatures :=
  ⟨pairwise_singleton _ _, fun f hf => by rw [mem_singleton.1 hf]; exact h⟩

/-- The item lies inside the block that the output completes. -/
theorem oneItem_arrival : ([[1], [2, 3]].foldl (HashReq.append unaryHash [1] 2)
      ((oneItem 2 1).create unaryHash [1] 2)).blockHashes =
    (((oneItem 2 1).resent [[1], [2, 3]]).create unaryHash [1] 2).blockHashes :=
  (blockHashes_arrival (by decide) (oneItem_placed (by decide)) (by decide) [[1], [2, 3]]).2.1 (.inr (.inr (by decide)))

/-- The item ends where the block that the output completes starts. -/
theorem oneItem_differs : ∃ (hash : HashInput → Bytes) (noneHash : Bytes), Function.Injective hash ∧
      Placed (oneItem 0 2).mmFeatures ∧
    (∀ f ∈ (oneItem 0 2).mmFeatures, f.stop ≤ (oneItem 0 2).numTokens) ∧
    ([[1]].foldl (HashReq.append hash noneHash 2) ((oneItem 0 2).create hash noneHash 2)).blockHashes ≠
      (((oneItem 0 2).resent [[1]]).create hash noneHash 2).blockHashes := by
  refine ⟨unaryHash, [1], unaryHash_injective, oneItem_placed (by decide), by decide, fun h => ?_⟩
  have hp : Placed ((oneItem 0 2).resent [[1]]).mmFeatures := oneItem_placed (by decide)
  rw [blockHashes_appends (by decide) (oneItem_placed (by decide)) (by decide), blockHashes_create (by decide) hp] at h
  have hchain := map_inj_left.1 h 1 (by decide)
  rw [chain, chainWith_eq, chainWith_eq] at hchain
  have hkeys := (hashBlockTokens_inj unaryHash_injective hchain).2
  exact absurd hkeys (by decide)

end Xmix.Kv
