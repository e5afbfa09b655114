import Xmix.Kv.Manager
import Xmix.Lib.Except

/-!
# The specs of the layers

`KVCacheSpec` with its classes, their page sizes, and the memory that one request of the model's
length may need. A value is `none` where the source raises: at a block size of zero, or at one of
its assertions.
-/

namespace Xmix.Kv.Layout

open Option

def cdiv? (a : Int) (b : Nat) : Option Int := if b = 0 then none else some (-(-a / b))

structure VllmConfig where
  maxModelLen : Int
  maxNumBatchedTokens : Nat
  maxNumEncoderInputTokens : Nat
  decodeContextParallelSize : Nat
  prefillContextParallelSize : Nat
  deriving DecidableEq

structure Dtype where
  name : String
  size : Nat
  deriving DecidableEq

structure AttentionSpec where
  blockSize : Nat
  numKvHeads : Nat
  headSize : Nat
  dtype : Dtype
  deriving DecidableEq

structure MambaSpec where
  blockSize : Nat
  shapes : List (List Nat)
  dtypes : List Dtype
  pageSizePadded : Option Nat
  mambaType : String
  numSpeculativeBlocks : Nat
  deriving DecidableEq

inductive KVCacheSpec where
  | full (a : AttentionSpec) (slidingWindow attentionChunkSize : Option Nat)
  | mla (a : AttentionSpec) (slidingWindow attentionChunkSize : Option Nat) (cacheDtypeStr : Option String)
  | chunkedLocal (a : AttentionSpec) (attentionChunkSize : Nat)
  | slidingWindow (a : AttentionSpec) (slidingWindow : Nat)
  | mamba (m : MambaSpec)
  | encoderOnly (a : AttentionSpec)
  | cross (a : AttentionSpec)
  deriving DecidableEq

def AttentionSpec.pageSizeBytes (a : AttentionSpec) : Nat := 2 * a.blockSize * a.numKvHeads * a.headSize * a.dtype.size

def MambaSpec.pageSizeBytes (m : MambaSpec) : Option Nat :=
  let pageSize := ((m.shapes.zip m.dtypes).map fun x => x.1.prod * x.2.size).sum
  match m.pageSizePadded with
  | none => some pageSize
  | some padded => if pageSize ≤ padded then some padded else none

namespace KVCacheSpec

def blockSize : KVCacheSpec → Nat
  | full a _ _ | mla a _ _ _ | chunkedLocal a _ | slidingWindow a _ | encoderOnly a | cross a => a.blockSize
  | mamba m => m.blockSize

def pageSizeBytes : KVCacheSpec → Option Nat
  | full a _ _ | chunkedLocal a _ | slidingWindow a _ | encoderOnly a | cross a => some a.pageSizeBytes
  | mla a _ _ d =>
    some (if d = some "fp8_ds_mla" then a.blockSize * 656 else a.blockSize * a.numKvHeads * a.headSize * a.dtype.size)
  | mamba m => m.pageSizeBytes

def bytesFor (spec : KVCacheSpec) (numTokens extra : Int) : Option Int := do
  let numPages ← cdiv? numTokens spec.blockSize
  let pageSize ← spec.pageSizeBytes
  some ((numPages + extra) * pageSize)

def localTokens (cfg : VllmConfig) : Option Int :=
  let worldSize := cfg.decodeContextParallelSize * cfg.prefillContextParallelSize
  if 1 < worldSize then cdiv? cfg.maxModelLen worldSize else some cfg.maxModelLen

def maxMemoryUsageBytes (cfg : VllmConfig) (spec : KVCacheSpec) : Option Int :=
  match spec with
  | full .. | mla .. => do spec.bytesFor (← localTokens cfg) 0
  | chunkedLocal _ chunk => spec.bytesFor (min (chunk + cfg.maxNumBatchedTokens) cfg.maxModelLen) 0
  | slidingWindow _ window =>
    if cfg.decodeContextParallelSize ≠ 1 then none
    else spec.bytesFor (min (window - 1 + cfg.maxNumBatchedTokens) cfg.maxModelLen) 1
  | mamba _ => spec.bytesFor cfg.maxModelLen 0
  | encoderOnly _ => some 0
  | cross _ => spec.bytesFor cfg.maxNumEncoderInputTokens 0

end KVCacheSpec

def maxMemoryUsageBytes (cfg : VllmConfig) (specs : List KVCacheSpec) : Option Int :=
  (specs.mapM (KVCacheSpec.maxMemoryUsageBytes cfg)).map List.sum

/-! ### Longer requests need more -/

def Grows (f : Int → Option Int) : Prop :=
  (∀ n, f n = none) ∨ ∃ g : Int → Int, (∀ m n, m ≤ n → g m ≤ g n) ∧ ∀ n, f n = some (g n)

theorem Grows.const (m : Option Int) : Grows fun _ => m := by
  cases m with
  | none => exact .inl fun _ => rfl
  | some m => exact .inr ⟨fun _ => m, fun _ _ _ => Int.le_refl m, fun _ => rfl⟩

theorem Grows.bind {f k : Int → Option Int} (hf : Grows f) (hk : Grows k) : Grows fun n => (f n).bind k := by
  obtain hnone | ⟨g, hg, hf⟩ := hf
  · exact .inl fun n => by simp [hnone]
  · obtain hnone | ⟨g', hg', hk⟩ := hk
    · exact .inl fun n => by simp [hf, hnone]
    · exact .inr ⟨fun n => g' (g n), fun m n h => hg' _ _ (hg m n h), fun n => by simp only [hf, bind_some, hk]⟩

theorem Grows.comp {f : Int → Option Int} {g : Int → Int}
    (hf : Grows f) (hg : ∀ m n, m ≤ n → g m ≤ g n) : Grows fun n => f (g n) := by
  obtain hnone | ⟨g', hg', hf⟩ := hf
  · exact .inl fun n => hnone (g n)
  · exact .inr ⟨fun n => g' (g n), fun m n h => hg' _ _ (hg m n h), fun n => hf (g n)⟩

theorem Grows.some {g : Int → Int} (hg : ∀ m n, m ≤ n → g m ≤ g n) : Grows fun n => some (g n) :=
      .inr ⟨g, hg, fun _ => rfl⟩

theorem cdiv?_grows (b : Nat) : Grows fun n => cdiv? n b := by
  by_cases hb : b = 0
  · exact .inl fun n => if_pos hb
  · refine .inr ⟨fun n => -(-n / b), fun n n' h => ?_, fun n => if_neg hb⟩
    have hb' : (0 : Int) < b := by omega
    exact neg_le_neg (Int.ediv_le_ediv hb' (by omega))

namespace KVCacheSpec

theorem bytesFor_grows (spec : KVCacheSpec) (extra : Int) : Grows fun n => spec.bytesFor n extra := by
  refine Grows.bind (cdiv?_grows spec.blockSize) ?_
  cases hp : spec.pageSizeBytes with
  | none => exact .const none
  | some p => exact .some fun k k' h => mul_le_mul_of_nonneg_right (by omega) (Int.natCast_nonneg p)

theorem localTokens_grows (cfg : VllmConfig) : Grows fun n => localTokens { cfg with maxModelLen := n } := by
  simp only [localTokens]
  split
  · exact cdiv?_grows _
  · exact .some fun _ _ h => h

theorem maxMemoryUsageBytes_grows (cfg : VllmConfig) (spec : KVCacheSpec) :
    Grows fun n => spec.maxMemoryUsageBytes { cfg with maxModelLen := n } := by
  have hmin : ∀ b m n : Int, m ≤ n → min b m ≤ min b n := fun b m n h => by omega
  cases spec with
  | full a w c | mla a w c d => exact (localTokens_grows cfg).bind (bytesFor_grows _ 0)
  | chunkedLocal a c => exact (bytesFor_grows _ 0).comp (hmin (c + cfg.maxNumBatchedTokens))
  | slidingWindow a w =>
    simp only [maxMemoryUsageBytes]
    split
    · exact .const none
    · exact (bytesFor_grows _ 1).comp (hmin _)
  | mamba s => exact bytesFor_grows _ 0
  | encoderOnly a => exact .const (some 0)
  | cross a => exact .const ((cross a).bytesFor cfg.maxNumEncoderInputTokens 0)

end KVCacheSpec

theorem maxMemoryUsageBytes_cons (cfg : VllmConfig) (spec : KVCacheSpec) (specs : List KVCacheSpec) :
    maxMemoryUsageBytes cfg (spec :: specs) = (spec.maxMemoryUsageBytes cfg).bind fun a =>
      (maxMemoryUsageBytes cfg specs).map (a + ·) := by
  rw [maxMemoryUsageBytes, maxMemoryUsageBytes, List.mapM_cons]
  rcases spec.maxMemoryUsageBytes cfg with - | a
  · rfl
  · rcases List.mapM (KVCacheSpec.maxMemoryUsageBytes cfg) specs with - | as
    · rfl
    · exact congrArg some List.sum_cons

theorem maxMemoryUsageBytes_grows (cfg : VllmConfig) (specs : List KVCacheSpec) :
    Grows fun n => maxMemoryUsageBytes { cfg with maxModelLen := n } specs := by
  induction specs with
  | nil => exact .const (some 0)
  | cons spec specs ih =>
    simp only [maxMemoryUsageBytes_cons]
    obtain hnone | ⟨g, hg, hspec⟩ := KVCacheSpec.maxMemoryUsageBytes_grows cfg spec
    · exact .inl fun n => by simp [hnone]
    · obtain hnone | ⟨g', hg', hspecs⟩ := ih
      · exact .inl fun n => by simp [hspec, hnone]
      · exact .inr ⟨fun n => g n + g' n, fun m n h => Int.add_le_add (hg m n h)
          (hg' m n h), fun n => by simp only [hspec, hspecs, bind_some, map_some]⟩

theorem maxMemoryUsageBytes_cases (cfg : VllmConfig) (specs : List KVCacheSpec) :
    (∀ n, maxMemoryUsageBytes { cfg with maxModelLen := n } specs = none) ∨
      ∃ g : Int → Int, (∀ m n, m ≤ n → g m ≤ g n) ∧
        ∀ n, maxMemoryUsageBytes { cfg with maxModelLen := n } specs = some (g n) :=
  maxMemoryUsageBytes_grows cfg specs

end Xmix.Kv.Layout
