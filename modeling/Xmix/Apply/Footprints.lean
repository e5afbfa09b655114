import Xmix.Apply.Refresh
import Xmix.Apply.RoundTrip
import Xmix.Dsl.Install

/-!
# Footprints

A slot of a statement is written into the synth file, read by `cmd_apply`, persisted in the postload
block and scanned again by a later apply. Whatever form the layer set has on the way, it holds the
same layers, so two slots that meet on a layer are always seen to conflict.
-/

namespace Xmix.Apply

open List
open PyStr LinePattern Dsl

/-! ### Layers and conflicts -/

def Layers.Has (layers : Layers) (l : Int) : Prop :=
  match layers with
  | .all => True
  | .set ls => l ∈ ls

theorem overlap_of_has {a b : Layers} {l : Int} (ha : a.Has l) (hb : b.Has l) : overlap a b = true := by
  cases a with
  | all => rfl
  | set as =>
    cases b with
    | all => rfl
    | set bs => exact any_eq_true.2 ⟨l, ha, by simpa [Layers.Has] using hb⟩

theorem mem_map_ofNat {ns : List Nat} {l : Nat} : (l : Int) ∈ ns.map Int.ofNat ↔ l ∈ ns :=
  mem_map_of_injective fun _ _ => Int.ofNat.inj

theorem slotLayers_has {spec : LayerSpec} {l : Nat} (h : spec.has l = true) : (slotLayers spec).Has l := by
  cases spec with
  | all => trivial
  | only ls =>
    simp only [LayerSpec.has, decide_eq_true_eq] at h
    simpa only [slotLayers, Layers.Has, mem_dedup, mem_map_ofNat, mem_insertionSort] using h

theorem parseLayers_layersStr {layers : Layers} (hne : layers ≠ .set []) :
    Word (layersStr layers) ∧ ∃ layers', parseLayers (layersStr layers) = .ok layers' ∧
      ∀ l, layers'.Has l ↔ layers.Has l := by
  cases layers with
  | all => exact ⟨by decide, .all, rfl, fun _ => Iff.rfl⟩
  | set ls =>
    have hsorted : ls.insertionSort (· ≤ ·) ≠ [] := by
      intro h
      have hlen := length_insertionSort (· ≤ ·) ls
      rw [h] at hlen
      exact hne (by rw [length_eq_zero_iff.1 hlen.symm])
    refine ⟨word_intJoin hsorted, _, parseLayers_intJoin hsorted, fun l => ?_⟩
    simp [Layers.Has]

theorem slotLayers_ne (spec : LayerSpec) : slotLayers spec ≠ .set [] := by
  cases spec with
  | all => exact fun h => by cases h
  | only ls =>
    obtain ⟨l, hl⟩ := exists_mem_of_ne_nil _ ls.ne_nil
    have hhas : (slotLayers (.only ls)).Has l := slotLayers_has (by simpa [LayerSpec.has] using hl)
    intro h
    rw [h] at hhas
    cases hhas

/-- The two slots have a layer in common. -/
def Meets (s s' : Flag × Submodule × LayerSpec) : Prop :=
  s.1 = s'.1 ∧ s.2.1 = s'.2.1 ∧ ∃ l, s.2.2.has l = true ∧ s'.2.2.has l = true

/-- The footprint claims the slot. -/
structure Covers (fp : Footprint) (s : Flag × Submodule × LayerSpec) : Prop where
  flag : fp.flag = s.1.name
  submodule : fp.submodule = s.2.1.name
  layers : ∀ l : Nat, s.2.2.has l = true → fp.layers.Has l

theorem covers_slotFootprint (s : Flag × Submodule × LayerSpec) : Covers (slotFootprint s) s :=
  ⟨rfl, rfl, fun _ => slotLayers_has⟩

theorem conflicts_of_meets {a b : Str × Footprint} {s s' : Flag × Submodule × LayerSpec}
    (ha : Covers a.2 s) (hb : Covers b.2 s') (h : Meets s s') : conflicts a b = true := by
  obtain ⟨hflag, hsub, l, hl, hl'⟩ := h
  have hov := overlap_of_has (ha.layers l hl) (hb.layers l hl')
  simp [conflicts, ha.flag, hb.flag, ha.submodule, hb.submodule, hflag, hsub, hov]

theorem findConflict_eq_none {existing batch : List (Str × Footprint)} : findConflict existing batch = none ↔
    batch.Pairwise (fun a b => conflicts a b = false) ∧ ∀ a ∈ batch, ∀ b ∈ existing, conflicts a b = false := by
  induction batch with
  | nil => simp [findConflict]
  | cons a batch ih =>
    have hall : (batch ++ existing).find? (conflicts a) = none ↔
        (∀ b ∈ batch, conflicts a b = false) ∧ ∀ b ∈ existing, conflicts a b = false := by
      simp [find?_eq_none]
    rw [findConflict, pairwise_cons, forall_mem_cons]
    split
    · next b hb =>
      have hno : ¬ ((∀ b ∈ batch, conflicts a b = false) ∧ ∀ b ∈ existing, conflicts a b = false) := by
        rw [← hall, hb]
        simp
      tauto
    · next hnone =>
      obtain ⟨hbatch, hexist⟩ := hall.1 hnone
      rw [ih]
      tauto

/-! ### Persisted footprints -/

theorem strip_appliedLine_self {app : Str} {fp : Footprint} (hlayers : Word (layersStr fp.layers)) :
    strip (appliedLine app fp) = appliedLine app fp := by
  have hopen : (appliedOpen.head?.any isSpace) = false := by decide
  have h :=
    strip_sentinel (i := []) (by simp) hopen (by decide) hlayers (app ++ ' ' :: (fp.flag ++ ' ' :: fp.submodule))
  simpa [appliedLine] using h

theorem appliedLine_eq (app : Str) (fp : Footprint) :
    appliedLine app fp = '#' :: ' ' :: 'x' :: ("mix:footprint ".toList ++
    (fieldsText [(app, []), (fp.flag, []), (fp.submodule, [])] ++ layersStr fp.layers)) := by
  have hopen : appliedOpen = '#' :: ' ' :: 'x' :: "mix:footprint ".toList := by decide +kernel
  rw [appliedLine, hopen]
  generalize "mix:footprint ".toList = t
  simp [fieldsText]

theorem appliedTag_appliedLine {app : Str} {fp : Footprint} (happ : Word app)
    (hflag : Word fp.flag) (hsub : Word fp.submodule) (hlayers : Word (layersStr fp.layers)) :
    appliedTag (appliedLine app fp) = some [app, fp.flag, fp.submodule, layersStr fp.layers] := by
  have hwords : ∀ f ∈ [(app, ([] : Str)), (fp.flag, []), (fp.submodule, [])], Word f.1 := by simp [happ, hflag, hsub]
  have hscan := scan_tag (c := 'x') (by decide) hwords "mix:footprint ".toList [.word] (layersStr fp.layers)
  have hlast : scan [.word] (layersStr fp.layers) = some ([layersStr fp.layers], []) := by
    have := scan_word hlayers (s := []) (by simp) []
    simpa using this
  rw [hlast, ← appliedLine_eq] at hscan
  have hread : scan [.lit ['#'], .spaces, .lit "xmix:footprint ".toList, .word, .lit [' '], .word,
    .lit [' '], .word, .lit [' '],
      .word] (appliedLine app fp) = some ([app, fp.flag, fp.submodule, layersStr fp.layers], []) := hscan
  rw [appliedTag, strip_appliedLine_self hlayers, words, hread]
  rfl

theorem exists_applied {app : Str} (happ : AppId app) (s : Flag × Submodule × LayerSpec) {lines : List Str}
    {found : List (Str × Footprint)} (hscan : scanFile lines = .ok found) {i : Str} (hi : ∀ c ∈ i, isSpace c = true)
    (hmem : reindent i (appliedLine app (slotFootprint s)) ∈ lines) : ∃ fp, (app, fp) ∈ found ∧ Covers fp s := by
  obtain ⟨hword, layers, hparse, hlayers⟩ := parseLayers_layersStr (slotLayers_ne s.2.2)
  have htag := @appliedTag_appliedLine _ (slotFootprint s) happ (flag_word s.1) (submodule_word s.2.1) hword
  have hline : appliedTag (reindent i (appliedLine app (slotFootprint s))) =
      some [app, s.1.name, s.2.1.name, layersStr (slotLayers s.2.2)] := by
    rw [appliedTag, strip_reindent hi]
    exact htag
  have hws := mem_filterMap.2 ⟨_, hmem, hline⟩
  obtain ⟨e, he, hparsed⟩ := Except.exists_mem_of_mapM hscan hws
  have hval : parseApplied [app, s.1.name, s.2.1.name, layersStr (slotLayers s.2.2)] =
    .ok (app, ⟨s.1.name, s.2.1.name, layers⟩) := by
    simp [parseApplied, parseFootprint, hparse]
  cases hval.symm.trans hparsed
  exact ⟨_, he, rfl, rfl, fun l hl => (hlayers l).2 (slotLayers_has hl)⟩

end Xmix.Apply
