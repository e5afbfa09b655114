import Xmix.Dsl.Codegen

/-!
# Running the install loops

The emitted loops of the postload destination over a model of `n` decoder layers. Of the method's
state they read and write one local, `idx`, which outlives the loop that assigns it: a loop that only
tests it sees what an earlier loop left, or raises when there was none. The layers are those of
`llama.py`, with its setters, for every `#model`.
-/

namespace Xmix.Dsl

open List Option
open PyStr

structure Hooked where
  layer : Nat
  hook : SetHook

structure LoopState where
  idx : Option Nat
  hooked : List Hooked

def LoopState.set (s : LoopState) (l : Nat) (h : SetHook) : LoopState := { s with hooked := s.hooked ++ [⟨l, h⟩] }

def stepItem (l : Nat) (s : LoopState) : LoopItem → Option LoopState
  | .always h => some (s.set l h)
  | .setIdx => some { s with idx := some l }
  | .ifIdx ls h => s.idx.map fun k => if k ∈ ls.layers then s.set l h else s

def runBody (body : List LoopItem) (s : LoopState) (l : Nat) : Option LoopState := body.foldlM (stepItem l) s

def stepCode (n : Nat) (s : LoopState) : Code → Option LoopState
  | .loop body => (range n).foldlM (runBody body) s
  | _ => some s

def runPart (n : Nat) (idx : Option Nat) (p : Part) : Option LoopState := p.code.foldlM (stepCode n) ⟨idx, []⟩

def runInstall (n : Nat) : Option Nat → List Part → Option (List (List Hooked))
  | _, [] => some []
  | idx, p :: parts => do
    let s ← runPart n idx p
    let rest ← runInstall n s.idx parts
    return s.hooked :: rest

def MaskBeforeUse (hooked : List Hooked) : Prop :=
  ∀ w ∈ hooked, w.hook.role = .steer →
    (∀ c ∈ hooked, c.hook.role = .cond → c.layer < w.layer) ∧ ∃ c ∈ hooked, c.hook.role = .cond ∧ c.layer < w.layer

def Statement.PerLayerCond (stmt : Statement) : Prop :=
  ∃ cond layers, stmt.cond = some cond ∧ cond.layers? = some layers

/-! ### One loop -/

variable {idx : Option Nat}

section Loop
variable {i n l : Nat} {stmt : Statement} {model : Model}

theorem LayerList.le_max {ls : LayerList} {k : Nat} (h : k ∈ ls.layers) : k ≤ ls.max := by
  obtain ⟨m, hm⟩ : ∃ m, ls.layers.max? = some m := isSome_iff_exists.1 (by simp [ls.ne_nil])
  simpa [LayerList.max, hm] using (max?_eq_some_iff.1 hm).2 k h

theorem LayerList.min_le {ls : LayerList} {k : Nat} (h : k ∈ ls.layers) : ls.min ≤ k := by
  obtain ⟨m, hm⟩ : ∃ m, ls.layers.min? = some m := isSome_iff_exists.1 (by simp [ls.ne_nil])
  simpa [LayerList.min, hm] using (min?_eq_some_iff.1 hm).2 k h

def LayerSpec.has (spec : LayerSpec) (l : Nat) : Bool :=
  match spec with
  | .all => true
  | .only ls => decide (l ∈ ls.layers)

def hooksAt (i : Nat) (stmt : Statement) (l : Nat) : List Hooked :=
  (if stmt.layers.has l then [⟨l, steerHook i stmt⟩] else []) ++
    ((stmt.cond.bind (condHook i)).elim [] fun c => if l ∈ c.1.layers then [⟨l, c.2⟩] else [])

theorem condHook_layers {cond : CondClause} {c : LayerList × SetHook} (h : condHook i cond = some c) :
    cond.layers? = some c.1 ∧ c.2.role = .cond := by
  cases cond <;> simp only [condHook, reduceCtorEq, some.injEq] at h <;> subst h <;> exact ⟨rfl, rfl⟩

theorem condHook_of_layers (i : Nat) {cond : CondClause} {layers : LayerList} (h : cond.layers? = some layers) :
    ∃ hook, condHook i cond = some (layers, hook) := by
  cases cond <;> simp only [CondClause.layers?, reduceCtorEq, some.injEq] at h <;> subst h <;> exact ⟨_, rfl⟩

theorem runBody_loopBody (hidx : stmt.PerLayerCond → stmt.layers ≠ .all) (s : LoopState) (l : Nat) :
    ∃ idx, runBody (loopBody i stmt) s l = some ⟨idx, s.hooked ++ hooksAt i stmt l⟩ := by
  unfold runBody loopBody hooksAt condItems
  rcases hc : stmt.cond.bind (condHook i) with _ | ⟨cl, h⟩
  · rcases hl : stmt.layers with _ | ls
    · exact ⟨s.idx, by simp [steerItems, stepItem, LoopState.set, LayerSpec.has]⟩
    · refine ⟨some l, ?_⟩
      by_cases hm : l ∈ ls.layers <;> simp [steerItems, stepItem, LoopState.set, LayerSpec.has, hm]
  · obtain ⟨cond, hcond, hhook⟩ := bind_eq_some_iff.1 hc
    rcases hl : stmt.layers with _ | ls
    · exact absurd hl (hidx ⟨cond, cl, hcond, (condHook_layers hhook).1⟩)
    · refine ⟨some l, ?_⟩
      by_cases hm : l ∈ ls.layers <;> by_cases hm' : l ∈ cl.layers <;>
        simp [steerItems, stepItem, LoopState.set, LayerSpec.has, hm, hm']

theorem foldlM_runBody {body : List LoopItem} {hooks : Nat → List Hooked}
    (hbody : ∀ s l, ∃ idx, runBody body s l = some ⟨idx, s.hooked ++ hooks l⟩) (n : Nat) (s : LoopState) :
    ∃ idx, (range n).foldlM (runBody body) s = some ⟨idx, s.hooked ++ (range n).flatMap hooks⟩ := by
  induction n with
  | zero => exact ⟨s.idx, by simp⟩
  | succ n ih =>
    obtain ⟨idx, ih⟩ := ih
    obtain ⟨idx', hlast⟩ := hbody ⟨idx, s.hooked ++ (range n).flatMap hooks⟩ n
    refine ⟨idx', ?_⟩
    rw [range_succ, foldlM_append, ih]
    simp [hlast, append_assoc]

variable {e : Hooked}

theorem hooked_stepItem {s s' : LoopState} {item : LoopItem} (h : stepItem l s item = some s')
    (he : e ∈ s'.hooked) : e ∈ s.hooked ∨ item = .always e.hook ∨ ∃ ls, item = .ifIdx ls e.hook := by
  cases item with
  | always hook =>
    cases h
    rcases mem_append.1 he with he | he
    · exact .inl he
    · rw [mem_singleton.1 he]; exact .inr (.inl rfl)
  | setIdx =>
    cases h
    exact .inl he
  | ifIdx ls hook =>
    obtain ⟨k, -, rfl⟩ := map_eq_some_iff.1 h
    split at he
    · rcases mem_append.1 he with he | he
      · exact .inl he
      · rw [mem_singleton.1 he]; exact .inr (.inr ⟨ls, rfl⟩)
    · exact .inl he

theorem hooked_loop {body : List LoopItem} {s s' : LoopState} (h : (range n).foldlM (runBody body) s = some s')
    (he : e ∈ s'.hooked) : e ∈ s.hooked ∨ .always e.hook ∈ body ∨ ∃ ls, .ifIdx ls e.hook ∈ body := by
  have hbody : ∀ {items : List LoopItem} {l : Nat} {s s' : LoopState}, items ⊆ body →
    items.foldlM (stepItem l) s = some s' →
      e ∈ s'.hooked → e ∈ s.hooked ∨ .always e.hook ∈ body ∨ ∃ ls, .ifIdx ls e.hook ∈ body := by
    intro items l
    induction items with
    | nil =>
      intro s s' _ h he
      cases h
      exact .inl he
    | cons item items ih =>
      intro s s' hsub h he
      obtain ⟨t, ht, h⟩ := bind_eq_some_iff.1 h
      rcases ih (fun x hx => hsub (mem_cons_of_mem _ hx)) h he with he | he
      · rcases hooked_stepItem ht he with he | rfl | ⟨ls, rfl⟩
        · exact .inl he
        · exact .inr (.inl (hsub mem_cons_self))
        · exact .inr (.inr ⟨ls, hsub mem_cons_self⟩)
      · exact .inr he
  generalize range n = ls at h
  induction ls generalizing s with
  | nil =>
    cases h
    exact .inl he
  | cons l ls ih =>
    obtain ⟨t, ht, h⟩ := bind_eq_some_iff.1 h
    rcases ih h with he | he
    · exact hbody (Subset.refl _) ht he
    · exact .inr he

theorem runPart_installPart (idx : Option Nat) :
    runPart n idx (installPart model i stmt) = (range n).foldlM (runBody (loopBody i stmt)) ⟨idx, []⟩ := by
  have hskip : ∀ code : List Code, (∀ c ∈ code, ∀ s, stepCode n s c = some s) →
    ∀ s, code.foldlM (stepCode n) s = some s := by
    intro code hcode s
    induction code with
    | nil => rfl
    | cons c code ih =>
      rw [foldlM_cons, hcode c (by simp) s]
      exact ih fun c hc => hcode c (by simp [hc])
  have hhead : ∀ c ∈ installHead stmt, ∀ s, stepCode n s c = some s := by
    intro c hc s
    rcases mem_installHead hc with rfl | ⟨_, rfl⟩ <;> rfl
  have htail : ∀ c ∈ condTailCode i stmt, ∀ s, stepCode n s c = some s := by
    intro c hc s
    rcases mem_condTailCode hc with rfl | ⟨_, rfl⟩ | ⟨_, _, _, _, _, _, rfl⟩ <;> rfl
  rw [runPart, installPart, foldlM_append, hskip _ hhead]
  simp only [bind_eq_bind, bind_some, foldlM_append, foldlM_cons, foldlM_nil, stepCode]
  rcases (range n).foldlM (runBody (loopBody i stmt)) ⟨idx, []⟩ with _ | s
  · rfl
  · exact hskip _ htail s

theorem hooked_installPart {s : LoopState} (h : runPart n idx (installPart model i stmt) = some s)
    (he : e ∈ s.hooked) :
    e.hook = steerHook i stmt ∨ ∃ cond layers, stmt.cond = some cond ∧ condHook i cond = some (layers, e.hook) := by
  rw [runPart_installPart] at h
  have hcond : ∀ ls, .ifIdx ls e.hook ∈ condItems i stmt →
      ∃ cond layers, stmt.cond = some cond ∧ condHook i cond = some (layers, e.hook) := by
    intro ls hmem
    obtain ⟨⟨layers, hook⟩, hc, heq⟩ := map_eq_some_iff.1 (mem_toList.1 hmem)
    obtain ⟨cond, hcond, hhook⟩ := bind_eq_some_iff.1 hc
    obtain ⟨-, rfl⟩ := LoopItem.ifIdx.inj heq
    exact ⟨cond, layers, hcond, hhook⟩
  have halways : .always e.hook ∉ condItems i stmt := by
    intro hmem
    obtain ⟨_, -, heq⟩ := map_eq_some_iff.1 (mem_toList.1 hmem)
    cases heq
  rcases hooked_loop h he with he | he | ⟨ls, he⟩
  · simp at he
  · rcases mem_append.1 he with he | he
    · left
      cases hl : stmt.layers <;> simp [steerItems, hl] at he
      exact he
    · exact absurd he halways
  · rcases mem_append.1 he with he | he
    · left
      cases hl : stmt.layers <;> simp [steerItems, hl] at he
      exact he.2
    · exact .inr (hcond ls he)

theorem maskBeforeUse_hooksAt (hord : Ordered stmt) (hcond : stmt.PerLayerCond) (hidx : stmt.layers ≠ .all) (n : Nat) :
    MaskBeforeUse ((range n).flatMap (hooksAt i stmt)) := by
  obtain ⟨cond, cl, hc, hcl⟩ := hcond
  obtain ⟨h, hh⟩ := condHook_of_layers i hcl
  obtain ⟨ls, hls⟩ : ∃ ls, stmt.layers = .only ls := by
    cases hl : stmt.layers with
    | all => exact absurd hl hidx
    | only ls => exact ⟨ls, rfl⟩
  have hlt : cl.max < ls.min := hord cond hc cl hcl ls hls
  have hat : ∀ {e l}, e ∈ hooksAt i stmt l ↔ l ∈ ls.layers ∧ e = ⟨l, steerHook i stmt⟩ ∨ l ∈ cl.layers ∧
    e = ⟨l, h⟩ := by
    intro e l
    by_cases hm : l ∈ ls.layers <;> by_cases hm' : l ∈ cl.layers <;> simp [hooksAt, hls, hc, hh, LayerSpec.has, hm, hm']
  have hrole : h.role = .cond := (condHook_layers hh).2
  intro w hw hsteer
  simp only [mem_flatMap, mem_range, hat] at hw
  obtain ⟨l, hln, ⟨hl, rfl⟩ | ⟨hl, rfl⟩⟩ := hw
  · have hmin := LayerList.min_le hl
    constructor
    · intro c hc hcr
      simp only [mem_flatMap, mem_range, hat] at hc
      obtain ⟨k, -, ⟨-, rfl⟩ | ⟨hk, rfl⟩⟩ := hc
      · exact Role.noConfusion hcr
      · have := LayerList.le_max hk
        show k < l
        omega
    · obtain ⟨k, hk⟩ := exists_mem_of_ne_nil _ cl.ne_nil
      have := LayerList.le_max hk
      refine ⟨⟨k, h⟩, ?_, hrole, show k < l by omega⟩
      simp only [mem_flatMap, mem_range, hat]
      exact ⟨k, by omega, .inr ⟨hk, rfl⟩⟩
  · exact absurd (hrole.symm.trans hsteer) (by decide)

end Loop

/-! ### All loops of a file -/

theorem runInstall_getElem {n : Nat} {parts : List Part} {traces : List (List Hooked)}
    (h : runInstall n idx parts = some traces) {i : Nat} {p : Part} (hp : parts[i]? = some p) :
    ∃ idx' s, runPart n idx' p = some s ∧ traces[i]? = some s.hooked := by
  induction parts generalizing idx traces i with
  | nil => simp at hp
  | cons q parts ih =>
    obtain ⟨s, hs, h⟩ := bind_eq_some_iff.1 h
    obtain ⟨rest, hrest, h⟩ := bind_eq_some_iff.1 h
    obtain rfl : s.hooked :: rest = traces := some.inj h
    cases i with
    | zero =>
      obtain rfl : q = p := by simpa using hp
      exact ⟨idx, s, hs, rfl⟩
    | succ i => exact ih hrest (by simpa using hp)

theorem runInstall_total {n : Nat} {parts : List Part} (h : ∀ p ∈ parts, ∀ idx, ∃ s, runPart n idx p = some s)
    (idx : Option Nat) : ∃ traces, runInstall n idx parts = some traces := by
  induction parts generalizing idx with
  | nil => exact ⟨[], rfl⟩
  | cons p parts ih =>
    obtain ⟨s, hs⟩ := h p (by simp) idx
    obtain ⟨rest, hrest⟩ := ih (fun p hp => h p (by simp [hp])) s.idx
    exact ⟨s.hooked :: rest, by simp [runInstall, hs, hrest]⟩

theorem getElem_install {r : ParseResult} {em : Emission}
    (hem : emitAll r.statements r.preamble r.model = .ok em) {i : Nat} {stmt : Statement}
    (h : r.statements[i]? = some stmt) : em.install[i]? = some (installPart r.model i stmt) := by
  rw [(emitAll_eq_ok.1 hem).2]
  simp [fileEmission, h]

/-- The install code runs, and each mask is computed before it is used. -/
def InstallMasks (n : Nat) (idx : Option Nat) (r : ParseResult) (em : Emission) : Prop :=
  ∃ traces, runInstall n idx em.install = some traces ∧
    ∀ (i : Nat) (stmt : Statement), r.statements[i]? = some stmt → stmt.PerLayerCond →
      ∃ hooked, traces[i]? = some hooked ∧ MaskBeforeUse hooked

theorem installMasks_of_not_all {r : ParseResult} {em : Emission}
    (hem : emitAll r.statements r.preamble r.model = .ok em)
    (h : ∀ stmt ∈ r.statements, stmt.PerLayerCond → stmt.layers ≠ .all) (n : Nat) (idx : Option Nat) :
    InstallMasks n idx r em := by
  have hrun : ∀ i stmt, stmt ∈ r.statements → ∀ idx, ∃ idx', runPart n idx (installPart r.model i stmt) =
      some ⟨idx', (range n).flatMap (hooksAt i stmt)⟩ := by
    intro i stmt hmem idx
    rw [runPart_installPart]
    simpa using foldlM_runBody (runBody_loopBody (h stmt hmem)) n ⟨idx, []⟩
  obtain ⟨traces, htraces⟩ : ∃ traces, runInstall n idx em.install = some traces := by
    refine runInstall_total (fun p hp idx => ?_) idx
    obtain ⟨i, hi, rfl⟩ := getElem_of_mem hp
    have hlen : em.install.length = r.statements.length := by rw [(emitAll_eq_ok.1 hem).2]; simp [fileEmission]
    have hget := getElem_install hem (getElem?_eq_getElem (hlen ▸ hi))
    rw [getElem?_eq_getElem hi, some.injEq] at hget
    obtain ⟨idx', hr⟩ := hrun i _ (getElem_mem (hlen ▸ hi)) idx
    exact ⟨_, hget ▸ hr⟩
  refine ⟨traces, htraces, fun i stmt hi hcond => ?_⟩
  have hmem := mem_of_getElem? hi
  obtain ⟨idx', s, hs, htrace⟩ := runInstall_getElem htraces (getElem_install hem hi)
  obtain ⟨idx'', hr⟩ := hrun i stmt hmem idx'
  cases hr.symm.trans hs
  exact ⟨_, htrace, maskBeforeUse_hooksAt ((emitAll_eq_ok.1 hem).1 stmt hmem) hcond (h stmt hmem hcond) n⟩

theorem not_maskBeforeUse_all {i : Nat} {stmt : Statement} {model : Model} (hall : stmt.layers = .all)
    (hcond : stmt.PerLayerCond) {s : LoopState} (h : runPart 1 idx (installPart model i stmt) = some s) :
    ¬ MaskBeforeUse s.hooked := by
  obtain ⟨cond, cl, hc, hcl⟩ := hcond
  obtain ⟨hook, hh⟩ := condHook_of_layers i hcl
  have hsteer : ⟨0, steerHook i stmt⟩ ∈ s.hooked := by
    rw [runPart_installPart] at h
    simp only [range_one, foldlM_cons, foldlM_nil, runBody, loopBody, hall, steerItems,
      condItems, hc, hh,
      bind_some, map_some, toList_some, cons_append, nil_append, stepItem, LoopState.set,
      Option.bind_eq_bind, Option.pure_def, Option.bind_eq_some_iff, Option.map_eq_some_iff, Option.some.injEq] at h
    obtain ⟨_, ⟨_, ⟨k, -, rfl⟩, rfl⟩, rfl⟩ := h
    split <;> simp
  intro hmask
  obtain ⟨c, -, -, hlt⟩ := (hmask _ hsteer rfl).2
  exact absurd hlt (Nat.not_lt_zero _)

/-- For every accepted file: on every model, and whatever `idx` the method holds when the install code
starts, every steered layer comes after the layers of its condition, exactly when no statement with a
per-layer condition steers all layers. -/
theorem compile_maskBeforeUse_iff (f : XmixFile) (text : Str) (h : compileXmix f = .ok text) :
    ∃ r em, parseAndValidate f = .ok r ∧ emitAll r.statements r.preamble r.model = .ok em ∧
      text = unlines (outputLines r.statements f.path r.preamble r.model em) ∧
      ((∀ n idx, InstallMasks n idx r em) ↔ ∀ stmt ∈ r.statements, stmt.PerLayerCond → stmt.layers ≠ .all) := by
  obtain ⟨r, em, hr, hem, htext⟩ := compileXmix_eq_ok h
  refine ⟨r, em, hr, hem, htext, fun hmasks stmt hmem hcond hall => ?_,
    fun h n idx => installMasks_of_not_all hem h n idx⟩
  obtain ⟨i, hi, rfl⟩ := getElem_of_mem hmem
  have hget := getElem?_eq_getElem hi
  obtain ⟨traces, htraces, hmask⟩ := hmasks 1 (some 0)
  obtain ⟨hooked, hhooked, hm⟩ := hmask i _ hget hcond
  obtain ⟨idx, s, hs, htrace⟩ := runInstall_getElem htraces (getElem_install hem hget)
  cases htrace.symm.trans hhooked
  exact not_maskBeforeUse_all hall hcond hs hm

open Written in
def gatedFile : XmixFile where
  path := "gated.xmix".toList
  src := []
  tree := .ok
    [adder vName, scorer cName,
      stmt (cond (submodule (layers (write (run (selfAttr vName))) [3]) "mlp.post")
        (submodule (layer (gates (selfAttr cName) "input_map") (ints [1])) "mlp.post"))]

theorem gatedFile_maskBeforeUse :
    ∃ text r em, compileXmix gatedFile = .ok text ∧ parseAndValidate gatedFile = .ok r ∧
      emitAll r.statements r.preamble r.model = .ok em ∧ ∀ n idx, InstallMasks n idx r em := by
  have hacc : ∃ text, compileXmix gatedFile = .ok text := ⟨_, rfl⟩
  obtain ⟨text, hacc⟩ := hacc
  obtain ⟨r, em, hr, hem, -, hiff⟩ := compile_maskBeforeUse_iff gatedFile text hacc
  refine ⟨text, r, em, hacc, hr, hem, hiff.2 fun stmt hmem _ hall => ?_⟩
  have hparsed : (parseAndValidate gatedFile).map (fun r => r.statements.all fun s => s.layers ≠ .all) = .ok true := rfl
  rw [hr] at hparsed
  exact absurd hall (by simpa using all_eq_true.1 (Except.ok.inj hparsed) stmt hmem)

open Written in
def staleFile : XmixFile where
  path := "stale.xmix".toList
  src := []
  tree := .ok
    [adder vName, scorer cName,
      stmt (submodule (layers (write (run (selfAttr vName))) [3]) "mlp.post"),
      stmt (cond (submodule (layer (write (run (selfAttr vName))) (str "all")) "attention.post")
        (submodule (layer (gates (selfAttr cName) "input_map") (ints [1])) "mlp.post"))]

/-- On a model of two layers the second loop of `staleFile` tests the `idx` the first one left: it
steers layer 0 and reads the condition there. -/
theorem staleFile_not_maskBeforeUse :
    ∃ text r em traces hooked stmt, compileXmix staleFile = .ok text ∧ parseAndValidate staleFile = .ok r ∧
      emitAll r.statements r.preamble r.model = .ok em ∧ runInstall 2 none em.install = some traces ∧
      r.statements[1]? = some stmt ∧ stmt.PerLayerCond ∧ traces[1]? = some hooked ∧
      hooked.map (fun e => (e.layer, e.hook.role)) = [(0, .steer), (0, .cond), (1, .steer), (1, .cond)] ∧
      ¬ MaskBeforeUse hooked := by
  refine ⟨_, _, _, _, _, _, rfl, rfl, rfl, rfl, rfl, ⟨_, _, rfl, rfl⟩, rfl, rfl, ?_⟩
  intro hmask
  obtain ⟨c, -, -, hlt⟩ := (hmask _ mem_cons_self rfl).2
  exact absurd hlt (Nat.not_lt_zero _)

end Xmix.Dsl
