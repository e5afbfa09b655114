import Xmix.Dsl.Install

/-!
# Verbs and hook points

`m.read` and `m.write` against the hooks a compiled file sets. A decoder layer keeps one hook per hook
point and flag: a read hook gets the hidden states and its result is dropped, a write hook gets two
more arguments and its result replaces them. The parser records the verb; flag, arity and footprint
are taken from the class of the op. The decoder layer is the one of `llama.py` for every `#model`.
-/

namespace Xmix.Dsl

open List
open PyStr

def OpKind.flag : OpKind → Flag
  | .write => .w
  | .read => .r

/-! ### The decoder layer -/

structure DecoderLayer where
  slot : Submodule → Flag → Option SetHook

namespace DecoderLayer

def init : DecoderLayer := ⟨fun _ _ => none⟩

def setHook (d : DecoderLayer) (h : SetHook) : DecoderLayer :=
  ⟨fun sub flag => if h.submodule = sub ∧ h.flag = flag then some h else d.slot sub flag⟩

def hookPoint {σ : Type} (result : SetHook → σ → σ) (d : DecoderLayer) (sub : Submodule) (hidden : σ) :
    σ × List (SetHook × Nat) :=
  let read := (d.slot sub .r).toList.map (·, 1)
  match d.slot sub .w with
  | none => (hidden, read)
  | some h => (result h hidden, read ++ [(h, 3)])

def forward {σ : Type} (attn norm mlp : σ → σ) (result : SetHook → σ → σ) (d : DecoderLayer) (hidden : σ) :
    σ × List (SetHook × Nat) :=
  let (h₁, c₁) := d.hookPoint result .attentionPost (attn hidden)
  let (h₂, c₂) := d.hookPoint result .normPreMlp (norm h₁)
  let (h₃, c₃) := d.hookPoint result .mlpPost (mlp h₂)
  (h₃, c₁ ++ c₂ ++ c₃)

def ReadOnly (d : DecoderLayer) : Prop := ∀ sub, d.slot sub .w = none

variable {σ : Type} {result : SetHook → σ → σ} {d : DecoderLayer} {sub : Submodule} {x : σ}

theorem ReadOnly.hookPoint (hd : d.ReadOnly) : (d.hookPoint result sub x).1 = x := by
  simp [DecoderLayer.hookPoint, hd sub]

theorem ReadOnly.forward {attn norm mlp : σ → σ} (hd : d.ReadOnly) :
    (d.forward attn norm mlp result x).1 = mlp (norm (attn x)) := by
  simp [DecoderLayer.forward, hd.hookPoint]

end DecoderLayer

def installed (traces : List (List Hooked)) (l : Nat) : DecoderLayer :=
  traces.flatten.foldl (fun d e => if e.layer = l then d.setHook e.hook else d) .init

theorem installed_readOnly_iff {traces : List (List Hooked)} {l : Nat} :
    (installed traces l).ReadOnly ↔ ∀ hooked ∈ traces, ∀ e ∈ hooked, e.layer = l → e.hook.flag = .r := by
  have hrun : ∀ (es : List Hooked) (d : DecoderLayer),
      (es.foldl (fun d e => if e.layer = l then d.setHook e.hook else d) d).ReadOnly ↔
        d.ReadOnly ∧ ∀ e ∈ es, e.layer = l → e.hook.flag = .r := by
    intro es
    induction es with
    | nil => simp
    | cons e es ih =>
      intro d
      rw [foldl_cons, ih, forall_mem_cons]
      by_cases he : e.layer = l
      · have hset : (d.setHook e.hook).ReadOnly ↔ d.ReadOnly ∧ e.hook.flag = .r := by
          constructor
          · intro h
            have hflag : e.hook.flag = .r := by
              have := h e.hook.submodule
              cases hf : e.hook.flag <;> simp_all [DecoderLayer.setHook]
            refine ⟨fun sub => ?_, hflag⟩
            simpa [DecoderLayer.setHook, hflag] using h sub
          · rintro ⟨h, hflag⟩ sub
            simpa [DecoderLayer.setHook, hflag] using h sub
        simp only [he, if_true, hset, forall_const, and_assoc]
      · simp [he]
  unfold installed
  rw [hrun]
  have hinit : DecoderLayer.init.ReadOnly := fun _ => rfl
  simp only [hinit, true_and, mem_flatten, forall_exists_index, and_imp]
  exact ⟨fun h hooked hm e he => h e hooked hm he, fun h e hooked hm he => h hooked hm e he⟩

/-- A layer is transparent, whatever the hooks compute, exactly if they all read. -/
theorem transparent_iff {traces : List (List Hooked)} {l : Nat} :
    (∀ (σ : Type) (attn norm mlp : σ → σ) (result : SetHook → σ → σ) (x : σ),
      ((installed traces l).forward attn norm mlp result x).1 = mlp (norm (attn x))) ↔
    ∀ hooked ∈ traces, ∀ e ∈ hooked, e.layer = l → e.hook.flag = .r := by
  rw [← installed_readOnly_iff]
  refine ⟨fun h sub => ?_, fun h σ attn norm mlp result x => h.forward⟩
  -- a write hook that counts
  have hcount := h Nat id id id (fun _ n => n + 1) 0
  simp only [DecoderLayer.forward, DecoderLayer.hookPoint, id_eq] at hcount
  cases sub <;> cases ha : (installed traces l).slot .attentionPost .w <;> cases hn :
    (installed traces l).slot .normPreMlp .w <;>
    cases hm : (installed traces l).slot .mlpPost .w <;> simp [ha, hn, hm] at hcount ⊢

/-! ### The hooks of a part -/

def LoopItem.hook? : LoopItem → Option SetHook
  | .always h => some h
  | .setIdx => none
  | .ifIdx _ h => some h

def Code.hooks : Code → List SetHook
  | .loop body => body.filterMap LoopItem.hook?
  | _ => []

def Part.hooks (p : Part) : List SetHook := p.code.flatMap Code.hooks

section Part
variable {model : Model} {i : Nat} {stmt : Statement}

variable {l : Nat} {s s' : LoopState}

theorem hooks_installPart : (installPart model i stmt).hooks =
    steerHook i stmt :: ((stmt.cond.bind (condHook i)).map Prod.snd).toList := by
  have hskip : ∀ code : List Code, (∀ c ∈ code, c.hooks = []) → code.flatMap Code.hooks = [] :=
    fun code h => flatMap_eq_nil_iff.2 h
  have hhead : (installHead stmt).flatMap Code.hooks = [] := by
    refine hskip _ fun c hc => ?_
    rcases mem_installHead hc with rfl | ⟨_, rfl⟩ <;> rfl
  have htail : (condTailCode i stmt).flatMap Code.hooks = [] := by
    refine hskip _ fun c hc => ?_
    rcases mem_condTailCode hc with rfl | ⟨_, rfl⟩ | ⟨_, _, _, _, _, _, rfl⟩ <;> rfl
  have hsteer : (steerItems stmt.layers (steerHook i stmt)).filterMap LoopItem.hook? = [steerHook i stmt] := by
    cases stmt.layers <;> rfl
  have hcond : (condItems i stmt).filterMap LoopItem.hook? = ((stmt.cond.bind (condHook i)).map Prod.snd).toList := by
    unfold condItems
    rcases stmt.cond.bind (condHook i) with _ | ⟨ls, h⟩ <;> rfl
  simp [Part.hooks, installPart, hhead, htail, Code.hooks, loopBody, hsteer, hcond]

theorem condHook_flag {cond : CondClause} {c : LayerList × SetHook} (h : condHook i cond = some c) : c.2.flag = .r := by
  cases cond with
  | probe op => cases op; cases h; rfl
  | gates inst cls => cases cls; cases h; rfl
  | model => cases h

theorem hasLayer (spec : LayerSpec) : ∃ l, spec.has l = true := by
  cases spec with
  | all => exact ⟨0, rfl⟩
  | only ls =>
    obtain ⟨l, hl⟩ := exists_mem_of_ne_nil _ ls.ne_nil
    exact ⟨l, decide_eq_true hl⟩

theorem stepItem_bound (hs : s.idx.isSome) (item : LoopItem) :
    ∃ s', stepItem l s item = some s' ∧ s'.idx.isSome := by
  obtain ⟨k, hk⟩ := Option.isSome_iff_exists.1 hs
  cases item with
  | always h => exact ⟨_, rfl, hs⟩
  | setIdx => exact ⟨_, rfl, rfl⟩
  | ifIdx ls h =>
    refine ⟨if k ∈ ls.layers then s.set l h else s, by rw [stepItem, hk]; rfl, ?_⟩
    split <;> exact hs

theorem runPart_bound (n k : Nat) :
    ∃ s, runPart n (some k) (installPart model i stmt) = some s ∧ s.idx.isSome := by
  have hbody : ∀ (items : List LoopItem) (l : Nat) (s : LoopState), s.idx.isSome →
      ∃ s', items.foldlM (stepItem l) s = some s' ∧ s'.idx.isSome := by
    intro items l
    induction items with
    | nil => exact fun s hs => ⟨s, rfl, hs⟩
    | cons item items ih =>
      intro s hs
      obtain ⟨t, ht, htb⟩ := stepItem_bound hs item
      obtain ⟨s', hs', hb⟩ := ih t htb
      exact ⟨s', by rw [foldlM_cons, ht]; exact hs', hb⟩
  rw [runPart_installPart]
  induction n with
  | zero => exact ⟨_, rfl, rfl⟩
  | succ n ih =>
    obtain ⟨s, hs, hb⟩ := ih
    obtain ⟨s', hs', hb'⟩ := hbody (loopBody i stmt) n s hb
    refine ⟨s', ?_, hb'⟩
    rw [range_succ, foldlM_append, hs]
    simpa [runBody] using hs'

theorem stepItem_subset {item : LoopItem} (h : stepItem l s item = some s') :
    s.hooked ⊆ s'.hooked := by
  cases item with
  | always hook => cases h; exact subset_append_left _ _
  | setIdx => cases h; exact Subset.refl _
  | ifIdx ls hook =>
    obtain ⟨k, -, rfl⟩ := Option.map_eq_some_iff.1 h
    split
    · exact subset_append_left _ _
    · exact Subset.refl _

theorem foldlM_stepItem_subset {items : List LoopItem}
    (h : items.foldlM (stepItem l) s = some s') : s.hooked ⊆ s'.hooked := by
  induction items generalizing s with
  | nil => cases h; exact Subset.refl _
  | cons item items ih =>
    obtain ⟨t, ht, h⟩ := Option.bind_eq_some_iff.1 h
    exact Subset.trans (stepItem_subset ht) (ih h)

theorem steered_of_runBody (h : runBody (loopBody i stmt) s l = some s') :
    s.hooked ⊆ s'.hooked ∧ (stmt.layers.has l = true → ⟨l, steerHook i stmt⟩ ∈ s'.hooked) := by
  refine ⟨foldlM_stepItem_subset h, fun hl => ?_⟩
  rw [runBody, loopBody, foldlM_append] at h
  obtain ⟨t, ht, h⟩ := Option.bind_eq_some_iff.1 h
  refine foldlM_stepItem_subset h ?_
  cases hs : stmt.layers with
  | all =>
    rw [hs] at ht
    cases ht
    simp [LoopState.set]
  | only ls =>
    rw [hs] at ht hl
    have hm : l ∈ ls.layers := of_decide_eq_true hl
    simp only [steerItems, stepItem, foldlM_cons, foldlM_nil, Option.bind_eq_bind, Option.bind_some, Option.map_some,
      hm, if_true] at ht
    cases ht
    simp [LoopState.set]

theorem steered_of_runPart {n : Nat} {idx : Option Nat}
    (h : runPart n idx (installPart model i stmt) = some s) (hl : l < n) (hhas : stmt.layers.has l = true) :
    ⟨l, steerHook i stmt⟩ ∈ s.hooked := by
  rw [runPart_installPart] at h
  induction n generalizing s with
  | zero => exact absurd hl (Nat.not_lt_zero l)
  | succ n ih =>
    rw [range_succ, foldlM_append] at h
    obtain ⟨t, ht, h⟩ := Option.bind_eq_some_iff.1 h
    have hstep : runBody (loopBody i stmt) t n = some s := by simpa using h
    rcases Nat.lt_succ_iff_lt_or_eq.1 hl with hl | rfl
    · exact (steered_of_runBody hstep).1 (ih ht hl)
    · exact (steered_of_runBody hstep).2 hhas

end Part

theorem runInstall_bound {n k : Nat} {parts : List Part}
    (h : ∀ p ∈ parts, ∀ k, ∃ s, runPart n (some k) p = some s ∧ s.idx.isSome) :
    ∃ traces, runInstall n (some k) parts = some traces := by
  induction parts generalizing k with
  | nil => exact ⟨[], rfl⟩
  | cons p parts ih =>
    obtain ⟨s, hs, hb⟩ := h p mem_cons_self k
    obtain ⟨k', hk'⟩ := Option.isSome_iff_exists.1 hb
    obtain ⟨rest, hrest⟩ := ih (fun q hq => h q (mem_cons_of_mem _ hq)) (k := k')
    exact ⟨s.hooked :: rest, by simp [runInstall, hs, hk', hrest]⟩

/-! ### The verb and the hooks -/

def Statement.VerbFits (stmt : Statement) : Prop := stmt.opName.spec.flag = stmt.op.flag

/-- Footprint, hook and arity are those of the verb. -/
structure VerbDecides (em : Emission) (i : Nat) (stmt : Statement) : Prop where
  footprint : (slots stmt).head? = some (stmt.op.flag, stmt.submodule, stmt.layers)
  install : ∃ p, em.install[i]? = some p ∧ (∃ h ∈ p.hooks, h.role = .steer) ∧
    ∀ h ∈ p.hooks, h.role = .steer → h.submodule = stmt.submodule ∧ h.flag = stmt.op.flag
  arity : stmt.opName.methodArity = stmt.submodule.arity stmt.op.flag

section File
variable {r : ParseResult} {em : Emission}

section

variable (hem : emitAll r.statements r.preamble r.model = .ok em)
include hem

theorem verbDecides_iff {i : Nat} {stmt : Statement}
    (h : r.statements[i]? = some stmt) : VerbDecides em i stmt ↔ stmt.VerbFits := by
  constructor
  · intro hv
    have hhead := hv.footprint
    simp only [slots, head?_cons, Option.some.injEq, Prod.mk.injEq] at hhead
    exact hhead.1
  · intro hfits
    unfold Statement.VerbFits at hfits
    refine ⟨by simp [slots, hfits], ⟨_, getElem_install hem h, ?_, ?_⟩, ?_⟩
    · exact ⟨steerHook i stmt, by simp [hooks_installPart], rfl⟩
    · intro k hk hrole
      rw [hooks_installPart, mem_cons, Option.mem_toList, Option.map_eq_some_iff] at hk
      rcases hk with rfl | ⟨c, hc, rfl⟩
      · exact ⟨rfl, hfits⟩
      · obtain ⟨cond, -, hcond⟩ := Option.bind_eq_some_iff.1 hc
        exact absurd ((condHook_layers hcond).2.symm.trans hrole) (by decide)
    · rw [← hfits]
      cases stmt.opName <;> rfl

theorem mem_install {p : Part} (hp : p ∈ em.install) :
    ∃ (i : Nat) (stmt : Statement), r.statements[i]? = some stmt ∧ p = installPart r.model i stmt := by
  obtain ⟨i, hi, rfl⟩ := getElem_of_mem hp
  have hlen : em.install.length = r.statements.length := by rw [(emitAll_eq_ok.1 hem).2]; simp [fileEmission]
  have hget := getElem?_eq_getElem (hlen ▸ hi : i < r.statements.length)
  refine ⟨i, _, hget, ?_⟩
  have := getElem_install hem hget
  rwa [getElem?_eq_getElem hi, Option.some.injEq] at this

section
variable {n : Nat} {idx : Option Nat} {traces : List (List Hooked)}

theorem mem_traces
    (hrun : runInstall n idx em.install = some traces) {hooked : List Hooked}
    (hh : hooked ∈ traces) {e : Hooked} (he : e ∈ hooked) :
    ∃ (i : Nat) (stmt : Statement), r.statements[i]? = some stmt ∧
      (e.hook = steerHook i stmt ∨ ∃ cond layers, stmt.cond = some cond ∧ condHook i cond = some (layers, e.hook)) := by
  have hpart : ∃ p ∈ em.install, ∃ idx s, runPart n idx p = some s ∧ s.hooked = hooked := by
    generalize em.install = parts at hrun
    induction parts generalizing idx traces with
    | nil => cases hrun; simp at hh
    | cons p parts ih =>
      obtain ⟨s, hs, hrun⟩ := Option.bind_eq_some_iff.1 hrun
      obtain ⟨rest, hrest, hrun⟩ := Option.bind_eq_some_iff.1 hrun
      obtain rfl : s.hooked :: rest = traces := Option.some.inj hrun
      rcases mem_cons.1 hh with rfl | hh
      · exact ⟨p, mem_cons_self, idx, s, hs, rfl⟩
      · obtain ⟨q, hq, hrunq⟩ := ih hh hrest
        exact ⟨q, mem_cons_of_mem _ hq, hrunq⟩
  obtain ⟨p, hp, idx', s, hs, rfl⟩ := hpart
  obtain ⟨i, stmt, hi, rfl⟩ := mem_install hem hp
  exact ⟨i, stmt, hi, hooked_installPart hs he⟩

theorem readOnly_of_flags
    (hflags : ∀ stmt ∈ r.statements, stmt.opName.spec.flag = .r)
    (hrun : runInstall n idx em.install = some traces) (l : Nat) :
    (installed traces l).ReadOnly := by
  rw [installed_readOnly_iff]
  intro hooked hh e he _
  obtain ⟨i, stmt, hi, heq | ⟨cond, layers, -, hcond⟩⟩ := mem_traces hem hrun hh he
  · rw [heq]
    exact hflags stmt (mem_of_getElem? hi)
  · exact condHook_flag hcond

end

theorem flags_of_readOnly
    (hread : ∀ n idx traces, runInstall n idx em.install = some traces → ∀ l, (installed traces l).ReadOnly)
    {stmt : Statement} (hmem : stmt ∈ r.statements) : stmt.opName.spec.flag = .r := by
  obtain ⟨i, hi, rfl⟩ := getElem_of_mem hmem
  have hget := getElem?_eq_getElem hi
  obtain ⟨l, hl⟩ := hasLayer r.statements[i].layers
  obtain ⟨traces, hrun⟩ : ∃ traces, runInstall (l + 1) (some 0) em.install = some traces := by
    refine runInstall_bound fun p hp k => ?_
    obtain ⟨j, stmt, -, rfl⟩ := mem_install hem hp
    exact runPart_bound (l + 1) k
  obtain ⟨idx, s, hs, htrace⟩ := runInstall_getElem hrun (getElem_install hem hget)
  have hsteer := steered_of_runPart hs (Nat.lt_succ_self l) hl
  exact installed_readOnly_iff.1 (hread _ _ _ hrun l) _ (mem_of_getElem? htrace) _ hsteer rfl

end

end File

/-- For every accepted file: all its statements are emitted as their verbs say exactly when every op
class has the flag of the verb it is used with. Likewise, a file of `m.read` statements leaves the
hidden states of every model alone exactly when all its op classes are read ops. -/
theorem compile_verbs_iff (f : XmixFile) (text : Str) (h : compileXmix f = .ok text) :
    ∃ r em, parseAndValidate f = .ok r ∧ emitAll r.statements r.preamble r.model = .ok em ∧
      text = unlines (outputLines r.statements f.path r.preamble r.model em) ∧
      ((∀ (i : Nat) (stmt : Statement), r.statements[i]? = some stmt → VerbDecides em i stmt) ↔
        ∀ stmt ∈ r.statements, stmt.VerbFits) ∧
      ((∀ stmt ∈ r.statements, stmt.op = .read) →
        ((∀ n idx traces, runInstall n idx em.install = some traces → ∀ l, (installed traces l).ReadOnly) ↔
          ∀ stmt ∈ r.statements, stmt.VerbFits)) := by
  obtain ⟨r, em, hr, hem, htext⟩ := compileXmix_eq_ok h
  refine ⟨r, em, hr, hem, htext, ⟨fun hv stmt hmem => ?_, fun hfits i stmt hi => ?_⟩,
    fun hread => ⟨fun hro stmt hmem => ?_, ?_⟩⟩
  · obtain ⟨i, hi, rfl⟩ := getElem_of_mem hmem
    have hget := getElem?_eq_getElem hi
    exact (verbDecides_iff hem hget).1 (hv i _ hget)
  · exact (verbDecides_iff hem hi).2 (hfits stmt (mem_of_getElem? hi))
  · rw [Statement.VerbFits, hread stmt hmem]
    exact flags_of_readOnly hem hro hmem
  · intro hfits n idx traces hrun l
    refine readOnly_of_flags hem (fun stmt hmem => ?_) hrun l
    rw [(hfits stmt hmem : _ = _), hread stmt hmem]
    rfl

open Written in
def Written.read (e : Expr) : Expr := link m (ident "read" (by decide)) [e]

theorem linearProbe_ident : "LinearProbe".toList ≠ [] ∧ "LinearProbe".toList.all isIdentChar = true := by decide

open Written in
def fittingFile : XmixFile where
  path := "fitting.xmix".toList
  src := []
  tree := .ok
    [adder vName, build uName (ident "LinearProbe" linearProbe_ident) ["w", "b", "n"],
      stmt (submodule (layers (write (run (selfAttr vName))) [3]) "mlp.post"),
      stmt (submodule (layers (read (run (selfAttr uName))) [2]) "mlp.post")]

theorem fittingFile_verbs :
    ∃ text r em, compileXmix fittingFile = .ok text ∧ parseAndValidate fittingFile = .ok r ∧
      emitAll r.statements r.preamble r.model = .ok em ∧
      ∀ (i : Nat) (stmt : Statement), r.statements[i]? = some stmt → VerbDecides em i stmt := by
  have hacc : ∃ text, compileXmix fittingFile = .ok text := ⟨_, rfl⟩
  obtain ⟨text, hacc⟩ := hacc
  obtain ⟨r, em, hr, hem, -, hiff, -⟩ := compile_verbs_iff fittingFile text hacc
  refine ⟨text, r, em, hacc, hr, hem, hiff.2 fun stmt hmem => ?_⟩
  have hparsed : (parseAndValidate fittingFile).map
    (fun r => r.statements.all fun s => s.opName.spec.flag = s.op.flag) =
      .ok true := rfl
  rw [hr] at hparsed
  show stmt.opName.spec.flag = stmt.op.flag
  exact of_decide_eq_true (all_eq_true.1 (Except.ok.inj hparsed) stmt hmem)

open Written in
def readAdderFile : XmixFile where
  path := "read.xmix".toList
  src := []
  tree := .ok
    [adder vName, stmt (submodule (layers (read (run (selfAttr vName))) [1]) "mlp.post")]

/-- The one statement of `readAdderFile` reads, and installs the adder as a write hook: on a model of
two layers it replaces the hidden states of layer 1. -/
theorem readAdderFile_writes :
    ∃ text r em stmt traces, compileXmix readAdderFile = .ok text ∧ parseAndValidate readAdderFile = .ok r ∧
      emitAll r.statements r.preamble r.model = .ok em ∧ r.statements = [stmt] ∧ stmt.op = .read ∧
      ¬ VerbDecides em 0 stmt ∧ runInstall 2 none em.install = some traces ∧
      (installed traces 1).slot .mlpPost .w = some (steerHook 0 stmt) := by
  refine ⟨_, _, _, _, _, rfl, rfl, rfl, rfl, rfl, ?_, rfl, rfl⟩
  intro hv
  exact absurd hv.arity (by decide)

end Xmix.Dsl
