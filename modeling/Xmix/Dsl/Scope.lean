import Xmix.Dsl.Codegen
import Xmix.Lib.Scope

/-!
# Names of the synthesized code

Which names the code of a file reads where they cannot be seen. A line sees the header's assumed
names and what preamble segments and earlier lines bind at its own destination; the locals of the
setup destination are not visible at the postload one. `compile_scopeClosed_iff` reads off, form by
form, which references that leaves open.
-/

namespace Xmix.Dsl
open PyStr Scope
open List hiding after

def Tok.used? : Tok → Option Str
  | .use name => some name
  | _ => none

def Tok.bound? : Tok → Option Str
  | .bind name => some name
  | _ => none

def scopeLine (k : Place) (toks : List Tok) : Line Place Str := ⟨k, toks.filterMap Tok.used?, toks.filterMap Tok.bound?⟩

def Part.scopeLines (p : Part) : List (Line Place Str) := (p.code.flatMap Code.toks).map (scopeLine p.dest.key)

theorem Part.scopeLines_append (d : Dest) (c c' : List Code) :
    Part.scopeLines ⟨d, c ++ c'⟩ = Part.scopeLines ⟨d, c⟩ ++ Part.scopeLines ⟨d, c'⟩ := by
  simp [Part.scopeLines]

def given (preBinds : PreambleSegment → List Str) (r : ParseResult) (em : Emission) (k : Place) (n : Str) : Prop :=
  n ∈ em.assumed ∨ ∃ seg ∈ r.preamble, (segmentDest r.statements r.model seg).key = k ∧ n ∈ preBinds seg

/-- Every name that is read has been bound. -/
def ScopeClosed (preBinds : PreambleSegment → List Str) (r : ParseResult) (em : Emission) : Prop :=
  Closed (given preBinds r em) ((em.setup ++ em.install).flatMap Part.scopeLines)

/-! ### The references that can be open -/

def buildLocals (i : Nat) (stmt : Statement) : List Str :=
  match stmt.steerer with
  | .inst _ => []
  | .synth _ =>
    match stmt.opName.spec.buildKind with
    | some .steeringVectorAdder =>
      [numbered "_r" i, numbered "_max_vecs" i, numbered "_hidden" i, numbered "_scales" i, numbered "_vec_indices" i,
        numbered "_n_vecs_per_token" i, numbered "sv_" i]
    | none => [numbered "sv_" i]

def condLocals (i : Nat) (stmt : Statement) : List Str :=
  match stmt.cond with
  | some (.probe ..) => [numbered "lp_" i, numbered "cond_" i]
  | _ => []

def Ref.bare : Ref → List Str
  | .loc name => [name]
  | .inst ⟨head, []⟩ => [head.name]
  | _ => []

def layerName : Str := "layer".toList

def idxName : Str := "idx".toList

/-- What the header lists: the names that the statements mention. -/
def assumedNames (statements : List Statement) : List Str :=
  "torch".toList :: statements.flatMap fun stmt => buildNames stmt ++ condNames stmt

/-- A probe is read as `cond_i` at the postload destination, where nothing binds it; an undotted
instance under its own name. Both sit behind a test of `idx`. -/
def CondScoped (assumed setup postload : Str → Prop) (i : Nat) (stmt : Statement) : Prop :=
  match stmt.cond with
  | none => True
  | some (.probe ..) => setup (numbered "sv_" i) ∧ assumed (numbered "cond_" i) ∧ postload idxName
  | some (.gates inst ..) =>
    (∀ n ∈ (Ref.inst inst).bare ++ (stmt.steerVar i).bare, setup n) ∧ (∀ n ∈ (Ref.inst inst).bare, postload n) ∧
      postload idxName
  | some (.model ..) => assumed idxName ∧ assumed "input_ids".toList

/-- Every name that statement `i` reads is visible: listed, or bound at the destination that reads it. -/
structure StmtScoped (assumed setup postload : Str → Prop) (i : Nat) (stmt : Statement) : Prop where
  /-- a synthesized steerer is read as `sv_i` at the postload destination, where nothing binds it -/
  synth : ∀ args, stmt.steerer = .synth args → assumed (numbered "sv_" i)
  /-- an undotted instance is read there under its own name, a dotted one under none -/
  inst : ∀ head, stmt.steerer = .inst ⟨head, []⟩ → postload head.name
  /-- the expanded construction reads `_max_tokens` -/
  maxTokens : ∀ args, stmt.steerer = .synth args → stmt.opName = .steeringVector → setup maxTokens
  cond : CondScoped assumed setup postload i stmt

/-! ### Names on a line -/

@[simp] theorem used_txt (s : Str) (ts : List Tok) :
    (Tok.txt s :: ts).filterMap Tok.used? = ts.filterMap Tok.used? := rfl

variable (n : Str) (ts : List Tok)

@[simp] theorem used_use : (Tok.use n :: ts).filterMap Tok.used? = n :: ts.filterMap Tok.used? :=
  rfl

@[simp] theorem used_bind : (Tok.bind n :: ts).filterMap Tok.used? = ts.filterMap Tok.used? := rfl

@[simp] theorem bound_txt (s : Str) (ts : List Tok) :
    (Tok.txt s :: ts).filterMap Tok.bound? = ts.filterMap Tok.bound? :=
  rfl

@[simp] theorem bound_use : (Tok.use n :: ts).filterMap Tok.bound? = ts.filterMap Tok.bound? :=
  rfl

@[simp] theorem bound_bind :
    (Tok.bind n :: ts).filterMap Tok.bound? = n :: ts.filterMap Tok.bound? := rfl

theorem Ref.used_toks (r : Ref) : r.toks.filterMap Tok.used? = r.bare := by
  rcases r with _ | ⟨head, _ | _⟩ | _ <;> rfl

theorem Ref.bound_toks (r : Ref) : r.toks.filterMap Tok.bound? = [] := by
  rcases r with _ | ⟨head, _ | _⟩ | _ <;> rfl

theorem filterMap_joinToks {f : Tok → Option Str} (hf : ∀ s, f (.txt s) = none) (sep : String) (ts : List (List Tok)) :
    (joinToks sep ts).filterMap f = ts.flatMap (filterMap f) := by
  fun_induction joinToks sep ts with
  | case1 => rfl
  | case2 t => simp
  | case3 t ts _ ih => rw [filterMap_append, flatMap_cons, ← ih]; exact congrArg _ (filterMap_cons_none (hf _))

theorem used_joinToks (sep : String) (ts : List (List Tok)) :
    (joinToks sep ts).filterMap Tok.used? = ts.flatMap (filterMap Tok.used?) := filterMap_joinToks (fun _ => rfl) sep ts

theorem bound_joinToks (sep : String) (ts : List (List Tok)) :
    (joinToks sep ts).filterMap Tok.bound? = ts.flatMap (filterMap Tok.bound?) :=
      filterMap_joinToks (fun _ => rfl) sep ts

theorem scopeLine_assign (k : Place) (targets : List Str)
    {value : List Tok} (hv : value.filterMap Tok.bound? = []) (note : Str) :
    (Code.assign targets value note).toks.map (scopeLine k) = [⟨k, value.filterMap Tok.used?, targets⟩] := by
  have hu : (targets.map fun t => [Tok.bind t]).flatMap (filterMap Tok.used?) = [] := by
    simp [flatMap_map]
  have hb : (targets.map fun t => [Tok.bind t]).flatMap (filterMap Tok.bound?) = targets := by
    simp [flatMap_map]
  simp [Code.toks, scopeLine, used_joinToks, bound_joinToks, hu, hb, txt, used_txt, bound_txt, hv]

theorem closed_silent {given : Place → Str → Prop}
    {ls : List (Line Place Str)} (h : ∀ l ∈ ls, l.uses = [] ∧ l.binds = []) :
    Closed given ls ∧ after given ls = given := by
  constructor
  · rintro pre l post rfl n hn
    simp [(h l (by simp)).1] at hn
  · funext k n
    have hno : ¬ ∃ l ∈ ls, l.dest = k ∧ n ∈ l.binds := by
      rintro ⟨l, hl, -, hn⟩
      simp [(h l hl).2] at hn
    simp [after, hno]

theorem not_numbered {n : Str} {stem : String} (h : stem.toList.isPrefixOf n = false) (i : Nat) :
    n ≠ numbered stem i := by
  rintro rfl
  rw [numbered, isPrefixOf_iff_prefix.2 (prefix_append _ _)] at h
  cases h

theorem maxTokens_ne_local (i : Nat) : maxTokens ≠ numbered "_r" i ∧ maxTokens ≠ numbered "_max_vecs" i ∧
    maxTokens ≠ numbered "_hidden" i ∧ maxTokens ≠ numbered "_scales" i ∧ maxTokens ≠ numbered "_vec_indices" i := by
  refine ⟨?_, ?_, ?_, ?_, ?_⟩ <;> exact not_numbered (by decide) i

/-! ### The setup destination -/

theorem scopeLines_steeringVectorAdder (d : Dest) (cls var src : Str) (i : Nat) :
    Part.scopeLines ⟨d, emitSteeringVectorAdder cls var src i⟩ =
      [⟨d.key, [src, src, src], [numbered "_r" i]⟩,
        ⟨d.key, [numbered "_r" i], [numbered "_max_vecs" i, numbered "_hidden" i]⟩,
        ⟨d.key, ["torch".toList, maxTokens, numbered "_max_vecs" i, numbered "_r" i, numbered "_r" i],
          [numbered "_scales" i]⟩,
        ⟨d.key, ["torch".toList, numbered "_max_vecs" i, "torch".toList, numbered "_r" i, maxTokens],
          [numbered "_vec_indices" i]⟩,
        ⟨d.key, ["torch".toList, maxTokens, numbered "_max_vecs" i, "torch".toList, numbered "_r" i],
          [numbered "_n_vecs_per_token" i]⟩,
        ⟨d.key, [cls, numbered "_r" i, numbered "_scales" i, numbered "_vec_indices" i, numbered "_n_vecs_per_token" i],
          [var]⟩] := rfl

theorem scopeLines_construct (d : Dest) {op : Op} (hop : op ≠ .steeringVector)
    (cls var : Str) (args : List Ident) (i : Nat) :
    Part.scopeLines ⟨d, emitOpBuild op cls var args i⟩ = [⟨d.key, cls :: args.map Ident.name, [var]⟩] := by
  simp only [Part.scopeLines, emitOpBuild, Op.buildKind_of_ne hop, flatMap_cons, flatMap_nil, append_nil]
  rw [scopeLine_assign]
  · simp only [txt, cons_append, used_use, used_txt, filterMap_append, used_joinToks, flatMap_map,
      filterMap_nil, append_nil, ← map_eq_flatMap]
  · simp only [txt, cons_append, bound_use, bound_txt, filterMap_append, bound_joinToks, flatMap_map,
      filterMap_nil, append_nil, flatMap_eq_nil_iff, implies_true]

section Setup

variable {seen : Place → Str → Prop} {model : Model} {i : Nat} {stmt : Statement}

theorem Statement.ArityOk.single {args : List Ident} (harity : stmt.ArityOk) (hs : stmt.steerer = .synth args)
    (hop : stmt.opName = .steeringVector) : ∃ src, args = [src] := by
  have hlen := harity args hs
  rw [hop, Op.arity_steeringVector] at hlen
  exact length_eq_one_iff.1 hlen

theorem closed_build (harity : stmt.ArityOk) (htorch : seen (setupDest model).key "torch".toList)
    (hnames : ∀ n ∈ buildNames stmt, seen (setupDest model).key n) :
    Closed seen ((buildParts model i stmt).flatMap Part.scopeLines) ↔
      ∀ args, stmt.steerer = .synth args → stmt.opName = .steeringVector → seen (setupDest model).key maxTokens := by
  unfold buildParts
  unfold buildNames at hnames
  cases hs : stmt.steerer with
  | inst d => simp
  | synth args =>
    rw [hs] at hnames
    have hcls := hnames (clsName stmt.opName.spec.clsPath) (by simp)
    have hargs : ∀ a ∈ args, seen (setupDest model).key a.name := fun a ha =>
      hnames a.name (mem_cons_of_mem _ (mem_map_of_mem ha))
    simp only [flatMap_cons, flatMap_nil, append_nil, Steerer.synth.injEq, forall_eq']
    by_cases hop : stmt.opName = .steeringVector
    · obtain ⟨src, rfl⟩ := harity.single hs hop
      have hsrc := hargs src (by simp)
      simp only [emitOpBuild, hop, Op.buildKind_steeringVector, scopeLines_steeringVectorAdder]
      rw [hop] at hcls
      simp only [closed_cons, closed_nil, after_singleton, mem_cons, not_mem_nil, or_false, forall_eq_or_imp,
        forall_eq, hsrc, htorch, hcls, true_or, or_true, true_and, and_true]
      simp only [maxTokens_ne_local, or_false, and_self, forall_const]
    · simp only [scopeLines_construct _ hop, closed_cons, closed_nil, and_true, hop, false_implies, iff_true]
      intro n hn
      rcases mem_cons.1 hn with rfl | hn
      · exact hcls
      · obtain ⟨a, ha, rfl⟩ := mem_map.1 hn
        exact hargs a ha

theorem after_build (harity : stmt.ArityOk) (n : Str) :
    after seen ((buildParts model i stmt).flatMap Part.scopeLines) (setupDest model).key n ↔
      seen (setupDest model).key n ∨ n ∈ buildLocals i stmt := by
  unfold buildParts buildLocals
  cases hs : stmt.steerer with
  | inst d => simp
  | synth args =>
    simp only [flatMap_cons, flatMap_nil, append_nil]
    by_cases hop : stmt.opName = .steeringVector
    · obtain ⟨src, rfl⟩ := harity.single hs hop
      simp only [emitOpBuild, hop, Op.buildKind_steeringVector, scopeLines_steeringVectorAdder]
      simp [after, or_assoc]
    · simp [scopeLines_construct _ hop, Op.buildKind_of_ne hop, after_singleton]

theorem scopeLines_plugCall (d : Dest) (recv steer : Ref) (gate : Gate) (spec : CondSpec) (note : Str) :
    Part.scopeLines ⟨d, [plugCall recv gate spec steer note]⟩ = [⟨d.key, recv.bare ++ steer.bare, []⟩] := by
  simp [Part.scopeLines, plugCall, Code.toks, scopeLine, Ref.used_toks, Ref.bound_toks, used_txt, bound_txt]

theorem scopeLines_probe (model : Model) (i : Nat) (op : ProbeOp) (compare : CompareOp) (w t : Ident) :
    Part.scopeLines (emitProbeSetup model i op compare w t) =
      [⟨(setupDest model).key, [clsName op.clsPath, w.name, condBias, maxTokens], [numbered "lp_" i]⟩,
        ⟨(setupDest model).key, [compare.name, numbered "lp_" i, t.name, numbered "sv_" i],
          [numbered "cond_" i]⟩] := rfl

theorem scopeLines_modelRun (model : Model) (cls : ModelCond) :
    Part.scopeLines (emitModelRun model cls) =
      [⟨(runDest cls model).key, [], []⟩, ⟨(runDest cls model).key, [idxName], []⟩,
        ⟨(runDest cls model).key, ["input_ids".toList], []⟩] := rfl

theorem closed_cond (hnames : ∀ n ∈ condNames stmt, seen (setupDest model).key n) :
    Closed seen ((condParts model i stmt).flatMap Part.scopeLines) ↔
      match stmt.cond with
      | none => True
      | some (.probe ..) => seen (setupDest model).key (numbered "sv_" i)
      | some (.gates inst ..) => ∀ n ∈ (Ref.inst inst).bare ++ (stmt.steerVar i).bare, seen (setupDest model).key n
      | some (.model _ cls ..) =>
        seen (runDest cls model).key idxName ∧ seen (runDest cls model).key "input_ids".toList := by
  unfold condParts
  unfold condNames at hnames
  rcases hc : stmt.cond with _ | (⟨op, compare, w, t, layers, sub, loc⟩ |
    ⟨inst, cls, gate, layers, sub, loc⟩ | ⟨inst, cls, gate, loc⟩)
  · simp
  · have hsv : numbered "sv_" i ≠ numbered "lp_" i := fun h => by cases h
    rw [hc] at hnames
    simp [scopeLines_probe, closed_cons, after_singleton, hnames, hsv]
  · simp [emitCondInstanceSetup, scopeLines_plugCall, closed_cons]
  · simp [scopeLines_modelRun, closed_cons, after_singleton]

theorem after_condParts (n : Str) :
    after seen ((condParts model i stmt).flatMap Part.scopeLines) (setupDest model).key n ↔
      seen (setupDest model).key n ∨ n ∈ condLocals i stmt := by
  unfold condParts condLocals
  rcases hc : stmt.cond with _ | (⟨op, compare, w, t, layers, sub, loc⟩ |
    ⟨inst, cls, gate, layers, sub, loc⟩ | ⟨inst, cls, gate, loc⟩)
  · simp
  · simp [scopeLines_probe, after]
  · simp [emitCondInstanceSetup, scopeLines_plugCall, after]
  · simp [scopeLines_modelRun, after]

end Setup

/-! ### The postload destination -/

section Postload

variable {seen : Place → Str → Prop} {model : Model} {i : Nat} {stmt : Statement}

theorem scopeLine_setHook (k : Place) (h : SetHook) (indent : String) :
    scopeLine k (h.toks indent) = ⟨k, layerName :: h.hook.filterMap Tok.used?, h.hook.filterMap Tok.bound?⟩ := by
  simp only [scopeLine, SetHook.toks, txt, cons_append, used_txt, used_use, bound_txt, bound_use, nil_append,
    filterMap_append, filterMap_nil, append_nil]
  rfl

theorem condHook_toks {cond : CondClause} {layers : LayerList} {h : SetHook} (hc : condHook i cond = some (layers, h)) :
    h.hook.filterMap Tok.used? = h.obj.bare ∧ h.hook.filterMap Tok.bound? = [] := by
  cases cond with
  | probe op compare w t ls sub loc =>
    obtain ⟨rfl, rfl⟩ : ls = layers ∧ _ = h := by simpa [condHook] using hc
    exact ⟨rfl, rfl⟩
  | gates inst cls gate ls sub loc =>
    obtain ⟨rfl, rfl⟩ : ls = layers ∧ _ = h := by simpa [condHook] using hc
    simp [Ref.used_toks, Ref.bound_toks, used_txt, bound_txt]
  | model => simp [condHook] at hc

def steerLines (k : Place) (i : Nat) (stmt : Statement) : List (Line Place Str) :=
  match stmt.layers with
  | .all => [⟨k, layerName :: (stmt.steerVar i).bare, []⟩]
  | .only _ => [⟨k, [layerName], [idxName]⟩, ⟨k, [idxName], []⟩, ⟨k, layerName :: (stmt.steerVar i).bare, []⟩]

def condLines (k : Place) (i : Nat) (stmt : Statement) : List (Line Place Str) :=
  match stmt.cond.bind (condHook i) with
  | none => []
  | some (_, h) => [⟨k, [idxName], []⟩, ⟨k, layerName :: h.obj.bare, []⟩]

theorem scopeLines_loop (k : Place) (i : Nat) (stmt : Statement) :
    (Code.loop (loopBody i stmt)).toks.map (scopeLine k) =
      ⟨k, [], [layerName]⟩ :: (steerLines k i stmt ++ condLines k i stmt) := by
  have hsteer : ((steerItems stmt.layers (steerHook i stmt)).flatMap LoopItem.toks).map (scopeLine k) =
    steerLines k i stmt := by
    have hhook : ∀ indent, scopeLine k ((steerHook i stmt).toks indent) =
      ⟨k, layerName :: (stmt.steerVar i).bare, []⟩ := by
      intro indent
      simp [scopeLine_setHook, steerHook, Ref.used_toks, Ref.bound_toks, used_txt, bound_txt]
    unfold steerItems steerLines
    cases stmt.layers with
    | all => simp [LoopItem.toks, hhook]
    | only ls =>
      simp only [flatMap_cons, flatMap_nil, LoopItem.toks, append_nil, cons_append, nil_append,
        map_cons, map_nil, hhook]
      rfl
  have hcond : ((condItems i stmt).flatMap LoopItem.toks).map (scopeLine k) = condLines k i stmt := by
    unfold condItems condLines
    cases hc : stmt.cond.bind (condHook i) with
    | none => rfl
    | some lh =>
      obtain ⟨layers, h⟩ := lh
      obtain ⟨cond, -, hcond⟩ := Option.bind_eq_some_iff.1 hc
      obtain ⟨hu, hb⟩ := condHook_toks hcond
      simp only [Option.map_some, Option.toList_some, flatMap_cons, flatMap_nil, LoopItem.toks, append_nil,
        map_cons, map_nil, scopeLine_setHook, hu, hb]
      rfl
  simp only [Code.toks, loopBody, map_cons, flatMap_append, map_append, hsteer, hcond]
  rfl

theorem silent_comments {code : List Code} (h : ∀ c ∈ code, c = .blank ∨ ∃ text, c = .comment text) (d : Dest) :
    ∀ l ∈ Part.scopeLines ⟨d, code⟩, l.uses = [] ∧ l.binds = [] := by
  intro l hl
  simp only [Part.scopeLines, mem_map, mem_flatMap] at hl
  obtain ⟨toks, ⟨c, hc, htoks⟩, rfl⟩ := hl
  rcases h c hc with rfl | ⟨text, rfl⟩
  · obtain rfl : toks = [] := by simpa [Code.toks] using htoks
    exact ⟨rfl, rfl⟩
  · obtain rfl : toks = [.txt text] := by simpa [Code.toks] using htoks
    exact ⟨rfl, rfl⟩

def tailLines (k : Place) (i : Nat) (stmt : Statement) : List (Line Place Str) :=
  match stmt.cond with
  | some (.model ..) => [⟨k, [], []⟩, ⟨k, [], []⟩, ⟨k, (stmt.steerVar i).bare, []⟩]
  | _ => []

theorem scopeLines_condTailCode (d : Dest) : Part.scopeLines ⟨d, condTailCode i stmt⟩ = tailLines d.key i stmt := by
  unfold condTailCode tailLines
  rcases stmt.cond with _ | (_ | _ | ⟨inst, cls, gate, loc⟩)
  · rfl
  · rfl
  · rfl
  · have hplug := scopeLines_plugCall d (.inner cls.spec.modelAttr) (stmt.steerVar i) gate cls.spec.toCondSpec []
    simp only [Part.scopeLines, emitModelCondInstall, flatMap_cons, flatMap_nil, append_nil,
      map_append] at hplug ⊢
    rw [hplug]
    rfl

def installLines (k : Place) (i : Nat) (stmt : Statement) : List (Line Place Str) :=
  ⟨k, [], [layerName]⟩ :: (steerLines k i stmt ++ condLines k i stmt ++ tailLines k i stmt)

theorem scopeLines_installPart (model : Model) (i : Nat) (stmt : Statement) :
    ∃ silent : List (Line Place Str), (∀ l ∈ silent, l.uses = [] ∧ l.binds = []) ∧
    (installPart model i stmt).scopeLines = silent ++ installLines (postloadDest model).key i stmt := by
  refine ⟨Part.scopeLines ⟨postloadDest model, installHead stmt⟩,
    silent_comments (fun c hc => mem_installHead hc) _, ?_⟩
  have hloop : Part.scopeLines ⟨postloadDest model, [.loop (loopBody i stmt)]⟩ =
      ⟨(postloadDest model).key, [], [layerName]⟩ ::
        (steerLines (postloadDest model).key i stmt ++ condLines (postloadDest model).key i stmt) := by
    simp [Part.scopeLines, scopeLines_loop]
  rw [installPart, Part.scopeLines_append _ (installHead stmt),
    Part.scopeLines_append _ [.loop (loopBody i stmt)], hloop, scopeLines_condTailCode]
  simp [installLines]

section Lines

variable {k : Place}

theorem after_steerLines (n : Str) :
    after seen (steerLines k i stmt) k n ↔ seen k n ∨ n = idxName ∧ stmt.layers ≠ .all := by
  unfold steerLines
  cases stmt.layers with
  | all => simp [after]
  | only ls => simp [after]

theorem closed_steerLines (hlayer : seen k layerName) :
    Closed seen (steerLines k i stmt) ↔ ∀ n ∈ (stmt.steerVar i).bare, after seen (steerLines k i stmt) k n := by
  simp only [after_steerLines]
  unfold steerLines
  cases stmt.layers with
  | all => simp [closed_cons, hlayer]
  | only ls => simp [closed_cons, after_singleton, hlayer]

theorem closed_condLines (hlayer : seen k layerName) :
    Closed seen (condLines k i stmt) ↔
      ∀ layers h, stmt.cond.bind (condHook i) = some (layers, h) → ∀ n ∈ idxName :: h.obj.bare, seen k n := by
  unfold condLines
  rcases stmt.cond.bind (condHook i) with _ | ⟨layers, h⟩
  · simp
  · simp [closed_cons, after_singleton, hlayer]

theorem after_condLines : after seen (condLines k i stmt) = seen := by
  funext k' n
  unfold condLines
  rcases stmt.cond.bind (condHook i) with _ | ⟨layers, h⟩ <;> simp [after]

theorem closed_tailLines (h : ∀ n ∈ (stmt.steerVar i).bare, seen k n) : Closed seen (tailLines k i stmt) := by
  unfold tailLines
  rcases stmt.cond with _ | (_ | _ | _) <;> simp [closed_cons, after_singleton]
  exact h

theorem after_tailLines : after seen (tailLines k i stmt) = seen := by
  funext k' n
  unfold tailLines
  rcases stmt.cond with _ | (_ | _ | _) <;> simp [after]

theorem after_installLines (n : Str) :
    after seen (installLines k i stmt) k n ↔ seen k n ∨ n = layerName ∨ n = idxName ∧ stmt.layers ≠ .all := by
  rw [installLines, after_cons, after_append, after_append, after_tailLines, after_condLines,
    after_steerLines, after_singleton]
  simp [or_assoc]

theorem closed_installLines :
    Closed seen (installLines k i stmt) ↔
      (∀ n ∈ (stmt.steerVar i).bare, after seen (installLines k i stmt) k n) ∧
      ∀ layers h, stmt.cond.bind (condHook i) = some (layers, h) → ∀ n ∈ idxName :: h.obj.bare,
        after seen (installLines k i stmt) k n := by
  have hafter : ∀ n, after seen (installLines k i stmt) k n ↔
      after (after seen [⟨k, [], [layerName]⟩]) (steerLines k i stmt) k n := by
    intro n
    rw [installLines, after_cons, after_append, after_append, after_tailLines, after_condLines]
  have hlayer : after seen [⟨k, [], [layerName]⟩] k layerName := by simp [after]
  have hlayer' : after (after seen [⟨k, [], [layerName]⟩]) (steerLines k i stmt) k layerName := .inl hlayer
  simp only [hafter]
  rw [installLines, closed_cons, closed_append, closed_append, closed_steerLines hlayer, after_append, after_condLines,
    closed_condLines hlayer']
  simp only [not_mem_nil, false_implies, implies_true, true_and]
  exact ⟨fun h => ⟨h.1.1, h.1.2⟩, fun h => ⟨⟨h.1, h.2⟩, closed_tailLines h.1⟩⟩

end Lines

end Postload

/-! ### Whole files -/

section File

variable {preBinds : PreambleSegment → List Str} {r : ParseResult}

/-- Listed, or bound in the setup by the preamble, by an earlier statement or by the construction of this one. -/
def setupSeen (preBinds : PreambleSegment → List Str) (r : ParseResult) (pre : List Statement)
    (stmt : Statement) (n : Str) : Prop :=
  (n ∈ assumedNames r.statements ∨
      ∃ seg ∈ r.preamble, (segmentDest r.statements r.model seg).key = (setupDest r.model).key ∧ n ∈ preBinds seg) ∨
    (∃ s ∈ pre.zipIdx, n ∈ buildLocals s.2 s.1 ++ condLocals s.2 s.1) ∨
    n ∈ buildLocals pre.length stmt

/-- Listed, or bound by the loop of this statement or an earlier one. -/
def postloadSeen (r : ParseResult) (pre : List Statement) (stmt : Statement) (n : Str) : Prop :=
  n ∈ assumedNames r.statements ∨ n = layerName ∨ n = idxName ∧ ∃ s ∈ pre ++ [stmt], s.layers ≠ .all

theorem segmentDest_anchor (statements : List Statement) (model : Model) (seg : PreambleSegment) :
    (segmentDest statements model seg).anchor = .runnerSetup ∨
      (segmentDest statements model seg).anchor = .modelConstruct := by
  unfold segmentDest
  split
  · next cls _ => cases cls; exact .inr rfl
  · exact .inl rfl

theorem given_iff_assumed {em : Emission} {k : Place} (h₁ : k.2 ≠ .runnerSetup) (h₂ : k.2 ≠ .modelConstruct) (n : Str) :
    given preBinds r em k n ↔ n ∈ em.assumed := by
  unfold given
  constructor
  · rintro (h | ⟨seg, -, hk, -⟩)
    · exact h
    · rcases segmentDest_anchor r.statements r.model seg with h | h
      · exact absurd (by rw [← hk]; exact h) h₁
      · exact absurd (by rw [← hk]; exact h) h₂
  · exact .inl

def stmtSetup (model : Model) (s : Statement × Nat) : List (Line Place Str) :=
  (buildParts model s.2 s.1 ++ condParts model s.2 s.1).flatMap Part.scopeLines

theorem dest_of_mem_scopeLines {p : Part} {l : Line Place Str} (h : l ∈ p.scopeLines) : l.dest = p.dest.key := by
  simp only [Part.scopeLines, mem_map] at h
  obtain ⟨toks, -, rfl⟩ := h
  rfl

section
variable {seen : Place → Str → Prop} {model : Model} {s : Statement × Nat}

theorem after_stmtSetup_other {k : Place}
    (hk : k ≠ (setupDest model).key) (n : Str) : after seen (stmtSetup model s) k n ↔ seen k n := by
  have hno : ¬ ∃ l ∈ stmtSetup model s, l.dest = k ∧ n ∈ l.binds := by
    rintro ⟨l, hl, rfl, hn⟩
    simp only [stmtSetup, mem_flatMap, mem_append] at hl
    obtain ⟨p, hp, hl⟩ := hl
    have hother : p.dest.key ≠ (setupDest model).key := by rw [← dest_of_mem_scopeLines hl]; exact hk
    rcases hp with hp | hp
    · unfold buildParts at hp
      split at hp
      · simp at hp
      · exact hother (by rw [mem_singleton.1 hp])
    · unfold condParts at hp
      split at hp
      · simp at hp
      · exact hother (by rw [mem_singleton.1 hp]; rfl)
      · exact hother (by rw [mem_singleton.1 hp]; rfl)
      · rw [mem_singleton.1 hp, scopeLines_modelRun] at hl
        simp only [mem_cons, not_mem_nil, or_false] at hl
        rcases hl with rfl | rfl | rfl <;> simp at hn
  simp [after, hno]

theorem after_stmtSetup (harity : s.1.ArityOk) (n : Str) :
    after seen (stmtSetup model s) (setupDest model).key n ↔
      seen (setupDest model).key n ∨ n ∈ buildLocals s.2 s.1 ++ condLocals s.2 s.1 := by
  rw [stmtSetup, flatMap_append, after_append, after_condParts, after_build harity, mem_append, or_assoc]

end

section Assemble

variable {em : Emission} {pre : List Statement} {stmt : Statement}

theorem after_pre_setup (harity : ∀ s ∈ pre, s.ArityOk) (n : Str) :
    after (given preBinds r em) (pre.zipIdx.flatMap (stmtSetup r.model)) (setupDest r.model).key n ↔
      given preBinds r em (setupDest r.model).key n ∨
        ∃ s ∈ pre.zipIdx, n ∈ buildLocals s.2 s.1 ++ condLocals s.2 s.1 := by
  rw [after_flatMap]
  refine or_congr_right (exists_congr fun s => and_congr_right fun hs => ?_)
  rw [after_stmtSetup (harity s.1 (fst_mem_of_mem_zipIdx hs)), false_or]

theorem after_pre_other {k : Place} (hk : k ≠ (setupDest r.model).key) (n : Str) :
    after (given preBinds r em) (pre.zipIdx.flatMap (stmtSetup r.model)) k n ↔ given preBinds r em k n := by
  rw [after_flatMap]
  simp [after_stmtSetup_other hk]

variable (hem : em.assumed = assumedNames r.statements)
include hem

theorem closed_stmtSetup (harity : ∀ s ∈ pre ++ [stmt], s.ArityOk) (hmem : stmt ∈ r.statements) :
    Closed (after (given preBinds r em) (pre.zipIdx.flatMap (stmtSetup r.model)))
      (stmtSetup r.model (stmt, pre.length)) ↔
      (∀ args, stmt.steerer = .synth args → stmt.opName = .steeringVector → setupSeen preBinds r pre stmt maxTokens) ∧
      match stmt.cond with
      | none => True
      | some (.probe ..) => setupSeen preBinds r pre stmt (numbered "sv_" pre.length)
      | some (.gates inst ..) =>
        ∀ n ∈ (Ref.inst inst).bare ++ (stmt.steerVar pre.length).bare, setupSeen preBinds r pre stmt n
      | some (.model ..) => idxName ∈ assumedNames r.statements ∧ "input_ids".toList ∈ assumedNames r.statements := by
  have htorch : "torch".toList ∈ em.assumed := hem ▸ mem_cons_self
  have hnames : ∀ n ∈ buildNames stmt ++ condNames stmt, n ∈ em.assumed :=
    fun n hn => hem ▸ mem_cons_of_mem _ (mem_flatMap.2 ⟨stmt, hmem, hn⟩)
  have hstmt : stmt.ArityOk := harity stmt (by simp)
  have hpre : ∀ s ∈ pre, s.ArityOk := fun s hs => harity s (by simp [hs])
  set seen := after (given preBinds r em) (pre.zipIdx.flatMap (stmtSetup r.model)) with hseen
  have hassumed : ∀ k n, n ∈ em.assumed → seen k n := fun k n hn => .inl (.inl hn)
  have hsetup : ∀ n, after seen ((buildParts r.model pre.length stmt).flatMap Part.scopeLines)
    (setupDest r.model).key n ↔
      setupSeen preBinds r pre stmt n := by
    intro n
    rw [after_build hstmt, hseen, after_pre_setup hpre, setupSeen, or_assoc, given, hem]
  have hmax : ∀ args, stmt.steerer = .synth args → stmt.opName = .steeringVector →
      (seen (setupDest r.model).key maxTokens ↔ setupSeen preBinds r pre stmt maxTokens) := by
    intro args hs hop
    have hlocal : maxTokens ∉ buildLocals pre.length stmt := by
      unfold buildLocals
      rw [hs, hop, Op.buildKind_steeringVector]
      simp only [mem_cons, not_mem_nil, or_false, maxTokens_ne_local, false_or]
      rintro (h | h)
      · exact not_numbered (by decide) _ h
      · exact not_numbered (by decide) _ h
    rw [← hsetup, after_build hstmt, or_iff_left hlocal]
  have hrun : ∀ cls : ModelCond, ∀ n,
      after seen ((buildParts r.model pre.length stmt).flatMap Part.scopeLines)
        (runDest cls r.model).key n ↔ n ∈ assumedNames r.statements := by
    intro cls n
    have hrunAnchor : (runDest cls r.model).key.2 = .modelForward := by cases cls; rfl
    have hne : (runDest cls r.model).key ≠ (setupDest r.model).key := fun h => by
      rw [h] at hrunAnchor
      exact Anchor.noConfusion hrunAnchor
    have hb : ¬ ∃ l ∈ (buildParts r.model pre.length stmt).flatMap Part.scopeLines,
      l.dest = (runDest cls r.model).key ∧ n ∈ l.binds := by
      rintro ⟨l, hl, hd, -⟩
      obtain ⟨p, hp, hl⟩ := mem_flatMap.1 hl
      rw [dest_of_mem_scopeLines hl] at hd
      unfold buildParts at hp
      split at hp
      · simp at hp
      · rw [mem_singleton.1 hp] at hd
        exact hne hd.symm
    rw [after, or_iff_left hb, hseen, after_pre_other hne, given_iff_assumed, hem] <;>
      rw [hrunAnchor] <;> exact Anchor.noConfusion
  rw [stmtSetup, flatMap_append, closed_append, closed_build hstmt (hassumed _ _ htorch)
    (fun n hn => hassumed _ _ (hnames n (by simp [hn]))),
      closed_cond (fun n hn => .inl (hassumed _ _ (hnames n (by simp [hn]))))]
  refine and_congr (forall_congr' fun args => forall_congr' fun hs => forall_congr' fun hop => hmax args hs hop) ?_
  rcases stmt.cond with _ | (_ | _ | ⟨inst, cls, gate, loc⟩)
  · rfl
  · exact hsetup _
  · exact forall_congr' fun n => forall_congr' fun _ => hsetup n
  · exact and_congr (hrun cls _) (hrun cls _)

theorem closed_stmtInstall :
    Closed (after (given preBinds r em) (pre.zipIdx.flatMap fun s => (installPart r.model s.2 s.1).scopeLines))
        (installPart r.model pre.length stmt).scopeLines ↔
      (∀ n ∈ (stmt.steerVar pre.length).bare, postloadSeen r pre stmt n) ∧
      ∀ layers h, stmt.cond.bind (condHook pre.length) = some (layers, h) → ∀ n ∈ idxName :: h.obj.bare,
        postloadSeen r pre stmt n := by
  have hafter : ∀ (seen : Place → Str → Prop) (s : Statement × Nat) (n : Str),
      after seen (installPart r.model s.2 s.1).scopeLines (postloadDest r.model).key n ↔
        seen (postloadDest r.model).key n ∨ n = layerName ∨ n = idxName ∧ s.1.layers ≠ .all := by
    intro seen s n
    obtain ⟨silent, hs, hlines⟩ := scopeLines_installPart r.model s.2 s.1
    rw [hlines, after_append, (closed_silent hs).2, after_installLines]
  have hgiven : ∀ n, given preBinds r em (postloadDest r.model).key n ↔ n ∈ assumedNames r.statements :=
    hem ▸ given_iff_assumed Anchor.noConfusion Anchor.noConfusion
  set seen :=
    after (given preBinds r em) (pre.zipIdx.flatMap fun s => (installPart r.model s.2 s.1).scopeLines) with hseen
  have hpost : ∀ n, after seen (installLines (postloadDest r.model).key pre.length stmt) (postloadDest r.model).key n ↔
      postloadSeen r pre stmt n := by
    intro n
    rw [after_installLines, hseen, after_flatMap, hgiven, postloadSeen]
    simp only [hafter, false_or, mem_append, mem_singleton]
    constructor
    · rintro ((h | ⟨s, hs, h | ⟨h, he⟩⟩) | h | ⟨h, he⟩)
      · exact .inl h
      · exact .inr (.inl h)
      · exact .inr (.inr ⟨h, s.1, .inl (fst_mem_of_mem_zipIdx hs), he⟩)
      · exact .inr (.inl h)
      · exact .inr (.inr ⟨h, stmt, .inr rfl, he⟩)
    · rintro (h | h | ⟨h, s, hs | rfl, he⟩)
      · exact .inl (.inl h)
      · exact .inr (.inl h)
      · obtain ⟨j, hj, rfl⟩ := getElem_of_mem hs
        exact .inl (.inr ⟨(pre[j], j), by simp [mem_zipIdx_iff_getElem?], .inr ⟨h, he⟩⟩)
      · exact .inr (.inr ⟨h, he⟩)
  obtain ⟨silent, hs, hlines⟩ := scopeLines_installPart r.model pre.length stmt
  rw [hlines, closed_append, (closed_silent hs).2, and_iff_right (closed_silent hs).1, closed_installLines]
  simp [hpost]

end Assemble

theorem steerVar_bare_iff {P : Str → Prop} {i : Nat} {stmt : Statement} : (∀ n ∈ (stmt.steerVar i).bare, P n) ↔
    (∀ args, stmt.steerer = .synth args → P (numbered "sv_" i)) ∧
      ∀ head, stmt.steerer = .inst ⟨head, []⟩ → P head.name := by
  rw [Statement.steerVar]
  rcases stmt.steerer with args | ⟨head, _ | _⟩ <;> simp [Ref.bare]

theorem postloadSeen_numbered {pre : List Statement}
    {stmt : Statement} {stem : String} (hlayer : stem.toList.isPrefixOf layerName = false)
    (hidx : stem.toList.isPrefixOf idxName = false) (i : Nat) :
    postloadSeen r pre stmt (numbered stem i) ↔ numbered stem i ∈ assumedNames r.statements := by
  rw [postloadSeen, or_iff_left]
  rintro (h | ⟨h, -⟩)
  · exact not_numbered hlayer i h.symm
  · exact not_numbered hidx i h.symm

theorem scopeClosed_fileEmission (harity : ∀ s ∈ r.statements, s.ArityOk) {em : Emission}
    (hem : em = fileEmission r.statements r.preamble r.model) :
    ScopeClosed preBinds r em ↔ ∀ pre stmt post, r.statements = pre ++ stmt :: post →
      StmtScoped (· ∈ assumedNames r.statements) (setupSeen preBinds r pre stmt)
        (postloadSeen r pre stmt) pre.length stmt := by
  have hsilent : ∀ l ∈ (r.preamble.map (preamblePart r.statements r.model)).flatMap Part.scopeLines,
      l.uses = [] ∧ l.binds = [] := by
    intro l hl
    simp only [mem_flatMap, mem_map] at hl
    obtain ⟨p, ⟨seg, -, rfl⟩, hl⟩ := hl
    simp only [Part.scopeLines, preamblePart, mem_map, mem_flatMap] at hl
    obtain ⟨toks, ⟨c, ⟨line, -, rfl⟩, htoks⟩, rfl⟩ := hl
    obtain rfl : toks = [.txt line] := by simpa [Code.toks] using htoks
    exact ⟨rfl, rfl⟩
  have hlines : (em.setup ++ em.install).flatMap Part.scopeLines =
      (r.preamble.map (preamblePart r.statements r.model)).flatMap Part.scopeLines ++
        (r.statements.zipIdx.flatMap (stmtSetup r.model) ++
          r.statements.zipIdx.flatMap fun s => (installPart r.model s.2 s.1).scopeLines) := by
    have hsetup : stmtSetup r.model = fun s => (buildParts r.model s.2 s.1).flatMap Part.scopeLines ++
        (condParts r.model s.2 s.1).flatMap Part.scopeLines := by
      funext s
      rw [stmtSetup, flatMap_append]
    subst hem
    simp only [fileEmission, flatMap_append, flatMap_map, append_assoc, flatMap_assoc, hsetup]
  have hinstall : Closed (after (given preBinds r em) (r.statements.zipIdx.flatMap (stmtSetup r.model)))
      (r.statements.zipIdx.flatMap fun s => (installPart r.model s.2 s.1).scopeLines) ↔
      Closed (given preBinds r em) (r.statements.zipIdx.flatMap fun s => (installPart r.model s.2 s.1).scopeLines) := by
    refine closed_congr fun l hl n => ?_
    obtain ⟨s, -, hl⟩ := mem_flatMap.1 hl
    rw [dest_of_mem_scopeLines hl, after_pre_other fun h => Anchor.noConfusion (congrArg Prod.snd h)]
  rw [ScopeClosed, hlines, closed_append, (closed_silent hsilent).2,
    and_iff_right (closed_silent hsilent).1, closed_append,
    hinstall, closed_flatMap_zipIdx, closed_flatMap_zipIdx, ← forall_and]
  simp only [← forall_and]
  refine forall_congr' fun pre => forall_congr' fun stmt => forall_congr' fun post => forall_congr' fun hsplit => ?_
  have hmem : stmt ∈ r.statements := by rw [hsplit]; simp
  have hassumed : em.assumed = assumedNames r.statements := by rw [hem]; rfl
  have hpre : ∀ s ∈ pre ++ [stmt], s.ArityOk := fun s hs => harity s (by rw [hsplit]; simp at hs ⊢; tauto)
  rw [closed_stmtSetup hassumed hpre hmem, closed_stmtInstall hassumed, steerVar_bare_iff,
    postloadSeen_numbered (by decide) (by decide)]
  constructor
  · rintro ⟨⟨hmax, hcond⟩, ⟨hsynth, hinst⟩, hhook⟩
    refine ⟨hsynth, hinst, hmax, ?_⟩
    unfold CondScoped
    rcases hc : stmt.cond with _ | (_ | ⟨inst, cls, gate, layers, sub, loc⟩ | _) <;> rw [hc] at hcond hhook
    · trivial
    · have := hhook _ _ rfl
      exact ⟨hcond, (postloadSeen_numbered (by decide) (by decide) _).1 (this _ (by simp [Ref.bare])), this _ (by simp)⟩
    · have := hhook _ _ rfl
      exact ⟨hcond, fun n hn => this n (by simp [hn]), this _ (by simp)⟩
    · exact hcond
  · rintro ⟨hsynth, hinst, hmax, hcond⟩
    unfold CondScoped at hcond
    rcases hc : stmt.cond with _ | (_ | ⟨inst, cls, gate, layers, sub, loc⟩ | _) <;> rw [hc] at hcond
    · exact ⟨⟨hmax, trivial⟩, ⟨hsynth, hinst⟩, fun _ _ h => by simp at h⟩
    · refine ⟨⟨hmax, hcond.1⟩, ⟨hsynth, hinst⟩, fun ls h hh n hn => ?_⟩
      obtain ⟨-, rfl⟩ : _ = ls ∧ _ = h := by simpa [condHook] using hh
      simp only [Ref.bare, mem_cons, not_mem_nil, or_false] at hn
      rcases hn with rfl | rfl
      · exact hcond.2.2
      · exact (postloadSeen_numbered (by decide) (by decide) _).2 hcond.2.1
    · refine ⟨⟨hmax, hcond.1⟩, ⟨hsynth, hinst⟩, fun ls h hh n hn => ?_⟩
      obtain ⟨-, rfl⟩ : _ = ls ∧ _ = h := by simpa [condHook] using hh
      rcases mem_cons.1 hn with rfl | hn
      · exact hcond.2.2
      · exact hcond.2.1 n hn
    · exact ⟨⟨hmax, hcond⟩, ⟨hsynth, hinst⟩, fun _ _ h => by simp [condHook] at h⟩

end File

/-- For every accepted file: its generated code is closed exactly when every statement finds the
names it asks for. In particular the `sv_<i>` of a synthesized steerer and the `cond_<i>` of a probe
are read at the postload destination, where nothing binds them. -/
theorem compile_scopeClosed_iff (preBinds : PreambleSegment → List Str) (f : XmixFile) (text : Str)
    (h : compileXmix f = .ok text) :
    ∃ r em, parseAndValidate f = .ok r ∧ emitAll r.statements r.preamble r.model = .ok em ∧
      text = unlines (outputLines r.statements f.path r.preamble r.model em) ∧
      (ScopeClosed preBinds r em ↔ ∀ pre stmt post, r.statements = pre ++ stmt :: post →
        StmtScoped (· ∈ assumedNames r.statements) (setupSeen preBinds r pre stmt)
          (postloadSeen r pre stmt) pre.length stmt) := by
  obtain ⟨r, em, hr, hem, htext⟩ := compileXmix_eq_ok h
  exact ⟨r, em, hr, hem, htext, scopeClosed_fileEmission (parseAndValidate_arity hr) (emitAll_eq_ok.1 hem).2⟩

/-- A preamble-built adder on explicit layers: the code is closed. -/
theorem compile_scopeClosed_adderFile :
    ∃ r em, parseAndValidate adderFile = .ok r ∧ emitAll r.statements r.preamble r.model = .ok em ∧
      ScopeClosed (fun _ => []) r em := by
  have hacc : ∃ text, compileXmix adderFile = .ok text := ⟨_, rfl⟩
  obtain ⟨text, hacc⟩ := hacc
  obtain ⟨r, em, hr, hem, -, hiff⟩ := compile_scopeClosed_iff (fun _ => []) adderFile text hacc
  refine ⟨r, em, hr, hem, hiff.2 ?_⟩
  have hstmts : r.statements = [adderStmt] := by
    have hparsed : (parseAndValidate adderFile).map ParseResult.statements = .ok [adderStmt] := rfl
    rw [hr] at hparsed
    exact Except.ok.inj hparsed
  intro pre stmt post hsplit
  rw [hstmts] at hsplit
  obtain ⟨rfl, rfl, rfl⟩ : pre = [] ∧ adderStmt = stmt ∧ post = [] := by
    cases pre with
    | nil => simpa using hsplit
    | cons s pre => simp at hsplit
  exact ⟨fun _ h => Steerer.noConfusion h, fun _ h => by simp [adderStmt] at h,
    fun _ h => Steerer.noConfusion h, trivial⟩

/-- The repository's `steer.xmix` is accepted, and its code reads `sv_0` where it is not bound. -/
theorem steerFile_not_scopeClosed :
    ∃ text r em, compileXmix steerFile = .ok text ∧ parseAndValidate steerFile = .ok r ∧
      emitAll r.statements r.preamble r.model = .ok em ∧ ¬ ScopeClosed (fun _ => []) r em := by
  have hacc : ∃ text, compileXmix steerFile = .ok text := ⟨_, rfl⟩
  obtain ⟨text, hacc⟩ := hacc
  obtain ⟨r, em, hr, hem, -⟩ := compileXmix_eq_ok hacc
  refine ⟨text, r, em, hacc, hr, hem, ?_⟩
  obtain ⟨stmt, hstmts, ⟨args, hsteer⟩, hno⟩ : ∃ stmt, r.statements = [stmt] ∧ (∃ args, stmt.steerer = .synth args) ∧
      numbered "sv_" 0 ∉ assumedNames [stmt] := by
    have hparsed : ∃ stmt, (parseAndValidate steerFile).map ParseResult.statements = .ok [stmt] ∧
        (∃ args, stmt.steerer = .synth args) ∧ numbered "sv_" 0 ∉ assumedNames [stmt] := ⟨_, rfl, ⟨_, rfl⟩, by decide⟩
    obtain ⟨stmt, hparsed, hs⟩ := hparsed
    rw [hr] at hparsed
    exact ⟨stmt, Except.ok.inj hparsed, hs⟩
  intro hclosed
  have hscoped :=
    (scopeClosed_fileEmission (parseAndValidate_arity hr) (emitAll_eq_ok.1 hem).2).1 hclosed [] stmt [] hstmts
  rw [← hstmts] at hno
  exact hno (hscoped.synth args hsteer)

end Xmix.Dsl
