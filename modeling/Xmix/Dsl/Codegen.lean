import Xmix.Dsl.Parser

/-!
# Phase B: code generation

`xmix/codegen.py`. What it emits is kept as a program (`Code`) and rendered at the end: a line is a
sequence of text and of bare names it reads or binds (`Tok`), an install loop is one item, a wiring
call says what it wires. The emitters return the parts they add to the setup and install sinks,
each with its destination; `sinkGo` is the `_Sink` that writes them out, with a tag wherever the
destination changes.
-/

namespace Xmix.Dsl

open Xmix.Except List
open PyStr

variable {i : Nat} {model : Model} {stmt : Statement}

/-! ### Emitted code -/

inductive Tok where
  | txt (s : Str)
  | use (name : Str)
  | bind (name : Str)
deriving DecidableEq, Repr

def Tok.str : Tok → Str
  | .txt s => s
  | .use name => name
  | .bind name => name

def txt (s : String) : Tok := .txt s.toList

def renderLine (toks : List Tok) : Str := toks.flatMap Tok.str

inductive Ref where
  /-- a local of the generated code, `sv_0` or `cond_0` -/
  | loc (name : Str)
  /-- an instance the preamble built -/
  | inst (d : Dotted)
  /-- an attribute of the inner model, `self.model.model.<attr>` -/
  | inner (attr : Str)
deriving DecidableEq

def innerModel : Str := "self.model.model".toList

def Ref.toks : Ref → List Tok
  | .loc name => [.use name]
  | .inst ⟨head, []⟩ => [.use head.name]
  | .inst d => [.txt d.str]
  | .inner attr => [.txt (innerModel ++ '.' :: attr)]

def Ref.str (r : Ref) : Str := renderLine r.toks

inductive Role where
  | steer
  | cond
deriving DecidableEq

structure SetHook where
  role : Role
  submodule : Submodule
  flag : Flag
  obj : Ref
  hook : List Tok

inductive LoopItem where
  | always (h : SetHook)
  | setIdx
  | ifIdx (layers : LayerList) (h : SetHook)

inductive Code where
  | verbatim (line : Str)
  | blank
  | comment (text : Str)
  /-- `<targets> = <value>`, with a trailing comment -/
  | assign (targets : List Str) (value : List Tok) (note : Str)
  /-- `<recv>.<fn>(<kind>=[<steer>.<buffer>])`, with a trailing comment -/
  | plug (recv : Ref) (fn : Str) (kind : Option Str) (steer : Ref) (buffer : Str) (note : Str)
  | loop (body : List LoopItem)
  /-- the forward run-call of a model-scope condition -/
  | runCall (attr : Str)

def tupleLiteral (xs : List Nat) : Str :=
  let inner := join ", ".toList (xs.map natStr)
  if xs.length = 1 then '(' :: inner ++ ",)".toList else '(' :: inner ++ [')']

def SetHook.toks (h : SetHook) (indent : String) : List Tok :=
  [txt indent, .use "layer".toList, .txt ('.' :: h.submodule.setter ++ ['('])] ++ h.hook ++
    [.txt (", \"".toList ++ h.flag.name ++ "\")".toList)]

def LoopItem.toks : LoopItem → List (List Tok)
  | .always h => [h.toks "    "]
  | .setIdx => [[txt "    ", .bind "idx".toList, txt " = ", .use "layer".toList, txt ".self_attn.layer_idx"]]
  | .ifIdx ls h =>
    [[txt "    if ", .use "idx".toList, .txt (" in ".toList ++ tupleLiteral ls.layers ++ [':'])], h.toks "        "]

def joinToks (sep : String) : List (List Tok) → List Tok
  | [] => []
  | [t] => t
  | t :: ts => t ++ txt sep :: joinToks sep ts

def Code.toks : Code → List (List Tok)
  | .verbatim line => [[.txt line]]
  | .blank => [[]]
  | .comment text => [[.txt text]]
  | .assign targets value note =>
    [joinToks ", " (targets.map fun t => [.bind t]) ++ txt " = " :: value ++ [.txt note]]
  | .plug recv fn kind steer buffer note =>
    let open_ := match kind with
      | none => fn ++ "([".toList
      | some k => fn ++ '(' :: k ++ "=[".toList
    [recv.toks ++ [.txt ('.' :: open_)] ++ steer.toks ++ [.txt ('.' :: buffer ++ "])".toList ++ note)]]
  | .loop body =>
    [txt "for ", .bind "layer".toList, .txt (" in ".toList ++ innerModel ++ ".layers:".toList)] ::
      body.flatMap LoopItem.toks
  | .runCall attr =>
    [[txt "if ", .use "idx".toList, .txt (" == 0 and self.".toList ++ attr ++ " is not None:".toList)],
      [.txt ("    self.".toList ++ attr ++ ['(']), .use "input_ids".toList, txt ")"]]

def Code.lines (c : Code) : List Str := c.toks.map renderLine

/-! ### Destinations and sinks -/

structure Dest where
  label : Str
  file : Str
  anchor : Anchor
  note : Option Str

abbrev Place := Str × Anchor

def Dest.key (d : Dest) : Place := (d.file, d.anchor)

def setupDest (model : Model) : Dest := ⟨runnerSetupLabel, model.anchorFile .runnerSetup, .runnerSetup, none⟩

def postloadDest (model : Model) : Dest :=
  ⟨runnerPostloadLabel, model.anchorFile .runnerPostload, .runnerPostload, none⟩

variable (statements : List Statement) (sourceName : Str) (preamble : List PreambleSegment) (cls : ModelCond)

def modelDest (model : Model) : Dest :=
  ⟨cls.spec.dest, model.anchorFile cls.spec.destAnchor, cls.spec.destAnchor, some cls.spec.runDest⟩

def runDest (model : Model) : Dest :=
  ⟨"model file — ".toList ++ cls.spec.name ++ ".forward run-site (in the layer loop)".toList,
    model.anchorFile cls.spec.runAnchor, cls.spec.runAnchor, none⟩

structure Part where
  dest : Dest
  code : List Code

def Dest.applyLine (d : Dest) : Str :=
  "# >>> XMIX-APPLY file=".toList ++ d.file ++ " anchor=".toList ++ d.anchor.name ++ " <<<".toList

def Dest.tagLines (d : Dest) : List Str :=
  [[], d.applyLine, "# >>> DESTINATION: ".toList ++ d.label ++ " <<<".toList] ++
    (d.note.map fun note => "#     (executes at: ".toList ++ note ++ [')']).toList

def sinkGo (cur : Option Place) : List Part → List Str
  | [] => []
  | p :: parts =>
    (if some p.dest.key = cur then [] else p.dest.tagLines) ++ p.code.flatMap Code.lines ++
      sinkGo (some p.dest.key) parts

/-! ### Per-statement emission -/

def LayerList.max (l : LayerList) : Nat := l.layers.max?.getD 0

def LayerList.min (l : LayerList) : Nat := l.layers.min?.getD 0

structure Emission where
  setup : List Part
  install : List Part
  assumed : List Str

def maxTokens : Str := "_max_tokens".toList

def condBias : Str := "_cond_bias".toList

def steeredTokensNum : Str := "_steered_tokens_num".toList

def numbered (stem : String) (i : Nat) : Str := stem.toList ++ natStr i

def emitSteeringVectorAdder (cls var : Str) (src : Str) (i : Nat) : List Code :=
  let r := numbered "_r" i
  let mv := numbered "_max_vecs" i
  let h := numbered "_hidden" i
  let scales := numbered "_scales" i
  let vi := numbered "_vec_indices" i
  let npt := numbered "_n_vecs_per_token" i
  let torch := Tok.use "torch".toList
  [.assign [r] [.use src, txt ".unsqueeze(0) if ", .use src, txt ".ndim == 1 else ", .use src] [],
    .assign [mv, h] [.use r, txt ".shape"] [],
    .assign [scales] [torch, txt ".ones((", .use maxTokens, txt ", ", .use mv, txt "), dtype=", .use r,
      txt ".dtype, device=", .use r, txt ".device)"] [],
    .assign [vi] [torch, txt ".arange(", .use mv, txt ", dtype=", torch, txt ".int32, device=", .use r,
      txt ".device).repeat(", .use maxTokens, txt ", 1)"] [],
    .assign [npt] [torch, txt ".full((", .use maxTokens, txt ",), ", .use mv, txt ", dtype=", torch,
      txt ".int32, device=", .use r, txt ".device)"] [],
    .assign [var] [.use cls, txt "(", .use r, txt ", ", .use scales, txt ", ", .use vi, txt ", ", .use npt, txt ")"] []]

def emitOpBuild (op : Op) (cls var : Str) (args : List Ident) (i : Nat) : List Code :=
  match op.spec.buildKind, args with
  | some .steeringVectorAdder, src :: _ => emitSteeringVectorAdder cls var src.name i
  | some .steeringVectorAdder, [] => [] -- not accepted by the parser: the op's arity is 1
  | none, args =>
    [.assign [var] (.use cls :: txt "(" :: joinToks ", " (args.map fun a => [.use a.name]) ++ [txt ")"]) []]

variable (i stmt)

def Statement.steerVar : Ref :=
  match stmt.steerer with
  | .synth _ => .loc (numbered "sv_" i)
  | .inst expr => .inst expr

def extraArgExprs (op : Op) (var : Ref) : List (List Tok) :=
  match op with
  | .steeringVector => [var.toks ++ [txt ".r"], [.use steeredTokensNum]]
  | _ => []

def reconcileExpr (method : List Tok) (methodArity siteArity : Nat) (extra : List (List Tok)) :
    Except Exc (List Tok × List Str) :=
  let params := (range siteArity).map fun j => [Tok.txt (numbered "_a" j)]
  let lambda (callArgs : List (List Tok)) : List Tok :=
    txt "lambda " :: joinToks ", " params ++ txt ": " :: method ++ txt "(" :: joinToks ", " callArgs ++ [txt ")"]
  if methodArity = siteArity then .ok (method, [])
  else if methodArity > siteArity then
    let need := methodArity - siteArity
    if extra.length ≠ need then
      .error (.xmix ⟨none, "cannot adapt ".toList ++ renderLine method ++ ": site passes ".toList ++ natStr siteArity ++
        " arg(s), method needs ".toList ++ natStr methodArity ++ "; ".toList ++ natStr need ++
        " extra expr(s) required but ".toList ++ natStr extra.length ++ " provided".toList, []⟩)
    else
      let names := (extra.map renderLine).filter fun e => !startsWith "_a".toList e && !e.contains '.'
      .ok (lambda (params ++ extra), names)
  else .ok (lambda (params.take methodArity), [])

def plugCall (recv : Ref) (gate : Gate) (spec : CondSpec) (steer : Ref) (note : Str) : Code :=
  -- `or`: an empty override counts as none
  let plugFn := (gate.plugFn.filter (· ≠ [])).getD spec.plugFn
  let plugKind := match gate.plugKind.filter (· ≠ []) with
    | some kind => some kind
    | none => spec.plugKind
  .plug recv plugFn plugKind steer gate.buffer note

def target (steer : Ref) (gate : Gate) : Str := steer.str ++ '.' :: gate.buffer

def emitCondInstanceSetup (model : Model) (inst : Dotted) (cls : LayerCond) (gate : Gate) (steer : Ref) : Part :=
  ⟨setupDest model, [plugCall (.inst inst) gate cls.spec steer
    ("   # gate: ".toList ++ cls.spec.name ++ " output drives ".toList ++ target steer gate)]⟩

def emitProbeSetup (model : Model) (i : Nat) (probe : ProbeOp) (compare : CompareOp)
    (weights threshold : Ident) : Part :=
  ⟨setupDest model,
    [.assign [numbered "lp_" i]
      [.use (clsName probe.clsPath), txt "(", .use weights.name, txt ", ", .use condBias, txt ", ",
        .use maxTokens, txt ")"] [],
    .assign [numbered "cond_" i]
      [.use compare.name, txt "(", .use (numbered "lp_" i), txt ", ", .use threshold.name, txt ", ",
        .use (numbered "sv_" i), txt ".input_map)"] "   # user-defined probs->mask bridge".toList]⟩

def checkOrder (loc : SourceLoc) (condLayers : LayerList) (stmtLayers : LayerSpec) : Except Exc Unit :=
  match stmtLayers with
  | .all => .ok ()
  | .only layers =>
    if condLayers.max ≥ layers.min then
      .error (.xmix ⟨some loc, "cond layer(s) ".toList ++ reprInts condLayers.layers ++
        " must precede steered layer(s) ".toList ++ reprInts layers.layers ++
        " so the mask is populated before use".toList, []⟩)
    else .ok ()

def emitModelRun (model : Model) (cls : ModelCond) : Part :=
  ⟨runDest cls model,
    [.comment ("# run ".toList ++ cls.spec.name ++ " once per forward".toList), .runCall cls.spec.modelAttr]⟩

def emitModelCondInstall (gate : Gate) (steer : Ref) : List Code :=
  [.blank,
    .comment ("# token-gate: ".toList ++ cls.spec.name ++ " runs at model scope (".toList ++ cls.spec.runDest ++
      "); drives ".toList ++ target steer gate),
    plugCall (.inner cls.spec.modelAttr) gate cls.spec.toCondSpec steer []]

def opPart : Str :=
  match stmt.steerer with
  | .inst expr => expr.str ++ '.' :: stmt.opName.spec.method
  | .synth args =>
    stmt.opName.name ++ '(' :: join ", ".toList (args.map Ident.name) ++ ").".toList ++ stmt.opName.spec.method

def layerPart : LayerSpec → Str
  | .all => ".layer(\"all\")".toList
  | .only ls => ".layers(".toList ++ reprInts ls.layers ++ [')']

def dslHead : Str :=
  let verb := match stmt.op with
    | .write => "write".toList
    | .read => "read".toList
  "# ".toList ++ stmt.loc.file ++ ':' :: natStr stmt.loc.line ++ "  m.".toList ++ verb ++ '(' :: opPart stmt ++
    ')' :: layerPart stmt.layers ++ ".submodule(\"".toList ++ stmt.submodule.name ++ "\")".toList

def gateExpr (inst : Dotted) (g : Gate) : Str :=
  inst.str ++ ".gates(\"".toList ++ g.buffer ++ ['"'] ++
    (g.plugFn.elim [] fun fn => ", via=\"".toList ++ fn ++ ['"']) ++
    (g.plugKind.elim [] fun kind => ", kind=\"".toList ++ kind ++ ['"']) ++ [')']

def layerTail (ls : LayerList) (sub : Submodule) : Str :=
  ".layer(".toList ++ reprInts ls.layers ++ ").submodule(\"".toList ++ sub.name ++ "\")".toList

def condEcho : CondClause → Str
  | .probe op compare weights threshold ls sub _ =>
    op.name ++ '.' :: compare.name ++ '(' :: weights.name ++ ", ".toList ++ threshold.name ++ ')' :: layerTail ls sub
  | .gates inst _ g ls sub _ => gateExpr inst g ++ layerTail ls sub
  | .model inst _ g _ => gateExpr inst g ++ ".layer(\"model\")".toList

def dslComment : List Code :=
  .comment (dslHead stmt) ::
    (stmt.cond.map fun c => Code.comment ("#               .cond(".toList ++ condEcho c ++ [')'])).toList

def steerComment : Code :=
  let where_ := match stmt.layers with
    | .all => "ALL layers".toList
    | .only ls => "layers ".toList ++ reprInts ls.layers
  .comment ("# steer ".toList ++ stmt.opName.name ++ " on ".toList ++ where_ ++ " at ".toList ++
    quoted stmt.submodule.name ++ " (flag ".toList ++ quoted stmt.opName.spec.flag.name ++ [')'])

def steerItems (layers : LayerSpec) (h : SetHook) : List LoopItem :=
  match layers with
  | .all => [.always h]
  | .only ls => [.setIdx, .ifIdx ls h]

def emitCondSetup (model : Model) (i : Nat) (stmt : Statement) : Except Exc (List Part × List Str) :=
  match stmt.cond with
  | none => .ok ([], [])
  | some (.probe op compare weights threshold layers _ loc) => do
    checkOrder loc layers stmt.layers
    return ([emitProbeSetup model i op compare weights threshold],
      [clsName op.clsPath, weights.name, threshold.name, condBias, maxTokens, compare.name])
  | some (.gates inst cls gate layers _ loc) => do
    checkOrder loc layers stmt.layers
    return ([emitCondInstanceSetup model inst cls gate (stmt.steerVar i)], [])
  | some (.model _ cls _ _) => .ok ([emitModelRun model cls], [])

def condHook : CondClause → Option (LayerList × SetHook)
  | .probe op _ _ _ layers sub _ =>
    some (layers, ⟨.cond, sub, op.flag, .loc (numbered "cond_" i), [.use (numbered "cond_" i)]⟩)
  | .gates inst cls _ layers sub _ =>
    some (layers, ⟨.cond, sub, cls.spec.flag, .inst inst, (Ref.inst inst).toks ++ [.txt ('.' :: cls.spec.method)]⟩)
  | .model .. => none

def condItems : List LoopItem :=
  ((stmt.cond.bind (condHook i)).map fun (layers, h) => LoopItem.ifIdx layers h).toList

def condTailCode : List Code :=
  match stmt.cond with
  | some (.model _ cls gate _) => emitModelCondInstall cls gate (stmt.steerVar i)
  | _ => []

variable {i stmt}

def emitStatement (model : Model) (i : Nat) (stmt : Statement) : Except Exc Emission := do
  let spec := stmt.opName.spec
  let cls := clsName spec.clsPath
  let steer := stmt.steerVar i
  let (build, buildNames) := match stmt.steerer with
    | .inst _ => ([], [])
    | .synth args =>
      ([Part.mk (setupDest model) (emitOpBuild stmt.opName cls (numbered "sv_" i) args i)], cls :: args.map Ident.name)
  let (condSetup, condNames) ← emitCondSetup model i stmt
  let (hook, hookNames) ← reconcileExpr (steer.toks ++ [.txt ('.' :: spec.method)]) stmt.opName.methodArity
    (stmt.submodule.arity spec.flag) (extraArgExprs stmt.opName steer)
  let body := steerItems stmt.layers ⟨.steer, stmt.submodule, spec.flag, steer, hook⟩ ++ condItems i stmt
  return {
    setup := build ++ condSetup
    install :=
      [⟨postloadDest model, .blank :: dslComment stmt ++ [steerComment stmt, .loop body] ++ condTailCode i stmt⟩]
    assumed := buildNames ++ condNames ++ hookNames }

/-! ### What a statement emits -/

def buildParts (model : Model) (i : Nat) (stmt : Statement) : List Part :=
  match stmt.steerer with
  | .inst _ => []
  | .synth args =>
    [⟨setupDest model, emitOpBuild stmt.opName (clsName stmt.opName.spec.clsPath) (numbered "sv_" i) args i⟩]

def condParts (model : Model) (i : Nat) (stmt : Statement) : List Part :=
  match stmt.cond with
  | none => []
  | some (.probe op compare weights threshold _ _ _) => [emitProbeSetup model i op compare weights threshold]
  | some (.gates inst cls gate _ _ _) => [emitCondInstanceSetup model inst cls gate (stmt.steerVar i)]
  | some (.model _ cls _ _) => [emitModelRun model cls]

variable (i stmt)

def steerHook : SetHook :=
  ⟨.steer, stmt.submodule, stmt.opName.spec.flag, stmt.steerVar i,
    (stmt.steerVar i).toks ++ [.txt ('.' :: stmt.opName.spec.method)]⟩

def loopBody : List LoopItem :=
  steerItems stmt.layers (steerHook i stmt) ++ condItems i stmt

def installHead : List Code := .blank :: dslComment stmt ++ [steerComment stmt]

variable {i stmt}

def installPart (model : Model) (i : Nat) (stmt : Statement) : Part :=
  ⟨postloadDest model, installHead stmt ++ ([.loop (loopBody i stmt)] ++ condTailCode i stmt)⟩

theorem mem_installHead {c : Code} (h : c ∈ installHead stmt) : c = .blank ∨ ∃ text, c = .comment text := by
  simp only [installHead, dslComment, cons_append, mem_cons, mem_append, Option.mem_toList,
    Option.map_eq_some_iff, not_mem_nil, or_false] at h
  rcases h with rfl | rfl | ⟨_, -, rfl⟩ | rfl
  · exact .inl rfl
  · exact .inr ⟨_, rfl⟩
  · exact .inr ⟨_, rfl⟩
  · exact .inr ⟨_, rfl⟩

theorem mem_condTailCode {c : Code} (h : c ∈ condTailCode i stmt) :
    c = .blank ∨ (∃ text, c = .comment text) ∨
      ∃ recv fn kind steer buffer note, c = .plug recv fn kind steer buffer note := by
  unfold condTailCode at h
  split at h
  · simp only [emitModelCondInstall, mem_cons, not_mem_nil, or_false] at h
    rcases h with rfl | rfl | rfl
    · exact .inl rfl
    · exact .inr (.inl ⟨_, rfl⟩)
    · exact .inr (.inr ⟨_, _, _, _, _, _, rfl⟩)
  · simp at h

variable (stmt)

def buildNames : List Str :=
  match stmt.steerer with
  | .inst _ => []
  | .synth args => clsName stmt.opName.spec.clsPath :: args.map Ident.name

def condNames : List Str :=
  match stmt.cond with
  | some (.probe op compare weights threshold _ _ _) =>
    [clsName op.clsPath, weights.name, threshold.name, condBias, maxTokens, compare.name]
  | _ => []

def CondClause.layers? : CondClause → Option LayerList
  | .probe _ _ _ _ layers _ _ => some layers
  | .gates _ _ _ layers _ _ => some layers
  | .model .. => none

def Ordered : Prop :=
  ∀ cond, stmt.cond = some cond → ∀ layers, cond.layers? = some layers → ∀ ls, stmt.layers = .only ls →
    layers.max < ls.min

theorem reconcileExpr_bare (method : List Tok) (extra : List (List Tok)) :
    reconcileExpr method stmt.opName.methodArity (stmt.submodule.arity stmt.opName.spec.flag) extra =
      .ok (method, []) := by
  cases stmt.opName <;> rfl

variable {stmt}

theorem checkOrder_eq_ok {loc : SourceLoc} {layers : LayerList} {spec : LayerSpec} {u : Unit} :
    checkOrder loc layers spec = .ok u ↔ ∀ ls, spec = .only ls → layers.max < ls.min := by
  cases spec with
  | all => simp [checkOrder]
  | only ls =>
    simp only [checkOrder]
    split
    · next h => simp only [reduceCtorEq, LayerSpec.only.injEq, forall_eq', false_iff]; omega
    · next h => simp only [LayerSpec.only.injEq, forall_eq', true_iff]; omega

theorem emitCondSetup_eq_ok {r : List Part × List Str} :
    emitCondSetup model i stmt = .ok r ↔ Ordered stmt ∧ r = (condParts model i stmt, condNames stmt) := by
  unfold emitCondSetup Ordered condParts condNames
  rcases stmt.cond with _ | (_ | _ | _)
  · simp [eq_comm]
  · simp only [bind_eq_ok, pure_eq_ok, checkOrder_eq_ok, exists_and_left, exists_const, Option.some.injEq,
      forall_eq', CondClause.layers?]
    exact and_congr_right' eq_comm
  · simp only [bind_eq_ok, pure_eq_ok, checkOrder_eq_ok, exists_and_left, exists_const, Option.some.injEq,
      forall_eq', CondClause.layers?]
    exact and_congr_right' eq_comm
  · simp [CondClause.layers?, eq_comm]

def statementEmission (model : Model) (i : Nat) (stmt : Statement) : Emission :=
  ⟨buildParts model i stmt ++ condParts model i stmt, [installPart model i stmt], buildNames stmt ++ condNames stmt⟩

theorem emitStatement_eq_ok {em : Emission} :
    emitStatement model i stmt = .ok em ↔ Ordered stmt ∧ em = statementEmission model i stmt := by
  unfold emitStatement
  simp only [bind_eq_ok, emitCondSetup_eq_ok, reconcileExpr_bare, Except.ok.injEq, pure_eq_ok]
  constructor
  · rintro ⟨_, ⟨hord, rfl⟩, _, rfl, rfl⟩
    refine ⟨hord, ?_⟩
    unfold statementEmission buildParts buildNames
    cases stmt.steerer <;> simp [installPart, installHead, loopBody, steerHook]
  · rintro ⟨hord, rfl⟩
    refine ⟨_, ⟨hord, rfl⟩, _, rfl, ?_⟩
    unfold statementEmission buildParts buildNames
    cases stmt.steerer <;> simp [installPart, installHead, loopBody, steerHook]

/-! ### The whole file -/

def layersText : LayerSpec → Str
  | .all => "all".toList
  | .only ls => join [','] ((ls.layers.insertionSort (· ≤ ·)).map natStr)

def footprintLine (flag : Flag) (sub : Submodule) (layers : LayerSpec) : Str :=
  "# >>> XMIX-FOOTPRINT flag=".toList ++ flag.name ++ " submodule=".toList ++ sub.name ++ " layers=".toList ++
    layersText layers ++ " <<<".toList

def slots (stmt : Statement) : List (Flag × Submodule × LayerSpec) :=
  (stmt.opName.spec.flag, stmt.submodule, stmt.layers) ::
    match stmt.cond with
    | some (.probe op _ _ _ layers sub _) => [(op.flag, sub, .only layers)]
    | some (.gates _ cls _ layers sub _) => [(cls.spec.flag, sub, .only layers)]
    | _ => []

def footprintTags : List Str :=
  statements.flatMap fun stmt => (slots stmt).map fun s => footprintLine s.1 s.2.1 s.2.2

def modelBound : List (Dotted × ModelCond) :=
  (statements.filterMap fun s =>
    match s.cond with
    | some (.model inst cls _ _) => some (inst, cls)
    | _ => none).reverse

def segmentDest (model : Model) (seg : PreambleSegment) : Dest :=
  match seg.blockCls.or (seg.targets.findSome? fun t => (modelBound statements).lookup t) with
  | some cls => modelDest cls model
  | none => setupDest model

def preamblePart (model : Model) (seg : PreambleSegment) : Part :=
  ⟨segmentDest statements model seg, (splitlines seg.text).map .verbatim⟩

def emitAll (model : Model) : Except Exc Emission := do
  let ems ← statements.zipIdx.mapM fun (stmt, i) => emitStatement model i stmt
  return {
    setup := preamble.map (preamblePart statements model) ++ ems.flatMap Emission.setup
    install := ems.flatMap Emission.install
    assumed := "torch".toList :: ems.flatMap Emission.assumed }

def fileEmission (model : Model) : Emission where
  setup := preamble.map (preamblePart statements model) ++
    statements.zipIdx.flatMap fun (stmt, i) => buildParts model i stmt ++ condParts model i stmt
  install := statements.zipIdx.map fun (stmt, i) => installPart model i stmt
  assumed := "torch".toList :: statements.flatMap fun stmt => buildNames stmt ++ condNames stmt

theorem emitAll_eq_ok {statements : List Statement} {preamble : List PreambleSegment} {em : Emission} :
    emitAll statements preamble model = .ok em ↔
      (∀ s ∈ statements, Ordered s) ∧ em = fileEmission statements preamble model := by
  have hord : (∀ s ∈ statements.zipIdx, Ordered s.1) ↔ ∀ s ∈ statements, Ordered s := by
    constructor
    · intro h s hs
      obtain ⟨i, hi, rfl⟩ := getElem_of_mem hs
      exact h (statements[i], i) (by simp [mem_zipIdx_iff_getElem?])
    · intro h s hs
      exact h s.1 (fst_mem_of_mem_zipIdx hs)
  have hnames : statements.zipIdx.flatMap (fun s => buildNames s.1 ++ condNames s.1) =
      statements.flatMap fun stmt => buildNames stmt ++ condNames stmt := by
    conv_rhs => rw [← zipIdx_map_fst 0 statements, flatMap_map]
  have hfile : ∀ ems, ems = statements.zipIdx.map (fun s => statementEmission model s.2 s.1) →
      (⟨preamble.map (preamblePart statements model) ++ ems.flatMap Emission.setup, ems.flatMap Emission.install,
        "torch".toList :: ems.flatMap Emission.assumed⟩ : Emission) = fileEmission statements preamble model := by
    rintro _ rfl
    simp only [fileEmission, flatMap_map, statementEmission, hnames, ← map_eq_flatMap]
  unfold emitAll
  rw [bind_eq_ok, ← hord]
  have hmap : ∀ ems, statements.zipIdx.mapM (fun s => emitStatement model s.2 s.1) = .ok ems ↔
      (∀ s ∈ statements.zipIdx, Ordered s.1) ∧ ems = statements.zipIdx.map fun s => statementEmission model s.2 s.1 :=
    fun ems => mapM_eq_ok_map fun _ _ => emitStatement_eq_ok
  simp only [hmap, pure_eq_ok]
  constructor
  · rintro ⟨ems, ⟨hall, hems⟩, rfl⟩
    exact ⟨hall, hfile ems hems⟩
  · rintro ⟨hall, rfl⟩
    exact ⟨_, ⟨hall, rfl⟩, hfile _ rfl⟩

def headerLines (model : Model) (assumed : List Str) : List Str :=
  ["# xmix synthesized from ".toList ++ (sourceName ++ "  (model: ".toList ++ model.name ++ [')']),
    "# assumes in scope: ".toList ++ join ", ".toList (sortedSet assumed),
    "#".toList,
    "# Excerpts are grouped by destination. Each '# >>> XMIX-APPLY file=… anchor=… <<<'".toList,
    "# tag is read by the apply tool to splice the block below it at that anchor;".toList,
    "# the '# >>> DESTINATION: … <<<' banner is the human-readable label.".toList]

def preambleBanner : Str := "# --- user preamble (verbatim) ---".toList

def setupBanner : Str := "# === SETUP (construct once — see destinations) ===".toList

def installBanner : Str := "# === INSTALL (after load_model) ===".toList

def setupLines (parts : List Part) : List Str :=
  (if preamble.isEmpty then [] else [[], preambleBanner]) ++ sinkGo none parts

def outputLines (model : Model)
    (em : Emission) : List Str :=
  headerLines sourceName model em.assumed ++ footprintTags statements ++
    [[], setupBanner] ++ setupLines preamble em.setup ++ [[], installBanner] ++ sinkGo none em.install

def generate (model : Model) :
    Except Exc Str := do
  let em ← emitAll statements preamble model
  return unlines (outputLines statements sourceName preamble model em)

def outputText (model : Model) : Str :=
  unlines (outputLines statements sourceName preamble model (fileEmission statements preamble model))

theorem generate_eq_ok {statements : List Statement} {sourceName : Str} {preamble : List PreambleSegment}
    {text : Str} : generate statements sourceName preamble model = .ok text ↔ (∀ s ∈ statements, Ordered s) ∧
      text = outputText statements sourceName preamble model := by
  unfold generate
  simp only [bind_eq_ok, pure_eq_ok, emitAll_eq_ok]
  constructor
  · rintro ⟨em, ⟨hord, rfl⟩, rfl⟩
    exact ⟨hord, rfl⟩
  · rintro ⟨hord, rfl⟩
    exact ⟨_, ⟨hord, rfl⟩, rfl⟩

def compileXmix (f : XmixFile) : Except Exc Str := do
  let r ← parseAndValidate f
  generate r.statements f.path r.preamble r.model

theorem compileXmix_eq_ok {f : XmixFile} {text : Str} (h : compileXmix f = .ok text) :
    ∃ r em, parseAndValidate f = .ok r ∧ emitAll r.statements r.preamble r.model = .ok em ∧
      text = unlines (outputLines r.statements f.path r.preamble r.model em) := by
  obtain ⟨r, hr, h⟩ := bind_eq_ok.1 h
  obtain ⟨em, hem, h⟩ := bind_eq_ok.1 h
  exact ⟨r, em, hr, hem, (pure_eq_ok.1 h).symm⟩

end Xmix.Dsl
