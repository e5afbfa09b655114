import Xmix.Dsl.Spec
import Xmix.Lib.Except
import Xmix.Lib.LinePattern

/-!
# Phase A: parsing and validation

`xmix/parser.py` over the tree `ast.parse` returns. The tree is an input (`XmixFile`): every node
carries its position and source segment, and a node the parser never looks into is `other`. Each
function keeps the order in which the source makes its checks, so the first error is the one raised.
-/

namespace Xmix.Dsl

open Xmix.Except
open PyStr LinePattern

/-! ### The parsed file -/

structure Pos where
  line : Nat
  col : Nat
  seg : Str

inductive Expr where
  | name (p : Pos) (id : Ident)
  | attribute (p : Pos) (value : Expr) (attr : Ident)
  | call (p : Pos) (func : Expr) (args : List Expr) (keywords : List (Option Ident × Expr))
  | subscript (p : Pos) (value : Expr) (slice : Expr)
  | slice (p : Pos) (lower upper step : Option Expr)
  | int (p : Pos) (n : Nat)
  | str (p : Pos) (s : Str)
  | list (p : Pos) (elts : List Expr)
  | tuple (p : Pos) (elts : List Expr)
  | star (p : Pos) (value : Expr)
  | other (p : Pos)

def Expr.pos : Expr → Pos
  | .name p _ | .attribute p _ _ | .call p _ _ _ | .subscript p _ _ | .slice p _ _ _ | .int p _ | .str p _ | .list p _
  | .tuple p _ | .star p _ | .other p => p

inductive Node where
  | expr (p : Pos) (value : Expr)
  | assign (p : Pos) (targets : List Expr) (value : Expr)
  | annAssign (p : Pos) (target : Expr) (value : Option Expr)
  | augAssign (p : Pos) (target : Expr)
  | other (p : Pos)

def Node.pos : Node → Pos
  | .expr p _ | .assign p _ _ | .annAssign p _ _ | .augAssign p _ | .other p => p

structure XmixFile where
  path : Str
  src : Str
  tree : Except (Option Nat × Option Nat × Str) (List Node)

/-! ### Helpers -/

variable (path : Str) (p : Pos) (call : Expr)

def mkLoc : SourceLoc := ⟨path, p.line, p.col⟩

def fail {α : Type} (loc : SourceLoc) (msg : Str) (alternatives : List Str) : Except Exc α :=
  .error (.xmix ⟨some loc, msg, alternatives.insertionSort (leStr · ·)⟩)

def quoted (s : Str) : Str := '\'' :: s ++ ['\'']

def reprNames (names : List Str) : Str := '[' :: join ", ".toList (names.map quoted) ++ [']']

def reprInts (ns : List Nat) : Str := '[' :: join ", ".toList (ns.map natStr) ++ [']']

def dottedName : Expr → Option Dotted
  | .name _ id => some ⟨id, []⟩
  | .attribute _ value attr => (dottedName value).map fun d => ⟨d.head, d.attrs ++ [attr]⟩
  | _ => none

def flattenChain : Expr → Expr × List (Ident × Expr)
  | .call p (.attribute q value attr) args kws =>
    let (base, links) := flattenChain value
    (base, links ++ [(attr, .call p (.attribute q value attr) args kws)])
  | .subscript p (.attribute q value attr) slice =>
    let (base, links) := flattenChain value
    (base, links ++ [(attr, .subscript p (.attribute q value attr) slice)])
  | e => (e, [])

def noKeywords (link : Expr) (what : Str) : Except Exc (List Expr) :=
  match link with
  | .call p _ args kws =>
    if kws.isEmpty then .ok args else fail (mkLoc path p) (what ++ " does not accept keyword arguments".toList) []
  | e => fail (mkLoc path e.pos) (what ++ " must be a (...) call".toList) []

def expectNameArgs (what : Str) : Except Exc (List Ident) := do
  let args ← noKeywords path call what
  args.mapM fun
    | .name _ id => .ok id
    | arg => fail (mkLoc path arg.pos) (what ++ " argument must be a registry symbol name, not a literal".toList) []

def intConst : Expr → Option Nat
  | .int _ n => some n
  | _ => none

def expectIntList (what : Str) : Except Exc LayerList := do
  match ← noKeywords path call what with
  | [.list _ elts] =>
    let items ← elts.mapM fun el =>
      match intConst el with
      | some n => .ok n
      | none => fail (mkLoc path el.pos) (what ++ " list elements must be ints".toList) []
    if h : items = [] then fail (mkLoc path call.pos) (what ++ " list must not be empty".toList) []
    else return ⟨items, h⟩
  | _ => fail (mkLoc path call.pos) (what ++ " expects a single list of ints".toList) []

def inclusiveRange (lo hi step : Nat) : LayerList :=
  ⟨(List.range ((hi - lo) / step + 1)).map fun k => lo + k * step, by simp [List.range_succ]⟩

def layersFromSlice (slice : Expr) (what : Str) : Except Exc LayerList :=
  match slice with
  | .slice _ (some lower) (some upper) step =>
    match intConst lower, intConst upper with
    | some lo, some hi =>
      match (match step with | none => some 1 | some e => (intConst e).filter (0 < ·)) with
      | none => fail (mkLoc path p) (what ++ " range step must be a positive int".toList) []
      | some step =>
        if hi < lo then
          fail (mkLoc path p) (what ++ " range upper (".toList ++ natStr hi ++
            ") must be >= lower (".toList ++ natStr lo ++ [')']) []
        else .ok (inclusiveRange lo hi step)
    | _, _ => fail (mkLoc path p) (what ++ " range bounds must be int literals".toList) []
  | _ => fail (mkLoc path p) (what ++ " range must be [lo:hi] with both bounds, e.g. [15:23]".toList) []

def expectLayers (link : Expr) (what : Str) : Except Exc LayerSpec :=
  match link with
  | .subscript p _ slice => do return .only (← layersFromSlice path p slice what)
  | call => do
    match ← noKeywords path call what with
    | [.str p s] =>
      if s = "all".toList then return .all
      else fail (mkLoc path p) (what ++ " string must be \"all\"".toList) ["all".toList]
    | [_] => return .only (← expectIntList path call what)
    | _ => fail (mkLoc path call.pos) (what ++ " expects [lo:hi], a list of ints, or \"all\"".toList) []

def expectStr (what : Str) : Except Exc Str := do
  match ← noKeywords path call what with
  | [.str _ s] => return s
  | _ => fail (mkLoc path call.pos) (what ++ " expects a single string literal".toList) []

def validateSubmodule : Except Exc Submodule := do
  let name ← expectStr path call ".submodule(...)".toList
  match Submodule.all.find? (·.name = name) with
  | some sub => return sub
  | none => fail (mkLoc path call.pos) ("unknown submodule ".toList ++ quoted name) (Submodule.all.map Submodule.name)

/-! ### Statements -/

abbrev ClassMap := List (Dotted × Ident)

inductive CondCls where
  | layer (c : LayerCond)
  | model (c : ModelCond)

def CondCls.all : List CondCls := [.layer .condProjCosSim, .model .eolTokenDetector]

def CondCls.name : CondCls → Str
  | .layer c => c.spec.name
  | .model c => c.spec.name

def CondCls.args : CondCls → ArgSchema
  | .layer c => c.spec.args
  | .model c => c.spec.args

def lookupCls (name : Str) : Option CondCls := CondCls.all.find? (·.name = name)

def resolveVerb (opCall : Expr) (verb : Ident) : Except Exc OpKind :=
  if verb.name = "write".toList then .ok .write
  else if verb.name = "read".toList then .ok .read
  else fail (mkLoc path opCall.pos) ("unknown op '.".toList ++ verb.name ++ ['\'']) ["write".toList, "read".toList]

def lookupOp (cls : Ident) : Except Exc Op :=
  match Op.all.find? (·.name = cls.name) with
  | some op => .ok op
  | none => fail (mkLoc path p) ("unknown op ".toList ++ quoted cls.name) (Op.all.map Op.name)

def checkMethod (cls method : Ident) (expected : Str) : Except Exc Unit :=
  if method.name = expected then .ok ()
  else fail (mkLoc path p) ("unknown method '.".toList ++ method.name ++ "' on ".toList ++ cls.name) [expected]

def parseOpArg (opCall : Expr) (classMap : ClassMap) : Except Exc (Op × Steerer) := do
  match ← noKeywords path opCall ".write(...)".toList with
  | [.attribute p (.call q (.name n cls) args kws) method] =>
    let op ← lookupOp path p cls
    let args ← expectNameArgs path (.call q (.name n cls) args kws) cls.name
    if args.length ≠ op.spec.arity then
      fail (mkLoc path q) (cls.name ++ " expects ".toList ++ natStr op.spec.arity ++ " arg(s), got ".toList ++
        natStr args.length) []
    else
      checkMethod path p cls method op.spec.method
      return (op, .synth args)
  | [.attribute p value method] =>
    match dottedName value with
    | none => fail (mkLoc path p) "op argument must be <Class>(args).<method> or <var>.<method>".toList []
    | some inst =>
      match classMap.lookup inst with
      | none =>
        fail (mkLoc path p) ("cannot resolve class of ".toList ++ quoted inst.str ++
          "; assign it in the preamble as '".toList ++ inst.str ++ " = <Class>(...)'".toList) []
      | some cls =>
        let op ← lookupOp path p cls
        checkMethod path p cls method op.spec.method
        return (op, .inst inst)
  | [arg] => fail (mkLoc path arg.pos) "op argument must be <Class>(args).<method> or <var>.<method>".toList []
  | _ => fail (mkLoc path opCall.pos) ".write(...) expects exactly one argument".toList []

def condMethods : List Str := ["layer".toList, "submodule".toList]

structure CondTail where
  layers : Option LayerList
  submodule : Option Submodule
  modelLevel : Bool

def isModelSentinel : Expr → Bool
  | .call _ _ [.str _ s] [] => s = "model".toList
  | _ => false

def condTailLink (sentinel : Bool) (t : CondTail) (link : Ident × Expr) : Except Exc CondTail := do
  let (attr, call) := link
  if attr.name = "layer".toList then
    if sentinel && isModelSentinel call then return { t with modelLevel := true }
    else match ← expectLayers path call ".layer(...)".toList with
      | .all => fail (mkLoc path call.pos) "cond .layer does not support \"all\"".toList []
      | .only layers => return { t with layers := some layers }
  else if attr.name = "submodule".toList then
    let submodule ← validateSubmodule path call
    return { t with submodule := some submodule }
  else
    fail (mkLoc path call.pos) ("unknown cond method '.".toList ++ attr.name ++ ['\'']) condMethods

def CondTail.perLayer (t : CondTail) : Except Exc (LayerList × Submodule) :=
  match t.layers, t.submodule with
  | none, _ => fail (mkLoc path p) ".cond missing .layer([...])".toList []
  | _, none => fail (mkLoc path p) ".cond missing .submodule(\"...\")".toList []
  | some layers, some submodule => .ok (layers, submodule)

def parseCondProbe (probe : ProbeOp) (first : Ident × Expr) (rest : List (Ident × Expr)) :
    Except Exc CondClause := do
  let (compareOp, compareCall) := first
  if compareOp.name ≠ CompareOp.biggerThan.name then
    fail (mkLoc path compareCall.pos) ("unknown compare op '.".toList ++ compareOp.name ++ "' on ".toList ++ probe.name)
      [CompareOp.biggerThan.name]
  else
    let what := probe.name ++ '.' :: compareOp.name
    match ← expectNameArgs path compareCall what with
    | [weights, threshold] =>
      let tail ← rest.foldlM (condTailLink path false) ⟨none, none, false⟩
      let (layers, submodule) ← tail.perLayer path p
      return .probe probe .biggerThan weights threshold layers submodule (mkLoc path p)
    | args =>
      fail (mkLoc path compareCall.pos) (what ++ " expects 2 arg(s), got ".toList ++ natStr args.length) []

def gateKeyword (g : Gate) (kw : Option Ident × Expr) : Except Exc Gate :=
  let bad (name : Str) : Except Exc Gate :=
    fail (mkLoc path p) (".gates(...) accepts only via=/kind= string kwargs, got ".toList ++ quoted name) []
  match kw with
  | (some name, .str _ s) =>
    if name.name = "via".toList then .ok { g with plugFn := some s }
    else if name.name = "kind".toList then .ok { g with plugKind := some s }
    else bad name.name
  | (some name, _) => bad name.name
  | (none, _) => bad "None".toList

def parseGates (gateCall : Expr) : Except Exc Gate :=
  match gateCall with
  | .call p _ [.str _ buffer] kws => kws.foldlM (gateKeyword path p) ⟨buffer, none, none⟩
  | .call p _ _ _ => fail (mkLoc path p) ".gates(...) expects a single buffer-name string".toList []
  | _ => .error .attributeError

def parseCondInstance (inst : Dotted) (first : Ident × Expr) (rest : List (Ident × Expr))
    (cls : Ident) : Except Exc CondClause := do
  match lookupCls cls.name with
  | none =>
    fail (mkLoc path p) (quoted inst.str ++ " is a ".toList ++ cls.name ++
      ", which is not a registered cond instance".toList)
      (CondCls.all.map CondCls.name)
  | some condCls =>
    let (verb, gateCall) := first
    if verb.name ≠ "gates".toList then
      fail (mkLoc path gateCall.pos)
        ("unknown cond method '.".toList ++ verb.name ++ "' on instance ".toList ++ quoted inst.str) ["gates".toList]
    else
      let gate ← parseGates path gateCall
      let tail ← rest.foldlM (condTailLink path true) ⟨none, none, false⟩
      if tail.modelLevel then
        if tail.submodule.isSome then
          fail (mkLoc path p) ".layer(\"model\") (model scope) does not take a .submodule(...)".toList []
        else match condCls with
          | .model c => return .model inst c gate (mkLoc path p)
          | .layer c =>
            fail (mkLoc path p) (c.spec.name ++
              " is a per-layer condition; .layer(\"model\") is only for model-scope conditions".toList) []
      else
        let (layers, submodule) ← tail.perLayer path p
        match condCls with
        | .layer c => return .gates inst c gate layers submodule (mkLoc path p)
        | .model c =>
          fail (mkLoc path p) (c.spec.name ++ " runs at model scope; use .layer(\"model\") (no .submodule)".toList) []

def parseCond (condCall : Expr) (classMap : ClassMap) : Except Exc CondClause := do
  let p := condCall.pos
  match ← noKeywords path condCall ".cond(...)".toList with
  | [.call q func args kws] =>
    match flattenChain (.call q func args kws) with
    | (_, []) => fail (mkLoc path p) "empty .cond expression".toList []
    | (base, first :: rest) =>
      match base with
      | .name bp id =>
        if id.name = ProbeOp.linearProbe.name then parseCondProbe path p .linearProbe first rest
        else match classMap.lookup ⟨id, []⟩ with
          | some cls => parseCondInstance path p ⟨id, []⟩ first rest cls
          | none => fail (mkLoc path bp) ("unknown cond op ".toList ++ quoted id.name) [ProbeOp.linearProbe.name]
      | base =>
        match dottedName base with
        | none => fail (mkLoc path p) ".cond expression must start with a probe class or a prebuilt instance".toList []
        | some inst =>
          match classMap.lookup inst with
          | some cls => parseCondInstance path p inst first rest cls
          | none =>
            fail (mkLoc path p) ("cond instance ".toList ++ quoted inst.str ++
              " is not built in the preamble; assign it as '".toList ++ inst.str ++ " = <Class>(...)'".toList) []
  | _ => fail (mkLoc path p) ".cond(...) expects one chained expression".toList []

def stmtMethods : List Str := ["layer".toList, "layers".toList, "submodule".toList, "cond".toList]

structure StmtTail where
  layers : Option LayerSpec
  submodule : Option Submodule
  cond : Option CondClause

def stmtLink (classMap : ClassMap) (t : StmtTail) (link : Ident × Expr) : Except Exc StmtTail := do
  let (attr, call) := link
  if attr.name = "layer".toList ∨ attr.name = "layers".toList then
    let layers ← expectLayers path call ('.' :: attr.name ++ "(...)".toList)
    return { t with layers := some layers }
  else if attr.name = "submodule".toList then
    let submodule ← validateSubmodule path call
    return { t with submodule := some submodule }
  else if attr.name = "cond".toList then
    let cond ← parseCond path call classMap
    return { t with cond := some cond }
  else fail (mkLoc path call.pos) ("unknown method '.".toList ++ attr.name ++ ['\'']) stmtMethods

def parseStatement (classMap : ClassMap) (call : Expr) : Except Exc Statement := do
  match flattenChain call with
  | (.name _ m, (verb, opCall) :: links) =>
    if m.name ≠ ['m'] then fail (mkLoc path call.pos) "statement must start with 'm'".toList []
    else
      let op ← resolveVerb path opCall verb
      let (opName, steerer) ← parseOpArg path opCall classMap
      let tail ← links.foldlM (stmtLink path classMap) ⟨none, none, none⟩
      match tail.layers, tail.submodule with
      | none, _ => fail (mkLoc path call.pos) "statement missing .layers([...])".toList []
      | _, none => fail (mkLoc path call.pos) "statement missing .submodule(\"...\")".toList []
      | some layers, some submodule =>
        return ⟨op, opName, steerer, layers, submodule, tail.cond, mkLoc path call.pos⟩
  | (.name _ m, []) =>
    if m.name ≠ ['m'] then fail (mkLoc path call.pos) "statement must start with 'm'".toList []
    else fail (mkLoc path call.pos) "empty statement".toList []
  | _ => fail (mkLoc path call.pos) "statement must start with 'm'".toList []

/-! ### Preamble constructions -/

def argSchema (cls : Str) : Option (Option ArgSchema) :=
  match Op.all.find? (·.name = cls) with
  | some op => some op.spec.args
  | none => (lookupCls cls).map fun c => some c.args

def provideKeyword (cls : Str) (schema : ArgSchema) (provided : List (Str × Str))
    (kw : Option Ident × Expr) : Except Exc (List (Str × Str)) :=
  match kw with
  | (none, _) => fail (mkLoc path p) (cls ++ ": **kwargs is not supported".toList) []
  | (some name, value) =>
    if (schema.map Prod.fst).contains name.name = false then
      fail (mkLoc path value.pos) ("unknown argument ".toList ++ quoted name.name ++ " for ".toList ++ cls)
        (schema.map Prod.fst)
    else if (provided.lookup name.name).isSome then
      fail (mkLoc path value.pos) (cls ++ ": argument ".toList ++ quoted name.name ++ " given twice".toList) []
    else .ok (provided ++ [(name.name, value.pos.seg)])

def validateConstruction (node : Node) : Except Exc (Option Str) :=
  match node with
  | .assign p targets (.call q (.name _ cls) args kws) =>
    match argSchema cls.name with
    | none => .ok none
    | some none =>
      fail (mkLoc path q) (quoted cls.name ++
        " is a known xmix class but has no args schema in SPEC; add one so its construction can be validated".toList) []
    | some (some schema) => do
      let keys := schema.map Prod.fst
      if args.length > keys.length then
        fail (mkLoc path q) (cls.name ++ " takes at most ".toList ++ natStr keys.length ++ " positional args".toList) []
      else
        let positional := (keys.zip args).map fun (k, a) => (k, a.pos.seg)
        let provided ← kws.foldlM (provideKeyword path q cls.name schema) positional
        let missing := schema.filter fun (k, d) => d.isNone && (provided.lookup k).isNone
        if missing ≠ [] then
          fail (mkLoc path q) (cls.name ++ ": missing required argument(s): ".toList ++
            join ", ".toList (missing.map Prod.fst)) []
        else if keys.all fun k => (provided.lookup k).isSome then return none
        else match targets with
          | [target] =>
            let parts := schema.map fun (k, d) => k ++ '=' :: (provided.lookup k).getD (d.getD [])
            return some (target.pos.seg ++ " = ".toList ++ cls.name ++ '(' :: join ", ".toList parts ++ [')'])
          | _ =>
            fail (mkLoc path p) (cls.name ++ ": cannot inject defaults into a multi-target assignment".toList) []
  | _ => .ok none

def mStatement : Node → Option Expr
  | .expr _ (.call p func args kws) =>
    match (flattenChain (.call p func args kws)).1 with
    | .name _ id => if id.name = ['m'] then some (.call p func args kws) else none
    | _ => none
  | _ => none

def collectAssignment (node : Node) (classMap : ClassMap) : ClassMap :=
  match node with
  | .assign _ targets (.call _ (.name _ cls) _ _) =>
    targets.foldl (fun cm t => match dottedName t with | some d => (d, cls) :: cm | none => cm) classMap
  | _ => classMap

def segmentTargets : Node → List Dotted
  | .assign _ targets _ => targets.filterMap dottedName
  | _ => []

/-! ### Pragmas -/

def modelPragma (line : Str) : Option Str :=
  (words [.lit ['#'], .spaces, .lit "model".toList, .spaces, .lit [':'], .spaces, .word] (strip line)).bind List.head?

def scanModelLine (found : Option Model) (entry : Str × Nat) : Except Exc (Option Model) :=
  let (raw, lineno) := entry
  match modelPragma raw with
  | none => .ok found
  | some name =>
    match Model.all.find? (·.name = name) with
    | none => fail ⟨path, lineno, 0⟩ ("unknown model ".toList ++ quoted name) (Model.all.map Model.name)
    | some m =>
      match found with
      | some m' =>
        if m' = m then .ok (some m)
        else fail ⟨path, lineno, 0⟩ ("conflicting #model: pragmas (".toList ++ quoted m'.name ++ " vs ".toList ++
          quoted name ++ [')']) []
      | none => .ok (some m)

def numberedLines (src : Str) : List (Str × Nat) := (splitlines src).zipIdx 1

def scanModel (src path : Str) : Except Exc Model := do
  let found ← (numberedLines src).foldlM (scanModelLine path) none
  return found.getD Model.default

def detectorMarker (what : String) (line : Str) : Bool :=
  (scan [.lit ['#'], .spaces, .lit "token_detector".toList, .spaces, .lit [':'], .spaces, .lit what.toList, .boundary]
    (strip line)).isSome

def scanInitLine (st : Option Nat × List (Nat × Nat)) (entry : Str × Nat) :
    Except Exc (Option Nat × List (Nat × Nat)) :=
  let (openLine, ranges) := st
  let (raw, lineno) := entry
  if detectorMarker "init" raw then
    match openLine with
    | some _ => fail ⟨path, lineno, 0⟩ "#token_detector: init nested inside another init block".toList []
    | none => .ok (some lineno, ranges)
  else if detectorMarker "end" raw then
    match openLine with
    | none => fail ⟨path, lineno, 0⟩ "#token_detector: end without a matching #token_detector: init".toList []
    | some begin_ => .ok (none, ranges ++ [(begin_, lineno)])
  else .ok st

def scanInitBlocks (src path : Str) : Except Exc (List (Nat × Nat)) := do
  match ← (numberedLines src).foldlM (scanInitLine path) (none, []) with
  | (some openLine, _) =>
    fail ⟨path, openLine, 0⟩ "#token_detector: init block not closed with #token_detector: end".toList []
  | (none, ranges) => return ranges

structure PreNode where
  lineno : Nat
  text : Str
  targets : List Dotted

def blockOwners (preNodes : List PreNode) (classMap : ClassMap) (range : Nat × Nat) : List ModelCond :=
  (preNodes.filter fun n => range.1 < n.lineno && n.lineno < range.2).flatMap fun n =>
    n.targets.filterMap fun t =>
      match (classMap.lookup t).bind fun cls => lookupCls cls.name with
      | some (.model c) => some c
      | _ => none

def resolveInitBlocks (ranges : List (Nat × Nat)) (preNodes : List PreNode) (classMap : ClassMap) :
    Except Exc (List ((Nat × Nat) × ModelCond)) :=
  ranges.mapM fun range =>
    match blockOwners preNodes classMap range with
    | [owner] => .ok (range, owner)
    | [] =>
      fail ⟨path, range.1, 0⟩
        "#token_detector: init block must construct a model-scope instance (e.g. EOLTokenDetector)".toList []
    | owners =>
      fail ⟨path, range.1, 0⟩ ("#token_detector: init block builds multiple model-scope instances ".toList ++
        reprNames (owners.map fun c => c.spec.name) ++ "; use one block each".toList) []

def ownerCls (lineno : Nat) (rangeCls : List ((Nat × Nat) × ModelCond)) : Option ModelCond :=
  (rangeCls.find? fun (range, _) => range.1 < lineno && lineno < range.2).map Prod.snd

/-! ### The whole file -/

structure FirstPass where
  classMap : ClassMap
  stmtNodes : List Expr
  preNodes : List PreNode

def firstPassNode (st : FirstPass) (node : Node) : Except Exc FirstPass :=
  match mStatement node with
  | some call => .ok { st with stmtNodes := st.stmtNodes ++ [call] }
  | none => do
    let augmented ← validateConstruction path node
    return { classMap := collectAssignment node st.classMap, stmtNodes := st.stmtNodes,
             preNodes := st.preNodes ++ [⟨node.pos.line, augmented.getD node.pos.seg, segmentTargets node⟩] }

def parseAndValidate (f : XmixFile) : Except Exc ParseResult :=
  match f.tree with
  | .error (lineno, offset, msg) =>
    fail ⟨f.path, (lineno.filter (· ≠ 0)).getD 1, (offset.filter (· ≠ 0)).getD 1 - 1⟩
      ("invalid Python syntax in xmix file: ".toList ++ msg) []
  | .ok body => do
    let st ← body.foldlM (firstPassNode f.path) ⟨[], [], []⟩
    let ranges ← scanInitBlocks f.src f.path
    let rangeCls ← resolveInitBlocks f.path ranges st.preNodes st.classMap
    let preamble := st.preNodes.map fun n => ⟨n.text, n.targets, ownerCls n.lineno rangeCls⟩
    let statements ← st.stmtNodes.mapM (parseStatement f.path st.classMap)
    let model ← scanModel f.src f.path
    return ⟨preamble, statements, model⟩

/-! ### What the parser accepts -/

def Statement.ArityOk (stmt : Statement) : Prop :=
  ∀ args, stmt.steerer = .synth args → args.length = stmt.opName.spec.arity

theorem fail_ne_ok {α : Type} {loc : SourceLoc} {msg : Str} {alts : List Str} {a : α} : fail loc msg alts ≠ .ok a := by
  simp [fail]

section Parts
variable {path : Str} {cm : ClassMap}

theorem checkMethod_eq_ok {p : Pos} {cls method : Ident} {expected : Str} {u : Unit}
    (h : checkMethod path p cls method expected = .ok u) : method.name = expected := by
  unfold checkMethod at h
  split at h
  · next heq => exact heq
  · exact absurd h fail_ne_ok

theorem lookupOp_eq_ok {p : Pos} {cls : Ident} {op : Op} (h : lookupOp path p cls = .ok op) : op.name = cls.name := by
  unfold lookupOp at h
  split at h
  · next op' hfind =>
    cases h
    simpa using List.find?_some hfind
  · exact absurd h fail_ne_ok

theorem parseOpArg_eq_ok {opCall : Expr} {op : Op}
    {steerer : Steerer} (h : parseOpArg path opCall cm = .ok (op, steerer)) :
    (∃ p q n cls args kws method ids, noKeywords path opCall ".write(...)".toList =
      .ok [.attribute p (.call q (.name n cls) args kws) method] ∧
      expectNameArgs path (.call q (.name n cls) args kws) cls.name = .ok ids ∧ op.name = cls.name ∧
        ids.length = op.spec.arity ∧
      method.name = op.spec.method ∧ steerer = .synth ids) ∨
    ∃ p value method inst cls, noKeywords path opCall ".write(...)".toList =
      .ok [.attribute p value method] ∧ dottedName value = some inst ∧
      cm.lookup inst = some cls ∧ op.name = cls.name ∧ method.name = op.spec.method ∧ steerer = .inst inst := by
  unfold parseOpArg at h
  obtain ⟨cargs, hcargs, h⟩ := bind_eq_ok.1 h
  split at h
  · next p q n cls args kws method =>
    obtain ⟨op', hop, h⟩ := bind_eq_ok.1 h
    obtain ⟨ids, hids, h⟩ := bind_eq_ok.1 h
    split at h
    · exact absurd h fail_ne_ok
    · next harity =>
      obtain ⟨u, hmethod, h⟩ := bind_eq_ok.1 h
      cases h
      exact .inl ⟨p, q, n, cls, args, kws, method, ids, hcargs, hids, lookupOp_eq_ok hop,
        not_not.1 harity, checkMethod_eq_ok hmethod, rfl⟩
  · next p value method _ =>
    split at h
    · exact absurd h fail_ne_ok
    · next inst hinst =>
      split at h
      · exact absurd h fail_ne_ok
      · next cls hcls =>
        obtain ⟨op', hop, h⟩ := bind_eq_ok.1 h
        obtain ⟨u, hmethod, h⟩ := bind_eq_ok.1 h
        cases h
        exact .inr ⟨p, value, method, inst, cls, hcargs, hinst, hcls, lookupOp_eq_ok hop,
          checkMethod_eq_ok hmethod, rfl⟩
  · exact absurd h fail_ne_ok
  · exact absurd h fail_ne_ok

theorem perLayer_eq_ok {p : Pos} {t : CondTail} {layers : LayerList} {sub : Submodule}
    (h : t.perLayer path p = .ok (layers, sub)) : t.layers = some layers ∧ t.submodule = some sub := by
  unfold CondTail.perLayer at h
  split at h
  · exact absurd h fail_ne_ok
  · exact absurd h fail_ne_ok
  · next hl hs => cases h; exact ⟨hl, hs⟩

section Cond
variable {p : Pos} {first : Ident × Expr} {rest : List (Ident × Expr)} {c : CondClause}

theorem parseCondProbe_eq_ok {probe : ProbeOp} (h : parseCondProbe path p probe first rest = .ok c) :
    ∃ weights threshold t layers sub, first.1.name = CompareOp.biggerThan.name ∧
      expectNameArgs path first.2 (probe.name ++ '.' :: first.1.name) = .ok [weights, threshold] ∧
      rest.foldlM (condTailLink path false) ⟨none, none, false⟩ = .ok t ∧ t.layers = some layers ∧
      t.submodule = some sub ∧ c = .probe probe .biggerThan weights threshold layers sub (mkLoc path p) := by
  unfold parseCondProbe at h
  dsimp only at h
  split at h
  · exact absurd h fail_ne_ok
  · next hcompare =>
    obtain ⟨args, hargs, h⟩ := bind_eq_ok.1 h
    split at h
    · obtain ⟨t, ht, h⟩ := bind_eq_ok.1 h
      obtain ⟨⟨layers, sub⟩, hper, h⟩ := bind_eq_ok.1 h
      cases h
      obtain ⟨hl, hs⟩ := perLayer_eq_ok hper
      exact ⟨_, _, t, layers, sub, not_not.1 hcompare, hargs, ht, hl, hs, rfl⟩
    · exact absurd h fail_ne_ok

theorem parseCondInstance_eq_ok {inst : Dotted} {cls : Ident}
    (h : parseCondInstance path p inst first rest cls = .ok c) :
    ∃ gate t, first.1.name = "gates".toList ∧ parseGates path first.2 = .ok gate ∧
      rest.foldlM (condTailLink path true) ⟨none, none, false⟩ = .ok t ∧
      ((∃ k, lookupCls cls.name = some (.model k) ∧ t.modelLevel = true ∧ t.submodule = none ∧
          c = .model inst k gate (mkLoc path p)) ∨
        ∃ k layers sub, lookupCls cls.name = some (.layer k) ∧ t.layers = some layers ∧ t.submodule = some sub ∧
          c = .gates inst k gate layers sub (mkLoc path p)) := by
  unfold parseCondInstance at h
  split at h
  · exact absurd h fail_ne_ok
  · next condCls hcls =>
    dsimp only at h
    split at h
    · exact absurd h fail_ne_ok
    · next hverb =>
      obtain ⟨gate, hgate, h⟩ := bind_eq_ok.1 h
      obtain ⟨t, ht, h⟩ := bind_eq_ok.1 h
      refine ⟨gate, t, not_not.1 hverb, hgate, ht, ?_⟩
      split at h
      · next hmodel =>
        split at h
        · exact absurd h fail_ne_ok
        · next hsub =>
          split at h
          · cases h
            exact .inl ⟨_, hcls, hmodel, by simpa using hsub, rfl⟩
          · exact absurd h fail_ne_ok
      · obtain ⟨⟨layers, sub⟩, hper, h⟩ := bind_eq_ok.1 h
        obtain ⟨hl, hs⟩ := perLayer_eq_ok hper
        split at h
        · cases h
          exact .inr ⟨_, layers, sub, hcls, hl, hs, rfl⟩
        · exact absurd h fail_ne_ok

end Cond

theorem parseCond_eq_ok {call : Expr} {c : CondClause} (h : parseCond path call cm = .ok c) :
    ∃ e base first rest, noKeywords path call ".cond(...)".toList = .ok [e] ∧ flattenChain e = (base, first :: rest) ∧
      ((∃ q id, base = .name q id ∧ id.name = ProbeOp.linearProbe.name ∧
          parseCondProbe path call.pos .linearProbe first rest = .ok c) ∨
        ∃ inst cls, dottedName base = some inst ∧ cm.lookup inst = some cls ∧
          parseCondInstance path call.pos inst first rest cls = .ok c) := by
  unfold parseCond at h
  obtain ⟨args, hargs, h⟩ := bind_eq_ok.1 h
  split at h
  · split at h
    · exact absurd h fail_ne_ok
    · next base first rest hchain =>
      refine ⟨_, base, first, rest, hargs, hchain, ?_⟩
      split at h
      · next q id =>
        split at h
        · next hid => exact .inl ⟨q, id, rfl, hid, h⟩
        · split at h
          · next cls hcls => exact .inr ⟨⟨id, []⟩, cls, rfl, hcls, h⟩
          · exact absurd h fail_ne_ok
      · split at h
        · exact absurd h fail_ne_ok
        · next inst hdot =>
          split at h
          · next cls hcls => exact .inr ⟨inst, cls, hdot, hcls, h⟩
          · exact absurd h fail_ne_ok
  · exact absurd h fail_ne_ok

theorem parseStatement_parts {call : Expr} {stmt : Statement} (h : parseStatement path cm call = .ok stmt) :
    ∃ n m verb opCall links tail, flattenChain call = (.name n m, (verb, opCall) :: links) ∧ m.name = ['m'] ∧
      resolveVerb path opCall verb = .ok stmt.op ∧ parseOpArg path opCall cm = .ok (stmt.opName, stmt.steerer) ∧
      links.foldlM (stmtLink path cm) ⟨none, none, none⟩ = .ok tail ∧ tail.layers = some stmt.layers ∧
      tail.submodule = some stmt.submodule ∧ tail.cond = stmt.cond := by
  unfold parseStatement at h
  split at h
  · next n m verb opCall links hchain =>
    split at h
    · exact absurd h fail_ne_ok
    · next hm =>
      obtain ⟨op, hop, h⟩ := bind_eq_ok.1 h
      obtain ⟨⟨opName, steerer⟩, harg, h⟩ := bind_eq_ok.1 h
      obtain ⟨tail, htail, h⟩ := bind_eq_ok.1 h
      split at h
      · exact absurd h fail_ne_ok
      · exact absurd h fail_ne_ok
      · next layers sub hl hs =>
        cases h
        exact ⟨n, m, verb, opCall, links, tail, hchain, not_not.1 hm, hop, harg, htail, hl, hs, rfl⟩
  · split at h <;> exact absurd h fail_ne_ok
  · exact absurd h fail_ne_ok

end Parts

theorem parseOpArg_arity {path : Str} {opCall : Expr} {classMap : ClassMap} {op : Op} {steerer : Steerer}
    (h : parseOpArg path opCall classMap = .ok (op, steerer)) (args : List Ident) (hs : steerer = .synth args) :
    args.length = op.spec.arity := by
  subst hs
  rcases parseOpArg_eq_ok h with ⟨_, _, _, _, _, _, _, ids, -, -, -, harity, -, hids⟩ |
    ⟨_, _, _, inst, _, -, -, -, -, -, hinst⟩
  · cases hids
    exact harity
  · cases hinst

theorem parseStatement_arity {path : Str} {classMap : ClassMap} {call : Expr} {stmt : Statement}
    (h : parseStatement path classMap call = .ok stmt) : stmt.ArityOk := by
  obtain ⟨_, _, _, opCall, _, _, -, -, -, harg, -⟩ := parseStatement_parts h
  exact fun args hs => parseOpArg_arity harg args hs

theorem parseAndValidate_arity {f : XmixFile} {r : ParseResult} (h : parseAndValidate f = .ok r) :
    ∀ stmt ∈ r.statements, stmt.ArityOk := by
  unfold parseAndValidate at h
  split at h
  · exact absurd h fail_ne_ok
  · obtain ⟨st, -, h⟩ := bind_eq_ok.1 h
    obtain ⟨ranges, -, h⟩ := bind_eq_ok.1 h
    obtain ⟨rangeCls, -, h⟩ := bind_eq_ok.1 h
    obtain ⟨statements, hst, h⟩ := bind_eq_ok.1 h
    obtain ⟨model, -, h⟩ := bind_eq_ok.1 h
    simp only [pure_eq_ok] at h
    subst h
    intro stmt hmem
    obtain ⟨call, -, hcall⟩ := exists_of_mem_mapM hst hmem
    exact parseStatement_arity hcall

/-! ### Writing files down -/

namespace Written

def here (seg : String) : Pos := ⟨1, 0, seg.toList⟩

def ident (s : String) (h : s.toList ≠ [] ∧ s.toList.all isIdentChar = true) : Ident := ⟨s.toList, h.1, h.2⟩

def name (id : Ident) : Expr := .name (here "") id

def link (base : Expr) (attr : Ident) (args : List Expr) : Expr :=
  .call (here "") (.attribute (here "") base attr) args []

def ints (ns : List Nat) : Expr := .list (here "") (ns.map fun n => .int (here "") n)

def str (s : String) : Expr := .str (here "") s.toList

def m : Expr := name (ident "m" (by decide))

def self : Ident := ident "self" (by decide)

def vName : Ident := ident "v" (by decide +kernel)

def uName : Ident := ident "u" (by decide)

def cName : Ident := ident "c" (by decide)

def dName : Ident := ident "d" (by decide)

def selfAttr (attr : Ident) : Expr := .attribute (here "") (name self) attr

def run (e : Expr) : Expr := .attribute (here "") e (ident "run" (by decide))

def write (e : Expr) : Expr := link m (ident "write" (by decide)) [e]

def layer (e arg : Expr) : Expr := link e (ident "layer" (by decide)) [arg]

def layers (e : Expr) (ns : List Nat) : Expr := link e (ident "layers" (by decide)) [ints ns]

def submodule (e : Expr) (s : String) : Expr := link e (ident "submodule" (by decide)) [str s]

def cond (e c : Expr) : Expr := link e (ident "cond" (by decide)) [c]

def gates (inst : Expr) (buffer : String) : Expr := link inst (ident "gates" (by decide)) [str buffer]

def build (attr cls : Ident) (args : List String) : Node :=
  .assign ⟨1, 0, "self.".toList ++ attr.name ++ " = ".toList ++ cls.name ++
    '(' :: join ", ".toList (args.map String.toList) ++
    [')']⟩ [selfAttr attr] (.call (here "") (name cls) (args.map fun s => .other (here s)) [])

def adder (attr : Ident) : Node := build attr (ident "SteeringVectorAdder" (by decide)) ["r", "scales", "ids", "n"]

def scorer (attr : Ident) : Node := build attr (ident "CondProjCosSim" (by decide)) ["p", "t"]

def stmt (e : Expr) : Node := .expr (here "") e

def arg1 : Expr := name (ident "arg1" (by decide))

def steered : Expr := write (run (.call (here "") (name (ident "SteeringVector" (by decide))) [arg1] []))

def probed (args : List Expr) (n : Nat) (s : String) : Expr :=
  submodule (layer (link (name (ident "LinearProbe" (by decide)))
    (ident "biggerThan" (by decide)) args) (ints [n])) s

end Written

open Written in
def steerFile : XmixFile where
  path := "steer.xmix".toList
  src := []
  tree := .ok [stmt (cond (submodule (layers steered [23, 24, 25]) "attention.post")
    (probed [name (ident "cond_arg1" (by decide)), name (ident "cond_arg2" (by decide))] 18 "mlp.post"))]

open Written in
def adderFile : XmixFile where
  path := "adder.xmix".toList
  src := []
  tree := .ok
    [adder vName,
      stmt (submodule (layer (write (run (selfAttr vName))) (ints [3])) "mlp.post")]

open Written in
def adderStmt : Statement where
  op := .write
  opName := .steeringVectorAdder
  steerer := .inst ⟨self, [vName]⟩
  layers := .only ⟨[3], by simp⟩
  submodule := .mlpPost
  cond := none
  loc := ⟨"adder.xmix".toList, 1, 0⟩

example : (parseAndValidate adderFile).map (fun r => (r.statements, r.preamble.map PreambleSegment.text, r.model)) =
    .ok ([adderStmt], ["self.v = SteeringVectorAdder(r, scales, ids, n)".toList], .llama) := rfl

end Xmix.Dsl
