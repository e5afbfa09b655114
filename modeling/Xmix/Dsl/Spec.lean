import Xmix.PyStr

/-!
# The SPEC of the DSL and its intermediate representation

`xmix/spec.py` as total functions on enumerations (every key of a `SPEC` table is a constructor, so
a table lookup cannot fail) and `xmix/ir.py` as types. The dataclasses of `ir.py` are flat; here a
`.cond` clause is one of its three accepted forms and a layer set is `"all"` or a non-empty list, so
that what the parser rejects cannot be written down.
-/

namespace Xmix.Dsl
open PyStr

def isIdentChar (c : Char) : Bool := c.isAlphanum || c == '_' || (128 ≤ c.toNat && !isSpace c)

structure Ident where
  name : Str
  ne_nil : name ≠ []
  chars : name.all isIdentChar = true
deriving DecidableEq

structure Dotted where
  head : Ident
  attrs : List Ident
deriving DecidableEq

def Dotted.str (d : Dotted) : Str := d.head.name ++ d.attrs.flatMap fun a => '.' :: a.name

inductive Flag where
  | w
  | r
deriving DecidableEq, Repr

def Flag.name : Flag → Str
  | .w => ['w']
  | .r => ['r']

/-! ### Anchors and models -/

inductive Anchor where
  | runnerSetup
  | runnerPostload
  | modelConstruct
  | modelForward
deriving DecidableEq, Repr

def Anchor.name : Anchor → Str
  | .runnerSetup => "runner_setup".toList
  | .runnerPostload => "runner_postload".toList
  | .modelConstruct => "model_construct".toList
  | .modelForward => "model_forward".toList

inductive Model where
  | llama
  | qwen
  | mixtral
deriving DecidableEq, Repr

namespace Model

def all : List Model := [.llama, .qwen, .mixtral]

def name : Model → Str
  | .llama => "llama".toList
  | .qwen => "qwen".toList
  | .mixtral => "mixtral".toList

def runnerFile : Str := "vllm/v1/worker/gpu_model_runner.py".toList

def modelFile : Model → Str
  | .llama => "vllm/model_executor/models/llama.py".toList
  | .qwen => "vllm/model_executor/models/qwen3.py".toList
  | .mixtral => "vllm/model_executor/models/mixtral.py".toList

def anchorFile (m : Model) : Anchor → Str
  | .runnerSetup => runnerFile
  | .runnerPostload => runnerFile
  | .modelConstruct => m.modelFile
  | .modelForward => m.modelFile

def default : Model := .llama

end Model

def allAnchorFiles : List Str :=
  sortedSet (Model.all.flatMap fun m =>
    [m.anchorFile .runnerSetup, m.anchorFile .runnerPostload, m.anchorFile .modelConstruct, m.anchorFile .modelForward])

example : allAnchorFiles = [Model.llama.modelFile, Model.mixtral.modelFile, Model.qwen.modelFile,
    Model.runnerFile] := by
  decide

/-! ### Submodules, ops and conditions -/

inductive Submodule where
  | attentionPost
  | mlpPost
  | normPreMlp
deriving DecidableEq, Repr

namespace Submodule

def all : List Submodule := [.attentionPost, .mlpPost, .normPreMlp]

def name : Submodule → Str
  | .attentionPost => "attention.post".toList
  | .mlpPost => "mlp.post".toList
  | .normPreMlp => "norm.pre_mlp".toList

def setter : Submodule → Str
  | .attentionPost => "set_post_attn_pre_norm_hook".toList
  | .mlpPost => "set_post_mlp_hook".toList
  | .normPreMlp => "set_post_norm_pre_mlp_hook".toList

def arity (_ : Submodule) : Flag → Nat
  | .w => 3
  | .r => 1

end Submodule

abbrev ArgSchema := List (Str × Option Str)

inductive BuildKind where
  | steeringVectorAdder
deriving DecidableEq, Repr

structure OpSpec where
  clsPath : Str
  flag : Flag
  arity : Nat
  method : Str
  buildKind : Option BuildKind
  args : Option ArgSchema

inductive Op where
  | steeringVector
  | steeringVectorDotSubtractNormalized
  | steeringVectorAdder
  | steeringVectorScaledAdder
  | steeringLinear
  | linearProbe
deriving DecidableEq, Repr

namespace Op

def all : List Op :=
  [.steeringVector, .steeringVectorDotSubtractNormalized, .steeringVectorAdder, .steeringVectorScaledAdder,
    .steeringLinear, .linearProbe]

def name : Op → Str
  | .steeringVector => "SteeringVector".toList
  | .steeringVectorDotSubtractNormalized => "SteeringVectorDotSubtractNormalized".toList
  | .steeringVectorAdder => "SteeringVectorAdder".toList
  | .steeringVectorScaledAdder => "SteeringVectorScaledAdder".toList
  | .steeringLinear => "SteeringLinear".toList
  | .linearProbe => "LinearProbe".toList

def required (name : String) : Str × Option Str := (name.toList, none)

def optional (name default : String) : Str × Option Str := (name.toList, some default.toList)

def spec : Op → OpSpec
  | .steeringVector =>
    ⟨"vllm.activations_extractor.write_activations.SteeringVectorAdder".toList, .w, 1, "run".toList,
      some .steeringVectorAdder, none⟩
  | .steeringVectorDotSubtractNormalized =>
    ⟨"vllm.activations_extractor.write_activations.SteeringVectorDotSubtractNormalized".toList, .w, 0,
      "run".toList, none,
      some [optional "hidden_size" "self.model_config.hidden_size", optional "max_tokens" "2048",
        required "steering_vector", required "vec_indices", optional "dtype" "self.model_config.dtype",
        optional "device" "self.device"]⟩
  | .steeringVectorAdder =>
    ⟨"vllm.activations_extractor.write_activations.SteeringVectorAdder".toList, .w, 0, "run".toList, none,
      some [required "r", required "scales", required "vec_indices", required "n_vecs_per_token"]⟩
  | .steeringVectorScaledAdder =>
    ⟨"vllm.activations_extractor.write_activations.SteeringVectorScaledAdder".toList, .w, 0, "run".toList, none,
      some [required "r", required "coeff", optional "max_tokens" "2048"]⟩
  | .steeringLinear =>
    ⟨"vllm.activations_extractor.write_activations.SteeringLinear".toList, .w, 0, "run".toList, none,
      some [required "W", required "b", required "vec_indices", optional "max_tokens" "2048"]⟩
  | .linearProbe =>
    ⟨"vllm.activations_extractor.read_activations.LinearProbe".toList, .r, 0, "run".toList, none,
      some [required "weights", required "bias", optional "max_tokens" "2048"]⟩

def methodArity : Op → Nat
  | .linearProbe => 1
  | _ => 3

@[simp] theorem arity_steeringVector : Op.steeringVector.spec.arity = 1 := rfl

@[simp] theorem buildKind_steeringVector : Op.steeringVector.spec.buildKind = some .steeringVectorAdder := rfl

theorem buildKind_of_ne {op : Op} (h : op ≠ .steeringVector) : op.spec.buildKind = none := by
  cases op with
  | steeringVector => exact absurd rfl h
  | _ => rfl

end Op

def clsName (dotted : Str) : Str := (splitAt '.' dotted).getLastD []

inductive ProbeOp where
  | linearProbe
deriving DecidableEq, Repr

def ProbeOp.name : ProbeOp → Str
  | .linearProbe => "LinearProbe".toList

def ProbeOp.clsPath : ProbeOp → Str
  | .linearProbe => "vllm.activations_extractor.read_activations.LinearProbe".toList

def ProbeOp.flag : ProbeOp → Flag
  | .linearProbe => .r

inductive CompareOp where
  | biggerThan
deriving DecidableEq, Repr

def CompareOp.name : CompareOp → Str
  | .biggerThan => "biggerThan".toList

inductive LayerCond where
  | condProjCosSim
deriving DecidableEq, Repr

inductive ModelCond where
  | eolTokenDetector
deriving DecidableEq, Repr

structure CondSpec where
  name : Str
  flag : Flag
  method : Str
  plugFn : Str
  plugKind : Option Str
  args : ArgSchema

def LayerCond.spec : LayerCond → CondSpec
  | .condProjCosSim =>
    ⟨"CondProjCosSim".toList, .r, "run".toList, "set_output_buffers".toList, some "out_bool".toList,
      [Op.required "condition_projector", Op.required "threshold", Op.optional "max_tokens" "2048"]⟩

structure ModelCondSpec extends CondSpec where
  modelAttr : Str
  dest : Str
  destAnchor : Anchor
  runDest : Str
  runAnchor : Anchor

def ModelCond.spec : ModelCond → ModelCondSpec
  | .eolTokenDetector =>
    { name := "EOLTokenDetector".toList
      flag := .r
      method := "run".toList
      plugFn := "set_output_buffers".toList
      plugKind := none
      args := [Op.required "eol_token_ids", Op.optional "vocab_size" "self.vocab_size",
        Op.optional "max_tokens" "2048", Op.optional "device" "self.device"]
      modelAttr := "token_detector".toList
      dest := "model file — model construction (e.g. init_token_detector)".toList
      destAnchor := .modelConstruct
      runDest := "model file — Model.forward (injected at the model_forward anchor)".toList
      runAnchor := .modelForward }

def runnerSetupLabel : Str := "gpu_model_runner — constructed once (e.g. in __init__/setup)".toList

def runnerPostloadLabel : Str := "gpu_model_runner — after load_model (install hooks + wire buffers)".toList

/-! ### Intermediate representation -/

inductive OpKind where
  | write
  | read
deriving DecidableEq, Repr

structure SourceLoc where
  file : Str
  line : Nat
  col : Nat
deriving DecidableEq, Repr

structure LayerList where
  layers : List Nat
  ne_nil : layers ≠ []
deriving DecidableEq

inductive LayerSpec where
  | all
  | only (ls : LayerList)
deriving DecidableEq

structure Gate where
  buffer : Str
  plugFn : Option Str
  plugKind : Option Str
deriving DecidableEq, Repr

inductive CondClause where
  /-- `LinearProbe.biggerThan(weights, threshold).layer([..]).submodule("..")` -/
  | probe (op : ProbeOp) (compare : CompareOp) (weights threshold : Ident) (layers : LayerList) (submodule : Submodule)
      (loc : SourceLoc)
  /-- `<instance>.gates(..).layer([..]).submodule("..")` -/
  | gates (inst : Dotted) (cls : LayerCond) (gate : Gate) (layers : LayerList) (submodule : Submodule) (loc : SourceLoc)
  /-- `<instance>.gates(..).layer("model")` -/
  | model (inst : Dotted) (cls : ModelCond) (gate : Gate) (loc : SourceLoc)
deriving DecidableEq

inductive Steerer where
  | synth (args : List Ident)
  | inst (expr : Dotted)
deriving DecidableEq

structure Statement where
  op : OpKind
  opName : Op
  steerer : Steerer
  layers : LayerSpec
  submodule : Submodule
  cond : Option CondClause
  loc : SourceLoc
deriving DecidableEq

structure PreambleSegment where
  text : Str
  targets : List Dotted
  blockCls : Option ModelCond
deriving DecidableEq

structure ParseResult where
  preamble : List PreambleSegment
  statements : List Statement
  model : Model

structure XmixError where
  loc : Option SourceLoc
  msg : Str
  alternatives : List Str
deriving DecidableEq, Repr

inductive Exc where
  | xmix (e : XmixError)
  /-- reading `.args` of a subscript -/
  | attributeError
deriving DecidableEq, Repr

end Xmix.Dsl
