import Xmix.Apply.Overlay
import Xmix.Apply.Synth
import Xmix.Dsl.Spec

/-!
# The commands

`cmd_apply` and `cmd_revert` of `xmix/apply.py` over a file system. Two paths may name one file, so a
path is looked up to an inode. What `cmd_apply` has written stays written when a later file fails:
it returns the file system it leaves together with the exception, if any.
-/

namespace Xmix.Apply
open PyStr LinePattern

structure Fs where
  inode : Str → Option Nat
  text : Nat → Str
  out : Str

namespace Fs

def readText (fs : Fs) (path : Str) : Except Exc Str :=
  match fs.inode path with
  | none => .error (.fileNotFound path)
  | some i => .ok (universalNewlines (fs.text i))

def writeText (fs : Fs) (path text : Str) : Fs :=
  match fs.inode path with
  | none => fs
  | some i => { fs with text := fun j => if j = i then text else fs.text j }

def lines (fs : Fs) (path : Str) : List Str :=
  match fs.inode path with
  | none => []
  | some i => splitlines (universalNewlines (fs.text i))

end Fs

/-! ### Planning an apply -/

structure Plan where
  items : List (Str × Block)
  apps : List Str
  fps : List (Str × List Footprint)
deriving DecidableEq

def duplicateMsg (app : Str) : Str := "duplicate app id '".toList ++ app ++ "' in this invocation".toList

def noBlocksMsg (path : Str) : Str := "no XMIX-APPLY blocks found in ".toList ++ path

variable (fs : Fs) (paths : List Str) (override : Option Str) (plan : Plan)

def readOne (path : Str) : Except Exc Plan := do
  let app := appIdFrom path override
  if app ∈ plan.apps then throw (.applyError (duplicateMsg app))
  let text ← fs.readText path
  let blocks := parseBlocks text
  if blocks.isEmpty then throw (.applyError (noBlocksMsg path))
  let fps ← parseFootprints text
  return ⟨plan.items ++ blocks.map fun b => (b.file, ⟨b.anchor, app, b.code⟩), plan.apps ++ [app],
    plan.fps ++ [(app, fps)]⟩

theorem readOne_eq_ok {fs : Fs} {override : Option Str} {plan plan' : Plan} {path : Str} :
    readOne fs override plan path = .ok plan' ↔ ∃ text fps, appIdFrom path override ∉ plan.apps ∧
      fs.readText path = .ok text ∧
      parseBlocks text ≠ [] ∧ parseFootprints text = .ok fps ∧
      plan' = ⟨plan.items ++ (parseBlocks text).map fun b => (b.file, ⟨b.anchor, appIdFrom path override, b.code⟩),
        plan.apps ++ [appIdFrom path override], plan.fps ++ [(appIdFrom path override, fps)]⟩ := by
  unfold readOne
  by_cases hdup : appIdFrom path override ∈ plan.apps
  · simp [hdup, throw, throwThe, MonadExceptOf.throw]
  cases htext : fs.readText path with
  | error e => simp [hdup]
  | ok text =>
    by_cases hb : parseBlocks text = []
    · simp [hdup, hb, throw, throwThe, MonadExceptOf.throw]
    cases hfps : parseFootprints text with
    | error e => simp [hdup, hb, hfps]
    | ok fps =>
      simp only [hdup, if_false, Except.ok_bind, hb, List.isEmpty_iff, hfps, Except.pure_eq_ok, ne_eq,
        not_false_eq_true, true_and]
      constructor
      · rintro rfl
        exact ⟨text, fps, rfl, hb, hfps, rfl⟩
      · rintro ⟨_, _, htext', -, hfps', rfl⟩
        cases htext'
        cases hfps.symm.trans hfps'
        rfl

def readPlan : Except Exc Plan :=
  paths.foldlM (readOne fs override) ⟨[], [], []⟩

def Plan.footprints : List (Str × Footprint) := plan.fps.flatMap fun a => a.2.map fun fp => (a.1, fp)

def scanApplied : Except Exc (List (Str × Footprint)) := do
  let found ← Dsl.allAnchorFiles.mapM fun file => scanFile (fs.lines file)
  return found.flatten

def conflicts (a b : Str × Footprint) : Bool :=
  a.2.flag == b.2.flag && a.2.submodule == b.2.submodule && overlap a.2.layers b.2.layers

def findConflict (existing : List (Str × Footprint)) :
    List (Str × Footprint) → Option ((Str × Footprint) × (Str × Footprint))
  | [] => none
  | a :: rest =>
    match (rest ++ existing).find? (conflicts a) with
    | some b => some (a, b)
    | none => findConflict existing rest

def conflictMsg (a b : Str × Footprint) : Str :=
  ['\''] ++ a.1 ++ "' conflicts with '".toList ++ b.1 ++ "' at (".toList ++ a.2.flag ++ ", ".toList ++ a.2.submodule ++
    ") layers ".toList ++ overlapStr a.2.layers b.2.layers ++
    "; nothing applied (only one hook would survive at that slot)".toList

def checkConflicts : Except Exc Unit := do
  let existing ← scanApplied fs
  -- the batch's own apps are refreshed
  match findConflict (existing.filter fun e => !plan.apps.contains e.1) plan.footprints with
  | some (a, b) => throw (.applyError (conflictMsg a b))
  | none => return ()

def blocksFor (items : List (Str × Block)) (file : Str) : List Block := (items.filter (·.1 == file)).map Prod.snd

def byFile (items : List (Str × Block)) : List (Str × List Block) :=
  (items.map Prod.fst).eraseDups.map fun file => (file, blocksFor items file)

def missingIn (group : Str × List Block) : List Str :=
  match fs.inode group.1 with
  | none => [group.1 ++ " (file not found)".toList]
  | some _ =>
    ((group.2.map Block.anchor).eraseDups.filter fun a => (findAnchor (fs.lines group.1) a).isNone).map fun a =>
      ['\''] ++ anchorComment a ++ "' in ".toList ++ group.1

def passOne (groups : List (Str × List Block)) : Except Exc Unit :=
  match groups.flatMap (missingIn fs) with
  | [] => .ok ()
  | missing => .error (.applyError ("aborting (nothing written) — missing: ".toList ++ join "; ".toList missing))

def prepare : Except Exc Plan := do
  let plan ← readPlan fs paths override
  checkConflicts fs plan
  passOne fs (byFile plan.items)
  return plan

theorem prepare_eq_ok {fs : Fs} {paths : List Str} {override : Option Str} {plan : Plan} :
    prepare fs paths override = .ok plan ↔
      readPlan fs paths override = .ok plan ∧ checkConflicts fs plan = .ok () ∧
        passOne fs (byFile plan.items) = .ok () := by
  simp only [prepare, Except.bind_eq_ok, Except.pure_eq_ok]
  constructor
  · rintro ⟨_, hread, ⟨⟩, hconf, ⟨⟩, hpass, rfl⟩
    exact ⟨hread, hconf, hpass⟩
  · rintro ⟨hread, hconf, hpass⟩
    exact ⟨plan, hread, (), hconf, (), hpass, rfl⟩

/-! ### Writing -/

def postloadStr : Str := Dsl.Anchor.runnerPostload.name

def Plan.fpsOf (app : Str) : List Footprint := (plan.fps.lookup app).getD []

def Plan.persisted (b : Block) : Block :=
  if b.anchor = postloadStr then { b with code := (plan.fpsOf b.app).map (appliedLine b.app) ++ b.code } else b

def Plan.newLines (fs : Fs) (group : Str × List Block) : Except Exc (List Str) :=
  applyBatch plan.apps (group.2.map plan.persisted) (fs.lines group.1)

def passTwo (plan : Plan) (dryRun : Bool) (fs₀ : Fs) : Fs → List (Str × List Block) → Fs × Except Exc Unit
  | fs, [] => (fs, .ok ())
  | fs, group :: groups =>
    match plan.newLines fs₀ group with
    | .error e => (fs, .error e)
    | .ok lines =>
      let text := unlines lines
      if dryRun then
        let shown := "\n===== ".toList ++ group.1 ++ " (dry-run) =====\n".toList ++ text
        passTwo plan dryRun fs₀ { fs with out := fs.out ++ shown } groups
      else passTwo plan dryRun fs₀ (fs.writeText group.1 text) groups

def cmdApply (dryRun : Bool) (fs : Fs) : Fs × Except Exc Unit :=
  match prepare fs paths override with
  | .error e => (fs, .error e)
  | .ok plan => passTwo plan dryRun fs fs (byFile plan.items)

/-! ### Reverting -/

def revertFile (appIds : Option (List Str)) (fs : Fs) (file : Str) : Fs :=
  let stripped := stripAppRegions (fs.lines file) appIds
  if stripped = fs.lines file then fs else fs.writeText file (unlines stripped)

def revertScope : Except Exc (Option (List Str) × List Str) :=
  if paths.isEmpty then
    .ok ((override.filter (· ≠ [])).map fun app => [app], Dsl.allAnchorFiles)
  else do
    let texts ← paths.mapM fs.readText
    return (some (paths.map fun p => appIdFrom p override),
      sortedSet (texts.flatMap fun t => (parseBlocks t).map SynthBlock.file))

def cmdRevert (fs : Fs) : Fs × Except Exc Unit :=
  match revertScope fs paths override with
  | .error e => (fs, .error e)
  | .ok (appIds, files) => (files.foldl (revertFile appIds) fs, .ok ())

end Xmix.Apply
