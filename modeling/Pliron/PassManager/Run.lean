/-
  Pliron.PassManager.Run

  Passes and how they are run.

  A leaf pass is any code on the IR, the analyses and what passes keep for themselves.  Beside
  these, the machine notes the moments at which leaf passes start; nothing reads the notes.
-/

import Pliron.Lib.Triple
import Pliron.PassManager.Analysis

namespace Pliron.PassManager

open Lib

variable {An Err L : Type}

/-- How code ends early: with a panic, or with an error. -/
inductive Failure (Err : Type) where
  | panic
  | error (err : Err)

/-- What passes work on: the IR, the analyses, and what passes keep for themselves. -/
structure State (An L : Type) where
  ctx : Context
  analyses : AnalysisManager An
  passData : L

structure Machine (An L : Type) where
  state : State An L
  moments : List (State An L) := []

abbrev RunM (An Err L α : Type) := Prog (Machine An L) (Failure Err) α

/-- What is not part of the pass manager: how analyses are computed, the verifier, and writing to a
    file. -/
structure Env (An Err : Type) where
  compute : Compute An Err
  verifyOperation : OpPtr → Context → Except (Failure Err) Unit
  printOpToFile : Context → (dir filename : String) → OpPtr → Except (Failure Err) Unit

/-- A pass: a leaf, or one that contains and runs other passes. -/
inductive Pass (An Err L : Type) where
  | leaf (name : String) (run : OpPtr → State An L → Except (Failure Err) PassResult × State An L)
  | passes (passes : List (Pass An Err L))
  | nestedOpsPass (pass : Pass An Err L)
  | guardedPass (isAllowed : OpPtr → Context → Bool) (pass : Pass An Err L)

namespace Pass

def name : Pass An Err L → String
  | leaf name _ => name
  | passes _ => "passes"
  | nestedOpsPass _ => "nested_ops_pass"
  | guardedPass _ _ => "guarded_pass"

/-- Does this pass contain and run other passes? -/
def isPassManager : Pass An Err L → Bool
  | leaf _ _ => false
  | _ => true

end Pass

/-! ## Running one pass -/

variable (env : Env An Err)

/-- A check that leaves the state alone. -/
def liftCheck (check : Except (Failure Err) Unit) : RunM An Err L Unit :=
  match check with
  | .ok () => pure ()
  | .error e => throw e

/-- Run, and keep an error for later; a panic is not kept. -/
def attempt (run : RunM An Err L PassResult) : RunM An Err L (Except Err PassResult) := do
  let result ← run.capture
  match result with
  | .ok res => pure (.ok res)
  | .error (.error err) => pure (.error err)
  | .error .panic => throw .panic

/-- Run a pass, calling pre and post hooks for non-manager passes. -/
def runPass (name : String) (isPassManager : Bool) (op : OpPtr) (run : RunM An Err L PassResult) :
    RunM An Err L PassResult := do
  let config := (← get).state.analyses.pmData.config
  let passRunCount := (← get).state.analyses.pmData.passRunCount
  let skipPass := !isPassManager && config.skipPasses.contains name
  let prePrintPass := !isPassManager && (config.printBeforeAll || config.printBefore.contains name)
  let postPrintPass := !isPassManager && (config.printAfterAll || config.printAfter.contains name)
  let preVerifyPass :=
    !isPassManager && (config.verifyBeforeAll || config.verifyBefore.contains name)
  let postVerifyPass :=
    !isPassManager && (config.verifyAfterAll || config.verifyAfter.contains name)
  if skipPass then pure {}
  else do
    printHook prePrintPass config (toString passRunCount ++ "-before-" ++ name ++ ".plir")
    verifyHook preVerifyPass
    noteMoment isPassManager
    -- what follows is done whether the pass fails or not
    let result ← attempt run
    printHook postPrintPass config (toString passRunCount ++ "-after-" ++ name ++ ".plir")
    verifyHook postVerifyPass
    countRun isPassManager
    match result with
    | .ok res => pure res
    | .error err => throw (.error err)
where
  printHook (enabled : Bool) (config : PMConfig) (filename : String) : RunM An Err L Unit := do
    let m ← get
    match enabled, config.irPrintingDir with
    | true, some dir => liftCheck (env.printOpToFile m.state.ctx dir filename op)
    | _, _ => pure ()
  verifyHook (enabled : Bool) : RunM An Err L Unit := do
    let m ← get
    if enabled then liftCheck (env.verifyOperation op m.state.ctx) else pure ()
  noteMoment (isPassManager : Bool) : RunM An Err L Unit :=
    modify (fun m => if isPassManager then m else { m with moments := m.moments ++ [m.state] })
  countRun (isPassManager : Bool) : RunM An Err L Unit :=
    modify (fun m =>
      if isPassManager then m
      else
        let analyses := m.state.analyses
        let pmData := { analyses.pmData with passRunCount := analyses.pmData.passRunCount + 1 }
        { m with state := { m.state with analyses := { analyses with pmData := pmData } } })

/-- Invalidate analyses that are not preserved. -/
def invalidate (res : PassResult) : RunM An Err L Unit :=
  modify (fun m => { m with
    state := { m.state with analyses := m.state.analyses.retainPreserved res } })

/-- Join the result of a pass, and invalidate analyses that it does not preserve. -/
def joinResult (passRes res : PassResult) : RunM An Err L PassResult := do
  invalidate res
  pure { passRes with irChanged := passRes.irChanged.or res.irChanged }

/-- The analyses that remain after invalidation are preserved. -/
def reportRemaining (passRes : PassResult) : RunM An Err L PassResult := do
  let m ← get
  pure { passRes with preservedAnalyses := m.state.analyses.listAnalyses }

/-- Follow a pointer; a dangling one is a panic. -/
def deref {β : Type} (read : Context → Option β) : RunM An Err L β := do
  let m ← get
  match read m.state.ctx with
  | some b => pure b
  | none => throw .panic

/-! ## Running a tree of passes -/

mutual

/-- Run a pass on an operation. -/
def Pass.run : Pass An Err L → OpPtr → RunM An Err L PassResult
  | .leaf _ run, op => do
      let m ← get
      let (result, state) := run op m.state
      set { m with state := state }
      match result with
      | .ok res => pure res
      | .error e => throw e
  | .passes passes, op => do reportRemaining (← runAll passes op {})
  | .nestedOpsPass pass, op => do
      let regions ← deref (fun ctx => (ctx.operations op).map Operation.regions)
      let passRes ← regions.foldlM (fun passRes region => do
        let blocks ← deref (fun ctx => (ctx.regions region).map Region.blocks)
        blocks.foldlM (fun passRes block => do
          let ops ← deref (fun ctx => (ctx.basicBlocks block).map BasicBlock.ops)
          ops.foldlM (fun passRes nestedOp => do
            let res ← runPass env pass.name pass.isPassManager nestedOp (pass.run nestedOp)
            joinResult passRes res) passRes) passRes) {}
      reportRemaining passRes
  | .guardedPass isAllowed pass, op => do
      let m ← get
      if isAllowed op m.state.ctx then
        runPass env pass.name pass.isPassManager op (pass.run op)
      else pure {}

/-- Run each pass in the list on the current operation. -/
def runAll : List (Pass An Err L) → OpPtr → PassResult → RunM An Err L PassResult
  | [], _, passRes => pure passRes
  | pass :: passes, op, passRes => do
      let res ← runPass env pass.name pass.isPassManager op (pass.run op)
      runAll passes op (← joinResult passRes res)

end

end Pliron.PassManager
