/-
  Pliron.PassManager.Analysis

  Analyses and the manager that caches them.

  Analyses are of a type `An` whatever they compute, as trait objects are; their own types are
  told apart by an id.  Computing one may ask the manager for others.
-/

import Pliron.IR.Context
import Pliron.Lib.Memo
import Pliron.Utils.Table

namespace Pliron.PassManager

open Lib

variable {An Err : Type}

/-! ## Results of passes -/

/-- Indicates whether a pass changed the IR or not. -/
inductive IRStatus where
  | unchanged
  | changed
deriving DecidableEq, Repr

/-- The source's `|`. -/
def IRStatus.or : IRStatus → IRStatus → IRStatus
  | .unchanged, .unchanged => .unchanged
  | _, _ => .changed

/-- Tells the types of analyses apart. -/
abbrev TypeId := Nat

/-- The result of running a pass: whether the IR was changed, and the set of analyses that are
    preserved. -/
structure PassResult where
  irChanged : IRStatus := .unchanged
  preservedAnalyses : List TypeId := []

/-! ## The analysis manager -/

/-- Pass manager configuration. -/
structure PMConfig where
  printBeforeAll : Bool := false
  printAfterAll : Bool := false
  irPrintingDir : Option String := none
  printBefore : List String := []
  printAfter : List String := []
  verifyBeforeAll : Bool := false
  verifyAfterAll : Bool := false
  verifyBefore : List String := []
  verifyAfter : List String := []
  skipPasses : List String := []

/-- Common data across pass managers. -/
structure PMData where
  config : PMConfig := {}
  passRunCount : Nat := 0

/-- An analysis together with the operation it is computed for. -/
abbrev AnalysisManagerKey := TypeId × OpPtr

/-- A manager for analyses, responsible for caching and invalidating them. -/
structure AnalysisManager (An : Type) where
  pmData : PMData := {}
  analyses : IMap AnalysisManagerKey An := []

/-- How analyses are computed for an operation. -/
abbrev Compute (An Err : Type) := TypeId → OpPtr → Context → Memo.Comp AnalysisManagerKey An Err

namespace AnalysisManager

/-- Get an analysis if it is cached. -/
def tryGetAnalysis (self : AnalysisManager An) (ty : TypeId) (op : OpPtr) : Option An :=
  self.analyses.get? (ty, op)

/-- The cache. -/
def store : Memo.Store (AnalysisManager An) AnalysisManagerKey An where
  get? := fun self key => self.tryGetAnalysis key.1 key.2
  insert := fun self key analysis => { self with analyses := self.analyses.insert key analysis }
  get?_insert := fun _ _ _ _ => IMap.get?_insert

/-- The computation of an analysis on this IR. -/
def spec (compute : Compute An Err) (ctx : Context) :
    AnalysisManagerKey → Memo.Comp AnalysisManagerKey An Err :=
  fun key => compute key.1 key.2 ctx

/-- Get an analysis, computing it if it is not cached.  Fuel bounds how deep analyses ask for each
    other; `none` is running out of it. -/
def getAnalysis (self : AnalysisManager An) (compute : Compute An Err) (ctx : Context) (fuel : Nat)
    (ty : TypeId) (op : OpPtr) : Option (Except Err An × AnalysisManager An) :=
  Memo.lookup store (spec compute ctx) fuel (ty, op) self

/-- Retain only analyses that are preserved by a result. -/
def retainPreserved (self : AnalysisManager An) (passRes : PassResult) : AnalysisManager An :=
  match passRes.irChanged with
  | .unchanged => self
  | .changed =>
      { self with
        analyses := self.analyses.filter (fun e => passRes.preservedAnalyses.contains e.1.1) }

/-- The types of all analyses currently cached. -/
def listAnalyses (self : AnalysisManager An) : List TypeId := self.analyses.keys.map Prod.fst

/-! ## Fresh analyses -/

/-- The analysis is this when a new manager computes it. -/
def ComputedAfresh (compute : Compute An Err) (ctx : Context) (ty : TypeId) (op : OpPtr)
    (result : Except Err An) : Prop :=
  ∃ fuel self, getAnalysis {} compute ctx fuel ty op = some (result, self)

/-- Every cached analysis is what a new manager computes. -/
def Fresh (compute : Compute An Err) (ctx : Context) (self : AnalysisManager An) : Prop :=
  ∀ ty op analysis, self.tryGetAnalysis ty op = some analysis →
    ComputedAfresh compute ctx ty op (.ok analysis)

variable {compute : Compute An Err} {ctx : Context} {self : AnalysisManager An} {ty : TypeId}
  {op : OpPtr}

theorem right_default : Memo.Right store (spec compute ctx) ({} : AnalysisManager An) := by
  intro key analysis hget
  exact nomatch (show (IMap.get? [] key : Option An) = some analysis from hget)

theorem computedAfresh_iff {result : Except Err An} :
    ComputedAfresh compute ctx ty op result ↔
      ∃ fuel, Memo.value (spec compute ctx) fuel (ty, op) = some result := by
  constructor
  · rintro ⟨fuel, self, hget⟩
    exact (Memo.lookup_answers fuel (ty, op) ({} : AnalysisManager An) result self right_default
      hget).1
  · rintro ⟨fuel, hvalue⟩
    obtain ⟨self, hget⟩ := Memo.lookup_complete fuel (ty, op) ({} : AnalysisManager An) result
      right_default hvalue
    exact ⟨fuel, self, hget⟩

/-- An analysis is computed to one result. -/
theorem ComputedAfresh.unique {result result' : Except Err An}
    (h : ComputedAfresh compute ctx ty op result)
    (h' : ComputedAfresh compute ctx ty op result') : result = result' := by
  obtain ⟨fuel, hvalue⟩ := computedAfresh_iff.mp h
  obtain ⟨fuel', hvalue'⟩ := computedAfresh_iff.mp h'
  exact Memo.value_unique hvalue hvalue'

theorem fresh_iff : Fresh compute ctx self ↔ Memo.Right store (spec compute ctx) self := by
  constructor
  · intro h key analysis hget
    exact computedAfresh_iff.mp (h key.1 key.2 analysis hget)
  · intro h ty op analysis hget
    exact computedAfresh_iff.mpr (h (ty, op) analysis hget)

theorem fresh_default : Fresh compute ctx ({} : AnalysisManager An) := fresh_iff.mpr right_default

/-- What a fresh manager hands out is what a new one computes, and it stays fresh. -/
theorem Fresh.getAnalysis (h : Fresh compute ctx self) {fuel : Nat} {result : Except Err An}
    {self' : AnalysisManager An}
    (hget : self.getAnalysis compute ctx fuel ty op = some (result, self')) :
    ComputedAfresh compute ctx ty op result ∧ Fresh compute ctx self' := by
  obtain ⟨hvalue, hright⟩ :=
    Memo.lookup_answers fuel (ty, op) self result self' (fresh_iff.mp h) hget
  exact ⟨computedAfresh_iff.mpr hvalue, fresh_iff.mpr hright⟩

/-- Retaining looks up what is preserved. -/
theorem tryGetAnalysis_retainPreserved (passRes : PassResult) :
    (self.retainPreserved passRes).tryGetAnalysis ty op =
      if passRes.irChanged = .unchanged ∨ ty ∈ passRes.preservedAnalyses then
        self.tryGetAnalysis ty op
      else none := by
  unfold retainPreserved
  cases hstatus : passRes.irChanged with
  | unchanged => simp
  | changed =>
      have hfilter := IMap.get?_filter (m := self.analyses) (v := (ty, op))
        (fun key => passRes.preservedAnalyses.contains key.1)
      simp only [tryGetAnalysis, hfilter, List.contains_iff_mem, reduceCtorEq, false_or]

theorem mem_listAnalyses :
    ty ∈ self.listAnalyses ↔ ∃ op analysis, self.tryGetAnalysis ty op = some analysis := by
  unfold listAnalyses tryGetAnalysis
  rw [List.mem_map]
  constructor
  · rintro ⟨⟨ty', op⟩, hkey, rfl⟩
    exact ⟨op, Option.isSome_iff_exists.mp (IMap.mem_keys_iff.mp hkey)⟩
  · rintro ⟨op, analysis, hget⟩
    exact ⟨(ty, op), IMap.mem_keys_iff.mpr (Option.isSome_iff_exists.mpr ⟨analysis, hget⟩), rfl⟩

end AnalysisManager

end Pliron.PassManager
