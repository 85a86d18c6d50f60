import SpectraLang.Passes.ConstantFolding
import SpectraLang.Passes.DeadCodeElimination
import SpectraLang.Passes.FunctionInlining

/-! # Tail calls

A direct self-call whose result the block returns at once is marked, and the backend fuses it with
the return. The passes that run afterwards keep every marked call last in its block, in front of the
return of its result.
-/

namespace SpectraLang.TailCallMarking

open List Saturate

/-- Instructions whose backend machinery a tail jump would skip. -/
def forbidsTailFusion : InstructionKind → Bool
  | .hostCall .. | .manualAlloc .. | .escapeManualAlloc .. | .alloca .. | .makeDynFatPtr .. |
      .asyncReady ..
  | .callIndirect .. => true
  | _ => false

def functionIsTailFusionCandidate (function : Function) : Bool :=
  function.name ≠ "main" && !function.suspensionBarrier &&
    function.blocks.all fun block => block.instructions.all fun instruction =>
      !forbidsTailFusion instruction.kind

/-- The block with its last call marked, if it qualifies. -/
def markBlock (name : String) (block : BasicBlock) : Option BasicBlock :=
  match block.terminator, block.instructions.reverse with
  | some (.ret (some value)), ⟨id, .call (some result) callee args false⟩ :: earlier =>
    if callee = name ∧ result = value then
      some { block with instructions := earlier.reverse ++
        [⟨id, .call (some result) callee args true⟩] }
    else none
  | _, _ => none

def markFunction (function : Function) : Function :=
  if functionIsTailFusionCandidate function then
    { function with blocks := function.blocks.map fun block =>
      (markBlock function.name block).getD block }
  else function

/-- `mark_tail_self_recursion`, with the number of calls that were marked. -/
def markTailSelfRecursion (module : Module) : Module × Nat :=
  ({ module with functions := module.functions.map markFunction },
    ((module.functions.filter functionIsTailFusionCandidate).map fun function =>
      function.blocks.countP fun block => (markBlock function.name block).isSome).sum)

inductive OptimizationPass where
  | constantFolding
  | functionInlining
  | deadCodeElimination

def OptimizationPass.run : OptimizationPass → Module → Module
  | .constantFolding, module => (ConstantFolding.run module).1
  | .functionInlining, module => FunctionInlining.run module
  | .deadCodeElimination, module => (DeadCodeElimination.run module).1

def isTailCall : InstructionKind → Bool
  | .call _ _ _ isTail => isTail
  | _ => false

/-- Marked calls call the function itself, nothing follows them, and the block returns their
result. -/
structure TailCallsFit (name : String) (terminator : Option Terminator)
    (kinds : List InstructionKind) : Prop where
  returned : ∀ result callee args, .call result callee args true ∈ kinds →
    callee = name ∧ terminator = some (.ret result)
  last : kinds.Pairwise fun earlier _ => isTailCall earlier = false

def FunctionFits (function : Function) : Prop :=
  ∀ block ∈ function.blocks, TailCallsFit function.name block.terminator
    (block.instructions.map (·.kind))

def TailCallsValid (module : Module) : Prop := ∀ function ∈ module.functions, FunctionFits function

variable {kind : InstructionKind}

namespace TailCallsFit

variable {name : String} {terminator : Option Terminator} {kinds front : List InstructionKind}

theorem append (unmarked : ∀ kind ∈ front, isTailCall kind = false)
    (fits : TailCallsFit name terminator kinds) :
    TailCallsFit name terminator (front ++ kinds) where
  returned result callee args member := by
    rcases mem_append.mp member with early | late
    · exact absurd (unmarked _ early) (by simp [isTailCall])
    · exact fits.returned result callee args late
  last := by
    refine pairwise_append.mpr ⟨?_, fits.last, fun kind early _ _ => unmarked kind early⟩
    exact pairwise_of_forall_mem_list fun kind early _ _ => unmarked kind early

theorem of_unmarked (unmarked : ∀ kind ∈ kinds, isTailCall kind = false) :
    TailCallsFit name terminator kinds := by
  have none : TailCallsFit name terminator [] := ⟨nofun, .nil⟩
  simpa using none.append unmarked

theorem sublist (fits : TailCallsFit name terminator kinds) (part : front <+ kinds) :
    TailCallsFit name terminator front :=
  ⟨fun result callee args member => fits.returned result callee args (part.subset member),
    fits.last.sublist part⟩

theorem map {instructions : List Instruction} {change : Instruction → Instruction}
    (fits : TailCallsFit name terminator (instructions.map (·.kind)))
    (keeps : ∀ instruction, isTailCall (change instruction).kind = true →
      (change instruction).kind = instruction.kind) :
    TailCallsFit name terminator ((instructions.map change).map (·.kind)) where
  returned result callee args member := by
    obtain ⟨_, inside, kind⟩ := mem_map.mp member
    obtain ⟨instruction, original, rfl⟩ := mem_map.mp inside
    have same := keeps instruction (by rw [kind]; rfl)
    exact fits.returned result callee args
      (mem_map.mpr ⟨instruction, original, same.symm.trans kind⟩)
  last := by
    refine pairwise_map.mpr
      (pairwise_map.mpr ((pairwise_map.mp fits.last).imp fun {earlier _} unmarked => ?_))
    by_contra marked
    have tail : isTailCall (change earlier).kind = true := by simpa using marked
    rw [keeps earlier tail, unmarked] at tail
    cases tail

theorem unmarked_of_append (fits : TailCallsFit name terminator (front ++ kind :: kinds)) :
    ∀ earlier ∈ front, isTailCall earlier = false :=
  fun earlier early => (pairwise_append.mp fits.last).2.2 earlier early kind mem_cons_self

end TailCallsFit

variable {function : Function}

section
variable (fits : FunctionFits function)
include fits

theorem functionFits_markFunction : FunctionFits (markFunction function) := by
  unfold markFunction
  split_ifs with candidate
  · intro block member
    obtain ⟨original, inside, rfl⟩ := mem_map.mp member
    have before := fits original inside
    cases marked : markBlock function.name original with
    | none => exact before
    | some block =>
      unfold markBlock at marked
      split at marked
      · next value id result callee args earlier returns reversed =>
        split_ifs at marked with qualifies
        cases marked
        obtain ⟨rfl, rfl⟩ := qualifies
        rw [reverse_eq_cons_iff.mp reversed, map_append] at before
        rw [Option.getD_some, map_append]
        refine .append before.unmarked_of_append ⟨?_, pairwise_singleton _ _⟩
        rintro _ _ _ member
        obtain ⟨rfl, rfl, rfl, -⟩ := InstructionKind.call.inj (mem_singleton.mp member)
        exact ⟨rfl, returns⟩
      · cases marked
  · exact fits

theorem functionFits_foldFunction : FunctionFits (ConstantFolding.foldFunction function) := by
  unfold ConstantFolding.foldFunction
  split_ifs with barrier
  · exact fits
  · refine saturate_invariant FunctionFits (fun before after valid round => ?_) fits
    simp only [ConstantFolding.foldRound, Option.ite_none_right_eq_some, Option.some.injEq] at round
    obtain ⟨-, rfl⟩ := round
    intro block member
    obtain ⟨original, inside, rfl⟩ := mem_map.mp member
    apply (valid original inside).map
    intro instruction
    simp only [ConstantFolding.foldInstruction, ConstantFolding.foldKind]
    split
    · next constant result _ _ => rcases constant with ⟨_, _ | _⟩ | _ <;> intro tail <;> cases tail
    · exact fun _ => rfl

theorem functionFits_eliminateFunction :
    FunctionFits (DeadCodeElimination.eliminateFunction function) := by
  unfold DeadCodeElimination.eliminateFunction
  split_ifs with barrier
  · exact fits
  · refine saturate_invariant FunctionFits (fun before after valid round => ?_) fits
    simp only [DeadCodeElimination.eliminateRound, Option.ite_none_right_eq_some, Option.some.injEq]
      at round
    obtain ⟨-, rfl⟩ := round
    intro block member
    obtain ⟨original, inside, rfl⟩ := mem_map.mp member
    exact (valid original inside).sublist (filter_sublist.map _)

end

section Inlining

open FunctionInlining

theorem isTailCall_of_isCall (other : isCall kind = false) : isTailCall kind = false := by
  cases kind <;> simp_all [isCall, isTailCall]

theorem renumberInstructions_kinds (instructions : List Instruction) :
    (renumberInstructions instructions).map (·.kind) = instructions.map (·.kind) := by
  rw [renumberInstructions, map_map]
  change instructions.zipIdx.map ((fun instruction => instruction.kind) ∘ Prod.fst) = _
  rw [← map_map, zipIdx_map_fst]

theorem functionFits_splice {caller callee : Function} (site : CallSite caller)
    (free : CallFree callee) (fits : FunctionFits caller) : FunctionFits (site.splice callee) := by
  have split := fits site.block (by simp [site.blocks_eq])
  rw [site.instructions_eq, map_append, map_cons] at split
  have rewired : ∀ block, TailCallsFit caller.name block.terminator
    (block.instructions.map (·.kind)) →
      TailCallsFit caller.name (site.rewired block).terminator
        ((site.rewired block).instructions.map (·.kind)) := by
    intro block valid
    refine valid.map ?_
    rintro ⟨id, kind⟩
    cases kind <;> first | exact fun _ => rfl | exact nofun
  intro block member
  rcases (site.mem_splice_blocks callee).mp member with ⟨old, place, rfl⟩ | rfl |
    ⟨inner, isInner, rfl⟩ | rfl
  · apply rewired
    apply fits
    rw [site.blocks_eq]
    rcases place with early | late
    · simp [early]
    · simp [late]
  · apply rewired
    apply TailCallsFit.of_unmarked
    simp only [CallSite.front, frontBlock, map_append, forall_mem_append]
    refine ⟨split.unmarked_of_append, ?_⟩
    cases site.slot callee <;> simp [isTailCall]
  · apply rewired
    apply TailCallsFit.of_unmarked
    have calls := countP_eq_zero.mp (site.blockCalls_clone free isInner)
    intro kind inside
    obtain ⟨instruction, here, rfl⟩ := mem_map.mp inside
    exact isTailCall_of_isCall (by simpa using calls instruction here)
  · apply rewired
    simp only [CallSite.rest, continuationBlock, renumberInstructions_kinds, map_append]
    refine .append ?_ (split.sublist ((sublist_cons_self ..).trans (sublist_append_right ..)))
    cases site.result <;> cases site.slot callee <;> simp [isTailCall]

theorem tailCallsValid_inlining {module : Module} (valid : TailCallsValid module) :
    TailCallsValid (FunctionInlining.run module) := by
  refine saturate_invariant TailCallsValid (fun before after valid round => ?_) valid
  simp only [inlineRound, Option.ite_none_right_eq_some, Option.some.injEq] at round
  obtain ⟨-, rfl⟩ := round
  intro function member
  obtain ⟨original, inside, rfl⟩ := mem_map.mp member
  split_ifs with barrier
  · exact valid original inside
  · refine saturate_invariant FunctionFits (fun caller next fits turn => ?_) (valid original inside)
    obtain ⟨site, callee, candidate, -, rfl⟩ := inlineNext_cases turn
    exact functionFits_splice site (callFree_of_mem_collectCandidates candidate) fits

end Inlining

theorem TailCallsValid.functions {module : Module} {change : Function → Function}
    (valid : TailCallsValid module)
    (keeps : ∀ function, FunctionFits function → FunctionFits (change function)) :
    TailCallsValid { module with functions := module.functions.map change } := by
  intro function member
  obtain ⟨original, inside, rfl⟩ := mem_map.mp member
  exact keeps original (valid original inside)

/-- Marks that are valid stay so, and the marking adds valid ones. -/
theorem tailCallsValid_passes (module : Module) (valid : TailCallsValid module)
    (passes : List OptimizationPass) :
    TailCallsValid
      (passes.foldl (fun module pass => pass.run module) (markTailSelfRecursion module).1) := by
  have marked : TailCallsValid (markTailSelfRecursion module).1 :=
    valid.functions fun _ => functionFits_markFunction
  generalize (markTailSelfRecursion module).1 = module at marked
  induction passes generalizing module with
  | nil => exact marked
  | cons pass later ih =>
    apply ih
    cases pass with
    | constantFolding => exact marked.functions fun _ => functionFits_foldFunction
    | functionInlining => exact tailCallsValid_inlining marked
    | deadCodeElimination => exact marked.functions fun _ => functionFits_eliminateFunction

/-- One block with a call of `callee` and a return. -/
def callingModule (callee : String) (isTail : Bool) : Module where
  name := "m"
  functions := [
    { name := "f", params := [], returnType := .int, nextValueId := 1, nextBlockId := 1,
      blocks := [⟨0, "entry", [⟨0, .call (some 0) callee [] isTail⟩], some (.ret (some 0))⟩] }]

theorem tailCallsValid_callingModule : TailCallsValid (callingModule "f" false) ∧
    TailCallsValid ([.constantFolding, .functionInlining, .deadCodeElimination].foldl
      (fun module pass => OptimizationPass.run pass module)
        (markTailSelfRecursion (callingModule "f" false)).1) := by
  have valid : TailCallsValid (callingModule "f" false) := by
    intro function member block inside
    obtain rfl := mem_singleton.mp member
    obtain rfl := mem_singleton.mp inside
    exact .of_unmarked (by simp [isTailCall])
  exact ⟨valid, tailCallsValid_passes _ valid _⟩

/-- The marking does not clear a mark that was set before. -/
theorem not_tailCallsValid_marked :
    ¬ TailCallsValid (markTailSelfRecursion (callingModule "g" true)).1 := by
  intro valid
  have fits := valid _ mem_cons_self _ mem_cons_self
  exact absurd (fits.returned _ "g" _ mem_cons_self).1 (by decide)

end SpectraLang.TailCallMarking
