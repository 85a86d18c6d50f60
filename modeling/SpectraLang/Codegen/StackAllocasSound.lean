import SpectraLang.Codegen.StackAllocas
import SpectraLang.Semantics.Paths

/-! # Where addresses of kept allocas go

Runs are tracked with the allocas that each value is an address of. The analysis knows the registers
of element and field addresses; as long as a run moves no address by a copy, cast, phi or load and
stores none into an alloca that its cycle gives up, no kept alloca leaves the frame.
-/

open Function

namespace SpectraLang

open List

namespace StackAllocas

open Saturate Simulation FlowGraph InstructionKind

section Roots
variable {module : Module} {function : Function} {first : BasicBlock}

/-- An alloca of the function whose type may live on the stack. -/
def Candidate (function : Function) (root : Value) : Prop :=
  ∃ ty, .alloca root ty ∈ function.kinds ∧ isStackAllocaType ty = true

variable {root result ptr : Value} {kind : InstructionKind} {roots : Roots}

theorem mem_candidates {id : BlockId} :
    (root, id) ∈ candidates function ↔ ∃ block ∈ function.blocks, block.id = id ∧
      ∃ instruction ∈ block.instructions, ∃ ty, instruction.kind = .alloca root ty ∧
        isStackAllocaType ty = true := by
  simp only [candidates, mem_flatMap, mem_filterMap]
  constructor
  · rintro ⟨block, inside, instruction, within, found⟩
    split at found
    · next result ty kind =>
      split_ifs at found with small
      obtain ⟨rfl, rfl⟩ := Prod.mk.inj (Option.some.inj found)
      exact ⟨block, inside, rfl, instruction, within, ty, kind, small⟩
    · cases found
  · rintro ⟨block, inside, rfl, instruction, within, ty, kind, small⟩
    exact ⟨block, inside, instruction, within, by simp [kind, small]⟩

theorem candidate_iff : root ∈ (candidates function).map Prod.fst ↔ Candidate function root := by
  constructor
  · intro listed
    obtain ⟨⟨_, id⟩, member, rfl⟩ := mem_map.mp listed
    obtain ⟨block, inside, _, instruction, within, ty, shape, small⟩ := mem_candidates.mp member
    exact ⟨ty, Function.mem_kinds.mpr ⟨block, inside, instruction, within, shape⟩, small⟩
  · rintro ⟨ty, member, small⟩
    obtain ⟨block, inside, instruction, within, shape⟩ := Function.mem_kinds.mp member
    exact mem_map.mpr
      ⟨(root, block.id),
      mem_candidates.mpr ⟨block, inside, rfl, instruction, within, ty, shape, small⟩, rfl⟩

theorem derivedAddress_defines (derives : derivedAddress kind = some (result, ptr)) :
    kind.defines = [result] ∧ kind.isFrameLoad = false ∧ kind.isPhi = false ∧
      kind.changesWorld = false ∧ ptr ∈ kind.reads ∧ ∀ ty, kind ≠ .alloca result ty := by
  cases kind with
  | getElementPtr | fieldPtr =>
    obtain ⟨rfl, rfl⟩ := Prod.mk.inj (Option.some.inj derives)
    exact ⟨rfl, rfl, rfl, rfl, by simp [reads], by simp⟩
  | _ => simp [derivedAddress] at derives

/-- The addresses of elements and fields of an alloca. -/
inductive AddressOf (function : Function) (root : Value) : Value → Prop where
  | alloca {ty : IRType} (member : .alloca root ty ∈ function.kinds) : AddressOf function root root
  | derived {kind : InstructionKind} {result ptr : Value} (member : kind ∈ function.kinds)
      (derives : derivedAddress kind = some (result, ptr)) (source : AddressOf function root ptr) :
      AddressOf function root result

variable {value other : Value}

theorem AddressOf.computes (address : AddressOf function root value) : function.Computes value := by
  cases address with
  | alloca member => exact ⟨_, member, by simp [defines, result?], rfl, rfl⟩
  | derived member derives =>
    obtain ⟨defines, ordinary, notPhi, _⟩ := derivedAddress_defines derives
    exact ⟨_, member, by simp [defines], notPhi, ordinary⟩

section
variable (verified : Verified module function first)
include verified

/-- The one instruction that defines an address. -/
theorem AddressOf.inv (address : AddressOf function root value) (member : kind ∈ function.kinds)
    (defined : value ∈ kind.defines) :
    (value = root ∧ ∃ ty, kind = .alloca value ty) ∨
      ∃ ptr, derivedAddress kind = some (value, ptr) ∧ AddressOf function root ptr := by
  cases address with
  | alloca listed =>
    have same := verified.kind_unique listed member (by simp [defines, result?]) defined rfl
    exact .inl ⟨rfl, _, same.symm⟩
  | derived listed derives source =>
    obtain ⟨defines, ordinary, _⟩ := derivedAddress_defines derives
    obtain rfl := verified.kind_unique listed member (by simp [defines]) defined ordinary
    exact .inr ⟨_, derives, source⟩

/-- In an accepted function a value is an address of one alloca only. -/
theorem AddressOf.unique (address : AddressOf function root value)
    (again : AddressOf function other value) :
    root = other := by
  induction address with
  | alloca listed =>
    rcases again.inv verified listed (by simp [defines, result?]) with
      ⟨same, _⟩ | ⟨_, derives, _⟩
    · exact same
    · cases derives
  | derived listed derives _ ih =>
    obtain ⟨defines, _⟩ := derivedAddress_defines derives
    rcases again.inv verified listed (by simp [defines]) with ⟨_, _, rfl⟩ | ⟨_, derived, source⟩
    · cases derives
    · obtain ⟨-, rfl⟩ := Prod.mk.inj (Option.some.inj (derives.symm.trans derived))
      exact ih source

end

/-- The roots assigned so far are those of addresses of candidates. -/
structure Rooted (function : Function) (roots : Roots) : Prop where
  initial : ∀ root, Candidate function root → roots root = some root
  sound : ∀ value root, roots value = some root → Candidate function root ∧
    AddressOf function root value

theorem rooted_initial : Rooted function (initialRoots function) := by
  refine ⟨fun root candidate => if_pos (candidate_iff.mpr candidate), fun value root known => ?_⟩
  unfold initialRoots at known
  split_ifs at known with listed
  obtain ⟨ty, member, small⟩ := candidate_iff.mp listed
  exact Option.some.inj known ▸ ⟨⟨ty, member, small⟩, .alloca member⟩

variable {state : Roots × Bool}

/-- One visit keeps known roots and at most adds the root of the visited result. -/
theorem deriveVisit_cases (verified : Verified module function first)
    (rooted : Rooted function state.1) (member : kind ∈ function.kinds) :
    (deriveVisit state kind = state ∧ ∀ result ptr root, derivedAddress kind = some (result, ptr) →
      state.1 ptr = some root → state.1 result = some root) ∨
    ∃ result ptr root, derivedAddress kind = some (result, ptr) ∧ state.1 ptr = some root ∧
      state.1 result = none ∧
      deriveVisit state kind = (update state.1 result (some root), true) := by
  unfold deriveVisit
  cases derives : derivedAddress kind with
  | none => exact .inl ⟨rfl, by simp⟩
  | some address =>
    obtain ⟨result, ptr⟩ := address
    simp only
    cases known : state.1 ptr with
    | none =>
      refine .inl ⟨rfl, ?_⟩
      rintro _ _ root same pointer
      obtain ⟨-, rfl⟩ := Prod.mk.inj (Option.some.inj same)
      simp [known] at pointer
    | some root =>
      cases old : state.1 result with
      | none => exact .inr ⟨result, ptr, root, rfl, known, old, by simp⟩
      | some other =>
        obtain rfl : root = other :=
          (AddressOf.derived member derives (rooted.sound ptr root known).2).unique verified
            (rooted.sound result other old).2
        refine .inl ⟨?_, ?_⟩
        · have same : update state.1 result (some root) = state.1 := by
            rw [← old, update_eq_self]
          simp [same]
        · rintro _ _ other same pointer
          obtain ⟨rfl, rfl⟩ := Prod.mk.inj (Option.some.inj same)
          rw [old, ← pointer, known]

theorem Rooted.update (rooted : Rooted function roots) (member : kind ∈ function.kinds)
    (derives : derivedAddress kind = some (result, ptr)) (known : roots ptr = some root)
      (fresh : roots result = none) :
    Rooted function (update roots result (some root)) := by
  refine ⟨fun other candidate => ?_, fun value other assigned => ?_⟩
  · have old := rooted.initial other candidate
    have different : other ≠ result := by
      rintro rfl
      simp [fresh] at old
    rw [update_of_ne different, old]
  · by_cases same : value = result
    · subst same
      obtain rfl : root = other := by simpa using assigned
      obtain ⟨candidate, source⟩ := rooted.sound ptr root known
      exact ⟨candidate, .derived member derives source⟩
    · rw [update_of_ne same] at assigned
      exact rooted.sound value other assigned

/-- The derived addresses that have no root yet. -/
def unrooted (function : Function) (roots : Roots) : Nat :=
  function.kinds.countP fun kind =>
    match derivedAddress kind with
    | some (result, _) => (roots result).isNone
    | none => false

theorem unrooted_update_lt (member : kind ∈ function.kinds)
    (derives : derivedAddress kind = some (result, ptr))
    (fresh : roots result = none) (root : Value) :
    unrooted function (update roots result (some root)) < unrooted function roots := by
  refine countP_lt_of_lost (fun other _ missing => ?_) member (by simp [derives, fresh])
    (by simp [derives])
  cases address : derivedAddress other with
  | none => simp [address] at missing
  | some pair =>
    simp only [address] at missing ⊢
    by_cases same : pair.1 = result
    · simp [same] at missing
    · rwa [update_of_ne same] at missing

section
variable (verified : Verified module function first)
include verified

/-- The rounds end with the roots of all derived addresses. -/
theorem derivedFromAlloca_settled : Rooted function (derivedFromAlloca function) ∧
    deriveRound function (derivedFromAlloca function) = none ∧
    ∀ kind ∈ function.kinds, ∀ result ptr root, derivedAddress kind = some (result, ptr) →
      derivedFromAlloca function ptr = some root → derivedFromAlloca function result =
        some root := by
  refine @saturate_round _ _ _ (Rooted function) _ deriveVisit function.kinds (unrooted function)
    (fun roots kind => ∀ result ptr root, derivedAddress kind = some (result, ptr) →
      roots ptr = some root → roots result = some root)
    (fun state kind member rooted => ?_) rooted_initial countP_le_length
  apply (deriveVisit_cases verified rooted member).imp_right
  rintro ⟨result, ptr, root, derives, known, fresh, visit⟩
  exact ⟨_, visit, rooted.update member derives known fresh, unrooted_update_lt member derives fresh
    root⟩

/-- The roots found are those of the addresses of candidates. -/
theorem derivedFromAlloca_iff : derivedFromAlloca function value = some root ↔
    Candidate function root ∧ AddressOf function root value := by
  obtain ⟨rooted, -, closed⟩ := derivedFromAlloca_settled verified
  constructor
  · exact rooted.sound value root
  · rintro ⟨candidate, address⟩
    induction address with
    | alloca => exact rooted.initial root candidate
    | derived member derives _ ih => exact closed _ member _ _ root derives ih

theorem computes_of_derived (known : derivedFromAlloca function value = some root) :
    function.Computes value :=
  ((derivedFromAlloca_iff verified).mp known).2.computes

end

end Roots

section Kept
variable {function : Function}

theorem containFold_subset (contained : List (Value × Value)) (kept : Finset Value) :
    contained.foldl (fun kept entry => if entry.1 ∈ kept then kept else kept.erase entry.2) kept ⊆
      kept := by
  induction contained generalizing kept with
  | nil => exact subset_rfl
  | cons entry rest ih =>
    apply (ih _).trans
    change (if entry.1 ∈ kept then kept else kept.erase entry.2) ⊆ kept
    split_ifs
    · exact subset_rfl
    · exact Finset.erase_subset ..

variable {contained : List (Value × Value)}

theorem containFold_eq {kept : Finset Value}
    (same : contained.foldl (fun kept entry => if entry.1 ∈ kept then kept else kept.erase entry.2)
      kept = kept) :
    ∀ entry ∈ contained, entry.2 ∈ kept → entry.1 ∈ kept := by
  induction contained with
  | nil => simp
  | cons entry rest ih =>
    rw [foldl_cons] at same
    -- The rest only removes more, so the first entry removes nothing.
    have unchanged : (if entry.1 ∈ kept then kept else kept.erase entry.2) = kept := by
      refine subset_antisymm ?_ ?_
      · split_ifs
        · exact subset_rfl
        · exact Finset.erase_subset ..
      · conv_lhs => rw [← same]
        exact containFold_subset ..
    rw [unchanged] at same
    intro other listed inside
    rcases mem_cons.mp listed with rfl | listed
    · by_contra gone
      rw [if_neg gone] at unchanged
      exact Finset.erase_eq_self.mp unchanged inside
    · exact ih same other listed inside

theorem containRound_some {before after : Finset Value}
    (step : containRound contained before = some after) : after ⊆ before ∧
      after.card < before.card := by
  simp only [containRound] at step
  split_ifs at step with same
  cases step
  have subset := containFold_subset contained before
  exact ⟨subset, Finset.card_lt_card (subset.ssubset_of_ne same)⟩

/-- What is kept before cycles are considered: no root escapes, and containers of kept roots are
kept. -/
theorem mem_keptRoots {root : Value} (kept : root ∈ keptRoots function) :
    root ∉ escapedRoots function ∧
      ∀ container, (container, root) ∈ containedRoots function →
        container ∈ keptRoots function := by
  have subset : keptRoots function ⊆ ((candidates function).map Prod.fst).toFinset \
    (escapedRoots function).toFinset :=
    saturate_invariant
      (· ⊆ ((candidates function).map Prod.fst).toFinset \ (escapedRoots function).toFinset)
      (fun _ _ below step => (containRound_some step).1.trans below) subset_rfl
  have stable : containRound (containedRoots function) (keptRoots function) = none :=
    saturate_stable (fun _ => True) Finset.card (fun _ _ _ _ => trivial)
      (fun _ _ _ step => (containRound_some step).2)
      trivial le_rfl
  simp only [containRound] at stable
  split_ifs at stable with same
  refine ⟨fun escaped => ?_, fun container stored => containFold_eq same (container, root) stored
    kept⟩
  have := subset kept
  simp [escaped] at this

end Kept

section Tracking

/-- A value together with the stack-type allocas it is an address of. -/
structure Tagged (P : Type*) where
  payload : P
  roots : Finset Value

/-- A world together with what the value stored last at each address is an address of. -/
structure TaggedWorld (P W : Type*) where
  world : W
  cells : P → Finset Value

variable {P W : Type*}

/-- The allocas a computed value is an address of: addresses travel through element and field
addresses, copies, casts and memory. -/
def computedRoots (kind : InstructionKind) (args : List (Tagged P)) (cells : P → Finset Value) :
    Finset Value :=
  match kind, args with
  | .alloca result ty, _ => if isStackAllocaType ty then {result} else ∅
  | .getElementPtr .., source :: _ => source.roots
  | .fieldPtr .., source :: _ => source.roots
  | .copy .., source :: _ => source.roots
  | .cast .., source :: _ => source.roots
  | .load .., ptr :: _ => cells ptr.payload
  | _, _ => ∅

def storedCells [DecidableEq P] (kind : InstructionKind) (args : List (Tagged P))
    (cells : P → Finset Value) : P → Finset Value :=
  match kind, args with
  | .store .., [ptr, value] => update cells ptr.payload value.roots
  | _, _ => cells

/-- A machine that also tracks addresses. -/
def trackedMachine [DecidableEq P] (base : Machine P W) : Machine (Tagged P) (TaggedWorld P W) where
  compute kind count args world :=
    ⟨base.compute kind count (args.map (·.payload)) world.world,
      computedRoots kind args world.cells⟩
  trap kind args := base.trap kind (args.map (·.payload))
  perform kind args world :=
    match base.perform kind (args.map (·.payload)) world.world with
    | .error trap => .error trap
    | .ok (after, results) =>
      .ok (⟨after, storedCells kind args world.cells⟩, results.map fun result => ⟨result, ∅⟩)
  isTrue value := base.isTrue value.payload
  matchesCase value := base.matchesCase value.payload

/-- The value is an address of one of the allocas. -/
def Tagged.Carries (kept : Finset Value) (value : Tagged P) : Prop :=
  ∃ root ∈ value.roots, root ∈ kept

/-- The instruction lets an address of one of the allocas leave the frame. -/
def Leaks (kept : Finset Value) (env : Value → Tagged P) : InstructionKind → Prop
  | .store ptr value => (env value).Carries kept ∧ ¬(env ptr).Carries kept
  | .hostCall _ _ args _ => ∃ arg ∈ args, (env arg).Carries kept
  | .callIndirect _ _ args _ _ => ∃ arg ∈ args, (env arg).Carries kept
  | .asyncReady _ value _ => ∃ ready ∈ value, (env ready).Carries kept
  | .makeDynFatPtr _ dataPtr _ => (env dataPtr).Carries kept
  | _ => False

/-- The next step returns an address of one of the allocas or lets it leave the frame otherwise. -/
def Escapes (kept : Finset Value) : State (Tagged P) (TaggedWorld P W) → Prop
  | .running activation =>
    match activation.rest with
    | instruction :: _ => Leaks kept activation.env instruction.kind
    | [] => ∃ value, activation.terminator = some (.ret (some value)) ∧
        (activation.env value).Carries kept
  | _ => False

/-- The alloca lies in a block on a cycle and its address is stored somewhere. -/
def RebuiltInCycle (function : Function) (root : Value) : Prop :=
  (∃ block ∈ function.blocks, block.id ∈ blocksOnCycles function ∧
    ∃ instruction ∈ block.instructions, ∃ ty, instruction.kind = .alloca root ty) ∧
  ∃ ptr value, .store ptr value ∈ function.kinds ∧ AddressOf function root value

/-- The instruction moves no address by a copy, cast or load, and stores none into an alloca that is
built again in a cycle and itself stored. -/
def DirectInstruction (function : Function) (env : Value → Tagged P) (cells : P → Finset Value) :
    InstructionKind → Prop
  | .copy _ source => (env source).roots = ∅
  | .cast _ operand _ _ => (env operand).roots = ∅
  | .load _ ptr _ => cells (env ptr).payload = ∅
  | .store ptr value =>
    (env value).roots ≠ ∅ → ∀ root ∈ (env ptr).roots, ¬RebuiltInCycle function root
  | _ => True

/-- The next step moves no address but by element and field addresses: neither its instruction nor,
at the end of a block, a phi of a successor. -/
def DirectStep (function : Function) : State (Tagged P) (TaggedWorld P W) → Prop
  | .running activation =>
    match activation.rest with
    | instruction :: _ =>
      DirectInstruction function activation.env activation.world.cells instruction.kind
    | [] => ∀ target ∈ function.blocks, target.id ∈ blockSuccessors activation.terminator →
        ∀ instruction ∈ target.instructions, ∀ result incoming,
          instruction.kind = .phi result incoming →
          ∀ entry ∈ incoming, entry.2 = activation.block → (activation.env entry.1).roots = ∅
  | _ => True

end Tracking

section Runs
variable {P W : Type*} {module : Module} {function : Function} {first : BasicBlock}

/-- Tracked registers agree with the computed roots. -/
structure AgreesWithRoots (function : Function) (earlier : List BasicBlock)
    (executed : List Instruction) (env : Value → Tagged P) : Prop where
  known : ∀ value, ∀ root ∈ (env value).roots, derivedFromAlloca function value = some root
  present : ∀ value root, derivedFromAlloca function value = some root →
    function.Available earlier executed value →
    root ∈ (env value).roots

variable {value root : Value} {env : Value → Tagged P} {block : BasicBlock}
  {earlier : List BasicBlock}

variable {cells : P → Finset Value}

theorem computedRoots_derived {kind : InstructionKind} {result ptr : Value}
    (derives : derivedAddress kind = some (result, ptr)) :
    computedRoots kind (kind.reads.map env) cells = (env ptr).roots := by
  cases kind with
  | getElementPtr | fieldPtr =>
    obtain ⟨-, rfl⟩ := Prod.mk.inj (Option.some.inj derives)
    rfl
  | _ => simp [derivedAddress] at derives

section
variable (verified : Verified module function first)
include verified

variable {instruction : Instruction}

/-- The results of an instruction that moves no address agree with the computed roots. -/
theorem result_agrees (walk : Trail function.Edge first (block :: earlier)) {index : Nat}
    (found : block.instructions[index]? = some instruction)
      (notPhi : instruction.kind.isPhi = false)
    (agrees : AgreesWithRoots function earlier (block.instructions.take index) env)
    (direct : DirectInstruction function env cells instruction.kind)
      (defined : value ∈ instruction.kind.defines) :
    (∀ root ∈ computedRoots instruction.kind (instruction.kind.reads.map env) cells,
      derivedFromAlloca function value = some root) ∧
    ∀ root, derivedFromAlloca function value = some root → instruction.kind.changesWorld = false ∧
        root ∈ computedRoots instruction.kind (instruction.kind.reads.map env) cells := by
  have inside := verified.path_mem_blocks walk block mem_cons_self
  have listed : instruction.kind ∈ function.kinds :=
    Function.mem_kinds.mpr ⟨block, inside, instruction, mem_of_getElem? found, rfl⟩
  constructor
  · intro root carried
    cases derives : derivedAddress instruction.kind with
    | some address =>
      obtain ⟨result, ptr⟩ := address
      rw [computedRoots_derived derives] at carried
      obtain rfl : value = result := by simpa [(derivedAddress_defines derives).1] using defined
      obtain ⟨candidate, source⟩ :=
        (derivedFromAlloca_iff verified).mp (agrees.known ptr root carried)
      exact (derivedFromAlloca_iff verified).mpr ⟨candidate, .derived listed derives source⟩
    | none =>
      cases kind : instruction.kind with
      | alloca result ty =>
        obtain rfl : value = result := by simpa [kind, defines, result?, status?] using defined
        simp only [kind, computedRoots] at carried
        split_ifs at carried with small
        · rw [Finset.mem_singleton.mp carried]
          exact (derivedFromAlloca_iff verified).mpr
            ⟨⟨ty, kind ▸ listed, small⟩, .alloca (kind ▸ listed)⟩
        · simp at carried
      | getElementPtr | fieldPtr => simp [kind, derivedAddress] at derives
      | copy result source | cast result operand sourceTy targetTy | load result ptr ty =>
        simp only [kind, DirectInstruction] at direct
        simp [kind, computedRoots, reads, direct] at carried
      | _ => simp [kind, computedRoots] at carried
  · intro root known
    obtain ⟨⟨ty, allocated, small⟩, address⟩ := (derivedFromAlloca_iff verified).mp known
    rcases address.inv verified listed defined with ⟨rfl, _⟩ | ⟨ptr, derives, source⟩
    · have shape := verified.kind_unique allocated listed (by simp [defines, result?]) defined rfl
      exact ⟨by simp [← shape, changesWorld], by simp [← shape, computedRoots, small]⟩
    · obtain ⟨_, _, _, pure, read, _⟩ := derivedAddress_defines derives
      refine ⟨pure, ?_⟩
      rw [computedRoots_derived derives]
      have operands : instructionOperands instruction = instruction.kind.reads := by
        apply instructionOperands_eq_reads
        cases shape : instruction.kind <;> simp_all [derivedAddress, isStateLoad]
      exact agrees.present ptr root
        ((derivedFromAlloca_iff verified).mpr ⟨⟨ty, allocated, small⟩, source⟩)
        (source.computes.available verified walk found notPhi (operands ▸ read))

variable (base : Machine P W)

theorem agrees_after_execute [DecidableEq P]
    {activation moved : Activation (Tagged P) (TaggedWorld P W)} {executed : List Instruction}
    (place : activation.At function first block earlier executed)
    (agrees : AgreesWithRoots function earlier executed activation.env)
    {later : List Instruction} (next : activation.rest = instruction :: later)
      (listed : instruction.kind ∈ function.kinds)
    (direct : DirectInstruction function activation.env activation.world.cells instruction.kind)
    (step : (trackedMachine base).execute activation instruction.kind later = .running moved) :
    AgreesWithRoots function earlier (executed ++ [instruction]) moved.env := by
  obtain ⟨found, prior⟩ := place.next next
  rcases (Machine.execute_at place next step).2 with ⟨phi, rfl⟩ |
    ⟨notPhi, world, results, exec, env⟩
  · refine ⟨agrees.known, fun value root known available => ?_⟩
    exact agrees.present value root known ((Function.available_append available).resolve_right
      ((computes_of_derived verified known).not_phi verified listed phi))
  · rw [← prior] at agrees
    have result {value : Value} (defined : value ∈ instruction.kind.defines) :=
      result_agrees verified place.walk found notPhi agrees direct defined
    -- Computed results carry the computed roots, results of other operations none.
    have outcome : (instruction.kind.changesWorld = true ∧ ∀ new ∈ results, new.roots = ∅) ∨
        instruction.kind.changesWorld = false ∧ ∃ new, results = [new] ∧ new.roots =
          computedRoots instruction.kind (instruction.kind.reads.map activation.env)
            activation.world.cells := by
      unfold Machine.exec at exec
      cases effect : instruction.kind.changesWorld with
      | true =>
        simp only [effect, if_true, trackedMachine] at exec
        split at exec
        · simp at exec
        · obtain ⟨-, rfl⟩ := Prod.mk.inj (Except.ok.inj exec)
          exact .inl ⟨rfl, by simp⟩
      | false =>
        simp only [effect, Bool.false_eq_true, if_false] at exec
        split at exec
        · simp at exec
        · obtain ⟨-, rfl⟩ := Prod.mk.inj (Except.ok.inj exec)
          exact .inr ⟨rfl, _, rfl, rfl⟩
    rw [prior] at agrees
    refine ⟨fun value root carried => ?_, fun value root known available => ?_⟩
    · rw [env] at carried
      rcases assign_cases activation.env (instruction.kind.defines.zip results) value with
        ⟨_, kept⟩ | assigned
      · rw [kept] at carried
        exact agrees.known value root carried
      · obtain ⟨defined, produced⟩ := of_mem_zip assigned
        rcases outcome with ⟨_, empty⟩ | ⟨_, new, rfl, roots⟩
        · simp [empty _ produced] at carried
        · rw [mem_singleton.mp produced, roots] at carried
          exact (result defined).1 root carried
    · rw [env]
      by_cases defined : value ∈ instruction.kind.defines
      · obtain ⟨pure, carried⟩ := (result defined).2 root known
        rcases outcome with ⟨effect, _⟩ | ⟨_, new, rfl, roots⟩
        · simp [pure] at effect
        · obtain ⟨target, defines, _⟩ := defines_of_pure pure
          obtain rfl : value = target := by simpa [defines] using defined
          simpa [defines, assign, roots] using carried
      · rw [← env, Machine.execute_env place next step defined]
        exact agrees.present value root known
          ((Function.available_append available).resolve_right defined)

theorem agrees_after_enter {activation : Activation (Tagged P) (TaggedWorld P W)}
    {target : BasicBlock} (place : activation.At function first block earlier block.instructions)
    (agrees : AgreesWithRoots function earlier block.instructions activation.env)
      (finished : activation.rest = [])
    (direct : DirectStep function (.running activation)) (inside : target ∈ function.blocks)
    (edge : function.Edge block target) : AgreesWithRoots function (block :: earlier) []
      (assign activation.env (phiValues target.instructions block.id activation.env)) := by
  simp only [DirectStep, finished] at direct
  -- The values that phis receive are no addresses.
  have phis : ∀ value new, (value, new) ∈ phiValues target.instructions block.id activation.env →
    new.roots = ∅ := by
    intro value new listed
    obtain ⟨instruction, within, incoming, kind, source, selected, from_, rfl⟩ :=
      mem_phiValues listed
    refine direct target inside ?_ instruction within value incoming kind source selected ?_
    · rw [place.terminator_eq]
      exact edge.1
    · rw [place.block_eq, from_]
  refine ⟨fun value root carried => ?_, fun value root known available => ?_⟩
  · rcases assign_cases activation.env (phiValues target.instructions block.id activation.env)
      value with
      ⟨_, kept⟩ | assigned
    · rw [kept] at carried
      exact agrees.known value root carried
    · simp [phis value _ assigned] at carried
  · rw [(computes_of_derived verified known).assign_phis verified inside]
    exact agrees.present value root known (Function.available_completed available)

theorem agreeingState_step [DecidableEq P] {state next : State (Tagged P) (TaggedWorld P W)}
    (agreeing : state.OnPath function first (AgreesWithRoots function))
      (direct : DirectStep function state)
    (step : (trackedMachine base).step function state = some next) :
    next.OnPath function first (AgreesWithRoots function) := by
  refine agreeing.step verified step ?_ ?_
  · rintro _ _ _ _ _ _ _ rfl place agrees remaining listed step
    simp only [DirectStep, remaining] at direct
    exact agrees_after_execute verified base place agrees remaining listed direct step
  · rintro _ _ _ _ rfl finished place agrees inside edge
    exact agrees_after_enter verified place agrees finished direct inside edge

theorem agreeingState_start (untagged : ∀ value, (env value).roots = ∅) (world : TaggedWorld P W) :
    (Machine.start function env world).OnPath function first (AgreesWithRoots function) := by
  intro activation start
  obtain ⟨place, same⟩ := Machine.start_at verified.first_eq start
  refine ⟨first, [], [], place, fun value root carried => ?_, fun value root known available => ?_⟩
  · simp [same, untagged] at carried
  · exact absurd available ((computes_of_derived verified known).not_available_first verified)

end

/-- An address that the analysis sees escape is not kept. -/
theorem not_kept_of_escaping (inside : block ∈ function.blocks)
    (escapes : value ∈ returnedOperand block.terminator ∨ ∃ instruction ∈ block.instructions,
      value ∈ escapingOperands (derivedFromAlloca function) instruction.kind)
    (known : derivedFromAlloca function value = some root) : root ∉ keptRoots function := by
  intro kept
  apply (mem_keptRoots kept).1
  refine mem_flatMap.mpr ⟨block, inside, mem_filterMap.mpr ⟨value, ?_, known⟩⟩
  rw [mem_append, mem_flatMap]
  exact escapes

theorem rebuiltInCycle_of_cyclicRoots (verified : Verified module function first)
    (cyclic : root ∈ cyclicRoots function) : RebuiltInCycle function root := by
  obtain ⟨kind, listed, selected⟩ := mem_filterMap.mp cyclic
  cases kind with
  | store ptr value =>
    simp only at selected
    cases known : derivedFromAlloca function value with
    | none => simp [known] at selected
    | some other =>
      cases home : allocaBlock function other with
      | none => simp [known, home] at selected
      | some id =>
        simp only [known, home] at selected
        split_ifs at selected with onCycle
        obtain rfl := Option.some.inj selected
        obtain ⟨⟨found, _⟩, search, rfl⟩ := Option.map_eq_some_iff.mp home
        obtain rfl : found = other := by simpa using find?_some search
        obtain ⟨block, inside, rfl, instruction, within, ty, shape, _⟩ :=
          mem_candidates.mp (mem_reverse.mp (mem_of_find?_eq_some search))
        exact ⟨⟨block, inside, onCycle, instruction, within, ty, shape⟩, ptr, value, listed,
          ((derivedFromAlloca_iff verified).mp known).2⟩
  | _ => simp at selected

/-- A state that agrees with the computed roots and moves no address lets no kept alloca escape. -/
theorem not_escapes_of_agreeing (verified : Verified module function first)
    {state : State (Tagged P) (TaggedWorld P W)}
      (agreeing : state.OnPath function first (AgreesWithRoots function))
    (direct : DirectStep function state) : ¬Escapes (collectStackAllocas function) state := by
  cases state with
  | running activation =>
    obtain ⟨block, earlier, executed, place, agrees⟩ := agreeing activation rfl
    have inside := verified.path_mem_blocks place.walk block mem_cons_self
    have keptOf {root : Value} (kept : root ∈ collectStackAllocas function) :
      root ∈ keptRoots function :=
      (Finset.mem_sdiff.mp kept).1
    cases remaining : activation.rest with
    | nil =>
      simp only [Escapes, remaining]
      rintro ⟨value, ends, root, carried, kept⟩
      refine not_kept_of_escaping inside (.inl ?_) (agrees.known value root carried) (keptOf kept)
      simp [← place.terminator_eq, ends, returnedOperand]
    | cons instruction later =>
      obtain ⟨found, prior⟩ := place.next remaining
      have within := mem_of_getElem? found
      have operand {value : Value}
        (escapes : value ∈ escapingOperands (derivedFromAlloca function) instruction.kind) :
          ¬(activation.env value).Carries (collectStackAllocas function) := by
        rintro ⟨root, carried, kept⟩
        exact not_kept_of_escaping inside (.inr ⟨instruction, within, escapes⟩)
          (agrees.known value root carried) (keptOf kept)
      simp only [Escapes, remaining]
      simp only [DirectStep, remaining] at direct
      cases kind : instruction.kind with
      | store ptr value =>
        rintro ⟨⟨root, carried, kept⟩, lost⟩
        have known := agrees.known value root carried
        cases target : derivedFromAlloca function ptr with
        | none => exact operand (by simp [kind, escapingOperands, target]) ⟨root, carried, kept⟩
        | some container =>
          -- The pointer is an address of the container, which is kept because its content is.
          have available := (computes_of_derived verified target).available verified place.walk
            found (by simp [kind, isPhi]) (by simp [instructionOperands, kind])
          rw [prior] at available
          have here := agrees.present ptr container target available
          refine lost ⟨container, here, Finset.mem_sdiff.mpr ⟨?_, fun cyclic => ?_⟩⟩
          · by_cases same : container = root
            · exact same ▸ keptOf kept
            · refine (mem_keptRoots (keptOf kept)).2 container
                (mem_filterMap.mpr ⟨.store ptr value, ?_, ?_⟩)
              · exact Function.mem_kinds.mpr ⟨block, inside, instruction, within, kind⟩
              · simp [known, target, same]
          · rw [kind] at direct
            exact direct (Finset.ne_empty_of_mem carried) container here
              (rebuiltInCycle_of_cyclicRoots verified (mem_toFinset.mp cyclic))
      | hostCall | callIndirect =>
        rintro ⟨arg, listed, carried⟩
        exact operand (by simpa [kind, escapingOperands] using listed) carried
      | asyncReady result value ty =>
        rintro ⟨ready, listed, carried⟩
        exact operand (by simpa [kind, escapingOperands] using listed) carried
      | makeDynFatPtr result dataPtr vtablePtr =>
        intro carried
        exact operand (by simp [kind, escapingOperands]) carried
      | _ => exact id
  | returned | trapped | stuck => exact id

end Runs

/-- In a run of an accepted function that moves alloca addresses only by element and field
addresses, and stores none into an alloca that is built again in a cycle and itself stored, no
alloca kept on the stack escapes. -/
theorem kept_does_not_escape {P W : Type*} [DecidableEq P] {module : Module}
    (accepted : verifyModule module = .ok ())
    {function : Function} (member : function ∈ module.functions) (base : Machine P W)
      {env : Value → Tagged P}
    (untagged : ∀ value, (env value).roots = ∅) (world : TaggedWorld P W) (n : Nat)
    (direct : ∀ i ≤ n, DirectStep function (Simulation.run ((trackedMachine base).step function) i
      (Machine.start function env world))) :
    ¬Escapes (collectStackAllocas function) (Simulation.run ((trackedMachine base).step function) n
      (Machine.start function env world)) := by
  obtain ⟨first, verified⟩ := verified_of_accepted accepted member
  refine not_escapes_of_agreeing verified ?_ (direct n le_rfl)
  exact run_invariant_of_good (State.OnPath function first (AgreesWithRoots function))
    (fun _ _ direct agreeing step => agreeingState_step verified base agreeing direct step)
    (agreeingState_start verified untagged world) fun i before => direct i before.le

/-- The address of a field of one alloca is stored into another one. -/
def nestedAllocas : Function where
  name := "main"
  params := []
  returnType := .void
  blocks :=
    [⟨0, "entry", [⟨0, .alloca 0 (.struct "Pair" [("a", .int), ("b", .int)])⟩, ⟨1, .fieldPtr 1 0 1⟩,
    ⟨2, .alloca 2 .int⟩, ⟨3, .store 2 1⟩], some (.ret none)⟩]
  nextValueId := 3
  nextBlockId := 1

/-- A machine on numbers whose allocations are told apart by their site and count. -/
def countingMachine : Machine Nat Unit where
  compute kind count args _ := (kind.result?.getD 0) + count + args.sum
  trap _ _ := none
  perform _ _ _ := .ok ((), [0])
  isTrue value := value ≠ 0
  matchesCase value bits := value = bits.toNat

theorem nestedAllocas_does_not_escape :
    verifyModule ⟨"sample", [nestedAllocas], [], []⟩ = .ok () ∧
      {0, 2} ⊆ collectStackAllocas nestedAllocas ∧
    ¬Escapes (collectStackAllocas nestedAllocas)
      (Simulation.run ((trackedMachine countingMachine).step nestedAllocas) 3
        (Machine.start nestedAllocas (fun _ => ⟨0, ∅⟩) ⟨(), fun _ => ∅⟩)) := by
  have accepted : verifyModule ⟨"sample", [nestedAllocas], [], []⟩ = .ok () := by decide +kernel
  refine ⟨accepted, by decide +kernel, ?_⟩
  refine kept_does_not_escape accepted (mem_singleton_self _) countingMachine (fun _ => rfl) _ 3
    fun i bound => ?_
  obtain rfl | rfl | rfl | rfl : i = 0 ∨ i = 1 ∨ i = 2 ∨ i = 3 := by omega
  · trivial
  · trivial
  · trivial
  · rintro _ root _ ⟨⟨block, inside, onCycle, _⟩, _⟩
    obtain rfl := mem_singleton.mp inside
    exact absurd onCycle (by decide +kernel)

/-- A copy of an alloca's address is passed to the host. -/
def copiedAddress : Function where
  name := "main"
  params := []
  returnType := .void
  blocks :=
    [⟨0, "entry", [⟨0, .alloca 0 .int⟩, ⟨1, .copy 1 0⟩, ⟨2, .hostCall none "print" [1] none⟩],
      some (.ret none)⟩]
  nextValueId := 2
  nextBlockId := 1

/-- The analysis does not follow the copy: the alloca is kept although its address reaches the
host. -/
theorem copiedAddress_escapes :
    verifyModule ⟨"sample", [copiedAddress], [], []⟩ = .ok () ∧
      0 ∈ collectStackAllocas copiedAddress ∧
    Escapes (collectStackAllocas copiedAddress)
      (Simulation.run ((trackedMachine countingMachine).step copiedAddress) 2
        (Machine.start copiedAddress (fun _ => ⟨0, ∅⟩) ⟨(), fun _ => ∅⟩)) := by
  have kept : 0 ∈ collectStackAllocas copiedAddress := by decide +kernel
  refine ⟨by decide +kernel, kept, 1, mem_singleton_self _, 0, ?_, kept⟩
  exact Finset.mem_singleton_self 0

end StackAllocas

end SpectraLang
