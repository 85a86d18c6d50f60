import Mathlib.Data.Prod.Lex
import SpectraLang.TypeRules
import SpectraLang.Lowering.TypeNames

/-! # Symbols of specialisations and the two worklists

The symbol of a request determines it when the names of generics and of types do not continue one
another behind an underscore and the rendering of the types drops nothing. Both worklists are
drained after finitely many turns. Every requested specialisation is then in the module, provided
that method bodies ask for no missing function specialisation, because the function requests are not
drained again.
-/

namespace SpectraLang

open List

namespace Monomorphization

open Separated Simulation

variable {request : MonomorphizationRequest} {symbol : String}

section Symbols

/-- The names a program uses in symbols: those of its types, of its generic functions, and of the
structs whose generic methods it calls. -/
structure Naming where
  words : Vocabulary
  generics : String → Prop
  structs : String → Prop

namespace Naming

variable (naming : Naming)

structure Clear : Prop where
  words : naming.words.Clear
  generics : ∀ first second, naming.generics first → naming.generics second →
    NamesApart first second
  structs : ∀ name struct, naming.generics name → naming.structs struct → struct ≠ name ∧
    NamesApart name struct

/-- The call stays within the names and asks for types that can be read back. -/
def Asks : GenericCall → Prop
  | .function request =>
    naming.generics request.genericName ∧ ∀ ty ∈ request.concreteTypes, naming.words.Readable ty
  | .method request => naming.structs request.instantiatedStruct

/-- The calls of a program: those of its declared functions, and those of a body specialised at such
a request. -/
structure Covers {σ : Type*} (lowering : BodyLowering σ) (calls : List GenericCall) : Prop where
  calls : ∀ call ∈ calls, naming.Asks call
  functions : ∀ state request, naming.Asks (.function request) →
    ∀ call ∈ (lowering.lowerFunction state request).calls, naming.Asks call
  methods : ∀ state request, naming.Asks (.method request) →
    ∀ call ∈ (lowering.lowerMethod state request).calls, naming.Asks call

end Naming

variable {naming : Naming}

/-- A name that is neither the generic name of the request nor continues it. -/
def Unrelated (request : MonomorphizationRequest) (symbol : String) : Prop :=
  symbol ≠ request.genericName ∧ ¬ContinuesName request.genericName symbol

theorem types_of_behind (clear : naming.words.Clear) {first second : List IRType}
    (readable : ∀ ty ∈ first, naming.words.Readable ty)
      (readable' : ∀ ty ∈ second, naming.words.Readable ty)
    (same : behind '_' (first.map fun ty => (typeToString ty).toList) =
      behind '_' (second.map fun ty => (typeToString ty).toList)) : first = second := by
  induction first generalizing second with
  | nil =>
    cases second with
    | nil => rfl
    | cons => simp [behind] at same
  | cons ty first ih =>
    cases second with
    | nil => simp [behind] at same
    | cons other second =>
      obtain ⟨rfl, rest⟩ := (readable ty mem_cons_self).readsBack clear other
        (readable' other mem_cons_self) _ _ (List.cons.inj same).2
      rw [ih (fun ty member => readable ty (mem_cons_of_mem _ member))
        (fun ty member => readable' ty (mem_cons_of_mem _ member)) rest]

/-- Requests over clear names with one symbol are the same request. -/
theorem request_of_mangledName (clear : naming.Clear) {first second : MonomorphizationRequest}
    (asks : naming.Asks (.function first)) (asks' : naming.Asks (.function second))
    (same : first.mangledName = second.mangledName) : first = second := by
  have joined := congrArg String.toList same
  simp only [MonomorphizationRequest.mangledName, appendTypes_toList] at joined
  obtain ⟨names, rest⟩ :=
    head_unique joined (apart_of_namesApart (clear.generics _ _ asks.1 asks'.1))
  have types := types_of_behind clear.words asks.2 asks'.2 rest
  obtain ⟨firstName, firstTypes⟩ := first
  obtain ⟨secondName, secondTypes⟩ := second
  simp only at names types
  rw [String.toList_inj.mp names, types]

/-- The symbol of a method is unrelated to a function request whose generic is told apart from the
struct. -/
theorem unrelated_method {struct : String} (different : struct ≠ request.genericName)
    (apart : NamesApart request.genericName struct) (method : String) :
    Unrelated request (struct ++ "_" ++ method) := by
  have rendered : (struct ++ "_" ++ method).toList = struct.toList ++ behind '_'
    [method.toList] := by
    simp [behind, String.toList_append]
  constructor
  · intro same
    refine (apart (Ne.symm different)).2 ⟨method.toList, ?_⟩
    rw [← same, rendered]
    simp [behind]
  · rintro ⟨rest, split⟩
    rw [rendered] at split
    have joined : request.genericName.toList ++ behind '_' [rest] = struct.toList ++ behind '_'
      [method.toList] := by
      rw [split]
      simp [behind]
    exact different (String.toList_inj.mp (head_unique joined (apart_of_namesApart apart)).1).symm

theorem mangledName_ne_of_unrelated (unrelated : Unrelated request symbol) :
    request.mangledName ≠ symbol := by
  rintro rfl
  have rendered := appendTypes_toList request.genericName request.concreteTypes
  cases types : request.concreteTypes with
  | nil => exact unrelated.1 (by simp [MonomorphizationRequest.mangledName, types, appendTypes])
  | cons ty rest =>
    apply unrelated.2
    rw [types, map_cons, behind, flatMap_cons, cons_append] at rendered
    rw [ContinuesName, MonomorphizationRequest.mangledName, types, rendered]
    exact ⟨_, rfl⟩

end Symbols

variable {naming : Naming}

section Worklists
variable {σ : Type*} (lowering : BodyLowering σ)

/-- Every call of a generic refers to a function of the module. -/
def Closed (state : Specialization σ) : Prop :=
  ∀ call ∈ state.calls, call.callee ∈ state.functions.map Prod.fst

/-- The symbol of a function fits what it was made from. -/
def SymbolFits (declared : List String) (calls : List GenericCall) (symbol : String) : Origin → Prop
  | .declared => symbol ∈ declared
  | .function request => symbol = request.mangledName ∧ .function request ∈ calls
  | .method request => ∃ methodName, symbol = request.instantiatedStruct ++ "_" ++ methodName

/-- Where the functions of the module and the pending requests come from. -/
structure Traced (declared : List String) (state : Specialization σ) : Prop where
  functions : ∀ entry ∈ state.functions, SymbolFits declared state.calls entry.1 entry.2
  pending : ∀ request ∈ state.pendingFunctions, .function request ∈ state.calls

/-- The request of the call is in a worklist. -/
def Waits (state : Specialization σ) : GenericCall → Prop
  | .function request => request ∈ state.pendingFunctions
  | .method request => request ∈ state.pendingMethods ∨ request ∈ state.batch

/-- Calls are generated, waiting, or among the symbols being worked on; generated symbols are in the
module. -/
structure Covered (current : List String) (state : Specialization σ) : Prop where
  calls : ∀ call ∈ state.calls, call.callee ∈ current ∨ call.callee ∈ state.generated ∨
    Waits state call
  present : ∀ symbol ∈ state.generated, symbol ∈ state.functions.map Prod.fst
  generic : ∀ request ∈ state.pendingFunctions, lowering.genericFunctions request.genericName = true

variable {lowering} {declared current : List String} {state : Specialization σ}

/-- The function requests that the calls leave behind, the last one first. -/
private def functionRequests (lowering : BodyLowering σ) (generated : List String)
    (calls : List GenericCall) : List MonomorphizationRequest :=
  (calls.filterMap fun
    | .function request =>
      if lowering.genericFunctions request.genericName ∧
        request.mangledName ∉ generated then some request else none
    | .method _ => none).reverse

private def methodRequests (generated : List String) (calls : List GenericCall) :
    List MethodMonomorphizationRequest :=
  calls.filterMap fun
    | .function _ => none
    | .method request => if request.mangledName ∉ generated then some request else none

/-- The calls that are emitted: all but those of functions that are not generic. -/
private def emittedCalls (lowering : BodyLowering σ) (calls : List GenericCall) :
    List GenericCall :=
  calls.filter fun
    | .function request => lowering.genericFunctions request.genericName
    | .method _ => true

/-- Emitting calls only adds calls and requests. -/
theorem emitCalls_eq (lowering : BodyLowering σ) (state : Specialization σ)
    (calls : List GenericCall) : calls.foldl (emitCall lowering) state = { state with
        calls := state.calls ++ emittedCalls lowering calls
        pendingFunctions := functionRequests lowering state.generated calls ++
          state.pendingFunctions
        pendingMethods := state.pendingMethods ++ methodRequests state.generated calls } := by
  induction calls generalizing state with
  | nil => simp [emittedCalls, functionRequests, methodRequests]
  | cons call rest ih =>
    rw [foldl_cons, ih]
    cases call with
    | function request =>
      by_cases generic : lowering.genericFunctions request.genericName <;>
        by_cases generated : request.mangledName ∈ state.generated <;>
        simp [emitCall, emittedCalls, functionRequests, methodRequests, generic, generated]
    | method request =>
      by_cases generated : request.mangledName ∈ state.generated <;>
        simp [emitCall, emittedCalls, functionRequests, methodRequests, generated]

variable {calls : List GenericCall} {generated : List String}

theorem mem_functionRequests :
    request ∈ functionRequests lowering generated calls ↔
      .function request ∈ emittedCalls lowering calls ∧
      request.mangledName ∉ generated := by
  simp only [functionRequests, emittedCalls, mem_reverse, mem_filterMap, mem_filter]
  constructor
  · rintro ⟨_ | _, member, same⟩ <;> grind
  · rintro ⟨⟨member, generic⟩, fresh⟩
    exact ⟨_, member, by simp [generic, fresh]⟩

theorem mem_methodRequests {request : MethodMonomorphizationRequest} :
    request ∈ methodRequests generated calls ↔
      .method request ∈ emittedCalls lowering calls ∧ request.mangledName ∉ generated := by
  simp only [methodRequests, emittedCalls, mem_filterMap, mem_filter]
  constructor
  · rintro ⟨_ | _, member, same⟩ <;> grind
  · rintro ⟨⟨member, -⟩, fresh⟩
    exact ⟨_, member, by simp [fresh]⟩

theorem symbolFits_mono {more : List GenericCall} (grown : calls ⊆ more) {origin : Origin}
    (fits : SymbolFits declared calls symbol origin) : SymbolFits declared more symbol origin := by
  cases origin with
  | declared | method request => exact fits
  | function request => exact ⟨fits.1, grown fits.2⟩

theorem emitCalls_traced (lowering : BodyLowering σ) (traced : Traced declared state)
    (calls : List GenericCall) : Traced declared (calls.foldl (emitCall lowering) state) ∧
      state.calls ⊆ (calls.foldl (emitCall lowering) state).calls := by
  rw [emitCalls_eq]
  refine ⟨⟨fun entry member => symbolFits_mono (by simp) (traced.functions entry member),
    fun request member => ?_⟩, by simp⟩
  rcases mem_append.mp member with new | old
  · exact mem_append_right _ (mem_functionRequests.mp new).1
  · exact mem_append_left _ (traced.pending request old)

theorem emitCalls_covered (covered : Covered lowering current state) (calls : List GenericCall) :
    Covered lowering current (calls.foldl (emitCall lowering) state) := by
  rw [emitCalls_eq]
  refine ⟨fun call called => ?_, covered.present, fun request member => ?_⟩
  · rcases mem_append.mp called with old | new
    · refine (covered.calls call old).imp_right (.imp_right fun waits => ?_)
      cases call with
      | function => exact mem_append_right _ waits
      | method => exact waits.imp_left (mem_append_left _)
    · refine .inr (or_iff_not_imp_left.mpr fun missing => ?_)
      cases call with
      | function => exact mem_append_left _ (mem_functionRequests.mpr ⟨new, missing⟩)
      | method => exact .inl (mem_append_right _ (mem_methodRequests.mpr ⟨new, missing⟩))
  · rcases mem_append.mp member with new | old
    · exact (mem_filter.mp (mem_functionRequests.mp new).1).2
    · exact covered.generic request old

theorem emitBody_covered (covered : Covered lowering current state) (body : LoweredBody σ) :
    Covered lowering current (emitBody lowering state body) := by
  unfold emitBody
  apply emitCalls_covered
  exact ⟨covered.calls, covered.present, covered.generic⟩

theorem emitBody_traced (lowering : BodyLowering σ) (traced : Traced declared state)
    (body : LoweredBody σ) :
    Traced declared (emitBody lowering state body) ∧ state.calls ⊆
      (emitBody lowering state body).calls := by
  refine emitCalls_traced lowering (?_ : Traced declared
    { state with state := body.state, errors := state.errors ++ body.errors }) body.calls
  exact ⟨traced.functions, traced.pending⟩

variable {key : String} {next : Specialization σ}

theorem addSpecialization_traced (traced : Traced declared state) {origin : Origin}
    (fits : SymbolFits declared state.calls symbol origin) :
    Traced declared (addSpecialization state key symbol origin) := by
  refine ⟨fun entry member => ?_, traced.pending⟩
  rcases mem_append.mp member with old | new
  · exact traced.functions entry old
  · rw [mem_singleton.mp new]
    exact fits

/-- A specialisation under its own symbol settles the symbol being worked on. -/
theorem addSpecialization_covered (covered : Covered lowering [key] state) (origin : Origin) :
    Covered lowering [] (addSpecialization state key key origin) := by
  refine ⟨fun call called => .inr ?_, fun symbol member => ?_, covered.generic⟩
  · rcases covered.calls call called with same | known | waiting
    · exact .inl (by simp [addSpecialization, mem_singleton.mp same])
    · exact .inl (mem_cons_of_mem _ known)
    · exact .inr waiting
  · simp only [addSpecialization, map_append, mem_append]
    rcases mem_cons.mp member with rfl | member
    · simp
    · exact .inl (covered.present symbol member)

/-- Taking a request out of the list leaves its symbol to be worked on. -/
theorem covered_pop {rest : List MonomorphizationRequest}
    (covered : Covered lowering [] state) (next : state.pendingFunctions = request :: rest) :
    Covered lowering [request.mangledName] { state with pendingFunctions := rest } := by
  refine ⟨fun call called => ?_, covered.present, fun other member => covered.generic other
    (by simp [next, member])⟩
  rcases (covered.calls call called).resolve_left (by simp) with known | waiting
  · exact .inr (.inl known)
  · cases call with
    | method => exact .inr (.inr waiting)
    | function =>
      rw [Waits, next] at waiting
      rcases mem_cons.mp waiting with rfl | waiting
      · exact .inl mem_cons_self
      · exact .inr (.inr waiting)

theorem covered_of_generated (covered : Covered lowering [key] state)
    (known : key ∈ state.generated) : Covered lowering [] state := by
  refine ⟨fun call called => .inr ?_, covered.present, covered.generic⟩
  rcases covered.calls call called with same | settled
  · exact .inl (mem_singleton.mp same ▸ known)
  · exact settled

/-- The limit, then the length of the list, go down in every turn of the function loop. -/
def functionMeasure (state : Specialization σ) : Nat × Nat :=
  (MAX_SPECIALIZATIONS - state.totalProcessed, state.pendingFunctions.length)

/-- The limit, then the requests of this and the next round, go down in every turn of the method
loop. -/
def methodMeasure (state : Specialization σ) : Nat × Nat :=
  (MAX_SPECIALIZATIONS + 1 - state.generated.length, 2 * state.pendingMethods.length +
    state.batch.length)

/-- The next method request, when lowered, names the method stored for it, and its body asks only
for function specialisations that have been generated. -/
def SelfContainedStep (lowering : BodyLowering σ) (state : Specialization σ) : Prop :=
  ∀ request rest, state.batch = request :: rest → request.mangledName ∉ state.generated →
    (∀ methodName, lowering.genericImplMethods (methodKey lowering state.state request) =
      some methodName → methodName = request.methodName) ∧
    ∀ called, .function called ∈ (lowering.lowerMethod state.state request).calls →
      lowering.genericFunctions called.genericName = true → called.mangledName ∈ state.generated

theorem covered_popBatch {request : MethodMonomorphizationRequest}
    {rest : List MethodMonomorphizationRequest}
    (covered : Covered lowering [] state) (next : state.batch = request :: rest) :
    Covered lowering [request.mangledName] { state with batch := rest } := by
  refine ⟨fun call called => ?_, covered.present, covered.generic⟩
  rcases (covered.calls call called).resolve_left (by simp) with known | waiting
  · exact .inr (.inl known)
  · cases call with
    | function => exact .inr (.inr waiting)
    | method =>
      rw [Waits, next, mem_cons] at waiting
      rcases waiting with waiting | rfl | waiting
      · exact .inr (.inr (.inl waiting))
      · exact .inl mem_cons_self
      · exact .inr (.inr (.inr waiting))

section
variable (step : functionStep lowering state = some next)
include step

/-- What a turn of the function loop does with the next request. -/
theorem functionStep_cases :
    ∃ request rest, state.pendingFunctions = request :: rest ∧
      ((∃ message,
        next = { state with errors := state.errors ++ [message], pendingFunctions := [] }) ∨
      ((request.mangledName ∈ state.generated ∨ lowering.genericFunctions request.genericName =
        false) ∧ next = { state with pendingFunctions := rest }) ∨
      (state.totalProcessed < MAX_SPECIALIZATIONS ∧ next =
        { addSpecialization (emitBody lowering { state with pendingFunctions := rest }
            (lowering.lowerFunction state.state request)) request.mangledName request.mangledName
              (.function request) with
          totalProcessed := state.totalProcessed + 1 })) := by
  unfold functionStep at step
  cases pending : state.pendingFunctions with
  | nil => simp [pending] at step
  | cons request rest =>
    simp only [pending, Option.some.injEq] at step
    refine ⟨request, rest, rfl, ?_⟩
    split_ifs at step with limit generated generic
    · exact .inl ⟨_, step.symm⟩
    · exact .inr (.inl ⟨.inl generated, step.symm⟩)
    · refine .inr (.inr ⟨by omega, ?_⟩)
      rw [← step, emitBody, emitCalls_eq]
    · exact .inr (.inl ⟨.inr (by simpa using generic), step.symm⟩)

theorem functionStep_covered (covered : state.errors = [] → Covered lowering [] state)
    (clean : next.errors = []) : Covered lowering [] next := by
  obtain ⟨request, rest, pending, ⟨message, rfl⟩ | ⟨known, rfl⟩ | ⟨-, rfl⟩⟩ :=
    functionStep_cases step
  · simp at clean
  · rcases known with generated | unknown
    · exact covered_of_generated (covered_pop (covered clean) pending) generated
    · exact absurd ((covered clean).generic request (by simp [pending])) (by simp [unknown])
  · have noErrors : state.errors = [] := by
      simp only [addSpecialization, emitBody, emitCalls_eq, append_eq_nil_iff] at clean
      exact clean.1
    have lowered := emitBody_covered (covered_pop (covered noErrors) pending)
      (lowering.lowerFunction state.state request)
    have settled := addSpecialization_covered lowered (.function request)
    exact ⟨settled.calls, settled.present, settled.generic⟩

theorem functionStep_descends : Prod.Lex (· < ·) (· < ·) (functionMeasure next)
    (functionMeasure state) := by
  obtain ⟨request, rest, pending, ⟨message, rfl⟩ | ⟨-, rfl⟩ | ⟨below, rfl⟩⟩ :=
    functionStep_cases step
  · exact .right _ (by simp [pending])
  · exact .right _ (by simp [pending])
  · exact .left _ _ (by simp only; omega)

theorem functionStep_traced (traced : Traced declared state) : Traced declared next := by
  obtain ⟨request, rest, pending, outcome⟩ := functionStep_cases step
  have popped : Traced declared { state with pendingFunctions := rest } :=
    ⟨traced.functions, fun other member => traced.pending other (by simp [pending, member])⟩
  rcases outcome with ⟨message, rfl⟩ | ⟨-, rfl⟩ | ⟨-, rfl⟩
  · exact ⟨traced.functions, by simp⟩
  · exact popped
  · obtain ⟨lowered, grown⟩ :=
      emitBody_traced lowering popped (lowering.lowerFunction state.state request)
    have requested : .function request ∈ state.calls := traced.pending request (by simp [pending])
    have added :
      Traced declared
      (addSpecialization _ request.mangledName request.mangledName (.function request)) :=
      addSpecialization_traced lowered ⟨rfl, grown requested⟩
    exact ⟨added.functions, added.pending⟩

end

section
variable (step : methodStep lowering state = some next)
include step

/-- What a turn of the method loop does: it starts a round, or takes the next request of the
round. -/
theorem methodStep_cases :
    (state.batch = [] ∧ state.pendingMethods ≠ [] ∧
      next = { state with batch := state.pendingMethods, pendingMethods := [] }) ∨
    ∃ request rest, state.batch = request :: rest ∧
      ((∃ message pending, pending <+ state.pendingMethods ∧
        next = { state with batch := rest, errors := state.errors ++ [message], pendingMethods :=
          pending }) ∨
      (request.mangledName ∈ state.generated ∧ next = { state with batch := rest }) ∨
      ∃ methodName, state.generated.length ≤ MAX_SPECIALIZATIONS ∧
        lowering.genericImplMethods (methodKey lowering state.state request) = some methodName ∧
        request.mangledName ∉ state.generated ∧ next =
          addSpecialization
            (emitBody lowering { state with batch := rest }
            (lowering.lowerMethod state.state request))
            request.mangledName (request.instantiatedStruct ++ "_" ++ methodName)
              (.method request)) := by
  unfold methodStep at step
  cases round : state.batch with
  | nil =>
    cases pending : state.pendingMethods with
    | nil => simp [round, pending] at step
    | cons request rest =>
      simp only [round, pending, Option.some.injEq] at step
      exact .inl ⟨rfl, cons_ne_nil _ _, step.symm⟩
  | cons request rest =>
    simp only [round, Option.some.injEq, processMethodSpecialization] at step
    refine .inr ⟨request, rest, rfl, ?_⟩
    split_ifs at step with limit generated
    · exact .inl ⟨_, [], nil_sublist _, step.symm⟩
    · exact .inr (.inl ⟨generated, step.symm⟩)
    · cases found : lowering.genericImplMethods (methodKey lowering state.state request) with
      | none =>
        rw [found] at step
        exact .inl ⟨_, state.pendingMethods, .refl _, step.symm⟩
      | some methodName =>
        rw [found] at step
        exact .inr (.inr ⟨methodName, by omega, rfl, generated, step.symm⟩)

theorem methodStep_descends : Prod.Lex (· < ·) (· < ·) (methodMeasure next)
    (methodMeasure state) := by
  rcases methodStep_cases step with ⟨round, some, rfl⟩ |
    ⟨request, rest, round, ⟨_, pending, fewer, rfl⟩ | ⟨-, rfl⟩ |
    ⟨methodName, below, -, -, rfl⟩⟩
  · refine .right _ ?_
    have := length_pos_iff.mpr some
    simp only [round, length_nil]
    omega
  · refine .right _ ?_
    have := fewer.length_le
    simp only [round, length_cons]
    omega
  · exact .right _ (by simp [round])
  · refine .left _ _ ?_
    simp only [addSpecialization, emitBody, emitCalls_eq, length_cons]
    omega

/-- A turn of the method loop that reports no error and asks for no missing function. -/
theorem methodStep_covered (covered : state.errors = [] → Covered lowering [] state ∧
    state.pendingFunctions = []) (contained : SelfContainedStep lowering state)
    (clean : next.errors = []) : Covered lowering [] next ∧ next.pendingFunctions = [] := by
  rcases methodStep_cases step with ⟨round, -, rfl⟩ |
    ⟨request, rest, round, ⟨_, pending, -, rfl⟩ | ⟨generated, rfl⟩ |
    ⟨methodName, -, found, fresh, rfl⟩⟩
  · obtain ⟨covered, drained⟩ := covered clean
    refine ⟨⟨fun call called => ?_, covered.present, covered.generic⟩, drained⟩
    refine (covered.calls call called).imp_right (.imp_right fun waits => ?_)
    cases call with
    | function => exact waits
    | method => simpa [Waits, round] using waits
  · simp at clean
  · obtain ⟨covered, drained⟩ := covered clean
    exact ⟨covered_of_generated (covered_popBatch covered round) generated, drained⟩
  · have noErrors : state.errors = [] := by
      simp only [addSpecialization, emitBody, emitCalls_eq, append_eq_nil_iff] at clean
      exact clean.1
    obtain ⟨covered, drained⟩ := covered noErrors
    obtain ⟨named, requests⟩ := contained request rest round fresh
    -- The stored method has the requested name, so the symbol is that of the request.
    have lowered :=
      emitBody_covered (covered_popBatch covered round) (lowering.lowerMethod state.state request)
    rw [named methodName found]
    refine ⟨addSpecialization_covered lowered (.method request), ?_⟩
    rw [addSpecialization, emitBody, emitCalls_eq, ← drained, append_left_eq_self,
      eq_nil_iff_forall_not_mem]
    intro called requested
    obtain ⟨emitted, missing⟩ := mem_functionRequests.mp requested
    obtain ⟨member, generic⟩ := mem_filter.mp emitted
    exact missing (requests called member generic)

theorem methodStep_traced (traced : Traced declared state) : Traced declared next := by
  rcases methodStep_cases step with ⟨-, -, rfl⟩ |
    ⟨request, rest, -, ⟨_, _, -, rfl⟩ | ⟨-, rfl⟩ | ⟨methodName, -, -, -, rfl⟩⟩
  · exact ⟨traced.functions, traced.pending⟩
  · exact ⟨traced.functions, traced.pending⟩
  · exact ⟨traced.functions, traced.pending⟩
  · have popped : Traced declared { state with batch := rest } := ⟨traced.functions, traced.pending⟩
    exact addSpecialization_traced (emitBody_traced lowering popped _).1 ⟨methodName, rfl⟩

end

/-- Calls, requests and specialised methods stay within the names. -/
structure Vetted (naming : Naming) (state : Specialization σ) : Prop where
  calls : ∀ call ∈ state.calls, naming.Asks call
  functions : ∀ request ∈ state.pendingFunctions, naming.Asks (.function request)
  methods : ∀ request ∈ state.pendingMethods, naming.Asks (.method request)
  batch : ∀ request ∈ state.batch, naming.Asks (.method request)
  made : ∀ entry ∈ state.functions, ∀ request, entry.2 = .method request →
    naming.Asks (.method request)

theorem emitCalls_vetted (vetted : Vetted naming state) (asks : ∀ call ∈ calls, naming.Asks call) :
    Vetted naming (calls.foldl (emitCall lowering) state) := by
  have emitted : ∀ call ∈ emittedCalls lowering calls, naming.Asks call := fun call member =>
    asks call (mem_of_mem_filter member)
  rw [emitCalls_eq]
  refine ⟨fun call member => ?_, fun request member => ?_, fun request member => ?_, vetted.batch,
    vetted.made⟩
  · exact (mem_append.mp member).elim (vetted.calls call) (emitted call)
  · exact (mem_append.mp member).elim (fun new => emitted _ (mem_functionRequests.mp new).1)
      (vetted.functions request)
  · exact (mem_append.mp member).elim (vetted.methods request) fun new => emitted _
      (mem_methodRequests.mp new).1

theorem emitBody_vetted (vetted : Vetted naming state) {body : LoweredBody σ}
    (asks : ∀ call ∈ body.calls, naming.Asks call) :
      Vetted naming (emitBody lowering state body) := by
  have entered :
    Vetted naming { state with state := body.state, errors := state.errors ++ body.errors } :=
    ⟨vetted.calls, vetted.functions, vetted.methods, vetted.batch, vetted.made⟩
  exact emitCalls_vetted entered asks

section
variable {program : List GenericCall} (covers : naming.Covers lowering program)
  (vetted : Vetted naming state)
include covers vetted

theorem functionStep_vetted (step : functionStep lowering state = some next) :
    Vetted naming next := by
  obtain ⟨request, rest, pending, outcome⟩ := functionStep_cases step
  have popped : Vetted naming { state with pendingFunctions := rest } :=
    ⟨vetted.calls, fun other member => vetted.functions other (by simp [pending, member]),
      vetted.methods, vetted.batch, vetted.made⟩
  rcases outcome with ⟨message, rfl⟩ | ⟨-, rfl⟩ | ⟨-, rfl⟩
  · exact ⟨vetted.calls, nofun, vetted.methods, vetted.batch, vetted.made⟩
  · exact popped
  · have asked := vetted.functions request (by simp [pending])
    have lowered : Vetted naming (emitBody lowering _ _) :=
      emitBody_vetted popped (covers.functions state.state request asked)
    refine ⟨lowered.calls, lowered.functions, lowered.methods, lowered.batch,
      fun entry member other => ?_⟩
    rcases mem_append.mp member with old | new
    · exact lowered.made entry old other
    · rw [mem_singleton.mp new]
      nofun

theorem methodStep_vetted (step : methodStep lowering state = some next) : Vetted naming next := by
  rcases methodStep_cases step with ⟨-, -, rfl⟩ |
    ⟨request, rest, round, ⟨_, _, fewer, rfl⟩ | ⟨-, rfl⟩ |
    ⟨methodName, -, -, -, rfl⟩⟩
  · exact ⟨vetted.calls, vetted.functions, nofun, vetted.methods, vetted.made⟩
  all_goals
    have batch : ∀ other ∈ rest, naming.Asks (.method other) := fun other member =>
      vetted.batch other (by simp [round, member])
  · exact ⟨vetted.calls, vetted.functions, fun other member =>
      vetted.methods other (fewer.subset member), batch,
      vetted.made⟩
  · exact ⟨vetted.calls, vetted.functions, vetted.methods, batch, vetted.made⟩
  · have asked := vetted.batch request (by simp [round])
    have popped : Vetted naming { state with batch := rest } :=
      ⟨vetted.calls, vetted.functions, vetted.methods, batch, vetted.made⟩
    have lowered : Vetted naming (emitBody lowering _ _) :=
      emitBody_vetted popped (covers.methods state.state request asked)
    refine ⟨lowered.calls, lowered.functions, lowered.methods, lowered.batch,
      fun entry member other => ?_⟩
    rcases mem_append.mp member with old | new
    · exact lowered.made entry old other
    · rw [mem_singleton.mp new]
      rintro ⟨⟩
      exact asked

end

end Worklists

section Results
variable {σ : Type*} (lowering : BodyLowering σ)

/-- The state of the phase after some turns of the function loop and some of the method loop. -/
def after (start : Specialization σ) (functionTurns methodTurns : Nat) : Specialization σ :=
  Simulation.run (methodStep lowering) methodTurns
    (Simulation.run (functionStep lowering) functionTurns start)

section
variable (state : σ) (declared : List String) (calls : List GenericCall) (errors : List String)
include state declared calls errors

theorem initial_covered : Covered lowering [] (initial lowering state declared calls errors) :=
  emitCalls_covered ⟨by simp, by simp, by simp⟩ calls

theorem initial_traced : Traced declared (initial lowering state declared calls errors) := by
  refine (emitCalls_traced lowering ⟨fun entry member => ?_, by simp⟩ calls).1
  obtain ⟨symbol, listed, rfl⟩ := mem_map.mp member
  exact listed

theorem after_traced (n m : Nat) :
    Traced declared (after lowering (initial lowering state declared calls errors) n m) := by
  apply run_invariant (Traced declared) fun _ _ traced step => methodStep_traced step traced
  apply run_invariant (Traced declared) fun _ _ traced step => functionStep_traced step traced
  exact initial_traced lowering state declared calls errors

theorem after_vetted (covers : naming.Covers lowering calls) (n m : Nat) :
    Vetted naming (after lowering (initial lowering state declared calls errors) n m) := by
  apply run_invariant (Vetted naming) fun _ _ vetted step => methodStep_vetted covers vetted step
  apply run_invariant (Vetted naming) fun _ _ vetted step => functionStep_vetted covers vetted step
  refine emitCalls_vetted ⟨nofun, nofun, nofun, nofun, fun entry member request => ?_⟩ covers.calls
  obtain ⟨symbol, -, rfl⟩ := mem_map.mp member
  nofun

end

variable {state : Specialization σ}

theorem pendingFunctions_of_halted (halted : functionStep lowering state = none) :
    state.pendingFunctions = [] := by
  unfold functionStep at halted
  cases pending : state.pendingFunctions with
  | nil => rfl
  | cons => simp [pending] at halted

theorem methods_of_halted (halted : methodStep lowering state = none) :
    state.batch = [] ∧ state.pendingMethods = [] := by
  unfold methodStep at halted
  cases round : state.batch with
  | cons => simp [round] at halted
  | nil =>
    cases pending : state.pendingMethods with
    | nil => exact ⟨rfl, rfl⟩
    | cons => simp [round, pending] at halted

theorem closed_of_covered (covered : Covered lowering [] state)
    (functions : state.pendingFunctions = [])
    (methods : state.batch = [] ∧ state.pendingMethods = []) : Closed state := by
  intro call called
  apply covered.present
  rcases (covered.calls call called).resolve_left (by simp) with known | waiting
  · exact known
  · cases call <;> simp [Waits, functions, methods] at waiting

/-- A generic function `id` and a method `show` of a generic struct `Box` that calls it. -/
def boxProgram : BodyLowering Unit where
  genericFunctions name := name = "id"
  genericImplMethods key := if key = "Box_show" then some "show" else none
  instantiatedStructs _ name := if name = "Box_int" then some "Box" else none
  lowerFunction _ _ := ⟨(), [], []⟩
  lowerMethod _ request := ⟨(), [.function ⟨"id", request.concreteTypes⟩], []⟩

/-- The calls of a `main` that uses `show` on a `Box` of integers, and perhaps `id` on an
integer. -/
def boxCalls (direct : Bool) : List GenericCall :=
  (if direct then [.function ⟨"id", [.int]⟩] else []) ++ [.method ⟨"Box_int", "show", [.int]⟩]

/-- A program whose names are clear, and whose declared functions are unrelated to its generics,
binds every generic call to the code specialised for its own types. -/
theorem requests_bound_to_own_code (clear : naming.Clear) (state : σ) (declared : List String)
    (calls : List GenericCall) (errors : List String) (covers : naming.Covers lowering calls)
    (unrelated : ∀ symbol ∈ declared, ∀ name, naming.generics name → symbol ≠ name ∧
      ¬ContinuesName name symbol)
    (n m : Nat) :
    (∀ request other, naming.Asks (.function request) → naming.Asks (.function other) →
      request.mangledName = other.mangledName → request = other) ∧
    (∀ request, naming.Asks (.function request) → request.mangledName ∉ declared ∧
      ∀ struct method, naming.structs struct → request.mangledName ≠ struct ++ "_" ++ method) ∧
    let final := after lowering (initial lowering state declared calls errors) n m
    ∀ request, .function request ∈ final.calls →
      ∀ origin, (request.mangledName, origin) ∈ final.functions → origin = .function request := by
  have isMethod : ∀ request, naming.Asks (.function request) → ∀ struct method,
    naming.structs struct → request.mangledName ≠ struct ++ "_" ++ method := by
    intro request asks struct method known
    obtain ⟨different, apart⟩ := clear.structs _ _ asks.1 known
    exact mangledName_ne_of_unrelated (unrelated_method different apart method)
  have isDeclared : ∀ request, naming.Asks (.function request) → request.mangledName ∉ declared :=
    fun request asks member =>
    mangledName_ne_of_unrelated (unrelated _ member _ asks.1) rfl
  refine ⟨fun request other => request_of_mangledName clear, fun request asks =>
    ⟨isDeclared request asks, isMethod request asks⟩, ?_⟩
  intro final request requested origin member
  have fits := (after_traced lowering state declared calls errors n m).functions _ member
  have vetted := after_vetted lowering state declared calls errors covers n m
  have asks := vetted.calls _ requested
  cases origin with
  | function other => rw [request_of_mangledName clear asks (vetted.calls _ fits.2) fits.1]
  | declared => exact absurd fits (isDeclared request asks)
  | method other =>
    obtain ⟨methodName, same⟩ := fits
    exact absurd same (isMethod request asks _ _ (vetted.made _ member other rfl))

/-- Two requests for `f` whose type names share their underscores out differently. -/
def underscoreCalls : List GenericCall :=
  [.function ⟨"f", [.struct "a_b" [], .struct "c" []]⟩,
    .function ⟨"f", [.struct "a" [], .struct "b_c" []]⟩]

/-- A program whose only generic is `f`. -/
def oneGeneric : BodyLowering Unit where
  genericFunctions name := name = "f"
  genericImplMethods _ := none
  instantiatedStructs _ _ := none
  lowerFunction _ _ := ⟨(), [], []⟩
  lowerMethod _ _ := ⟨(), [], []⟩

/-- The names of a program with a generic `f` and a struct `a_b`. -/
private def boxNaming : Naming where
  words :=
    { nominal := fun name => if name = "a_b" then some (.struct "a_b" []) else none
      generic := fun _ => none
      isTrait := fun _ => False }
  generics name := name = "f"
  structs name := name = "Box_int"

private theorem boxNaming_names {name : String} (named : boxNaming.words.Names name) :
    name = "a_b" := by
  rcases named with nominal | generic
  · by_contra other
    simp [boxNaming, other] at nominal
  · cases generic

private theorem boxNaming_clear : boxNaming.Clear := by
  refine ⟨⟨fun first second named named' different => ?_, fun name named => ?_, fun _ _ => rfl,
    nofun⟩, fun first second named named' different => ?_, ?_⟩
  · exact absurd ((boxNaming_names named).trans (boxNaming_names named').symm) different
  · rw [boxNaming_names named]
    refine ⟨by decide, fun keyword member continues => ?_⟩
    obtain ⟨rest, split⟩ := continues
    have short : ∀ keyword ∈ keywords, ¬ keyword.toList <+: "a_b".toList := by decide
    exact short keyword member ⟨_, split.symm⟩
  · exact absurd (named.trans named'.symm) different
  · rintro _ _ rfl rfl
    refine ⟨by decide, fun _ => ⟨?_, ?_⟩⟩ <;> simp [ContinuesName, Continues]

/-- Requests at a struct and at a pointer to it can be told apart, also from a declared function
`g_int`. -/
theorem pointer_requests_bound :
    let calls : List GenericCall := [.function ⟨"f", [.struct "a_b" [], .int]⟩,
      .function ⟨"f", [.pointer (.struct "a_b" []), .int]⟩]
    let final := after oneGeneric (initial oneGeneric () ["main", "g_int"] calls []) 2 0
    final.functions.map Prod.fst = ["main", "g_int", "f_ptr_a_b_int", "f_a_b_int"] ∧
      ∀ origin, ("f_a_b_int", origin) ∈ final.functions →
        origin = .function ⟨"f", [.struct "a_b" [], .int]⟩ := by
  intro calls final
  have struct : boxNaming.words.Readable (.struct "a_b" []) := .nominal rfl (by simp [boxNaming])
  have int : boxNaming.words.Readable .int := .scalar (by simp [scalars])
  have covers : boxNaming.Covers oneGeneric calls := by
    refine ⟨fun call member => ?_, fun _ _ _ call member => (not_mem_nil member).elim,
      fun _ _ _ call member => (not_mem_nil member).elim⟩
    simp only [calls, mem_cons, not_mem_nil, or_false] at member
    rcases member with rfl | rfl
    · exact ⟨rfl, by simp [struct, int]⟩
    · exact ⟨rfl, by simp [struct.pointer, int]⟩
  have unrelated : ∀ symbol ∈ ["main", "g_int"], ∀ name, boxNaming.generics name →
      symbol ≠ name ∧ ¬ContinuesName name symbol := by
    rintro symbol member name rfl
    simp only [mem_cons, not_mem_nil, or_false] at member
    rcases member with rfl | rfl <;> exact ⟨by decide, by simp [ContinuesName, Continues]⟩
  have requested : .function ⟨"f", [.struct "a_b" [], .int]⟩ ∈ final.calls := by decide +kernel
  have bound :=
    (requests_bound_to_own_code oneGeneric boxNaming_clear () ["main", "g_int"] calls
      [] covers unrelated 2 0).2.2
  exact ⟨by decide +kernel, bound _ requested⟩

/-- Both requests have the symbol `f_a_b_c`, and one function serves both calls. -/
theorem underscore_requests_share_symbol :
    (∀ ty ∈ [IRType.struct "a_b" [], .struct "c" [], .struct "a" [], .struct "b_c" []],
      typeContainsUnknown ty = false) ∧
    (⟨"f", [.struct "a_b" [], .struct "c" []]⟩ : MonomorphizationRequest).mangledName =
      (⟨"f", [.struct "a" [], .struct "b_c" []]⟩ : MonomorphizationRequest).mangledName ∧
    (⟨"f", [.struct "a_b" [], .struct "c" []]⟩ : MonomorphizationRequest) ≠
      ⟨"f", [.struct "a" [], .struct "b_c" []]⟩ ∧
    (after oneGeneric (initial oneGeneric () ["main"] underscoreCalls []) 2 0).functions =
      [("main", .declared), ("f_a_b_c", .function ⟨"f", [.struct "a" [], .struct "b_c" []]⟩)] := by
  exact ⟨by decide, by decide, by simp, by decide +kernel⟩

end Results

end Monomorphization

end SpectraLang
