import SpectraLang.Passes.InlinedFlow

/-! # Inlining and the validation of loops

As long as no path is trapped in an inlinable function, the loops that cannot be left are those the
caller had before, with new blocks added. Whether the validator still accepts them depends on the
labels of the new blocks, which carry the names and labels of all inlined functions. The conditions
are stated over the functions that may be inlined at all: those of an inlinable shape that call only
such functions.
-/

namespace SpectraLang.FunctionInlining

open List Grafting Relation LoopStructureValidation

/-- A pattern that starts with its only dot and does not occur in the start of a new block's
label. -/
structure IsMarker (pattern : String) : Prop where
  shape : ∃ word, pattern.toList = '.' :: word ∧ '.' ∉ word
  absent : ¬ pattern.toList <:+: ".inline".toList

/-- The pattern occurs in the text when a dot is put before it. -/
def marked (pattern text : String) : Bool := textContains ("." ++ text) pattern

theorem infix_append_dot {word front back : List Char} (single : '.' ∉ word) :
    '.' :: word <:+: front ++ '.' :: back ↔ '.' :: word <:+: front ∨
      '.' :: word <:+: '.' :: back := by
  constructor
  · rintro ⟨before, after, same⟩
    rw [append_assoc] at same
    rcases append_eq_append_iff.mp same with ⟨between, rfl, tail⟩ | ⟨between, rfl, tail⟩
    · rcases append_eq_append_iff.mp tail with ⟨rest, rfl, -⟩ | ⟨rest, split, remaining⟩
      · exact .inl ⟨before, rest, by simp⟩
      · cases between with
        | nil =>
          rw [nil_append] at split
          exact .inr ⟨[], after, by rw [nil_append, split, remaining]⟩
        | cons dot between =>
          cases rest with
          | nil =>
            rw [append_nil] at split
            exact .inl ⟨before, [], by rw [split, append_nil]⟩
          | cons other rest =>
            obtain ⟨rfl, -⟩ := List.cons.inj remaining
            have inWord : word = between ++ '.' :: rest := (List.cons.inj split).2
            exact absurd (inWord ▸ mem_append_right _ mem_cons_self) single
    · exact .inr ⟨between, after, by rw [append_assoc, tail]⟩
  · rintro (inside | inside)
    · exact inside.trans (infix_append' [] front _)
    · exact inside.trans (suffix_append front _).isInfix

namespace IsMarker

variable {pattern : String}

theorem infix_inline {word : List Char} (single : '.' ∉ word) {start : List Char}
    (absent : ¬ '.' :: word <:+: start) (name label : String) :
    '.' :: word <:+: start ++ '.' :: (name.toList ++ '.' :: label.toList) ↔
      '.' :: word <:+: '.' :: name.toList ∨ '.' :: word <:+: '.' :: label.toList := by
  rw [infix_append_dot single, or_iff_right absent, ← cons_append, infix_append_dot single]

theorem marked_inline (marker : IsMarker pattern) (name label : String) :
    marked pattern ("inline." ++ name ++ "." ++ label) =
      (marked pattern name || marked pattern label) := by
  obtain ⟨word, shape, single⟩ := marker.shape
  have absent := marker.absent
  rw [shape] at absent
  have split : ("." ++ ("inline." ++ name ++ "." ++ label)).toList =
      ".inline".toList ++ '.' :: (name.toList ++ '.' :: label.toList) := by
    simp [String.toList_append]
  rw [Bool.eq_iff_iff, Bool.or_eq_true, marked, textContains, decide_eq_true_eq, split, shape,
    infix_inline single absent]
  simp [marked, textContains, shape, String.toList_append]

theorem marked_of_textContains {label : String} (contains : textContains label pattern = true) :
    marked pattern label = true := by
  simp only [marked, textContains, decide_eq_true_eq, String.toList_append] at contains ⊢
  exact contains.trans (suffix_append _ _).isInfix

end IsMarker

theorem exit_isMarker : IsMarker ".exit" := ⟨⟨"exit".toList, by decide, by decide⟩, by decide⟩

theorem header_isMarker : IsMarker ".header" := ⟨⟨"header".toList, by decide, by decide⟩, by decide⟩

/-- An inlinable shape, few enough instructions besides calls, and only calls to functions that may
be inlined. -/
inductive MayInline (module : Module) : Function → Prop
  | intro {function : Function} (member : function ∈ module.functions)
      (shape : isInlineShape function = true)
      (small : instructionCount function ≤ maxInlineInstructions + callCount function)
      (callee : ∀ name, function.Calls name → Function)
        (named : ∀ name calls, (callee name calls).name = name)
      (inlined : ∀ name calls, MayInline module (callee name calls)) : MayInline module function

/-- The second function may be inlined into the first, directly or through others. -/
def Draws (module : Module) (calls : Function → String → Prop) : Function → Function → Prop :=
  ReflTransGen fun outer inner => MayInline module inner ∧ calls outer inner.name

/-- Some function may take in a copy of the callee. -/
def MayTakeIn (module : Module) (callee : Function) : Prop :=
  MayInline module callee ∧ ∃ function ∈ module.functions, function.suspensionBarrier = false ∧
    function.Calls callee.name

/-- The function may take in a copy of some callee. -/
def Takes (module : Module) (function : Function) : Prop :=
  function.suspensionBarrier = false ∧ ∃ callee, MayInline module callee ∧
    function.Calls callee.name

/-- No block of a copy carries a header's label. -/
def HeaderFree (module : Module) (function : Function) : Prop :=
  ∀ inner, Draws module Function.LiveCalls function inner → marked ".header" inner.name = false ∧
    ∀ block ∈ inner.blocks, inner.Live block.id → marked ".header" block.label = false

/-- Every block of a copy is branched to, and so is the block behind it. -/
def Complete (module : Module) (function : Function) : Prop :=
  ∀ inner, Draws module Function.Calls function inner → inner.Returns ∧
    ∀ block ∈ inner.blocks, inner.Entered block.id

/-- Calls in a loop that cannot be left bring no new header into it, unless a header's label
decides. -/
def Quiet (module : Module) (function : Function) : Prop :=
  ∀ id, function.Trapped id →
    (∀ block ∈ function.blocks, function.Reaches id block.id → textContains block.label ".header" =
      false) →
    ∀ block ∈ function.blocks, function.Reaches id block.id →
      ∀ callee, MayInline module callee → block.Calls callee.name → HeaderFree module callee

/-- The modules whose loops stay in order under inlining. -/
structure InliningSafe (module : Module) : Prop where
  fresh : ∀ function ∈ module.functions, Takes module function → ∀ id ∈ function.blockIds,
    id < function.nextBlockId
  escapes : ∀ callee, MayTakeIn module callee → ∀ id, ¬ callee.Trapped id
  exits : ∀ callee, MayTakeIn module callee → ∀ block ∈ callee.blocks, marked ".exit" block.label =
    true → callee.Entered block.id
  exitNames : ∀ callee, MayTakeIn module callee → marked ".exit" callee.name = true →
    Complete module callee
  headers : ∀ function ∈ module.functions, function.suspensionBarrier = false →
    Quiet module function

/-- What a function keeps from the original while calls in it are replaced. -/
structure Evolved (module : Module) (original current : Function) : Prop where
  name : current.name = original.name
  barrier : current.suspensionBarrier = original.suspensionBarrier
  linked : current.Linked
  fresh : Takes module original → ∀ id ∈ current.blockIds, id < current.nextBlockId
  head : current.blocks.head?.map (·.id) = original.blocks.head?.map (·.id)
  shape : isInlineShape current = true → isInlineShape original = true
  size : instructionCount original + callCount current ≤ instructionCount current +
    callCount original
  calls : ∀ name, original.Calls name → current.Calls name ∨ ∃ callee :
    Function, callee.name = name ∧ MayInline module callee
  kept : ∀ name, current.Calls name → original.Calls name
  keptLive : ∀ name, current.LiveCalls name → original.LiveCalls name
  untrapped : (∀ id, ¬ original.Trapped id) → ∀ id, ¬ current.Trapped id
  returns : original.Returns → current.Returns
  unheaded : HeaderFree module original →
    ∀ block ∈ current.blocks, current.Live block.id → marked ".header" block.label = false
  exits : (∀ block ∈ original.blocks, marked ".exit" block.label = true → original.Entered block.id)
    → ∀ block ∈ current.blocks, marked ".exit" block.label = true → current.Entered block.id
  complete : Complete module original → ∀ block ∈ current.blocks, current.Entered block.id
  accepted : current.LoopsAccepted
  quiet : original.suspensionBarrier = false → Quiet module current

variable {module : Module}

/-- A candidate comes from a function that may be inlined. -/
theorem Evolved.mayInline {original current : Function} (evolved : Evolved module original current)
    (member : original ∈ module.functions) (shape : isInlineShape current = true)
      (free : CallFree current)
    (small : instructionCount current ≤ maxInlineInstructions) : MayInline module original := by
  have noCalls : ∀ name, ¬ current.Calls name := by
    rintro name ⟨block, isBlock, instruction, inside, result, args, isTail, kind⟩
    have noCall := free block isBlock instruction inside
    rw [kind] at noCall
    cases noCall
  choose callee named inlined using fun name calls => (evolved.calls name calls).resolve_left
    (noCalls name)
  have size := evolved.size
  exact .intro member (evolved.shape shape) (by omega) callee named inlined

theorem HeaderFree.of_liveCalls {function callee : Function} (free : HeaderFree module function)
    (mayInline : MayInline module callee) (calls : function.LiveCalls callee.name) :
      HeaderFree module callee :=
  fun inner draws => free inner (.head ⟨mayInline, calls⟩ draws)

theorem Complete.of_calls {function callee : Function} (complete : Complete module function)
    (mayInline : MayInline module callee) (calls : function.Calls callee.name) :
      Complete module callee :=
  fun inner draws => complete inner (.head ⟨mayInline, calls⟩ draws)

/-- A call in a function that runs without suspension is replaced by a copy of a candidate. -/
structure Replacement (module : Module) (original caller inlined callee : Function)
    (site : CallSite caller) (first : BasicBlock) : Prop where
  safe : InliningSafe module
  member : original ∈ module.functions
  running : original.suspensionBarrier = false
  outer : Evolved module original caller
  inner : Evolved module inlined callee
  mayInline : MayInline module inlined
  free : CallFree callee
  named : inlined.name = site.name
  entry : callee.blocks.head? = some first

namespace Replacement

variable {module : Module} {original caller inlined callee : Function} {site : CallSite caller}
  {first : BasicBlock} (step : Replacement module original caller inlined callee site first)

include step

theorem site_calls : site.block.Calls inlined.name := by
  refine ⟨site.call, ?_, site.result, site.args, site.isTail, step.named ▸ site.call_eq⟩
  rw [site.instructions_eq]
  exact mem_append_right _ mem_cons_self

theorem calls_inlined : original.Calls inlined.name :=
  step.outer.kept _ ⟨site.block, site.block_mem, step.site_calls⟩

theorem fresh : ∀ id ∈ caller.blockIds, id < caller.nextBlockId :=
  step.outer.fresh ⟨step.running, inlined, step.mayInline, step.calls_inlined⟩

theorem graft : Graft (· ∈ caller.blockIds) caller.Leads (· ∈ callee.blockIds) callee.Leads
    (fun id => ∃ block ∈ callee.blocks, block.id = id ∧ block.Returns) first.id
      (copyId caller callee) site.block.id
    caller.nextBlockId (site.splice callee).Leads :=
  site.splice_graft step.outer.linked step.fresh step.inner.linked step.entry

theorem takenIn : MayTakeIn module inlined :=
  ⟨step.mayInline, original, step.member, step.running, step.calls_inlined⟩

theorem untrapped (id : BlockId) : ¬ callee.Trapped id :=
  step.inner.untrapped (step.safe.escapes inlined step.takenIn) id

variable {id : BlockId} {block : BasicBlock}

omit step in
/-- A block of the spliced function that is reached from the start. -/
theorem start_of_splice (live : (site.splice callee).Live id) :
    ∃ start, caller.blocks.head? = some start ∧
    start.id ∈ caller.blockIds ∧ (site.splice callee).Reaches start.id id := by
  obtain ⟨start, isFirst, path⟩ := live
  have sameHead := @CallSite.splice_head caller callee site
  rw [isFirst, Option.map_some] at sameHead
  obtain ⟨begin, isBegin, sameId⟩ := Option.map_eq_some_iff.mp sameHead.symm
  exact ⟨begin, isBegin, Function.mem_blockIds_of_mem (mem_of_mem_head? isBegin), sameId ▸ path⟩

omit step in
theorem marked_cont {pattern name : String} (marker : IsMarker pattern)
    (absent : marked pattern "cont" = false) :
    marked pattern ("inline." ++ name ++ "." ++ "cont") = marked pattern name := by
  rw [marker.marked_inline, absent, Bool.or_false]

theorem old_live (known : id ∈ caller.blockIds) (live : (site.splice callee).Live id) :
    caller.Live id := by
  obtain ⟨start, isFirst, startKnown, path⟩ := start_of_splice live
  exact ⟨start, isFirst, step.graft.reach_old startKnown known path⟩

theorem rest_live (live : (site.splice callee).Live caller.nextBlockId) :
    caller.Live site.block.id := by
  obtain ⟨start, isFirst, startKnown, path⟩ := start_of_splice live
  exact ⟨start, isFirst, step.graft.reach_site startKnown path⟩

theorem copy_live (inside : id ∈ callee.blockIds)
    (live : (site.splice callee).Live (copyId caller callee id)) :
    callee.Live id ∧ caller.Live site.block.id := by
  obtain ⟨start, isFirst, startKnown, path⟩ := start_of_splice live
  obtain ⟨reached, within⟩ := step.graft.reach_entry startKnown inside path
  exact ⟨⟨first, step.entry, within⟩, start, isFirst, reached⟩

theorem keptLive {name : String} (calls : (site.splice callee).LiveCalls name) :
    caller.LiveCalls name := by
  obtain ⟨block, member, live, called⟩ := calls
  obtain ⟨old, isOld, oldCalls, same | ⟨same, rfl⟩⟩ := site.calls_of_splice step.free member called
  · rw [same] at live
    exact ⟨old, isOld, step.old_live (Function.mem_blockIds_of_mem isOld) live, oldCalls⟩
  · rw [same] at live
    exact ⟨site.block, isOld, step.rest_live live, oldCalls⟩

theorem headerFree_of_live (free : HeaderFree module original) (live : caller.Live site.block.id) :
    HeaderFree module inlined :=
  free.of_liveCalls step.mayInline
    (step.outer.keptLive _ ⟨site.block, site.block_mem, live, step.site_calls⟩)

/-- The copy of a callee without headers brings none. -/
theorem not_marked_copy (free : HeaderFree module inlined) {inner : BasicBlock}
    (isInner : inner ∈ callee.blocks)
    (live : callee.Live inner.id) :
      marked ".header" ("inline." ++ inlined.name ++ "." ++ inner.label) = false := by
  rw [header_isMarker.marked_inline, (free inlined .refl).1, step.inner.unheaded free inner isInner
    live]
  rfl

omit step in
theorem not_marked_cont (free : HeaderFree module inlined) :
    marked ".header" ("inline." ++ inlined.name ++ "." ++ "cont") = false := by
  rw [marked_cont header_isMarker (by decide), (free inlined .refl).1]

theorem targeted_copy (entered : callee.Entered id) :
    ∃ source, (site.splice callee).Leads source (copyId caller callee id) := by
  rcases entered with ⟨source, edge⟩ | isFirst
  · exact ⟨copyId caller callee source, (step.graft.new_copy (step.graft.inner_inside edge).1).mpr
      (.inl ⟨id, edge, rfl⟩)⟩
  · rw [step.entry, Option.map_some, Option.some.injEq] at isFirst
    exact ⟨site.block.id, step.graft.new_site.mpr (isFirst ▸ rfl)⟩

theorem targeted_rest (returns : callee.Returns) :
    ∃ source, (site.splice callee).Leads source caller.nextBlockId := by
  obtain ⟨block, member, ends⟩ := returns
  exact ⟨copyId caller callee block.id,
    (step.graft.new_copy (Function.mem_blockIds_of_mem member)).mpr
      (.inr ⟨⟨block, member, rfl, ends⟩, rfl⟩)⟩

theorem entered_old (known : id ∈ caller.blockIds) (entered : caller.Entered id) :
    (site.splice callee).Entered id := by
  rcases entered with targeted | isFirst
  · exact .inl ((step.graft.targeted_iff known).mpr targeted)
  · exact .inr (site.splice_head.trans isFirst)

theorem complete_inlined (complete : Complete module inlined) :
    (∀ block ∈ callee.blocks, ∃ source, (site.splice callee).Leads source
      (copyId caller callee block.id)) ∧
      ∃ source, (site.splice callee).Leads source caller.nextBlockId := by
  refine ⟨fun block member => ?_,
    step.targeted_rest (step.inner.returns (complete inlined .refl).1)⟩
  exact step.targeted_copy (step.inner.complete complete block member)

/-- A loop that cannot be left comes from one of the caller, with which it shares the old blocks. -/
theorem trapped_old (trapped : (site.splice callee).Trapped id) :
    ∃ old ∈ caller.blockIds, (site.splice callee).Reaches id old ∧
      (site.splice callee).Trapped old ∧ caller.Trapped old := by
  obtain ⟨old, known, path⟩ := step.graft.reach_known_of_trapped step.untrapped trapped
  have oldTrapped := trapped.of_reach path
  exact ⟨old, known, path, oldTrapped, step.graft.trapped_old step.untrapped oldTrapped known⟩

theorem reaches_new {other : BlockId} (trapped : (site.splice callee).Trapped id)
    (path : caller.Reaches id other) : (site.splice callee).Reaches id other :=
  step.graft.reach_new step.untrapped trapped path

theorem linked : (site.splice callee).Linked :=
  site.splice_linked step.outer.linked step.fresh step.inner.linked step.entry

theorem quiet : Quiet module (site.splice callee) := by
  intro id trapped unheaded block member path target mayInline calls
  obtain ⟨old, known, toOld, oldTrapped, callerTrapped⟩ := step.trapped_old trapped
  have fromOld := (trapped.2 old toOld).trans path
  have oldUnheaded : ∀ block ∈ caller.blocks, caller.Reaches old block.id →
      textContains block.label ".header" = false := by
    intro block isBlock reached
    obtain ⟨kept, isKept, sameId, label⟩ := @CallSite.block_kept _ callee site _ isBlock
    rw [← label]
    exact unheaded kept isKept (sameId ▸ toOld.trans (step.reaches_new oldTrapped reached))
  obtain ⟨source, isSource, sourceCalls, same | ⟨same, rfl⟩⟩ :=
    site.calls_of_splice step.free member calls
  · rw [same] at fromOld
    exact step.outer.quiet step.running old callerTrapped oldUnheaded source isSource
      (step.graft.reach_old known (Function.mem_blockIds_of_mem isSource) fromOld) target mayInline
        sourceCalls
  · rw [same] at fromOld
    exact step.outer.quiet step.running old callerTrapped oldUnheaded site.block isSource
      (step.graft.reach_site known fromOld) target mayInline sourceCalls

section
variable (member : block ∈ (site.splice callee).blocks)
include member

/-- The blocks of the spliced function: an old block, a copied one, or the continuation. -/
theorem block_cases :
    (∃ old ∈ caller.blocks, block.id = old.id ∧ block.label = old.label) ∨
      (∃ inner ∈ callee.blocks, block.id = copyId caller callee inner.id ∧
        block.label = "inline." ++ inlined.name ++ "." ++ inner.label) ∨
      block.id = caller.nextBlockId ∧ block.label = "inline." ++ inlined.name ++ "." ++ "cont" := by
  rcases (site.mem_splice_blocks callee).mp member with ⟨old, around, rfl⟩ | rfl |
    ⟨inner, isInner, rfl⟩ | rfl
  · exact .inl ⟨old, site.mem_of_around around, rfl, rfl⟩
  · exact .inl ⟨site.block, site.block_mem, rfl, rfl⟩
  · exact .inr (.inl ⟨inner, isInner, rfl, step.named ▸ rfl⟩)
  · refine .inr (.inr ⟨rfl, ?_⟩)
    change "inline." ++ site.name ++ ".cont" = _
    rw [step.named, String.append_assoc, String.append_assoc]
    rfl

/-- New blocks with an exit's label are branched to. -/
theorem targeted_exit (isExit : marked ".exit" block.label = true) :
    (∃ old ∈ caller.blocks, block.id = old.id ∧ block.label = old.label) ∨
      ∃ source, (site.splice callee).Leads source block.id := by
  apply (step.block_cases member).imp_right
  rintro (⟨inner, isInner, sameId, label⟩ | ⟨sameId, label⟩)
  · rw [label, exit_isMarker.marked_inline, Bool.or_eq_true] at isExit
    rw [sameId]
    rcases isExit with name | own
    · exact (step.complete_inlined (step.safe.exitNames inlined step.takenIn name)).1 inner isInner
    · exact step.targeted_copy
        (step.inner.exits (step.safe.exits inlined step.takenIn) inner isInner own)
  · rw [label, marked_cont exit_isMarker (by decide)] at isExit
    rw [sameId]
    exact (step.complete_inlined (step.safe.exitNames inlined step.takenIn isExit)).2

/-- A block of the spliced function with an old identifier is an old block. -/
theorem old_of_known (known : block.id ∈ caller.blockIds) :
    ∃ old ∈ caller.blocks, block.id = old.id ∧ block.label = old.label := by
  rcases step.block_cases member with isOld | ⟨inner, isInner, same, -⟩ | ⟨same, -⟩
  · exact isOld
  · exact absurd (same ▸ known) (step.graft.copy_fresh (Function.mem_blockIds_of_mem isInner))
  · exact absurd (same ▸ known) step.graft.rest_fresh

theorem lt_of_not_known (isNew : block.id ∉ caller.blockIds) (known : id ∈ caller.blockIds) :
    id < block.id := by
  have below := step.fresh id known
  rcases step.block_cases member with ⟨old, isOld, same, -⟩ | ⟨inner, isInner, same, -⟩ | ⟨same, -⟩
  · exact absurd (same ▸ Function.mem_blockIds_of_mem isOld) isNew
  · rw [same]
    exact below.trans (lt_copyId step.inner.linked.nodup (Function.mem_blockIds_of_mem isInner))
  · rwa [same]

theorem unheaded (free : HeaderFree module original) (live : (site.splice callee).Live block.id) :
    marked ".header" block.label = false := by
  rcases step.block_cases member with ⟨old, isOld, sameId, label⟩ |
    ⟨inner, isInner, sameId, label⟩ | ⟨sameId, label⟩
  · rw [sameId] at live
    rw [label]
    exact step.outer.unheaded free old isOld
      (step.old_live (Function.mem_blockIds_of_mem isOld) live)
  · rw [sameId] at live
    obtain ⟨innerLive, siteLive⟩ := step.copy_live (Function.mem_blockIds_of_mem isInner) live
    rw [label]
    exact step.not_marked_copy (step.headerFree_of_live free siteLive) isInner innerLive
  · rw [sameId] at live
    rw [label]
    exact not_marked_cont (step.headerFree_of_live free (step.rest_live live))

theorem exits (ordered : ∀ block ∈ original.blocks, marked ".exit" block.label = true →
    original.Entered block.id)
    (isExit : marked ".exit" block.label = true) : (site.splice callee).Entered block.id := by
  rcases step.targeted_exit member isExit with ⟨old, isOld, sameId, label⟩ | targeted
  · rw [sameId]
    exact step.entered_old (Function.mem_blockIds_of_mem isOld)
      (step.outer.exits ordered old isOld (label ▸ isExit))
  · exact .inl targeted

theorem complete (complete : Complete module original) : (site.splice callee).Entered block.id := by
  have inner := step.complete_inlined
    (complete.of_calls step.mayInline step.calls_inlined)
  rcases step.block_cases member with ⟨old, isOld, sameId, -⟩ | ⟨original, isInner, sameId, -⟩ |
    ⟨sameId, -⟩
  · rw [sameId]
    exact step.entered_old (Function.mem_blockIds_of_mem isOld)
      (step.outer.complete complete old isOld)
  · exact .inl (sameId ▸ inner.1 original isInner)
  · exact .inl (sameId ▸ inner.2)

/-- New blocks of a loop without a header's label bring none. -/
theorem unheaded_new {old : BlockId} (known : old ∈ caller.blockIds) (trapped : caller.Trapped old)
    (unheaded : ∀ block ∈ caller.blocks, caller.Reaches old block.id →
      textContains block.label ".header" = false)
    (isNew : block.id ∉ caller.blockIds) (path : (site.splice callee).Reaches old block.id) :
    textContains block.label ".header" = false := by
  have free : caller.Reaches old site.block.id → HeaderFree module inlined := fun toSite =>
    step.outer.quiet step.running old trapped unheaded site.block site.block_mem toSite inlined
      step.mayInline step.site_calls
  have unmarked : marked ".header" block.label = false := by
    rcases step.block_cases member with ⟨source, isSource, sameId, -⟩ |
      ⟨inner, isInner, sameId, label⟩ | ⟨sameId, label⟩
    · exact absurd (sameId ▸ Function.mem_blockIds_of_mem isSource) isNew
    · rw [sameId] at path
      obtain ⟨toSite, within⟩ := step.graft.reach_entry known (Function.mem_blockIds_of_mem isInner)
        path
      rw [label]
      exact step.not_marked_copy (free toSite) isInner ⟨first, step.entry, within⟩
    · rw [sameId] at path
      rw [label]
      exact not_marked_cont (free (step.graft.reach_site known path))
  exact Bool.eq_false_iff.mpr fun contains =>
    absurd (IsMarker.marked_of_textContains contains) (by rw [unmarked]; decide)

/-- The header of a loop of the caller stays its header. -/
theorem headerKey_le {old : BlockId} (known : old ∈ caller.blockIds) (trapped : caller.Trapped old)
    {header : BasicBlock} (isHeader : header ∈ caller.blocks)
    (least : ∀ block ∈ caller.blocks, caller.Reaches old block.id →
      headerKey header ≤ headerKey block)
    (path : (site.splice callee).Reaches old block.id) : headerKey header ≤ headerKey block := by
  by_cases isKnown : block.id ∈ caller.blockIds
  · obtain ⟨source, isSource, sameId, label⟩ := step.old_of_known member isKnown
    have sameKey : headerKey block = headerKey source := by rw [headerKey, headerKey, sameId, label]
    rw [sameKey]
    exact least source isSource (sameId ▸ step.graft.reach_old known isKnown path)
  · have above := step.lt_of_not_known member isKnown (Function.mem_blockIds_of_mem isHeader)
    rw [headerKey_le_iff]
    cases headed : textContains header.label ".header" with
    | true =>
      cases textContains block.label ".header" with
      | false => exact .inl ⟨rfl, rfl⟩
      | true => exact .inr ⟨rfl, above.le⟩
    | false =>
      refine .inr ⟨?_, above.le⟩
      refine (step.unheaded_new member known trapped (fun source isSource reached => ?_) isKnown
        path).symm
      rcases headerKey_le_iff.mp (least source isSource reached) with ⟨contains, -⟩ | ⟨same, -⟩
      · rw [headed] at contains
        cases contains
      · rw [← same, headed]

end

theorem accepted : (site.splice callee).LoopsAccepted := by
  refine ⟨fun header isHeader trapped least => ?_, fun block member isExit notLoop => ?_⟩
  · obtain ⟨old, known, toOld, oldTrapped, callerTrapped⟩ := step.trapped_old trapped
    -- the header that the caller's loop had
    obtain ⟨first, isFirst, reached, firstLeast⟩ := exists_least known
    have labelled := step.outer.accepted.loops first isFirst (callerTrapped.of_reach reached)
      fun other isOther path => firstLeast other isOther (reached.trans path)
    obtain ⟨kept, isKept, sameId, label⟩ := @CallSite.block_kept _ callee site _ isFirst
    have keptReached := toOld.trans (step.reaches_new oldTrapped reached)
    have below := least kept isKept (sameId ▸ keptReached)
    have above := step.headerKey_le isHeader known callerTrapped isFirst firstLeast
      (trapped.2 old toOld)
    have keptKey : headerKey kept = headerKey first := by rw [headerKey, headerKey, sameId, label]
    have sameKey : headerKey header = headerKey kept := le_antisymm below (keptKey ▸ above)
    have same : header = kept :=
      Function.eq_of_id_eq step.linked.nodup isHeader isKept
        (congrArg (fun key => (ofLex key).2) sameKey)
    rw [same, label]
    exact labelled
  · rcases step.targeted_exit member (IsMarker.marked_of_textContains isExit) with
      ⟨old, isOld, sameId, label⟩ | targeted
    · rw [sameId]
      apply (step.graft.targeted_iff (Function.mem_blockIds_of_mem isOld)).mpr
      exact step.outer.accepted.exits old isOld (label ▸ isExit) (label ▸ notLoop)
    · exact targeted

theorem evolved : Evolved module original (site.splice callee) where
  name := step.outer.name
  barrier := step.outer.barrier
  linked := step.linked
  fresh := fun _ _ inside => site.splice_fresh step.fresh step.inner.linked inside
  head := site.splice_head.trans step.outer.head
  shape := fun shape =>
    step.outer.shape
      (site.isInlineShape_of_splice step.outer.linked step.fresh step.inner.linked step.entry shape)
  size := by
    have calls := site.callCount_splice step.free
    have longer := @CallSite.instructionCount_splice caller site callee
    have size := step.outer.size
    omega
  calls := by
    intro name calls
    rcases step.outer.calls name calls with current | inlined
    · refine (site.splice_calls current).imp_right fun same => ?_
      exact ⟨_, step.named.trans same.symm, step.mayInline⟩
    · exact .inr inlined
  kept := by
    rintro name ⟨block, member, calls⟩
    obtain ⟨old, isOld, oldCalls, -⟩ := site.calls_of_splice step.free member calls
    exact step.outer.kept name ⟨old, isOld, oldCalls⟩
  keptLive := fun name calls => step.outer.keptLive name (step.keptLive calls)
  untrapped := by
    intro untrapped id trapped
    obtain ⟨old, -, -, -, callerTrapped⟩ := step.trapped_old trapped
    exact step.outer.untrapped untrapped old callerTrapped
  returns := fun returns => site.splice_returns (step.outer.returns returns)
  unheaded := fun free _ member live => step.unheaded member free live
  exits := fun ordered _ member isExit => step.exits member ordered isExit
  complete := fun complete _ member => step.complete member complete
  accepted := step.accepted
  quiet := fun _ => step.quiet

end Replacement

section Runs
variable {module : Module}

/-- The functions of the module have evolved from those of the original. -/
def ModuleEvolved (module current : Module) : Prop :=
  ∀ function ∈ current.functions, ∃ original ∈ module.functions, Evolved module original function

theorem evolved_self (verified : verifyModule module = .ok ())
    (accepted : LoopStructureValidation.run module = [])
    (safe : InliningSafe module) {function : Function} (member : function ∈ module.functions) :
    Evolved module function function := by
  obtain ⟨first, isVerified⟩ := verified_of_accepted verified member
  exact {
    name := rfl
    barrier := rfl
    linked := isVerified.linked
    fresh := safe.fresh function member
    head := rfl
    shape := id
    size := le_rfl
    calls := fun _ => .inl
    kept := fun _ => id
    keptLive := fun _ => id
    untrapped := id
    returns := id
    unheaded := fun free => (free function .refl).2
    exits := id
    complete := fun complete => (complete function .refl).2
    accepted := (validateFunction_eq_nil isVerified.linked).mp
      (flatMap_eq_nil_iff.mp accepted function member)
    quiet := safe.headers function member }

/-- Replacing the calls of a function one after another keeps the invariant. -/
theorem evolved_inlineCallsInFunction (safe : InliningSafe module) {current : Module}
    (evolution : ModuleEvolved module current) {original caller : Function}
      (member : original ∈ module.functions)
    (running : original.suspensionBarrier = false) (outer : Evolved module original caller) :
    Evolved module original (inlineCallsInFunction (collectCandidates current) caller) := by
  refine Saturate.saturate_invariant _ (fun before after outer turn => ?_) outer
  obtain ⟨site, callee, candidate, named, rfl⟩ := inlineNext_cases turn
  have free := callFree_of_mem_collectCandidates candidate
  obtain ⟨isFunction, accepted⟩ := mem_filter.mp candidate
  obtain ⟨inlined, isOriginal, inner⟩ := evolution callee isFunction
  simp only [isInlineCandidate, Bool.and_eq_true, decide_eq_true_eq] at accepted
  have shape : isInlineShape callee = true := accepted.1.1.1
  obtain ⟨first, entry⟩ : ∃ first, callee.blocks.head? = some first := by
    simp only [isInlineShape, Bool.and_eq_true, Bool.not_eq_true', isEmpty_eq_false_iff] at shape
    exact ⟨_, head?_eq_some_head shape.1.1.1.1.2⟩
  exact Replacement.evolved {
    safe, member, running, outer, inner, free, entry
    mayInline := inner.mayInline isOriginal shape free accepted.2
    named := inner.name.symm.trans named }

theorem evolved_inlineRound (safe : InliningSafe module) {current next : Module}
    (evolution : ModuleEvolved module current) (round : inlineRound current = some next) :
      ModuleEvolved module next := by
  unfold inlineRound at round
  dsimp only at round
  split_ifs at round
  cases round
  intro function member
  obtain ⟨function, isFunction, rfl⟩ := mem_map.mp member
  obtain ⟨original, isOriginal, evolved⟩ := evolution function isFunction
  refine ⟨original, isOriginal, ?_⟩
  split
  · exact evolved
  · next running =>
    refine evolved_inlineCallsInFunction safe evolution isOriginal ?_ evolved
    rwa [evolved.barrier, Bool.not_eq_true] at running

/-- A function of one block. -/
def ticking : Function where
  name := "tick"
  params := []
  returnType := .void
  blocks := [⟨0, "entry", [], some (.ret none)⟩]
  nextValueId := 0
  nextBlockId := 1

/-- A loop without an exit around a call. -/
def looping (callee : String) : Function where
  name := "main"
  params := []
  returnType := .void
  blocks := [⟨0, "entry", [], some (.branch 1)⟩,
    ⟨1, "loop.body", [⟨0, .call none callee [] false⟩], some (.branch 1)⟩,
    ⟨2, "loop.exit", [], some (.ret none)⟩]
  nextValueId := 0
  nextBlockId := 3

def tickingModule : Module where
  name := "ticking"
  functions := [ticking, looping "tick"]

theorem eq_ticking {callee : Function} (mayInline : MayInline tickingModule callee) :
    callee = ticking := by
  cases mayInline with
  | intro member shape =>
    rcases mem_cons.mp member with rfl | member
    · rfl
    · obtain rfl := mem_singleton.mp member
      cases shape

theorem not_leads_ticking {source target : BlockId} : ¬ ticking.Leads source target := by
  rintro ⟨block, member, -, edge⟩
  obtain rfl := mem_singleton.mp member
  cases edge

theorem ticking_headerFree : HeaderFree tickingModule ticking := by
  have unmarked : ∀ block ∈ ticking.blocks, marked ".header" block.label = false := by decide
  intro inner draws
  have same : inner = ticking := by
    obtain rfl | ⟨-, -, mayInline, -⟩ := draws.cases_tail
    · rfl
    · exact eq_ticking mayInline
  rw [same]
  exact ⟨by decide, fun block member _ => unmarked block member⟩

theorem tickingModule_safe : InliningSafe tickingModule where
  fresh := fun function member _ id inside => (show ∀ function ∈ tickingModule.functions,
    ∀ id ∈ function.blockIds, id < function.nextBlockId by decide) function member id inside
  escapes := by
    rintro callee ⟨mayInline, -⟩ id ⟨⟨next, edge⟩, -⟩
    rw [eq_ticking mayInline] at edge
    exact not_leads_ticking edge
  exits := by
    rintro callee ⟨mayInline, -⟩ block member isExit
    rw [eq_ticking mayInline] at member
    obtain rfl := mem_singleton.mp member
    cases isExit
  exitNames := by
    rintro callee ⟨mayInline, -⟩ isExit
    rw [eq_ticking mayInline] at isExit
    cases isExit
  headers := by
    intro function _ _ id _ _ block _ _ callee mayInline _
    rw [eq_ticking mayInline]
    exact ticking_headerFree

/-- A function that waits in a loop with a header. -/
def waiting : Function where
  name := "wait"
  params := []
  returnType := .void
  blocks := [⟨0, "entry", [⟨0, .constBool 0 false⟩], some (.branch 1)⟩,
    ⟨1, "while.header", [], some (.condBranch 0 2 3)⟩,
    ⟨2, "while.body", [], some (.branch 1)⟩,
    ⟨3, "while.exit", [], some (.ret none)⟩]
  nextValueId := 1
  nextBlockId := 4

def waitingModule : Module where
  name := "waiting"
  functions := [waiting, looping "wait"]

end Runs

end SpectraLang.FunctionInlining
