import SpectraLang.Lowering.Builder
import SpectraLang.Passes.LoopValidation

/-! # Lowering of loops

`lower_statement` for `while`, `do`-`while` and `loop`, over statements and conditions whose own
code stays in one block. The `Shape` of what is lowered, the labels of the blocks and the edges
between them, depends on the statements alone. In the shape of an endless loop every block lies on a
path from the loop's body back to it, which decides what the validation of loops says about it.
-/

namespace SpectraLang

open List
open Relation (ReflTransGen)

/-- An instruction for the next value, or one that defines none. -/
inductive Emission where
  | value (make : Value → InstructionKind)
  | effect (kind : InstructionKind)

/-- What the instruction defines is what the builder numbers. -/
def Emission.Numbered : Emission → Prop
  | .value make => ∀ result, (make result).defines = [result]
  | .effect kind => kind.defines = []

/-- Code without control flow: its instructions, and its value if they define none. -/
structure StraightCode where
  instructions : List Emission
  value : Value
  numbered : ∀ emission ∈ instructions, emission.Numbered

/-- The statements of a block. -/
inductive Statements where
  | nil
  | expression (code : StraightCode) (rest : Statements)
  | whileLoop (condition : StraightCode) (body rest : Statements)
  | doWhile (body : Statements) (condition : StraightCode) (rest : Statements)
  | loop (body rest : Statements)

namespace Builder

def append (lowered : Value × Builder) : Emission → Value × Builder
  | .value make => lowered.2.emit make
  | .effect kind => (lowered.1, lowered.2.push kind)

/-- `lower_expression`. -/
def lowerExpression (builder : Builder) (code : StraightCode) : Value × Builder :=
  code.instructions.foldl append (code.value, builder)

/-- The jump at the end of a loop's body. -/
def jumpBack (builder : Builder) (header : BlockId) : Builder :=
  if builder.isTerminated then builder else builder.buildBranch header

/-- `lower_block`: statements behind a terminator are dropped. -/
def lowerBlock : Statements → Builder → Builder
  | .nil, builder => builder
  | .expression code rest, builder =>
    if builder.isTerminated then builder else lowerBlock rest (builder.lowerExpression code).2
  | .whileLoop condition body rest, builder =>
    if builder.isTerminated then builder
    else
      let (headerBlock, builder) := builder.addBlock "while.header"
      let (bodyBlock, builder) := builder.addBlock "while.body"
      let (exitBlock, builder) := builder.addBlock "while.exit"
      let builder := (builder.buildBranch headerBlock).setCurrentBlock headerBlock
      let (value, builder) := builder.lowerExpression condition
      let builder := (builder.buildCondBranch value bodyBlock exitBlock).setCurrentBlock bodyBlock
      let builder := (lowerBlock body builder).jumpBack headerBlock
      lowerBlock rest (builder.setCurrentBlock exitBlock)
  | .doWhile body condition rest, builder =>
    if builder.isTerminated then builder
    else
      let (bodyBlock, builder) := builder.addBlock "do_while.body"
      let (headerBlock, builder) := builder.addBlock "do_while.header"
      let (exitBlock, builder) := builder.addBlock "do_while.exit"
      let builder := (builder.buildBranch bodyBlock).setCurrentBlock bodyBlock
      let builder := (lowerBlock body builder).jumpBack headerBlock
      let (value, builder) := (builder.setCurrentBlock headerBlock).lowerExpression condition
      let builder := builder.buildCondBranch value bodyBlock exitBlock
      lowerBlock rest (builder.setCurrentBlock exitBlock)
  | .loop body rest, builder =>
    if builder.isTerminated then builder
    else
      let (bodyBlock, builder) := builder.addBlock "loop.body"
      let (exitBlock, builder) := builder.addBlock "loop.exit"
      let builder := (builder.buildBranch bodyBlock).setCurrentBlock bodyBlock
      let builder := (lowerBlock body builder).jumpBack bodyBlock
      lowerBlock rest (builder.setCurrentBlock exitBlock)

/-- A builder at the entry of a function without parameters. -/
def enter (name : String) : Builder :=
  let (entry, builder) := (Builder.mk ⟨name, [], .void, [], 0, 0, [], none, false⟩ 0).addBlock
    "entry"
  builder.setCurrentBlock entry

end Builder

/-- `lower_function` for a function without parameters and result; the last block returns. -/
def lowerFunction (name : String) (body : Statements) : Function :=
  let builder := Builder.lowerBlock body (Builder.enter name)
  if builder.isTerminated then builder.function else (builder.terminate (.ret none)).function

/-- The blocks that lowering adds with their labels, the edges it adds, the block it ends in and the
next free identifier. -/
structure Shape where
  names : List (Nat × String)
  edges : List (Nat × Nat)
  current : Nat
  next : Nat

/-- The shape of statements that are lowered into a current block. -/
def Statements.shape : Statements → Nat → Nat → Shape
  | .nil, current, next => ⟨[], [], current, next⟩
  | .expression _ rest, current, next => rest.shape current next
  | .whileLoop _ body rest, current, next =>
    let inner := body.shape (next + 1) (next + 3)
    let outer := rest.shape (next + 2) inner.next
    ⟨[(next, "while.header"), (next + 1, "while.body"), (next + 2, "while.exit")] ++ inner.names ++
        outer.names,
      [(current, next), (next, next + 1), (next, next + 2)] ++ inner.edges ++
        [(inner.current, next)] ++ outer.edges,
      outer.current, outer.next⟩
  | .doWhile body _ rest, current, next =>
    let inner := body.shape next (next + 3)
    let outer := rest.shape (next + 2) inner.next
    ⟨[(next, "do_while.body"), (next + 1, "do_while.header"), (next + 2, "do_while.exit")] ++
        inner.names ++ outer.names,
      [(current, next)] ++ inner.edges ++
        [(inner.current, next + 1), (next + 1, next), (next + 1, next + 2)] ++ outer.edges,
      outer.current, outer.next⟩
  | .loop body rest, current, next =>
    let inner := body.shape next (next + 2)
    let outer := rest.shape (next + 1) inner.next
    ⟨[(next, "loop.body"), (next + 1, "loop.exit")] ++ inner.names ++ outer.names,
      [(current, next)] ++ inner.edges ++ [(inner.current, next)] ++ outer.edges,
      outer.current, outer.next⟩

/-- Without an endless loop. -/
def Statements.isFinite : Statements → Bool
  | .nil => true
  | .expression _ rest => rest.isFinite
  | .whileLoop _ body rest | .doWhile body _ rest => body.isFinite && rest.isFinite
  | .loop _ _ => false

/-- Some loop with a condition is among the statements. -/
def Statements.hasLoop : Statements → Bool
  | .nil => false
  | .expression _ rest => rest.hasLoop
  | .whileLoop .. | .doWhile .. => true
  | .loop body rest => body.hasLoop || rest.hasLoop

namespace Builder

/-- The current code of the first block may pass control to the second. -/
def Jumps (builder : Builder) (source target : BlockId) : Prop :=
  ∃ block, builder.function.getBlock source = some block ∧ target ∈ blockSuccessors block.terminator

/-- The identifiers and labels of the blocks. -/
def names (builder : Builder) : List (BlockId × String) :=
  builder.function.blocks.map fun block => (block.id, block.label)

variable {builder start now last : Builder} {source target id other : BlockId} {label : String}
  {change : BasicBlock → BasicBlock} {nextValueId : Nat} {terminator : Terminator}
  {names names' : List (BlockId × String)} {edges edges' : List (BlockId × BlockId)}

theorem jumps_addBlock :
    (builder.addBlock label).2.Jumps source target ↔ builder.Jumps source target := by
  have located : (builder.addBlock label).2.function.getBlock source =
      (builder.function.getBlock source).or
        (if builder.function.nextBlockId = source then
          some ⟨builder.function.nextBlockId, label, [], none⟩ else none) := by
    simp [Function.getBlock, addBlock, find?_append, find?_singleton]
  unfold Jumps
  rw [located]
  cases found : builder.function.getBlock source with
  | some block => simp
  | none =>
    by_cases new : builder.function.nextBlockId = source
    · simp [new, blockSuccessors]
    · simp [new]

theorem jumps_revise_of_same (sameId : ∀ block, (change block).id = block.id)
    (same : ∀ block, (change block).terminator = block.terminator) :
    (builder.revise nextValueId change).Jumps source target ↔ builder.Jumps source target := by
  have located : (builder.revise nextValueId change).function.getBlock source =
      (builder.function.updateBlock builder.current change).getBlock source := rfl
  unfold Jumps
  rw [located]
  by_cases here : source = builder.current
  · rw [here, Function.getBlock_updateBlock_self _ _ sameId]
    simp [same]
  · rw [Function.getBlock_updateBlock_of_ne _ sameId here]

theorem jumps_terminate (ready : builder.Ready) :
    (builder.terminate terminator).Jumps source target ↔
      builder.Jumps source target ∨ source = builder.current ∧ target ∈ terminator.successors := by
  obtain ⟨block, found, vacant⟩ := ready.vacant
  have located : (builder.terminate terminator).function.getBlock source =
      (builder.function.updateBlock builder.current (·.setTerminator terminator)).getBlock source :=
        rfl
  have here : builder.function.getBlock builder.current = some block := found
  have sameId (block : BasicBlock) : (block.setTerminator terminator).id = block.id := rfl
  unfold Jumps
  rw [located]
  by_cases same : source = builder.current
  · rw [same, Function.getBlock_updateBlock_self _ _ sameId, here]
    simp [BasicBlock.setTerminator, blockSuccessors, vacant]
  · rw [Function.getBlock_updateBlock_of_ne _ sameId same]
    simp [same]

theorem names_revise (sameId : ∀ block, (change block).id = block.id)
    (sameLabel : ∀ block, (change block).label = block.label) :
    (builder.revise nextValueId change).names = builder.names := by
  unfold Builder.names revise Function.updateBlock
  induction builder.function.blocks with
  | nil => rfl
  | cons block rest ih =>
    by_cases here : block.id = builder.current
    · simp [updateFirst, here, sameId, sameLabel]
    · simpa [updateFirst, here] using ih

theorem names_addBlock :
    (builder.addBlock label).2.names = builder.names ++
      [(builder.function.nextBlockId, label)] := by
  simp [Builder.names, addBlock]

/-- Emission from one builder to the other adds these blocks and these edges. -/
structure Emits (start : Builder) (names : List (BlockId × String))
    (edges : List (BlockId × BlockId)) (now : Builder) : Prop where
  bounded : start.Bounded
  grows : start.Grows now
  ready : now.Ready
  names : now.names = start.names ++ names
  jumps : ∀ source target, now.Jumps source target ↔ start.Jumps source target ∨
    (source, target) ∈ edges

namespace Emits

theorem refl (ready : builder.Ready) : Emits builder [] [] builder :=
  ⟨ready.bounded, .refl builder, ready, by simp, by simp⟩

theorem trans (first : Emits start names edges now) (second : Emits now names' edges' last) :
    Emits start (names ++ names') (edges ++ edges') last :=
  ⟨first.bounded, first.grows.trans first.bounded second.grows, second.ready,
    by rw [second.names, first.names, append_assoc], by simp [second.jumps, first.jumps, or_assoc]⟩

theorem addBlock (emits : Emits start names edges now) (label : String) :
    Emits start (names ++ [(now.function.nextBlockId, label)]) edges (now.addBlock label).2 :=
  ⟨emits.bounded, emits.grows.trans emits.bounded (grows_addBlock now label),
    emits.ready.addBlock label, by rw [names_addBlock, emits.names, append_assoc],
    fun _ _ => jumps_addBlock.trans (emits.jumps _ _)⟩

/-- End the current block and go on in one that waits. -/
theorem redirect (emits : Emits start names edges now) (terminator : Terminator)
    (awaits : now.Awaits id) (fresh : start.function.nextBlockId ≤ id) :
    Emits start names (edges ++ terminator.successors.map (now.current, ·))
      ((now.terminate terminator).setCurrentBlock id) := by
  obtain ⟨grows, bounded⟩ := emits.ready.terminate terminator
  have kept : (now.terminate terminator).names = now.names :=
    @names_revise now (·.setTerminator terminator) _ (fun _ => rfl) fun _ => rfl
  refine ⟨emits.bounded, (emits.grows.trans emits.bounded grows).setCurrentBlock fresh,
    (awaits.grows emits.ready.bounded grows).ready bounded, ?_, fun source target => ?_⟩
  · exact kept.trans emits.names
  · refine (jumps_terminate emits.ready).trans ?_
    rw [emits.jumps, or_assoc, mem_append]
    simp [Prod.ext_iff, eq_comm, and_comm]

end Emits

theorem Awaits.redirect (awaits : builder.Awaits other) (ready : builder.Ready)
    (apart : other ≠ id) : ((builder.terminate terminator).setCurrentBlock id).Awaits other :=
  (awaits.grows ready.bounded (ready.terminate terminator).1).setCurrentBlock apart

theorem Awaits.addBlock (awaits : builder.Awaits id) (ready : builder.Ready) (label : String) :
    (builder.addBlock label).2.Awaits id :=
  awaits.grows ready.bounded (grows_addBlock builder label)

/-- Emission into the current block alone. -/
structure Stays (now last : Builder) : Prop where
  emits : Emits now [] [] last
  current : last.current = now.current
  next : last.function.nextBlockId = now.function.nextBlockId

theorem Stays.revise {kind : InstructionKind} (ready : now.Ready)
    (grows : now.Grows (now.revise nextValueId (·.addInstruction kind)))
    (still : (now.revise nextValueId (·.addInstruction kind)).Ready) :
    Stays now (now.revise nextValueId (·.addInstruction kind)) := by
  have kept := @names_revise now (·.addInstruction kind) nextValueId (fun _ => rfl) fun _ => rfl
  refine ⟨⟨ready.bounded, grows, still, by rw [kept, append_nil], fun source target => ?_⟩, rfl,
    rfl⟩
  rw [@jumps_revise_of_same now source target (·.addInstruction kind) nextValueId (fun _ => rfl)
    fun _ => rfl]
  simp

theorem stays_append {emission : Emission} (numbered : emission.Numbered) (ready : now.Ready)
    (value : Value) : Stays now (append (value, now) emission).2 := by
  cases emission with
  | value make =>
    obtain ⟨grows, still⟩ := ready.emit (numbered now.function.nextValueId)
    rw [emit_of_ready ready] at grows still
    rw [append, emit_of_ready ready]
    exact .revise ready grows still
  | effect kind =>
    obtain ⟨grows, still⟩ := ready.push numbered
    exact .revise ready grows still

theorem lowerExpression_stays (ready : now.Ready) (code : StraightCode) :
    Stays now (now.lowerExpression code).2 := by
  suffices steps : ∀ emissions : List Emission, (∀ emission ∈ emissions, emission.Numbered) →
      ∀ value builder, builder.Ready →
        Stays builder (emissions.foldl append (value, builder)).2 from
    steps code.instructions code.numbered code.value now ready
  intro emissions
  induction emissions with
  | nil => exact fun _ _ builder ready => ⟨.refl ready, rfl, rfl⟩
  | cons emission rest ih =>
    intro numbered value builder ready
    have first := stays_append (numbered emission (by simp)) ready value
    have second := ih (fun other member => numbered other (by simp [member]))
      (append (value, builder) emission).1 _ first.emits.ready
    exact ⟨first.emits.trans second.emits, second.current.trans first.current,
      second.next.trans first.next⟩

/-- Lowering of statements gives their shape. -/
structure Lowers (statements : Statements) (now : Builder) : Prop where
  emits : Emits now (statements.shape now.current now.function.nextBlockId).names
    (statements.shape now.current now.function.nextBlockId).edges (lowerBlock statements now)
  current : (lowerBlock statements now).current =
    (statements.shape now.current now.function.nextBlockId).current
  next : (lowerBlock statements now).function.nextBlockId =
    (statements.shape now.current now.function.nextBlockId).next

theorem jumpBack_of_ready (ready : now.Ready) : now.jumpBack id = now.terminate (.branch id) := by
  rw [jumpBack, ready.isTerminated]
  rfl

theorem lowers_expression (ready : now.Ready) {code : StraightCode} {rest : Statements}
    (ih : ∀ builder : Builder, builder.Ready → Lowers rest builder) :
    Lowers (.expression code rest) now := by
  have first := lowerExpression_stays ready code
  have second := ih _ first.emits.ready
  have lowered : lowerBlock (.expression code rest) now =
      lowerBlock rest (now.lowerExpression code).2 := by
    simp [lowerBlock, ready.isTerminated]
  have shaped : (Statements.expression code rest).shape now.current now.function.nextBlockId =
      rest.shape (now.lowerExpression code).2.current
        (now.lowerExpression code).2.function.nextBlockId := by
    rw [first.current, first.next]
    rfl
  refine ⟨?_, ?_, ?_⟩
  · rw [lowered, shaped]
    exact first.emits.trans second.emits
  · rw [lowered, shaped]
    exact second.current
  · rw [lowered, shaped]
    exact second.next

/-- The builder now appends to the block, and the others that waited still wait. -/
structure Arrives (now : Builder) (id next : BlockId) (after : Builder) : Prop where
  current : after.current = id
  next : after.function.nextBlockId = next
  waits : ∀ other, now.Awaits other → other ≠ id → after.Awaits other

section
variable (emits : Emits start names edges now) (awaits : now.Awaits id)
  (fresh : start.function.nextBlockId ≤ id) {after : Builder}
include emits awaits fresh

theorem Emits.branch (is : (now.buildBranch target).setCurrentBlock id = after) :
    Emits start names (edges ++ [(now.current, target)]) after ∧
      Arrives now id now.function.nextBlockId after := by
  subst is
  exact ⟨emits.redirect (.branch target) awaits fresh, rfl, rfl,
    fun _ waits apart => waits.redirect emits.ready apart⟩

/-- A condition is evaluated in the current block, which then branches on it. -/
theorem Emits.condition {code : StraightCode} {yes no : BlockId}
    (is : ((now.lowerExpression code).2.buildCondBranch (now.lowerExpression code).1 yes
      no).setCurrentBlock id = after) :
    Emits start names (edges ++ [(now.current, yes), (now.current, no)]) after ∧
      Arrives now id now.function.nextBlockId after := by
  subst is
  have stays := lowerExpression_stays emits.ready code
  have waits {other : BlockId} (awaits : now.Awaits other) :
    (now.lowerExpression code).2.Awaits other :=
    awaits.grows emits.ready.bounded stays.emits.grows
  have branched := (emits.trans stays.emits).redirect
    (.condBranch (now.lowerExpression code).1 yes no) (waits awaits) fresh
  rw [stays.current, append_nil, append_nil] at branched
  exact ⟨branched, rfl, stays.next,
    fun _ awaits apart => (waits awaits).redirect stays.emits.ready apart⟩

/-- Statements are lowered and the last of their blocks jumps back. -/
theorem Emits.body {body : Statements} {header : BlockId} (lowers : Lowers body now)
    (is : ((lowerBlock body now).jumpBack header).setCurrentBlock id = after) :
    let inner := body.shape now.current now.function.nextBlockId
    Emits start (names ++ inner.names) (edges ++ inner.edges ++ [(inner.current, header)]) after ∧
      Arrives now id inner.next after := by
  intro inner
  have waits {other : BlockId} (awaits : now.Awaits other) : (lowerBlock body now).Awaits other :=
    awaits.grows emits.ready.bounded lowers.emits.grows
  have closed := (emits.trans lowers.emits).redirect (.branch header) (waits awaits) fresh
  rw [jumpBack_of_ready lowers.emits.ready] at is
  subst is
  rw [lowers.current] at closed
  exact ⟨closed, rfl, lowers.next,
    fun _ awaits apart => (waits awaits).redirect lowers.emits.ready apart⟩

end

section
variable (ready : now.Ready) {after : Builder}
include ready

/-- New blocks wait to be entered. -/
theorem opens_two {first second : String}
    (is : ((now.addBlock first).2.addBlock second).2 = after) :
    Emits now [(now.function.nextBlockId, first), (now.function.nextBlockId + 1, second)] [] after ∧
      Arrives now now.current (now.function.nextBlockId + 2) after ∧
      after.Awaits now.function.nextBlockId ∧ after.Awaits (now.function.nextBlockId + 1) := by
  subst is
  have grown := ready.addBlock first
  exact ⟨((Emits.refl ready).addBlock first).addBlock second,
    ⟨rfl, rfl, fun _ awaits _ => (awaits.addBlock ready first).addBlock grown second⟩,
    (ready.awaits_addBlock first).addBlock grown second, grown.awaits_addBlock second⟩

theorem opens_three {first second third : String}
    (is : (((now.addBlock first).2.addBlock second).2.addBlock third).2 = after) :
    Emits now [(now.function.nextBlockId, first), (now.function.nextBlockId + 1, second),
        (now.function.nextBlockId + 2, third)] [] after ∧
      Arrives now now.current (now.function.nextBlockId + 3) after ∧
      after.Awaits now.function.nextBlockId ∧ after.Awaits (now.function.nextBlockId + 1) ∧
      after.Awaits (now.function.nextBlockId + 2) := by
  subst is
  obtain ⟨emits, -, firstWaits, secondWaits⟩ := opens_two ready (Eq.refl _)
  exact ⟨emits.addBlock third, ⟨rfl, rfl, fun _ awaits _ =>
      ((awaits.addBlock ready first).addBlock (ready.addBlock first) second).addBlock emits.ready
        third⟩,
    firstWaits.addBlock emits.ready third, secondWaits.addBlock emits.ready third,
    emits.ready.awaits_addBlock third⟩

variable {condition : StraightCode} {body rest : Statements}
  (bodyLowers : ∀ builder : Builder, builder.Ready → Lowers body builder)
  (restLowers : ∀ builder : Builder, builder.Ready → Lowers rest builder)
include bodyLowers restLowers

theorem lowers_whileLoop : Lowers (.whileLoop condition body rest) now := by
  obtain ⟨next, isNext⟩ : ∃ next, now.function.nextBlockId = next := ⟨_, rfl⟩
  obtain ⟨opened, openedIs⟩ : ∃ builder, (((now.addBlock "while.header").2.addBlock
    "while.body").2.addBlock "while.exit").2 = builder := ⟨_, rfl⟩
  obtain ⟨inHeader, headerIs⟩ : ∃ builder,
    (opened.buildBranch next).setCurrentBlock next = builder := ⟨_, rfl⟩
  obtain ⟨inBody, bodyIs⟩ : ∃ builder, ((inHeader.lowerExpression condition).2.buildCondBranch
    (inHeader.lowerExpression condition).1 (next + 1) (next + 2)).setCurrentBlock (next + 1) =
      builder :=
    ⟨_, rfl⟩
  obtain ⟨inExit, exitIs⟩ : ∃ builder,
    ((lowerBlock body inBody).jumpBack next).setCurrentBlock (next + 2) = builder := ⟨_, rfl⟩
  have lowered : lowerBlock (.whileLoop condition body rest) now = lowerBlock rest inExit := by
    rw [lowerBlock, ready.isTerminated, ← exitIs, ← bodyIs, ← headerIs, ← openedIs, ← isNext]
    rfl
  obtain ⟨opens, atOpen, headerWaits, bodyWaits, exitWaits⟩ := opens_three ready openedIs
  rw [isNext] at opens atOpen headerWaits bodyWaits exitWaits
  obtain ⟨enters, atHeader⟩ := opens.branch headerWaits isNext.le headerIs
  obtain ⟨turns, atBody⟩ := enters.condition (atHeader.waits _ bodyWaits (by simp))
    (by omega) bodyIs
  obtain ⟨leaves, atExit⟩ := turns.body
    (atBody.waits _ (atHeader.waits _ exitWaits (by simp)) (by simp)) (by omega)
    (bodyLowers _ turns.ready) exitIs
  have outer := restLowers _ leaves.ready
  have total := leaves.trans outer.emits
  have current := outer.current
  have last := outer.next
  rw [atExit.current, atExit.next, atBody.current, atBody.next, atHeader.next, atOpen.next]
    at total current last
  refine ⟨?_, ?_, ?_⟩ <;> rw [lowered, isNext]
  · simpa [Statements.shape, atHeader.current, atOpen.current] using total
  · exact current
  · exact last

theorem lowers_doWhile : Lowers (.doWhile body condition rest) now := by
  obtain ⟨next, isNext⟩ : ∃ next, now.function.nextBlockId = next := ⟨_, rfl⟩
  obtain ⟨opened, openedIs⟩ : ∃ builder, (((now.addBlock "do_while.body").2.addBlock
    "do_while.header").2.addBlock "do_while.exit").2 = builder := ⟨_, rfl⟩
  obtain ⟨inBody, bodyIs⟩ : ∃ builder,
    (opened.buildBranch next).setCurrentBlock next = builder := ⟨_, rfl⟩
  obtain ⟨inHeader, headerIs⟩ : ∃ builder,
    ((lowerBlock body inBody).jumpBack (next + 1)).setCurrentBlock (next + 1) = builder := ⟨_, rfl⟩
  obtain ⟨inExit, exitIs⟩ : ∃ builder, ((inHeader.lowerExpression condition).2.buildCondBranch
    (inHeader.lowerExpression condition).1 next (next + 2)).setCurrentBlock (next + 2) = builder :=
    ⟨_, rfl⟩
  have lowered : lowerBlock (.doWhile body condition rest) now = lowerBlock rest inExit := by
    rw [lowerBlock, ready.isTerminated, ← exitIs, ← headerIs, ← bodyIs, ← openedIs, ← isNext]
    rfl
  obtain ⟨opens, atOpen, bodyWaits, headerWaits, exitWaits⟩ := opens_three ready openedIs
  rw [isNext] at opens atOpen headerWaits bodyWaits exitWaits
  obtain ⟨enters, atBody⟩ := opens.branch bodyWaits isNext.le bodyIs
  obtain ⟨turns, atHeader⟩ := enters.body (atBody.waits _ headerWaits (by simp)) (by omega)
    (bodyLowers _ enters.ready) headerIs
  obtain ⟨leaves, atExit⟩ := turns.condition
    (atHeader.waits _ (atBody.waits _ exitWaits (by simp)) (by simp)) (by omega) exitIs
  have outer := restLowers _ leaves.ready
  have total := leaves.trans outer.emits
  have current := outer.current
  have last := outer.next
  rw [atExit.current, atExit.next, atHeader.next, atBody.current, atBody.next, atOpen.next]
    at total current last
  refine ⟨?_, ?_, ?_⟩ <;> rw [lowered, isNext]
  · simpa [Statements.shape, atHeader.current, atOpen.current] using total
  · exact current
  · exact last

theorem lowers_loop : Lowers (.loop body rest) now := by
  obtain ⟨next, isNext⟩ : ∃ next, now.function.nextBlockId = next := ⟨_, rfl⟩
  obtain ⟨opened, openedIs⟩ : ∃ builder,
    ((now.addBlock "loop.body").2.addBlock "loop.exit").2 = builder := ⟨_, rfl⟩
  obtain ⟨inBody, bodyIs⟩ : ∃ builder,
    (opened.buildBranch next).setCurrentBlock next = builder := ⟨_, rfl⟩
  obtain ⟨inExit, exitIs⟩ : ∃ builder,
    ((lowerBlock body inBody).jumpBack next).setCurrentBlock (next + 1) = builder := ⟨_, rfl⟩
  have lowered : lowerBlock (.loop body rest) now = lowerBlock rest inExit := by
    rw [lowerBlock, ready.isTerminated, ← exitIs, ← bodyIs, ← openedIs, ← isNext]
    rfl
  obtain ⟨opens, atOpen, bodyWaits, exitWaits⟩ := opens_two ready openedIs
  rw [isNext] at opens atOpen bodyWaits exitWaits
  obtain ⟨enters, atBody⟩ := opens.branch bodyWaits isNext.le bodyIs
  obtain ⟨leaves, atExit⟩ := enters.body (atBody.waits _ exitWaits (by simp)) (by omega)
    (bodyLowers _ enters.ready) exitIs
  have outer := restLowers _ leaves.ready
  have total := leaves.trans outer.emits
  have current := outer.current
  have last := outer.next
  rw [atExit.current, atExit.next, atBody.current, atBody.next, atOpen.next] at total current last
  refine ⟨?_, ?_, ?_⟩ <;> rw [lowered, isNext]
  · simpa [Statements.shape, atOpen.current] using total
  · exact current
  · exact last

end

theorem lowers (statements : Statements) : ∀ builder : Builder, builder.Ready →
    Lowers statements builder := by
  induction statements with
  | nil => exact fun builder ready => ⟨.refl ready, rfl, rfl⟩
  | expression code rest ih => exact fun builder ready => lowers_expression ready ih
  | whileLoop condition body rest bodyIh restIh =>
    exact fun builder ready => lowers_whileLoop ready bodyIh restIh
  | doWhile body condition rest bodyIh restIh =>
    exact fun builder ready => lowers_doWhile ready bodyIh restIh
  | loop body rest bodyIh restIh => exact fun builder ready => lowers_loop ready bodyIh restIh

end Builder

variable {current next : Nat}

/-- A path along the edges. -/
abbrev Path (edges : List (Nat × Nat)) : Nat → Nat → Prop :=
  ReflTransGen fun source target => (source, target) ∈ edges

theorem Path.mono {edges larger : List (Nat × Nat)} {source target : Nat}
    (path : Path edges source target) (subset : edges ⊆ larger) : Path larger source target :=
  ReflTransGen.mono (fun _ _ edge => subset edge) _ _ path

theorem map_fst_append {first second third : List (Nat × String)} {next size inner outer : Nat}
    (firstIs : first.map Prod.fst = range' next size)
    (secondIs : second.map Prod.fst = range' (next + size) inner)
    (thirdIs : third.map Prod.fst = range' (next + size + inner) outer) :
    (first ++ second ++ third).map Prod.fst = range' next (size + inner + outer) := by
  rw [map_append, map_append, firstIs, secondIs, thirdIs, ← range'_append_1, ← range'_append_1,
    Nat.add_assoc]

/-- New blocks are numbered in the order in which they are added. -/
theorem Statements.shape_names (statements : Statements) : ∀ current next, ∃ size,
    (statements.shape current next).next = next + size ∧
      (statements.shape current next).names.map Prod.fst = range' next size := by
  induction statements with
  | nil => exact fun _ _ => ⟨0, rfl, rfl⟩
  | expression code rest ih => exact ih
  | whileLoop condition body rest bodyIh restIh =>
    intro current next
    obtain ⟨inner, innerNext, innerNames⟩ := bodyIh (next + 1) (next + 3)
    obtain ⟨outer, outerNext, outerNames⟩ := restIh (next + 2) (next + 3 + inner)
    refine ⟨3 + inner + outer, ?_, ?_⟩ <;> simp only [shape, innerNext]
    · rw [outerNext, Nat.add_assoc, Nat.add_assoc, Nat.add_assoc]
    · exact map_fst_append rfl innerNames outerNames
  | doWhile body condition rest bodyIh restIh =>
    intro current next
    obtain ⟨inner, innerNext, innerNames⟩ := bodyIh next (next + 3)
    obtain ⟨outer, outerNext, outerNames⟩ := restIh (next + 2) (next + 3 + inner)
    refine ⟨3 + inner + outer, ?_, ?_⟩ <;> simp only [shape, innerNext]
    · rw [outerNext, Nat.add_assoc, Nat.add_assoc, Nat.add_assoc]
    · exact map_fst_append rfl innerNames outerNames
  | loop body rest bodyIh restIh =>
    intro current next
    obtain ⟨inner, innerNext, innerNames⟩ := bodyIh next (next + 2)
    obtain ⟨outer, outerNext, outerNames⟩ := restIh (next + 1) (next + 2 + inner)
    refine ⟨2 + inner + outer, ?_, ?_⟩ <;> simp only [shape, innerNext]
    · rw [outerNext, Nat.add_assoc, Nat.add_assoc, Nat.add_assoc]
    · exact map_fst_append rfl innerNames outerNames

/-- Every block of the shape lies on a path from the first block to the last one. -/
structure Shape.Spans (shape : Shape) (current next : Nat) : Prop where
  le : next ≤ shape.next
  last : shape.current = current ∨ next ≤ shape.current
  edges : ∀ source target, (source, target) ∈ shape.edges →
    (source = current ∨ next ≤ source) ∧ next ≤ target ∧ target < shape.next
  path : ∀ id, id = current ∨ next ≤ id ∧ id < shape.next →
    Path shape.edges current id ∧ Path shape.edges id shape.current

/-- A loop around an inner shape with its exit in front of an outer one. It is entered at its header
or at its body, whichever comes first. -/
theorem Shape.Spans.around {inner outer whole : Shape} {body header : Nat}
    (places : header = next ∧ body = next + 1 ∨ body = next ∧ header = next + 1)
    (innerSpans : inner.Spans body (next + 3)) (outerSpans : outer.Spans (next + 2) inner.next)
    (edges : ∀ source target, (source, target) ∈ whole.edges ↔
      source = current ∧ target = next ∨ source = header ∧ target = body ∨
        source = header ∧ target = next + 2 ∨ source = inner.current ∧ target = header ∨
        (source, target) ∈ inner.edges ∨ (source, target) ∈ outer.edges)
    (last : whole.current = outer.current) (wholeNext : whole.next = outer.next) :
    whole.Spans current next := by
  have innerLe := innerSpans.le
  have outerLe := outerSpans.le
  have innerLast := innerSpans.last
  have outerLast := outerSpans.last
  have within : inner.edges ⊆ whole.edges := fun edge member => (edges edge.1 edge.2).mpr
    (by simp [member])
  have behind : outer.edges ⊆ whole.edges := fun edge member => (edges edge.1 edge.2).mpr
    (by simp [member])
  have enters : Path whole.edges current body := by
    have first : Path whole.edges current next := .single ((edges _ _).mpr (by simp))
    have turn : Path whole.edges header body := .single ((edges _ _).mpr (by simp))
    rcases places with ⟨rfl, -⟩ | ⟨rfl, -⟩
    · exact first.trans turn
    · exact first
  have back : Path whole.edges inner.current header := .single ((edges _ _).mpr (by simp))
  have leaves : Path whole.edges header (next + 2) := .single ((edges _ _).mpr (by simp))
  have toHeader : Path whole.edges current header :=
    enters.trans (((innerSpans.path body (.inl rfl)).2.mono within).trans back)
  have ends : Path whole.edges header outer.current :=
    leaves.trans ((outerSpans.path (next + 2) (.inl rfl)).2.mono behind)
  refine ⟨by omega, .inr (by omega), fun source target edge => ?_, fun id inside => ?_⟩
  · rcases (edges source target).mp edge with _ | _ | _ | _ | edge | edge
    · omega
    · omega
    · omega
    · omega
    · have bounds := innerSpans.edges source target edge
      omega
    · have bounds := outerSpans.edges source target edge
      omega
  · rw [last]
    have place : id = current ∨ id = header ∨ (id = body ∨ next + 3 ≤ id ∧ id < inner.next) ∨
        (id = next + 2 ∨ inner.next ≤ id ∧ id < outer.next) := by omega
    rcases place with rfl | rfl | isInner | isOuter
    · exact ⟨.refl, toHeader.trans ends⟩
    · exact ⟨toHeader, ends⟩
    · obtain ⟨path, onward⟩ := innerSpans.path id isInner
      exact ⟨enters.trans (path.mono within), ((onward.mono within).trans back).trans ends⟩
    · obtain ⟨path, onward⟩ := outerSpans.path id isOuter
      exact ⟨(toHeader.trans leaves).trans (path.mono behind), onward.mono behind⟩

/-- Endless loops apart, a block of a loop is reached from where the loop is entered and leads to
where it is left. -/
theorem Statements.shape_spans (statements : Statements) (finite : statements.isFinite = true) :
    ∀ current next, (statements.shape current next).Spans current next := by
  induction statements with
  | nil =>
    refine fun current next => ⟨le_rfl, .inl rfl, by simp [shape], fun id inside => ?_⟩
    obtain rfl : id = current := inside.resolve_right fun new => absurd new.1 new.2.not_ge
    exact ⟨.refl, .refl⟩
  | expression code rest ih => exact ih finite
  | whileLoop condition body rest bodyIh restIh =>
    obtain ⟨bodyFinite, restFinite⟩ := Bool.and_eq_true_iff.mp finite
    refine fun current next => .around (.inl ⟨rfl, rfl⟩) (bodyIh bodyFinite (next + 1) (next + 3))
      (restIh restFinite (next + 2) _) (fun source target => ?_) rfl rfl
    simp only [shape, mem_append, mem_cons, Prod.mk.injEq, not_mem_nil, or_false]
    tauto
  | doWhile body condition rest bodyIh restIh =>
    obtain ⟨bodyFinite, restFinite⟩ := Bool.and_eq_true_iff.mp finite
    refine fun current next => .around (.inr ⟨rfl, rfl⟩) (bodyIh bodyFinite next (next + 3))
      (restIh restFinite (next + 2) _) (fun source target => ?_) rfl rfl
    simp only [shape, mem_append, mem_cons, Prod.mk.injEq, not_mem_nil, or_false]
    tauto
  | loop body rest => cases finite

/-- Only endless loops have labels that start with `loop`. -/
theorem Statements.shape_labels (statements : Statements) (finite : statements.isFinite = true) :
    ∀ current next, ∀ entry ∈ (statements.shape current next).names,
      textStartsWith entry.2 "loop" = false := by
  have plain : ∀ label ∈ ["while.header", "while.body", "while.exit", "do_while.body",
      "do_while.header", "do_while.exit"], textStartsWith label "loop" = false := by decide
  induction statements with
  | nil => simp [shape]
  | expression code rest ih => exact ih finite
  | whileLoop condition body rest bodyIh restIh =>
    obtain ⟨bodyFinite, restFinite⟩ := Bool.and_eq_true_iff.mp finite
    intro current next entry member
    simp only [shape, mem_append, mem_cons, not_mem_nil, or_false] at member
    rcases member with ((rfl | rfl | rfl) | inner) | outer
    · exact plain _ (by simp)
    · exact plain _ (by simp)
    · exact plain _ (by simp)
    · exact bodyIh bodyFinite _ _ entry inner
    · exact restIh restFinite _ _ entry outer
  | doWhile body condition rest bodyIh restIh =>
    obtain ⟨bodyFinite, restFinite⟩ := Bool.and_eq_true_iff.mp finite
    intro current next entry member
    simp only [shape, mem_append, mem_cons, not_mem_nil, or_false] at member
    rcases member with ((rfl | rfl | rfl) | inner) | outer
    · exact plain _ (by simp)
    · exact plain _ (by simp)
    · exact plain _ (by simp)
    · exact bodyIh bodyFinite _ _ entry inner
    · exact restIh restFinite _ _ entry outer
  | loop body rest => cases finite

/-- There is a header exactly where there is a loop with a condition. -/
theorem Statements.shape_headers (statements : Statements) (finite : statements.isFinite = true) :
    ∀ current next, (∃ entry ∈ (statements.shape current next).names,
      textContains entry.2 ".header" = true) ↔ statements.hasLoop = true := by
  induction statements with
  | nil => simp [shape, hasLoop]
  | expression code rest ih => exact ih finite
  | whileLoop condition body rest =>
    have header : textContains "while.header" ".header" = true := by decide
    exact fun current next => iff_of_true ⟨(next, "while.header"), by simp [shape], header⟩ rfl
  | doWhile body condition rest =>
    have header : textContains "do_while.header" ".header" = true := by decide
    exact fun current next => iff_of_true ⟨(next + 1, "do_while.header"), by simp [shape], header⟩
      rfl
  | loop body rest => cases finite

theorem Builder.enter_ready (name : String) : (Builder.enter name).Ready := by
  refine ⟨fun id block found => ?_, ⟨0, "entry", [], none⟩, rfl, rfl⟩
  obtain ⟨member, rfl⟩ := Function.mem_blocks_of_getBlock found
  obtain rfl := mem_singleton.mp member
  exact Nat.one_pos

variable (name : String) {body : Statements}

/-- The blocks of a lowered function are the entry and those of the shape, with its edges. -/
theorem lowerFunction_shape (body : Statements) :
    (lowerFunction name body).blocks.map (fun block => (block.id, block.label)) =
        (0, "entry") :: (body.shape 0 1).names ∧
      ∀ source target, (lowerFunction name body).Leads source target ↔
        (source, target) ∈ (body.shape 0 1).edges := by
  have lowered := Builder.lowers body _ (Builder.enter_ready name)
  have isFunction : lowerFunction name body =
      ((Builder.lowerBlock body (Builder.enter name)).terminate (.ret none)).function := by
    rw [lowerFunction, if_neg (by simp [lowered.emits.ready.isTerminated])]
  have kept := @Builder.names_revise (Builder.lowerBlock body (Builder.enter name))
    (·.setTerminator (.ret none))
      (Builder.lowerBlock body (Builder.enter name)).function.nextValueId
    (fun _ => rfl) fun _ => rfl
  have names : (lowerFunction name body).blocks.map (fun block => (block.id, block.label)) =
      (0, "entry") :: (body.shape 0 1).names := by
    rw [isFunction]
    exact kept.trans lowered.emits.names
  obtain ⟨size, -, numbered⟩ := body.shape_names 0 1
  have distinct : (lowerFunction name body).blockIds.Nodup := by
    have ids : (lowerFunction name body).blockIds = 0 :: range' 1 size := by
      rw [← numbered]
      simpa [Function.blockIds, Function.comp_def] using congrArg (map Prod.fst) names
    rw [ids]
    simp [nodup_range']
  refine ⟨names, fun source target => ?_⟩
  have jumps : (lowerFunction name body).Leads source target ↔
      ((Builder.lowerBlock body (Builder.enter name)).terminate (.ret none)).Jumps source
        target := by
    unfold Builder.Jumps
    rw [← isFunction]
    constructor
    · rintro ⟨block, member, rfl, edge⟩
      exact ⟨block, Function.getBlock_of_mem distinct member, edge⟩
    · rintro ⟨block, found, edge⟩
      obtain ⟨member, isSource⟩ := Function.mem_blocks_of_getBlock found
      exact ⟨block, member, isSource, edge⟩
  rw [jumps, Builder.jumps_terminate lowered.emits.ready, lowered.emits.jumps]
  have vacant : ¬ (Builder.enter name).Jumps source target := by
    rintro ⟨block, found, edge⟩
    obtain ⟨member, -⟩ := Function.mem_blocks_of_getBlock found
    obtain rfl := mem_singleton.mp member
    cases edge
  change (_ ∨ (source, target) ∈ (body.shape 0 1).edges) ∨ _ ↔ _
  simp [vacant, Terminator.successors]

/-- A block of the function is the entry, the body or the exit of the loop, or one of its
statements. -/
theorem mem_loopBlocks {block : BasicBlock}
    (member : block ∈ (lowerFunction name (.loop body .nil)).blocks) :
    block.id = 0 ∧ block.label = "entry" ∨ block.id = 1 ∧ block.label = "loop.body" ∨
      block.id = 2 ∧ block.label = "loop.exit" ∨
      (block.id, block.label) ∈ (body.shape 1 3).names ∧ 3 ≤ block.id ∧
        block.id < (body.shape 1 3).next := by
  obtain ⟨names, -⟩ := lowerFunction_shape name (.loop body .nil)
  obtain ⟨size, next, numbered⟩ := body.shape_names 1 3
  have listed : (block.id, block.label) ∈ _ := names ▸ mem_map_of_mem member
  simp only [Statements.shape, append_nil, cons_append, nil_append, mem_cons, Prod.mk.injEq]
    at listed
  rcases listed with entry | isBody | isExit | inner
  · exact .inl entry
  · exact .inr (.inl isBody)
  · exact .inr (.inr (.inl isExit))
  · have bounds : block.id ∈ range' 3 size := numbered ▸ mem_map_of_mem inner
    rw [mem_range'_1, ← next] at bounds
    exact .inr (.inr (.inr ⟨inner, bounds⟩))

section
variable (finite : body.isFinite = true)
include finite

/-- From the body of a lowered endless loop the blocks of its statements are reached, and no
others. -/
theorem reaches_loopBody_iff {id : Nat} : (lowerFunction name (.loop body .nil)).Reaches 1 id ↔
    id = 1 ∨ 3 ≤ id ∧ id < (body.shape 1 3).next := by
  have spans := body.shape_spans finite 1 3
  obtain ⟨-, leads⟩ := lowerFunction_shape name (.loop body .nil)
  constructor
  · intro path
    induction path with
    | refl => exact .inl rfl
    | @tail source target _ edge ih =>
      have member := (leads source target).mp edge
      simp only [Statements.shape, append_nil, mem_append, mem_singleton, Prod.mk.injEq] at member
      rcases member with (⟨rfl, -⟩ | edge) | ⟨-, isBody⟩
      · exact absurd ih (by simp)
      · exact .inr (spans.edges source target edge).2
      · exact .inl isBody
  · intro inside
    refine ReflTransGen.mono (fun source target edge => (leads source target).mpr ?_) _ _
      (spans.path id inside).1
    simp [Statements.shape, edge]

theorem reaches_loopEnd {id : Nat} (inside : id = 1 ∨ 3 ≤ id ∧ id < (body.shape 1 3).next) :
    (lowerFunction name (.loop body .nil)).Reaches id (body.shape 1 3).current := by
  obtain ⟨-, leads⟩ := lowerFunction_shape name (.loop body .nil)
  refine ReflTransGen.mono (fun source target edge => (leads source target).mpr ?_) _ _
    ((body.shape_spans finite 1 3).path id inside).2
  simp [Statements.shape, edge]

omit finite in
theorem loopEnd_leads :
    (lowerFunction name (.loop body .nil)).Leads (body.shape 1 3).current 1 :=
  ((lowerFunction_shape name (.loop body .nil)).2 _ _).mpr (by simp [Statements.shape])

theorem loopBody_trapped : (lowerFunction name (.loop body .nil)).Trapped 1 := by
  refine ⟨?_, fun id path => ?_⟩
  · rcases (reaches_loopEnd name finite (.inl rfl)).cases_head with same | ⟨next, edge, -⟩
    · exact ⟨1, by simpa only [← same] using @loopEnd_leads name body⟩
    · exact ⟨next, edge⟩
  · exact (reaches_loopEnd name finite ((reaches_loopBody_iff name finite).mp path)).tail
      (loopEnd_leads name)

theorem lowered_linked : (lowerFunction name (.loop body .nil)).Linked := by
  obtain ⟨names, leads⟩ := lowerFunction_shape name (.loop body .nil)
  obtain ⟨size, next, numbered⟩ := body.shape_names 1 3
  have ids : (lowerFunction name (.loop body .nil)).blockIds = range' 0 (3 + size) := by
    have listed := congrArg (map Prod.fst) names
    simp only [Statements.shape, append_nil, cons_append, nil_append, map_cons, numbered, map_map]
      at listed
    rw [← range'_append_1]
    exact listed
  refine ⟨ids ▸ nodup_range', fun block member target edge => ?_⟩
  have bound := (body.shape_spans finite 1 3).le
  have edge := (leads block.id target).mp ⟨block, member, rfl, edge⟩
  rw [ids, mem_range'_1]
  simp only [Statements.shape, append_nil, mem_append, mem_singleton, Prod.mk.injEq] at edge
  rcases edge with (⟨-, rfl⟩ | edge) | ⟨-, rfl⟩
  · omega
  · have bounds := ((body.shape_spans finite 1 3).edges _ _ edge).2
    omega
  · omega

/-- The entry is not on a loop, and nothing follows the exit. -/
theorem reaches_of_trapped {block : BasicBlock}
    (member : block ∈ (lowerFunction name (.loop body .nil)).blocks)
    (trapped : (lowerFunction name (.loop body .nil)).Trapped block.id) :
    (lowerFunction name (.loop body .nil)).Reaches 1 block.id := by
  obtain ⟨-, leads⟩ := lowerFunction_shape name (.loop body .nil)
  have spans := body.shape_spans finite 1 3
  rw [reaches_loopBody_iff name finite]
  rcases mem_loopBlocks name member with ⟨isEntry, -⟩ | ⟨isBody, -⟩ | ⟨isExit, -⟩ | ⟨-, inner⟩
  · rw [isEntry] at trapped
    have edge := (leads 0 1).mpr (by simp [Statements.shape])
    have back := (reaches_loopBody_iff name finite).mp (trapped.2 1 (.single edge))
    exact absurd back (by simp)
  · exact .inl isBody
  · rw [isExit] at trapped
    obtain ⟨next, edge⟩ := trapped.1
    have edge := (leads 2 next).mp edge
    simp only [Statements.shape, append_nil, mem_append, mem_singleton, Prod.mk.injEq] at edge
    rcases edge with (⟨isEntry, -⟩ | edge) | ⟨isLast, -⟩
    · cases isEntry
    · exact absurd (spans.edges 2 next edge).1 (by decide)
    · exact absurd spans.last (by simp [← isLast])
  · exact .inr inner

/-- Lowering gives an endless loop, entered at block 1. -/
theorem lowered_endlessLoop : ∃ block, block.id = 1 ∧
    LoopStructureValidation.EndlessLoop (lowerFunction name (.loop body .nil)) block := by
  obtain ⟨names, -⟩ := lowerFunction_shape name (.loop body .nil)
  have reach (id : Nat) := @reaches_loopBody_iff name body finite id
  obtain ⟨block, inside, listed⟩ :
      ∃ block ∈ (lowerFunction name (.loop body .nil)).blocks, (block.id, block.label) =
        (1, "loop.body") :=
    mem_map.mp (by rw [names]; simp [Statements.shape])
  obtain ⟨isOne, label⟩ := Prod.mk.inj listed
  refine ⟨block, isOne, lowered_linked name finite, inside, label,
    isOne ▸ loopBody_trapped name finite, fun other member => ?_, fun other member path => ?_,
    fun other member path isHeader => ?_, fun other member isExit plain => ?_⟩
  · rw [isOne]
    exact reaches_of_trapped name finite member
  · rw [isOne] at path ⊢
    rcases (reach _).mp path with isBody | inner
    · exact isBody.ge
    · exact Nat.le_trans (by decide) inner.1
  · rcases mem_loopBlocks name member with ⟨-, isEntry⟩ | ⟨-, isBody⟩ | ⟨-, isExit⟩ | ⟨inner, -⟩
    · rw [isEntry]
      decide
    · rw [isBody] at isHeader
      exact absurd isHeader (by decide)
    · rw [isExit] at isHeader
      exact absurd isHeader (by decide)
    · exact body.shape_labels finite 1 3 _ inner
  · rcases mem_loopBlocks name member with ⟨-, isEntry⟩ | ⟨-, isBody⟩ | ⟨-, isLast⟩ | ⟨-, inner⟩
    · rw [isEntry] at isExit
      exact absurd isExit (by decide)
    · rw [isBody] at plain
      exact absurd plain (by decide)
    · rw [isLast] at plain
      exact absurd plain (by decide)
    · obtain same | ⟨source, -, edge⟩ := ((reach _).mpr (.inr inner)).cases_tail
      · rw [same] at inner
        exact absurd inner.1 (by decide)
      · exact ⟨source, edge⟩

end

namespace LoopStructureValidation

/-- A `loop` whose body has no endless loop is lowered to a function with an endless loop, and is
accepted iff no loop with a condition is inside. Any function with an endless loop is accepted iff
no block labelled as a header is reached in the loop. -/
theorem endlessLoop_accepted_iff (name : String) (body : Statements)
    (finite : body.isFinite = true) :
    (∃ block, EndlessLoop (lowerFunction name (.loop body .nil)) block) ∧
      (validateFunction (lowerFunction name (.loop body .nil)) = [] ↔ body.hasLoop = false) ∧
      ∀ function block, EndlessLoop function block → (validateFunction function = [] ↔
        ∀ other ∈ function.blocks, function.Reaches block.id other.id →
          textContains other.label ".header" = false) := by
  obtain ⟨block, isOne, loop⟩ := lowered_endlessLoop name finite
  refine ⟨⟨block, loop⟩, ?_, fun function block loop => loop.accepted_iff⟩
  have headers := body.shape_headers finite 1 3
  obtain ⟨names, -⟩ := lowerFunction_shape name (.loop body .nil)
  obtain ⟨size, next, numbered⟩ := body.shape_names 1 3
  rw [loop.accepted_iff, isOne, ← Bool.not_eq_true, ← headers]
  constructor
  · rintro plain ⟨entry, listed, isHeader⟩
    obtain ⟨other, member, rfl⟩ :
        ∃ other ∈ (lowerFunction name (.loop body .nil)).blocks, (other.id, other.label) = entry :=
      mem_map.mp (by rw [names]; simp [Statements.shape, listed])
    have bounds : other.id ∈ range' 3 size := numbered ▸ mem_map_of_mem listed
    rw [mem_range'_1, ← next] at bounds
    have unmarked := plain other member ((reaches_loopBody_iff name finite).mpr (.inr bounds))
    rw [isHeader] at unmarked
    cases unmarked
  · intro plain other member path
    rcases mem_loopBlocks name member with ⟨-, label⟩ | ⟨-, label⟩ | ⟨-, label⟩ | ⟨listed, -⟩
    · rw [label]
      decide
    · rw [label]
      decide
    · rw [label]
      decide
    · exact Bool.eq_false_iff.mpr fun isHeader => plain ⟨_, listed, isHeader⟩

/-- The constant `false`. -/
def falseCode : StraightCode where
  instructions := [.value fun result => .constBool result false]
  value := 0
  numbered := by
    intro emission member
    obtain rfl := mem_singleton.mp member
    exact fun _ => rfl

/-- `loop { while false { } }` -/
def whileInLoop : Statements := .loop (.whileLoop falseCode .nil .nil) .nil

/-- An endless loop around a `while` is rejected, one around straight code is accepted. -/
theorem endlessLoop_accepted_whileInLoop :
    validateFunction (lowerFunction "main" whileInLoop) ≠ [] ∧
      validateFunction (lowerFunction "main" (.loop (.expression falseCode .nil) .nil)) = [] := by
  constructor
  · intro accepted
    have plain :=
      (endlessLoop_accepted_iff "main" (.whileLoop falseCode .nil .nil) rfl).2.1.mp accepted
    cases plain
  · exact (endlessLoop_accepted_iff "main" (.expression falseCode .nil) rfl).2.1.mpr rfl

/-- The header of the inner loop is taken for that of the endless loop around it. -/
theorem while_in_loop_rejected : validateFunction (lowerFunction "main" whileInLoop) =
    [⟨"main", 3, "while.header", noExitMessage⟩] := by
  decide +kernel

end LoopStructureValidation

end SpectraLang
