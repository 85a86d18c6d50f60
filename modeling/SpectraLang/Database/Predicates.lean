import Mathlib.Data.Sign.Defs

/-! # Conditions of the query builder

`render_predicate_root` and `render_predicate` of `spectra-db` over the SQL tokens they write, and a
parser for conditions with NOT above AND above OR. A placeholder stands with its value, a quoted
name with its identifier. Truth values are signs: NULL is `0`, AND the minimum, OR the maximum.
-/

namespace SpectraLang.Database.Query

open List

/-- A bound value; a real is given by its bits. -/
inductive SqliteValue where
  | null
  | integer (value : Int64)
  | real (bits : UInt64)
  | text (value : String)
  | blob (bytes : List UInt8)
  deriving DecidableEq

inductive QueryError where
  | invalidIdentifier (identifier : String)
  | invalidParameter (message : String)
  deriving DecidableEq

/-- The operators `Predicate::compare` is called with. -/
inductive ComparisonOperator where
  | eq | ne | gt | ge | lt | le
  deriving DecidableEq

inductive AggregateFunction where
  | count | sum | avg | min | max
  deriving DecidableEq

inductive AnyExpr where
  | column (name : String)
  | param (value : SqliteValue)
  | aggregateStar (function : AggregateFunction)
  | aggregate (function : AggregateFunction) (argument : AnyExpr)
  deriving DecidableEq

/-- The predicates without a predicate inside. -/
inductive Atom where
  | compare (operator : ComparisonOperator) (left right : AnyExpr)
  | inList (expr : AnyExpr) (values : List SqliteValue)
  | like (expr : AnyExpr) (pattern : SqliteValue)
  deriving DecidableEq

inductive Junction where
  | and | or
  deriving DecidableEq

/-- `Predicate`, with `And` and `Or` as one constructor. -/
inductive Predicate where
  | atom (atom : Atom)
  | junction (word : Junction) (items : List Predicate)
  | not (item : Predicate)

def combinePredicate : Option Predicate → Predicate → Predicate
  | some existing, next => .junction .and [existing, next]
  | none, next => next

def Junction.join : Junction → SignType → SignType → SignType
  | .and => min
  | .or => max

def Junction.neutral : Junction → SignType
  | .and => 1
  | .or => -1

theorem Junction.join_neutral (word : Junction) :
    ∀ value, word.join value word.neutral = value := by
  cases word <;> decide

mutual

def Predicate.eval (assignment : Atom → SignType) : Predicate → SignType
  | .atom atom => assignment atom
  | .junction word items => evalItems assignment word items
  | .not item => -item.eval assignment

def evalItems (assignment : Atom → SignType) (word : Junction) : List Predicate → SignType
  | [] => word.neutral
  | item :: items => word.join (item.eval assignment) (evalItems assignment word items)

end

inductive SqlToken where
  | name (identifier : String)
  | placeholder (value : SqliteValue)
  | function (function : AggregateFunction)
  | comparison (operator : ComparisonOperator)
  | word (word : Junction)
  | opening | closing | comma | star | not | isIn | like | escape

def isControl (c : Char) : Bool := c.toNat < 32 || (127 ≤ c.toNat && c.toNat ≤ 159)

def quoteIdentifier (identifier : String) : Except QueryError (List SqlToken) :=
  if identifier.isEmpty || identifier.utf8ByteSize > 128 || identifier.toList.any isControl ||
      (identifier.toList.splitOn '.').any (·.isEmpty) then
    .error (.invalidIdentifier identifier)
  else .ok [.name identifier]

def renderExpr : AnyExpr → Except QueryError (List SqlToken)
  | .column name => quoteIdentifier name
  | .param value => .ok [.placeholder value]
  | .aggregateStar function => .ok [.function function, .opening, .star, .closing]
  | .aggregate function argument => do
    let inner ← renderExpr argument
    return .function function :: .opening :: inner ++ [.closing]

def likeEscapeCharacter : SqliteValue := .text "\\"

/-- The placeholders of an IN list. -/
def renderValues (values : List SqliteValue) : List SqlToken :=
  (values.map .placeholder).intersperse .comma

def renderAtom : Atom → Except QueryError (List SqlToken)
  | .compare operator left right => do
    let first ← renderExpr left
    let second ← renderExpr right
    return first ++ .comparison operator :: second
  | .inList expr values =>
    if values.isEmpty then .error (.invalidParameter "empty IN list")
    else do
      let first ← renderExpr expr
      return first ++ .isIn :: .opening :: renderValues values ++ [.closing]
  | .like expr pattern => do
    let first ← renderExpr expr
    return first ++ [.like, .placeholder pattern, .escape, .placeholder likeEscapeCharacter]

mutual

/-- `render_predicate`: every group stands in parentheses. -/
def renderPredicate : Predicate → Except QueryError (List SqlToken)
  | .atom atom => renderAtom atom
  | .junction word items =>
    if items.isEmpty then .error (.invalidParameter "empty boolean predicate")
    else do
      let inner ← renderItems word items
      return .opening :: inner ++ [.closing]
  | .not item => do
    let inner ← renderPredicate item
    return .not :: .opening :: inner ++ [.closing]

/-- The loop over the items of a group; only the first one has no word before it. -/
def renderItems (word : Junction) : List Predicate → Except QueryError (List SqlToken)
  | [] => .ok []
  | item :: items => do
    let first ← renderPredicate item
    let others ← renderRest word items
    return first ++ others

def renderRest (word : Junction) : List Predicate → Except QueryError (List SqlToken)
  | [] => .ok []
  | item :: items => do
    let first ← renderPredicate item
    let others ← renderRest word items
    return .word word :: first ++ others

end

def renderPredicateRoot : Predicate → Except QueryError (List SqlToken)
  | .junction word items => renderItems word items
  | predicate => renderPredicate predicate

inductive Clause where
  | where | having | on
  deriving DecidableEq

/-- The condition as `compile` writes it: only the one of a join has no form of its own at the
root. -/
def Clause.render : Clause → Predicate → Except QueryError (List SqlToken)
  | .on, predicate => renderPredicate predicate
  | _, predicate => renderPredicateRoot predicate

abbrev Parser (α : Type) := List SqlToken → Option (α × List SqlToken)

def parseOperand : Parser AnyExpr
  | .name identifier :: rest => some (.column identifier, rest)
  | .placeholder value :: rest => some (.param value, rest)
  | .function function :: .opening :: rest =>
    match parseOperand rest, rest with
    | some (argument, .closing :: rest), _ => some (.aggregate function argument, rest)
    | none, .star :: .closing :: rest => some (.aggregateStar function, rest)
    | _, _ => none
  | _ => none

def parseValues : Parser (List SqliteValue)
  | .placeholder value :: .closing :: rest => some ([value], rest)
  | .placeholder value :: .comma :: rest => (parseValues rest).map (Prod.map (value :: ·) id)
  | _ => none

/-- What stands after the first operand of an atom. -/
def parseTest (expr : AnyExpr) : Parser Atom
  | .comparison operator :: rest => (parseOperand rest).map (Prod.map (.compare operator expr) id)
  | .isIn :: .opening :: rest => (parseValues rest).map (Prod.map (.inList expr) id)
  | .like :: .placeholder pattern :: .escape :: .placeholder character :: rest =>
    if character = likeEscapeCharacter then some (.like expr pattern, rest) else none
  | _ => none

def parseAtom : Parser Atom := fun tokens => (parseOperand tokens).bind fun first =>
    parseTest first.1 first.2

def parsePrimary (inner : Parser Predicate) : Parser Predicate
  | .not :: rest => (parsePrimary inner rest).map (Prod.map .not id)
  | .opening :: rest =>
    match inner rest with
    | some (condition, .closing :: rest) => some (condition, rest)
    | _ => none
  | tokens => (parseAtom tokens).map (Prod.map .atom id)

/-- One or more operands with `word` between them. -/
def parseChain (word : Junction) (operand : Parser Predicate) : Nat → Parser (List Predicate)
  | 0, _ => none
  | fuel + 1, tokens =>
    (operand tokens).bind fun first =>
      match first.2 with
      | .word other :: rest =>
        if other = word then (parseChain word operand fuel rest).map (Prod.map (first.1 :: ·) id)
        else some ([first.1], .word other :: rest)
      | rest => some ([first.1], rest)

def collapse (word : Junction) : List Predicate → Predicate
  | [item] => item
  | items => .junction word items

def parseLevel (word : Junction) (operand : Parser Predicate) : Parser Predicate := fun tokens =>
  (parseChain word operand (tokens.length + 1) tokens).map (Prod.map (collapse word) id)

/-- Conditions with at most `depth` parentheses around a token. -/
def parseOr : Nat → Parser Predicate
  | 0 => fun _ => none
  | depth + 1 => parseLevel .or (parseLevel .and (parsePrimary (parseOr depth)))

def parseCondition (tokens : List SqlToken) : Option Predicate :=
  match parseOr (tokens.length + 1) tokens with
  | some (condition, []) => some condition
  | _ => none

/-- Rendering fails, or the condition written is read back with the truth values of the
predicate. -/
def Meaningful (clause : Clause) (predicate : Predicate) : Prop :=
  ∀ tokens, clause.render predicate = .ok tokens → ∃ condition, parseCondition tokens =
    some condition ∧ ∀ assignment, condition.eval assignment = predicate.eval assignment

variable {tokens rest : List SqlToken} {expr : AnyExpr} {condition item : Predicate}
  {word : Junction} {items : List Predicate} {depth : Nat}

theorem ok_bind {α β : Type} {x : Except QueryError α} {f : α → Except QueryError β} {b : β}
    (run : x >>= f = .ok b) : ∃ a, x = .ok a ∧ f a = .ok b := by
  cases x with
  | error => cases run
  | ok a => exact ⟨a, rfl, run⟩

theorem parseOperand_render (rendered : renderExpr expr = .ok tokens) (rest : List SqlToken) :
    parseOperand (tokens ++ rest) = some (expr, rest) := by
  induction expr generalizing tokens rest with
  | column name =>
    simp only [renderExpr, quoteIdentifier] at rendered
    split at rendered <;> cases rendered
    rfl
  | param value | aggregateStar function => cases rendered; rfl
  | aggregate function argument ih =>
    obtain ⟨inner, argumentOk, same⟩ := ok_bind rendered
    cases same
    simp [parseOperand, ih argumentOk]

theorem parseValues_render {values : List SqliteValue} (rest : List SqlToken)
    (some_value : values ≠ []) :
    parseValues (renderValues values ++ .closing :: rest) = some (values, rest) := by
  induction values with
  | nil => contradiction
  | cons value values ih =>
    cases values with
    | nil => rfl
    | cons next values =>
      have read := ih (cons_ne_nil next values)
      simp_all [renderValues, parseValues]

variable (inner : Parser Predicate)

theorem parsePrimary_operand (read : parseOperand tokens = some (expr, rest)) :
    parsePrimary inner tokens = (parseTest expr rest).map (Prod.map .atom id) := by
  unfold parsePrimary
  split
  · cases read
  · cases read
  · simp [parseAtom, read]

theorem parsePrimary_atom {atom : Atom} (rendered : renderAtom atom = .ok tokens)
    (rest : List SqlToken) : parsePrimary inner (tokens ++ rest) = some (.atom atom, rest) := by
  cases atom with
  | compare operator left right =>
    obtain ⟨first, leftOk, rendered⟩ := ok_bind rendered
    obtain ⟨second, rightOk, same⟩ := ok_bind rendered
    cases same
    rw [append_assoc, parsePrimary_operand inner (parseOperand_render leftOk _)]
    simp [parseTest, parseOperand_render rightOk]
  | inList expr values =>
    simp only [renderAtom] at rendered
    split at rendered
    · cases rendered
    · rename_i some_value
      obtain ⟨first, exprOk, same⟩ := ok_bind rendered
      cases same
      rw [append_assoc, append_assoc, parsePrimary_operand inner (parseOperand_render exprOk _)]
      simp [parseTest, parseValues_render rest (mt isEmpty_iff.mpr some_value)]
  | like expr pattern =>
    obtain ⟨first, exprOk, same⟩ := ok_bind rendered
    cases same
    rw [append_assoc, parsePrimary_operand inner (parseOperand_render exprOk _)]
    simp [parseTest]

/-- Before a rest that stops it, the parser reads exactly `tokens`, with the truth values of the
predicate. -/
def Reads (parse : Parser Predicate) (stop : List SqlToken → Prop) (tokens : List SqlToken)
    (predicate : Predicate) : Prop :=
  ∀ rest, stop rest → ∃ condition, parse (tokens ++ rest) = some (condition, rest) ∧
    ∀ assignment, condition.eval assignment = predicate.eval assignment

/-- A chain of `word` is not continued. -/
def Ends (word : Junction) (rest : List SqlToken) : Prop := rest.head? ≠ some (.word word)

section Chain
variable {operand : Parser Predicate} {stop : List SqlToken → Prop}

theorem parseChain_last (read : operand tokens = some (condition, rest)) (ends : Ends word rest)
    (fuel : Nat) : parseChain word operand (fuel + 1) tokens = some ([condition], rest) := by
  simp only [parseChain, read, Option.bind_some]
  split
  · rw [if_neg (by simpa [Ends] using ends)]
  · rfl

theorem collapse_eval (assignment : Atom → SignType) (word : Junction) (items : List Predicate) :
    (collapse word items).eval assignment = evalItems assignment word items := by
  unfold collapse
  split <;> simp [Predicate.eval, evalItems, Junction.join_neutral]

section
variable (between : ∀ tokens, stop (.word word :: tokens))
  (each : ∀ item ∈ items, ∀ tokens, renderPredicate item = .ok tokens → tokens.length ≤ depth →
    Reads operand stop tokens item)
include between each

theorem parseChain_rest (stops : stop rest) (ends : Ends word rest) :
    ∀ {item first tail}, Reads operand stop first item → renderRest word items = .ok tail →
      tail.length ≤ depth →
      ∀ fuel > tail.length, ∃ conditions, parseChain word operand fuel (first ++ tail ++ rest) =
        some (conditions, rest) ∧
        ∀ assignment, evalItems assignment word conditions = evalItems assignment word
          (item :: items) := by
  induction items with
  | nil =>
    intro item first tail head rendered _ fuel enough
    cases rendered
    obtain ⟨condition, read, value⟩ := head rest stops
    obtain ⟨fuel, rfl⟩ := Nat.exists_eq_succ_of_ne_zero (Nat.ne_of_gt enough)
    exact ⟨[condition], parseChain_last (by simpa using read) ends fuel, by simp [evalItems, value]⟩
  | cons next items ih =>
    intro item first tail head rendered short fuel enough
    obtain ⟨second, nextOk, rendered⟩ := ok_bind rendered
    obtain ⟨others, othersOk, same⟩ := ok_bind rendered
    cases same
    simp only [cons_append, length_cons, length_append] at short enough
    obtain ⟨fuel, rfl⟩ := Nat.exists_eq_succ_of_ne_zero (Nat.ne_zero_of_lt enough)
    obtain ⟨condition, read, value⟩ := head _ (between (second ++ others ++ rest))
    obtain ⟨conditions, chain, values⟩ :=
      ih (fun item member => each item (mem_cons_of_mem next member))
      (each next mem_cons_self second nextOk (by omega)) othersOk (by omega) fuel (by omega)
    refine ⟨condition :: conditions, ?_, fun assignment => by simp_all [evalItems]⟩
    simp_all [parseChain]

theorem Reads.level {first tail : List SqlToken} (head : Reads operand stop first item)
    (rendered : renderRest word items = .ok tail) (short : tail.length ≤ depth) :
    Reads (parseLevel word operand) (fun rest => stop rest ∧ Ends word rest) (first ++ tail)
      (.junction word (item :: items)) := by
  rintro rest ⟨stops, ends⟩
  obtain ⟨conditions, chain, values⟩ := parseChain_rest between each stops ends head rendered short
    ((first ++ tail ++ rest).length + 1) (by simp only [length_append]; omega)
  refine ⟨collapse word conditions, by simp only [parseLevel, chain]; rfl, fun assignment => ?_⟩
  rw [collapse_eval, values, Predicate.eval]

end

theorem Reads.single (reads : Reads operand stop tokens item) :
    Reads (parseLevel word operand) (fun rest => stop rest ∧ Ends word rest) tokens item := by
  rintro rest ⟨stops, ends⟩
  obtain ⟨condition, read, value⟩ := reads rest stops
  exact ⟨condition, by simp only [parseLevel, parseChain_last read ends]; rfl, value⟩

end Chain

/-- What stops `parseOr`. -/
def Stops (rest : List SqlToken) : Prop := (True ∧ Ends .and rest) ∧ Ends .or rest

theorem reads_items (each : ∀ item ∈ items, ∀ tokens, renderPredicate item = .ok tokens →
    tokens.length ≤ depth →
      Reads (parsePrimary (parseOr depth)) (fun _ => True) tokens item) (some_item : items ≠ [])
    (rendered : renderItems word items = .ok tokens) (short : tokens.length ≤ depth) :
    Reads (parseOr (depth + 1)) Stops tokens (.junction word items) := by
  obtain ⟨item, items, rfl⟩ := exists_cons_of_ne_nil some_item
  obtain ⟨first, itemOk, rendered⟩ := ok_bind rendered
  obtain ⟨tail, tailOk, same⟩ := ok_bind rendered
  cases same
  rw [length_append] at short
  have head := each item mem_cons_self first itemOk (by omega)
  have others := fun item member => each item (mem_cons_of_mem _ member)
  cases word with
  | and => exact (head.level (fun _ => trivial) others tailOk (by omega)).single
  | or =>
    refine head.single.level (fun _ => ⟨trivial, by simp [Ends]⟩) ?_ tailOk
      (Nat.le_of_add_left_le short)
    exact fun item member tokens itemOk short => (others item member tokens itemOk short).single

theorem Reads.parentheses {inner : Parser Predicate} (reads : Reads inner Stops tokens item) :
    Reads (parsePrimary inner) (fun _ => True) (.opening :: tokens ++ [.closing]) item := by
  intro rest _
  obtain ⟨condition, read, value⟩ := reads (.closing :: rest) (by simp [Stops, Ends])
  exact ⟨condition, by simp [parsePrimary, read], value⟩

theorem reads_predicate : ∀ (predicate : Predicate) {tokens : List SqlToken} {depth : Nat},
    renderPredicate predicate = .ok tokens → tokens.length ≤ depth →
      Reads (parsePrimary (parseOr depth)) (fun _ => True) tokens predicate
  | .atom atom, _, _, rendered, _ =>
    fun rest _ => ⟨.atom atom, parsePrimary_atom _ rendered rest, fun _ => rfl⟩
  | .junction word items, _, depth, rendered, short => by
    rw [renderPredicate] at rendered
    split at rendered
    · cases rendered
    · rename_i some_item
      obtain ⟨inner, itemsOk, same⟩ := ok_bind rendered
      cases same
      obtain ⟨depth, rfl⟩ := Nat.exists_eq_succ_of_ne_zero (Nat.ne_zero_of_lt short)
      have shorter : inner.length ≤ depth := by simp at short; omega
      exact (reads_items (fun item member _ => reads_predicate item) (mt isEmpty_iff.mpr some_item)
        itemsOk shorter).parentheses
  | .not item, _, depth, rendered, short => by
    obtain ⟨inner, itemOk, same⟩ := ok_bind rendered
    cases same
    obtain ⟨depth, rfl⟩ := Nat.exists_eq_succ_of_ne_zero (Nat.ne_zero_of_lt short)
    have shorter : inner.length ≤ depth := by simp at short; omega
    have reads : Reads (parseOr (depth + 1)) Stops inner item :=
      (reads_predicate item itemOk shorter).single.single
    intro rest _
    obtain ⟨condition, read, value⟩ := reads.parentheses rest trivial
    refine ⟨.not condition, ?_, fun assignment => by simp only [Predicate.eval, value]⟩
    simp_all [parsePrimary]

theorem meaningful_of_some_item {clause : Clause} {predicate : Predicate}
    (some_item : clause = .on ∨ ∀ word, predicate ≠ .junction word []) :
      Meaningful clause predicate := by
  intro tokens rendered
  have single (rendered : renderPredicate predicate = .ok tokens) :
      Reads (parseOr (tokens.length + 1)) Stops tokens predicate :=
    (reads_predicate predicate rendered le_rfl).single.single
  have reads : Reads (parseOr (tokens.length + 1)) Stops tokens predicate := by
    unfold Clause.render renderPredicateRoot at rendered
    split at rendered
    · exact single rendered
    · split at rendered
      · refine reads_items (fun item _ _ => reads_predicate item) ?_ rendered le_rfl
        rintro rfl
        simp_all
      · exact single rendered
  obtain ⟨condition, read, value⟩ := reads [] (by simp [Stops, Ends])
  refine ⟨condition, ?_, value⟩
  rw [append_nil] at read
  rw [parseCondition, read]

/-- Repeated calls of `where_` give the conjunction of their predicates, whatever these are. -/
theorem combinePredicate_meaningful (clause : Clause) (first second : Predicate)
    (others : List Predicate) :
    let whole := (second :: others).foldl (fun existing => combinePredicate (some existing)) first
    Meaningful clause whole ∧
      ∀ assignment, whole.eval assignment = evalItems assignment .and
        (first :: second :: others) := by
  induction others generalizing first second with
  | nil => exact ⟨meaningful_of_some_item (.inr (by simp [combinePredicate])), fun _ => rfl⟩
  | cons third others ih =>
    have later := ih (combinePredicate (some first) second) third
    refine ⟨later.1, fun assignment => (later.2 assignment).trans ?_⟩
    simp only [combinePredicate, Predicate.eval, evalItems, Junction.join_neutral]
    exact min_assoc ..

/-- Only an empty group at the root of WHERE or HAVING is written as no condition at all. -/
theorem meaningful_iff (clause : Clause) (predicate : Predicate) :
    Meaningful clause predicate ↔ clause = .on ∨ ∀ word, predicate ≠ .junction word [] := by
  refine ⟨fun meaningful => ?_, meaningful_of_some_item⟩
  by_contra empty
  obtain ⟨notOn, word, rfl⟩ : clause ≠ .on ∧ ∃ word, predicate = .junction word [] := by
    simpa using empty
  obtain ⟨condition, read, -⟩ := meaningful [] (by cases clause <;> trivial)
  cases read

/-- `Delete::from("t").where_(Predicate::And(vec![]))` compiles to a statement that ends with its
WHERE. -/
theorem where_empty_not_meaningful : ¬ Meaningful .where (.junction .and []) := by
  intro meaningful
  obtain ⟨condition, read, -⟩ := meaningful [] rfl
  cases read

end SpectraLang.Database.Query
