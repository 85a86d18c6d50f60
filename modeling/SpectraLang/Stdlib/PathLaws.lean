import SpectraLang.Stdlib.Path

/-! # Laws of path normalization

Read from its end, a path tells which of its names survive: a climb takes back the next name in
front of it. `normalize` keeps these names behind the climbs left over, so that normalizing twice
changes nothing unless the first surviving name is read as a drive.
-/

namespace SpectraLang.Stdlib.Path

open List Utf8 Runs

/-- Neither stays nor climbs. -/
def IsName (segment : Text) : Prop := segment ≠ ['.'] ∧ segment ≠ ['.', '.']

/-- The climbs left over and the names that no later climb takes back. -/
def survivors : List Text → Nat × List Text
  | [] => (0, [])
  | segment :: rest =>
    if segment = ['.'] then survivors rest
    else if segment = ['.', '.'] then ((survivors rest).1 + 1, (survivors rest).2)
    else if (survivors rest).1 = 0 then (0, segment :: (survivors rest).2)
    else ((survivors rest).1 - 1, (survivors rest).2)

/-- Climbs in front of names; nothing is above the root. -/
def settled (absolute : Bool) (climbs : Nat) (names : List Text) : List Text :=
  List.replicate (if absolute then 0 else climbs) ['.', '.'] ++ names

theorem survivors_here (rest : List Text) : survivors (['.'] :: rest) = survivors rest := by
  rw [survivors, if_pos rfl]

theorem survivors_up (rest : List Text) :
    survivors (['.', '.'] :: rest) = ((survivors rest).1 + 1, (survivors rest).2) := by
  simp [survivors]

variable {segment path : Text} {names segments others : List Text} {letter : Char}

theorem survivors_name (name : IsName segment) (rest : List Text) :
    survivors (segment :: rest) = if (survivors rest).1 = 0 then (0, segment :: (survivors rest).2)
      else ((survivors rest).1 - 1, (survivors rest).2) := by
  rw [survivors, if_neg name.1, if_neg name.2]

theorem segment_cases (segment : Text) : segment = ['.'] ∨ segment = ['.', '.'] ∨
    IsName segment := by
  by_cases here : segment = ['.']
  · exact .inl here
  · by_cases up : segment = ['.', '.']
    · exact .inr (.inl up)
    · exact .inr (.inr ⟨here, up⟩)

theorem mem_survivors {segments : List Text} {name : Text}
    (member : name ∈ (survivors segments).2) :
    IsName name ∧ name ∈ segments := by
  induction segments with
  | nil => cases member
  | cons segment segments ih =>
    rcases segment_cases segment with rfl | rfl | isName
    · rw [survivors_here] at member
      exact ⟨(ih member).1, mem_cons_of_mem _ (ih member).2⟩
    · rw [survivors_up] at member
      exact ⟨(ih member).1, mem_cons_of_mem _ (ih member).2⟩
    · rw [survivors_name isName] at member
      split_ifs at member with none
      · rcases mem_cons.mp member with rfl | later
        · exact ⟨isName, mem_cons_self⟩
        · exact ⟨(ih later).1, mem_cons_of_mem _ (ih later).2⟩
      · exact ⟨(ih member).1, mem_cons_of_mem _ (ih member).2⟩

theorem survivors_names (areNames : ∀ name ∈ names, IsName name) :
    survivors names = (0, names) := by
  induction names with
  | nil => rfl
  | cons name names ih =>
    obtain ⟨isName, others⟩ := forall_mem_cons.mp areNames
    rw [survivors_name isName, ih others, if_pos rfl]

theorem survivors_settled (absolute : Bool) (climbs : Nat)
    (areNames : ∀ name ∈ names, IsName name) :
    survivors (settled absolute climbs names) = (if absolute then 0 else climbs, names) := by
  unfold settled
  induction (if absolute then 0 else climbs) with
  | zero => exact survivors_names areNames
  | succ climbs ih => rw [replicate_succ, cons_append, survivors_up, ih]

section
variable (absolute : Bool) (climbs : Nat)

theorem appendSegment_name (names : List Text) {name : Text} (isName : IsName name) :
    appendSegment absolute (settled absolute climbs names) name = settled absolute climbs
      (names ++ [name]) := by
  simp [appendSegment, isName.1, isName.2, settled]

theorem appendSegment_up_nil :
    appendSegment absolute (settled absolute climbs []) ['.', '.'] = settled absolute (climbs + 1)
      [] := by
  rw [appendSegment, if_neg (by decide), if_neg (by decide)]
  cases absolute with
  | true => rfl
  | false =>
    cases climbs with
    | zero => rfl
    | succ climbs =>
      simp only [settled, Bool.false_eq_true, if_false, append_nil]
      rw [if_neg (by simp), if_pos (by simp [replicate_succ']), ← replicate_succ']

theorem appendSegment_up_concat (names : List Text) {name : Text} (isName : IsName name) :
    appendSegment absolute (settled absolute climbs (names ++ [name])) ['.', '.'] = settled absolute
      climbs names := by
  rw [appendSegment, if_neg (by decide), if_neg (by decide), if_neg (by simp [settled]), if_neg ?_]
  · rw [settled, settled, ← append_assoc, dropLast_concat]
  · rw [settled, ← append_assoc, getLastD_concat]
    exact isName.2

/-- The loop over the segments, from any settled list: the climbs left over take back its last
names. -/
theorem foldl_appendSegment (segments : List Text) (climbs : Nat) {names : List Text}
    (areNames : ∀ name ∈ names, IsName name) :
    segments.foldl (appendSegment absolute) (settled absolute climbs names) =
      settled absolute (climbs + ((survivors segments).1 - names.length))
        (names.take (names.length - (survivors segments).1) ++ (survivors segments).2) := by
  induction segments generalizing climbs names with
  | nil => simp [survivors]
  | cons segment segments ih =>
    rw [foldl_cons]
    rcases segment_cases segment with rfl | rfl | isName
    · rw [survivors_here, appendSegment, if_pos rfl, ih climbs areNames]
    · rw [survivors_up]
      rcases names.eq_nil_or_concat with rfl | ⟨names, last, rfl⟩
      · rw [appendSegment_up_nil, ih (climbs + 1) (by simp)]
        simp only [length_nil, Nat.sub_zero, take_nil]
        rw [Nat.add_assoc, Nat.add_comm 1]
      · rw [concat_eq_append] at areNames ⊢
        rw [appendSegment_up_concat _ _ _ (areNames last (by simp)),
          ih climbs fun name member => areNames name (mem_append_left _ member)]
        have fewer : names.length - (survivors segments).1 ≤ names.length := Nat.sub_le _ _
        simp only [length_append, length_singleton, Nat.add_sub_add_right]
        rw [take_append_of_le_length fewer]
    · have longer : ∀ name ∈ names ++ [segment], IsName name := by
        intro name member
        rcases mem_append.mp member with old | new
        · exact areNames name old
        · exact mem_singleton.mp new ▸ isName
      rw [appendSegment_name _ _ _ isName, ih climbs longer, survivors_name isName, length_append,
        length_singleton]
      by_cases none : (survivors segments).1 = 0
      · simp [none, take_of_length_le]
      · have fewer : names.length - ((survivors segments).1 - 1) ≤ names.length := Nat.sub_le _ _
        have less : names.length + 1 - (survivors segments).1 = names.length -
          ((survivors segments).1 - 1) := by omega
        have same : (survivors segments).1 - (names.length + 1) = (survivors segments).1 - 1 -
          names.length := by omega
        rw [if_neg none, less, same, take_append_of_le_length fewer]

theorem resolve_eq (segments : List Text) :
    resolve absolute segments = settled absolute (survivors segments).1 (survivors segments).2 := by
  have all := @foldl_appendSegment absolute segments 0 [] (by simp)
  have start : settled absolute 0 [] = [] := by cases absolute <;> rfl
  rw [start, Nat.zero_add] at all
  simpa [resolve] using all

theorem resolve_resolve (segments : List Text) :
    resolve absolute (resolve absolute segments) = resolve absolute segments := by
  rw [resolve_eq absolute segments, resolve_eq,
    survivors_settled absolute _ fun name member => (mem_survivors member).1]
  cases absolute <;> rfl

end

variable {absolute : Bool}

theorem mem_resolve (member : segment ∈ resolve absolute segments) : segment = ['.', '.'] ∨
    segment ∈ segments := by
  rw [resolve_eq, settled, mem_append] at member
  exact member.imp eq_of_mem_replicate fun name => (mem_survivors name).2

theorem isRun_of_mem_resolve (areRuns : ∀ segment ∈ segments, IsRun isSlash segment) :
    ∀ segment ∈ resolve absolute segments, IsRun isSlash segment := by
  intro segment member
  rcases mem_resolve member with rfl | old
  · exact ⟨by decide, by simp [isSlash]⟩
  · exact areRuns segment old

theorem isRun_resolve {path segment : Text}
    (member : segment ∈ resolve absolute (runs isSlash path)) :
    IsRun isSlash segment :=
  isRun_of_mem_resolve (fun _ => isRun_of_mem) segment member

section Rendered
variable {segments : List Text} (areRuns : ∀ segment ∈ segments, IsRun isSlash segment)

include areRuns

theorem isRooted_intercalate : isRooted (['/'].intercalate segments) = false := by
  cases segments with
  | nil => rfl
  | cons segment segments =>
    obtain ⟨nonempty, plain⟩ := areRuns segment mem_cons_self
    obtain ⟨c, segment, rfl⟩ := exists_cons_of_ne_nil nonempty
    rw [intercalate_cons]
    exact plain c mem_cons_self

theorem isRooted_written (absolute : Bool) :
    isRooted ((if absolute then ['/'] else []) ++ ['/'].intercalate segments) = absolute := by
  cases absolute with
  | true => rfl
  | false => exact isRooted_intercalate areRuns

theorem runs_written (absolute : Bool) :
    runs isSlash ((if absolute then ['/'] else []) ++ ['/'].intercalate segments) = segments := by
  have back : runs isSlash (['/'].intercalate segments) = segments :=
    runs_intercalate (by decide) areRuns
  cases absolute with
  | true => exact (runs_sep (by decide) _).trans back
  | false => exact back

end Rendered

theorem render_drive (letter : Char) (absolute : Bool) (segments : List Text) :
    render [letter, ':'] absolute segments =
      letter :: ':' :: ((if absolute then ['/'] else []) ++ ['/'].intercalate segments) := by
  rw [render]
  simp

theorem render_rooted (segments : List Text) :
    render [] true segments = '/' :: ['/'].intercalate segments := by
  rw [render]
  simp

theorem render_relative (isRun : IsRun isSlash segment) (segments : List Text) :
    render [] false (segment :: segments) = ['/'].intercalate (segment :: segments) := by
  have nonempty : ['/'].intercalate (segment :: segments) ≠ [] := by
    rw [intercalate_cons]
    exact fun empty => isRun.1 (append_eq_nil_iff.mp empty).1
  rw [render]
  simp only [Bool.false_eq_true, if_false, append_nil, nil_append]
  rw [if_neg nonempty]

/-- The first segment alone decides whether the text starts with a drive. -/
theorem hasDrive_intercalate (isRun : IsRun isSlash segment) (segments : List Text) :
    hasDrive (['/'].intercalate (segment :: segments)) = hasDrive segment := by
  rw [intercalate_cons]
  match segment, isRun with
  | [c], _ =>
    cases segments with
    | nil => rfl
    | cons next segments => simp [hasDrive]
  | c :: d :: segment, _ => rfl

theorem hasDrive_rooted (rooted : isRooted path = true) : hasDrive path = false := by
  by_contra drive
  obtain ⟨letter, rest, isLetter, rfl⟩ := hasDrive_iff.mp (Bool.not_eq_false _ ▸ drive)
  rw [show isRooted (letter :: ':' :: rest) = isSlash letter from rfl,
    not_isSlash_of_isLetter isLetter] at rooted
  exact Bool.false_ne_true rooted

theorem normalize_normalize_rooted (rooted : isRooted path = true) :
    normalize (normalize path) = normalize path ∧
      isAbsolute (normalize path) = isAbsolute path := by
  have areRuns := fun segment => @isRun_resolve true path segment
  have again : isRooted (normalize path) = true := by
    rw [normalize_plain (hasDrive_rooted rooted), rooted, render_rooted]
    rfl
  have back : runs isSlash (normalize path) = resolve true (runs isSlash path) := by
    rw [normalize_plain (hasDrive_rooted rooted), rooted, render_rooted]
    exact runs_written areRuns true
  constructor
  · rw [normalize_plain (hasDrive_rooted again), again, back, resolve_resolve, ← rooted,
      ← normalize_plain (hasDrive_rooted rooted)]
  · rw [isAbsolute_plain (hasDrive_rooted again), isAbsolute_plain (hasDrive_rooted rooted), again,
      rooted]

/-- A relative path without a drive whose first surviving name is read as a drive: with names behind
it the drive becomes a root, and the dot of `C:.` is dropped. -/
def Misread (path : Text) : Prop :=
  hasDrive path = false ∧ isRooted path = false ∧
    ∃ letter others, isLetter letter = true ∧
      (survivors (runs isSlash path) = (0, [letter, ':', '.'] :: others) ∨
        (survivors (runs isSlash path) = (0, [letter, ':'] :: others) ∧ others ≠ []))

/-- A first segment without a drive is read as it was written. -/
theorem normalize_intercalate (areRuns : ∀ name ∈ segment :: segments, IsRun isSlash name)
    (plain : hasDrive segment = false)
      (stable : resolve false (segment :: segments) = segment :: segments) :
    normalize (['/'].intercalate (segment :: segments)) = ['/'].intercalate (segment :: segments) ∧
      isAbsolute (['/'].intercalate (segment :: segments)) = false := by
  have isRun := areRuns segment mem_cons_self
  have plain' : hasDrive (['/'].intercalate (segment :: segments)) = false := by
    rw [hasDrive_intercalate isRun, plain]
  constructor
  · rw [normalize_plain plain', isRooted_intercalate areRuns, runs_intercalate (by decide) areRuns,
      stable, render_relative isRun]
  · rw [isAbsolute_plain plain', isRooted_intercalate areRuns]

/-- A drive at the front of what is left is a name, so no climb is left over. -/
theorem survivors_of_drive {first : Text} (drive : hasDrive first = true)
    (left : resolve false segments = first :: others) :
      survivors segments = (0, first :: others) := by
  rw [resolve_eq, settled] at left
  cases climbs : (survivors segments).1 with
  | zero => exact Prod.ext climbs (by simpa [climbs] using left)
  | succ climbs' =>
    simp only [climbs, Bool.false_eq_true, if_false, replicate_succ, cons_append, List.cons.injEq]
      at left
    rw [← left.1] at drive
    cases drive

section
variable (isLetter : isLetter letter = true)
include isLetter

/-- On a drive, normalizing is done after one pass. -/
theorem normalize_normalize_drive (rest : Text) :
    normalize (normalize (letter :: ':' :: rest)) = normalize (letter :: ':' :: rest) ∧
      isAbsolute (normalize (letter :: ':' :: rest)) = isAbsolute (letter :: ':' :: rest) := by
  have areRuns := fun segment => @isRun_resolve (isRooted rest) rest segment
  rw [normalize_drive isLetter, isAbsolute_drive isLetter, render_drive, normalize_drive isLetter,
    isAbsolute_drive isLetter, isRooted_written areRuns, runs_written areRuns, resolve_resolve,
      render_drive]
  exact ⟨rfl, rfl⟩

/-- A name behind a letter and a colon stays unless it is a dot. -/
theorem normalize_intercalate_drive {tail : Text} (isRun : IsRun isSlash tail)
    (areRuns : ∀ name ∈ names, IsRun isSlash name) (areNames : ∀ name ∈ names, IsName name) :
    (normalize (letter :: ':' :: ['/'].intercalate (tail :: names)) = letter :: ':' ::
      ['/'].intercalate (tail :: names) ↔
      tail ≠ ['.']) ∧ isAbsolute (letter :: ':' :: ['/'].intercalate (tail :: names)) = false := by
  have allRuns := forall_mem_cons.mpr ⟨isRun, areRuns⟩
  have behind := isRooted_intercalate allRuns
  refine ⟨?_, by rw [isAbsolute_drive isLetter, behind]⟩
  rw [normalize_drive isLetter, behind, runs_intercalate (by decide) allRuns, render_drive,
    resolve_eq]
  simp only [List.cons.injEq, true_and, Bool.false_eq_true, if_false, nil_append]
  rcases segment_cases tail with rfl | rfl | isName
  · -- Without the dot the text is shorter.
    rw [survivors_here, survivors_names areNames, settled]
    refine iff_of_false (fun same => ?_) (fun other => other rfl)
    have shorter := congrArg List.length same
    rw [intercalate_cons] at shorter
    cases names with
    | nil => cases shorter
    | cons name names =>
      simp only [Bool.false_eq_true, if_false, replicate_zero, nil_append, flatMap_cons] at shorter
      rw [intercalate_cons] at shorter
      simp only [length_append, length_cons, length_nil] at shorter
      omega
  · rw [survivors_up, survivors_names areNames]
    exact iff_of_true rfl (by decide)
  · rw [survivors_name isName, survivors_names areNames, if_pos rfl]
    exact iff_of_true rfl isName.1

/-- A letter with a colon alone stays a drive; with names behind it, it becomes a root. -/
theorem isAbsolute_intercalate_drive (names : List Text) :
    isAbsolute (['/'].intercalate ([letter, ':'] :: names)) = !names.isEmpty := by
  rw [intercalate_cons, cons_append, cons_append, isAbsolute_drive isLetter]
  cases names <;> rfl

/-- The relative path written from the surviving names, the first of which starts like a drive. -/
theorem stable_drive_iff {tail : Text}
    (areRuns : ∀ name ∈ (letter :: ':' :: tail) :: others, IsRun isSlash name)
      (areNames : ∀ name ∈ others, IsName name) :
    (normalize (['/'].intercalate ((letter :: ':' :: tail) :: others)) =
        ['/'].intercalate ((letter :: ':' :: tail) :: others) ∧
      isAbsolute (['/'].intercalate ((letter :: ':' :: tail) :: others)) = false) ↔
      ¬ (tail = ['.'] ∨ tail = [] ∧ others ≠ []) := by
  obtain ⟨⟨_, plain⟩, runs⟩ := forall_mem_cons.mp areRuns
  cases tail with
  | nil =>
    rw [isAbsolute_intercalate_drive isLetter]
    cases others with
    | nil =>
      have alone := normalize_drive isLetter []
      exact iff_of_true ⟨alone, rfl⟩ (by simp)
    | cons next others => simp
  | cons c tail =>
    have isRun : IsRun isSlash (c :: tail) :=
      ⟨cons_ne_nil c tail, fun d member => plain d (mem_cons_of_mem _ (mem_cons_of_mem _ member))⟩
    have text : ['/'].intercalate ((letter :: ':' :: c :: tail) :: others) =
        letter :: ':' :: ['/'].intercalate ((c :: tail) :: others) := by
      simp [intercalate_cons]
    obtain ⟨stays, relative⟩ := normalize_intercalate_drive isLetter isRun runs areNames
    rw [text, stays, relative]
    simp

end

/-- A relative path without a drive, by the first name that is left. -/
theorem misread_iff {first : Text} (plain : hasDrive path = false)
    (relative : isRooted path = false)
    (left : resolve false (runs isSlash path) = first :: others) :
    Misread path ↔ ∃ letter tail, isLetter letter = true ∧ first = letter :: ':' :: tail ∧
      (tail = ['.'] ∨ tail = [] ∧ others ≠ []) := by
  have front : ∀ name names, survivors (runs isSlash path) = (0, name :: names) → name = first ∧
    names = others := by
    intro name names same
    rw [resolve_eq, same, settled] at left
    exact List.cons.inj left
  constructor
  · rintro ⟨_, _, letter, names, isLetter, same | ⟨same, more⟩⟩
    · obtain ⟨rfl, rfl⟩ := front _ _ same
      exact ⟨letter, ['.'], isLetter, rfl, .inl rfl⟩
    · obtain ⟨rfl, rfl⟩ := front _ _ same
      exact ⟨letter, [], isLetter, rfl, .inr ⟨rfl, more⟩⟩
  · rintro ⟨letter, tail, isLetter, rfl, shape⟩
    have same := survivors_of_drive (hasDrive_iff.mpr ⟨letter, tail, isLetter, rfl⟩) left
    refine ⟨plain, relative, letter, others, isLetter, ?_⟩
    rcases shape with rfl | ⟨rfl, more⟩
    · exact .inl same
    · exact .inr ⟨same, more⟩

theorem stable_relative_iff (plain : hasDrive path = false) (relative : isRooted path = false) :
    (normalize (normalize path) = normalize path ∧ isAbsolute (normalize path) = isAbsolute path) ↔
      ¬ Misread path := by
  have areRuns := fun segment => @isRun_resolve false path segment
  have stable := resolve_resolve false (runs isSlash path)
  rw [isAbsolute_plain plain, relative, normalize_plain plain, relative]
  cases left : resolve false (runs isSlash path) with
  | nil =>
    refine iff_of_true ⟨by decide, by decide⟩ ?_
    rintro ⟨_, _, letter, others, _, first | ⟨first, _⟩⟩ <;>
      rw [resolve_eq, first, settled] at left <;> cases left
  | cons first others =>
    rw [left] at areRuns stable
    rw [render_relative (areRuns first mem_cons_self), misread_iff plain relative left]
    cases drive : hasDrive first with
    | false =>
      apply iff_of_true (normalize_intercalate areRuns drive stable)
      rintro ⟨letter, tail, isLetter, same, _⟩
      rw [hasDrive_iff.mpr ⟨letter, tail, isLetter, same⟩] at drive
      exact Bool.noConfusion drive
    | true =>
      have same := survivors_of_drive drive left
      have areNames : ∀ name ∈ others, IsName name := by
        intro name member
        refine (@mem_survivors (runs isSlash path) name ?_).1
        rw [same]
        exact mem_cons_of_mem _ member
      obtain ⟨letter, tail, isLetter, rfl⟩ := hasDrive_iff.mp drive
      rw [stable_drive_iff isLetter areRuns areNames, not_iff_not]
      constructor
      · exact fun shape => ⟨letter, tail, isLetter, rfl, shape⟩
      · rintro ⟨_, _, _, same, shape⟩
        obtain ⟨rfl, rfl⟩ : letter = _ ∧ tail = _ := by simpa using same
        exact shape

/-- Normalizing is idempotent and keeps the kind of a path exactly if no surviving name is read as a
drive. -/
theorem normalize_stable_iff (path : Text) :
    (normalize (normalize path) = normalize path ∧ isAbsolute (normalize path) = isAbsolute path) ↔
      ¬ Misread path := by
  cases drive : hasDrive path with
  | true =>
    obtain ⟨letter, rest, isLetter, rfl⟩ := hasDrive_iff.mp drive
    refine iff_of_true (normalize_normalize_drive isLetter rest) fun misread => ?_
    exact Bool.noConfusion (drive.symm.trans misread.1)
  | false =>
    cases rooted : isRooted path with
    | true =>
      refine iff_of_true (normalize_normalize_rooted rooted) fun misread => ?_
      exact Bool.noConfusion (rooted.symm.trans misread.2.1)
    | false => exact stable_relative_iff drive rooted

/-- A drive that a dot was written in front of becomes a root, and a dot behind it is lost only the
second time. -/
theorem normalize_not_stable :
    (isAbsolute "./C:/x".toList = false ∧ isAbsolute (normalize "./C:/x".toList) = true) ∧
      normalize "./C:./x".toList = "C:./x".toList ∧ normalize (normalize "./C:./x".toList) =
        "C:x".toList := by
  decide

end SpectraLang.Stdlib.Path
