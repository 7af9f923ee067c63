/-
`match`: a list against a pattern with wildcards.  The ends of both are cells that can
also occur in them.
-/
import NewLispNeo.Startup

namespace NewLispNeo

/-- The types of cells whose contents are matched in turn. -/
inductive NestedType where
  | quote | expression | fexpr | lambda
deriving DecidableEq

/-- A cell with the contents of such a type. -/
def nestedContents : Cell → Option (NestedType × List Cell)
  | .quote c => some (.quote, [c])
  | .expression l => some (.expression, l)
  | .fexpr l => some (.fexpr, l)
  | .lambda _ l => some (.lambda, l)
  | _ => none

def questionSymbol : Symbol := ⟨"MAIN", "?"⟩
def starSymbol : Symbol := ⟨"MAIN", "*"⟩
def plusSymbol : Symbol := ⟨"MAIN", "+"⟩

/-- The cases of `switch(pattern->type)`; of the two wildcards `+` is `true`. -/
inductive PatternKind where
  | nil
  | nested (type : NestedType) (contents : List Cell)
  | question
  | wildcard (plus : Bool)
  | other

def patternKind : Cell → PatternKind
  | .nil => .nil
  | .quote c => .nested .quote [c]
  | .expression l => .nested .expression l
  | .fexpr l => .nested .fexpr l
  | .lambda _ l => .nested .lambda l
  | .symbol s =>
      if s = questionSymbol then .question
      else if s = starSymbol then .wildcard false
      else if s = plusSymbol then .wildcard true
      else .other
  | _ => .other

/-- `list->type == CELL_NIL`, where the end of a list is `nilCell`. -/
def isNilType (list : List Cell) : Bool :=
  match list with
  | [] => true
  | .nil :: _ => true
  | _ => false

/-- What a nested match adds to the list of matches; `NULL` is no list. -/
def linkNested (flag : Bool) (matches_ : List Cell) : List Cell :=
  if matches_ = [] then [] else if flag then [.expression matches_] else matches_

section

variable (rt : Runtime) (flag : Bool)

/-- `patternMatchL` from the label `MATCH_LIST` on, with the list of matches and the
elements that the wildcard at the start of the pattern has taken; `none` is
`nilCell`, for no match. -/
def patternMatchL :
    Nat → List Cell → List Cell → List Cell → List Cell → Outcome Error (Option (List Cell))
  | 0, _, _, _, _ => .timeout
  | _ + 1, [], list, matchList, _ =>
      .value (if isNilType list then some matchList else none)
  | fuel + 1, p :: pattern, list, matchList, stars =>
      match patternKind p with
      | .nil => .value (if isNilType list then some matchList else none)
      | .nested type contents =>
          match list with
          | [] => .value none
          | e :: rest =>
              match nestedContents e with
              | none => .value none
              | some (type', contents') =>
                  if type' = type then
                    patternMatchL fuel contents contents' [] [] >>= fun
                      | none => .value none
                      | some m =>
                          patternMatchL fuel pattern rest (matchList ++ linkNested flag m)
                            stars
                  else .value none
      | .question =>
          match list with
          | [] => .value none
          | e :: rest => patternMatchL fuel pattern rest (matchList ++ [e]) stars
      | .wildcard plus =>
          -- `WILD_CARD_GREP`
          let grep : Outcome Error (Option (List Cell)) :=
            if plus ∧ list = [] then .value none
            else patternMatchL fuel (p :: pattern) list.tail matchList
              (stars ++ [list.headD .nil])
          if stars = [] ∧ plus then grep
          else if pattern = [] then
            .value (some (matchList ++ [.expression (stars ++ list)]))
          else
            patternMatchL fuel pattern list [] [] >>= fun
              | some m => .value (some (matchList ++ .expression stars :: m))
              | none => if list.tail = [] then .value none else grep
      | .other =>
          compareCells rt p (list.headD .nil) >>= fun c =>
            if c ≠ 0 then .value none
            else patternMatchL fuel pattern list.tail
              (matchList ++ if flag then [list.headD .nil] else []) stars

/-! ### Cuts of a list -/

/-- The list can be cut into pieces that match the elements of the pattern one by
one. -/
inductive Matches : List Cell → List Cell → Prop
  | nil : Matches [] []
  | question {p e : Cell} {pattern rest : List Cell} (hp : patternKind p = .question)
      (h : Matches pattern rest) : Matches (p :: pattern) (e :: rest)
  | wildcard {p : Cell} {plus : Bool} {pattern rest : List Cell} (piece : List Cell)
      (hp : patternKind p = .wildcard plus) (hpiece : plus = true → piece ≠ [])
      (h : Matches pattern rest) : Matches (p :: pattern) (piece ++ rest)
  | nested {p e : Cell} {type : NestedType} {contents contents' : List Cell}
      {pattern rest : List Cell} (hp : patternKind p = .nested type contents)
      (he : nestedContents e = some (type, contents')) (hin : Matches contents contents')
      (h : Matches pattern rest) : Matches (p :: pattern) (e :: rest)
  | equal {p e : Cell} {pattern rest : List Cell}
      (hp : patternKind p = .other ∨ patternKind p = .nil)
      (he : compareCells rt p e = .value 0) (h : Matches pattern rest) :
      Matches (p :: pattern) (e :: rest)

/-- With no shorter piece before it the rest matches. -/
def NoShorter (plus : Bool) (pattern piece rest : List Cell) : Prop :=
  ∀ piece' rest', piece' ++ rest' = piece ++ rest → piece'.length < piece.length →
    (plus = true → piece' ≠ []) → ¬ Matches rt pattern rest'

/-- The matches of the cut in which each wildcard takes as few elements as possible,
from left to right; with `flag` those of all elements of the pattern. -/
inductive LazyMatch : List Cell → List Cell → List Cell → Prop
  | nil : LazyMatch [] [] []
  | question {p e : Cell} {pattern rest result : List Cell}
      (hp : patternKind p = .question) (h : LazyMatch pattern rest result) :
      LazyMatch (p :: pattern) (e :: rest) (e :: result)
  | wildcard {p : Cell} {plus : Bool} {pattern rest result : List Cell}
      (piece : List Cell) (hp : patternKind p = .wildcard plus)
      (hpiece : plus = true → piece ≠ []) (h : LazyMatch pattern rest result)
      (least : NoShorter rt plus pattern piece rest) :
      LazyMatch (p :: pattern) (piece ++ rest) (.expression piece :: result)
  | nested {p e : Cell} {type : NestedType} {contents contents' : List Cell}
      {pattern rest result result' : List Cell}
      (hp : patternKind p = .nested type contents)
      (he : nestedContents e = some (type, contents'))
      (hin : LazyMatch contents contents' result') (h : LazyMatch pattern rest result) :
      LazyMatch (p :: pattern) (e :: rest)
        ((if flag then [.expression result'] else result') ++ result)
  | equal {p e : Cell} {pattern rest result : List Cell}
      (hp : patternKind p = .other ∨ patternKind p = .nil)
      (he : compareCells rt p e = .value 0) (h : LazyMatch pattern rest result) :
      LazyMatch (p :: pattern) (e :: rest) ((if flag then [e] else []) ++ result)

/-- `patternMatchL` returns, succeeds exactly on the lists that can be cut, and the
matches are those of the least cut. -/
structure MatchesRight (fuel : Nat) (pattern list : List Cell) : Prop where
  returns : ∃ r, patternMatchL rt flag fuel pattern list [] [] = .value r
  succeeds : (∃ m, patternMatchL rt flag fuel pattern list [] [] = .value (some m)) ↔
    Matches rt pattern list
  least : ∀ m, patternMatchL rt flag fuel pattern list [] [] = .value (some m) →
    LazyMatch rt flag pattern list m

/-! ### The positions of a match -/

/-- The rests of the pattern and the list that the match comes to: those after a
wildcard only when no shorter piece leaves a match, none after the last wildcard, and
the end of the list only when it is there at once. -/
inductive ComesTo (pattern₀ list₀ : List Cell) : List Cell → List Cell → Prop
  | start : ComesTo pattern₀ list₀ pattern₀ list₀
  | question {p e : Cell} {pattern rest : List Cell} (hp : patternKind p = .question)
      (h : ComesTo pattern₀ list₀ (p :: pattern) (e :: rest)) :
      ComesTo pattern₀ list₀ pattern rest
  | wildcard {p : Cell} {plus : Bool} {pattern rest : List Cell} (piece : List Cell)
      (hp : patternKind p = .wildcard plus) (hpattern : pattern ≠ [])
      (hpiece : plus = true → piece ≠ []) (least : NoShorter rt plus pattern piece rest)
      (hend : rest = [] → piece.length ≤ plus.toNat)
      (h : ComesTo pattern₀ list₀ (p :: pattern) (piece ++ rest)) :
      ComesTo pattern₀ list₀ pattern rest
  | into {p e : Cell} {type : NestedType} {contents contents' : List Cell}
      {pattern rest : List Cell} (hp : patternKind p = .nested type contents)
      (he : nestedContents e = some (type, contents'))
      (h : ComesTo pattern₀ list₀ (p :: pattern) (e :: rest)) :
      ComesTo pattern₀ list₀ contents contents'
  | past {p e : Cell} {type : NestedType} {contents contents' : List Cell}
      {pattern rest : List Cell} (hp : patternKind p = .nested type contents)
      (he : nestedContents e = some (type, contents'))
      (hin : Matches rt contents contents')
      (h : ComesTo pattern₀ list₀ (p :: pattern) (e :: rest)) :
      ComesTo pattern₀ list₀ pattern rest
  | equal {p e : Cell} {pattern rest : List Cell} (hp : patternKind p = .other)
      (he : compareCells rt p e = .value 0)
      (h : ComesTo pattern₀ list₀ (p :: pattern) (e :: rest)) :
      ComesTo pattern₀ list₀ pattern rest

/-- No `nil` is taken for an end and no end for a `nil`: at the end of the pattern the
list has ended or goes on with something else, `nil` in a pattern meets an element
that differs from it, and no element of the pattern equals the end of the list.
Comparisons return, and with `flag` no empty list is matched by an empty pattern. -/
def EndsApart : List Cell → List Cell → Prop
  | [], list => list = [] ∨ isNilType list = false
  | p :: _, list =>
      match patternKind p with
      | .nil => isNilType list = false ∧ compareCells rt p (list.headD .nil) ≠ .value 0
      | .nested type contents => flag = true → contents = [] →
          list.head?.bind nestedContents ≠ some (type, [])
      | .question => True
      | .wildcard _ => True
      | .other => ∃ c, compareCells rt p (list.headD .nil) = .value c ∧
          (list = [] → c ≠ 0)

/-- The ends stay apart at every position of the match. -/
def KeepsEndsApart (pattern list : List Cell) : Prop :=
  ∀ pattern' list', ComesTo rt pattern list pattern' list' →
    EndsApart rt flag pattern' list'

end

section

variable {rt : Runtime} {flag : Bool} {p : Cell} {pattern list : List Cell}

/-! ### Cuts by the first element of the pattern -/

theorem matches_question_iff (hp : patternKind p = .question) :
    Matches rt (p :: pattern) list ↔ ∃ e rest, list = e :: rest ∧ Matches rt pattern rest := by
  constructor
  · intro h
    cases h with
    | question hp' h => exact ⟨_, _, rfl, h⟩
    | wildcard piece hp' hpiece h => simp [hp] at hp'
    | nested hp' he hin h => simp [hp] at hp'
    | equal hp' he h => simp [hp] at hp'
  · rintro ⟨e, rest, rfl, h⟩
    exact .question hp h

theorem matches_wildcard_iff {plus : Bool} (hp : patternKind p = .wildcard plus) :
    Matches rt (p :: pattern) list ↔
      ∃ piece rest, list = piece ++ rest ∧ (plus = true → piece ≠ []) ∧
        Matches rt pattern rest := by
  constructor
  · intro h
    cases h with
    | question hp' h => simp [hp] at hp'
    | wildcard piece hp' hpiece h =>
        rw [hp] at hp'
        cases hp'
        exact ⟨piece, _, rfl, hpiece, h⟩
    | nested hp' he hin h => simp [hp] at hp'
    | equal hp' he h => simp [hp] at hp'
  · rintro ⟨piece, rest, rfl, hpiece, h⟩
    exact .wildcard piece hp hpiece h

theorem matches_nested_iff {type : NestedType} {contents : List Cell}
    (hp : patternKind p = .nested type contents) :
    Matches rt (p :: pattern) list ↔
      ∃ e rest contents', list = e :: rest ∧ nestedContents e = some (type, contents') ∧
        Matches rt contents contents' ∧ Matches rt pattern rest := by
  constructor
  · intro h
    cases h with
    | question hp' h => simp [hp] at hp'
    | wildcard piece hp' hpiece h => simp [hp] at hp'
    | nested hp' he hin h =>
        rw [hp] at hp'
        cases hp'
        exact ⟨_, _, _, rfl, he, hin, h⟩
    | equal hp' he h => simp [hp] at hp'
  · rintro ⟨e, rest, contents', rfl, he, hin, h⟩
    exact .nested hp he hin h

theorem matches_equal_iff (hp : patternKind p = .other ∨ patternKind p = .nil) :
    Matches rt (p :: pattern) list ↔
      ∃ e rest, list = e :: rest ∧ compareCells rt p e = .value 0 ∧
        Matches rt pattern rest := by
  constructor
  · intro h
    cases h with
    | question hp' h => simp [hp'] at hp
    | wildcard piece hp' hpiece h => simp [hp'] at hp
    | nested hp' he hin h => simp [hp'] at hp
    | equal hp' he h => exact ⟨_, _, rfl, he, h⟩
  · rintro ⟨e, rest, rfl, he, h⟩
    exact .equal hp he h

theorem matches_nil_iff : Matches rt [] list ↔ list = [] := by
  constructor
  · intro h
    cases h
    rfl
  · rintro rfl
    exact .nil

/-- A pattern that matches the empty list has only stars, and those match all lists. -/
theorem Matches.of_empty (h : Matches rt pattern []) (hpattern : pattern ≠ []) :
    Matches rt pattern list := by
  induction pattern generalizing list with
  | nil => exact absurd rfl hpattern
  | cons p pattern ih =>
      cases hp : patternKind p with
      | nil =>
          obtain ⟨e, rest, hlist, -⟩ := (matches_equal_iff (.inr hp)).mp h
          exact absurd hlist (by simp)
      | nested type contents =>
          obtain ⟨e, rest, contents', hlist, -⟩ := (matches_nested_iff hp).mp h
          exact absurd hlist (by simp)
      | question =>
          obtain ⟨e, rest, hlist, -⟩ := (matches_question_iff hp).mp h
          exact absurd hlist (by simp)
      | other =>
          obtain ⟨e, rest, hlist, -⟩ := (matches_equal_iff (.inl hp)).mp h
          exact absurd hlist (by simp)
      | wildcard plus =>
          obtain ⟨piece, rest, hlist, hpiece, hrest⟩ := (matches_wildcard_iff hp).mp h
          obtain ⟨rfl, rfl⟩ := List.append_eq_nil_iff.mp hlist.symm
          have hplus : plus = false := by
            cases plus with
            | false => rfl
            | true => exact absurd rfl (hpiece rfl)
          subst hplus
          rw [matches_wildcard_iff hp]
          by_cases hend : pattern = []
          · subst hend
            exact ⟨list, [], (List.append_nil list).symm, by simp, .nil⟩
          · exact ⟨[], list, rfl, by simp, ih hrest hend⟩

theorem LazyMatch.sound {m : List Cell} (h : LazyMatch rt flag pattern list m) :
    Matches rt pattern list := by
  induction h with
  | nil => exact .nil
  | question hp _ ih => exact .question hp ih
  | wildcard piece hp hpiece _ _ ih => exact .wildcard piece hp hpiece ih
  | nested hp he _ _ ihin ih => exact .nested hp he ihin ih
  | equal hp he _ ih => exact .equal hp he ih

/-- With `flag` every element of the pattern has a match in the result. -/
theorem LazyMatch.ne_nil {m : List Cell} (h : LazyMatch rt true pattern list m)
    (hpattern : pattern ≠ []) : m ≠ [] := by
  cases h with
  | nil => exact absurd rfl hpattern
  | question hp h => simp
  | wildcard piece hp hpiece h least => simp
  | nested hp he hin h => simp
  | equal hp he h => simp

/-! ### The shortest piece of a wildcard -/

variable {plus : Bool} {piece rest : List Cell} {e : Cell}

theorem noShorter_nil : NoShorter rt plus pattern [] list := by
  intro piece' rest' _ hlength
  simp at hlength

/-- `+` takes its first element without a try. -/
theorem noShorter_singleton : NoShorter rt true pattern [e] list := by
  intro piece' rest' _ hlength hpiece'
  have hnil : piece' = [] := List.length_eq_zero_iff.mp (by simpa using hlength)
  exact absurd hnil (hpiece' rfl)

/-- Once the rest has failed the piece takes another element. -/
theorem NoShorter.snoc (h : NoShorter rt plus pattern piece (e :: rest))
    (hfail : ¬ Matches rt pattern (e :: rest)) :
    NoShorter rt plus pattern (piece ++ [e]) rest := by
  intro piece' rest' hsplit hlength hpiece'
  have hsplit' : piece' ++ rest' = piece ++ e :: rest := by simpa using hsplit
  rcases Nat.lt_or_ge piece'.length piece.length with hlt | hge
  · exact h piece' rest' hsplit' hlt hpiece'
  · have hsame : piece'.length = piece.length := by simp at hlength; omega
    obtain ⟨-, rfl⟩ := List.append_inj hsplit' hsame
    exact hfail

/-- If all pieces up to this one fail and no more than one element is left, then none
matches. -/
theorem NoShorter.not_matches (hp : patternKind p = .wildcard plus)
    (h : NoShorter rt plus pattern piece rest) (hfail : ¬ Matches rt pattern rest)
    (hpattern : pattern ≠ []) (hrest : rest.tail = []) :
    ¬ Matches rt (p :: pattern) (piece ++ rest) := by
  rw [matches_wildcard_iff hp]
  rintro ⟨piece', rest', hsplit, hpiece', hmatch⟩
  rcases Nat.lt_trichotomy piece'.length piece.length with hlt | heq | hgt
  · exact h piece' rest' hsplit.symm hlt hpiece' hmatch
  · obtain ⟨-, rfl⟩ := List.append_inj hsplit heq.symm
    exact hfail hmatch
  · -- the longer piece takes the last element
    have hlength := congrArg List.length hsplit
    have htail := congrArg List.length hrest
    simp only [List.length_append, List.length_tail, List.length_nil] at hlength htail
    have hempty : rest' = [] := List.length_eq_zero_iff.mp (by omega)
    subst hempty
    exact hfail (hmatch.of_empty hpattern)

/-- The last wildcard takes what is left. -/
theorem noShorter_last : NoShorter rt plus [] list [] := by
  intro piece' rest' hsplit hlength _ hmatch
  rw [matches_nil_iff] at hmatch
  subst hmatch
  have hsame := congrArg List.length hsplit
  simp at hsame
  omega

/-! ### The matcher at a position -/

theorem sizeOf_nestedContents {e : Cell} {type : NestedType} {contents : List Cell}
    (h : nestedContents e = some (type, contents)) : sizeOf contents ≤ sizeOf e + 1 := by
  cases e <;> simp only [nestedContents, Option.some.injEq, Prod.mk.injEq, reduceCtorEq] at h
  all_goals
    obtain ⟨-, rfl⟩ := h
    simp only [Cell.quote.sizeOf_spec, Cell.expression.sizeOf_spec, Cell.fexpr.sizeOf_spec,
      Cell.lambda.sizeOf_spec, List.cons.sizeOf_spec, List.nil.sizeOf_spec]
    omega

theorem sizeOf_patternKind {type : NestedType} {contents : List Cell}
    (hp : patternKind p = .nested type contents) : sizeOf contents ≤ sizeOf p + 1 := by
  suffices he : nestedContents p = some (type, contents) from sizeOf_nestedContents he
  cases p <;> simp_all [nestedContents, patternKind]
  case symbol s => split_ifs at hp

/-- A list has a size of its own. -/
theorem sizeOf_list_pos (l : List Cell) : 0 < sizeOf l := by
  cases l with
  | nil => simp
  | cons e l =>
      rw [List.cons.sizeOf_spec]
      omega

/-- No cut is found where there is none, and else the matches of the least cut are
added. -/
inductive Answers (rt : Runtime) (flag : Bool) (pattern list matchList : List Cell) :
    Outcome Error (Option (List Cell)) → Prop
  | none (h : ¬ Matches rt pattern list) : Answers rt flag pattern list matchList (.value none)
  | some (m : List Cell) (h : LazyMatch rt flag pattern list m) :
      Answers rt flag pattern list matchList (.value (some (matchList ++ m)))

/-- What the fuel is enough for: the positions that the match comes to, and those in
which a wildcard has taken a piece already. -/
structure FindsCut (rt : Runtime) (flag : Bool) (pattern₀ list₀ : List Cell)
    (fuel : Nat) : Prop where
  position : ∀ pattern list matchList, ComesTo rt pattern₀ list₀ pattern list →
    sizeOf pattern + sizeOf list < fuel →
      Answers rt flag pattern list matchList
        (patternMatchL rt flag fuel pattern list matchList [])
  grep : ∀ p plus pattern piece rest matchList, patternKind p = .wildcard plus →
    ComesTo rt pattern₀ list₀ (p :: pattern) (piece ++ rest) →
    NoShorter rt plus pattern piece rest → (rest = [] → piece.length ≤ plus.toNat) →
    sizeOf (p :: pattern) + sizeOf rest < fuel →
      Answers rt flag (p :: pattern) (piece ++ rest) matchList
        (patternMatchL rt flag fuel (p :: pattern) rest matchList piece)

variable {pattern₀ list₀ matchList : List Cell} {fuel : Nat}

attribute [local simp] patternMatchL in
theorem FindsCut.question (h : FindsCut rt flag pattern₀ list₀ fuel)
    (hp : patternKind p = .question) (hreach : ComesTo rt pattern₀ list₀ (p :: pattern) list)
    (hfuel : sizeOf (p :: pattern) + sizeOf list < fuel + 1) :
    Answers rt flag (p :: pattern) list matchList
      (patternMatchL rt flag (fuel + 1) (p :: pattern) list matchList []) := by
  cases list with
  | nil =>
      simp only [patternMatchL, hp]
      exact .none (by simp [matches_question_iff hp])
  | cons e rest =>
      simp only [patternMatchL, hp]
      simp only [List.cons.sizeOf_spec] at hfuel
      have hrest := h.position pattern rest (matchList ++ [e]) (hreach.question hp) (by omega)
      generalize patternMatchL rt flag fuel pattern rest _ [] = after at hrest ⊢
      cases hrest with
      | none hno =>
          refine .none ?_
          rw [matches_question_iff hp]
          rintro ⟨e', rest', hlist, hmatch⟩
          cases hlist
          exact hno hmatch
      | some m hm =>
          rw [List.append_assoc]
          exact .some (e :: m) (.question hp hm)

theorem FindsCut.equal (h : FindsCut rt flag pattern₀ list₀ fuel)
    (hp : patternKind p = .other) (hreach : ComesTo rt pattern₀ list₀ (p :: pattern) list)
    (hapart : EndsApart rt flag (p :: pattern) list)
    (hfuel : sizeOf (p :: pattern) + sizeOf list < fuel + 1) :
    Answers rt flag (p :: pattern) list matchList
      (patternMatchL rt flag (fuel + 1) (p :: pattern) list matchList []) := by
  simp only [EndsApart, hp] at hapart
  obtain ⟨c, hc, hend⟩ := hapart
  simp only [patternMatchL, hp, hc, Outcome.value_bind]
  by_cases hzero : c = 0
  · subst hzero
    cases list with
    | nil => exact absurd rfl (hend rfl)
    | cons e rest =>
        simp only [ne_eq, not_true_eq_false, if_false, List.tail_cons, List.headD_cons]
          at hc ⊢
        simp only [List.cons.sizeOf_spec] at hfuel
        have hrest := h.position pattern rest (matchList ++ if flag then [e] else [])
          (hreach.equal hp hc) (by omega)
        generalize patternMatchL rt flag fuel pattern rest _ [] = after at hrest ⊢
        cases hrest with
        | none hno =>
            refine .none ?_
            rw [matches_equal_iff (.inl hp)]
            rintro ⟨e', rest', hlist, -, hmatch⟩
            cases hlist
            exact hno hmatch
        | some m hm =>
            rw [List.append_assoc]
            exact .some _ (.equal (.inl hp) hc hm)
  · rw [if_pos hzero]
    refine .none ?_
    rw [matches_equal_iff (.inl hp)]
    rintro ⟨e, rest, rfl, he, -⟩
    rw [List.headD_cons, he] at hc
    cases hc
    exact hzero rfl

/-- A match that is not lost is linked. -/
theorem linkNested_eq {m : List Cell} (h : flag = true → m ≠ []) :
    linkNested flag m = if flag then [.expression m] else m := by
  unfold linkNested
  split
  · next hm =>
      cases flag with
      | false => simp [hm]
      | true => exact absurd hm (h rfl)
  · rfl

theorem FindsCut.nested (h : FindsCut rt flag pattern₀ list₀ fuel) {type : NestedType}
    {contents : List Cell} (hp : patternKind p = .nested type contents)
    (hreach : ComesTo rt pattern₀ list₀ (p :: pattern) list)
    (hapart : EndsApart rt flag (p :: pattern) list)
    (hfuel : sizeOf (p :: pattern) + sizeOf list < fuel + 1) :
    Answers rt flag (p :: pattern) list matchList
      (patternMatchL rt flag (fuel + 1) (p :: pattern) list matchList []) := by
  cases list with
  | nil =>
      simp only [patternMatchL, hp]
      exact .none (by simp [matches_nested_iff hp])
  | cons e rest =>
      have hnot : (∀ contents', nestedContents e = some (type, contents') →
          Matches rt contents contents' → ¬ Matches rt pattern rest) →
            ¬ Matches rt (p :: pattern) (e :: rest) := by
        intro hall
        rw [matches_nested_iff hp]
        rintro ⟨e', rest', contents', hlist, he, hin, hmatch⟩
        cases hlist
        exact hall contents' he hin hmatch
      simp only [patternMatchL, hp]
      cases he : nestedContents e with
      | none => exact .none (hnot fun contents' he' => by simp [he] at he')
      | some found =>
          obtain ⟨type', contents'⟩ := found
          simp only
          by_cases htype : type' = type
          · subst htype
            rw [if_pos rfl]
            have hpsize := sizeOf_patternKind hp
            have hesize := sizeOf_nestedContents he
            have hpos := sizeOf_list_pos rest
            simp only [List.cons.sizeOf_spec] at hfuel
            have hin := h.position contents contents' [] (hreach.into hp he) (by omega)
            generalize patternMatchL rt flag fuel contents contents' [] [] = inner at hin
            cases hin with
            | none hno =>
                refine .none (hnot fun contents'' he' hin' => ?_)
                rw [he] at he'
                cases he'
                exact absurd hin' hno
            | some m hm =>
                simp only [Outcome.value_bind, List.nil_append]
                have hlost : flag = true → m ≠ [] := by
                  intro hflag
                  subst hflag
                  refine hm.ne_nil fun hcontents => ?_
                  subst hcontents
                  have hempty : contents' = [] := matches_nil_iff.mp hm.sound
                  subst hempty
                  simp only [EndsApart, hp, List.head?_cons, Option.bind_some] at hapart
                  exact hapart trivial trivial he
                rw [linkNested_eq hlost]
                have hrest := h.position pattern rest
                  (matchList ++ if flag then [.expression m] else m)
                  (hreach.past hp he hm.sound) (by omega)
                generalize patternMatchL rt flag fuel pattern rest _ [] = after at hrest ⊢
                cases hrest with
                | none hno => exact .none (hnot fun _ _ _ => hno)
                | some m' hm' =>
                    rw [List.append_assoc]
                    exact .some _ (.nested hp he hm hm')
          · rw [if_neg htype]
            refine .none (hnot fun contents'' he' => ?_)
            rw [he] at he'
            cases he'
            exact absurd rfl htype

/-- A pattern at its end. -/
theorem answers_end (hapart : EndsApart rt flag [] list) :
    Answers rt flag [] list matchList
      (patternMatchL rt flag (fuel + 1) [] list matchList []) := by
  simp only [patternMatchL]
  rcases hapart with rfl | hnot
  · have hmatch : Answers rt flag [] [] matchList (.value (some (matchList ++ []))) :=
      .some [] .nil
    rwa [List.append_nil] at hmatch
  · rw [hnot]
    refine .none ?_
    rw [matches_nil_iff]
    rintro rfl
    cases hnot

/-- A pattern with `nil` next. -/
theorem answers_nil (hp : patternKind p = .nil)
    (hapart : EndsApart rt flag (p :: pattern) list) :
    Answers rt flag (p :: pattern) list matchList
      (patternMatchL rt flag (fuel + 1) (p :: pattern) list matchList []) := by
  simp only [EndsApart, hp] at hapart
  simp only [patternMatchL, hp, hapart.1]
  refine .none ?_
  rw [matches_equal_iff (.inr hp)]
  rintro ⟨e, rest, rfl, he, -⟩
  exact hapart.2 he

/-- A wildcard that has taken a piece takes the next element. -/
theorem FindsCut.snoc (h : FindsCut rt flag pattern₀ list₀ fuel)
    (hp : patternKind p = .wildcard plus)
    (hreach : ComesTo rt pattern₀ list₀ (p :: pattern) (piece ++ e :: rest))
    (hshort : NoShorter rt plus pattern (piece ++ [e]) rest)
    (hend : rest = [] → (piece ++ [e]).length ≤ plus.toNat)
    (hfuel : sizeOf (p :: pattern) + sizeOf (e :: rest) < fuel + 1) :
    Answers rt flag (p :: pattern) (piece ++ e :: rest) matchList
      (patternMatchL rt flag fuel (p :: pattern) rest matchList (piece ++ [e])) := by
  have hsplit : piece ++ e :: rest = (piece ++ [e]) ++ rest := by simp
  rw [hsplit] at hreach ⊢
  rw [List.cons.sizeOf_spec e] at hfuel
  exact h.grep p plus pattern (piece ++ [e]) rest matchList hp hreach hshort hend (by omega)

theorem FindsCut.wildcard (h : FindsCut rt flag pattern₀ list₀ fuel)
    (hp : patternKind p = .wildcard plus)
    (hreach : ComesTo rt pattern₀ list₀ (p :: pattern) (piece ++ rest))
    (hshort : NoShorter rt plus pattern piece rest)
    (hend : rest = [] → piece.length ≤ plus.toNat)
    (hfuel : sizeOf (p :: pattern) + sizeOf rest < fuel + 1) :
    Answers rt flag (p :: pattern) (piece ++ rest) matchList
      (patternMatchL rt flag (fuel + 1) (p :: pattern) rest matchList piece) := by
  simp only [patternMatchL, hp]
  by_cases hfirst : piece = [] ∧ plus = true
  · -- `+` takes an element before the first try
    obtain ⟨rfl, rfl⟩ := hfirst
    rw [if_pos ⟨rfl, rfl⟩]
    cases rest with
    | nil =>
        rw [if_pos ⟨rfl, rfl⟩]
        refine .none ?_
        rw [matches_wildcard_iff hp]
        rintro ⟨piece, rest, hsplit, hpiece, -⟩
        exact hpiece rfl (List.append_eq_nil_iff.mp hsplit.symm).1
    | cons e rest =>
        rw [if_neg (by simp)]
        exact h.snoc hp hreach noShorter_singleton (fun _ => Nat.le_refl 1) hfuel
  · rw [if_neg hfirst]
    have hpiece : plus = true → piece ≠ [] := fun hplus hnil => hfirst ⟨hnil, hplus⟩
    by_cases hlast : pattern = []
    · subst hlast
      rw [if_pos rfl]
      have hwhole : plus = true → piece ++ rest ≠ [] := fun hplus hnil =>
        hpiece hplus (List.append_eq_nil_iff.mp hnil).1
      have hm : LazyMatch rt flag [p] ((piece ++ rest) ++ []) [.expression (piece ++ rest)] :=
        .wildcard (piece ++ rest) hp hwhole .nil noShorter_last
      rw [List.append_nil] at hm
      exact .some _ hm
    · rw [if_neg hlast]
      rw [List.cons.sizeOf_spec] at hfuel
      have hrest := h.position pattern rest []
        (hreach.wildcard piece hp hlast hpiece hshort hend) (by omega)
      generalize patternMatchL rt flag fuel pattern rest [] [] = after at hrest ⊢
      cases hrest with
      | some m hm => exact .some _ (.wildcard piece hp hpiece hm hshort)
      | none hno =>
          simp only [Outcome.value_bind]
          by_cases htail : rest.tail = []
          · rw [if_pos htail]
            exact .none (hshort.not_matches hp hno hlast htail)
          · rw [if_neg htail]
            cases rest with
            | nil => exact absurd rfl htail
            | cons e rest =>
                rw [if_neg (by simp)]
                refine h.snoc hp hreach (hshort.snoc hno) (fun hnil => absurd hnil htail) ?_
                rw [List.cons.sizeOf_spec]
                exact hfuel

/-- One more level of fuel. -/
theorem FindsCut.succ (hapart : ∀ pattern list, ComesTo rt pattern₀ list₀ pattern list →
    EndsApart rt flag pattern list) (h : FindsCut rt flag pattern₀ list₀ fuel) :
    FindsCut rt flag pattern₀ list₀ (fuel + 1) where
  position pattern list matchList hreach hfuel := by
    cases pattern with
    | nil => exact answers_end (hapart _ _ hreach)
    | cons p pattern =>
        cases hp : patternKind p with
        | nil => exact answers_nil hp (hapart _ _ hreach)
        | nested type contents => exact h.nested hp hreach (hapart _ _ hreach) hfuel
        | question => exact h.question hp hreach hfuel
        | other => exact h.equal hp hreach (hapart _ _ hreach) hfuel
        | wildcard plus =>
            have hstart : ComesTo rt pattern₀ list₀ (p :: pattern) ([] ++ list) := hreach
            exact h.wildcard hp hstart noShorter_nil (fun _ => Nat.zero_le _) hfuel
  grep p plus pattern piece rest matchList hp hreach hshort hend hfuel :=
    h.wildcard hp hreach hshort hend hfuel

theorem findsCut (hapart : KeepsEndsApart rt flag pattern₀ list₀) (fuel : Nat) :
    FindsCut rt flag pattern₀ list₀ fuel := by
  induction fuel with
  | zero =>
      exact ⟨fun _ _ _ _ hfuel => absurd hfuel (Nat.not_lt_zero _),
        fun _ _ _ _ _ _ _ _ _ _ hfuel => absurd hfuel (Nat.not_lt_zero _)⟩
  | succ fuel ih => exact ih.succ hapart

/-- Where the ends stay apart `match` finds the least cut, if there is one. -/
theorem matchesRight_of_keepsEndsApart (rt : Runtime) (flag : Bool)
    (pattern list : List Cell) (hapart : KeepsEndsApart rt flag pattern list) (fuel : Nat)
    (hfuel : sizeOf pattern + sizeOf list < fuel) :
    MatchesRight rt flag fuel pattern list := by
  have hanswer := (findsCut hapart fuel).position pattern list [] .start hfuel
  generalize hrun : patternMatchL rt flag fuel pattern list [] [] = result at hanswer
  cases hanswer with
  | none hno =>
      exact
        { returns := ⟨none, hrun⟩
          succeeds := by
            rw [hrun]
            constructor
            · rintro ⟨m, hm⟩
              cases hm
            · intro hmatch
              exact absurd hmatch hno
          least := by
            intro m hm
            rw [hrun] at hm
            cases hm }
  | some m hm =>
      exact
        { returns := ⟨some m, hrun⟩
          succeeds := by
            rw [hrun]
            exact ⟨fun _ => hm.sound, fun _ => ⟨m, rfl⟩⟩
          least := by
            intro m' hm'
            rw [hrun] at hm'
            cases hm'
            exact hm }

/-- The positions of `(match '(* 2) '(1 2))`. -/
theorem comesTo_star (h : ComesTo rt [.symbol starSymbol, .long 2] [.long 1, .long 2]
    pattern list) :
    (pattern = [.symbol starSymbol, .long 2] ∧ list = [.long 1, .long 2]) ∨
      (pattern = [.long 2] ∧ (list = [.long 1, .long 2] ∨ list = [.long 2])) ∨
      (pattern = [] ∧ list = []) := by
  induction h with
  | start => exact .inl ⟨rfl, rfl⟩
  | question hp h ih =>
      rcases ih with ⟨hpat, -⟩ | ⟨hpat, -⟩ | ⟨hpat, -⟩ <;> cases hpat <;> cases hp
  | into hp he h ih =>
      rcases ih with ⟨hpat, -⟩ | ⟨hpat, -⟩ | ⟨hpat, -⟩ <;> cases hpat <;> cases hp
  | past hp he hin h ih =>
      rcases ih with ⟨hpat, -⟩ | ⟨hpat, -⟩ | ⟨hpat, -⟩ <;> cases hpat <;> cases hp
  | equal hp he h ih =>
      rcases ih with ⟨hpat, -⟩ | ⟨hpat, hlist | hlist⟩ | ⟨hpat, -⟩
      · cases hpat
        cases hp
      · cases hpat
        cases hlist
        cases he
      · cases hpat
        cases hlist
        exact .inr (.inr ⟨rfl, rfl⟩)
      · cases hpat
  | wildcard piece hp hpattern hpiece hshort hend h ih =>
      rcases ih with ⟨hpat, hlist⟩ | ⟨hpat, -⟩ | ⟨hpat, -⟩
      · cases hpat
        cases hp
        refine .inr (.inl ⟨rfl, ?_⟩)
        rcases piece with _ | ⟨a, _ | ⟨b, _ | ⟨c, piece⟩⟩⟩
        · exact .inl hlist
        · cases hlist
          exact .inr rfl
        · cases hlist
          exact absurd (hend rfl) (by decide)
        · cases hlist
      · cases hpat
        cases hp
      · cases hpat

theorem matchesRight_star :
    MatchesRight exactRuntime false 400 [.symbol starSymbol, .long 2]
      [.long 1, .long 2] := by
  refine matchesRight_of_keepsEndsApart exactRuntime false _ _ ?_ 400 (by decide)
  intro pattern list hreach
  rcases comesTo_star hreach with ⟨rfl, rfl⟩ | ⟨rfl, rfl | rfl⟩ | ⟨rfl, rfl⟩
  · trivial
  · exact ⟨1, rfl, fun h => absurd h (by simp)⟩
  · exact ⟨0, rfl, fun h => absurd h (by simp)⟩
  · exact .inl rfl

/-- `(match '(1) (list 1 nil 2))`. -/
theorem not_matchesRight_nil :
    ¬ MatchesRight exactRuntime false 100 [.long 1] [.long 1, .nil, .long 2] := by
  intro h
  have hmatch := h.succeeds.mp ⟨[], rfl⟩
  obtain ⟨e, rest, hlist, -, hrest⟩ := (matches_equal_iff (.inl rfl)).mp hmatch
  cases hlist
  exact absurd (matches_nil_iff.mp hrest) (by simp)

end

end NewLispNeo
