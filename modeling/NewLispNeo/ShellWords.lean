/-
The command line of a POSIX shell read byte by byte: words, quotes and operators.  What an
expansion would put into a word is not computed; a word only knows that it has one.
-/
import Mathlib.Data.List.Basic

namespace Shell

/-- A word, and whether something in it is expanded. -/
structure Word where
  text : List UInt8
  expands : Bool
deriving DecidableEq

inductive Token where
  | word (w : Word)
  | operator (b : UInt8)
deriving DecidableEq

/-- Where the next byte stands. -/
inductive Mode where
  | plain
  | comment
  | single
  | double
  | escape
  | doubleEscape
deriving DecidableEq

/-- The tokens that have been read, and the word that has been begun. -/
structure State where
  mode : Mode
  word : Option Word
  tokens : List Token
deriving DecidableEq

namespace State

variable (s : State)

/-- The word that goes on. -/
def current : Word := s.word.getD ⟨[], false⟩

def goOn (mode : Mode) : State := { s with mode }

/-- A quote begins a word, also an empty one. -/
def quote (mode : Mode) : State := { s with mode, word := some s.current }

/-- The byte stands for itself. -/
def add (b : UInt8) : State :=
  { s with word := some ⟨s.current.text ++ [b], s.current.expands⟩ }

/-- The byte begins an expansion. -/
def expand (b : UInt8) : State := { s with word := some ⟨s.current.text ++ [b], true⟩ }

/-- The end of a word. -/
def flush : State :=
  { s with word := none, tokens := s.tokens ++ (s.word.map Token.word).toList }

def operator (b : UInt8) : State :=
  { s.flush with tokens := s.flush.tokens ++ [.operator b] }

end State

/-- Line feed and `&();<>|`. -/
def operators : List UInt8 := [10, 38, 40, 41, 59, 60, 62, 124]

/-- Outside of quotes: quotes, blanks, operators, comments and expansions. -/
def stepPlain (s : State) (b : UInt8) : State :=
  if b = 34 then s.quote .double
  else if b = 39 then s.quote .single
  else if b = 92 then s.goOn .escape
  else if b = 32 ∨ b = 9 then s.flush
  else if b ∈ operators then s.operator b
  else if b = 35 ∧ s.word = none then s.goOn .comment
  else if b ∈ [36, 96, 42, 63, 91] ∨ b = 126 ∧ s.word = none then s.expand b
  else s.add b

/-- Between double quotes `$` and the backquote begin an expansion, and a backslash quotes
these, itself, the double quote and a line feed. -/
def stepDouble (s : State) (b : UInt8) : State :=
  if b = 34 then s.goOn .plain
  else if b = 92 then s.goOn .doubleEscape
  else if b = 36 ∨ b = 96 then s.expand b
  else s.add b

/-- One byte. -/
def step (s : State) (b : UInt8) : State :=
  match s.mode with
  | .plain => stepPlain s b
  | .comment => if b = 10 then (s.goOn .plain).operator b else s
  | .single => if b = 39 then s.goOn .plain else s.add b
  | .double => stepDouble s b
  | .escape => if b = 10 then s.goOn .plain else (s.goOn .plain).add b
  | .doubleEscape =>
      if b ∈ [36, 96, 34, 92] then (s.goOn .double).add b
      else if b = 10 then s.goOn .double
      else ((s.goOn .double).add 92).add b

/-- The tokens of a command line whose quotes are closed. -/
def tokens (line : List UInt8) : Option (List Token) :=
  let s := line.foldl step ⟨.plain, none, []⟩
  if s.mode = .plain ∨ s.mode = .comment then some s.flush.tokens else none

/-- A command with its words, and the words that its output is redirected to. -/
structure Command where
  words : List Word
  outputs : List Word
deriving DecidableEq

/-- The tokens of a single command. -/
def command : List Token → Option Command
  | [] => some ⟨[], []⟩
  | .word w :: rest => (command rest).map fun c => { c with words := w :: c.words }
  | .operator b :: .word w :: rest =>
      if b = 62 then (command rest).map fun c => { c with outputs := w :: c.outputs } else none
  | .operator _ :: _ => none

/-- A command line that is a single command. -/
def parse (line : List UInt8) : Option Command := (tokens line).bind command

/-! ### The bytes that stand for themselves -/

section Text

variable {s : State} {b c : UInt8}

/-- The bytes of the words. -/
def texts (ts : List Token) : List UInt8 :=
  ts.flatMap fun t =>
    match t with
    | .word w => w.text
    | .operator _ => []

def State.text (s : State) : List UInt8 := texts s.tokens ++ s.current.text

@[simp] theorem State.text_goOn (s : State) (mode : Mode) : (s.goOn mode).text = s.text := rfl

@[simp] theorem State.mode_goOn (s : State) (mode : Mode) : (s.goOn mode).mode = mode := rfl

@[simp] theorem State.mode_quote (s : State) (mode : Mode) : (s.quote mode).mode = mode := rfl

@[simp] theorem State.text_quote (s : State) (mode : Mode) : (s.quote mode).text = s.text := rfl

@[simp] theorem State.text_add (s : State) (b : UInt8) : (s.add b).text = s.text ++ [b] :=
  (List.append_assoc _ _ _).symm

@[simp] theorem State.text_expand (s : State) (b : UInt8) : (s.expand b).text = s.text ++ [b] :=
  (List.append_assoc _ _ _).symm

theorem texts_append (ts ts' : List Token) : texts (ts ++ ts') = texts ts ++ texts ts' :=
  List.flatMap_append

@[simp] theorem State.text_flush (s : State) : s.flush.text = s.text := by
  obtain ⟨mode, word, ts⟩ := s
  cases word with
  | none => simp [State.text, State.flush, State.current]
  | some w => simp [State.text, State.flush, State.current, texts]

@[simp] theorem State.text_operator (s : State) (b : UInt8) : (s.operator b).text = s.text := by
  have htext := s.text_flush
  simp only [State.text] at htext ⊢
  simp only [State.operator, texts_append]
  rw [← htext]
  simp [texts, State.flush, State.current]

theorem texts_word (w : Word) (ts : List Token) :
    texts (.word w :: ts) = w.text ++ texts ts := rfl

theorem texts_operator (b : UInt8) (ts : List Token) : texts (.operator b :: ts) = texts ts := rfl

/-- The words of a command have the bytes of its tokens. -/
theorem command_text {ts : List Token} {c : Command} (h : command ts = some c) (b : UInt8) :
    (texts ts).count b =
      ((c.words.flatMap Word.text) ++ (c.outputs.flatMap Word.text)).count b := by
  induction ts using command.induct generalizing c with
  | case1 =>
      cases h
      rfl
  | case2 w rest ih =>
      rw [command] at h
      obtain ⟨c', hc, rfl⟩ := Option.map_eq_some_iff.mp h
      have hrest := ih hc
      simp only [List.count_append, List.flatMap_cons] at hrest ⊢
      rw [texts_word, List.count_append, hrest]
      omega
  | case3 w rest ih =>
      rw [command, if_pos rfl] at h
      obtain ⟨c', hc, rfl⟩ := Option.map_eq_some_iff.mp h
      have hrest := ih hc
      simp only [List.count_append, List.flatMap_cons] at hrest ⊢
      rw [texts_operator, texts_word, List.count_append, hrest]
      omega
  | case4 b' w rest hb =>
      rw [command, if_neg hb] at h
      cases h
  | case5 b' rest hno =>
      rw [command] at h
      · cases h
      · exact hno

end Text

/-! ### Quotes that stand for themselves -/

section Quotes

variable {s : State} {b : UInt8} {line : List UInt8}

/-- In a line without a backslash a double quote stands for itself only between single
quotes, which then do not. -/
structure Quoted (line : List UInt8) (s : State) : Prop where
  mode : s.mode ≠ .escape ∧ s.mode ≠ .doubleEscape
  count_le : s.text.count 39 ≤ line.count 39
  single : s.text.count 39 = line.count 39 → s.mode ≠ .single ∧ 34 ∉ s.text

/-- A byte that does not stand for itself. -/
theorem Quoted.same {s' : State} (h : Quoted line s) (htext : s'.text = s.text)
    (hmode : s'.mode ≠ .escape ∧ s'.mode ≠ .doubleEscape)
    (hsingle : b = 39 ∨ (s.mode ≠ .single → s'.mode ≠ .single)) : Quoted (line ++ [b]) s' := by
  have hle := h.count_le
  refine ⟨hmode, ?_, fun heq => ?_⟩
  · rw [htext, List.count_append]
    omega
  · rw [htext, List.count_append] at heq
    rcases hsingle with rfl | hsingle
    · rw [List.count_singleton_self] at heq
      omega
    · obtain ⟨hno, hquote⟩ := h.single (by omega)
      rw [htext]
      exact ⟨hsingle hno, hquote⟩

/-- A byte that stands for itself. -/
theorem Quoted.grow {s' : State} (h : Quoted line s) (htext : s'.text = s.text ++ [b])
    (hmode : s'.mode = s.mode) (hb : b ≠ 34 ∨ s.mode = .single) :
    Quoted (line ++ [b]) s' := by
  have hle := h.count_le
  refine ⟨hmode ▸ h.mode, ?_, fun heq => ?_⟩
  · rw [htext, List.count_append, List.count_append]
    omega
  · rw [htext, List.count_append, List.count_append] at heq
    obtain ⟨hno, hquote⟩ := h.single (by omega)
    rw [htext, hmode]
    refine ⟨hno, fun hmem => ?_⟩
    rcases List.mem_append.mp hmem with hmem | hmem
    · exact hquote hmem
    · rw [List.mem_singleton] at hmem
      exact (hb.resolve_right hno) hmem.symm

theorem Quoted.step_plain (h : Quoted line s) (hb : b ≠ 92) :
    Quoted (line ++ [b]) (stepPlain s b) := by
  have hplain : s.mode ≠ .escape ∧ s.mode ≠ .doubleEscape := h.mode
  rw [stepPlain]
  split
  · exact h.same rfl (by simp) (.inr fun _ => by simp)
  · rename_i hdouble
    split
    · rename_i hsingle
      exact h.same rfl (by simp) (.inl hsingle)
    · split
      · exact h.same s.text_flush hplain (.inr id)
      · split
        · exact h.same (s.text_operator b) hplain (.inr id)
        · split
          · exact h.same rfl (by simp) (.inr fun _ => by simp)
          · split
            · exact h.grow (s.text_expand b) rfl (.inl hdouble)
            · exact h.grow (s.text_add b) rfl (.inl hdouble)

theorem Quoted.step_double (h : Quoted line s) (hb : b ≠ 92) :
    Quoted (line ++ [b]) (stepDouble s b) := by
  rw [stepDouble]
  split
  · exact h.same rfl (by simp) (.inr fun _ => by simp)
  · rename_i hdouble
    split
    · exact h.grow (s.text_expand b) rfl (.inl hdouble)
    · exact h.grow (s.text_add b) rfl (.inl hdouble)

theorem Quoted.step (h : Quoted line s) (hb : b ≠ 92) : Quoted (line ++ [b]) (step s b) := by
  cases hs : s.mode with
  | plain =>
      rw [Shell.step, hs]
      exact h.step_plain hb
  | comment =>
      rw [Shell.step, hs]
      simp only
      split
      · exact h.same (State.text_operator _ b) (by simp [State.operator, State.flush])
          (.inr fun _ => by simp [State.operator, State.flush])
      · exact h.same rfl h.mode (.inr id)
  | single =>
      rw [Shell.step, hs]
      simp only
      split
      · exact h.same rfl (by simp) (.inr fun _ => by simp)
      · exact h.grow (s.text_add b) rfl (.inr hs)
  | double =>
      rw [Shell.step, hs]
      exact h.step_double hb
  | escape => exact absurd hs h.mode.1
  | doubleEscape => exact absurd hs h.mode.2

theorem Quoted.foldl {bytes : List UInt8} (h : Quoted line s) (hbytes : 92 ∉ bytes) :
    Quoted (line ++ bytes) (bytes.foldl Shell.step s) := by
  induction bytes generalizing line s with
  | nil =>
      rw [List.append_nil]
      exact h
  | cons b bytes ih =>
      rw [List.mem_cons, not_or] at hbytes
      have hrest := ih (h.step (Ne.symm hbytes.1)) hbytes.2
      rw [List.append_assoc] at hrest
      exact hrest

/-- A command that has all single quotes of its line has no double quote. -/
theorem not_mem_of_parse {c : Command} (hline : 92 ∉ line) (h : parse line = some c)
    (hcount : (c.words.flatMap Word.text ++ c.outputs.flatMap Word.text).count 39 =
      line.count 39) :
    34 ∉ c.words.flatMap Word.text ++ c.outputs.flatMap Word.text := by
  obtain ⟨ts, hts, hc⟩ := Option.bind_eq_some_iff.mp h
  have hstart : Quoted [] ⟨.plain, none, []⟩ :=
    ⟨by simp, by decide, fun _ => by simp [State.text, texts, State.current]⟩
  have hquoted := hstart.foldl hline
  rw [List.nil_append] at hquoted
  change (if (line.foldl Shell.step ⟨.plain, none, []⟩).mode = .plain ∨
    (line.foldl Shell.step ⟨.plain, none, []⟩).mode = .comment then
      some (line.foldl Shell.step ⟨.plain, none, []⟩).flush.tokens else none) = some ts at hts
  generalize line.foldl Shell.step ⟨.plain, none, []⟩ = s at hts hquoted
  split at hts
  · cases hts
    have htext : texts s.flush.tokens = s.text := by
      rw [← s.text_flush, State.text]
      simp [State.flush, State.current]
    have hsame := command_text hc
    rw [htext] at hsame
    have hnone := (hquoted.single (by rw [hsame, hcount])).2
    rw [← List.count_eq_zero] at hnone ⊢
    rw [← hsame, hnone]
  · cases hts

end Quotes

/-! ### Between double quotes -/

section Double

variable {w : Word} {ts : List Token} {bytes : List UInt8}

/-- The bytes that begin an expansion between double quotes. -/
def beginsExpansion (b : UInt8) : Bool := b = 36 || b = 96

/-- Bytes between double quotes, of which none is a quote or a backslash. -/
theorem foldl_double (h : ∀ b ∈ bytes, b ≠ 34 ∧ b ≠ 92) :
    bytes.foldl step ⟨.double, some w, ts⟩ =
      ⟨.double, some ⟨w.text ++ bytes, w.expands || bytes.any beginsExpansion⟩, ts⟩ := by
  induction bytes generalizing w with
  | nil => simp
  | cons b bytes ih =>
      obtain ⟨hquote, hback⟩ := h b List.mem_cons_self
      have hstep : step ⟨.double, some w, ts⟩ b =
          ⟨.double, some ⟨w.text ++ [b], w.expands || beginsExpansion b⟩, ts⟩ := by
        change stepDouble ⟨.double, some w, ts⟩ b = _
        rw [stepDouble, if_neg hquote, if_neg hback]
        by_cases hb : b = 36 ∨ b = 96
        · rw [if_pos hb]
          have hbegins : beginsExpansion b = true := by simpa [beginsExpansion] using hb
          rw [hbegins, Bool.or_true]
          rfl
        · rw [if_neg hb]
          have hbegins : beginsExpansion b = false := by simpa [beginsExpansion] using hb
          rw [hbegins, Bool.or_false]
          rfl
      rw [List.foldl_cons, hstep, ih fun b' hb' => h b' (List.mem_cons_of_mem b hb')]
      simp [List.any_cons, Bool.or_assoc]

/-- A text between double quotes goes to the word that has been begun. -/
theorem foldl_quoted (h : ∀ b ∈ bytes, b ≠ 34 ∧ b ≠ 92) (word : Option Word) :
    (34 :: bytes ++ [34]).foldl step ⟨.plain, word, ts⟩ =
      ⟨.plain, some ⟨(word.getD ⟨[], false⟩).text ++ bytes,
        (word.getD ⟨[], false⟩).expands || bytes.any beginsExpansion⟩, ts⟩ := by
  have hopen : step ⟨.plain, word, ts⟩ 34 = ⟨.double, some (word.getD ⟨[], false⟩), ts⟩ := rfl
  rw [List.cons_append, List.foldl_cons, hopen, List.foldl_append, foldl_double h]
  rfl

end Double

end Shell
