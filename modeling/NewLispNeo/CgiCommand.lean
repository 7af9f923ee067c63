/-
The command line that `handleHTTPcgi` passes to the shell for a request.
-/
import NewLispNeo.HttpContainment
import NewLispNeo.ShellWords

namespace NewLispNeo.Http

open Json PathTree

/-- What `mkstemp` makes of `/tmp/nl-XXXXXX`. -/
structure TempFile where
  suffix : List UInt8
  length_eq : suffix.length = 6
  alphanumeric : ∀ b ∈ suffix, 48 ≤ b ∧ b ≤ 57 ∨ 65 ≤ b ∧ b ≤ 90 ∨ 97 ≤ b ∧ b ≤ 122

def TempFile.text (tempfile : TempFile) : List UInt8 := ascii "/tmp/nl-" ++ tempfile.suffix

/-- A command for `popen` and what is written to its input. -/
structure Popen where
  command : List UInt8
  input : List UInt8

/-- `snprintf` into a buffer of `size` bytes. -/
def snprintf (size : Nat) (text : List UInt8) : List UInt8 := text.take (size - 1)

/-- The command of `handleHTTPcgi`. -/
def cgiPopen (request : List UInt8) (tempfile : TempFile) (query : List UInt8)
    (querySize : Nat) : Popen where
  command :=
    let size := request.length + tempfile.text.length + 64
    snprintf (size - 1)
      (ascii "./\"" ++ request ++ ascii "\" > \"" ++ tempfile.text ++ ascii "\"")
  input := query.take querySize

/-- The shell runs `./request` alone, with its output in the temporary file and the query as
its input. -/
structure RunsOnly (request : List UInt8) (tempfile : TempFile) (query : List UInt8) : Prop where
  command : Shell.parse (cgiPopen request tempfile query query.length).command =
    some ⟨[⟨ascii "./" ++ request, false⟩], [⟨tempfile.text, false⟩]⟩
  input : (cgiPopen request tempfile query query.length).input = query

/-- A double quote, `$` or a backquote. -/
def special (b : UInt8) : Bool := b = 34 || b = 36 || b = 96

section Command

variable {request query : List UInt8} {tempfile : TempFile}

theorem ascii_word : ascii "./\"" = ascii "./" ++ [34] := by decide

theorem ascii_output : ascii "\" > \"" = [34] ++ ascii " > " ++ [34] := by decide

theorem ascii_quote : ascii "\"" = [34] := by decide

/-- The buffer for the command is long enough. -/
theorem cgiPopen_command (querySize : Nat) :
    (cgiPopen request tempfile query querySize).command =
      ascii "./" ++ (34 :: request ++ [34]) ++ ascii " > " ++ (34 :: tempfile.text ++ [34]) := by
  have hword : (ascii "./").length = 2 := by decide
  have houtput : (ascii " > ").length = 3 := by decide
  have htext : ascii "./\"" ++ request ++ ascii "\" > \"" ++ tempfile.text ++ ascii "\"" =
      ascii "./" ++ (34 :: request ++ [34]) ++ ascii " > " ++ (34 :: tempfile.text ++ [34]) := by
    rw [ascii_word, ascii_output, ascii_quote]
    simp only [List.append_assoc, List.cons_append, List.nil_append]
  simp only [cgiPopen, snprintf]
  rw [htext]
  apply List.take_of_length_le
  simp only [List.length_append, List.length_cons, List.length_nil, hword, houtput]
  omega

theorem TempFile.text_plain (tempfile : TempFile) :
    ∀ b ∈ tempfile.text, b ≠ 34 ∧ b ≠ 92 ∧ b ≠ 39 ∧ Shell.beginsExpansion b = false := by
  intro b hb
  rcases List.mem_append.mp hb with hb | hb
  · have hall : ∀ b ∈ ascii "/tmp/nl-",
        b ≠ 34 ∧ b ≠ 92 ∧ b ≠ 39 ∧ Shell.beginsExpansion b = false := by decide +kernel
    exact hall b hb
  · have hrange := tempfile.alphanumeric b hb
    refine ⟨?_, ?_, ?_, ?_⟩
    · rintro rfl
      revert hrange
      decide
    · rintro rfl
      revert hrange
      decide
    · rintro rfl
      revert hrange
      decide
    · rw [Shell.beginsExpansion, Bool.or_eq_false_iff, decide_eq_false_iff_not,
        decide_eq_false_iff_not]
      constructor
      · rintro rfl
        revert hrange
        decide
      · rintro rfl
        revert hrange
        decide

/-- Without a quote and a backslash in the name the command has the one word. -/
theorem parse_command (h : ∀ b ∈ request, b ≠ 34 ∧ b ≠ 92) :
    Shell.parse (ascii "./" ++ (34 :: request ++ [34]) ++ ascii " > " ++
        (34 :: tempfile.text ++ [34])) =
      some ⟨[⟨ascii "./" ++ request, request.any Shell.beginsExpansion⟩],
        [⟨tempfile.text, false⟩]⟩ := by
  have hplain := tempfile.text_plain
  have hany : tempfile.text.any Shell.beginsExpansion = false := by
    rw [List.any_eq_false]
    intro b hb
    rw [(hplain b hb).2.2.2]
    exact Bool.false_ne_true
  have hstart : (ascii "./").foldl Shell.step ⟨.plain, none, []⟩ =
      ⟨.plain, some ⟨ascii "./", false⟩, []⟩ := by decide
  have hname := @Shell.foldl_quoted [] request h (some ⟨ascii "./", false⟩)
  have houtput : ∀ w, (ascii " > ").foldl Shell.step ⟨.plain, some w, []⟩ =
      ⟨.plain, none, [.word w, .operator 62]⟩ := fun w => rfl
  have htemp : ∀ ts, (34 :: tempfile.text ++ [34]).foldl Shell.step ⟨.plain, none, ts⟩ =
      ⟨.plain, some ⟨tempfile.text, false⟩, ts⟩ := by
    intro ts
    rw [Shell.foldl_quoted fun b hb => ⟨(hplain b hb).1, (hplain b hb).2.1⟩, hany]
    rfl
  generalize 34 :: request ++ [34] = name at hname ⊢
  generalize 34 :: tempfile.text ++ [34] = output at htemp ⊢
  rw [Shell.parse, Shell.tokens, List.foldl_append, List.foldl_append, List.foldl_append,
    hstart, hname, houtput, htemp]
  rfl

theorem count_quote (tempfile : TempFile) : tempfile.text.count 39 = 0 :=
  List.count_eq_zero.mpr fun hmem => (tempfile.text_plain 39 hmem).2.2.1 rfl

/-- A name that is a word of its own has no double quote. -/
theorem RunsOnly.no_quote (h : RunsOnly request tempfile query) (hback : 92 ∉ request) :
    34 ∉ request := by
  have hparse := h.command
  rw [cgiPopen_command] at hparse
  have hline : 92 ∉ ascii "./" ++ (34 :: request ++ [34]) ++ ascii " > " ++
      (34 :: tempfile.text ++ [34]) := by
    have htemp : 92 ∉ tempfile.text := fun hmem => (tempfile.text_plain 92 hmem).2.1 rfl
    have hword : 92 ∉ ascii "./" := by decide
    have houtput : 92 ∉ ascii " > " := by decide
    simp [hword, houtput, hback, htemp]
  have hno := Shell.not_mem_of_parse hline hparse (by
    have hword : (ascii "./").count 39 = 0 := by decide
    have houtput : (ascii " > ").count 39 = 0 := by decide
    simp [hword, houtput, count_quote])
  intro hmem
  exact hno (by simp [hmem])

/-- The shell runs the file alone if and only if its name has no double quote, `$` or
backquote. -/
theorem runsOnly_of_iff (hback : 92 ∉ request) : RunsOnly request tempfile query ↔
    ∀ b ∈ request, special b = false := by
  constructor
  · intro h b hb
    have hquote := h.no_quote hback
    have hparse := h.command
    have hclean : ∀ b ∈ request, b ≠ 34 ∧ b ≠ 92 := fun b hb =>
      ⟨fun hb' => hquote (hb' ▸ hb), fun hb' => hback (hb' ▸ hb)⟩
    rw [cgiPopen_command, parse_command hclean] at hparse
    simp only [Option.some.injEq, Shell.Command.mk.injEq, List.cons.injEq, Shell.Word.mk.injEq,
      true_and, and_true] at hparse
    have hbegins := List.any_eq_false.mp hparse b hb
    simp only [Shell.beginsExpansion, Bool.or_eq_true, decide_eq_true_eq, not_or] at hbegins
    simp [special, (hclean b hb).1, hbegins]
  · intro h
    have hspecial : ∀ b ∈ request, b ≠ 34 ∧ Shell.beginsExpansion b = false := by
      intro b hb
      have hb' := h b hb
      simp only [special, Bool.or_eq_false_iff, decide_eq_false_iff_not] at hb'
      simp [Shell.beginsExpansion, hb']
    have hany : request.any Shell.beginsExpansion = false := by
      rw [List.any_eq_false]
      intro b hb
      rw [(hspecial b hb).2]
      exact Bool.false_ne_true
    refine ⟨?_, List.take_length⟩
    rw [cgiPopen_command, parse_command fun b hb =>
      ⟨(hspecial b hb).1, fun hb' => hback (hb' ▸ hb)⟩, hany]

end Command

/-! ### Requests -/

section Requests

variable {srv : Server} {cwd : List Name} {raw query : List UInt8} {tempfile : TempFile}

/-- The name that a request is served under has no backslash. -/
theorem backslash_notMem_fileName :
    92 ∉ fileName srv cwd (stripped (requestPath raw)).text := by
  unfold fileName
  split
  · unfold defaultPage
    split
    · decide
    · decide
  · exact fun hmem => backslash_notMem_stripped ((List.rtakeWhile_suffix _ _).mem hmem)

/-- For a request whose last path component is `r` the shell runs `./r` alone if and only if
`r` has no double quote, `$` or backquote. -/
theorem runsOnly_iff (srv : Server) (cwd : List Name) (raw query : List UInt8)
    (tempfile : TempFile) :
    RunsOnly (fileName srv cwd (stripped (requestPath raw)).text) tempfile query ↔
      ∀ b ∈ fileName srv cwd (stripped (requestPath raw)).text, special b = false :=
  runsOnly_of_iff backslash_notMem_fileName

/-- The programs that `handleHTTPcgi` starts are those of its command: for a name without
special bytes the file that is named, which the shell runs alone. -/
theorem started_popen (srv : Server) (cwd : List Name) (request : Name) (tempfile : TempFile)
    (query : List UInt8) :
    (request.any (· ∈ shellSpecial) = true → started srv cwd request tempfile.text =
      srv.shell cwd (cgiPopen request tempfile query query.length).command) ∧
    (request.any (· ∈ shellSpecial) = false →
      started srv cwd request tempfile.text = (srv.tree.readable cwd request).toList ∧
        RunsOnly request tempfile query) := by
  constructor
  · intro hspecial
    rw [started, if_pos hspecial, cgiPopen_command, ascii_word, ascii_output, ascii_quote]
    simp only [List.append_assoc, List.cons_append, List.nil_append]
  · intro hplain
    have hnone : ∀ b ∈ request, b ∉ shellSpecial := by simpa using hplain
    refine ⟨by rw [started, hplain, if_neg Bool.false_ne_true], ?_⟩
    refine (runsOnly_of_iff fun hmem => hnone 92 hmem (by decide)).mpr fun b hb => ?_
    have hb' := hnone b hb
    simp only [shellSpecial, List.mem_cons, List.not_mem_nil, or_false, not_or] at hb'
    simp only [special, Bool.or_eq_false_iff, decide_eq_false_iff_not]
    exact ⟨⟨hb'.1, hb'.2.1⟩, hb'.2.2.2⟩

/-- A file `$x.cgi` in the startup directory. -/
def dollarTree : FileTree where
  entry path :=
    if path = [] then some .directory else if path = [ascii "$x.cgi"] then some .file else none
  root := rfl
  parent := by
    intro path name h
    by_cases hpath : path = []
    · rw [if_pos hpath]
    · have hne : path ++ [name] ≠ [ascii "$x.cgi"] := by
        intro heq
        have hlength := congrArg List.length heq
        rw [List.length_append, List.length_singleton, List.length_singleton] at hlength
        exact hpath (List.eq_nil_of_length_eq_zero (by omega))
      rw [if_neg (by simp), if_neg hne] at h
      cases h
  names := by
    intro path h
    by_cases hpath : path = []
    · rw [hpath]
      exact fun n hn => absurd hn List.not_mem_nil
    · by_cases hfile : path = [ascii "$x.cgi"]
      · rw [hfile]
        decide
      · rw [if_neg hpath, if_neg hfile] at h
        cases h

def dollarServer : Server where
  tree := dollarTree
  startupDir := []
  isDir := rfl
  httpSafe := true
  tempDir := true
  tempfile := some (ascii "/tmp/nl-abcdef")
  shell _ _ := []

/-- For `GET /$x.cgi` the file is there, and the shell puts the value of `x` into its name. -/
theorem not_runsOnly_dollar : dollarServer.tree.isFile [] (ascii "$x.cgi") = true ∧
    ¬ RunsOnly (fileName dollarServer [] (stripped (requestPath (ascii "/$x.cgi"))).text)
      ⟨ascii "abcdef", rfl, by decide +kernel⟩ [] := by
  have hname : fileName dollarServer [] (stripped (requestPath (ascii "/$x.cgi"))).text =
      ascii "$x.cgi" := by decide
  constructor
  · have hcomponents : components (ascii "$x.cgi") = [.name (ascii "$x.cgi")] :=
      components_name (by decide)
    have hentry : dollarTree.entry [ascii "$x.cgi"] = some .file := rfl
    simp [FileTree.isFile, FileTree.find, hcomponents, symloopMax, walk, dollarServer, hentry]
  · rw [hname, runsOnly_of_iff (by decide)]
    intro h
    exact absurd (h 36 (by decide)) (by decide)

end Requests

end NewLispNeo.Http
