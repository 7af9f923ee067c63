/-
The parts of `executeHTTPrequest` one by one: the tests on the text of the path, the
comparison of the directories, and the `switch`.
-/
import NewLispNeo.HttpRequest

namespace NewLispNeo.Http

open Json PathTree

/-- The directories that the comparison of the texts takes for the startup directory or one
inside: below the root only those with a backslash in front, and elsewhere also those
that have a backslash and more behind the startup directory. -/
def Accepted (startupDir cwd : List Name) : Prop :=
  if startupDir = [] then cwd = [] ∨ ∃ w rest, cwd = (Json.backslash :: w) :: rest
  else Extends Json.backslash startupDir cwd

/-- The programs a file name stands for in a shell are inside. -/
def RunsInside (srv : Server) (cwd : List Name) (name : Name) : Prop :=
  srv.tree.isFile cwd name = true → srv.tempDir = true →
    ∀ tempfile, srv.tempfile = some tempfile →
      ∀ file ∈ started srv cwd name tempfile, srv.startupDir <+: file

/-- What the file name leads to, through links, is inside. -/
def LeadsInside (srv : Server) (type : RequestType) (header : Header) (cwd : List Name)
    (name : Name) : Prop :=
  match type with
  | .get | .head =>
      if cgiExtension <:+ name then RunsInside srv cwd name
      else type = .get → ∀ file, srv.tree.readable cwd name = some file →
        srv.startupDir <+: file
  | .put => srv.httpSafe = false → header.size ≠ 0 →
      ∀ file, srv.tree.writable cwd name = some file → srv.startupDir <+: file
  | .post => header.size ≠ 0 → header.payload = true → RunsInside srv cwd name
  | .delete => srv.httpSafe = false →
      ∀ file, srv.tree.unlinked cwd name = some file → srv.startupDir <+: file

/-- The names of four bytes for which no longer extension is compared. -/
def shortNames : List Name :=
  [ascii ".cgi", ascii ".avi", ascii ".css", ascii ".gif", ascii ".htm"]

section Pointers

/-- Behind a byte that is not in the extension the comparison sees the string alone. -/
theorem suffix_apart {before text ext : List UInt8}
    (hbefore : ∀ b, before.getLast? = some b → b ∉ ext) (h : ext <:+ before ++ text) :
    ext <:+ text := by
  rcases List.suffix_or_suffix_of_suffix h (List.suffix_append before text) with h' | ⟨v, rfl⟩
  · exact h'
  · have hv : v <:+ before := by
      obtain ⟨u, hu⟩ := h
      rw [← List.append_assoc, List.append_cancel_right_eq] at hu
      exact ⟨u, hu⟩
    rcases List.eq_nil_or_concat v with rfl | ⟨v, b, rfl⟩
    · exact List.suffix_rfl
    · obtain ⟨u, rfl⟩ := hv
      exact absurd (by simp) (hbefore b (by simp))

/-- Behind slashes alone a part of the path is at its begin or behind a slash. -/
theorem suffix_slashes {before text word : List UInt8} (hbefore : ∀ b ∈ before, b = slash)
    (hword : slash ∉ word) (h : slash :: word <:+ before ++ text) :
    text = word ∨ slash :: word <:+ text := by
  rcases List.suffix_or_suffix_of_suffix h (List.suffix_append before text) with h' | ⟨v, hv⟩
  · exact .inr h'
  · have hsuffix : v <:+ before := by
      obtain ⟨u, hu⟩ := h
      rw [← hv, ← List.append_assoc, List.append_cancel_right_eq] at hu
      exact ⟨u, hu⟩
    rcases v with _ | ⟨b, v⟩
    · exact .inr (hv ▸ List.suffix_rfl)
    · obtain ⟨rfl, rfl⟩ := List.cons.inj hv
      rcases v with _ | ⟨c, v⟩
      · exact .inl rfl
      · have hc : c = slash :=
          hbefore c (hsuffix.mem (List.mem_cons_of_mem _ List.mem_cons_self))
        exact absurd (hc ▸ List.mem_cons_self) hword

/-- The test for path traversal finds a component `..`, or it reads before the buffer. -/
theorem traverses_eq {request : Pointer} (hbefore : ∀ b ∈ request.before, b = slash) :
    traverses request =
      if dotdot ∈ request.text.splitOn slash then .value true
      else if request.before.length + request.text.length < 3 then .undefined
      else .value false := by
  have hword : slash ∉ dotdot := by decide
  have hparts : dotdot ∈ request.text.splitOn slash ↔ _ := mem_splitOn_iff hword
  have hlength : (slash :: dotdot).length = 3 := rfl
  unfold traverses
  by_cases hearly : request.text = dotdot ∨ dotdot ++ [slash] <+: request.text ∨
      slash :: (dotdot ++ [slash]) <:+: request.text
  · rw [if_pos hearly, if_pos (hparts.mpr (by tauto))]
  · rw [if_neg hearly]
    unfold endsWith
    rw [hlength]
    by_cases hsuffix : slash :: dotdot <:+ request.text
    · have hle := hsuffix.length_le
      have hall : slash :: dotdot <:+ request.before ++ request.text :=
        hsuffix.trans (List.suffix_append _ _)
      rw [hlength] at hle
      rw [if_neg (by omega), if_pos (hparts.mpr (by tauto)),
        List.isSuffixOf_iff_suffix.mpr hall]
    · rw [if_neg (hparts.not.mpr (by tauto))]
      have hall : ¬ slash :: dotdot <:+ request.before ++ request.text := by
        intro h
        rcases suffix_slashes hbefore hword h with h | h
        · exact hearly (.inl h)
        · exact hsuffix h
      rw [← List.isSuffixOf_iff_suffix, Bool.not_eq_true] at hall
      rw [hall]

end Pointers

section Directories

variable {startupDir cwd : List Name}

theorem remainsInside_eq {current startup : List UInt8} :
    remainsInside current startup = true ↔
      ∃ rest, current = startup ++ rest ∧ GoesOn slash Json.backslash rest := by
  unfold remainsInside GoesOn
  rw [Bool.and_eq_true, List.isPrefixOf_iff_prefix]
  constructor
  · rintro ⟨⟨rest, rfl⟩, hgoes⟩
    rw [List.drop_left] at hgoes
    refine ⟨rest, rfl, ?_⟩
    rcases rest with _ | ⟨c, rest⟩
    · exact .inl rfl
    · simpa [or_comm] using hgoes
  · rintro ⟨rest, rfl, hgoes⟩
    rw [List.drop_left]
    refine ⟨⟨rest, rfl⟩, ?_⟩
    rcases rest with _ | ⟨c, rest⟩
    · rfl
    · simpa [or_comm] using hgoes

/-- The comparison of the canonical texts, in terms of the names. -/
theorem remainsInside_iff (hstartup : ∀ n ∈ startupDir, n ≠ [] ∧ slash ∉ n)
    (hcwd : ∀ n ∈ cwd, n ≠ [] ∧ slash ∉ n) :
    remainsInside (canonicalText cwd) (canonicalText startupDir) = true ↔
      Accepted startupDir cwd := by
  rw [remainsInside_eq]
  unfold Accepted
  by_cases hroot : startupDir = []
  · subst hroot
    rw [if_pos rfl]
    rcases cwd with _ | ⟨n, cwd⟩
    · exact ⟨fun _ => .inl rfl, fun _ => ⟨[], rfl, .inl rfl⟩⟩
    · obtain ⟨hn, hslash⟩ := hcwd n List.mem_cons_self
      rcases n with _ | ⟨c, n⟩
      · exact absurd rfl hn
      · have htext : canonicalText ((c :: n) :: cwd) = [slash] ++ c :: (n ++ spell slash cwd) := by
          simp [canonicalText]
        have hc : c ≠ slash := fun h => hslash (h ▸ List.mem_cons_self)
        constructor
        · rintro ⟨rest, heq, hgoes⟩
          obtain rfl := List.append_cancel_left (htext.symm.trans heq)
          rcases hgoes with h | h | h
          · simp at h
          · exact absurd (by simpa using h) hc
          · exact .inr ⟨n, cwd, by rw [show c = Json.backslash by simpa using h]⟩
        · rintro (h | ⟨w, rest, h⟩)
          · simp at h
          · simp only [List.cons.injEq] at h
            exact ⟨_, htext, .inr (.inr (by rw [h.1.1]; rfl))⟩
  · rw [if_neg hroot]
    have hne : canonicalText startupDir = spell slash startupDir := if_neg hroot
    rw [hne]
    rcases cwd with _ | ⟨n, cwd⟩
    · constructor
      · rintro ⟨rest, heq, -⟩
        rcases startupDir with _ | ⟨d, dirs⟩
        · exact absurd rfl hroot
        · obtain ⟨hd, -⟩ := hstartup d List.mem_cons_self
          simp [canonicalText, hd] at heq
      · rintro (h | ⟨init, last, w, rest, -, h⟩)
        · exact absurd (List.prefix_nil.mp h) hroot
        · simp at h
    · have hcwd' : canonicalText (n :: cwd) = spell slash (n :: cwd) :=
        if_neg (List.cons_ne_nil n cwd)
      rw [hcwd']
      exact spell_prefix_iff hroot (fun m hm => (hstartup m hm).2) fun m hm => (hcwd m hm).2

end Directories

section Serving

variable {srv : Server} {type : RequestType} {header : Header} {cwd : List Name}
  {request : Pointer} {handled : Handled}

theorem endsWith_eq {ext : List UInt8}
    (hbefore : ∀ b, request.before.getLast? = some b → b ∉ ext) :
    endsWith request ext =
      if request.before.length + request.text.length < ext.length then .undefined
      else .value (ext.isSuffixOf request.text) := by
  have hsuffix : ext.isSuffixOf (request.before ++ request.text) =
      ext.isSuffixOf request.text := by
    rw [Bool.eq_iff_iff, List.isSuffixOf_iff_suffix, List.isSuffixOf_iff_suffix]
    exact ⟨suffix_apart hbefore, fun h => h.trans (List.suffix_append _ _)⟩
  rw [endsWith, hsuffix]

/-- No extension is longer than the string and what is before it. -/
theorem findMediaType_defined {types : List (String × String)}
    (h : ∀ entry ∈ types,
      (ascii entry.1).length ≤ request.before.length + request.text.length) :
    ∃ media, findMediaType request types = .value media := by
  induction types with
  | nil => exact ⟨_, rfl⟩
  | cons entry types ih =>
      obtain ⟨hentry, htypes⟩ := List.forall_mem_cons.mp h
      obtain ⟨media, hmedia⟩ := ih htypes
      rw [findMediaType, endsWith, if_neg (by omega), Outcome.value_bind]
      split
      · exact ⟨_, rfl⟩
      · exact ⟨media, hmedia⟩

/-- What is before the string in the buffer ends with a slash or a zero, if there is
anything. -/
def Apart (request : Pointer) : Prop :=
  ∀ b, request.before.getLast? = some b → b = slash ∨ b = 0

theorem Apart.notMem {ext : List UInt8} (h : Apart request) (hext : slash ∉ ext ∧ 0 ∉ ext) :
    ∀ b, request.before.getLast? = some b → b ∉ ext := by
  intro b hb hmem
  rcases h b hb with rfl | rfl
  · exact hext.1 hmem
  · exact hext.2 hmem

/-- A short string is read whole only if it is one of the short extensions. -/
theorem eq_of_suffix {ext : List UInt8} (hlength : ext.length = 4)
    (hshort : request.before.length + request.text.length < 5) (h : ext <:+ request.text) :
    request.before = [] ∧ request.text = ext := by
  have hle := h.length_le
  exact ⟨List.length_eq_zero_iff.mp (by omega), (h.eq_of_length (by omega)).symm⟩

/-- The comparisons of a file name with the extensions stay in the buffer. -/
def Fits (request : Pointer) : Prop :=
  5 ≤ request.before.length + request.text.length ∨
    request.before = [] ∧ request.text ∈ shortNames

theorem endsWith_cgi (hapart : Apart request) (hfits : Fits request) :
    endsWith request cgiExtension = .value (cgiExtension.isSuffixOf request.text) := by
  have hcgi : cgiExtension.length = 4 := rfl
  rw [endsWith_eq (hapart.notMem (by decide)), hcgi, if_neg]
  rcases hfits with h | ⟨-, h⟩
  · omega
  · have hlength : ∀ n ∈ shortNames, n.length = 4 := by decide
    have htext := hlength request.text h
    omega

theorem getMediaType_defined (hfits : Fits request)
    (hcgi : cgiExtension.isSuffixOf request.text = false) :
    ∃ media, getMediaType request = .value media := by
  rcases hfits with h | ⟨hbefore, h⟩
  · have hlength : ∀ entry ∈ mediaTypes, (ascii entry.1).length ≤ 5 := by decide
    exact findMediaType_defined fun entry hentry => (hlength entry hentry).trans h
  · obtain ⟨before, text⟩ := request
    obtain rfl : before = [] := hbefore
    simp only [shortNames, List.mem_cons, List.not_mem_nil, or_false] at h
    rcases h with rfl | rfl | rfl | rfl | rfl
    · exact absurd hcgi (by decide)
    · exact ⟨_, rfl⟩
    · exact ⟨_, rfl⟩
    · exact ⟨_, rfl⟩
    · exact ⟨_, rfl⟩

/-- Otherwise one of them reads before the buffer. -/
theorem reads_before (hapart : Apart request) (hfits : ¬ Fits request) :
    endsWith request cgiExtension = .undefined ∨
      endsWith request cgiExtension = .value false ∧ getMediaType request = .undefined := by
  obtain ⟨hshort, hname⟩ := not_or.mp hfits
  have hends : ∀ ext ∈ shortNames, endsWith request ext =
      if request.before.length + request.text.length < 4 then .undefined else .value false := by
    intro ext hext
    have hlength : ∀ n ∈ shortNames, n.length = 4 ∧ slash ∉ n ∧ 0 ∉ n := by decide
    obtain ⟨hfour, hapart'⟩ := hlength ext hext
    have hnot : ext.isSuffixOf request.text = false := by
      rw [← Bool.not_eq_true, List.isSuffixOf_iff_suffix]
      intro h
      obtain ⟨hbefore, htext⟩ := eq_of_suffix hfour (by omega) h
      exact hname ⟨hbefore, htext ▸ hext⟩
    rw [endsWith_eq (hapart.notMem hapart'), hfour, hnot]
  simp only [shortNames, List.forall_mem_cons] at hends
  obtain ⟨hcgi, havi, hcss, hgif, hhtm, -⟩ := hends
  rw [show cgiExtension = ascii ".cgi" from rfl, hcgi]
  by_cases hfour : request.before.length + request.text.length < 4
  · exact .inl (if_pos hfour)
  · rw [if_neg hfour] at hcgi havi hcss hgif hhtm ⊢
    have hhtml : endsWith request (ascii ".html") = .undefined := by
      rw [endsWith, if_pos]
      simp only [ascii, List.length_map]
      exact Nat.lt_of_not_le hshort
    refine .inr ⟨rfl, ?_⟩
    simp [getMediaType, mediaTypes, findMediaType, havi, hcss, hgif, hhtm, hhtml]

/-- The `switch` reads before the buffer for no other request. -/
theorem serve_defined_iff (hapart : Apart request) :
    (∃ handled, serve srv type header cwd request = .value handled) ↔
      (type = .get ∨ type = .head → Fits request) := by
  constructor
  · rintro ⟨handled, h⟩ htype
    by_contra hfits
    rcases htype with rfl | rfl <;>
      rcases reads_before hapart hfits with hcgi | ⟨hcgi, hmedia⟩ <;>
      simp_all [serve]
  · intro hfits
    cases type with
    | get | head =>
        have hfits := hfits (by simp)
        rw [serve, endsWith_cgi hapart hfits, Outcome.value_bind]
        by_cases hcgi : cgiExtension.isSuffixOf request.text = true
        · exact ⟨_, if_pos hcgi⟩
        · obtain ⟨media, hmedia⟩ := getMediaType_defined hfits (Bool.not_eq_true _ ▸ hcgi)
          rw [if_neg hcgi, hmedia, Outcome.value_bind]
          split
          · exact ⟨_, rfl⟩
          · split <;> exact ⟨_, rfl⟩
    | put =>
        rw [serve]
        split
        · exact ⟨_, rfl⟩
        · split
          · exact ⟨_, rfl⟩
          · split <;> exact ⟨_, rfl⟩
    | post =>
        rw [serve]
        split
        · exact ⟨_, rfl⟩
        · split <;> exact ⟨_, rfl⟩
    | delete =>
        rw [serve]
        split
        · exact ⟨_, rfl⟩
        · split <;> exact ⟨_, rfl⟩

theorem handleHTTPcgi_inside {name : Name} :
    (∀ use ∈ (handleHTTPcgi srv cwd name).files, srv.startupDir <+: use.file) ↔
      RunsInside srv cwd name := by
  unfold handleHTTPcgi RunsInside
  by_cases hfile : srv.tree.isFile cwd name = true
  · by_cases hdir : srv.tempDir = true
    · cases htempfile : srv.tempfile with
      | none => simp [hfile, hdir]
      | some tempfile => simp [hfile, hdir, FileUse.file]
    · simp [hfile, hdir]
  · simp [hfile]

theorem handleHTTPcgi_reply {name : Name} :
    (handleHTTPcgi srv cwd name).reply ≠ .message 403 "Forbidden" := by
  unfold handleHTTPcgi
  split
  · split
    · split <;> simp
    · simp
  · simp

/-- Nothing is forbidden in the `switch`. -/
theorem serve_reply (h : serve srv type header cwd request = .value handled) :
    handled.reply ≠ .message 403 "Forbidden" := by
  cases type with
  | get | head =>
      simp only [serve, Outcome.bind_eq_value_iff] at h
      obtain ⟨cgi, -, h⟩ := h
      split at h
      · exact Outcome.value.inj h ▸ handleHTTPcgi_reply
      · simp only [Outcome.bind_eq_value_iff] at h
        obtain ⟨media, -, h⟩ := h
        split at h
        · simp [← Outcome.value.inj h]
        · split at h <;> simp [← Outcome.value.inj h, error404]
  | put =>
      rw [serve] at h
      split at h
      · simp [← Outcome.value.inj h]
      · split at h
        · simp [← Outcome.value.inj h]
        · split at h
          · simp [← Outcome.value.inj h]
          · cases hpayload : header.payload <;> simp [← Outcome.value.inj h, hpayload]
  | post =>
      rw [serve] at h
      split at h
      · simp [← Outcome.value.inj h]
      · split at h
        · exact Outcome.value.inj h ▸ handleHTTPcgi_reply
        · simp [← Outcome.value.inj h]
  | delete =>
      rw [serve] at h
      split at h
      · simp [← Outcome.value.inj h]
      · split at h <;> simp [← Outcome.value.inj h]

/-- The files used in the `switch` are those the file name leads to. -/
theorem serve_inside_iff (hapart : Apart request)
    (h : serve srv type header cwd request = .value handled) :
    (∀ use ∈ handled.files, srv.startupDir <+: use.file) ↔
      LeadsInside srv type header cwd request.text := by
  cases type with
  | get | head =>
      have hfits := (serve_defined_iff hapart).mp ⟨handled, h⟩ (by simp)
      rw [serve, endsWith_cgi hapart hfits, Outcome.value_bind] at h
      simp only [LeadsInside]
      by_cases hcgi : cgiExtension.isSuffixOf request.text = true
      · rw [if_pos hcgi] at h
        rw [if_pos (List.isSuffixOf_iff_suffix.mp hcgi)]
        exact Outcome.value.inj h ▸ handleHTTPcgi_inside
      · rw [if_neg hcgi] at h
        rw [if_neg (List.isSuffixOf_iff_suffix.not.mp hcgi)]
        simp only [Outcome.bind_eq_value_iff] at h
        obtain ⟨media, -, h⟩ := h
        split at h
        · simp_all [← Outcome.value.inj h]
        · split at h <;> simp_all [← Outcome.value.inj h, FileUse.file]
  | put =>
      rw [serve] at h
      simp only [LeadsInside]
      split at h
      · simp_all [← Outcome.value.inj h]
      · split at h
        · simp_all [← Outcome.value.inj h]
        · split at h <;> simp_all [← Outcome.value.inj h, FileUse.file]
  | post =>
      rw [serve] at h
      simp only [LeadsInside]
      split at h
      · simp_all [← Outcome.value.inj h]
      · split at h
        · rw [← Outcome.value.inj h, handleHTTPcgi_inside]
          simp_all
        · simp_all [← Outcome.value.inj h]
  | delete =>
      rw [serve] at h
      simp only [LeadsInside]
      split at h
      · simp_all [← Outcome.value.inj h]
      · split at h <;> simp_all [← Outcome.value.inj h, FileUse.file]

end Serving

end NewLispNeo.Http
