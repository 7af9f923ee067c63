/-
When the files that the HTTP server uses for a request are inside of its startup directory.
-/
import NewLispNeo.HttpServing

namespace NewLispNeo.Http

open Json PathTree

/-- Every file that is used is inside of the startup directory, nothing outside of the
request buffer is read, and a request for a file inside without `..` is not forbidden. -/
def Contained (srv : Server) (type : RequestType) (header : Header) (request : List UInt8) :
    Prop :=
  ∃ handled, executeHTTPrequest srv type header request = .value handled ∧
    (∀ use ∈ handled.files, srv.startupDir <+: use.file) ∧
    (dotdot ∉ (stripped (requestPath request)).text.splitOn slash →
      ∀ file, srv.tree.readable srv.startupDir (stripped (requestPath request)).text =
        some file → srv.startupDir <+: file → handled.reply ≠ .message 403 "Forbidden")

/-- The directory in which the last part of the path is looked up. -/
def ServedFrom (srv : Server) (path : List UInt8) (cwd : List Name) : Prop :=
  hasDrive path = false ∧ dotdot ∉ path.splitOn slash ∧
    (slash ∉ path ∧ cwd = srv.startupDir ∨
      slash ∈ path ∧ srv.tree.chdir srv.startupDir (directoryPart path) = some cwd ∧
        Accepted srv.startupDir cwd)

/-- The file name in that directory. -/
def fileName (srv : Server) (cwd : List Name) (path : List UInt8) : Name :=
  if lastPart path = [] then defaultPage srv cwd else lastPart path

/-- What the server relies on. -/
structure Confined (srv : Server) (type : RequestType) (header : Header)
    (request : List UInt8) : Prop where
  /-- The path is not shorter than `/..`, unless it is refused before. -/
  long : hasDrive (stripped (requestPath request)).text = true ∨
    dotdot ∈ (stripped (requestPath request)).text.splitOn slash ∨
    3 ≤ (requestPath request).length
  /-- Nor is it shorter than the extensions that its end is compared with. -/
  longer : type = .get ∨ type = .head → ∀ cwd,
    ServedFrom srv (stripped (requestPath request)).text cwd →
    lastPart (stripped (requestPath request)).text ≠ [] →
    5 ≤ (requestPath request).length ∨ requestPath request ∈ shortNames
  /-- The last part is not a link to the outside. -/
  inside : ∀ cwd, ServedFrom srv (stripped (requestPath request)).text cwd →
    LeadsInside srv type header cwd
      (fileName srv cwd (stripped (requestPath request)).text)
  /-- A file inside does not look like one on a drive, and its directory is accepted. -/
  accepted : dotdot ∉ (stripped (requestPath request)).text.splitOn slash →
    ∀ file, srv.tree.readable srv.startupDir (stripped (requestPath request)).text =
      some file → srv.startupDir <+: file →
    hasDrive (stripped (requestPath request)).text = false ∧
      (slash ∈ (stripped (requestPath request)).text → ∀ cwd,
        srv.tree.chdir srv.startupDir (directoryPart (stripped (requestPath request)).text) =
          some cwd → Accepted srv.startupDir cwd)

section Requests

variable {srv : Server} {type : RequestType} {header : Header} {request : List UInt8}
  {path : List UInt8} {cwd : List Name}

theorem stripped_eq (path : List UInt8) :
    (∀ b ∈ (stripped path).before, b = slash) ∧
      (stripped path).before ++ (stripped path).text = path :=
  ⟨fun b hb => by simpa using List.mem_takeWhile_imp hb, List.takeWhile_append_dropWhile⟩

theorem stripped_length (path : List UInt8) :
    (stripped path).before.length + (stripped path).text.length = path.length := by
  rw [← List.length_append, (stripped_eq path).2]

theorem backslash_notMem : Json.backslash ∉ requestPath request := by
  intro h
  simp only [requestPath, List.mem_map] at h
  obtain ⟨b, -, hb⟩ := h
  split at hb
  · exact absurd hb (by decide)
  · contradiction

theorem backslash_notMem_stripped :
    Json.backslash ∉ (stripped (requestPath request)).text := fun h =>
  backslash_notMem ((List.dropWhile_suffix _).mem h)

/-- A path is its directory, a slash and its last part. -/
theorem path_eq (h : slash ∈ path) : path = directoryPart path ++ slash :: lastPart path := by
  have hne : path.rdropWhile (· ≠ slash) ≠ [] := by
    intro hnil
    rw [List.rdropWhile_eq_nil_iff] at hnil
    simpa using hnil slash h
  have hlast : (path.rdropWhile (· ≠ slash)).getLast hne = slash := by
    simpa using List.rdropWhile_last_not _ _ hne
  have hconcat := List.dropLast_append_getLast hne
  rw [hlast] at hconcat
  calc path = path.rdropWhile (· ≠ slash) ++ path.rtakeWhile (· ≠ slash) :=
        (List.rdropWhile_append_rtakeWhile).symm
    _ = directoryPart path ++ slash :: lastPart path := by
        rw [← hconcat]
        simp [directoryPart, lastPart]

theorem slash_notMem_lastPart : slash ∉ lastPart path := fun h => by
  simpa using List.mem_rtakeWhile_imp h

theorem lastPart_of_notMem (h : slash ∉ path) : lastPart path = path := by
  rw [lastPart, List.rtakeWhile_eq_self_iff]
  intro b hb
  simpa using fun heq : b = slash => h (heq ▸ hb)

theorem lastPart_mem : lastPart path ∈ path.splitOn slash := by
  have hsingle : (lastPart path).splitOn slash = [lastPart path] :=
    List.splitOn_eq_singleton slash_notMem_lastPart
  by_cases h : slash ∈ path
  · have hparts : path.splitOn slash = _ := congrArg (List.splitOn slash) (path_eq h)
    rw [hparts, List.splitOn_append_cons_self, hsingle]
    exact List.mem_append_right _ List.mem_cons_self
  · rw [lastPart_of_notMem h] at hsingle ⊢
    rw [hsingle]
    exact List.mem_cons_self

/-- The file name in its buffer. -/
def located (request : Pointer) : Pointer :=
  if slash ∈ request.text then
    ⟨request.before ++ directoryPart request.text ++ [0], lastPart request.text⟩
  else request

theorem located_text (request : Pointer) : (located request).text = lastPart request.text := by
  unfold located
  split
  · rfl
  · rename_i h
    exact (lastPart_of_notMem h).symm

theorem located_length (request : Pointer) :
    (located request).before.length + (located request).text.length =
      request.before.length + request.text.length := by
  unfold located
  split
  · rename_i h
    have hlength := congrArg List.length (path_eq h)
    simp only [List.length_append, List.length_cons, List.length_nil] at hlength ⊢
    omega
  · rfl

theorem located_apart (path : List UInt8) : Apart (located (stripped path)) := by
  intro b hb
  unfold located at hb
  split at hb
  · simp only [List.getLast?_append, List.getLast?_singleton, Option.some_or,
      Option.some.injEq] at hb
    exact .inr hb.symm
  · exact .inl ((stripped_eq path).1 b (List.mem_of_getLast? hb))

/-- In its buffer a file name fits like the whole path. -/
theorem fits_located (path : List UInt8) :
    Fits (located (stripped path)) ↔ 5 ≤ path.length ∨ path ∈ shortNames := by
  unfold Fits
  rw [located_length, stripped_length]
  refine or_congr_right ?_
  have hshort : ∀ n ∈ shortNames, slash ∉ n := by decide
  constructor
  · rintro ⟨hbefore, htext⟩
    unfold located at hbefore htext
    split at hbefore
    · simp at hbefore
    · rename_i hslash
      rw [if_neg hslash] at htext
      rw [← (stripped_eq path).2, hbefore]
      exact htext
  · intro hpath
    have hstripped : stripped path = ⟨[], path⟩ := by
      rcases path with _ | ⟨b, path⟩
      · rfl
      · have hb : b ≠ slash := fun h => hshort _ hpath (h ▸ List.mem_cons_self)
        simp [stripped, hb]
    have hlocated : located ⟨[], path⟩ = ⟨[], path⟩ := if_neg (hshort path hpath)
    rw [hstripped, hlocated]
    exact ⟨rfl, hpath⟩

/-- The pointer to the file name or to the default page. -/
def page (srv : Server) (cwd : List Name) (request : Pointer) : Pointer :=
  if (located request).text = [] then ⟨[], defaultPage srv cwd⟩ else located request

theorem page_text (request : Pointer) :
    (page srv cwd request).text = fileName srv cwd request.text := by
  unfold page fileName
  rw [located_text]
  split
  · rfl
  · exact located_text request

theorem page_apart (path : List UInt8) : Apart (page srv cwd (stripped path)) := by
  unfold page
  split
  · intro b hb
    cases hb
  · exact located_apart path

theorem fits_page (path : List UInt8) : Fits (page srv cwd (stripped path)) ↔
    (lastPart (stripped path).text ≠ [] → 5 ≤ path.length ∨ path ∈ shortNames) := by
  unfold page
  rw [located_text]
  by_cases hname : lastPart (stripped path).text = []
  · rw [if_pos hname]
    refine iff_of_true (.inl ?_) fun h => absurd hname h
    unfold defaultPage
    split <;> decide
  · rw [if_neg hname, fits_located]
    exact ⟨fun h _ => h, fun h => h hname⟩

/-- What has been located passes the last tests. -/
theorem serveIn_located (hparts : dotdot ∉ (stripped (requestPath request)).text.splitOn slash) :
    serveIn srv type header cwd (located (stripped (requestPath request))) =
      serve srv type header cwd (page srv cwd (stripped (requestPath request))) := by
  have hname := located_text (stripped (requestPath request))
  unfold serveIn page
  rw [if_neg]
  · split <;> rfl
  · rw [hname]
    rintro (h | h | h)
    · exact hparts (h ▸ lastPart_mem)
    · exact slash_notMem_lastPart h
    · exact backslash_notMem_stripped ((List.rtakeWhile_suffix _ _).mem h)

theorem names_of_directory (hdir : srv.tree.entry cwd = some .directory) :
    ∀ n ∈ cwd, n ≠ [] ∧ slash ∉ n := by
  have hnames := srv.tree.names cwd (by rw [hdir]; rfl)
  exact fun n hn => ⟨(hnames n hn).1, (hnames n hn).2.1⟩

/-- The directory that is changed to is accepted or forbidden by its names. -/
theorem remainsInside_chdir {dir : List UInt8}
    (h : srv.tree.chdir srv.startupDir dir = some cwd) :
    remainsInside (canonicalText cwd) (canonicalText srv.startupDir) = true ↔
      Accepted srv.startupDir cwd := by
  have hdir : srv.tree.entry cwd = some .directory := by
    simpa using (Option.filter_eq_some_iff.mp h).2
  exact remainsInside_iff (names_of_directory srv.isDir) (names_of_directory hdir)

/-- How a request goes. -/
theorem executeHTTPrequest_eq : executeHTTPrequest srv type header request =
    if hasDrive (stripped (requestPath request)).text then .value forbidden
    else if dotdot ∈ (stripped (requestPath request)).text.splitOn slash then
      .value forbidden
    else if (requestPath request).length < 3 then .undefined
    else
      match changeDirectory srv (stripped (requestPath request)) with
      | .inl handled => .value handled
      | .inr (cwd, request) => serveIn srv type header cwd request := by
  unfold executeHTTPrequest
  simp only [traverses_eq (stripped_eq (requestPath request)).1, stripped_length]
  split
  · rfl
  · split
    · rfl
    · split <;> rfl

/-- A request that is served. -/
theorem execute_served (hlong : 3 ≤ (requestPath request).length)
    (h : ServedFrom srv (stripped (requestPath request)).text cwd) :
    executeHTTPrequest srv type header request =
      serve srv type header cwd (page srv cwd (stripped (requestPath request))) := by
  obtain ⟨hdrive, hparts, hdir⟩ := h
  have hchange : changeDirectory srv (stripped (requestPath request)) =
      .inr (cwd, located (stripped (requestPath request))) := by
    unfold changeDirectory located
    rcases hdir with ⟨hslash, rfl⟩ | ⟨hslash, hchdir, haccepted⟩
    · rw [if_neg hslash, if_neg hslash]
    · rw [if_pos hslash, if_pos hslash, hchdir]
      exact if_pos ((remainsInside_chdir hchdir).mpr haccepted)
  rw [executeHTTPrequest_eq, hdrive, if_neg Bool.false_ne_true, if_neg hparts,
    if_neg (by omega), hchange]
  exact serveIn_located hparts

/-- A request with a directory that is not accepted. -/
theorem execute_refused (hlong : 3 ≤ (requestPath request).length)
    (hdrive : hasDrive (stripped (requestPath request)).text = false)
    (hparts : dotdot ∉ (stripped (requestPath request)).text.splitOn slash)
    (hslash : slash ∈ (stripped (requestPath request)).text)
    (hchdir : srv.tree.chdir srv.startupDir
      (directoryPart (stripped (requestPath request)).text) = some cwd)
    (haccepted : ¬ Accepted srv.startupDir cwd) :
    executeHTTPrequest srv type header request = .value forbidden := by
  have hchange : changeDirectory srv (stripped (requestPath request)) = .inl forbidden := by
    unfold changeDirectory
    rw [if_pos hslash, hchdir]
    exact if_neg ((remainsInside_chdir hchdir).not.mpr haccepted)
  rw [executeHTTPrequest_eq, hdrive, if_neg Bool.false_ne_true, if_neg hparts,
    if_neg (by omega), hchange]

/-- A request with a directory that does not exist. -/
theorem execute_missing (hlong : 3 ≤ (requestPath request).length)
    (hdrive : hasDrive (stripped (requestPath request)).text = false)
    (hparts : dotdot ∉ (stripped (requestPath request)).text.splitOn slash)
    (hslash : slash ∈ (stripped (requestPath request)).text)
    (hchdir : srv.tree.chdir srv.startupDir
      (directoryPart (stripped (requestPath request)).text) = none) :
    executeHTTPrequest srv type header request = .value ⟨.message 404 error404, []⟩ := by
  have hchange : changeDirectory srv (stripped (requestPath request)) =
      .inl ⟨.message 404 error404, []⟩ := by
    unfold changeDirectory
    rw [if_pos hslash, hchdir]
  rw [executeHTTPrequest_eq, hdrive, if_neg Bool.false_ne_true, if_neg hparts,
    if_neg (by omega), hchange]

theorem execute_forbidden (h : hasDrive (stripped (requestPath request)).text = true ∨
    dotdot ∈ (stripped (requestPath request)).text.splitOn slash) :
    executeHTTPrequest srv type header request = .value forbidden := by
  rw [executeHTTPrequest_eq]
  rcases h with hdrive | hparts
  · rw [if_pos hdrive]
  · rw [if_pos hparts]
    split <;> rfl

/-- A request with a short path, unless it is forbidden. -/
theorem long_of_value {handled : Handled}
    (h : executeHTTPrequest srv type header request = .value handled) :
    hasDrive (stripped (requestPath request)).text = true ∨
      dotdot ∈ (stripped (requestPath request)).text.splitOn slash ∨
      3 ≤ (requestPath request).length := by
  rw [executeHTTPrequest_eq] at h
  split at h
  · rename_i hdrive
    exact .inl hdrive
  · split at h
    · rename_i hparts
      exact .inr (.inl hparts)
    · split at h
      · cases h
      · exact .inr (.inr (by omega))

theorem forbidden_reply : forbidden.reply = .message 403 "Forbidden" := rfl

theorem Contained.confined (h : Contained srv type header request) :
    Confined srv type header request := by
  obtain ⟨handled, hrun, hinside, hnot⟩ := h
  have hlong := long_of_value hrun
  have hserve : ∀ cwd, ServedFrom srv (stripped (requestPath request)).text cwd →
      serve srv type header cwd (page srv cwd (stripped (requestPath request))) =
        .value handled := by
    intro cwd hserved
    have hthree : 3 ≤ (requestPath request).length := by
      rcases hlong with hdrive | hparts | hthree
      · rw [hserved.1] at hdrive
        cases hdrive
      · exact absurd hparts hserved.2.1
      · exact hthree
    rw [← hrun, execute_served hthree hserved]
  refine ⟨hlong, ?_, ?_, ?_⟩
  · intro htype cwd hserved
    have hfits := (serve_defined_iff (page_apart _)).mp ⟨handled, hserve cwd hserved⟩ htype
    exact (fits_page _).mp hfits
  · intro cwd hserved
    rw [← page_text, ← serve_inside_iff (page_apart _) (hserve cwd hserved)]
    exact hinside
  · intro hparts file hfile hin
    have hreply := hnot hparts file hfile hin
    have hdrive : hasDrive (stripped (requestPath request)).text = false := by
      rw [← Bool.not_eq_true]
      intro hdrive
      rw [execute_forbidden (.inl hdrive)] at hrun
      exact hreply (Outcome.value.inj hrun ▸ forbidden_reply)
    have hthree : 3 ≤ (requestPath request).length := by
      rcases hlong with h | h | hthree
      · rw [hdrive] at h
        cases h
      · exact absurd h hparts
      · exact hthree
    refine ⟨hdrive, fun hslash cwd hchdir => ?_⟩
    by_contra haccepted
    rw [execute_refused hthree hdrive hparts hslash hchdir haccepted] at hrun
    exact hreply (Outcome.value.inj hrun ▸ forbidden_reply)

theorem Confined.contained (h : Confined srv type header request) :
    Contained srv type header request := by
  by_cases hrefused : hasDrive (stripped (requestPath request)).text = true ∨
      dotdot ∈ (stripped (requestPath request)).text.splitOn slash
  · refine ⟨forbidden, execute_forbidden hrefused, by simp [forbidden], ?_⟩
    intro hparts file hfile hin
    rcases hrefused with hdrive | hmem
    · rw [(h.accepted hparts file hfile hin).1] at hdrive
      cases hdrive
    · exact absurd hmem hparts
  · obtain ⟨hdrive, hparts⟩ := not_or.mp hrefused
    have hthree : 3 ≤ (requestPath request).length := by
      rcases h.long with hlong | hlong | hlong
      · exact absurd hlong hdrive
      · exact absurd hlong hparts
      · exact hlong
    rw [Bool.not_eq_true] at hdrive
    by_cases hserved : ∃ cwd, ServedFrom srv (stripped (requestPath request)).text cwd
    · obtain ⟨cwd, hserved⟩ := hserved
      have hfits : type = .get ∨ type = .head →
          Fits (page srv cwd (stripped (requestPath request))) := fun htype =>
        (fits_page _).mpr (h.longer htype cwd hserved)
      obtain ⟨handled, hserve⟩ := (serve_defined_iff (page_apart _)).mpr hfits
      refine ⟨handled, (execute_served hthree hserved).trans hserve, ?_, ?_⟩
      · rw [serve_inside_iff (page_apart _) hserve, page_text]
        exact h.inside cwd hserved
      · exact fun _ _ _ _ => serve_reply hserve
    · have hslash : slash ∈ (stripped (requestPath request)).text := by
        by_contra hslash
        exact hserved ⟨_, hdrive, hparts, .inl ⟨hslash, rfl⟩⟩
      cases hchdir : srv.tree.chdir srv.startupDir
          (directoryPart (stripped (requestPath request)).text) with
      | none =>
          refine ⟨_, execute_missing hthree hdrive hparts hslash hchdir, by simp, ?_⟩
          intro _ _ _ _
          simp [error404]
      | some cwd =>
          have haccepted : ¬ Accepted srv.startupDir cwd := fun haccepted =>
            hserved ⟨cwd, hdrive, hparts, .inr ⟨hslash, hchdir, haccepted⟩⟩
          refine ⟨forbidden, execute_refused hthree hdrive hparts hslash hchdir haccepted,
            by simp [forbidden], ?_⟩
          intro _ file hfile hin
          exact absurd ((h.accepted hparts file hfile hin).2 hslash cwd hchdir) haccepted

/-- A request stays inside of the startup directory exactly if its path is not too short for
the comparisons with its end, its last part is not a link that leads outside, and a
directory that holds a file inside is accepted. -/
theorem contained_iff (srv : Server) (type : RequestType) (header : Header)
    (request : List UInt8) :
    Contained srv type header request ↔ Confined srv type header request :=
  ⟨Contained.confined, Confined.contained⟩

end Requests

section Links

variable {srv : Server} {cwd : List Name} {name : Name}

theorem components_name (hname : name ≠ [] ∧ slash ∉ name ∧ name ≠ dot ∧ name ≠ dotdot) :
    components name = [.name name] := by
  obtain ⟨hempty, hslash, hdot, hdotdot⟩ := hname
  rw [components, List.splitOn_eq_singleton hslash]
  simp [hempty, hdot, hdotdot]

end Links

/-- `/www/notes.txt` is a link to `/key`. -/
def linkedEntry (path : List Name) : Option (Entry Name) :=
  if path = [] then some .directory
  else if path = [ascii "www"] then some .directory
  else if path = [ascii "www", ascii "notes.txt"] then some (.link true [.name (ascii "key")])
  else if path = [ascii "key"] then some .file
  else none

theorem linkedEntry_cases {path : List Name} (h : (linkedEntry path).isSome) :
    path = [] ∨ path = [ascii "www"] ∨ path = [ascii "www", ascii "notes.txt"] ∨
      path = [ascii "key"] := by
  rw [linkedEntry] at h
  by_cases hroot : path = []
  · exact .inl hroot
  · by_cases hdir : path = [ascii "www"]
    · exact .inr (.inl hdir)
    · by_cases hlink : path = [ascii "www", ascii "notes.txt"]
      · exact .inr (.inr (.inl hlink))
      · by_cases hkey : path = [ascii "key"]
        · exact .inr (.inr (.inr hkey))
        · rw [if_neg hroot, if_neg hdir, if_neg hlink, if_neg hkey] at h
          cases h

theorem linkedEntry_parent (dir : List Name) (n : Name)
    (h : (linkedEntry (dir ++ [n])).isSome) : linkedEntry dir = some .directory := by
  have hdir : ∀ path, dir ++ [n] = path → dir = path.dropLast := by
    rintro path rfl
    exact List.dropLast_concat.symm
  rcases linkedEntry_cases h with h | h | h | h
  · simp at h
  · exact hdir _ h ▸ rfl
  · exact hdir _ h ▸ rfl
  · exact hdir _ h ▸ rfl

theorem linkedEntry_names (path : List Name) (h : (linkedEntry path).isSome) :
    ∀ n ∈ path, n ≠ [] ∧ slash ∉ n ∧ 0 ∉ n ∧ n ≠ dot ∧ n ≠ dotdot := by
  rcases linkedEntry_cases h with rfl | rfl | rfl | rfl <;> decide

def linkedTree : FileTree where
  entry := linkedEntry
  root := rfl
  parent := linkedEntry_parent
  names := linkedEntry_names

def linkedServer : Server where
  tree := linkedTree
  startupDir := [ascii "www"]
  isDir := rfl
  httpSafe := true
  tempDir := true
  tempfile := none
  shell _ _ := []

theorem linked_reads :
    linkedServer.tree.readable [ascii "www"] (ascii "notes.txt") = some [ascii "key"] := by
  have hcomponents : components (ascii "notes.txt") = [.name (ascii "notes.txt")] :=
    components_name (by decide)
  have hlink : linkedEntry [ascii "www", ascii "notes.txt"] =
      some (.link true [.name (ascii "key")]) := by decide
  have hkey : linkedEntry [ascii "key"] = some .file := by decide
  have hwalk : linkedServer.tree.find [ascii "www"] (ascii "notes.txt") =
      some [ascii "key"] := by
    simp [FileTree.find, hcomponents, symloopMax, walk, linkedServer, linkedTree, hlink, hkey]
  rw [FileTree.readable, hwalk]
  exact Option.filter_some_pos (decide_eq_true hkey)

/-- The page for `GET /notes.txt` is the file outside. -/
theorem link_escapes : ¬ Contained linkedServer .get ⟨0, false, false⟩ (ascii "notes.txt") := by
  rintro ⟨handled, hrun, hinside, -⟩
  have hserve : executeHTTPrequest linkedServer .get ⟨0, false, false⟩ (ascii "notes.txt") =
      serve linkedServer .get ⟨0, false, false⟩ [ascii "www"] ⟨[], ascii "notes.txt"⟩ := rfl
  have hcgi : endsWith ⟨[], ascii "notes.txt"⟩ cgiExtension = .value false := rfl
  have hmedia : getMediaType ⟨[], ascii "notes.txt"⟩ = .value mediaText := rfl
  rw [hserve, serve, hcgi, Outcome.value_bind, if_neg Bool.false_ne_true, hmedia,
    Outcome.value_bind, if_neg (by decide), linked_reads] at hrun
  obtain rfl := Outcome.value.inj hrun
  have hkey : linkedServer.startupDir <+: [ascii "key"] := hinside _ List.mem_cons_self
  exact absurd hkey (by decide)

end NewLispNeo.Http
