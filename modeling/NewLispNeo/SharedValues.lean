/-
A page of shared memory is a register: a read returns the value that was written last.
-/
import NewLispNeo.SharedPage

namespace NewLispNeo

namespace Share

open Pack (lowBytes bytesValue length_lowBytes bytesValue_lowBytes)

/-! ### Bytes in the page -/

section Bytes

variable {page : Page} {s : State} {t u rest : List UInt8}

theorem cString_zero (h : ∀ b ∈ t, b ≠ 0) (rest : List UInt8) : cString (t ++ 0 :: rest) = t := by
  rw [cString, List.takeWhile_append_of_pos fun b hb => by simpa using h b hb,
    List.takeWhile_cons_of_neg (by simp), List.append_nil]

/-- Bytes behind others. -/
theorem put_append (hbytes : page.bytes = t ++ rest) (hlength : u.length ≤ rest.length) :
    ∃ rest', page.put t.length u = .value { page with bytes := t ++ u ++ rest' } ∧
      rest'.length = rest.length - u.length := by
  refine ⟨rest.drop u.length, ?_, List.length_drop⟩
  unfold Page.put
  rw [hbytes, if_pos (by rw [List.length_append]; omega), List.take_left, ← List.drop_drop,
    List.drop_left]

theorem put_zero (hlength : u.length ≤ page.bytes.length) :
    ∃ rest', page.put 0 u = .value { page with bytes := u ++ rest' } ∧
      rest'.length = page.bytes.length - u.length :=
  put_append (t := []) rfl hlength

/-- A string with its terminating zero. -/
theorem put_string (hlength : t.length + 1 ≤ page.bytes.length) :
    ∃ rest, (page.put 0 t >>= fun page => page.put t.length [0]) =
      .value { page with bytes := t ++ 0 :: rest } ∧
      (t ++ 0 :: rest).length = page.bytes.length := by
  obtain ⟨rest₁, hput₁, hrest₁⟩ := @put_zero page t (by omega)
  obtain ⟨rest₂, hput₂, hrest₂⟩ := @put_append { page with bytes := t ++ rest₁ } t [0] rest₁ rfl
    (by rw [hrest₁, List.length_singleton]; omega)
  refine ⟨rest₂, ?_, ?_⟩
  · rw [hput₁, Outcome.value_bind, hput₂, List.append_assoc]
    rfl
  · rw [List.length_append, List.length_cons, hrest₂, hrest₁, List.length_singleton]
    omega

/-- A page with a text has its end. -/
def State.Terminated (s : State) : Prop := s.page.type = .evalString → 0 ∈ s.page.bytes

/-- Only a file can be missing afterwards. -/
theorem checkDeleteShareFile_spec (h : s.Terminated) :
    ∃ files, checkDeleteShareFile s = .value ⟨s.page, files⟩ := by
  unfold checkDeleteShareFile
  by_cases hshare : s.page.type = .evalString ∧ text "/tmp/nls-" <+: s.page.bytes
  · rw [if_pos hshare, Page.text, if_pos (h hshare.1), Outcome.value_bind]
    by_cases hpath : (cString s.page.bytes).length = 45
    · exact ⟨_, by rw [if_pos hpath]⟩
    · exact ⟨s.files, by rw [if_neg hpath]⟩
  · exact ⟨s.files, by rw [if_neg hshare]⟩

end Bytes

/-! ### One value -/

section Step

variable {S : Setting} {m : Nat} {w : Writing} {s : State}

/-- What a read finds of a value: lists, symbols and quotes come back from their text. -/
def stored (cell : Cell) : Cell := if 4 < compareType cell then asRead cell else cell

/-- There is room in the page for the path of a file. -/
structure FitsPath (S : Setting) (m : Nat) (uuid : List UInt8) : Prop where
  noZero : ∀ b ∈ S.tempDir ++ uuid, b ≠ 0
  tempDir_le : S.tempDir.length ≤ S.pathMax - 16
  pathMax_le : S.pathMax - 16 ≤ m
  path_lt : S.tempDir.length + 5 + uuid.length < m

/-- The text of a value can be read, and is in the page or in a file. -/
structure ShareableText (S : Setting) (m : Nat) (w : Writing) : Prop where
  isData : IsData S.locale S.printing.table w.cell
  fits : m - 8 ≤ (w.out S).length → FitsPath S m w.uuid

/-- What can be shared in a page with room for `m` bytes: bigints are refused. -/
def Shareable (S : Setting) (m : Nat) (w : Writing) : Prop :=
  match w.cell with
  | .nil | .true_ | .long _ | .float _ => True
  | .string str => m - 8 < str.length → ShareableText S m w
  | .bigint _ => False
  | _ => ShareableText S m w

/-- The cell is read, if there are the cells for reading it where it is a text. -/
def IsRead (S : Setting) (cell : Cell) (s : State) : Prop :=
  ∃ n, ∀ fuel, n ≤ fuel → ∀ room,
    (s.page.type = .evalString → cellsTaken S.atoms cell ≤ room) →
      readShared S room fuel s = .value cell

/-- A value was written: the page is as long as before, and it is read from it. -/
structure Written (S : Setting) (m : Nat) (cell : Cell) (s : State) : Prop where
  terminated : s.Terminated
  length : s.page.bytes.length = m
  read : IsRead S cell s

theorem writeSharedWord_spec (hm : 8 ≤ m) (hs : s.page.bytes.length = m) (type : PageType)
    {v : Nat} (hv : v < 2 ^ 64) : ∃ s', writeSharedWord type v s = .value s' ∧
      s'.page.type = type ∧ s'.page.bytes.length = m ∧ bytesValue (s'.page.bytes.take 8) = v := by
  have hlength := length_lowBytes 8 v
  obtain ⟨rest, hput, hrest⟩ := @put_zero s.page (lowBytes 8 v) (by omega)
  refine ⟨_, by rw [writeSharedWord, hput, Outcome.value_bind], rfl, ?_, ?_⟩
  · simp only [List.length_append, hrest]
    omega
  · rw [List.take_left' hlength, bytesValue_lowBytes]
    exact Nat.mod_eq_of_lt hv

theorem writeShareFile_spec (hs : s.Terminated) (hm : s.page.bytes.length = m)
    (hfits : FitsPath S m w.uuid) : ∃ s', writeShareFile S w s = .value s' ∧
      s'.page.bytes.length = m ∧ s'.page.size = s.page.size ∧ 0 ∈ s'.page.bytes ∧
      s'.files (cString s'.page.bytes) = some (w.out S) := by
  obtain ⟨files, hfiles⟩ := checkDeleteShareFile_spec hs
  have hdir : S.tempDir.take (S.pathMax - 16) = S.tempDir :=
    List.take_of_length_le hfits.tempDir_le
  have hle := hfits.tempDir_le
  have hmax := hfits.pathMax_le
  have hlt := hfits.path_lt
  have hnls : (text "/nls-").length = 5 := rfl
  -- the page is filled with zeros, and then the path is put together
  let page : Page := { s.page with bytes := List.replicate m 0 }
  obtain ⟨rest₁, hput₁, hrest₁⟩ := @put_zero page
    (S.tempDir ++ List.replicate (S.pathMax - 16 - S.tempDir.length) 0) (by
      simp only [page, List.length_append, List.length_replicate]
      omega)
  obtain ⟨rest₂, hput₂, hrest₂⟩ := @put_append ⟨page.type, page.size,
      S.tempDir ++ List.replicate (S.pathMax - 16 - S.tempDir.length) 0 ++ rest₁⟩ S.tempDir
    (text "/nls-" ++ [0]) _ (List.append_assoc ..) (by
      simp only [page, List.length_append, List.length_replicate, hrest₁, hnls,
        List.length_singleton]
      omega)
  obtain ⟨rest₃, hput₃, hrest₃⟩ := @put_append ⟨page.type, page.size,
      S.tempDir ++ (text "/nls-" ++ [0]) ++ rest₂⟩ (S.tempDir ++ text "/nls-") (w.uuid ++ [0])
    (0 :: rest₂)
    (by simp only [List.append_assoc, List.singleton_append]) (by
      simp only [page, List.length_append, List.length_replicate, List.length_cons, hrest₁, hrest₂,
        hnls, List.length_nil]
      omega)
  rw [List.length_append, hnls] at hput₃
  have hpath : S.tempDir ++ text "/nls-" ++ (w.uuid ++ [0]) ++ rest₃ =
      (S.tempDir ++ text "/nls-" ++ w.uuid) ++ 0 :: rest₃ := by
    simp only [List.append_assoc, List.singleton_append]
  rw [hpath] at hput₃
  have hzero : ∀ b ∈ S.tempDir ++ text "/nls-" ++ w.uuid, b ≠ 0 := by
    refine noZero_append (noZero_append (fun b hb => ?_) (noZero_of_all rfl)) fun b hb => ?_
    · exact hfits.noZero b (List.mem_append_left _ hb)
    · exact hfits.noZero b (List.mem_append_right _ hb)
  refine ⟨⟨{ page with bytes := (S.tempDir ++ text "/nls-" ++ w.uuid) ++ 0 :: rest₃ },
    Function.update files (S.tempDir ++ text "/nls-" ++ w.uuid) (some (w.out S))⟩, ?_, ?_, rfl,
    by simp, by dsimp only; rw [cString_zero hzero, Function.update_self]⟩
  · unfold writeShareFile
    rw [hfiles, Outcome.value_bind]
    dsimp only
    rw [hdir, hm, hput₁, Outcome.value_bind, hput₂, Outcome.value_bind, hput₃, Outcome.value_bind,
      Page.text, if_pos (by simp), Outcome.value_bind, cString_zero hzero]
  · simp only [page, List.length_append, List.length_replicate, List.length_cons, hrest₁, hrest₂,
      hrest₃, hnls, List.length_nil]
    omega

theorem writeShareText_spec (hs : s.Terminated) (hm : s.page.bytes.length = m) (h9 : 9 ≤ m)
    (hsize : s.page.size = (w.out S).length) (hzero : ∀ b ∈ w.out S, b ≠ 0)
    (hfits : m - 8 ≤ (w.out S).length → FitsPath S m w.uuid) :
    ∃ s', writeShareText S w s = .value s' ∧ s'.page.bytes.length = m ∧
      s'.page.size = (w.out S).length ∧ 0 ∈ s'.page.bytes ∧
      if (w.out S).length < m - 8 then cString s'.page.bytes = w.out S
      else s'.files (cString s'.page.bytes) = some (w.out S) := by
  unfold writeShareText
  rw [Page.limit, hm, hsize]
  by_cases hinline : (w.out S).length < m - 8
  · obtain ⟨rest, hput, hlength⟩ := @put_string s.page (w.out S) (by omega)
    refine ⟨⟨⟨s.page.type, (w.out S).length, w.out S ++ 0 :: rest⟩, s.files⟩, ?_, ?_, rfl,
      by simp, by rw [if_pos hinline, cString_zero hzero]⟩
    · rw [if_pos hinline, ← Outcome.bind_assoc, hput, ← hsize]
      rfl
    · exact hlength.trans hm
  · obtain ⟨s', hwrite, hlength, hsize', hterm, hfile⟩ :=
      writeShareFile_spec hs hm (hfits (by omega))
    rw [if_neg hinline]
    exact ⟨s', hwrite, hlength, hsize'.trans hsize, hterm, by rw [if_neg hinline]; exact hfile⟩

theorem writeSharedCell_word (hm : s.page.bytes.length = m) (h9 : 9 ≤ m) {type : PageType} {v : Nat}
    (hv : v < 2 ^ 64) {cell : Cell} (hread : ∀ room fuel s', s'.page.type = type →
      bytesValue (s'.page.bytes.take 8) = v → readShared S room fuel s' = .value cell)
    (htype : type ≠ .evalString) :
    ∃ s', writeSharedWord type v s = .value s' ∧ Written S m cell s' := by
  obtain ⟨s', hwrite, htype', hlength, hvalue⟩ := writeSharedWord_spec (by omega) hm type hv
  refine ⟨s', hwrite, fun h => absurd (htype'.symm.trans h) htype, hlength, 0,
    fun fuel _ room _ => ?_⟩
  exact hread room fuel s' htype' hvalue

theorem writeSharedCell_string (hm : s.page.bytes.length = m) (h9 : 9 ≤ m) {str : List UInt8}
    (hlength : str.length ≤ m - 8) : ∃ s', (s.page.put 0 str >>= fun page =>
      page.put str.length [0] >>= fun page =>
        .value { s with page := { page with type := .string, size := str.length } }) = .value s' ∧
      Written S m (.string str) s' := by
  obtain ⟨rest, hput, hbytes⟩ := @put_string s.page str (by omega)
  refine ⟨_, by rw [← Outcome.bind_assoc, hput]; rfl, fun h => (by cases h), hbytes.trans hm, 0,
    fun fuel _ room _ => ?_⟩
  have hend : str.length + 1 ≤ (str ++ 0 :: rest).length := by
    rw [hbytes]
    omega
  simp only [readShared, if_pos hend, List.take_left]

/-! ### Any number of values -/

/-- The values are written one after the other. -/
def writeAll (S : Setting) : List Writing → State → Outcome ShareError State
  | [], s => .value s
  | w :: ws, s => do
      let s ← writeShared S w s
      writeAll S ws s

end Step

/-- A fresh page with room for 64 bytes. -/
def smallState : State := ⟨⟨.other, 0, List.replicate 64 0⟩, fun _ => none⟩

def smallSetting : Setting := ⟨smallPrinting, smallLocale, text "/tmp", 4096, fun _ => 1⟩

def smallWriting (cell : Cell) : Writing := ⟨cell, ⟨[], 0, 0, 0, false, false⟩, []⟩

end Share

end NewLispNeo
