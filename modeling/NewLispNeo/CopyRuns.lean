/-
A context is copied into another one by `new`, and a symbol by `def-new`.
-/
import NewLispNeo.CopiedCells

namespace NewLispNeo

open RedBlack

section Runs

variable {b : UInt8} {fromContext toContext : Nat} {source target : CopyContext}
  {symbols order order₀ order₁ order₂ done : List Nat} {M M₀ M₁ M₂ : CopyMemory} {s t x y : Nat}

/-- The name of a symbol in a copy: the default symbol becomes the default symbol of the
target. -/
def nameInCopy (source target : CopyContext) (s : Nat) : List UInt8 :=
  if source.table.bytes s = source.name.bytes then target.name.bytes
  else source.table.bytes s

/-- No symbol of the source has the name of the default symbol of the target, if it has a
default symbol itself. -/
def NoClash (source target : CopyContext) (symbols : List Nat) : Prop :=
  ∀ s ∈ symbols, ∀ t ∈ symbols, source.table.bytes s = source.name.bytes →
    source.table.bytes t ≠ target.name.bytes

theorem NoClash.eq_of_name (h : NoClash source target symbols)
    (hsource : SourceContext b fromContext source symbols) (hs : s ∈ symbols) (ht : t ∈ symbols)
    (hname : source.table.bytes t = nameInCopy source target s) : t = s := by
  unfold nameInCopy at hname
  split at hname
  · exact absurd hname (h s hs t ht ‹_›)
  · exact hsource.sorted.unique ht hs hname

theorem NoClash.eq_of_nameInCopy (h : NoClash source target symbols)
    (hsource : SourceContext b fromContext source symbols) (hs : s ∈ symbols) (ht : t ∈ symbols)
    (hname : nameInCopy source target t = nameInCopy source target s) : t = s := by
  by_cases hdefault : source.table.bytes t = source.name.bytes
  · by_cases hdefault' : source.table.bytes s = source.name.bytes
    · exact hsource.sorted.unique ht hs (hdefault.trans hdefault'.symm)
    · have htarget : source.table.bytes s = nameInCopy source target t := by
        rw [hname, nameInCopy, if_neg hdefault']
      exact (h.eq_of_name hsource ht hs htarget).symm
  · refine h.eq_of_name hsource hs ht ?_
    rw [← hname, nameInCopy, if_neg hdefault]

theorem targetName_bytes (hsource : M.context fromContext = source) :
    (targetName fromContext toContext M s).1.bytes =
      nameInCopy source (M.context toContext) s := by
  subst hsource
  unfold targetName nameInCopy
  by_cases hname : (M.context fromContext).table.bytes s = (M.context fromContext).name.bytes
  · have hboth : ((M.context fromContext).table.name s).first =
        (M.context fromContext).name.first ∧ CString.strcmp
          ((M.context fromContext).table.name s).bytes (M.context fromContext).name.bytes = 0 := by
      have hname' : ((M.context fromContext).table.name s).bytes =
        (M.context fromContext).name.bytes := hname
      refine ⟨?_, (CString.strcmp_eq_zero_iff ..).2 hname'⟩
      rw [CString.first, CString.first, hname']
    simp only [if_pos hboth, if_pos hname]
  · have hnot : ¬(((M.context fromContext).table.name s).first =
        (M.context fromContext).name.first ∧ CString.strcmp
          ((M.context fromContext).table.name s).bytes
            (M.context fromContext).name.bytes = 0) :=
      fun h => hname ((CString.strcmp_eq_zero_iff ..).1 h.2)
    simp only [if_neg hnot, if_neg hname]
    rfl

theorem targetName_followedBy (hsource : SourceContext b fromContext source symbols)
    (hcontext : M.context fromContext = source) (hs : s ∈ symbols)
    (hname : (M.context toContext).name.FollowedBy b) :
    (targetName fromContext toContext M s).1.FollowedBy b := by
  unfold targetName
  simp only [hcontext]
  split
  · exact hname
  · exact hsource.sorted.names s hs

/-- The target after the symbols `done` are copied to it. -/
structure CopiedTo (b : UInt8) (fromContext toContext : Nat) (source : CopyContext)
    (symbols : List Nat) (overWriteFlag : Bool) (M₀ : CopyMemory) (order₀ done : List Nat)
    (M : CopyMemory) (order : List Nat) : Prop where
  target : TargetContext b (M.context toContext) order
  others : ∀ c, c ≠ toContext → M.context c = M₀.context c
  name : (M.context toContext).name = (M₀.context toContext).name
  subset : ∀ x ∈ order₀, x ∈ order
  bytes : ∀ x ∈ order₀,
    (M.context toContext).table.bytes x = (M₀.context toContext).table.bytes x
  next : M₀.nextBlock ≤ M.nextBlock
  kept : ∀ x ∈ order₀, (overWriteFlag = true → ∀ s ∈ done,
      nameInCopy source (M₀.context toContext) s ≠ (M₀.context toContext).table.bytes x) →
    (M.context toContext).contents x = (M₀.context toContext).contents x
  copied : ∀ s ∈ done, ∃ x ∈ order,
    (M.context toContext).table.bytes x = nameInCopy source (M₀.context toContext) s ∧
      (x ∈ order₀ → overWriteFlag = true →
        CopyOf fromContext toContext source (M.context toContext) order M₀.nextBlock s x)
  new : ∀ x ∈ order, x ∉ order₀ → ∃ s ∈ symbols,
    ((M.context toContext).table.bytes x = source.table.bytes s ∨
      (M.context toContext).table.bytes x = nameInCopy source (M₀.context toContext) s) ∧
    CopiedSymbol fromContext toContext source (M.context toContext) order M₀.nextBlock s x

theorem CopiedTo.start (overWriteFlag : Bool)
    (h : TargetContext b (M₀.context toContext) order₀) :
    CopiedTo b fromContext toContext source symbols overWriteFlag M₀ order₀ [] M₀ order₀ where
  target := h
  others := fun _ _ => rfl
  name := rfl
  subset := fun _ => id
  bytes := fun _ _ => rfl
  next := Nat.le_refl _
  kept := fun _ _ _ => rfl
  copied := by simp
  new := fun _ hx hnot => absurd hx hnot

/-- The new symbol of a name in a copy is the copy of the source symbol. -/
theorem CopiedTo.new_of_name {overWriteFlag : Bool}
    (h : CopiedTo b fromContext toContext source symbols overWriteFlag M₀ order₀ done M order)
    (hclash : NoClash source (M₀.context toContext) symbols)
    (hsource : SourceContext b fromContext source symbols) (hs : s ∈ symbols)
    (hx : x ∈ order) (hnot : x ∉ order₀)
    (hname : (M.context toContext).table.bytes x =
      nameInCopy source (M₀.context toContext) s) :
    CopiedSymbol fromContext toContext source (M.context toContext) order M₀.nextBlock s x := by
  obtain ⟨t, ht, hbytes, hcopied⟩ := h.new x hx hnot
  rw [hname] at hbytes
  rcases hbytes with hbytes | hbytes
  · rwa [hclash.eq_of_name hsource hs ht hbytes.symm] at hcopied
  · rwa [hclash.eq_of_nameInCopy hsource hs ht hbytes.symm] at hcopied

/-- One more symbol is copied: its target symbol is found or created, and gets a copy of the
contents. -/
theorem CopiedTo.step {overWriteFlag : Bool} {token : CString} {primitive : Bool}
    {cell cell' : CopyCell} (flags : CopyFlags)
    (h : CopiedTo b fromContext toContext source symbols overWriteFlag M₀ order₀ done M order)
    (hclash : NoClash source (M₀.context toContext) symbols)
    (hsource : SourceContext b fromContext source symbols)
    (hdone : ∀ t ∈ done, t ∈ symbols) (hs : s ∈ symbols)
    (hcreated : Created b toContext token primitive M M₁ order order₁ x)
    (htoken : token.bytes = nameInCopy source (M₀.context toContext) s)
    (hcell : source.contents s = some cell)
    (hprimitive : primitive = cell.isPrimitive)
    (hwrite : x ∈ order → overWriteFlag = true)
    (hgrows : Grows b fromContext toContext source symbols M₁ M₂ order₁ order₂)
    (htranslated : Translated fromContext toContext source (M₂.context toContext).table order₂
      cell cell')
    (hblocks : ∀ own ∈ cell'.blocks false, M₁.nextBlock ≤ own) :
    CopiedTo b fromContext toContext source symbols overWriteFlag M₀ order₀ (done ++ [s])
      ((M₂.setContents toContext x cell').setFlags toContext x flags) order₂ := by
  have hin : x ∈ order₁ := (hcreated.mem x).2 (.inl rfl)
  have hold : ∀ y ∈ order, y ∈ order₁ := fun y hy => (hcreated.mem y).2 (.inr hy)
  have hbytes : ∀ y ∈ order, (M₂.context toContext).table.bytes y =
      (M.context toContext).table.bytes y :=
    fun y hy => (hgrows.bytes y (hold y hy)).trans (hcreated.bytes y hy)
  have hcontents : ∀ y ∈ order, (M₂.context toContext).contents y =
      (M.context toContext).contents y :=
    fun y hy => (hgrows.contents y (hold y hy)).trans (hcreated.contents y hy)
  have hblock : ∀ y ∈ order, (M₂.context toContext).symbolBlock y =
      (M.context toContext).symbolBlock y :=
    fun y hy => (hgrows.symbolBlock y (hold y hy)).trans (hcreated.symbolBlock y hy)
  have hname : (M₂.context toContext).table.bytes x =
      nameInCopy source (M₀.context toContext) s :=
    (hgrows.bytes x hin).trans (hcreated.token.trans htoken)
  have hcontext := M₂.context_setFlags_setContents toContext x cell' flags
  have hcopy : CopyOf fromContext toContext source
      { M₂.context toContext with
        contents := Function.update (M₂.context toContext).contents x (some cell')
        flags := Function.update (M₂.context toContext).flags x flags }
      order₂ M₀.nextBlock s x :=
    ⟨cell, cell', hcell, Function.update_self .., htranslated,
      fun own hown => h.next.trans (hcreated.next.trans (hblocks own hown))⟩
  refine ⟨?_, fun c hc => ?_, ?_, fun y hy => hgrows.subset y (hold y (h.subset y hy)),
    fun y hy => ?_, h.next.trans (hcreated.next.trans hgrows.next), fun y hy hother => ?_,
    fun t ht => ?_, fun y hy hnot => ?_⟩
  · rw [hcontext]
    exact hgrows.target.write (hgrows.subset x hin) cell' _
  · rw [M₂.context_setFlags_setContents_of_ne _ _ _ hc, hgrows.others c hc,
      hcreated.others c hc, h.others c hc]
  · rw [hcontext]
    exact hgrows.name.trans (hcreated.name.trans h.name)
  · rw [hcontext]
    exact (hbytes y (h.subset y hy)).trans (h.bytes y hy)
  · rw [hcontext]
    have hyx : y ≠ x := by
      rintro rfl
      refine hother (hwrite (h.subset y hy)) s (by simp) ?_
      rw [← hname, hbytes y (h.subset y hy), h.bytes y hy]
    refine (Function.update_of_ne hyx ..).trans ((hcontents y (h.subset y hy)).trans ?_)
    exact h.kept y hy fun hflag t ht => hother hflag t (by simp [ht])
  · rw [hcontext]
    rcases List.mem_append.1 ht with ht | ht
    · obtain ⟨y, hy, hy', hcopied⟩ := h.copied t ht
      refine ⟨y, hgrows.subset y (hold y hy), (hbytes y hy).trans hy', fun hold' hflag => ?_⟩
      by_cases hyx : y = x
      · subst hyx
        have hsame : t = s := hclash.eq_of_nameInCopy hsource hs (hdone t ht)
          (hy'.symm.trans ((hbytes y hy).symm.trans hname))
        exact hsame ▸ hcopy
      · refine (hcopied hold' hflag).mono (fun z hz => hgrows.subset z (hold z hz)) hbytes ?_
          le_rfl
        exact (Function.update_of_ne hyx ..).trans (hcontents y hy)
    · obtain rfl := List.mem_singleton.1 ht
      exact ⟨x, hgrows.subset x hin, hname, fun _ _ => hcopy⟩
  · rw [hcontext]
    by_cases hyx : y = x
    · subst hyx
      refine ⟨s, hs, .inr hname, hcopy, fun other hother hfalse => ?_⟩
      change M₀.nextBlock ≤ (M₂.context toContext).symbolBlock y
      by_cases hyold : y ∈ order
      · rw [hblock y hyold]
        exact (h.new_of_name hclash hsource hs hyold hnot
          ((hbytes y hyold).symm.trans hname)).name other hother hfalse
      · obtain rfl := Option.some.inj (hcell.symm.trans hother)
        rw [hgrows.symbolBlock y hin]
        exact h.next.trans (hcreated.owned hyold (hprimitive.trans hfalse))
    · by_cases hyold : y ∈ order
      · obtain ⟨t, ht, ht', hcopied⟩ := h.new y hyold hnot
        refine ⟨t, ht, ?_, hcopied.mono (fun z hz => hgrows.subset z (hold z hz)) hbytes ?_
          (hblock y hyold) le_rfl⟩
        · rw [← hbytes y hyold] at ht'
          exact ht'
        · exact (Function.update_of_ne hyx ..).trans (hcontents y hyold)
      · obtain ⟨t, ht, -, ht', hcopied⟩ := hgrows.new y hy fun hy₁ => by
          rcases (hcreated.mem y).1 hy₁ with heq | hold'
          · exact hyx heq
          · exact hyold hold'
        refine ⟨t, ht, .inl ht', hcopied.mono (fun _ => id) (fun _ _ => rfl) ?_ rfl
          (h.next.trans hcreated.next)⟩
        exact Function.update_of_ne hyx ..

/-- A symbol whose name the target has, and which is not written over. -/
theorem CopiedTo.skip (flags : CopyFlags)
    (h : CopiedTo b fromContext toContext source symbols false M₀ order₀ done M order)
    (hx : x ∈ order)
    (hname : (M.context toContext).table.bytes x =
      nameInCopy source (M₀.context toContext) s) :
    CopiedTo b fromContext toContext source symbols false M₀ order₀ (done ++ [s])
      (M.setFlags toContext x flags) order := by
  have hcontext : (M.setFlags toContext x flags).context toContext =
      { M.context toContext with
        flags := Function.update (M.context toContext).flags x flags } :=
    CopyMemory.context_update_self ..
  refine ⟨?_, fun c hc => ?_, ?_, h.subset, ?_, h.next, ?_, fun t ht => ?_, fun y hy hnot => ?_⟩
  · rw [hcontext]
    exact ⟨h.target.sorted, h.target.known, h.target.unused⟩
  · exact (M.context_update_of_ne _ hc).trans (h.others c hc)
  · rw [hcontext]
    exact h.name
  · rw [hcontext]
    exact h.bytes
  · rw [hcontext]
    exact fun y hy _ => h.kept y hy (by simp)
  · rw [hcontext]
    rcases List.mem_append.1 ht with ht | ht
    · obtain ⟨y, hy, hy', -⟩ := h.copied t ht
      exact ⟨y, hy, hy', by simp⟩
    · obtain rfl := List.mem_singleton.1 ht
      exact ⟨x, hx, hname, by simp⟩
  · rw [hcontext]
    obtain ⟨t, ht, ht', hcopied⟩ := h.new y hy hnot
    exact ⟨t, ht, ht', hcopied.copy, hcopied.name⟩

theorem Created.same {token : CString} {primitive : Bool}
    (h : TargetContext b (M.context toContext) order) (hx : x ∈ order)
    (hname : (M.context toContext).table.bytes x = token.bytes) :
    Created b toContext token primitive M M order order x where
  target := h
  others := fun _ _ => rfl
  name := rfl
  mem := fun y => ⟨.inr, by rintro (rfl | hy) <;> assumption⟩
  token := hname
  bytes := fun _ _ => rfl
  contents := fun _ _ => rfl
  symbolBlock := fun _ _ => rfl
  next := Nat.le_refl _
  owned := fun hnot => absurd hx hnot

theorem copySymbol_spec {overWriteFlag : Bool}
    (h : CopiedTo b fromContext toContext source symbols overWriteFlag M₀ order₀ done M order)
    (hne : fromContext ≠ toContext) (hcontext : M₀.context fromContext = source)
    (hclash : NoClash source (M₀.context toContext) symbols)
    (hsource : SourceContext b fromContext source symbols)
    (htarget : (M₀.context toContext).name.FollowedBy b)
    (hdone : ∀ t ∈ done, t ∈ symbols) (hs : s ∈ symbols) :
    ∃ M' order',
      CopiedTo b fromContext toContext source symbols overWriteFlag M₀ order₀ (done ++ [s]) M'
        order' ∧
      ∃ fuel, ∀ k, fuel ≤ k →
        copySymbol fromContext toContext overWriteFlag k s M = some M' := by
  have hfrom : M.context fromContext = source := (h.others _ hne).trans hcontext
  obtain ⟨cell, hcell, hclosed⟩ := hsource.known s hs
  have htoken : (targetName fromContext toContext M s).1.bytes =
      nameInCopy source (M₀.context toContext) s := by
    rw [targetName_bytes hfrom, nameInCopy, nameInCopy, h.name]
  have hfollowed : (targetName fromContext toContext M s).1.FollowedBy b :=
    targetName_followedBy hsource hfrom hs (h.name ▸ htarget)
  obtain ⟨found, hfound, hiff⟩ := lookupSymbol_spec h.target hfollowed
  -- The copy of the contents to a symbol that is there.
  have hcopy : ∀ {x : Nat} {M₁ : CopyMemory} {order₁ : List Nat},
      Created b toContext (targetName fromContext toContext M s).1 cell.isPrimitive M M₁ order
        order₁ x → (x ∈ order → overWriteFlag = true) →
      ∃ cell' M₂ order₂, (∀ flags, CopiedTo b fromContext toContext source symbols overWriteFlag
          M₀ order₀ (done ++ [s])
            ((M₂.setContents toContext x cell').setFlags toContext x flags) order₂) ∧
        M₁.context fromContext = source ∧
        ∃ fuel, ∀ k, fuel ≤ k →
          copyContextCell fromContext toContext k cell M₁ = some (cell', M₂) := by
    intro x M₁ order₁ hcreated hwrite
    have hfrom₁ : M₁.context fromContext = source := (hcreated.others _ hne).trans hfrom
    obtain ⟨cell', M₂, order₂, hgrows, htranslated, hblocks, hrun⟩ :=
      copiesCell hne hsource ⟨hfrom₁, hcreated.target⟩ hclosed
    exact ⟨cell', M₂, order₂, fun flags => h.step flags hclash hsource hdone hs hcreated htoken
      hcell rfl hwrite hgrows htranslated hblocks, hfrom₁, hrun⟩
  cases found with
  | none =>
      obtain ⟨x, M₁, order₁, hcreate, hcreated⟩ := translateCreateSymbol_spec h.target hfollowed
        (targetName fromContext toContext M s).2 cell.isPrimitive
      have hx : x ∉ order := by
        intro hx
        have hname := (hcreated.bytes x hx).symm.trans hcreated.token
        exact absurd ((hiff x).2 ⟨hx, hname⟩) (by simp)
      obtain ⟨cell', M₂, order₂, hstep, hfrom₁, fuel, hrun⟩ :=
        hcopy hcreated fun hold => absurd hold hx
      refine ⟨(M₂.setContents toContext x cell').orProtected fromContext s toContext x, order₂,
        hstep _, fuel, fun k hk => ?_⟩
      simp only [copySymbol, hfrom, hcell, hfound, hcreate, hfrom₁, hrun k hk, Bool.or_true,
        Option.bind_eq_bind, Option.bind_some, Option.pure_def, ↓reduceIte]
  | some x =>
      obtain ⟨hx, hname⟩ := (hiff x).1 rfl
      cases overWriteFlag with
      | true =>
          obtain ⟨cell', M₂, order₂, hstep, hfrom₁, fuel, hrun⟩ :=
            hcopy (.same h.target hx hname) fun _ => rfl
          refine ⟨(M₂.setContents toContext x cell').orProtected fromContext s toContext x,
            order₂, hstep _, fuel, fun k hk => ?_⟩
          simp only [copySymbol, hfrom, hcell, hfound, hrun k hk, Bool.true_or,
            Option.bind_eq_bind, Option.bind_some, Option.pure_def, ↓reduceIte]
      | false =>
          refine ⟨M.orProtected fromContext s toContext x, order,
            h.skip _ hx (hname.trans htoken), 0, fun k _ => ?_⟩
          simp only [copySymbol, hfrom, hcell, hfound, Bool.or_false, Option.bind_eq_bind,
            Option.bind_some, Option.pure_def, Bool.false_eq_true, ↓reduceIte]

/-- The symbols of a tree are copied one after the other. -/
theorem iterateCopyCreateSymbols_spec {overWriteFlag : Bool} {q : Option Nat}
    {tree : ColoredTree Nat}
    (hlinked : source.table.Linked q x tree)
    (h : CopiedTo b fromContext toContext source symbols overWriteFlag M₀ order₀ done M order)
    (hne : fromContext ≠ toContext) (hcontext : M₀.context fromContext = source)
    (hclash : NoClash source (M₀.context toContext) symbols)
    (hsource : SourceContext b fromContext source symbols)
    (htarget : (M₀.context toContext).name.FollowedBy b)
    (hbuiltin : ∀ t ∈ symbols, (source.flags t).builtin = false)
    (hdone : ∀ t ∈ done, t ∈ symbols) (hsub : ∀ t ∈ tree.toList, t ∈ symbols) :
    ∃ M' order',
      CopiedTo b fromContext toContext source symbols overWriteFlag M₀ order₀
        (done ++ tree.toList) M' order' ∧
      ∃ fuel, ∀ k, fuel ≤ k →
        iterateCopyCreateSymbols fromContext toContext overWriteFlag k x M = some M' := by
  induction tree generalizing q x M order done with
  | nil =>
      obtain rfl : x = nilSym := hlinked
      refine ⟨M, order, by simpa [ColoredTree.toList] using h, 1, fun k hk => ?_⟩
      obtain ⟨k, rfl⟩ := Nat.exists_eq_add_of_le' hk
      simp [iterateCopyCreateSymbols]
  | node c l v r ihl ihr =>
      obtain ⟨rfl, hv, -, -, hl, hr⟩ := hlinked
      simp only [ColoredTree.toList, List.mem_append, List.mem_cons] at hsub
      have hx := hsub x (.inr (.inl rfl))
      obtain ⟨M₁, order₁, h₁, fuel₁, hrun₁⟩ := ihl hl h hdone fun t ht => hsub t (.inl ht)
      have hdone₁ : ∀ t ∈ done ++ l.toList, t ∈ symbols := by
        intro t ht
        rcases List.mem_append.1 ht with ht | ht
        · exact hdone t ht
        · exact hsub t (.inl ht)
      obtain ⟨M₂, order₂, h₂, fuel₂, hrun₂⟩ :=
        copySymbol_spec h₁ hne hcontext hclash hsource htarget hdone₁ hx
      have hdone₂ : ∀ t ∈ done ++ l.toList ++ [x], t ∈ symbols := by
        intro t ht
        rcases List.mem_append.1 ht with ht | ht
        · exact hdone₁ t ht
        · exact List.mem_singleton.1 ht ▸ hx
      obtain ⟨M₃, order₃, h₃, fuel₃, hrun₃⟩ := ihr hr h₂ hdone₂ fun t ht => hsub t (.inr (.inr ht))
      have hfrom : ∀ {N done' order'}, CopiedTo b fromContext toContext source symbols
          overWriteFlag M₀ order₀ done' N order' → N.context fromContext = source :=
        fun hN => (hN.others _ hne).trans hcontext
      refine ⟨M₃, order₃, by simpa [ColoredTree.toList] using h₃, fuel₁ + fuel₂ + fuel₃ + 1,
        fun k hk => ?_⟩
      obtain ⟨k, rfl⟩ : ∃ k', k = k' + 1 := ⟨k - 1, by omega⟩
      have hgo : x ≠ nilSym ∧ ¬((M.context fromContext).flags x).builtin = true := by
        rw [hfrom h, hbuiltin x hx]
        exact ⟨hv, by simp⟩
      rw [iterateCopyCreateSymbols, if_pos hgo, hfrom h]
      simp only [hrun₁ k (by omega), hrun₂ k (by omega), hfrom h₂, Option.bind_eq_bind,
        Option.bind_some]
      exact hrun₃ k (by omega)

end Runs

/-- Memory that neither a name nor the contents of a source symbol are in. -/
def NotOf (source : CopyContext) (symbols : List Nat) (own : Nat) : Prop :=
  ∀ s ∈ symbols, own ≠ source.symbolBlock s ∧
    ∀ cell, source.contents s = some cell → own ∉ cell.blocks true

/-- The blocks of a source are in use. -/
def InUse (source : CopyContext) (symbols : List Nat) (nextBlock : Nat) : Prop :=
  ∀ s ∈ symbols, source.symbolBlock s < nextBlock ∧
    ∀ cell, source.contents s = some cell → ∀ own ∈ cell.blocks true, own < nextBlock

theorem InUse.notOf {source : CopyContext} {symbols : List Nat} {nextBlock own : Nat}
    (h : InUse source symbols nextBlock) (hown : nextBlock ≤ own) : NotOf source symbols own := by
  intro s hs
  obtain ⟨hname, hcells⟩ := h s hs
  refine ⟨(hname.trans_le hown).ne', fun cell hcell hmem => ?_⟩
  exact Nat.lt_irrefl _ ((hcells cell hcell own hmem).trans_le hown)

/-- The target symbol holds the contents of the source symbol, with the symbols of the
source replaced by those of the target, and shares no memory with the source, that of big
integers left aside. -/
def IndependentCopy (fromContext toContext : Nat) (source target : CopyContext)
    (symbols order : List Nat) (s x : Nat) : Prop :=
  ∃ cell cell', source.contents s = some cell ∧ target.contents x = some cell' ∧
    Translated fromContext toContext source target.table order cell cell' ∧
    ∀ own ∈ cell'.blocks false, NotOf source symbols own

/-- A new symbol with an independent copy, and a name of its own if it has no primitive. -/
def IndependentSymbol (fromContext toContext : Nat) (source target : CopyContext)
    (symbols order : List Nat) (s x : Nat) : Prop :=
  IndependentCopy fromContext toContext source target symbols order s x ∧
    ∀ cell, source.contents s = some cell → cell.isPrimitive = false →
      NotOf source symbols (target.symbolBlock x)

theorem CopyOf.independent {fromContext toContext : Nat} {source target : CopyContext}
    {symbols order : List Nat} {block s x : Nat}
    (h : CopyOf fromContext toContext source target order block s x)
    (huse : InUse source symbols block) :
    IndependentCopy fromContext toContext source target symbols order s x := by
  obtain ⟨cell, cell', hcell, hcell', htranslated, hblocks⟩ := h
  exact ⟨cell, cell', hcell, hcell', htranslated, fun own hown => huse.notOf (hblocks own hown)⟩

theorem CopiedSymbol.independent {fromContext toContext : Nat} {source target : CopyContext}
    {symbols order : List Nat} {block s x : Nat}
    (h : CopiedSymbol fromContext toContext source target order block s x)
    (huse : InUse source symbols block) :
    IndependentSymbol fromContext toContext source target symbols order s x :=
  ⟨h.copy.independent huse, fun cell hcell hprimitive =>
    huse.notOf (h.name cell hcell hprimitive)⟩

/-- The symbols of a context are copied: `M` is the memory before and `M'` behind it. -/
structure ContextCopied (b : UInt8) (fromContext toContext : Nat) (overWriteFlag : Bool)
    (M M' : CopyMemory) (symbols order order' : List Nat) : Prop where
  target : TargetContext b (M'.context toContext) order'
  unchanged : ∀ c, c ≠ toContext → M'.context c = M.context c
  copied : ∀ s ∈ symbols, ∃ x ∈ order',
    (M'.context toContext).table.bytes x =
      nameInCopy (M.context fromContext) (M.context toContext) s ∧
    (x ∉ order ∨ overWriteFlag = true →
      IndependentCopy fromContext toContext (M.context fromContext) (M'.context toContext)
        symbols order' s x)
  new : ∀ x ∈ order', x ∉ order → ∃ s ∈ symbols,
    ((M'.context toContext).table.bytes x =
        nameInCopy (M.context fromContext) (M.context toContext) s ∨
      (M'.context toContext).table.bytes x = (M.context fromContext).table.bytes s) ∧
    IndependentSymbol fromContext toContext (M.context fromContext) (M'.context toContext)
      symbols order' s x
  kept : ∀ x ∈ order, x ∈ order' ∧
    (M'.context toContext).table.bytes x = (M.context toContext).table.bytes x ∧
    ((overWriteFlag = true → ∀ s ∈ symbols,
        nameInCopy (M.context fromContext) (M.context toContext) s ≠
          (M.context toContext).table.bytes x) →
      (M'.context toContext).contents x = (M.context toContext).contents x)

/-- A symbol is copied to `x`, and what it refers to with it. -/
structure SymbolCopied (b : UInt8) (fromContext toContext s x : Nat) (name : CString)
    (M M' : CopyMemory) (symbols order order' : List Nat) : Prop where
  target : TargetContext b (M'.context toContext) order'
  unchanged : ∀ c, c ≠ toContext → M'.context c = M.context c
  mem : x ∈ order'
  name : (M'.context toContext).table.bytes x = name.bytes
  copied : IndependentCopy fromContext toContext (M.context fromContext)
    (M'.context toContext) symbols order' s x
  new : ∀ y ∈ order', y ∉ order → y ≠ x → ∃ t ∈ symbols,
    (M'.context toContext).table.bytes y = (M.context fromContext).table.bytes t ∧
    IndependentSymbol fromContext toContext (M.context fromContext) (M'.context toContext)
      symbols order' t y
  kept : ∀ y ∈ order, y ∈ order' ∧
    (M'.context toContext).table.bytes y = (M.context toContext).table.bytes y ∧
    (y ≠ x → (M'.context toContext).contents y = (M.context toContext).contents y)

section Calls

variable {b : UInt8} {mainContext fromContext toContext : Nat} {M : CopyMemory}
  {symbols order : List Nat}

theorem p_new_spec (overWriteFlag : Bool) (hmain : toContext ≠ mainContext)
    (hne : fromContext ≠ toContext)
    (hsource : SourceContext b fromContext (M.context fromContext) symbols)
    (htarget : TargetContext b (M.context toContext) order)
    (huse : InUse (M.context fromContext) symbols M.nextBlock)
    (hname : (M.context toContext).name.FollowedBy b)
    (hbuiltin : ∀ s ∈ symbols, ((M.context fromContext).flags s).builtin = false)
    (hclash : NoClash (M.context fromContext) (M.context toContext) symbols) :
    ∃ fuel M' order',
      p_new mainContext fromContext toContext overWriteFlag fuel M = some (.ok M') ∧
        ContextCopied b fromContext toContext overWriteFlag M M' symbols order order' := by
  obtain ⟨root, tree, n, htree, -, rfl⟩ := hsource.sorted.tree
  have hroot : (M.context fromContext).table.root.getD nilSym = root := htree.path
  obtain ⟨M', order', h, fuel, hrun⟩ := iterateCopyCreateSymbols_spec htree.tree
    (.start overWriteFlag htarget) hne rfl hclash hsource hname hbuiltin (by simp) fun t ht => ht
  rw [List.nil_append] at h
  refine ⟨fuel, M', order', ?_, h.target, h.others, fun s hs => ?_, fun x hx hnot => ?_,
    fun x hx => ⟨h.subset x hx, h.bytes x hx, h.kept x hx⟩⟩
  · rw [p_new, if_neg hmain, hroot]
    simp only [hrun fuel le_rfl, Option.bind_eq_bind, Option.bind_some, Option.pure_def]
  · obtain ⟨x, hx, hbytes, hcopy⟩ := h.copied s hs
    refine ⟨x, hx, hbytes, fun hcase => ?_⟩
    by_cases hold : x ∈ order
    · exact (hcopy hold (hcase.resolve_left (not_not_intro hold))).independent huse
    · exact (h.new_of_name hclash hsource hs hx hold hbytes).copy.independent huse
  · obtain ⟨s, hs, hbytes, hcopied⟩ := h.new x hx hnot
    exact ⟨s, hs, hbytes.symm, hcopied.independent huse⟩

theorem p_defineNew_spec {s : Nat} {name : CString} (nameBlock : Nat)
    (hmain : toContext ≠ mainContext) (hne : fromContext ≠ toContext)
    (hsource : SourceContext b fromContext (M.context fromContext) symbols)
    (htarget : TargetContext b (M.context toContext) order)
    (huse : InUse (M.context fromContext) symbols M.nextBlock)
    (hs : s ∈ symbols) (hname : name.FollowedBy b) :
    ∃ fuel x M' order',
      p_defineNew mainContext fromContext s name nameBlock toContext fuel M =
          some (.ok (x, M')) ∧
        SymbolCopied b fromContext toContext s x name M M' symbols order order' := by
  obtain ⟨cell, hcell, hclosed⟩ := hsource.known s hs
  obtain ⟨x, M₁, order₁, hcreate, hcreated⟩ :=
    translateCreateSymbol_spec htarget hname nameBlock cell.isPrimitive
  have hfrom₁ := hcreated.others _ hne
  obtain ⟨cell', M₂, order₂, hgrows, htranslated, hblocks, fuel, hrun⟩ :=
    copiesCell hne hsource ⟨hfrom₁, hcreated.target⟩ hclosed
  have hin : x ∈ order₁ := (hcreated.mem x).2 (.inl rfl)
  have hold : ∀ y ∈ order, y ∈ order₁ := fun y hy => (hcreated.mem y).2 (.inr hy)
  have hfrom₂ : (M₂.setContents toContext x cell').context fromContext =
      M.context fromContext :=
    (M₂.context_update_of_ne _ hne).trans ((hgrows.others _ hne).trans hfrom₁)
  refine ⟨fuel, x, (M₂.setContents toContext x cell').setFlags toContext x
    ((M.context fromContext).flags s), order₂, ?_, ?_⟩
  · rw [p_defineNew, if_neg hmain]
    simp only [hcell, hcreate, hfrom₁, hrun fuel le_rfl, hfrom₂, Option.bind_eq_bind,
      Option.bind_some, Option.pure_def]
  have hcontext := M₂.context_setFlags_setContents toContext x cell'
    ((M.context fromContext).flags s)
  refine ⟨?_, fun c hc => ?_, hgrows.subset x hin, ?_, ?_, fun y hy hnot hyx => ?_, fun y hy => ?_⟩
  · rw [hcontext]
    exact hgrows.target.write (hgrows.subset x hin) cell' _
  · rw [M₂.context_setFlags_setContents_of_ne _ _ _ hc, hgrows.others c hc,
      hcreated.others c hc]
  · rw [hcontext]
    exact (hgrows.bytes x hin).trans hcreated.token
  · rw [hcontext]
    exact ⟨cell, cell', hcell, Function.update_self .., htranslated, fun own hown =>
      huse.notOf (hcreated.next.trans (hblocks own hown))⟩
  · rw [hcontext]
    obtain ⟨t, ht, -, hbytes, hcopied⟩ := hgrows.new y hy fun hy₁ => by
      rcases (hcreated.mem y).1 hy₁ with heq | hold'
      · exact hyx heq
      · exact hnot hold'
    refine ⟨t, ht, hbytes, CopiedSymbol.independent ?_ huse⟩
    refine hcopied.mono (fun _ => id) (fun _ _ => rfl) ?_ rfl hcreated.next
    exact Function.update_of_ne hyx ..
  · rw [hcontext]
    refine ⟨hgrows.subset y (hold y hy), (hgrows.bytes y (hold y hy)).trans
      (hcreated.bytes y hy), fun hyx => ?_⟩
    refine (Function.update_of_ne hyx ..).trans ?_
    exact (hgrows.contents y (hold y hy)).trans (hcreated.contents y hy)

/-- `new` copies the symbols of a context other than MAIN into another context, and
`def-new` copies a symbol with all it refers to. -/
theorem context_copied (hmain : toContext ≠ mainContext) (hne : fromContext ≠ toContext)
    (hsource : SourceContext b fromContext (M.context fromContext) symbols)
    (htarget : TargetContext b (M.context toContext) order)
    (huse : InUse (M.context fromContext) symbols M.nextBlock)
    (hname : (M.context toContext).name.FollowedBy b) :
    ((∀ s ∈ symbols, ((M.context fromContext).flags s).builtin = false) →
      NoClash (M.context fromContext) (M.context toContext) symbols →
      ∀ overWriteFlag, ∃ fuel M' order',
        p_new mainContext fromContext toContext overWriteFlag fuel M = some (.ok M') ∧
          ContextCopied b fromContext toContext overWriteFlag M M' symbols order order') ∧
    ∀ s ∈ symbols, ∀ name : CString, name.FollowedBy b → ∀ nameBlock, ∃ fuel x M' order',
      p_defineNew mainContext fromContext s name nameBlock toContext fuel M =
          some (.ok (x, M')) ∧
        SymbolCopied b fromContext toContext s x name M M' symbols order order' :=
  ⟨fun hbuiltin hclash overWriteFlag =>
    p_new_spec overWriteFlag hmain hne hsource htarget huse hname hbuiltin hclash,
    fun _ hs _ hfollowed nameBlock =>
      p_defineNew_spec nameBlock hmain hne hsource htarget huse hs hfollowed⟩

/-- A context with one symbol, which has these contents, and a new context `Bar`. -/
def oneSymbol (context : List UInt8) (hcontext : 0 ∉ context) (name : List UInt8)
    (hname : 0 ∉ name) (cell : CopyCell) : CopyMemory where
  context := fun c =>
    if c = 1 then
      { name := ⟨context, 0, hcontext⟩
        nameBlock := 0
        table :=
          { nodes := fun _ => ⟨⟨name, 0, hname⟩, .black, none, 0, 0⟩
            root := some 1
            fresh := 2 }
        contents := fun x => if x = 1 then some cell else none
        flags := fun _ => .none
        symbolBlock := fun _ => 1 }
    else
      { name := ⟨[66, 97, 114], 0, by decide⟩
        nameBlock := 2
        table :=
          { nodes := fun _ => ⟨⟨[], 0, CString.zero_notMem_nil⟩, .black, none, 0, 0⟩
            root := none
            fresh := 1 }
        contents := fun _ => none
        flags := fun _ => .none
        symbolBlock := fun _ => 0 }
  nextBlock := 4

theorem context_copied_one :
    let M := oneSymbol [70, 111, 111] (by decide) [120] (by decide)
      (.list 0 [.symbol 1 1, .string 3 [104, 105]])
    ∃ fuel M' order', p_new 0 1 2 false fuel M = some (.ok M') ∧
      ContextCopied 0 1 2 false M M' [1] [] order' := by
  intro M
  have hsource : SourceContext 0 1 (M.context 1) [1] := by
    refine ⟨⟨⟨1, .node .black .nil 1 .nil, 1, ?_, .black .nil .nil, rfl⟩, ?_, ?_, ?_⟩, ?_⟩
    · exact ⟨rfl, ⟨rfl, by decide, rfl, rfl, rfl, rfl⟩, by decide, by decide, rfl⟩
    · intro y _ hempty
      cases hempty
    · exact .cons (by simp) .nil
    · decide
    · intro s hs
      obtain rfl := List.mem_singleton.1 hs
      exact ⟨_, rfl, fun _ => List.mem_singleton.2 rfl, trivial, trivial⟩
  have htarget : TargetContext 0 (M.context 2) [] :=
    ⟨⟨⟨nilSym, .nil, 0,
      ⟨rfl, rfl, .nil, by simp [ColoredTree.toList, TreePath.labels], rfl⟩, .nil, rfl⟩, by simp, .nil,
      by decide⟩, by simp, fun _ _ => rfl⟩
  have huse : InUse (M.context 1) [1] M.nextBlock := by
    intro s hs
    obtain rfl := List.mem_singleton.1 hs
    refine ⟨by decide, fun cell hcell => ?_⟩
    obtain rfl := Option.some.inj hcell
    decide
  have hcopied := @context_copied 0 0 1 2 M [1] [] (by decide) (by decide) hsource htarget huse
    (by simp [M, oneSymbol, CString.FollowedBy])
  refine hcopied.1 ?_ ?_ false
  · intro s hs
    rfl
  · intro s hs t ht hdefault
    obtain rfl := List.mem_singleton.1 hs
    exact absurd hdefault (by decide)

/-- The default symbol `Foo:Foo` is copied to `Bar:Bar`. -/
theorem default_symbol_renamed :
    ∃ M', p_new 0 1 2 false 9 (oneSymbol [70, 111, 111] (by decide) [70, 111, 111] (by decide)
        .nil) = some (.ok M') ∧
      (collectSymbols (M'.context 1).table 9 1).map (·.map (M'.context 1).table.bytes) =
        some [[70, 111, 111]] ∧
      (collectSymbols (M'.context 2).table 9 1).map (·.map (M'.context 2).table.bytes) =
        some [[66, 97, 114]] :=
  ⟨_, rfl, rfl, rfl⟩

end Calls

end NewLispNeo
