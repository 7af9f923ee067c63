/-
Depth-first walks over vertices that are found through links, where a link says by
which root to enter its vertex and the entered vertices are kept in a table of a
bounded size.
-/
import Mathlib.Data.List.Infix

namespace BoundedWalk

universe u v

variable {C : Type u} {R : Type v}

/-- The table with one more vertex, if it has room. -/
def record (cap : Nat) (table : List C) (d : C) : List C :=
  if table.length < cap then table ++ [d] else table

/-- A walk along links that ends, and enters every vertex by its root: the table
behind it and the links it entered a vertex by, in their order. -/
inductive Walk (cap : Nat) (held : C → List (C × R)) (root : C → R) :
    List C → List (C × R) → List C → List (C × R) → Prop
  | nil {table : List C} : Walk cap held root table [] table []
  | skip {table table' : List C} {link : C × R} {links entered : List (C × R)} :
      link.1 ∈ table → Walk cap held root table links table' entered →
      Walk cap held root table (link :: links) table' entered
  | enter {table table₁ table₂ : List C} {link : C × R}
      {links entered₁ entered₂ : List (C × R)} :
      link.1 ∉ table → link.2 = root link.1 →
      Walk cap held root (record cap table link.1) (held link.1) table₁ entered₁ →
      Walk cap held root table₁ links table₂ entered₂ →
      Walk cap held root table (link :: links) table₂ (link :: entered₁ ++ entered₂)

/-- The links that meet a vertex first, where every vertex met is remembered. -/
inductive Meets (held : C → List (C × R)) :
    List C → List (C × R) → List (C × R) → Prop
  | nil {seen : List C} : Meets held seen [] []
  | skip {seen : List C} {link : C × R} {links first : List (C × R)} :
      link.1 ∈ seen → Meets held seen links first →
      Meets held seen (link :: links) first
  | meet {seen : List C} {link : C × R} {links first₁ first₂ : List (C × R)} :
      link.1 ∉ seen →
      Meets held (seen ++ [link.1]) (held link.1) first₁ →
      Meets held (seen ++ [link.1] ++ first₁.map Prod.fst) links first₂ →
      Meets held seen (link :: links) (link :: first₁ ++ first₂)

/-- Every way on from `d` through vertices outside the table ends, and enters each of
them by its root. -/
inductive Safe (held : C → List (C × R)) (root : C → R) (table : List C) : C → Prop
  | intro {d : C} :
      (∀ link ∈ held d, link.1 ∉ table → link.2 = root link.1) →
      (∀ link ∈ held d, link.1 ∉ table → Safe held root table link.1) →
      Safe held root table d

/-- The vertices that can be reached from links. -/
inductive Met (held : C → List (C × R)) (links : List (C × R)) : C → Prop
  | link {link : C × R} : link ∈ links → Met held links link.1
  | held {d : C} {link : C × R} : Met held links d → link ∈ held d → Met held links link.1

variable {cap : Nat} {held : C → List (C × R)} {root : C → R}
  {table table' seen : List C} {links links' entered first : List (C × R)}

/-- What is entered outside of a table that stays as it is. -/
def Enterable (held : C → List (C × R)) (root : C → R) (table : List C)
    (link : C × R) : Prop :=
  link.1 ∉ table → link.2 = root link.1 ∧ Safe held root table link.1

section Tables

theorem prefix_record (d : C) : table <+: record cap table d := by
  unfold record
  split
  · exact List.prefix_append ..
  · exact List.prefix_rfl

theorem length_record_le (d : C) (h : table.length ≤ cap) :
    (record cap table d).length ≤ cap := by
  unfold record
  split
  · simpa
  · exact h

theorem Walk.extends_table (h : Walk cap held root table links table' entered) :
    table <+: table' := by
  induction h with
  | nil => exact List.prefix_rfl
  | skip hmem hwalk ih => exact ih
  | enter hmem hroot hwalk hrest ih₁ ih₂ => exact (prefix_record _).trans (ih₁.trans ih₂)

theorem Walk.length_le (h : Walk cap held root table links table' entered)
    (hcap : table.length ≤ cap) : table'.length ≤ cap := by
  induction h with
  | nil => exact hcap
  | skip hmem hwalk ih => exact ih hcap
  | enter hmem hroot hwalk hrest ih₁ ih₂ => exact ih₂ (ih₁ (length_record_le _ hcap))

theorem eq_of_prefix_of_full {table table' : List C} (h : table <+: table')
    (hfull : table.length = cap) (hcap : table'.length ≤ cap) : table' = table :=
  (h.eq_of_length_le (hfull ▸ hcap)).symm

theorem Walk.table_eq (h : Walk cap held root table links table' entered)
    (hfull : table.length = cap) : table' = table :=
  eq_of_prefix_of_full h.extends_table hfull (h.length_le hfull.le)

theorem record_of_full {d : C} (hfull : table.length = cap) : record cap table d = table :=
  if_neg (by simp [hfull])

theorem record_of_lt {d : C} (h : table.length < cap) : record cap table d = table ++ [d] :=
  if_pos h

end Tables

section Append

theorem Walk.append {table₁ table₂ : List C} {entered₁ entered₂ : List (C × R)}
    (h : Walk cap held root table links table₁ entered₁)
    (h' : Walk cap held root table₁ links' table₂ entered₂) :
    Walk cap held root table (links ++ links') table₂ (entered₁ ++ entered₂) := by
  induction h with
  | nil => exact h'
  | skip hmem hwalk ih => exact .skip hmem (ih h')
  | enter hmem hroot hwalk hrest ih₁ ih₂ =>
      rw [List.append_assoc]
      exact .enter hmem hroot hwalk (ih₂ h')

theorem Walk.of_append {table₂ : List C} {entered₂ : List (C × R)}
    (h : Walk cap held root table (links ++ links') table₂ entered₂) :
    ∃ table₁ entered₁ entered', Walk cap held root table links table₁ entered₁ ∧
      Walk cap held root table₁ links' table₂ entered' ∧
      entered₂ = entered₁ ++ entered' := by
  generalize hall : links ++ links' = all at h
  induction h generalizing links with
  | nil =>
      obtain ⟨rfl, rfl⟩ := List.append_eq_nil_iff.1 hall
      exact ⟨_, [], [], .nil, .nil, rfl⟩
  | skip hmem hwalk ih =>
      rcases List.append_eq_cons_iff.1 hall with ⟨rfl, rfl⟩ | ⟨links, rfl, hrest⟩
      · exact ⟨_, [], _, .nil, .skip hmem hwalk, rfl⟩
      · obtain ⟨_, _, _, h₁, h₂, rfl⟩ := ih hrest.symm
        exact ⟨_, _, _, .skip hmem h₁, h₂, rfl⟩
  | enter hmem hroot hwalk hrest ih₁ ih₂ =>
      rcases List.append_eq_cons_iff.1 hall with ⟨rfl, rfl⟩ | ⟨links, rfl, htail⟩
      · exact ⟨_, [], _, .nil, .enter hmem hroot hwalk hrest, rfl⟩
      · obtain ⟨_, _, _, h₁, h₂, rfl⟩ := ih₂ htail.symm
        exact ⟨_, _, _, .enter hmem hroot hwalk h₁, h₂, (List.append_assoc ..).symm⟩

end Append

section Entered

theorem Met.trans {d : C} (h : Met held links' d)
    (hlinks : ∀ link ∈ links', Met held links link.1) : Met held links d := by
  induction h with
  | link hmem => exact hlinks _ hmem
  | held _ hmem ih => exact ih.held hmem

/-- The vertex of the link is in the table or among those found. -/
def Covers (table : List C) (found : List (C × R)) (link : C × R) : Prop :=
  link.1 ∈ table ∨ ∃ l ∈ found, l.1 = link.1

theorem Covers.mono {found found' : List (C × R)} {link : C × R}
    (h : Covers table found link) (hsub : ∀ l ∈ found, l ∈ found') : Covers table found' link := by
  rcases h with h | ⟨l, hl, heq⟩
  · exact .inl h
  · exact .inr ⟨l, hsub l hl, heq⟩

/-- What covers the links, and those of its own vertices, covers what can be met. -/
theorem Met.covered {found : List (C × R)} {d : C} (h : Met held links d)
    (hlinks : ∀ link ∈ links, Covers [] found link)
    (hfound : ∀ l ∈ found, ∀ link ∈ held l.1, Covers [] found link) : ∃ l ∈ found, l.1 = d := by
  have hempty : ∀ {link : C × R}, Covers [] found link → ∃ l ∈ found, l.1 = link.1 := by
    rintro link (h | h)
    · cases h
    · exact h
  induction h with
  | link hmem => exact hempty (hlinks _ hmem)
  | held _ hmem ih =>
      obtain ⟨l, hl, rfl⟩ := ih
      exact hempty (hfound l hl _ hmem)

/-- What a walk enters is one of the links, or held by a vertex. -/
theorem Walk.all_of {P : C × R → Prop} (hheld : ∀ d, ∀ link ∈ held d, P link)
    (h : Walk cap held root table links table' entered) (hlinks : ∀ link ∈ links, P link) :
    ∀ link ∈ entered, P link := by
  induction h with
  | nil => simp
  | skip hmem hwalk ih => exact ih fun l hl => hlinks l (List.mem_cons_of_mem _ hl)
  | enter hmem hroot hwalk hrest ih₁ ih₂ =>
      intro link hlink
      rcases List.mem_append.1 hlink with hlink | hlink
      · rcases List.mem_cons.1 hlink with rfl | hlink
        · exact hlinks _ List.mem_cons_self
        · exact ih₁ (hheld _) link hlink
      · exact ih₂ (fun l hl => hlinks l (List.mem_cons_of_mem _ hl)) link hlink

theorem Walk.met (h : Walk cap held root table links table' entered) :
    ∀ link ∈ entered, Met held links link.1 := by
  induction h with
  | nil => simp
  | skip hmem hwalk ih =>
      intro link hlink
      exact (ih link hlink).trans fun l hl => .link (List.mem_cons_of_mem _ hl)
  | enter hmem hroot hwalk hrest ih₁ ih₂ =>
      intro link hlink
      rcases List.mem_append.1 hlink with hlink | hlink
      · rcases List.mem_cons.1 hlink with rfl | hlink
        · exact .link List.mem_cons_self
        · exact (ih₁ link hlink).trans fun l hl => (Met.link List.mem_cons_self).held hl
      · exact (ih₂ link hlink).trans fun l hl => .link (List.mem_cons_of_mem _ hl)

/-- What a walk enters has its root. -/
theorem Walk.root_of_mem (h : Walk cap held root table links table' entered) :
    ∀ link ∈ entered, link.2 = root link.1 := by
  induction h with
  | nil => simp
  | skip hmem hwalk ih => exact ih
  | enter hmem hroot hwalk hrest ih₁ ih₂ =>
      intro link hlink
      rcases List.mem_append.1 hlink with hlink | hlink
      · rcases List.mem_cons.1 hlink with rfl | hlink
        · exact hroot
        · exact ih₁ link hlink
      · exact ih₂ link hlink

/-- A walk adds to the table what it enters. -/
theorem Walk.mem_table (h : Walk cap held root table links table' entered) {d : C}
    (hd : d ∈ table') : d ∈ table ∨ ∃ link ∈ entered, link.1 = d := by
  induction h with
  | nil => exact .inl hd
  | skip hmem hwalk ih => exact ih hd
  | @enter table table₁ table₂ link links entered₁ entered₂ hmem hroot hwalk hrest ih₁ ih₂ =>
      rcases ih₂ hd with hd | ⟨l, hl, rfl⟩
      · rcases ih₁ hd with hd | ⟨l, hl, rfl⟩
        · unfold record at hd
          split at hd
          · rcases List.mem_append.1 hd with hd | hd
            · exact .inl hd
            · exact .inr ⟨link, by simp, (List.mem_singleton.1 hd).symm⟩
          · exact .inl hd
        · exact .inr ⟨l, by simp [hl], rfl⟩
      · exact .inr ⟨l, by simp [hl], rfl⟩

/-- Where a table covers, the one before it does with what the walk enters. -/
theorem Walk.covers_back (h : Walk cap held root table links table' entered)
    {found : List (C × R)} {link : C × R} (hlink : Covers table' found link) :
    Covers table (entered ++ found) link := by
  rcases hlink with hmem | hfound
  · exact Covers.mono (h.mem_table hmem) fun l hl => List.mem_append_left _ hl
  · exact Covers.mono (.inr hfound) fun l hl => List.mem_append_right _ hl

/-- A walk enters what is not in the table, of its links and of what it enters. -/
theorem Walk.covers (h : Walk cap held root table links table' entered) :
    (∀ link ∈ links, Covers table entered link) ∧
      ∀ l ∈ entered, ∀ link ∈ held l.1, Covers table entered link := by
  induction h with
  | nil => simp
  | skip hmem hwalk ih =>
      refine ⟨fun link hlink => ?_, ih.2⟩
      rcases List.mem_cons.1 hlink with rfl | hlink
      · exact .inl hmem
      · exact ih.1 link hlink
  | @enter table table₁ table₂ l links entered₁ entered₂ hmem hroot hwalk hrest ih₁ ih₂ =>
      have hone : Walk cap held root table [l] table₁ (l :: entered₁ ++ []) :=
        .enter hmem hroot hwalk .nil
      rw [List.append_nil] at hone
      have hinside : ∀ {link : C × R}, Covers (record cap table l.1) entered₁ link →
          Covers table (l :: entered₁ ++ entered₂) link := by
        rintro link (hrec | hin)
        · unfold record at hrec
          split at hrec
          · rcases List.mem_append.1 hrec with hold | hnew
            · exact .inl hold
            · exact .inr ⟨l, by simp, (List.mem_singleton.1 hnew).symm⟩
          · exact .inl hrec
        · exact Covers.mono (.inr hin) fun l hl => by simp [hl]
      refine ⟨fun link hlink => ?_, fun m hm link hlink => ?_⟩
      · rcases List.mem_cons.1 hlink with rfl | hlink
        · exact .inr ⟨link, by simp, rfl⟩
        · exact hone.covers_back (ih₂.1 link hlink)
      · rcases List.mem_append.1 hm with hm | hm
        · rcases List.mem_cons.1 hm with rfl | hm
          · exact hinside (ih₁.1 link hlink)
          · exact hinside (ih₁.2 m hm link hlink)
        · exact hone.covers_back (ih₂.2 m hm link hlink)

/-- A walk from an empty table enters the vertices that can be met. -/
theorem Walk.exists_mem_iff (h : Walk cap held root [] links table' entered) (d : C) :
    (∃ link ∈ entered, link.1 = d) ↔ Met held links d := by
  constructor
  · rintro ⟨link, hlink, rfl⟩
    exact h.met link hlink
  · exact fun hd => hd.covered h.covers.1 h.covers.2

end Entered

section Meeting

theorem Meets.not_mem (h : Meets held seen links first) :
    ∀ link ∈ first, link.1 ∉ seen := by
  induction h with
  | nil => simp
  | skip hmem hmeets ih => exact ih
  | meet hmem hmeets hrest ih₁ ih₂ =>
      intro link hlink
      rcases List.mem_append.1 hlink with hlink | hlink
      · rcases List.mem_cons.1 hlink with rfl | hlink
        · exact hmem
        · exact fun hseen => ih₁ link hlink (List.mem_append_left _ hseen)
      · intro hseen
        exact ih₂ link hlink (List.mem_append_left _ (List.mem_append_left _ hseen))

theorem Meets.met (h : Meets held seen links first) : ∀ link ∈ first, Met held links link.1 := by
  induction h with
  | nil => simp
  | skip hmem hmeets ih =>
      intro link hlink
      exact (ih link hlink).trans fun l hl => .link (List.mem_cons_of_mem _ hl)
  | meet hmem hmeets hrest ih₁ ih₂ =>
      intro link hlink
      rcases List.mem_append.1 hlink with hlink | hlink
      · rcases List.mem_cons.1 hlink with rfl | hlink
        · exact .link List.mem_cons_self
        · exact (ih₁ link hlink).trans fun l hl => (Met.link List.mem_cons_self).held hl
      · exact (ih₂ link hlink).trans fun l hl => .link (List.mem_cons_of_mem _ hl)

theorem Meets.covers (h : Meets held seen links first) :
    (∀ link ∈ links, Covers seen first link) ∧
      ∀ l ∈ first, ∀ link ∈ held l.1, Covers seen first link := by
  induction h with
  | nil => simp
  | skip hmem hmeets ih =>
      refine ⟨fun link hlink => ?_, ih.2⟩
      rcases List.mem_cons.1 hlink with rfl | hlink
      · exact .inl hmem
      · exact ih.1 link hlink
  | @meet seen l links first₁ first₂ hmem hmeets hrest ih₁ ih₂ =>
      have hinside : ∀ {link : C × R}, Covers (seen ++ [l.1]) first₁ link →
          Covers seen (l :: first₁ ++ first₂) link := by
        rintro link (hseen | hin)
        · rcases List.mem_append.1 hseen with hold | hnew
          · exact .inl hold
          · exact .inr ⟨l, by simp, (List.mem_singleton.1 hnew).symm⟩
        · exact Covers.mono (.inr hin) fun l hl => by simp [hl]
      have hbehind : ∀ {link : C × R},
          Covers (seen ++ [l.1] ++ first₁.map Prod.fst) first₂ link →
          Covers seen (l :: first₁ ++ first₂) link := by
        rintro link (hseen | hin)
        · rcases List.mem_append.1 hseen with hseen | hfirst
          · exact hinside (.inl hseen)
          · exact hinside (.inr (List.mem_map.1 hfirst))
        · exact Covers.mono (.inr hin) fun l hl => by simp [hl]
      refine ⟨fun link hlink => ?_, fun m hm link hlink => ?_⟩
      · rcases List.mem_cons.1 hlink with rfl | hlink
        · exact .inr ⟨link, by simp, rfl⟩
        · exact hbehind (ih₂.1 link hlink)
      · rcases List.mem_append.1 hm with hm | hm
        · rcases List.mem_cons.1 hm with rfl | hm
          · exact hinside (ih₁.1 link hlink)
          · exact hinside (ih₁.2 m hm link hlink)
        · exact hbehind (ih₂.2 m hm link hlink)

theorem Meets.exists_mem_iff (h : Meets held [] links first) (d : C) :
    (∃ link ∈ first, link.1 = d) ↔ Met held links d := by
  constructor
  · rintro ⟨link, hlink, rfl⟩
    exact h.met link hlink
  · exact fun hd => hd.covered h.covers.1 h.covers.2

/-- Finitely many vertices are all met. -/
theorem Meets.exists_of_finite {all : List C}
    (hheld : ∀ d ∈ all, ∀ link ∈ held d, link.1 ∈ all) (seen : List C)
    (hlinks : ∀ link ∈ links, link.1 ∈ all) : ∃ first, Meets held seen links first := by
  classical
  suffices h : ∀ n seen links, (all.filter (· ∉ seen)).length ≤ n →
      (∀ link ∈ links, link.1 ∈ all) → ∃ first, Meets held seen links first from
    h _ seen links le_rfl hlinks
  intro n
  induction n with
  | zero =>
      intro seen links hn hlinks
      induction links with
      | nil => exact ⟨[], .nil⟩
      | cons link rest ih =>
          obtain ⟨first, hfirst⟩ := ih fun l hl => hlinks l (List.mem_cons_of_mem _ hl)
          refine ⟨first, .skip ?_ hfirst⟩
          by_contra hnot
          have hmem : link.1 ∈ all.filter (· ∉ seen) :=
            List.mem_filter.2 ⟨hlinks link List.mem_cons_self, by simpa using hnot⟩
          rw [List.length_eq_zero_iff.1 (Nat.le_zero.1 hn)] at hmem
          simp at hmem
  | succ n ih =>
      intro seen links hn hlinks
      induction links generalizing seen with
      | nil => exact ⟨[], .nil⟩
      | cons link rest ihrest =>
          have hrest : ∀ l ∈ rest, l.1 ∈ all := fun l hl => hlinks l (List.mem_cons_of_mem _ hl)
          by_cases hseen : link.1 ∈ seen
          · obtain ⟨first, hfirst⟩ := ihrest seen hn hrest
            exact ⟨first, .skip hseen hfirst⟩
          · have hall := hlinks link List.mem_cons_self
            have hless : ∀ more, (all.filter (· ∉ seen ++ [link.1] ++ more)).length ≤ n := by
              intro more
              have hlt : (all.filter (· ∉ seen ++ [link.1] ++ more)).length <
                  (all.filter (· ∉ seen)).length := by
                have hsub : all.filter (· ∉ seen ++ [link.1] ++ more) =
                    (all.filter (· ∉ seen)).filter (· ∉ [link.1] ++ more) := by
                  rw [List.filter_filter]
                  refine List.filter_congr fun x _ => ?_
                  simp only [List.mem_append, List.mem_singleton, not_or, Bool.decide_and,
                    decide_not]
                  ac_rfl
                rw [hsub]
                refine List.length_filter_lt_length_iff_exists.2 ⟨link.1, ?_, by simp⟩
                exact List.mem_filter.2 ⟨hall, by simpa using hseen⟩
              omega
            obtain ⟨first₁, h₁⟩ := ih (seen ++ [link.1]) (held link.1)
              (by simpa using hless []) (hheld _ hall)
            obtain ⟨first₂, h₂⟩ := ih (seen ++ [link.1] ++ first₁.map Prod.fst) rest
              (hless _) hrest
            exact ⟨_, .meet hseen h₁ h₂⟩

end Meeting

section Full

theorem Walk.enter_of_full {link : C × R} {entered₁ entered₂ : List (C × R)}
    (hfull : table.length = cap) (hmem : link.1 ∉ table) (hroot : link.2 = root link.1)
    (hwalk : Walk cap held root table (held link.1) table entered₁)
    (hrest : Walk cap held root table links table entered₂) :
    Walk cap held root table (link :: links) table (link :: entered₁ ++ entered₂) := by
  refine .enter hmem hroot ?_ hrest
  rwa [record_of_full hfull]

/-- With a full table a walk is one that never comes back to what it is in. -/
theorem walk_of_full (hfull : table.length = cap)
    (h : ∀ link ∈ links, Enterable held root table link) :
    ∃ entered, Walk cap held root table links table entered := by
  have henter : ∀ d, Safe held root table d →
      ∃ entered, Walk cap held root table (held d) table entered := by
    intro d hsafe
    induction hsafe with
    | @intro d hheld hsafe ih =>
        generalize held d = links at hheld hsafe ih
        induction links with
        | nil => exact ⟨[], .nil⟩
        | cons link rest ihrest =>
            obtain ⟨entered, hrest⟩ := ihrest
              (fun l hl => hheld l (List.mem_cons_of_mem _ hl))
              (fun l hl => hsafe l (List.mem_cons_of_mem _ hl))
              (fun l hl => ih l (List.mem_cons_of_mem _ hl))
            by_cases hmem : link.1 ∈ table
            · exact ⟨_, .skip hmem hrest⟩
            · obtain ⟨entered₁, hwalk⟩ := ih link List.mem_cons_self hmem
              exact ⟨_, .enter_of_full hfull hmem (hheld link List.mem_cons_self hmem) hwalk hrest⟩
  induction links with
  | nil => exact ⟨[], .nil⟩
  | cons link rest ih =>
      obtain ⟨entered, hrest⟩ := ih fun l hl => h l (List.mem_cons_of_mem _ hl)
      by_cases hmem : link.1 ∈ table
      · exact ⟨_, .skip hmem hrest⟩
      · obtain ⟨hroot, hsafe⟩ := h link List.mem_cons_self hmem
        obtain ⟨entered₁, hwalk⟩ := henter _ hsafe
        exact ⟨_, .enter_of_full hfull hmem hroot hwalk hrest⟩

/-- A link into the table, or one of a full table. -/
def Settled (cap : Nat) (held : C → List (C × R)) (root : C → R) (table : List C)
    (link : C × R) : Prop :=
  link.1 ∈ table ∨ table.length = cap ∧ link.2 = root link.1 ∧ Safe held root table link.1

theorem Settled.mono {link : C × R} (h : Settled cap held root table link)
    (hpre : table <+: table') (hcap : table'.length ≤ cap) :
    Settled cap held root table' link := by
  rcases h with hmem | ⟨hfull, hroot, hsafe⟩
  · exact .inl (hpre.subset hmem)
  · obtain rfl := eq_of_prefix_of_full hpre hfull hcap
    exact .inr ⟨hfull, hroot, hsafe⟩

theorem Settled.enterable {link : C × R} (h : Settled cap held root table link) :
    Enterable held root table link := by
  intro hnot
  rcases h with hmem | ⟨-, hroot, hsafe⟩
  · exact absurd hmem hnot
  · exact ⟨hroot, hsafe⟩

/-- Behind a walk its links, and those of the vertices it adds, are settled. -/
theorem Walk.settled (h : Walk cap held root table links table' entered)
    (hcap : table.length ≤ cap) :
    (∀ link ∈ links, Settled cap held root table' link) ∧
      ∀ d ∈ table', d ∉ table → ∀ link ∈ held d, Settled cap held root table' link := by
  induction h with
  | nil => exact ⟨by simp, fun d hd hnot => absurd hd hnot⟩
  | skip hmem hwalk ih =>
      obtain ⟨hlinks, hheld⟩ := ih hcap
      refine ⟨fun link hlink => ?_, hheld⟩
      rcases List.mem_cons.1 hlink with rfl | hlink
      · exact .inl (hwalk.extends_table.subset hmem)
      · exact hlinks link hlink
  | @enter table table₁ table₂ link links entered₁ entered₂ hmem hroot hwalk hrest ih₁ ih₂ =>
      have hcap₁ := hwalk.length_le (length_record_le _ hcap)
      have hcap₂ := hrest.length_le hcap₁
      obtain ⟨hheld₁, hadded₁⟩ := ih₁ (length_record_le _ hcap)
      obtain ⟨hlinks, hadded₂⟩ := ih₂ hcap₁
      have hentered : ∀ l ∈ held link.1, Settled cap held root table₂ l :=
        fun l hl => (hheld₁ l hl).mono hrest.extends_table hcap₂
      refine ⟨fun l hl => ?_, fun d hd hnot l hl => ?_⟩
      · rcases List.mem_cons.1 hl with rfl | hl
        · by_cases hlt : table.length < cap
          · refine .inl ((hwalk.extends_table.trans hrest.extends_table).subset ?_)
            simp [record_of_lt hlt]
          · refine .inr ⟨?_, hroot, .intro (fun m hm hnot => ((hentered m hm).enterable hnot).1)
              (fun m hm hnot => ((hentered m hm).enterable hnot).2)⟩
            have hfull : table.length = cap := le_antisymm hcap (not_lt.1 hlt)
            have hle := ((prefix_record _).trans
              (hwalk.extends_table.trans hrest.extends_table)).length_le
            exact le_antisymm hcap₂ (hfull ▸ hle)
        · exact hlinks l hl
      · by_cases hd₁ : d ∈ table₁
        · by_cases hd₀ : d ∈ record cap table link.1
          · unfold record at hd₀
            split at hd₀
            · rcases List.mem_append.1 hd₀ with hd₀ | hd₀
              · exact absurd hd₀ hnot
              · obtain rfl := List.mem_singleton.1 hd₀
                exact hentered l hl
            · exact absurd hd₀ hnot
          · exact (hadded₁ d hd₁ hd₀ l hl).mono hrest.extends_table hcap₂
        · exact hadded₂ d hd hd₁ l hl

end Full

section Iff

/-- The table that remembers the vertices first met, as far as it has room. -/
def firstTable (cap : Nat) (seen : List C) (first : List (C × R)) : List C :=
  (seen ++ first.map Prod.fst).take cap

theorem firstTable_cons (link : C × R) (first₁ first₂ : List (C × R)) :
    firstTable cap seen (link :: first₁ ++ first₂) =
      (seen ++ [link.1] ++ first₁.map Prod.fst ++ first₂.map Prod.fst).take cap := by
  simp [firstTable]

/-- Behind a walk the table remembers the vertices first met, and those in it are met
by their root. -/
theorem Walk.meets {all : List C} (hheld : ∀ d ∈ all, ∀ link ∈ held d, link.1 ∈ all)
    (h : Walk cap held root table links table' entered) (hcap : table.length ≤ cap)
    (hlinks : ∀ link ∈ links, link.1 ∈ all) :
    ∃ first, Meets held table links first ∧ table' = firstTable cap table first ∧
      ∀ link ∈ first, link.1 ∈ table' → link.2 = root link.1 := by
  have hstay : ∀ {table links table' entered}, Walk cap held root table links table' entered →
      table.length = cap → (∀ link ∈ links, link.1 ∈ all) →
      ∃ first, Meets held table links first ∧ table' = firstTable cap table first ∧
        ∀ link ∈ first, link.1 ∈ table' → link.2 = root link.1 := by
    intro table links table' entered h hfull hlinks
    obtain ⟨first, hfirst⟩ := Meets.exists_of_finite hheld table hlinks
    obtain rfl := h.table_eq hfull
    refine ⟨first, hfirst, by simp [firstTable, ← hfull], fun link hlink hmem => ?_⟩
    exact absurd hmem (hfirst.not_mem link hlink)
  induction h with
  | nil => exact ⟨[], .nil, by simp [firstTable, List.take_of_length_le hcap], by simp⟩
  | skip hmem hwalk ih =>
      obtain ⟨first, hfirst, htable, hroots⟩ :=
        ih hcap fun l hl => hlinks l (List.mem_cons_of_mem _ hl)
      exact ⟨first, .skip hmem hfirst, htable, hroots⟩
  | @enter table table₁ table₂ link links entered₁ entered₂ hmem hroot hwalk hrest ih₁ ih₂ =>
      by_cases hlt : table.length < cap
      · have hrec := record_of_lt (d := link.1) hlt
        have htail : ∀ l ∈ links, l.1 ∈ all :=
          fun l hl => hlinks l (List.mem_cons_of_mem _ hl)
        have hcap₁ := hwalk.length_le (length_record_le _ hcap)
        obtain ⟨first₁, hfirst₁, htable₁, hroots₁⟩ := ih₁ (length_record_le _ hcap)
          (hheld _ (hlinks link List.mem_cons_self))
        rw [hrec] at hfirst₁ htable₁
        by_cases hfits : (table ++ [link.1] ++ first₁.map Prod.fst).length ≤ cap
        · rw [firstTable, List.take_of_length_le hfits] at htable₁
          obtain ⟨first₂, hfirst₂, htable₂, hroots₂⟩ := ih₂ hcap₁ htail
          rw [htable₁] at hfirst₂
          refine ⟨_, .meet hmem hfirst₁ hfirst₂, ?_, fun l hl hl₂ => ?_⟩
          · rw [htable₂, htable₁, firstTable_cons]
            rfl
          · rcases List.mem_append.1 hl with hl | hl
            · rcases List.mem_cons.1 hl with rfl | hl
              · exact hroot
              · refine hroots₁ l hl ?_
                rw [htable₁]
                exact List.mem_append_right _ (List.mem_map_of_mem hl)
            · exact hroots₂ l hl hl₂
        · have hfull : table₁.length = cap := by
            rw [htable₁, firstTable, List.length_take]
            omega
          obtain rfl := hrest.table_eq hfull
          obtain ⟨first₂, hfirst₂⟩ := Meets.exists_of_finite hheld
            (table ++ [link.1] ++ first₁.map Prod.fst) htail
          refine ⟨_, .meet hmem hfirst₁ hfirst₂, ?_, fun l hl hl₂ => ?_⟩
          · rw [htable₁, firstTable_cons, List.take_append_of_le_length (by omega)]
            rfl
          · rcases List.mem_append.1 hl with hl | hl
            · rcases List.mem_cons.1 hl with rfl | hl
              · exact hroot
              · exact hroots₁ l hl hl₂
            · rw [htable₁] at hl₂
              exact absurd (List.mem_of_mem_take hl₂) (hfirst₂.not_mem l hl)
      · exact hstay (.enter hmem hroot hwalk hrest) (le_antisymm hcap (not_lt.1 hlt)) hlinks

/-- A walk for a table that is final. -/
theorem Meets.walk {final : List C} (h : Meets held seen links first)
    (hcap : seen.length ≤ cap) (hfinal : final.length ≤ cap)
    (hpre : firstTable cap seen first <+: final)
    (hroots : ∀ link ∈ first, link.1 ∈ final → link.2 = root link.1)
    (hheld : ∀ d ∈ final, ∀ link ∈ held d, Enterable held root final link)
    (hlinks : ∀ link ∈ links, Enterable held root final link) :
    ∃ entered, Walk cap held root seen links (firstTable cap seen first) entered := by
  have hstay : ∀ {table links}, table.length = cap → table <+: final →
      (∀ link ∈ links, Enterable held root final link) →
      ∃ entered, Walk cap held root table links table entered := by
    intro table links hfull hpre hlinks
    obtain rfl := eq_of_prefix_of_full hpre hfull hfinal
    exact walk_of_full hfull hlinks
  have hseen : ∀ {seen : List C} {first : List (C × R)}, seen.length ≤ cap →
      seen <+: firstTable cap seen first := by
    intro seen first hcap
    rw [firstTable, List.take_append, List.take_of_length_le hcap]
    exact List.prefix_append ..
  induction h with
  | @nil seen =>
      have hsame : firstTable cap seen ([] : List (C × R)) = seen := by
        simp [firstTable, List.take_of_length_le hcap]
      rw [hsame]
      exact ⟨[], .nil⟩
  | skip hmem hmeets ih =>
      obtain ⟨entered, hwalk⟩ := ih hcap hpre hroots
        fun l hl => hlinks l (List.mem_cons_of_mem _ hl)
      exact ⟨_, .skip hmem hwalk⟩
  | @meet seen link links first₁ first₂ hmem hmeets hrest ih₁ ih₂ =>
      by_cases hlt : seen.length < cap
      · have htail : ∀ l ∈ links, Enterable held root final l :=
          fun l hl => hlinks l (List.mem_cons_of_mem _ hl)
        have hcap₁ : (seen ++ [link.1]).length ≤ cap := by simpa
        rw [firstTable_cons] at hpre
        have hpre₁ : firstTable cap (seen ++ [link.1]) first₁ <+: final := by
          refine List.IsPrefix.trans ?_ hpre
          rw [firstTable]
          exact (List.prefix_append ..).take cap
        have hin : link.1 ∈ final := ((hseen hcap₁).trans hpre₁).subset (by simp)
        have hroot : link.2 = root link.1 := hroots link (by simp) hin
        obtain ⟨entered₁, hwalk⟩ := ih₁ hcap₁ hpre₁
          (fun l hl => hroots l (by simp [hl])) (hheld _ hin)
        have hrec : Walk cap held root (record cap seen link.1) (held link.1)
            (firstTable cap (seen ++ [link.1]) first₁) entered₁ := by
          rwa [record_of_lt hlt]
        rw [firstTable_cons]
        by_cases hfits : (seen ++ [link.1] ++ first₁.map Prod.fst).length ≤ cap
        · have hsame : firstTable cap (seen ++ [link.1]) first₁ =
              seen ++ [link.1] ++ first₁.map Prod.fst := List.take_of_length_le hfits
          obtain ⟨entered₂, hwalk₂⟩ := ih₂ hfits hpre
            (fun l hl => hroots l (by simp [hl])) htail
          rw [hsame] at hrec
          exact ⟨_, .enter hmem hroot hrec hwalk₂⟩
        · have hfull : (firstTable cap (seen ++ [link.1]) first₁).length = cap := by
            rw [firstTable, List.length_take]
            omega
          obtain ⟨entered₂, hwalk₂⟩ := hstay hfull hpre₁ htail
          rw [List.take_append_of_le_length (by omega)]
          exact ⟨_, .enter hmem hroot hrec hwalk₂⟩
      · have hfull : seen.length = cap := le_antisymm hcap (not_lt.1 hlt)
        have hsame : firstTable cap seen (link :: first₁ ++ first₂) = seen := by
          rw [firstTable, List.take_append_of_le_length hfull.ge, ← hfull, List.take_length]
        rw [hsame] at hpre ⊢
        exact hstay hfull hpre hlinks

/-- When the vertices that the table has room for are met by their roots, and the others
can be entered every time they are come by. -/
structure Fits (cap : Nat) (held : C → List (C × R)) (root : C → R)
    (links first : List (C × R)) : Prop where
  meets : Meets held [] links first
  roots : ∀ link ∈ first, link.1 ∈ firstTable cap [] first → link.2 = root link.1
  starts : ∀ link ∈ links, Enterable held root (firstTable cap [] first) link
  others : ∀ d ∈ firstTable cap [] first, ∀ link ∈ held d,
    Enterable held root (firstTable cap [] first) link

/-- A walk ends, and enters every vertex by its root, exactly when its links fit. -/
theorem walk_iff_fits {all : List C} (hheld : ∀ d ∈ all, ∀ link ∈ held d, link.1 ∈ all)
    (hlinks : ∀ link ∈ links, link.1 ∈ all) :
    (∃ table entered, Walk cap held root [] links table entered) ↔
      ∃ first, Fits cap held root links first := by
  constructor
  · rintro ⟨table, entered, hwalk⟩
    obtain ⟨first, hmeets, rfl, hroots⟩ := hwalk.meets hheld (Nat.zero_le _) hlinks
    obtain ⟨hsettled, hadded⟩ := hwalk.settled (Nat.zero_le _)
    refine ⟨first, hmeets, hroots, fun link hlink => (hsettled link hlink).enterable, ?_⟩
    exact fun d hd link hlink => (hadded d hd List.not_mem_nil link hlink).enterable
  · rintro ⟨first, hmeets, hroots, hstarts, hothers⟩
    have hfinal : (firstTable cap [] first).length ≤ cap := List.length_take_le ..
    obtain ⟨entered, hwalk⟩ :=
      hmeets.walk (Nat.zero_le _) hfinal List.prefix_rfl hroots hothers hstarts
    exact ⟨_, entered, hwalk⟩

end Iff

end BoundedWalk
