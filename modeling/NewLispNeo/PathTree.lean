/-
A tree of directories with symbolic links, how a path is followed in it, and what the
text of a path says about its names.
-/
import Mathlib.Data.List.Basic
import Mathlib.Data.List.Infix

namespace PathTree

universe u

/-- A component of a path. -/
inductive Step (ν : Type u) where
  | here | up | name (n : ν)
deriving DecidableEq

inductive Entry (ν : Type u) where
  | file | directory | link (absolute : Bool) (target : List (Step ν))
deriving DecidableEq

/-- What stands at each canonical path: the names from the root on.  A directory is above
everything. -/
structure LinkTree (ν : Type u) where
  entry : List ν → Option (Entry ν)
  root : entry [] = some .directory
  parent : ∀ dir n, (entry (dir ++ [n])).isSome → entry dir = some .directory

section Walk

variable {ν : Type u}

/-- Follow a path from a directory, through at most so many links, to a canonical path.
`create` lets the last name be missing. -/
def walk (tree : LinkTree ν) (create : Bool) (links : ℕ) (dir : List ν) :
    List (Step ν) → Option (List ν)
  | [] => some dir
  | .here :: rest => walk tree create links dir rest
  | .up :: rest => walk tree create links dir.dropLast rest
  | .name n :: rest =>
      match tree.entry (dir ++ [n]) with
      | some .directory => walk tree create links (dir ++ [n]) rest
      | some .file => if rest.isEmpty then some (dir ++ [n]) else none
      | some (.link absolute target) =>
          match links with
          | 0 => none
          | links + 1 =>
              walk tree create links (if absolute then [] else dir) (target ++ rest)
      | none => if create && rest.isEmpty then some (dir ++ [n]) else none
termination_by steps => (links, steps.length)

end Walk

section Text

variable {α : Type u} {sep : α}

/-- The text of some names, each behind a separator. -/
def spell (sep : α) (names : List (List α)) : List α := names.flatMap (sep :: ·)

@[simp] theorem spell_nil : spell sep [] = [] := rfl

@[simp] theorem spell_cons (n : List α) (names : List (List α)) :
    spell sep (n :: names) = sep :: n ++ spell sep names := rfl

/-- A word is one of the parts of a text, seen from its place in the text. -/
theorem exists_of_mem_parts (sep : α) {word : List α} {parts : List (List α)}
    (h : word ∈ parts) :
    ∃ l r, [sep].intercalate parts = l ++ word ++ r ∧ (l = [] ∨ ∃ l', l = l' ++ [sep]) ∧
      (r = [] ∨ ∃ r', r = sep :: r') := by
  induction parts with
  | nil => cases h
  | cons part parts ih =>
      rcases parts with _ | ⟨next, parts⟩
      · obtain rfl := List.mem_singleton.mp h
        exact ⟨[], [], by simp, .inl rfl, .inl rfl⟩
      · have hcons : [sep].intercalate (part :: next :: parts) =
            part ++ sep :: [sep].intercalate (next :: parts) := by
          simp [List.intercalate_cons_of_ne_nil]
        rcases List.mem_cons.mp h with rfl | h
        · exact ⟨[], sep :: [sep].intercalate (next :: parts), by simp [hcons], .inl rfl,
            .inr ⟨_, rfl⟩⟩
        · obtain ⟨l, r, htext, hl, hr⟩ := ih h
          refine ⟨part ++ sep :: l, r, by simp [hcons, htext], .inr ?_, hr⟩
          rcases hl with rfl | ⟨l', rfl⟩
          · exact ⟨part, rfl⟩
          · exact ⟨part ++ sep :: l', by simp⟩

/-- Whether a word is one of the parts of a text can be read off the text. -/
theorem mem_splitOn_iff [DecidableEq α] {word text : List α} (hword : sep ∉ word) :
    word ∈ text.splitOn sep ↔ text = word ∨ word ++ [sep] <+: text ∨
      sep :: (word ++ [sep]) <:+: text ∨ sep :: word <:+ text := by
  constructor
  · intro h
    obtain ⟨l, r, htext, hl, hr⟩ := exists_of_mem_parts sep h
    rw [List.intercalate_splitOn] at htext
    rcases hl with rfl | ⟨l, rfl⟩
    · rcases hr with rfl | ⟨r, rfl⟩
      · exact .inl (by simpa using htext)
      · exact .inr (.inl ⟨r, by simp [htext]⟩)
    · rcases hr with rfl | ⟨r, rfl⟩
      · exact .inr (.inr (.inr ⟨l, by simp [htext]⟩))
      · exact .inr (.inr (.inl ⟨l, r, by simp [htext]⟩))
  · have hsingle : word.splitOn sep = [word] := List.splitOn_eq_singleton hword
    rintro (rfl | ⟨r, rfl⟩ | ⟨l, r, rfl⟩ | ⟨l, rfl⟩)
    · simp [hsingle]
    · rw [List.append_assoc, List.singleton_append, List.splitOn_append_cons_self, hsingle]
      exact List.mem_append_left _ List.mem_cons_self
    · have hshape : l ++ sep :: (word ++ [sep]) ++ r = l ++ sep :: (word ++ sep :: r) := by
        simp
      rw [hshape, List.splitOn_append_cons_self, List.splitOn_append_cons_self, hsingle]
      exact List.mem_append_right _ (List.mem_append_left _ List.mem_cons_self)
    · rw [List.splitOn_append_cons_self, hsingle]
      exact List.mem_append_right _ List.mem_cons_self

/-- A name without separator that a text begins with is the beginning of its first name. -/
theorem prefix_of_spell {a b : List α} {names : List (List α)} (ha : sep ∉ a)
    (h : a <+: b ++ spell sep names) : a <+: b := by
  rcases List.prefix_or_prefix_of_prefix h (List.prefix_append b _) with h' | ⟨rest, rfl⟩
  · exact h'
  · rw [List.prefix_append_right_inj] at h
    rcases rest with _ | ⟨x, rest⟩
    · simp
    · rcases names with _ | ⟨n, names⟩
      · simp at h
      · rw [spell_cons, List.cons_append, List.cons_prefix_cons] at h
        exact absurd (List.mem_append_right b (h.1 ▸ List.mem_cons_self)) ha

/-- When a text goes on behind a name with `other`, with a separator or not at all: the
name is whole, or the longer name goes on with `other`. -/
def GoesOn (sep other : α) (rest : List α) : Prop :=
  rest.head? = none ∨ rest.head? = some sep ∨ rest.head? = some other

/-- The first names of `names` are `dir`, but the last of them may be longer, from `other`
on. -/
def Extends (other : α) (dir names : List (List α)) : Prop :=
  dir <+: names ∨ ∃ init last w rest, dir = init ++ [last] ∧
    names = init ++ (last ++ other :: w) :: rest

theorem extends_cons {other : α} {a : List α} {dir names : List (List α)} (hdir : dir ≠ []) :
    Extends other (a :: dir) (a :: names) ↔ Extends other dir names := by
  unfold Extends
  rw [List.cons_prefix_cons]
  constructor
  · rintro (⟨-, h⟩ | ⟨init, last, w, rest, heq, hnames⟩)
    · exact .inl h
    · rcases init with _ | ⟨b, init⟩
      · exact absurd (List.cons.inj heq).2 hdir
      · simp only [List.cons_append, List.cons.injEq] at heq hnames
        exact .inr ⟨init, last, w, rest, heq.2, hnames.2⟩
  · rintro (h | ⟨init, last, w, rest, rfl, rfl⟩)
    · exact .inl ⟨rfl, h⟩
    · exact .inr ⟨a :: init, last, w, rest, rfl, rfl⟩

theorem extends_cons_ne {other : α} {a b : List α} {dir names : List (List α)}
    (hdir : dir ≠ []) (h : Extends other (a :: dir) (b :: names)) : a = b := by
  rcases h with h | ⟨init, last, w, rest, heq, hnames⟩
  · exact (List.cons_prefix_cons.mp h).1
  · rcases init with _ | ⟨c, init⟩
    · exact absurd (List.cons.inj heq).2 hdir
    · simp only [List.cons_append, List.cons.injEq] at heq hnames
      exact heq.1.trans hnames.1.symm

/-- One name, against the first of some names. -/
theorem spell_prefix_one {other : α} {a b : List α} {names : List (List α)} (ha : sep ∉ a)
    (hb : sep ∉ b) :
    (∃ rest, b ++ spell sep names = a ++ rest ∧ GoesOn sep other rest) ↔
      b = a ∨ ∃ w, b = a ++ other :: w := by
  constructor
  · rintro ⟨rest, h, hgoes⟩
    obtain ⟨r, rfl⟩ := prefix_of_spell ha ⟨rest, h.symm⟩
    rw [List.append_assoc, List.append_cancel_left_eq] at h
    rcases r with _ | ⟨x, r⟩
    · exact .inl (by simp)
    · rcases hgoes with hgoes | hgoes | hgoes
      · simp [← h] at hgoes
      · simp only [← h, List.cons_append, List.head?_cons, Option.some.injEq] at hgoes
        exact absurd (List.mem_append_right a (hgoes ▸ List.mem_cons_self)) hb
      · simp only [← h, List.cons_append, List.head?_cons, Option.some.injEq] at hgoes
        exact .inr ⟨r, by rw [hgoes]⟩
  · rintro (rfl | ⟨w, rfl⟩)
    · refine ⟨spell sep names, rfl, ?_⟩
      rcases names with _ | ⟨n, names⟩
      · exact .inl rfl
      · exact .inr (.inl rfl)
    · exact ⟨other :: w ++ spell sep names, by simp, .inr (.inr rfl)⟩

theorem extends_one {other : α} {a b : List α} {names : List (List α)} :
    Extends other [a] (b :: names) ↔ b = a ∨ ∃ w, b = a ++ other :: w := by
  constructor
  · rintro (h | ⟨init, last, w, rest, heq, h⟩)
    · exact .inl (List.cons_prefix_cons.mp h).1.symm
    · rcases init with _ | ⟨c, init⟩
      · simp only [List.nil_append, List.cons.injEq, and_true] at heq h
        exact .inr ⟨w, heq ▸ h.1⟩
      · simp at heq
  · rintro (rfl | ⟨w, rfl⟩)
    · exact .inl ⟨names, rfl⟩
    · exact .inr ⟨[], a, w, names, rfl, rfl⟩

/-- What a text prefix that ends at a separator or at `other` says about the names. -/
theorem spell_prefix_iff {other : α} {dir names : List (List α)} (hdir : dir ≠ [])
    (hsep : ∀ n ∈ dir, sep ∉ n) (hsep' : ∀ n ∈ names, sep ∉ n) :
    (∃ rest, spell sep names = spell sep dir ++ rest ∧ GoesOn sep other rest) ↔
      Extends other dir names := by
  induction dir generalizing names with
  | nil => exact absurd rfl hdir
  | cons a dir ih =>
      obtain ⟨ha, hrest⟩ := List.forall_mem_cons.mp hsep
      rcases names with _ | ⟨b, names⟩
      · constructor
        · rintro ⟨rest, h, -⟩
          simp at h
        · rintro (h | ⟨init, last, w, rest, -, h⟩)
          · simp at h
          · simp at h
      obtain ⟨hb, hnames⟩ := List.forall_mem_cons.mp hsep'
      simp only [spell_cons, List.cons_append, List.cons.injEq, true_and, List.append_assoc]
      rcases dir with _ | ⟨d, dir⟩
      · rw [spell_nil, extends_one]
        exact spell_prefix_one ha hb
      · have hne : d :: dir ≠ [] := List.cons_ne_nil d dir
        constructor
        · rintro ⟨rest, h, hgoes⟩
          -- The separator behind `a` is not in `b`, so the two names are one.
          have hone : ∃ rest, b ++ spell sep names = a ++ rest ∧ GoesOn sep sep rest :=
            ⟨spell sep (d :: dir) ++ rest, h, .inr (.inl rfl)⟩
          obtain rfl : b = a := by
            rcases (spell_prefix_one ha hb).mp hone with h | ⟨w, rfl⟩
            · exact h
            · exact absurd (List.mem_append_right a List.mem_cons_self) hb
          rw [extends_cons hne, ← ih hne hrest hnames]
          exact ⟨rest, List.append_cancel_left h, hgoes⟩
        · intro h
          obtain rfl := extends_cons_ne hne h
          rw [extends_cons hne, ← ih hne hrest hnames] at h
          obtain ⟨rest, hrest, hgoes⟩ := h
          exact ⟨rest, by rw [hrest], hgoes⟩

end Text

end PathTree
