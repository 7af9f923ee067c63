/-
Shallow binding: the value of a name is in one place, and a stack keeps the values
that bindings hide.  Assignments are recorded with the binding they change.
-/
import Mathlib.Logic.Function.Basic
import Mathlib.Data.List.Infix

universe u v

/-- The values of names, the hidden values with the innermost binding first, and the
assignments made, the last first, each with the height of the stack at the binding it
changed. -/
structure Bindings (S : Type u) (V : Type v) where
  contents : S → V
  stack : List (V × S)
  assigned : List (S × Nat)

namespace Bindings

variable {S : Type u} {V : Type v} [DecidableEq S]

/-- The height of the stack at the innermost binding of a name, `0` without one. -/
def depth : List (V × S) → S → Nat
  | [], _ => 0
  | (_, t) :: rest, s => if t = s then rest.length + 1 else depth rest s

/-- The values behind these bindings. -/
def uncover : List (V × S) → (S → V) → S → V
  | [], contents => contents
  | (value, s) :: rest, contents => uncover rest (Function.update contents s value)

variable (B : Bindings S V)

/-- The value of a name is put on the stack. -/
def push (s : S) : Bindings S V := { B with stack := (B.contents s, s) :: B.stack }

def set (s : S) (value : V) : Bindings S V :=
  { B with contents := Function.update B.contents s value }

/-- The last value put on the stack goes back to its name. -/
def pop : Option (S × Bindings S V) :=
  match B.stack with
  | [] => none
  | (value, s) :: rest =>
      some (s, { B with contents := Function.update B.contents s value, stack := rest })

/-- All values above a height go back. -/
def recover (height : Nat) : Bindings S V :=
  { B with
    contents := uncover (B.stack.take (B.stack.length - height)) B.contents
    stack := B.stack.drop (B.stack.length - height) }

def assign (s : S) (value : V) : Bindings S V :=
  { B.set s value with assigned := (s, depth B.stack s) :: B.assigned }

/-- The names that are bound by these bindings. -/
def names (bindings : List (V × S)) : List S := bindings.map Prod.snd

variable {B} {B' B'' : Bindings S V} {bindings rest : List (V × S)}
  {contents contents' : S → V} {s : S} {value : V}

section Depth

theorem depth_cons (t : S) : depth ((value, t) :: rest) s =
    if t = s then rest.length + 1 else depth rest s := rfl

theorem depth_le (bindings : List (V × S)) (s : S) : depth bindings s ≤ bindings.length := by
  induction bindings with
  | nil => exact Nat.le_refl _
  | cons binding rest ih =>
      obtain ⟨value, t⟩ := binding
      rw [depth_cons]
      split
      · exact Nat.le_refl _
      · exact ih.trans (Nat.le_succ _)

theorem depth_append_of_notMem (h : s ∉ names bindings) :
    depth (bindings ++ rest) s = depth rest s := by
  induction bindings with
  | nil => rfl
  | cons binding more ih =>
      obtain ⟨value, t⟩ := binding
      simp only [names, List.map_cons, List.mem_cons, not_or] at h
      rw [List.cons_append, depth_cons, if_neg (Ne.symm h.1)]
      exact ih h.2

theorem lt_depth_append (h : s ∈ names bindings) :
    rest.length < depth (bindings ++ rest) s := by
  induction bindings with
  | nil => simp [names] at h
  | cons binding more ih =>
      obtain ⟨value, t⟩ := binding
      rw [List.cons_append, depth_cons]
      split
      · simp only [List.length_append]
        omega
      · simp only [names, List.map_cons, List.mem_cons] at h
        refine ih (h.resolve_left ?_)
        rintro rfl
        contradiction

end Depth

section Uncover

theorem uncover_cons (t : S) : uncover ((value, t) :: rest) contents =
    uncover rest (Function.update contents t value) := rfl

theorem uncover_append :
    uncover (bindings ++ rest) contents = uncover rest (uncover bindings contents) := by
  induction bindings generalizing contents with
  | nil => rfl
  | cons binding more ih => exact ih

theorem uncover_of_notMem (h : s ∉ names bindings) :
    uncover bindings contents s = contents s := by
  induction bindings generalizing contents with
  | nil => rfl
  | cons binding more ih =>
      obtain ⟨value, t⟩ := binding
      simp only [names, List.map_cons, List.mem_cons, not_or] at h
      rw [uncover_cons, ih h.2, Function.update_of_ne h.1]

/-- What is behind the bindings of a name does not depend on its value. -/
theorem uncover_of_mem (h : s ∈ names bindings) :
    uncover bindings contents s = uncover bindings contents' s := by
  induction bindings generalizing contents contents' with
  | nil => simp [names] at h
  | cons binding more ih =>
      obtain ⟨value, t⟩ := binding
      rw [uncover_cons, uncover_cons]
      by_cases hmore : s ∈ names more
      · exact ih hmore
      · simp only [names, List.map_cons, List.mem_cons] at h
        obtain rfl : s = t := h.resolve_right hmore
        rw [uncover_of_notMem hmore, uncover_of_notMem hmore, Function.update_self,
          Function.update_self]

end Uncover

/-- From `B` to `B'` the stack has only grown, and behind what has been put on it every
name has its value, unless a binding of before was assigned. -/
structure Preserves (B B' : Bindings S V) (bindings : List (V × S))
    (more : List (S × Nat)) : Prop where
  stack : B'.stack = bindings ++ B.stack
  assigned : B'.assigned = more ++ B.assigned
  outer : ∀ p ∈ more, p.2 ≤ B.stack.length → p.2 = depth B.stack p.1
  behind : ∀ s, (∀ p ∈ more, p.1 = s → B.stack.length < p.2) →
    uncover bindings B'.contents s = B.contents s

section Preserves

variable {more more' : List (S × Nat)}

theorem Preserves.refl (B : Bindings S V) : Preserves B B [] [] where
  stack := rfl
  assigned := rfl
  outer := by simp
  behind := fun _ _ => rfl

theorem Preserves.trans {bindings' : List (V × S)} (h : Preserves B B' bindings more)
    (h' : Preserves B' B'' bindings' more') :
    Preserves B B'' (bindings' ++ bindings) (more' ++ more) where
  stack := by rw [h'.stack, h.stack, List.append_assoc]
  assigned := by rw [h'.assigned, h.assigned, List.append_assoc]
  outer := by
    intro p hp hle
    rcases List.mem_append.1 hp with hp | hp
    · have hlow : p.2 ≤ B'.stack.length := by
        rw [h.stack, List.length_append]
        omega
      have hdepth := h'.outer p hp hlow
      rw [h.stack] at hdepth
      by_cases hbound : p.1 ∈ names bindings
      · have hlt : B.stack.length < depth (bindings ++ B.stack) p.1 := lt_depth_append hbound
        omega
      · rwa [depth_append_of_notMem hbound] at hdepth
    · exact h.outer p hp hle
  behind := by
    intro s hs
    rw [uncover_append]
    have hsame : uncover bindings B'.contents s = B.contents s :=
      h.behind s fun p hp => hs p (List.mem_append_right _ hp)
    by_cases hbound : s ∈ names bindings
    · exact (uncover_of_mem hbound).trans hsame
    · rw [uncover_of_notMem hbound] at hsame ⊢
      rw [← hsame]
      refine h'.behind s fun p hp hps => ?_
      subst hps
      have hlow := hs p (List.mem_append_left _ hp) rfl
      by_contra hnot
      have hdepth := h'.outer p hp (Nat.not_lt.1 hnot)
      rw [h.stack, depth_append_of_notMem hbound] at hdepth
      have hle := depth_le B.stack p.1
      omega

theorem Preserves.push (h : Preserves B B' bindings more) (s : S) :
    Preserves B (B'.push s) ((B'.contents s, s) :: bindings) more where
  stack := congrArg (_ :: ·) h.stack
  assigned := h.assigned
  outer := h.outer
  behind := by
    intro t ht
    have hself : Function.update B'.contents s (B'.contents s) = B'.contents :=
      Function.update_eq_self ..
    change uncover bindings (Function.update B'.contents s (B'.contents s)) t = _
    rw [hself]
    exact h.behind t ht

theorem Preserves.set (h : Preserves B B' bindings more) (hs : s ∈ names bindings) (value : V) :
    Preserves B (B'.set s value) bindings more where
  stack := h.stack
  assigned := h.assigned
  outer := h.outer
  behind := by
    intro t ht
    rw [← h.behind t ht]
    by_cases hbound : t ∈ names bindings
    · exact uncover_of_mem hbound
    · rw [uncover_of_notMem hbound, uncover_of_notMem hbound]
      refine Function.update_of_ne ?_ ..
      rintro rfl
      exact hbound hs

theorem Preserves.pop (h : Preserves B B' ((value, s) :: bindings) more) :
    ∃ B'', B'.pop = some (s, B'') ∧ Preserves B B'' bindings more := by
  refine ⟨{ B' with
    contents := Function.update B'.contents s value
    stack := bindings ++ B.stack }, ?_, ⟨rfl, h.assigned, h.outer, h.behind⟩⟩
  rw [Bindings.pop, h.stack]
  rfl

theorem Preserves.assign (B : Bindings S V) (s : S) (value : V) :
    Preserves B (B.assign s value) [] [(s, depth B.stack s)] where
  stack := rfl
  assigned := rfl
  outer := by
    intro p hp _
    obtain rfl := List.mem_singleton.1 hp
    rfl
  behind := by
    intro t ht
    refine Function.update_of_ne ?_ ..
    rintro rfl
    have hlt := ht _ List.mem_cons_self rfl
    exact Nat.not_lt.2 (depth_le B.stack t) hlt

theorem Preserves.recover (h : Preserves B B' bindings more) :
    Preserves B (B'.recover B.stack.length) [] more where
  stack := by
    simp only [Bindings.recover, h.stack, List.length_append, Nat.add_sub_cancel,
      List.drop_left, List.nil_append]
  assigned := h.assigned
  outer := h.outer
  behind := by
    intro s hs
    simp only [Bindings.recover, h.stack, List.length_append, Nat.add_sub_cancel,
      List.take_left]
    exact h.behind s hs

end Preserves

end Bindings
