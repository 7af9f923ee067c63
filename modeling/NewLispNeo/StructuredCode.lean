/-
Code with structured jumps: instructions in sequence, and blocks and loops that
a jump inside of them can leave or repeat.  It is laid out without any labels,
every jump knowing its target, and checked by the heights of the stack at the
labels.
-/
import Mathlib.Data.List.Basic

universe u v

/-- Code over the instructions `ι` and the jump opcodes `β`.  A jump names the
block or loop it leads to the end or the start of by how many it is inside of. -/
inductive StructuredCode (ι : Type u) (β : Type v) where
  | skip
  | instr (i : ι)
  | br (op : β) (label : Nat)
  | seq (a b : StructuredCode ι β)
  | block (a : StructuredCode ι β)
  | loop (a : StructuredCode ι β)

namespace StructuredCode

variable {ι : Type u} {β : Type v}

instance : Append (StructuredCode ι β) := ⟨seq⟩

theorem append_eq_seq (a b : StructuredCode ι β) : a ++ b = seq a b := rfl

/-- What stands at one position once the code is laid out. -/
inductive Item (ι : Type u) (β : Type v) where
  | instr (i : ι)
  | jump (op : β) (target : Nat)

section Layout

variable (width : ι → Nat) (jumpWidth : Nat)

def size : StructuredCode ι β → Nat
  | skip => 0
  | instr i => width i
  | br _ _ => jumpWidth
  | seq a b => a.size + b.size
  | block a => a.size
  | loop a => a.size

/-- The items of code laid out from `p` on; `exits` are the targets of its free
labels. -/
def items : Nat → List Nat → StructuredCode ι β → List (Nat × Item ι β)
  | _, _, skip => []
  | p, _, instr i => [(p, .instr i)]
  | p, exits, br op label => (exits[label]?.map fun t => (p, .jump op t)).toList
  | p, exits, seq a b =>
      items p exits a ++ items (p + a.size width jumpWidth) exits b
  | p, exits, block a => items p ((p + a.size width jumpWidth) :: exits) a
  | p, exits, loop a => items p (p :: exits) a

/-- `x` is a part of the code laid out from `p` on, and stands at `q`. -/
inductive Part (x : StructuredCode ι β) :
    Nat → StructuredCode ι β → Nat → Prop where
  | self {p} : Part x p x p
  | left {p a b q} (h : Part x p a q) :
      Part x p (seq a b) q
  | right {p a b q}
      (h : Part x (p + a.size width jumpWidth) b q) :
      Part x p (seq a b) q
  | block {p a q} (h : Part x p a q) :
      Part x p (block a) q
  | loop {p a q} (h : Part x p a q) :
      Part x p (loop a) q

variable {width jumpWidth} {p : Nat} {exits : List Nat}
  {a b : StructuredCode ι β} {x : Nat × Item ι β}

@[simp] theorem size_append : (a ++ b).size width jumpWidth =
    a.size width jumpWidth + b.size width jumpWidth := rfl

@[simp] theorem mem_items_append :
    x ∈ (a ++ b).items width jumpWidth p exits ↔
      x ∈ a.items width jumpWidth p exits ∨
        x ∈ b.items width jumpWidth (p + a.size width jumpWidth) exits :=
  List.mem_append

@[simp] theorem mem_items_instr {i : ι} :
    x ∈ (instr i : StructuredCode ι β).items width jumpWidth p exits ↔
      x = (p, .instr i) := List.mem_singleton

@[simp] theorem mem_items_br {op : β} {label : Nat} :
    x ∈ (br op label : StructuredCode ι β).items width jumpWidth p exits ↔
      ∃ t, exits[label]? = some t ∧ x = (p, .jump op t) := by
  change x ∈ (exits[label]?.map fun t => (p, Item.jump op t)).toList ↔ _
  simp only [Option.mem_toList, Option.map_eq_some_iff]
  simp only [eq_comm]

end Layout

/-- All instructions satisfy `P`. -/
def All (P : ι → Prop) : StructuredCode ι β → Prop
  | skip => True
  | instr i => P i
  | br _ _ => True
  | seq a b => a.All P ∧ b.All P
  | block a => a.All P
  | loop a => a.All P

section All

variable {P Q : ι → Prop} {a b : StructuredCode ι β}

@[simp] theorem all_append : (a ++ b).All P ↔ a.All P ∧ b.All P := Iff.rfl

theorem All.mono (hPQ : ∀ i, P i → Q i) (h : a.All P) : a.All Q := by
  induction a with
  | skip => trivial
  | instr i => exact hPQ i h
  | br op label => trivial
  | seq a b iha ihb => exact ⟨iha h.1, ihb h.2⟩
  | block a ih => exact ih h
  | loop a ih => exact ih h

theorem All.of_mem_items {width : ι → Nat} {jumpWidth p r : Nat}
    {exits : List Nat} {i : ι} (h : a.All P)
    (hmem : (r, Item.instr i) ∈ a.items width jumpWidth p exits) : P i := by
  induction a generalizing p exits with
  | skip => exact absurd hmem List.not_mem_nil
  | instr j =>
      simp only [mem_items_instr, Prod.mk.injEq, Item.instr.injEq] at hmem
      exact hmem.2 ▸ h
  | br op label =>
      obtain ⟨t, -, heq⟩ := mem_items_br.mp hmem
      simp at heq
  | seq a b iha ihb =>
      rcases List.mem_append.mp hmem with hmem | hmem
      · exact iha h.1 hmem
      · exact ihb h.2 hmem
  | block a ih => exact ih h hmem
  | loop a ih => exact ih h hmem

end All

/-- What instructions and jumps do to the height of a stack.  `fits` and
`jumpFits` say at which heights one may stand, `falls` and `jumpFalls` whether
the next one is the one after it. -/
structure Effects (ι : Type u) (β : Type v) where
  pops : ι → Nat
  pushes : ι → Nat
  fits : ι → Nat → Prop
  falls : ι → Bool
  jumpPops : β → Nat
  jumpFits : β → Nat → Prop
  jumpFalls : β → Bool

section Heights

variable (E : Effects ι β)

/-- Code that leads from one height of the stack to another; `labels` are the
heights at the targets of its free labels.  What follows a jump that does not
fall through is never reached, whatever the height. -/
inductive Typed : List Nat → StructuredCode ι β → Nat → Nat → Prop where
  | skip {labels h} : Typed labels skip h h
  | instr {labels h h' i} (hfits : E.fits i h)
      (hnext : h' = h - E.pops i + E.pushes i) : Typed labels (instr i) h h'
  | br {labels h h' op label} (hfits : E.jumpFits op h)
      (hlabel : labels[label]? = some (h - E.jumpPops op))
      (hnext : E.jumpFalls op = true → h' = h - E.jumpPops op) :
      Typed labels (br op label) h h'
  | seq {labels h h₁ h' a b} (ha : Typed labels a h h₁)
      (hb : Typed labels b h₁ h') : Typed labels (seq a b) h h'
  | block {labels h h' a} (ha : Typed (h' :: labels) a h h') :
      Typed labels (block a) h h'
  | loop {labels h h' a} (ha : Typed (h :: labels) a h h') :
      Typed labels (loop a) h h'

variable (width : ι → Nat) (jumpWidth : Nat)

/-- An item that is reached at height `k` leads only to positions and heights
of which `next` holds. -/
def Item.Leads (r k : Nat) (next : Nat → Nat → Prop) : Item ι β → Prop
  | .instr i => E.fits i k ∧
      (E.falls i = true → next (r + width i) (k - E.pops i + E.pushes i))
  | .jump op target => E.jumpFits op k ∧ next target (k - E.jumpPops op) ∧
      (E.jumpFalls op = true → next (r + jumpWidth) (k - E.jumpPops op))

variable {E width jumpWidth}

theorem Item.Leads.mono {r k : Nat} {next next' : Nat → Nat → Prop}
    {item : Item ι β} (hnext : ∀ s l, next s l → next' s l)
    (h : item.Leads E width jumpWidth r k next) :
    item.Leads E width jumpWidth r k next' := by
  cases item with
  | instr i => exact ⟨h.1, fun hf => hnext _ _ (h.2 hf)⟩
  | jump op target =>
      exact ⟨h.1, hnext _ _ h.2.1, fun hf => hnext _ _ (h.2.2 hf)⟩

/-- A height for each item of the code from `p` to `q`: entered at height `h` it
only leads on inside, or to a position and a height of which `out` holds. -/
structure Heights (E : Effects ι β) (width : ι → Nat) (jumpWidth : Nat)
    (items : List (Nat × Item ι β)) (p q h : Nat) (out : Nat → Nat → Prop)
    (height : Nat → Option Nat) : Prop where
  range : ∀ r k, height r = some k → p ≤ r ∧ r < q
  covers : ∀ r k, height r = some k → ∃ item, (r, item) ∈ items
  entry : p < q → height p = some h
  leads : ∀ x ∈ items, ∃ k, height x.1 = some k ∧
    x.2.Leads E width jumpWidth x.1 k fun s l => height s = some l ∨ out s l

/-- The heights before and after every part of the code from `p` on are those
it leads from and to. -/
def PartHeights (E : Effects ι β) (width : ι → Nat) (jumpWidth p : Nat)
    (a : StructuredCode ι β) (next : Nat → Nat → Prop) : Prop :=
  ∀ x q, Part width jumpWidth x p a q → ∃ labels k l,
    Typed E labels x k l ∧ next q k ∧ next (q + x.size width jumpWidth) l

/-- Code without instructions leaves the height alone. -/
theorem Typed.eq_of_size_eq_zero (hwidth : ∀ i, 0 < width i)
    (hjump : 0 < jumpWidth) {labels : List Nat} {a : StructuredCode ι β}
    {h h' : Nat} (ht : Typed E labels a h h')
    (hsize : a.size width jumpWidth = 0) : h = h' := by
  induction ht with
  | skip => rfl
  | @instr labels h h' i _ _ =>
      have hpos := hwidth i
      simp only [size] at hsize
      omega
  | br _ _ _ =>
      simp only [size] at hsize
      omega
  | seq _ _ iha ihb =>
      simp only [size] at hsize
      rw [iha (by omega), ihb (by omega)]
  | block _ ih => exact ih hsize
  | loop _ ih => exact ih hsize

/-- The heights of one item that stands alone. -/
theorem heights_single {p w h : Nat} {item : Item ι β}
    {out : Nat → Nat → Prop}
    (hleads : item.Leads E width jumpWidth p h out) (hw : 0 < w) :
    Heights E width jumpWidth [(p, item)] p (p + w) h out
      (fun r => if r = p then some h else none) where
  range r k hr := by
    split at hr
    · omega
    · cases hr
  covers r k hr := by
    split at hr
    · rename_i hp
      exact ⟨item, by simp [hp]⟩
    · cases hr
  entry _ := by simp
  leads x hx := by
    obtain rfl := List.mem_singleton.mp hx
    exact ⟨h, by simp, hleads.mono fun s l hs => .inr hs⟩

section Append

variable {xs ys : List (Nat × Item ι β)} {p q r h h₁ : Nat}
  {out out' : Nat → Nat → Prop} {heightx heighty : Nat → Option Nat}
  (hx : Heights E width jumpWidth xs p q h out' heightx)
  (hy : Heights E width jumpWidth ys q r h₁ out heighty)

include hx hy

/-- Two pieces know no position in common. -/
theorem Heights.or_right {s l : Nat} (hs : heighty s = some l) :
    (heightx s).or (heighty s) = some l := by
  have hrange := hy.range s l hs
  cases hk : heightx s with
  | none => simpa using hs
  | some k =>
      have hrange' := hx.range s k hk
      omega

/-- The heights of two pieces, the first of which leads on into the second. -/
theorem Heights.append (hpq : p ≤ q) (hqr : q ≤ r) (hempty : p = q → h = h₁)
    (hout : ∀ s l, out' s l → heighty s = some l ∨ out s l) :
    Heights E width jumpWidth (xs ++ ys) p r h out
      (fun s => (heightx s).or (heighty s)) := by
  refine ⟨?_, ?_, ?_, ?_⟩
  · intro s k hs
    rcases Option.or_eq_some_iff.mp hs with hs | ⟨-, hs⟩
    · have hrange := hx.range s k hs
      omega
    · have hrange := hy.range s k hs
      omega
  · intro s k hs
    rcases Option.or_eq_some_iff.mp hs with hs | ⟨-, hs⟩
    · obtain ⟨item, hmem⟩ := hx.covers s k hs
      exact ⟨item, List.mem_append_left _ hmem⟩
    · obtain ⟨item, hmem⟩ := hy.covers s k hs
      exact ⟨item, List.mem_append_right _ hmem⟩
  · intro hpr
    by_cases hlt : p < q
    · simp [hx.entry hlt]
    · obtain rfl : p = q := by omega
      exact hx.or_right hy (hempty rfl ▸ hy.entry hpr)
  · intro x hmem
    rcases List.mem_append.mp hmem with hmem | hmem
    · obtain ⟨k, hk, hleads⟩ := hx.leads x hmem
      refine ⟨k, by simp [hk], hleads.mono ?_⟩
      rintro s l (hs | hs)
      · exact .inl (by simp [hs])
      · exact (hout s l hs).imp_left fun hs => hx.or_right hy hs
    · obtain ⟨k, hk, hleads⟩ := hy.leads x hmem
      exact ⟨k, hx.or_right hy hk, hleads.mono fun s l hs =>
        hs.imp_left fun hs => hx.or_right hy hs⟩

end Append

theorem PartHeights.mono {p : Nat} {a : StructuredCode ι β}
    {next next' : Nat → Nat → Prop} (hnext : ∀ s l, next s l → next' s l)
    (h : PartHeights E width jumpWidth p a next) :
    PartHeights E width jumpWidth p a next' := by
  intro x q hpart
  obtain ⟨labels, k, l, ht, hk, hl⟩ := h x q hpart
  exact ⟨labels, k, l, ht, hnext _ _ hk, hnext _ _ hl⟩

/-- The whole code is a part of itself. -/
theorem Typed.part_self (hwidth : ∀ i, 0 < width i) (hjump : 0 < jumpWidth)
    (labels : List Nat) {a : StructuredCode ι β} {h h' p : Nat}
    {height : Nat → Option Nat} {out : Nat → Nat → Prop}
    (ht : Typed E labels a h h')
    (hentry : p < p + a.size width jumpWidth → height p = some h)
    (hend : out (p + a.size width jumpWidth) h') : ∃ labels k l,
      Typed E labels a k l ∧ (height p = some k ∨ out p k) ∧
        (height (p + a.size width jumpWidth) = some l ∨
          out (p + a.size width jumpWidth) l) := by
  refine ⟨labels, h, h', ht, ?_, .inr hend⟩
  by_cases hsize : a.size width jumpWidth = 0
  · rw [ht.eq_of_size_eq_zero hwidth hjump hsize]
    exact .inr (by simpa [hsize] using hend)
  · exact .inl (hentry (by omega))

/-- Well-typed code has its heights: it leads on at its end or at the targets of
its free labels. -/
theorem Typed.heights (hwidth : ∀ i, 0 < width i) (hjump : 0 < jumpWidth)
    {labels : List Nat} {a : StructuredCode ι β} {h h' : Nat}
    (ht : Typed E labels a h h')
    (p : Nat) (exits : List Nat) (out : Nat → Nat → Prop)
    (hlen : labels.length = exits.length)
    (hend : out (p + a.size width jumpWidth) h')
    (hout : ∀ (l t k : Nat), exits[l]? = some t → labels[l]? = some k →
      out t k) :
    ∃ height,
      Heights E width jumpWidth (a.items width jumpWidth p exits) p (p + a.size width jumpWidth) h
        out height ∧
      PartHeights E width jumpWidth p a
        fun s l => height s = some l ∨ out s l := by
  induction ht generalizing p exits out with
  | @skip labels h =>
      obtain ⟨height, hs⟩ : ∃ height : Nat → Option Nat, ∀ r, height r = none :=
        ⟨fun _ => none, fun _ => rfl⟩
      have hentry : p < p + (StructuredCode.skip : StructuredCode ι β).size
          width jumpWidth → height p = some h := by simp [size]
      refine ⟨height, ⟨by simp [hs], by simp [hs], hentry, by simp [items]⟩, ?_⟩
      intro x q hpart
      cases hpart
      exact Typed.part_self hwidth hjump labels .skip hentry hend
  | @instr labels h h' i hfits hnext =>
      have hleads : (Item.instr i : Item ι β).Leads E width jumpWidth p h out :=
        ⟨hfits, fun _ => hnext ▸ hend⟩
      obtain ⟨height, hs⟩ : ∃ height, Heights E width jumpWidth
          [(p, .instr i)] p (p + width i) h out height :=
        ⟨_, heights_single hleads (hwidth i)⟩
      refine ⟨height, hs, ?_⟩
      intro x q hpart
      cases hpart
      exact Typed.part_self hwidth hjump labels (.instr hfits hnext) hs.entry hend
  | @br labels h h' op label hfits hlabel hnext =>
      obtain ⟨t, ht⟩ : ∃ t, exits[label]? = some t := by
        have hlt := (List.getElem?_eq_some_iff.mp hlabel).1
        exact ⟨_, List.getElem?_eq_getElem (hlen ▸ hlt)⟩
      have hitems : (StructuredCode.br op label).items width
          jumpWidth p exits = [(p, .jump op t)] := by simp [items, ht]
      rw [hitems]
      have hleads : (Item.jump op t : Item ι β).Leads E width jumpWidth p h out :=
        ⟨hfits, hout _ _ _ ht hlabel, fun hf => hnext hf ▸ hend⟩
      obtain ⟨height, hs⟩ : ∃ height, Heights E width jumpWidth
          [(p, .jump op t)] p (p + jumpWidth) h out height :=
        ⟨_, heights_single hleads hjump⟩
      refine ⟨height, hs, ?_⟩
      intro x q hpart
      cases hpart
      exact Typed.part_self hwidth hjump labels (.br hfits hlabel hnext)
        hs.entry hend
  | @seq labels h h₁ h' a b ha hb iha ihb =>
      simp only [size] at hend ⊢
      -- the first part leads on into the second one, which is entered there
      obtain ⟨heighty, hy, hparty⟩ := ihb (p + a.size width jumpWidth) exits
        out hlen (by rwa [Nat.add_assoc]) hout
      have hnext : heighty (p + a.size width jumpWidth) = some h₁ ∨
          out (p + a.size width jumpWidth) h₁ := by
        by_cases hsize : b.size width jumpWidth = 0
        · rw [hb.eq_of_size_eq_zero hwidth hjump hsize]
          rw [hsize] at hend
          exact .inr hend
        · exact .inl (hy.entry (by omega))
      obtain ⟨heightx, hx, hpartx⟩ := iha p exits
        (fun s l => heighty s = some l ∨ out s l) hlen hnext
        fun l t k ht hk => .inr (hout l t k ht hk)
      rw [Nat.add_assoc] at hy
      obtain ⟨height, hboth, hxy⟩ : ∃ height : Nat → Option Nat,
          (∀ s, height s = (heightx s).or (heighty s)) ∧
          Heights E width jumpWidth
            ((StructuredCode.seq a b).items width jumpWidth p exits) p
            (p + (a.size width jumpWidth + b.size width jumpWidth)) h out
            height :=
        ⟨_, fun s => rfl, hx.append hy (by omega) (by omega)
          (fun hp => ha.eq_of_size_eq_zero hwidth hjump (by omega))
          fun s l hs => hs⟩
      have hleft : PartHeights E width jumpWidth p
          a fun s l => height s = some l ∨ out s l := by
        refine hpartx.mono ?_
        rintro s l (hs | hs | hs)
        · exact .inl (by simp [hboth, hs])
        · exact .inl (hboth s ▸ hx.or_right hy hs)
        · exact .inr hs
      have hright : PartHeights E width jumpWidth
          (p + a.size width jumpWidth) b
          fun s l => height s = some l ∨ out s l :=
        hparty.mono fun s l hs => hs.imp_left fun hs =>
          hboth s ▸ hx.or_right hy hs
      refine ⟨height, hxy, ?_⟩
      intro x q hpart
      cases hpart with
      | self =>
          exact Typed.part_self hwidth hjump labels (.seq ha hb) hxy.entry hend
      | left hpart => exact hleft x q hpart
      | right hpart => exact hright x q hpart
  | @block labels h h' a ha ih =>
      obtain ⟨height, hs, hparts⟩ := ih p ((p + a.size width jumpWidth) :: exits)
        out (by simp [hlen]) hend (by
          intro l t k ht hk
          cases l with
          | zero =>
              simp only [List.getElem?_cons_zero, Option.some.injEq] at ht hk
              subst ht hk
              exact hend
          | succ l => exact hout l t k ht hk)
      refine ⟨height, hs, ?_⟩
      intro x q hpart
      cases hpart with
      | self =>
          exact Typed.part_self hwidth hjump labels (.block ha) hs.entry hend
      | block hpart => exact hparts x q hpart
  | @loop labels h h' a ha ih =>
      -- a jump to the start finds the height of the first item
      obtain ⟨height, hs, hparts⟩ := ih p (p :: exits)
        (fun s l => (s = p ∧ l = h) ∨ out s l) (by simp [hlen]) (.inr hend) (by
          intro l t k ht hk
          cases l with
          | zero =>
              simp only [List.getElem?_cons_zero, Option.some.injEq] at ht hk
              exact .inl ⟨ht.symm, hk.symm⟩
          | succ l => exact .inr (hout l t k ht hk))
      have hstart : height p = some h ∨ out p h := by
        by_cases hsize : a.size width jumpWidth = 0
        · rw [ha.eq_of_size_eq_zero hwidth hjump hsize]
          exact .inr (by simpa [size, hsize] using hend)
        · exact .inl (hs.entry (by omega))
      have hnext : ∀ s l, (height s = some l ∨ (s = p ∧ l = h) ∨ out s l) →
          height s = some l ∨ out s l := by
        rintro s l (hs | ⟨rfl, rfl⟩ | hs)
        · exact .inl hs
        · exact hstart
        · exact .inr hs
      have hinner : PartHeights E width jumpWidth p
          a fun s l => height s = some l ∨ out s l := hparts.mono hnext
      refine ⟨height, ⟨hs.range, hs.covers, hs.entry, fun x hx => ?_⟩, ?_⟩
      · obtain ⟨k, hk, hleads⟩ := hs.leads x hx
        exact ⟨k, hk, hleads.mono hnext⟩
      · intro x q hpart
        cases hpart with
        | self =>
            exact Typed.part_self hwidth hjump labels (.loop ha) hs.entry hend
        | loop hpart => exact hinner x q hpart

/-- Code that takes `n` entries off the stack and puts `m` on it, whatever lies
below and whatever labels there are. -/
def Takes (E : Effects ι β) (n m : Nat) (a : StructuredCode ι β) : Prop :=
  ∀ labels h h', Typed E labels a (h + n) h' ↔
    h' = h + m

section Takes

variable {n m k : Nat} {a b : StructuredCode ι β} {labels : List Nat}
  {h h' : Nat}

theorem typed_append_iff :
    Typed E labels (a ++ b) h h' ↔
      ∃ h₁, Typed E labels a h h₁ ∧ Typed E labels b h₁ h' := by
  constructor
  · rintro (_ | _ | _ | ⟨ha, hb⟩)
    exact ⟨_, ha, hb⟩
  · rintro ⟨h₁, ha, hb⟩
    exact .seq ha hb

theorem typed_br_iff {op : β} {label : Nat} :
    Typed E labels (br op label : StructuredCode ι β) h h' ↔
      E.jumpFits op h ∧ labels[label]? = some (h - E.jumpPops op) ∧
        (E.jumpFalls op = true → h' = h - E.jumpPops op) := by
  constructor
  · rintro (_ | _ | ⟨hfits, hlabel, hnext⟩)
    exact ⟨hfits, hlabel, hnext⟩
  · rintro ⟨hfits, hlabel, hnext⟩
    exact .br hfits hlabel hnext

theorem typed_block_iff :
    Typed E labels (block a) h h' ↔ Typed E (h' :: labels) a h h' := by
  constructor
  · rintro (_ | _ | _ | _ | ha)
    exact ha
  · exact .block

theorem typed_loop_iff :
    Typed E labels (loop a) h h' ↔ Typed E (h :: labels) a h h' := by
  constructor
  · rintro (_ | _ | _ | _ | _ | ha)
    exact ha
  · exact .loop

theorem takes_skip : Takes E 0 0
    (skip : StructuredCode ι β) := by
  intro labels h h'
  constructor
  · rintro ⟨⟩
    rfl
  · rintro rfl
    exact .skip

theorem takes_instr {i : ι} (hfits : ∀ h, E.fits i (h + E.pops i)) :
    Takes E (E.pops i) (E.pushes i)
      (instr i : StructuredCode ι β) := by
  intro labels h h'
  constructor
  · rintro (_ | ⟨-, hnext⟩)
    omega
  · intro hnext
    exact .instr (hfits h) (by omega)

theorem Takes.append (ha : Takes E n m a) (hb : Takes E m k b) :
    Takes E n k (a ++ b) := by
  intro labels h h'
  rw [typed_append_iff]
  constructor
  · rintro ⟨h₁, h₂, h₃⟩
    rw [(ha labels h h₁).mp h₂] at h₃
    exact (hb labels h h').mp h₃
  · rintro rfl
    exact ⟨h + m, (ha labels h _).mpr rfl, (hb labels h _).mpr rfl⟩

/-- Below what code takes there may lie more. -/
theorem Takes.above (ha : Takes E n m a) (k : Nat) :
    Takes E (k + n) (k + m) a := by
  intro labels h h'
  rw [← Nat.add_assoc, ← Nat.add_assoc]
  exact ha labels (h + k) h'

end Takes

end Heights

end StructuredCode
