/-
The texts `getJSONvalue` reads, as a grammar over what stands between two pointers, and the
texts where it comes to a string that is not closed.
-/
import NewLispNeo.Json

namespace NewLispNeo.Json

section Strings

/-- What may stand between the quotes of a string: a backslash hides the byte behind it. -/
inductive Body : List UInt8 → Prop
  | nil : Body []
  | plain {c : UInt8} {body : List UInt8} (hquote : c ≠ quote) (hzero : c ≠ 0)
      (hbackslash : c ≠ backslash) (h : Body body) : Body (c :: body)
  | escaped {d : UInt8} {body : List UInt8} (h : Body body) : Body (backslash :: d :: body)

/-- No quote closes the string that begins here. -/
def Unclosed (p : List UInt8) : Prop := ¬ ∃ body rest, p = body ++ quote :: rest ∧ Body body

variable {p token rest : List UInt8}

theorem scanToken_quote (p : List UInt8) : scanToken (quote :: p) = .ok [] p := by
  rw [scanToken.eq_def]
  rfl

theorem scanToken_zero (p : List UInt8) : scanToken (0 :: p) = .error .closingQuote p := by
  rw [scanToken.eq_def]
  rfl

theorem scanToken_backslash (d : UInt8) (p : List UInt8) :
    scanToken (backslash :: d :: p) = (scanToken p).map fun token => backslash :: d :: token := by
  rw [scanToken.eq_def]
  rfl

theorem scanToken_plain {c : UInt8} (hquote : c ≠ quote) (hzero : c ≠ 0)
    (hbackslash : c ≠ backslash) (p : List UInt8) :
    scanToken (c :: p) = (scanToken p).map (c :: ·) := by
  rw [scanToken.eq_def]
  simp only [if_neg hquote, if_neg hzero, if_neg hbackslash]

theorem scanToken_of_body (h : Body token) (rest : List UInt8) :
    scanToken (token ++ quote :: rest) = .ok token rest := by
  induction h with
  | nil => exact scanToken_quote rest
  | plain hquote hzero hbackslash _ ih =>
      rw [List.cons_append, scanToken_plain hquote hzero hbackslash, ih]
      rfl
  | escaped _ ih =>
      rw [List.cons_append, List.cons_append, scanToken_backslash, ih]
      rfl

/-- How scanning a string can go on. -/
theorem scan_cases (p : List UInt8) : p = [] ∨ (∃ q, p = quote :: q) ∨ (∃ q, p = 0 :: q) ∨
    p = [backslash] ∨ (∃ d q, p = backslash :: d :: q) ∨
    ∃ c q, p = c :: q ∧ c ≠ quote ∧ c ≠ 0 ∧ c ≠ backslash := by
  cases p with
  | nil => exact .inl rfl
  | cons c q =>
      by_cases hquote : c = quote
      · exact .inr (.inl ⟨q, by rw [hquote]⟩)
      by_cases hzero : c = 0
      · exact .inr (.inr (.inl ⟨q, by rw [hzero]⟩))
      by_cases hbackslash : c = backslash
      · cases q with
        | nil => exact .inr (.inr (.inr (.inl (by rw [hbackslash]))))
        | cons d q => exact .inr (.inr (.inr (.inr (.inl ⟨d, q, by rw [hbackslash]⟩))))
      · exact .inr (.inr (.inr (.inr (.inr ⟨c, q, rfl, hquote, hzero, hbackslash⟩))))

theorem map_eq_ok {α β : Type} {x : Parsed α} {f : α → β} {b : β} {rest : List UInt8}
    (h : x.map f = .ok b rest) : ∃ a, x = .ok a rest ∧ f a = b := by
  cases x with
  | ok a r =>
      cases h
      exact ⟨a, rfl, rfl⟩
  | _ => cases h

theorem body_of_scanToken {p token rest : List UInt8} (h : scanToken p = .ok token rest) :
    p = token ++ quote :: rest ∧ Body token := by
  induction hn : p.length using Nat.strongRecOn generalizing p token with
  | ind n ih =>
      rcases scan_cases p with rfl | ⟨q, rfl⟩ | ⟨q, rfl⟩ | rfl | ⟨d, q, rfl⟩ |
        ⟨c, q, rfl, hquote, hzero, hbackslash⟩
      · cases h
      · rw [scanToken_quote] at h
        cases h
        exact ⟨rfl, .nil⟩
      · rw [scanToken_zero] at h
        cases h
      · cases h
      · rw [scanToken_backslash] at h
        obtain ⟨token', htoken, rfl⟩ := map_eq_ok h
        obtain ⟨rfl, hbody⟩ := ih _ (by simp only [← hn, List.length_cons]; omega) htoken rfl
        exact ⟨rfl, .escaped hbody⟩
      · rw [scanToken_plain hquote hzero hbackslash] at h
        obtain ⟨token', htoken, rfl⟩ := map_eq_ok h
        obtain ⟨rfl, hbody⟩ := ih _ (by rw [← hn]; simp) htoken rfl
        exact ⟨rfl, .plain hquote hzero hbackslash hbody⟩

theorem scanToken_ok_iff :
    scanToken p = .ok token rest ↔ p = token ++ quote :: rest ∧ Body token := by
  constructor
  · exact body_of_scanToken
  · rintro ⟨rfl, hbody⟩
    exact scanToken_of_body hbody rest

/-- An open string is left behind the end of the input. -/
def Outside {α : Type} : Parsed α → Prop
  | .overrun => True
  | .error _ jsonStr => jsonStr = []
  | _ => False

theorem outside_map {α β : Type} {x : Parsed α} {f : α → β} : Outside (x.map f) ↔ Outside x := by
  cases x <;> simp [Parsed.map, Parsed.andThen, Outside]

/-- Before the terminating zero, a string is read to its quote or else to the end. -/
theorem scanToken_outside_iff {s : List UInt8} (hs : 0 ∉ s) :
    Outside (scanToken (s ++ [0])) ↔ Unclosed (s ++ [0]) := by
  have hunclosed : ∀ p, Unclosed p ↔ ∀ token rest, scanToken p ≠ .ok token rest := by
    intro p
    rw [Unclosed, not_exists]
    exact forall_congr' fun token => by
      rw [not_exists]
      exact forall_congr' fun rest => not_congr scanToken_ok_iff.symm
  rw [hunclosed]
  induction hn : s.length using Nat.strongRecOn generalizing s with
  | ind n ih =>
      have hmap : ∀ {t : List UInt8} {f : List UInt8 → List UInt8}, t.length < n → 0 ∉ t →
          (Outside ((scanToken (t ++ [0])).map f) ↔
            ∀ token rest, (scanToken (t ++ [0])).map f ≠ .ok token rest) := by
        intro t f hlt ht
        rw [outside_map]
        refine (ih _ hlt ht rfl).trans ?_
        constructor
        · intro h token rest heq
          obtain ⟨a, ha, -⟩ := map_eq_ok heq
          exact h a rest ha
        · intro h token rest heq
          exact h (f token) rest (by rw [heq]; rfl)
      rcases s with _ | ⟨c, s⟩
      · rw [List.nil_append, scanToken_zero]
        simp [Outside]
      · by_cases hquote : c = quote
        · rw [hquote, List.cons_append, scanToken_quote]
          simp [Outside]
        have hzero : c ≠ 0 := fun h => hs (by rw [h]; exact List.mem_cons_self)
        by_cases hbackslash : c = backslash
        · rw [hbackslash]
          rcases s with _ | ⟨d, s⟩
          · exact iff_of_true trivial (by intro token rest h; cases h)
          · rw [List.cons_append, List.cons_append, scanToken_backslash]
            refine hmap ?_ fun h => hs (List.mem_cons_of_mem _ (List.mem_cons_of_mem _ h))
            simp only [← hn, List.length_cons]
            omega
        · rw [List.cons_append, scanToken_plain hquote hzero hbackslash]
          refine hmap ?_ fun h => hs (List.mem_cons_of_mem _ h)
          rw [← hn]
          simp

end Strings

end NewLispNeo.Json
