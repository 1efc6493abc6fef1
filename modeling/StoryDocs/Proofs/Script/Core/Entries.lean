import StoryDocs.Proofs.Script.Core.Patterns

/-!
# Entries between brackets

The runs of the entries of a list, one behind the other, and what the rules make of them: values between brackets,
arrays, objects, arguments and parameters.
-/

namespace StoryDocs
namespace Script

open Text Grammar

variable {scope : Scope} {c c₁ c' : Cursor} {e : Tree} {es : List Tree} {rs : Rules} {entry : Entry} {close : String}
  {n stop : Nat} {rest : List Char} {shapes : List Shape}

/-! ## Runs of entries -/

/-- The rule that reads an entry. -/
def Entry.rule (rs : Rules) : Entry → Parse Tree
  | value => rs .assignment
  | element => spreadable rs
  | member => objectProperty rs
  | parameter => plainParameter rs []

/-- Entries with a comma behind each of them but, perhaps, the last. -/
inductive Entries (scope : Scope) (rs : Rules) (entry : Entry) (close : String) :
    Cursor → List Tree → Cursor → Prop
  | nil {c : Cursor} (hclose : isMark c.token close = true) : Entries scope rs entry close c [] c
  | last {c c₁ : Cursor} {e : Tree} (hstart : c.token.StartsEntry entry)
      (hentry : entry.rule rs scope c = some (e, c₁)) (hclose : isMark c₁.token close = true) :
      Entries scope rs entry close c [e] c₁
  | cons {c c₁ c' : Cursor} {e : Tree} {es : List Tree} (hstart : c.token.StartsEntry entry)
      (hentry : entry.rule rs scope c = some (e, c₁)) (hcomma : isMark c₁.token "," = true)
      (hsound : c₁.token.Sound) (hrest : Entries scope rs entry close (c₁.next scope.bound) es c') :
      Entries scope rs entry close c (e :: es) c'

namespace Entries

theorem closes (h : Entries scope rs entry close c es c') : isMark c'.token close = true := by
  induction h with
  | nil hclose => exact hclose
  | last _ _ hclose => exact hclose
  | cons _ _ _ _ _ ih => exact ih

theorem of_nil (h : Entries scope rs entry close c [] c') : c' = c := by
  cases h
  rfl

/-- Neither the start of an entry nor the comma behind one closes a list. -/
theorem separated (h : Entries scope rs entry close c es c') (hclose : close ∈ [")", "]", "\x7d"]) :
    Separated scope close (entry.rule rs) c es c' := by
  have hopen : ∀ c : Cursor, c.token.StartsEntry entry → isMark c.token close = false := by
    have hmarks : ∀ m ∈ [")", "]", "\x7d"], m ∉ ["(", "[", "\x7b", "<", "..."] := by decide
    exact fun c hc => hc.not_mark (hmarks close hclose)
  have hne : "," ≠ close := by
    have hmarks : ∀ m ∈ [")", "]", "\x7d"], "," ≠ m := by decide
    exact hmarks close hclose
  induction h with
  | nil hclose => exact .nil hclose
  | last hstart hentry hcloses => exact .last (hopen _ hstart) hentry hcloses
  | cons hstart hentry hcomma hsound _ ih =>
      exact .cons (hopen _ hstart) hentry (isMark_of_other (lexeme_of_isMark hcomma) hne) hcomma hsound ih

theorem arrayItems (h : Entries scope rs .element "]" c es c') (hbound : es.length ≤ scope.bound) :
    arrayItems rs scope c = some (es, c') := by
  have hloop : ∀ (k : Nat) (done : List Tree), es.length < k →
      iterate (fun done => do
        if ← atMark "]" then return .inr done.reverse
        let start ← position
        if ← eatMark "," then return .inl ((← finish .hole start "" []) :: done)
        let e ← spreadable rs
        if !(← atMark "]") then expectMark ","
        return .inl (e :: done)) k done scope c = some (done.reverse ++ es, c') := by
    clear hbound
    induction h with
    | nil hclose =>
        intro k done hk
        obtain ⟨k, rfl⟩ : ∃ j, k = j + 1 := ⟨k - 1, by simp at hk; omega⟩
        simp [iterate, run_bind, hclose]
    | last hstart hentry hclose =>
        intro k done hk
        obtain ⟨k, rfl⟩ : ∃ j, k = j + 1 + 1 := ⟨k - 2, by simp at hk; omega⟩
        have hopen := hstart.not_mark (m := "]") (by decide)
        have hcomma := hstart.not_mark (m := ",") (by decide)
        rw [Entry.rule] at hentry
        simp [iterate, run_bind, hopen, hcomma, hentry, hclose]
    | cons hstart hentry hcomma hsound _ ih =>
        intro k done hk
        rw [List.length_cons] at hk
        obtain ⟨k, rfl⟩ : ∃ j, k = j + 1 := ⟨k - 1, by omega⟩
        rename_i e es _
        have hopen := hstart.not_mark (m := "]") (by decide)
        have hplain := hstart.not_mark (m := ",") (by decide)
        have hgoes := isMark_of_other (m := "]") (lexeme_of_isMark hcomma) (by decide)
        have hround := ih k (e :: done) (by omega)
        rw [Entry.rule] at hentry
        simpa [iterate, run_bind, run_map, hopen, hplain, hentry, hgoes, run_expectMark hcomma hsound] using hround
  have hrun := hloop (scope.bound + 1) [] (by omega)
  simpa [Grammar.arrayItems, repeatFrom, run_bind] using hrun

theorem parameters (h : Entries (bracketScope scope) rs .parameter ")" c es c') (hbound : es.length ≤ scope.bound) :
    parameters rs scope c = some (.node .parameters ⟨c.token.start, c'.lastStop⟩ "" es, c') := by
  have hloop : ∀ (k : Nat) (done : List Tree), es.length < k →
      iterate (fun (x : List Tree × Bool) => do
        if ← atMark ")" then return .inr x.1.reverse
        faultIf x.2
        let decorators ← if ← atMark "@" then pure [← rs .decorators] else pure []
        let start ← position
        let isRest ← eatMark "..."
        let param ← if isRest then restParameter rs start decorators else plainParameter rs decorators
        if !(← atMark ")") then
          expectMark ","
          faultIf (isRest && (← atMark ")"))
        return .inl (param :: x.1, x.2 || isRest)) k (done, false) (bracketScope scope) c =
          some (done.reverse ++ es, c') := by
    clear hbound
    induction h with
    | nil hclose =>
        intro k done hk
        obtain ⟨k, rfl⟩ : ∃ j, k = j + 1 := ⟨k - 1, by simp at hk; omega⟩
        simp [iterate, run_bind, hclose]
    | last hstart hentry hclose =>
        intro k done hk
        obtain ⟨k, rfl⟩ : ∃ j, k = j + 1 + 1 := ⟨k - 2, by simp at hk; omega⟩
        obtain ⟨name, hname⟩ := hstart
        rw [Entry.rule] at hentry
        simp [iterate, run_bind, isMark_of_word hname, hentry, hclose]
    | cons hstart hentry hcomma hsound _ ih =>
        intro k done hk
        rw [List.length_cons] at hk
        obtain ⟨k, rfl⟩ : ∃ j, k = j + 1 := ⟨k - 1, by omega⟩
        rename_i e es _
        obtain ⟨name, hname⟩ := hstart
        have hgoes := isMark_of_other (m := ")") (lexeme_of_isMark hcomma) (by decide)
        have hround := ih k (e :: done) (by omega)
        rw [Entry.rule] at hentry
        simpa [iterate, run_bind, run_map, isMark_of_word hname, hentry, hgoes, run_expectMark hcomma hsound] using
          hround
  have hrun := hloop (scope.bound + 1) [] (by omega)
  rw [Grammar.parameters, parametersWith, position_bind_run]
  refine (@run_bind_of _ _ scope c c' _ es ?_ _).trans rfl
  exact hrun

end Entries

/-! ## Lists between brackets -/

theorem primary_array (h : c.token.lexeme = .mark "[") (hsound : c.token.Sound)
    (hes : Entries (bracketScope scope) rs .element "]" (c.next scope.bound) es c₁) (hsound₁ : c₁.token.Sound)
    (hbound : es.length ≤ scope.bound) : primary rs scope c =
      some (.node .array ⟨c.token.start, c₁.token.stop⟩ (literalName es c₁.lastStop) es, c₁.next scope.bound) := by
  have hopened := @run_expectMark scope c "[" (isMark_self h) hsound
  have hclosed := @run_expectMark scope c₁ "]" hes.closes hsound₁
  have hitems : bracketed (arrayItems rs) scope (c.next scope.bound) = some (es, c₁) := hes.arrayItems hbound
  have hliteral : isLiteralKey c.token = false := by rw [isLiteralKey, h]
  simp [primary, hliteral, isMark_of_mark h, array, run_bind_of hopened, run_bind_of hitems, run_bind_of hclosed]
  rfl

theorem object_entries (h : c.token.lexeme = .mark "\x7b") (hsound : c.token.Sound)
    (hes : Entries (bracketScope scope) rs .member "\x7d" (c.next scope.bound) es c₁) (hsound₁ : c₁.token.Sound)
    (hbound : es.length ≤ scope.bound) : object rs scope c =
      some (.node .object ⟨c.token.start, c₁.token.stop⟩ (literalName es c₁.lastStop) es, c₁.next scope.bound) := by
  have hopened := @run_expectMark scope c "\x7b" (isMark_self h) hsound
  have hclosed := @run_expectMark scope c₁ "\x7d" hes.closes hsound₁
  have hitems : bracketed (separated "\x7d" (objectProperty rs)) scope (c.next scope.bound) = some (es, c₁) :=
    (hes.separated (by simp)).run hbound
  simp [object, run_bind_of hopened, run_bind_of hitems, run_bind_of hclosed]
  rfl

theorem arguments_entries (h : c.token.lexeme = .mark "(") (hsound : c.token.Sound)
    (hes : Entries (bracketScope scope) rs .element ")" (c.next scope.bound) es c₁) (hsound₁ : c₁.token.Sound)
    (hbound : es.length ≤ scope.bound) : arguments rs scope c =
      some (.node .group ⟨c.token.start, c₁.token.stop⟩ "" es, c₁.next scope.bound) := by
  have hopened := @run_expectMark scope c "(" (isMark_self h) hsound
  have hclosed := @run_expectMark scope c₁ ")" hes.closes hsound₁
  have hitems : bracketed (separated ")" (spreadable rs)) scope (c.next scope.bound) = some (es, c₁) :=
    (hes.separated (by simp)).run hbound
  simp [arguments, run_bind_of hopened, run_bind_of hitems, run_bind_of hclosed]
  rfl

/-- An object with a default that only a pattern may have says so in its shape. -/
theorem not_loose (h : ∀ s ∈ Tree.shapes es, s.hasLooseDefault = false) :
    (es.any fun e => e.kind == .object && e.parts.any fun p => p.kind == .shorthandDefault) = false := by
  rw [List.any_eq_false]
  intro e he hobject
  have hshape := h e.shape (by rw [shapes_eq_map]; exact List.mem_map_of_mem he)
  rw [Bool.and_eq_true, beq_iff_eq, List.any_eq_true] at hobject
  obtain ⟨hkind, p, hp, hdefault⟩ := hobject
  obtain ⟨kind, span, name, parts⟩ := e
  obtain rfl : kind = .object := hkind
  have hpart := haveLooseDefault_eq_false.mp hshape p.shape (by rw [shapes_eq_map]; exact List.mem_map_of_mem hp)
  obtain ⟨kind, span, name, parts⟩ := p
  obtain rfl : kind = .shorthandDefault := beq_iff_eq.mp hdefault
  cases hpart

theorem primary_paren (h : c.token.lexeme = .mark "(") (hsound : c.token.Sound)
    (hes : Entries (bracketScope scope) rs .value ")" (c.next scope.bound) es c₁) (hsound₁ : c₁.token.Sound)
    (hne : es ≠ []) (hloose : ∀ s ∈ Tree.shapes es, s.hasLooseDefault = false) (hbound : es.length ≤ scope.bound) :
    ∃ e, primary rs scope c = some (e, c₁.next scope.bound) ∧
      e.shape = .node .paren "" [Shape.joined (Tree.shapes es)] ∧ e.span.stop = c₁.token.stop := by
  have hopened := @run_expectMark scope c "(" (isMark_self h) hsound
  have hclosed := @run_expectMark scope c₁ ")" hes.closes hsound₁
  have hitems : bracketed (separated ")" (rs .assignment)) scope (c.next scope.bound) = some (es, c₁) :=
    (hes.separated (by simp)).run hbound
  have hliteral : isLiteralKey c.token = false := by rw [isLiteralKey, h]
  rcases es with _ | ⟨e₁, _ | ⟨e₂, es⟩⟩
  · exact absurd rfl hne
  · refine ⟨.node .paren ⟨c.token.start, c₁.token.stop⟩ "" [e₁], ?_, rfl, rfl⟩
    simp [primary, hliteral, isMark_of_mark h, parenthesized, run_bind_of hopened, run_bind_of hitems,
      run_bind_of hclosed, not_loose hloose, run_bind_of run_faultIf_false]
    rfl
  · refine ⟨.node .paren ⟨c.token.start, c₁.token.stop⟩ "" [.node .sequence
      ⟨(c.next scope.bound).token.start, c₁.lastStop⟩ "" (e₁ :: e₂ :: es)], ?_, rfl, rfl⟩
    simp [primary, hliteral, isMark_of_mark h, parenthesized, run_bind_of hopened, run_bind_of hitems,
      run_bind_of hclosed, not_loose hloose, run_bind_of run_faultIf_false]
    rfl

end Script
end StoryDocs
