import StoryDocs.Proofs.Script.Operand
import StoryDocs.Proofs.Script.Shape
import StoryDocs.Proofs.Script.Tokens

/-!
# Values

Texts that are read as one value wherever a value can stand: the grammar reads them up to a separator or a
closing bracket, whatever stands behind it.  Names, the words for truth values and strings are read as operands.
-/

namespace StoryDocs
namespace Script

open Text Grammar

variable {bound d n stop : Nat} {g rest s text w : List Char} {shape : Shape} {scope : Scope} {c : Cursor}
  {lexeme : Lexeme} {tree : Tree}

/-- A text that goes on with a separator or a closing bracket. -/
def ClosesText (rest : List Char) : Prop :=
  ∃ g c k, IsGap g ∧ c ∈ [',', ';', ')', ']', '\x7d'] ∧ rest = g ++ c :: k

theorem ClosesText.closes (h : ClosesText rest) (bound n : Nat) :
    (Cursor.front bound rest n).token.Closes := by
  obtain ⟨g, c, k, hg, hc, rfl⟩ := h
  have hmarks : ∀ d ∈ [',', ';', ')', ']', '\x7d'], d ∈ loneMarks ∧
      String.ofList [d] ∈ [",", ";", ")", "]", "\x7d"] := by decide
  have hat := @Cursor.at_mark bound n c g k hg (hmarks c hc).1
  exact ⟨String.ofList [c], (hmarks c hc).2, hat.lexeme⟩

theorem ClosesText.endsWord (h : ClosesText rest) : EndsWord rest := by
  obtain ⟨g, c, k, hg, hc, rfl⟩ := h
  have hends : ∀ d ∈ [',', ';', ')', ']', '\x7d'], isIdentifierPart d = false ∧ d ≠ '\\' := by decide
  exact hg.endsWord (hends c hc).1 (hends c hc).2 k

/-- A text that is read as a value of the given shape. -/
def ReadsValue (text : List Char) (shape : Shape) : Prop :=
  ∀ (scope : Scope) (depth n : Nat) (g rest : List Char), scope.inGenerator = false →
    IsGap g → ClosesText rest → (g ++ text ++ rest).length < scope.bound →
      8 * text.length ≤ depth →
        ∃ tree stop, rules depth .assignment scope (.front scope.bound (g ++ text ++ rest) n) =
            some (tree, .front scope.bound rest stop) ∧ tree.shape = shape

/-! ## Strings -/

theorem startsOperand_string {value : String} (h : c.token.lexeme = .string value) :
    c.token.StartsOperand :=
  ⟨fun m _ => isMark_of_string h m, fun w _ => isWord_of_string h w⟩

theorem primary_string {value : String} (h : c.token.lexeme = .string value) (hsound : c.token.Sound)
    (rs : Rules) : primary rs scope c =
      some (.node .string ⟨c.token.start, c.token.stop⟩ value [], c.next scope.bound) := by
  have hliteral : isLiteralKey c.token = true := by rw [isLiteralKey, h]
  simp [primary, literalKey, hliteral, h, run_map, run_advance hsound]

/-! ## Words -/

/-- The words that are values. -/
def literalWords : List (String × Kind × String) :=
  [("true", .boolean, "true"), ("false", .boolean, "false"), ("null", .nullLiteral, "")]

theorem primary_literalWord {name value : String} {kind : Kind}
    (hmem : (name, kind, value) ∈ literalWords) (h : c.token.lexeme = .word name false)
    (hsound : c.token.Sound) (rs : Rules) : primary rs scope c =
      some (.node kind ⟨c.token.start, c.token.stop⟩ value [], c.next scope.bound) := by
  have hliteral : isLiteralKey c.token = false := by rw [isLiteralKey, h]
  have hword := isWord_of_word h
  have hmark := isMark_of_word h
  simp only [literalWords, List.mem_cons, Prod.mk.injEq, List.not_mem_nil, or_false] at hmem
  rcases hmem with ⟨rfl, rfl, rfl⟩ | ⟨rfl, rfl, rfl⟩ | ⟨rfl, rfl, rfl⟩
  all_goals
    have hasync : atAsyncFunction scope c = some (false, c) := by simp [atAsyncFunction, hword]
    simp [primary, hliteral, hmark, hword, run_bind_of hasync, wordLiteral?, advance_bind_run hsound]
    rfl

/-- A name of a value that scripts give no meaning of its own. -/
structure ValueName (name : String) : Prop where
  not_reserved : isReserved name = false
  ne_async : name ≠ "async"
  ne_arguments : name ≠ "arguments"

instance decidableValueName (name : String) : Decidable (ValueName name) :=
  decidable_of_iff (isReserved name = false ∧ name ≠ "async" ∧ name ≠ "arguments")
    ⟨fun ⟨h, h', h''⟩ => ⟨h, h', h''⟩, fun ⟨h, h', h''⟩ => ⟨h, h', h''⟩⟩

theorem ValueName.ne_of_reserved {name word : String} (h : ValueName name)
    (hword : isReserved word = true) : name ≠ word := by
  rintro rfl
  rw [h.not_reserved] at hword
  cases hword

theorem primary_name {name : String} (hname : ValueName name) (h : c.token.lexeme = .word name false)
    (hsound : c.token.Sound) (rs : Rules) : primary rs scope c =
      some (.node .identifier ⟨c.token.start, c.token.stop⟩ name [], c.next scope.bound) := by
  have hliteral : isLiteralKey c.token = false := by rw [isLiteralKey, h]
  have hmark := isMark_of_word h
  have hword : ∀ w, isReserved w = true → isWord c.token w = false := by
    intro w hw
    rw [isWord_of_word h, beq_eq_false_iff_ne]
    exact hname.ne_of_reserved hw
  have hasync : atAsyncFunction scope c = some (false, c) := by
    simp [atAsyncFunction, isWord_of_word h, hname.ne_async]
  have hplain : wordLiteral? c.token = none := by
    simp [wordLiteral?, hword "this" rfl, hword "null" rfl, hword "true" rfl, hword "false" rfl]
  have hreserved := hname.not_reserved
  rw [isReserved, Bool.or_eq_false_iff] at hreserved
  have hreference : reference scope c =
      some (.node .identifier ⟨c.token.start, c.token.stop⟩ name [], c.next scope.bound) := by
    have harguments : (name == "arguments") = false := beq_eq_false_iff_ne.mpr hname.ne_arguments
    simp only [reference, token_bind_run, h, require_bind_run, hreserved.1, hreserved.2, Bool.not_false,
      if_true, run_bind_of run_faultIf_false, read_bind_run, harguments, Bool.false_and,
      advance_bind_run hsound, run_pure]
  simp [primary, hliteral, hmark, hword "class" rfl, hword "function" rfl, run_bind_of hasync, hplain, h,
    hreference]

end Script
end StoryDocs
