import StoryDocs.Proofs.Script.Atoms.Patterns
import StoryDocs.Script.Grammar.Operator

/-!
# Literals, arguments and operators read

Array and object literals and arguments leave the brackets open that are open, and the literals of what they
build are closed.  An operator is read from the text of its token, and is an atom of its own.
-/

namespace StoryDocs
namespace Script

open Grammar

variable {rules : Rules} {scope : Scope} {c c' : Cursor} {text : List Char} {stack : List (Bracket × Nat)}
  {held : Multiset Literal} {b : Bool} {t key : Tree} {u : Unit}

/-! ## Array and object literals -/

@[grind →] theorem reads_spreadable (hr : rules.Sound) : Reads (spreadable rules) Tree.literals := by
  intro scope c t c' text stack held h hc
  have hrules := hr.reads
  rw [spreadable] at h
  simp only [↓yields_looks, yields_bind, yields_ite, yields_finish] at h
  grind -linarith

@[grind →] theorem reads_arguments (hr : rules.Sound) : Reads (arguments rules) Tree.literals := by
  intro scope c t c' text stack held h hc
  have hitems := Reads.separated ")" (reads_spreadable hr)
  rw [arguments] at h
  simp only [↓yields_looks, yields_bind, yields_finish] at h
  grind -linarith

@[grind →] theorem reads_arrayItems (hr : rules.Sound) : Reads (arrayItems rules) Tree.literalsOf := by
  intro scope c t c' text stack held h hc
  rw [arrayItems] at h
  refine stands_repeatFrom h Tree.literalsOf Tree.literalsOf (fun done c r c' text stack held h hc => ?_)
    (by simpa using hc)
  simp only [↓yields_looks, yields_bind, yields_ite, yields_pure, yields_finish] at h
  grind -linarith

@[grind →] theorem reads_array (hr : rules.Sound) : Reads (array rules) Tree.literals := by
  intro scope c t c' text stack held h hc
  rw [array] at h
  simp only [↓yields_looks, yields_bind, yields_finish] at h
  grind -linarith

theorem stands_objectMethod {kind : Kind} {start : Nat} {isAsync isGenerator : Bool} (hr : rules.Sound)
    (hk : kind.isLiteral = false)
    (h : Yields (objectMethod rules start kind key isAsync isGenerator) scope c t c')
    (hc : Stands text stack (held + key.literals) c) : Stands text stack (held + t.literals) c' := by
  rw [objectMethod] at h
  simp only [yields_bind, yields_ite, yields_finish] at h
  obtain ⟨tail, c₁, htail, h⟩ := h
  have hstands := reads_functionTail hr htail hc
  clear htail hc
  grind -linarith

grind_pattern stands_objectMethod => Yields (objectMethod rules start kind key isAsync isGenerator) scope c t c',
  Stands text stack (held + key.literals) c

@[grind →] theorem stands_shorthand {start : Nat} (hr : rules.Sound)
    (h : Yields (shorthand rules start key) scope c t c') (hc : Stands text stack held c) :
    Stands text stack (held + t.literals) c' := by
  have hrules := hr.reads
  rw [shorthand] at h
  simp only [yields_bind, yields_ite, yields_finish] at h
  grind -linarith

@[grind →] theorem yields_atMethod (h : Yields atMethod scope c b c') : c' = c := by
  rw [atMethod] at h
  simp only [↓yields_looks] at h
  grind -linarith

@[grind →] theorem reads_objectProperty (hr : rules.Sound) : Reads (objectProperty rules) Tree.literals := by
  intro scope c t c' text stack held h hc
  have hrules := hr.reads
  rw [objectProperty] at h
  simp only [↓yields_looks, yields_bind, yields_ite, yields_finish] at h
  split at h
  · grind -linarith
  obtain ⟨_, c₁, hstar, h⟩ := h
  split at h
  · grind -linarith
  obtain ⟨key, c₂, hkey, _, c₃, hcolon, h⟩ := h
  have hstands : Stands text stack (held + key.literals) c₃ := by
    grind -linarith
  clear hstar hkey hcolon hc
  split at h
  · grind -linarith
  obtain ⟨_, c₄, hmethod, h⟩ := h
  obtain rfl := yields_atMethod hmethod
  clear hmethod
  split at h
  · grind -linarith
  obtain ⟨_, _, c₅, hmark, h⟩ := h
  have hbehind : Stands text stack (held + key.literals) c₅ := by
    grind -linarith
  clear hmark hstands
  -- What was read as the name of the property may turn out to be a modifier.
  replace hbehind := hbehind.drop
  split at h
  · obtain ⟨_, c₆, hfault, h⟩ := h
    replace hbehind := stands_fault hfault hbehind
    clear hfault
    grind -linarith
  · grind -linarith

@[grind →] theorem reads_object (hr : rules.Sound) : Reads (object rules) Tree.literals := by
  intro scope c t c' text stack held h hc
  have hitems := Reads.separated "\x7d" (reads_objectProperty hr)
  rw [object] at h
  simp only [↓yields_looks, yields_bind, yields_finish] at h
  grind -linarith

/-! ## Operators -/

/-- An operator stands at a token: its signs one after the other, or the token as a whole. -/
def Token.Shows (t : Token) (op : String) : Prop :=
  (t.lexeme ≠ .bad ∧ (∀ c ∈ op.toList, c ∈ markChars) ∧ ∃ tail, t.here = op.toList ++ tail) ∨
    (t.isPlain = true ∧ (t.lexeme = .mark op ∨ t.lexeme = .word op false))

theorem angleOperator?_eq {s : List Char} {op : String} {level : Nat} (h : angleOperator? s = some (op, level)) :
    (∀ c ∈ op.toList, c ∈ markChars) ∧ ∃ tail, s = op.toList ++ tail := by
  rw [angleOperator?.eq_def] at h
  split at h
  all_goals first
    | cases h
      done
    | obtain ⟨rfl, rfl⟩ := Prod.mk.inj (Option.some.inj h)
      exact ⟨by decide, _, rfl⟩

theorem Token.shows_of_operatorAt {t : Token} {op : String} {level : Nat}
    (h : operatorAt t b = some (op, level)) : t.Shows op := by
  rw [operatorAt] at h
  split at h
  · rename_i m hlexeme
    split at h
    · exact .inl ⟨by simp [hlexeme], angleOperator?_eq h⟩
    · have hfound := List.find?_some h
      have hmember := List.mem_of_find?_eq_some h
      obtain rfl : op = m := by simpa using hfound
      have hplain : ∀ x ∈ operatorTable, isBracketMark x.1 = false := by decide
      exact .inr ⟨by simp [Token.isPlain, hlexeme, hplain _ hmember], .inl hlexeme⟩
  · rename_i hlexeme
    split at h
    · obtain ⟨rfl, rfl⟩ := Prod.mk.inj (Option.some.inj h)
      exact .inr ⟨by simp [Token.isPlain, hlexeme], .inr hlexeme⟩
    · cases h
  · rename_i hlexeme
    obtain ⟨rfl, rfl⟩ := Prod.mk.inj (Option.some.inj h)
    exact .inr ⟨by simp [Token.isPlain, hlexeme], .inr hlexeme⟩
  · cases h

theorem Token.shows_of_assignmentAt {t : Token} {op : String} (h : assignmentAt t = some op) : t.Shows op := by
  rw [assignmentAt] at h
  split at h
  · rename_i m hlexeme
    split at h
    · split at h
      · rename_i hhere
        obtain rfl := Option.some.inj h
        exact .inl ⟨by simp [hlexeme], by decide, _, hhere⟩
      · rename_i hhere
        obtain rfl := Option.some.inj h
        exact .inl ⟨by simp [hlexeme], by decide, _, hhere⟩
      · rename_i hhere
        obtain rfl := Option.some.inj h
        exact .inl ⟨by simp [hlexeme], by decide, _, hhere⟩
      · cases h
    · have hfound := List.find?_some h
      have hmember := List.mem_of_find?_eq_some h
      obtain rfl : op = m := by simpa using hfound
      have hplain : ∀ x ∈ assignmentMarks, isBracketMark x = false := by decide
      exact .inr ⟨by simp [Token.isPlain, hlexeme, hplain _ hmember], .inl hlexeme⟩
  · cases h

theorem stands_skipOperator {op : String} (h : Yields (skipOperator op) scope c u c')
    (hop : c.token.Shows op) (hc : Stands text stack held c) : Stands text stack held c' := by
  rw [skipOperator] at h
  simp only [↓yields_looks, yields_bind] at h
  obtain ⟨_, c₁, hfault, hresume⟩ := h
  obtain rfl := yields_resumeAt hresume
  rcases hop with ⟨hbad, hchars, tail, hhere⟩ | ⟨hplain, hlexeme⟩
  · have hfront := hc.front hbad
    rw [hhere] at hfront
    have hbehind := hfront.leaf hc.1 (k := .mark) (MarkText.plain hchars) (by simp)
    rw [String.length_toList] at hbehind
    refine ⟨hc.1, _, _, scope.bound, hbehind, ?_⟩
    simp only
    rw [hhere, ← String.length_toList, List.drop_left]
  · have hbad : c.token.lexeme ≠ .bad := by
      rcases hlexeme with hlexeme | hlexeme
      · simp [hlexeme]
      · simp [hlexeme]
    obtain ⟨part, _, hhere, hstop, hspells⟩ := hc.exists_spells hbad
    have hpart : part = op.toList := by
      rcases hlexeme with hlexeme | hlexeme
      · rw [Token.Spells, hlexeme] at hspells
        exact hspells.1
      · rw [Token.Spells, hlexeme] at hspells
        exact hspells.2 rfl
    subst hpart
    refine ⟨hc.1, _, _, scope.bound, hc.behind hplain, ?_⟩
    simp only
    rw [hhere, hstop, ← String.length_toList, List.drop_left]

@[grind →] theorem stands_checkStore {target : Tree} (h : Yields (checkStore target b) scope c u c')
    (hc : Stands text stack held c) : Stands text stack held c' := by
  rw [checkStore] at h
  simp only [↓yields_looks, yields_ite] at h
  grind -linarith

/-- What is stored into has the literals of what was read. -/
theorem stands_storeTarget {left : Tree} (h : Yields (storeTarget left) scope c t c')
    (hc : Stands text stack (held + left.literals) c) : Stands text stack (held + t.literals) c' := by
  rw [storeTarget] at h
  simp only [↓yields_looks, yields_bind, yields_ite, yields_pure] at h
  grind -linarith [Tree.literals_asPattern]

end Script
end StoryDocs
