import StoryDocs.Proofs.Script.Atoms.Lexing
import StoryDocs.Script.Grammar.Name

/-!
# Places in a script

A place is reached when the text in front of it is cut into atoms.  `Stands` says so of a cursor: the token
is read right behind the atoms, and what is open and which literals are closed is known.  Every move of a
rule comes down to one of the moves here: over a plain token, a string, or a bracket.
-/

namespace StoryDocs
namespace Script

open Text

variable {text s rest part : List Char} {n : Nat} {stack : List (Bracket × Nat)} {held held' : Multiset Literal}

/-! ## Stacks -/

/-- Code stands in templates only behind the mark that opens it, and that mark stands nowhere else. -/
def Nested : List (Bracket × Nat) → Prop
  | [] => True
  | (b, _) :: stack => (Nesting.InTemplate stack ↔ b = .hole) ∧ Nested stack

theorem nested_step {m m' : Nesting} {a : Atom} (h : m.step a = some m') (hm : Nested m.stack) :
    Nested m'.stack := by
  rw [Nesting.step] at h
  split at h
  · split at h
    · rename_i hopen
      rw [← Option.some.inj h]
      exact ⟨hopen, hm⟩
    · cases h
  · split at h
    · rename_i hstack
      split at h
      · rw [← Option.some.inj h]
        rw [hstack] at hm
        exact hm.2
      · cases h
    · cases h
  · split at h
    · rw [← Option.some.inj h]
      exact hm
    · cases h
  · split at h
    · cases h
    · rw [← Option.some.inj h]
      exact hm
  · split at h
    · cases h
    · rw [← Option.some.inj h]
      exact hm

theorem nested_run {m m' : Nesting} {as : List Atom} (h : m.run as = some m') (hm : Nested m.stack) :
    Nested m'.stack := by
  induction as generalizing m with
  | nil =>
      rw [← Option.some.inj h]
      exact hm
  | cons a as ih =>
      obtain ⟨m₁, hstep, hrun⟩ := Option.bind_eq_some_iff.mp h
      exact ih hrun (nested_step hstep hm)

/-! ## Reached places -/

/-- The text in front of `rest` is cut into atoms that have `n` characters, leave the brackets of `stack`
open and close the literals of `held` and perhaps more. -/
def Reached (text : List Char) (stack : List (Bracket × Nat)) (held : Multiset Literal) (rest : List Char)
    (n : Nat) : Prop :=
  ∃ as literals, Cuts text as rest ∧ Nesting.start.run as = some ⟨n, stack, literals⟩ ∧ held ≤ literals

namespace Reached

theorem start (text : List Char) : Reached text [] 0 text 0 :=
  ⟨[], 0, .nil, rfl, le_refl _⟩

theorem mono (h : Reached text stack held rest n) (hle : held' ≤ held) : Reached text stack held' rest n := by
  obtain ⟨as, literals, hcuts, hrun, hheld⟩ := h
  exact ⟨as, literals, hcuts, hrun, le_trans hle hheld⟩

theorem nested (h : Reached text stack held rest n) : Nested stack := by
  obtain ⟨as, literals, _, hrun, _⟩ := h
  exact nested_run hrun trivial

/-- One more atom. -/
theorem step {a : Atom} {stack' : List (Bracket × Nat)} {new : Multiset Literal}
    (h : Reached text stack held (a.text ++ rest) n) (hfits : a.Fits rest)
    (hstep : ∀ literals, Nesting.step ⟨n, stack, literals⟩ a =
      some ⟨n + a.text.length, stack', literals + new⟩) :
    Reached text stack' (held + new) rest (n + a.text.length) := by
  obtain ⟨as, literals, hcuts, hrun, hheld⟩ := h
  refine ⟨as ++ [a], literals + new, hcuts.append (.one hfits), ?_, add_le_add hheld (le_refl _)⟩
  rw [Nesting.run_append, hrun]
  show (Nesting.step _ a).bind some = _
  rw [hstep]
  rfl

/-- An atom of code that is neither a bracket nor a literal. -/
theorem leaf {k : AtomKind} (h : Reached text stack held (part ++ rest) n)
    (hcode : ¬Nesting.InTemplate stack) (hfits : Atom.Fits ⟨k, part⟩ rest)
    (hk : k ≠ .string ∧ k ≠ .templateText ∧ (∀ b, k ≠ .opening b) ∧ ∀ b, k ≠ .closing b) :
    Reached text stack held rest (n + part.length) := by
  have hstep := @Reached.step _ _ _ _ _ ⟨k, part⟩ stack 0 h hfits fun literals => by
    obtain ⟨hstring, htemplate, hopening, hclosing⟩ := hk
    rw [Nesting.step, add_zero]
    dsimp only
    split
    · exact absurd rfl (hopening _)
    · exact absurd rfl (hclosing _)
    · exact absurd rfl htemplate
    · exact absurd rfl hstring
    · rw [if_neg hcode]
  rwa [add_zero] at hstep

theorem gap {gap : List Atom} {s : List Char} (h : Reached text stack held s n)
    (hcode : ¬Nesting.InTemplate stack) (hgap : ∀ a ∈ gap, a.IsGap) (hcuts : Cuts s gap rest) :
    Reached text stack held rest (n + extentOf gap) := by
  induction hcuts generalizing n with
  | nil => exact h
  | @cons a as s rest ha _ ih =>
      obtain ⟨hfirst, hothers⟩ := List.forall_mem_cons.mp hgap
      have hk : a.kind ≠ .string ∧ a.kind ≠ .templateText ∧ (∀ b, a.kind ≠ .opening b) ∧
          ∀ b, a.kind ≠ .closing b := by
        rcases hfirst with hkind | hkind | hkind
        · rw [hkind]
          simp
        · rw [hkind]
          simp
        · rw [hkind]
          simp
      rw [extentOf_cons, ← Nat.add_assoc]
      exact ih (leaf h hcode ha hk) hothers

theorem string (h : Reached text stack held (part ++ rest) n) (hcode : ¬Nesting.InTemplate stack)
    (hfits : Atom.Fits ⟨.string, part⟩ rest) :
    Reached text stack (held + {.string ⟨n, n + part.length⟩}) rest (n + part.length) :=
  @Reached.step _ _ _ _ _ ⟨.string, part⟩ stack _ h hfits fun literals => by
    rw [Nesting.step]
    dsimp only
    rw [if_neg hcode]

theorem templateText (h : Reached text ((.template, n₀) :: stack) held (part ++ rest) n)
    (hfits : TemplateText part) :
    Reached text ((.template, n₀) :: stack) held rest (n + part.length) := by
  have hstep := @Reached.step _ _ _ _ _ ⟨.templateText, part⟩ ((.template, n₀) :: stack) 0 h hfits
    fun literals => by
      rw [Nesting.step, add_zero]
      dsimp only
      rw [if_pos (by trivial)]
  rwa [add_zero] at hstep

theorem opening {b : Bracket} (h : Reached text stack held (b.opening ++ rest) n)
    (hb : Nesting.InTemplate stack ↔ b = .hole) :
    Reached text ((b, n) :: stack) held rest (n + b.opening.length) := by
  have hstep := @Reached.step _ _ _ _ _ ⟨.opening b, b.opening⟩ ((b, n) :: stack) 0 h rfl fun literals => by
    rw [Nesting.step, add_zero]
    dsimp only
    rw [if_pos hb]
  rwa [add_zero] at hstep

theorem closing {b : Bracket} {n₀ : Nat} (h : Reached text ((b, n₀) :: stack) held (b.closing ++ rest) n) :
    Reached text stack (held + Nesting.closed b ⟨n₀, n + b.closing.length⟩) rest (n + b.closing.length) :=
  @Reached.step _ _ _ _ _ ⟨.closing b, b.closing⟩ stack _ h rfl fun literals => by
    rw [Nesting.step]
    dsimp only
    rw [if_pos rfl]

end Reached

/-! ## Cursors -/

/-- The text in front of the token of a cursor is cut into atoms, and code is next. -/
def Stands (text : List Char) (stack : List (Bracket × Nat)) (held : Multiset Literal) (c : Cursor) : Prop :=
  ¬Nesting.InTemplate stack ∧
    ∃ s n bound, Reached text stack held s n ∧ c.token = Token.read bound s n

/-- Whether a mark is a bracket or a backtick. -/
def isBracketMark (m : String) : Bool :=
  m == "(" || m == ")" || m == "[" || m == "]" || m == "\x7b" || m == "\x7d" || m == "\x60"

/-- Whether a token can be moved over without a change of the brackets that are open. -/
def Token.isPlain (t : Token) : Bool :=
  match t.lexeme with
  | .bad => false
  | .done => false
  | .mark m => !isBracketMark m
  | _ => true

namespace Stands

variable {c c' : Cursor}

theorem mono (h : Stands text stack held c) (hle : held' ≤ held) : Stands text stack held' c := by
  obtain ⟨hcode, s, n, bound, hreached, htoken⟩ := h
  exact ⟨hcode, s, n, bound, hreached.mono hle, htoken⟩

/-- What is read and thrown away again. -/
theorem drop (h : Stands text stack (held + held') c) : Stands text stack held c :=
  h.mono (Multiset.le_add_right _ _)

theorem congr (h : Stands text stack held c) (htoken : c'.token = c.token) : Stands text stack held c' := by
  obtain ⟨hcode, s, n, bound, hreached, hread⟩ := h
  exact ⟨hcode, s, n, bound, hreached, htoken.trans hread⟩

/-- The token stands at a place behind a gap. -/
theorem exists_spells (h : Stands text stack held c) (hbad : c.token.lexeme ≠ .bad) :
    ∃ part, Reached text stack held (part ++ c.token.rest) c.token.start ∧
      c.token.here = part ++ c.token.rest ∧ c.token.stop = c.token.start + part.length ∧
      c.token.Spells part := by
  obtain ⟨hcode, s, n, bound, hreached, htoken⟩ := h
  rw [htoken] at hbad ⊢
  obtain ⟨gap, part, hcut⟩ := Token.exists_cut hbad
  have hfront := hreached.gap hcode hcut.between hcut.cuts
  rw [hcut.here_eq, ← hcut.start_eq] at hfront
  exact ⟨part, hfront, hcut.here_eq, hcut.stop_eq, hcut.spells⟩

theorem front (h : Stands text stack held c) (hbad : c.token.lexeme ≠ .bad) :
    Reached text stack held c.token.here c.token.start := by
  obtain ⟨part, hreached, hhere, _, _⟩ := h.exists_spells hbad
  rw [hhere]
  exact hreached

/-- A token that cannot be read stands behind a gap too. -/
theorem front_of_here {first : Char} {s : List Char} (h : Stands text stack held c)
    (hhere : c.token.here = first :: s) : Reached text stack held (first :: s) c.token.start := by
  obtain ⟨hcode, s', n, bound, hreached, htoken⟩ := h
  obtain ⟨hrest, hstart⟩ := Token.readHere_here bound (skipGap s' n false)
  rw [htoken, Token.read] at hhere ⊢
  rw [hrest] at hhere
  have hclosed : (skipGap s' n false).closed = true := by
    by_contra hopen
    rw [rest_skipGap s' n false (by simpa using hopen)] at hhere
    cases hhere
  obtain ⟨gap, hgap, hcuts, hoffset, _⟩ := cuts_skipGap s' n false hclosed
  rw [hhere] at hcuts
  rw [hstart, hoffset]
  exact hreached.gap hcode hgap hcuts

/-- A place of code is where a cursor stands that reads on there. -/
theorem of_reached (h : Reached text stack held s n) (hcode : ¬Nesting.InTemplate stack) {bound : Nat}
    (htoken : c.token = Token.read bound s n) : Stands text stack held c :=
  ⟨hcode, s, n, bound, h, htoken⟩

theorem behind (h : Stands text stack held c) (hplain : c.token.isPlain = true) :
    Reached text stack held c.token.rest c.token.stop := by
  have hcode := h.1
  have hbad : c.token.lexeme ≠ .bad := by
    intro hlexeme
    rw [Token.isPlain, hlexeme] at hplain
    cases hplain
  obtain ⟨part, hreached, _, hstop, hspells⟩ := h.exists_spells hbad
  rw [hstop]
  -- Brackets are left out, since they change the stack; every other token is a leaf.
  cases hlexeme : c.token.lexeme with
  | bad => exact absurd hlexeme hbad
  | done =>
      rw [Token.isPlain, hlexeme] at hplain
      cases hplain
  | word name escaped =>
      rw [Token.Spells, hlexeme] at hspells
      exact hreached.leaf hcode hspells.1 (by simp)
  | hash name =>
      rw [Token.Spells, hlexeme] at hspells
      exact hreached.leaf hcode hspells (by simp)
  | string value =>
      rw [Token.Spells, hlexeme] at hspells
      exact (hreached.string hcode hspells).mono (Multiset.le_add_right _ _)
  | number =>
      rw [Token.Spells, hlexeme] at hspells
      exact hreached.leaf hcode hspells (by simp)
  | bigint =>
      rw [Token.Spells, hlexeme] at hspells
      exact hreached.leaf hcode hspells (by simp)
  | mark m =>
      rw [Token.Spells, hlexeme] at hspells
      rw [Token.isPlain, hlexeme] at hplain
      obtain ⟨rfl, hmark | hfits⟩ := hspells
      · have hbrackets : ∀ m ∈ ["(", ")", "[", "]", "\x7b", "\x7d", "\x60"], isBracketMark m = true := by decide
        simp [hbrackets m hmark] at hplain
      · exact hreached.leaf hcode hfits (by simp)

theorem behind_string {value : String} (h : Stands text stack held c) (hstring : c.token.lexeme = .string value) :
    Reached text stack (held + {.string ⟨c.token.start, c.token.stop⟩}) c.token.rest c.token.stop := by
  obtain ⟨part, hreached, _, hstop, hspells⟩ := h.exists_spells (by rw [hstring]; simp)
  rw [Token.Spells, hstring] at hspells
  rw [hstop]
  exact hreached.string h.1 hspells

theorem behind_opening {b : Bracket} {m : String} (h : Stands text stack held c)
    (hmark : c.token.lexeme = .mark m) (hm : m.toList = b.opening) (hb : b ≠ .hole) :
    Reached text ((b, c.token.start) :: stack) held c.token.rest c.token.stop := by
  obtain ⟨part, hreached, _, hstop, hspells⟩ := h.exists_spells (by rw [hmark]; simp)
  rw [Token.Spells, hmark] at hspells
  obtain ⟨rfl, _⟩ := hspells
  rw [hm] at hreached hstop
  rw [hstop]
  exact hreached.opening ⟨fun hin => absurd hin h.1, fun hhole => absurd hhole hb⟩

theorem behind_closing {b : Bracket} {m : String} {k : Nat} (h : Stands text ((b, k) :: stack) held c)
    (hmark : c.token.lexeme = .mark m) (hm : m.toList = b.closing) :
    Reached text stack (held + Nesting.closed b ⟨k, c.token.stop⟩) c.token.rest c.token.stop := by
  obtain ⟨part, hreached, _, hstop, hspells⟩ := h.exists_spells (by rw [hmark]; simp)
  rw [Token.Spells, hmark] at hspells
  obtain ⟨rfl, _⟩ := hspells
  rw [hm] at hreached hstop
  rw [hstop]
  exact hreached.closing

/-- Behind a bracket that is closed stands code again, unless the bracket closed code in a template. -/
theorem code_behind {b : Bracket} {k : Nat} (h : Stands text ((b, k) :: stack) held c) (hb : b ≠ .hole) :
    ¬Nesting.InTemplate stack := by
  obtain ⟨_, s, n, bound, hreached, _⟩ := h
  exact fun hin => hb (hreached.nested.1.mp hin)

end Stands

end Script
end StoryDocs
