import StoryDocs.Proofs.Script.Atoms.Reads

/-!
# Names and templates read

The rules for names and keys leave the brackets open that are open, and the literals of what they build are closed.
Templates and regular expressions are read from the text of their first token.  A template is reached place by place:
characters of the template, and between them code behind a mark of its own.
-/

namespace StoryDocs
namespace Script

open Grammar

variable {rules : Rules} {scope : Scope} {c c' : Cursor} {text s : List Char} {n : Nat}
  {stack : List (Bracket × Nat)} {held : Multiset Literal} {b : Bool}

/-! ## Names -/

@[grind →] theorem reads_anyName : Reads anyName Tree.literals := by
  intro scope c t c' text stack held h hc
  simp only [anyName, yields_bind] at h
  grind -linarith [Token.isPlain]

@[grind →] theorem literals_anyName {t : Tree} (h : Yields anyName scope c t c') : t.literals = 0 := by
  simp only [anyName, yields_bind] at h
  grind -linarith

@[grind →] theorem reads_reference : Reads reference Tree.literals := by
  intro scope c t c' text stack held h hc
  simp only [reference, yields_bind] at h
  obtain ⟨t, c₁, htoken, h⟩ := h
  split at h
  · simp only [yields_bind] at h
    grind -linarith [Token.isPlain]
  · grind -linarith

@[grind →] theorem reads_bindingName : Reads bindingName Tree.literals := by
  intro scope c t c' text stack held h hc
  simp only [bindingName, yields_bind] at h
  obtain ⟨t, c₁, htoken, h⟩ := h
  split at h
  · simp only [yields_bind] at h
    grind -linarith [Token.isPlain]
  · grind -linarith

@[grind →] theorem reads_privateName : Reads privateName Tree.literals := by
  intro scope c t c' text stack held h hc
  simp only [privateName, yields_bind] at h
  grind -linarith [Token.isPlain]

@[grind →] theorem reads_stringToken : Reads stringToken Tree.literals := by
  intro scope c t c' text stack held h hc
  simp only [stringToken, yields_bind] at h
  grind -linarith [stands_string]

@[grind →] theorem reads_literalKey : Reads literalKey Tree.literals := by
  intro scope c t c' text stack held h hc
  simp only [literalKey, yields_bind] at h
  grind -linarith [stands_string, Token.isPlain]

@[grind →] theorem reads_propertyKey (hr : rules.Sound) : Reads (propertyKey rules) Tree.literals := by
  intro scope c t c' text stack held h hc
  have hrules := hr.reads
  simp only [propertyKey, yields_bind, yields_ite] at h
  grind -linarith [→ expectMark_of_advance]

@[grind →] theorem yields_atString (h : Yields atString scope c b c') : c' = c := by
  simp only [atString, yields_bind] at h
  grind -linarith

@[grind →] theorem reads_moduleName : Reads moduleName Tree.literals := by
  intro scope c t c' text stack held h hc
  simp only [moduleName, yields_bind, yields_ite] at h
  grind -linarith

@[grind →] theorem stands_modifier? {allowed : List String} {m : Option String}
    (h : Yields (modifier? allowed) scope c m c') (hc : Stands text stack held c) :
    Stands text stack held c' := by
  simp only [modifier?, yields_bind] at h
  grind -linarith [Token.isPlain]

/-! ## Templates -/

theorem literals_tagText (sp : Span) (name : String) : (Tree.node .tagText sp name []).literals = 0 := rfl

/-- Characters of a template up to the code in it. -/
theorem Reached.code {tagged : Bool} {bound start : Nat} {scan : TemplateScan}
    (h : Reached text ((.template, start) :: stack) held s n)
    (hscan : scanTemplate tagged bound s 0 = some scan) (hcode : scan.opensCode = true) :
    ∃ k, Reached text ((.hole, k) :: (.template, start) :: stack) held scan.rest (n + scan.size) := by
  obtain ⟨part, hpart, ⟨_, rfl, hsize⟩ | ⟨hfalse, _⟩⟩ := scanTemplate_eq hscan
  · have hopen := @Reached.opening _ scan.rest _ _ _ .hole (h.templateText hpart) (by simp [Nesting.InTemplate])
    refine ⟨n + part.length, ?_⟩
    rw [hsize, show n + (0 + part.length + 2) = n + part.length + 2 by omega]
    exact hopen
  · rw [hcode] at hfalse
    cases hfalse

/-- Characters of a template up to its end. -/
theorem Reached.closed {tagged : Bool} {bound start : Nat} {scan : TemplateScan}
    (h : Reached text ((.template, start) :: stack) held s n)
    (hscan : scanTemplate tagged bound s 0 = some scan) (hcode : scan.opensCode = false) :
    Reached text stack (held + {.template ⟨start, n + scan.size⟩}) scan.rest (n + scan.size) := by
  obtain ⟨part, hpart, ⟨htrue, _⟩ | ⟨_, rfl, hsize⟩⟩ := scanTemplate_eq hscan
  · rw [hcode] at htrue
    cases htrue
  · have hclose := @Reached.closing _ scan.rest _ _ _ .template _ (h.templateText hpart)
    rw [hsize, show n + (0 + part.length + 1) = n + part.length + 1 by omega]
    exact hclose

theorem reads_templateWith {tagged : Bool} {kind : Kind} {part : Parse Tree}
    (hkind : kind = .template ∨ kind = .typeTemplate) (hpart : Reads part Tree.literals) :
    Reads (templateWith tagged kind part) Tree.literals := by
  intro scope c t c' text stack held h hc
  simp only [templateWith, yields_bind, yields_token, yields_require, yields_read] at h
  obtain ⟨_, c₁, ⟨rfl, h₁⟩, _, c₂, ⟨hmark, h₂⟩, _, c₃, ⟨rfl, h₃⟩, h⟩ := h
  subst c₃ c₂ c₁
  have hopen := hc.behind_opening (b := .template) (lexeme_of_isMark hmark) rfl (by decide)
  refine yields_repeatFrom
    (fun (x : List Tree × List Char × Nat) _ => Reached text ((.template, c.token.start) :: stack)
      (held + Tree.literalsOf x.1) x.2.1 x.2.2)
    (fun t c => Stands text stack (held + t.literals) c) ?_ (by simpa using hopen) h
  -- A round reads characters of the template, and the code behind them if there is some.
  rintro ⟨done, s, n⟩ c₁ r c₂ hinv hround
  dsimp only at hinv hround
  split at hround
  · exact absurd hround yields_reject
  · rename_i scan hscan
    obtain ⟨_, c₃, hresume, hround⟩ := yields_bind.mp hround
    obtain rfl := yields_resumeAt hresume
    split at hround
    · rename_i hcode
      obtain ⟨k, hhole⟩ := hinv.code hscan hcode
      simp only [yields_bind, yields_token, yields_require, yields_pure] at hround
      obtain ⟨e, c₄, he, _, _, ⟨rfl, rfl⟩, _, _, ⟨hbrace, rfl⟩, rfl, _⟩ := hround
      have hstands := hpart he (.of_reached hhole (by simp [Nesting.InTemplate]) rfl)
      have hclose := hstands.behind_closing (lexeme_of_isMark hbrace) rfl
      show Reached text _ (held + Tree.literalsOf (e :: _ :: done)) _ _
      rw [Tree.literalsOf_cons, Tree.literalsOf_cons, literals_tagText, zero_add, add_comm e.literals,
        ← add_assoc]
      simpa [Nesting.closed] using hclose
    · rename_i hcode
      have hclosed := hinv.closed hscan (by simpa using hcode)
      simp only [yields_bind, yields_finish, yields_pure] at hround
      obtain ⟨t, _, ⟨rfl, rfl⟩, rfl, rfl⟩ := hround
      show Stands text stack (held + (Tree.node kind _ _ _).literals) _
      rw [Tree.literals_template hkind, Tree.literalsOf_reverse, Tree.literalsOf_cons, literals_tagText, zero_add,
        add_comm _ (Tree.literalsOf done), ← add_assoc]
      exact .of_reached hclosed hc.1 rfl

theorem reads_template {tagged : Bool} (hr : rules.Sound) : Reads (template rules tagged) Tree.literals :=
  reads_templateWith (.inl rfl) fun _ _ _ _ _ _ _ h hc => hr.reads (yields_bracketed.mp h) rfl hc

theorem reads_typeTemplate (hr : rules.Sound) : Reads (typeTemplate rules) Tree.literals :=
  reads_templateWith (.inr rfl) (hr.rule .type rfl)

@[grind →] theorem reads_regex : Reads regex Tree.literals := by
  intro scope c t c' text stack held h hc
  simp only [regex, yields_bind, yields_token, yields_require] at h
  obtain ⟨_, c₁, ⟨rfl, h₁⟩, _, c₂, ⟨hmark, h₂⟩, h⟩ := h
  subst c₂ c₁
  -- The token in front may be a slash or a slash with a sign: the pattern starts behind the slash in both.
  have hslash : ∃ tail, c.token.here = '/' :: tail ∧ c.token.lexeme ≠ .bad := by
    rcases Bool.or_eq_true_iff.mp hmark with hmark | hmark
    · obtain ⟨part, _, hhere, _, hspells⟩ := hc.exists_spells (by rw [lexeme_of_isMark hmark]; simp)
      rw [Token.Spells, lexeme_of_isMark hmark] at hspells
      obtain ⟨rfl, _⟩ := hspells
      exact ⟨_, hhere, by rw [lexeme_of_isMark hmark]; simp⟩
    · obtain ⟨part, _, hhere, _, hspells⟩ := hc.exists_spells (by rw [lexeme_of_isMark hmark]; simp)
      rw [Token.Spells, lexeme_of_isMark hmark] at hspells
      obtain ⟨rfl, _⟩ := hspells
      exact ⟨_, hhere, by rw [lexeme_of_isMark hmark]; simp⟩
  obtain ⟨tail, hhere, hbad⟩ := hslash
  have hfront := hc.front hbad
  rw [hhere] at hfront
  split at h
  · exact absurd h yields_reject
  · rename_i size s hscan
    rw [hhere] at hscan
    obtain ⟨body, hbody, rfl⟩ := scanRegex_eq hscan
    simp only [yields_bind, yields_read] at h
    obtain ⟨_, c₁, ⟨rfl, h₁⟩, h⟩ := h
    subst c₁
    split at h
    · exact absurd h yields_reject
    · rename_i w hword
      obtain ⟨flags, hflags, hsplit, hsize, _, _⟩ := scanWord_eq hword
      simp only [yields_bind, yields_finish] at h
      obtain ⟨_, c₁, hfault, _, c₂, hresume, rfl, rfl⟩ := h
      obtain rfl := yields_resumeAt hresume
      rw [Tree.literals_node rfl, Tree.literalsOf_nil, add_zero]
      -- Pattern and flags are one atom from the slash on.
      have hreached : Reached text stack held ('/' :: (body ++ '/' :: flags) ++ w.rest) c.token.start := by
        rw [show tail = _ from hbody, show s = _ from hsplit] at hfront
        simpa using hfront
      have hbehind := hreached.leaf hc.1 ⟨body, flags, rfl, hflags⟩ (k := .regex) (by simp)
      have hsize : c.token.start + ('/' :: (body ++ '/' :: flags)).length =
          c.token.start + (1 + body.length + 1) + w.size := by
        rw [hsize]
        simp only [List.length_cons, List.length_append]
        omega
      rw [hsize] at hbehind
      exact .of_reached hbehind hc.1 rfl

end Script
end StoryDocs
