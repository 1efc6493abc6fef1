import StoryDocs.Proofs.Script.Atoms.Yields
import StoryDocs.Proofs.Script.Core.Tokens

/-!
# Values looked at as patterns

At a bracket the reader looks for the parameters of a function first, so it reads values as patterns.  A pattern that
it finds in a value ends where the value does, or in the middle of it in front of a mark that no pattern goes on with.
So the list of values between two brackets, read as parameters, ends at its own bracket or not at all, and no sign of
a function follows.
-/

namespace StoryDocs
namespace Script

open Text Grammar

variable {tags : Bool} {bound n d : Nat} {b : Bool} {g rest s text inner w : List Char} {shapes : List Shape}
  {category : Category} {entry : Entry} {comma : Bool} {scope : Scope} {c c₁ c₂ c' : Cursor} {t : Token} {m : String}
  {tree : Tree}

/-! ## Opening brackets -/

namespace Grammar

variable {rs : Rules}

theorem pattern_bracket (h : c.token.lexeme = .mark "(") : pattern rs scope c = none := by
  have hname : bindingName scope c = none := by
    simp only [bindingName, token_bind_run, h]
    rfl
  simp [pattern, isMark_of_mark h, hname]

theorem rules_pattern_bracket (h : c.token.lexeme = .mark "(") (d : Nat) : rules d .pattern scope c = none := by
  cases d with
  | zero => rfl
  | succ d => exact pattern_bracket h

/-- A bracket starts no function if what it opens has no sign of one behind it. -/
theorem arrow?_none (h : c.token.lexeme = .mark "(")
    (hhead : ∀ withResult, arrowHead rs withResult { scope with lenient := true } c = none) :
    arrow? rs scope c = some (none, c) := by
  have hlook : ∀ withResult, ahead ((fun _ => true) <$> arrowHead rs withResult) scope c = some (false, c) := by
    intro withResult
    rw [ahead, run_map, hhead]
    rfl
  have hawait : ∀ f : List Tree → Parse Bool, ahead (arrowHead rs true >>= f) scope c = some (false, c) := by
    intro f
    rw [ahead, run_bind, hhead]
    rfl
  have hnone : atArrow rs false scope c = some (false, c) := by
    simp [atArrow, isMark_of_mark h, run_bind_of (hlook false), hlook true, hawait]
  have hasync : asyncArrow? rs scope c = some (none, c) := by
    simp [asyncArrow?, isWord_of_mark h]
  have hreference : isReference c.token = false := by rw [isReference, h]
  simp [arrow?, run_bind_of hasync, hreference, isWord_of_mark h, run_bind_of hnone]

end Grammar

/-! ## First tokens -/

/-- The words that typed scripts may take for the modifier of a parameter. -/
def parameterModifiers : List String :=
  ["public", "protected", "private", "readonly"]

/-- The first token of a value that is no tag. -/
def Token.StartsBase (t : Token) : Prop :=
  (∃ name, name ∉ parameterModifiers ∧ t.lexeme = .word name false) ∨ (∃ v, t.lexeme = .string v) ∨
    t.lexeme = .number ∨ ∃ m ∈ ["(", "[", "\x7b"], t.lexeme = .mark m

/-- The first token of a value. -/
def Token.StartsValue (t : Token) : Prop :=
  t.StartsBase ∨ t.lexeme = .mark "<"

/-- The first token of an entry of a list. -/
def Token.StartsEntry (t : Token) : Entry → Prop
  | .value => t.StartsValue
  | .element => t.StartsValue ∨ t.lexeme = .mark "..."
  | .member => (∃ name, t.lexeme = .word name false) ∨ (∃ v, t.lexeme = .string v) ∨ t.lexeme = .mark "..."
  | .parameter => ∃ name, t.lexeme = .word name false

theorem isMark_of_other {m' : String} (h : t.lexeme = .mark m') (hm : m' ≠ m) : isMark t m = false := by
  rw [isMark_of_mark h, beq_eq_false_iff_ne]
  exact hm

theorem isMark_self (h : t.lexeme = .mark m) : isMark t m = true := by
  rw [isMark_of_mark h, beq_self_eq_true]

theorem Token.StartsBase.not_mark (h : t.StartsBase) (hm : m ∉ ["(", "[", "\x7b"]) : isMark t m = false := by
  rcases h with ⟨name, _, h⟩ | ⟨v, h⟩ | h | ⟨m', hm', h⟩
  · exact isMark_of_word h m
  · exact isMark_of_string h m
  · rw [isMark, h]
  · refine isMark_of_other h ?_
    rintro rfl
    exact hm hm'

theorem Token.StartsValue.not_mark (h : t.StartsValue) (hm : m ∉ ["(", "[", "\x7b", "<"]) : isMark t m = false := by
  simp only [List.mem_cons, List.not_mem_nil, or_false, not_or] at hm
  rcases h with h | h
  · exact h.not_mark (by simp [hm])
  · exact isMark_of_other h (Ne.symm hm.2.2.2)

theorem Token.StartsEntry.not_mark (h : t.StartsEntry entry) (hm : m ∉ ["(", "[", "\x7b", "<", "..."]) :
    isMark t m = false := by
  simp only [List.mem_cons, List.not_mem_nil, or_false, not_or] at hm
  have hdots : t.lexeme = .mark "..." → isMark t m = false := fun h => isMark_of_other h (Ne.symm hm.2.2.2.2)
  cases entry with
  | value => exact h.not_mark (by simp [hm])
  | element => exact h.elim (·.not_mark (by simp [hm])) hdots
  | member =>
      rcases h with ⟨name, h⟩ | ⟨v, h⟩ | h
      · exact isMark_of_word h m
      · exact isMark_of_string h m
      · exact hdots h
  | parameter =>
      obtain ⟨name, h⟩ := h
      exact isMark_of_word h m

theorem Token.StartsValue.not_word (h : t.StartsValue) (hw : m ∈ parameterModifiers) : isWord t m = false := by
  rcases h with (⟨name, hname, h⟩ | ⟨v, h⟩ | h | ⟨m', _, h⟩) | h
  · rw [isWord_of_word h, beq_eq_false_iff_ne]
    rintro rfl
    exact hname hw
  · exact isWord_of_string h m
  · rw [isWord, h]
  · exact isWord_of_mark h m
  · exact isWord_of_mark h m

theorem startsBase_mark (hm : m ∈ ["(", "[", "\x7b"]) (h : t.lexeme = .mark m) : t.StartsBase :=
  .inr (.inr (.inr ⟨m, hm, h⟩))

/-- No name of a value is a modifier but the one that no script reserves. -/
theorem ValueName.not_modifier {name : String} (h : ValueName name) (hmodifier : name ≠ "readonly") :
    name ∉ parameterModifiers := by
  have hwords : ∀ word ∈ parameterModifiers, word = "readonly" ∨ isReserved word = true := by decide
  intro hmem
  rcases hwords _ hmem with heq | hreserved
  · exact hmodifier heq
  · exact h.ne_of_reserved hreserved rfl

theorem Core.startsBase (h : Core tags .primary text shapes) (hg : IsGap g) (hrest : EndsWord rest)
    (hbound : text.length ≤ bound) (n : Nat) :
    (Cursor.front bound (g ++ text ++ rest) n).token.StartsBase := by
  cases h with
  | name hw hname hmodifier =>
      exact .inl ⟨_, hname.not_modifier hmodifier, (Cursor.at_word hg.skips hw hrest hbound).lexeme⟩
  | literal hw hmem =>
      have hwords : ∀ entry ∈ literalWords, entry.1 ∉ parameterModifiers := by decide
      exact .inl ⟨_, hwords _ hmem, (Cursor.at_word hg.skips hw hrest hbound).lexeme⟩
  | string hquote v => exact .inr (.inl ⟨_, (Cursor.at_written hquote hg v hbound).lexeme⟩)
  | paren _ _ =>
      rw [List.append_assoc, List.cons_append]
      exact startsBase_mark (by simp) (Cursor.at_mark hg (by decide)).lexeme
  | array _ =>
      rw [List.append_assoc, List.cons_append]
      exact startsBase_mark (by simp) (Cursor.at_mark hg (by decide)).lexeme
  | object _ =>
      rw [List.append_assoc, List.cons_append]
      exact startsBase_mark (by simp) (Cursor.at_mark hg (by decide)).lexeme

theorem endsNumber_of_closes (h : ClosesText rest) : EndsNumber rest := by
  refine ⟨h.endsWord, ?_⟩
  obtain ⟨g, c, k, hg, hc, rfl⟩ := h
  cases g with
  | nil =>
      intro heq
      cases heq
      exact absurd hc (by decide)
  | cons d g => exact fun heq => absurd (hg.head_mem '.' heq) (by decide)

theorem Core.startsValue (h : Core tags .value text shapes) (hg : IsGap g) (hrest : ClosesText rest)
    (hbound : text.length ≤ bound) (n : Nat) :
    (Cursor.front bound (g ++ text ++ rest) n).token.StartsValue := by
  cases h with
  | operand htext hsteps =>
      rw [List.append_assoc, List.append_assoc, ← List.append_assoc g]
      rw [List.length_append] at hbound
      exact .inl (htext.startsBase hg (hsteps.behindOperand hrest).word (by omega) n)
  | number hw => exact .inl (.inr (.inr (.inl (Cursor.at_number hg hw (endsNumber_of_closes hrest)).lexeme)))
  | function =>
      rw [List.append_assoc, List.cons_append]
      exact .inl (startsBase_mark (by simp) (Cursor.at_mark hg (by decide)).lexeme)
  | functionOf hw hname hmodifier _ hg' =>
      rw [List.length_append] at hbound
      have hends := hg'.endsWord (c := '=') (by decide) (by decide)
      simp only [List.append_assoc, List.cons_append]
      rw [← List.append_assoc g]
      exact .inl (.inl ⟨_, hname.not_modifier hmodifier,
        (Cursor.at_word hg.skips hw (hends _) (by omega)).lexeme⟩)
  | tagged _ htext =>
      obtain ⟨k, rfl, hk⟩ := htext.exists_angle
      rw [List.append_assoc, List.cons_append]
      exact .inr (Cursor.at_angle hg (hk _)).lexeme

theorem Core.startsEntry (h : Core tags (.one entry) text shapes) (hg : IsGap g) (hrest : ClosesText rest)
    (hbound : text.length ≤ bound) (n : Nat) :
    (Cursor.front bound (g ++ text ++ rest) n).token.StartsEntry entry := by
  cases h with
  | operand htext hsteps => exact (Core.operand htext hsteps).startsValue hg hrest hbound n
  | number hw => exact (Core.number hw : Core tags .value _ _).startsValue hg hrest hbound n
  | function hparams hdistinct hg₁ hline hg₂ hbody hbrace =>
      exact (Core.function hparams hdistinct hg₁ hline hg₂ hbody hbrace).startsValue hg hrest hbound n
  | functionOf hw hname hmodifier hbinding hg₁ hline hg₂ hbody hbrace =>
      exact (Core.functionOf hw hname hmodifier hbinding hg₁ hline hg₂ hbody hbrace).startsValue hg hrest hbound n
  | tagged htags htext => exact (Core.tagged htags htext).startsValue hg hrest hbound n
  | element htext => exact .inl (htext.startsValue hg hrest hbound n)
  | spread =>
      simp only [List.append_assoc, List.cons_append]
      exact .inr (Cursor.at_dots hg).lexeme
  | property hkey hg' =>
      rw [List.length_append] at hbound
      have hends := hg'.endsWord (c := ':') (by decide) (by decide)
      simp only [List.append_assoc, List.cons_append]
      rw [← List.append_assoc g]
      cases hkey with
      | word hw => exact .inl ⟨_, (Cursor.at_word hg.skips hw (hends _) (by omega)).lexeme⟩
      | string hquote v => exact .inr (.inl ⟨_, (Cursor.at_written hquote hg v (by omega)).lexeme⟩)
  | shorthand hw => exact .inl ⟨_, (Cursor.at_word hg.skips hw hrest.endsWord hbound).lexeme⟩
  | memberSpread =>
      simp only [List.append_assoc, List.cons_append]
      exact .inr (.inr (Cursor.at_dots hg).lexeme)
  | parameter hw => exact ⟨_, (Cursor.at_word hg.skips hw hrest.endsWord hbound).lexeme⟩

/-! ## Looking at a pattern -/

theorem yields_faultIf_lenient {u : Unit} (hlenient : scope.lenient = true) (h : Yields (faultIf b) scope c u c') :
    c' = c := by
  cases b with
  | false => exact (yields_pure.mp h).2
  | true =>
      simp only [faultIf, fault, if_true, ↓yields_looks, hlenient] at h
      exact (yields_pure.mp h).2

/-- Where faults are passed over, a move leaves no trace of one. -/
theorem yields_advance_lenient {u : Unit} (hlenient : scope.lenient = true) (h : Yields advance scope c u c') :
    c' = c.next scope.bound := by
  rw [advance, yields_token_bind] at h
  split at h
  · exact absurd h yields_reject
  · exact absurd h yields_reject
  · obtain ⟨_, c₁, hfault, h⟩ := yields_bind.mp h
    rw [yields_faultIf_lenient hlenient hfault] at h
    exact yields_resumeAt h

theorem yields_expectMark_lenient {u : Unit} (hlenient : scope.lenient = true)
    (h : Yields (expectMark m) scope c u c') : isMark c.token m = true ∧ c' = c.next scope.bound := by
  obtain ⟨hmark, hmove⟩ := yields_expectMark.mp h
  exact ⟨hmark, yields_advance_lenient hlenient hmove⟩

theorem yields_eatMark_lenient (hlenient : scope.lenient = true) (h : Yields (eatMark m) scope c b c') :
    b = isMark c.token m ∧ c' = if b then c.next scope.bound else c := by
  rcases yields_eatMark h with ⟨rfl, hmove⟩ | ⟨rfl, hmark, rfl⟩
  · obtain ⟨hmark, rfl⟩ := yields_expectMark_lenient hlenient hmove
    exact ⟨hmark.symm, rfl⟩
  · exact ⟨hmark.symm, rfl⟩

theorem yields_bindingName_lenient (hlenient : scope.lenient = true) (h : Yields bindingName scope c tree c') :
    isName c.token = true ∧ c' = c.next scope.bound := by
  rw [bindingName, yields_token_bind] at h
  split at h
  · rename_i name escaped hlexeme
    simp only [↓yields_looks, yields_bind, yields_pure] at h
    obtain ⟨_, _, c₁, hfault, _, c₂, hmove, _, rfl⟩ := h
    rw [yields_faultIf_lenient hlenient hfault] at hmove
    exact ⟨by rw [isName, hlexeme], yields_advance_lenient hlenient hmove⟩
  · exact absurd h yields_reject

/-- A mark that no pattern goes on with, in the middle of a value. -/
def Cursor.Stray (c : Cursor) : Prop :=
  ∃ m ∈ [".", "(", "[", "=>"], c.token.lexeme = .mark m

/-- What is read behind a pattern: nothing, unless one of three marks stands there. -/
def Cursor.GoesOn (c c' : Cursor) : Prop :=
  c' = c ∨ ∃ m ∈ ["?", ":", "="], isMark c.token m = true

/-- An entry is looked at as a part of a pattern. -/
def Looks (scope : Scope) : Entry → Cursor → Cursor → Prop
  | .value, c, c' => ∃ d t c₁, Yields (rules d .pattern) scope c t c₁ ∧ c₁.GoesOn c'
  | .element, c, c' =>
    if isMark c.token "..." then ∃ d t, Yields (rules d .pattern) scope (c.next scope.bound) t c'
    else ∃ d t c₁, Yields (rules d .pattern) scope c t c₁ ∧ c₁.GoesOn c'
  | .member, c, c' => ∃ d t, Yields (patternProperty (rules d)) scope c t c'
  | .parameter, _, _ => False

theorem Cursor.GoesOn.trans (h : c.GoesOn c₁) (h' : c₁.GoesOn c') : c.GoesOn c' := by
  rcases h with rfl | hmark
  · exact h'
  · exact .inr hmark

theorem goesOn_eatMark (hlenient : scope.lenient = true) (hm : m ∈ ["?", ":", "="])
    (h : Yields (eatMark m) scope c b c') : c.GoesOn c' := by
  obtain ⟨rfl, rfl⟩ := yields_eatMark_lenient hlenient h
  cases hmark : isMark c.token m with
  | true => exact .inr ⟨m, hm, hmark⟩
  | false => exact .inl rfl

theorem goesOn_annotated {ts : List Tree} {rs : Rules} (hlenient : scope.lenient = true)
    (h : Yields (annotation? rs) scope c ts c') : c.GoesOn c' := by
  rw [annotation?, yields_bind] at h
  obtain ⟨found, c₁, hcolon, h⟩ := h
  obtain ⟨rfl, rfl⟩ := yields_eatMark_lenient hlenient hcolon
  cases hmark : isMark c.token ":" with
  | true => exact .inr ⟨":", by simp, hmark⟩
  | false =>
      rw [hmark] at h
      exact .inl (yields_pure.mp h).2

theorem goesOn_default {ts : List Tree} {rs : Rules} (hlenient : scope.lenient = true)
    (h : Yields (parameterDefault? rs b) scope c ts c') : c.GoesOn c' := by
  rw [parameterDefault?] at h
  simp only [↓yields_looks, yields_bind, yields_ite] at h
  obtain ⟨found, c₁, hsign, h⟩ := h
  obtain ⟨rfl, rfl⟩ := yields_eatMark_lenient hlenient hsign
  cases hmark : isMark c.token "=" with
  | true => exact .inr ⟨"=", by simp, hmark⟩
  | false =>
      rw [hmark] at h
      exact .inl (yields_pure.mp h).2

theorem looks_patternElement (hlenient : scope.lenient = true)
    (h : Yields (rules d .patternElement) scope c tree c') : Looks scope .value c c' := by
  cases d with
  | zero => exact absurd h yields_reject
  | succ d =>
      replace h : Yields (patternElement (rules d)) scope c tree c' := h
      rw [patternElement] at h
      simp only [↓yields_looks, yields_bind, yields_ite] at h
      obtain ⟨target, c₁, htarget, found, c₂, hsign, h⟩ := h
      refine ⟨d, target, c₁, htarget, ?_⟩
      obtain ⟨rfl, rfl⟩ := yields_eatMark_lenient hlenient hsign
      cases hmark : isMark c₁.token "=" with
      | true => exact .inr ⟨"=", by simp, hmark⟩
      | false =>
          rw [hmark, if_neg (by simp), if_neg (by simp)] at h
          exact .inl (yields_pure.mp h).2

theorem looks_plainParameter (hlenient : scope.lenient = true) (hstart : c.token.StartsValue)
    (h : Yields (plainParameter (rules d) []) scope c tree c') : Looks scope .value c c' := by
  have hplain : parameterModifiers.any (isWord c.token) = false := by
    rw [List.any_eq_false]
    intro w hw
    rw [hstart.not_word hw]
    exact Bool.false_ne_true
  rw [parameterModifiers] at hplain
  rw [plainParameter] at h
  cases htyped : scope.features.types with
  | false =>
      simp only [↓yields_looks, htyped, Bool.false_eq_true, if_false] at h
      obtain ⟨target, c₁, htarget, h⟩ := yields_bind.mp h
      simp only [pure_bind, ↓yields_looks, htyped, Bool.false_eq_true, if_false] at h
      obtain ⟨default, c₂, hdefault, h⟩ := yields_bind.mp h
      obtain ⟨_, rfl⟩ := yields_finish.mp h
      exact ⟨d, target, c₁, htarget, goesOn_default hlenient hdefault⟩
  | true =>
      simp only [↓yields_looks, htyped, if_true, hplain, Bool.false_and, Bool.false_eq_true, if_false] at h
      obtain ⟨target, c₁, htarget, h⟩ := yields_bind.mp h
      simp only [↓yields_looks, htyped, if_true] at h
      obtain ⟨optional, c₂, hoptional, h⟩ := yields_bind.mp h
      simp only [↓yields_looks, htyped, if_true] at h
      obtain ⟨type, c₃, htype, h⟩ := yields_bind.mp h
      obtain ⟨default, c₄, hdefault, h⟩ := yields_bind.mp h
      obtain ⟨_, rfl⟩ := yields_finish.mp h
      have hbehind := (goesOn_eatMark hlenient (by simp) hoptional).trans (goesOn_annotated hlenient htype)
      exact ⟨d, target, c₁, htarget, hbehind.trans (goesOn_default hlenient hdefault)⟩

/-! ## Rounds -/

/-- The rounds of a loop that looks at entries up to a closing mark. -/
structure Rounds {σ : Type} (scope : Scope) (entry : Entry) (close : String)
    (step : σ → Parse (σ ⊕ List Tree)) : Prop where
  closes : ∀ ⦃state c r c'⦄, isMark c.token close = true → Yields (step state) scope c r c' →
    c' = c ∧ ∃ ts, r = .inr ts
  goes : ∀ ⦃state c r c'⦄, c.token.StartsEntry entry → Yields (step state) scope c r c' →
    ∃ state' c₁, r = .inl state' ∧ Looks scope entry c c₁ ∧
      ((isMark c₁.token close = true ∧ c' = c₁) ∨
        (isMark c₁.token "," = true ∧ c' = c₁.next scope.bound))

/-- Behind an entry the closing mark or a comma stands. -/
theorem closes_or_comma {α : Type} {a r : α} {close : String} {f : Unit → Parse α} (hlenient : scope.lenient = true)
    (hf : ∀ c r c', Yields (f ()) scope c r c' → r = a ∧ c' = c)
    (h : Yields (if (!isMark c.token close) = true then expectMark "," >>= f else pure a) scope c r c') :
    r = a ∧ ((isMark c.token close = true ∧ c' = c) ∨
      (isMark c.token "," = true ∧ c' = c.next scope.bound)) := by
  cases hmark : isMark c.token close with
  | true =>
      rw [hmark] at h
      obtain ⟨rfl, rfl⟩ := yields_pure.mp h
      exact ⟨rfl, .inl ⟨rfl, rfl⟩⟩
  | false =>
      rw [hmark] at h
      obtain ⟨_, c₁, hmove, hmore⟩ := yields_bind.mp h
      obtain ⟨hcomma, rfl⟩ := yields_expectMark_lenient hlenient hmove
      obtain ⟨rfl, rfl⟩ := hf _ _ _ hmore
      exact ⟨rfl, .inr ⟨hcomma, rfl⟩⟩

/-- Whatever the rests of a pattern are, recording their faults moves nothing. -/
theorem yields_rest_lenient {α : Type} {a r : α} {close : String} (hlenient : scope.lenient = true)
    (h : Yields (do
      let closed ← atMark close
      faultIf (b && closed)
      return a) scope c r c') : r = a ∧ c' = c := by
  simp only [↓yields_looks, yields_bind] at h
  obtain ⟨_, c₁, hfault, h⟩ := h
  obtain ⟨rfl, rfl⟩ := yields_pure.mp h
  exact ⟨rfl, yields_faultIf_lenient hlenient hfault⟩

theorem yields_restElement {start : Nat} {rs : Rules} (h : Yields (restElement rs start) scope c tree c') :
    ∃ target, Yields (rs .pattern) scope c target c' := by
  obtain ⟨target, c₁, htarget, h⟩ := yields_bind.mp h
  obtain ⟨_, rfl⟩ := yields_finish.mp h
  exact ⟨target, htarget⟩

theorem rounds_arrayElements (hlenient : scope.lenient = true) (d : Nat) :
    Rounds scope .element "]" fun (x : List Tree × Bool) => do
      if ← atMark "]" then return .inr x.1.reverse
      let start ← position
      if ← eatMark "," then return .inl ((← finish .hole start "" []) :: x.1, x.2)
      faultIf x.2
      let isRest ← eatMark "..."
      let element ← if isRest then restElement (rules d) start else (rules d) .patternElement
      if !(← atMark "]") then
        expectMark ","
        faultIf (isRest && (← atMark "]"))
      return .inl (element :: x.1, x.2 || isRest) where
  closes := by
    intro state c r c' hclose h
    simp only [↓yields_looks, hclose, if_true] at h
    obtain ⟨rfl, rfl⟩ := yields_pure.mp h
    exact ⟨rfl, _, rfl⟩
  goes := by
    intro state c r c' hstart h
    simp only [↓yields_looks, hstart.not_mark (m := "]") (by decide), Bool.false_eq_true, if_false] at h
    obtain ⟨comma, c₁, hcomma, h⟩ := yields_bind.mp h
    obtain ⟨rfl, rfl⟩ := yields_eatMark_lenient hlenient hcomma
    simp only [hstart.not_mark (m := ",") (by decide), Bool.false_eq_true, if_false] at h
    obtain ⟨_, c₁, hfault, h⟩ := yields_bind.mp h
    rw [yields_faultIf_lenient hlenient hfault] at h
    obtain ⟨isRest, c₂, hdots, h⟩ := yields_bind.mp h
    obtain ⟨rfl, rfl⟩ := yields_eatMark_lenient hlenient hdots
    cases hmark : isMark c.token "..." with
    | true =>
        rw [hmark] at h
        obtain ⟨element, c₂, helement, h⟩ := yields_bind.mp h
        obtain ⟨target, htarget⟩ := yields_restElement helement
        simp only [↓yields_looks] at h
        obtain ⟨rfl, hends⟩ := closes_or_comma hlenient (fun _ _ _ => yields_rest_lenient hlenient) h
        exact ⟨_, c₂, rfl, by rw [Looks, if_pos hmark]; exact ⟨d, target, htarget⟩, hends⟩
    | false =>
        rw [hmark] at h
        obtain ⟨element, c₂, helement, h⟩ := yields_bind.mp h
        simp only [↓yields_looks] at h
        obtain ⟨rfl, hends⟩ := closes_or_comma hlenient (fun _ _ _ => yields_rest_lenient hlenient) h
        refine ⟨_, c₂, rfl, ?_, hends⟩
        rw [Looks, if_neg (by simp [hmark])]
        exact looks_patternElement hlenient helement

theorem rounds_properties (hlenient : scope.lenient = true) (d : Nat) :
    Rounds scope .member "\x7d" fun (done : List Tree) => do
      if ← atMark "\x7d" then return .inr done.reverse
      let t ← patternProperty (rules d)
      if !(← atMark "\x7d") then expectMark ","
      return .inl (t :: done) where
  closes := by
    intro state c r c' hclose h
    simp only [↓yields_looks, hclose, if_true] at h
    obtain ⟨rfl, rfl⟩ := yields_pure.mp h
    exact ⟨rfl, _, rfl⟩
  goes := by
    intro done c r c' hstart h
    simp only [↓yields_looks, hstart.not_mark (m := "\x7d") (by decide), Bool.false_eq_true, if_false] at h
    obtain ⟨property, c₁, hproperty, h⟩ := yields_bind.mp h
    simp only [↓yields_looks] at h
    have hpure : ∀ c r c', Yields (pure (Sum.inl (property :: done)) : Parse (List Tree ⊕ List Tree)) scope c r c' →
        r = .inl (property :: done) ∧ c' = c := fun _ _ _ => yields_pure.mp
    obtain ⟨rfl, hends⟩ := closes_or_comma hlenient hpure h
    exact ⟨_, c₁, rfl, ⟨d, property, hproperty⟩, hends⟩

theorem rounds_parameters (hlenient : scope.lenient = true) (d : Nat) :
    Rounds scope .value ")" fun (x : List Tree × Bool) => do
      if ← atMark ")" then return .inr x.1.reverse
      faultIf x.2
      let decorators ← if ← atMark "@" then pure [← rules d .decorators] else pure []
      let start ← position
      let isRest ← eatMark "..."
      let param ← if isRest then restParameter (rules d) start decorators else plainParameter (rules d) decorators
      if !(← atMark ")") then
        expectMark ","
        faultIf (isRest && (← atMark ")"))
      return .inl (param :: x.1, x.2 || isRest) where
  closes := by
    intro state c r c' hclose h
    simp only [↓yields_looks, hclose, if_true] at h
    obtain ⟨rfl, rfl⟩ := yields_pure.mp h
    exact ⟨rfl, _, rfl⟩
  goes := by
    intro state c r c' hstart h
    simp only [↓yields_looks, hstart.not_mark (m := ")") (by decide), Bool.false_eq_true, if_false] at h
    obtain ⟨_, c₁, hfault, h⟩ := yields_bind.mp h
    rw [yields_faultIf_lenient hlenient hfault] at h
    simp only [pure_bind, ↓yields_looks, hstart.not_mark (m := "@") (by decide), Bool.false_eq_true, if_false] at h
    obtain ⟨isRest, c₂, hdots, h⟩ := yields_bind.mp h
    obtain ⟨rfl, rfl⟩ := yields_eatMark_lenient hlenient hdots
    rw [Token.StartsValue.not_mark hstart (m := "...") (by decide)] at h
    obtain ⟨param, c₂, hparam, h⟩ := yields_bind.mp h
    simp only [↓yields_looks] at h
    obtain ⟨rfl, hends⟩ := closes_or_comma hlenient (fun _ _ _ => yields_rest_lenient hlenient) h
    exact ⟨_, c₂, rfl, looks_plainParameter hlenient hstart hparam, hends⟩

namespace Rounds

variable {σ : Type} {close : String} {step : σ → Parse (σ ⊕ List Tree)} {state : σ} {ts : List Tree} {k : Nat}

/-- At its closing mark a loop is over. -/
theorem closed (h : Rounds scope entry close step) (hclose : isMark c.token close = true)
    (hrun : Yields (iterate step k state) scope c ts c') : c' = c := by
  cases k with
  | zero => exact absurd hrun yields_reject
  | succ k =>
      obtain ⟨r, c₁, hstep, hrun⟩ := yields_bind.mp hrun
      obtain ⟨rfl, ts', rfl⟩ := h.closes hclose hstep
      exact (yields_pure.mp hrun).2

/-- At an entry it looks at the entry, and then at its closing mark or at what is behind a comma. -/
theorem entered (h : Rounds scope entry close step) (hstart : c.token.StartsEntry entry)
    (hrun : Yields (iterate step k state) scope c ts c') :
    ∃ c₁, Looks scope entry c c₁ ∧ ((isMark c₁.token close = true ∧ c' = c₁) ∨
      (isMark c₁.token "," = true ∧ ∃ k state, Yields (iterate step k state) scope (c₁.next scope.bound) ts c')) := by
  cases k with
  | zero => exact absurd hrun yields_reject
  | succ k =>
      obtain ⟨r, c₁, hstep, hrun⟩ := yields_bind.mp hrun
      obtain ⟨state', c₂, rfl, hlooks, ⟨hclose, rfl⟩ | ⟨hcomma, rfl⟩⟩ := h.goes hstart hstep
      · exact ⟨c₁, hlooks, .inl ⟨hclose, h.closed hclose hrun⟩⟩
      · exact ⟨c₂, hlooks, .inr ⟨hcomma, k, state', hrun⟩⟩

end Rounds

/-! ## Patterns by their first token -/

/-- The scope between brackets. -/
def bracketScope (scope : Scope) : Scope :=
  { scope with inOperator := true, awaitsColon := false }

theorem yields_pattern_array (hlenient : scope.lenient = true) (hmark : isMark c.token "[" = true)
    (h : Yields (rules d .pattern) scope c tree c') : ∃ d ts c₁,
      Yields (arrayElements (rules d)) (bracketScope scope) (c.next scope.bound) ts c₁ ∧
        c' = c₁.next scope.bound := by
  cases d with
  | zero => exact absurd h yields_reject
  | succ d =>
      replace h : Yields (pattern (rules d)) scope c tree c' := h
      rw [pattern] at h
      simp only [↓yields_looks, hmark, if_true, arrayPattern] at h
      obtain ⟨_, c₁, hopen, h⟩ := yields_bind.mp h
      obtain ⟨ts, c₂, helements, h⟩ := yields_bind.mp h
      obtain ⟨_, c₃, hclose, h⟩ := yields_bind.mp h
      obtain ⟨_, rfl⟩ := yields_finish.mp h
      obtain ⟨_, rfl⟩ := yields_expectMark_lenient hlenient hopen
      obtain ⟨_, rfl⟩ := yields_expectMark_lenient hlenient hclose
      exact ⟨d, ts, c₂, helements, rfl⟩

theorem yields_pattern_object (hlenient : scope.lenient = true) (hmark : isMark c.token "\x7b" = true)
    (h : Yields (rules d .pattern) scope c tree c') : ∃ d ts c₁,
      Yields (separated "\x7d" (patternProperty (rules d))) (bracketScope scope) (c.next scope.bound) ts c₁ ∧
        c' = c₁.next scope.bound := by
  cases d with
  | zero => exact absurd h yields_reject
  | succ d =>
      replace h : Yields (pattern (rules d)) scope c tree c' := h
      have hother : isMark c.token "[" = false := isMark_of_other (lexeme_of_isMark hmark) (by decide)
      rw [pattern] at h
      simp only [↓yields_looks, hmark, hother, Bool.false_eq_true, if_false, if_true, objectPattern] at h
      obtain ⟨_, c₁, hopen, h⟩ := yields_bind.mp h
      obtain ⟨ts, c₂, hproperties, h⟩ := yields_bind.mp h
      simp only [↓yields_looks] at h
      obtain ⟨_, c₃, hclose, h⟩ := yields_bind.mp h
      obtain ⟨_, rfl⟩ := yields_expectMark_lenient hlenient hopen
      obtain ⟨_, rfl⟩ := yields_expectMark_lenient hlenient hclose
      refine ⟨d, ts, c₂, hproperties, ?_⟩
      split at h
      · obtain ⟨_, c₃, hrest, h⟩ := yields_bind.mp h
        obtain ⟨_, c₄, hlast, h⟩ := yields_bind.mp h
        obtain ⟨_, rfl⟩ := yields_finish.mp h
        rw [yields_faultIf_lenient hlenient hlast, yields_faultIf_lenient hlenient hrest]
      · obtain ⟨_, c₃, hlast, h⟩ := yields_bind.mp h
        obtain ⟨_, rfl⟩ := yields_finish.mp h
        exact yields_faultIf_lenient hlenient hlast

theorem yields_pattern_name (hlenient : scope.lenient = true) (harray : isMark c.token "[" = false)
    (hobject : isMark c.token "\x7b" = false) (h : Yields (rules d .pattern) scope c tree c') :
    isName c.token = true ∧ c' = c.next scope.bound := by
  cases d with
  | zero => exact absurd h yields_reject
  | succ d =>
      replace h : Yields (pattern (rules d)) scope c tree c' := h
      rw [pattern] at h
      simp only [↓yields_looks, harray, hobject, Bool.false_eq_true, if_false] at h
      exact yields_bindingName_lenient hlenient h

/-! ## Properties of patterns -/

theorem yields_patternProperty_rest (hlenient : scope.lenient = true) (hdots : isMark c.token "..." = true)
    (h : Yields (patternProperty (rules d)) scope c tree c') :
    ∃ target, Yields (rules d .pattern) scope (c.next scope.bound) target c' := by
  rw [patternProperty] at h
  simp only [↓yields_looks] at h
  obtain ⟨found, c₁, hmove, h⟩ := yields_bind.mp h
  obtain ⟨rfl, rfl⟩ := yields_eatMark_lenient hlenient hmove
  simp only [hdots, if_true] at h
  exact yields_restElement h

theorem yields_patternProperty_keyed {key : Tree} (hlenient : scope.lenient = true)
    (hdots : isMark c.token "..." = false) (hkey : propertyKey (rules d) scope c = some (key, c₁))
    (hcolon : isMark c₁.token ":" = true) (h : Yields (patternProperty (rules d)) scope c tree c') :
    ∃ value, Yields (rules d .patternElement) scope (c₁.next scope.bound) value c' := by
  rw [patternProperty] at h
  simp only [↓yields_looks] at h
  obtain ⟨found, c₂, hmove, h⟩ := yields_bind.mp h
  obtain ⟨rfl, rfl⟩ := yields_eatMark_lenient hlenient hmove
  simp only [hdots, Bool.false_eq_true, if_false] at h
  rw [Yields, run_bind_of hkey] at h
  obtain ⟨found, c₂, hmove, h⟩ := yields_bind.mp h
  obtain ⟨rfl, rfl⟩ := yields_eatMark_lenient hlenient hmove
  simp only [hcolon, if_true] at h
  obtain ⟨value, c₃, hvalue, h⟩ := yields_bind.mp h
  obtain ⟨_, rfl⟩ := yields_finish.mp h
  exact ⟨value, hvalue⟩

theorem yields_patternProperty_name {key : Tree} (hlenient : scope.lenient = true)
    (hdots : isMark c.token "..." = false) (hkey : propertyKey (rules d) scope c = some (key, c₁))
    (hcolon : isMark c₁.token ":" = false) (hsign : isMark c₁.token "=" = false)
    (h : Yields (patternProperty (rules d)) scope c tree c') : c' = c₁ := by
  rw [patternProperty] at h
  simp only [↓yields_looks] at h
  obtain ⟨found, c₂, hmove, h⟩ := yields_bind.mp h
  obtain ⟨rfl, rfl⟩ := yields_eatMark_lenient hlenient hmove
  simp only [hdots, Bool.false_eq_true, if_false] at h
  rw [Yields, run_bind_of hkey] at h
  obtain ⟨found, c₂, hmove, h⟩ := yields_bind.mp h
  obtain ⟨rfl, rfl⟩ := yields_eatMark_lenient hlenient hmove
  simp only [hcolon, Bool.false_eq_true, if_false, ↓yields_looks] at h
  obtain ⟨found, c₂, hmove, h⟩ := yields_bind.mp h.2
  obtain ⟨rfl, rfl⟩ := yields_eatMark_lenient hlenient hmove
  simp only [hsign, Bool.false_eq_true, if_false] at h
  obtain ⟨_, c₃, hfault, h⟩ := yields_bind.mp h
  obtain ⟨_, rfl⟩ := yields_finish.mp h
  exact yields_faultIf_lenient hlenient hfault

theorem IsMemberKey.not_mark {shape : Shape} (h : IsMemberKey w shape) (hg : IsGap g)
    (hrest : EndsWord rest) (hbound : w.length ≤ bound) (n : Nat) (m : String) :
    isMark (Cursor.front bound (g ++ w ++ rest) n).token m = false := by
  cases h with
  | word hw => exact isMark_of_word (Cursor.at_word hg.skips hw hrest hbound).lexeme m
  | string hquote v => exact isMark_of_string (Cursor.at_written hquote hg v hbound).lexeme m

/-- A key is read up to its end. -/
theorem IsMemberKey.propertyKey {shape : Shape} {rs : Rules} (h : IsMemberKey w shape) (hg : IsGap g)
    (hrest : EndsWord rest) (hbound : w.length ≤ scope.bound) (n : Nat) : ∃ key stop,
      Grammar.propertyKey rs scope (.front scope.bound (g ++ w ++ rest) n) = some (key, .front scope.bound rest stop) ∧
        key.shape = shape := by
  cases h with
  | word hw =>
      have hat := @Cursor.at_word scope.bound n _ g _ rest hg.skips hw hrest hbound
      have hkey := @propertyKey_word scope _ rs _ hat.lexeme hat.sound
      rw [hat.next] at hkey
      exact ⟨_, _, hkey, rfl⟩
  | string hquote v =>
      have hat := @Cursor.at_written scope.bound n g rest _ hquote hg v hbound
      have hkey := @propertyKey_string scope _ rs _ hat.lexeme hat.sound
      rw [hat.next] at hkey
      exact ⟨_, _, hkey, rfl⟩

/-! ## Texts looked at -/

/-- A cursor in front of a text. -/
def Cursor.Before (bound : Nat) (rest : List Char) (c : Cursor) : Prop :=
  ∃ stop, c = .front bound rest stop

/-- How a text of a class is passed when it is looked at as a part of a pattern. -/
def Category.Passes (text : List Char) : Category → Prop
  | .primary => ∀ ⦃scope d n g rest tree c'⦄, scope.lenient = true → IsGap g → EndsWord rest →
      text.length ≤ scope.bound →
      Yields (rules d .pattern) scope (.front scope.bound (g ++ text ++ rest) n) tree c' →
        c'.Before scope.bound rest
  | .steps | .tag | .attributes | .children => True
  | .one entry => ∀ ⦃scope n g rest c'⦄, scope.lenient = true → IsGap g → ClosesText rest →
      text.length ≤ scope.bound → Looks scope entry (.front scope.bound (g ++ text ++ rest) n) c' →
        c'.Before scope.bound rest ∨ c'.Stray
  | .list entry _ => ∀ ⦃scope n rest close σ⦄ ⦃step : σ → Parse (σ ⊕ List Tree)⦄ ⦃k state ts c'⦄,
      scope.lenient = true → close ∈ [')', ']', '\x7d'] → text.length ≤ scope.bound →
      Rounds scope entry (String.ofList [close]) step →
      Yields (iterate step k state) scope (.front scope.bound (text ++ close :: rest) n) ts c' →
        ∃ stop, c'.At scope.bound (.mark (String.ofList [close])) rest stop

theorem Cursor.Stray.not_mark (h : c.Stray) (hm : m ∉ [".", "(", "[", "=>"]) : isMark c.token m = false := by
  obtain ⟨m', hm', hlexeme⟩ := h
  refine isMark_of_other hlexeme ?_
  rintro rfl
  exact hm hm'

theorem Cursor.Stray.stays (h : c.Stray) (hgoes : c.GoesOn c') : c'.Stray := by
  rcases hgoes with rfl | ⟨m, hm, hmark⟩
  · exact h
  · have hmarks : ∀ m ∈ ["?", ":", "="], m ∉ [".", "(", "[", "=>"] := by decide
    rw [h.not_mark (hmarks m hm)] at hmark
    cases hmark

theorem stray_arrow (hg : IsGap g) (s : List Char) (n : Nat) :
    (Cursor.front bound (g ++ '=' :: '>' :: s) n).Stray :=
  ⟨"=>", by simp, (Cursor.at_arrow hg).1.lexeme⟩

theorem Cursor.Before.stays (h : c.Before bound rest) (hrest : ClosesText rest) (hgoes : c.GoesOn c') :
    c'.Before bound rest := by
  obtain ⟨stop, rfl⟩ := h
  rcases hgoes with rfl | ⟨m, hm, hmark⟩
  · exact ⟨stop, rfl⟩
  · have hmarks : ∀ m ∈ ["?", ":", "="], m ∉ [",", ";", ")", "]", "\x7d"] := by decide
    rw [isMark_of_closes (hrest.closes bound stop) (hmarks m hm)] at hmark
    cases hmark

/-- A pattern in a value goes as far as an entry that is looked at. -/
theorem Category.Passes.pattern (h : Category.value.Passes text) (hlenient : scope.lenient = true)
    (hg : IsGap g) (hrest : ClosesText rest) (hbound : text.length ≤ scope.bound)
    (hlook : Yields (rules d .pattern) scope (.front scope.bound (g ++ text ++ rest) n) tree c') :
    c'.Before scope.bound rest ∨ c'.Stray :=
  h hlenient hg hrest hbound ⟨d, tree, c', hlook, .inl rfl⟩

theorem passes_word (hw : IsWord w) : Category.primary.Passes w := by
  intro scope d n g rest tree c' hlenient hg hrest hbound hlook
  have hat := @Cursor.at_word scope.bound n _ g _ rest hg.skips hw hrest hbound
  obtain ⟨_, rfl⟩ := yields_pattern_name hlenient (isMark_of_word hat.lexeme _) (isMark_of_word hat.lexeme _) hlook
  exact ⟨_, hat.next⟩

theorem passes_array (h : (Category.list .element comma).Passes inner) :
    Category.primary.Passes ('[' :: (inner ++ [']'])) := by
  intro scope d n g rest tree c' hlenient hg hrest hbound hlook
  simp only [List.append_assoc, List.cons_append, List.nil_append, List.length_cons, List.length_append,
    List.length_nil] at hlook hbound
  have hat := @Cursor.at_mark scope.bound n '[' g (inner ++ ']' :: rest) hg (by decide)
  obtain ⟨d, ts, c₁, helements, rfl⟩ := yields_pattern_array hlenient (isMark_of_mark hat.lexeme _) hlook
  rw [hat.next] at helements
  obtain ⟨stop, hclose⟩ := @h (bracketScope scope) _ _ ']' _ _ _ _ _ _ hlenient (by decide)
    (by simp [bracketScope]; omega)
    (@rounds_arrayElements (bracketScope scope) hlenient d) helements
  exact ⟨stop, hclose.next⟩

theorem passes_object (h : (Category.list .member comma).Passes inner) :
    Category.primary.Passes ('\x7b' :: (inner ++ ['\x7d'])) := by
  intro scope d n g rest tree c' hlenient hg hrest hbound hlook
  simp only [List.append_assoc, List.cons_append, List.nil_append, List.length_cons, List.length_append,
    List.length_nil] at hlook hbound
  have hat := @Cursor.at_mark scope.bound n '\x7b' g (inner ++ '\x7d' :: rest) hg (by decide)
  obtain ⟨d, ts, c₁, hmembers, rfl⟩ := yields_pattern_object hlenient (isMark_of_mark hat.lexeme _) hlook
  rw [hat.next] at hmembers
  obtain ⟨stop, hclose⟩ := @h (bracketScope scope) _ _ '\x7d' _ _ _ _ _ _ hlenient (by decide)
    (by simp [bracketScope]; omega)
    (@rounds_properties (bracketScope scope) hlenient d) hmembers
  exact ⟨stop, hclose.next⟩

theorem passes_operand {steps : List Shape} (h : Category.primary.Passes text)
    (hsteps : Core tags .steps s steps) : Category.value.Passes (text ++ s) := by
  intro scope n g rest c' hlenient hg hrest hbound hlook
  obtain ⟨d, tree, c₁, hpattern, hgoes⟩ := hlook
  rw [List.length_append] at hbound
  rw [← List.append_assoc, List.append_assoc] at hpattern
  obtain ⟨stop, rfl⟩ := h hlenient hg (hsteps.behindOperand hrest).word (by omega) hpattern
  rcases hsteps.step_cases with ⟨rfl, _⟩ | hmark
  · exact .inl (Cursor.Before.stays ⟨stop, rfl⟩ hrest hgoes)
  · obtain ⟨m, hm, hlexeme⟩ := (hmark rest).2 scope.bound stop
    have hstray : (Cursor.front scope.bound (s ++ rest) stop).Stray := by
      have hmarks : ∀ m ∈ [".", "(", "["], m ∈ [".", "(", "[", "=>"] := by decide
      exact ⟨m, hmarks m hm, hlexeme⟩
    exact .inr (hstray.stays hgoes)

theorem passes_dots {g₁ : List Char} (h : Category.value.Passes text) (hg₁ : IsGap g₁)
    (hlenient : scope.lenient = true) (hg : IsGap g) (hrest : ClosesText rest)
    (hbound : text.length ≤ scope.bound)
    (hlook : Yields (rules d .pattern) scope ((Cursor.front scope.bound (g ++ '.' :: '.' :: '.' :: (g₁ ++ text ++
      rest)) n).next scope.bound) tree c') : c'.Before scope.bound rest ∨ c'.Stray := by
  rw [(Cursor.at_dots hg).next] at hlook
  exact h.pattern hlenient hg₁ hrest hbound hlook

theorem passes_property {key g₁ g₂ : List Char} {shape : Shape} (h : Category.value.Passes text)
    (hkey : IsMemberKey key shape) (hg₁ : IsGap g₁) (hg₂ : IsGap g₂) :
    (Category.one .member).Passes (key ++ (g₁ ++ ':' :: (g₂ ++ text))) := by
  intro scope n g rest c' hlenient hg hrest hbound hlook
  obtain ⟨d, tree, hproperty⟩ := hlook
  simp only [List.length_append, List.length_cons] at hbound
  simp only [List.append_assoc, List.cons_append] at hproperty
  rw [← List.append_assoc] at hproperty
  have hends := hg₁.endsWord (c := ':') (by decide) (by decide) (g₂ ++ (text ++ rest))
  obtain ⟨keyTree, stop, hread, _⟩ := hkey.propertyKey hg hends
    (show key.length ≤ scope.bound by omega) n
  have hat := @Cursor.at_mark scope.bound stop ':' g₁ (g₂ ++ (text ++ rest)) hg₁ (by decide)
  obtain ⟨value, hvalue⟩ := yields_patternProperty_keyed hlenient (hkey.not_mark hg hends (by omega) n _) hread
    (isMark_self hat.lexeme) hproperty
  rw [hat.next, ← List.append_assoc] at hvalue
  exact h hlenient hg₂ hrest (by omega) (looks_patternElement hlenient hvalue)

theorem mem_loneMarks_of_close {close : Char} (h : close ∈ [')', ']', '\x7d']) : close ∈ loneMarks := by
  have hmarks : ∀ d ∈ [')', ']', '\x7d'], d ∈ loneMarks := by decide
  exact hmarks close h

theorem close_ne_comma {close : Char} (h : close ∈ [')', ']', '\x7d']) : String.ofList [close] ≠ "," := by
  have hmarks : ∀ d ∈ [')', ']', '\x7d'], String.ofList [d] ≠ "," := by decide
  exact hmarks close h

theorem closesText_close {close : Char} (hg : IsGap g) (h : close ∈ [')', ']', '\x7d']) (rest : List Char) :
    ClosesText (g ++ close :: rest) := by
  have hmarks : ∀ d ∈ [')', ']', '\x7d'], d ∈ [',', ';', ')', ']', '\x7d'] := by decide
  exact ⟨g, close, rest, hg, hmarks close h, rfl⟩

/-- In the middle of a value neither a closing mark nor a comma stands. -/
theorem Cursor.Stray.not_ends {close : Char} {p q : Prop} (h : c.Stray) (hclose : close ∈ [')', ']', '\x7d']) :
    ¬((isMark c.token (String.ofList [close]) = true ∧ p) ∨ (isMark c.token "," = true ∧ q)) := by
  have hmarks : ∀ d ∈ [')', ']', '\x7d'], String.ofList [d] ∉ [".", "(", "[", "=>"] := by decide
  rw [h.not_mark (hmarks close hclose), h.not_mark (by decide)]
  simp

theorem Core.passes (h : Core tags category text shapes) : category.Passes text := by
  induction h with
  | name hw _ _ => exact passes_word hw
  | literal hw _ => exact passes_word hw
  | string hquote v =>
      intro scope d n g rest tree c' hlenient hg hrest hbound hlook
      have hlexeme := (@Cursor.at_written scope.bound n g rest _ hquote hg v hbound).lexeme
      obtain ⟨hname, _⟩ := yields_pattern_name hlenient (isMark_of_string hlexeme _) (isMark_of_string hlexeme _) hlook
      rw [isName, hlexeme] at hname
      cases hname
  | paren _ _ _ =>
      intro scope d n g rest tree c' _ hg _ _ hlook
      rw [List.append_assoc, List.cons_append, Yields, rules_pattern_bracket (Cursor.at_mark hg (by decide)).lexeme]
        at hlook
      cases hlook
  | array _ ih => exact passes_array ih
  | object _ ih => exact passes_object ih
  | nothing | memberStep | indexStep | callStep => trivial
  | operand _ hsteps ih => exact passes_operand ih hsteps
  | number hw =>
      intro scope n g rest c' hlenient hg hrest hbound hlook
      have hlexeme := (@Cursor.at_number scope.bound n g _ rest hg hw (endsNumber_of_closes hrest)).lexeme
      have hmark : ∀ m, isMark (Cursor.front scope.bound _ n).token m = false := fun m => by rw [isMark, hlexeme]
      obtain ⟨d, tree, c₁, hpattern, _⟩ := hlook
      obtain ⟨hname, _⟩ := yields_pattern_name hlenient (hmark _) (hmark _) hpattern
      rw [isName, hlexeme] at hname
      cases hname
  | function =>
      intro scope n g rest c' _ hg _ _ hlook
      obtain ⟨d, tree, c₁, hpattern, _⟩ := hlook
      rw [List.append_assoc, List.cons_append, Yields, rules_pattern_bracket (Cursor.at_mark hg (by decide)).lexeme]
        at hpattern
      cases hpattern
  | @functionOf w g₁ _ _ _ hw _ _ _ hg₁ =>
      intro scope n g rest c' hlenient hg hrest hbound hlook
      obtain ⟨d, tree, c₁, hpattern, hgoes⟩ := hlook
      rw [List.length_append] at hbound
      simp only [List.append_assoc, List.cons_append] at hpattern
      rw [← List.append_assoc] at hpattern
      -- The name alone is a pattern, and the sign of the function stands behind it.
      obtain ⟨stop, rfl⟩ := passes_word hw hlenient hg (hg₁.endsWord (by decide) (by decide) _)
        (by omega) hpattern
      exact .inr ((stray_arrow hg₁ _ stop).stays hgoes)
  | tagged _ htext =>
      intro scope n g rest c' hlenient hg hrest hbound hlook
      obtain ⟨k, rfl, hk⟩ := htext.exists_angle
      obtain ⟨d, tree, c₁, hpattern, _⟩ := hlook
      rw [List.append_assoc, List.cons_append] at hpattern
      have hlexeme := (@Cursor.at_angle scope.bound n g (k ++ rest) hg (hk rest)).lexeme
      obtain ⟨hname, _⟩ := yields_pattern_name hlenient (isMark_of_other hlexeme (by decide))
        (isMark_of_other hlexeme (by decide)) hpattern
      rw [isName, hlexeme] at hname
      cases hname
  | lone | pair | fragment => trivial
  | noAttributes | flagAttribute | textAttribute | valueAttribute | spreadAttribute => trivial
  | noChildren | textChild | valueChild | commentChild | tagChild => trivial
  | element htext ih =>
      intro scope n g rest c' hlenient hg hrest hbound hlook
      have hstart := htext.startsValue hg hrest hbound n
      rw [Looks, hstart.not_mark (by decide)] at hlook
      exact ih hlenient hg hrest hbound hlook
  | spread hg₁ htext ih =>
      intro scope n g rest c' hlenient hg hrest hbound hlook
      simp only [List.length_cons, List.length_append] at hbound
      simp only [List.append_assoc, List.cons_append] at hlook
      rw [Looks, if_pos (isMark_self (Cursor.at_dots hg).lexeme)] at hlook
      obtain ⟨d, tree, hpattern⟩ := hlook
      rw [← List.append_assoc] at hpattern
      exact passes_dots ih hg₁ hlenient hg hrest (by omega) hpattern
  | property hkey hg₁ hg₂ _ ih => exact passes_property ih hkey hg₁ hg₂
  | shorthand hw _ =>
      intro scope n g rest c' hlenient hg hrest hbound hlook
      obtain ⟨d, tree, hproperty⟩ := hlook
      obtain ⟨key, stop, hkey, _⟩ := (IsMemberKey.word hw).propertyKey hg hrest.endsWord hbound n
      have hcloses := hrest.closes scope.bound stop
      exact .inl ⟨stop, yields_patternProperty_name hlenient
        ((IsMemberKey.word hw).not_mark hg hrest.endsWord hbound n _) hkey (isMark_of_closes hcloses (by decide))
        (isMark_of_closes hcloses (by decide)) hproperty⟩
  | memberSpread hg₁ htext ih =>
      intro scope n g rest c' hlenient hg hrest hbound hlook
      simp only [List.length_cons, List.length_append] at hbound
      simp only [List.append_assoc, List.cons_append] at hlook
      obtain ⟨d, tree, hproperty⟩ := hlook
      obtain ⟨target, hpattern⟩ := yields_patternProperty_rest hlenient (isMark_self (Cursor.at_dots hg).lexeme)
        hproperty
      rw [← List.append_assoc] at hpattern
      exact passes_dots ih hg₁ hlenient hg hrest (by omega) hpattern
  | parameter =>
      intro scope n g rest c' _ _ _ _ hlook
      cases hlook
  | nil hg =>
      intro scope n rest close σ step k state ts c' hlenient hclose hbound hrounds hrun
      have hat := @Cursor.at_mark scope.bound n close _ rest hg (mem_loneMarks_of_close hclose)
      obtain rfl := hrounds.closed (isMark_self hat.lexeme) hrun
      exact ⟨_, hat⟩
  | last hg htext hg' ih =>
      intro scope n rest close σ step k state ts c' hlenient hclose hbound hrounds hrun
      rename_i entry g g' text shape
      simp only [List.length_append] at hbound
      simp only [List.append_assoc] at hrun
      rw [← List.append_assoc] at hrun
      have hrest := closesText_close hg' hclose rest
      obtain ⟨c₁, hlook, hends⟩ := hrounds.entered (htext.startsEntry hg hrest (by omega) n) hrun
      rcases ih hlenient hg hrest (by omega) hlook with ⟨stop, rfl⟩ | hstray
      · have hat := @Cursor.at_mark scope.bound stop close _ rest hg' (mem_loneMarks_of_close hclose)
        rcases hends with ⟨_, rfl⟩ | ⟨hcomma, _⟩
        · exact ⟨_, hat⟩
        · rw [isMark_of_other hat.lexeme (close_ne_comma hclose)] at hcomma
          cases hcomma
      · exact absurd hends (hstray.not_ends hclose)
  | cons hg htext hg' hrest' ih ih' =>
      intro scope n rest close σ step k state ts c' hlenient hclose hbound hrounds hrun
      rename_i entry comma g g' text tail shape shapes
      simp only [List.length_append, List.length_cons] at hbound
      simp only [List.append_assoc, List.cons_append] at hrun
      rw [← List.append_assoc] at hrun
      have hrest : ClosesText (g' ++ ',' :: (tail ++ close :: rest)) := ⟨g', ',', _, hg', by decide, rfl⟩
      obtain ⟨c₁, hlook, hends⟩ := hrounds.entered (htext.startsEntry hg hrest (by omega) n) hrun
      rcases ih hlenient hg hrest (by omega) hlook with ⟨stop, rfl⟩ | hstray
      · have hat := @Cursor.at_mark scope.bound stop ',' _ (tail ++ close :: rest) hg' (by decide)
        rcases hends with ⟨hcloses, _⟩ | ⟨_, k, state, hmore⟩
        · rw [isMark_of_other hat.lexeme (close_ne_comma hclose).symm] at hcloses
          cases hcloses
        · rw [hat.next] at hmore
          exact ih' hlenient hclose (by omega) hrounds hmore
      · exact absurd hends (hstray.not_ends hclose)

/-! ## No functions -/

theorem yields_parameters {rs : Rules} (h : Yields (parameters rs) scope c tree c') : ∃ ts,
    Yields (iterate (fun (x : List Tree × Bool) => do
      if ← atMark ")" then return .inr x.1.reverse
      faultIf x.2
      let decorators ← if ← atMark "@" then pure [← rs .decorators] else pure []
      let start ← position
      let isRest ← eatMark "..."
      let param ← if isRest then restParameter rs start decorators else plainParameter rs decorators
      if !(← atMark ")") then
        expectMark ","
        faultIf (isRest && (← atMark ")"))
      return .inl (param :: x.1, x.2 || isRest)) (scope.bound + 1) ([], false)) (bracketScope scope) c ts c' := by
  rw [parameters, parametersWith] at h
  simp only [↓yields_looks] at h
  obtain ⟨ts, c₁, hloop, h⟩ := yields_bind.mp h
  obtain ⟨_, rfl⟩ := yields_finish.mp h
  exact ⟨ts, hloop⟩

/-- A mark behind an operand is no sign of a function or of its type. -/
theorem BehindOperand.not_mark (h : BehindOperand rest) (bound n : Nat) (hm : m ∉ followMarks) :
    isMark (Cursor.front bound rest n).token m = false := by
  obtain ⟨m', hm', hlexeme⟩ := h.token bound n
  refine isMark_of_other hlexeme ?_
  rintro rfl
  exact hm hm'

/-- Values between brackets are no parameters with the sign of a function behind them. -/
theorem Core.arrowHead (h : Core tags (.list .value comma) inner shapes) (hlenient : scope.lenient = true)
    (hg : IsGap g) (hrest : BehindOperand rest) (hbound : inner.length ≤ scope.bound) (withResult : Bool) :
    arrowHead (rules d) withResult scope (.front scope.bound (g ++ '(' :: (inner ++ ')' :: rest)) n) = none := by
  rw [Option.eq_none_iff_forall_ne_some]
  rintro ⟨ts, c'⟩ hread
  replace hread : Yields (Grammar.arrowHead (rules d) withResult) scope _ ts c' := hread
  rw [Grammar.arrowHead, yields_bind] at hread
  obtain ⟨_, c₁, hopen, hread⟩ := hread
  rw [(yields_expectMark_lenient hlenient hopen).2, (Cursor.at_mark hg (by decide)).next, yields_bind] at hread
  obtain ⟨params, c₂, hparams, hread⟩ := hread
  cases d with
  | zero => exact absurd hparams yields_reject
  | succ d =>
      obtain ⟨ts', hloop⟩ := yields_parameters hparams
      obtain ⟨stop, hat⟩ := @Core.passes _ _ _ _ h (bracketScope (bracketScope scope)) _ rest ')' _ _ _ _ _ _ hlenient
        (by decide) hbound (@rounds_parameters (bracketScope (bracketScope scope)) hlenient d) hloop
      rw [yields_bind] at hread
      obtain ⟨_, c₃, hclose, hread⟩ := hread
      have hnext : c₂.next scope.bound = .front scope.bound rest stop := hat.next
      rw [(yields_expectMark_lenient hlenient hclose).2, hnext, yields_bind] at hread
      obtain ⟨_, c₄, hfault, hread⟩ := hread
      rw [yields_faultIf_lenient hlenient hfault] at hread
      have hcolon := hrest.not_mark scope.bound stop (m := ":") (by decide)
      have hsign := hrest.not_mark scope.bound stop (m := "=>") (by decide)
      simp only [pure_bind, ↓yields_looks, hcolon, hsign, Bool.and_false, Bool.false_eq_true, if_false,
        false_and] at hread

/-- No function starts at values between brackets. -/
theorem Core.arrow? (h : Core tags (.list .value comma) inner shapes) (hg : IsGap g) (hrest : BehindOperand rest)
    (hbound : inner.length ≤ scope.bound) (d n : Nat) :
    arrow? (rules d) scope (.front scope.bound (g ++ '(' :: (inner ++ ')' :: rest)) n) =
      some (none, .front scope.bound (g ++ '(' :: (inner ++ ')' :: rest)) n) := by
  have hat := @Cursor.at_mark scope.bound n '(' g (inner ++ ')' :: rest) hg (by decide)
  exact arrow?_none hat.lexeme fun withResult =>
    @Core.arrowHead tags n d g rest inner shapes comma { scope with lenient := true } h rfl hg hrest hbound withResult

end Script
end StoryDocs
