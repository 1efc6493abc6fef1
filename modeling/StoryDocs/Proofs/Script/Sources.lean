import StoryDocs.Proofs.Script.Quoted
import StoryDocs.Proofs.Script.Specifiers

/-!
# What the sources of a script denote

Only imports and re-exports have sources, and each source is read from a string behind `from` or `import`.
So the name of a source is what the quoted text in its place denotes.
-/

namespace StoryDocs
namespace Script

open Text Grammar

variable {α β : Type} {rules : Rules} {features : Features} {scope : Scope} {c c' : Cursor}
  {text s : List Char} {n bound start depth : Nat} {stack : List (Bracket × Nat)} {held : Multiset Literal}
  {items ts leading : List Tree} {t source name : Tree} {value label : String} {typeOnly b : Bool}

/-! ## Tokens of strings -/

/-- Whether a line is broken in front of it makes no other difference to a token. -/
theorem Token.readHere_broken (gap : Gap) (b : Bool) :
    (Token.readHere bound { gap with broken := b }).lexeme = (Token.readHere bound gap).lexeme ∧
      (Token.readHere bound { gap with broken := b }).stop = (Token.readHere bound gap).stop := by
  rw [Token.readHere.eq_def, Token.readHere.eq_def]
  dsimp only
  repeat' split
  all_goals exact ⟨rfl, rfl⟩

/-- A token with the value of a string is spelled by a quoted text that denotes the value. -/
theorem Token.exists_denotes (h : (Token.read bound s n).lexeme = .string value) :
    ∃ quote body rest, IsQuote quote ∧ (Token.read bound s n).here = quote :: body ++ [quote] ++ rest ∧
      (Token.read bound s n).stop = (Token.read bound s n).start + (body.length + 2) ∧
      Denotes (quote :: body ++ [quote]) value.toList := by
  obtain ⟨gap, part, hcut⟩ := @Token.exists_cut bound n s (by rw [h]; simp)
  have hspells := hcut.spells
  rw [Token.Spells, h] at hspells
  obtain ⟨quote, body, hquote, _, rfl⟩ := hspells
  have hstop := hcut.stop_eq
  have hhere := hcut.here_eq
  refine ⟨quote, body, (Token.read bound s n).rest, hquote, hhere, by simpa using hstop, ?_⟩
  have hplace : Token.read bound s n = Token.readHere bound (skipGap s n false) := rfl
  rw [hplace] at h hstop hhere
  obtain ⟨hgap, hoffset⟩ := Token.readHere_here bound (skipGap s n false)
  generalize skipGap s n false = place at h hstop hhere hgap hoffset
  have hclosed : place.closed = true := by
    by_contra hopen
    rw [Bool.not_eq_true] at hopen
    rw [Token.readHere.eq_def, hopen] at h
    cases h
  obtain ⟨hlexeme, hsame⟩ := @Token.readHere_broken bound place false
  rw [hgap] at hhere
  have hquoted : quote ≠ '/' ∧ isBlank quote = false ∧ quote.toNat ≠ 0xFEFF := by
    rcases hquote with rfl | rfl
    · decide
    · decide
  -- The token is read again from its own start, where there is no gap.
  have hread := @Token.read_code bound place.offset false quote []
    (body ++ [quote] ++ (Token.readHere bound place).rest) (skips_blank rfl) hquoted.1 hquoted.2.1 hquoted.2.2
  have hpart : quote :: (body ++ [quote]) ++ (Token.readHere bound place).rest =
      quote :: (body ++ [quote] ++ (Token.readHere bound place).rest) := rfl
  rw [List.nil_append, List.length_nil, Nat.add_zero, ← hpart, ← hhere, ← hclosed] at hread
  have htext : quote :: body ++ [quote] ++ (Token.readHere bound place).rest = place.rest := hhere.symm
  refine @denotes_of_read (Token.readHere bound place).rest body quote place.offset bound value hquote ?_ ?_
  · rw [htext, hread, hlexeme, h]
  · rw [htext, hread, hsame, hstop, hoffset, List.length_cons, List.length_append, List.length_singleton]

/-- A source stands in a text between quotes, and its name is what it denotes there. -/
def Tree.QuotedIn (text : List Char) (source : Tree) : Prop :=
  ∃ front quote body rest, text = front ++ (quote :: body ++ [quote]) ++ rest ∧ IsQuote quote ∧
    source.span = ⟨front.length, front.length + (quote :: body ++ [quote]).length⟩ ∧
    Denotes (quote :: body ++ [quote]) source.name.toList

/-- The place that is reached behind `n` characters. -/
theorem Reached.exists_front (h : Reached text stack held s n) : ∃ front, text = front ++ s ∧ front.length = n := by
  obtain ⟨as, literals, hcuts, hrun, _⟩ := h
  have hoffset := Nesting.offset_run hrun
  exact ⟨as.flatMap Atom.text, hcuts.text_eq, by simpa [Nesting.start] using hoffset.symm⟩

theorem quotedIn_string (hc : Stands text stack held c) (hstring : c.token.lexeme = .string value)
    (parts : List Tree) : Tree.QuotedIn text (.node .string ⟨c.token.start, c.token.stop⟩ value parts) := by
  have hplace := hc.front (by rw [hstring]; simp)
  obtain ⟨front, htext, hfront⟩ := hplace.exists_front
  obtain ⟨_, s, n, bound, _, htoken⟩ := hc
  rw [htoken] at hstring
  obtain ⟨quote, body, rest, hquote, hhere, hstop, hdenotes⟩ := Token.exists_denotes hstring
  rw [← htoken] at hhere hstop
  refine ⟨front, quote, body, rest, by rw [htext, hhere, ← List.append_assoc], hquote, ?_, hdenotes⟩
  show Span.mk _ _ = _
  rw [hstop, hfront]
  simp

/-! ## What rules give -/

/-- What a rule gives, whatever it reads. -/
def Gives (p : Parse α) (P : α → Prop) : Prop :=
  ∀ ⦃scope : Scope⦄ ⦃c : Cursor⦄ ⦃a : α⦄ ⦃c' : Cursor⦄, Yields p scope c a c' → P a

namespace Gives

theorem bind {p : Parse α} {f : α → Parse β} {P : β → Prop} (h : ∀ a, Gives (f a) P) : Gives (p >>= f) P := by
  intro scope c b c' hyields
  obtain ⟨a, c₁, _, hb⟩ := yields_bind.mp hyields
  exact h a hb

theorem bind_of {p : Parse α} {f : α → Parse β} {P : α → Prop} {Q : β → Prop} (hp : Gives p P)
    (hf : ∀ a, P a → Gives (f a) Q) : Gives (p >>= f) Q := by
  intro scope c b c' hyields
  obtain ⟨a, c₁, ha, hb⟩ := yields_bind.mp hyields
  exact hf a (hp ha) hb

theorem pure {a : α} {P : α → Prop} (h : P a) : Gives (pure a) P := by
  intro scope c b c' hyields
  obtain ⟨rfl, _⟩ := yields_pure.mp hyields
  exact h

theorem ite {cond : Prop} [Decidable cond] {p q : Parse α} {P : α → Prop} (hp : Gives p P) (hq : Gives q P) :
    Gives (if cond then p else q) P := by
  split
  · exact hp
  · exact hq

theorem finish {k : Kind} {start : Nat} {name : String} {parts : List Tree} {P : Tree → Prop}
    (h : ∀ stop, P (.node k ⟨start, stop⟩ name parts)) : Gives (finish k start name parts) P := by
  intro scope c t c' hyields
  obtain ⟨rfl, _⟩ := yields_finish.mp hyields
  exact h _

theorem reject {P : α → Prop} : Gives reject P :=
  fun _ _ _ _ h => absurd h yields_reject

theorem within {change : Scope → Scope} {p : Parse α} {P : α → Prop} (h : Gives p P) : Gives (within change p) P :=
  fun _ _ _ _ hyields => h (yields_within.mp hyields)

end Gives

/-- The kinds of items that may have a source. -/
def Kind.hasSource : Kind → Bool
  | .importDecl => true
  | .exportNamed => true
  | .exportAll => true
  | _ => false

/-- A tree that is neither an import nor a re-export. -/
def Tree.Plain (t : Tree) : Prop :=
  t.kind.hasSource = false

/-- A tree, if there is one, that is neither an import nor a re-export. -/
def Tree.Plain? (t? : Option Tree) : Prop :=
  ∀ t ∈ t?, t.Plain

theorem source?_eq (t : Tree) :
    t.source? = if t.kind.hasSource then t.parts.find? (fun p => p.kind == .string) else none := by
  rw [Tree.source?]
  cases t.kind <;> rfl

theorem Tree.plain?_some (h : t.Plain) : Tree.Plain? (some t) := by
  rintro _ ⟨⟩
  exact h

theorem Tree.plain?_none : Tree.Plain? none :=
  fun _ h => by cases h

theorem gives_found {p : Parse Tree} (h : Gives p Tree.Plain) :
    Gives (do let t ← p; return some t) Tree.Plain? :=
  .bind_of h fun _ ht => .pure (Tree.plain?_some ht)

theorem gives_block : Gives (block rules) Tree.Plain := by
  unfold block
  repeat' refine .bind fun _ => ?_
  exact .pure rfl

theorem gives_function : Gives (function rules .functionDecl b) Tree.Plain := by
  intro scope c t c' h
  rw [Tree.Plain, kind_function h]
  rfl

theorem gives_variableList : Gives (variableList rules) Tree.Plain := by
  intro scope c t c' h
  rw [Tree.Plain, kind_variableList h]
  rfl

theorem gives_enumTail : Gives (enumTail rules start) Tree.Plain := by
  unfold enumTail
  repeat' refine .bind fun _ => ?_
  exact .pure rfl

theorem gives_interfaceTail : Gives (interfaceTail rules start) Tree.Plain := by
  unfold interfaceTail
  repeat' first | refine .ite ?_ ?_ | refine .bind fun _ => ?_
  all_goals exact .pure rfl

theorem gives_aliasTail : Gives (aliasTail rules start) Tree.Plain := by
  unfold aliasTail
  repeat' refine .bind fun _ => ?_
  exact .pure rfl

theorem gives_namespaceTail : Gives (namespaceTail rules start) Tree.Plain := by
  unfold namespaceTail
  repeat' first | refine .ite ?_ ?_ | refine .bind fun _ => ?_
  all_goals exact .pure rfl

theorem gives_quotedModuleTail : Gives (quotedModuleTail rules start) Tree.Plain := by
  unfold quotedModuleTail
  repeat' first | refine .ite ?_ ?_ | refine .bind fun _ => ?_
  all_goals exact .pure rfl

theorem gives_globalTail : Gives (globalTail rules start) Tree.Plain := by
  unfold globalTail
  repeat' refine .bind fun _ => ?_
  exact .pure rfl

theorem gives_ifStatement : Gives (ifStatement rules start) Tree.Plain := by
  unfold ifStatement
  repeat' first | refine .ite ?_ ?_ | refine .bind fun _ => ?_
  all_goals exact .pure rfl

theorem gives_whileStatement : Gives (whileStatement rules start) Tree.Plain := by
  unfold whileStatement
  repeat' refine .bind fun _ => ?_
  exact .pure rfl

theorem gives_doStatement : Gives (doStatement rules start) Tree.Plain := by
  unfold doStatement
  repeat' refine .bind fun _ => ?_
  exact .pure rfl

theorem gives_switchStatement : Gives (switchStatement rules start) Tree.Plain := by
  unfold switchStatement
  repeat' refine .bind fun _ => ?_
  exact .pure rfl

theorem gives_returnStatement : Gives (returnStatement rules start) Tree.Plain := by
  unfold returnStatement
  repeat' first | refine .ite ?_ ?_ | refine .bind fun _ => ?_
  all_goals exact .pure rfl

theorem gives_throwStatement : Gives (throwStatement rules start) Tree.Plain := by
  unfold throwStatement
  repeat' refine .bind fun _ => ?_
  exact .pure rfl

theorem gives_tryStatement : Gives (tryStatement rules start) Tree.Plain := by
  unfold tryStatement
  repeat' first | refine .ite ?_ ?_ | refine .bind fun _ => ?_
  all_goals exact .pure rfl

theorem gives_labelled : Gives (labelled rules start label) Tree.Plain := by
  unfold labelled
  repeat' refine .bind fun _ => ?_
  exact .pure rfl

theorem gives_expressionStatement : Gives (expressionStatement rules start) Tree.Plain := by
  unfold expressionStatement
  refine .bind fun _ => .bind fun _ => .ite gives_labelled ?_
  exact .bind fun _ => .bind fun _ => .finish fun _ => rfl

theorem gives_jump {k : Kind} (hk : k.hasSource = false) : Gives (jump start k) Tree.Plain := by
  unfold jump
  refine .bind fun _ => .bind fun _ => .ite ?_ ?_
  · exact .bind fun _ => .finish fun _ => hk
  · exact .bind fun _ => .bind fun _ => .bind fun _ => .finish fun _ => hk

theorem gives_overHead : Gives (overHead rules t) fun head => head.1.hasSource = false := by
  unfold overHead
  refine .bind fun _ => .ite ?_ ?_
  · exact .bind fun _ => .pure rfl
  · exact .bind fun _ => .bind fun _ => .pure rfl

theorem gives_declaringHead : Gives (declaringHead rules t) fun head => head.1.hasSource = false := by
  unfold declaringHead
  refine .bind fun _ => .ite ?_ ?_
  · exact .bind fun _ => gives_overHead
  · exact .bind fun _ => .bind fun _ => .pure rfl

theorem gives_forHead : Gives (forHead rules b) fun head => head.1.hasSource = false := by
  unfold forHead
  refine .bind fun _ => .bind fun _ => .bind fun _ => .ite ?declares ?_
  case declares => exact .bind fun _ => .bind fun _ => .bind fun _ => gives_declaringHead
  refine .bind fun _ => .bind fun _ => .ite ?disposes ?_
  case disposes => exact .bind fun _ => gives_declaringHead
  refine .bind fun _ => .ite ?counts ?_
  case counts => exact .bind fun _ => .pure rfl
  refine .bind fun _ => .bind fun _ => .bind fun _ => .bind fun _ => .ite ?runs ?counts
  case runs => exact .bind fun _ => .bind fun _ => .bind fun _ => .bind fun _ => gives_overHead
  case counts => exact .bind fun _ => .bind fun _ => .bind fun _ => .pure rfl

theorem gives_forStatement : Gives (forStatement rules start) Tree.Plain := by
  unfold forStatement
  exact .bind fun _ => .bind fun _ => .bind_of gives_forHead fun _ hk => .bind fun _ => .bind fun _ =>
    .bind fun _ => .finish fun _ => hk

theorem gives_classTail (k : Kind) : Gives (classTail rules start k b) fun t => t.kind = k := by
  unfold classTail
  repeat' first | refine .ite ?_ ?_ | refine .bind fun _ => ?_
  all_goals exact .pure rfl

/-- Whether the rules that statements are built on give no imports and no re-exports. -/
structure Rules.Plain (rules : Rules) : Prop where
  block : Gives (rules .block) Tree.Plain
  classTail : ∀ start b, Gives (rules (.classTail start .classDecl b)) fun t => t.kind = .classDecl
  namespaceTail : ∀ start, Gives (rules (.namespaceTail start)) Tree.Plain

theorem plain_rules (depth : Nat) : (Grammar.rules depth).Plain := by
  cases depth with
  | zero => exact ⟨.reject, fun _ _ => .reject, fun _ => .reject⟩
  | succ depth => exact ⟨gives_block, fun _ _ => gives_classTail _, fun _ => gives_namespaceTail⟩

theorem Tree.plain_of_kind {k : Kind} (h : t.kind = k) (hk : k.hasSource = false) : t.Plain := by
  rw [Tree.Plain, h, hk]

theorem Rules.Plain.declaresClass (hr : rules.Plain) (start : Nat) (b : Bool) :
    Gives (rules (.classTail start .classDecl b)) Tree.Plain :=
  fun _ _ _ _ h => Tree.plain_of_kind (hr.classTail start b h) rfl

theorem gives_decoratedClass (hr : rules.Plain) : Gives (decoratedClass rules) Tree.Plain := by
  have hnode : ∀ start decorators, Gives (do
      let t ← rules (.classTail start .classDecl true)
      return .node t.kind t.span t.name (t.parts ++ [decorators])) Tree.Plain :=
    fun start _ => .bind_of (hr.classTail start true) fun _ hk => .pure (Tree.plain_of_kind hk rfl)
  unfold decoratedClass
  refine .bind fun _ => .bind fun _ => .bind fun _ => .bind fun _ => .ite ?_ ?_
  · exact .bind fun _ => hnode _ _
  · exact hnode _ _

theorem gives_typedDeclaration? (hr : rules.Plain) : Gives (typedDeclaration? rules start b) Tree.Plain? := by
  unfold typedDeclaration?
  refine .bind fun _ => .bind fun _ => .ite (.bind fun _ => gives_found (hr.declaresClass _ _)) ?_
  refine .ite (.bind fun _ => gives_found gives_enumTail) ?_
  refine .ite (.bind fun _ => gives_found gives_interfaceTail) (.ite ?module ?_)
  case module =>
    split
    · exact .bind fun _ => gives_found gives_quotedModuleTail
    refine .ite (.bind fun _ => gives_found (hr.namespaceTail _)) ?_
    exact .ite (.bind fun _ => gives_found (hr.namespaceTail _))
      (.ite (.bind fun _ => gives_found gives_aliasTail) (.pure Tree.plain?_none))
  exact .ite (.bind fun _ => gives_found (hr.namespaceTail _))
    (.ite (.bind fun _ => gives_found gives_aliasTail) (.pure Tree.plain?_none))

theorem Tree.Plain.startingAt (h : t.Plain) (start : Nat) : (t.startingAt start).Plain := by
  obtain ⟨k, span, name, parts⟩ := t
  exact h

theorem gives_ambientDeclaration? (hr : rules.Plain) :
    Gives (ambientDeclaration? rules start) Tree.Plain? := by
  unfold ambientDeclaration?
  refine .bind fun _ => .bind fun _ => .within (.bind fun _ => .ite ?function ?_)
  case function => exact .bind_of gives_function fun _ ht => .pure (Tree.plain?_some (ht.startingAt _))
  refine .bind fun _ => .ite (gives_found (hr.declaresClass _ _)) ?_
  refine .bind fun _ => .bind fun _ => .ite (.bind fun _ => .bind fun _ => gives_found gives_enumTail) ?_
  refine .bind fun _ => .ite ?declares ?_
  case declares => exact .bind_of gives_variableList fun _ ht => .pure (Tree.plain?_some (ht.startingAt _))
  exact .bind fun _ => .ite (gives_found gives_globalTail) (gives_typedDeclaration? hr)

theorem Gives.tryRule {p : Parse Tree} (h : Gives p Tree.Plain) : Gives (tryRule p) Tree.Plain? := by
  intro scope c t? c' hyields
  rcases yields_tryRule.mp hyields with ⟨t, rfl, ht⟩ | ⟨rfl, _, _⟩
  · exact Tree.plain?_some (h ht)
  · exact Tree.plain?_none

/-- A declaration that must be there. -/
theorem gives_orReject {p : Parse (Option Tree)} (h : Gives p Tree.Plain?) : Gives (do
    match ← p with
    | some t => return t
    | none => reject) Tree.Plain := by
  refine .bind_of h fun t? ht => ?_
  cases t? with
  | none => exact .reject
  | some t => exact .pure (ht t rfl)

theorem gives_typedStatement? (hr : rules.Plain) : Gives (typedStatement? rules start) Tree.Plain? := by
  unfold typedStatement?
  refine .bind fun _ => .ite (.pure Tree.plain?_none) ?_
  refine .bind fun _ => .bind fun _ => .ite (.bind fun _ => .bind fun _ => gives_found gives_enumTail) ?_
  refine .bind fun _ => .ite (.tryRule (.bind fun _ => gives_orReject (gives_ambientDeclaration? hr))) ?_
  exact .bind fun _ => .bind fun _ => .ite (.bind fun _ => gives_found gives_globalTail) (gives_typedDeclaration? hr)

theorem gives_keywordStatement? (hr : rules.Plain) : Gives (keywordStatement? rules start b) Tree.Plain? := by
  have hbehind : ∀ {p : Parse Tree}, Gives p Tree.Plain → Gives (do advance; return some (← p)) Tree.Plain? :=
    fun h => .bind fun _ => gives_found h
  unfold keywordStatement?
  refine .bind fun _ => ?_
  split
  · dsimp only
    split
    · exact gives_found gives_variableList
    · exact .bind fun _ => gives_found gives_variableList
    · exact .bind fun _ => gives_found gives_function
    · exact .bind fun _ => gives_found (hr.declaresClass _ _)
    · exact hbehind gives_ifStatement
    · exact hbehind gives_forStatement
    · exact hbehind gives_whileStatement
    · exact hbehind gives_doStatement
    · exact hbehind gives_switchStatement
    · exact hbehind gives_returnStatement
    · exact hbehind gives_throwStatement
    · exact hbehind gives_tryStatement
    · exact hbehind (gives_jump rfl)
    · exact hbehind (gives_jump rfl)
    · exact hbehind (.bind fun _ => .finish fun _ => rfl)
    · exact hbehind (.bind fun _ => .bind fun _ => .bind fun _ => .finish fun _ => rfl)
    · exact .pure Tree.plain?_none
  · exact .pure Tree.plain?_none

/-- No statement is an import or a re-export. -/
theorem gives_statement (hr : rules.Plain) : Gives (statement rules b) Tree.Plain := by
  unfold statement
  refine .bind fun _ => .bind fun _ => .ite (.finish fun _ => rfl) ?_
  refine .bind fun _ => .ite hr.block (.bind fun _ => .ite (gives_decoratedClass hr) ?_)
  refine .bind_of (gives_typedStatement? hr) fun typed? htyped => ?_
  cases typed? with
  | some t => exact .pure (htyped t rfl)
  | none =>
      refine .bind_of (gives_keywordStatement? hr) fun keyword? hkeyword => ?_
      cases keyword? with
      | some t => exact .pure (hkeyword t rfl)
      | none =>
          refine .bind fun _ => .ite (.bind fun _ => gives_function) ?_
          refine .bind fun _ => .ite gives_variableList (.bind fun _ => .ite ?disposes gives_expressionStatement)
          case disposes =>
            refine .bind_of (P := fun t => t.kind = .variableList) (fun _ _ _ _ h => kind_usingVariables h) ?_
            exact fun t hk => .bind fun _ => .finish fun _ => Tree.plain_of_kind hk rfl

/-! ## Sources of items -/

/-- What a rule reads between places of the same brackets. -/
theorem Reads.keeps {p : Parse α} {literals : α → Multiset Literal} {a : α} (hp : Reads p literals)
    (h : Yields p scope c a c') (hc : Stands text stack held c) : Stands text stack held c' :=
  (hp h hc).drop

/-- An item whose source, if it has one, denotes its name. -/
def Tree.Sourced (text : List Char) (t : Tree) : Prop :=
  ∀ source, t.source? = some source → source.QuotedIn text

theorem Tree.Plain.sourced (h : t.Plain) : t.Sourced text := by
  intro source hsource
  rw [source?_eq, h] at hsource
  cases hsource

/-- What may stand in front of the source among the parts of an item. -/
def NoStrings (ts : List Tree) : Prop :=
  ∀ t ∈ ts, t.kind ≠ .string

theorem NoStrings.find?_eq_none (h : NoStrings ts) : ts.find? (fun p => p.kind == .string) = none := by
  rw [List.find?_eq_none]
  intro p hp
  simpa using h p hp

theorem NoStrings.sourced {k : Kind} {span : Span} (h : NoStrings ts) : (Tree.node k span label ts).Sourced text := by
  intro source hsource
  rw [source?_eq] at hsource
  split at hsource
  · exact absurd (h.find?_eq_none.symm.trans hsource) (by simp)
  · cases hsource

/-- A list of parts that starts with a source. -/
def StartsWithSource (text : List Char) (ts : List Tree) : Prop :=
  ∃ source rest, ts = source :: rest ∧ source.kind = .string ∧ source.QuotedIn text

theorem sourced_node {k : Kind} {span : Span} {front : List Tree} (hfront : NoStrings front)
    (hts : StartsWithSource text ts) : (Tree.node k span label (front ++ ts)).Sourced text := by
  obtain ⟨source, rest, rfl, hkind, hquoted⟩ := hts
  have hfind : (front ++ source :: rest).find? (fun p => p.kind == .string) = some source := by
    rw [List.find?_append, hfront.find?_eq_none, Option.none_or, List.find?_cons_of_pos (by simp [hkind])]
  intro source' hsource
  rw [source?_eq] at hsource
  split at hsource
  · rw [← Option.some.inj (hfind.symm.trans hsource)]
    exact hquoted
  · cases hsource

theorem startsWithSource_sourceTail (h : Yields (sourceTail rules) scope c ts c') (hc : Stands text stack held c) :
    StartsWithSource text ts := by
  rw [sourceTail] at h
  simp only [yields_bind, yields_pure] at h
  obtain ⟨source, c₁, hsource, attributes, _, _, _, _, _, rfl, _⟩ := h
  rw [stringToken] at hsource
  obtain ⟨_, _, htoken, hsource⟩ := yields_bind.mp hsource
  obtain ⟨rfl, rfl⟩ := yields_token.mp htoken
  split at hsource
  · rename_i value hstring
    obtain ⟨_, _, _, hsource⟩ := yields_bind.mp hsource
    obtain ⟨rfl, _⟩ := yields_pure.mp hsource
    exact ⟨_, attributes, rfl, rfl, quotedIn_string hc hstring []⟩
  · exact absurd hsource yields_reject

theorem startsWithSource_fromClause (h : Yields (fromClause rules) scope c ts c') (hc : Stands text stack held c) :
    StartsWithSource text ts := by
  rw [fromClause] at h
  obtain ⟨_, _, hfrom, h⟩ := yields_bind.mp h
  exact startsWithSource_sourceTail h (stands_expectWord hfrom hc)

theorem gives_anyName : Gives anyName fun t => t.kind ≠ .string := by
  unfold anyName
  refine .bind fun t => ?_
  split
  · exact .bind fun _ => .pure (by simp [Tree.kind])
  · exact .reject

theorem gives_bindingName : Gives bindingName fun t => t.kind ≠ .string := by
  unfold bindingName
  refine .bind fun t => ?_
  split
  · exact .bind fun _ => .bind fun _ => .bind fun _ => .bind fun _ => .bind fun _ => .pure (by simp [Tree.kind])
  · exact .reject

theorem gives_defaultImport (hname : name.kind ≠ .string) :
    Gives (defaultImport name) fun lead => NoStrings lead.2 := by
  have hone : ∀ t : Tree, t.kind ≠ .string → NoStrings [t] := by
    simp [NoStrings]
  have hnone : NoStrings [] := by
    simp [NoStrings]
  have hphase : Gives (do
      if name.name == "source" && (← precedesDefault) then
        let name ← bindingName
        return (ImportLead.source, [name])
      if name.name == "defer" && (← atMark "*") then return (.defer, [])
      if name.name == "defer" && (← precedesDefault) then
        let name ← bindingName
        return (.defer, [name])
      return (.plain, [name])) fun lead => NoStrings lead.2 := by
    refine .bind fun _ => .ite (.bind_of gives_bindingName fun t ht => .pure (hone t ht)) ?_
    refine .bind fun _ => .ite (.pure hnone) (.bind fun _ => .ite ?_ (.pure (hone name hname)))
    exact .bind_of gives_bindingName fun t ht => .pure (hone t ht)
  unfold defaultImport
  refine .bind fun _ => .ite (.bind fun _ => .ite (.pure hnone) (.bind fun _ => .ite ?_ ?_)) hphase
  · exact .bind_of gives_bindingName fun t ht => .pure (hone t ht)
  · exact .bind fun _ => .bind fun _ => .ite (.bind_of gives_anyName fun t ht => .pure (hone t ht)) hphase

theorem Gives.separated {close : String} {entry : Parse Tree} {P : Tree → Prop} (h : Gives entry P) :
    Gives (separated close entry) fun ts => ∀ t ∈ ts, P t := by
  intro scope c ts c' hyields
  refine yields_repeatFrom (fun done _ => ∀ t ∈ done, P t) (fun ts _ => ∀ t ∈ ts, P t)
    (fun done c r c' hdone hround => ?_) (fun t ht => absurd ht List.not_mem_nil) hyields
  obtain ⟨stops, c₁, _, hround⟩ := yields_bind.mp hround
  rcases yields_if.mp hround with ⟨_, hround⟩ | ⟨_, hround⟩
  · obtain ⟨rfl, _⟩ := yields_pure.mp hround
    exact fun t ht => hdone t (List.mem_reverse.mp ht)
  · obtain ⟨t, c₂, ht, hround⟩ := yields_bind.mp hround
    have hr : Gives (do
        if !(← atMark close) then expectMark ","
        return (.inl (t :: done) : List Tree ⊕ List Tree)) fun r => r = .inl (t :: done) :=
      .bind fun _ => .ite (.bind fun _ => .pure rfl) (.pure rfl)
    rw [hr hround]
    exact List.forall_mem_cons.mpr ⟨h ht, hdone⟩

theorem gives_specifiers {entry : Parse Tree} (h : Gives entry fun t => t.kind ≠ .string) :
    Gives (specifiers entry) NoStrings := by
  unfold specifiers
  exact .bind fun _ => .bind_of h.separated fun _ hall => .bind fun _ => .pure hall

theorem gives_importSpecifier : Gives (importSpecifier typeOnly) fun t => t.kind ≠ .string := by
  have hkind : ∀ stop start label parts, (Tree.node .importSpecifier ⟨start, stop⟩ label parts).kind ≠ .string := by
    simp [Tree.kind]
  unfold importSpecifier
  refine .bind fun _ => .bind fun _ => .ite ?_ ?_
  · exact .bind fun _ => .bind fun _ => .bind fun _ => .finish fun _ => hkind _ _ _ _
  refine .bind fun _ => .bind fun _ => .bind fun _ => .ite (.finish fun _ => hkind _ _ _ _) (.bind fun _ => .ite ?_ ?_)
  · exact .bind fun _ => .finish fun _ => hkind _ _ _ _
  · exact .bind fun _ => .finish fun _ => hkind _ _ _ _

theorem gives_exportSpecifier : Gives (exportSpecifier typeOnly) fun t => t.kind ≠ .string := by
  have hkind : ∀ stop start label parts, (Tree.node .exportSpecifier ⟨start, stop⟩ label parts).kind ≠ .string := by
    simp [Tree.kind]
  unfold exportSpecifier
  refine .bind fun _ => .bind fun _ => .bind fun _ => .bind fun _ => .bind fun _ => .ite ?_ ?_
  · exact .bind fun _ => .finish fun _ => hkind _ _ _ _
  · exact .finish fun _ => hkind _ _ _ _

theorem gives_namespaceSpecifier : Gives (namespaceSpecifier start) fun t => t.kind ≠ .string := by
  unfold namespaceSpecifier
  exact .bind fun _ => .bind fun _ => .finish fun _ => by simp [Tree.kind]

/-! ## Imports and re-exports -/

theorem gives_importEqualsTail : Gives (importEqualsTail start label typeOnly) Tree.Plain := by
  unfold importEqualsTail
  repeat' first | refine .ite ?_ ?_ | refine .bind fun _ => ?_
  all_goals exact .pure rfl

theorem stands_eatMarkIf {m : String} {isThere : Bool} (h : Yields (eatMarkIf b m) scope c isThere c')
    (hm : isBracketMark m = false) (hc : Stands text stack held c) : Stands text stack held c' := by
  rw [yields_eatMarkIf] at h
  split at h
  · rcases yields_eatMark h with ⟨_, h⟩ | ⟨_, _, rfl⟩
    · exact stands_expectMark h hm hc
    · exact hc
  · obtain ⟨_, rfl⟩ := h
    exact hc

/-- An import behind its default import. -/
theorem sourced_importRest {lead : ImportLead} {named : List Tree} (hnamed : NoStrings named)
    (h : Yields (do
      let here ← position
      let others ←
        if ← eatMarkIf (lead != .source) "*" then pure [← namespaceSpecifier here]
        else if (lead == .plain || lead == .typeOnly) && (← atMark "\x7b") then
          specifiers (importSpecifier (lead == .typeOnly))
        else pure []
      let source ← fromClause rules
      finish .importDecl start "" (named ++ others ++ source)) scope c t c')
    (hc : Stands text stack held c) : t.Sourced text := by
  have hsourced : ∀ {others source c₁ c₂}, NoStrings others → Yields (fromClause rules) scope c₁ source c₂ →
      Stands text stack held c₁ →
      (Tree.node .importDecl ⟨start, c₂.lastStop⟩ "" (named ++ others ++ source)).Sourced text :=
    fun hothers hclause hc₁ => sourced_node
      (fun p hp => (List.mem_append.mp hp).elim (hnamed p) (hothers p)) (startsWithSource_fromClause hclause hc₁)
  simp only [pure_bind, ↓yields_looks, yields_bind, yields_ite, yields_finish] at h
  obtain ⟨isStar, c₁, hstar, h⟩ := h
  have hstands := stands_eatMarkIf hstar rfl hc
  split at h
  · obtain ⟨other, c₂, hother, source, c₃, hclause, rfl, rfl⟩ := h
    refine hsourced ?_ hclause (reads_namespaceSpecifier.keeps hother hstands)
    simpa [NoStrings] using gives_namespaceSpecifier hother
  split at h
  · obtain ⟨others, c₂, hothers, source, c₃, hclause, rfl, rfl⟩ := h
    exact hsourced (gives_specifiers gives_importSpecifier hothers) hclause
      ((reads_specifiers reads_importSpecifier).keeps hothers hstands)
  · obtain ⟨source, c₃, hclause, rfl, rfl⟩ := h
    exact hsourced (fun p hp => absurd hp List.not_mem_nil) hclause hstands

theorem sourced_importTail (h : Yields (importTail rules start) scope c t c') (hc : Stands text stack held c) :
    t.Sourced text := by
  have hnone : NoStrings [] := fun p hp => absurd hp List.not_mem_nil
  rw [importTail, yields_bind] at h
  obtain ⟨quoted, c₁, hstring, h⟩ := h
  obtain rfl := yields_atString hstring
  rcases yields_if.mp h with ⟨_, h⟩ | ⟨_, h⟩
  · simp only [yields_bind, yields_finish] at h
    obtain ⟨source, c₂, hsource, rfl, _⟩ := h
    exact sourced_node hnone (startsWithSource_sourceTail hsource hc)
  dsimp only at h
  simp only [↓yields_looks] at h
  rcases yields_if.mp h with ⟨_, h⟩ | ⟨_, h⟩
  · obtain ⟨first, c₃, hfirst, h⟩ := yields_bind.mp h
    obtain ⟨⟨lead, named⟩, c₄, hlead, h⟩ := yields_bind.mp h
    have hstands := (stands_defaultImport hlead (reads_bindingName hfirst hc)).drop
    have hnamed : NoStrings named := gives_defaultImport (gives_bindingName hfirst) hlead
    dsimp only at h
    cases named with
    | nil => exact sourced_importRest hnamed h hstands
    | cons name others =>
        simp only [List.head?_cons, ↓yields_looks] at h
        rcases yields_if.mp h with ⟨_, h⟩ | ⟨_, h⟩
        · exact (gives_importEqualsTail h).sourced
        rcases yields_if.mp h with ⟨_, h⟩ | ⟨_, h⟩
        · obtain ⟨_, c₅, hcomma, h⟩ := yields_bind.mp h
          exact sourced_importRest hnamed h (stands_expectMark hcomma rfl hstands)
        · exact sourced_importRest hnamed h hstands
  · exact @sourced_importRest _ _ _ _ _ _ _ _ _ .plain [] hnone h hc

theorem sourced_importItem (h : Yields (importItem rules) scope c t c') (hc : Stands text stack held c) :
    t.Sourced text := by
  rw [importItem] at h
  simp only [↓yields_looks, yields_if] at h
  rcases h with ⟨_, h⟩ | ⟨_, h⟩
  · have hplain : Gives (do
        let e ← rules .expression
        let _ ← eatSemicolon
        finish .expressionStatement c.token.start "" [e]) Tree.Plain :=
      .bind fun _ => .bind fun _ => .finish fun _ => rfl
    exact (hplain h).sourced
  · obtain ⟨_, c₁, himport, h⟩ := yields_bind.mp h
    exact sourced_importTail h (stands_expectWord himport hc)

theorem sourced_exportList (hleading : NoStrings leading)
    (h : Yields (exportList rules start typeOnly leading) scope c t c') (hc : Stands text stack held c) :
    t.Sourced text := by
  rw [exportList] at h
  simp only [↓yields_looks, yields_bind, yields_ite, yields_finish] at h
  obtain ⟨names, c₁, hnames, h⟩ := h
  have hstands := (reads_specifiers reads_exportSpecifier).keeps hnames hc
  have hnone := gives_specifiers gives_exportSpecifier hnames
  split at h
  · obtain ⟨source, c₂, hclause, rfl, _⟩ := h
    exact sourced_node (fun p hp => (List.mem_append.mp hp).elim (hleading p) (hnone p))
      (startsWithSource_fromClause hclause hstands)
  · obtain ⟨_, _, _, _, _, _, rfl, _⟩ := h
    exact hnone.sourced

theorem sourced_exportStar (hleading : NoStrings leading)
    (h : Yields (exportStar rules start leading) scope c t c') (hc : Stands text stack held c) :
    t.Sourced text := by
  rw [exportStar] at h
  simp only [↓yields_looks, yields_bind, yields_ite, yields_finish] at h
  split at h
  · obtain ⟨source, c₁, hclause, rfl, _⟩ := h
    exact sourced_node (fun p hp => absurd hp List.not_mem_nil) (startsWithSource_fromClause hclause hc)
  · obtain ⟨_, c₁, has, name, c₂, hname, _, _, ⟨rfl, rfl⟩, source, c₃, hclause, rfl, _⟩ := h
    have hstands := reads_moduleName.keeps hname (stands_expectWord has hc)
    rw [List.append_cons]
    refine sourced_node (fun p hp => ?_) (startsWithSource_fromClause hclause hstands)
    rcases List.mem_append.mp hp with hp | hp
    · exact hleading p hp
    · rw [List.mem_singleton.mp hp]
      simp [Tree.kind]

theorem sourced_exportFrom (h : Yields (exportFrom rules start name) scope c t c') (hc : Stands text stack held c) :
    t.Sourced text := by
  have hspecifier : ∀ span, NoStrings [Tree.node .exportSpecifier span "" [name]] := by
    simp [NoStrings, Tree.kind]
  rw [exportFrom] at h
  simp only [yields_bind, yields_ite, yields_finish] at h
  obtain ⟨comma, c₁, hcomma, h⟩ := h
  have hstands : Stands text stack held c₁ := by
    grind -linarith
  split at h
  · obtain ⟨star, c₂, hstar, h⟩ := h
    have hbehind : Stands text stack held c₂ := by
      grind -linarith
    split at h
    · exact sourced_exportStar (hspecifier _) h hbehind
    · exact sourced_exportList (hspecifier _) h hbehind
  · obtain ⟨source, c₂, hclause, rfl, _⟩ := h
    exact sourced_node (hspecifier _) (startsWithSource_fromClause hclause hstands)

theorem sourced_exportDefault (h : Yields (exportDefault rules start name) scope c t c')
    (hc : Stands text stack held c) : t.Sourced text := by
  rw [exportDefault] at h
  simp only [↓yields_looks, yields_bind, yields_ite, yields_bracketed, yields_finish] at h
  obtain ⟨isClass, c₁, hclass, h⟩ := h
  obtain rfl := yields_atClass hclass
  clear hclass
  split at h
  · obtain ⟨_, _, _, rfl, _⟩ := h
    exact Tree.Plain.sourced rfl
  split at h
  · obtain ⟨_, _, _, _, _, _, rfl, _⟩ := h
    exact Tree.Plain.sourced rfl
  obtain ⟨isAsync, c₂, hasync, h⟩ := h
  obtain rfl := yields_atAsyncFunction hasync
  clear hasync
  split at h
  · obtain ⟨_, _, _, rfl, _⟩ := h
    exact Tree.Plain.sourced rfl
  obtain ⟨isFrom, c₃, hfrom, h⟩ := h
  obtain rfl := yields_atDefaultFrom hfrom
  clear hfrom
  split at h
  · exact sourced_exportFrom h hc
  · obtain ⟨_, _, _, _, _, _, rfl, _⟩ := h
    exact Tree.Plain.sourced rfl

theorem gives_exportWhole? : Gives (exportWhole? rules start) Tree.Plain? := by
  unfold exportWhole?
  refine .bind fun _ => .ite (.bind fun _ => .bind fun _ => .bind fun _ => gives_found gives_importEqualsTail) ?_
  refine .bind fun _ => .ite (.bind fun _ => .bind fun _ => gives_found (.finish fun _ => rfl)) ?_
  refine .bind fun _ => .ite ?_ (.pure Tree.plain?_none)
  exact .bind fun _ => .bind fun _ => .bind fun _ => gives_found (.finish fun _ => rfl)

theorem gives_typedExport? : Gives (typedExport? rules start) Tree.Plain? := by
  -- A declaration that is found is exported, and without one the rest decides.
  have hdeclared : ∀ {p : Parse (Option Tree)} {f : Option Tree → Parse (Option Tree)},
      (∀ t, Gives (f (some t)) Tree.Plain?) → Gives (f none) Tree.Plain? → Gives (p >>= f) Tree.Plain? := by
    intro p f hsome hnone
    refine .bind fun found => ?_
    cases found with
    | some t => exact hsome t
    | none => exact hnone
  have hexport : ∀ t, Gives (do let d ← finish .exportDecl start "" [t]; return some d) Tree.Plain? :=
    fun t => gives_found (.finish fun _ => rfl)
  unfold typedExport?
  refine .bind fun _ => .ite (.pure Tree.plain?_none) (.bind fun here => .bind fun _ => .ite ?_ ?_)
  · refine hdeclared hexport (.bind fun _ => .ite ?_ gives_exportWhole?)
    exact hdeclared hexport gives_exportWhole?
  · refine .bind fun _ => .ite ?_ gives_exportWhole?
    exact hdeclared hexport gives_exportWhole?

theorem sourced_exportTail (hr : rules.Sound) (h : Yields (exportTail rules start typeOnly) scope c t c')
    (hc : Stands text stack held c) : t.Sourced text := by
  have hnone : NoStrings [] := fun p hp => absurd hp List.not_mem_nil
  rw [exportTail] at h
  obtain ⟨isStar, c₁, hstar, hrest⟩ := yields_bind.mp h
  have hstands : Stands text stack held c₁ := by
    grind -linarith
  clear h hstar hc
  rcases yields_if.mp hrest with ⟨_, h⟩ | ⟨_, h⟩
  · exact sourced_exportStar hnone h hstands
  clear hrest
  rcases yields_if.mp h with ⟨_, hrest⟩ | ⟨_, hrest⟩
  swap
  · exact sourced_exportList hnone hrest hstands
  simp only [↓yields_looks] at hrest
  obtain ⟨isDefault, c₂, hdefault, hrest⟩ := yields_bind.mp hrest
  have hbehind : Stands text stack held c₂ := by
    grind -linarith
  clear h hdefault hstands
  rcases yields_if.mp hrest with ⟨_, h⟩ | ⟨_, h⟩
  · exact sourced_exportDefault h hbehind
  obtain ⟨found, c₃, hfound, h⟩ := yields_bind.mp h
  have hdeclared := (reads_exportedDeclaration? hr).keeps hfound hbehind
  clear hrest hfound hbehind
  cases found with
  | some t =>
      simp only [yields_finish] at h
      obtain ⟨rfl, _⟩ := h
      exact Tree.Plain.sourced rfl
  | none =>
      simp only [↓yields_looks, yields_if] at h
      rcases h with ⟨_, h⟩ | ⟨_, h⟩
      · obtain ⟨name, c₄, hname, h⟩ := yields_bind.mp h
        exact sourced_exportFrom h (reads_reference.keeps hname hdeclared)
      · exact sourced_exportList hnone h hdeclared

theorem sourced_exportItem (hr : rules.Sound) (h : Yields (exportItem rules) scope c t c')
    (hc : Stands text stack held c) : t.Sourced text := by
  rw [exportItem] at h
  simp only [↓yields_looks] at h
  obtain ⟨_, c₁, hexport, h⟩ := yields_bind.mp h
  obtain ⟨typed?, c₂, htyped, h⟩ := yields_bind.mp h
  have hstands := (reads_typedExport? hr).keeps htyped (stands_expectWord hexport hc)
  cases typed? with
  | some t =>
      obtain ⟨rfl, _⟩ := yields_pure.mp h
      exact (gives_typedExport? htyped _ rfl).sourced
  | none =>
      simp only [↓yields_looks] at h
      obtain ⟨typeOnly, c₃, htype, h⟩ := yields_bind.mp h
      refine sourced_exportTail hr h (?_ : Stands text stack held c₃)
      grind -linarith

theorem gives_decoratedItem (hp : ∀ b, Gives (rules (.statement b)) Tree.Plain) :
    Gives (decoratedItem rules) Tree.Plain := by
  intro scope c t c' h
  rw [decoratedItem] at h
  simp only [↓yields_looks, yields_bind, yields_ite, yields_pure] at h
  obtain ⟨exports, c₁, _, h⟩ := h
  split at h
  · obtain ⟨_, decorators, c₂, _, member, c₃, _, hkind, rfl, rfl⟩ := h
    simp only [Bool.and_eq_true, Bool.or_eq_true, beq_iff_eq] at hkind
    rcases hkind.1 with hk | hk
    · exact Tree.plain_of_kind hk rfl
    · exact Tree.plain_of_kind hk rfl
  · exact hp true h

/-- The source of an item denotes its name. -/
theorem sourced_item (hr : rules.Sound) (hp : ∀ b, Gives (rules (.statement b)) Tree.Plain)
    (h : Yields (item rules) scope c t c') (hc : Stands text stack held c) : t.Sourced text := by
  rw [item] at h
  simp only [↓yields_looks, yields_if] at h
  rcases h with ⟨_, h⟩ | ⟨_, ⟨_, h⟩ | ⟨_, ⟨_, h⟩ | ⟨_, h⟩⟩⟩
  · exact sourced_importItem h hc
  · exact sourced_exportItem hr h hc
  · exact (gives_decoratedItem hp h).sourced
  · exact (hp true h).sourced

theorem sourced_rules (h : Yields (Grammar.rules depth .item) scope c t c') (hc : Stands text stack held c) :
    t.Sourced text := by
  cases depth with
  | zero => exact absurd h yields_reject
  | succ depth =>
      refine sourced_item (sound_rules depth) (fun b => ?_) h hc
      cases depth with
      | zero => exact .reject
      | succ depth => exact gives_statement (plain_rules depth)

/-- Each source of a script stands in it between quotes that denote its name. -/
theorem Module.sources_quotedIn (h : Module.parse? features text = some items) :
    ∀ source ∈ items.filterMap Tree.source?, source.QuotedIn text := by
  rw [Module.parse?] at h
  generalize hskip : skipInterpreter text = split at h
  obtain ⟨body, offset⟩ := split
  dsimp only at h
  split at h
  · rename_i trees last hitems
    split at h
    · cases h
    obtain rfl := Option.some.inj h
    have hfront := Reached.skipInterpreter text
    rw [hskip] at hfront
    have hread := (sound_rules (depthBound text)).rule .item rfl
    have hall := yields_many (fun done c => Stands text [] 0 c ∧ ∀ item ∈ done, item.Sourced text)
      (fun _ _ _ _ h => (yields_atEnd.mp h).2)
      (fun done t c c' hinv ht => ⟨hread.keeps ht hinv.1, fun item hitem => ?_⟩)
      ⟨.of_reached hfront id rfl, fun item hitem => absurd hitem List.not_mem_nil⟩ hitems
    · intro source hsource
      obtain ⟨item, hitem, hsome⟩ := List.mem_filterMap.mp hsource
      exact hall.2 item hitem source hsome
    · rcases List.mem_append.mp hitem with hitem | hitem
      · exact hinv.2 item hitem
      · rw [List.mem_singleton.mp hitem]
        exact sourced_rules ht hinv.1
  · cases h

end Script
end StoryDocs
