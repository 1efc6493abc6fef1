import StoryDocs.Proofs.Script.Atoms.Grouped
import StoryDocs.Proofs.Script.Atoms.Statements
import StoryDocs.Script.Module

/-!
# Modules read

The rules for imports and exports leave the brackets open that are open, and the literals of what they build
are closed.  So all rules do, however deep their calls are nested.
-/

namespace StoryDocs
namespace Script

open Grammar

variable {rules : Rules} {scope : Scope} {c c' : Cursor} {text : List Char} {stack : List (Bracket × Nat)}
  {held : Multiset Literal} {b typeOnly : Bool} {t first name : Tree} {ts leading : List Tree} {start : Nat}
  {label : String}

/-! ## Imports -/

@[grind →] theorem reads_importAttributes? (hr : rules.Sound) : Reads (importAttributes? rules) Tree.literalsOf := by
  intro scope c t c' text stack held h hc
  have hrules := hr.reads
  rw [importAttributes?] at h
  simp only [↓yields_looks, yields_bind, yields_ite, yields_pure] at h
  grind -linarith

@[grind →] theorem reads_sourceTail (hr : rules.Sound) : Reads (sourceTail rules) Tree.literalsOf := by
  intro scope c t c' text stack held h hc
  rw [sourceTail] at h
  simp only [yields_bind, yields_pure] at h
  grind -linarith

@[grind →] theorem reads_fromClause (hr : rules.Sound) : Reads (fromClause rules) Tree.literalsOf := by
  intro scope c t c' text stack held h hc
  rw [fromClause] at h
  simp only [yields_bind] at h
  grind -linarith

@[grind →] theorem reads_importEqualsTail : Reads (importEqualsTail start label typeOnly) Tree.literals := by
  intro scope c t c' text stack held h hc
  rw [importEqualsTail] at h
  simp only [pure_bind, ↓yields_looks, yields_bind, yields_ite, yields_finish] at h
  obtain ⟨_, c₁, hequals, h⟩ := h
  have hstands := stands_expectMark hequals rfl hc
  clear hequals hc
  split at h
  · obtain ⟨_, c₂, hmove, _, c₃, hmove', h⟩ := h
    have hinside : ∃ k, Stands text ((.paren, k) :: stack) held c₃ := by
      grind -linarith [→ yields_advance, → expectMark_of_advance]
    clear hmove hmove' hstands
    grind -linarith
  · grind -linarith

/-- An entry holds the names behind the first one, or the first one. -/
theorem stands_typeEntry {binding : Parse Tree} {entry : List Tree × Bool × Bool}
    (hbinding : Reads binding Tree.literals) (h : Yields (typeEntry binding first) scope c entry c')
    (hc : Stands text stack (held + first.literals) c) :
    Stands text stack (held + Tree.literalsOf entry.1) c' := by
  have hone : ∀ t : Tree, Tree.literalsOf [t] = t.literals := by
    simp
  rw [typeEntry] at h
  simp only [↓yields_looks, yields_bind, yields_ite, yields_pure] at h
  split at h
  · obtain ⟨rfl, rfl⟩ := h
    rwa [hone]
  obtain ⟨second, c₁, hsecond, h⟩ := h
  have hbehind := reads_anyName hsecond hc.drop
  split at h
  · obtain ⟨rfl, rfl⟩ := h
    rwa [hone]
  split at h
  · obtain ⟨rfl, rfl⟩ := h
    rwa [hone]
  obtain ⟨third, c₂, hthird, h⟩ := h
  split at h
  · obtain ⟨fourth, c₃, hfourth, rfl, rfl⟩ := h
    -- The third name turned out to be the word `as`.
    have hstands := hbinding hfourth (hbinding hthird hbehind).drop
    rwa [Tree.literalsOf_cons, hone, ← add_assoc]
  · obtain ⟨rfl, rfl⟩ := h
    have hstands := reads_anyName hsecond hc
    rw [literals_anyName hsecond, add_zero] at hstands
    rw [Tree.literalsOf_cons, hone, ← add_assoc]
    exact hbinding hthird hstands

theorem reads_importSpecifier : Reads (importSpecifier typeOnly) Tree.literals := by
  intro scope c t c' text stack held h hc
  rw [importSpecifier] at h
  simp only [↓yields_looks, yields_bind, yields_ite, yields_finish] at h
  obtain ⟨quoted, c₁, hstring, h⟩ := h
  obtain rfl := yields_atString hstring
  clear hstring
  split at h
  · grind -linarith
  obtain ⟨first, c₂, hfirst, ⟨names, complete, isType⟩, c₃, hentry, _, c₄, hfault, h⟩ := h
  have hnames := stands_typeEntry reads_bindingName hentry (reads_anyName hfirst hc)
  have hstands := stands_faultIf hfault hnames
  clear hfirst hentry hfault hnames
  grind -linarith

theorem reads_specifiers {entry : Parse Tree} (hentry : Reads entry Tree.literals) :
    Reads (specifiers entry) Tree.literalsOf := by
  intro scope c t c' text stack held h hc
  have hitems := Reads.separated "\x7d" hentry
  rw [specifiers] at h
  simp only [yields_bind, yields_pure] at h
  grind -linarith

@[grind →] theorem reads_namespaceSpecifier : Reads (namespaceSpecifier start) Tree.literals := by
  intro scope c t c' text stack held h hc
  rw [namespaceSpecifier] at h
  simp only [yields_bind, yields_finish] at h
  grind -linarith

@[grind →] theorem yields_precedesDefault (h : Yields precedesDefault scope c b c') : c' = c := by
  rw [precedesDefault] at h
  simp only [↓yields_looks, yields_ite, yields_pure] at h
  grind -linarith

/-- The default import is the first name, or what stands behind it. -/
theorem stands_defaultImport {lead : ImportLead × List Tree}
    (h : Yields (defaultImport first) scope c lead c') (hc : Stands text stack (held + first.literals) c) :
    Stands text stack (held + Tree.literalsOf lead.2) c' := by
  -- The rest of the rule, to which two of its branches come.
  have hphase : ∀ ⦃c⦄, Stands text stack (held + first.literals) c →
      Yields (do
        if first.name == "source" && (← precedesDefault) then
          let name ← bindingName
          return (ImportLead.source, [name])
        if first.name == "defer" && (← atMark "*") then return (.defer, [])
        if first.name == "defer" && (← precedesDefault) then
          let name ← bindingName
          return (.defer, [name])
        return (.plain, [first])) scope c lead c' → Stands text stack (held + Tree.literalsOf lead.2) c' := by
    intro c hc h
    have hfront := hc.drop
    simp only [↓yields_looks, yields_bind, yields_ite, yields_pure] at h
    obtain ⟨precedes, c₁, hlook, h⟩ := h
    obtain rfl := yields_precedesDefault hlook
    split at h
    · grind -linarith
    split at h
    · obtain ⟨rfl, rfl⟩ := h
      simpa using hfront
    obtain ⟨precedes', c₂, hlook', h⟩ := h
    obtain rfl := yields_precedesDefault hlook'
    split at h
    · grind -linarith
    · obtain ⟨rfl, rfl⟩ := h
      simpa using hc
  rw [defaultImport] at h
  simp only [↓yields_looks, yields_if] at h
  rcases h with ⟨_, ⟨_, h⟩ | ⟨_, h⟩⟩ | ⟨_, h⟩
  · obtain ⟨rfl, rfl⟩ := yields_pure.mp h
    simpa using hc.drop
  · have hfront := hc.drop
    rw [yields_bind] at h
    obtain ⟨precedes, c₁, hlook, h⟩ := h
    obtain rfl := yields_precedesDefault hlook
    clear hlook
    simp only [↓yields_looks, yields_if] at h
    rcases h with ⟨_, h⟩ | ⟨_, ⟨_, h⟩ | ⟨_, h⟩⟩
    · simp only [yields_bind, yields_pure] at h
      grind -linarith
    · simp only [yields_bind, yields_pure] at h
      grind -linarith
    · exact hphase hc h
  · exact hphase hc h

/-- What an import names behind its default import, and its source. -/
theorem stands_importRest {lead : ImportLead} {named : List Tree} (hr : rules.Sound)
    (h : Yields (do
      let here ← position
      let others ←
        if ← eatMarkIf (lead != .source) "*" then pure [← namespaceSpecifier here]
        else if (lead == .plain || lead == .typeOnly) && (← atMark "\x7b") then
          specifiers (importSpecifier (lead == .typeOnly))
        else pure []
      let source ← fromClause rules
      finish .importDecl start "" (named ++ others ++ source)) scope c t c')
    (hc : Stands text stack (held + Tree.literalsOf named) c) : Stands text stack (held + t.literals) c' := by
  have hspecifiers := fun typeOnly => reads_specifiers (@reads_importSpecifier typeOnly)
  simp only [pure_bind, ↓yields_looks, yields_bind, yields_ite, yields_finish, List.append_assoc] at h
  obtain ⟨isStar, c₁, hstar, h⟩ := h
  have hstands : Stands text stack (held + Tree.literalsOf named) c₁ := by
    grind -linarith
  clear hstar hc
  split at h
  · grind -linarith
  split at h
  · grind -linarith
  · grind -linarith

theorem reads_importTail (hr : rules.Sound) : Reads (importTail rules start) Tree.literals := by
  intro scope c t c' text stack held h hc
  rw [importTail, yields_bind] at h
  obtain ⟨quoted, c₁, hstring, h⟩ := h
  obtain rfl := yields_atString hstring
  rcases yields_if.mp h with ⟨_, h⟩ | ⟨_, h⟩
  · simp only [yields_bind, yields_finish] at h
    grind -linarith
  dsimp only at h
  simp only [↓yields_looks] at h
  rcases yields_if.mp h with ⟨_, h⟩ | ⟨_, h⟩
  · obtain ⟨first, c₃, hfirst, h⟩ := yields_bind.mp h
    obtain ⟨⟨lead, named⟩, c₄, hlead, h⟩ := yields_bind.mp h
    have hnamed := stands_defaultImport hlead (reads_bindingName hfirst hc)
    clear hstring hfirst hlead hc
    dsimp only at h hnamed
    cases named with
    | nil => exact stands_importRest hr h hnamed
    | cons name others =>
        simp only [List.head?_cons, ↓yields_looks] at h
        rcases yields_if.mp h with ⟨_, h⟩ | ⟨_, h⟩
        · exact reads_importEqualsTail h hnamed.drop
        rcases yields_if.mp h with ⟨_, h⟩ | ⟨_, h⟩
        · obtain ⟨_, c₅, hcomma, h⟩ := yields_bind.mp h
          exact stands_importRest hr h (stands_expectMark hcomma rfl hnamed)
        · exact stands_importRest hr h hnamed
  · exact @stands_importRest _ _ _ _ _ _ _ _ _ .plain [] hr h (by simpa using hc)

theorem reads_importItem (hr : rules.Sound) : Reads (importItem rules) Tree.literals := by
  intro scope c t c' text stack held h hc
  have hrules := hr.reads
  have htail := @reads_importTail
  rw [importItem] at h
  simp only [↓yields_looks, yields_bind, yields_ite, yields_finish] at h
  grind -linarith

/-! ## Exports -/

theorem reads_exportSpecifier : Reads (exportSpecifier typeOnly) Tree.literals := by
  intro scope c t c' text stack held h hc
  rw [exportSpecifier] at h
  simp only [↓yields_looks, yields_bind, yields_ite, yields_finish] at h
  obtain ⟨first, c₁, hfirst, ⟨names, complete, isType⟩, c₂, hentry, _, c₃, hfault, h⟩ := h
  have hnames := stands_typeEntry reads_anyName hentry (reads_moduleName hfirst hc)
  have hstands := stands_faultIf hfault hnames
  clear hfirst hentry hfault hnames
  grind -linarith

/-- What leads a list is a fault without a source behind the list. -/
theorem stands_exportList (hr : rules.Sound)
    (h : Yields (exportList rules start typeOnly leading) scope c t c')
    (hc : Stands text stack (held + Tree.literalsOf leading) c) : Stands text stack (held + t.literals) c' := by
  have hspecifiers := reads_specifiers (@reads_exportSpecifier typeOnly)
  rw [exportList] at h
  simp only [↓yields_looks, yields_bind, yields_ite, yields_finish, List.append_assoc] at h
  obtain ⟨names, c₁, hnames, h⟩ := h
  split at h
  · have hstands := hspecifiers hnames hc
    clear hnames hc
    grind -linarith
  · have hstands := hspecifiers hnames hc.drop
    clear hnames hc
    grind -linarith

theorem stands_exportStar (hr : rules.Sound)
    (h : Yields (exportStar rules start leading) scope c t c')
    (hc : Stands text stack (held + Tree.literalsOf leading) c) : Stands text stack (held + t.literals) c' := by
  have hfront := hc.drop
  rw [exportStar] at h
  simp only [↓yields_looks, yields_bind, yields_ite, yields_finish] at h
  split at h
  · grind -linarith
  · grind -linarith

theorem stands_exportFrom (hr : rules.Sound) (h : Yields (exportFrom rules start name) scope c t c')
    (hc : Stands text stack (held + name.literals) c) : Stands text stack (held + t.literals) c' := by
  have hspecifier : ∀ sp, Tree.literalsOf [Tree.node .exportSpecifier sp "" [name]] = name.literals := by
    intro sp
    rw [Tree.literalsOf_cons, Tree.literals_node rfl, Tree.literalsOf_cons, Tree.literalsOf_nil, add_zero, add_zero]
  rw [exportFrom] at h
  simp only [yields_bind, yields_ite, yields_finish] at h
  obtain ⟨comma, c₁, hcomma, h⟩ := h
  have hstands : Stands text stack (held + name.literals) c₁ := by
    grind -linarith
  clear hcomma hc
  split at h
  · obtain ⟨star, c₂, hstar, h⟩ := h
    have hbehind : Stands text stack (held + name.literals) c₂ := by
      grind -linarith
    rw [← hspecifier] at hbehind
    split at h
    · exact stands_exportStar hr h hbehind
    · exact stands_exportList hr h hbehind
  · grind -linarith

@[grind →] theorem reads_exportedClass (hr : rules.Sound) : Reads (exportedClass rules b) Tree.literals := by
  intro scope c t c' text stack held h hc
  have hclass : ∀ ⦃c t⦄ decorators, Stands text stack (held + Tree.literalsOf decorators) c →
      Yields (do
        let start ← position
        if (← typed) && (← atWord "abstract") then advance
        let t ← rules (.classTail start .classDecl b)
        return Tree.node t.kind t.span t.name (t.parts ++ decorators)) scope c t c' →
        Stands text stack (held + t.literals) c' := by
    intro c t decorators hc h
    simp only [↓yields_looks, yields_bind, yields_ite, yields_pure] at h
    split at h
    · obtain ⟨_, c₁, hmove, member, c₂, hmember, rfl, rfl⟩ := h
      refine stands_decorated (hr.rule _ rfl hmember ?_)
      grind -linarith
    · obtain ⟨member, c₁, hmember, rfl, rfl⟩ := h
      exact stands_decorated (hr.rule _ rfl hmember hc)
  rw [exportedClass] at h
  simp only [pure_bind, ↓yields_looks] at h
  rw [yields_if] at h
  rcases h with ⟨_, h⟩ | ⟨_, h⟩
  · obtain ⟨decorators, c₁, hdecorators, h⟩ := yields_bind.mp h
    refine hclass [decorators] ?_ h
    simpa using hr.rule .decorators rfl hdecorators hc
  · exact hclass [] (by simpa using hc) h

@[grind →] theorem yields_atClass (h : Yields atClass scope c b c') : c' = c := by
  rw [atClass] at h
  simp only [↓yields_looks, yields_ite, yields_pure] at h
  grind -linarith

@[grind →] theorem yields_atDefaultFrom (h : Yields atDefaultFrom scope c b c') : c' = c := by
  rw [atDefaultFrom] at h
  simp only [↓yields_looks, yields_pure] at h
  exact h.2

/-- The keyword of a default export is the name that a re-export gives. -/
theorem stands_exportDefault (hr : rules.Sound) (hname : name.literals = 0)
    (h : Yields (exportDefault rules start name) scope c t c')
    (hc : Stands text stack held c) : Stands text stack (held + t.literals) c' := by
  have hfunction := @reads_function _ false .functionDecl hr rfl
  rw [exportDefault] at h
  simp only [↓yields_looks, yields_bind, yields_ite, yields_bracketed, yields_finish] at h
  obtain ⟨isClass, c₁, hclass, h⟩ := h
  obtain rfl := yields_atClass hclass
  clear hclass
  split at h
  · grind -linarith
  split at h
  · grind -linarith
  obtain ⟨isAsync, c₂, hasync, h⟩ := h
  obtain rfl := yields_atAsyncFunction hasync
  clear hasync
  split at h
  · grind -linarith
  obtain ⟨isFrom, c₃, hfrom, h⟩ := h
  obtain rfl := yields_atDefaultFrom hfrom
  clear hfrom
  split at h
  · refine stands_exportFrom hr h ?_
    rwa [hname, add_zero]
  · obtain ⟨e, c₄, he, _, c₅, hsemicolon, rfl, rfl⟩ := h
    have hstands := hr.rule .assignment rfl he hc
    grind -linarith

theorem reads_exportWhole? (hr : rules.Sound) : Reads (exportWhole? rules start) Tree.literals? := by
  intro scope c t? c' text stack held h hc
  have hrules := hr.reads
  rw [exportWhole?] at h
  simp only [↓yields_looks, yields_bind, yields_ite, yields_bracketed, yields_pure, yields_finish] at h
  obtain ⟨imports, c₁, himport, h⟩ := h
  have hstands : Stands text stack held c₁ := by
    grind -linarith
  clear himport hc
  split at h
  · obtain ⟨typeOnly, c₂, htype, name, c₃, hname, t, c₄, ht, rfl, rfl⟩ := h
    have hbehind : Stands text stack held c₂ := by
      grind -linarith
    exact stands_some rfl (reads_importEqualsTail ht (reads_anyName hname hbehind).drop)
  obtain ⟨assigns, c₂, hequals, h⟩ := h
  have hbehind : Stands text stack held c₂ := by
    grind -linarith
  clear hequals hstands
  split at h
  · obtain ⟨e, c₃, he, _, c₄, hsemicolon, t, _, ⟨rfl, rfl⟩, rfl, rfl⟩ := h
    refine stands_some rfl ?_
    grind -linarith
  obtain ⟨names, c₃, has, h⟩ := h
  have hstands : Stands text stack held c₃ := by
    grind -linarith
  clear has hbehind
  split at h
  · obtain ⟨_, c₄, hnamespace, name, c₅, hname, _, c₆, hsemicolon, t, _, ⟨rfl, rfl⟩, rfl, rfl⟩ := h
    refine stands_some rfl ?_
    grind -linarith
  · exact stands_none h hstands

/-- A declaration that is read, or no export. -/
theorem reads_orReject {p : Parse (Option Tree)} (hp : Reads p Tree.literals?) :
    Reads (do
      match ← p with
      | some t => return t
      | none => reject) Tree.literals := by
  intro scope c t c' text stack held h hc
  obtain ⟨found, c₁, hfound, h⟩ := yields_bind.mp h
  cases found with
  | some t =>
      obtain ⟨rfl, rfl⟩ := yields_pure.mp h
      exact hp hfound hc
  | none => exact absurd h yields_reject

/-- An exported declaration is put together from the declaration that was read. -/
theorem stands_exportDecl {t? : Option Tree} (ht : Stands text stack (held + t.literals) c)
    (h : Yields (do return some (← finish .exportDecl start "" [t])) scope c t? c') :
    Stands text stack (held + Tree.literals? t?) c' := by
  simp only [yields_bind, yields_finish, yields_pure] at h
  obtain ⟨_, _, ⟨rfl, rfl⟩, rfl, rfl⟩ := h
  rw [Tree.literals?_some, Tree.literals_node rfl, Tree.literalsOf_cons, Tree.literalsOf_nil, add_zero]
  exact ht

/-- A declaration of types, or an export as a whole, behind what is not declared. -/
theorem reads_typedDeclarationOrWhole? {here : Nat} (hr : rules.Sound) : Reads (do
    if ← atWords ["abstract", "enum", "interface", "module", "namespace", "type"] then
      let found ← attempt do
        match ← typedDeclaration? rules here true with
        | some t => return t
        | none => reject
      if let some t := found then return some (← finish .exportDecl start "" [t])
    exportWhole? rules start) Tree.literals? := by
  intro scope c t? c' text stack held h hc
  simp only [↓yields_looks, yields_if] at h
  rcases h with ⟨_, h⟩ | ⟨_, h⟩
  · obtain ⟨found, c₁, hfound, h⟩ := yields_bind.mp h
    have hstands := stands_attempt (reads_orReject (reads_typedDeclaration? hr)) hfound hc
    cases found with
    | some t => exact stands_exportDecl hstands h
    | none => exact reads_exportWhole? hr h (by simpa using hstands)
  · exact reads_exportWhole? hr h hc

theorem reads_typedExport? (hr : rules.Sound) : Reads (typedExport? rules start) Tree.literals? := by
  intro scope c t? c' text stack held h hc
  rw [typedExport?] at h
  simp only [↓yields_looks, yields_if] at h
  rcases h with ⟨_, h⟩ | ⟨_, h⟩
  · exact stands_none (yields_pure.mp h) hc
  rw [yields_bind] at h
  obtain ⟨declares, c₁, hlook, h⟩ := h
  obtain rfl := yields_atDeclare hlook
  rw [yields_if] at h
  rcases h with ⟨rfl, h⟩ | ⟨_, h⟩
  · rw [yields_bind] at h
    obtain ⟨found, c₂, hfound, h⟩ := h
    rcases yields_tryRule.mp hfound with ⟨t, rfl, ht⟩ | ⟨rfl, rfl, _⟩
    · exact stands_exportDecl (reads_declared hr (isWord_of_atDeclare hlook) ht hc) h
    · exact reads_typedDeclarationOrWhole? hr h hc
  · exact reads_typedDeclarationOrWhole? hr h hc

theorem reads_exportedDeclaration? (hr : rules.Sound) : Reads (exportedDeclaration? rules) Tree.literals? := by
  intro scope c t? c' text stack held h hc
  rw [exportedDeclaration?] at h
  simp only [↓yields_looks, yields_bind, yields_ite, yields_pure] at h
  obtain ⟨isClass, c₁, hclass, h⟩ := h
  obtain rfl := yields_atClass hclass
  clear hclass
  split at h
  · obtain ⟨t, c₂, ht, rfl, rfl⟩ := h
    exact stands_some rfl (reads_exportedClass hr ht hc)
  obtain ⟨isAsync, c₂, hasync, h⟩ := h
  obtain rfl := yields_atAsyncFunction hasync
  clear hasync
  split at h
  · obtain ⟨t, c₃, ht, rfl, rfl⟩ := h
    exact stands_some rfl (reads_function hr rfl ht hc)
  split at h
  · obtain ⟨_, c₃, hmove, _, c₄, hmove', t, c₅, ht, rfl, rfl⟩ := h
    have hbehind : Stands text stack held c₄ := by
      grind -linarith [→ yields_advance]
    exact stands_some rfl (reads_enumTail hr ht hbehind)
  obtain ⟨isLet, c₃, hlet, h⟩ := h
  obtain rfl := yields_atLet hlet
  clear hlet
  split at h
  · obtain ⟨t, c₄, ht, rfl, rfl⟩ := h
    exact stands_some rfl (reads_variableList hr ht hc)
  · exact stands_none h hc

theorem reads_exportTail (hr : rules.Sound) : Reads (exportTail rules start typeOnly) Tree.literals := by
  intro scope c t c' text stack held h hc
  rw [exportTail] at h
  obtain ⟨isStar, c₁, hstar, h⟩ := yields_bind.mp h
  have hstands : Stands text stack (held + Tree.literalsOf []) c₁ := by
    grind -linarith
  clear hstar hc
  rw [yields_if] at h
  rcases h with ⟨_, h⟩ | ⟨_, h⟩
  · exact stands_exportStar hr h hstands
  rw [yields_if] at h
  rcases h with ⟨_, h⟩ | ⟨_, h⟩
  swap
  · exact stands_exportList hr h hstands
  rw [Tree.literalsOf_nil, add_zero] at hstands
  simp only [↓yields_looks] at h
  obtain ⟨isDefault, c₂, hdefault, h⟩ := yields_bind.mp h
  have hbehind : Stands text stack held c₂ := by
    grind -linarith
  clear hdefault hstands
  rw [yields_if] at h
  rcases h with ⟨_, h⟩ | ⟨_, h⟩
  · exact stands_exportDefault hr (Tree.literals_node rfl _ _ _) h hbehind
  obtain ⟨found, c₃, hfound, h⟩ := yields_bind.mp h
  have hdeclared := reads_exportedDeclaration? hr hfound hbehind
  clear hfound hbehind
  -- What is exported may be a declaration; if not, a name or a list has to follow.
  cases found with
  | some t =>
      rw [Tree.literals?_some] at hdeclared
      grind -linarith
  | none =>
      rw [Tree.literals?_none, add_zero] at hdeclared
      simp only [↓yields_looks, yields_if] at h
      rcases h with ⟨_, h⟩ | ⟨_, h⟩
      · obtain ⟨name, c₄, hname, h⟩ := yields_bind.mp h
        exact stands_exportFrom hr h (reads_reference hname hdeclared)
      · exact stands_exportList hr h (by simpa using hdeclared)

theorem reads_exportItem (hr : rules.Sound) : Reads (exportItem rules) Tree.literals := by
  intro scope c t c' text stack held h hc
  rw [exportItem] at h
  simp only [↓yields_looks] at h
  obtain ⟨_, c₁, hexport, h⟩ := yields_bind.mp h
  obtain ⟨typed?, c₂, htyped, h⟩ := yields_bind.mp h
  have hstands := reads_typedExport? hr htyped (stands_expectWord hexport hc)
  cases typed? with
  | some t =>
      obtain ⟨rfl, rfl⟩ := yields_pure.mp h
      exact hstands
  | none =>
      rw [Tree.literals?_none, add_zero] at hstands
      simp only [↓yields_looks] at h
      obtain ⟨typeOnly, c₃, htype, h⟩ := yields_bind.mp h
      refine reads_exportTail hr h ?_
      grind -linarith

theorem reads_decoratedItem (hr : rules.Sound) : Reads (decoratedItem rules) Tree.literals := by
  intro scope c t c' text stack held h hc
  rw [decoratedItem] at h
  simp only [↓yields_looks, yields_bind, yields_ite, yields_pure] at h
  obtain ⟨exports, c₁, hahead, h⟩ := h
  obtain rfl := yields_ahead hahead
  split at h
  · obtain ⟨_, decorators, c₂, hdecorators, member, c₃, hmember, _, rfl, rfl⟩ := h
    refine stands_decorated (reads_exportItem hr hmember ?_)
    simpa using hr.rule .decorators rfl hdecorators hc
  · exact hr.rule _ rfl h hc

theorem reads_item (hr : rules.Sound) : Reads (item rules) Tree.literals := by
  intro scope c t c' text stack held h hc
  rw [item] at h
  simp only [↓yields_looks, yields_if] at h
  rcases h with ⟨_, h⟩ | ⟨_, ⟨_, h⟩ | ⟨_, ⟨_, h⟩ | ⟨_, h⟩⟩⟩
  · exact reads_importItem hr h hc
  · exact reads_exportItem hr h hc
  · exact reads_decoratedItem hr h hc
  · exact hr.rule _ rfl h hc

/-! ## All rules -/

/-- Rules read when the rules that they call do. -/
theorem Rules.Sound.step (hr : rules.Sound) : (Grammar.step rules).Sound where
  reads := by
    intro r scope c t c' text stack held h hplain hc
    cases r with
    | expression => exact reads_expression hr h hc
    | assignment => exact reads_assignment hr h hc
    | operators left least => cases hplain
    | unary => exact reads_unary hr h hc
    | subscripts base noCall => cases hplain
    | memberOrNew => exact reads_memberOrNew hr h hc
    | template tagged => exact reads_template hr h hc
    | typeTemplate => exact reads_typeTemplate hr h hc
    | object => exact reads_object hr h hc
    | arguments => exact reads_arguments hr h hc
    | element => exact reads_element hr h hc
    | type => exact reads_type hr h hc
    | plainType => exact reads_plainType hr h hc
    | typeOperand => exact reads_typeOperand hr h hc
    | typeParameters variance const => exact reads_typeParameters hr h hc
    | typeArguments => exact reads_typeArguments hr h hc
    | parameters => exact reads_parameters hr h hc
    | pattern => exact reads_pattern hr h hc
    | patternElement => exact reads_patternElement hr h hc
    | functionBody isAsync isGenerator isArrow => exact reads_functionBody hr h hc
    | classTail start kind nameRequired => exact reads_classTail hr (by simpa using hplain) h hc
    | decorators => exact reads_decorators hr h hc
    | statement declarations => exact reads_statement hr h hc
    | block => exact reads_block hr h hc
    | item => exact reads_item hr h hc
    | moduleBlock => exact reads_moduleBlock hr h hc
    | namespaceTail start => exact reads_namespaceTail hr h hc
  operators := fun _ _ _ _ _ _ _ _ _ h hc => stands_operators hr h hc
  subscripts := fun _ _ _ _ _ _ _ _ _ h hc => stands_subscripts hr h hc
  element := fun _ _ _ _ h => isMark_of_element h

theorem sound_rules (depth : Nat) : (Grammar.rules depth).Sound := by
  induction depth with
  | zero =>
      exact
        { reads := fun _ _ _ _ _ _ _ _ h => absurd h yields_reject
          operators := fun _ _ _ _ _ _ _ _ _ h => absurd h yields_reject
          subscripts := fun _ _ _ _ _ _ _ _ _ h => absurd h yields_reject
          element := fun _ _ _ _ h => absurd h yields_reject }
  | succ depth ih => exact ih.step

/-! ## Whole scripts -/

theorem Nesting.offset_step {m m' : Nesting} {a : Atom} (h : m.step a = some m') :
    m'.offset = m.offset + a.text.length := by
  rw [Nesting.step] at h
  grind -linarith

theorem Nesting.offset_run {m m' : Nesting} {as : List Atom} (h : m.run as = some m') :
    m'.offset = m.offset + (as.flatMap Atom.text).length := by
  induction as generalizing m with
  | nil =>
      obtain rfl := Option.some.inj h
      simp
  | cons a as ih =>
      obtain ⟨m₁, hstep, hrun⟩ := Option.bind_eq_some_iff.mp h
      rw [ih hrun, Nesting.offset_step hstep, List.flatMap_cons, List.length_append, Nat.add_assoc]

/-- The line that names an interpreter is an atom. -/
theorem Reached.skipInterpreter (text : List Char) :
    Reached text [] 0 (skipInterpreter text).1 (skipInterpreter text).2 := by
  rw [Script.skipInterpreter.eq_def]
  split
  · rename_i s
    obtain ⟨hsplit, hline⟩ := span_eq (List.span_eq_takeWhile_dropWhile (fun c => !isLineBreak c) s)
    have hrest : s.drop (s.takeWhile fun c => !isLineBreak c).length = s.dropWhile fun c => !isLineBreak c := by
      nth_rewrite 2 [hsplit]
      exact List.drop_left
    have hstart : Reached ('#' :: '!' :: s) [] 0
        ('#' :: '!' :: s.takeWhile (fun c => !isLineBreak c) ++ s.dropWhile fun c => !isLineBreak c) 0 := by
      rw [List.cons_append, List.cons_append, ← hsplit]
      exact Reached.start _
    have hleaf := hstart.leaf (k := .interpreter) id ⟨_, rfl, fun c hc => by simpa using hline c hc⟩ (by simp)
    show Reached _ _ _ (s.drop (s.takeWhile fun c => !isLineBreak c).length) _
    rw [hrest]
    simpa using hleaf
  · exact Reached.start text

theorem lexeme_of_manyAtEnd {entry : Parse Tree} {ts : List Tree}
    (h : Yields (many atEnd entry) scope c ts c') : c'.token.lexeme = .done := by
  refine yields_repeatFrom (fun _ _ => True) (fun _ c => c.token.lexeme = .done)
    (fun done c r c' _ hround => ?_) trivial h
  simp only [↓yields_looks, yields_bind, yields_ite, yields_pure] at hround
  grind -linarith

/-- The script ends where no token is left. -/
theorem Stands.reached_end (h : Stands text stack held c) (hdone : c.token.lexeme = .done) :
    ∃ n, Reached text stack held [] n := by
  obtain ⟨part, hreached, _, _, hspells⟩ := h.exists_spells (by rw [hdone]; simp)
  rw [Token.Spells, hdone] at hspells
  obtain ⟨rfl, hrest⟩ := hspells
  rw [hrest] at hreached
  exact ⟨_, hreached⟩

/-- A script that is read as a module is cut into atoms, all brackets are closed at its end, and the literals
of its items are literals of the script. -/
theorem Module.exists_cuts {features : Features} {items : List Tree} (h : Module.parse? features text = some items) :
    ∃ as literals, Cuts text as [] ∧ Nesting.start.run as = some ⟨text.length, [], literals⟩ ∧
      Tree.literalsOf items ≤ literals := by
  rw [Module.parse?] at h
  generalize hskip : skipInterpreter text = split at h
  obtain ⟨body, offset⟩ := split
  dsimp only at h
  split at h
  · rename_i trees last hitems
    split at h
    · cases h
    obtain rfl := Option.some.inj h
    have hall := @Reads.many atEnd _ (fun _ _ _ _ h => (yields_atEnd.mp h).2)
      ((sound_rules (depthBound text)).rule .item rfl)
    have hfront := Reached.skipInterpreter text
    rw [hskip] at hfront
    have hstands := hall hitems (.of_reached hfront id rfl)
    have hdone : last.token.lexeme = .done := lexeme_of_manyAtEnd hitems
    obtain ⟨n, as, literals, hcuts, hrun, hheld⟩ := hstands.reached_end hdone
    refine ⟨as, literals, hcuts, ?_, by simpa using hheld⟩
    have hn : n = text.length := by
      have hoffset := Nesting.offset_run hrun
      rw [hcuts.text_eq]
      simpa [Nesting.start] using hoffset
    rw [hrun, hn]
  · cases h

theorem Module.exists_atomsOf {features : Features} {items : List Tree} (h : Module.parse? features text = some items) :
    ∃ as, AtomsOf text as := by
  obtain ⟨as, literals, hcuts, hrun, _⟩ := Module.exists_cuts h
  exact ⟨as, hcuts, literals, hrun⟩

end Script
end StoryDocs
