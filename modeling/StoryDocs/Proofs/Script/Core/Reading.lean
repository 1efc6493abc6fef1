import StoryDocs.Proofs.Script.Core.Entries

/-!
# Reading the syntax

A text of the syntax is read up to its own end, as a tree of its shape, whatever closes what is around it.  The
induction follows the syntax: a list is the run of its entries, and behind an operand each step is one round.

* `Core.reads` is the result for all classes of texts.
* `Core.readsValue` states it for values.
-/

namespace StoryDocs
namespace Script

open Text Grammar

variable {tags : Bool} {bound n d stop : Nat} {b : Bool} {g rest s text inner w : List Char} {shape base : Shape}
  {shapes steps : List Shape} {category : Category} {entry : Entry} {comma : Bool} {scope : Scope} {c c₁ c' : Cursor}
  {e e₁ : Tree} {es : List Tree} {rs : Rules} {p : Parse Tree} {name : String}

/-! ## What is read -/

/-- A rule reads up to a text, and builds a tree of a shape that ends there. -/
def ReadsUpTo (p : Parse Tree) (scope : Scope) (c : Cursor) (rest : List Char) (shape : Shape) : Prop :=
  ∃ tree stop, p scope c = some (tree, .front scope.bound rest stop) ∧ tree.shape = shape ∧ tree.span.stop = stop

theorem ReadsUpTo.of_run {tree : Tree} (h : p scope c = some (tree, c')) (hnext : c' = .front scope.bound rest stop)
    (hshape : tree.shape = shape) (hstop : tree.span.stop = stop) : ReadsUpTo p scope c rest shape :=
  ⟨tree, stop, hnext ▸ h, hshape, hstop⟩

/-- A token that a rule reads alone ends where the text behind it starts. -/
theorem Cursor.At.stop_eq {lexeme : Lexeme} (h : c.At bound lexeme rest stop) : c.token.stop = stop :=
  congrArg Cursor.lastStop h.next

/-! ## Steps behind an operand -/

/-- The rounds that read steps behind a base. -/
def stepRounds (rs : Rules) (noCall : Bool) (k : Nat) (base : Tree) : Parse Tree :=
  iterate (fun e => do
    match ← subscript? rs e noCall with
    | some e => return .inl e
    | none => return .inr e) k base

theorem stepRounds_some {noCall : Bool} {k : Nat} (h : subscript? rs e noCall scope c = some (some e₁, c₁)) :
    stepRounds rs noCall (k + 1) e scope c = stepRounds rs noCall k e₁ scope c₁ := by
  rw [stepRounds, iterate]
  simp [run_bind_of h, run_bind]
  rfl

theorem stepRounds_none {noCall : Bool} {k : Nat} (h : subscript? rs e noCall scope c = some (none, c₁)) :
    stepRounds rs noCall (k + 1) e scope c = some (e, c₁) := by
  rw [stepRounds, iterate]
  simp [run_bind_of h, run_bind]

/-- The kinds of trees that steps of the syntax stand behind. -/
def Tree.IsBase (e : Tree) : Prop :=
  e.kind ∈ coreKinds

theorem Tree.IsBase.ne (h : e.IsBase) {kind : Kind} (hkind : kind ∉ coreKinds) : e.kind ≠ kind := by
  rintro rfl
  exact hkind h

theorem stepKind_base (h : e.IsBase) (kind : Kind) : stepKind e kind = kind := by
  have hoptional : e.kind ≠ .optional := h.ne (by decide)
  simp [stepKind, hoptional]

/-- No step of typed scripts alone starts at a mark of all scripts. -/
theorem subscript?_plain {m : String} {noCall : Bool} (h : c.token.lexeme = .mark m) (hm : m ∉ ["!", "<"]) :
    subscript? rs e noCall scope c = plainStep? rs e noCall scope c := by
  rw [List.mem_cons, List.mem_singleton, not_or] at hm
  unfold subscript?
  simp [isMark_of_other h hm.1, isMark_of_other h hm.2]

theorem subscript?_member (h : c.token.lexeme = .mark ".") (hsound : c.token.Sound)
    (hname : c₁.token.lexeme = .word name false) (hsound₁ : c₁.token.Sound) (hnext : c.next scope.bound = c₁)
    (hbase : e.IsBase) : ∃ span span' : Span, (∀ noCall, subscript? rs e noCall scope c =
      some (some (.node .member span "." [e, .node .name span' name []]), c₁.next scope.bound)) ∧
        span.stop = c₁.token.stop := by
  refine ⟨⟨e.span.start, c₁.token.stop⟩, ⟨c₁.token.start, c₁.token.stop⟩, fun noCall => ?_, rfl⟩
  have hread : memberName e scope c₁ = some (.node .name ⟨c₁.token.start, c₁.token.stop⟩ name [],
      c₁.next scope.bound) := by
    simp [memberName, anyName, hname, run_map, run_advance hsound₁]
  rw [subscript?_plain h (by decide)]
  unfold plainStep?
  simp [isMark_of_mark h, advance_bind_run hsound, hnext, run_bind_of hread, stepKind_base hbase]
  rfl

theorem subscript?_index {value : Tree} (h : c.token.lexeme = .mark "[") (hsound : c.token.Sound)
    (hvalue : rs .expression (bracketScope scope) (c.next scope.bound) = some (value, c₁))
    (hclose : c₁.token.lexeme = .mark "]") (hsound₁ : c₁.token.Sound) (hbase : e.IsBase) :
    ∃ span : Span, (∀ noCall, subscript? rs e noCall scope c =
      some (some (.node .index span "[]" [e, value]), c₁.next scope.bound)) ∧ span.stop = c₁.token.stop := by
  refine ⟨⟨e.span.start, c₁.token.stop⟩, fun noCall => ?_, rfl⟩
  have hread : bracketed (rs .expression) scope (c.next scope.bound) = some (value, c₁) := hvalue
  have hclosed := @run_expectMark scope c₁ "]" (isMark_self hclose) hsound₁
  rw [subscript?_plain h (by decide)]
  unfold plainStep?
  simp [isMark_of_mark h, advance_bind_run hsound, run_bind_of hread, run_bind_of hclosed, stepKind_base hbase]
  rfl

theorem subscript?_call {args : Tree} (h : c.token.lexeme = .mark "(")
    (hargs : rs .arguments scope c = some (args, c₁)) (hbase : e.IsBase) :
    subscript? rs e false scope c =
      some (some (.node .call ⟨e.span.start, c₁.lastStop⟩ "()" [e, args]), c₁) := by
  have himport : e.kind ≠ .importRef := hbase.ne (by decide)
  rw [subscript?_plain h (by decide)]
  unfold plainStep?
  simp [isMark_of_mark h, run_bind_of hargs, stepKind_base hbase, himport]
  rfl

/-- Where calls are left to others, an opening bracket ends the steps. -/
theorem subscript?_held (h : c.token.lexeme = .mark "(") (hbase : e.IsBase) :
    subscript? rs e true scope c = some (none, c) := by
  have himport : e.kind ≠ .importRef := hbase.ne (by decide)
  have hsuper : e.kind ≠ .superRef := hbase.ne (by decide)
  rw [subscript?_plain h (by decide)]
  unfold plainStep?
  simp [isMark_of_mark h, himport, hsuper]

/-- What is read behind the operand that a call may follow: the first call, and all steps behind it. -/
def applied (rs : Rules) (start : Nat) (callee : Tree) : Parse Tree := do
  if ← atMark "(" then
    let args ← rs .arguments
    let e ← finish .call start "()" [callee, args]
    rs (.subscripts e false)
  else return callee

theorem leftSide_applied (h : c.token.StartsPrimary) (hmember : rs .memberOrNew scope c = some (e, c₁))
    (hbase : e.IsBase) (hangle : isMark c₁.token "<" = false) :
    leftSide rs scope c = applied rs c.token.start e scope c₁ := by
  have hnew : e.kind ≠ .newExpr := hbase.ne (by decide)
  simp [leftSide, run_bind_of (atElement_operand h), h.word _, run_bind_of hmember, hangle, hnew, applied,
    stepKind_base hbase]

/-! ## In front of an operand -/

theorem Core.startsPrimary (h : Core tags .primary text shapes) (hg : IsGap g) (hrest : EndsWord rest)
    (hbound : text.length ≤ bound) (n : Nat) :
    (Cursor.front bound (g ++ text ++ rest) n).token.StartsPrimary where
  mark := by
    have hmarks : ∀ m ∈ ["<", "++", "--", "+", "-", "~", "!"], m ∉ ["(", "[", "\x7b"] := by decide
    exact fun m hm => (h.startsBase hg hrest hbound n).not_mark (hmarks m hm)
  word := by
    intro word hword
    have hwords : ∀ word ∈ ["async", "yield", "delete", "void", "typeof", "await", "new", "super", "import"],
        word = "async" ∨ isReserved word = true := by decide
    have hliterals : ∀ entry ∈ literalWords, ∀ word ∈ ["async", "yield", "delete", "void", "typeof", "await", "new",
        "super", "import"], entry.1 ≠ word := by decide
    cases h with
    | name hw hname _ =>
        rw [isWord_of_word (Cursor.at_word hg.skips hw hrest hbound).lexeme, beq_eq_false_iff_ne]
        rcases hwords word hword with rfl | hreserved
        · exact hname.ne_async
        · exact hname.ne_of_reserved hreserved
    | literal hw hmem =>
        rw [isWord_of_word (Cursor.at_word hg.skips hw hrest hbound).lexeme, beq_eq_false_iff_ne]
        exact hliterals _ hmem word hword
    | string hquote v => exact isWord_of_string (Cursor.at_written hquote hg v hbound).lexeme word
    | paren _ _ =>
        rw [List.append_assoc, List.cons_append]
        exact isWord_of_mark (Cursor.at_mark hg (by decide)).lexeme word
    | array _ =>
        rw [List.append_assoc, List.cons_append]
        exact isWord_of_mark (Cursor.at_mark hg (by decide)).lexeme word
    | object _ =>
        rw [List.append_assoc, List.cons_append]
        exact isWord_of_mark (Cursor.at_mark hg (by decide)).lexeme word

theorem Token.StartsPrimary.operand {t : Token} (h : t.StartsPrimary) (hbracket : isMark t "(" = false) :
    t.StartsOperand := by
  refine ⟨fun m hm => ?_, h.word⟩
  have hmarks : ∀ m ∈ ["<", "(", "++", "--", "+", "-", "~", "!"],
      m = "(" ∨ m ∈ ["<", "++", "--", "+", "-", "~", "!"] := by decide
  rcases hmarks m hm with rfl | hm
  · exact hbracket
  · exact h.mark m hm

theorem arrow?_mark {m : String} (h : c.token.lexeme = .mark m) (hm : m ∉ ["(", "<", "++", "--", "+", "-", "~", "!"]) :
    Grammar.arrow? rs scope c = some (none, c) := by
  have hreference : isReference c.token = false := by rw [isReference, h]
  simp only [List.mem_cons, List.not_mem_nil, or_false, not_or] at hm
  have hoperand : c.token.StartsOperand := by
    refine ⟨fun m' hm' => isMark_of_other h ?_, fun w _ => isWord_of_mark h w⟩
    rintro rfl
    simp [hm] at hm'
  exact arrow?_operand hoperand (by simp [hreference])

/-- An operand starts no function. -/
theorem Core.arrow?_primary (h : Core tags .primary text shapes) (hg : IsGap g) (hrest : BehindOperand rest)
    (hbound : text.length ≤ scope.bound) (d n : Nat) :
    Grammar.arrow? (rules d) scope (.front scope.bound (g ++ text ++ rest) n) =
      some (none, .front scope.bound (g ++ text ++ rest) n) := by
  have hstart := h.startsPrimary hg hrest.word hbound n
  -- Behind a word no sign of a function stands.
  have hword : IsWord text → Grammar.arrow? (rules d) scope (.front scope.bound (g ++ text ++ rest) n) =
      some (none, .front scope.bound (g ++ text ++ rest) n) := by
    intro hw
    have hat := @Cursor.at_word scope.bound n _ g text rest hg.skips hw hrest.word hbound
    refine arrow?_operand (hstart.operand (isMark_of_word hat.lexeme _)) fun _ => ?_
    rw [hat.next]
    exact hrest.not_mark _ _ (by decide)
  cases h with
  | name hw _ _ => exact hword hw
  | literal hw _ => exact hword hw
  | @string quote hquote v =>
      have hat := @Cursor.at_written scope.bound n g rest _ hquote hg v hbound
      have hreference : isReference (Cursor.front scope.bound (g ++ written quote v ++ rest) n).token = false := by
        rw [isReference, hat.lexeme]
      exact arrow?_operand (startsOperand_string hat.lexeme) (by rw [hreference]; rintro ⟨⟩)
  | paren hinner _ =>
      simp only [List.length_cons, List.length_append, List.length_nil] at hbound
      have harrow := @Core.arrow? tags g rest _ _ _ scope hinner hg hrest (by omega) d n
      simpa using harrow
  | array _ =>
      rw [List.append_assoc, List.cons_append]
      exact arrow?_mark (Cursor.at_mark hg (by decide)).lexeme (by decide)
  | object _ =>
      rw [List.append_assoc, List.cons_append]
      exact arrow?_mark (Cursor.at_mark hg (by decide)).lexeme (by decide)

/-! ## Texts by class -/

/-- What stands behind an entry: members stand between braces. -/
def Entry.Ends : Entry → List Char → Prop
  | .member, rest => ∃ g c k, IsGap g ∧ c ∈ [',', '\x7d'] ∧ rest = g ++ c :: k
  | _, rest => ClosesText rest

/-- The brackets that close a list of entries. -/
def Entry.closers : Entry → List Char
  | .member => ['\x7d']
  | _ => [')', ']']

theorem Entry.Ends.closes (h : entry.Ends rest) : ClosesText rest := by
  cases entry with
  | member =>
      obtain ⟨g, c, k, hg, hc, rfl⟩ := h
      have hmarks : ∀ d ∈ [',', '\x7d'], d ∈ [',', ';', ')', ']', '\x7d'] := by decide
      exact ⟨g, c, k, hg, hmarks c hc, rfl⟩
  | _ => exact h

theorem mem_closers {close : Char} (h : close ∈ entry.closers) : close ∈ [')', ']', '\x7d'] := by
  cases entry <;> (simp only [Entry.closers, List.mem_cons, List.not_mem_nil, or_false] at h ⊢; grind)

theorem ends_comma (hg : IsGap g) (entry : Entry) (s : List Char) : entry.Ends (g ++ ',' :: s) := by
  cases entry with
  | member => exact ⟨g, ',', s, hg, by decide, rfl⟩
  | _ => exact ⟨g, ',', s, hg, by decide, rfl⟩

theorem ends_close {close : Char} (hg : IsGap g) (h : close ∈ entry.closers) (s : List Char) :
    entry.Ends (g ++ close :: s) := by
  have hclose := closesText_close hg (mem_closers h) s
  cases entry with
  | member =>
      obtain rfl := List.mem_singleton.mp h
      exact ⟨g, '\x7d', s, hg, by decide, rfl⟩
  | _ => exact hclose

/-- Features with tags, if a text may hold some. -/
def Features.Allow (features : Features) (tags : Bool) : Prop :=
  tags = true → features.tags = true

theorem Features.allow_false (features : Features) : features.Allow false :=
  fun h => absurd h Bool.false_ne_true

/-- The scopes that a text is read in: no body of a generator, and one with tags if the text may hold some. -/
def Scope.Fits (scope : Scope) (tags : Bool) : Prop :=
  scope.inGenerator = false ∧ scope.features.Allow tags

/-- A text at whose start the attributes of a tag end. -/
def EndsTag (rest : List Char) : Prop :=
  ∃ g k, IsGap g ∧ (rest = g ++ '/' :: '>' :: k ∨ rest = g ++ '>' :: k)

/-- What is read between tags behind a piece of text: an expression between braces, a tag, or the start of the
closing tag. -/
def childBehind (rs : Rules) (done : List Tree) : Parse (List Tree × List Char × Nat ⊕ List Tree) := do
  if ← atMark "\x7b" then
    let start ← position
    let inner ← bracedExpression rs
    let close ← token
    return .inl
      (.node .tagExpression ⟨start, close.stop⟩ "" inner.toList :: done, close.rest, close.stop)
  require (← atMark "<")
  if isMark (← peek) "/" then
    advance
    advance
    return .inr done.reverse
  let child ← rs .element
  let close ← token
  return .inl (child :: done, close.rest, close.stop)

/-- One round over what stands between tags: what was read so far, the text ahead and where that starts. -/
def childRound (rs : Rules) :
    List Tree × List Char × Nat → Parse (List Tree × List Char × Nat ⊕ List Tree) := fun (done, s, n) => do
  let (text, rest) := s.span fun c => c != '<' && c != '\x7b'
  require !(hasLooseBracket text)
  let stop := n + text.length
  let done :=
    if text.isEmpty then done else .node .tagText ⟨n, stop⟩ (String.ofList text) [] :: done
  resumeAt rest stop
  childBehind rs done

/-- How a text of a class is read, wherever it stands and with enough depth for its length. -/
def Category.Reads (tags : Bool) (text : List Char) (shapes : List Shape) : Category → Prop
  | .primary => ∀ ⦃scope d n g rest⦄, scope.Fits tags → IsGap g → EndsWord rest →
      text.length ≤ scope.bound → 8 * text.length ≤ d + 8 → ∀ shape ∈ shapes,
        ReadsUpTo (Grammar.primary (rules d)) scope (.front scope.bound (g ++ text ++ rest) n) rest shape
  | .steps => ∀ ⦃scope d n rest base k⦄, scope.Fits tags → ClosesText rest →
      text.length ≤ scope.bound → 8 * text.length ≤ d + 4 → base.IsBase → base.span.stop = n → text.length < k →
        ReadsUpTo (stepRounds (rules d) false k base) scope (.front scope.bound (text ++ rest) n) rest
          (shapes.foldl Shape.behind base.shape) ∧
        ∃ callee c₁, stepRounds (rules d) true k base scope (.front scope.bound (text ++ rest) n) = some (callee, c₁) ∧
          callee.IsBase ∧ isMark c₁.token "<" = false ∧ ∀ start,
            ReadsUpTo (applied (rules (d + 2)) start callee) scope c₁ rest (shapes.foldl Shape.behind base.shape)
  | .tag => ∀ ⦃scope d n g rest⦄, scope.Fits tags → IsGap g → text.length ≤ scope.bound →
      8 * text.length ≤ d + 8 → ∀ shape ∈ shapes, ∃ tree c₁ stop,
        Grammar.element (rules d) scope (.front scope.bound (g ++ text ++ rest) n) = some (tree, c₁) ∧
          c₁.At scope.bound (.mark ">") rest stop ∧ tree.shape = shape ∧ tree.span.stop = stop
  | .attributes => ∀ ⦃scope d n rest⦄, scope.Fits tags → EndsTag rest → text.length ≤ scope.bound →
      8 * text.length ≤ d → ∃ es stop,
        Repeated scope (atMarks ["/", ">"]) (tagAttribute (rules d)) (.front scope.bound (text ++ rest) n) es
          (.front scope.bound rest stop) ∧ Tree.shapes es = shapes ∧ es.length ≤ text.length
  | .children => ∀ ⦃scope d n rest k done c⦄, scope.Fits tags → (∀ e ∈ rest.head?, e ∉ ['/', '*', '=']) →
      text.length ≤ scope.bound → 8 * text.length ≤ d → c.faulty = false → text.length < k → ∃ es stop,
        iterate (childRound (rules d)) k (done, text ++ '<' :: '/' :: rest, n) scope c =
          some (done.reverse ++ es, .front scope.bound rest stop) ∧ Tree.shapes es = shapes
  | .one entry => ∀ ⦃scope d n g rest⦄, scope.Fits tags → IsGap g → entry.Ends rest →
      text.length ≤ scope.bound → 8 * text.length ≤ d → ∀ shape ∈ shapes,
        ReadsUpTo (entry.rule (rules d)) scope (.front scope.bound (g ++ text ++ rest) n) rest shape
  | .list entry comma => ∀ ⦃scope d n rest close⦄, close ∈ entry.closers → scope.Fits tags →
      text.length ≤ scope.bound → 8 * text.length ≤ d → ∃ es g' stop,
        Entries scope (rules d) entry (String.ofList [close]) (.front scope.bound (text ++ close :: rest) n) es
          (.front scope.bound (g' ++ close :: rest) stop) ∧
        IsGap g' ∧ es.length ≤ text.length ∧ Tree.shapes es = shapes ∧
          literalName es stop = commaName comma

/-! ## Operands -/

theorem Category.reads_name (hw : IsWord w) (hname : ValueName (String.ofList w)) :
    Category.primary.Reads tags w [.node .identifier (String.ofList w) []] := by
  intro scope d n g rest _ hg hrest hbound _
  have hat := @Cursor.at_word scope.bound n _ g w rest hg.skips hw hrest hbound
  rw [List.forall_mem_singleton]
  exact .of_run (primary_name hname hat.lexeme hat.sound _) hat.next rfl hat.stop_eq

theorem Category.reads_literal {kind : Kind} {value : String} (hw : IsWord w)
    (hmem : (String.ofList w, kind, value) ∈ literalWords) : Category.primary.Reads tags w [.node kind value []] := by
  intro scope d n g rest _ hg hrest hbound _
  have hat := @Cursor.at_word scope.bound n _ g w rest hg.skips hw hrest hbound
  rw [List.forall_mem_singleton]
  exact .of_run (primary_literalWord hmem hat.lexeme hat.sound _) hat.next rfl hat.stop_eq

theorem Category.reads_string {quote : Char} (hquote : IsQuote quote) (v : List Char) :
    Category.primary.Reads tags (written quote v) [.node .string (String.ofList v) []] := by
  intro scope d n g rest _ hg _ hbound _
  have hat := @Cursor.at_written scope.bound n g rest _ hquote hg v hbound
  rw [List.forall_mem_singleton]
  exact .of_run (primary_string hat.lexeme hat.sound _) hat.next rfl hat.stop_eq

/-- A list between brackets: the run of its entries, from behind the opening bracket up to the closing one. -/
theorem Category.Reads.between {start close : Char} (h : (Category.list entry comma).Reads tags inner shapes)
    (hstart : start ∈ loneMarks) (hclose : close ∈ entry.closers) (hscope : scope.Fits tags)
    (hg : IsGap g) (hbound : inner.length ≤ scope.bound) (hdepth : 8 * inner.length ≤ d) (n : Nat)
    (rest : List Char) : ∃ es c₁ stop,
      (Cursor.front scope.bound (g ++ start :: (inner ++ close :: rest)) n).At scope.bound
          (.mark (String.ofList [start])) (inner ++ close :: rest) (n + g.length + 1) ∧
        Entries (bracketScope scope) (rules d) entry (String.ofList [close])
          ((Cursor.front scope.bound (g ++ start :: (inner ++ close :: rest)) n).next scope.bound) es c₁ ∧
        c₁.At scope.bound (.mark (String.ofList [close])) rest stop ∧ es.length ≤ inner.length ∧
        Tree.shapes es = shapes ∧ literalName es c₁.lastStop = commaName comma := by
  have hat := @Cursor.at_mark scope.bound n start g (inner ++ close :: rest) hg hstart
  obtain ⟨es, g', stop, hes, hg', hcount, hshapes, hcomma⟩ := @h (bracketScope scope) d (n + g.length + 1) rest close
    hclose hscope hbound hdepth
  have hend := @Cursor.at_mark scope.bound stop close g' rest hg' (mem_loneMarks_of_close (mem_closers hclose))
  refine ⟨es, _, _, hat, ?_, hend, hcount, hshapes, hcomma⟩
  rw [hat.next]
  exact hes

theorem Category.reads_array (h : (Category.list .element comma).Reads tags inner shapes) :
    Category.primary.Reads tags ('[' :: (inner ++ [']'])) [.node .array (commaName comma) shapes] := by
  intro scope d n g rest hscope hg _ hbound hdepth
  simp only [List.length_cons, List.length_append, List.length_nil] at hbound hdepth
  simp only [List.append_assoc, List.cons_append, List.nil_append]
  obtain ⟨es, c₁, stop, hat, hes, hclose, hcount, rfl, hcomma⟩ := h.between (show '[' ∈ loneMarks by decide)
    (show ']' ∈ _ by decide) hscope hg (by omega) (show _ ≤ d by omega) n rest
  rw [List.forall_mem_singleton, ← hcomma]
  exact .of_run (primary_array hat.lexeme hat.sound hes hclose.sound (by omega)) hclose.next rfl hclose.stop_eq

theorem primary_object (h : c.token.lexeme = .mark "\x7b") (d : Nat) :
    Grammar.primary (rules (d + 1)) scope c = object (rules d) scope c := by
  have hliteral : isLiteralKey c.token = false := by rw [isLiteralKey, h]
  simp [Grammar.primary, hliteral, isMark_of_mark h]
  rfl

theorem Category.reads_object (h : (Category.list .member comma).Reads tags inner shapes) :
    Category.primary.Reads tags ('\x7b' :: (inner ++ ['\x7d'])) [.node .object (commaName comma) shapes] := by
  intro scope d n g rest hscope hg _ hbound hdepth
  simp only [List.length_cons, List.length_append, List.length_nil] at hbound hdepth
  simp only [List.append_assoc, List.cons_append, List.nil_append]
  obtain ⟨d, rfl⟩ : ∃ d', d = d' + 1 := ⟨d - 1, by omega⟩
  obtain ⟨es, c₁, stop, hat, hes, hclose, hcount, rfl, hcomma⟩ := h.between (show '\x7b' ∈ loneMarks by decide)
    (show '\x7d' ∈ _ by decide) hscope hg (by omega) (show _ ≤ d by omega) n rest
  have hread := object_entries hat.lexeme hat.sound hes hclose.sound (by omega)
  rw [List.forall_mem_singleton, ← hcomma]
  exact .of_run ((primary_object hat.lexeme d).trans hread) hclose.next rfl hclose.stop_eq

theorem Category.reads_paren (h : (Category.list .value false).Reads tags inner shapes) (hne : shapes ≠ [])
    (hloose : ∀ s ∈ shapes, s.hasLooseDefault = false) :
    Category.primary.Reads tags ('(' :: (inner ++ [')'])) [.node .paren "" [Shape.joined shapes]] := by
  intro scope d n g rest hscope hg _ hbound hdepth
  simp only [List.length_cons, List.length_append, List.length_nil] at hbound hdepth
  simp only [List.append_assoc, List.cons_append, List.nil_append]
  obtain ⟨es, c₁, stop, hat, hes, hclose, hcount, rfl, _⟩ := h.between (show '(' ∈ loneMarks by decide)
    (show ')' ∈ _ by decide) hscope hg (by omega) (show _ ≤ d by omega) n rest
  have hsome : es ≠ [] := by
    rintro rfl
    exact hne rfl
  obtain ⟨e, hread, hshape, hstop⟩ := primary_paren hat.lexeme hat.sound hes hclose.sound hsome hloose (by omega)
  rw [List.forall_mem_singleton]
  exact .of_run hread hclose.next hshape (hstop.trans hclose.stop_eq)

/-! ## Steps -/

theorem Category.reads_nothing : Category.steps.Reads tags [] [] := by
  intro scope d n rest base k _ hrest _ _ hbase hstop hk
  obtain ⟨k, rfl⟩ : ∃ k', k = k' + 1 := ⟨k - 1, by omega⟩
  have hcloses := hrest.closes scope.bound n
  have hnone : ∀ noCall, subscript? (rules d) base noCall scope (.front scope.bound rest n) =
      some (none, .front scope.bound rest n) := fun noCall =>
    subscript?_closes hcloses (hbase.ne (by decide)) (hbase.ne (by decide)) noCall
  rw [List.nil_append, List.foldl_nil]
  refine ⟨.of_run (stepRounds_none (hnone false)) rfl rfl hstop, base, _, stepRounds_none (hnone true), hbase,
    isMark_of_closes hcloses (by decide), fun start => ⟨base, n, ?_, rfl, hstop⟩⟩
  simp [applied, isMark_of_closes hcloses (m := "(") (by decide)]

/-- A step that is read the same way wherever calls are left to others. -/
theorem Category.reads_step {step : Shape} {tail : List Char} (htail : Category.steps.Reads tags tail steps)
    (hlength : tail.length < s.length)
    (hstep : ∀ ⦃scope d n rest base⦄, scope.Fits tags → s.length ≤ scope.bound → 8 * s.length ≤ d + 4 →
      ClosesText rest → base.IsBase → ∃ e stop, (∀ noCall, subscript? (rules d) base noCall scope
          (.front scope.bound (s ++ rest) n) = some (some e, .front scope.bound (tail ++ rest) stop)) ∧
        e.IsBase ∧ e.span.stop = stop ∧ e.shape = base.shape.behind step) :
    Category.steps.Reads tags s (step :: steps) := by
  intro scope d n rest base k hscope hrest hbound hdepth hbase _ hk
  obtain ⟨k, rfl⟩ : ∃ k', k = k' + 1 := ⟨k - 1, by omega⟩
  obtain ⟨e, stop, hread, hkind, hstop, hshape⟩ := @hstep scope d n rest base hscope hbound hdepth hrest hbase
  have hrounds := @htail scope d stop rest e k hscope hrest (by omega) (by omega) hkind hstop (by omega)
  rw [List.foldl_cons, ← hshape, ReadsUpTo, stepRounds_some (hread false), stepRounds_some (hread true)]
  exact hrounds

theorem Category.reads_memberStep {g g' tail : List Char} (hg : IsGap g) (hg' : IsGap g') (hw : IsWord w)
    (htail : Category.steps.Reads tags tail steps) (hends : ∀ rest, ClosesText rest → EndsWord (tail ++ rest)) :
    Category.steps.Reads tags (g ++ '.' :: (g' ++ (w ++ tail)))
      (.node .member "." [.node .name (String.ofList w) []] :: steps) := by
  refine Category.reads_step htail (by simp; omega) ?_
  intro scope d n rest base _ hbound _ hrest hbase
  simp only [List.length_append, List.length_cons] at hbound
  simp only [List.append_assoc, List.cons_append]
  have hpoint := @Cursor.at_point scope.bound n g (g' ++ (w ++ (tail ++ rest))) hg (hg'.head_word hw _)
  have hname := @Cursor.at_word scope.bound (n + g.length + 1) _ g' w (tail ++ rest) hg'.skips hw
    (hends rest hrest) (by omega)
  rw [List.append_assoc] at hname
  obtain ⟨span, span', hstep, hstop⟩ := @subscript?_member scope _ _ base (rules d) _ hpoint.lexeme hpoint.sound
    hname.lexeme hname.sound hpoint.next hbase
  rw [hname.next] at hstep
  exact ⟨_, _, hstep, (by decide : Kind.member ∈ coreKinds), hstop.trans hname.stop_eq, rfl⟩

theorem expression_value {value : Tree} (h : rs .assignment scope c = some (value, c'))
    (hcomma : isMark c'.token "," = false) : expression rs scope c = some (value, c') := by
  simp [expression, run_bind_of h, hcomma]

theorem Category.reads_indexStep {g g₁ g₂ tail : List Char} (hg : IsGap g) (hg₁ : IsGap g₁)
    (hg₂ : IsGap g₂) (h : Category.value.Reads tags text [shape]) (htail : Category.steps.Reads tags tail steps) :
    Category.steps.Reads tags (g ++ '[' :: (g₁ ++ (text ++ (g₂ ++ ']' :: tail))))
      (.node .index "[]" [shape] :: steps) := by
  refine Category.reads_step htail (by simp; omega) ?_
  intro scope d n rest base hscope hbound hdepth _ hbase
  simp only [List.length_append, List.length_cons] at hbound hdepth
  simp only [List.append_assoc, List.cons_append]
  obtain ⟨d, rfl⟩ : ∃ d', d = d' + 1 := ⟨d - 1, by omega⟩
  have hopen := @Cursor.at_mark scope.bound n '[' g (g₁ ++ (text ++ (g₂ ++ ']' :: (tail ++ rest)))) hg (by decide)
  obtain ⟨value, stop, hvalue, rfl, _⟩ := @h (bracketScope scope) d (n + g.length + 1) g₁ (g₂ ++ ']' :: (tail ++ rest))
    hscope hg₁ ⟨g₂, ']', _, hg₂, by decide, rfl⟩ (by simp only [bracketScope]; omega) (by omega) shape
    List.mem_cons_self
  have hclose := @Cursor.at_mark scope.bound stop ']' g₂ (tail ++ rest) hg₂ (by decide)
  have hexpression := expression_value hvalue (isMark_of_other hclose.lexeme (by decide))
  rw [List.append_assoc] at hexpression
  obtain ⟨span, hstep, hstop⟩ := @subscript?_index scope _ _ base (rules (d + 1)) value hopen.lexeme hopen.sound
    (by rw [hopen.next]; exact hexpression) hclose.lexeme hclose.sound hbase
  rw [hclose.next] at hstep
  exact ⟨_, _, hstep, (by decide : Kind.index ∈ coreKinds), hstop.trans hclose.stop_eq, rfl⟩

theorem Category.reads_callStep {g tail : List Char} (hg : IsGap g)
    (h : (Category.list .element comma).Reads tags inner shapes) (htail : Category.steps.Reads tags tail steps) :
    Category.steps.Reads tags (g ++ '(' :: (inner ++ ')' :: tail))
      (.node .call "()" [.node .group "" shapes] :: steps) := by
  intro scope d n rest base k hscope hrest hbound hdepth hbase _ hk
  simp only [List.length_append, List.length_cons] at hbound hdepth hk
  simp only [List.append_assoc, List.cons_append]
  obtain ⟨d, rfl⟩ : ∃ d', d = d' + 1 := ⟨d - 1, by omega⟩
  obtain ⟨k, rfl⟩ : ∃ k', k = k' + 1 := ⟨k - 1, by omega⟩
  -- The arguments are read at the depth of the rules that call for them.
  have hargs : ∀ d, 8 * inner.length ≤ d → ∃ args stop, rules (d + 1) .arguments scope
      (.front scope.bound (g ++ '(' :: (inner ++ ')' :: (tail ++ rest))) n) =
        some (args, .front scope.bound (tail ++ rest) stop) ∧ args.shape = .node .group "" shapes := by
    intro d hd
    obtain ⟨es, c₁, stop, hat, hes, hclose, hcount, rfl, _⟩ := h.between (show '(' ∈ loneMarks by decide)
      (show ')' ∈ _ by decide) hscope hg (by omega) hd n (tail ++ rest)
    have hread := arguments_entries hat.lexeme hat.sound hes hclose.sound (by omega)
    rw [hclose.next] at hread
    exact ⟨_, _, hread, rfl⟩
  have hopen := (@Cursor.at_mark scope.bound n '(' g (inner ++ ')' :: (tail ++ rest)) hg (by decide)).lexeme
  have hcall : ∀ start stop : Nat, ∀ args : Tree, args.shape = .node .group "" shapes →
      (Tree.node .call ⟨start, stop⟩ "()" [base, args]).shape =
        base.shape.behind (.node .call "()" [.node .group "" shapes]) := by
    intro start stop args hshape
    simp [Tree.shape, Tree.shapes, hshape, Shape.behind]
  constructor
  · obtain ⟨args, stop, hread, hshape⟩ := hargs d (by omega)
    have hrounds := @htail scope (d + 1) stop rest (.node .call ⟨base.span.start, stop⟩ "()" [base, args]) k hscope
      hrest (by omega) (by omega) (by decide : Kind.call ∈ coreKinds) rfl (by omega)
    rw [List.foldl_cons, ← hcall base.span.start stop args hshape, ReadsUpTo,
      stepRounds_some (subscript?_call hopen hread hbase)]
    exact hrounds.1
  · refine ⟨base, _, stepRounds_none (subscript?_held hopen hbase), hbase, isMark_of_other hopen (by decide),
      fun start => ?_⟩
    obtain ⟨args, stop, hread, hshape⟩ := hargs (d + 2) (by omega)
    have hrounds := (@htail scope (d + 2) stop rest (.node .call ⟨start, stop⟩ "()" [base, args]) (scope.bound + 1)
      hscope hrest (by omega) (by omega) (by decide : Kind.call ∈ coreKinds) rfl (by omega)).1
    rw [List.foldl_cons, ← hcall start stop args hshape, ReadsUpTo]
    have happlied : applied (rules (d + 1 + 2)) start base scope (.front scope.bound
        (g ++ '(' :: (inner ++ ')' :: (tail ++ rest))) n) = stepRounds (rules (d + 2)) false (scope.bound + 1)
          (.node .call ⟨start, stop⟩ "()" [base, args]) scope (.front scope.bound (tail ++ rest) stop) := by
      simp [applied, isMark_self hopen, run_bind_of hread]
      rfl
    rw [happlied]
    exact hrounds

/-! ## Values -/

theorem Category.reads_operand (htext : Core tags .primary text [base]) (hsteps : Core tags .steps s steps)
    (h : Category.primary.Reads tags text [base]) (h' : Category.steps.Reads tags s steps) :
    Category.value.Reads tags (text ++ s) [steps.foldl Shape.behind base] := by
  intro scope d n g rest hscope hg hrest hbound hdepth
  replace hrest : ClosesText rest := hrest
  rw [List.forall_mem_singleton]
  rw [List.length_append] at hbound hdepth
  have hpos := htext.length_pos rfl
  obtain ⟨d, rfl⟩ : ∃ d', d = d' + 4 := ⟨d - 4, by omega⟩
  have hbehind := hsteps.behindOperand hrest
  rw [← List.append_assoc, List.append_assoc (g ++ text)]
  obtain ⟨e, stop, hprimary, rfl, hstop⟩ := @h scope (d + 1) n g (s ++ rest) hscope hg hbehind.word (by omega)
    (by omega) base List.mem_cons_self
  have hkind : e.IsBase := by
    rw [Tree.IsBase, ← kind_shape]
    exact htext.kind_mem _ List.mem_cons_self
  have hstart := htext.startsPrimary hg hbehind.word (show text.length ≤ scope.bound by omega) n
  have harrow := @Core.arrow?_primary tags g (s ++ rest) text _ scope htext hg hbehind (by omega) (d + 3) n
  obtain ⟨callee, c₁, hrounds, hcallee, hangle, happlied⟩ := (@h' scope d stop rest e (scope.bound + 1) hscope hrest
    (by omega) (by omega) hkind hstop (by omega)).2
  generalize Cursor.front scope.bound (g ++ text ++ (s ++ rest)) n = c at *
  have hmember : rules (d + 2) .memberOrNew scope c = some (callee, c₁) := memberOrNew_operand hstart hprimary hrounds
  obtain ⟨tree, stop, htree, hshape, hends⟩ := happlied c.token.start
  have hleft := (leftSide_applied hstart hmember hcallee hangle).trans htree
  exact ⟨tree, stop, assignment_leftSide hstart hscope.1 harrow hleft (hrest.closes scope.bound stop), hshape, hends⟩

theorem primary_number (hw : IsNumber w) (hg : IsGap g) (hrest : EndsNumber rest) (n : Nat) :
    ∃ tree : Tree, Grammar.primary rs scope (.front scope.bound (g ++ w ++ rest) n) =
        some (tree, .front scope.bound rest (n + g.length + w.length)) ∧
      tree.shape = .node .number (String.ofList w) [] ∧ tree.span.stop = n + g.length + w.length := by
  have hat := @Cursor.at_number scope.bound n g w rest hg hw hrest
  have hread := @Token.read_number scope.bound n g w rest hg hw hrest
  have hliteral : isLiteralKey (Cursor.front scope.bound (g ++ w ++ rest) n).token = true := by
    rw [isLiteralKey, hat.lexeme]
  have hhere : String.ofList ((Cursor.front scope.bound (g ++ w ++ rest) n).token.here.take
      ((Cursor.front scope.bound (g ++ w ++ rest) n).token.stop -
        (Cursor.front scope.bound (g ++ w ++ rest) n).token.start)) = String.ofList w := by
    rw [Cursor.front, hread]
    simp [Token.over]
  refine ⟨.node .number ⟨(Cursor.front scope.bound (g ++ w ++ rest) n).token.start, _⟩ _ [], ?_,
    congrArg (Shape.node .number · []) hhere, hat.stop_eq⟩
  simp only [Grammar.primary, token_bind_run, hliteral, if_true, literalKey, hat.lexeme, advance_bind_run hat.sound,
    hat.next, run_pure]

theorem Category.reads_number (hw : IsNumber w) : Category.value.Reads tags w [.node .number (String.ofList w) []] := by
  intro scope d n g rest hscope hg hrest hbound hdepth
  replace hrest : ClosesText rest := hrest
  rw [List.forall_mem_singleton]
  have hpos := (Core.number hw : Core tags .value w _).length_pos rfl
  obtain ⟨d, rfl⟩ : ∃ d', d = d' + 4 := ⟨d - 4, by omega⟩
  have hlexeme := (@Cursor.at_number scope.bound n g w rest hg hw (endsNumber_of_closes hrest)).lexeme
  obtain ⟨tree, hprimary, hshape, hstop⟩ := @primary_number g rest w scope (rules (d + 1)) hw hg
    (endsNumber_of_closes hrest) n
  generalize Cursor.front scope.bound (g ++ w ++ rest) n = c at *
  have hstart : c.token.StartsOperand := by
    refine ⟨fun m _ => ?_, fun m _ => ?_⟩
    · rw [isMark, hlexeme]
    · rw [isWord, hlexeme]
  have hreference : isReference c.token = false := by rw [isReference, hlexeme]
  have hcloses := hrest.closes scope.bound (n + g.length + w.length)
  have hkind : tree.kind = .number := by rw [← kind_shape, hshape]; rfl
  have hsteps : rules (d + 1) (.subscripts tree true) scope (.front scope.bound rest (n + g.length + w.length)) =
      some (tree, .front scope.bound rest (n + g.length + w.length)) :=
    subscripts_closes hcloses (by simp [hkind]) (by simp [hkind]) true
  exact ⟨tree, _, assignment_operand hstart hscope.1 (by simp [hreference]) hprimary hsteps hcloses, hshape, hstop⟩

/-! ## Functions -/

theorem assignment_arrow (hmark : isMark c.token "<" = false) (hgenerator : scope.inGenerator = false)
    (harrow : arrow? (rules d) scope c = some (some e, c')) : rules (d + 1) .assignment scope c = some (e, c') := by
  have hplain : plainAssignment (rules d) scope c = some (e, c') := by
    simp [plainAssignment, eatWordIf, hgenerator, run_bind_of harrow]
  show assignment (rules d) scope c = _
  simp [assignment, hmark, hplain]

/-- The shape of a parameter that is a plain name. -/
def PlainParameter (s : Shape) : Prop :=
  ∃ name, name ≠ "this" ∧ s = .node .parameter "" [.node .identifier name []]

theorem Core.plainParameter (h : Core tags (.one .parameter) text [shape]) : PlainParameter shape := by
  cases h with
  | parameter hw hbinding => exact ⟨_, hbinding.ne_of_reserved rfl, rfl⟩

theorem Core.plainParameters (h : Core tags category text shapes) (hcategory : category = .list .parameter comma) :
    ∀ s ∈ shapes, PlainParameter s := by
  induction h generalizing comma with
  | nil => exact List.forall_mem_nil _
  | last _ htext =>
      cases hcategory
      exact List.forall_mem_singleton.mpr htext.plainParameter
  | cons _ htext _ _ _ ih =>
      cases hcategory
      exact List.forall_mem_cons.mpr ⟨htext.plainParameter, ih rfl⟩
  | _ => cases hcategory

theorem not_this (h : ∀ s ∈ Tree.shapes es, PlainParameter s) :
    (es.any fun p => (parameterTarget p).name == "this") = false := by
  rw [List.any_eq_false]
  intro e he
  obtain ⟨label, hthis, hshape⟩ := h e.shape (by rw [shapes_eq_map]; exact List.mem_map_of_mem he)
  obtain ⟨kind, span, _, parts⟩ := e
  match parts with
  | [] => simp [Tree.shape, Tree.shapes] at hshape
  | .node _ _ first _ :: _ =>
      simp only [Tree.shape, Tree.shapes, Shape.node.injEq, List.cons.injEq] at hshape
      obtain ⟨_, _, ⟨_, rfl, _⟩, _⟩ := hshape
      simpa [parameterTarget, Tree.parts, Tree.name] using hthis

/-- The scope of an expression that a function returns. -/
def Grammar.returnScope (scope : Scope) : Scope :=
  { scope with
    inAsync := false, inGenerator := false, inFunction := true, canBreak := false, canContinue := false,
    labels := [] }

theorem arrowHead_parameters {params : Tree} (hopen : c.token.lexeme = .mark "(") (hsound : c.token.Sound)
    (hparams : rs .parameters (bracketScope scope) (c.next scope.bound) = some (params, c₁))
    (hclose : c₁.At scope.bound (.mark ")") rest stop)
    (hthis : (params.parts.any fun p => (parameterTarget p).name == "this") = false)
    (harrow : (Cursor.front scope.bound rest stop).token.lexeme = .mark "=>")
    (hline : (Cursor.front scope.bound rest stop).token.afterBreak = false) (withResult : Bool) :
    Grammar.arrowHead rs withResult scope c = some ([params], .front scope.bound rest stop) := by
  have hopened := @run_expectMark scope c "(" (isMark_self hopen) hsound
  have hclosed := @run_expectMark scope c₁ ")" (isMark_self hclose.lexeme) hclose.sound
  have hread : bracketed (rs .parameters) scope (c.next scope.bound) = some (params, c₁) := hparams
  rw [hclose.next] at hclosed
  simp [Grammar.arrowHead, run_bind_of hopened, run_bind_of hread, run_bind_of hclosed, hthis,
    run_bind_of run_faultIf_false, isMark_of_mark harrow, hline, run_map]

theorem arrow?_function {params body : Tree} {head : List Tree × Cursor} (hopen : c.token.lexeme = .mark "(")
    (hlook : Grammar.arrowHead rs false { scope with lenient := true } c = some head)
    (hhead : Grammar.arrowHead rs true scope c = some ([params], c₁)) (harrow : c₁.token.lexeme = .mark "=>")
    (hsound : c₁.token.Sound) (hbrace : isMark (c₁.next scope.bound).token "\x7b" = false)
    (hbody : rs .assignment (returnScope scope) (c₁.next scope.bound) = some (body, c')) (hkind : body.kind ≠ .block) :
    Grammar.arrow? rs scope c = some (some (.node .arrow ⟨c.token.start, c'.lastStop⟩ "" [params, body]), c') := by
  have hfound : atArrow rs false scope c = some (true, c) := by
    have hahead : ahead ((fun _ => true) <$> Grammar.arrowHead rs false) scope c = some (true, c) := by
      simp only [ahead, run_map, hlook, Option.map_some]
    simp [atArrow, isMark_of_mark hopen, run_bind_of hahead]
  have hread : arrowBody rs false scope (c₁.next scope.bound) = some (body, c') := by
    rw [← hbody]
    simp [arrowBody, hbrace, returnScope]
  have hsign := @run_expectMark scope c₁ "=>" (isMark_self harrow) hsound
  have hreference : isReference c.token = false := by rw [isReference, hopen]
  have hasync : asyncArrow? rs scope c = some (none, c) := by
    simp [asyncArrow?, isWord_of_mark hopen]
  simp [Grammar.arrow?, run_bind_of hasync, hreference, isWord_of_mark hopen, run_bind_of hfound, bracketArrow,
    run_bind_of hhead, run_bind_of hsign, run_bind_of hread, hkind, run_map]

theorem arrow?_functionOf {body : Tree} (hlexeme : c.token.lexeme = .word name false) (hsound : c.token.Sound)
    (hname : ValueName name) (hbinding : BindingWord name) (harrow : (c.next scope.bound).token.lexeme = .mark "=>")
    (hsound₁ : (c.next scope.bound).token.Sound) (hline : (c.next scope.bound).token.afterBreak = false)
    (hnext : (c.next scope.bound).next scope.bound = c₁) (hbrace : isMark c₁.token "\x7b" = false)
    (hbody : rs .assignment (returnScope scope) c₁ = some (body, c')) :
    ∃ tree : Tree, Grammar.arrow? rs scope c = some (some tree, c') ∧ tree.shape = .node .arrow ""
        [.node .parameters "" [.node .parameter "" [.node .identifier name []]], body.shape] ∧
      tree.span.stop = c'.lastStop := by
  have hasync : asyncArrow? rs scope c = some (none, c) := by
    simp [asyncArrow?, isWord_of_word hlexeme, hname.ne_async]
  have hreference : isReference c.token = true := by simp [isReference, hlexeme, hname.not_reserved]
  have hread : arrowBody rs false scope c₁ = some (body, c') := by
    rw [← hbody]
    simp [arrowBody, hbrace, returnScope]
  have hbound := @bindingName_word scope c _ hlexeme hsound hbinding
  have hsign := @run_expectMark scope _ "=>" (isMark_self harrow) hsound₁
  rw [hnext] at hsign
  refine ⟨.node .arrow ⟨c.token.start, c'.lastStop⟩ "" [.node .parameters ⟨c.token.start, c.token.stop⟩ ""
    [.node .parameter ⟨c.token.start, c.token.stop⟩ "" [.node .identifier ⟨c.token.start, c.token.stop⟩ name []]],
      body], ?_, by simp [Tree.shape, Tree.shapes], rfl⟩
  simp [Grammar.arrow?, run_bind_of hasync, hreference, isMark_of_mark harrow, hline, nameArrow, run_bind_of hbound,
    run_bind_of hsign, run_bind_of hread, run_map, Tree.span]

/-- A body that starts with no brace is no block. -/
theorem Core.not_brace (h : Core tags .value text shapes) (hbrace : text.head? ≠ some '\x7b') (hg : IsGap g)
    (hrest : ClosesText rest) (hbound : text.length ≤ bound) (n : Nat) :
    isMark (Cursor.front bound (g ++ text ++ rest) n).token "\x7b" = false := by
  cases h with
  | operand htext hsteps =>
      rw [List.length_append] at hbound
      have hword := (hsteps.behindOperand hrest).word
      rw [← List.append_assoc, List.append_assoc (g ++ _)]
      cases htext with
      | name hw _ _ => exact isMark_of_word (Cursor.at_word hg.skips hw hword (by omega)).lexeme _
      | literal hw _ => exact isMark_of_word (Cursor.at_word hg.skips hw hword (by omega)).lexeme _
      | string hquote v => exact isMark_of_string (Cursor.at_written hquote hg v (by omega)).lexeme _
      | paren _ _ =>
          rw [List.append_assoc, List.cons_append]
          exact isMark_of_other (Cursor.at_mark hg (by decide)).lexeme (by decide)
      | array _ =>
          rw [List.append_assoc, List.cons_append]
          exact isMark_of_other (Cursor.at_mark hg (by decide)).lexeme (by decide)
      | object _ => exact absurd rfl hbrace
  | number hw =>
      rw [isMark, (Cursor.at_number hg hw (endsNumber_of_closes hrest)).lexeme]
  | function =>
      rw [List.append_assoc, List.cons_append]
      exact isMark_of_other (Cursor.at_mark hg (by decide)).lexeme (by decide)
  | tagged _ htext =>
      obtain ⟨k, rfl, hk⟩ := htext.exists_angle
      rw [List.append_assoc, List.cons_append]
      exact isMark_of_other (Cursor.at_angle hg (hk rest)).lexeme (by decide)
  | functionOf hw _ _ _ hg₁ =>
      rw [List.length_append] at hbound
      have hends := hg₁.endsWord (c := '=') (by decide) (by decide)
      simp only [List.append_assoc, List.cons_append]
      rw [← List.append_assoc g]
      exact isMark_of_word (Cursor.at_word hg.skips hw (hends _) (by omega)).lexeme _

theorem Category.reads_head {params g₁ : List Char} (hcore : Core tags (.list .parameter comma) params shapes)
    (h : (Category.list .parameter comma).Reads tags params shapes) (hg : IsGap g) (hg₁ : IsGap g₁)
    (hline : g₁.any isLineBreak = false) (hscope : scope.Fits tags)
    (hbound : params.length ≤ scope.bound) (hdepth : 8 * params.length ≤ d) (withResult : Bool) (n : Nat)
    (s : List Char) : ∃ (tree : Tree) (stop : Nat), Grammar.arrowHead (rules (d + 1)) withResult scope
        (.front scope.bound (g ++ '(' :: (params ++ ')' :: (g₁ ++ '=' :: '>' :: s))) n) =
          some ([tree], .front scope.bound (g₁ ++ '=' :: '>' :: s) stop) ∧
      tree.shape = .node .parameters "" shapes := by
  obtain ⟨es, c₁, stop, hat, hes, hclose, hcount, rfl, _⟩ := h.between (show '(' ∈ loneMarks by decide)
    (show ')' ∈ _ by decide) hscope hg hbound hdepth n (g₁ ++ '=' :: '>' :: s)
  have hparams : rules (d + 1) .parameters (bracketScope scope) _ = _ :=
    @Entries.parameters (bracketScope scope) _ _ _ (rules d) hes (by simp only [bracketScope]; omega)
  obtain ⟨harrow, hbreak⟩ := @Cursor.at_arrow scope.bound stop g₁ s hg₁
  have hthis := not_this (hcore.plainParameters rfl)
  exact ⟨_, stop, arrowHead_parameters hat.lexeme hat.sound hparams hclose hthis harrow.lexeme (hbreak.trans hline)
    withResult, rfl⟩

theorem Category.reads_function {params body g₁ g₂ : List Char}
    (hcore : Core tags (.list .parameter comma) params shapes)
    (hbody : Core tags .value body [shape]) (hg₁ : IsGap g₁) (hline : g₁.any isLineBreak = false)
    (hg₂ : IsGap g₂) (hbrace : body.head? ≠ some '\x7b')
    (h : (Category.list .parameter comma).Reads tags params shapes) (h' : Category.value.Reads tags body [shape]) :
    Category.value.Reads tags ('(' :: (params ++ ')' :: (g₁ ++ '=' :: '>' :: (g₂ ++ body))))
      [.node .arrow "" [.node .parameters "" shapes, shape]] := by
  intro scope d n g rest hscope hg hrest hbound hdepth
  replace hrest : ClosesText rest := hrest
  rw [List.forall_mem_singleton]
  simp only [List.length_cons, List.length_append] at hbound hdepth
  simp only [List.append_assoc, List.cons_append]
  obtain ⟨d, rfl⟩ : ∃ d', d = d' + 2 := ⟨d - 2, by omega⟩
  -- The parameters are looked at first, and then taken.
  obtain ⟨_, _, hlook, _⟩ := @Category.reads_head tags d g shapes comma
    { scope with lenient := true } params g₁ hcore h hg hg₁ hline
    hscope (show params.length ≤ scope.bound by omega) (by omega) false n (g₂ ++ (body ++ rest))
  obtain ⟨tree, stop, hhead, hshape⟩ := @Category.reads_head tags d g shapes comma scope params g₁ hcore h hg
    hg₁ hline hscope
    (by omega) (by omega) true n (g₂ ++ (body ++ rest))
  have harrow := (@Cursor.at_arrow scope.bound stop g₁ (g₂ ++ (body ++ rest)) hg₁).1
  obtain ⟨value, stop', hvalue, rfl, _⟩ := @h' (returnScope scope) (d + 1) (stop + g₁.length + 2) g₂ rest
    ⟨rfl, hscope.2⟩ hg₂ hrest
    (by simp only [returnScope]; omega) (by omega) shape List.mem_cons_self
  have hkind : value.kind ≠ .block := by
    have hmem := hbody.kind_mem _ List.mem_cons_self
    rw [kind_shape] at hmem
    intro heq
    rw [heq] at hmem
    exact absurd hmem (by decide)
  have hopen := (@Cursor.at_mark scope.bound n '(' g (params ++ ')' :: (g₁ ++ '=' :: '>' :: (g₂ ++ (body ++ rest)))) hg
    (by decide)).lexeme
  have hnobrace := hbody.not_brace hbrace hg₂ hrest (show body.length ≤ scope.bound by omega) (stop + g₁.length + 2)
  rw [List.append_assoc, ← harrow.next] at hnobrace
  rw [List.append_assoc] at hvalue
  have hfound := arrow?_function hopen hlook hhead harrow.lexeme harrow.sound hnobrace
    (by rw [harrow.next]; exact hvalue) hkind
  refine ⟨_, stop', assignment_arrow (isMark_of_other hopen (by decide)) hscope.1 hfound, ?_, rfl⟩
  simp [Tree.shape, Tree.shapes, hshape]

theorem Category.reads_functionOf {body g₁ g₂ : List Char} (hw : IsWord w) (hname : ValueName (String.ofList w))
    (hbinding : BindingWord (String.ofList w)) (hbody : Core tags .value body [shape]) (hg₁ : IsGap g₁)
    (hline : g₁.any isLineBreak = false) (hg₂ : IsGap g₂) (hbrace : body.head? ≠ some '\x7b')
    (h : Category.value.Reads tags body [shape]) : Category.value.Reads tags (w ++ (g₁ ++ '=' :: '>' :: (g₂ ++ body)))
      [.node .arrow "" [.node .parameters ""
        [.node .parameter "" [.node .identifier (String.ofList w) []]], shape]] := by
  intro scope d n g rest hscope hg hrest hbound hdepth
  replace hrest : ClosesText rest := hrest
  rw [List.forall_mem_singleton]
  simp only [List.length_cons, List.length_append] at hbound hdepth
  simp only [List.append_assoc, List.cons_append]
  obtain ⟨d, rfl⟩ : ∃ d', d = d' + 1 := ⟨d - 1, by omega⟩
  have hat := @Cursor.at_word scope.bound n _ g w (g₁ ++ '=' :: '>' :: (g₂ ++ (body ++ rest))) hg.skips hw
    (hg₁.endsWord (by decide) (by decide) _) (by omega)
  obtain ⟨harrow, hbreak⟩ := @Cursor.at_arrow scope.bound (n + g.length + w.length) g₁ (g₂ ++ (body ++ rest)) hg₁
  obtain ⟨value, stop', hvalue, rfl, _⟩ := @h (returnScope scope) d (n + g.length + w.length + g₁.length + 2) g₂ rest
    ⟨rfl, hscope.2⟩ hg₂ hrest (by simp only [returnScope]; omega) (by omega) shape List.mem_cons_self
  have hnobrace := hbody.not_brace hbrace hg₂ hrest (show body.length ≤ scope.bound by omega)
    (n + g.length + w.length + g₁.length + 2)
  rw [List.append_assoc] at hnobrace hvalue hat
  rw [← hat.next] at harrow hbreak
  obtain ⟨tree, hfound, hshape, hstop⟩ := arrow?_functionOf hat.lexeme hat.sound hname hbinding harrow.lexeme
    harrow.sound (hbreak.trans hline) harrow.next hnobrace hvalue
  exact ⟨tree, stop', assignment_arrow (isMark_of_word hat.lexeme _) hscope.1 hfound, hshape, hstop⟩

/-! ## Entries of lists -/

theorem spreadable_value (hdots : isMark c.token "..." = false) :
    spreadable rs scope c = rs .assignment scope c := by
  simp [spreadable, hdots]

theorem spreadable_dots {value : Tree} (hdots : isMark c.token "..." = true) (hsound : c.token.Sound)
    (hvalue : rs .assignment scope (c.next scope.bound) = some (value, c')) :
    spreadable rs scope c = some (.node .spread ⟨c.token.start, c'.lastStop⟩ "" [value], c') := by
  simp [spreadable, hdots, advance_bind_run hsound, run_bind_of hvalue]

theorem objectProperty_shorthand (hlexeme : c.token.lexeme = .word name false) (hsound : c.token.Sound)
    (hname : ValueName name) (hnext : c.next scope.bound = c') (hcloses : c'.token.Closes)
    (hends : ["=", ",", "\x7d"].any (isMark c'.token) = true) : objectProperty rs scope c =
      some (.node .shorthand ⟨c.token.start, c'.lastStop⟩ "" [.node .identifier ⟨c.token.start, c.token.stop⟩ name []],
        c') := by
  have hkey := @propertyKey_word scope c rs _ hlexeme hsound
  have hcolon : isMark c'.token ":" = false := isMark_of_closes hcloses (by decide)
  have hquestion : isMark c'.token "?" = false := isMark_of_closes hcloses (by decide)
  have hsign : isMark c'.token "=" = false := isMark_of_closes hcloses (by decide)
  have hmethod : atMethod scope c' = some (false, c') := by
    have hbracket : isMark c'.token "(" = false := isMark_of_closes hcloses (by decide)
    have hangle : isMark c'.token "<" = false := isMark_of_closes hcloses (by decide)
    simp [atMethod, hbracket, hangle]
  rw [hnext] at hkey
  have hread : shorthand rs c.token.start (.node .name ⟨c.token.start, c.token.stop⟩ name []) scope c' =
      some (.node .shorthand ⟨c.token.start, c'.lastStop⟩ ""
        [.node .identifier ⟨c.token.start, c.token.stop⟩ name []], c') := by
    simp [shorthand, Tree.name, Tree.span, hname.not_reserved, run_bind_of run_faultIf_false, hsign]
  simp only [objectProperty, position_bind_run, atMark_bind_run, isMark_of_word hlexeme, eatMark_bind_run,
    Bool.false_eq_true, if_false, run_bind_of hkey, hcolon, run_bind_of hmethod, Tree.kind, require_bind_run, BEq.rfl,
    if_true, hquestion, atMarks_bind_run, hends, hread]

theorem Category.reads_element (htext : Core tags .value text [shape]) (h : Category.value.Reads tags text [shape]) :
    (Category.one .element).Reads tags text [shape] := by
  intro scope d n g rest hscope hg hrest hbound hdepth s hs
  have hdots := (htext.startsValue hg hrest hbound n).not_mark (m := "...") (by decide)
  obtain ⟨tree, stop, hread, hshape, hstop⟩ := @h scope d n g rest hscope hg hrest hbound hdepth s hs
  exact ⟨tree, stop, (spreadable_value hdots).trans hread, hshape, hstop⟩

/-- A value behind dots. -/
theorem Category.reads_dots {g₁ : List Char} (hg₁ : IsGap g₁) (h : Category.value.Reads tags text [shape])
    (hscope : scope.Fits tags) (hg : IsGap g) (hrest : ClosesText rest)
    (hbound : text.length ≤ scope.bound) (hdepth : 8 * text.length ≤ d) (n : Nat) :
    ReadsUpTo (spreadable (rules d)) scope (.front scope.bound (g ++ '.' :: '.' :: '.' :: (g₁ ++ (text ++ rest))) n)
      rest (.node .spread "" [shape]) := by
  have hat := @Cursor.at_dots scope.bound n g (g₁ ++ (text ++ rest)) hg
  obtain ⟨value, stop, hvalue, rfl, _⟩ := @h scope d (n + g.length + 3) g₁ rest hscope hg₁ hrest hbound hdepth shape
    List.mem_cons_self
  rw [List.append_assoc, ← hat.next] at hvalue
  exact ⟨_, stop, spreadable_dots (isMark_self hat.lexeme) hat.sound hvalue, rfl, rfl⟩

theorem Category.reads_spread {g₁ : List Char} (hg₁ : IsGap g₁) (h : Category.value.Reads tags text [shape]) :
    (Category.one .element).Reads tags ('.' :: '.' :: '.' :: (g₁ ++ text)) [.node .spread "" [shape]] := by
  intro scope d n g rest hscope hg hrest hbound hdepth
  rw [List.forall_mem_singleton]
  simp only [List.length_cons, List.length_append] at hbound hdepth
  simp only [List.append_assoc, List.cons_append]
  exact Category.reads_dots hg₁ h hscope hg hrest (by omega) (show _ ≤ d by omega) n

theorem Category.reads_memberSpread {g₁ : List Char} (hg₁ : IsGap g₁) (h : Category.value.Reads tags text [shape]) :
    (Category.one .member).Reads tags ('.' :: '.' :: '.' :: (g₁ ++ text)) [.node .spread "" [shape]] := by
  intro scope d n g rest hscope hg hrest hbound hdepth
  rw [List.forall_mem_singleton]
  simp only [List.length_cons, List.length_append] at hbound hdepth
  simp only [List.append_assoc, List.cons_append]
  have hdots := isMark_self (@Cursor.at_dots scope.bound n g (g₁ ++ (text ++ rest)) hg).lexeme
  obtain ⟨tree, stop, hread, hshape, hstop⟩ := Category.reads_dots hg₁ h hscope hg hrest.closes (by omega)
    (show _ ≤ d by omega) n
  refine ⟨tree, stop, ?_, hshape, hstop⟩
  rw [← hread, Entry.rule]
  simp [objectProperty, hdots]

theorem Category.reads_property {key g₁ g₂ : List Char} {keyShape : Shape} (hkey : IsMemberKey key keyShape)
    (hg₁ : IsGap g₁) (hg₂ : IsGap g₂) (h : Category.value.Reads tags text [shape]) :
    (Category.one .member).Reads tags (key ++ (g₁ ++ ':' :: (g₂ ++ text))) [.node .property "" [keyShape, shape]] := by
  intro scope d n g rest hscope hg hrest hbound hdepth
  rw [List.forall_mem_singleton]
  simp only [List.length_cons, List.length_append] at hbound hdepth
  simp only [List.append_assoc, List.cons_append]
  rw [← List.append_assoc]
  have hends := hg₁.endsWord (c := ':') (by decide) (by decide) (g₂ ++ (text ++ rest))
  obtain ⟨keyTree, stop, hread, rfl⟩ := @IsMemberKey.propertyKey g _ key scope keyShape (rules d) hkey hg hends
    (by omega) n
  have hcolon := @Cursor.at_mark scope.bound stop ':' g₁ (g₂ ++ (text ++ rest)) hg₁ (by decide)
  obtain ⟨value, stop', hvalue, rfl, _⟩ := @h scope d (stop + g₁.length + 1) g₂ rest hscope hg₂ hrest.closes
    (by omega) (by omega) shape List.mem_cons_self
  rw [List.append_assoc, ← hcolon.next] at hvalue
  have hmark := hkey.not_mark hg hends (show key.length ≤ scope.bound by omega) n
  exact ⟨_, stop', objectProperty_keyed (hmark _) (hmark _) hread (isMark_self hcolon.lexeme) hcolon.sound hvalue, rfl,
    rfl⟩

theorem Category.reads_shorthand (hw : IsWord w) (hname : ValueName (String.ofList w)) :
    (Category.one .member).Reads tags w
    [.node .shorthand "" [.node .identifier (String.ofList w) []]] := by
  intro scope d n g rest _ hg hrest hbound _
  rw [List.forall_mem_singleton]
  have hat := @Cursor.at_word scope.bound n _ g w rest hg.skips hw hrest.closes.endsWord hbound
  have hcloses := hrest.closes.closes scope.bound (n + g.length + w.length)
  have hends : ["=", ",", "\x7d"].any (isMark (Cursor.front scope.bound rest (n + g.length + w.length)).token) =
      true := by
    obtain ⟨g', close, k, hg', hclose, rfl⟩ := hrest
    have hmarks : ∀ d ∈ [',', '\x7d'], d ∈ loneMarks ∧ String.ofList [d] ∈ ["=", ",", "\x7d"] := by decide
    exact List.any_eq_true.mpr
      ⟨_, (hmarks close hclose).2, isMark_self (Cursor.at_mark hg' (hmarks close hclose).1).lexeme⟩
  exact ⟨_, _, objectProperty_shorthand hat.lexeme hat.sound hname hat.next hcloses hends, rfl, rfl⟩

theorem plainParameter_name (hlexeme : c.token.lexeme = .word name false) (hsound : c.token.Sound)
    (hbinding : BindingWord name) (hnext : c.next scope.bound = c') (hcloses : c'.token.Closes) (d : Nat) :
    plainParameter (rules (d + 1)) [] scope c = some (.node .parameter ⟨c.token.start, c'.lastStop⟩ ""
      [.node .identifier ⟨c.token.start, c.token.stop⟩ name []], c') := by
  have hplain : ∀ m, m ∉ [",", ";", ")", "]", "\x7d"] → isMark c'.token m = false := fun m hm =>
    isMark_of_closes hcloses hm
  have hname : isName c'.token = false := by
    obtain ⟨m, _, hmark⟩ := hcloses
    rw [isName, hmark]
  have hpattern : rules (d + 1) .pattern scope c =
      some (.node .identifier ⟨c.token.start, c.token.stop⟩ name [], c') := by
    rw [← hnext, ← bindingName_word hlexeme hsound hbinding]
    show pattern (rules d) scope c = _
    simp [pattern, isMark_of_word hlexeme]
  have hbracket := hplain "[" (by decide)
  have hbrace := hplain "\x7b" (by decide)
  have hsign := hplain "=" (by decide)
  have hquestion := hplain "?" (by decide)
  have hcolon := hplain ":" (by decide)
  have hannotation : annotation? (rules (d + 1)) scope c' = some ([], c') := by
    simp [annotation?, hcolon]
  have hdefault : ∀ optional, parameterDefault? (rules (d + 1)) optional scope c' = some ([], c') := by
    intro optional
    simp [parameterDefault?, hsign]
  cases htyped : scope.features.types with
  | false => simp [plainParameter, htyped, run_bind_of hpattern, run_bind_of (hdefault _)]
  | true =>
      simp [plainParameter, htyped, hnext, hname, hbrace, hbracket, run_bind_of hpattern, hquestion,
        run_bind_of hannotation, run_bind_of (hdefault _)]

theorem Category.reads_parameter (hw : IsWord w) (hbinding : BindingWord (String.ofList w)) :
    (Category.one .parameter).Reads tags w
    [.node .parameter "" [.node .identifier (String.ofList w) []]] := by
  intro scope d n g rest _ hg hrest hbound hdepth
  replace hrest : ClosesText rest := hrest
  rw [List.forall_mem_singleton]
  have hpos : 0 < w.length := by
    obtain ⟨c, tail, rfl, _⟩ := hw
    exact Nat.succ_pos _
  obtain ⟨d, rfl⟩ : ∃ d', d = d' + 1 := ⟨d - 1, by omega⟩
  have hat := @Cursor.at_word scope.bound n _ g w rest hg.skips hw hrest.endsWord hbound
  have hcloses := hrest.closes scope.bound (n + g.length + w.length)
  exact ⟨_, _, plainParameter_name hat.lexeme hat.sound hbinding hat.next hcloses d, rfl, rfl⟩

/-! ## Lists -/

theorem Category.reads_nil (hg : IsGap g) (entry : Entry) : (Category.list entry false).Reads tags g [] := by
  intro scope d n rest close hclose _ _ _
  have hat := @Cursor.at_mark scope.bound n close g rest hg (mem_loneMarks_of_close (mem_closers hclose))
  exact ⟨[], g, n, .nil (isMark_self hat.lexeme), hg, Nat.zero_le _, rfl, rfl⟩

theorem Category.reads_last {g' : List Char} (hg : IsGap g) (hg' : IsGap g')
    (htext : Core tags (.one entry) text [shape]) (h : (Category.one entry).Reads tags text [shape]) :
    (Category.list entry false).Reads tags (g ++ (text ++ g')) [shape] := by
  intro scope d n rest close hclose hscope hbound hdepth
  simp only [List.length_append] at hbound hdepth
  simp only [List.append_assoc]
  rw [← List.append_assoc]
  have hends := ends_close hg' hclose rest
  obtain ⟨tree, stop, hread, rfl, hstop⟩ := @h scope d n g (g' ++ close :: rest) hscope hg hends (by omega) (by omega)
    shape List.mem_cons_self
  have hat := @Cursor.at_mark scope.bound stop close g' rest hg' (mem_loneMarks_of_close (mem_closers hclose))
  have hpos := htext.length_pos rfl
  refine ⟨[tree], g', stop, .last (htext.startsEntry hg hends.closes (by omega) n) hread (isMark_self hat.lexeme), hg',
    ?_, rfl, ?_⟩
  · simp only [List.length_append, List.length_singleton]
    omega
  · simp [literalName, hstop, commaName]

theorem Category.reads_cons {g' tail : List Char} (hg : IsGap g) (hg' : IsGap g')
    (htext : Core tags (.one entry) text [shape]) (h : (Category.one entry).Reads tags text [shape])
    (h' : (Category.list entry comma).Reads tags tail shapes) :
    (Category.list entry (shapes.isEmpty || comma)).Reads tags (g ++ (text ++ (g' ++ ',' :: tail)))
      (shape :: shapes) := by
  intro scope d n rest close hclose hscope hbound hdepth
  simp only [List.length_append, List.length_cons] at hbound hdepth
  simp only [List.append_assoc, List.cons_append]
  rw [← List.append_assoc]
  have hends := ends_comma hg' entry (tail ++ close :: rest)
  obtain ⟨tree, stop, hread, rfl, hstop⟩ := @h scope d n g (g' ++ ',' :: (tail ++ close :: rest)) hscope hg hends
    (by omega) (by omega) shape List.mem_cons_self
  have hat := @Cursor.at_mark scope.bound stop ',' g' (tail ++ close :: rest) hg' (by decide)
  obtain ⟨es, g'', stop', hes, hg'', hcount, rfl, hcomma⟩ := @h' scope d (stop + g'.length + 1) rest close hclose hscope
    (by omega) (by omega)
  rw [← hat.next] at hes
  refine ⟨tree :: es, g'', stop', .cons (htext.startsEntry hg hends.closes (by omega) n) hread (isMark_self hat.lexeme)
    hat.sound hes, hg'', ?_, rfl, ?_⟩
  · simp only [List.length_append, List.length_cons]
    omega
  · match es with
    | [] =>
        -- Behind the last entry a comma stands, so the list ends behind the entry.
        have hbehind : stop' = stop + g'.length + 1 := by
          have heq := congrArg Cursor.lastStop hes.of_nil
          rw [hat.next] at heq
          exact heq
        have hkind : tree.kind ≠ .hole := by
          have hmem := htext.kind_mem _ List.mem_cons_self
          rw [kind_shape] at hmem
          intro heq
          rw [heq] at hmem
          exact absurd hmem (by decide)
        have hapart : tree.span.stop ≠ stop' := by omega
        simp [literalName, hkind, hapart, Tree.shapes, commaName]
    | e :: es => simpa [literalName, Tree.shapes] using hcomma

end Script
end StoryDocs
