import StoryDocs.Proofs.Script.Exports
import StoryDocs.Proofs.Script.Shape
import StoryDocs.Proofs.Script.Values

/-!
# The core of the script syntax

Names, literals, arrays, objects, functions that return an expression, members, calls and tags: a syntax of texts
with their trees, which mentions no reader.  A text of a class stands where the class is asked for whatever is around
it, and blanks may stand between any two of its tokens.  A value is no name that typed scripts can take for the
modifier of a parameter.  Tags are part of some dialects only.  The text between them and the strings of their
attributes stay on one line, because their blanks are part of the tree.

* `Core` is the syntax of expressions and of their parts.
* `Core.kind_mem` and `Core.hasLooseDefault` say what such a text is never read as.
-/

namespace StoryDocs
namespace Script

open Text Grammar

/-! ## Tokens -/

/-- Decimal digits without a needless zero in front. -/
inductive IsWhole : List Char → Prop
  | zero : IsWhole ['0']
  | digits {d : Char} {tail : List Char} (hd : d.isDigit = true) (hzero : d ≠ '0')
      (htail : tail.all Char.isDigit = true) : IsWhole (d :: tail)

/-- A number in decimal digits, perhaps with a fraction. -/
inductive IsNumber : List Char → Prop
  | whole {w : List Char} (hw : IsWhole w) : IsNumber w
  | fraction {w tail : List Char} (hw : IsWhole w) (hne : tail ≠ []) (htail : tail.all Char.isDigit = true) :
      IsNumber (w ++ '.' :: tail)

/-- The key of a member, with its shape. -/
inductive IsMemberKey : List Char → Shape → Prop
  | word {w : List Char} (hw : IsWord w) : IsMemberKey w (.node .name (String.ofList w) [])
  | string {quote : Char} (hquote : IsQuote quote) (v : List Char) :
      IsMemberKey (written quote v) (.node .string (String.ofList v) [])

/-- A gap that sets two words apart. -/
structure IsSpace (g : List Char) : Prop where
  gap : IsGap g
  ne_nil : g ≠ []

/-- A word in a tag, which may hold hyphens. -/
inductive IsTagWord : List Char → Prop
  | mk {c : Char} {tail : List Char} (hstart : isIdentifierStart c = true)
      (htail : ∀ d ∈ tail, isIdentifierPart d = true ∨ d = '-') : IsTagWord (c :: tail)

/-- The name of a tag: words with points between them. -/
inductive IsTagName : List Char → Prop
  | word {w : List Char} (hw : IsTagWord w) : IsTagName w
  | member {w rest : List Char} (hw : IsTagWord w) (hrest : IsTagName rest) : IsTagName (w ++ '.' :: rest)

/-- The text between tags: no character of it starts a tag or an expression, or ends one. -/
structure IsTagText (t : List Char) : Prop where
  ne_nil : t ≠ []
  plain : ∀ c ∈ t, c ∉ ['<', '>', '\x7b', '\x7d', '\n']

/-- The text of an attribute between its quotes. -/
structure IsTagString (quote : Char) (v : List Char) : Prop where
  isQuote : IsQuote quote
  plain : ∀ c ∈ v, c ≠ quote ∧ c ≠ '\n'

/-! ## Shapes -/

/-- What a step makes of its base: the base is its first part. -/
def Shape.behind (base : Shape) : Shape → Shape
  | .node kind name parts => .node kind name (base :: parts)

/-- Values with commas between them: one alone is itself. -/
def Shape.joined : List Shape → Shape
  | [s] => s
  | ss => .node .sequence "" ss

/-- The name of a literal whose last part has a comma behind it, or none. -/
def commaName (comma : Bool) : String :=
  if comma then "," else ""

/-! ## The syntax -/

/-- The classes of texts that stand in a list. -/
inductive Entry where
  | value
  /-- An element of an array or an argument. -/
  | element
  /-- A member of an object. -/
  | member
  | parameter

/-- The classes of texts. -/
inductive Category where
  /-- An operand without the steps behind it. -/
  | primary
  /-- Members, indexes and calls behind a base; their shapes lack it. -/
  | steps
  /-- A tag with what stands up to its closing one. -/
  | tag
  /-- The attributes of a tag, with a gap in front of each. -/
  | attributes
  /-- What stands between a tag and its closing one. -/
  | children
  | one (entry : Entry)
  /-- Entries with commas between them; the flag tells whether one stands behind the last. -/
  | list (entry : Entry) (comma : Bool)

/-- The texts of values. -/
abbrev Category.value : Category := .one .value

/-- The texts of a class, with their shapes, in dialects that have tags or not. -/
inductive Core (tags : Bool) : Category → List Char → List Shape → Prop
  | name {w : List Char} (hw : IsWord w) (hname : ValueName (String.ofList w))
      (hmodifier : String.ofList w ≠ "readonly") : Core tags .primary w [.node .identifier (String.ofList w) []]
  | literal {w : List Char} {kind : Kind} {value : String} (hw : IsWord w)
      (hmem : (String.ofList w, kind, value) ∈ literalWords) : Core tags .primary w [.node kind value []]
  | string {quote : Char} (hquote : IsQuote quote) (v : List Char) :
      Core tags .primary (written quote v) [.node .string (String.ofList v) []]
  | paren {inner : List Char} {shapes : List Shape} (hinner : Core tags (.list .value false) inner shapes)
      (hne : shapes ≠ []) : Core tags .primary ('(' :: (inner ++ [')'])) [.node .paren "" [Shape.joined shapes]]
  | array {comma : Bool} {inner : List Char} {shapes : List Shape}
      (hinner : Core tags (.list .element comma) inner shapes) :
      Core tags .primary ('[' :: (inner ++ [']'])) [.node .array (commaName comma) shapes]
  | object {comma : Bool} {inner : List Char} {shapes : List Shape}
      (hinner : Core tags (.list .member comma) inner shapes) :
      Core tags .primary ('\x7b' :: (inner ++ ['\x7d'])) [.node .object (commaName comma) shapes]
  | nothing : Core tags .steps [] []
  | memberStep {g g' w rest : List Char} {steps : List Shape} (hg : IsGap g)
      (hg' : IsGap g') (hw : IsWord w) (hrest : Core tags .steps rest steps) :
      Core tags .steps (g ++ '.' :: (g' ++ (w ++ rest)))
        (.node .member "." [.node .name (String.ofList w) []] :: steps)
  | indexStep {g g₁ g₂ text rest : List Char} {shape : Shape} {steps : List Shape} (hg : IsGap g)
      (hg₁ : IsGap g₁) (htext : Core tags .value text [shape]) (hg₂ : IsGap g₂)
      (hrest : Core tags .steps rest steps) :
      Core tags .steps (g ++ '[' :: (g₁ ++ (text ++ (g₂ ++ ']' :: rest)))) (.node .index "[]" [shape] :: steps)
  | callStep {comma : Bool} {g inner rest : List Char} {shapes steps : List Shape} (hg : IsGap g)
      (hinner : Core tags (.list .element comma) inner shapes) (hrest : Core tags .steps rest steps) :
      Core tags .steps (g ++ '(' :: (inner ++ ')' :: rest)) (.node .call "()" [.node .group "" shapes] :: steps)
  | operand {text rest : List Char} {base : Shape} {steps : List Shape} (htext : Core tags .primary text [base])
      (hrest : Core tags .steps rest steps) :
      Core tags .value (text ++ rest) [steps.foldl Shape.behind base]
  | number {w : List Char} (hw : IsNumber w) : Core tags .value w [.node .number (String.ofList w) []]
  | function {comma : Bool} {params g g' body : List Char} {shapes : List Shape} {shape : Shape}
      (hparams : Core tags (.list .parameter comma) params shapes) (hdistinct : shapes.Nodup) (hg : IsGap g)
      (hline : g.any isLineBreak = false) (hg' : IsGap g') (hbody : Core tags .value body [shape])
      (hbrace : body.head? ≠ some '\x7b') :
      Core tags .value ('(' :: (params ++ ')' :: (g ++ '=' :: '>' :: (g' ++ body))))
        [.node .arrow "" [.node .parameters "" shapes, shape]]
  | functionOf {w g g' body : List Char} {shape : Shape} (hw : IsWord w) (hname : ValueName (String.ofList w))
      (hmodifier : String.ofList w ≠ "readonly") (hbinding : BindingWord (String.ofList w)) (hg : IsGap g)
      (hline : g.any isLineBreak = false) (hg' : IsGap g') (hbody : Core tags .value body [shape])
      (hbrace : body.head? ≠ some '\x7b') :
      Core tags .value (w ++ (g ++ '=' :: '>' :: (g' ++ body)))
        [.node .arrow "" [.node .parameters "" [.node .parameter "" [.node .identifier (String.ofList w) []]],
          shape]]
  | tagged {text : List Char} {shape : Shape} (htags : tags = true) (htext : Core tags .tag text [shape]) :
      Core tags .value text [shape]
  | lone {w attributes g : List Char} {shapes : List Shape} (hw : IsTagName w)
      (hattributes : Core tags .attributes attributes shapes) (hg : IsGap g) :
      Core tags .tag ('<' :: (w ++ (attributes ++ (g ++ ['/', '>'])))) [.node .tag (String.ofList w) shapes]
  | pair {w attributes g inner g' : List Char} {shapes parts : List Shape} (hw : IsTagName w)
      (hattributes : Core tags .attributes attributes shapes) (hg : IsGap g) (hinner : Core tags .children inner parts)
      (hg' : IsGap g') :
      Core tags .tag ('<' :: (w ++ (attributes ++ (g ++ '>' :: (inner ++ '<' :: '/' :: (w ++ (g' ++ ['>'])))))))
        [.node .tag (String.ofList w) (shapes ++ parts)]
  | fragment {inner : List Char} {parts : List Shape} (hinner : Core tags .children inner parts) :
      Core tags .tag ('<' :: '>' :: (inner ++ ['<', '/', '>'])) [.node .fragment "" parts]
  | noAttributes : Core tags .attributes [] []
  | flagAttribute {g w rest : List Char} {shapes : List Shape} (hg : IsSpace g) (hw : IsTagWord w)
      (hrest : Core tags .attributes rest shapes) :
      Core tags .attributes (g ++ (w ++ rest)) (.node .tagAttribute (String.ofList w) [] :: shapes)
  | textAttribute {quote : Char} {g w v rest : List Char} {shapes : List Shape} (hg : IsSpace g) (hw : IsTagWord w)
      (hv : IsTagString quote v) (hrest : Core tags .attributes rest shapes) :
      Core tags .attributes (g ++ (w ++ '=' :: quote :: (v ++ quote :: rest)))
        (.node .tagAttribute (String.ofList w) [.node .tagText (String.ofList v) []] :: shapes)
  | valueAttribute {g w g₁ text g₂ rest : List Char} {shape : Shape} {shapes : List Shape} (hg : IsSpace g)
      (hw : IsTagWord w) (hg₁ : IsGap g₁) (htext : Core tags .value text [shape]) (hg₂ : IsGap g₂)
      (hrest : Core tags .attributes rest shapes) :
      Core tags .attributes (g ++ (w ++ '=' :: '\x7b' :: (g₁ ++ (text ++ (g₂ ++ '\x7d' :: rest)))))
        (.node .tagAttribute (String.ofList w) [.node .tagExpression "" [shape]] :: shapes)
  | spreadAttribute {g g₀ g₁ text g₂ rest : List Char} {shape : Shape} {shapes : List Shape} (hg : IsSpace g)
      (hg₀ : IsGap g₀) (hg₁ : IsGap g₁) (htext : Core tags .value text [shape]) (hg₂ : IsGap g₂)
      (hrest : Core tags .attributes rest shapes) :
      Core tags .attributes (g ++ '\x7b' :: (g₀ ++ '.' :: '.' :: '.' :: (g₁ ++ (text ++ (g₂ ++ '\x7d' :: rest)))))
        (.node .tagSpread "" [shape] :: shapes)
  | noChildren : Core tags .children [] []
  | textChild {t rest : List Char} {shapes : List Shape} (ht : IsTagText t) (hrest : Core tags .children rest shapes)
      (hends : ∀ c ∈ rest.head?, c = '<' ∨ c = '\x7b') :
      Core tags .children (t ++ rest) (.node .tagText (String.ofList t) [] :: shapes)
  | valueChild {g text g' rest : List Char} {shape : Shape} {shapes : List Shape} (hg : IsGap g)
      (htext : Core tags .value text [shape]) (hg' : IsGap g') (hrest : Core tags .children rest shapes) :
      Core tags .children ('\x7b' :: (g ++ (text ++ (g' ++ '\x7d' :: rest))))
        (.node .tagExpression "" [shape] :: shapes)
  | commentChild {g rest : List Char} {shapes : List Shape} (hg : IsGap g) (hrest : Core tags .children rest shapes) :
      Core tags .children ('\x7b' :: (g ++ '\x7d' :: rest)) (.node .tagExpression "" [] :: shapes)
  | tagChild {text rest : List Char} {shape : Shape} {shapes : List Shape} (htext : Core tags .tag text [shape])
      (hrest : Core tags .children rest shapes) : Core tags .children (text ++ rest) (shape :: shapes)
  | element {text : List Char} {shape : Shape} (htext : Core tags .value text [shape]) :
    Core tags (.one .element) text [shape]
  | spread {g text : List Char} {shape : Shape} (hg : IsGap g) (htext : Core tags .value text [shape]) :
      Core tags (.one .element) ('.' :: '.' :: '.' :: (g ++ text)) [.node .spread "" [shape]]
  | property {key g g' text : List Char} {keyShape shape : Shape} (hkey : IsMemberKey key keyShape)
      (hg : IsGap g) (hg' : IsGap g') (htext : Core tags .value text [shape]) :
      Core tags (.one .member) (key ++ (g ++ ':' :: (g' ++ text))) [.node .property "" [keyShape, shape]]
  | shorthand {w : List Char} (hw : IsWord w) (hname : ValueName (String.ofList w)) :
      Core tags (.one .member) w [.node .shorthand "" [.node .identifier (String.ofList w) []]]
  | memberSpread {g text : List Char} {shape : Shape} (hg : IsGap g)
      (htext : Core tags .value text [shape]) :
      Core tags (.one .member) ('.' :: '.' :: '.' :: (g ++ text)) [.node .spread "" [shape]]
  | parameter {w : List Char} (hw : IsWord w) (hbinding : BindingWord (String.ofList w)) :
      Core tags (.one .parameter) w [.node .parameter "" [.node .identifier (String.ofList w) []]]
  | nil {entry : Entry} {g : List Char} (hg : IsGap g) : Core tags (.list entry false) g []
  | last {entry : Entry} {g g' text : List Char} {shape : Shape} (hg : IsGap g)
      (htext : Core tags (.one entry) text [shape]) (hg' : IsGap g') :
      Core tags (.list entry false) (g ++ (text ++ g')) [shape]
  | cons {entry : Entry} {comma : Bool} {g g' text rest : List Char} {shape : Shape} {shapes : List Shape}
      (hg : IsGap g) (htext : Core tags (.one entry) text [shape]) (hg' : IsGap g')
      (hrest : Core tags (.list entry comma) rest shapes) :
      Core tags (.list entry (shapes.isEmpty || comma)) (g ++ (text ++ (g' ++ ',' :: rest))) (shape :: shapes)

variable {tags : Bool} {category : Category} {comma : Bool} {text : List Char} {shape : Shape}
  {shapes steps : List Shape}

/-! ## Shapes of the syntax -/

theorem joined_cases (shapes : List Shape) :
    (∃ s, shapes = [s] ∧ Shape.joined shapes = s) ∨ Shape.joined shapes = .node .sequence "" shapes := by
  match shapes with
  | [] => exact .inr rfl
  | [s] => exact .inl ⟨s, rfl, rfl⟩
  | _ :: _ :: _ => exact .inr rfl

/-- The kinds of the syntax. -/
def coreKinds : List Kind :=
  [.identifier, .boolean, .nullLiteral, .string, .number, .paren, .array, .object, .member, .index, .call, .arrow,
    .spread, .property, .shorthand, .parameter, .tag, .fragment, .tagText, .tagExpression, .tagAttribute, .tagSpread]

theorem kind_behind (base step : Shape) : (base.behind step).kind = step.kind := by
  cases step
  rfl

/-- What holds of a base and of what each step makes holds of the whole operand. -/
theorem foldl_behind_induction {motive : Shape → Prop} {base : Shape} (hbase : motive base)
    (hsteps : ∀ step ∈ steps, ∀ base, motive base → motive (base.behind step)) :
    motive (steps.foldl Shape.behind base) := by
  induction steps generalizing base with
  | nil => exact hbase
  | cons step steps ih =>
      rw [List.forall_mem_cons] at hsteps
      exact ih (hsteps.1 base hbase) hsteps.2

theorem Core.kind_mem (h : Core tags category text shapes) : ∀ s ∈ shapes, s.kind ∈ coreKinds := by
  induction h with
  | literal hw hmem =>
      have hkinds : ∀ entry ∈ literalWords, entry.2.1 ∈ coreKinds := by decide
      exact List.forall_mem_singleton.mpr (hkinds _ hmem)
  | nothing => exact List.forall_mem_nil _
  | memberStep _ _ _ _ ih => exact List.forall_mem_cons.mpr ⟨by simp [Shape.kind, coreKinds], ih⟩
  | indexStep _ _ _ _ _ _ ih => exact List.forall_mem_cons.mpr ⟨by simp [Shape.kind, coreKinds], ih⟩
  | callStep _ _ _ _ ih => exact List.forall_mem_cons.mpr ⟨by simp [Shape.kind, coreKinds], ih⟩
  | operand _ _ hbase hsteps =>
      rw [List.forall_mem_singleton] at hbase ⊢
      refine foldl_behind_induction (motive := fun s => s.kind ∈ coreKinds) hbase fun step hstep base _ => ?_
      rw [kind_behind]
      exact hsteps step hstep
  | tagged _ _ ih => exact ih
  | noAttributes | noChildren => exact List.forall_mem_nil _
  | flagAttribute _ _ _ ih => exact List.forall_mem_cons.mpr ⟨by simp [Shape.kind, coreKinds], ih⟩
  | textAttribute _ _ _ _ ih => exact List.forall_mem_cons.mpr ⟨by simp [Shape.kind, coreKinds], ih⟩
  | valueAttribute _ _ _ _ _ _ _ ih => exact List.forall_mem_cons.mpr ⟨by simp [Shape.kind, coreKinds], ih⟩
  | spreadAttribute _ _ _ _ _ _ _ ih => exact List.forall_mem_cons.mpr ⟨by simp [Shape.kind, coreKinds], ih⟩
  | textChild _ _ _ ih => exact List.forall_mem_cons.mpr ⟨by simp [Shape.kind, coreKinds], ih⟩
  | valueChild _ _ _ _ _ ih => exact List.forall_mem_cons.mpr ⟨by simp [Shape.kind, coreKinds], ih⟩
  | commentChild _ _ ih => exact List.forall_mem_cons.mpr ⟨by simp [Shape.kind, coreKinds], ih⟩
  | tagChild _ _ ih ih' =>
      rw [List.forall_mem_singleton] at ih
      exact List.forall_mem_cons.mpr ⟨ih, ih'⟩
  | element _ ih => exact ih
  | nil => exact List.forall_mem_nil _
  | last _ _ _ ih => exact ih
  | cons _ _ _ _ ih ih' =>
      rw [List.forall_mem_singleton] at ih
      exact List.forall_mem_cons.mpr ⟨ih, ih'⟩
  | _ => exact List.forall_mem_singleton.mpr (by simp [Shape.kind, coreKinds])

theorem haveLooseDefault_eq_false :
    Shape.haveLooseDefault shapes = false ↔ ∀ s ∈ shapes, s.hasLooseDefault = false := by
  induction shapes with
  | nil => simp [Shape.haveLooseDefault]
  | cons s ss ih => simp [Shape.haveLooseDefault, ih]

theorem hasLooseDefault_joined (h : ∀ s ∈ shapes, s.hasLooseDefault = false) :
    (Shape.joined shapes).hasLooseDefault = false := by
  rcases joined_cases shapes with ⟨s, rfl, hs⟩ | hs
  · rw [hs]
    exact h s List.mem_cons_self
  · rw [hs]
    exact haveLooseDefault_eq_false.mpr h

theorem hasLooseDefault_behind {base step : Shape} (hbase : base.hasLooseDefault = false)
    (hstep : step.hasLooseDefault = false) : (base.behind step).hasLooseDefault = false := by
  obtain ⟨kind, name, parts⟩ := step
  cases kind <;>
    simp_all only [Shape.behind, Shape.hasLooseDefault, Shape.haveLooseDefault, Bool.or_false]

/-- No text of the syntax is read as an object with a default that only a pattern may have. -/
theorem Core.hasLooseDefault (h : Core tags category text shapes) : ∀ s ∈ shapes, s.hasLooseDefault = false := by
  induction h with
  | literal hw hmem =>
      have hwords : ∀ entry ∈ literalWords, (Shape.node entry.2.1 entry.2.2 []).hasLooseDefault = false := by decide
      exact List.forall_mem_singleton.mpr (hwords _ hmem)
  | paren _ _ ih =>
      exact List.forall_mem_singleton.mpr (by
        simp [Shape.hasLooseDefault, Shape.haveLooseDefault, hasLooseDefault_joined ih])
  | array _ ih => exact List.forall_mem_singleton.mpr (haveLooseDefault_eq_false.mpr ih)
  | object _ ih => exact List.forall_mem_singleton.mpr (haveLooseDefault_eq_false.mpr ih)
  | nothing => exact List.forall_mem_nil _
  | memberStep _ _ _ _ ih => exact List.forall_mem_cons.mpr ⟨rfl, ih⟩
  | indexStep _ _ _ _ _ ih ih' =>
      exact List.forall_mem_cons.mpr ⟨haveLooseDefault_eq_false.mpr ih, ih'⟩
  | callStep _ _ _ ih ih' =>
      refine List.forall_mem_cons.mpr ⟨?_, ih'⟩
      simp [Shape.hasLooseDefault, Shape.haveLooseDefault, haveLooseDefault_eq_false.mpr ih]
  | @operand text rest base steps _ hrest hbase hsteps =>
      rw [List.forall_mem_singleton] at hbase ⊢
      exact foldl_behind_induction (motive := fun s => s.hasLooseDefault = false) hbase fun step hstep _ hbase =>
        hasLooseDefault_behind hbase (hsteps step hstep)
  | tagged _ _ ih => exact ih
  | lone _ _ _ ih => exact List.forall_mem_singleton.mpr (haveLooseDefault_eq_false.mpr ih)
  | pair _ _ _ _ _ ih ih' =>
      exact List.forall_mem_singleton.mpr (haveLooseDefault_eq_false.mpr (List.forall_mem_append.mpr ⟨ih, ih'⟩))
  | fragment _ ih => exact List.forall_mem_singleton.mpr (haveLooseDefault_eq_false.mpr ih)
  | noAttributes | noChildren => exact List.forall_mem_nil _
  | flagAttribute _ _ _ ih => exact List.forall_mem_cons.mpr ⟨rfl, ih⟩
  | textAttribute _ _ _ _ ih => exact List.forall_mem_cons.mpr ⟨rfl, ih⟩
  | valueAttribute _ _ _ _ _ _ ih ih' =>
      rw [List.forall_mem_singleton] at ih
      refine List.forall_mem_cons.mpr ⟨?_, ih'⟩
      simp [Shape.hasLooseDefault, Shape.haveLooseDefault, ih]
  | spreadAttribute _ _ _ _ _ _ ih ih' => exact List.forall_mem_cons.mpr ⟨haveLooseDefault_eq_false.mpr ih, ih'⟩
  | textChild _ _ _ ih => exact List.forall_mem_cons.mpr ⟨rfl, ih⟩
  | valueChild _ _ _ _ ih ih' => exact List.forall_mem_cons.mpr ⟨haveLooseDefault_eq_false.mpr ih, ih'⟩
  | commentChild _ _ ih => exact List.forall_mem_cons.mpr ⟨rfl, ih⟩
  | tagChild _ _ ih ih' =>
      rw [List.forall_mem_singleton] at ih
      exact List.forall_mem_cons.mpr ⟨ih, ih'⟩
  | element _ ih => exact ih
  | nil => exact List.forall_mem_nil _
  | last _ _ _ ih => exact ih
  | cons _ _ _ _ ih ih' =>
      rw [List.forall_mem_singleton] at ih
      exact List.forall_mem_cons.mpr ⟨ih, ih'⟩
  | property hkey _ _ _ ih =>
      cases hkey <;> exact List.forall_mem_singleton.mpr
        (haveLooseDefault_eq_false.mpr (List.forall_mem_cons.mpr ⟨rfl, ih⟩))
  | spread _ _ ih => exact List.forall_mem_singleton.mpr (haveLooseDefault_eq_false.mpr ih)
  | memberSpread _ _ ih => exact List.forall_mem_singleton.mpr (haveLooseDefault_eq_false.mpr ih)
  | _ => exact List.forall_mem_singleton.mpr rfl

/-! ## Lists of one entry -/

variable {entry : Entry} {g : List Char}

/-- An operand without steps is a value. -/
theorem Core.alone (h : Core tags .primary text [shape]) : Core tags .value text [shape] := by
  rw [← List.append_nil text]
  exact .operand h .nothing

theorem Core.single (h : Core tags (.one entry) text [shape]) : Core tags (.list entry false) text [shape] := by
  have hlist := Core.last .nil h .nil
  simpa using hlist

/-- A list of one entry is the entry between gaps. -/
theorem Core.exists_entry (h : Core tags (.list entry false) text [shape]) :
    ∃ g body g', text = g ++ (body ++ g') ∧ IsGap g ∧ IsGap g' ∧ Core tags (.one entry) body [shape] := by
  generalize hshapes : [shape] = shapes at h
  generalize hcomma : false = comma at h
  cases h with
  | nil => cases hshapes
  | last hg htext hg' =>
      cases hshapes
      exact ⟨_, _, _, rfl, hg, hg', htext⟩
  | cons =>
      obtain ⟨-, rfl⟩ := List.cons.inj hshapes
      cases hcomma

/-! ## Gaps around lists -/

theorem Core.gap_front (h : Core tags (.list entry comma) text shapes) (hg : IsGap g) :
    Core tags (.list entry comma) (g ++ text) shapes := by
  cases h with
  | nil hg' => exact .nil (hg.append hg')
  | last hg' htext hbehind =>
      rw [← List.append_assoc]
      exact .last (hg.append hg') htext hbehind
  | cons hg' htext hbehind hrest =>
      rw [← List.append_assoc]
      exact .cons (hg.append hg') htext hbehind hrest

theorem Core.gap_behind {category : Category} (h : Core tags category text shapes) (hg : IsGap g) :
    ∀ entry comma, category = .list entry comma → Core tags (.list entry comma) (text ++ g) shapes := by
  induction h with
  | nil hg' =>
      rintro _ _ ⟨⟩
      exact .nil (hg'.append hg)
  | last hg' htext hbehind =>
      rintro _ _ ⟨⟩
      simp only [List.append_assoc]
      exact .last hg' htext (hbehind.append hg)
  | cons hg' htext hbehind _ _ ih =>
      rintro _ _ ⟨⟩
      simp only [List.append_assoc, List.cons_append]
      exact .cons hg' htext hbehind (ih _ _ rfl)
  | _ => exact nofun

end Script
end StoryDocs
