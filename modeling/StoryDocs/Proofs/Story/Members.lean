import StoryDocs.Proofs.Script.Items
import StoryDocs.Proofs.Script.Values
import StoryDocs.Proofs.Story.Templates

/-!
# Members of synthesized objects

An object literal that is put together from texts is read member by member if each text stands in its
place: the grammar reads a value up to the comma behind it and not beyond.  Then the exports of an object
literal have one member for each property, in order.
-/

namespace StoryDocs
namespace Synthesis

open Text Script Grammar

variable {features : Features} {bound depth n : Nat} {l g lead name p rest s t text : List Char}
  {ls ps : List (List Char)} {shape : Shape} {shapes : List Shape}

/-! ## Values behind a lead -/

/-- A value as it stands behind the lead of its property. -/
def hanging (t : List Char) : List Char :=
  match lines t with
  | [] => []
  | l :: ls => unlines (l :: ls.map fun l => if l.isEmpty then [] else indent ++ l)

theorem lines_append (hlines : lines t = l :: ls) (hl : l ≠ []) (hlead : '\n' ∉ lead) :
    lines (lead ++ t) = (lead ++ l) :: ls := by
  obtain ⟨first, more, hpieces⟩ := exists_pieces_cons t
  have hwhole : pieces lead = [] ++ [lead] := pieces_of_not_mem hlead
  have happend : pieces (lead ++ t) = (lead ++ first) :: more := pieces_append hwhole hpieces
  rw [lines, hpieces] at hlines
  rw [lines, happend]
  cases more with
  | nil =>
      rw [terminated] at hlines
      split at hlines
      · cases hlines
      · rename_i hfirst
        obtain ⟨rfl, rfl⟩ := List.cons.inj hlines
        simp [terminated, hl]
  | cons m more =>
      rw [terminated] at hlines
      · obtain ⟨rfl, rfl⟩ := List.cons.inj hlines
        have hfirst : first ≠ [] := by
          rintro rfl
          exact hl rfl
        rw [terminated, dropReturn_append hfirst]
        simp
      · simp

/-- A property is its lead, indented, and its value behind it. -/
theorem indentProperty_append (hlines : lines t = l :: ls) (hl : l ≠ []) (hlead : '\n' ∉ lead) :
    indentProperty (lead ++ t) = indent ++ lead ++ hanging t := by
  have hline : (lead ++ l).isEmpty = false := by simp [hl]
  rw [indentProperty, lines_append hlines hl hlead, List.map_cons, hline, hanging, hlines]
  simp only [Bool.false_eq_true, if_false]
  rw [append_unlines, List.append_assoc]

theorem lines_of_not_mem (hfeed : '\n' ∉ t) (hne : t ≠ []) : lines t = [t] := by
  simp [lines, pieces_of_not_mem hfeed, terminated, hne]

/-- A value on one line stands as it is. -/
theorem hanging_of_not_mem (hfeed : '\n' ∉ t) (hne : t ≠ []) : hanging t = t := by
  rw [hanging, lines_of_not_mem hfeed hne]
  rfl

theorem Solid.exists_lines_dedent (h : Solid s) : ∃ l ls, lines (dedent s) = l :: ls ∧ l ≠ [] := by
  obtain ⟨_, _, hlines, _⟩ := h.exists_lines
  obtain ⟨l, hdedent, _, hl⟩ := h.lines_dedent hlines
  exact ⟨l, _, hdedent, hl⟩

/-! ## Standing values -/

/-- The names that object literals write without quotes are words of the script. -/
def WordKey (name : List Char) : Prop :=
  Naming.isIdentifierName name = true → IsWord name

instance decidableWordKey (name : List Char) : Decidable (WordKey name) :=
  inferInstanceAs (Decidable (Naming.isIdentifierName name = true → IsWord name))

/-- What a property starts with. -/
inductive IsLead : List Char → Prop
  | dots : IsLead "...".toList
  | key {name : List Char} (hname : WordKey name) : IsLead (Naming.propertyKey name ++ [':', ' '])

/-- What can stand behind the comma of a property: the end of the object, or another property. -/
inductive Follows : List Char → Prop
  | close (k : List Char) : Follows ('\n' :: '\x7d' :: k)
  | property {lead : List Char} (hlead : IsLead lead) (k : List Char) :
      Follows ('\n' :: (indent ++ lead ++ k))

/-- A text that stands as the value of a property: it is read in front of the comma as an assignment of
the given shape, whatever property follows, and is no pattern. -/
structure Stands (features : Features) (text : List Char) (shape : Shape) : Prop where
  reads : ∀ (bound depth n : Nat) (g rest : List Char), g ∈ [[], [' ']] → Follows rest →
    (g ++ text ++ ',' :: rest).length < bound → 64 * text.length ≤ depth →
      ∃ tree stop, rules depth .assignment (moduleScope features bound)
          (.front bound (g ++ text ++ ',' :: rest) n) = some (tree, .front bound (',' :: rest) stop) ∧
        tree.shape = shape
  plain : shape.hasLooseDefault = false

/-- A text that is read as a value wherever one can stand, stands as the value of a property. -/
theorem stands_of_readsValue (h : ReadsValue text shape) (hplain : shape.hasLooseDefault = false) :
    Stands features text shape := by
  refine ⟨?_, hplain⟩
  intro bound depth n g rest hg _ hbound hdepth
  have hblank : IsGap g := by
    simp only [List.mem_cons, List.not_mem_nil, or_false] at hg
    rcases hg with rfl | rfl
    · exact .nil
    · exact isGap_space
  exact h (moduleScope features bound) depth n g (',' :: rest) rfl hblank
    ⟨[], ',', rest, .nil, by simp, rfl⟩ hbound (by omega)

/-! ## Properties -/

/-- The shape of the key that a name is written as. -/
def keyShape (name : List Char) : Shape :=
  .node (if Naming.isIdentifierName name then .name else .string) (String.ofList name) []

theorem hasLooseDefault_keyShape (name : List Char) : (keyShape name).hasLooseDefault = false := by
  unfold keyShape
  split
  · rfl
  · rfl

/-- A property that is read as a member of the given shape, up to the comma behind it. -/
structure MemberReads (features : Features) (p : List Char) (shape : Shape) : Prop where
  reads : ∀ (bound depth n : Nat) (rest : List Char), Follows rest →
    ('\n' :: indentProperty p ++ ',' :: rest).length < bound → 64 * (indentProperty p).length ≤ depth →
      ∃ tree stop, objectProperty (rules depth) (moduleScope features bound)
          (.front bound ('\n' :: indentProperty p ++ ',' :: rest) n) =
            some (tree, .front bound (',' :: rest) stop) ∧
        tree.shape = shape
  plain : shape.hasLooseDefault = false

theorem isGap_indent : IsGap ('\n' :: indent) :=
  isGap_blank (by decide)

theorem endsWord_colon (s : List Char) : EndsWord (':' :: s) := by
  rintro c ⟨⟩
  decide

/-- The key of a property is read up to its colon. -/
theorem exists_key (hg : IsGap g) (hname : WordKey name)
    (hbound : (Naming.propertyKey name).length ≤ bound) (rs : Rules) (s : List Char) (n : Nat) :
    (∀ m, isMark (Cursor.front bound (g ++ Naming.propertyKey name ++ ':' :: s) n).token m = false) ∧
      ∃ key stop, propertyKey rs (moduleScope features bound)
          (.front bound (g ++ Naming.propertyKey name ++ ':' :: s) n) =
            some (key, .front bound (':' :: s) stop) ∧
        key.shape = keyShape name := by
  by_cases hidentifier : Naming.isIdentifierName name = true
  · have hkey : Naming.propertyKey name = name := by rw [Naming.propertyKey, if_pos hidentifier]
    rw [hkey] at hbound ⊢
    have hat := @Cursor.at_word bound n _ g name (':' :: s) hg.skips (hname hidentifier)
      (endsWord_colon s) hbound
    have hword := @propertyKey_word (moduleScope features bound) _ rs _ hat.lexeme hat.sound
    rw [moduleScope_bound, hat.next] at hword
    refine ⟨isMark_of_word hat.lexeme, _, _, hword, ?_⟩
    simp [Tree.shape, Tree.shapes, keyShape, hidentifier]
  · have hkey : Naming.propertyKey name = Naming.quoted name := by
      rw [Naming.propertyKey, if_neg hidentifier]
    rw [hkey] at hbound ⊢
    have hat := @Cursor.at_quoted bound n g (':' :: s) hg name hbound
    have hstring := @propertyKey_string (moduleScope features bound) _ rs _ hat.lexeme hat.sound
    rw [moduleScope_bound, hat.next] at hstring
    refine ⟨isMark_of_string hat.lexeme, _, _, hstring, ?_⟩
    simp [Tree.shape, Tree.shapes, keyShape, hidentifier]

/-- A property with a key and a value that stands. -/
theorem memberReads_keyed (hname : WordKey name) (hlines : lines t = l :: ls) (hl : l ≠ [])
    (hvalue : Stands features (hanging t) shape) :
    MemberReads features (Naming.propertyKey name ++ [':', ' '] ++ t)
      (.node .property "" [keyShape name, shape]) := by
  refine ⟨?_, by simp [Shape.hasLooseDefault, Shape.haveLooseDefault, hasLooseDefault_keyShape, hvalue.plain]⟩
  intro bound depth n rest hrest hbound hdepth
  have hfeed : '\n' ∉ Naming.propertyKey name ++ [':', ' '] := by simp [feed_not_mem_propertyKey]
  rw [indentProperty_append hlines hl hfeed] at hbound hdepth ⊢
  simp only [List.length_append, List.length_cons, List.length_nil] at hbound hdepth
  have htext : '\n' :: (indent ++ (Naming.propertyKey name ++ [':', ' ']) ++ hanging t) ++ ',' :: rest =
      '\n' :: indent ++ Naming.propertyKey name ++ ':' :: ([' '] ++ hanging t ++ ',' :: rest) := by
    simp
  rw [htext]
  obtain ⟨hmark, key, stop, hkey, hshape⟩ := @exists_key features bound ('\n' :: indent) name isGap_indent
    hname (by omega) (rules depth) ([' '] ++ hanging t ++ ',' :: rest) n
  have hcolon := @Cursor.at_mark_front bound stop ':' ([' '] ++ hanging t ++ ',' :: rest) (by decide)
  obtain ⟨tree, stop', htree, htreeShape⟩ := hvalue.reads bound depth (stop + 1) [' '] rest (by simp) hrest
    (by simp; omega) (by omega)
  have hmember := objectProperty_keyed (hmark _) (hmark _) hkey
    (by rw [isMark_of_mark hcolon.lexeme]; rfl) hcolon.sound
    (by rw [moduleScope_bound, hcolon.next]; exact htree)
  refine ⟨_, _, hmember, ?_⟩
  simp [Tree.shape, Tree.shapes, hshape, htreeShape]

/-- A spread property with a value that stands. -/
theorem memberReads_spread (hlines : lines t = l :: ls) (hl : l ≠ [])
    (hvalue : Stands features (hanging t) shape) :
    MemberReads features ("...".toList ++ t) (.node .spread "" [shape]) := by
  refine ⟨?_, by simp [Shape.hasLooseDefault, Shape.haveLooseDefault, hvalue.plain]⟩
  intro bound depth n rest hrest hbound hdepth
  rw [indentProperty_append hlines hl (by decide)] at hbound hdepth ⊢
  simp only [List.length_append, List.length_cons] at hbound hdepth
  have htext : '\n' :: (indent ++ "...".toList ++ hanging t) ++ ',' :: rest =
      '\n' :: indent ++ '.' :: '.' :: '.' :: ([] ++ hanging t ++ ',' :: rest) := by
    simp
  rw [htext]
  have hdots := @Cursor.at_dots bound n ('\n' :: indent) ([] ++ hanging t ++ ',' :: rest) isGap_indent
  obtain ⟨tree, stop, htree, htreeShape⟩ := hvalue.reads bound depth (n + ('\n' :: indent).length + 3) [] rest
    (by simp) hrest (by simp; omega) (by omega)
  have hmember := @objectProperty_spread (moduleScope features bound) _ _ tree (rules depth)
    (by rw [isMark_of_mark hdots.lexeme]; rfl) hdots.sound
    (by rw [moduleScope_bound, hdots.next]; exact htree)
  refine ⟨_, _, hmember, ?_⟩
  simp [Tree.shape, Tree.shapes, htreeShape]

/-! ## Object literals -/

/-- A text that is laid out as a property: a lead and a value behind it. -/
def IsProperty (p : List Char) : Prop :=
  ∃ lead t l ls, IsLead lead ∧ p = lead ++ t ∧ lines t = l :: ls ∧ l ≠ []

theorem IsLead.feed_not_mem (h : IsLead lead) : '\n' ∉ lead := by
  cases h with
  | dots => decide
  | key _ => simp [feed_not_mem_propertyKey]

theorem IsProperty.exists_indentProperty (h : IsProperty p) :
    ∃ lead k, IsLead lead ∧ indentProperty p = indent ++ lead ++ k := by
  obtain ⟨lead, t, l, ls, hlead, rfl, hlines, hl⟩ := h
  exact ⟨lead, hanging t, hlead, indentProperty_append hlines hl hlead.feed_not_mem⟩

/-- No object literal ends at a property. -/
theorem IsLead.not_closing (h : IsLead lead) (hbound : lead.length ≤ bound) (k : List Char) (n : Nat) :
    isMark (Cursor.front bound ('\n' :: (indent ++ lead ++ k)) n).token "\x7d" = false := by
  cases h with
  | dots =>
      have hdots := @Cursor.at_dots bound n ('\n' :: indent) k isGap_indent
      exact isMark_of_mark hdots.lexeme _
  | @key name hname =>
      have htext : '\n' :: (indent ++ (Naming.propertyKey name ++ [':', ' ']) ++ k) =
          '\n' :: indent ++ Naming.propertyKey name ++ ':' :: ' ' :: k := by simp
      rw [List.length_append] at hbound
      rw [htext]
      exact (@exists_key default bound ('\n' :: indent) name isGap_indent hname (by omega) (rules 0)
        (' ' :: k) n).1 _

/-- The properties of an object literal behind its brace. -/
def laidMembers (ps : List (List Char)) : List Char :=
  ps.flatMap fun p => '\n' :: indentProperty p ++ [',']

theorem renderObject_eq (hne : ps ≠ []) :
    renderObject ps = '\x7b' :: laidMembers ps ++ ['\n', '\x7d'] := by
  have hshift : ∀ qs : List (List Char), '\n' :: qs.flatMap (fun p => indentProperty p ++ [',', '\n']) =
      laidMembers qs ++ ['\n'] := by
    intro qs
    rw [laidMembers]
    induction qs with
    | nil => rfl
    | cons q qs ih =>
        have hstep : indentProperty q ++ [',', '\n'] ++
            qs.flatMap (fun p => indentProperty p ++ [',', '\n']) = indentProperty q ++ ',' ::
              ('\n' :: qs.flatMap fun p => indentProperty p ++ [',', '\n']) := by simp
        rw [List.flatMap_cons, List.flatMap_cons, hstep, ih]
        simp
  have hlaid := hshift ps
  rw [renderObject, if_neg (by simpa using hne)]
  show '\x7b' :: ('\n' :: ps.flatMap (fun p => indentProperty p ++ [',', '\n'])) ++ ['\x7d'] = _
  rw [hlaid]
  simp

/-- Behind a comma stands another property or the end of the object. -/
theorem follows_laidMembers (h : ∀ p ∈ ps, IsProperty p) (rest : List Char) :
    Follows (laidMembers ps ++ '\n' :: '\x7d' :: rest) := by
  cases ps with
  | nil => exact .close rest
  | cons p ps =>
      obtain ⟨lead, k, hlead, hp⟩ := (h p (by simp)).exists_indentProperty
      have htext : laidMembers (p :: ps) ++ '\n' :: '\x7d' :: rest = '\n' :: (indent ++ lead ++
          (k ++ ',' :: (laidMembers ps ++ '\n' :: '\x7d' :: rest))) := by
        simp [laidMembers, hp]
      rw [htext]
      exact .property hlead _

/-- The members of an object literal are read one by one. -/
theorem exists_separated (h : List.Forall₂ (MemberReads features) ps shapes)
    (hproperties : ∀ p ∈ ps, IsProperty p) (n : Nat)
    (hbound : (laidMembers ps ++ '\n' :: '\x7d' :: rest).length < bound)
    (hdepth : 64 * (laidMembers ps).length ≤ depth) :
    ∃ es stop, Separated (moduleScope features bound) "\x7d" (objectProperty (rules depth))
        (.front bound (laidMembers ps ++ '\n' :: '\x7d' :: rest) n) es
          (.front bound ('\n' :: '\x7d' :: rest) stop) ∧
      Tree.shapes es = shapes := by
  induction h generalizing n with
  | nil =>
      have hat := @Cursor.at_mark bound n '\x7d' ['\n'] rest isGap_feed (by decide)
      have hclose : isMark (Cursor.front bound ('\n' :: '\x7d' :: rest) n).token "\x7d" = true :=
        isMark_of_mark hat.lexeme _
      exact ⟨[], n, .nil hclose, rfl⟩
  | @cons p shape ps shapes hp _ ih =>
      rw [List.forall_mem_cons] at hproperties
      have htext : laidMembers (p :: ps) ++ '\n' :: '\x7d' :: rest = '\n' :: indentProperty p ++
          ',' :: (laidMembers ps ++ '\n' :: '\x7d' :: rest) := by
        simp [laidMembers]
      have hlength : (laidMembers (p :: ps)).length = (indentProperty p).length + 2 +
          (laidMembers ps).length := by
        simp [laidMembers]
        omega
      rw [hlength] at hdepth
      rw [htext] at hbound ⊢
      -- Bound and depth were chosen for the whole text, so they are enough for its first member and for the others.
      obtain ⟨e, stop, hentry, hshape⟩ := hp.reads bound depth n _ (follows_laidMembers hproperties.2 rest) hbound
        (by omega)
      obtain ⟨lead, k, hlead, hlaid⟩ := hproperties.1.exists_indentProperty
      have hopen : isMark (Cursor.front bound ('\n' :: indentProperty p ++
          ',' :: (laidMembers ps ++ '\n' :: '\x7d' :: rest)) n).token "\x7d" = false := by
        rw [hlaid, List.cons_append, List.append_assoc]
        refine hlead.not_closing ?_ _ n
        simp [hlaid] at hbound
        omega
      have hcomma := @Cursor.at_mark_front bound stop ',' (laidMembers ps ++ '\n' :: '\x7d' :: rest)
        (by decide)
      obtain ⟨es, stop', hrest, hshapes⟩ := ih hproperties.2 (stop + 1)
        (by simp at hbound ⊢; omega) (by omega)
      refine ⟨e :: es, stop', .cons hopen hentry ?_ ?_ hcomma.sound ?_, ?_⟩
      · rw [isMark_of_mark hcomma.lexeme]
        rfl
      · rw [isMark_of_mark hcomma.lexeme]
        rfl
      · rw [moduleScope_bound, hcomma.next]
        exact hrest
      · rw [Tree.shapes, hshape, hshapes]

theorem length_le_laidMembers (ps : List (List Char)) : ps.length ≤ (laidMembers ps).length := by
  rw [laidMembers]
  induction ps with
  | nil => simp
  | cons p ps ih =>
      rw [List.length_cons, List.flatMap_cons, List.length_append]
      simp only [List.length_append, List.length_cons]
      omega

/-- An object literal is read once its members are. -/
theorem exists_object_of_separated {body e : List Char} {es : List Tree} {stop : Nat}
    (hg : IsGap g) (he : IsGap e)
    (hmembers : Separated (moduleScope features bound) "\x7d" (objectProperty (rules depth))
      (.front bound (body ++ (e ++ '\x7d' :: rest)) (n + g.length + 1)) es
        (.front bound (e ++ '\x7d' :: rest) stop))
    (hcount : es.length ≤ bound) (hshapes : Tree.shapes es = shapes) :
    isMark (Cursor.front bound (g ++ '\x7b' :: (body ++ (e ++ '\x7d' :: rest))) n).token "\x7b" = true ∧
      ∃ tree stop comma, object (rules depth) (moduleScope features bound)
          (.front bound (g ++ '\x7b' :: (body ++ (e ++ '\x7d' :: rest))) n) =
            some (tree, .front bound rest stop) ∧
        tree.shape = .node .object comma shapes := by
  have hopen := @Cursor.at_mark bound n '\x7b' g (body ++ (e ++ '\x7d' :: rest)) hg (by decide)
  have hclose := @Cursor.at_mark bound stop '\x7d' e rest he (by decide)
  have hbrace : isMark (Cursor.front bound (g ++ '\x7b' :: (body ++ (e ++ '\x7d' :: rest))) n).token
      "\x7b" = true := isMark_of_mark hopen.lexeme _
  rw [← hopen.next] at hmembers
  have hobject := @object_members (moduleScope features bound) _ _ es (rules depth) hbrace hopen.sound
    rfl rfl hmembers hclose.sound hcount
  rw [moduleScope_bound, hclose.next] at hobject
  refine ⟨hbrace, _, _, literalName es stop, hobject, ?_⟩
  rw [Tree.shape, hshapes]
  rfl

/-- An object literal is read as one with a member for each property. -/
theorem exists_object (h : List.Forall₂ (MemberReads features) ps shapes)
    (hproperties : ∀ p ∈ ps, IsProperty p) (hg : IsGap g) (n : Nat)
    (hbound : (g ++ renderObject ps ++ rest).length < bound)
    (hdepth : 64 * (renderObject ps).length ≤ depth) :
    isMark (Cursor.front bound (g ++ renderObject ps ++ rest) n).token "\x7b" = true ∧
      ∃ tree stop comma, object (rules depth) (moduleScope features bound)
          (.front bound (g ++ renderObject ps ++ rest) n) = some (tree, .front bound rest stop) ∧
        tree.shape = .node .object comma shapes := by
  by_cases hps : ps = []
  · subst hps
    cases h
    have htext : g ++ renderObject [] ++ rest = g ++ '\x7b' :: ([] ++ ([] ++ '\x7d' :: rest)) := by
      simp [renderObject]
    have hclose := @Cursor.at_mark_front bound (n + g.length + 1) '\x7d' rest (by decide)
    rw [htext]
    refine exists_object_of_separated hg .nil (.nil ?_) (Nat.zero_le _) rfl
    exact isMark_of_mark hclose.lexeme _
  · have hrender := @renderObject_eq ps hps
    have htext : g ++ renderObject ps ++ rest =
        g ++ '\x7b' :: (laidMembers ps ++ (['\n'] ++ '\x7d' :: rest)) := by
      simp [hrender]
    have hlength : (renderObject ps).length = (laidMembers ps).length + 3 := by
      simp [hrender]
    rw [htext] at hbound ⊢
    obtain ⟨es, stop, hmembers, hshapes⟩ := @exists_separated features bound depth rest _ _ h hproperties
      (n + g.length + 1) (by simp at hbound ⊢; omega) (by omega)
    refine exists_object_of_separated hg isGap_feed hmembers ?_ hshapes
    have hcount := length_le_laidMembers ps
    rw [h.length_eq, ← hshapes, shapes_eq_map, List.length_map] at hcount
    simp at hbound
    omega

/-! ## Exports -/

/-- An object literal that a semicolon follows is read as an assignment. -/
theorem exists_assignment (h : List.Forall₂ (MemberReads features) ps shapes)
    (hproperties : ∀ p ∈ ps, IsProperty p) (hg : IsGap g) (n : Nat)
    (hbound : (g ++ renderObject ps ++ ';' :: rest).length < bound)
    (hdepth : 64 * (renderObject ps).length + 4 ≤ depth) :
    isMark (Cursor.front bound (g ++ renderObject ps ++ ';' :: rest) n).token "\x7b" = true ∧
      ∃ tree stop comma, rules depth .assignment (moduleScope features bound)
          (.front bound (g ++ renderObject ps ++ ';' :: rest) n) =
            some (tree, .front bound (';' :: rest) stop) ∧
        tree.shape = .node .object comma shapes := by
  obtain ⟨d, rfl⟩ : ∃ d, depth = d + 4 := ⟨depth - 4, by omega⟩
  obtain ⟨hbrace, tree, stop, comma, hobject, hshape⟩ := @exists_object features bound d g (';' :: rest) ps
    shapes h hproperties hg n hbound (by omega)
  have hend := @Cursor.at_mark_front bound stop ';' rest (by decide)
  have hcloses : (Cursor.front bound (';' :: rest) stop).token.Closes := ⟨";", by simp, hend.lexeme⟩
  have hkind : tree.kind = .object := by
    rw [← kind_shape, hshape]
    rfl
  exact ⟨hbrace, tree, stop, comma, assignment_object hbrace rfl hobject hcloses hkind, hshape⟩

/-- The meaning of a default export of an object literal. -/
def DefaultOf (shapes : List Shape) (item : Shape) : Prop :=
  ∃ comma, item = .node .exportDefaultExpr "" [.node .object comma shapes]

/-- The default export of an object literal is read as such. -/
theorem readsItem_defaultExport (h : List.Forall₂ (MemberReads features) ps shapes)
    (hproperties : ∀ p ∈ ps, IsProperty p) (rest : List Char) :
    ReadsItem features (defaultExport ps).text rest (DefaultOf shapes) := by
  intro bound depth n g b hg hbound hdepth
  have htext : g ++ (defaultExport ps).text ++ rest = g ++ "export".toList ++
      ([' '] ++ "default".toList ++ ([' '] ++ renderObject ps ++ ';' :: rest)) := by
    simp [defaultExport]
  have hlength : (defaultExport ps).text.length = (renderObject ps).length + 16 := by
    simp [defaultExport]
  rw [htext] at hbound ⊢
  simp only [List.length_append, List.length_cons] at hbound
  have hsize : "export".toList.length = 6 ∧ "default".toList.length = 7 := by decide
  obtain ⟨d, rfl⟩ : ∃ d, depth = d + 1 := ⟨depth - 1, by omega⟩
  have hexport := @Cursor.at_word bound n _ g "export".toList
    ([' '] ++ "default".toList ++ ([' '] ++ renderObject ps ++ ';' :: rest)) hg isWord_export
    (endsWord_space _) (by omega)
  have hdefault := @Cursor.at_word bound (n + g.length + "export".toList.length) _ [' '] "default".toList
    ([' '] ++ renderObject ps ++ ';' :: rest) (skips_blank (by decide)) isWord_default (endsWord_space _)
    (by omega)
  obtain ⟨hbrace, tree, stop, comma, hvalue, hshape⟩ := @exists_assignment features bound d [' '] rest ps
    shapes h hproperties isGap_space
    (n + g.length + "export".toList.length + [' '].length + "default".toList.length)
    (by simp; omega) (by omega)
  have hend := @Cursor.at_mark_front bound stop ';' rest (by decide)
  have hitem := @item_default (moduleScope features bound) _ _ tree (rules d) hexport.lexeme hexport.sound
    (by rw [moduleScope_bound, hexport.next]; exact hdefault.lexeme)
    (by rw [moduleScope_bound, hexport.next]; exact hdefault.sound)
    (by rw [moduleScope_bound, hexport.next, hdefault.next]; exact hbrace) rfl rfl
    (by rw [moduleScope_bound, hexport.next, hdefault.next]; exact hvalue)
    (by rw [isMark_of_mark hend.lexeme]; rfl) hend.sound
  rw [moduleScope_bound, hend.next] at hitem
  refine ⟨hexport.sound.ne_done, _, _, hitem, comma, ?_⟩
  rw [Tree.shape, Tree.shapes, Tree.shapes, hshape]

/-- No default stands loose among members. -/
theorem haveLooseDefault_members (h : List.Forall₂ (MemberReads features) ps shapes) :
    Shape.haveLooseDefault shapes = false := by
  induction h with
  | nil => rfl
  | cons hp _ ih => rw [Shape.haveLooseDefault, hp.plain, ih, Bool.or_false]

/-- The meaning of an export of an object literal under a name. -/
def ConstantOf (key : List Char) (shapes : List Shape) (item : Shape) : Prop :=
  ∃ comma, item = .node .exportDecl "" [.node .variableList "const" [.node .declarator "="
    [.node .identifier (String.ofList key) [], .node .object comma shapes]]]

/-- The export of a story is read as one of a constant with its name. -/
theorem readsItem_storyExport {key : List Char} (h : List.Forall₂ (MemberReads features) ps shapes)
    (hproperties : ∀ p ∈ ps, IsProperty p) (hword : IsWord key)
    (hbinding : BindingWord (String.ofList key)) (rest : List Char) :
    ReadsItem features (storyExport key ps).text rest (ConstantOf key shapes) := by
  intro bound depth n g b hg hbound hdepth
  have htext : g ++ (storyExport key ps).text ++ rest = g ++ "export".toList ++
      ([' '] ++ "const".toList ++ ([' '] ++ key ++ ([' '] ++ '=' :: ([' '] ++ renderObject ps ++
        ';' :: rest)))) := by
    simp [storyExport]
  have hlength : (storyExport key ps).text.length = key.length + (renderObject ps).length + 17 := by
    simp [storyExport]
    omega
  rw [htext] at hbound ⊢
  simp only [List.length_append, List.length_cons] at hbound
  have hsize : "export".toList.length = 6 ∧ "const".toList.length = 5 := by decide
  obtain ⟨d, rfl⟩ : ∃ d, depth = d + 1 + 1 := ⟨depth - 2, by omega⟩
  -- The tokens in front of the value stand one blank apart, each where the one before it ends.
  have hexport := @Cursor.at_word bound n _ g "export".toList ([' '] ++ "const".toList ++ ([' '] ++ key ++
    ([' '] ++ '=' :: ([' '] ++ renderObject ps ++ ';' :: rest)))) hg isWord_export (endsWord_space _)
    (by omega)
  have hconst := @Cursor.at_word bound (n + g.length + "export".toList.length) _ [' '] "const".toList
    ([' '] ++ key ++ ([' '] ++ '=' :: ([' '] ++ renderObject ps ++ ';' :: rest))) (skips_blank (by decide))
    isWord_const
    (endsWord_space _) (by omega)
  have hname := @Cursor.at_word bound
    (n + g.length + "export".toList.length + [' '].length + "const".toList.length) _ [' '] key
    ([' '] ++ '=' :: ([' '] ++ renderObject ps ++ ';' :: rest)) (skips_blank (by decide)) hword (endsWord_space _)
    (by omega)
  have hequals := @Cursor.at_sign bound
    (n + g.length + "export".toList.length + [' '].length + "const".toList.length + [' '].length + key.length)
    '=' [' '] (renderObject ps ++ ';' :: rest) isGap_space (by decide)
  obtain ⟨_, tree, stop, comma, hvalue, hshape⟩ := @exists_assignment features bound (d + 1) [' '] rest ps
    shapes h hproperties isGap_space
    (n + g.length + "export".toList.length + [' '].length + "const".toList.length + [' '].length +
      key.length + [' '].length + 1)
    (by simp; omega) (by omega)
  have hend := @Cursor.at_mark_front bound stop ';' rest (by decide)
  have hloose : tree.hasLooseDefault = false := by
    rw [← hasLooseDefault_shape, hshape]
    exact haveLooseDefault_members h
  obtain ⟨span, span', hvariables⟩ := @variableList_constant (moduleScope features bound) _ _ tree d _
    hconst.lexeme hconst.sound (by rw [moduleScope_bound, hconst.next]; exact hname.lexeme)
    (by rw [moduleScope_bound, hconst.next]; exact hname.sound) hbinding
    (by rw [moduleScope_bound, hconst.next, hname.next]; exact isMark_of_mark hequals.lexeme _)
    (by rw [moduleScope_bound, hconst.next, hname.next]; exact hequals.sound)
    (by
      rw [moduleScope_bound, hconst.next, hname.next]
      exact (congrArg (rules (d + 1) .assignment (moduleScope features bound)) hequals.next).trans hvalue)
    hloose (by rw [isMark_of_mark hend.lexeme]; rfl) hend.sound
  rw [moduleScope_bound, hend.next] at hvariables
  have hitem := @item_constant (moduleScope features bound) _ _ _ (rules (d + 1)) _ hexport.lexeme
    hexport.sound (by rw [moduleScope_bound, hexport.next]; exact hconst.lexeme)
    (by rw [moduleScope_bound, hexport.next, hconst.next]; exact hname.lexeme) hbinding
    (by rw [moduleScope_bound, hexport.next]; exact hvariables)
  refine ⟨hexport.sound.ne_done, _, _, hitem, comma, ?_⟩
  simp [Tree.shape, Tree.shapes, hshape]

end Synthesis
end StoryDocs
