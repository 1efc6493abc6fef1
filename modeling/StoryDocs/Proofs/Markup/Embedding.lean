import StoryDocs.Proofs.Markup.Locality
import StoryDocs.Proofs.Markup.Passing
import StoryDocs.Proofs.Markup.Scanning
import StoryDocs.Proofs.Script.Atoms.Modules
import StoryDocs.Proofs.Script.Fragments

/-!
# Code in documents

An expression that a parser accepts is one group in braces, and a module that it accepts is one script block, if the
scanners take its atoms for what they are.  All that is asked of the parser is that what it accepts is cut into atoms
with matched brackets.  The scanners know nothing of regular expressions and of tags, so a bracket in a regular
expression is enough for them to miss the end.
-/

namespace StoryDocs
namespace Markup

open Text Script

variable {E S : List Char} {as : List Atom} {items : List Tree} {features : Features}
  {accepts : Features → List Char → Bool}

/-! ## Groups -/

/-- What stands behind an expression between brackets, in front of a closing brace. -/
theorem closesBehind_wrap : ClosesBehind "\n)\x3b\n\x7d".toList :=
  ⟨rfl, ")\x3b\n".toList, rfl, by decide⟩

theorem closesBehind_feed : ClosesBehind "\n\x7d".toList :=
  ⟨rfl, [], rfl, by decide⟩

/-- Where a brace is open, a character that is no mark is passed. -/
theorem braceExtent_quiet {c before : Char} (hc : c = '(' ∨ c = '\n') (s : List Char) :
    braceExtent 1 before (c :: s) = (braceExtent 1 c s).map (· + 1) := by
  rcases hc with rfl | rfl
  · rw [braceExtent_none (literalExtent_code (by decide)), if_neg (by decide), if_neg (by decide)]
  · rw [braceExtent_none (literalExtent_code (by decide)), if_neg (by decide), if_neg (by decide)]

/-- An expression is a group in braces if the scanner passes over its atoms between brackets. -/
theorem groupLength?_wrap (hatoms : AtomsOf (Fragment.wrap E) as) (hplain : AllPlain false ' ' as []) :
    groupLength? ('\x7b' :: (E ++ "\n\x7d".toList)) = some (E.length + 3) := by
  have hpass := hatoms.passes hplain "\n\x7d".toList rfl .braces (fun h => h) (fun h => by cases h)
  have hend : ∀ before, braceExtent 1 before "\n\x7d".toList = some 2 :=
    closesBehind_feed.closesBrace.braceExtent_eq 1
  have htext : Fragment.wrap E ++ "\n\x7d".toList = '(' :: '\n' :: (E ++ "\n)\x3b\n\x7d".toList) := by
    show ("(\n".toList ++ E ++ "\n);".toList) ++ "\n\x7d".toList = _
    rw [List.append_assoc, List.append_assoc]
    rfl
  have hlength : (Fragment.wrap E).length = E.length + 5 := by
    show ("(\n".toList ++ E ++ "\n);".toList).length = _
    rw [List.length_append, List.length_append]
    show 2 + E.length + 3 = _
    omega
  -- The brackets go, and the end stays where it is.
  have hwrap : braceExtent 1 '\n' (E ++ "\n)\x3b\n\x7d".toList) = some (E ++ "\n)\x3b\n\x7d".toList).length := by
    have hpass : braceExtent 1 ' ' (Fragment.wrap E ++ "\n\x7d".toList) =
        (braceExtent 1 (lastChar ' ' (Fragment.wrap E)) "\n\x7d".toList).map (· + (Fragment.wrap E).length) := hpass
    rw [htext, braceExtent_quiet (.inl rfl), braceExtent_quiet (.inr rfl), hend, hlength, Option.map_some] at hpass
    obtain ⟨n, hn, hsum⟩ := Option.map_eq_some_iff.mp hpass
    obtain ⟨m, hm, rfl⟩ := Option.map_eq_some_iff.mp hn
    rw [hm, List.length_append]
    show some m = some (E.length + 5)
    congr 1
    omega
  have hgroup := braceExtent_exchange closesBehind_wrap closesBehind_feed hwrap
  have hbefore : braceExtent 1 '\n' (E ++ "\n\x7d".toList) = braceExtent 1 '\x7b' (E ++ "\n\x7d".toList) :=
    braceExtent_before (by decide) (by decide) _
  rw [hbefore] at hgroup
  show braceExtent 0 ' ' _ = _
  rw [braceExtent_none (literalExtent_code (by decide)), if_pos rfl, hgroup, List.length_append]
  rfl

theorem run_done {st : State} (h : st.rest = []) (bound : Nat) : State.run bound st = st.finish := by
  cases bound with
  | zero => rfl
  | succ bound =>
      rw [State.run, h]
      rfl

/-- A document that is one group in braces is one expression. -/
theorem parse_group {s : List Char} (hgroup : groupLength? ('\x7b' :: s) = some (s.length + 1)) :
    parse ('\x7b' :: s) = .ok ⟨[.expression (s.take (s.length - 1)) true]⟩ := by
  have hstep : State.step { rest := '\x7b' :: s } =
      .ok (State.takeNode { rest := '\x7b' :: s } (s.length + 1) (.expression (s.take (s.length - 1)) true)) := by
    rw [State.step, Piece.ofText_brace hgroup]
    rfl
  have hrest : (State.takeNode { rest := '\x7b' :: s } (s.length + 1) (.expression (s.take (s.length - 1)) true)).rest =
      [] :=
    List.drop_length
  rw [parse, List.length_cons, State.run, hstep]
  exact run_done hrest _

/-! ## Script blocks -/

theorem scriptLength_blank (hatoms : AtomsOf S as) (hplain : AllPlain true ' ' as [])
    (hlines : ∀ line ∈ pieces S, line.all isAsciiBlank = false) :
    scriptLength (S ++ "\n\nx".toList) = S.length := by
  have hline : Unbroken .script S "\n\nx".toList := by
    rintro _ front s rfl
    obtain ⟨ls, hpieces, _⟩ := pieces_eq_cons s
    rw [pieces_append_feed, hpieces] at hlines
    show (restOfLine (s ++ '\n' :: "\nx".toList)).all isAsciiBlank = false
    rw [restOfLine_append_feed]
    exact hlines _ (List.mem_append_right _ List.mem_cons_self)
  have hpass := hatoms.passes hplain "\n\nx".toList rfl .script (fun h => h) hline
  have hend : ∀ before, scriptExtent 0 before "\n\nx".toList = 0 := by
    intro before
    show scriptExtent 0 before ('\n' :: "\nx".toList) = 0
    rw [scriptExtent_none (literalExtent_code (by decide))]
    rfl
  have hpass : some (scriptExtent 0 ' ' (S ++ "\n\nx".toList)) =
      some (scriptExtent 0 (lastChar ' ' S) "\n\nx".toList + S.length) := hpass
  rw [hend, Nat.zero_add] at hpass
  exact Option.some.inj hpass

/-- Prose behind an empty line, at the end of a document. -/
theorem run_prose {st : State} (hrest : st.rest = "\n\nx".toList) (hframes : st.frames = [])
    (hpending : st.pending = [])
    (bound : Nat) : State.run (bound + 3) st = .ok ⟨(.text "\n\nx".toList :: st.nodes).reverse⟩ := by
  obtain ⟨frames, nodes, pending, place, rest⟩ := st
  subst hrest hframes hpending
  have hletter : ∀ startsLine, Piece.ofText true startsLine ['x'] = .ok (.prose 1) := by
    intro startsLine
    cases startsLine with
    | false => rfl
    | true => rfl
  have hstep : ∀ {c s} {place : Place} {pending : List Char} {bound : Nat},
      Piece.ofText true place.startsLine (c :: s) = .ok (.prose 1) →
      State.run (bound + 1) ⟨[], nodes, pending, place, c :: s⟩ =
        State.run bound ⟨[], nodes, c :: pending, place.after [c], s⟩ := by
    intro c s place pending bound h
    rw [State.run, State.step, List.isEmpty_nil, h]
    rfl
  show State.run (bound + 3) ⟨[], nodes, [], place, ['\n', '\n', 'x']⟩ = _
  rw [hstep (Piece.ofText_feed _), hstep (Piece.ofText_feed _), hstep (hletter _), run_done rfl]
  rfl

theorem step_script {st : State} {n : Nat}
    (h : Piece.ofText st.frames.isEmpty st.place.startsLine st.rest = .ok (.script n)) :
    st.step = .ok (st.takeNode n (.script (st.rest.take n))) := by
  rw [State.step, h]

/-- A script block in front of an empty line and prose. -/
theorem parse_script (hstarts : startsScript S = true) (hlength : scriptLength (S ++ "\n\nx".toList) = S.length) :
    parse (S ++ "\n\nx".toList) = .ok ⟨[.script S, .text "\n\nx".toList]⟩ := by
  have hwhole : startsScript (S ++ "\n\nx".toList) = true := startsScript_append hstarts (.inr rfl)
  have hpiece : Piece.ofText true true (S ++ "\n\nx".toList) = .ok (.script S.length) := by
    rw [Piece.ofText, hwhole, hlength]
    rfl
  obtain ⟨c, rest, hS, _⟩ := startsScript_head hstarts
  have hbound : (S ++ "\n\nx".toList).length = (rest.length + 3) + 1 := by
    rw [hS, List.length_append, List.length_cons]
    show rest.length + 1 + 3 = _
    omega
  have hne : (S ++ "\n\nx".toList).isEmpty = false := by
    rw [hS]
    rfl
  have hstep := @step_script { rest := S ++ "\n\nx".toList } _ hpiece
  have htake : (S ++ "\n\nx".toList).take S.length = S := List.take_left
  dsimp only at hstep
  rw [htake] at hstep
  rw [parse, hbound, State.run, hne, hstep]
  exact run_prose List.drop_left rfl rfl rest.length

/-! ## What a parser accepts -/

/-- **Agreement with a parser.**  An expression that is accepted between brackets is cut into atoms there, and if the
scanner takes them for what they are, a document that is the expression in braces with a line break at its end is one
expression.  An accepted module that starts as a script block and has no blank line is cut into atoms, and if the
scanner takes them for what they are, it is a script block in front of an empty line and prose.  The parser is any that
accepts only what is cut into atoms with matched brackets. -/
theorem scanners_agree (hcuts : ∀ features s, accepts features s = true → ∃ as, AtomsOf s as) (dialect : Dialect) :
    (∀ E, trim E = E → accepts dialect.features (Fragment.wrap E) = true →
      (∃ as, AtomsOf (Fragment.wrap E) as) ∧
      ∀ as, AtomsOf (Fragment.wrap E) as → AllPlain false ' ' as [] →
        parse (['\x7b'] ++ E ++ "\n\x7d".toList) = .ok ⟨[.expression (E ++ ['\n']) true]⟩) ∧
    ∀ S, accepts dialect.features S = true →
      ("import ".toList <+: S ∨ "export ".toList <+: S) →
      (∀ line ∈ pieces S, line.all isAsciiBlank = false) →
      (∃ as, AtomsOf S as) ∧
      ∀ as, AtomsOf S as → AllPlain true ' ' as [] →
        parse (S ++ "\n\nx".toList) = .ok ⟨[.script S, .text "\n\nx".toList]⟩ := by
  constructor
  · intro E _ haccepts
    refine ⟨hcuts _ _ haccepts, fun as hatoms hplain => ?_⟩
    have hgroup := groupLength?_wrap hatoms hplain
    have hlength : (E ++ "\n\x7d".toList).length = E.length + 2 := List.length_append
    have htake : (E ++ "\n\x7d".toList).take (E.length + 1) = E ++ ['\n'] := List.take_length_add_append 1
    have hdocument := @parse_group (E ++ "\n\x7d".toList) (by rw [hgroup, hlength])
    rw [hlength, Nat.add_sub_cancel (n := E.length + 1) (m := 1), htake] at hdocument
    exact hdocument
  · intro S haccepts hstarts hlines
    refine ⟨hcuts _ _ haccepts, fun as hatoms hplain => ?_⟩
    refine parse_script ?_ (scriptLength_blank hatoms hplain hlines)
    rcases hstarts with ⟨rest, rfl⟩ | ⟨rest, rfl⟩
    · rfl
    · rfl

/-! ## What the grammar accepts -/

/-- Whether the grammar accepts a module. -/
def acceptsModule (features : Features) (s : List Char) : Bool :=
  (Module.parse? features s).isSome

theorem exists_atomsOf_of_accepts (features : Features) (s : List Char) (h : acceptsModule features s = true) :
    ∃ as, AtomsOf s as := by
  obtain ⟨items, hitems⟩ := Option.isSome_iff_exists.mp h
  exact Module.exists_atomsOf hitems

/-- The text of an accepted fragment is accepted as a module between brackets. -/
theorem acceptsModule_of_fragment {dialect : Dialect} {context : String} {f : Fragment} (htrim : trim E = E)
    (h : Fragment.parse E dialect context = .ok f) : acceptsModule dialect.features (Fragment.wrap E) = true := by
  obtain ⟨_, hitems, _⟩ := Fragment.parseWith_eq_ok_iff.mp h
  obtain ⟨items, hitems, _⟩ := Option.bind_eq_some_iff.mp hitems
  rw [htrim] at hitems
  rw [acceptsModule, hitems]
  rfl

/-- The atoms of a template with a brace in a string in its code, between brackets. -/
def templateAtoms : List Atom :=
  [⟨.opening .paren, ['(']⟩, ⟨.blank, ['\n']⟩, ⟨.opening .template, ['\x60']⟩, ⟨.opening .hole, ['$', '\x7b']⟩,
    ⟨.string, ['\x27', '\x7d', '\x27']⟩, ⟨.closing .hole, ['\x7d']⟩, ⟨.closing .template, ['\x60']⟩, ⟨.blank, ['\n']⟩,
    ⟨.closing .paren, [')']⟩, ⟨.mark, ['\x3b']⟩]

/-- The atoms of an import. -/
def importAtoms : List Atom :=
  [⟨.word, "import".toList⟩, ⟨.blank, [' ']⟩, ⟨.string, ['\x27', 'a', '\x27']⟩, ⟨.mark, ['\x3b']⟩]

theorem templateAtoms_atomsOf : AtomsOf (Fragment.wrap "\x60$\x7b'\x7d'\x7d\x60".toList) templateAtoms where
  cuts := by
    have hstring : StringText '\x27' ['\x7d'] := .char (by decide) (by decide) (by decide) (by decide) .nil
    have hfit : AllFit templateAtoms [] :=
      ⟨rfl, ⟨'\n', rfl, rfl⟩, rfl, rfl, ⟨_, _, .inr rfl, hstring, rfl⟩, rfl, rfl, ⟨'\n', rfl, rfl⟩, rfl,
        .plain (by decide), trivial⟩
    exact hfit.cuts
  closed := ⟨_, rfl⟩

theorem importAtoms_atomsOf : AtomsOf "import 'a';".toList importAtoms where
  cuts := by
    have hstring : StringText '\x27' ['a'] := .char (by decide) (by decide) (by decide) (by decide) .nil
    have hword : WordText "import".toList :=
      .char (by decide) (.char (by decide) (.char (by decide) (.char (by decide) (.char (by decide)
        (.char (by decide) .nil)))))
    have hfit : AllFit importAtoms [] :=
      ⟨⟨_, hword, .inl rfl⟩, ⟨' ', rfl, rfl⟩, ⟨_, _, .inr rfl, hstring, rfl⟩, .plain (by decide), trivial⟩
    exact hfit.cuts
  closed := ⟨_, rfl⟩

theorem scanners_agree_template :
    (∃ f, Fragment.parse "\x60$\x7b'\x7d'\x7d\x60".toList .tsx "" = .ok f) ∧
    parse "\x7b\x60$\x7b'\x7d'\x7d\x60\n\x7d".toList = .ok ⟨[.expression "\x60$\x7b'\x7d'\x7d\x60\n".toList true]⟩ ∧
      parse "import 'a';\n\nx".toList = .ok ⟨[.script "import 'a';".toList, .text "\n\nx".toList]⟩ := by
  have hexpression : (Fragment.parse "\x60$\x7b'\x7d'\x7d\x60".toList .tsx "").toOption.isSome = true := by
    decide +kernel
  obtain ⟨f, hf⟩ : ∃ f, Fragment.parse "\x60$\x7b'\x7d'\x7d\x60".toList .tsx "" = .ok f := by
    cases h : Fragment.parse "\x60$\x7b'\x7d'\x7d\x60".toList .tsx "" with
    | error e =>
        rw [h] at hexpression
        cases hexpression
    | ok f => exact ⟨f, rfl⟩
  have hagree := scanners_agree exists_atomsOf_of_accepts .tsx
  refine ⟨⟨f, hf⟩, ?_, ?_⟩
  · refine (hagree.1 _ (by decide) (acceptsModule_of_fragment (by decide) hf)).2 templateAtoms templateAtoms_atomsOf ?_
    exact ⟨trivial, trivial, trivial, trivial, .inl ⟨by decide, by decide⟩, trivial, trivial, trivial, trivial, trivial,
      trivial⟩
  · refine (hagree.2 _ (by decide +kernel) (.inl (by decide)) (by decide)).2 importAtoms importAtoms_atomsOf ?_
    exact ⟨trivial, trivial, .inl ⟨by decide, by decide⟩, trivial, trivial⟩

/-- A regular expression may hold a bracket, and to the scanner of groups it opens one. -/
theorem group_misses_regex :
    (Fragment.parse "/[\x7b]/".toList .tsx "").toOption.isSome = true ∧
      (parse "\x7b/[\x7b]/\n\x7d".toList).toOption.isNone = true := by
  constructor
  · decide +kernel
  · decide

/-- Nor does it know a string behind a letter, a line comment behind a colon, or the text of a tag: what they hold is
code to it.  The same goes for a comment start, a backtick or a quote in a regular expression. -/
theorem group_misses_literal :
    ∀ E ∈ ["void'\x7b'", "a ? b ://\x7b\nc", "<a>\x60</a>", "/[/*]/", "/\x60/", "/'/ + '\x7b'"].map String.toList,
      (Fragment.parse E .tsx "").toOption.isSome = true ∧
        (parse (['\x7b'] ++ E ++ "\n\x7d".toList)).toOption.isNone = true := by
  decide +kernel

/-- It looks for the end of a literal where the grammar does not: a line comment that a carriage return ends goes on
for it, a string that goes on behind a carriage return with a line feed ends, and so does the string of a tag at a line
feed, while a backslash hides the quote behind it. -/
theorem group_misses_end :
    ∀ E ∈ ["a //\r+ \x60\n\x7b\x60", "'\\\r\n\x60\x7b'", "<a b=\"\n\x7b\" />",
        "<a b=\"\\\" c=\"\x7b\" />"].map String.toList,
      (Fragment.parse E .tsx "").toOption.isSome = true ∧
        (parse (['\x7b'] ++ E ++ "\n\x7d".toList)).toOption.isNone = true := by
  decide +kernel

end Markup
end StoryDocs
