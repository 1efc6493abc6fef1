import StoryDocs.Naming
import StoryDocs.Proofs.Markup.Prose
import StoryDocs.Proofs.Text.Slice
import StoryDocs.Script.Specifier

/-!
# Scanning embedded code

Characters that are no quote, slash or bracket do not change what a scanner of embedded code looks for.
So code with balanced braces is a group whatever comes behind it, and an import of a module is a script block
of its own, alone or as the last line of another block.
-/

namespace StoryDocs
namespace Markup

open Text

/-! ## Plain characters -/

/-- The characters that can change what a scanner of embedded code looks for. -/
def codeMarks : List Char := "\x22'\x60/\\\x7b\x7d[]()\n".toList

/-- Whether a character means nothing to the scanners of embedded code. -/
def isPlain (c : Char) : Bool :=
  !codeMarks.contains c

theorem isPlain_ne {c d : Char} (hc : isPlain c = true) (hd : isPlain d = false) : c ≠ d := by
  rintro rfl
  rw [hc] at hd
  cases hd

/-- No character of a name is a mark. -/
theorem isPlain_of_continuesName {c : Char} (h : Naming.continuesName c = true) : isPlain c = true := by
  have hmarks : ∀ d ∈ codeMarks, Naming.continuesName d = false := by decide
  rw [isPlain, Bool.not_eq_true', Bool.eq_false_iff]
  intro hmark
  rw [hmarks c (by simpa using hmark)] at h
  cases h

/-- Whether the braces of a text are balanced when `depth` more are open before it. -/
def balanced : Nat → List Char → Bool
  | depth, [] => depth == 0
  | depth, c :: s =>
    if c == '\x7b' then balanced (depth + 1) s
    else if c == '\x7d' then depth != 0 && balanced (depth - 1) s
    else balanced depth s

/-- Whether a text can stand in braces: it has no quote, backtick or slash, and its braces are balanced. -/
def isCode (text : List Char) : Bool :=
  text.all (fun c => c != '\x22' && c != '\x27' && c != '\x60' && c != '/') && balanced 0 text

section Scans

variable {c before quote : Char} {s w : List Char} {bound depth : Nat}

/-- No literal starts at a character that is no quote, backtick or slash. -/
theorem literalLength?_code (hc : c ≠ '\x22' ∧ c ≠ '\x27' ∧ c ≠ '\x60' ∧ c ≠ '/')
    (template : List Char → Option Nat) : literalLength? template before (c :: s) = none := by
  obtain ⟨hdouble, hsingle, htick, hslash⟩ := hc
  unfold literalLength?
  split
  · rename_i heq
    exact absurd (List.cons.inj heq).1 hslash
  · rename_i heq
    exact absurd (List.cons.inj heq).1 hslash
  · rename_i heq
    obtain ⟨rfl, rfl⟩ := List.cons.inj heq
    simp [hdouble, hsingle, htick]
  · rfl

/-- No literal starts at a plain character. -/
theorem literalLength?_plain (hc : isPlain c = true) (template : List Char → Option Nat) :
    literalLength? template before (c :: s) = none :=
  literalLength?_code ⟨isPlain_ne hc (by decide), isPlain_ne hc (by decide), isPlain_ne hc (by decide),
    isPlain_ne hc (by decide)⟩ template

/-- The brace that closes the last open one stands behind a balanced text. -/
theorem braceLength?_balanced (hcode : ∀ c ∈ w, c ≠ '\x22' ∧ c ≠ '\x27' ∧ c ≠ '\x60' ∧ c ≠ '/')
    (hbalanced : balanced depth w = true) (hbound : w.length < bound) :
    braceLength? bound (depth + 1) before (w ++ '\x7d' :: s) = some (w.length + 1) := by
  induction w generalizing depth bound before with
  | nil =>
      obtain ⟨bound, rfl⟩ := Nat.exists_eq_succ_of_ne_zero (by omega : bound ≠ 0)
      have hdepth : depth = 0 := by simpa [balanced] using hbalanced
      rw [List.nil_append, braceLength?, literalLength?_code (by decide)]
      simp [hdepth]
  | cons c w ih =>
      rw [List.length_cons] at hbound
      obtain ⟨bound, rfl⟩ := Nat.exists_eq_succ_of_ne_zero (by omega : bound ≠ 0)
      have hrest : ∀ {depth}, balanced depth w = true →
          braceLength? bound (depth + 1) c (w ++ '\x7d' :: s) = some (w.length + 1) :=
        fun h => ih (fun d hd => hcode d (by simp [hd])) h (by omega)
      rw [List.cons_append, braceLength?, literalLength?_code (hcode c (by simp))]
      rw [balanced] at hbalanced
      -- An opening brace has to be closed first, and a closing one closes such a brace.
      by_cases hopen : c = '\x7b'
      · rw [if_pos (by simp [hopen])] at hbalanced
        simp [hopen] at hrest ⊢
        exact hrest hbalanced
      rw [if_neg (by simpa using hopen)] at hbalanced
      by_cases hclose : c = '\x7d'
      · rw [if_pos (by simp [hclose]), Bool.and_eq_true, bne_iff_ne] at hbalanced
        obtain ⟨depth, rfl⟩ := Nat.exists_eq_succ_of_ne_zero hbalanced.1
        simp [hclose] at hrest ⊢
        exact hrest hbalanced.2
      · rw [if_neg (by simpa using hclose)] at hbalanced
        simp [hopen, hclose, hrest hbalanced]

/-- Code in braces is a group, whatever comes behind it. -/
theorem groupLength?_code (h : isCode w = true) (s : List Char) :
    groupLength? ('\x7b' :: w ++ '\x7d' :: s) = some (w.length + 2) := by
  rw [isCode, Bool.and_eq_true] at h
  have hcode : ∀ c ∈ w, c ≠ '\x22' ∧ c ≠ '\x27' ∧ c ≠ '\x60' ∧ c ≠ '/' := by
    intro c hc
    have hmarks := List.all_eq_true.mp h.1 c hc
    simpa [and_assoc] using hmarks
  have hscan : braceLength? (w ++ '\x7d' :: s).length.succ 1 '\x7b' (w ++ '\x7d' :: s) =
      some (w.length + 1) := by
    refine braceLength?_balanced hcode h.2 ?_
    rw [List.length_append, List.length_cons]
    omega
  rw [groupLength?, List.cons_append, List.length_cons, braceLength?, literalLength?_open_brace]
  simp only [beq_self_eq_true, if_true, Nat.zero_add]
  rw [hscan]
  rfl

/-- Plain characters are code without braces. -/
theorem isCode_of_plain (hw : w.all isPlain = true) : isCode w = true := by
  have hbalanced : balanced 0 w = true := by
    induction w with
    | nil => rfl
    | cons c w ih =>
        rw [List.all_cons, Bool.and_eq_true] at hw
        have hopen : c ≠ '\x7b' := isPlain_ne hw.1 (by decide)
        have hclose : c ≠ '\x7d' := isPlain_ne hw.1 (by decide)
        simpa [balanced, hopen, hclose] using ih hw.2
  rw [isCode, hbalanced, Bool.and_true, List.all_eq_true]
  intro c hc
  have hplain := List.all_eq_true.mp hw c hc
  have hmarks : ∀ d, isPlain d = false → c ≠ d := fun d hd => isPlain_ne hplain hd
  simp [hmarks '\x22' (by decide), hmarks '\x27' (by decide), hmarks '\x60' (by decide),
    hmarks '/' (by decide)]

theorem groupLength?_plain (hw : w.all isPlain = true) (s : List Char) :
    groupLength? ('\x7b' :: w ++ '\x7d' :: s) = some (w.length + 2) :=
  groupLength?_code (isCode_of_plain hw) s

/-- A quoted text is taken up to its quote. -/
theorem stringLength?_plain (hw : ∀ c ∈ w, c ≠ '\x27' ∧ c ≠ '\\' ∧ c ≠ '\n') (s : List Char) :
    stringLength? '\x27' (w ++ '\x27' :: s) = some (w.length + 1) := by
  induction w with
  | nil => simp [stringLength?]
  | cons c w ih =>
      obtain ⟨⟨hquote, hslash, hfeed⟩, hrest⟩ := List.forall_mem_cons.mp hw
      rw [List.cons_append, stringLength?]
      · simp [hquote, hfeed, ih hrest]
      · exact fun heq _ => hslash heq
      · exact fun _ _ heq _ => hslash heq

/-- Plain characters belong to a script block. -/
theorem scriptLengthFrom_plain (hw : w.all isPlain = true) (hbound : w.length ≤ bound) :
    scriptLengthFrom bound depth before (w ++ s) =
      scriptLengthFrom (bound - w.length) depth (w.getLast?.getD before) s + w.length := by
  induction w generalizing bound before with
  | nil => simp
  | cons c w ih =>
      rw [List.all_cons, Bool.and_eq_true] at hw
      obtain ⟨bound, rfl⟩ := Nat.exists_eq_succ_of_ne_zero (by simp at hbound; omega : bound ≠ 0)
      have hrest := @ih c bound hw.2 (by simpa using hbound)
      have hmarks : ∀ d ∈ codeMarks, c ≠ d := by
        rintro d hd rfl
        simp [isPlain, hd] at hw
      have hlast : (c :: w).getLast?.getD before = w.getLast?.getD c := by
        rw [List.getLast?_cons]
        rfl
      rw [List.cons_append, scriptLengthFrom, literalLength?_plain hw.1, hlast]
      simp [hmarks '\x7b' (by decide), hmarks '[' (by decide), hmarks '(' (by decide),
        hmarks '\x7d' (by decide), hmarks ']' (by decide), hmarks ')' (by decide),
        hmarks '\n' (by decide), hrest, Nat.add_assoc]

end Scans

/-! ## Script blocks -/

section Scripts

variable {before : Char} {s v name specifier : List Char} {bound : Nat}

/-- A script block starts with a keyword and what can come behind it. -/
theorem startsScript_iff : startsScript s = true ↔
    ∃ rest, (s = "import".toList ++ rest ∨ s = "export".toList ++ rest) ∧
      ∀ c, rest.head? = some c → (isBlank c || c == '\x7b' || c == '*') = true := by
  -- What comes behind the keyword decides.
  have hrest : ∀ rest, (dropLead? "import".toList s).or (dropLead? "export".toList s) = some rest →
      (startsScript s = true ↔
        ∀ c, rest.head? = some c → (isBlank c || c == '\x7b' || c == '*') = true) := by
    intro rest hkeyword
    rw [startsScript, hkeyword]
    cases rest with
    | nil => simp
    | cons c rest => simp
  constructor
  · intro h
    cases himport : dropLead? "import".toList s with
    | some rest =>
        exact ⟨rest, .inl (dropLead?_eq_some_iff.mp himport), (hrest rest (by rw [himport]; rfl)).mp h⟩
    | none =>
        cases hexport : dropLead? "export".toList s with
        | some rest =>
            exact ⟨rest, .inr (dropLead?_eq_some_iff.mp hexport),
              (hrest rest (by rw [himport, hexport]; rfl)).mp h⟩
        | none =>
            rw [startsScript, himport, hexport] at h
            cases h
  · rintro ⟨rest, rfl | rfl, hhead⟩
    · exact (hrest rest rfl).mpr hhead
    · exact (hrest rest rfl).mpr hhead

/-- The text behind the first line of a script block does not matter for its start. -/
theorem startsScript_append (h : startsScript v = true) (hs : s = [] ∨ s.head? = some '\n') :
    startsScript (v ++ s) = true := by
  obtain ⟨rest, hv, hhead⟩ := startsScript_iff.mp h
  refine startsScript_iff.mpr ⟨rest ++ s, ?_, ?_⟩
  · rcases hv with rfl | rfl
    · exact .inl (List.append_assoc ..)
    · exact .inr (List.append_assoc ..)
  · intro c hc
    cases rest with
    | cons d rest => exact hhead c hc
    | nil =>
        rcases hs with rfl | hs
        · cases hc
        · rw [List.nil_append, hs] at hc
          rw [← Option.some.inj hc]
          decide

/-- A text that the reader takes as a script block before every gap. -/
def Block (v : List Char) : Prop :=
  ∀ s, Gap s → startsScript (v ++ s) = true ∧ scriptLength (v ++ s) = v.length

/-- A text of a script block behind which the reader has no bracket open, whatever line comes next. -/
structure ScriptText (v : List Char) : Prop where
  starts : startsScript v = true
  ends : ∀ s, s = [] ∨ s.head? = some '\n' → ∃ bound before, s.length < bound ∧
    scriptLength (v ++ s) = scriptLengthFrom bound 0 before s + v.length

theorem Gap.head (h : Gap s) : s = [] ∨ s.head? = some '\n' := by
  rcases h with rfl | ⟨rest, rfl, _⟩
  · exact .inl rfl
  · exact .inr rfl

/-- A script block with no bracket open ends at a gap. -/
theorem Gap.scriptLengthFrom (h : Gap s) (hbound : s.length < bound) :
    scriptLengthFrom bound 0 before s = 0 := by
  obtain ⟨bound, rfl⟩ := Nat.exists_eq_succ_of_ne_zero (by omega : bound ≠ 0)
  rcases h with rfl | ⟨rest, rfl, hblank⟩
  · rfl
  · simp [Markup.scriptLengthFrom, literalLength?, hblank]

/-! ### Gaps before another text -/

theorem lineIsBlank_of_ahead {t : List Char} (h : Ahead s t) (hs : lineIsBlank s = true) :
    lineIsBlank t = true := by
  induction h with
  | nil => rfl
  | @cons c s t _ ih =>
      by_cases hc : c = '\n'
      · rw [hc]
        rfl
      · simp only [lineIsBlank, restOfLine, List.takeWhile_cons, bne_iff_ne, ne_eq, hc, not_false_eq_true,
          if_true, List.all_cons, Bool.and_eq_true] at hs ⊢
        exact ⟨hs.1, ih hs.2⟩
  | @stop c hc s t =>
      rcases hc with rfl | rfl | rfl
      · cases hs
      · cases hs
      · rfl

namespace Gap

variable {t value : List Char}

theorem of_alike (h : Gap (value ++ s)) (hvalue : value ≠ []) (halike : Alike s t) :
    Gap (value ++ t) := by
  obtain ⟨c, value, rfl⟩ := List.exists_cons_of_ne_nil hvalue
  rcases h with hnil | ⟨rest, hcons, hblank⟩
  · cases hnil
  · obtain ⟨rfl, rfl⟩ := List.cons.inj hcons
    exact .inr ⟨value ++ t, rfl, lineIsBlank_of_ahead (halike.ahead.append value) hblank⟩

/-- A gap that does not go on behind a line feed is a gap before every text. -/
theorem of_feed (h : Gap (value ++ s)) (hvalue : value.getLast? = some '\n')
    (hs : lineIsBlank s = false) (t : List Char) : Gap (value ++ t) := by
  obtain ⟨body, rfl⟩ := List.getLast?_eq_some_iff.mp hvalue
  rcases h with hnil | ⟨rest, hcons, hblank⟩
  · simp at hnil
  · rw [List.append_assoc] at hcons ⊢
    cases body with
    | nil =>
        obtain ⟨_, rfl⟩ := List.cons.inj hcons
        exact absurd (hs.symm.trans hblank) Bool.false_ne_true
    | cons c body =>
        obtain ⟨rfl, rfl⟩ := List.cons.inj hcons
        refine .inr ⟨_, rfl, ?_⟩
        have hline : ∀ x : List Char, lineIsBlank (body ++ '\n' :: x) = lineIsBlank body := by
          intro x
          rw [lineIsBlank, restOfLine_append_feed, lineIsBlank]
        exact (hline t).trans ((hline s).symm.trans hblank)

end Gap

theorem ScriptText.block (h : ScriptText v) : Block v := by
  intro s hs
  obtain ⟨bound, before, hbound, hlength⟩ := h.ends s hs.head
  refine ⟨startsScript_append h.starts hs.head, ?_⟩
  rw [hlength, hs.scriptLengthFrom hbound, Nat.zero_add]

open Script

/-- An import up to its quoted specifier, and from there on. -/
theorem namespaceImport_eq (name specifier : List Char) :
    Specifier.namespaceImport name specifier =
      ("import * as ".toList ++ name ++ " from ".toList) ++
        '\x27' :: (specifier ++ ['\x27', ';']) := by
  have hquote : " from \x27".toList = " from ".toList ++ ['\x27'] := rfl
  have hend : "\x27;".toList = ['\x27', ';'] := rfl
  unfold Specifier.namespaceImport
  generalize " from \x27".toList = quote at hquote ⊢
  generalize "\x27;".toList = close at hend ⊢
  rw [hquote, hend]
  simp only [List.append_assoc, List.cons_append, List.nil_append]

/-- The import of a module is scanned up to its end. -/
theorem scriptLengthFrom_namespaceImport (hname : name.all isPlain = true)
    (hspecifier : ∀ c ∈ specifier, c ≠ '\x27' ∧ c ≠ '\\' ∧ c ≠ '\n')
    (hbound : (Specifier.namespaceImport name specifier ++ s).length < bound) :
    ∃ left, s.length < left ∧
      scriptLengthFrom bound 0 before (Specifier.namespaceImport name specifier ++ s) =
        scriptLengthFrom left 0 ';' s + (Specifier.namespaceImport name specifier).length := by
  rw [namespaceImport_eq] at hbound ⊢
  have hplain : ("import * as ".toList ++ name ++ " from ".toList).all isPlain = true := by
    rw [List.all_append, List.all_append, hname]
    decide
  have hspace : ("import * as ".toList ++ name ++ " from ".toList).getLast?.getD before = ' ' := by
    rw [List.getLast?_append]
    rfl
  generalize "import * as ".toList ++ name ++ " from ".toList = lead at hplain hspace hbound ⊢
  simp only [List.length_append, List.length_cons, List.length_nil] at hbound
  rw [List.append_assoc, List.cons_append, List.append_assoc, scriptLengthFrom_plain hplain (by omega),
    hspace]
  obtain ⟨rest, hrest⟩ := Nat.exists_eq_succ_of_ne_zero (by omega : bound - lead.length ≠ 0)
  have hquoted : literalLength? (templateLength? rest) ' '
      ('\x27' :: (specifier ++ (['\x27', ';'] ++ s))) = some (specifier.length + 2) := by
    have hstring := stringLength?_plain hspecifier (';' :: s)
    have hspace : isAsciiAlphanumeric ' ' = false := rfl
    simp [literalLength?, hspace, hstring]
  have hdrop : ('\x27' :: (specifier ++ (['\x27', ';'] ++ s))).drop (specifier.length + 2) = [';'] ++ s := by
    rw [List.drop_succ_cons, List.drop_append]
    simp
  rw [hrest, scriptLengthFrom, hquoted]
  dsimp only
  rw [hdrop, scriptLengthFrom_plain (by decide) (by simp; omega)]
  refine ⟨rest - 1, by omega, ?_⟩
  simp
  omega

/-- The import of a module is a script text. -/
theorem scriptText_namespaceImport (hname : name.all isPlain = true)
    (hspecifier : ∀ c ∈ specifier, c ≠ '\x27' ∧ c ≠ '\\' ∧ c ≠ '\n') :
    ScriptText (Specifier.namespaceImport name specifier) where
  starts := startsScript_iff.mpr ⟨_, .inl rfl, fun c hc => by
    rw [← Option.some.inj hc]
    decide⟩
  ends := by
    intro s _
    obtain ⟨left, hleft, hscan⟩ :=
      scriptLengthFrom_namespaceImport hname hspecifier (Nat.lt_succ_self _)
    exact ⟨left, ';', hleft, hscan⟩

/-- So is a script text with the import as its last line. -/
theorem ScriptText.append_namespaceImport (h : ScriptText v) (hname : name.all isPlain = true)
    (hspecifier : ∀ c ∈ specifier, c ≠ '\x27' ∧ c ≠ '\\' ∧ c ≠ '\n') :
    ScriptText (v ++ '\n' :: Specifier.namespaceImport name specifier) where
  starts := startsScript_append h.starts (.inr rfl)
  ends := by
    intro s _
    rw [List.append_assoc, List.cons_append]
    obtain ⟨bound, before, hbound, hlength⟩ :=
      h.ends ('\n' :: (Specifier.namespaceImport name specifier ++ s)) (.inr rfl)
    obtain ⟨bound, rfl⟩ := Nat.exists_eq_succ_of_ne_zero (by omega : bound ≠ 0)
    -- The line of the import is not blank, so the block goes on there.
    have hblank : lineIsBlank (Specifier.namespaceImport name specifier ++ s) = false := rfl
    obtain ⟨left, hleft, hscan⟩ := @scriptLengthFrom_namespaceImport '\n' s name specifier bound hname
      hspecifier (by simpa using hbound)
    refine ⟨left, ';', hleft, ?_⟩
    rw [hlength, scriptLengthFrom]
    simp [literalLength?, hblank, hscan]
    omega

end Scripts

end Markup
end StoryDocs
