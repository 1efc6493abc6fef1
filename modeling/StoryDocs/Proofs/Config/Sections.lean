import StoryDocs.Config.EditorSettings
import StoryDocs.Proofs.Text.Slice

/-!
# Sections of editor settings

What an editor configuration asks for is what the settings of some of its sections ask for, taken in order.  A
section whose header lists extensions is among them exactly if one of the extensions holds `ts` or `js`, be it a
script extension or only a longer name; all other such sections can be exchanged or left out.
-/

namespace StoryDocs
namespace Config

open Text

/-- Whether a line heads a section. -/
def EditorLine.isHeading : EditorLine → Bool
  | heading _ => true
  | _ => false

namespace EditorSettings

variable {text header part : List Char} {extensions above body below : List (List Char)} {active : Bool}
  {ls ms : List EditorLine}

/-! ## Headers that list extensions -/

/-- A header that lists extensions: one behind a star and a point, or any number of them between braces. -/
inductive Lists : List (List Char) → List Char → Prop
  | one (extension : List Char) : Lists [extension] ('*' :: '.' :: extension)
  | several (extensions : List (List Char)) :
      Lists extensions ('*' :: '.' :: '\x7b' :: ([','].intercalate extensions ++ ['\x7d']))

/-- Whether an extension holds the letters that all script extensions have in common. -/
def MentionsScript (extension : List Char) : Prop :=
  ['t', 's'] <:+: extension ∨ ['j', 's'] <:+: extension

instance (extension : List Char) : Decidable (MentionsScript extension) :=
  inferInstanceAs (Decidable (_ ∨ _))

theorem mentionsScript_of_mem (h : part ∈ scriptNames) : MentionsScript part := by
  have hall : ∀ name ∈ scriptNames, MentionsScript name := by decide
  exact hall part h

/-- A part without commas stands in a list of extensions if it stands in one of them. -/
theorem infix_intercalate_iff (hpart : ',' ∉ part) (hne : part ≠ []) :
    part <:+: [','].intercalate extensions ↔ ∃ e ∈ extensions, part <:+: e := by
  induction extensions with
  | nil => simpa [List.infix_nil] using hne
  | cons e extensions ih =>
      cases extensions with
      | nil => simp
      | cons d extensions =>
          have hjoined : [','].intercalate (e :: d :: extensions) =
              e ++ ',' :: [','].intercalate (d :: extensions) := by
            rw [List.intercalate_cons_cons, List.append_assoc]
            rfl
          rw [hjoined, infix_append_cons_iff hpart, ih]
          simp only [List.mem_cons, exists_eq_or_imp]

/-- A part that holds none of the marks of a list stands in its header if it stands in one of the extensions. -/
theorem Lists.infix_iff (h : Lists extensions header) (hmarks : ∀ c ∈ ['*', '.', '\x7b', '\x7d', ','], c ∉ part)
    (hne : part ≠ []) : part <:+: header ↔ ∃ e ∈ extensions, part <:+: e := by
  have hfront : ∀ {c s}, c ∈ ['*', '.', '\x7b', '\x7d', ','] → (part <:+: c :: s ↔ part <:+: s) := by
    intro c s hc
    have hsplit := @infix_append_cons_iff part s [] c (hmarks c hc)
    rw [List.nil_append, List.infix_nil] at hsplit
    exact hsplit.trans (or_iff_right hne)
  cases h with
  | one extension => simp [hfront]
  | several extensions =>
      rw [hfront (by simp), hfront (by simp), hfront (by simp), infix_append_cons_iff (hmarks _ (by simp)),
        infix_intercalate_iff (hmarks _ (by simp)) hne, List.infix_nil, or_iff_left hne]

/-- A section applies if one of its extensions holds the letters of script extensions. -/
theorem Lists.applies_iff (h : Lists extensions header) :
    applies header = true ↔ ∃ e ∈ extensions, MentionsScript e := by
  have hstar : (header == ['*']) = false ∧ startsWith ['*'] header = true := by
    cases h with
    | one extension => exact ⟨rfl, rfl⟩
    | several extensions => exact ⟨rfl, rfl⟩
  have hletters : ∀ part ∈ [['t', 's'], ['j', 's']], (part <:+: header ↔ ∃ e ∈ extensions, part <:+: e) := by
    intro part hpart
    refine h.infix_iff ?_ ?_
    · revert part
      decide
    · rintro rfl
      exact absurd hpart (by decide)
  have hts := hletters ['t', 's'] (by simp)
  have hjs := hletters ['j', 's'] (by simp)
  -- The names with an `x` behind the letters hold the letters as well.
  have hlong : ∀ front, front ++ ['x'] <:+: header → front <:+: header :=
    fun _ hx => (List.prefix_append _ _).isInfix.trans hx
  have happlies : applies header = true ↔ ['t', 's'] <:+: header ∨ ['j', 's'] <:+: header := by
    simp only [applies, scriptNames, hstar.1, hstar.2, Bool.false_or, Bool.and_true, List.any_cons, List.any_nil,
      Bool.or_false, Bool.or_eq_true, contains_iff]
    constructor
    · rintro (h | h | h | h)
      · exact .inl h
      · exact .inl (hlong ['t', 's'] h)
      · exact .inr h
      · exact .inr (hlong ['j', 's'] h)
    · rintro (h | h)
      · exact .inl h
      · exact .inr (.inr (.inl h))
  rw [happlies, hts, hjs, ← exists_or]
  refine exists_congr fun e => ?_
  rw [← and_or_left]
  rfl

/-! ## Settings that are taken over -/

/-- Take over settings in order. -/
def setAll (settings : EditorSettings) (taken : List (List Char × List Char)) : EditorSettings :=
  taken.foldl (fun settings s => settings.set s.1 s.2) settings

/-- The settings among lines. -/
def settingsOf : List EditorLine → List (List Char × List Char)
  | [] => []
  | .setting key value :: ls => (key, value) :: settingsOf ls
  | _ :: ls => settingsOf ls

/-- The settings among lines that stand in sections that apply; `active` tells whether the first lines do. -/
def takenFrom : Bool → List EditorLine → List (List Char × List Char)
  | _, [] => []
  | active, .other :: ls => takenFrom active ls
  | _, .heading header :: ls => takenFrom (applies header) ls
  | active, .setting key value :: ls =>
    if active then (key, value) :: takenFrom active ls else takenFrom active ls

theorem apply_eq_setAll (active : Bool) (settings : EditorSettings) (ls : List EditorLine) :
    apply active settings ls = settings.setAll (takenFrom active ls) := by
  induction ls generalizing active settings with
  | nil => rfl
  | cons line ls ih =>
      cases line with
      | other => exact ih active settings
      | heading header => exact ih (applies header) settings
      | setting key value =>
          cases active with
          | false => exact ih false settings
          | true => exact ih true (settings.set key value)

/-- What stands above a heading does not matter below it. -/
theorem takenFrom_append (hms : ∀ line ∈ ms.head?, line.isHeading = true) :
    takenFrom active (ls ++ ms) = takenFrom active ls ++ takenFrom false ms := by
  induction ls generalizing active with
  | nil =>
      cases ms with
      | nil => rfl
      | cons line ms =>
          cases line with
          | heading header => rfl
          | other => exact absurd (hms _ rfl) Bool.noConfusion
          | setting key value => exact absurd (hms _ rfl) Bool.noConfusion
  | cons line ls ih =>
      cases line with
      | other => exact ih
      | heading header => exact ih
      | setting key value =>
          cases active with
          | false => exact ih
          | true => exact congrArg ((key, value) :: ·) ih

/-- In one section either all settings are taken over or none. -/
theorem takenFrom_body (hls : ∀ line ∈ ls, line.isHeading = false) :
    takenFrom active ls = if active then settingsOf ls else [] := by
  induction ls with
  | nil => exact (ite_self []).symm
  | cons line ls ih =>
      obtain ⟨hline, hrest⟩ := List.forall_mem_cons.mp hls
      cases line with
      | other => exact ih hrest
      | heading header => cases hline
      | setting key value =>
          cases active with
          | false => exact ih hrest
          | true => exact congrArg ((key, value) :: ·) (ih hrest)

/-! ## Sections of a text -/

/-- The settings among lines of a text, whether they are taken over or not. -/
def settingsIn (ls : List (List Char)) : List (List Char × List Char) :=
  settingsOf (ls.map EditorLine.ofText)

/-- The settings of lines of a text that stand in sections that apply. -/
def taken (ls : List (List Char)) : List (List Char × List Char) :=
  takenFrom false (ls.map EditorLine.ofText)

/-- A text has a section with the given header and body between other lines; the next section starts below it, or
the text ends. -/
structure HasSection (text header : List Char) (above body below : List (List Char)) : Prop where
  lines : ∃ line, lines text = above ++ line :: (body ++ below) ∧ EditorLine.ofText line = .heading header
  body : ∀ line ∈ body, (EditorLine.ofText line).isHeading = false
  below : ∀ line ∈ below.head?, (EditorLine.ofText line).isHeading = true

theorem parse_eq_setAll (text : List Char) : parse text = setAll {} (taken (Text.lines text)) :=
  apply_eq_setAll false {} _

theorem taken_append (h : ∀ line ∈ below.head?, (EditorLine.ofText line).isHeading = true) :
    taken (above ++ below) = taken above ++ taken below := by
  rw [taken, List.map_append]
  refine takenFrom_append fun line hline => ?_
  rw [List.head?_map] at hline
  obtain ⟨first, hfirst, rfl⟩ := Option.map_eq_some_iff.mp hline
  exact h first hfirst

/-- A section that applies adds its settings to those of the other sections, and any other section adds none. -/
theorem HasSection.parse_eq (h : HasSection text header above body below) :
    parse text = setAll {} (taken above ++ (if applies header then settingsIn body else []) ++ taken below) := by
  obtain ⟨line, hlines, hline⟩ := h.lines
  have hheading : ∀ first ∈ (line :: body).head?, (EditorLine.ofText first).isHeading = true := by
    rintro first ⟨⟩
    rw [hline]
    rfl
  have hsection : taken (line :: body) = if applies header then settingsIn body else [] := by
    rw [taken, List.map_cons, hline]
    have hbody : ∀ l ∈ body.map EditorLine.ofText, l.isHeading = false := by
      intro l hl
      obtain ⟨first, hfirst, rfl⟩ := List.mem_map.mp hl
      exact h.body first hfirst
    exact takenFrom_body hbody
  rw [parse_eq_setAll, hlines, ← List.cons_append, ← List.append_assoc, taken_append h.below, taken_append hheading,
    hsection]

/-- **Sections that set the indentation.**  A section that lists extensions contributes its settings exactly if one
of the extensions holds `ts` or `js`.  If none does, the settings come out the same when its body is exchanged or
the section left out.  As long as no other names hold these letters, the extensions that matter are those of
scripts. -/
theorem listed_section_sets (hsection : HasSection text header above body below) (hlists : Lists extensions header) :
    parse text = setAll {} (taken above ++
        (if ∃ e ∈ extensions, MentionsScript e then settingsIn body else []) ++ taken below) ∧
      ((∀ e ∈ extensions, ¬MentionsScript e) → ∀ text',
        (Text.lines text' = above ++ below ∨ ∃ body', HasSection text' header above body' below) →
          parse text' = parse text) ∧
      ((∀ e ∈ extensions, MentionsScript e → e ∈ scriptNames) →
        parse text = setAll {} (taken above ++
          (if ∃ e ∈ extensions, e ∈ scriptNames then settingsIn body else []) ++ taken below)) := by
  have hparse : ∀ {text' body'}, HasSection text' header above body' below → parse text' = setAll {} (taken above ++
      (if ∃ e ∈ extensions, MentionsScript e then settingsIn body' else []) ++ taken below) := by
    intro text' body' hsection'
    simp only [hsection'.parse_eq, hlists.applies_iff]
  refine ⟨hparse hsection, ?_, ?_⟩
  · intro hnone text' hchange
    have hskipped : ¬∃ e ∈ extensions, MentionsScript e := fun ⟨e, he, hmentions⟩ => hnone e he hmentions
    rw [hparse hsection, if_neg hskipped, List.append_nil]
    rcases hchange with hlines | ⟨body', hsection'⟩
    · rw [parse_eq_setAll, hlines, taken_append hsection.below]
    · rw [hparse hsection', if_neg hskipped, List.append_nil]
  · intro hscript
    have hsame : (∃ e ∈ extensions, e ∈ scriptNames) ↔ ∃ e ∈ extensions, MentionsScript e :=
      ⟨fun ⟨e, he, hname⟩ => ⟨e, he, mentionsScript_of_mem hname⟩, fun ⟨e, he, hm⟩ => ⟨e, he, hscript e he hm⟩⟩
    simp only [hparse hsection, hsame]

/-- A section for style sheets and scripts between two others. -/
theorem listed_section_sets_scripts :
    HasSection "[*]\ntab_width=8\n[*.\x7bcss,tsx\x7d]\nindent_style = tab\nindent_size=x\n[*.md]\nindent_size=3".toList
        "*.\x7bcss,tsx\x7d".toList ["[*]".toList, "tab_width=8".toList]
        ["indent_style = tab".toList, "indent_size=x".toList] ["[*.md]".toList, "indent_size=3".toList] ∧
      Lists ["css".toList, "tsx".toList] "*.\x7bcss,tsx\x7d".toList ∧
      parse "[*]\ntab_width=8\n[*.\x7bcss,tsx\x7d]\nindent_style = tab\nindent_size=x\n[*.md]\nindent_size=3".toList =
        { useTabs := some true, indentSize := some 8 } := by
  have hsection : HasSection
      "[*]\ntab_width=8\n[*.\x7bcss,tsx\x7d]\nindent_style = tab\nindent_size=x\n[*.md]\nindent_size=3".toList
      "*.\x7bcss,tsx\x7d".toList ["[*]".toList, "tab_width=8".toList]
      ["indent_style = tab".toList, "indent_size=x".toList] ["[*.md]".toList, "indent_size=3".toList] :=
    ⟨⟨"[*.\x7bcss,tsx\x7d]".toList, by decide, by decide⟩, by decide, by decide⟩
  have hlists : Lists ["css".toList, "tsx".toList] "*.\x7bcss,tsx\x7d".toList := .several _
  refine ⟨hsection, hlists, ?_⟩
  rw [(listed_section_sets hsection hlists).1]
  decide +kernel

/-- The letters of a script extension in another one are enough for its section to apply. -/
theorem json_section_sets :
    HasSection "[*.json]\nindent_size = 8".toList "*.json".toList [] ["indent_size = 8".toList] [] ∧
      Lists ["json".toList] "*.json".toList ∧ "json".toList ∉ scriptNames ∧
      parse "[*.json]\nindent_size = 8".toList = { indentSize := some 8 } ∧ parse [] = {} :=
  ⟨⟨⟨"[*.json]".toList, by decide, by decide⟩, by decide, by decide⟩, .one _, by decide, by decide, rfl⟩

end EditorSettings
end Config
end StoryDocs
