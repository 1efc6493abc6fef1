import StoryDocs.Layout.Discovery
import StoryDocs.Proofs.Files.Store
import StoryDocs.Proofs.Outcome

/-!
# Where a style comes from

The search for a style goes up once and looks for two kinds of files on its way.  It finds what two searches would
find that know nothing of each other: the preferences of the nearest directory that has any, and the editor settings
of the nearest directory that has a file of them.  What stands above the directory where a search ends is not asked
for.
-/

namespace StoryDocs
namespace Layout

open Config Files

/-! ## The nearest directory -/

section Nearest

variable {α : Type} {find look : Place → Except DiscoveryError (Option α)} {up : List Place}

/-- The first of some directories that has something, with what it has; the search ends where a look-up fails. -/
def nearest (find : Place → Except DiscoveryError (Option α)) :
    List Place → Except DiscoveryError (Option (Place × α))
  | [] => .ok none
  | directory :: up =>
    match find directory with
    | .error e => .error e
    | .ok (some a) => .ok (some (directory, a))
    | .ok none => nearest find up

/-- The directories that a search for the nearest one asks: those up to the first that has something, or where the
look-up fails. -/
def asked (find : Place → Except DiscoveryError (Option α)) : List Place → List Place
  | [] => []
  | directory :: up =>
    directory ::
      match find directory with
      | .ok none => asked find up
      | _ => []

theorem mem_asked_of_empty {d directory : Place} (h : find directory = .ok none) (hd : d ∈ asked find up) :
    d ∈ asked find (directory :: up) := by
  simp [asked, h, hd]

/-- Of the directories on a way up, those up to the given one are asked. -/
def AskedTo (up askedOnes : List Place) (directory : Place) : Prop :=
  ∃ below above, up = below ++ directory :: above ∧ askedOnes = below ++ [directory]

/-- No directory above the nearest one that has something is asked. -/
theorem asked_of_nearest {directory : Place} {a : α} (h : nearest find up = .ok (some (directory, a))) :
    AskedTo up (asked find up) directory := by
  induction up with
  | nil => cases h
  | cons d up ih =>
      rw [nearest] at h
      cases hfind : find d with
      | error e => simp [hfind] at h
      | ok found =>
          cases found with
          | some b =>
              obtain ⟨rfl, rfl⟩ : d = directory ∧ b = a := by simpa [hfind] using h
              exact ⟨[], up, rfl, by simp [asked, hfind]⟩
          | none =>
              obtain ⟨below, above, rfl, hasked⟩ := ih (by simpa [hfind] using h)
              exact ⟨d :: below, above, rfl, by simp [asked, hfind, hasked]⟩

/-- What was found, and in one more directory if nothing was. -/
def askNext (find : Place → Except DiscoveryError (Option α)) (directory : Place) :
    Option α → Except DiscoveryError (Option α)
  | some a => .ok (some a)
  | none => find directory

theorem askNext_congr {directory : Place} {found : Option α}
    (h : found = none → look directory = find directory) :
    askNext look directory found = askNext find directory found := by
  cases found with
  | none => exact h rfl
  | some a => rfl

/-- A search that has nothing behind a directory had nothing before, and there was nothing there. -/
theorem empty_of_askNext {directory : Place} {found : Option α} (h : askNext find directory found = .ok none) :
    found = none ∧ find directory = .ok none := by
  cases found with
  | none => exact ⟨rfl, h⟩
  | some a => cases h

/-- What a search has when the directories below are behind it leads to `final`: it found that there, or the nearest
directory above has it. -/
inductive Resolves (find : Place → Except DiscoveryError (Option α)) (up : List Place) :
    Option α → Option α → Prop
  | found (a : α) : Resolves find up (some a) (some a)
  | pending {last : Option (Place × α)} (hnearest : nearest find up = .ok last) :
      Resolves find up none (last.map Prod.snd)

namespace Resolves

variable {found final : Option α}

/-- Behind all directories nothing more is found. -/
theorem eq_of_nil (h : Resolves find [] found final) : found = final := by
  cases h with
  | found a => rfl
  | pending hnearest =>
      cases hnearest
      rfl

/-- One more directory is asked, if something is still missing. -/
theorem cons {directory : Place} (h : Resolves find (directory :: up) found final) :
    ∃ next, askNext find directory found = .ok next ∧ Resolves find up next final := by
  cases h with
  | found a => exact ⟨some a, rfl, .found a⟩
  | @pending last hnearest =>
      rw [nearest] at hnearest
      cases hfind : find directory with
      | error e => simp [hfind] at hnearest
      | ok next =>
          rw [hfind] at hnearest
          refine ⟨next, hfind, ?_⟩
          cases next with
          | none => exact .pending hnearest
          | some a =>
              cases hnearest
              exact .found a

end Resolves

end Nearest

/-! ## Two searches in one -/

namespace Found

variable {s t : Store} {up : List Place}

/-- A directory is asked for each kind of file that is still missing. -/
theorem visit_eq (s : Store) (directory : Place) (f : Found) :
    f.visit s directory = askNext (preferencesAt s) directory f.preferences >>= fun p =>
      askNext (settingsAt s) directory f.settings >>= fun e => .ok ⟨p, e⟩ := by
  obtain ⟨preferences, settings⟩ := f
  cases preferences with
  | none =>
      cases settings with
      | none => rfl
      | some e => rfl
  | some p =>
      cases settings with
      | none => rfl
      | some e => rfl

/-- The search finds what the two searches find. -/
theorem search_resolves {f : Found} {p : Option Preferences} {e : Option EditorSettings}
    (hp : Resolves (preferencesAt s) up f.preferences p) (he : Resolves (settingsAt s) up f.settings e) :
    f.search s up = .ok ⟨p, e⟩ := by
  induction up generalizing f with
  | nil =>
      obtain ⟨preferences, settings⟩ := f
      obtain rfl : preferences = p := hp.eq_of_nil
      obtain rfl : settings = e := he.eq_of_nil
      rfl
  | cons directory up ih =>
      obtain ⟨preferences, hpreferences, hp⟩ := hp.cons
      obtain ⟨settings, hsettings, he⟩ := he.cons
      have hvisit : f.visit s directory = .ok ⟨preferences, settings⟩ := by
        rw [visit_eq]
        exact bind_eq_ok_iff.mpr ⟨_, hpreferences, bind_eq_ok_iff.mpr ⟨_, hsettings, rfl⟩⟩
      refine bind_eq_ok_iff.mpr ⟨_, hvisit, ?_⟩
      dsimp only
      split
      · -- Both are found, so the directories above cannot matter.
        rename_i hboth
        rw [Bool.and_eq_true] at hboth
        cases hp with
        | pending _ => cases hboth.1
        | found p =>
            cases he with
            | pending _ => cases hboth.2
            | found e => rfl
      · exact ih hp he

/-- Two stores that agree on what is still asked for give the same, failures included. -/
theorem search_congr {f : Found}
    (hp : f.preferences = none → ∀ d ∈ asked (preferencesAt s) up, preferencesAt t d = preferencesAt s d)
    (he : f.settings = none → ∀ d ∈ asked (settingsAt s) up, settingsAt t d = settingsAt s d) :
    f.search t up = f.search s up := by
  induction up generalizing f with
  | nil => rfl
  | cons directory up ih =>
      have hvisit : f.visit t directory = f.visit s directory := by
        rw [visit_eq, visit_eq, askNext_congr fun hnone => hp hnone directory (by simp [asked]),
          askNext_congr fun hnone => he hnone directory (by simp [asked])]
      rw [search, search, hvisit, visit_eq]
      cases hpreferences : askNext (preferencesAt s) directory f.preferences with
      | error e => rfl
      | ok preferences =>
          cases hsettings : askNext (settingsAt s) directory f.settings with
          | error e => rfl
          | ok settings =>
              show (if _ then _ else _) = (if _ then _ else _)
              split
              · rfl
              · -- What is missing still was missing before, and the directory had nothing.
                refine ih ?_ ?_
                · rintro rfl d hd
                  obtain ⟨hbefore, hempty⟩ := empty_of_askNext hpreferences
                  exact hp hbefore d (mem_asked_of_empty hempty hd)
                · rintro rfl d hd
                  obtain ⟨hbefore, hempty⟩ := empty_of_askNext hsettings
                  exact he hbefore d (mem_asked_of_empty hempty hd)

end Found

/-! ## The files of a directory -/

section Files

variable {s t : Store} {d : Place}

/-- A file of a directory holds a text. -/
def Holds (s : Store) (d : Place) (name : String) (text : List Char) : Prop :=
  s.isFile (d ++ [name.toList]) = true ∧ s.read (d ++ [name.toList]) = .ok text

/-- A directory has no file of a name. -/
def Lacks (s : Store) (d : Place) (name : String) : Prop :=
  s.isFile (d ++ [name.toList]) = false

/-- The preferences of a directory: those in the first of its four files, of which the last one needs to have an
object of them. -/
inductive Prefers (s : Store) (d : Place) (p : Preferences) : Prop
  | any {text : List Char} (hholds : Holds s d ".prettierrc" text) (hread : anyPreferences? text = some p)
  | json {text : List Char} (hany : Lacks s d ".prettierrc") (hholds : Holds s d ".prettierrc.json" text)
      (hread : Json.preferences? text = some p)
  | toml {text : List Char} (hany : Lacks s d ".prettierrc") (hjson : Lacks s d ".prettierrc.json")
      (hholds : Holds s d ".prettierrc.toml" text) (hread : Toml.preferences? text = some p)
  | package {text : List Char} (hany : Lacks s d ".prettierrc") (hjson : Lacks s d ".prettierrc.json")
      (htoml : Lacks s d ".prettierrc.toml") (hholds : Holds s d "package.json" text)
      (hread : Json.section? "prettier".toList text = some (some p))

/-- The first of some files decides if it exists, and else the others do. -/
theorem firstPreferences_cons_iff {name : String} {read : List Char → Option (Option Preferences)}
    {rest : List (Name × (List Char → Option (Option Preferences)))} {p : Preferences} :
    firstPreferences s d ((name.toList, read) :: rest) = .ok (some p) ↔
      (∃ text, Holds s d name text ∧ read text = some (some p)) ∨
        Lacks s d name ∧ firstPreferences s d rest = .ok (some p) := by
  unfold Holds Lacks
  rw [firstPreferences]
  cases hfile : s.isFile (d ++ [name.toList]) with
  | false => simp
  | true =>
      simp only [if_true, true_and, Bool.true_eq_false, false_and, or_false]
      cases s.read (d ++ [name.toList]) with
      | error fault => simp
      | ok text =>
          cases hread : read text with
          | none => simp [hread]
          | some found => simp [hread]

theorem preferencesAt_iff {p : Preferences} : preferencesAt s d = .ok (some p) ↔ Prefers s d p := by
  unfold preferencesAt preferenceFiles
  rw [firstPreferences_cons_iff, firstPreferences_cons_iff, firstPreferences_cons_iff, firstPreferences_cons_iff]
  have hnone : ∀ {o : Option Preferences}, o.map some = some (some p) ↔ o = some p := by simp
  simp only [hnone]
  constructor
  · rintro (⟨_, hholds, hread⟩ | ⟨hany, ⟨_, hholds, hread⟩ | ⟨hjson, ⟨_, hholds, hread⟩ |
      ⟨htoml, ⟨_, hholds, hread⟩ | ⟨_, hend⟩⟩⟩⟩)
    · exact .any hholds hread
    · exact .json hany hholds hread
    · exact .toml hany hjson hholds hread
    · exact .package hany hjson htoml hholds hread
    · cases hend
  · rintro (⟨hholds, hread⟩ | ⟨hany, hholds, hread⟩ | ⟨hany, hjson, hholds, hread⟩ |
      ⟨hany, hjson, htoml, hholds, hread⟩)
    · exact .inl ⟨_, hholds, hread⟩
    · exact .inr ⟨hany, .inl ⟨_, hholds, hread⟩⟩
    · exact .inr ⟨hany, .inr ⟨hjson, .inl ⟨_, hholds, hread⟩⟩⟩
    · exact .inr ⟨hany, .inr ⟨hjson, .inr ⟨htoml, .inl ⟨_, hholds, hread⟩⟩⟩⟩

/-- Whether there is a file, and what it holds, is told by what stands at its place. -/
theorem file_congr {place : Place} (h : t.get? place = s.get? place) :
    t.isFile place = s.isFile place ∧ t.read place = s.read place := by
  constructor
  · rw [Store.isFile, h, Store.isFile]
  · rw [Store.read, h, Store.read]

theorem firstPreferences_congr {files : List (Name × (List Char → Option (Option Preferences)))}
    (h : ∀ f ∈ files, t.get? (d ++ [f.1]) = s.get? (d ++ [f.1])) :
    firstPreferences t d files = firstPreferences s d files := by
  induction files with
  | nil => rfl
  | cons f files ih =>
      obtain ⟨name, read⟩ := f
      obtain ⟨hfile, hread⟩ := file_congr (h (name, read) (by simp))
      simp only [firstPreferences, hfile, hread, ih fun f hf => h f (by simp [hf])]

theorem settingsAt_congr
    (h : t.get? (d ++ [".editorconfig".toList]) = s.get? (d ++ [".editorconfig".toList])) :
    settingsAt t d = settingsAt s d := by
  obtain ⟨hfile, hread⟩ := file_congr h
  simp only [settingsAt, hfile, hread]

end Files

/-! ## Layers of settings -/

/-- What preferences say of commas: a policy, or a name that stands for none; without a word, all commas. -/
def commaPolicy (p : Option Preferences) : Except (List Char) TrailingComma :=
  match p.bind (·.trailingComma) with
  | none => .ok .everywhere
  | some name =>
    match TrailingComma.ofName? (String.ofList name) with
    | none => .error name
    | some policy => .ok policy

/-- Preferences over editor settings over the values that configured projects start from, field by field. -/
def layered (p : Option Preferences) (e : Option EditorSettings) (comma : TrailingComma) : Style where
  tabWidth := ((p.bind (·.tabWidth)).or (e.bind (·.indentSize))).getD 2
  useTabs := ((p.bind (·.useTabs)).or (e.bind (·.useTabs))).getD false
  singleQuote := (p.bind (·.singleQuote)).getD false
  trailingComma := comma

/-- Files that are missing are as good as empty ones, as long as there is another. -/
theorem layered_getD (p : Option Preferences) (e : Option EditorSettings) (comma : TrailingComma) :
    layered (some (p.getD {})) (some (e.getD {})) comma = layered p e comma := by
  cases p with
  | none =>
      cases e with
      | none => rfl
      | some e => rfl
  | some p =>
      cases e with
      | none => simp [layered]
      | some e => rfl

theorem commaPolicy_getD (p : Option Preferences) : commaPolicy (some (p.getD {})) = commaPolicy p := by
  cases p with
  | none => rfl
  | some p => rfl

theorem withPreferences_eq (p : Preferences) (e : EditorSettings) :
    withPreferences p (withSettings e Style.unconfigured) =
      match commaPolicy (some p) with
      | .ok comma => .ok (layered (some p) (some e) comma)
      | .error name => .error (.unknownComma name) := by
  have hlayers : ∀ comma, (⟨p.tabWidth.getD (withSettings e Style.unconfigured).tabWidth,
      p.useTabs.getD (withSettings e Style.unconfigured).useTabs,
      p.singleQuote.getD (withSettings e Style.unconfigured).singleQuote, comma⟩ : Style) =
        layered (some p) (some e) comma := by
    intro comma
    simp [layered, withSettings, Style.unconfigured, Option.getD_or]
  unfold withPreferences commaPolicy
  rw [Option.bind_some]
  cases p.trailingComma with
  | none => exact congrArg Except.ok (hlayers _)
  | some name =>
      dsimp only
      cases TrailingComma.ofName? (String.ofList name) with
      | none => rfl
      | some policy => exact congrArg Except.ok (hlayers _)

/-- Where one of the two kinds of files is found, its settings are laid over the others. -/
theorem style_eq {p : Option Preferences} {e : Option EditorSettings} (hfound : p ≠ none ∨ e ≠ none) :
    Found.style ⟨p, e⟩ =
      match commaPolicy p with
      | .ok comma => .ok (some (layered p e comma))
      | .error name => .error (.unknownComma name) := by
  have hstyle : Found.style ⟨p, e⟩ =
      (withPreferences (p.getD {}) (withSettings (e.getD {}) Style.unconfigured)).map some := by
    cases p with
    | some p => rfl
    | none =>
        cases e with
        | some e => rfl
        | none => simp at hfound
  rw [hstyle, withPreferences_eq, commaPolicy_getD]
  simp only [layered_getD]
  cases commaPolicy p with
  | error name => rfl
  | ok comma => rfl

variable {s : Store} {start : Place}

theorem discover_eq {p : Option (Place × Preferences)} {e : Option (Place × EditorSettings)}
    (hp : nearest (preferencesAt s) (ancestors start) = .ok p)
    (he : nearest (settingsAt s) (ancestors start) = .ok e) :
    discover s start = Found.style ⟨p.map Prod.snd, e.map Prod.snd⟩ := by
  have hsearch : Found.search s (ancestors start) {} = .ok ⟨p.map Prod.snd, e.map Prod.snd⟩ :=
    Found.search_resolves (.pending hp) (.pending he)
  rw [discover, hsearch]
  rfl

/-- **Two searches for the nearest directory.**  A directory has the preferences of the first of its four files.  Unless
a look-up fails on the way to the nearest directories `p` and `e` of the two kinds, the style is what they have, laid
over the values that configured projects start from; there is none if neither is found, and a name that is no policy
for commas is an error.  No directory above `p` is asked for preferences and none above `e` for editor settings, and two
stores that agree on what is asked for give the same, whatever else is in them. -/
theorem discover_nearest (s : Store) (start : Place) :
    (∀ d p, preferencesAt s d = .ok (some p) ↔ Prefers s d p) ∧
      (∀ p e, nearest (preferencesAt s) (ancestors start) = .ok p →
        nearest (settingsAt s) (ancestors start) = .ok e →
          (p = none → e = none → discover s start = .ok none) ∧
          (p ≠ none ∨ e ≠ none → discover s start =
            match commaPolicy (p.map Prod.snd) with
            | .ok comma => .ok (some (layered (p.map Prod.snd) (e.map Prod.snd) comma))
            | .error name => .error (.unknownComma name)) ∧
          (∀ found ∈ p, AskedTo (ancestors start) (asked (preferencesAt s) (ancestors start)) found.1) ∧
          ∀ found ∈ e, AskedTo (ancestors start) (asked (settingsAt s) (ancestors start)) found.1) ∧
      ∀ t : Store,
        (∀ d ∈ asked (preferencesAt s) (ancestors start), ∀ f ∈ preferenceFiles,
          t.get? (d ++ [f.1]) = s.get? (d ++ [f.1])) →
        (∀ d ∈ asked (settingsAt s) (ancestors start),
          t.get? (d ++ [".editorconfig".toList]) = s.get? (d ++ [".editorconfig".toList])) →
        discover t start = discover s start := by
  refine ⟨fun d p => preferencesAt_iff, ?_, ?_⟩
  · intro p e hp he
    refine ⟨?_, ?_, ?_, ?_⟩
    · rintro rfl rfl
      rw [discover_eq hp he]
      rfl
    · intro hfound
      rw [discover_eq hp he, style_eq]
      simpa using hfound
    · rintro found rfl
      exact asked_of_nearest hp
    · rintro found rfl
      exact asked_of_nearest he
  · intro t hpreferences hsettings
    have hsearch : Found.search t (ancestors start) {} = Found.search s (ancestors start) {} :=
      Found.search_congr (fun _ d hd => firstPreferences_congr (hpreferences d hd))
        fun _ d hd => settingsAt_congr (hsettings d hd)
    rw [discover, hsearch, discover]

/-- A directory with editor settings below one with preferences, below one whose two files cannot be read and do not
matter. -/
theorem discover_nearest_nested :
    ∃ s : Store,
      s = .ofEntries [([".editorconfig".toList], .file (.bytes [255])),
        ([".prettierrc.json".toList], .file (.text "\x7b".toList)),
        ([['a'], ".prettierrc".toList], .file (.text "\x7b\x22useTabs\x22:true\x7d".toList)),
        ([['a'], ['b'], ".editorconfig".toList], .file (.text "[*]\nindent_size = 4".toList)),
        ([['a'], ['b'], "package.json".toList], .file (.text "\x7b\x22prettier\x22:\x22c\x22\x7d".toList))] ∧
      nearest (preferencesAt s) (ancestors [['a'], ['b']]) = .ok (some ([['a']], { useTabs := some true })) ∧
      nearest (settingsAt s) (ancestors [['a'], ['b']]) = .ok (some ([['a'], ['b']], { indentSize := some 4 })) ∧
      discover s [['a'], ['b']] = .ok (some ⟨4, true, false, .everywhere⟩) ∧
      discover ⟨s.entries.drop 2⟩ [['a'], ['b']] = discover s [['a'], ['b']] := by
  refine ⟨_, rfl, ?_⟩
  generalize hs : Store.ofEntries _ = s
  have hp : nearest (preferencesAt s) (ancestors [['a'], ['b']]) =
      .ok (some ([['a']], { useTabs := some true })) := by
    subst hs
    decide +kernel
  have he : nearest (settingsAt s) (ancestors [['a'], ['b']]) =
      .ok (some ([['a'], ['b']], { indentSize := some 4 })) := by
    subst hs
    decide
  obtain ⟨_, hresult, hsame⟩ := discover_nearest s [['a'], ['b']]
  refine ⟨hp, he, (hresult _ _ hp he).2.1 (.inl (Option.some_ne_none _)), hsame _ ?_ ?_⟩
  · subst hs
    decide +kernel
  · subst hs
    decide

/-- A directory has preferences and no look-up fails, but the name it has for commas is no policy: there is no
style. -/
theorem unknown_comma_fails :
    ∃ s : Store,
      s = .ofEntries [([".prettierrc.json".toList],
        .file (.text "\x7b\x22trailingComma\x22:\x22sometimes\x22\x7d".toList))] ∧
      nearest (preferencesAt s) (ancestors []) =
        .ok (some ([], { trailingComma := some "sometimes".toList })) ∧
      nearest (settingsAt s) (ancestors []) = .ok none ∧
      discover s [] = .error (.unknownComma "sometimes".toList) :=
  ⟨_, rfl, by decide +kernel, by decide +kernel, by decide +kernel⟩

end Layout
end StoryDocs
