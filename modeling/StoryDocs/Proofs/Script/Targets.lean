import Mathlib.Data.List.Forall2
import StoryDocs.Proofs.Script.Sources

/-!
# Where specifiers point

An edited script has the sources of the script in their places.  Each that pointed into the package is followed
by where it points to now, if that can stand between its quotes as it is; the others keep their values.
-/

namespace StoryDocs
namespace Script

open Text

variable {features : Features} {dialect : Dialect} {context : String} {text old new out s front rest body target
  v : List Char} {n : Nat} {quote : Char} {items items' sources placed : List Tree} {source t : Tree} {k : Kind}
  {label : String} {parts : List Tree}

/-! ## Sources in their places -/

/-- A source stands between the quotes at its place exactly if they denote its name. -/
theorem quotedIn_iff (hquote : IsQuote quote) {span : Span}
    (hspan : span = ⟨front.length, front.length + (quote :: body ++ [quote]).length⟩) :
    (Tree.node k span label parts).QuotedIn (front ++ (quote :: body ++ [quote]) ++ rest) ↔
      Denotes (quote :: body ++ [quote]) label.toList := by
  constructor
  · rintro ⟨front', quote', body', rest', htext, _, hspan', hdenotes⟩
    obtain ⟨hstart, hstop⟩ := Span.mk.inj (hspan.symm.trans hspan')
    rw [List.append_assoc front, List.append_assoc front'] at htext
    obtain ⟨rfl, hbehind⟩ := List.append_inj htext hstart
    obtain ⟨hliteral, _⟩ := List.append_inj hbehind (by omega)
    rw [hliteral]
    exact hdenotes
  · exact fun hdenotes => ⟨front, quote, body, rest, rfl, hquote, hspan, hdenotes⟩

/-- A value that can stand between quotes as it is. -/
def Unescaped (quote : Char) (v : List Char) : Prop :=
  ∀ c ∈ v, c ∉ [quote, '\\', '\n', '\r']

/-- A source of a script, and what stands in its place once the sources that point into `old` are pointed to
`new`. -/
structure Repointed (old new text out : List Char) (source t : Tree) : Prop where
  /-- A source that does not point into the package keeps its value. -/
  kept : (∀ target, ¬PointsTo old new source.name.toList target) → t.name = source.name ∧ t.QuotedIn out
  /-- Another has where it points to now between its quotes, and that is its value exactly if it needs no
  escape there. -/
  moved : ∀ target, PointsTo old new source.name.toList target → t.name = String.ofList target ∧
    ∃ quote front rest, text[source.span.start]? = some quote ∧
      out = front ++ (quote :: target ++ [quote]) ++ rest ∧
      t.span = ⟨front.length, front.length + (quote :: target ++ [quote]).length⟩ ∧
      (t.QuotedIn out ↔ Unescaped quote target)

theorem PointsTo.unique {target' : List Char} (h : PointsTo old new v target) (h' : PointsTo old new v target') :
    target = target' := by
  have hmoved := moved?_eq_some_iff.mpr h
  rw [moved?_eq_some_iff.mpr h'] at hmoved
  exact (Option.some.inj hmoved).symm

/-- Edits leave every source in its place. -/
theorem Edited.exists_placed (h : Edited old new n sources s out) {front' : List Char} (hfront : front.length = n)
    (hquoted : ∀ source ∈ sources, source.QuotedIn (front ++ s)) :
    ∃ placed, List.Forall₂ (Repointed old new (front ++ s) (front' ++ out)) sources placed := by
  induction h generalizing front front' with
  | rest => exact ⟨[], .nil⟩
  | @kept n source sources lead body s out quote hquote hspan hvalue hrest ih =>
      have htext : front ++ (lead ++ (quote :: body ++ [quote]) ++ s) =
          front ++ lead ++ (quote :: body ++ [quote]) ++ s := by
        simp only [List.append_assoc]
      have hplaced : front' ++ (lead ++ (quote :: body ++ [quote]) ++ out) =
          front' ++ lead ++ (quote :: body ++ [quote]) ++ out := by
        simp only [List.append_assoc]
      rw [htext] at hquoted ⊢
      rw [hplaced]
      obtain ⟨k, span, name, parts⟩ := source
      have hlength : (front ++ lead ++ (quote :: body ++ [quote])).length = span.stop := by
        rw [show span = _ from hspan, List.length_append, List.length_append, hfront]
      obtain ⟨placed, hplaced⟩ := @ih (front ++ lead ++ (quote :: body ++ [quote]))
        (front' ++ lead ++ (quote :: body ++ [quote])) hlength fun a ha => hquoted a (List.mem_cons_of_mem _ ha)
      have hdenotes := (quotedIn_iff hquote (by rw [show span = _ from hspan, @List.length_append _ front, hfront])).mp
        (hquoted _ List.mem_cons_self)
      refine ⟨.node k ⟨(front' ++ lead).length, (front' ++ lead).length + (quote :: body ++ [quote]).length⟩ name
        parts :: placed, .cons ⟨fun _ => ⟨rfl, (quotedIn_iff hquote rfl).mpr hdenotes⟩, fun target htarget => ?_⟩
        hplaced⟩
      exact absurd htarget (hvalue target)
  | @moved n source sources lead body target s out quote hquote hspan hvalue hrest ih =>
      have htext : front ++ (lead ++ (quote :: body ++ [quote]) ++ s) =
          front ++ lead ++ (quote :: body ++ [quote]) ++ s := by
        simp only [List.append_assoc]
      have hplaced : front' ++ (lead ++ (quote :: target ++ [quote]) ++ out) =
          front' ++ lead ++ (quote :: target ++ [quote]) ++ out := by
        simp only [List.append_assoc]
      rw [htext] at hquoted ⊢
      rw [hplaced]
      obtain ⟨k, span, name, parts⟩ := source
      have hlength : (front ++ lead ++ (quote :: body ++ [quote])).length = span.stop := by
        rw [show span = _ from hspan, List.length_append, List.length_append, hfront]
      obtain ⟨placed, hplaced⟩ := @ih (front ++ lead ++ (quote :: body ++ [quote]))
        (front' ++ lead ++ (quote :: target ++ [quote])) hlength fun a ha => hquoted a (List.mem_cons_of_mem _ ha)
      refine ⟨.node k ⟨(front' ++ lead).length, (front' ++ lead).length + (quote :: target ++ [quote]).length⟩
        (String.ofList target) parts :: placed, .cons ⟨fun hnone => absurd hvalue (hnone target),
        fun target' htarget => ?_⟩ hplaced⟩
      obtain rfl := hvalue.unique htarget
      refine ⟨rfl, quote, front' ++ lead, out, ?_, rfl, rfl, ?_⟩
      · have hstart : (front ++ lead).length = span.start := by
          rw [show span = _ from hspan, List.length_append, hfront]
        show (front ++ lead ++ (quote :: body ++ [quote]) ++ s)[span.start]? = _
        rw [← hstart, List.append_assoc, List.getElem?_append_right (Nat.le_refl _), Nat.sub_self]
        rfl
      -- A target is written as it is, so its literal denotes it exactly if it needs no escape.
      · rw [quotedIn_iff hquote rfl, String.toList_ofList, denotes_quoted_iff hquote]
        rfl

/-! ## Values after edits -/

/-- Where a value points to lies in the old package only if that package lies below the new one. -/
theorem PointsTo.target_apart {target' : List Char} (h : PointsTo old new v target)
    (hnew : new ≠ old ∧ ∀ path, new ≠ old ++ '/' :: path) (htarget : PointsTo old new target target') :
    ∃ path, old = new ++ '/' :: path := by
  have hpoints := (exists_pointsTo_iff old new target).mp ⟨target', htarget⟩
  cases h with
  | package =>
      rcases hpoints with heq | ⟨p, heq⟩
      · exact absurd heq hnew.1
      · exact absurd heq (hnew.2 p)
  | blocks =>
      rcases hpoints with heq | ⟨p, heq⟩
      · exact absurd heq hnew.1
      · exact absurd heq (hnew.2 p)
  | @path p hp =>
      rcases hpoints with heq | ⟨q, heq⟩
      · exact ⟨p, heq.symm⟩
      · rcases List.append_eq_append_iff.mp heq with ⟨tail, hold, htail⟩ | ⟨tail, hnew', htail⟩
        · cases tail with
          | nil => exact absurd (hold.trans (List.append_nil new)).symm hnew.1
          | cons c tail =>
              obtain rfl := (List.cons.inj htail).1
              exact ⟨tail, hold⟩
        · cases tail with
          | nil => exact absurd (hnew'.trans (List.append_nil old)) hnew.1
          | cons c tail =>
              obtain rfl := (List.cons.inj htail).1
              exact absurd hnew' (hnew.2 tail)

theorem Denotes.names_eq {name : String} {literal : List Char} (h : Denotes literal name.toList)
    (h' : Denotes literal label.toList) : name = label :=
  String.toList_injective (h.unique h')

theorem Tree.QuotedIn.unique {t' : Tree} (h : t.QuotedIn text) (h' : t'.QuotedIn text) (hspan : t.span = t'.span) :
    t.name = t'.name := by
  obtain ⟨k, span, name, parts⟩ := t
  obtain ⟨k', span', name', parts'⟩ := t'
  obtain rfl : span = span' := hspan
  obtain ⟨front, quote, body, rest, rfl, hquote, hspan, hdenotes⟩ := h
  exact hdenotes.names_eq ((quotedIn_iff hquote hspan).mp h')

theorem exists_of_mem_right {R : Tree → Tree → Prop} (h : List.Forall₂ R sources placed) (ht : t ∈ placed) :
    ∃ source, R source t := by
  induction h with
  | nil => cases ht
  | cons hfirst _ ih =>
      rcases List.mem_cons.mp ht with rfl | ht
      · exact ⟨_, hfirst⟩
      · exact ih ht

/-- The edits of a script that mentions the package, or in which nothing points into it. -/
theorem move_eq (hitems : Module.parse? dialect.features text = some items)
    (hmention : Text.contains old text = true ∨
      ∀ source ∈ items.filterMap Tree.source?, ∀ target, ¬PointsTo old new source.name.toList target) :
    ∃ out, Specifier.move text old new dialect context = .ok out ∧
      Edited old new 0 (items.filterMap Tree.source?) text out := by
  have hedited := @edited_spliceFrom old new text (items.filterMap Tree.source?) []
    (Module.sources_inOrder hitems) (fun _ _ => Nat.zero_le _)
  rw [Specifier.move, hitems]
  cases hcontains : Text.contains old text with
  | true => exact ⟨_, rfl, hedited⟩
  | false =>
      rcases hmention with hmention | hnone
      · rw [hcontains] at hmention
        cases hmention
      · rw [hedited.eq_of_none hnone] at hedited
        exact ⟨text, rfl, hedited⟩

/-- Moving a package points every specifier to its new place.  What stands in the place of a specifier has the
value that the package and its paths get, unless that value needs an escape between the quotes; and a specifier
of an accepted result that stands in such a place has that value, so none points into the old package, but for
packages of which the old one lies below the new one.  A script is edited if it mentions the package; one that
does not is kept, and has to point nowhere into it. -/
theorem move_repoints (hitems : Module.parse? dialect.features text = some items)
    (hmention : Text.contains old text = true ∨
      ∀ source ∈ items.filterMap Tree.source?, ∀ target, ¬PointsTo old new source.name.toList target)
    (hnew : new ≠ old ∧ ∀ path, new ≠ old ++ '/' :: path) :
    ∃ out placed, Specifier.move text old new dialect context = .ok out ∧
      List.Forall₂ (Repointed old new text out) (items.filterMap Tree.source?) placed ∧
      ∀ items', Module.parse? dialect.features out = some items' →
        ∀ source ∈ items'.filterMap Tree.source?, ∀ t ∈ placed, source.span = t.span → t.QuotedIn out →
          source.name = t.name ∧
            ∀ target, PointsTo old new source.name.toList target → ∃ path, old = new ++ '/' :: path := by
  obtain ⟨out, hmove, hedited⟩ := @move_eq dialect context text old new items hitems hmention
  obtain ⟨placed, hplaced⟩ := @Edited.exists_placed old new out text [] 0 _ hedited [] rfl
    (Module.sources_quotedIn hitems)
  refine ⟨out, placed, hmove, hplaced, fun items' hitems' source hsource t ht hspan hquoted => ?_⟩
  have hname := (Module.sources_quotedIn hitems' source hsource).unique hquoted hspan
  refine ⟨hname, fun target htarget => ?_⟩
  obtain ⟨original, hrepointed⟩ := exists_of_mem_right hplaced ht
  rw [hname] at htarget
  by_cases hpoints : ∃ target, PointsTo old new original.name.toList target
  · obtain ⟨target', htarget'⟩ := hpoints
    rw [(hrepointed.moved target' htarget').1, String.toList_ofList] at htarget
    exact htarget'.target_apart hnew htarget
  · have hnone := not_exists.mp hpoints
    rw [(hrepointed.kept hnone).1] at htarget
    exact absurd htarget (hnone target)

/-- An import and a re-export of a package in a script that imports another one. -/
theorem move_repoints_re_export : ∃ (items placed : List Tree) (out : List Char),
    Module.parse? Dialect.tsx.features "import a from \"p/q\";\nimport 'pq'; export * from 'p'".toList = some items ∧
      Specifier.move "import a from \"p/q\";\nimport 'pq'; export * from 'p'".toList "p".toList "new".toList
        .tsx "" = .ok out ∧
      List.Forall₂ (Repointed "p".toList "new".toList
        "import a from \"p/q\";\nimport 'pq'; export * from 'p'".toList out) (items.filterMap Tree.source?) placed := by
  obtain ⟨items, hitems⟩ : ∃ items, Module.parse? Dialect.tsx.features
      "import a from \"p/q\";\nimport 'pq'; export * from 'p'".toList = some items :=
    Option.isSome_iff_exists.mp (by decide +kernel)
  obtain ⟨out, placed, hmove, hplaced, _⟩ := @move_repoints .tsx "" _ "p".toList "new".toList items hitems
    (.inl (by decide)) ⟨by decide, fun path heq => by simp at heq⟩
  exact ⟨items, placed, out, hitems, hmove, hplaced⟩

/-- A path that holds an escaped quote is written with the quote and without the escape, which ends the string. -/
theorem move_drops_escape :
    (Module.parse? Dialect.tsx.features "import '@storybook/addon-docs/a\\'b';".toList).isSome = true ∧
      Specifier.move "import '@storybook/addon-docs/a\\'b';".toList "@storybook/addon-docs".toList
        "@storybook/blocks".toList .tsx "" = .ok "import '@storybook/blocks/a'b';".toList ∧
      (Module.parse? Dialect.tsx.features "import '@storybook/blocks/a'b';".toList).isNone = true := by
  decide +kernel

end Script
end StoryDocs
