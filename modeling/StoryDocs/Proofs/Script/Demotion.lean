import StoryDocs.Script.Program

/-!
# Demoted programs

The statements that are read from a script are imports, plain statements, exports of either kind and the
comments at the end.  Demotion leaves no export among them.
-/

namespace StoryDocs
namespace Script

open Text

namespace Item

/-- An item exports a declaration that can stay behind without the export. -/
inductive Declares : Item → Span → Prop
  | exported (span declared : Span) : Declares (.exportDecl span declared) declared
  | default (span declared : Span) : Declares (.exportDefaultDecl span declared true) declared

theorem Declares.unique {item : Item} {declared declared' : Span} (h : item.Declares declared)
    (h' : item.Declares declared') : declared = declared' := by
  cases h with
  | exported => cases h'; rfl
  | default => cases h'; rfl

/-- By its kind, an item is one of those that export a declaration exactly when it does. -/
theorem classify_eq_iff (item : Item) : item.classify = .exportDeclaration ↔ ∃ declared, item.Declares declared := by
  constructor
  · intro h
    cases item with
    | exportDecl span declared => exact ⟨declared, .exported span declared⟩
    | exportDefaultDecl span declared named =>
        cases named with
        | true => exact ⟨declared, .default span declared⟩
        | false => cases h
    | importDecl => cases h
    | importEquals => cases h
    | exportOther => cases h
    | statement => cases h
  · rintro ⟨_, h⟩
    cases h with
    | exported => rfl
    | default => rfl

/-- A declaration starts where the declaration that the item exports does. -/
theorem declarationStart?_eq_some_iff (item : Item) (start : Nat) :
    item.declarationStart? = some start ↔ ∃ declared, item.Declares declared ∧ declared.start = start := by
  constructor
  · intro h
    cases item with
    | exportDecl span declared => exact ⟨declared, .exported span declared, Option.some.inj h⟩
    | exportDefaultDecl span declared named =>
        cases named with
        | true => exact ⟨declared, .default span declared, Option.some.inj h⟩
        | false => cases h
    | importDecl => cases h
    | importEquals => cases h
    | exportOther => cases h
    | statement => cases h
  · rintro ⟨_, h, rfl⟩
    cases h with
    | exported => rfl
    | default => rfl

/-- The two tests of an item agree: those that are kept as declarations are those of which the start is known. -/
theorem classify_eq_iff_isSome (item : Item) :
    item.classify = .exportDeclaration ↔ item.declarationStart?.isSome = true := by
  rw [classify_eq_iff, Option.isSome_iff_exists]
  constructor
  · rintro ⟨declared, h⟩
    exact ⟨_, (declarationStart?_eq_some_iff item _).mpr ⟨declared, h, rfl⟩⟩
  · rintro ⟨start, h⟩
    obtain ⟨declared, hdeclares, _⟩ := (declarationStart?_eq_some_iff item start).mp h
    exact ⟨declared, hdeclares⟩

/-- No item is one of the exports that synthesis adds, nor comments. -/
theorem classify_mem (item : Item) :
    item.classify ∈ ([.import, .statement, .exportDeclaration, .export] : List StatementKind) := by
  cases item with
  | exportDefaultDecl _ _ named => cases named <;> simp [classify]
  | importDecl => simp [classify]
  | importEquals => simp [classify]
  | exportDecl => simp [classify]
  | exportOther => simp [classify]
  | statement => simp [classify]

end Item

namespace Statement

/-- The statement of an exported declaration tells where the declaration starts. -/
theorem isSome_declaration_of_mem_split {items : List Item} {offset : Nat} {rest : List Char} {s : Statement}
    (h : s ∈ split items offset rest) (hkind : s.kind = .exportDeclaration) : s.declaration.isSome = true := by
  induction items generalizing offset rest with
  | nil =>
      rw [split] at h
      split at h
      · cases h
      · rw [List.mem_singleton] at h
        rw [h] at hkind
        cases hkind
  | cons item items ih =>
      rw [split, List.mem_cons] at h
      rcases h with rfl | hrest
      · simpa [ofItem] using item.classify_eq_iff_isSome.mp hkind
      · exact ih hrest

/-- A statement has the kind of its item, or it is what is left at the end. -/
theorem kind_of_mem_split {items : List Item} {offset : Nat} {rest : List Char} {s : Statement}
    (h : s ∈ split items offset rest) : s.kind ∈ items.map Item.classify ∨ s.kind = .trivia := by
  induction items generalizing offset rest with
  | nil =>
      rw [split] at h
      split at h
      · cases h
      · simp only [List.mem_singleton] at h
        exact .inr (by rw [h])
  | cons item items ih =>
      rw [split, List.mem_cons] at h
      rcases h with rfl | hrest
      · exact .inl (by simp [ofItem])
      · rcases ih hrest with hkind | hkind
        · exact .inl (by simp [hkind])
        · exact .inr hkind

theorem kind_of_demote {s t : Statement} (h : s.demote = some t) : t.kind = .statement := by
  rw [demote, Option.map_eq_some_iff] at h
  obtain ⟨_, _, rfl⟩ := h
  rfl

end Statement

namespace Program

theorem kind_of_mem_parse {text : List Char} {dialect : Dialect} {context : String} {p : Program}
    (h : parse text dialect context = .ok p) {s : Statement} (hs : s ∈ p.statements) :
    s.kind ∈ ([.import, .statement, .exportDeclaration, .export, .trivia] : List StatementKind) := by
  unfold parse at h
  split at h
  · cases h
  · cases h
    rcases Statement.kind_of_mem_split hs with hkind | hkind
    · obtain ⟨item, _, hitemKind⟩ := List.mem_map.mp hkind
      have hitem := item.classify_mem
      rw [hitemKind] at hitem
      simp only [List.mem_cons, List.not_mem_nil, or_false] at hitem ⊢
      grind -linarith
    · simp [hkind]

/-- The statements of a script are those that demotion drops and those of which it leaves something. -/
theorem length_dropped_add_length_demote {text : List Char} {dialect : Dialect} {context : String}
    {p : Program} (h : parse text dialect context = .ok p) :
    p.dropped.length + p.demote.statements.length = p.statements.length := by
  have hkept : ∀ s ∈ p.statements, (kept? s).isSome = !(s.kind == .export) := by
    intro s hs
    unfold kept?
    split
    · rename_i hkind
      rw [Statement.demote, Option.isSome_map, hkind]
      unfold parse at h
      split at h
      · cases h
      · cases h
        exact Statement.isSome_declaration_of_mem_split hs hkind
    · rename_i hkind
      rw [hkind]
      rfl
    · rename_i hexport
      simpa using fun hkind => hexport hkind
  have hlength : p.demote.statements.length = p.statements.countP fun s => !(s.kind == .export) := by
    rw [demote, List.length_filterMap_eq_countP]
    refine List.countP_congr fun s hs => ?_
    rw [hkept s hs]
  rw [hlength, dropped, ← List.countP_eq_length_filter,
    List.length_eq_countP_add_countP fun s => s.kind == .export]
  congr 1
  exact List.countP_congr fun s _ => by simp

/-- Demotion leaves imports, plain statements and the comments at the end. -/
theorem kind_of_mem_demote {text : List Char} {dialect : Dialect} {context : String} {p : Program}
    (h : parse text dialect context = .ok p) {s : Statement} (hs : s ∈ p.demote.statements) :
    s.kind ∈ ([.import, .statement, .trivia] : List StatementKind) := by
  obtain ⟨t, ht, hkept⟩ := List.mem_filterMap.mp hs
  have hkind := kind_of_mem_parse h ht
  unfold kept? at hkept
  split at hkept
  · simp [Statement.kind_of_demote hkept]
  · cases hkept
  · cases hkept
    simp_all

end Program
end Script
end StoryDocs
