import StoryDocs.Script.Fragment

/-!
# Accepted expressions

When an expression is accepted, whatever reader of modules reads it, and as what.
-/

namespace StoryDocs
namespace Script
namespace Fragment

open Text

variable {text : List Char} {dialect : Dialect} {context : String} {f : Fragment} {parse? : ModuleReader}

/-- An expression is accepted as its trimmed text and its tree. -/
theorem parseWith_eq_ok_iff : parseWith parse? text dialect context = .ok f ↔ trim text ≠ [] ∧
    (parse? dialect.features (wrap (trim text))).bind expressionOf? = some f.tree ∧ f.source = trim text := by
  rw [parseWith]
  split
  · rename_i hempty
    simp [List.isEmpty_iff.mp hempty]
  · rename_i hne
    replace hne : trim text ≠ [] := by simpa using hne
    split
    · rename_i hitems
      simp [hitems]
    · rename_i items hitems
      rw [hitems, Option.bind_some]
      split
      · rename_i e htree
        rw [htree, Except.ok.injEq]
        constructor
        · rintro rfl
          exact ⟨hne, rfl, rfl⟩
        · rintro ⟨_, he, hsource⟩
          obtain ⟨source, tree⟩ := f
          rw [Option.some.inj he, ← hsource]
      · rename_i htree
        simp [htree]

/-- An accepted expression is the trimmed text, and it is not empty. -/
theorem source_of_parse (h : parseWith parse? text dialect context = .ok f) : f.source = trim text ∧
    trim text ≠ [] := by
  obtain ⟨hne, _, hsource⟩ := parseWith_eq_ok_iff.mp h
  exact ⟨hsource, hne⟩

/-- A text is accepted in every context if its tree is there. -/
theorem parse_eq_ok {tree : Tree} (hne : trim text ≠ [])
    (h : (Module.parse? dialect.features (wrap (trim text))).bind expressionOf? = some tree) :
    parse text dialect context = .ok ⟨trim text, tree⟩ :=
  parseWith_eq_ok_iff.mpr ⟨hne, h, rfl⟩

end Fragment
end Script
end StoryDocs
