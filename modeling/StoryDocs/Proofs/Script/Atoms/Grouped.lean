import StoryDocs.Proofs.Script.Atoms.Basic

/-!
# Groups of atoms

A run over atoms that leaves no bracket open has closed each bracket behind the atoms in it.  So the atoms of such
a run are a tree: plain atoms, and groups between two marks of a pair.
-/

namespace StoryDocs
namespace Script

variable {as inner : List Atom} {a : Atom} {m m' : Nesting} {template : Bool} {stack : List Bracket}

/-- Atoms of code, or of a template, in which every bracket is closed. -/
inductive Grouped : Bool → List Atom → Prop
  | nil {template : Bool} : Grouped template []
  | plain {template : Bool} {a : Atom} {as : List Atom} (hopening : ∀ b, a.kind ≠ .opening b)
      (hclosing : ∀ b, a.kind ≠ .closing b) (hplace : a.kind = .templateText ↔ template = true)
      (has : Grouped template as) : Grouped template (a :: as)
  | group {template : Bool} {b : Bracket} {first last : Atom} {inner as : List Atom}
      (hfirst : first.kind = .opening b) (hlast : last.kind = .closing b) (hplace : b = .hole ↔ template = true)
      (hinner : Grouped (b == .template) inner) (has : Grouped template as) :
      Grouped template (first :: (inner ++ last :: as))

/-- Whether characters of a template are next when these brackets are open. -/
def topIsTemplate : List Bracket → Bool
  | [] => false
  | b :: _ => b == .template

/-- Atoms that close the brackets that are open, each behind atoms in which every bracket is closed. -/
def ClosesAll : List Bracket → List Atom → Prop
  | [], as => Grouped false as
  | b :: stack, as => ∃ inner last rest, as = inner ++ last :: rest ∧ last.kind = .closing b ∧
      Grouped (b == .template) inner ∧ ClosesAll stack rest

/-- What can be put in front of atoms in which every bracket is closed can be put in front of such that close more. -/
theorem ClosesAll.cons (hfront : ∀ inner, Grouped (topIsTemplate stack) inner → Grouped (topIsTemplate stack) (a :: inner))
    (h : ClosesAll stack as) : ClosesAll stack (a :: as) := by
  cases stack with
  | nil => exact hfront as h
  | cons b stack =>
      obtain ⟨inner, last, rest, rfl, hlast, hinner, hrest⟩ := h
      exact ⟨a :: inner, last, rest, rfl, hlast, hfront inner hinner, hrest⟩

/-- A group in front of atoms that close the brackets that are open. -/
theorem ClosesAll.opening {b : Bracket} (hfirst : a.kind = .opening b) (hplace : b = .hole ↔ topIsTemplate stack = true)
    (h : ClosesAll (b :: stack) as) : ClosesAll stack (a :: as) := by
  obtain ⟨inner, last, rest, rfl, hlast, hinner, hrest⟩ := h
  cases stack with
  | nil => exact .group hfirst hlast hplace hinner hrest
  | cons b' stack =>
      obtain ⟨inner', last', rest', rfl, hlast', hinner', hrest'⟩ := hrest
      refine ⟨a :: (inner ++ last :: inner'), last', rest', ?_, hlast', .group hfirst hlast hplace hinner hinner', hrest'⟩
      rw [List.cons_append, List.append_assoc, List.cons_append]

theorem inTemplate_iff (stack : List (Bracket × Nat)) :
    Nesting.InTemplate stack ↔ topIsTemplate (stack.map Prod.fst) = true := by
  match stack with
  | [] => exact ⟨fun h => h.elim, fun h => absurd h (by decide)⟩
  | (b, n) :: stack =>
      cases b with
      | template => exact ⟨fun _ => rfl, fun _ => trivial⟩
      | paren => exact ⟨fun h => h.elim, fun h => absurd h (by simp [topIsTemplate])⟩
      | square => exact ⟨fun h => h.elim, fun h => absurd h (by simp [topIsTemplate])⟩
      | brace => exact ⟨fun h => h.elim, fun h => absurd h (by simp [topIsTemplate])⟩
      | hole => exact ⟨fun h => h.elim, fun h => absurd h (by simp [topIsTemplate])⟩

/-- What a step does to the brackets that are open. -/
theorem Nesting.step_stack (h : m.step a = some m') :
    (∃ b, a.kind = .opening b ∧ (b = .hole ↔ topIsTemplate (m.stack.map Prod.fst) = true) ∧
      m'.stack.map Prod.fst = b :: m.stack.map Prod.fst) ∨
    (∃ b, a.kind = .closing b ∧ m.stack.map Prod.fst = b :: m'.stack.map Prod.fst) ∨
    ((∀ b, a.kind ≠ .opening b) ∧ (∀ b, a.kind ≠ .closing b) ∧
      (a.kind = .templateText ↔ topIsTemplate (m.stack.map Prod.fst) = true) ∧ m'.stack = m.stack) := by
  rw [Nesting.step] at h
  rw [← inTemplate_iff]
  split at h
  -- An opening bracket.
  · rename_i b hkind
    split at h
    · rename_i hplace
      obtain rfl := Option.some.inj h
      exact .inl ⟨b, hkind, hplace.symm, rfl⟩
    · cases h
  -- A closing bracket, which has to be that of the innermost open one.
  · rename_i b hkind
    split at h
    · rename_i b' n stack hstack
      split at h
      · rename_i hb
        obtain rfl := Option.some.inj h
        exact .inr (.inl ⟨b, hkind, by rw [hstack, ← hb]; rfl⟩)
      · cases h
    · cases h
  · rename_i hkind
    split at h
    · rename_i hplace
      obtain rfl := Option.some.inj h
      exact .inr (.inr ⟨by simp [hkind], by simp [hkind], iff_of_true hkind hplace, rfl⟩)
    · cases h
  · rename_i hkind
    split at h
    · cases h
    · rename_i hplace
      obtain rfl := Option.some.inj h
      exact .inr (.inr ⟨by simp [hkind], by simp [hkind], iff_of_false (by simp [hkind]) hplace, rfl⟩)
  · rename_i hopening hclosing htext _
    split at h
    · cases h
    · rename_i hplace
      obtain rfl := Option.some.inj h
      exact .inr (.inr ⟨hopening, hclosing, iff_of_false htext hplace, rfl⟩)

/-- A run that leaves no bracket open has closed those that were. -/
theorem closesAll_of_run (h : m.run as = some m') (hend : m'.stack = []) : ClosesAll (m.stack.map Prod.fst) as := by
  induction as generalizing m with
  | nil =>
      obtain rfl := Option.some.inj h
      rw [hend]
      exact .nil
  | cons a as ih =>
      obtain ⟨m₁, hstep, hrun⟩ := Option.bind_eq_some_iff.mp h
      have hrest := ih hrun
      rcases Nesting.step_stack hstep with ⟨b, hkind, hplace, hstack⟩ | ⟨b, hkind, hstack⟩ |
        ⟨hopening, hclosing, hplace, hstack⟩
      · rw [hstack] at hrest
        exact hrest.opening hkind hplace
      · rw [hstack]
        exact ⟨[], a, as, rfl, hkind, .nil, hrest⟩
      · rw [hstack] at hrest
        exact hrest.cons fun inner hinner => .plain hopening hclosing hplace hinner

/-- The atoms of a script are grouped. -/
theorem grouped_of_run (h : Nesting.start.run as = some m') (hend : m'.stack = []) : Grouped false as :=
  closesAll_of_run h hend

/-- Atoms that a script is cut into, with every bracket closed at its end. -/
structure AtomsOf (text : List Char) (as : List Atom) : Prop where
  cuts : Cuts text as []
  closed : ∃ literals, Nesting.start.run as = some ⟨text.length, [], literals⟩

theorem AtomsOf.grouped {text : List Char} (h : AtomsOf text as) : Grouped false as := by
  obtain ⟨literals, hrun⟩ := h.closed
  exact grouped_of_run hrun rfl

end Script
end StoryDocs
