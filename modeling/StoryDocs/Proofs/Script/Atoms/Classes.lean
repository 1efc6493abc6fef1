import StoryDocs.Proofs.Script.Atoms.Objects
import StoryDocs.Script.Grammar.Class

/-!
# Classes and decorators read

The rules for classes leave the brackets open that are open, and the literals of what they build are closed.
A member is built of the key in front of it, which is read before what kind of member it is.
-/

namespace StoryDocs
namespace Script

open Grammar

variable {rules : Rules} {scope : Scope} {c c' : Cursor} {text : List Char} {stack : List (Bracket × Nat)}
  {held : Multiset Literal} {b : Bool} {t key : Tree} {m : Modifiers} {kind : Kind}

/-! ## Decorators -/

/-- The tail of a decorator holds what it continues. -/
@[grind →] theorem stands_decoratorTail {start : Nat} {base : Tree} (hr : rules.Sound)
    (h : Yields (decoratorTail rules start base) scope c t c')
    (hc : Stands text stack (held + base.literals) c) : Stands text stack (held + t.literals) c' := by
  have hrules := hr.reads
  rw [decoratorTail] at h
  refine stands_repeatFrom h Tree.literals Tree.literals (fun e c r c' text stack held h hc => ?_) hc
  simp only [↓yields_looks, yields_bind, yields_ite, yields_pure, yields_finish] at h
  obtain ⟨dot, c₁, hdot, h⟩ := h
  split at h
  · grind -linarith
  have hstands : Stands text stack (held + e.literals) c₁ := by
    grind -linarith
  clear hdot hc
  split at h
  · obtain ⟨types, c₂, htypes, h⟩ := h
    rcases yields_attempt htypes with ⟨ts, scope', rfl, hts⟩ | ⟨rfl, rfl⟩
    · simp only [yields_bind] at hts
      grind -linarith
    · grind -linarith
  · grind -linarith

@[grind →] theorem reads_decorator (hr : rules.Sound) : Reads (decorator rules) Tree.literals := by
  intro scope c t c' text stack held h hc
  have hrules := hr.reads
  rw [decorator] at h
  simp only [↓yields_looks, yields_bind, yields_ite, yields_bracketed, yields_pure, yields_finish] at h
  grind -linarith

@[grind →] theorem reads_decorators (hr : rules.Sound) : Reads (decorators rules) Tree.literals := by
  intro scope c t c' text stack held h hc
  have hall := @Reads.many (do return !(← atMark "@")) _ (by simp) (reads_decorator hr)
  rw [decorators] at h
  simp only [↓yields_looks, yields_bind, yields_finish] at h
  grind -linarith

/-! ## Looking ahead -/

@[grind →] theorem yields_classAtMethod (h : Yields Grammar.atMethod scope c b c') : c' = c := by
  rw [Grammar.atMethod] at h
  simp only [↓yields_looks, yields_pure] at h
  grind -linarith

@[grind →] theorem yields_atProperty {loose : Bool} (h : Yields (atProperty loose) scope c b c') : c' = c := by
  rw [atProperty] at h
  simp only [↓yields_looks, yields_ite, yields_pure] at h
  grind -linarith

@[grind →] theorem yields_namesMember {loose : Bool} (h : Yields (namesMember loose) scope c b c') : c' = c := by
  rw [namesMember] at h
  simp only [↓yields_looks, yields_bind, yields_pure] at h
  grind -linarith

/-! ## Members -/

@[grind →] theorem reads_memberKey (hr : rules.Sound) : Reads (memberKey rules) Tree.literals := by
  intro scope c t c' text stack held h hc
  rw [memberKey] at h
  simp only [↓yields_looks] at h
  split at h
  · simp only [yields_bind] at h
    grind -linarith
  · grind -linarith

theorem stands_classField {optional : Bool} (hr : rules.Sound)
    (h : Yields (classField rules m key optional) scope c t c') (hc : Stands text stack (held + key.literals) c) :
    Stands text stack (held + t.literals) c' := by
  have hrules := hr.reads
  rw [classField] at h
  simp only [pure_bind, ↓yields_looks, yields_bind, yields_ite, yields_within, yields_finish] at h
  obtain ⟨_, _, c₁, hfault, h⟩ := h
  have hstands := stands_faultIf hfault hc
  clear hfault hc
  split at h
  · obtain ⟨_, c₂, hmark, h⟩ := h
    have hbehind : Stands text stack (held + key.literals) c₂ := by
      grind -linarith
    clear hmark hstands
    split at h
    · grind -linarith
    · grind -linarith
  · split at h
    · grind -linarith
    · grind -linarith

theorem stands_classMethod {isAsync isGenerator : Bool} (hr : rules.Sound) (hk : kind.isLiteral = false)
    (h : Yields (classMethod rules m key kind isAsync isGenerator) scope c t c')
    (hc : Stands text stack (held + key.literals) c) : Stands text stack (held + t.literals) c' := by
  rw [classMethod] at h
  simp only [yields_bind, yields_ite, yields_finish] at h
  obtain ⟨tail, c₁, htail, h⟩ := h
  have hstands := reads_functionTail hr htail hc
  clear htail hc
  grind -linarith

theorem stands_constructorTail (hr : rules.Sound) (h : Yields (constructorTail rules m key) scope c t c')
    (hc : Stands text stack (held + key.literals) c) : Stands text stack (held + t.literals) c' := by
  have htail := @reads_functionTailWith rules (constructorParameters rules) false false hr
    (reads_constructorParameters hr)
  rw [constructorTail] at h
  simp only [↓yields_looks, yields_bind, yields_ite, yields_finish] at h
  split at h
  · obtain ⟨types, c₁, htypes, _, c₂, hfault, tail, c₃, hread, _, c₄, hfault', _, c₅, hfault'', rfl, rfl⟩ := h
    have hstands := stands_fault hfault (reads_typeParameters? hr htypes hc).drop
    have hread := htail hread hstands
    clear htail
    grind -linarith
  · grind -linarith

theorem reads_staticBlock {start : Nat} (hr : rules.Sound) : Reads (staticBlock rules start) Tree.literals := by
  intro scope c t c' text stack held h hc
  have hrules := hr.reads
  rw [staticBlock] at h
  simp only [yields_bind, yields_within, yields_finish] at h
  grind -linarith

@[grind →] theorem stands_memberModifiers {m' : Modifiers} (h : Yields (memberModifiers m) scope c m' c')
    (hc : Stands text stack held c) : Stands text stack held c' := by
  rw [memberModifiers] at h
  simp only [↓yields_looks, yields_ite, yields_pure] at h
  split at h
  · grind -linarith
  refine yields_repeatFrom (fun _ c => Stands text stack held c) (fun _ c => Stands text stack held c)
    (fun m c r c' hc h => ?_) hc h
  simp only [↓yields_looks, yields_bind, yields_ite, yields_pure] at h
  split at h
  · grind -linarith
  obtain ⟨found, c₁, hfound, h⟩ := h
  have hstands := stands_modifier? hfound hc
  clear hfound hc
  split at h
  · grind -linarith
  · grind -linarith
  · grind -linarith
  · grind -linarith
  · grind -linarith

/-- A member is built of its key, or of the key behind the word that the key turned out to be. -/
theorem stands_keyedMember (hr : rules.Sound) (h : Yields (keyedMember rules m key) scope c t c')
    (hc : Stands text stack (held + key.literals) c) : Stands text stack (held + t.literals) c' := by
  have hfield := @stands_classField
  have hconstructor := @stands_constructorTail
  have hmethod := @stands_classMethod
  have hfront := hc.drop
  rw [keyedMember] at h
  cases htyped : scope.features.types with
  | false =>
      simp only [pure_bind, ↓yields_looks, yields_bind, yields_ite, htyped, Bool.false_eq_true, if_false] at h
      grind -linarith
  | true =>
      simp only [pure_bind, ↓yields_looks, yields_bind, yields_ite, htyped, if_true] at h
      obtain ⟨optional, c₁, hmark, isMethod, c₂, hahead, h⟩ := h
      obtain rfl := yields_classAtMethod hahead
      have hstands : Stands text stack (held + key.literals) c₂ := by
        grind -linarith
      have hbehind := hstands.drop
      clear hmark hahead hfront hc
      split at h
      · grind -linarith
      obtain ⟨_, c₃, hproperty, _, c₄, hproperty', h⟩ := h
      obtain rfl := yields_atProperty hproperty
      obtain rfl := yields_atProperty hproperty'
      clear hproperty hproperty'
      split at h
      · grind -linarith
      · grind -linarith

theorem reads_modifiedMember (hr : rules.Sound) : Reads (modifiedMember rules m) Tree.literals := by
  intro scope c t c' text stack held h hc
  rw [modifiedMember] at h
  simp only [↓yields_looks, yields_bind, yields_ite] at h
  obtain ⟨m', c₁, hmodifiers, h⟩ := h
  have hstands := stands_memberModifiers hmodifiers hc
  have hmember := @stands_keyedMember
  have hmethod := @stands_classMethod
  have hblock := @reads_staticBlock
  clear hmodifiers hc
  split at h
  · grind -linarith
  split at h
  · grind -linarith
  obtain ⟨isSignature, c₂, hahead, h⟩ := h
  obtain rfl := yields_atIndexSignature hahead
  clear hahead
  split at h
  · grind -linarith
  · grind -linarith

theorem reads_leadingWord {word : String} {loose : Bool} {changed : Modifiers} {next : Modifiers → Parse Tree}
    (hr : rules.Sound) (hnext : ∀ m, Reads (next m) Tree.literals) :
    Reads (leadingWord rules word loose m changed next) Tree.literals := by
  intro scope c t c' text stack held h hc
  rw [leadingWord] at h
  simp only [↓yields_looks, yields_bind, yields_ite, yields_finish] at h
  obtain ⟨found, c₁, hword, h⟩ := h
  have hstands : Stands text stack held c₁ := by
    grind -linarith
  clear hword hc
  split at h
  · exact hnext _ h hstands
  obtain ⟨key, c₂, ⟨rfl, rfl⟩, h⟩ := h
  split at h
  · exact hnext _ h hstands
  · obtain ⟨names, c₃, hnames, h⟩ := h
    obtain rfl := yields_namesMember hnames
    split at h
    · refine stands_keyedMember hr h ?_
      rw [Tree.literals_node rfl, Tree.literalsOf_nil, add_zero]
      exact hstands
    · exact hnext _ h hstands

/-- A member comes with the decorators in front of it. -/
theorem stands_decorated {member : Tree} {decorators : List Tree}
    (hc : Stands text stack (held + Tree.literalsOf decorators + member.literals) c) :
    Stands text stack
      (held + (Tree.node member.kind member.span member.name (member.parts ++ decorators)).literals) c := by
  refine hc.mono ?_
  rw [add_assoc, add_comm (Tree.literalsOf decorators)]
  exact add_le_add_right (Tree.literals_node_append_le member decorators) held

theorem reads_access {next : Modifiers → Parse Tree} (hnext : ∀ m, Reads (next m) Tree.literals) (m : Modifiers) :
    Reads (do
      if !(← typed) then return ← next m
      let found ← modifier? ["public", "protected", "private"]
      next { m with hasAccess := found.isSome }) Tree.literals := by
  intro scope c t c' text stack held h hc
  simp only [↓yields_looks, yields_bind, yields_ite] at h
  split at h
  · exact hnext _ h hc
  · obtain ⟨found, c₁, hfound, h⟩ := h
    exact hnext _ h (stands_modifier? hfound hc)

@[grind →] theorem reads_classMember (hr : rules.Sound) : Reads (classMember rules) Tree.literals := by
  intro scope c t c' text stack held h hc
  have hstatic : ∀ m : Modifiers, Reads (leadingWord rules "static" false m { m with isStatic := true } fun m =>
      leadingWord rules "accessor" true m { m with isAccessor := true } (modifiedMember rules)) Tree.literals :=
    fun m => reads_leadingWord hr fun m => reads_leadingWord hr fun m => reads_modifiedMember hr
  have haccess := reads_access hstatic
  rw [classMember] at h
  simp only [pure_bind, ↓yields_looks, yields_bind, yields_ite, yields_pure, yields_finish] at h
  obtain ⟨isEmpty, c₁, hmark, h⟩ := h
  have hstands : Stands text stack held c₁ := by
    grind -linarith
  clear hmark hc
  split at h
  · grind -linarith
  split at h
  · obtain ⟨decorators, c₂, hdecorators, h⟩ := h
    have hbehind : Stands text stack (held + Tree.literalsOf [decorators]) c₂ := by
      have hread := hr.rule .decorators rfl hdecorators hstands
      grind -linarith
    split at h
    · obtain ⟨member, c₃, hmember, rfl, rfl⟩ := h
      exact stands_decorated (reads_leadingWord hr haccess hmember hbehind)
    · obtain ⟨member, c₃, hmember, rfl, rfl⟩ := h
      exact stands_decorated (haccess _ (by simpa only [↓yields_looks, yields_bind, yields_ite] using hmember) hbehind)
  · have hbehind : Stands text stack (held + Tree.literalsOf []) c₁ := by
      simpa using hstands
    split at h
    · obtain ⟨member, c₃, hmember, rfl, rfl⟩ := h
      exact stands_decorated (reads_leadingWord hr haccess hmember hbehind)
    · obtain ⟨member, c₃, hmember, rfl, rfl⟩ := h
      exact stands_decorated (haccess _ (by simpa only [↓yields_looks, yields_bind, yields_ite] using hmember) hbehind)

/-! ## Classes -/

@[grind →] theorem reads_superclass (hr : rules.Sound) : Reads (superclass rules) Tree.literals := by
  intro scope c t c' text stack held h hc
  have hrules := hr.reads
  rw [superclass] at h
  simp only [↓yields_looks, yields_bind, yields_ite, yields_finish] at h
  obtain ⟨base, c₁, hbase, e, c₂, he, h⟩ := h
  have hstands := hr.subscripts base false he (hr.rule .memberOrNew rfl hbase hc)
  clear hbase he hc
  grind -linarith

@[grind →] theorem reads_interfaceName (hr : rules.Sound) : Reads (interfaceName rules) Tree.literals := by
  intro scope c t c' text stack held h hc
  have hrules := hr.reads
  rw [interfaceName] at h
  simp only [↓yields_looks, yields_bind, yields_ite, yields_finish] at h
  obtain ⟨first, c₁, hfirst, names, c₂, hnames, h⟩ := h
  have hloop := stands_repeatFrom hnames Tree.literalsOf Tree.literalsOf fun done c r c' text stack held h hc => by
    simp only [yields_bind, yields_ite, yields_pure] at h
    grind -linarith
  have hstands : Stands text stack (held + Tree.literalsOf [first]) c₁ := by
    grind -linarith
  have hall := hloop hstands
  clear hloop hstands hfirst hnames hc
  grind -linarith

@[grind →] theorem reads_interfaceNames (hr : rules.Sound) : Reads (interfaceNames rules) Tree.literalsOf := by
  intro scope c ts c' text stack held h hc
  rw [interfaceNames] at h
  simp only [yields_bind] at h
  obtain ⟨first, c₁, hfirst, hnames⟩ := h
  refine stands_repeatFrom hnames Tree.literalsOf Tree.literalsOf (fun done c r c' text stack held h hc => ?_) ?_
  · simp only [yields_bind, yields_ite, yields_pure] at h
    grind -linarith
  · grind -linarith

@[grind →] theorem stands_members {change : Scope → Scope} {members : List Tree} {u u' : Unit} {c₁ c₂ : Cursor}
    (hr : rules.Sound) (hopen : Yields (expectMark "\x7b") scope c u c₁)
    (hmembers : Yields (within change (many (atMark "\x7d") (classMember rules))) scope c₁ members c₂)
    (hclose : Yields (expectMark "\x7d") scope c₂ u' c') (hc : Stands text stack held c) :
    Stands text stack (held + Tree.literalsOf members) c' := by
  have hall := @Reads.many (atMark "\x7d") _ (by simp) (reads_classMember hr)
  exact close_brace hclose (hall hmembers (open_brace hopen hc))

theorem reads_classTail {start : Nat} {nameRequired : Bool} (hr : rules.Sound) (hk : kind.isLiteral = false) :
    Reads (classTail rules start kind nameRequired) Tree.literals := by
  intro scope c t c' text stack held h hc
  rw [classTail] at h
  simp only [pure_bind, ↓yields_looks, yields_bind, yields_ite, yields_finish, List.append_assoc, List.cons_append,
    List.nil_append] at h
  obtain ⟨_, c₁, hclass, h⟩ := h
  have hstands := stands_expectWord hclass hc
  clear hclass hc
  -- A class has a name or none, and a superclass or none; what it implements stands behind both.
  split at h
  · obtain ⟨name, c₂, hname, _, c₃, hfault, types, c₄, htypes, extended, c₅, hextends, h⟩ := h
    have hbehind : Stands text stack (held + name.literals + Tree.literalsOf types) c₅ := by
      grind -linarith
    clear hname hfault htypes hextends hstands
    split at h
    · obtain ⟨base, c₆, hbase, implemented, c₇, himplements, h⟩ := h
      have hheritage : Stands text stack (held + name.literals + Tree.literalsOf types + base.literals) c₇ := by
        grind -linarith
      clear hbase himplements hbehind
      split at h
      · grind -linarith
      · grind -linarith
    · obtain ⟨implemented, c₇, himplements, h⟩ := h
      have hheritage : Stands text stack (held + name.literals + Tree.literalsOf types) c₇ := by
        grind -linarith
      clear himplements hbehind
      split at h
      · grind -linarith
      · grind -linarith
  · obtain ⟨_, c₃, hfault, types, c₄, htypes, extended, c₅, hextends, h⟩ := h
    have hbehind : Stands text stack (held + Tree.literalsOf types) c₅ := by
      grind -linarith
    clear hfault htypes hextends hstands
    split at h
    · obtain ⟨base, c₆, hbase, implemented, c₇, himplements, h⟩ := h
      have hheritage : Stands text stack (held + Tree.literalsOf types + base.literals) c₇ := by
        grind -linarith
      clear hbase himplements hbehind
      split at h
      · grind -linarith
      · grind -linarith
    · obtain ⟨implemented, c₇, himplements, h⟩ := h
      have hheritage : Stands text stack (held + Tree.literalsOf types) c₇ := by
        grind -linarith
      clear himplements hbehind
      split at h
      · grind -linarith
      · grind -linarith

end Script
end StoryDocs
