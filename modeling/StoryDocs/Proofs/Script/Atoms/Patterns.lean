import StoryDocs.Proofs.Script.Atoms.Types
import StoryDocs.Script.Grammar.Function

/-!
# Patterns, parameters and functions read

The rules for what is bound and for functions leave the brackets open that are open, and the literals of what
they build are closed.
-/

namespace StoryDocs
namespace Script

open Grammar

variable {rules : Rules} {scope : Scope} {c c' : Cursor} {text : List Char} {stack : List (Bracket × Nat)}
  {held : Multiset Literal} {b : Bool} {start : Nat} {t : Tree} {ts : List Tree} {decorators : List Tree}

/-! ## Patterns -/

@[grind →] theorem reads_restElement (hr : rules.Sound) : Reads (restElement rules start) Tree.literals := by
  intro scope c t c' text stack held h hc
  have hrules := hr.reads
  rw [restElement] at h
  simp only [yields_bind, yields_finish] at h
  grind -linarith

@[grind →] theorem reads_arrayElements (hr : rules.Sound) : Reads (arrayElements rules) Tree.literalsOf := by
  intro scope c t c' text stack held h hc
  have hrules := hr.reads
  rw [arrayElements] at h
  refine stands_repeatFrom h (fun done => Tree.literalsOf done.1) Tree.literalsOf
    (fun round c r c' text stack held h hc => ?_) (by simpa using hc)
  obtain ⟨done, seenRest⟩ := round
  dsimp only at h hc
  simp only [↓yields_looks, yields_bind, yields_ite, yields_pure, yields_finish] at h
  split at h
  · grind -linarith
  obtain ⟨hole, c₁, hcomma, h⟩ := h
  split at h
  · grind -linarith
  obtain ⟨_, c₂, hfault, rest, c₃, hdots, h⟩ := h
  have hstands : Stands text stack (held + Tree.literalsOf done) c₃ := by
    grind -linarith
  clear hcomma hfault hdots hc
  split at h
  · grind -linarith
  · grind -linarith

@[grind →] theorem reads_arrayPattern (hr : rules.Sound) : Reads (arrayPattern rules) Tree.literals := by
  intro scope c t c' text stack held h hc
  rw [arrayPattern] at h
  simp only [↓yields_looks, yields_bind, yields_finish] at h
  grind -linarith

@[grind →] theorem reads_patternProperty (hr : rules.Sound) :
    Reads (patternProperty rules) Tree.literals := by
  intro scope c t c' text stack held h hc
  have hrules := hr.reads
  rw [patternProperty] at h
  simp only [↓yields_looks, yields_bind, yields_ite, yields_finish] at h
  obtain ⟨_, c₁, hdots, h⟩ := h
  split at h
  · grind -linarith
  · grind -linarith

@[grind →] theorem reads_objectPattern (hr : rules.Sound) : Reads (objectPattern rules) Tree.literals := by
  intro scope c t c' text stack held h hc
  have hitems := Reads.separated "\x7d" (reads_patternProperty hr)
  rw [objectPattern] at h
  simp only [↓yields_looks, yields_bind] at h
  grind -linarith

@[grind →] theorem reads_pattern (hr : rules.Sound) : Reads (pattern rules) Tree.literals := by
  intro scope c t c' text stack held h hc
  rw [pattern] at h
  simp only [↓yields_looks, yields_ite] at h
  grind -linarith

@[grind →] theorem reads_patternElement (hr : rules.Sound) : Reads (patternElement rules) Tree.literals := by
  intro scope c t c' text stack held h hc
  have hrules := hr.reads
  rw [patternElement] at h
  simp only [↓yields_looks, yields_bind, yields_ite, yields_finish] at h
  grind -linarith

/-! ## Parameters -/

@[grind →] theorem reads_parameterDefault? {optional : Bool} (hr : rules.Sound) :
    Reads (parameterDefault? rules optional) Tree.literalsOf := by
  intro scope c t c' text stack held h hc
  have hrules := hr.reads
  rw [parameterDefault?] at h
  simp only [↓yields_looks, yields_bind, yields_ite, yields_finish] at h
  grind -linarith

/-- A parameter is put together with the decorators in front of it. -/
theorem stands_plainParameter (hr : rules.Sound) (h : Yields (plainParameter rules decorators) scope c t c')
    (hc : Stands text stack (held + Tree.literalsOf decorators) c) :
    Stands text stack (held + t.literals) c' := by
  have hrules := hr.reads
  rw [plainParameter] at h
  cases htyped : scope.features.types with
  | false =>
      simp only [pure_bind, ↓yields_looks, yields_bind, htyped, Bool.false_eq_true, if_false] at h
      grind -linarith
  | true =>
      simp only [↓yields_looks, htyped, if_true] at h
      simp only [↓yields_looks, yields_bind, yields_ite, yields_finish, htyped, if_true] at h
      split at h
      · obtain ⟨_, c₁, hfault, _, c₂, hmodifier, h⟩ := h
        have hstands : Stands text stack (held + Tree.literalsOf decorators) c₂ := by
          grind -linarith
        clear hfault hmodifier hc
        grind -linarith
      · grind -linarith

theorem stands_restParameter (hr : rules.Sound)
    (h : Yields (restParameter rules start decorators) scope c t c')
    (hc : Stands text stack (held + Tree.literalsOf decorators) c) :
    Stands text stack (held + t.literals) c' := by
  have hrules := hr.reads
  rw [restParameter] at h
  rw [yields_bind] at h
  obtain ⟨target, c₁, htarget, h⟩ := h
  rw [yields_bind] at h
  obtain ⟨hasDefault, c₂, hmark, h⟩ := h
  have hstands : Stands text stack (held + Tree.literalsOf decorators + target.literals) c₂ := by
    grind -linarith
  clear htarget hmark hc
  simp only [pure_bind, ↓yields_looks, yields_bind, yields_ite, yields_finish, yields_eatMarkIf] at h
  split at h
  · obtain ⟨value, c₃, hvalue, _, c₄, hfault, h⟩ := h
    have hstands' := stands_fault hfault (hr.rule .assignment rfl hvalue hstands).drop
    clear hvalue hfault hstands
    split at h
    · grind -linarith
    · grind -linarith
  · split at h
    · grind -linarith
    · grind -linarith

/-- Parameters read when a plain one does with the decorators in front of it. -/
theorem reads_parametersWith {plain : List Tree → Parse Tree} (hr : rules.Sound)
    (hplain : ∀ decorators ⦃scope c t c' text stack held⦄, Yields (plain decorators) scope c t c' →
      Stands text stack (held + Tree.literalsOf decorators) c → Stands text stack (held + t.literals) c') :
    Reads (parametersWith rules plain) Tree.literals := by
  intro scope c t c' text stack held h hc
  rw [parametersWith] at h
  simp only [↓yields_looks, yields_bind, yields_bracketed, yields_finish] at h
  obtain ⟨params, c₁, hparams, rfl, rfl⟩ := h
  rw [Tree.literals_node rfl]
  -- One round reads a parameter, with decorators and the dots of a rest in front where there are any.
  refine stands_repeatFrom hparams (fun done => Tree.literalsOf done.1) Tree.literalsOf
    (fun round c r c' text stack held h hc => ?_) (by simpa using hc)
  obtain ⟨done, seenRest⟩ := round
  dsimp only at h hc
  simp only [pure_bind, ↓yields_looks, yields_bind, yields_ite, yields_pure] at h
  split at h
  · grind -linarith
  obtain ⟨_, c₁, hfault, h⟩ := h
  have hstands := stands_faultIf hfault hc
  clear hfault hc
  split at h
  · obtain ⟨decorators, c₂, hdecorators, isRest, c₃, hdots, h⟩ := h
    have hstart : Stands text stack (held + Tree.literalsOf done + Tree.literalsOf [decorators]) c₃ := by
      have hbehind := hr.rule .decorators rfl hdecorators hstands
      grind -linarith
    clear hdecorators hdots
    split at h
    · obtain ⟨param, c₄, hparam, h⟩ := h
      have hbehind := stands_restParameter hr hparam hstart
      clear hparam hstart hstands
      grind -linarith
    · obtain ⟨param, c₄, hparam, h⟩ := h
      have hbehind := hplain _ hparam hstart
      clear hparam hstart hstands hplain
      grind -linarith
  · obtain ⟨isRest, c₃, hdots, h⟩ := h
    have hstart : Stands text stack (held + Tree.literalsOf done + Tree.literalsOf []) c₃ := by
      grind -linarith
    clear hdots
    split at h
    · obtain ⟨param, c₄, hparam, h⟩ := h
      have hbehind := stands_restParameter hr hparam hstart
      clear hparam hstart hstands
      grind -linarith
    · obtain ⟨param, c₄, hparam, h⟩ := h
      have hbehind := hplain _ hparam hstart
      clear hparam hstart hstands hplain
      grind -linarith

@[grind →] theorem reads_parameters (hr : rules.Sound) : Reads (parameters rules) Tree.literals :=
  reads_parametersWith hr fun _ _ _ _ _ _ _ _ h hc => stands_plainParameter hr h hc

theorem stands_constructorParameter (hr : rules.Sound)
    (h : Yields (constructorParameter rules decorators) scope c t c')
    (hc : Stands text stack (held + Tree.literalsOf decorators) c) :
    Stands text stack (held + t.literals) c' := by
  have hplain := @stands_plainParameter
  rw [constructorParameter] at h
  simp only [↓yields_looks, yields_bind, yields_ite, yields_pure] at h
  grind -linarith

@[grind →] theorem reads_constructorParameters (hr : rules.Sound) :
    Reads (constructorParameters rules) Tree.literals :=
  reads_parametersWith hr fun _ _ _ _ _ _ _ _ h hc => stands_constructorParameter hr h hc

/-! ## Functions -/

@[grind →] theorem reads_functionBody {isAsync isGenerator isArrow : Bool} (hr : rules.Sound) :
    Reads (functionBody rules isAsync isGenerator isArrow) Tree.literals := by
  intro scope c t c' text stack held h hc
  have hrules := hr.reads
  rw [functionBody] at h
  simp only [↓yields_looks, yields_bind] at h
  grind -linarith

/-- The parts of a function hold what is read behind its name. -/
theorem reads_functionTailWith {params : Parse Tree} {isAsync isGenerator : Bool} (hr : rules.Sound)
    (hparams : Reads params Tree.literals) :
    Reads (functionTailWith rules params isAsync isGenerator) fun tail => Tree.literalsOf tail.parts := by
  intro scope c tail c' text stack held h hc
  have hrules := hr.reads
  rw [functionTailWith] at h
  simp only [↓yields_looks, yields_bind, yields_within, yields_ite, yields_pure] at h
  obtain ⟨types, c₁, htypes, _, c₂, hopen, ps, c₃, hps, _, c₄, hclose, result, c₅, hresult, h⟩ := h
  have hbetween := close_paren hclose (hparams hps (open_paren hopen (reads_typeParameters? hr htypes hc)))
  have hstands := reads_returnType? hr hresult hbetween
  clear hparams htypes hopen hps hclose hresult hbetween hc
  grind -linarith

@[grind →] theorem reads_functionTail {isAsync isGenerator : Bool} (hr : rules.Sound) :
    Reads (functionTail rules isAsync isGenerator) fun tail => Tree.literalsOf tail.parts :=
  reads_functionTailWith hr (hr.rule .parameters rfl)

theorem reads_functionFrom {isAsync nameRequired : Bool} {kind : Kind} (hr : rules.Sound) (hk : kind.isLiteral = false) :
    Reads (functionFrom rules start isAsync kind nameRequired) Tree.literals := by
  intro scope c t c' text stack held h hc
  rw [functionFrom] at h
  simp only [pure_bind, ↓yields_looks, yields_bind, yields_ite, yields_finish, List.cons_append, List.nil_append] at h
  grind -linarith

@[grind →] theorem yields_atAsyncFunction (h : Yields atAsyncFunction scope c b c') : c' = c := by
  rw [atAsyncFunction] at h
  simp only [↓yields_looks] at h
  grind -linarith

theorem reads_function {nameRequired : Bool} {kind : Kind} (hr : rules.Sound) (hk : kind.isLiteral = false) :
    Reads (function rules kind nameRequired) Tree.literals := by
  intro scope c t c' text stack held h hc
  rw [function] at h
  simp only [↓yields_looks, yields_bind] at h
  obtain ⟨isAsync, c₁, hasync, h⟩ := h
  exact reads_functionFrom hr hk h (by grind -linarith)

@[grind →] theorem stands_checkGetter {tail : FunctionTail} {u : Unit} (h : Yields (checkGetter tail) scope c u c')
    (hc : Stands text stack held c) : Stands text stack held c' :=
  stands_faultIf h hc

@[grind →] theorem stands_checkSetter {tail : FunctionTail} {u : Unit} (h : Yields (checkSetter tail) scope c u c')
    (hc : Stands text stack held c) : Stands text stack held c' :=
  stands_faultIf h hc

end Script
end StoryDocs
