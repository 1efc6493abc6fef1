import StoryDocs.Proofs.Script.Atoms.Names
import StoryDocs.Script.Grammar.Type

/-!
# Types read

The rules for types leave the brackets open that are open, and the literals of what they build are closed.
-/

namespace StoryDocs
namespace Script

open Grammar

variable {rules : Rules} {scope : Scope} {c c' : Cursor} {text : List Char} {stack : List (Bracket × Nat)}
  {held : Multiset Literal} {b : Bool} {start : Nat}

@[grind →] theorem reads_freeType (hr : rules.Sound) : Reads (freeType rules) Tree.literals :=
  fun _ _ _ _ _ _ _ h hc => hr.rule .type rfl (yields_within.mp h) hc

@[grind →] theorem reads_annotation? (hr : rules.Sound) : Reads (annotation? rules) Tree.literalsOf := by
  intro scope c t c' text stack held h hc
  simp only [annotation?, yields_bind, yields_ite, yields_pure] at h
  grind -linarith

@[grind →] theorem reads_qualifiedName {lastReserved : Bool} :
    Reads (qualifiedName lastReserved) Tree.literals := by
  intro scope c t c' text stack held h hc
  simp only [qualifiedName, yields_bind] at h
  obtain ⟨_, _, hposition, first, c₁, hfirst, parts, c₂, hparts, h⟩ := h
  have hloop := stands_repeatFrom hparts Tree.literalsOf Tree.literalsOf fun done c r c' text stack held h hc => by
    simp only [yields_bind, yields_ite, yields_pure] at h
    grind -linarith
  grind -linarith

@[grind →] theorem reads_typeArguments? (hr : rules.Sound) :
    Reads (typeArguments? rules) Tree.literalsOf := by
  intro scope c t c' text stack held h hc
  have hrules := hr.reads
  simp only [typeArguments?, yields_bind, yields_ite, yields_pure] at h
  grind -linarith

@[grind →] theorem reads_typeArguments (hr : rules.Sound) : Reads (typeArguments rules) Tree.literals := by
  intro scope c t c' text stack held h hc
  have hitems := Reads.separated ">" (reads_freeType hr)
  simp only [typeArguments, yields_bind] at h
  grind -linarith

/-- The modifiers of a type parameter are checked where it stands. -/
theorem yields_forIn {α : Type} {as : List α} {f : α → PUnit → Parse (ForInStep PUnit)} {u u' : PUnit}
    (hf : ∀ a u ⦃scope c r c'⦄, Yields (f a u) scope c r c' → r = .yield PUnit.unit ∧ c'.token = c.token)
    (h : Yields (forIn as u f) scope c u' c') : c'.token = c.token := by
  induction as generalizing c u with
  | nil =>
      rw [List.forIn_nil, yields_pure] at h
      rw [h.2]
  | cons a as ih =>
      rw [List.forIn_cons, yields_bind] at h
      obtain ⟨r, c₁, hr, h⟩ := h
      obtain ⟨rfl, htoken⟩ := hf a u hr
      rw [ih h, htoken]

@[grind →] theorem reads_typeParameter {variance const : Bool} (hr : rules.Sound) :
    Reads (typeParameter rules variance const) Tree.literals := by
  intro scope c t c' text stack held h hc
  simp only [typeParameter, yields_bind] at h
  obtain ⟨_, _, hposition, mods, c₁, hmods, _, c₂, hchecks, h⟩ := h
  have hloop := stands_repeatFrom hmods (fun _ => 0) (fun _ => 0) fun done c r c' text stack held h hc => by
    simp only [yields_bind] at h
    grind -linarith
  have hsame := yields_forIn (fun m u scope c r c' h => by
    split at h
    · obtain ⟨_, _, hfault, rfl, rfl⟩ := by simpa only [yields_bind, yields_pure] using h
      exact ⟨rfl, (yields_faultIf hfault).1⟩
    · split at h
      · obtain ⟨_, _, hfault, rfl, rfl⟩ := by simpa only [yields_bind, yields_pure] using h
        exact ⟨rfl, (yields_faultIf hfault).1⟩
      · obtain ⟨_, _, hfault, rfl, rfl⟩ := by simpa only [yields_bind, yields_pure] using h
        exact ⟨rfl, (yields_fault hfault).1⟩) hchecks
  obtain ⟨rfl, rfl⟩ := yields_position.mp hposition
  have hstands : Stands text stack held c₂ := by
    have hloop' := @hloop text stack held (by simpa using hc)
    rw [add_zero] at hloop'
    exact hloop'.congr hsame
  clear hmods hchecks hloop
  simp only [pure_bind, yields_bind, yields_ite] at h
  grind -linarith

@[grind →] theorem reads_typeParameters {variance const : Bool} (hr : rules.Sound) :
    Reads (typeParameters rules variance const) Tree.literals := by
  intro scope c t c' text stack held h hc
  have hitems := Reads.separated ">" (@reads_typeParameter _ variance const hr)
  rw [typeParameters] at h
  simp only [↓yields_looks, yields_bind, yields_finish] at h
  grind -linarith

@[grind →] theorem reads_typeParameters? {variance const : Bool} (hr : rules.Sound) :
    Reads (typeParameters? rules variance const) Tree.literalsOf := by
  intro scope c t c' text stack held h hc
  have hrules := hr.reads
  rw [typeParameters?] at h
  simp only [↓yields_looks, yields_bind, yields_ite] at h
  grind -linarith

theorem reads_returnType {mark : String} (hr : rules.Sound) (hm : isBracketMark mark = false) :
    Reads (returnType rules mark) Tree.literals := by
  intro scope c t c' text stack held h hc
  rw [returnType] at h
  simp only [↓yields_looks, yields_bind, yields_ite, yields_finish] at h
  grind -linarith

@[grind →] theorem reads_returnType? (hr : rules.Sound) : Reads (returnType? rules) Tree.literalsOf := by
  intro scope c t c' text stack held h hc
  have hresult := @reads_returnType _ ":" hr rfl
  rw [returnType?] at h
  simp only [↓yields_looks, yields_bind, yields_ite] at h
  grind -linarith

/-- The parameters of a signature end with a bracket that is open already. -/
@[grind →] theorem stands_signatureParameters {t : Tree} {k : Nat} (hr : rules.Sound)
    (h : Yields (signatureParameters rules) scope c t c') (hc : Stands text ((.paren, k) :: stack) held c) :
    Stands text stack (held + t.literals) c' := by
  have hrules := hr.reads
  simp only [signatureParameters, yields_bind] at h
  grind -linarith

@[grind →] theorem reads_typeMemberKey (hr : rules.Sound) : Reads (typeMemberKey rules) Tree.literals := by
  intro scope c t c' text stack held h hc
  rw [typeMemberKey] at h
  simp only [↓yields_looks] at h
  grind -linarith

@[grind →] theorem stands_endMember {u : Unit} (h : Yields endMember scope c u c')
    (hc : Stands text stack held c) : Stands text stack held c' := by
  simp only [endMember, yields_bind, yields_ite] at h
  grind -linarith

@[grind →] theorem yields_atIndexSignature (h : Yields atIndexSignature scope c b c') : c' = c := by
  rw [atIndexSignature] at h
  simp only [↓yields_looks, yields_ite] at h
  grind -linarith

@[grind →] theorem reads_indexSignature {start : Nat} (hr : rules.Sound) :
    Reads (indexSignature rules start) Tree.literals := by
  intro scope c t c' text stack held h hc
  rw [indexSignature] at h
  simp only [yields_bind, yields_ite, yields_finish] at h
  grind -linarith

@[grind →] theorem reads_callSignature {start : Nat} (hr : rules.Sound) :
    Reads (callSignature rules start) Tree.literals := by
  intro scope c t c' text stack held h hc
  rw [callSignature] at h
  simp only [yields_bind, yields_finish] at h
  grind -linarith

/-- A signature has the literals of its parts. -/
@[grind →] theorem literals_callSignature {t : Tree} (h : Yields (callSignature rules start) scope c t c') :
    t.literals = Tree.literalsOf t.parts := by
  simp only [callSignature, yields_bind, yields_finish] at h
  obtain ⟨_, _, _, _, _, _, _, _, _, _, _, _, _, _, _, rfl, _⟩ := h
  exact Tree.literals_node rfl _ _ _

@[grind →] theorem reads_accessorSignature (hr : rules.Sound) :
    Reads (accessorSignature rules) Tree.literals := by
  intro scope c t c' text stack held h hc
  have hrules := hr.reads
  rw [accessorSignature] at h
  simp only [↓yields_looks, yields_bind, yields_ite, yields_finish] at h
  grind -linarith

@[grind →] theorem reads_memberSignature {start : Nat} {readonly : Bool} (hr : rules.Sound) :
    Reads (memberSignature rules start readonly) Tree.literals := by
  intro scope c t c' text stack held h hc
  rw [memberSignature] at h
  simp only [↓yields_looks, yields_bind, yields_ite, yields_finish] at h
  obtain ⟨key, c₁, hkey, _, c₂, hmark, h⟩ := h
  split at h
  · grind -linarith
  · grind -linarith

@[grind →] theorem reads_typeMember (hr : rules.Sound) : Reads (typeMember rules) Tree.literals := by
  intro scope c t c' text stack held h hc
  rw [typeMember] at h
  simp only [↓yields_looks, yields_bind, yields_ite] at h
  grind -linarith

@[grind →] theorem reads_typeMembers (hr : rules.Sound) : Reads (typeMembers rules) Tree.literals := by
  intro scope c t c' text stack held h hc
  have hitems := @Reads.many (atMark "\x7d") _ (fun _ _ _ _ h => (yields_atMark.mp h).2) (reads_typeMember hr)
  rw [typeMembers] at h
  simp only [↓yields_looks, yields_bind, yields_finish] at h
  grind -linarith

@[grind →] theorem yields_atMappedType (h : Yields atMappedType scope c b c') : c' = c :=
  yields_ahead h

@[grind →] theorem stands_signedWord {w : String} {u : Unit} (h : Yields (signedWord w) scope c u c')
    (hc : Stands text stack held c) : Stands text stack held c' := by
  simp only [signedWord, yields_bind, yields_ite] at h
  grind -linarith

@[grind →] theorem reads_mappedType (hr : rules.Sound) : Reads (mappedType rules) Tree.literals := by
  intro scope c t c' text stack held h hc
  rw [mappedType] at h
  simp only [pure_bind, ↓yields_looks, yields_bind, yields_ite, yields_finish, List.cons_append, List.nil_append] at h
  obtain ⟨_, _, hopen, _, _, hsigned, _, _, hsquare, name, _, hname, _, _, hin, keys, _, hkeys, _,
    c₁, has, h⟩ := h
  have hkey := stands_expectWord hin (reads_anyName hname (open_square hsquare (stands_signedWord hsigned
    (open_brace hopen hc))))
  rw [literals_anyName hname, add_zero] at hkey
  have hbetween := reads_freeType hr hkeys hkey
  clear hopen hsigned hsquare hname hin hkey hkeys hc
  split at h
  · obtain ⟨as, c₂, has', _, c₃, hclose, h⟩ := h
    have hbehind : Stands text ((.brace, c.token.start) :: stack) (held + keys.literals + as.literals) c₃ := by
      grind -linarith
    clear has has' hclose hbetween
    grind -linarith
  · grind -linarith

@[grind →] theorem yields_atTupleLabel (h : Yields atTupleLabel scope c b c') :
    c' = c ∧ (b = true → isName c.token = true) := by
  rw [atTupleLabel] at h
  simp only [↓yields_looks, yields_ite, yields_pure] at h
  grind -linarith

@[grind →] theorem reads_tupleEntry (hr : rules.Sound) : Reads (tupleEntry rules) Tree.literals := by
  intro scope c t c' text stack held h hc
  rw [tupleEntry] at h
  simp only [↓yields_looks, yields_bind, yields_ite, yields_finish] at h
  grind -linarith

@[grind →] theorem reads_tupleType (hr : rules.Sound) : Reads (tupleType rules) Tree.literals := by
  intro scope c t c' text stack held h hc
  have hitems := Reads.separated "]" (reads_tupleEntry hr)
  rw [tupleType] at h
  simp only [↓yields_looks, yields_bind, yields_finish] at h
  grind -linarith

@[grind →] theorem reads_importType (hr : rules.Sound) : Reads (importType rules) Tree.literals := by
  intro scope c t c' text stack held h hc
  have hrules := hr.reads
  rw [importType] at h
  simp only [pure_bind, ↓yields_looks, yields_bind, yields_ite, yields_finish, List.cons_append, List.nil_append] at h
  obtain ⟨_, c₁, himport, _, c₂, hopen, source, c₃, hsource, _, c₄, hcomma, h⟩ := h
  have hbehind : Stands text ((.paren, c₁.token.start) :: stack) (held + source.literals) c₄ := by
    grind -linarith
  clear himport hopen hsource hcomma hc
  split at h
  · obtain ⟨options, c₅, hoptions, _, c₆, hcomma, _, c₇, hclose, h⟩ := h
    have hclosed : Stands text stack (held + source.literals + options.literals) c₇ := by
      grind -linarith
    clear hoptions hcomma hclose hbehind
    grind -linarith
  · grind -linarith

@[grind →] theorem isName_of_isTypeName {t : Token} (h : isTypeName t = true) : isName t = true := by
  rw [isTypeName] at h
  split at h
  · rename_i hlexeme
    simp [isName, hlexeme]
  · cases h

@[grind →] theorem reads_primaryType (hr : rules.Sound) : Reads (primaryType rules) Tree.literals := by
  intro scope c t c' text stack held h hc
  have hrules := hr.reads
  -- One case for each way in which a type may start.
  rw [primaryType, yields_token_bind] at h
  rw [yields_if] at h
  rcases h with ⟨hliteral, h⟩ | ⟨_, h⟩
  · simp only [yields_bind, yields_finish] at h
    grind -linarith
  rw [yields_if] at h
  rcases h with ⟨htemplate, h⟩ | ⟨_, h⟩
  · grind -linarith
  rw [yields_if] at h
  rcases h with ⟨hminus, h⟩ | ⟨_, h⟩
  · simp only [↓yields_looks, yields_bind, yields_finish] at h
    grind -linarith
  rw [yields_if] at h
  rcases h with ⟨hbrace, h⟩ | ⟨_, h⟩
  · simp only [yields_bind, yields_ite] at h
    grind -linarith
  rw [yields_if] at h
  rcases h with ⟨hsquare, h⟩ | ⟨_, h⟩
  · grind -linarith
  rw [yields_if] at h
  rcases h with ⟨hparen, h⟩ | ⟨_, h⟩
  · simp only [yields_bind, yields_finish] at h
    grind -linarith [→ expectMark_of_advance]
  rw [yields_if] at h
  rcases h with ⟨hbool, h⟩ | ⟨_, h⟩
  · simp only [yields_bind, yields_finish] at h
    grind -linarith
  rw [yields_if] at h
  rcases h with ⟨himport, h⟩ | ⟨_, h⟩
  · grind -linarith
  rw [yields_if] at h
  rcases h with ⟨hthis, h⟩ | ⟨_, h⟩
  · simp only [↓yields_looks, yields_bind, yields_ite, yields_finish] at h
    grind -linarith
  rw [yields_if] at h
  rcases h with ⟨htypeof, h⟩ | ⟨_, h⟩
  · simp only [↓yields_looks, yields_bind, yields_ite, yields_finish] at h
    grind -linarith
  rw [yields_if] at h
  rcases h with ⟨hname, h⟩ | ⟨_, h⟩
  · simp only [↓yields_looks, yields_bind, yields_ite, yields_finish] at h
    grind -linarith [→ yields_advance]
  exact absurd h yields_reject

@[grind →] theorem reads_arrayType (hr : rules.Sound) : Reads (arrayType rules) Tree.literals := by
  intro scope c t c' text stack held h hc
  rw [arrayType] at h
  simp only [↓yields_looks, yields_bind] at h
  obtain ⟨base, c₁, hbase, hloop⟩ := h
  have hpost := stands_repeatFrom hloop Tree.literals Tree.literals fun t c r c' text stack held h hc => by
    simp only [↓yields_looks, yields_bind, yields_ite, yields_pure, yields_finish] at h
    grind -linarith
  grind -linarith

@[grind →] theorem reads_inferType (hr : rules.Sound) : Reads (inferType rules) Tree.literals := by
  intro scope c t c' text stack held h hc
  have hrules := hr.reads
  rw [inferType] at h
  simp only [↓yields_looks, yields_bind, yields_finish] at h
  obtain ⟨_, c₁, hinfer, name, c₂, hname, bound, c₃, hbound, rfl, rfl⟩ := h
  have hstands : Stands text stack held c₂ := by
    grind -linarith
  rcases yields_attempt hbound with ⟨t, scope', rfl, htype⟩ | ⟨rfl, rfl⟩
  · simp only [yields_bind] at htype
    grind -linarith [Option.toList_some]
  · grind -linarith [Option.toList_none]

@[grind →] theorem reads_typeOperand (hr : rules.Sound) : Reads (typeOperand rules) Tree.literals := by
  intro scope c t c' text stack held h hc
  have hrules := hr.reads
  rw [typeOperand] at h
  simp only [↓yields_looks, yields_bind, yields_ite, yields_finish] at h
  grind -linarith

theorem reads_typeChain {mark : String} {kind : Kind} {operand : Parse Tree} (hm : isBracketMark mark = false) (hk : kind.isLiteral = false)
    (hoperand :
    Reads operand Tree.literals) : Reads (typeChain mark kind operand) Tree.literals := by
  intro scope c t c' text stack held h hc
  rw [typeChain] at h
  simp only [↓yields_looks, yields_bind] at h
  obtain ⟨_, c₁, hmark, first, c₂, hfirst, parts, c₃, hparts, h⟩ := h
  have hloop := stands_repeatFrom hparts Tree.literalsOf Tree.literalsOf fun done c r c' text stack held h hc => by
    simp only [yields_bind, yields_ite, yields_pure] at h
    grind -linarith
  have hstands : Stands text stack (held + Tree.literalsOf [first]) c₂ := by
    grind -linarith
  have hall := hloop hstands
  split at h
  · grind -linarith
  · grind -linarith

@[grind →] theorem yields_atFunctionType (h : Yields (atFunctionType rules) scope c b c') : c' = c := by
  rw [atFunctionType] at h
  simp only [↓yields_looks, yields_ite] at h
  grind -linarith

theorem reads_functionType {kind : Kind} (hr : rules.Sound) (hk : kind.isLiteral = false) :
    Reads (functionType rules kind) Tree.literals := by
  intro scope c t c' text stack held h hc
  have hresult := @reads_returnType _ "=>" hr rfl
  rw [functionType] at h
  simp only [↓yields_looks, yields_bind, yields_ite, yields_finish] at h
  split at h
  · obtain ⟨_, c₂, habstract, _, c₃, hnew, h⟩ := h
    have hstands : Stands text stack held c₃ := by
      grind -linarith
    clear habstract hnew hc
    grind -linarith
  · grind -linarith

@[grind →] theorem reads_plainType (hr : rules.Sound) : Reads (plainType rules) Tree.literals := by
  intro scope c t c' text stack held h hc
  have hrules := hr.reads
  have hfunction := @reads_functionType _ .typeFunction hr rfl
  have hconstructor := @reads_functionType _ .typeConstructor hr rfl
  have hunion := @reads_typeChain "|" .typeUnion _ rfl rfl
    (@reads_typeChain "&" .typeIntersection _ rfl rfl (hr.rule .typeOperand rfl))
  rw [plainType] at h
  simp only [↓yields_looks, yields_bind, yields_ite] at h
  grind -linarith

@[grind →] theorem reads_type (hr : rules.Sound) : Reads (type rules) Tree.literals := by
  intro scope c t c' text stack held h hc
  have hplain := hr.rule .plainType rfl
  rw [type] at h
  simp only [↓yields_looks, yields_bind, yields_ite, yields_pure, yields_within, yields_finish] at h
  obtain ⟨t₁, c₁, hfirst, h⟩ := h
  have hstands := reads_plainType hr hfirst hc
  clear hfirst hc
  split at h
  · grind -linarith
  obtain ⟨_, c₂, hextends, h⟩ := h
  split at h
  · grind -linarith
  obtain ⟨t₂, c₃, hsecond, h⟩ := h
  have hstands' : Stands text stack (held + t₁.literals + t₂.literals) c₃ := by
    grind -linarith
  clear hextends hsecond hstands
  grind -linarith

end Script
end StoryDocs
