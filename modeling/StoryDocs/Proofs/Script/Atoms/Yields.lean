import StoryDocs.Proofs.Script.Atoms.Literals
import StoryDocs.Proofs.Script.Atoms.Places
import StoryDocs.Proofs.Script.Running

/-!
# What rules yield

`Yields` relates the cursors in front of a rule and behind it.  It is taken apart along the steps of the rule;
looking ahead and recording faults leave the token as it is, and moves go over a token at a time.
-/

namespace StoryDocs
namespace Script

open Grammar

variable {α β : Type} {scope : Scope} {c c' : Cursor} {m w : String}

/-- A rule gives `a` and moves on from one cursor to another. -/
def Yields (p : Parse α) (scope : Scope) (c : Cursor) (a : α) (c' : Cursor) : Prop :=
  p scope c = some (a, c')

/-! ## Steps -/

@[simp, grind =] theorem yields_bind {p : Parse α} {f : α → Parse β} {b : β} :
    Yields (p >>= f) scope c b c' ↔ ∃ a c₁, Yields p scope c a c₁ ∧ Yields (f a) scope c₁ b c' := by
  rw [Yields, run_bind, Option.bind_eq_some_iff]
  exact ⟨fun ⟨⟨a, c₁⟩, hp, hf⟩ => ⟨a, c₁, hp, hf⟩, fun ⟨a, c₁, hp, hf⟩ => ⟨(a, c₁), hp, hf⟩⟩

@[simp, grind =] theorem yields_pure {a b : α} : Yields (pure a) scope c b c' ↔ b = a ∧ c' = c := by
  rw [Yields, run_pure, Option.some.injEq, Prod.mk.injEq]
  exact ⟨fun ⟨ha, hc⟩ => ⟨ha.symm, hc.symm⟩, fun ⟨ha, hc⟩ => ⟨ha.symm, hc.symm⟩⟩

@[simp, grind =] theorem yields_map {p : Parse α} {f : α → β} {b : β} :
    Yields (f <$> p) scope c b c' ↔ ∃ a, Yields p scope c a c' ∧ b = f a := by
  rw [Yields, run_map, Option.map_eq_some_iff]
  constructor
  · rintro ⟨⟨a, c₁⟩, hp, heq⟩
    obtain ⟨rfl, rfl⟩ := Prod.mk.inj heq
    exact ⟨a, hp, rfl⟩
  · rintro ⟨a, hp, rfl⟩
    exact ⟨(a, c'), hp, rfl⟩

@[simp] theorem yields_ite {b : Prop} [Decidable b] {p q : Parse α} {a : α} :
    Yields (if b then p else q) scope c a c' ↔ if b then Yields p scope c a c' else Yields q scope c a c' := by
  split
  · rfl
  · rfl

theorem yields_if {b : Prop} [Decidable b] {p q : Parse α} {a : α} : Yields (if b then p else q) scope c a c' ↔
    (b ∧ Yields p scope c a c') ∨ (¬b ∧ Yields q scope c a c') := by
  by_cases hb : b
  · rw [if_pos hb]
    exact ⟨fun h => .inl ⟨hb, h⟩, fun h => h.elim (·.2) fun h => absurd hb h.1⟩
  · rw [if_neg hb]
    exact ⟨fun h => .inr ⟨hb, h⟩, fun h => h.elim (fun h => absurd h.1 hb) (·.2)⟩

@[simp, grind =] theorem yields_within {change : Scope → Scope} {p : Parse α} {a : α} :
    Yields (within change p) scope c a c' ↔ Yields p (change scope) c a c' := Iff.rfl

@[simp, grind =] theorem yields_tryRule {p : Parse α} {a : Option α} :
    Yields (tryRule p) scope c a c' ↔
      (∃ b, a = some b ∧ Yields p scope c b c') ∨ (a = none ∧ c' = c ∧ p scope c = none) := by
  rw [Yields, tryRule]
  cases hp : p scope c with
  | none => simp [Yields, hp, eq_comm]
  | some r => simp [Yields, hp, eq_comm, Prod.ext_iff]

/-- A reading that is tried succeeds in some scope, or leaves the cursor as it is. -/
theorem yields_attempt {p : Parse α} {a : Option α} (h : Yields (attempt p) scope c a c') :
    (∃ b scope', a = some b ∧ Yields p scope' c b c') ∨ (a = none ∧ c' = c) := by
  rcases yields_tryRule.mp h with ⟨b, ha, hb⟩ | ⟨ha, hc, _⟩
  · exact .inl ⟨b, _, ha, hb⟩
  · exact .inr ⟨ha, hc⟩

/-! ## Looking ahead -/

theorem yields_look {p : Parse α} {a b : α} (h : p scope c = some (b, c)) :
    Yields p scope c a c' ↔ a = b ∧ c' = c := by
  rw [Yields, h, Option.some.injEq, Prod.mk.injEq, eq_comm, @eq_comm _ c]

@[simp, grind =] theorem yields_read {a : Scope} : Yields read scope c a c' ↔ a = scope ∧ c' = c := yields_look rfl

@[simp, grind =] theorem yields_token {t : Token} : Yields token scope c t c' ↔ t = c.token ∧ c' = c := yields_look rfl

@[simp, grind =] theorem yields_position {n : Nat} : Yields position scope c n c' ↔ n = c.token.start ∧ c' = c :=
  yields_look rfl

@[simp, grind =] theorem yields_lastStop {n : Nat} : Yields lastStop scope c n c' ↔ n = c.lastStop ∧ c' = c :=
  yields_look rfl

@[simp, grind =] theorem yields_typed {b : Bool} : Yields typed scope c b c' ↔ b = scope.features.types ∧ c' = c :=
  yields_look rfl

@[simp, grind =] theorem yields_tagged {b : Bool} : Yields tagged scope c b c' ↔ b = scope.features.tags ∧ c' = c :=
  yields_look rfl

@[simp, grind =] theorem yields_atMark {b : Bool} : Yields (atMark m) scope c b c' ↔ b = isMark c.token m ∧ c' = c :=
  yields_look rfl

@[simp, grind =] theorem yields_atWord {b : Bool} : Yields (atWord w) scope c b c' ↔ b = isWord c.token w ∧ c' = c :=
  yields_look rfl

@[simp, grind =] theorem yields_atMarks {b : Bool} {ms : List String} :
    Yields (atMarks ms) scope c b c' ↔ b = ms.any (isMark c.token) ∧ c' = c :=
  yields_look rfl

@[simp, grind =] theorem yields_atWords {b : Bool} {ws : List String} :
    Yields (atWords ws) scope c b c' ↔ b = ws.any (isWord c.token) ∧ c' = c :=
  yields_look rfl

@[simp, grind =] theorem yields_afterBreak {b : Bool} :
    Yields afterBreak scope c b c' ↔ b = c.token.afterBreak ∧ c' = c :=
  yields_look rfl

@[simp, grind =] theorem yields_atEnd {b : Bool} :
    Yields atEnd scope c b c' ↔ b = (c.token.lexeme == .done) ∧ c' = c :=
  yields_look rfl

@[simp, grind =] theorem yields_atReference {b : Bool} :
    Yields atReference scope c b c' ↔ b = isReference c.token ∧ c' = c :=
  yields_look rfl

@[simp, grind =] theorem yields_atSemicolon {b : Bool} : Yields atSemicolon scope c b c' ↔
    b = (isMark c.token ";" || isMark c.token "\x7d" || c.token.lexeme == .done || c.token.afterBreak) ∧ c' = c :=
  yields_look rfl

@[simp, grind =] theorem yields_peek {t : Token} :
    Yields peek scope c t c' ↔ t = Token.read scope.bound c.token.rest c.token.stop ∧ c' = c :=
  yields_look rfl

@[simp, grind =] theorem yields_finish {k : Kind} {start : Nat} {name : String} {parts : List Tree} {t : Tree} :
    Yields (finish k start name parts) scope c t c' ↔ t = .node k ⟨start, c.lastStop⟩ name parts ∧ c' = c :=
  yields_look rfl

@[simp, grind ←] theorem yields_reject {a : α} : ¬Yields reject scope c a c' := by
  rintro ⟨⟩

@[simp, grind =] theorem yields_require {b : Bool} {u : Unit} :
    Yields (require b) scope c u c' ↔ b = true ∧ c' = c := by
  cases b with
  | false => simp [require]
  | true => simp [require]

theorem yields_token_bind {f : Token → Parse α} {a : α} :
    Yields (token >>= f) scope c a c' ↔ Yields (f c.token) scope c a c' := Iff.rfl

/-- Looking ahead leaves the cursor where it is, so what follows reads on from there. -/
theorem yields_looks {b : α} :
    (∀ f, Yields (position >>= f) scope c b c' ↔ Yields (f c.token.start) scope c b c') ∧
      (∀ f, Yields (lastStop >>= f) scope c b c' ↔ Yields (f c.lastStop) scope c b c') ∧
      (∀ f, Yields (token >>= f) scope c b c' ↔ Yields (f c.token) scope c b c') ∧
      (∀ f, Yields (peek >>= f) scope c b c' ↔
        Yields (f (Token.read scope.bound c.token.rest c.token.stop)) scope c b c') ∧
      (∀ f, Yields (read >>= f) scope c b c' ↔ Yields (f scope) scope c b c') ∧
      (∀ f, Yields (typed >>= f) scope c b c' ↔ Yields (f scope.features.types) scope c b c') ∧
      (∀ f, Yields (tagged >>= f) scope c b c' ↔ Yields (f scope.features.tags) scope c b c') ∧
      (∀ f, Yields (afterBreak >>= f) scope c b c' ↔ Yields (f c.token.afterBreak) scope c b c') ∧
      (∀ f, Yields (atEnd >>= f) scope c b c' ↔ Yields (f (c.token.lexeme == .done)) scope c b c') ∧
      (∀ f, Yields (atReference >>= f) scope c b c' ↔ Yields (f (isReference c.token)) scope c b c') ∧
      (∀ m f, Yields (atMark m >>= f) scope c b c' ↔ Yields (f (isMark c.token m)) scope c b c') ∧
      (∀ w f, Yields (atWord w >>= f) scope c b c' ↔ Yields (f (isWord c.token w)) scope c b c') ∧
      (∀ ms f, Yields (atMarks ms >>= f) scope c b c' ↔ Yields (f (ms.any (isMark c.token))) scope c b c') ∧
      (∀ ws f, Yields (atWords ws >>= f) scope c b c' ↔ Yields (f (ws.any (isWord c.token))) scope c b c') ∧
      (∀ (e : Bool) f, Yields (pure e >>= f) scope c b c' ↔ Yields (f e) scope c b c') ∧
      ∀ e f, Yields (require e >>= f) scope c b c' ↔ e = true ∧ Yields (f ()) scope c b c' := by
  refine ⟨fun _ => Iff.rfl, fun _ => Iff.rfl, fun _ => Iff.rfl, fun _ => Iff.rfl, fun _ => Iff.rfl,
    fun _ => Iff.rfl, fun _ => Iff.rfl, fun _ => Iff.rfl, fun _ => Iff.rfl, fun _ => Iff.rfl,
    fun _ _ => Iff.rfl, fun _ _ => Iff.rfl, fun _ _ => Iff.rfl, fun _ _ => Iff.rfl, fun _ _ => Iff.rfl, ?_⟩
  intro e f
  cases e with
  | false =>
      constructor
      · rintro ⟨⟩
      · rintro ⟨⟨⟩, _⟩
  | true => exact ⟨fun hyields => ⟨rfl, hyields⟩, fun hyields => hyields.2⟩

theorem yields_ahead {p : Parse Bool} {b : Bool} (h : Yields (ahead p) scope c b c') : c' = c := by
  rw [Yields, ahead] at h
  split at h
  · exact (Prod.mk.inj (Option.some.inj h)).2.symm
  · exact (Prod.mk.inj (Option.some.inj h)).2.symm

/-! ## Faults -/

theorem yields_fault {u : Unit} (h : Yields fault scope c u c') :
    c'.token = c.token ∧ c'.lastStop = c.lastStop := by
  rw [fault, yields_bind] at h
  obtain ⟨s, c₁, hread, h⟩ := h
  obtain ⟨rfl, rfl⟩ := yields_read.mp hread
  rw [yields_ite] at h
  split at h
  · obtain ⟨_, rfl⟩ := Prod.mk.inj (Option.some.inj h)
    exact ⟨rfl, rfl⟩
  · obtain ⟨_, rfl⟩ := yields_pure.mp h
    exact ⟨rfl, rfl⟩

theorem yields_faultIf {b : Bool} {u : Unit} (h : Yields (faultIf b) scope c u c') :
    c'.token = c.token ∧ c'.lastStop = c.lastStop := by
  cases b with
  | false =>
      obtain ⟨_, rfl⟩ := yields_pure.mp h
      exact ⟨rfl, rfl⟩
  | true => exact yields_fault h

/-! ## Moves -/

theorem yields_resumeAt {s : List Char} {n : Nat} {u : Unit} (h : Yields (resumeAt s n) scope c u c') :
    c' = { c with token := Token.read scope.bound s n, lastStop := n } :=
  (Prod.mk.inj (Option.some.inj h)).2.symm

/-- A move goes over a token that can be read, to the token behind it. -/
theorem yields_advance {u : Unit} (h : Yields advance scope c u c') :
    c'.token = Token.read scope.bound c.token.rest c.token.stop ∧ c'.lastStop = c.token.stop ∧
      c.token.lexeme ≠ .bad ∧ c.token.lexeme ≠ .done := by
  rw [advance, yields_bind] at h
  obtain ⟨t, c₁, htoken, h⟩ := h
  obtain ⟨rfl, rfl⟩ := yields_token.mp htoken
  split at h
  · exact absurd h yields_reject
  · exact absurd h yields_reject
  · rename_i hbad hdone
    obtain ⟨_, c₂, hfault, h⟩ := yields_bind.mp h
    obtain rfl := yields_resumeAt h
    obtain ⟨htoken, _⟩ := yields_faultIf hfault
    exact ⟨rfl, rfl, hbad, hdone⟩

@[simp, grind =] theorem yields_bracketed {p : Parse α} {a : α} : Yields (bracketed p) scope c a c' ↔
    Yields p { scope with inOperator := true, awaitsColon := false } c a c' := Iff.rfl

theorem yields_expectMark {u : Unit} : Yields (expectMark m) scope c u c' ↔
    isMark c.token m = true ∧ Yields advance scope c () c' := by
  simp only [expectMark, eatMark, yields_bind, yields_atMark, yields_ite, yields_pure, yields_require]
  constructor
  · rintro ⟨b, c₁, ⟨_, _, ⟨rfl, rfl⟩, h⟩, rfl, rfl⟩
    split at h
    · rename_i hmark
      obtain ⟨_, _, hmove, _, rfl⟩ := h
      exact ⟨hmark, hmove⟩
    · cases h.1
  · rintro ⟨hmark, hmove⟩
    exact ⟨true, c', ⟨_, c, ⟨rfl, rfl⟩, by rw [if_pos hmark]; exact ⟨(), c', hmove, rfl, rfl⟩⟩, rfl, rfl⟩

theorem yields_expectWord {u : Unit} : Yields (expectWord w) scope c u c' ↔
    isWord c.token w = true ∧ Yields advance scope c () c' := by
  simp only [expectWord, eatWord, yields_bind, yields_atWord, yields_ite, yields_pure, yields_require]
  constructor
  · rintro ⟨b, c₁, ⟨_, _, ⟨rfl, rfl⟩, h⟩, rfl, rfl⟩
    split at h
    · rename_i hword
      obtain ⟨_, _, hmove, _, rfl⟩ := h
      exact ⟨hword, hmove⟩
    · cases h.1
  · rintro ⟨hword, hmove⟩
    exact ⟨true, c', ⟨_, c, ⟨rfl, rfl⟩, by rw [if_pos hword]; exact ⟨(), c', hmove, rfl, rfl⟩⟩, rfl, rfl⟩

/-- A mark is skipped where it stands. -/
theorem yields_eatMark {b : Bool} (h : Yields (eatMark m) scope c b c') :
    (b = true ∧ Yields (expectMark m) scope c () c') ∨ (b = false ∧ isMark c.token m = false ∧ c' = c) := by
  simp only [eatMark, yields_bind, yields_atMark, yields_ite, yields_pure] at h
  obtain ⟨_, _, ⟨rfl, rfl⟩, h⟩ := h
  split at h
  · rename_i hmark
    obtain ⟨_, _, hmove, rfl, rfl⟩ := h
    exact .inl ⟨rfl, yields_expectMark.mpr ⟨hmark, hmove⟩⟩
  · rename_i hmark
    obtain ⟨rfl, rfl⟩ := h
    exact .inr ⟨rfl, by simpa using hmark, rfl⟩

/-- A word is skipped where it stands. -/
theorem yields_eatWord {b : Bool} (h : Yields (eatWord w) scope c b c') :
    (b = true ∧ Yields (expectWord w) scope c () c') ∨ (b = false ∧ isWord c.token w = false ∧ c' = c) := by
  simp only [eatWord, yields_bind, yields_atWord, yields_ite, yields_pure] at h
  obtain ⟨_, _, ⟨rfl, rfl⟩, h⟩ := h
  split at h
  · rename_i hword
    obtain ⟨_, _, hmove, rfl, rfl⟩ := h
    exact .inl ⟨rfl, yields_expectWord.mpr ⟨hword, hmove⟩⟩
  · rename_i hword
    obtain ⟨rfl, rfl⟩ := h
    exact .inr ⟨rfl, by simpa using hword, rfl⟩

@[simp, grind =] theorem yields_eatMarkIf {b b' : Bool} : Yields (eatMarkIf b m) scope c b' c' ↔
    if b then Yields (eatMark m) scope c b' c' else b' = false ∧ c' = c := by
  cases b with
  | false => exact yields_pure
  | true => exact Iff.rfl

@[simp, grind =] theorem yields_eatWordIf {b b' : Bool} : Yields (eatWordIf b w) scope c b' c' ↔
    if b then Yields (eatWord w) scope c b' c' else b' = false ∧ c' = c := by
  cases b with
  | false => exact yields_pure
  | true => exact Iff.rfl

end Script
end StoryDocs
