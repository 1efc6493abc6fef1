import StoryDocs.Script.Module

/-!
# Running rules

What the small rules do at a cursor, as equations that evaluate a rule step by step.  A loop is described
by the runs of its rounds: `Separated` for entries with commas between them, `Repeated` for entries up to a
stop.
-/

namespace StoryDocs
namespace Script

/-! ## Cursors -/

/-- The cursor in front of a text that starts at `n`, right behind what was read. -/
def Cursor.front (bound : Nat) (s : List Char) (n : Nat) : Cursor :=
  { token := Token.read bound s n, lastStop := n }

/-- The cursor behind the current token. -/
def Cursor.next (c : Cursor) (bound : Nat) : Cursor :=
  { c with token := Token.read bound c.token.rest c.token.stop, lastStop := c.token.stop }

theorem Cursor.next_front (bound : Nat) (s : List Char) (n : Nat) :
    (front bound s n).next bound =
      front bound (Token.read bound s n).rest (Token.read bound s n).stop := rfl

/-- A token that a rule can move over without a fault. -/
structure Token.Sound (t : Token) : Prop where
  faulty : t.faulty = false
  ne_bad : t.lexeme ≠ .bad
  ne_done : t.lexeme ≠ .done

namespace Grammar

variable {α β : Type} {scope : Scope} {c c₁ c₂ c' : Cursor} {t : Token} {m w : String} {p : Parse α}

/-! ## Tests of tokens -/

theorem isMark_of_mark {text : String} (h : t.lexeme = .mark text) (m : String) :
    isMark t m = (text == m) := by
  rw [isMark, h]

theorem isWord_of_mark {text : String} (h : t.lexeme = .mark text) (w : String) :
    isWord t w = false := by
  rw [isWord, h]

theorem isWord_of_word {name : String} (h : t.lexeme = .word name false) (w : String) :
    isWord t w = (name == w) := by
  simp [isWord, h]

theorem isMark_of_word {name : String} {escaped : Bool} (h : t.lexeme = .word name escaped)
    (m : String) : isMark t m = false := by
  rw [isMark, h]

theorem isMark_of_string {value : String} (h : t.lexeme = .string value) (m : String) :
    isMark t m = false := by
  rw [isMark, h]

theorem isWord_of_string {value : String} (h : t.lexeme = .string value) (w : String) :
    isWord t w = false := by
  rw [isWord, h]

theorem lexeme_of_isMark (h : isMark t m = true) : t.lexeme = .mark m := by
  rw [isMark] at h
  split at h
  · rename_i text hlexeme
    rw [hlexeme, beq_iff_eq.mp h]
  · cases h

/-! ## Steps -/

@[simp] theorem run_pure (a : α) : (pure a : Parse α) scope c = some (a, c) := rfl

theorem run_bind (p : Parse α) (f : α → Parse β) :
    (p >>= f) scope c = (p scope c).bind fun r => f r.1 scope r.2 := rfl

theorem run_map (p : Parse α) (f : α → β) :
    (f <$> p) scope c = (p scope c).map fun r => (f r.1, r.2) := by
  show (p scope c >>= fun r => pure (f r.1, r.2)) = _
  cases p scope c with
  | none => rfl
  | some r => rfl

@[simp] theorem run_token : token scope c = some (c.token, c) := rfl

@[simp] theorem run_atMark : atMark m scope c = some (isMark c.token m, c) := rfl

@[simp] theorem run_atWord : atWord w scope c = some (isWord c.token w, c) := rfl

@[simp] theorem run_atEnd : atEnd scope c = some (c.token.lexeme == .done, c) := rfl

@[simp] theorem run_finish (k : Kind) (start : Nat) (name : String) (parts : List Tree) :
    finish k start name parts scope c = some (.node k ⟨start, c.lastStop⟩ name parts, c) := rfl

@[simp] theorem run_require (b : Bool) : require b scope c = if b then some ((), c) else none := by
  cases b <;> rfl

@[simp] theorem run_within (change : Scope → Scope) (p : Parse α) :
    within change p scope c = p (change scope) c := rfl

@[simp] theorem run_faultIf_false : faultIf false scope c = some ((), c) := rfl

theorem run_bracketed (hin : scope.inOperator = true) (hcolon : scope.awaitsColon = false)
    (p : Parse α) : bracketed p scope c = p scope c := by
  have hscope : { scope with inOperator := true, awaitsColon := false } = scope := by
    rw [← hin, ← hcolon]
  rw [bracketed, run_within, hscope]

theorem run_advance (h : c.token.Sound) : advance scope c = some ((), c.next scope.bound) := by
  have hbad := h.ne_bad
  have hdone := h.ne_done
  simp only [advance, run_bind, run_token, Option.bind_some]
  cases hlexeme : c.token.lexeme with
  | bad => contradiction
  | done => contradiction
  | _ =>
      simp only [h.faulty, run_faultIf_false]
      rfl

@[simp] theorem run_eatMark_of_not (h : isMark c.token m = false) :
    eatMark m scope c = some (false, c) := by
  simp [eatMark, h, run_bind]

theorem run_eatMark (h : isMark c.token m = true) (hsound : c.token.Sound) :
    eatMark m scope c = some (true, c.next scope.bound) := by
  simp [eatMark, h, run_map, run_bind, run_advance hsound]

@[simp] theorem run_eatWord_of_not (h : isWord c.token w = false) :
    eatWord w scope c = some (false, c) := by
  simp [eatWord, h, run_bind]

theorem run_eatWordIf_of_not (condition : Bool) (h : isWord c.token w = false) :
    eatWordIf condition w scope c = some (false, c) := by
  cases condition with
  | true => exact run_eatWord_of_not h
  | false => rfl

theorem run_eatWord (h : isWord c.token w = true) (hsound : c.token.Sound) :
    eatWord w scope c = some (true, c.next scope.bound) := by
  simp [eatWord, h, run_map, run_bind, run_advance hsound]

theorem run_expectMark (h : isMark c.token m = true) (hsound : c.token.Sound) :
    expectMark m scope c = some ((), c.next scope.bound) := by
  simp [expectMark, run_bind, run_eatMark h hsound]

theorem run_expectWord (h : isWord c.token w = true) (hsound : c.token.Sound) :
    expectWord w scope c = some ((), c.next scope.bound) := by
  simp [expectWord, run_bind, run_eatWord h hsound]

theorem run_expectSemicolon (h : isMark c.token ";" = true) (hsound : c.token.Sound) :
    expectSemicolon scope c = some ((), c.next scope.bound) := by
  simp [expectSemicolon, eatSemicolon, run_bind, run_eatMark h hsound]

/-! ## Steps in front of others

The same steps with what follows them.  These are tried before what follows is looked into, so that a rule
is evaluated in its own order and only along the branch it takes. -/

theorem run_bind_of {q : Parse β} {b : β} (h : q scope c = some (b, c')) (f : β → Parse α) :
    (q >>= f) scope c = f b scope c' := by
  rw [run_bind, h]
  rfl

theorem advance_bind_run (h : c.token.Sound) (f : Unit → Parse α) :
    (advance >>= f) scope c = f () scope (c.next scope.bound) :=
  run_bind_of (run_advance h) f

@[simp ↓] theorem run_ite {b : Prop} [Decidable b] {q : Parse α} :
    (if b then p else q) scope c = if b then p scope c else q scope c := by
  split <;> rfl

@[simp ↓] theorem eatMark_bind_run (f : Bool → Parse α) :
    (eatMark m >>= f) scope c =
      if isMark c.token m then (advance >>= fun _ => f true) scope c else f false scope c := by
  cases h : isMark c.token m with
  | true =>
      simp only [eatMark, run_bind, run_atMark, Option.bind_some, h, if_true]
      cases advance scope c <;> rfl
  | false => rw [run_bind, run_eatMark_of_not h]; rfl

@[simp ↓] theorem eatWord_bind_run (f : Bool → Parse α) :
    (eatWord w >>= f) scope c =
      if isWord c.token w then (advance >>= fun _ => f true) scope c else f false scope c := by
  cases h : isWord c.token w with
  | true =>
      simp only [eatWord, run_bind, run_atWord, Option.bind_some, h, if_true]
      cases advance scope c <;> rfl
  | false => rw [run_bind, run_eatWord_of_not h]; rfl

@[simp ↓] theorem require_bind_run (b : Bool) (f : Unit → Parse α) :
    (require b >>= f) scope c = if b then f () scope c else none := by
  cases b <;> rfl

@[simp ↓] theorem read_bind_run (f : Scope → Parse α) :
    ((read : Parse Scope) >>= f) scope c = f scope scope c := rfl

@[simp ↓] theorem token_bind_run (f : Token → Parse α) :
    (token >>= f) scope c = f c.token scope c := rfl

@[simp ↓] theorem position_bind_run (f : Nat → Parse α) :
    (position >>= f) scope c = f c.token.start scope c := rfl

@[simp ↓] theorem lastStop_bind_run (f : Nat → Parse α) :
    (lastStop >>= f) scope c = f c.lastStop scope c := rfl

@[simp ↓] theorem atMark_bind_run (f : Bool → Parse α) :
    (atMark m >>= f) scope c = f (isMark c.token m) scope c := rfl

@[simp ↓] theorem atWord_bind_run (f : Bool → Parse α) :
    (atWord w >>= f) scope c = f (isWord c.token w) scope c := rfl

@[simp ↓] theorem atMarks_bind_run (ms : List String) (f : Bool → Parse α) :
    (atMarks ms >>= f) scope c = f (ms.any (isMark c.token)) scope c := rfl

@[simp ↓] theorem atWords_bind_run (ws : List String) (f : Bool → Parse α) :
    (atWords ws >>= f) scope c = f (ws.any (isWord c.token)) scope c := rfl

@[simp ↓] theorem atReference_bind_run (f : Bool → Parse α) :
    (atReference >>= f) scope c = f (isReference c.token) scope c := rfl

@[simp ↓] theorem afterBreak_bind_run (f : Bool → Parse α) :
    (afterBreak >>= f) scope c = f c.token.afterBreak scope c := rfl

@[simp ↓] theorem typed_bind_run (f : Bool → Parse α) :
    (typed >>= f) scope c = f scope.features.types scope c := rfl

@[simp ↓] theorem tagged_bind_run (f : Bool → Parse α) :
    (tagged >>= f) scope c = f scope.features.tags scope c := rfl

@[simp ↓] theorem peek_bind_run (f : Token → Parse α) :
    (peek >>= f) scope c = f (c.next scope.bound).token scope c := rfl

@[simp ↓] theorem within_bind_run (change : Scope → Scope) (q : Parse β) (f : β → Parse α) :
    (within change q >>= f) scope c = (q (change scope) c).bind fun r => f r.1 scope r.2 := rfl

/-! ## Loops -/

/-- Entries with a comma behind each of them but, perhaps, the last. -/
inductive Separated (scope : Scope) (close : String) (entry : Parse Tree) :
    Cursor → List Tree → Cursor → Prop
  | nil {c : Cursor} (hclose : isMark c.token close = true) : Separated scope close entry c [] c
  | last {c c₁ : Cursor} {e : Tree} (hopen : isMark c.token close = false)
      (hentry : entry scope c = some (e, c₁)) (hclose : isMark c₁.token close = true) :
      Separated scope close entry c [e] c₁
  | cons {c c₁ c' : Cursor} {e : Tree} {es : List Tree} (hopen : isMark c.token close = false)
      (hentry : entry scope c = some (e, c₁)) (hgoes : isMark c₁.token close = false)
      (hcomma : isMark c₁.token "," = true) (hsound : c₁.token.Sound)
      (hrest : Separated scope close entry (c₁.next scope.bound) es c') :
      Separated scope close entry c (e :: es) c'

theorem Separated.closes {close : String} {entry : Parse Tree} {es : List Tree}
    (h : Separated scope close entry c es c') : isMark c'.token close = true := by
  induction h with
  | nil hclose => exact hclose
  | last _ _ hclose => exact hclose
  | cons _ _ _ _ _ _ ih => exact ih

theorem Separated.run {close : String} {entry : Parse Tree} {es : List Tree}
    (h : Separated scope close entry c es c') (hbound : es.length ≤ scope.bound) :
    separated close entry scope c = some (es, c') := by
  -- The rounds so far are kept in reverse.
  have hloop : ∀ (k : Nat) (done : List Tree), es.length < k →
      iterate (fun done => do
        if ← atMark close then return .inr done.reverse
        let t ← entry
        if !(← atMark close) then expectMark ","
        return .inl (t :: done)) k done scope c = some (done.reverse ++ es, c') := by
    clear hbound
    induction h with
    | nil hclose =>
        intro k done hk
        obtain ⟨k, rfl⟩ : ∃ j, k = j + 1 := ⟨k - 1, by simp at hk; omega⟩
        simp [iterate, run_bind, hclose]
    | last hopen hentry hclose =>
        intro k done hk
        obtain ⟨k, rfl⟩ : ∃ j, k = j + 1 + 1 := ⟨k - 2, by simp at hk; omega⟩
        simp [iterate, run_bind, hopen, hentry, hclose]
    | cons hopen hentry hgoes hcomma hsound _ ih =>
        intro k done hk
        rw [List.length_cons] at hk
        obtain ⟨k, rfl⟩ : ∃ j, k = j + 1 := ⟨k - 1, by omega⟩
        rename_i e es _
        have hround := ih k (e :: done) (by omega)
        simpa [iterate, run_bind, run_map, hopen, hentry, hgoes, run_expectMark hcomma hsound] using hround
  have hrun := hloop (scope.bound + 1) [] (by omega)
  simpa [separated, repeatFrom, run_bind] using hrun

/-- Entries up to a stop. -/
inductive Repeated (scope : Scope) (stop : Parse Bool) (entry : Parse Tree) :
    Cursor → List Tree → Cursor → Prop
  | nil {c : Cursor} (hstop : stop scope c = some (true, c)) : Repeated scope stop entry c [] c
  | cons {c c₁ c' : Cursor} {e : Tree} {es : List Tree} (hgoes : stop scope c = some (false, c))
      (hentry : entry scope c = some (e, c₁)) (hrest : Repeated scope stop entry c₁ es c') :
      Repeated scope stop entry c (e :: es) c'

theorem Repeated.run {stop : Parse Bool} {entry : Parse Tree} {es : List Tree}
    (h : Repeated scope stop entry c es c') (hbound : es.length ≤ scope.bound) :
    many stop entry scope c = some (es, c') := by
  have hloop : ∀ (k : Nat) (done : List Tree), es.length < k →
      iterate (fun done => do
        if ← stop then return .inr done.reverse
        let t ← entry
        return .inl (t :: done)) k done scope c = some (done.reverse ++ es, c') := by
    clear hbound
    induction h with
    | nil hstop =>
        intro k done hk
        obtain ⟨k, rfl⟩ : ∃ j, k = j + 1 := ⟨k - 1, by simp at hk; omega⟩
        simp [iterate, run_bind, hstop]
    | cons hgoes hentry _ ih =>
        intro k done hk
        rw [List.length_cons] at hk
        obtain ⟨k, rfl⟩ : ∃ j, k = j + 1 := ⟨k - 1, by omega⟩
        rename_i e es _
        have hround := ih k (e :: done) (by omega)
        simpa [iterate, run_bind, run_map, hgoes, hentry] using hround
  have hrun := hloop (scope.bound + 1) [] (by omega)
  simpa [many, repeatFrom, run_bind] using hrun

end Grammar
end Script
end StoryDocs
