import Mathlib.Data.Multiset.Basic
import StoryDocs.Proofs.Script.Atoms.Modules

/-!
# Where the literals of a script lie

The literals that a run over atoms closes have their quotes where their ranges say, and two of them lie apart
from each other or one in the other.  So do the literals of a script that is read as a module.
-/

namespace StoryDocs
namespace Script

open Text

variable {text front s rest : List Char} {m m' : Nesting} {a : Atom} {as : List Atom} {l l' : Literal}

namespace Literal

/-- The range of a literal, with its quotes. -/
def span : Literal → Span
  | string span => span
  | template span => span

/-- Whether the text of a literal stands in its range. -/
def Holds (text : List Char) : Literal → Prop
  | string span => ∃ front quote body rest, text = front ++ (quote :: body ++ [quote] ++ rest) ∧
      (quote = '\x22' ∨ quote = '\x27') ∧ span = ⟨front.length, front.length + (body.length + 2)⟩
  | template span => ∃ front body rest, text = front ++ ('\x60' :: body ++ ['\x60'] ++ rest) ∧
      span = ⟨front.length, front.length + (body.length + 2)⟩

/-- Whether a literal lies in the code of a template. -/
def Within (l l' : Literal) : Prop :=
  (∃ span, l' = template span) ∧ l'.span.start < l.span.start ∧ l.span.stop < l'.span.stop

/-- Whether two literals do not overlap, unless one lies in the other. -/
def Beside (l l' : Literal) : Prop :=
  l.span.stop ≤ l'.span.start ∨ l'.span.stop ≤ l.span.start ∨ l.Within l' ∨ l'.Within l

theorem Beside.symm (h : l.Beside l') : l'.Beside l := by
  rcases h with h | h | h | h
  · exact .inr (.inl h)
  · exact .inl h
  · exact .inr (.inr (.inr h))
  · exact .inr (.inr (.inl h))

instance : Std.Symm Beside :=
  ⟨fun _ _ => Beside.symm⟩

theorem Holds.lt (h : l.Holds text) : l.span.start < l.span.stop := by
  cases l with
  | string span =>
      obtain ⟨front, quote, body, rest, _, _, rfl⟩ := h
      show front.length < front.length + (body.length + 2)
      omega
  | template span =>
      obtain ⟨front, body, rest, _, rfl⟩ := h
      show front.length < front.length + (body.length + 2)
      omega

end Literal

/-! ## Runs over atoms -/

/-- What is known of the literals that are closed and of the brackets that are open. -/
structure Nesting.Laid (text : List Char) (m : Nesting) : Prop where
  opened : ∀ p ∈ m.stack, p.2 < m.offset
  falling : m.stack.Pairwise fun p q => q.2 < p.2
  marked : ∀ p ∈ m.stack, p.1 = .template → ∃ front tail, text = front ++ '\x60' :: tail ∧ front.length = p.2
  holds : ∀ l ∈ m.literals, l.Holds text
  closed : ∀ l ∈ m.literals, l.span.stop ≤ m.offset
  outside : ∀ l ∈ m.literals, ∀ p ∈ m.stack, l.span.stop ≤ p.2 ∨ p.2 < l.span.start
  beside : m.literals.Pairwise Literal.Beside

namespace Nesting.Laid

theorem start (text : List Char) : Nesting.start.Laid text where
  opened := by
    intro p hp
    cases hp
  falling := List.Pairwise.nil
  marked := by
    intro p hp
    cases hp
  holds := by
    intro l hl
    exact absurd hl (Multiset.notMem_zero l)
  closed := by
    intro l hl
    exact absurd hl (Multiset.notMem_zero l)
  outside := by
    intro l hl
    exact absurd hl (Multiset.notMem_zero l)
  beside := ⟨[], rfl, List.Pairwise.nil⟩

/-- An atom that is neither a bracket nor a literal. -/
theorem move (h : m.Laid text) {n : Nat} (hn : m.offset ≤ n) : Nesting.Laid text { m with offset := n } where
  opened := fun p hp => lt_of_lt_of_le (h.opened p hp) hn
  falling := h.falling
  marked := h.marked
  holds := h.holds
  closed := fun l hl => le_trans (h.closed l hl) hn
  outside := h.outside
  beside := h.beside

/-- A bracket that is opened lies behind all literals. -/
theorem push (h : m.Laid text) (b : Bracket) {n : Nat} (hn : m.offset < n)
    (hmark : b = .template → ∃ front tail, text = front ++ '\x60' :: tail ∧ front.length = m.offset) :
    Nesting.Laid text ⟨n, (b, m.offset) :: m.stack, m.literals⟩ where
  opened := by
    intro p hp
    rcases List.mem_cons.mp hp with rfl | hp
    · exact hn
    · exact lt_trans (h.opened p hp) hn
  falling := List.pairwise_cons.mpr ⟨fun p hp => h.opened p hp, h.falling⟩
  marked := by
    intro p hp
    rcases List.mem_cons.mp hp with rfl | hp
    · exact hmark
    · exact h.marked p hp
  holds := h.holds
  closed := fun l hl => le_trans (h.closed l hl) hn.le
  outside := by
    intro l hl p hp
    rcases List.mem_cons.mp hp with rfl | hp
    · exact .inl (h.closed l hl)
    · exact h.outside l hl p hp
  beside := h.beside

/-- A bracket that is closed leaves the others open. -/
theorem pop {b : Bracket} {k n : Nat} {stack : List (Bracket × Nat)} (h : m.Laid text)
    (hstack : m.stack = (b, k) :: stack) (hn : m.offset ≤ n) : Nesting.Laid text ⟨n, stack, m.literals⟩ where
  opened := fun p hp => lt_of_lt_of_le (h.opened p (by rw [hstack]; exact List.mem_cons_of_mem _ hp)) hn
  falling := by
    have hfalling := h.falling
    rw [hstack] at hfalling
    exact (List.pairwise_cons.mp hfalling).2
  marked := fun p hp => h.marked p (by rw [hstack]; exact List.mem_cons_of_mem _ hp)
  holds := h.holds
  closed := fun l hl => le_trans (h.closed l hl) hn
  outside := fun l hl p hp => h.outside l hl p (by rw [hstack]; exact List.mem_cons_of_mem _ hp)
  beside := h.beside

/-- A literal that ends where the run stands, if it lies beside all others. -/
theorem hold (h : m.Laid text) {l : Literal} (hl : l.Holds text) (hstop : l.span.stop = m.offset)
    (houtside : ∀ p ∈ m.stack, p.2 < l.span.start) (hbeside : ∀ l' ∈ m.literals, l.Beside l') :
    Nesting.Laid text { m with literals := m.literals + {l} } where
  opened := h.opened
  falling := h.falling
  marked := h.marked
  holds := by
    intro l' hl'
    rcases Multiset.mem_add.mp hl' with hl' | hl'
    · exact h.holds l' hl'
    · rw [Multiset.mem_singleton.mp hl']
      exact hl
  closed := by
    intro l' hl'
    rcases Multiset.mem_add.mp hl' with hl' | hl'
    · exact h.closed l' hl'
    · rw [Multiset.mem_singleton.mp hl']
      exact hstop.le
  outside := by
    intro l' hl' p hp
    rcases Multiset.mem_add.mp hl' with hl' | hl'
    · exact h.outside l' hl' p hp
    · rw [Multiset.mem_singleton.mp hl']
      exact .inr (houtside p hp)
  beside := by
    obtain ⟨ls, hls, hpairwise⟩ := h.beside
    refine ⟨l :: ls, by rw [hls, add_comm, Multiset.singleton_add, Multiset.cons_coe], ?_⟩
    refine List.pairwise_cons.mpr ⟨fun l' hl' => hbeside l' ?_, hpairwise⟩
    rw [hls]
    exact hl'

/-- An open template starts with its mark, in front of where the run stands. -/
theorem exists_body {k : Nat} {stack : List (Bracket × Nat)} (h : m.Laid text) (hstack : m.stack = (.template, k) :: stack)
    (htext : text = front ++ rest) (hoffset : front.length = m.offset) :
    ∃ before body, front = before ++ '\x60' :: body ∧ before.length = k := by
  obtain ⟨before, tail, hbefore, hk⟩ := h.marked (.template, k) (by rw [hstack]; exact List.mem_cons_self) rfl
  have hopened := h.opened (.template, k) (by rw [hstack]; exact List.mem_cons_self)
  dsimp only at hk hopened
  subst hk
  rcases List.append_eq_append_iff.mp (hbefore.symm.trans htext) with ⟨inner, hinner, htail⟩ | ⟨inner, hinner, _⟩
  · cases inner with
    | nil =>
        rw [List.append_nil] at hinner
        rw [hinner] at hoffset
        omega
    | cons c inner =>
        obtain ⟨rfl, _⟩ := List.cons.inj htail
        exact ⟨before, inner, hinner, rfl⟩
  · have hlength := congrArg List.length hinner
    rw [List.length_append] at hlength
    omega

/-- A template that is closed lies around the literals in its code and behind all others. -/
theorem close {k : Nat} {stack : List (Bracket × Nat)} (h : m.Laid text) (hstack : m.stack = (.template, k) :: stack)
    (htext : text = front ++ '\x60' :: rest) (hoffset : front.length = m.offset) :
    Nesting.Laid text ⟨m.offset + 1, stack, m.literals + {.template ⟨k, m.offset + 1⟩}⟩ := by
  obtain ⟨before, body, rfl, rfl⟩ := h.exists_body hstack htext hoffset
  have hspan : m.offset + 1 = before.length + (body.length + 2) := by
    rw [← hoffset]
    simp only [List.length_append, List.length_cons]
    omega
  refine (h.pop hstack (Nat.le_add_right m.offset 1)).hold (l := .template ⟨before.length, _⟩) ?_ rfl ?_ ?_
  · exact ⟨before, body, rest, by rw [htext]; simp, by rw [hspan]⟩
  · have hfalling := h.falling
    rw [hstack] at hfalling
    exact (List.pairwise_cons.mp hfalling).1
  · intro l hl
    have hstop := h.closed l hl
    rcases h.outside l hl (.template, before.length) (by rw [hstack]; exact List.mem_cons_self) with hfront | hinside
    · exact .inr (.inl hfront)
    · refine .inr (.inr (.inr ⟨⟨_, rfl⟩, hinside, ?_⟩))
      show l.span.stop < m.offset + 1
      omega

end Nesting.Laid

theorem length_opening_pos (b : Bracket) : 0 < b.opening.length := by
  cases b with
  | paren => decide
  | square => decide
  | brace => decide
  | template => decide
  | hole => decide

/-- One atom keeps the literals laid. -/
theorem Nesting.Laid.step (htext : text = front ++ (a.text ++ rest)) (hoffset : front.length = m.offset)
    (hfits : a.Fits rest) (h : m.step a = some m') (hm : m.Laid text) : m'.Laid text := by
  obtain ⟨kind, part⟩ := a
  rw [Nesting.step] at h
  dsimp only at h htext
  split at h
  · rename_i b
    split at h
    · obtain rfl := Option.some.inj h
      obtain rfl : part = b.opening := hfits
      refine hm.push b (Nat.lt_add_of_pos_right (length_opening_pos b)) ?_
      rintro rfl
      exact ⟨front, rest, htext, hoffset⟩
    · cases h
  · rename_i b
    obtain rfl : part = b.closing := hfits
    split at h
    · rename_i b' k stack hstack
      split at h
      · rename_i hb
        subst hb
        obtain rfl := Option.some.inj h
        by_cases hb : b' = .template
        · subst hb
          exact hm.close hstack htext hoffset
        · rw [Nesting.closed, if_neg hb, add_zero]
          exact hm.pop hstack (Nat.le_add_right m.offset b'.closing.length)
      · cases h
    · cases h
  · split at h
    · obtain rfl := Option.some.inj h
      exact hm.move (Nat.le_add_right _ _)
    · cases h
  · split at h
    · cases h
    · obtain rfl := Option.some.inj h
      obtain ⟨quote, body, hquote, _, rfl⟩ := hfits
      refine (hm.move (Nat.le_add_right _ _)).hold (l := .string ⟨m.offset, _⟩) ?_ rfl ?_ ?_
      · refine ⟨front, quote, body, rest, htext, hquote, ?_⟩
        rw [hoffset, List.length_cons, List.length_append, List.length_singleton]
      · exact hm.opened
      · intro l' hl'
        exact .inr (.inl (hm.closed l' hl'))
  · split at h
    · cases h
    · obtain rfl := Option.some.inj h
      exact hm.move (Nat.le_add_right _ _)

theorem Nesting.Laid.run (hcuts : Cuts s as rest) (htext : text = front ++ s) (hoffset : front.length = m.offset)
    (h : m.run as = some m') (hm : m.Laid text) : m'.Laid text := by
  induction hcuts generalizing front m with
  | nil =>
      obtain rfl := Option.some.inj h
      exact hm
  | @cons a as s rest ha _ ih =>
      obtain ⟨m₁, hstep, hrun⟩ := Option.bind_eq_some_iff.mp h
      refine ih (by rw [htext, List.append_assoc]) ?_ hrun
        (hm.step htext hoffset ha hstep)
      rw [List.length_append, hoffset, Nesting.offset_step hstep]

/-! ## Literals of a module -/

/-- The literals of a module stand where their ranges say, and they do not overlap unless one lies in another. -/
theorem Module.literals_laid {features : Features} {items : List Tree} (h : Module.parse? features text = some items) :
    (∀ l ∈ Tree.literalsOf items, l.Holds text) ∧ (Tree.literalsOf items).Pairwise Literal.Beside := by
  obtain ⟨as, literals, hcuts, hrun, hle⟩ := Module.exists_cuts h
  have hlaid := (Nesting.Laid.start text).run hcuts (List.nil_append text).symm rfl hrun
  refine ⟨fun l hl => hlaid.holds l (Multiset.mem_of_le hle hl), ?_⟩
  obtain ⟨ls, hls, hpairwise⟩ := hlaid.beside
  have hls : literals = ↑ls := hls
  rw [hls, ← Multiset.coe_toList (Tree.literalsOf items), Multiset.coe_le] at hle
  obtain ⟨ms, hperm, hsublist⟩ := hle
  refine ⟨ms, ?_, hpairwise.sublist hsublist⟩
  rw [← Multiset.coe_toList (Tree.literalsOf items)]
  exact (Multiset.coe_eq_coe.mpr hperm).symm

end Script
end StoryDocs
