import StoryDocs.Proofs.Script.Atoms.Extents
import StoryDocs.Proofs.Text.Slice
import StoryDocs.Proofs.Text.Splice
import StoryDocs.Script.Specifier

/-!
# Specifiers in their places

The items of a script are read one behind the other, so the quoted sources of its imports and re-exports
stand in the text in order.  `Specifier.move` writes another path between the quotes of some of them and keeps
all other characters.
-/

namespace StoryDocs
namespace Script

open Text Grammar

variable {features : Features} {dialect : Dialect} {context : String} {scope : Scope} {c c' : Cursor}
  {text old new out value target s rest part : List Char} {n : Nat} {stack : List (Bracket × Nat)}
  {held : Multiset Literal} {items ts : List Tree} {l : Literal} {t source : Tree} {sources : List Tree}

/-! ## Rules behind other text -/

/-- Blanks in front of a place are atoms. -/
theorem Reached.blanks {m : Nat} (k : Nat) (h : Reached text stack held (List.replicate k ' ' ++ s) m)
    (hcode : ¬Nesting.InTemplate stack) : Reached text stack held s (m + k) := by
  induction k generalizing m with
  | zero => exact h
  | succ k ih =>
      have hblank : Atom.Fits ⟨.blank, [' ']⟩ (List.replicate k ' ' ++ s) := ⟨' ', rfl, by decide⟩
      have hfront : Reached text stack held ([' '] ++ (List.replicate k ' ' ++ s)) m := h
      have hmoved := hfront.leaf hcode hblank (by simp)
      have hsum : m + (k + 1) = m + [' '].length + k := by
        rw [List.length_singleton]
        omega
      rw [hsum]
      exact ih hmoved

/-- A text can be put behind any number of characters that hold no quote. -/
theorem exists_reached_behind (n : Nat) (s : List Char) : ∃ front, front.length = n ∧
    (∀ c ∈ front, c = ' ') ∧ Reached (front ++ s) [] 0 s n := by
  refine ⟨List.replicate n ' ', List.length_replicate, fun c hc => (List.mem_replicate.mp hc).2, ?_⟩
  have hstart := (Reached.start (List.replicate n ' ' ++ s)).blanks n id
  rwa [Nat.zero_add] at hstart

/-- A literal of a text does not start among blanks. -/
theorem Literal.Holds.le_start {front : List Char} (h : l.Holds (front ++ s)) (hfront : ∀ c ∈ front, c = ' ') :
    front.length ≤ l.span.start := by
  have hquoted : ∃ c, (front ++ s)[l.span.start]? = some c ∧ c ≠ ' ' := by
    cases l with
    | string span =>
        obtain ⟨before, quote, body, rest, htext, hquote, rfl⟩ := h
        refine ⟨quote, by simp [htext, Literal.span], ?_⟩
        rcases hquote with rfl | rfl
        · decide
        · decide
    | template span =>
        obtain ⟨before, body, rest, htext, rfl⟩ := h
        exact ⟨'\x60', by simp [htext, Literal.span], by decide⟩
  obtain ⟨c, hc, hne⟩ := hquoted
  by_contra hlt
  rw [List.getElem?_append_left (by omega)] at hc
  exact hne (hfront c (List.mem_of_getElem? hc))

/-- The literals of an item start where the item is read or behind. -/
theorem Reads.le_start {p : Parse Tree} (hp : Reads p Tree.literals) (h : Yields p scope c t c')
    {bound : Nat} (hc : c.token = Token.read bound s n) (hl : l ∈ t.literals) : n ≤ l.span.start := by
  obtain ⟨front, rfl, hfront, hreached⟩ := exists_reached_behind n s
  obtain ⟨_, _, m, _, ⟨as, literals, hcuts, hrun, hheld⟩, _⟩ := hp h (.of_reached hreached id hc)
  have hlaid := (Nesting.Laid.start (front ++ s)).run hcuts (List.nil_append _).symm rfl hrun
  rw [zero_add] at hheld
  exact (hlaid.holds l (Multiset.mem_of_le hheld hl)).le_start hfront

/-- What holds of the items that a loop has read, and of the place behind them, holds of all of them. -/
theorem yields_many {stop : Parse Bool} {entry : Parse Tree} (inv : List Tree → Cursor → Prop)
    (hstop : ∀ ⦃scope c b c'⦄, Yields stop scope c b c' → c' = c)
    (hstep : ∀ done t c c', inv done c → Yields entry scope c t c' → inv (done ++ [t]) c')
    (hstart : inv [] c) (h : Yields (many stop entry) scope c ts c') : inv ts c' := by
  refine yields_repeatFrom (fun done c => inv done.reverse c) inv (fun done c r c' hinv hround => ?_) hstart h
  simp only [yields_bind] at hround
  obtain ⟨stops, c₁, hstops, hround⟩ := hround
  obtain rfl := hstop hstops
  rw [yields_if] at hround
  rcases hround with ⟨_, hround⟩ | ⟨_, hround⟩
  · obtain ⟨rfl, rfl⟩ := yields_pure.mp hround
    exact hinv
  · obtain ⟨t, c₂, ht, hround⟩ := yields_bind.mp hround
    obtain ⟨rfl, rfl⟩ := yields_pure.mp hround
    show inv (t :: done).reverse _
    rw [List.reverse_cons]
    exact hstep _ _ _ _ hinv ht

/-! ## Sources -/

/-- The source of an item is one of its literals. -/
theorem Tree.source_mem_literals {item : Tree} (h : item.source? = some source) :
    Literal.string source.span ∈ item.literals := by
  obtain ⟨k, sp, name, parts⟩ := item
  rw [Tree.source?] at h
  have hplain : k.isLiteral = false ∧ parts.find? (fun p => p.kind == .string) = some source := by
    split at h
    · rename_i hk
      rw [show k = .importDecl from hk]
      exact ⟨rfl, h⟩
    · rename_i hk
      rw [show k = .exportNamed from hk]
      exact ⟨rfl, h⟩
    · rename_i hk
      rw [show k = .exportAll from hk]
      exact ⟨rfl, h⟩
    · cases h
  obtain ⟨hk, hfind⟩ := hplain
  have hkind : source.kind = .string := by simpa using List.find?_some hfind
  obtain ⟨front, back, rfl⟩ := List.append_of_mem (List.mem_of_find?_eq_some hfind)
  rw [Tree.literals_node hk, Tree.literalsOf_append, Tree.literalsOf_cons]
  have hsource : Literal.string source.span ∈ source.literals := by
    obtain ⟨k', sp', name', parts'⟩ := source
    obtain rfl : k' = .string := hkind
    rw [Tree.literals]
    simp [Tree.strings, Tree.span]
  exact Multiset.mem_add.mpr (.inr (Multiset.mem_add.mpr (.inl hsource)))

/-- Sources that stand in a text between quotes, in order. -/
structure Sources (text : List Char) (sources : List Tree) : Prop where
  holds : ∀ source ∈ sources, (Literal.string source.span).Holds text
  inOrder : sources.Pairwise fun a b => a.span.stop ≤ b.span.start

/-- The place that the items of a script are read up to, with all of their sources in front. -/
def ReadUpTo (text : List Char) (done : List Tree) (c : Cursor) : Prop :=
  ∃ s n bound, Reached text [] (Tree.literalsOf done) s n ∧ c.token = Token.read bound s n ∧
    Sources text (done.filterMap Tree.source?) ∧ ∀ source ∈ done.filterMap Tree.source?, source.span.stop ≤ n

theorem Reached.laid (h : Reached text stack held s n) : ∀ l ∈ held, l.Holds text ∧ l.span.stop ≤ n := by
  obtain ⟨as, literals, hcuts, hrun, hheld⟩ := h
  have hlaid := (Nesting.Laid.start text).run hcuts (List.nil_append text).symm rfl hrun
  exact fun l hl => ⟨hlaid.holds l (Multiset.mem_of_le hheld hl), hlaid.closed l (Multiset.mem_of_le hheld hl)⟩

theorem Tree.literalsOf_mem {ts : List Tree} (ht : t ∈ ts) (hl : l ∈ t.literals) : l ∈ Tree.literalsOf ts := by
  obtain ⟨front, back, rfl⟩ := List.append_of_mem ht
  rw [Tree.literalsOf_append, Tree.literalsOf_cons]
  exact Multiset.mem_add.mpr (.inr (Multiset.mem_add.mpr (.inl hl)))

/-- One more item moves on, and its source lies behind those in front of it. -/
theorem ReadUpTo.step {entry : Parse Tree} (hentry : Reads entry Tree.literals) {done : List Tree}
    (hinv : ReadUpTo text done c) (h : Yields entry scope c t c') : ReadUpTo text (done ++ [t]) c' := by
  obtain ⟨s, n, bound, hreached, htoken, hsources, hfront⟩ := hinv
  obtain ⟨_, s', n', bound', hreached', htoken'⟩ := hentry h (.of_reached hreached id htoken)
  have hliterals : Tree.literalsOf (done ++ [t]) = Tree.literalsOf done + t.literals := by
    rw [Tree.literalsOf_append, Tree.literalsOf_cons, Tree.literalsOf_nil, add_zero]
  rw [← hliterals] at hreached'
  have hlaid : ∀ source ∈ (done ++ [t]).filterMap Tree.source?,
      (Literal.string source.span).Holds text ∧ source.span.stop ≤ n' := by
    intro source hsource
    obtain ⟨item, hitem, hsome⟩ := List.mem_filterMap.mp hsource
    exact hreached'.laid _ (Tree.literalsOf_mem hitem (Tree.source_mem_literals hsome))
  refine ⟨s', n', bound', hreached', htoken', ⟨fun source hs => (hlaid source hs).1, ?_⟩,
    fun source hs => (hlaid source hs).2⟩
  rw [List.filterMap_append]
  refine List.pairwise_append.mpr ⟨hsources.inOrder, ?_, fun a ha b hb => ?_⟩
  · cases hsome : t.source? with
    | none => simp [hsome]
    | some source => simp [hsome]
  · obtain ⟨item, hitem, hsome⟩ := List.mem_filterMap.mp hb
    obtain rfl := List.mem_singleton.mp hitem
    exact le_trans (hfront a ha) (hentry.le_start h htoken (Tree.source_mem_literals hsome))

/-- The sources of a script are quoted and stand in order. -/
theorem Module.sources_inOrder (h : Module.parse? features text = some items) :
    Sources text (items.filterMap Tree.source?) := by
  rw [Module.parse?] at h
  generalize hskip : skipInterpreter text = split at h
  obtain ⟨body, offset⟩ := split
  dsimp only at h
  split at h
  · rename_i trees last hitems
    split at h
    · cases h
    obtain rfl := Option.some.inj h
    have hfront := Reached.skipInterpreter text
    rw [hskip] at hfront
    have hread := (sound_rules (depthBound text)).rule .item rfl
    obtain ⟨_, _, _, _, _, hsources, _⟩ := yields_many (ReadUpTo text)
      (fun _ _ _ _ h => (yields_atEnd.mp h).2) (fun done t c c' hinv ht => hinv.step hread ht)
      ⟨body, offset, _, hfront, rfl, ⟨fun _ hs => absurd hs List.not_mem_nil, List.Pairwise.nil⟩,
        fun _ hs => absurd hs List.not_mem_nil⟩ hitems
    exact hsources
  · cases h

/-! ## Values that point into a package -/

/-- What the value of a specifier that points into the package `old` becomes when the package is `new`: the
package itself and its entry `blocks` become `new`, and any other path stays a path. -/
inductive PointsTo (old new : List Char) : List Char → List Char → Prop
  | package : PointsTo old new old new
  | blocks : PointsTo old new (old ++ "/blocks".toList) new
  | path {p : List Char} (hp : p ≠ "blocks".toList) : PointsTo old new (old ++ '/' :: p) (new ++ '/' :: p)

theorem moved?_eq_some_iff : Specifier.moved? old new value = some target ↔ PointsTo old new value target := by
  have hblocks : "/blocks".toList = '/' :: "blocks".toList := by decide
  have hlead : ∀ s : List Char, dropLead? old (old ++ s) = some s := fun s => dropLead?_eq_some_iff.mpr rfl
  constructor
  · intro h
    rw [Specifier.moved?] at h
    split at h
    · rename_i hvalue
      obtain rfl := Option.some.inj h
      simp only [Bool.or_eq_true, beq_iff_eq] at hvalue
      rcases hvalue with rfl | rfl
      · exact .package
      · exact .blocks
    · rename_i hvalue
      simp only [Bool.or_eq_true, beq_iff_eq, not_or] at hvalue
      split at h
      · rename_i path hpath
        obtain rfl := Option.some.inj h
        obtain rfl := dropLead?_eq_some_iff.mp hpath
        refine .path fun hp => hvalue.2 ?_
        rw [hp, hblocks]
      · cases h
  · intro h
    cases h with
    | package => simp [Specifier.moved?]
    | blocks => simp [Specifier.moved?]
    | path hp =>
        rename_i path
        have hvalue : ¬((old ++ '/' :: path == old || old ++ '/' :: path == old ++ "/blocks".toList) = true) := by
          rw [hblocks]
          simpa using hp
        rw [Specifier.moved?, if_neg hvalue, hlead]
        rfl

/-- A value points into a package exactly when it is the package or a path below it. -/
theorem exists_pointsTo_iff (old new value : List Char) :
    (∃ target, PointsTo old new value target) ↔ value = old ∨ ∃ path, value = old ++ '/' :: path := by
  constructor
  · rintro ⟨target, h⟩
    cases h with
    | package => exact .inl rfl
    | blocks => exact .inr ⟨"blocks".toList, by simp⟩
    | path hp => exact .inr ⟨_, rfl⟩
  · rintro (rfl | ⟨path, rfl⟩)
    · exact ⟨new, .package⟩
    · by_cases hp : path = "blocks".toList
      · subst hp
        exact ⟨new, .blocks⟩
      · exact ⟨_, .path hp⟩

/-! ## Edits -/

/-- A text behind `n` characters in which the sources that point into `old` are pointed to `new`.  Each is
replaced between its own quotes, and what stands between the sources is kept. -/
inductive Edited (old new : List Char) : Nat → List Tree → List Char → List Char → Prop
  | rest {n : Nat} {s : List Char} : Edited old new n [] s s
  | kept {n : Nat} {source : Tree} {sources : List Tree} {lead body s out : List Char} {quote : Char}
      (hquote : quote = '\x22' ∨ quote = '\x27')
      (hspan : source.span = ⟨n + lead.length, n + lead.length + (quote :: body ++ [quote]).length⟩)
      (hvalue : ∀ target, ¬PointsTo old new source.name.toList target)
      (hrest : Edited old new source.span.stop sources s out) :
      Edited old new n (source :: sources) (lead ++ (quote :: body ++ [quote]) ++ s)
        (lead ++ (quote :: body ++ [quote]) ++ out)
  | moved {n : Nat} {source : Tree} {sources : List Tree} {lead body target s out : List Char} {quote : Char}
      (hquote : quote = '\x22' ∨ quote = '\x27')
      (hspan : source.span = ⟨n + lead.length, n + lead.length + (quote :: body ++ [quote]).length⟩)
      (hvalue : PointsTo old new source.name.toList target)
      (hrest : Edited old new source.span.stop sources s out) :
      Edited old new n (source :: sources) (lead ++ (quote :: body ++ [quote]) ++ s)
        (lead ++ (quote :: target ++ [quote]) ++ out)

/-- Without a source that points into the package, nothing is edited. -/
theorem Edited.eq_of_none (h : Edited old new n sources s out)
    (hnone : ∀ source ∈ sources, ∀ target, ¬PointsTo old new source.name.toList target) : out = s := by
  induction h with
  | rest => rfl
  | kept _ _ _ _ ih => rw [ih fun source hs => hnone source (List.mem_cons_of_mem _ hs)]
  | moved _ _ hvalue _ _ => exact absurd hvalue (hnone _ List.mem_cons_self _)

/-- A quoted source behind `n` characters of a text, cut out of what is behind them. -/
theorem Literal.Holds.exists_cut {front : List Char} {span : Span} (h : (Literal.string span).Holds (front ++ s))
    (hstart : front.length ≤ span.start) : ∃ lead quote body rest, s = lead ++ (quote :: body ++ [quote]) ++ rest ∧
      (quote = '\x22' ∨ quote = '\x27') ∧
      span = ⟨front.length + lead.length, front.length + lead.length + (quote :: body ++ [quote]).length⟩ := by
  obtain ⟨before, quote, body, rest, htext, hquote, rfl⟩ := h
  dsimp only at hstart
  obtain ⟨lead, rfl⟩ : ∃ lead, before = front ++ lead := by
    rcases List.append_eq_append_iff.mp htext with ⟨inner, hinner, _⟩ | ⟨inner, hinner, _⟩
    · exact ⟨inner, hinner⟩
    · have hlength := congrArg List.length hinner
      rw [List.length_append] at hlength
      obtain rfl := List.eq_nil_of_length_eq_zero (by omega : inner.length = 0)
      exact ⟨[], by rw [hinner, List.append_nil, List.append_nil]⟩
  refine ⟨lead, quote, body, rest, ?_, hquote, ?_⟩
  · rw [List.append_assoc] at htext
    rw [List.append_cancel_left htext]
    simp only [List.append_assoc]
  · simp [List.length_append]

/-- Splicing in the replacements of sources edits them one after the other. -/
theorem edited_spliceFrom {front : List Char} (hsources : Sources (front ++ s) sources)
    (hbehind : ∀ source ∈ sources, front.length ≤ source.span.start) :
    Edited old new front.length sources s
      (spliceFrom front.length (sources.filterMap (Specifier.replacement? (front ++ s) old new)) s) := by
  induction sources generalizing front s with
  | nil => exact .rest
  | cons source sources ih =>
      obtain ⟨lead, quote, body, rest, rfl, hquote, hspan⟩ :=
        (hsources.holds source List.mem_cons_self).exists_cut (hbehind source List.mem_cons_self)
      obtain ⟨hfirst, hothers⟩ := List.pairwise_cons.mp hsources.inOrder
      have htext : front ++ (lead ++ (quote :: body ++ [quote]) ++ rest) =
          front ++ lead ++ (quote :: body ++ [quote]) ++ rest := by
        simp only [List.append_assoc]
      have hlength : (front ++ lead ++ (quote :: body ++ [quote])).length = source.span.stop := by
        rw [hspan, List.length_append, List.length_append]
      have hrest := @ih rest (front ++ lead ++ (quote :: body ++ [quote]))
        ⟨fun a ha => htext ▸ hsources.holds a (List.mem_cons_of_mem _ ha), hothers⟩
        (fun a ha => hlength ▸ hfirst a ha)
      rw [hlength, ← htext] at hrest
      -- What is spliced in for later sources stands behind this one.
      have hlater : ∀ r ∈ sources.filterMap
          (Specifier.replacement? (front ++ (lead ++ (quote :: body ++ [quote]) ++ rest)) old new),
          front.length + (lead ++ (quote :: body ++ [quote])).length ≤ r.start ∧ r.start ≤ r.stop := by
        intro r hr
        obtain ⟨a, ha, hsome⟩ := List.mem_filterMap.mp hr
        obtain ⟨target, _, rfl⟩ := Option.map_eq_some_iff.mp hsome
        have hlt := (hsources.holds a (List.mem_cons_of_mem _ ha)).lt
        have hle := hfirst a ha
        rw [← hlength, List.append_assoc, List.length_append] at hle
        exact ⟨hle, hlt.le⟩
      cases hmoved : Specifier.moved? old new source.name.toList with
      | none =>
          have hnone : ∀ target, ¬PointsTo old new source.name.toList target := by
            intro target htarget
            rw [moved?_eq_some_iff.mpr htarget] at hmoved
            cases hmoved
          have hsplice := @spliceFrom_later (lead ++ (quote :: body ++ [quote])) rest _ _ hlater
          rw [← List.length_append, ← List.append_assoc front lead, hlength] at hsplice
          rw [List.filterMap_cons, Specifier.replacement?, hmoved, Option.map_none]
          dsimp only
          rw [hsplice]
          exact .kept hquote hspan hnone hrest
      | some target =>
          have hopening : ((front ++ (lead ++ (quote :: body ++ [quote]) ++ rest)).drop source.span.start).headD
              '\x27' = quote := by
            rw [htext, hspan, ← List.length_append, List.append_assoc, List.drop_left]
            rfl
          have hsplice := spliceFrom_cons front.length lead (quote :: body ++ [quote])
            (quote :: target ++ [quote]) rest
            (sources.filterMap
              (Specifier.replacement? (front ++ (lead ++ (quote :: body ++ [quote]) ++ rest)) old new))
          have hreplaced : Specifier.replacement? (front ++ (lead ++ (quote :: body ++ [quote]) ++ rest)) old new
              source = some ⟨front.length + lead.length,
                front.length + lead.length + (quote :: body ++ [quote]).length, quote :: target ++ [quote]⟩ := by
            rw [Specifier.replacement?, hmoved, Option.map_some, hopening, hspan]
          rw [List.filterMap_cons, hreplaced]
          dsimp only
          rw [hsplice]
          rw [hspan] at hrest
          exact .moved hquote hspan (moved?_eq_some_iff.mp hmoved) (by rw [hspan]; exact hrest)

end Script
end StoryDocs
