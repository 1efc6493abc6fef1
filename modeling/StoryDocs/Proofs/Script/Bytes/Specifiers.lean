import Mathlib.Data.List.Sort
import StoryDocs.Proofs.Script.Bytes.Positions
import StoryDocs.Proofs.Script.Specifiers

/-!
# Specifiers in a buffer

A parser reports the specifiers of a script in bytes.  Those that point into the package are replaced in a buffer
one after the other, and each replacement changes its length.  The last one comes first, so the ranges that are
still to come lie in front of what was changed.  That holds for any reported ranges that lie in the text one beside
the other, in whatever order they come.
-/

namespace StoryDocs
namespace Script
namespace Bytes

open Text Text.Buffer Markup.Bytes

/-! ## The editor -/

/-- A quoted specifier: what it denotes, and where it stands. -/
structure Quotation where
  value : List Char
  span : Span
  deriving DecidableEq, Repr

/-- A specifier of a text as it is reported, with its positions counted from `origin`. -/
def Quotation.reported (origin : Nat) (q : Quotation) : Quotation :=
  ⟨q.value, positions origin q.span⟩

/-- The edit of a reported specifier that points into `old`: where it points to now, between the quotes it has. -/
def edit? (origin : Nat) (text old new : List Char) (q : Quotation) : Checked (Option Replacement) :=
  match Specifier.moved? old new q.value with
  | none => return none
  | some target => do
    let range ← byteRange origin q.span
    let literal ← slice text range.start range.stop
    let quote := literal.headD '\x27'
    return some ⟨range.start, range.stop, quote :: target ++ [quote]⟩

/-- The edits of reported specifiers. -/
def edits (origin : Nat) (text old new : List Char) (qs : List Quotation) : Checked (List Replacement) := do
  let found ← qs.mapM (edit? origin text old new)
  return found.filterMap id

/-- Edits sorted by where they start, the last one first. -/
def lastFirst (rs : List Replacement) : List Replacement :=
  rs.mergeSort fun r s => s.start ≤ r.start

/-- Write edits into a buffer one after the other. -/
def write (rs : List Replacement) (buffer : List Char) : Checked (List Char) :=
  rs.foldlM (fun out r => replaceRange out r.start r.stop r.text) buffer

/-- Point the specifiers of `old` to `new` where a parser reports them.  A script that does not mention `old` is not
parsed at all. -/
def move (parser : Parser (List Quotation)) (text old new : List Char) (dialect : Dialect) (context : String) :
    Checked (Except Error (List Char)) :=
  if !Text.contains old text then return .ok text
  else
    match parser.parse? dialect.features text with
    | none => return .error ⟨context, .rejected⟩
    | some qs => do
      let rs ← edits parser.origin text old new qs
      let out ← write (lastFirst rs) text
      return .ok out

variable {text old new s out front : List Char} {q : Quotation} {qs : List Quotation} {n origin : Nat}
  {parser : Parser (List Quotation)} {dialect : Dialect} {context : String}

/-! ## Ranges in a text -/

/-- Ranges that lie in a text one beside the other, between its characters.  A literal has its quotes, so its range
is not empty. -/
structure InPlace (text : List Char) (qs : List Quotation) : Prop where
  bounds : ∀ q ∈ qs, CharStart text q.span.start ∧ CharStart text q.span.stop
  nonempty : ∀ q ∈ qs, q.span.start < q.span.stop
  disjoint : qs.Pairwise fun p q => p.span.stop ≤ q.span.start ∨ q.span.stop ≤ p.span.start

theorem InPlace.perm {ps : List Quotation} (h : InPlace text qs) (hperm : ps.Perm qs) : InPlace text ps where
  bounds q hq := h.bounds q (hperm.mem_iff.mp hq)
  nonempty q hq := h.nonempty q (hperm.mem_iff.mp hq)
  disjoint := (hperm.pairwise_iff fun hpq => hpq.symm).mpr h.disjoint

/-- Ranges in the order they stand in. -/
def inOrder (qs : List Quotation) : List Quotation :=
  qs.mergeSort fun p q => p.span.start ≤ q.span.start

theorem inOrder_perm (qs : List Quotation) : (inOrder qs).Perm qs :=
  List.mergeSort_perm _ _

theorem InPlace.apart (h : InPlace text qs) : (inOrder qs).Pairwise fun p q => p.span.stop ≤ q.span.start := by
  have hsorted : (inOrder qs).Pairwise fun p q => decide (p.span.start ≤ q.span.start) = true :=
    List.pairwise_mergeSort (fun a b c => by simpa using Nat.le_trans) (fun a b => by simpa using Nat.le_total _ _) qs
  have hplace := h.perm (inOrder_perm qs)
  refine (hsorted.and hplace.disjoint).imp_of_mem fun {p q} _ hq hpq => ?_
  have hle : p.span.start ≤ q.span.start := by simpa using hpq.1
  have hlt := hplace.nonempty q hq
  rcases hpq.2 with hstop | hstop
  · exact hstop
  · omega

/-! ## Edited texts -/

/-- A text behind `n` bytes in which the specifiers that point into `old` are pointed to `new`.  Each is replaced
by where it points to now between the quote it starts with, every other specifier is kept, and so is what stands
between them. -/
inductive Edited (old new : List Char) : Nat → List Quotation → List Char → List Char → Prop
  | rest {n : Nat} {s : List Char} : Edited old new n [] s s
  | kept {n : Nat} {q : Quotation} {qs : List Quotation} {lead literal s out : List Char}
      (hstart : q.span.start = n + byteSize lead) (hstop : q.span.stop = q.span.start + byteSize literal)
      (hvalue : ∀ target, ¬PointsTo old new q.value target) (hrest : Edited old new q.span.stop qs s out) :
      Edited old new n (q :: qs) (lead ++ literal ++ s) (lead ++ literal ++ out)
  | moved {n : Nat} {q : Quotation} {qs : List Quotation} {lead body target s out : List Char} {quote : Char}
      (hstart : q.span.start = n + byteSize lead) (hstop : q.span.stop = q.span.start + byteSize (quote :: body))
      (hvalue : PointsTo old new q.value target) (hrest : Edited old new q.span.stop qs s out) :
      Edited old new n (q :: qs) (lead ++ (quote :: body) ++ s) (lead ++ (quote :: target ++ [quote]) ++ out)

/-- Without a specifier that points into the package, nothing is edited. -/
theorem Edited.eq_of_none (h : Edited old new n qs s out)
    (hnone : ∀ q ∈ qs, ∀ target, ¬PointsTo old new q.value target) : out = s := by
  induction h with
  | rest => rfl
  | kept _ _ _ _ ih => rw [ih fun q hq => hnone q (List.mem_cons_of_mem _ hq)]
  | moved _ _ hvalue _ _ => exact absurd hvalue (hnone _ List.mem_cons_self _)

/-- Ranges in order can be edited. -/
theorem exists_edited (old new : List Char) (hplace : InPlace (front ++ s) qs)
    (hapart : qs.Pairwise fun p q => p.span.stop ≤ q.span.start) (hbehind : ∀ q ∈ qs, byteSize front ≤ q.span.start) :
    ∃ out, Edited old new (byteSize front) qs s out := by
  induction qs generalizing front s with
  | nil => exact ⟨s, .rest⟩
  | cons q qs ih =>
      obtain ⟨hfirst, hothers⟩ := List.pairwise_cons.mp hapart
      obtain ⟨hstart, hstop⟩ := hplace.bounds q List.mem_cons_self
      have hlt := hplace.nonempty q List.mem_cons_self
      -- The range of the specifier is cut out of the text behind the front.
      obtain ⟨lead, behind, rfl, hlead⟩ := hstart.exists_cut (hbehind q List.mem_cons_self)
      rw [← List.append_assoc] at hstop
      obtain ⟨literal, rest, rfl, hliteral⟩ := hstop.exists_cut (by rw [byteSize_append]; omega)
      rw [byteSize_append, ← hlead] at hliteral
      have hsize : byteSize (front ++ lead ++ literal) = q.span.stop := by
        rw [byteSize_append, byteSize_append, ← hlead, hliteral]
      have htext : front ++ (lead ++ (literal ++ rest)) = front ++ lead ++ literal ++ rest := by
        simp only [List.append_assoc]
      rw [htext] at hplace
      obtain ⟨out, hout⟩ := @ih rest (front ++ lead ++ literal)
        ⟨fun p hp => hplace.bounds p (List.mem_cons_of_mem _ hp),
          fun p hp => hplace.nonempty p (List.mem_cons_of_mem _ hp), hplace.disjoint.tail⟩ hothers
        (fun p hp => hsize ▸ hfirst p hp)
      rw [hsize] at hout
      rw [← List.append_assoc]
      cases hmoved : Specifier.moved? old new q.value with
      | none =>
          refine ⟨lead ++ literal ++ out, .kept hlead hliteral (fun target htarget => ?_) hout⟩
          rw [moved?_eq_some_iff.mpr htarget] at hmoved
          cases hmoved
      | some target =>
          obtain ⟨quote, body, rfl⟩ : ∃ quote body, literal = quote :: body := by
            refine List.exists_cons_of_ne_nil ?_
            rintro rfl
            rw [byteSize] at hliteral
            omega
          exact ⟨_, .moved hlead hliteral (moved?_eq_some_iff.mp hmoved) hout⟩

/-! ## Edits of a buffer -/

/-- The edit of a specifier, where its range can be sliced. -/
def editOf (text old new : List Char) (q : Quotation) : Option Replacement :=
  match Specifier.moved? old new q.value, slice text q.span.start q.span.stop with
  | some target, .ok literal =>
    let quote := literal.headD '\x27'
    some ⟨q.span.start, q.span.stop, quote :: target ++ [quote]⟩
  | _, _ => none

theorem slice_of_charStart {i j : Nat} (hi : CharStart text i) (hj : CharStart text j) (hle : i ≤ j) :
    ∃ v, slice text i j = .ok v := by
  obtain ⟨u, back, rfl, rfl⟩ := hi
  obtain ⟨v, w, rfl, rfl⟩ := hj.exists_cut hle
  exact ⟨v, by rw [← List.append_assoc, slice_append]⟩

/-- Specifiers in a text can be edited one by one. -/
theorem InPlace.edits_eq (h : InPlace text qs) (origin : Nat) (old new : List Char) :
    edits origin text old new (qs.map (Quotation.reported origin)) = .ok (qs.filterMap (editOf text old new)) := by
  have hedit : ∀ q ∈ qs, edit? origin text old new (q.reported origin) = .ok (editOf text old new q) := by
    intro q hq
    obtain ⟨hstart, hstop⟩ := h.bounds q hq
    obtain ⟨literal, hslice⟩ := slice_of_charStart hstart hstop (Nat.le_of_lt (h.nonempty q hq))
    rw [editOf, edit?, Quotation.reported]
    dsimp only
    cases Specifier.moved? old new q.value with
    | none => rfl
    | some target =>
        dsimp only
        rw [byteRange_positions, ok_bind, hslice]
        rfl
  have hmap : (qs.map (Quotation.reported origin)).mapM (edit? origin text old new) =
      .ok (qs.map (editOf text old new)) := by
    clear h
    induction qs with
    | nil => rfl
    | cons q qs ih =>
        obtain ⟨hq, hqs⟩ := List.forall_mem_cons.mp hedit
        rw [List.map_cons, List.mapM_cons, hq, ok_bind, ih hqs]
        rfl
  rw [edits, hmap, ok_bind, List.filterMap_map]
  rfl

theorem start_editOf {r : Replacement} (h : editOf text old new q = some r) : r.start = q.span.start := by
  rw [editOf] at h
  split at h
  · rw [← Option.some.inj h]
  · cases h

/-- The edits of specifiers in any order are made from the last one in the text to the first one. -/
theorem InPlace.lastFirst_eq (h : InPlace text qs) (old new : List Char) :
    lastFirst (qs.filterMap (editOf text old new)) =
      ((inOrder qs).filterMap (editOf text old new)).reverse := by
  have hplace := h.perm (inOrder_perm qs)
  have hedits : ((inOrder qs).filterMap (editOf text old new)).Pairwise fun r s => r.start < s.start := by
    refine List.pairwise_filterMap.mpr (h.apart.imp_of_mem fun {p q} hp _ hpq r hr s hs => ?_)
    have hlt := hplace.nonempty p hp
    rw [start_editOf hr, start_editOf hs]
    omega
  have hsorted : (lastFirst (qs.filterMap (editOf text old new))).Pairwise fun r s =>
      decide (s.start ≤ r.start) = true :=
    List.pairwise_mergeSort (fun a b c => by simpa using fun hab hbc => Nat.le_trans hbc hab)
      (fun a b => by simpa using Nat.le_total _ _) _
  have hperm : (lastFirst (qs.filterMap (editOf text old new))).Perm
      ((inOrder qs).filterMap (editOf text old new)).reverse :=
    ((List.mergeSort_perm _ _).trans ((inOrder_perm qs).symm.filterMap _)).trans (List.reverse_perm _).symm
  -- No two edits start at the same place, so there is only one such order.
  refine hperm.eq_of_pairwise (fun r s hr hs hrs hsr => ?_) hsorted
    (List.pairwise_reverse.mpr (hedits.imp fun hlt => decide_eq_true (Nat.le_of_lt hlt)))
  have hr' := List.mem_reverse.mp (hperm.mem_iff.mp hr)
  have hs' := List.mem_reverse.mp hs
  have happart : ((inOrder qs).filterMap (editOf text old new)).Pairwise fun r s => r.start ≠ s.start :=
    hedits.imp fun hlt => Nat.ne_of_lt hlt
  have : Std.Symm fun r s : Replacement => r.start ≠ s.start := ⟨fun _ _ => Ne.symm⟩
  by_contra hne
  have hstarts := happart.forall hr' hs' hne
  simp only [decide_eq_true_eq] at hrs hsr
  omega

/-- Written from the last one to the first one, edits give the edited text: each finds the text in front of it and
its own range as they were reported. -/
theorem Edited.write_eq (h : Edited old new n qs s out) (hfront : byteSize front = n) :
    write (qs.filterMap (editOf (front ++ s) old new)).reverse (front ++ s) = .ok (front ++ out) := by
  rw [write, List.foldlM_reverse]
  induction h generalizing front with
  | rest => rfl
  | @kept n q qs lead literal s out hstart hstop hvalue _ ih =>
      have hnone : editOf (front ++ (lead ++ literal ++ s)) old new q = none := by
        have hmoved : Specifier.moved? old new q.value = none := by
          cases hmoved : Specifier.moved? old new q.value with
          | none => rfl
          | some target => exact absurd (moved?_eq_some_iff.mp hmoved) (hvalue target)
        rw [editOf, hmoved]
      have hsize : byteSize (front ++ (lead ++ literal)) = q.span.stop := by
        rw [byteSize_append, byteSize_append, hfront, hstop, hstart, Nat.add_assoc]
      have hbehind := ih hsize
      rw [List.append_assoc front, List.append_assoc front] at hbehind
      rw [List.filterMap_cons, hnone]
      exact hbehind
  | @moved n q qs lead body target s out quote hstart hstop hvalue _ ih =>
      have hslice := slice_append (front ++ lead) (quote :: body) s
      have hreplaced := replaceRange_append (front ++ lead) (quote :: body) out (quote :: target ++ [quote])
      have hplace : byteSize (front ++ lead) = q.span.start := by
        rw [byteSize_append, hfront, hstart]
      have hsize : byteSize (front ++ (lead ++ (quote :: body))) = q.span.stop := by
        rw [← List.append_assoc, byteSize_append, hplace, hstop]
      rw [hplace, ← hstop] at hslice hreplaced
      have hbehind := ih hsize
      have htext : ∀ t, front ++ (lead ++ (quote :: body)) ++ t = front ++ lead ++ (quote :: body) ++ t := by
        simp
      rw [htext, htext] at hbehind
      rw [← List.append_assoc front, ← List.append_assoc front]
      have hedit : editOf (front ++ lead ++ (quote :: body) ++ s) old new q =
          some ⟨q.span.start, q.span.stop, quote :: target ++ [quote]⟩ := by
        rw [editOf, moved?_eq_some_iff.mpr hvalue, hslice]
        rfl
      rw [List.filterMap_cons, hedit, List.foldrM_cons, hbehind, ok_bind, hreplaced]
      simp only [List.append_assoc]

/-! ## Moving specifiers -/

/-- A moved script is the script with literals of specifiers replaced.  For any parser whose ranges lie in the text, one
beside the other, no index goes wrong; and if the script is moved, it is kept without being parsed, or each reported
specifier that points into the package is replaced between the quote it starts with by where it points to now, and
every other byte is kept.  So a script is kept if none of its specifiers points into the package. -/
theorem move_replaces_literals
    (hplace : ∀ found, parser.parse? dialect.features text = some found →
      ∃ qs, found = qs.map (Quotation.reported parser.origin) ∧ InPlace text qs) :
    ∃ result, move parser text old new dialect context = .ok result ∧ ∀ out, result = .ok out →
      (Text.contains old text = false ∧ out = text) ∨
        ∃ qs, parser.parse? dialect.features text = some (qs.map (Quotation.reported parser.origin)) ∧
          Edited old new 0 (inOrder qs) text out ∧
          ((∀ q ∈ qs, q.value ≠ old ∧ ∀ path, q.value ≠ old ++ '/' :: path) → out = text) := by
  rw [move]
  split
  · rename_i hcontains
    exact ⟨_, rfl, fun out hout => .inl ⟨by simpa using hcontains, (Except.ok.inj hout).symm⟩⟩
  cases hparse : parser.parse? dialect.features text with
  | none => exact ⟨_, rfl, fun out hout => nomatch hout⟩
  | some found =>
      obtain ⟨qs, rfl, hqs⟩ := hplace found hparse
      obtain ⟨out, hedited⟩ := @exists_edited text [] (inOrder qs) old new (hqs.perm (inOrder_perm qs)) hqs.apart
        fun _ _ => Nat.zero_le _
      have hwrite := @Edited.write_eq _ _ _ _ [] _ _ hedited rfl
      rw [List.nil_append, ← hqs.lastFirst_eq] at hwrite
      refine ⟨.ok out, ?_, fun out' hout => .inr ⟨qs, rfl, ?_⟩⟩
      · dsimp only
        rw [hqs.edits_eq, ok_bind, hwrite]
        rfl
      obtain rfl := Except.ok.inj hout
      refine ⟨hedited, fun hnone => hedited.eq_of_none fun q hq target htarget => ?_⟩
      obtain ⟨hpackage, hpath⟩ := hnone q ((inOrder_perm qs).mem_iff.mp hq)
      rcases (exists_pointsTo_iff old new _).mp ⟨target, htarget⟩ with heq | ⟨path, heq⟩
      · exact hpackage heq
      · exact hpath path heq

/-! ## The sources of a script -/

/-- A source of an item, where it stands in bytes. -/
def quotation (text : List Char) (source : Tree) : Quotation :=
  ⟨source.name.toList, byteSpan text source.span⟩

/-- The reader of scripts, which tells where sources stand. -/
def sourceParser : Parser (List Quotation) where
  origin := 1
  parse? features text := (Module.parse? features text).map fun items =>
    ((items.filterMap Tree.source?).map (quotation text)).map (Quotation.reported 1)

variable {sources items : List Tree}

/-- The range of a literal behind a front of the text. -/
theorem span_quotation {source : Tree} {lead literal : List Char}
    (hspan : source.span = ⟨front.length + lead.length, front.length + lead.length + literal.length⟩) :
    (quotation (front ++ (lead ++ literal ++ s)) source).span =
      ⟨byteSize front + byteSize lead, byteSize front + byteSize lead + byteSize literal⟩ := by
  have hrange := byteSpan_append (front ++ lead) literal s
  rw [List.length_append, byteSize_append] at hrange
  rw [quotation, hspan, ← hrange]
  simp only [List.append_assoc]

/-- The sources of a script stand in it in order. -/
theorem inPlace_sources (h : Sources text sources) :
    InPlace text (sources.map (quotation text)) ∧
      inOrder (sources.map (quotation text)) = sources.map (quotation text) := by
  have happart : (sources.map (quotation text)).Pairwise fun p q => p.span.stop ≤ q.span.start :=
    List.pairwise_map.mpr (h.inOrder.imp fun hle => (byteIndex_le_iff text).mpr hle)
  have hplace : InPlace text (sources.map (quotation text)) := by
    refine ⟨List.forall_mem_map.mpr fun source hs => ?_, List.forall_mem_map.mpr fun source hs => ?_,
      happart.imp .inl⟩
    · obtain ⟨lead, quote, body, rest, rfl, _, hspan⟩ :=
        @Literal.Holds.exists_cut _ [] _ (h.holds source hs) (Nat.zero_le _)
      rw [List.append_assoc, ← List.nil_append (lead ++ _), ← List.append_assoc lead, span_quotation hspan]
      refine ⟨⟨lead, _, by rw [List.nil_append, List.append_assoc], by simp [byteSize]⟩,
        ⟨lead ++ (quote :: body ++ [quote]), rest, List.nil_append _, by rw [byteSize_append]; simp [byteSize]⟩⟩
    · exact (byteIndex_lt_iff text).mpr (h.holds source hs).lt
  refine ⟨hplace, List.mergeSort_of_pairwise (happart.imp_of_mem fun {p q} hp _ hle => ?_)⟩
  have hlt := hplace.nonempty p hp
  exact decide_eq_true (by omega)

/-- A text that is edited at spans of characters is edited at their bytes. -/
theorem edited_of_spans (h : Script.Edited old new n sources s out) (hfront : front.length = n)
    (htext : front ++ s = text) : Edited old new (byteSize front) (sources.map (quotation text)) s out := by
  induction h generalizing front with
  | rest => exact .rest
  | @kept n source sources lead body s out quote _ hspan hvalue _ ih =>
      subst hfront htext
      have hrange := span_quotation (s := s) hspan
      have hrest := @ih (front ++ (lead ++ (quote :: body ++ [quote])))
        (by rw [hspan, List.length_append, List.length_append, Nat.add_assoc]) (List.append_assoc _ _ _)
      rw [byteSize_append, byteSize_append, ← Nat.add_assoc] at hrest
      rw [List.map_cons]
      refine .kept (by rw [hrange]) (by rw [hrange]) hvalue ?_
      rw [hrange]
      exact hrest
  | @moved n source sources lead body target s out quote _ hspan hvalue _ ih =>
      subst hfront htext
      have hrange := span_quotation (s := s) hspan
      have hrest := @ih (front ++ (lead ++ (quote :: body ++ [quote])))
        (by rw [hspan, List.length_append, List.length_append, Nat.add_assoc]) (List.append_assoc _ _ _)
      rw [byteSize_append, byteSize_append, ← Nat.add_assoc] at hrest
      rw [List.map_cons]
      have hliteral : quote :: body ++ [quote] = quote :: (body ++ [quote]) := rfl
      rw [hliteral] at hrange hrest ⊢
      refine .moved (by rw [hrange]) (by rw [hrange]) hvalue ?_
      rw [hrange]
      exact hrest

theorem inPlace_of_parse {found : List Quotation} (h : sourceParser.parse? dialect.features text = some found) :
    ∃ qs, found = qs.map (Quotation.reported sourceParser.origin) ∧ InPlace text qs := by
  obtain ⟨items, hitems, rfl⟩ := Option.map_eq_some_iff.mp h
  exact ⟨_, rfl, (inPlace_sources (Module.sources_inOrder hitems)).1⟩

/-- A script that is edited in a buffer, at the bytes where its sources stand, becomes the script that is spliced
together from its characters. -/
theorem move_sourceParser (text old new : List Char) (dialect : Dialect) (context : String) :
    move sourceParser text old new dialect context = .ok (Specifier.move text old new dialect context) := by
  rw [move, Specifier.move]
  split
  · rfl
  dsimp only [sourceParser]
  cases hitems : Module.parse? dialect.features text with
  | none => rfl
  | some items =>
      have hsources := Module.sources_inOrder hitems
      obtain ⟨hplace, horder⟩ := inPlace_sources hsources
      have hspliced := @edited_spliceFrom old new text (items.filterMap Tree.source?) [] hsources
        fun _ _ => Nat.zero_le _
      have hedited := @edited_of_spans _ _ _ _ _ [] _ _ hspliced rfl rfl
      have hwrite := @Edited.write_eq _ _ _ _ [] _ _ hedited rfl
      rw [List.nil_append, List.nil_append, ← horder, ← hplace.lastFirst_eq] at hwrite
      dsimp only [Option.map_some]
      rw [hplace.edits_eq, ok_bind, hwrite]
      rfl

/-- Two specifiers of the package and one of another that only starts like it. -/
theorem move_replaces_literals_re_export : ∃ found : List Quotation,
    sourceParser.parse? Dialect.tsx.features "import a from \"p/q\";\nimport 'pq'; export * from 'p'".toList =
      some found ∧
      ∃ qs, found = qs.map (Quotation.reported sourceParser.origin) ∧
        Edited "p".toList "new".toList 0 (inOrder qs)
          "import a from \"p/q\";\nimport 'pq'; export * from 'p'".toList
          "import a from \"new/q\";\nimport 'pq'; export * from 'new'".toList := by
  have hmove : Specifier.move "import a from \"p/q\";\nimport 'pq'; export * from 'p'".toList "p".toList
      "new".toList .tsx "" = .ok "import a from \"new/q\";\nimport 'pq'; export * from 'new'".toList := by
    decide +kernel
  obtain ⟨result, hresult, hedited⟩ := @move_replaces_literals
    "import a from \"p/q\";\nimport 'pq'; export * from 'p'".toList "p".toList "new".toList sourceParser .tsx ""
    fun _ => inPlace_of_parse
  rw [move_sourceParser, hmove] at hresult
  rcases hedited _ (Except.ok.inj hresult).symm with ⟨_, hsame⟩ | ⟨qs, hparse, hedited, _⟩
  · exact absurd hsame (by decide)
  · exact ⟨_, hparse, qs, rfl, hedited⟩

end Bytes
end Script
end StoryDocs
