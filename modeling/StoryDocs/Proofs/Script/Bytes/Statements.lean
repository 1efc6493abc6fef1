import Mathlib.Data.List.DropRight
import StoryDocs.Proofs.Layout.Whitespace
import StoryDocs.Proofs.Script.Bytes.Positions
import StoryDocs.Proofs.Script.Demotion
import StoryDocs.Proofs.Text.Dedent

/-!
# Statements cut from a buffer

A parser reports the items of a script in bytes.  Each statement is the text from the end of the item before to the end
of its own item, without the blanks in front, so what the parser says of the item has to be shifted by as many bytes as
stand in front of the statement.  Here an index that goes wrong, below zero too, stops the program.  It is shown that
none does and that nothing of the script is lost, for any parser whose items lie in the text in order and whose exports
start at their keyword.
-/

namespace StoryDocs
namespace Script

open Text Text.Buffer Markup.Bytes Layout

namespace Item

/-- An item with other spans. -/
def mapSpans (f : Span → Span) : Item → Item
  | importDecl span => .importDecl (f span)
  | importEquals span => .importEquals (f span)
  | exportDecl span declared => .exportDecl (f span) (f declared)
  | exportDefaultDecl span declared named => .exportDefaultDecl (f span) (f declared) named
  | exportOther span => .exportOther (f span)
  | statement span => .statement (f span)

/-- An item of a text as it is reported, with its positions counted from `origin`. -/
def reported (origin : Nat) : Item → Item :=
  mapSpans (Bytes.positions origin)

/-- An item of a text with its spans in bytes. -/
def inBytes (text : List Char) : Item → Item :=
  mapSpans (Bytes.byteSpan text)

@[simp] theorem span_mapSpans (f : Span → Span) (item : Item) : (item.mapSpans f).span = f item.span := by
  cases item <;> rfl

@[simp] theorem classify_mapSpans (f : Span → Span) (item : Item) : (item.mapSpans f).classify = item.classify := by
  cases item with
  | exportDefaultDecl _ _ named => cases named <;> rfl
  | importDecl => rfl
  | importEquals => rfl
  | exportDecl => rfl
  | exportOther => rfl
  | statement => rfl

theorem declares_mapSpans {f : Span → Span} {item : Item} {declared : Span} :
    (item.mapSpans f).Declares declared ↔ ∃ span, item.Declares span ∧ f span = declared := by
  constructor
  · intro h
    cases item with
    | exportDecl span declared => cases h; exact ⟨_, .exported span declared, rfl⟩
    | exportDefaultDecl span declared named =>
        cases h
        exact ⟨_, .default span declared, rfl⟩
    | importDecl => cases h
    | importEquals => cases h
    | exportOther => cases h
    | statement => cases h
  · rintro ⟨_, h, rfl⟩
    cases h with
    | exported => exact .exported _ _
    | default => exact .default _ _

end Item

/-- A statement with its offsets in bytes. -/
def Statement.inBytes (s : Statement) : Statement :=
  ⟨s.kind, s.text, s.declaration.map fun (keyword, start) => (byteIndex s.text keyword, byteIndex s.text start)⟩

/-- A program with its offsets in bytes. -/
def Program.inBytes (p : Program) : Program :=
  ⟨p.statements.map Statement.inBytes⟩

namespace Bytes

/-! ## The splitter -/

/-- Where the exported declaration of a reported item starts in the text. -/
def declarationStart? (origin : Nat) (item : Item) : Checked (Option Nat) :=
  match item.declarationStart? with
  | none => return none
  | some position => do
    let start ← minus position origin
    return some start

/-- The offsets of an exported declaration in a statement that starts at `base`. -/
def offsets? (base start : Nat) : Option Nat → Checked (Option (Nat × Nat))
  | none => return none
  | some declared => do
    let keyword ← minus start base
    let declaration ← minus declared base
    return some (keyword, declaration)

/-- Cut the statement of a reported item from a text, behind the statement before, which ends at `prev`.  Gives the
statement and where it ends. -/
def cutStatement (origin : Nat) (text : List Char) (prev : Nat) (item : Item) : Checked (Statement × Nat) := do
  let range ← byteRange origin item.span
  let chunk ← slice text prev range.stop
  let trimmed := trimStart chunk
  let blanks ← minus (byteSize chunk) (byteSize trimmed)
  let start? ← declarationStart? origin item
  let declaration ← offsets? (prev + blanks) range.start start?
  return (⟨item.classify, trimmed, declaration⟩, range.stop)

/-- Cut a text behind `prev` into the statements of items, and what is left. -/
def split (origin : Nat) (text : List Char) : List Item → Nat → Checked (List Statement)
  | [], prev => do
    let rest ← slice text prev (byteSize text)
    let last := trim rest
    return if last.isEmpty then [] else [⟨.trivia, last, none⟩]
  | item :: items, prev => do
    let (s, stop) ← cutStatement origin text prev item
    let others ← split origin text items stop
    return s :: others

/-- Read a script into its statements, at the items that a parser reports. -/
def parse (parser : Parser (List Item)) (text : List Char) (dialect : Dialect) (context : String) :
    Checked (Except Error Program) :=
  match parser.parse? dialect.features text with
  | none => return .error ⟨context, .rejected⟩
  | some items => do
    let statements ← split parser.origin text items 0
    return .ok ⟨statements⟩

variable {text front rest s : List Char} {n m origin : Nat} {item : Item} {items : List Item} {declared : Span}
  {t : Statement} {ss : List Statement} {parser : Parser (List Item)} {dialect : Dialect} {context : String}

/-! ## Items in a text -/

/-- Items that lie in a text behind `n` bytes, between its characters, in order and one beside the other, each around
the start of the declaration that it exports. -/
inductive Ordered (text : List Char) : Nat → List Item → Prop
  | nil {n : Nat} (hn : CharStart text n) : Ordered text n []
  | cons {n : Nat} {item : Item} {items : List Item} (hn : CharStart text n) (hbehind : n ≤ item.span.start)
      (hstart : CharStart text item.span.start) (hspan : item.span.start ≤ item.span.stop)
      (hinside : ∀ declared, item.Declares declared →
        item.span.start ≤ declared.start ∧ declared.start ≤ item.span.stop ∧ CharStart text declared.start)
      (hrest : Ordered text item.span.stop items) : Ordered text n (item :: items)

theorem Ordered.charStart (h : Ordered text n items) : CharStart text n := by
  cases h with
  | nil hn => exact hn
  | cons hn => exact hn

/-- The keyword of an export. -/
def exportKeyword : List Char :=
  "export".toList

/-- An item that exports a declaration starts with the keyword, and the declaration stands behind it. -/
def Leads (text : List Char) (item : Item) (declared : Span) : Prop :=
  ∃ front between rest, text = front ++ (exportKeyword ++ between) ++ rest ∧ byteSize front = item.span.start ∧
    byteSize front + byteSize (exportKeyword ++ between) = declared.start

/-! ## Statements of items -/

/-- A statement that is cut for an item and starts at `base`.  For an exported declaration it has the offset of the
keyword, which is where the item starts, and the offset of the declaration. -/
structure CutFor (item : Item) (base : Nat) (s : Statement) : Prop where
  kind : s.kind = item.classify
  stop : base + byteSize s.text = item.span.stop
  declares : ∀ declared, item.Declares declared → ∃ lead between body,
    s.text = lead ++ (exportKeyword ++ between) ++ body ∧ base + byteSize lead = item.span.start ∧
      base + (byteSize lead + byteSize (exportKeyword ++ between)) = declared.start ∧
      s.declaration = some (byteSize lead, byteSize lead + byteSize (exportKeyword ++ between))
  plain : (∀ declared, ¬item.Declares declared) → s.declaration = none

/-- Statements that are cut from what stands behind `n` bytes of a text, one for each item and perhaps one for what is
left at the end.  Only blanks stand in front of them, between them and behind them. -/
inductive CutFrom : Nat → List Item → List Char → List Statement → Prop
  | blank {n : Nat} {rest : List Char} (h : allBlank rest = true) : CutFrom n [] rest []
  | trivia {n : Nat} {front body back : List Char} (hfront : allBlank front = true) (hback : allBlank back = true)
      (hbody : body ≠ []) (htrim : trim body = body) : CutFrom n [] (front ++ body ++ back) [⟨.trivia, body, none⟩]
  | item {n : Nat} {item : Item} {items : List Item} {s : Statement} {ss : List Statement} {front rest : List Char}
      (hfront : allBlank front = true) (hstart : trimStart s.text = s.text) (hcut : CutFor item (n + byteSize front) s)
      (hrest : CutFrom item.span.stop items rest ss) : CutFrom n (item :: items) (front ++ s.text ++ rest) (s :: ss)

/-- A keyword behind a text is not trimmed. -/
theorem trimStart_append_keyword (gap rest : List Char) :
    trimStart (gap ++ (exportKeyword ++ rest)) = trimStart gap ++ (exportKeyword ++ rest) := by
  induction gap with
  | nil => rfl
  | cons c gap ih =>
      cases hc : isBlank c with
      | true => simpa [trimStart, hc] using ih
      | false => simp [trimStart, hc]

/-! ## Cutting -/

theorem declarationStart?_reported (origin : Nat) (item : Item) :
    declarationStart? origin (item.reported origin) = .ok item.declarationStart? := by
  rw [declarationStart?, Item.reported]
  cases hstart : item.declarationStart? with
  | none =>
      have hnone : (item.mapSpans (positions origin)).declarationStart? = none := by
        refine Option.eq_none_iff_forall_ne_some.mpr fun start hsome => ?_
        obtain ⟨_, hdeclares, _⟩ := (Item.declarationStart?_eq_some_iff _ start).mp hsome
        obtain ⟨declared, hdeclares, _⟩ := Item.declares_mapSpans.mp hdeclares
        rw [(item.declarationStart?_eq_some_iff _).mpr ⟨declared, hdeclares, rfl⟩] at hstart
        cases hstart
      rw [hnone]
      rfl
  | some start =>
      obtain ⟨declared, hdeclares, rfl⟩ := (item.declarationStart?_eq_some_iff start).mp hstart
      have hsome : (item.mapSpans (positions origin)).declarationStart? = some (origin + declared.start) :=
        (Item.declarationStart?_eq_some_iff _ _).mpr ⟨_, Item.declares_mapSpans.mpr ⟨declared, hdeclares, rfl⟩, rfl⟩
      rw [hsome]
      dsimp only
      rw [minus_add]
      rfl

/-- Up to its declaration, an item with an export lies in the chunk that its statement is trimmed from. -/
theorem Leads.exists_cut {chunk : List Char} (h : Leads (front ++ (chunk ++ rest)) item declared)
    (hbehind : byteSize front ≤ item.span.start) (hstop : declared.start ≤ byteSize front + byteSize chunk) :
    ∃ gap between body, chunk = gap ++ (exportKeyword ++ between) ++ body ∧
      byteSize front + byteSize gap = item.span.start ∧
      byteSize front + byteSize gap + byteSize (exportKeyword ++ between) = declared.start := by
  obtain ⟨lead, between, back, htext, hstart, hdeclared⟩ := h
  rw [List.append_assoc] at htext
  obtain ⟨gap, rfl, hgap⟩ := exists_append_of_byteSize_le htext (by omega)
  rw [byteSize_append] at hstart hdeclared
  rw [← List.append_assoc] at hgap
  obtain ⟨body, hchunk, _⟩ := exists_append_of_byteSize_le hgap.symm (by rw [byteSize_append]; omega)
  exact ⟨gap, between, body, hchunk, hstart, hdeclared⟩

/-- Trimming a chunk takes blanks off that stand in front of the keyword of its item. -/
theorem exists_lead {chunk blanks gap between body : List Char} (hchunk : chunk = blanks ++ trimStart chunk)
    (hcut : chunk = gap ++ (exportKeyword ++ between) ++ body) :
    ∃ lead, trimStart chunk = lead ++ (exportKeyword ++ between) ++ body ∧ gap = blanks ++ lead := by
  obtain ⟨blanks', hgap, _⟩ := exists_append_trimStart gap
  have htrim : trimStart chunk = trimStart gap ++ (exportKeyword ++ between) ++ body := by
    rw [hcut, List.append_assoc gap, List.append_assoc exportKeyword, trimStart_append_keyword]
    simp only [List.append_assoc]
  have hsame : blanks ++ trimStart chunk = blanks' ++ trimStart chunk := by
    rw [← hchunk, htrim]
    rw [hcut]
    nth_rewrite 1 [hgap]
    simp only [List.append_assoc]
  rw [List.append_cancel_right hsame]
  exact ⟨trimStart gap, htrim, hgap⟩

/-- The statement of an item is cut from the text up to the end of the item, and no index goes wrong. -/
theorem exists_cutStatement (origin : Nat) (hn : byteSize front = n)
    (hordered : Ordered (front ++ rest) n (item :: items))
    (hleads : ∀ declared, item.Declares declared → Leads (front ++ rest) item declared) :
    ∃ blanks behind s, rest = blanks ++ s.text ++ behind ∧ allBlank blanks = true ∧ trimStart s.text = s.text ∧
      CutFor item (n + byteSize blanks) s ∧
      cutStatement origin (front ++ rest) n (item.reported origin) = .ok (s, item.span.stop) := by
  subst hn
  cases hordered with
  | cons _ hbehind _ hspan hinside hrest =>
      obtain ⟨chunk, behind, rfl, hstop⟩ := hrest.charStart.exists_cut (Nat.le_trans hbehind hspan)
      obtain ⟨blanks, hchunk, hblanks⟩ := exists_append_trimStart chunk
      have hslice := slice_append front chunk behind
      rw [List.append_assoc, ← hstop] at hslice
      have hsize : byteSize chunk = byteSize (trimStart chunk) + byteSize blanks := by
        rw [hchunk, byteSize_append, ← hchunk, Nat.add_comm]
      have hminus : minus (byteSize chunk) (byteSize (trimStart chunk)) = .ok (byteSize blanks) := by
        rw [hsize, minus_add]
      have htrimmed : trimStart (trimStart chunk) = trimStart chunk := List.dropWhile_idempotent _ _
      have hrest' : chunk ++ behind = blanks ++ trimStart chunk ++ behind := by
        rw [← hchunk]
      rw [cutStatement, Item.reported, Item.span_mapSpans, byteRange_positions, ok_bind, hslice, ok_bind]
      dsimp only
      rw [hminus, ok_bind, ← Item.reported, declarationStart?_reported, ok_bind, Item.reported, Item.classify_mapSpans]
      cases hstart : item.declarationStart? with
      | none =>
          have hplain : ∀ declared, ¬item.Declares declared := by
            intro declared hdeclares
            rw [(item.declarationStart?_eq_some_iff _).mpr ⟨declared, hdeclares, rfl⟩] at hstart
            cases hstart
          refine ⟨blanks, behind, ⟨item.classify, trimStart chunk, none⟩, hrest', hblanks, htrimmed, ?_, rfl⟩
          exact ⟨rfl, by dsimp only; omega, fun declared hdeclares => absurd hdeclares (hplain declared), fun _ => rfl⟩
      | some start =>
          obtain ⟨declared, hdeclares, rfl⟩ := (item.declarationStart?_eq_some_iff start).mp hstart
          obtain ⟨gap, between, body, hcut, hgap, hdeclared⟩ := (hleads declared hdeclares).exists_cut hbehind
            (by have := hinside declared hdeclares; omega)
          obtain ⟨lead, hlead, rfl⟩ := exists_lead hchunk hcut
          rw [byteSize_append, ← Nat.add_assoc] at hgap hdeclared
          rw [Nat.add_assoc] at hdeclared
          rw [offsets?, ← hgap, minus_add, ok_bind, ← hdeclared, minus_add]
          refine ⟨blanks, behind, ⟨item.classify, trimStart chunk,
            some (byteSize lead, byteSize lead + byteSize (exportKeyword ++ between))⟩, hrest', hblanks,
              htrimmed, ?_, rfl⟩
          refine ⟨rfl, by dsimp only; omega, fun declared' hdeclares' => ?_,
            fun hplain => absurd hdeclares (hplain declared)⟩
          obtain rfl := hdeclares.unique hdeclares'
          exact ⟨lead, between, body, hlead, hgap, hdeclared, rfl⟩

/-- Splitting cuts statements from the text. -/
theorem exists_split (origin : Nat) (hn : byteSize front = n) (hordered : Ordered (front ++ rest) n items)
    (hleads : ∀ item ∈ items, ∀ declared, item.Declares declared → Leads (front ++ rest) item declared) :
    ∃ ss, split origin (front ++ rest) (items.map (Item.reported origin)) n = .ok ss ∧ CutFrom n items rest ss := by
  induction items generalizing front rest n with
  | nil =>
      obtain ⟨blanks, back, hsplit, hblanks, hback⟩ := exists_trim rest
      rw [List.map_nil, split, ← hn, slice_back, ok_bind]
      refine ⟨_, rfl, ?_⟩
      split
      · rename_i hempty
        rw [List.isEmpty_iff.mp hempty, List.append_nil] at hsplit
        refine .blank ?_
        rw [hsplit, allBlank_append, hblanks, hback]
        rfl
      · rename_i hne
        have htrivia := @CutFrom.trivia (byteSize front) blanks (trim rest) back hblanks hback (by simpa using hne)
          (trim_trim rest)
        rw [← hsplit] at htrivia
        exact htrivia
  | cons item items ih =>
      obtain ⟨hleads, hothers⟩ := List.forall_mem_cons.mp hleads
      obtain ⟨blanks, behind, s, rfl, hblanks, hstart, hcut, hstatement⟩ :=
        exists_cutStatement origin hn hordered hleads
      have hsize : byteSize (front ++ (blanks ++ s.text)) = item.span.stop := by
        rw [byteSize_append, byteSize_append, hn, ← hcut.stop, Nat.add_assoc]
      have htext : front ++ (blanks ++ s.text ++ behind) = front ++ (blanks ++ s.text) ++ behind := by
        simp only [List.append_assoc]
      cases hordered with
      | cons _ _ _ _ _ hrest =>
          rw [htext] at hrest hothers
          obtain ⟨ss, hsplit, hcuts⟩ := ih hsize hrest hothers
          rw [← htext] at hsplit
          refine ⟨s :: ss, ?_, .item hblanks hstart hcut hcuts⟩
          rw [List.map_cons, split, hstatement, ok_bind]
          dsimp only
          rw [hsplit]
          rfl

/-! ## Printed programs -/

/-- Statements hold all of the text that can be seen. -/
theorem CutFrom.visible_eq (h : CutFrom n items rest ss) : visible rest = ss.flatMap fun s => visible s.text := by
  induction h with
  | blank h => exact visible_eq_nil_iff.mpr h
  | trivia hfront hback _ _ =>
      rw [visible_append, visible_append, visible_eq_nil_iff.mpr hfront, visible_eq_nil_iff.mpr hback]
      simp
  | item hfront _ _ _ ih =>
      rw [visible_append, visible_append, visible_eq_nil_iff.mpr hfront, ih, List.flatMap_cons]
      rfl

theorem visible_gap (k k' : StatementKind) : visible (Program.gap k k') = [] := by
  rw [Program.gap]
  split
  · rfl
  · rfl

theorem visible_joined (ss : List Statement) : visible (Program.joined ss) = ss.flatMap fun s => visible s.text := by
  induction ss with
  | nil => rfl
  | cons s ss ih =>
      cases ss with
      | nil => simp [Program.joined]
      | cons t ss =>
          rw [Program.joined, visible_append, visible_append, visible_gap, ih, List.append_nil]
          rfl

/-- Printing adds blanks only. -/
theorem visible_print (p : Program) : visible p.print = p.statements.flatMap fun s => visible s.text := by
  rw [← visible_joined, Program.print]
  split
  · rename_i hnil
    rw [hnil]
  · rw [visible_append, visible_feed, List.append_nil]

/-- The offsets of an exported declaration lie in its statement. -/
theorem CutFrom.offsets (h : CutFrom n items rest ss) : ∀ s ∈ ss, s.kind = .exportDeclaration →
    ∃ keyword start, s.declaration = some (keyword, start) ∧ keyword ≤ start ∧ start ≤ byteSize s.text := by
  induction h with
  | blank h => exact fun _ hs => absurd hs List.not_mem_nil
  | trivia =>
      intro s hs hkind
      obtain rfl := List.mem_singleton.mp hs
      cases hkind
  | @item n item items s ss front rest hfront hstart hcut _ ih =>
      refine List.forall_mem_cons.mpr ⟨fun hkind => ?_, ih⟩
      obtain ⟨declared, hdeclares⟩ := item.classify_eq_iff.mp (hcut.kind ▸ hkind)
      obtain ⟨lead, between, body, htext, _, _, hoffsets⟩ := hcut.declares declared hdeclares
      refine ⟨_, _, hoffsets, Nat.le_add_right _ _, ?_⟩
      rw [htext, byteSize_append (lead ++ (exportKeyword ++ between)), byteSize_append lead]
      exact Nat.le_add_right _ _

/-- Splitting a script loses nothing.  For any parser whose items lie in the text in order, one beside the other, with
exports that start at their keyword and declarations that start in their items, no index goes wrong, and the statements
are slices of the text in order with only blanks around them.  An exported declaration tells where its keyword and its
declaration start, and the printed program says what the script says. -/
theorem parse_loses_nothing (context : String)
    (hitems : parser.parse? dialect.features text = some (items.map (Item.reported parser.origin)))
    (hordered : Ordered text 0 items)
    (hleads : ∀ item ∈ items, ∀ declared, item.Declares declared → Leads text item declared) :
    ∃ p, parse parser text dialect context = .ok (.ok p) ∧ CutFrom 0 items text p.statements ∧
      (∀ s ∈ p.statements, s.kind = .exportDeclaration →
        ∃ keyword start, s.declaration = some (keyword, start) ∧ keyword ≤ start ∧ start ≤ byteSize s.text) ∧
      visible p.print = visible text := by
  obtain ⟨ss, hsplit, hcuts⟩ := @exists_split [] text 0 items parser.origin rfl hordered hleads
  rw [List.nil_append] at hsplit
  refine ⟨⟨ss⟩, ?_, hcuts, hcuts.offsets, ?_⟩
  · rw [parse, hitems]
    dsimp only
    rw [hsplit]
    rfl
  · rw [visible_print]
    exact hcuts.visible_eq.symm

/-! ## The items of a script -/

/-- The items of a script in bytes. -/
def itemsInBytes (text : List Char) (trees : List Tree) : List Item :=
  (trees.map Item.ofTree).map (Item.inBytes text)

/-- The reader of scripts, which tells where items stand. -/
def itemParser : Parser (List Item) where
  origin := 1
  parse? features text := (Module.parse? features text).map fun trees =>
    (itemsInBytes text trees).map (Item.reported 1)

theorem parse?_itemParser {features : Features} {trees : List Tree} (h : Module.parse? features text = some trees) :
    itemParser.parse? features text = some ((itemsInBytes text trees).map (Item.reported itemParser.origin)) := by
  show (Module.parse? features text).map _ = _
  rw [h]
  rfl

theorem eq_length_of_byteIndex {u v : List Char} (h : byteIndex (u ++ v) m = byteSize u) : m = u.length := by
  rw [← byteIndex_append u v] at h
  have hle := (byteIndex_le_iff (u ++ v)).mp h.le
  have hge := (byteIndex_le_iff (u ++ v)).mp h.ge
  omega

theorem eq_mk_of_fields {kind : StatementKind} {declaration : Option (Nat × Nat)} (hkind : t.kind = kind)
    (hdeclaration : t.declaration = declaration) : t = ⟨kind, t.text, declaration⟩ := by
  subst hkind hdeclaration
  rfl

/-- The statement that is cut at bytes is the one that is cut at characters. -/
theorem CutFor.inBytes_ofItem {blanks behind : List Char} (hblanks : allBlank blanks = true)
    (hstart : trimStart t.text = t.text)
    (hcut : CutFor (item.inBytes (front ++ (blanks ++ t.text ++ behind))) (byteSize front + byteSize blanks) t) :
    item.span.stop = (front ++ (blanks ++ t.text)).length ∧
      (Statement.ofItem item front.length (blanks ++ t.text ++ behind)).inBytes = t := by
  have htext : front ++ (blanks ++ t.text ++ behind) = front ++ (blanks ++ t.text) ++ behind := by
    simp only [List.append_assoc]
  have hstop : item.span.stop = (front ++ (blanks ++ t.text)).length := by
    have hcut := hcut.stop
    rw [Item.inBytes, Item.span_mapSpans, htext] at hcut
    refine eq_length_of_byteIndex (v := behind) (hcut.symm.trans ?_)
    rw [byteSize_append, byteSize_append, Nat.add_assoc]
  refine ⟨hstop, ?_⟩
  have hchunk : (blanks ++ t.text ++ behind).take (item.span.stop - front.length) = blanks ++ t.text := by
    rw [hstop, List.length_append, Nat.add_sub_cancel_left, List.take_left]
  have hbase : front.length + ((blanks ++ t.text).length - t.text.length) = (front ++ blanks).length := by
    rw [List.length_append, List.length_append, Nat.add_sub_cancel]
  have hstatement : Statement.ofItem item front.length (blanks ++ t.text ++ behind) = ⟨item.classify, t.text,
      item.declarationStart?.map fun start =>
        (item.span.start - (front ++ blanks).length, start - (front ++ blanks).length)⟩ := by
    have htrim : trimStart (blanks ++ t.text) = t.text := by
      rw [trimStart, List.dropWhile_append_of_pos fun c hc => List.all_eq_true.mp hblanks c hc]
      exact hstart
    rw [Statement.ofItem, hchunk, htrim]
    show Statement.mk _ _ _ = _
    rw [hbase]
  have hkind := hcut.kind
  rw [Item.inBytes, Item.classify_mapSpans] at hkind
  rw [hstatement]
  cases hdeclaration : item.declarationStart? with
  | none =>
      have hplain := hcut.plain fun declared hdeclares => by
        obtain ⟨span, hspan, _⟩ := Item.declares_mapSpans.mp hdeclares
        rw [(item.declarationStart?_eq_some_iff _).mpr ⟨span, hspan, rfl⟩] at hdeclaration
        cases hdeclaration
      exact (eq_mk_of_fields hkind hplain).symm
  | some start =>
      obtain ⟨declared, hdeclares, rfl⟩ := (item.declarationStart?_eq_some_iff start).mp hdeclaration
      obtain ⟨lead, between, body, hbody, hkeyword, hdeclared, hoffsets⟩ :=
        hcut.declares _ (Item.declares_mapSpans.mpr ⟨declared, hdeclares, rfl⟩)
      -- The item and its declaration start at the characters where their bytes start.
      have hlead : item.span.start = (front ++ blanks ++ lead).length := by
        have hwhole : front ++ (blanks ++ t.text ++ behind) =
            front ++ blanks ++ lead ++ (exportKeyword ++ between ++ body ++ behind) := by
          rw [hbody]
          simp only [List.append_assoc]
        rw [Item.inBytes, Item.span_mapSpans, hwhole] at hkeyword
        refine eq_length_of_byteIndex (hkeyword.symm.trans ?_)
        simp only [byteSize_append, Nat.add_assoc]
      have hfirst : declared.start = (front ++ blanks ++ (lead ++ (exportKeyword ++ between))).length := by
        have hwhole : front ++ (blanks ++ t.text ++ behind) =
            front ++ blanks ++ (lead ++ (exportKeyword ++ between)) ++ (body ++ behind) := by
          rw [hbody]
          simp only [List.append_assoc]
        rw [hwhole] at hdeclared
        refine eq_length_of_byteIndex (hdeclared.symm.trans ?_)
        simp only [byteSize_append, Nat.add_assoc]
      have hbytes : ∀ u v, t.text = u ++ v → byteIndex t.text u.length = byteSize u := fun u v h => by
        rw [h, byteIndex_append]
      rw [hlead, hfirst, Option.map_some, List.length_append, Nat.add_sub_cancel_left, List.length_append,
        Nat.add_sub_cancel_left]
      refine Eq.trans ?_ (eq_mk_of_fields hkind hoffsets).symm
      rw [Statement.inBytes]
      dsimp only [Option.map_some]
      rw [hbytes lead (exportKeyword ++ between ++ body) (by rw [hbody, List.append_assoc lead]),
        hbytes (lead ++ (exportKeyword ++ between)) body hbody, byteSize_append lead]

/-- What is cut at bytes is what is cut at characters. -/
theorem CutFrom.inBytes_split (hcuts : CutFrom n (items.map (Item.inBytes text)) rest ss) (hn : byteSize front = n)
    (htext : front ++ rest = text) : (Statement.split items front.length rest).map Statement.inBytes = ss := by
  induction items generalizing front n rest ss with
  | nil =>
      cases hcuts with
      | blank h =>
          rw [Statement.split, trim_eq_nil_iff.mpr h]
          rfl
      | trivia hfront hback hbody htrim =>
          rw [Statement.split, trim_between_blanks hfront hback, htrim, if_neg (by simpa using hbody)]
          rfl
  | cons item items ih =>
      cases hcuts with
      | @item _ _ _ t ss blanks behind hblanks hstart hcut hcuts =>
          subst htext hn
          obtain ⟨hstop, hstatement⟩ := hcut.inBytes_ofItem hblanks hstart
          have hdrop : (blanks ++ t.text ++ behind).drop (item.span.stop - front.length) = behind := by
            rw [hstop, List.length_append, Nat.add_sub_cancel_left, List.drop_left]
          have hbehind := @ih (front ++ (blanks ++ t.text)) _ _ _ hcuts
            (by rw [← hcut.stop, byteSize_append, byteSize_append, Nat.add_assoc]) (by simp only [List.append_assoc])
          rw [Statement.split, hdrop, List.map_cons, hstatement, hstop, hbehind]

/-- Where the items that are read lie in a script as any parser has to report them, splitting it at their bytes gives
the statements that are split off at their characters. -/
theorem parse_itemParser {trees : List Tree} (context : String)
    (htrees : Module.parse? dialect.features text = some trees)
    (hordered : Ordered text 0 (itemsInBytes text trees))
    (hleads : ∀ item ∈ itemsInBytes text trees, ∀ declared, item.Declares declared → Leads text item declared) :
    ∃ p, Program.parse text dialect context = .ok p ∧ parse itemParser text dialect context = .ok (.ok p.inBytes) := by
  obtain ⟨⟨ss⟩, hparse, hcuts, _⟩ := parse_loses_nothing context (parse?_itemParser htrees) hordered hleads
  have hsplit := @CutFrom.inBytes_split _ [] _ _ _ _ hcuts rfl rfl
  dsimp only at hsplit
  rw [Program.parse, htrees]
  refine ⟨_, rfl, ?_⟩
  rw [hparse, Program.inBytes]
  dsimp only
  rw [← hsplit]
  rfl

/-- A script with comments around an exported declaration, a default export and another export. -/
def exportsText : List Char :=
  "// ü\nexport const a = 1;\nexport default /* d */ function f() {}\nexport { a };\n// e\n".toList

theorem exists_items_exports : ∃ trees, Module.parse? Dialect.tsx.features exportsText = some trees ∧
    Ordered exportsText 0 (itemsInBytes exportsText trees) ∧
    ∀ item ∈ itemsInBytes exportsText trees, ∀ declared, item.Declares declared → Leads exportsText item declared := by
  have hitems : (Module.parse? Dialect.tsx.features exportsText).map (·.map Item.ofTree) =
      some [.exportDecl ⟨5, 24⟩ ⟨12, 24⟩, .exportDefaultDecl ⟨25, 63⟩ ⟨48, 63⟩ true, .exportOther ⟨64, 77⟩] := by
    decide +kernel
  obtain ⟨trees, htrees, hitems⟩ := Option.map_eq_some_iff.mp hitems
  have hcharStart : ∀ k ≤ exportsText.length, CharStart exportsText (byteIndex exportsText k) := fun _ =>
    charStart_byteIndex
  refine ⟨trees, htrees, ?_, ?_⟩
  · rw [itemsInBytes, hitems]
    refine .cons (hcharStart 0 (by decide)) (by decide) (hcharStart 5 (by decide)) (by decide) ?_
      (.cons (hcharStart 24 (by decide)) (by decide) (hcharStart 25 (by decide)) (by decide) ?_
        (.cons (hcharStart 63 (by decide)) (by decide) (hcharStart 64 (by decide)) (by decide) ?_
          (.nil (hcharStart 77 (by decide)))))
    · intro declared hdeclares
      cases hdeclares
      exact ⟨by decide, by decide, hcharStart 12 (by decide)⟩
    · intro declared hdeclares
      cases hdeclares
      exact ⟨by decide, by decide, hcharStart 48 (by decide)⟩
    · intro declared hdeclares
      cases hdeclares
  · rw [itemsInBytes, hitems]
    simp only [List.map_cons, List.map_nil, List.forall_mem_cons]
    refine ⟨?_, ?_, ?_, fun _ h => absurd h List.not_mem_nil⟩
    · intro declared hdeclares
      cases hdeclares
      exact ⟨exportsText.take 5, " ".toList, exportsText.drop 12, by decide, by decide, by decide⟩
    · intro declared hdeclares
      cases hdeclares
      exact ⟨exportsText.take 25, " default /* d */ ".toList, exportsText.drop 48, by decide, by decide, by decide⟩
    · intro declared hdeclares
      cases hdeclares

/-- The comment that stands in front of the first export shifts its offsets. -/
theorem parse_loses_nothing_exports : ∃ trees p, Module.parse? Dialect.tsx.features exportsText = some trees ∧
    parse itemParser exportsText .tsx "" = .ok (.ok p) ∧
    CutFrom 0 (itemsInBytes exportsText trees) exportsText p.statements ∧
    p.statements.head?.map Statement.declaration = some (some (6, 13)) := by
  obtain ⟨trees, htrees, hordered, hleads⟩ := exists_items_exports
  obtain ⟨p, hparse, hcuts, _⟩ := parse_loses_nothing "" (parse?_itemParser htrees) hordered hleads
  obtain ⟨q, hread, hbytes⟩ := parse_itemParser "" htrees hordered hleads
  obtain rfl : p = q.inBytes := Except.ok.inj (Except.ok.inj (hparse.symm.trans hbytes))
  refine ⟨trees, _, htrees, hparse, hcuts, ?_⟩
  have hstatements : (Program.parse exportsText .tsx "").map
    (fun p => p.inBytes.statements.head?.map Statement.declaration) =
      .ok (some (some (6, 13))) := by
    decide +kernel
  rw [hread] at hstatements
  exact Except.ok.inj hstatements

end Bytes
end Script
end StoryDocs
