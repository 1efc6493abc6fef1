import StoryDocs.Proofs.Script.Bytes.Statements

/-!
# Demotion in a buffer

An exported declaration is demoted by taking bytes out of the text of its statement, at the offsets that were stored
when the script was split.  For any parser whose items lie in the text as they have to, the bytes that are taken out
are those from the keyword of the export to its declaration, and every other statement is kept as it is or reported.
-/

namespace StoryDocs
namespace Script
namespace Bytes

open Text Text.Buffer Markup.Bytes Layout

/-! ## The editor -/

/-- Take the export off a statement; one without a declaration has nothing that could stay. -/
def demoted? (s : Statement) : Checked (Option Statement) :=
  match s.declaration with
  | none => return none
  | some (keyword, start) => do
    let text ← replaceRange s.text keyword start []
    return some ⟨.statement, text, none⟩

/-- Demote statements.  Gives those that are kept and those that are dropped. -/
def part : List Statement → Checked (List Statement × List Statement)
  | [] => return ([], [])
  | s :: ss => do
    match s.kind with
    | .exportDeclaration =>
      let kept ← demoted? s
      let (ks, ds) ← part ss
      return (kept.toList ++ ks, ds)
    | .export =>
      let (ks, ds) ← part ss
      return (ks, s :: ds)
    | _ =>
      let (ks, ds) ← part ss
      return (s :: ks, ds)

/-- Turn the exported declarations of a program into plain ones.  Gives the program and the exports that are
dropped. -/
def demote (p : Program) : Checked (Program × List Statement) := do
  let (ks, ds) ← part p.statements
  return (⟨ks⟩, ds)

variable {text rest : List Char} {n : Nat} {items : List Item} {trees : List Tree} {s : Statement}
  {ss ks ds : List Statement} {p : Program} {parser : Parser (List Item)} {dialect : Dialect} {context : String}

/-! ## Parted statements -/

/-- How demotion parts the statements of items, which are cut from what stands behind `n` bytes of a text.  Of an
exported declaration the bytes from the keyword, with which its item starts, to the declaration are removed. -/
inductive Parted : Nat → List Item → List Char → List Statement → List Statement → List Statement → Prop
  | blank {n : Nat} {rest : List Char} : Parted n [] rest [] [] []
  | trivia {n : Nat} {front back : List Char} {s : Statement} (hkind : s.kind = .trivia) :
      Parted n [] (front ++ s.text ++ back) [s] [s] []
  | kept {n : Nat} {item : Item} {items : List Item} {front rest : List Char} {s : Statement}
      {ss ks ds : List Statement} (hkind : s.kind = item.classify) (hexport : s.kind ≠ .export)
      (hplain : ∀ declared, ¬item.Declares declared) (hrest : Parted item.span.stop items rest ss ks ds) :
      Parted n (item :: items) (front ++ s.text ++ rest) (s :: ss) (s :: ks) ds
  | demoted {n : Nat} {item : Item} {items : List Item} {declared : Span} {front lead between body rest : List Char}
      {ss ks ds : List Statement} (hdeclares : item.Declares declared)
      (hstart : n + byteSize front + byteSize lead = item.span.start)
      (hdeclared : item.span.start + byteSize (exportKeyword ++ between) = declared.start)
      (hstop : declared.start + byteSize body = item.span.stop)
      (hrest : Parted item.span.stop items rest ss ks ds) :
      Parted n (item :: items) (front ++ (lead ++ (exportKeyword ++ between) ++ body) ++ rest)
        (⟨.exportDeclaration, lead ++ (exportKeyword ++ between) ++ body,
          some (byteSize lead, byteSize lead + byteSize (exportKeyword ++ between))⟩ :: ss)
        (⟨.statement, lead ++ body, none⟩ :: ks) ds
  | dropped {n : Nat} {item : Item} {items : List Item} {front rest : List Char} {s : Statement}
      {ss ks ds : List Statement} (hkind : s.kind = item.classify) (hexport : s.kind = .export)
      (hrest : Parted item.span.stop items rest ss ks ds) :
      Parted n (item :: items) (front ++ s.text ++ rest) (s :: ss) ks (s :: ds)

theorem part_cons_kept (hexport : s.kind ≠ .export) (hdeclaration : s.kind ≠ .exportDeclaration)
    (hrest : part ss = .ok (ks, ds)) : part (s :: ss) = .ok (s :: ks, ds) := by
  rw [part]
  split
  · rename_i hkind
    exact absurd hkind hdeclaration
  · rename_i hkind
    exact absurd hkind hexport
  · rw [hrest]
    rfl

theorem part_cons_dropped (hexport : s.kind = .export) (hrest : part ss = .ok (ks, ds)) :
    part (s :: ss) = .ok (ks, s :: ds) := by
  rw [part, hexport]
  dsimp only
  rw [hrest]
  rfl

theorem part_cons_demoted {lead removed body : List Char} (hrest : part ss = .ok (ks, ds)) :
    part (⟨.exportDeclaration, lead ++ removed ++ body, some (byteSize lead, byteSize lead + byteSize removed)⟩ :: ss) =
      .ok (⟨.statement, lead ++ body, none⟩ :: ks, ds) := by
  rw [part]
  dsimp only
  rw [demoted?]
  dsimp only
  rw [replaceRange_append, List.append_nil, hrest]
  rfl

/-- Statements that are cut from a text are parted, and no index goes wrong. -/
theorem CutFrom.exists_part (h : CutFrom n items rest ss) :
    ∃ ks ds, part ss = .ok (ks, ds) ∧ Parted n items rest ss ks ds := by
  induction h with
  | blank _ => exact ⟨[], [], rfl, .blank⟩
  | @trivia n front body back _ _ _ _ => exact ⟨_, _, rfl, @Parted.trivia n front back ⟨.trivia, body, none⟩ rfl⟩
  | @item n item items s ss front rest _ _ hcut _ ih =>
      obtain ⟨ks, ds, hpart, hparted⟩ := ih
      by_cases hexport : s.kind = .export
      · exact ⟨ks, s :: ds, part_cons_dropped hexport hpart, .dropped hcut.kind hexport hparted⟩
      by_cases hdeclaration : s.kind = .exportDeclaration
      · obtain ⟨declared, hdeclares⟩ := item.classify_eq_iff.mp (hcut.kind ▸ hdeclaration)
        obtain ⟨lead, between, body, htext, hkeyword, hdeclared, hoffsets⟩ := hcut.declares declared hdeclares
        have hstop := hcut.stop
        rw [eq_mk_of_fields hdeclaration hoffsets, htext] at *
        refine ⟨_, ds, part_cons_demoted hpart, .demoted hdeclares hkeyword (by omega) ?_ hparted⟩
        simp only [byteSize_append] at hstop hdeclared
        omega
      · refine ⟨s :: ks, ds, part_cons_kept hexport hdeclaration hpart, .kept hcut.kind hexport ?_ hparted⟩
        exact fun declared hdeclares => hdeclaration (hcut.kind.trans (item.classify_eq_iff.mpr ⟨declared, hdeclares⟩))

theorem Parted.kind_ne (h : Parted n items rest ss ks ds) :
    ∀ k ∈ ks, k.kind ≠ .export ∧ k.kind ≠ .exportDeclaration := by
  induction h with
  | blank => exact fun _ hk => absurd hk List.not_mem_nil
  | trivia hkind =>
      intro k hk
      obtain rfl := List.mem_singleton.mp hk
      rw [hkind]
      exact ⟨StatementKind.noConfusion, StatementKind.noConfusion⟩
  | @kept _ item _ _ _ s _ _ _ hkind hexport hplain _ ih =>
      refine List.forall_mem_cons.mpr ⟨⟨hexport, fun hdeclaration => ?_⟩, ih⟩
      obtain ⟨declared, hdeclares⟩ := item.classify_eq_iff.mp (hkind ▸ hdeclaration)
      exact hplain declared hdeclares
  | demoted _ _ _ _ _ ih => exact List.forall_mem_cons.mpr ⟨⟨StatementKind.noConfusion, StatementKind.noConfusion⟩, ih⟩
  | dropped _ _ _ ih => exact ih

/-- The statements that are dropped are the exports. -/
theorem Parted.dropped_eq (h : Parted n items rest ss ks ds) : ds = ss.filter fun s => s.kind == .export := by
  induction h with
  | blank => rfl
  | trivia hkind => rw [List.filter_cons_of_neg (by rw [hkind]; decide)]; rfl
  | kept _ hexport _ _ ih => rw [List.filter_cons_of_neg (by simpa using hexport), ih]
  | demoted _ _ _ _ _ ih => rw [List.filter_cons_of_neg (by simp), ih]
  | dropped _ hexport _ ih => rw [List.filter_cons_of_pos (by simpa using hexport), ← ih]

/-- Without exports there is nothing to demote or to drop. -/
theorem part_of_kind_ne (h : ∀ k ∈ ks, k.kind ≠ .export ∧ k.kind ≠ .exportDeclaration) : part ks = .ok (ks, []) := by
  induction ks with
  | nil => rfl
  | cons k ks ih =>
      obtain ⟨hk, hks⟩ := List.forall_mem_cons.mp h
      exact part_cons_kept hk.1 hk.2 (ih hks)

/-- Demotion parts the statements of a script exactly, for any parser whose items lie in the text in order, one beside
the other, with exports that start at their keyword and declarations that start in their items.  What it keeps are, in
order, the statements that are no exports and the exported declarations without the bytes from their keyword to their
declaration; what it drops are the other exports, in order.  No export is left, and a second demotion drops and changes
nothing. -/
theorem demote_parts (hitems : parser.parse? dialect.features text = some (items.map (Item.reported parser.origin)))
    (hordered : Ordered text 0 items)
    (hleads : ∀ item ∈ items, ∀ declared, item.Declares declared → Leads text item declared)
    (hprogram : parse parser text dialect context = .ok (.ok p)) :
    ∃ kept dropped, demote p = .ok (kept, dropped) ∧
      Parted 0 items text p.statements kept.statements dropped ∧
      (∀ s ∈ kept.statements, s.kind ≠ .export ∧ s.kind ≠ .exportDeclaration) ∧
      dropped = (p.statements.filter fun s => s.kind == .export) ∧ demote kept = .ok (kept, []) := by
  obtain ⟨q, hparse, hcuts, _⟩ := parse_loses_nothing context hitems hordered hleads
  obtain rfl : p = q := Except.ok.inj (Except.ok.inj (hprogram.symm.trans hparse))
  obtain ⟨ks, ds, hpart, hparted⟩ := hcuts.exists_part
  refine ⟨⟨ks⟩, ds, ?_, hparted, hparted.kind_ne, hparted.dropped_eq, ?_⟩
  · rw [demote, hpart]
    rfl
  · rw [demote, part_of_kind_ne hparted.kind_ne]
    rfl

/-! ## The statements of a script -/

/-- A text is cut at two offsets in order. -/
theorem exists_cut_between {body : List Char} {keyword start : Nat} (hle : keyword ≤ start)
    (hlength : start ≤ body.length) : ∃ front removed behind, body = front ++ removed ++ behind ∧
      keyword = front.length ∧ start = front.length + removed.length := by
  refine ⟨body.take keyword, (body.drop keyword).take (start - keyword), body.drop start, ?_, ?_, ?_⟩
  · have hsum : keyword + (start - keyword) = start := by omega
    have hbehind : (body.drop keyword).drop (start - keyword) = body.drop start := by
      rw [List.drop_drop, hsum]
    rw [← hbehind, List.append_assoc, List.take_append_drop, List.take_append_drop]
  · rw [List.length_take]
    omega
  · rw [List.length_take, List.length_take, List.length_drop]
    omega

/-- Between characters the same is left of an exported declaration as between their bytes. -/
theorem demoted?_inBytes (hinside : ∀ keyword start, s.declaration = some (keyword, start) →
    keyword ≤ start ∧ start ≤ s.text.length) : demoted? s.inBytes = .ok (s.demote.map Statement.inBytes) := by
  obtain ⟨kind, body, declaration⟩ := s
  cases declaration with
  | none => rfl
  | some offsets =>
      obtain ⟨keyword, start⟩ := offsets
      obtain ⟨hle, hlength⟩ := hinside keyword start rfl
      obtain ⟨front, removed, behind, rfl, rfl, rfl⟩ := exists_cut_between hle hlength
      have hkeyword := byteIndex_append front (removed ++ behind)
      have hstart := byteIndex_append (front ++ removed) behind
      rw [← List.append_assoc] at hkeyword
      rw [List.length_append, byteSize_append] at hstart
      have hkept : (front ++ removed ++ behind).take front.length ++
          (front ++ removed ++ behind).drop (front.length + removed.length) = front ++ behind := by
        rw [← List.length_append, List.drop_left, List.append_assoc, List.take_left]
      rw [demoted?, Statement.inBytes, Statement.demote]
      dsimp only [Option.map_some]
      rw [hkeyword, hstart, replaceRange_append, hkept, List.append_nil]
      rfl

/-- So are the same statements kept and dropped. -/
theorem part_inBytes (hinside : ∀ s ∈ ss, ∀ keyword start, s.declaration = some (keyword, start) →
    keyword ≤ start ∧ start ≤ s.text.length) :
    part (ss.map Statement.inBytes) = .ok ((Program.demote ⟨ss⟩).statements.map Statement.inBytes,
      (Program.dropped ⟨ss⟩).map Statement.inBytes) := by
  induction ss with
  | nil => rfl
  | cons s ss ih =>
      obtain ⟨hs, hss⟩ := List.forall_mem_cons.mp hinside
      have hrest := ih hss
      have hdemoted := demoted?_inBytes hs
      obtain ⟨kind, body, declaration⟩ := s
      rw [List.map_cons]
      cases kind with
      | exportDeclaration =>
          rw [part, hrest]
          show (demoted? _ >>= _) = _
          rw [hdemoted]
          cases declaration <;> rfl
      | «export» => exact part_cons_dropped rfl hrest
      | _ => exact part_cons_kept StatementKind.noConfusion StatementKind.noConfusion hrest

/-- The offsets that a statement has lie in it. -/
theorem CutFrom.offsets_le (h : CutFrom n items rest ss) : ∀ s ∈ ss, ∀ keyword start,
    s.declaration = some (keyword, start) → keyword ≤ start ∧ start ≤ byteSize s.text := by
  induction h with
  | blank h => exact fun _ hs => absurd hs List.not_mem_nil
  | trivia =>
      intro s hs keyword start hdeclaration
      obtain rfl := List.mem_singleton.mp hs
      cases hdeclaration
  | @item n item items s ss front rest hfront hstart hcut hrest ih =>
      refine List.forall_mem_cons.mpr ⟨fun keyword start hdeclaration => ?_, ih⟩
      have hkind : s.kind = .exportDeclaration := by
        by_contra hkind
        rw [hcut.plain fun declared hdeclares =>
          hkind (hcut.kind.trans (item.classify_eq_iff.mpr ⟨declared, hdeclares⟩))] at hdeclaration
        cases hdeclaration
      obtain ⟨keyword', start', hoffsets, hle⟩ :=
        (CutFrom.item hfront hstart hcut hrest).offsets s List.mem_cons_self hkind
      rw [hdeclaration] at hoffsets
      cases hoffsets
      exact hle

/-- Where the items that are read lie in a script as any parser has to report them, demotion keeps and drops what it
does when it cuts between characters. -/
theorem demote_inBytes (htrees : Module.parse? dialect.features text = some trees)
    (hordered : Ordered text 0 (itemsInBytes text trees))
    (hleads : ∀ item ∈ itemsInBytes text trees, ∀ declared, item.Declares declared → Leads text item declared)
    (hprogram : Program.parse text dialect context = .ok p) :
    demote p.inBytes = .ok (p.demote.inBytes, p.dropped.map Statement.inBytes) := by
  obtain ⟨q, hparse, hcuts, _⟩ := parse_loses_nothing context (parse?_itemParser htrees) hordered hleads
  obtain ⟨p', hprogram', hbytes⟩ := parse_itemParser context htrees hordered hleads
  obtain rfl : p = p' := Except.ok.inj (hprogram.symm.trans hprogram')
  obtain rfl : q = p.inBytes := Except.ok.inj (Except.ok.inj (hparse.symm.trans hbytes))
  have hinside : ∀ s ∈ p.statements, ∀ keyword start, s.declaration = some (keyword, start) →
      keyword ≤ start ∧ start ≤ s.text.length := by
    intro s hs keyword start hdeclaration
    have hle := hcuts.offsets_le s.inBytes (List.mem_map_of_mem hs) (byteIndex s.text keyword) (byteIndex s.text start)
      (by rw [Statement.inBytes, hdeclaration]; rfl)
    have hsize := byteIndex_append s.text []
    rw [List.append_nil] at hsize
    rw [Statement.inBytes, ← hsize] at hle
    exact ⟨(byteIndex_le_iff _).mp hle.1, (byteIndex_le_iff _).mp hle.2⟩
  rw [demote, Program.inBytes, part_inBytes hinside]
  rfl

/-- A comment in front of the keyword stays, one behind it goes with it. -/
theorem demote_parts_exports : ∃ trees p kept dropped, Module.parse? Dialect.tsx.features exportsText = some trees ∧
    parse itemParser exportsText .tsx "" = .ok (.ok p) ∧ demote p = .ok (kept, dropped) ∧
    Parted 0 (itemsInBytes exportsText trees) exportsText p.statements kept.statements dropped ∧
    kept.statements.map Statement.text =
      ["// ü\nconst a = 1;".toList, "function f() {}".toList, "// e".toList] ∧
    dropped.map Statement.text = ["export { a };".toList] := by
  obtain ⟨trees, htrees, hordered, hleads⟩ := exists_items_exports
  obtain ⟨q, hread, hbytes⟩ := parse_itemParser "" htrees hordered hleads
  obtain ⟨kept, dropped, hdemote, hparted, _⟩ := demote_parts (parse?_itemParser htrees) hordered hleads hbytes
  have hsame := hdemote.symm.trans (demote_inBytes htrees hordered hleads hread)
  obtain ⟨rfl, rfl⟩ := Prod.mk.inj (Except.ok.inj hsame)
  refine ⟨trees, _, _, _, htrees, hbytes, hdemote, hparted, ?_, ?_⟩
  · have hkept : (Program.parse exportsText .tsx "").map (fun p => p.demote.inBytes.statements.map Statement.text) =
        .ok ["// ü\nconst a = 1;".toList, "function f() {}".toList, "// e".toList] := by
      decide +kernel
    rw [hread] at hkept
    exact Except.ok.inj hkept
  · have hdropped : (Program.parse exportsText .tsx "").map
        (fun p => (p.dropped.map Statement.inBytes).map Statement.text) = .ok ["export { a };".toList] := by
      decide +kernel
    rw [hread] at hdropped
    exact Except.ok.inj hdropped

end Bytes
end Script
end StoryDocs
