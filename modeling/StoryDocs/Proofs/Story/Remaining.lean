import StoryDocs.Proofs.Story.Steady

/-!
# Reading what extraction leaves

`Remains` relates the nodes of a document to those that extraction leaves of them, with other texts in the
script blocks.  It goes through the nodes with the text behind them in view: what is left of the nodes is
recognised in its place if they were, and it looks the same to the prose before it.
-/

namespace StoryDocs

open Text Markup

/-! ## What remains of nodes -/

/-- Where a list of nodes starts in what extraction leaves. -/
inductive Spot where
  /-- Behind a node that was kept. -/
  | inline
  /-- At the start of a line. -/
  | fresh
  /-- Behind a story that was removed with its line. -/
  | removed
  deriving DecidableEq

/-- What extraction leaves of nodes, where script blocks get other texts. -/
inductive Remains (ns : List Char) : Bool → Spot → List Node → List Node → Prop
  | nil (outside : Bool) (spot : Spot) : Remains ns outside spot [] []
  | text {outside : Bool} {spot : Spot} {value : List Char} {rest ms : List Node} (hspot : spot ≠ .removed)
      (hnext : ∀ v, rest.head? ≠ some (.text v))
      (hticks : outside = false ∨ rest ≠ [] →
        startsWith fenceTicks ((lastLine value).dropWhile isIndent) = false)
      (hrest : Remains ns outside .inline rest ms) :
      Remains ns outside spot (.text value :: rest) (.text value :: ms)
  /-- The indent before a removed story is dropped. -/
  | trimmed {outside : Bool} {spot : Spot} {value indent : List Char} {tag : Tag}
      {children rest ms : List Node} (hspot : spot ≠ .removed) (hfeed : value.getLast? = some '\n')
      (hindent : indent.all isIndent = true)
      (hrest : Remains ns outside .fresh (.element tag children :: rest) ms) :
      Remains ns outside spot (.text (value ++ indent) :: .element tag children :: rest)
        (.text value :: ms)
  /-- The indent can be all of the prose at the start of a line. -/
  | indent {outside : Bool} {indent : List Char} {tag : Tag} {children rest ms : List Node}
      (hindent : indent.all isIndent = true)
      (hrest : Remains ns outside .fresh (.element tag children :: rest) ms) :
      Remains ns outside .fresh (.text indent :: .element tag children :: rest) ms
  | script {spot : Spot} {old new : List Char} {rest ms : List Node} (hblock : Block new)
      (hruns : RunsKept old new) (hrest : Remains ns true .inline rest ms) :
      Remains ns true spot (.script old :: rest) (.script new :: ms)
  | expression {outside flow : Bool} {spot : Spot} {value : List Char} {rest ms : List Node}
      (hgroup : ∀ s, groupLength? ('\x7b' :: value ++ '\x7d' :: s) = some (value.length + 2))
      (hrest : Remains ns outside .inline rest ms) :
      Remains ns outside spot (.expression value flow :: rest) (.expression value flow :: ms)
  | kept {outside : Bool} {spot : Spot} {tag : Tag} {source : TagSource}
      {children inner rest ms : List Node} (hsource : tag.source = some source)
      (hfirm : ∀ s, readOpeningTag (source.opening ++ s) = readOpeningTag source.opening)
      (hchildren : Remains ns false .inline children inner) (hrest : Remains ns outside .inline rest ms) :
      Remains ns outside spot (.element tag children :: rest) (.element tag inner :: ms)
  | metadata {outside : Bool} {spot : Spot} {tag : Tag} {children rest ms : List Node}
      (hname : tag.name = metaElement) (hchildren : Steady false false children)
      (hindented : Indented false children) (hrest : Remains ns outside .inline rest ms) :
      Remains ns outside spot (.element tag children :: rest)
        (.element (tag.withAttributes [reference ns]) children :: ms)
  | named {outside : Bool} {spot : Spot} {tag : Tag} {key : List Char} {children rest ms : List Node}
      (hname : tag.name = storyElement) (hkey : key.all isPlain = true)
      (hrest : Remains ns outside .inline rest ms) :
      Remains ns outside spot (.element tag children :: rest)
        (.element (tag.withAttributes [reference (ns ++ '.' :: key)]) [] :: ms)
  | removed {outside : Bool} {tag : Tag} {children rest ms : List Node}
      (hrest : Remains ns outside .removed rest ms) :
      Remains ns outside .fresh (.element tag children :: rest) ms
  /-- Blanks behind a removed story are dropped. -/
  | blank {outside : Bool} {value : List Char} {rest ms : List Node} (hblank : allBlank value = true)
      (hnext : ∀ v, rest.head? ≠ some (.text v)) (hrest : Remains ns outside .fresh rest ms) :
      Remains ns outside .removed (.text value :: rest) ms
  /-- So are blank lines before other prose. -/
  | stripped {outside : Bool} {blanks value : List Char} {rest ms : List Node}
      (hblank : allBlank blanks = true) (hfeed : blanks.getLast? = some '\n') (hne : value ≠ [])
      (hrest : Remains ns outside .inline (.text value :: rest) ms) :
      Remains ns outside .removed (.text (blanks ++ value) :: rest) ms

/-! ## Starts of lines -/

namespace Markup.Reads

variable {outside line line' : Bool} {ns : List Node} {rest : List Char}

/-- Whether a line starts before nodes matters for prose that does not start with a line feed, and for
script blocks, which need it. -/
theorem relined (h : Reads outside line ns rest)
    (hline : line' = line ∨ Node.printAll ns ++ rest = [] ∨ (Node.printAll ns ++ rest).head? = some '\n' ∨
      (line' = true ∧ ∀ v, ns.head? ≠ some (.text v))) : Reads outside line' ns rest := by
  cases h with
  | nil => exact .nil _ _ _
  | @text _ _ value _ ns hne hprose hrest =>
      rw [lineAfter_of_ne_nil hne line line'] at hrest
      rcases hline with rfl | hend | hfeed | ⟨_, htext⟩
      · exact .text hne hprose hrest
      · simp [Node.print, hne] at hend
      · obtain ⟨c, value, rfl⟩ := List.exists_cons_of_ne_nil hne
        obtain rfl : c = '\n' := by simpa [Node.print] using hfeed
        exact .text hne (hprose.of_feed_head line') hrest
      · exact absurd rfl (htext value)
  | @script value _ ns hstart htaken hrest =>
      have hline' : line' = true := by
        obtain ⟨c, tail, hcons, hc⟩ := startsScript_head hstart
        have hhead : Node.printAll (.script value :: ns) ++ rest = c :: tail := by
          rw [← hcons, Node.printAll_cons, Node.print, List.append_assoc]
        rcases hline with hline | hend | hfeed | ⟨hline, _⟩
        · exact hline
        · rw [hhead] at hend
          cases hend
        · rw [hhead] at hfeed
          rcases hc with rfl | rfl
          · cases hfeed
          · cases hfeed
        · exact hline
      subst hline'
      exact .script hstart htaken hrest
  | expression hgroup hrest => exact .expression hgroup hrest
  | childless hsource hopening hrest => exact .childless hsource hopening hrest
  | enclosing hsource hprint hopening hchildren hclosing hrest =>
      exact .enclosing hsource hprint hopening hchildren hclosing hrest

/-- A script block starts a line with a letter. -/
theorem of_script {v : List Char} (h : Reads outside line ns rest) (hscript : ns.head? = some (.script v)) :
    line = true ∧ ∃ c s, Node.printAll ns ++ rest = c :: s ∧ (c = 'i' ∨ c = 'e') := by
  obtain ⟨ns, rfl⟩ := List.head?_eq_some_iff.mp hscript
  cases h with
  | script hstart _ _ =>
      refine ⟨rfl, ?_⟩
      rw [Node.printAll_cons, Node.print, List.append_assoc]
      exact startsScript_head hstart

/-- An element in its place starts and ends with a bracket. -/
theorem of_element {tag : Tag} {children : List Node}
    (h : Reads outside line (.element tag children :: ns) rest) :
    (Node.print (.element tag children)).head? = some '<' ∧
      (Node.print (.element tag children)).getLast? = some '>' ∧ Reads outside false ns rest := by
  cases h with
  | childless _ hopening hrest => exact ⟨hopening.bracket, hopening.opening_getLast?, hrest⟩
  | enclosing _ hprint hopening _ hclosing hrest =>
      refine ⟨?_, ?_, hrest⟩
      · rw [hprint, List.append_assoc, List.head?_append, hopening.bracket]
        rfl
      · rw [hprint, List.getLast?_append, hclosing.closing_getLast?]
        rfl

end Markup.Reads

/-! ## Reading what remains, node by node -/

/-- What remains of nodes is in its place, and it looks to what stands before it as they did: it has no new
matches for runs of backticks, and where a line goes on, the next characters are the same. -/
structure Reread (outside line : Bool) (spot : Spot) (ns ms : List Node) (rest rest' : List Char) : Prop where
  reads : Reads outside line ms rest'
  runs : RunsKept (Node.printAll ns ++ rest) (Node.printAll ms ++ rest')
  alike : spot = .inline → (∀ v, ns.head? ≠ some (.script v)) →
    Alike (Node.printAll ns ++ rest) (Node.printAll ms ++ rest')
  gap : spot = .inline → Gap (Node.printAll ns ++ rest) → Gap (Node.printAll ms ++ rest')

theorem printAll_cons_append (n : Node) (ns : List Node) (rest : List Char) :
    Node.printAll (n :: ns) ++ rest = n.print ++ (Node.printAll ns ++ rest) := by
  rw [Node.printAll_cons, List.append_assoc]

theorem printAll_text_append (value : List Char) (ns : List Node) (rest : List Char) :
    Node.printAll (.text value :: ns) ++ rest = value ++ (Node.printAll ns ++ rest) := by
  rw [printAll_cons_append, Node.print]

/-- No gap starts with another character than a line feed. -/
theorem not_gap {c : Char} {s : List Char} (hhead : s.head? = some c) (hc : c ≠ '\n') : ¬ Gap s := by
  rintro (rfl | ⟨rest, rfl, _⟩)
  · cases hhead
  · exact hc (Option.some.inj hhead).symm

namespace Reread

variable {outside line : Bool} {spot : Spot} {ns ms : List Node} {rest rest' value : List Char} {tag : Tag}
  {children : List Node}

theorem nil (hbounded : Bounded outside rest) (halike : Alike rest rest') :
    Reread outside line spot [] [] rest rest' where
  reads := .nil _ _ _
  runs := halike.runsKept
  alike := fun _ _ => halike
  gap := by
    intro _ hgap
    cases outside with
    | true =>
        have hend := hbounded.1 rfl
        subst hend
        exact .inl (halike.eq_nil_iff.mp rfl)
    | false => exact absurd hgap (not_gap (hbounded.2 rfl) (by decide))

/-- What goes on alike also has no new matches for runs of backticks. -/
theorem of_alike (hreads : Reads outside line ms rest')
    (halike : Alike (Node.printAll ns ++ rest) (Node.printAll ms ++ rest'))
    (hgap : Gap (Node.printAll ns ++ rest) → Gap (Node.printAll ms ++ rest')) :
    Reread outside line spot ns ms rest rest' :=
  ⟨hreads, halike.runsKept, fun _ _ => halike, fun _ => hgap⟩

/-- An element becomes an element. -/
theorem of_heads (hreads : Reads outside line ms rest')
    (hhead : (Node.printAll ns ++ rest).head? = some '<')
    (hhead' : (Node.printAll ms ++ rest').head? = some '<')
    (hruns : RunsKept (Node.printAll ns ++ rest) (Node.printAll ms ++ rest')) :
    Reread outside line spot ns ms rest rest' :=
  of_alike hreads (.of_heads hhead hhead' hruns) fun hgap => absurd hgap (not_gap hhead (by decide))

/-- Behind a line feed the rest of the text is read by itself. -/
theorem of_lines (hspot : spot ≠ .inline) (hreads : Reads outside line ms rest')
    (hruns : RunsKept (Node.printAll ns ++ rest) (Node.printAll ms ++ rest')) :
    Reread outside line spot ns ms rest rest' :=
  ⟨hreads, hruns, fun h => absurd h hspot, fun h => absurd h hspot⟩

/-! ### Prose -/

theorem text (hreads : Reads outside line (.text value :: ns) rest) (hbounded : Bounded outside rest)
    (hnext : ∀ v, ns.head? ≠ some (.text v))
    (hticks : outside = false ∨ ns ≠ [] →
      startsWith fenceTicks ((lastLine value).dropWhile isIndent) = false)
    (h : Reread outside (lineAfter line value) .inline ns ms rest rest') :
    Reread outside line spot (.text value :: ns) (.text value :: ms) rest rest' := by
  cases hreads with
  | text hne hprose hns =>
      by_cases hscript : ∀ v, ns.head? ≠ some (.script v)
      · have halike := h.alike rfl hscript
        refine of_alike (.text hne (hprose.alike halike
          (hns.unfenced hbounded hnext hscript hticks line)) h.reads) ?_ ?_
        · rw [printAll_text_append, printAll_text_append]
          exact halike.append value
        · rw [printAll_text_append, printAll_text_append]
          exact fun hgap => hgap.of_alike hne halike
      · -- A script block starts a line, so the prose ends with a line feed.
        obtain ⟨v, hv⟩ : ∃ v, ns.head? = some (.script v) := by simpa using hscript
        obtain ⟨hline, c, s, hcons, hc⟩ := hns.of_script hv
        have hfeed := (eq_nil_or_feed_of_lineAfter hline).resolve_left hne
        have hblank : lineIsBlank (Node.printAll ns ++ rest) = false := by
          rw [hcons]
          rcases hc with rfl | rfl
          · rfl
          · rfl
        refine of_alike (.text hne (hprose.feed hfeed (by rw [hcons]; exact List.cons_ne_nil c s) h.runs)
          h.reads) ?_ ?_
        · rw [printAll_text_append, printAll_text_append]
          exact .of_feed hfeed h.runs
        · rw [printAll_text_append, printAll_text_append]
          exact fun hgap => hgap.of_feed hfeed hblank _

/-- Blanks hold no backticks. -/
theorem tick_not_mem_of_blank {s : List Char} (h : allBlank s = true) : '\x60' ∉ s := by
  intro hmem
  exact absurd (List.all_eq_true.mp h _ hmem) (by decide)

theorem allBlank_of_indent {s : List Char} (h : s.all isIndent = true) : allBlank s = true :=
  List.all_eq_true.mpr fun c hc => isBlank_of_isIndent (List.all_eq_true.mp h c hc)

/-- A line that goes on with a bracket is not blank. -/
theorem lineIsBlank_indent {indent s : List Char} (hindent : indent.all isIndent = true)
    (hs : s.head? = some '<') : lineIsBlank (indent ++ s) = false := by
  obtain ⟨s, rfl⟩ := List.head?_eq_some_iff.mp hs
  have hline : ∀ c ∈ indent, (c != '\n') = true := by
    intro c hc
    have hblank := List.all_eq_true.mp hindent c hc
    rw [bne_iff_ne]
    rintro rfl
    cases hblank
  rw [lineIsBlank, restOfLine, List.takeWhile_append_of_pos hline]
  simp [isAsciiBlank]

theorem trimmed {indent : List Char} (hfeed : value.getLast? = some '\n')
    (hindent : indent.all isIndent = true)
    (hreads : Reads outside line (.text (value ++ indent) :: .element tag children :: ns) rest)
    (h : Reread outside true .fresh (.element tag children :: ns) ms rest rest') :
    Reread outside line spot (.text (value ++ indent) :: .element tag children :: ns) (.text value :: ms)
      rest rest' := by
  have hne : value ≠ [] := by
    rintro rfl
    cases hfeed
  cases hreads with
  | text _ hprose hns =>
      obtain ⟨hbracket, _, _⟩ := hns.of_element
      have hhead : (Node.printAll (.element tag children :: ns) ++ rest).head? = some '<' := by
        rw [printAll_cons_append, List.head?_append, hbracket]
        rfl
      have hruns := RunsKept.drop (tick_not_mem_of_blank (allBlank_of_indent hindent)) h.runs
      have hbehind : indent ++ (Node.printAll (.element tag children :: ns) ++ rest) ≠ [] := by
        intro hnil
        rw [(List.append_eq_nil_iff.mp hnil).2] at hhead
        cases hhead
      have hblank := lineIsBlank_indent hindent hhead
      have hprose' := (hprose.before_indent (.inr hfeed) hindent hhead).feed hfeed hbehind hruns
      refine of_alike (.text hne hprose' (by rw [lineAfter_of_feed hfeed]; exact h.reads)) ?_ ?_
      · rw [printAll_text_append, printAll_text_append, List.append_assoc]
        exact .of_feed hfeed hruns
      · rw [printAll_text_append, printAll_text_append, List.append_assoc]
        exact fun hgap => hgap.of_feed hfeed hblank _

theorem indent {indent : List Char} (hindent : indent.all isIndent = true)
    (h : Reread outside true .fresh (.element tag children :: ns) ms rest rest') :
    Reread outside true .fresh (.text indent :: .element tag children :: ns) ms rest rest' := by
  refine of_lines (by decide) h.reads ?_
  rw [printAll_text_append]
  exact .drop (tick_not_mem_of_blank (allBlank_of_indent hindent)) h.runs

theorem blank (hblank : allBlank value = true) (h : Reread outside true .fresh ns ms rest rest') :
    Reread outside true .removed (.text value :: ns) ms rest rest' := by
  refine of_lines (by decide) h.reads ?_
  rw [printAll_text_append]
  exact .drop (tick_not_mem_of_blank hblank) h.runs

theorem stripped {blanks : List Char} (hblank : allBlank blanks = true)
    (h : Reread outside true .inline (.text value :: ns) ms rest rest') :
    Reread outside true .removed (.text (blanks ++ value) :: ns) ms rest rest' := by
  refine of_lines (by decide) h.reads ?_
  have hruns := h.runs
  rw [printAll_text_append] at hruns ⊢
  rw [List.append_assoc]
  exact .drop (tick_not_mem_of_blank hblank) hruns

/-! ### Script blocks and expressions -/

theorem script {old new : List Char} (hreads : Reads true line (.script old :: ns) rest)
    (hblock : Block new) (hruns : RunsKept old new)
    (h : Reads true (lineAfter true new) ns rest →
      Reread true (lineAfter true new) .inline ns ms rest rest') :
    Reread true line spot (.script old :: ns) (.script new :: ms) rest rest' := by
  obtain ⟨hline, c, s, hcons, hc⟩ := hreads.of_script rfl
  subst hline
  have hprint : ∀ (v : List Char) (ks : List Node) (s : List Char),
      Node.printAll (.script v :: ks) ++ s = v ++ (Node.printAll ks ++ s) := by
    intro v ks s
    rw [printAll_cons_append, Node.print]
  cases hreads with
  | script hstart htaken hns =>
      have hgap : Gap (Node.printAll ns ++ rest) := by
        have hdrop := List.take_append_drop (scriptLength (old ++ (Node.printAll ns ++ rest)))
          (old ++ (Node.printAll ns ++ rest))
        rw [htaken] at hdrop
        rw [← List.append_cancel_left hdrop]
        exact scriptLength_gap _
      -- Behind the block a line ends, whether a line starts there or not.
      have hrest := h (hns.relined (.inr (hgap.head.imp_right .inl)))
      have hgap' := hrest.gap rfl hgap
      obtain ⟨hstart', hlength⟩ := hblock _ hgap'
      refine ⟨.script hstart' (by rw [hlength, List.take_left]) hrest.reads, ?_, ?_, ?_⟩
      · rw [hprint, hprint]
        exact hruns.join_lines hgap.head hgap'.head hrest.runs
      · exact fun _ hscript => absurd rfl (hscript old)
      · intro _ hgap
        refine absurd hgap (not_gap (by rw [hcons]; rfl) ?_)
        rcases hc with rfl | rfl
        · decide
        · decide

theorem expression {flow : Bool} (hreads : Reads outside line (.expression value flow :: ns) rest)
    (hgroup : ∀ s, groupLength? ('\x7b' :: value ++ '\x7d' :: s) = some (value.length + 2))
    (h : Reread outside false .inline ns ms rest rest') :
    Reread outside line spot (.expression value flow :: ns) (.expression value flow :: ms) rest rest' := by
  cases hreads with
  | expression _ hns =>
      have hscript : ∀ v, ns.head? ≠ some (.script v) :=
        fun v hv => Bool.false_ne_true (hns.of_script hv).1
      refine of_alike (.expression (hgroup _) h.reads) ?_ ?_
      · rw [printAll_cons_append, printAll_cons_append]
        exact (h.alike rfl hscript).append _
      · exact fun hgap => absurd hgap (not_gap (c := '\x7b') rfl (by decide))

/-! ### Elements -/

/-- What starts with the text of an element starts with a bracket. -/
theorem head_element {n : Node} (h : n.print.head? = some '<') (ns : List Node) (rest : List Char) :
    (Node.printAll (n :: ns) ++ rest).head? = some '<' := by
  rw [printAll_cons_append, List.head?_append, h]
  rfl

theorem removed (hreads : Reads outside line (.element tag children :: ns) rest)
    (h : Reread outside true .removed ns ms rest rest') :
    Reread outside true .fresh (.element tag children :: ns) ms rest rest' := by
  obtain ⟨_, hlast, _⟩ := hreads.of_element
  refine of_lines (by decide) h.reads ?_
  rw [printAll_cons_append]
  exact .replace (v := []) hlast List.not_mem_nil h.runs

theorem kept {inner : List Node} {source : TagSource}
    (hreads : Reads outside line (.element tag children :: ns) rest) (hsource : tag.source = some source)
    (hfirm : ∀ s, readOpeningTag (source.opening ++ s) = readOpeningTag source.opening)
    (hempty : children = [] → inner = [])
    (hchildren : ∀ {s s' : List Char}, Reads false false children s → s.head? = some '<' → Alike s s' →
      Reread false false .inline children inner s s')
    (h : Reread outside false .inline ns ms rest rest') :
    Reread outside line spot (.element tag children :: ns) (.element tag inner :: ms) rest rest' := by
  obtain ⟨hhead, hlast, _⟩ := hreads.of_element
  cases hreads with
  | childless hwritten hopening _ =>
      obtain rfl := hempty rfl
      rw [hwritten _ hsource] at hfirm
      refine of_heads (.childless hwritten (hopening.opening_firm hfirm _) h.reads) (head_element hhead _ _)
        (head_element hhead _ _) ?_
      rw [printAll_cons_append, printAll_cons_append]
      exact .behind_bracket hlast h.runs
  | @enclosing _ _ _ _ opening closing _ _ hwritten hprint hopening hinner hclosing _ =>
      have hsame := hwritten _ hsource
      subst hsame
      have hprint' : Node.print (.element tag inner) = opening ++ Node.printAll inner ++ closing := by
        simp [Node.print, Tag.print, hsource]
      have hhead' : (Node.print (.element tag inner)).head? = some '<' := by
        rw [hprint', List.append_assoc, List.head?_append, hopening.bracket]
        rfl
      have hclose : ∀ s : List Char, (closing ++ s).head? = some '<' := by
        intro s
        rw [List.head?_append, hclosing.bracket]
        rfl
      -- The children are read up to the closing tag, whatever is behind that.
      have halike := Alike.of_heads (hclose _) (hclose _)
        (RunsKept.behind_bracket hclosing.closing_getLast? h.runs)
      have hinner' := hchildren hinner (hclose _) halike
      refine of_heads (.enclosing hwritten hprint' (hopening.opening_firm hfirm _) hinner'.reads
        (hclosing.closing_exchange _) h.reads) (head_element hhead _ _) (head_element hhead' _ _) ?_
      rw [printAll_cons_append, printAll_cons_append, hprint, hprint']
      simpa using RunsKept.behind_bracket hopening.opening_getLast? hinner'.runs

/-- An element becomes a reference without children. -/
theorem alone {target : List Char} (hreads : Reads outside line (.element tag children :: ns) rest)
    (hname : tag.name = metaElement ∨ tag.name = storyElement) (htarget : target.all isPlain = true)
    (h : Reread outside false .inline ns ms rest rest') :
    Reread outside line spot (.element tag children :: ns)
      (.element (tag.withAttributes [reference target]) [] :: ms) rest rest' := by
  obtain ⟨hhead, hlast, _⟩ := hreads.of_element
  have hne : tag.name ≠ [] := by
    rcases hname with hname | hname
    · rw [hname]
      decide
    · rw [hname]
      decide
  have hprint : Node.print (.element (tag.withAttributes [reference target]) []) =
      '<' :: tag.name ++ " of=\x7b".toList ++ target ++ '\x7d' :: " />".toList :=
    print_reference_alone tag target hne
  have htagged : Tagged (.opening ⟨tag.name, ⟨[reference target], true⟩⟩)
      (Node.print (.element (tag.withAttributes [reference target]) [])) (Node.printAll ms ++ rest') := by
    rw [hprint]
    exact tagged_reference hname htarget (fun _ _ => rfl) _
  refine of_heads (.childless (fun _ hsource => by cases hsource) htagged h.reads) (head_element hhead _ _)
    (head_element htagged.bracket _ _) ?_
  rw [printAll_cons_append, printAll_cons_append, hprint]
  exact .replace hlast (tick_not_mem_reference hname htarget (by decide)) h.runs

/-- The closing tag that is written for metadata. -/
theorem tagged_closing_metadata (rest : List Char) :
    Tagged (.closing metaElement) ('<' :: '/' :: metaElement ++ ['>']) rest :=
  ⟨rfl, Piece.ofBracket_eq_closing_iff.mpr ⟨rfl, rfl⟩⟩

/-- Metadata with children become a reference around them. -/
theorem around {target : List Char} (hreads : Reads outside line (.element tag children :: ns) rest)
    (hname : tag.name = metaElement) (htarget : target.all isPlain = true) (hne : children ≠ [])
    (hsteady : Steady false false children) (hindented : Indented false children)
    (h : Reread outside false .inline ns ms rest rest') :
    Reread outside line spot (.element tag children :: ns)
      (.element (tag.withAttributes [reference target]) children :: ms) rest rest' := by
  obtain ⟨hhead, _, _⟩ := hreads.of_element
  cases hreads with
  | childless => exact absurd rfl hne
  | @enclosing _ _ _ _ opening closing _ _ _ hprint hopening hinner hclosing _ =>
      have hprint' : Node.print (.element (tag.withAttributes [reference target]) children) =
          ('<' :: tag.name ++ " of=\x7b".toList ++ target ++ '\x7d' :: ">".toList) ++
            Node.printAll children ++ ('<' :: '/' :: tag.name ++ ['>']) :=
        print_reference_around tag target hne
      have hopening' : ∀ s, Tagged (.opening ⟨tag.name, ⟨[reference target], false⟩⟩)
          ('<' :: tag.name ++ " of=\x7b".toList ++ target ++ '\x7d' :: ">".toList) s :=
        tagged_reference (.inl hname) htarget (fun _ _ => rfl)
      have hclosing' : ∀ s, Tagged (.closing tag.name) ('<' :: '/' :: tag.name ++ ['>']) s := by
        rw [hname]
        exact tagged_closing_metadata
      have htick : '\x60' ∉ '<' :: '/' :: tag.name ++ ['>'] := by
        rw [hname]
        decide
      -- The children stand before a closing tag, as they did.
      have hbracket : (closing ++ (Node.printAll ns ++ rest)).head? = some '<' := by
        rw [List.head?_append, hclosing.bracket]
        rfl
      have halike : Alike (closing ++ (Node.printAll ns ++ rest))
          (('<' :: '/' :: tag.name ++ ['>']) ++ (Node.printAll ms ++ rest')) :=
        .of_heads hbracket rfl (.replace hclosing.closing_getLast? htick h.runs)
      have hchildren := hinner.steady rfl hsteady hindented hbracket halike
      refine of_heads (.enclosing (fun _ hsource => by cases hsource) hprint' (hopening' _) hchildren
        (hclosing' _) h.reads) (head_element hhead _ _) (head_element ?_ _ _) ?_
      · rw [hprint']
        rfl
      · rw [printAll_cons_append, printAll_cons_append, hprint, hprint']
        have hruns := RunsKept.replace hopening.opening_getLast?
          (tick_not_mem_reference (.inl hname) htarget (by decide : '\x60' ∉ ">".toList))
          (halike.append (Node.printAll children)).runsKept
        simpa only [List.append_assoc] using hruns

end Reread

/-- Whether a line starts before a node that is no prose does not matter. -/
theorem Markup.Reads.at_spot {outside line line' : Bool} {spot : Spot} {nodes : List Node} {rest : List Char}
    (h : Reads outside line nodes rest) (htext : ∀ v, nodes.head? ≠ some (.text v))
    (hline : spot ≠ .removed → line' = line) (hfresh : spot ≠ .inline → line' = true) :
    Reads outside line' nodes rest := by
  by_cases hspot : spot = .removed
  · subst hspot
    exact h.relined (.inr (.inr (.inr ⟨hfresh (by decide), htext⟩)))
  · exact h.relined (.inl (hline hspot))

/-- What remains of nodes is in its place if the nodes were. -/
theorem Remains.reread {ns : List Char} {outside : Bool} {spot : Spot} {nodes ms : List Node}
    (h : Remains ns outside spot nodes ms) (hns : ns.all isPlain = true) {line line' : Bool}
    {rest rest' : List Char} (hreads : Reads outside line nodes rest) (hbounded : Bounded outside rest)
    (halike : Alike rest rest') (hline : spot ≠ .removed → line' = line)
    (hfresh : spot ≠ .inline → line' = true) : Reread outside line' spot nodes ms rest rest' := by
  -- Behind a node that was kept, a line starts or not as before.
  have hinline : ∀ {line : Bool}, Spot.inline ≠ .inline → line = true := fun hne => absurd rfl hne
  induction h generalizing line line' rest rest' with
  | nil outside spot => exact .nil hbounded halike
  | text hspot hnext hticks _ ih =>
      obtain rfl := hline hspot
      refine .text hreads hbounded hnext hticks ?_
      cases hreads with
      | text _ _ hrest => exact ih hrest hbounded halike (fun _ => rfl) hinline
  | trimmed hspot hfeed hindent _ ih =>
      obtain rfl := hline hspot
      refine .trimmed hfeed hindent hreads ?_
      cases hreads with
      | text _ _ hrest =>
          rw [lineAfter_append] at hrest
          exact ih (hrest.relined (.inr (.inr (.inr ⟨rfl, by simp⟩)))) hbounded halike (fun _ => rfl)
            (fun _ => rfl)
  | indent hindent _ ih =>
      obtain rfl := hfresh (by decide)
      refine .indent hindent ?_
      cases hreads with
      | text _ _ hrest =>
          exact ih (hrest.relined (.inr (.inr (.inr ⟨rfl, by simp⟩)))) hbounded halike (fun _ => rfl)
            (fun _ => rfl)
  | script hblock hruns _ ih =>
      refine .script (hreads.at_spot (by simp) hline hfresh) hblock hruns fun hrest => ?_
      exact ih hrest hbounded halike (fun _ => rfl) hinline
  | expression hgroup _ ih =>
      refine .expression (hreads.at_spot (by simp) hline hfresh) hgroup ?_
      cases hreads with
      | expression _ hrest => exact ih hrest hbounded halike (fun _ => rfl) hinline
  | kept hsource hfirm hinner _ ihc ih =>
      obtain ⟨_, _, hrest⟩ := hreads.of_element
      refine .kept (hreads.at_spot (by simp) hline hfresh) hsource hfirm ?_ ?_ ?_
      · rintro rfl
        cases hinner
        rfl
      · intro s s' hchildren hhead halike
        exact ihc hchildren ⟨Bool.noConfusion, fun _ => hhead⟩ halike (fun _ => rfl) hinline
      · exact ih hrest hbounded halike (fun _ => rfl) hinline
  | @metadata _ _ _ children _ _ hname hsteady hindented _ ih =>
      obtain ⟨_, _, hrest⟩ := hreads.of_element
      have hbehind := ih hrest hbounded halike (fun _ => rfl) hinline
      have hreads' := hreads.at_spot (by simp) hline hfresh
      by_cases hne : children = []
      · subst hne
        exact .alone hreads' (.inl hname) hns hbehind
      · exact .around hreads' hname hns hne hsteady hindented hbehind
  | named hname hkey _ ih =>
      obtain ⟨_, _, hrest⟩ := hreads.of_element
      refine .alone (hreads.at_spot (by simp) hline hfresh) (.inr hname) ?_
        (ih hrest hbounded halike (fun _ => rfl) hinline)
      rw [List.all_append, List.all_cons, hns, hkey]
      decide
  | removed _ ih =>
      obtain rfl := hfresh (by decide)
      obtain ⟨_, _, hrest⟩ := hreads.of_element
      exact .removed hreads (ih hrest hbounded halike (fun hne => absurd rfl hne) (fun _ => rfl))
  | blank hblank hnext _ ih =>
      obtain rfl := hfresh (by decide)
      refine .blank hblank ?_
      cases hreads with
      | text _ _ hrest =>
          exact ih (hrest.relined (.inr (.inr (.inr ⟨rfl, hnext⟩)))) hbounded halike (fun _ => rfl)
            (fun _ => rfl)
  | stripped hblank hfeed hne _ ih =>
      obtain rfl := hfresh (by decide)
      refine .stripped hblank ?_
      cases hreads with
      | text _ hprose hrest =>
          rw [lineAfter_append, lineAfter_of_ne_nil hne _ true] at hrest
          exact ih (.text hne (hprose.behind_blank hblank hfeed) hrest) hbounded halike (fun _ => rfl)
            hinline

end StoryDocs
