import StoryDocs.Proofs.Markup.Bytes.Sight
import StoryDocs.Proofs.Markup.Positions

/-!
# Reading a document byte by byte

The reader of nodes and elements on byte indexes: node lists call it for the elements between them, and
elements for their children.  `Follows` says what the reader of characters does from the state that belongs
to an index, and an induction on the bytes that are left shows that every call does the same.
-/

namespace StoryDocs
namespace Markup
namespace Bytes

open Text

/-! ## The reader -/

/-- The name of an open element and where it starts. -/
abbrev Parent := List Char × Position

section Definitions

variable (src : List Char)

/-- Make a node of the text between two indexes, if there is any. -/
def flush (nodes : List Node) (start i : Nat) : Checked (List Node) :=
  if start < i then do
    let text ← slice src start i
    return .text text :: nodes
  else .ok nodes

/-- Read the closing tag of an element with the given tag and children. -/
def closeElement (tag : Tag) (opening : List Char) (children : List Node) (close : Nat) :
    Checked (Node × Nat) := do
  let (name, next) ← readClosingTag src close
  if name != tag.name then do
    let place ← position src close
    .error (.error ⟨.mismatched (String.ofList tag.name) (String.ofList name), place⟩)
  else do
    let closing ← slice src close next
    return (.element { tag with source := some ⟨opening, some closing⟩ } children, next)

/-- Read an element; `children` reads the nodes behind its opening tag. -/
def readElement (children : Parent → Nat → Checked (List Node × Nat)) (i : Nat) :
    Checked (Node × Nat) := do
  let place ← position src i
  let flow ← startsLine (octets src) i
  let (t, next) ← readOpeningTag src i
  let opening ← slice src i next
  let tag : Tag :=
    { name := t.name, attributes := t.tagEnd.attributes, flow := flow, position := place }
  if t.tagEnd.selfClosing then
    return (.element { tag with source := some ⟨opening, none⟩ } [], next)
  else do
    let (nodes, close) ← children (t.name, place) next
    closeElement src tag opening nodes close

/-- End a list of nodes at the end of the text. -/
def endAtText (nodes : List Node) (start i : Nat) : Option Parent → Checked (List Node × Nat)
  | some (name, place) => .error (.error ⟨.unclosed (String.ofList name), place⟩)
  | none => do
    let nodes ← flush src nodes start i
    return (nodes.reverse, i)

/-- End a list of nodes at a closing tag, which belongs to the parent. -/
def endAtClosing (nodes : List Node) (start i : Nat) : Option Parent → Checked (List Node × Nat)
  | some _ => do
    let nodes ← flush src nodes start i
    return (nodes.reverse, i)
  | none => do
    let place ← position src i
    let (name, _) ← readClosingTag src i
    .error (.error ⟨.stray (String.ofList name), place⟩)

/-- Read nodes from an index on, up to the end of the text or the closing tag of the parent; the text from
`start` on is not yet a node, and the nodes before it stand with the last one first. -/
def readNodes : Nat → Option Parent → List Node → Nat → Nat → Checked (List Node × Nat)
  | 0, _, _, _, _ => .error (.panic .endless)
  | bound + 1, parent, nodes, start, i =>
    if byteSize src ≤ i then endAtText src nodes start i parent
    else do
      match ← sight src parent.isNone i with
      | .prose next => readNodes bound parent nodes start next
      | .script =>
        let nodes ← flush src nodes start i
        let next ← scriptEnd (octets src) i
        let text ← slice src i next
        readNodes bound parent (.script text :: nodes) next next
      | .expression =>
        let nodes ← flush src nodes start i
        let flow ← startsLine (octets src) i
        let (value, next) ← readGroup src i
        readNodes bound parent (.expression value flow :: nodes) next next
      | .opening =>
        let nodes ← flush src nodes start i
        let (element, next) ← readElement src (fun tag i => readNodes bound (some tag) [] i i) i
        readNodes bound parent (element :: nodes) next next
      | .closing => endAtClosing src nodes start i parent

/-- Read a document from its bytes. -/
def parse : Checked Document := do
  let (nodes, _) ← readNodes src (byteSize src + 1) none [] 0 0
  return ⟨nodes⟩

end Definitions

/-! ## What the reader of characters makes of a state -/

section Outcome

variable {s t : State}

/-- What reading on from a state to the end of its text gives. -/
def outcome (s : State) : Except Error Document :=
  State.run s.rest.length s

theorem outcome_of_nil (hrest : s.rest = []) : outcome s = s.finish :=
  State.run_of_nil _ hrest

/-- A step leads to a state with the same outcome. -/
theorem outcome_of_step (hrest : s.rest ≠ []) (hstep : s.step = .ok t) : outcome s = outcome t := by
  have hlt := (State.step_move hrest hstep).length_lt hrest
  have hpos := List.length_pos_iff.mpr hrest
  obtain ⟨k, hk⟩ := Nat.exists_eq_add_one_of_ne_zero (by omega : s.rest.length ≠ 0)
  rw [outcome, hk, State.run_succ k hrest, hstep]
  exact State.run_eq_run (by omega) (Nat.le_refl _)

theorem outcome_of_error {e : Error} (hrest : s.rest ≠ []) (hstep : s.step = .error e) :
    outcome s = .error e := by
  have hpos := List.length_pos_iff.mpr hrest
  obtain ⟨k, hk⟩ := Nat.exists_eq_add_one_of_ne_zero (by omega : s.rest.length ≠ 0)
  rw [outcome, hk, State.run_succ k hrest, hstep]
  rfl

end Outcome

/-! ## States and indexes -/

section States

variable {src v w : List Char} {s t : State} {c : Char} {i n next start : Nat}

theorem placeAt_drop (h : v <:+ src) (n : Nat) :
    placeAt src (v.drop n) = (placeAt src v).after (v.take n) := by
  rw [placeAt, before_drop h, Place.after, List.foldl_append]
  rfl

/-- The position of a fault is that of the text behind as many characters. -/
theorem toError_eq (h : v <:+ src) (f : Fault) :
    f.toError (placeAt src v).position v = ⟨f.cause, (placeAt src (v.drop f.after)).position⟩ := by
  rw [Fault.toError, placeAt_drop h, Place.position_after]

/-- The parent that a state reads the nodes of. -/
def parentOf (s : State) : Option Parent :=
  s.frames.head?.map fun f => (f.tag.name, f.tag.position)

/-- A state is what the reader of bytes has at the index `i`, with prose that starts at `start`. -/
structure Mirrors (src : List Char) (s : State) (start i : Nat) : Prop where
  near : Near src i s.rest
  place : s.place = placeAt src s.rest
  prose : (s.pending.reverse ++ s.rest) <:+ src
  start : start = offset src (s.pending.reverse ++ s.rest)

theorem Mirrors.suffix (h : Mirrors src s start i) : s.rest <:+ src :=
  h.near.left.suffix

/-- What is pending is flushed at the start of a suffix. -/
theorem Mirrors.flush_eq (h : Mirrors src s start (offset src s.rest)) :
    flush src s.nodes start (offset src s.rest) = .ok s.flushed := by
  have hmove := offset_append h.prose
  rw [flush, State.flushed, h.start]
  cases hpending : s.pending with
  | nil =>
      rw [List.reverse_nil, List.nil_append, if_neg (Nat.lt_irrefl _)]
      rfl
  | cons c pending =>
      have hpos := byteSize_pos (by simp [hpending] : s.pending.reverse ≠ [])
      have hslice := slice_offset h.prose s.pending.reverse.length
      rw [List.drop_left, List.take_left] at hslice
      rw [← hpending, if_pos (by omega), hslice]
      rw [hpending]
      rfl

/-- Prose that is passed over stays pending. -/
theorem Mirrors.takeProse (h : Mirrors src s start i) (hnear : Near src next (s.rest.drop n)) :
    Mirrors src (s.takeProse n) start next := by
  have hprose : (s.takeProse n).pending.reverse ++ (s.takeProse n).rest = s.pending.reverse ++ s.rest := by
    show ((s.rest.take n).reverse ++ s.pending).reverse ++ s.rest.drop n = _
    rw [List.reverse_append, List.reverse_reverse, List.append_assoc, List.take_append_drop]
  refine ⟨hnear, ?_, ?_, ?_⟩
  · show s.place.after (s.rest.take n) = placeAt src (s.rest.drop n)
    rw [placeAt_drop h.suffix, h.place]
  · rw [hprose]
    exact h.prose
  · rw [hprose]
    exact h.start

/-- Behind a node nothing is pending. -/
theorem Mirrors.of_skip (hsuffix : s.rest <:+ src) (hplace : s.place = placeAt src s.rest)
    (hrest : t.rest = (s.skip n).rest) (hbehind : t.place = (s.skip n).place) (hpending : t.pending = []) :
    Mirrors src t (offset src (s.rest.drop n)) (offset src (s.rest.drop n)) := by
  have hdrop := suffix_drop n hsuffix
  have hnext : t.rest = s.rest.drop n := hrest
  refine ⟨?_, ?_, ?_, ?_⟩
  · rw [hnext]
    exact .of_suffix hdrop
  · rw [hbehind, hnext, placeAt_drop hsuffix, ← hplace]
    rfl
  · rw [hpending, hnext]
    exact hdrop
  · rw [hpending, hnext]
    rfl

/-! ## Following the reader of characters -/

/-- A state at which a list of nodes ends: at the end of the text outside all elements, or at a closing
tag inside one. -/
inductive AtEnd (t : State) : Prop
  | text (hframes : t.frames = []) (hrest : t.rest = [])
  | closing {f : Frame} {fs : List Frame} {w : List Char} (hframes : t.frames = f :: fs)
      (hrest : t.rest = '<' :: '/' :: w)
      (hpiece : Piece.ofText t.frames.isEmpty t.place.startsLine t.rest =
        (Markup.readClosingTag t.rest).map fun a => .closing a.value a.size)

/-- What the reader of characters makes of a state, as the nodes of its innermost element: an error, or
the nodes up to a state in which this element still is the innermost one. -/
inductive Follows (src : List Char) (s : State) (i : Nat) : Checked (List Node × Nat) → Prop
  | error {e : Error} (hfails : outcome s = .error e) : Follows src s i (.error (.error e))
  | nodes {t : State} (houtcome : outcome s = outcome t) (hframes : t.frames = s.frames)
      (hsuffix : t.rest <:+ src) (hplace : t.place = placeAt src t.rest) (hle : i ≤ offset src t.rest)
      (hend : AtEnd t) : Follows src s i (.ok (t.flushed.reverse, offset src t.rest))

/-- What the reader of characters makes of a state at an opening tag, as an element. -/
inductive FollowsElement (src : List Char) (s : State) (i : Nat) : Checked (Node × Nat) → Prop
  | error {e : Error} (hfails : outcome s = .error e) : FollowsElement src s i (.error (.error e))
  | element {t : State} {node : Node} {next : Nat} (houtcome : outcome s = outcome t) (hframes : t.frames = s.frames)
      (hnodes : t.nodes = node :: s.flushed) (hmirrors : Mirrors src t next next) (hlt : i < next) :
      FollowsElement src s i (.ok (node, next))

/-- A state that another one leads to may be followed instead. -/
theorem Follows.of_outcome {r : Checked (List Node × Nat)} {j : Nat} (houtcome : outcome s = outcome t)
    (hframes : t.frames = s.frames) (hle : i ≤ j) (h : Follows src t j r) : Follows src s i r := by
  cases h with
  | error hfails => exact .error (houtcome.trans hfails)
  | nodes hsame hbelow hsuffix hplace hbehind hend =>
      exact .nodes (houtcome.trans hsame) (hbelow.trans hframes) hsuffix hplace (hle.trans hbehind) hend

/-! ### Tags and groups of a state -/

theorem readGroup_told (hsuffix : v <:+ src) (hhead : v.head? = some '\x7b') :
    readGroup src (offset src v) = told src v (Markup.readGroup v) := by
  obtain ⟨w, rfl⟩ := List.head?_eq_some_iff.mp hhead
  exact readGroup_eq hsuffix

theorem readOpeningTag_told (hsuffix : v <:+ src) (hhead : v.head? = some '<') :
    readOpeningTag src (offset src v) = told src v (Markup.readOpeningTag v) := by
  obtain ⟨w, rfl⟩ := List.head?_eq_some_iff.mp hhead
  exact readOpeningTag_eq hsuffix rfl

theorem readClosingTag_told (hsuffix : v <:+ src) (hv : v = '<' :: '/' :: w) :
    readClosingTag src (offset src v) = told src v (Markup.readClosingTag v) := by
  subst hv
  exact readClosingTag_eq hsuffix rfl

theorem readGroup_ok {group : Read (List Char)} (h : Markup.readGroup v = .ok group) :
    group.value = (v.drop 1).take (group.size - 2) ∧ 0 < group.size := by
  rw [Markup.readGroup] at h
  cases hgroup : groupLength? v with
  | none =>
      rw [hgroup] at h
      cases h
  | some n =>
      rw [hgroup] at h
      cases h
      exact ⟨rfl, (groupLength?_closes hgroup).pos⟩

theorem step_of_fault {f : Fault} (hsuffix : s.rest <:+ src) (hplace : s.place = placeAt src s.rest)
    (hpiece : Piece.ofText s.frames.isEmpty s.place.startsLine s.rest = .error f) :
    s.step = .error ⟨f.cause, (placeAt src (s.rest.drop f.after)).position⟩ := by
  rw [State.step, hpiece, hplace, ← toError_eq hsuffix]

/-- The end of an element: its closing tag is read, and its name compared. -/
theorem closeElement_follows {f : Frame} (hframes : t.frames = f :: s.frames)
    (hbefore : f.before = s.flushed) (houtcome : outcome s = outcome t) (hsuffix : t.rest <:+ src)
    (hplace : t.place = placeAt src t.rest) (hrest : t.rest = '<' :: '/' :: w)
    (hpiece : Piece.ofText t.frames.isEmpty t.place.startsLine t.rest =
      (Markup.readClosingTag t.rest).map fun a => .closing a.value a.size)
    (hle : i ≤ offset src t.rest) :
    FollowsElement src s i (closeElement src f.tag f.opening t.flushed.reverse (offset src t.rest)) := by
  have hne : t.rest ≠ [] := by simp [hrest]
  rw [closeElement, readClosingTag_told hsuffix hrest]
  cases hread : Markup.readClosingTag t.rest with
  | error fault =>
      rw [hread] at hpiece
      have hstep := step_of_fault hsuffix hplace hpiece
      exact .error (houtcome.trans (outcome_of_error hne hstep))
  | ok a =>
      rw [hread] at hpiece
      have hstep : t.step = t.takeClosing a.size a.value := by
        rw [State.step, hpiece]
        rfl
      rw [State.takeClosing, hframes] at hstep
      rw [told, ok_bind]
      dsimp only at hstep ⊢
      by_cases hname : (a.value != f.tag.name) = true
      · rw [if_pos hname] at hstep ⊢
        rw [position_eq hsuffix, ← hplace]
        exact .error (houtcome.trans (outcome_of_error hne hstep))
      · rw [if_neg hname] at hstep ⊢
        have hlt := offset_lt_drop hsuffix hne (readClosingTag_closes hread).pos
        rw [slice_offset hsuffix]
        refine .element (houtcome.trans (outcome_of_step hne hstep)) rfl ?_ ?_ (by omega)
        · rw [hbefore]
        · exact .of_skip hsuffix hplace rfl rfl rfl

/-- The state behind an opening tag of `n` characters. -/
def opened (s : State) (n : Nat) (t : OpeningTag) : State :=
  { s.skip n with
    frames := ⟨s.tagOf t, s.rest.take n, s.flushed⟩ :: s.frames
    nodes := []
    pending := [] }

theorem takeOpening_of_open {a : OpeningTag} (n : Nat) (hopen : a.tagEnd.selfClosing = false) :
    s.takeOpening n a = opened s n a := by
  rw [State.takeOpening]
  dsimp only
  rw [hopen]
  rfl

theorem takeOpening_of_selfClosing {a : OpeningTag} (n : Nat) (hself : a.tagEnd.selfClosing = true) :
    s.takeOpening n a =
      s.takeNode n (.element { s.tagOf a with source := some ⟨s.rest.take n, none⟩ } []) := by
  rw [State.takeOpening]
  dsimp only
  rw [hself]
  rfl

/-- An element is read as the reader of characters reads it if its children are. -/
theorem readElement_follows {children : Parent → Nat → Checked (List Node × Nat)}
    (hsuffix : s.rest <:+ src) (hplace : s.place = placeAt src s.rest) (hhead : s.rest.head? = some '<')
    (hpiece : Piece.ofText s.frames.isEmpty s.place.startsLine s.rest =
      (Markup.readOpeningTag s.rest).map fun a => .opening a.value a.size)
    (hchildren : ∀ {t : State} {f : Frame}, t.frames = f :: s.frames → t.nodes = [] →
      Mirrors src t (offset src t.rest) (offset src t.rest) → offset src s.rest < offset src t.rest →
      Follows src t (offset src t.rest) (children (f.tag.name, f.tag.position) (offset src t.rest))) :
    FollowsElement src s (offset src s.rest) (readElement src children (offset src s.rest)) := by
  have hne : s.rest ≠ [] := by
    rintro hnil
    rw [hnil] at hhead
    cases hhead
  rw [readElement, position_eq hsuffix, ok_bind, startsLine_eq hsuffix, ok_bind,
    readOpeningTag_told hsuffix hhead]
  cases hread : Markup.readOpeningTag s.rest with
  | error fault =>
      rw [hread] at hpiece
      exact .error (outcome_of_error hne (step_of_fault hsuffix hplace hpiece))
  | ok a =>
      rw [hread] at hpiece
      have hstep : s.step = .ok (s.takeOpening a.size a.value) := by
        rw [State.step, hpiece]
        rfl
      have houtcome := outcome_of_step hne hstep
      have hlt := offset_lt_drop hsuffix hne (readOpeningTag_closes hread).pos
      rw [told, ok_bind]
      dsimp only
      rw [slice_offset hsuffix, ok_bind]
      cases hself : a.value.tagEnd.selfClosing with
      | true =>
          rw [takeOpening_of_selfClosing _ hself, State.tagOf, hplace] at houtcome
          exact .element houtcome rfl rfl (.of_skip hsuffix hplace rfl rfl rfl) hlt
      | false =>
          rw [takeOpening_of_open _ hself] at houtcome
          have hmirrors : Mirrors src (opened s a.size a.value) (offset src (s.rest.drop a.size))
              (offset src (s.rest.drop a.size)) := .of_skip hsuffix hplace rfl rfl rfl
          have hinner : Follows src (opened s a.size a.value) (offset src (s.rest.drop a.size))
              (children (a.value.name, s.place.position) (offset src (s.rest.drop a.size))) :=
            @hchildren _ ⟨s.tagOf a.value, s.rest.take a.size, s.flushed⟩ rfl rfl hmirrors hlt
          rw [if_neg Bool.false_ne_true, ← hplace]
          -- The children end in an error or at the closing tag of this element.
          generalize children (a.value.name, s.place.position) (offset src (s.rest.drop a.size)) = r
            at hinner ⊢
          cases hinner with
          | error hfails => exact .error (houtcome.trans hfails)
          | nodes hsame hframes hbehind hat hle hend =>
              cases hend with
              | text hnone _ =>
                  rw [hnone] at hframes
                  cases hframes
              | closing _ hclosing hends =>
                  exact closeElement_follows hframes rfl (houtcome.trans hsame) hbehind hat hclosing hends
                    (by omega)

theorem Mirrors.takeNode (h : Mirrors src s start i) (n : Nat) (node : Node) :
    Mirrors src (s.takeNode n node) (offset src (s.rest.drop n)) (offset src (s.rest.drop n)) :=
  .of_skip h.suffix h.place rfl rfl rfl

theorem parentOf_isNone (s : State) : (parentOf s).isNone = s.frames.isEmpty := by
  rw [parentOf]
  cases s.frames with
  | nil => rfl
  | cons f fs => rfl

/-- At the end of the text the nodes end, unless an element is open. -/
theorem readNodes_at_end {bound : Nat} (hmirrors : Mirrors src s start i) (hend : byteSize src ≤ i) :
    Follows src s i (readNodes src (bound + 1) (parentOf s) s.nodes start i) := by
  obtain ⟨hrest, hplace⟩ := hmirrors.near.at_end hend
  have houtcome := outcome_of_nil hrest
  subst hplace
  rw [State.finish] at houtcome
  rw [readNodes, if_pos hend, parentOf]
  cases hframes : s.frames with
  | nil =>
      rw [List.head?_nil, Option.map_none, endAtText, hmirrors.flush_eq]
      exact .nodes rfl rfl hmirrors.suffix hmirrors.place (Nat.le_refl _) (.text hframes hrest)
  | cons f fs =>
      rw [hframes] at houtcome
      exact .error houtcome

/-- At a closing tag the nodes of the parent end; outside all elements it is an error. -/
theorem endAtClosing_follows (hmirrors : Mirrors src s start (offset src s.rest))
    (hhead : ∃ w, s.rest = '<' :: '/' :: w)
    (hpiece : Piece.ofText s.frames.isEmpty s.place.startsLine s.rest =
      (Markup.readClosingTag s.rest).map fun a => .closing a.value a.size) :
    Follows src s (offset src s.rest)
      (endAtClosing src s.nodes start (offset src s.rest) (parentOf s)) := by
  obtain ⟨w, hrest⟩ := hhead
  have hsuffix := hmirrors.suffix
  have hplace := hmirrors.place
  rw [parentOf]
  cases hframes : s.frames with
  | cons f fs =>
      rw [List.head?_cons, Option.map_some, endAtClosing, hmirrors.flush_eq]
      exact .nodes rfl rfl hsuffix hplace (Nat.le_refl _) (.closing hframes hrest hpiece)
  | nil =>
      have hne : s.rest ≠ [] := by simp [hrest]
      rw [List.head?_nil, Option.map_none, endAtClosing, position_eq hsuffix, ok_bind,
        readClosingTag_told hsuffix hrest]
      cases hread : Markup.readClosingTag s.rest with
      | error f =>
          rw [hread] at hpiece
          exact .error (outcome_of_error hne (step_of_fault hsuffix hplace hpiece))
      | ok a =>
          rw [hread] at hpiece
          have hstep : s.step = .error ⟨.stray (String.ofList a.value), s.place.position⟩ := by
            rw [State.step, hpiece]
            show s.takeClosing a.size a.value = _
            rw [State.takeClosing, hframes]
          rw [← hplace]
          exact .error (outcome_of_error hne hstep)

/-- Reading nodes byte by byte follows the reader of characters. -/
theorem readNodes_follows {bound : Nat} (hmirrors : Mirrors src s start i)
    (hbound : byteSize src - i < bound) :
    Follows src s i (readNodes src bound (parentOf s) s.nodes start i) := by
  induction bound generalizing s start i with
  | zero => omega
  | succ bound ih =>
      by_cases hend : byteSize src ≤ i
      · exact readNodes_at_end hmirrors hend
      rw [readNodes, if_neg hend, parentOf_isNone]
      rcases hmirrors.near.cases (by omega) with ⟨rfl, hne⟩ | ⟨hnext, hsight⟩
      · obtain ⟨c, w, hrest⟩ := List.exists_cons_of_ne_nil hne
        have hsuffix := hmirrors.suffix
        have hplace := hmirrors.place
        have hsees := @sight_sees src w c s.frames.isEmpty (hrest ▸ hsuffix)
        rw [← hrest, ← hplace] at hsees
        obtain ⟨seen, hsight, hsees⟩ := hsees
        -- Behind a script block or an expression the reader goes on with one more node.
        have hnode : ∀ {n : Nat} {node : Node}, s.step = .ok (s.takeNode n node) → 0 < n →
            Follows src s (offset src s.rest) (readNodes src bound (parentOf s) (node :: s.flushed)
              (offset src (s.rest.drop n)) (offset src (s.rest.drop n))) := by
          intro n node hstep hpos
          have hlt := offset_lt_drop hsuffix hne hpos
          have hread := ih (hmirrors.takeNode n node) (by omega)
          exact hread.of_outcome (outcome_of_step hne hstep) rfl (by omega)
        rw [hsight, ok_bind]
        cases hsees with
        | @prose n next hpiece hlt hnear =>
            have hstep : s.step = .ok (s.takeProse n) := by rw [State.step, hpiece]
            have hread := ih (hmirrors.takeProse hnear) (by omega)
            exact hread.of_outcome (outcome_of_step hne hstep) rfl (by omega)
        | script hstart hpiece =>
            have hstep : s.step = .ok (s.takeNode (scriptLength s.rest)
                (.script (s.rest.take (scriptLength s.rest)))) := by rw [State.step, hpiece]
            dsimp only
            rw [hmirrors.flush_eq, ok_bind, scriptEnd_eq hsuffix, ok_bind, slice_offset hsuffix, ok_bind]
            exact hnode hstep (scriptLength_pos hstart)
        | expression hhead hpiece =>
            dsimp only
            rw [hmirrors.flush_eq, ok_bind, startsLine_eq hsuffix, ok_bind, readGroup_told hsuffix hhead]
            cases hgroup : Markup.readGroup s.rest with
            | error f =>
                rw [hgroup] at hpiece
                exact .error (outcome_of_error hne (step_of_fault hsuffix hplace hpiece))
            | ok group =>
                rw [hgroup] at hpiece
                obtain ⟨hvalue, hpos⟩ := readGroup_ok hgroup
                have hstep : s.step = .ok (s.takeNode group.size
                    (.expression group.value s.place.indented)) := by
                  rw [State.step, hpiece, hvalue]
                  rfl
                rw [← hplace]
                exact hnode hstep hpos
        | opening hhead hpiece =>
            dsimp only
            have helement : FollowsElement src s (offset src s.rest)
                (readElement src (fun tag i => readNodes src bound (some tag) [] i i) (offset src s.rest)) := by
              refine readElement_follows hsuffix hplace hhead hpiece ?_
              intro t f hframes hnodes hinner hlt
              have hread := ih hinner (by omega)
              rw [parentOf, hframes, hnodes] at hread
              exact hread
            rw [hmirrors.flush_eq, ok_bind]
            generalize readElement src _ _ = r at helement ⊢
            cases helement with
            | error hfails => exact .error hfails
            | element houtcome hframes hnodes hbehind hlt =>
                have hread := ih hbehind (by omega)
                rw [parentOf, hframes, hnodes] at hread
                exact hread.of_outcome houtcome hframes (by omega)
        | closing hhead hpiece => exact endAtClosing_follows hmirrors hhead hpiece
      · -- The later bytes of a character are passed over with it.
        rw [hsight, ok_bind]
        have hread := ih ⟨hnext, hmirrors.place, hmirrors.prose, hmirrors.start⟩ (by omega)
        exact hread.of_outcome rfl rfl (Nat.le_succ i)

/-- A document is read byte by byte as it is read character by character. -/
theorem parse_eq (source : List Char) : parse source = (Markup.parse source).mapError Stop.error := by
  have hnear := Near.of_suffix (List.suffix_refl source)
  rw [offset_self] at hnear
  have hbefore : before source source = [] := by
    rw [before, Nat.sub_self, List.take_zero]
  have hmirrors : Mirrors source { rest := source } 0 0 := by
    refine ⟨hnear, ?_, List.suffix_refl source, (offset_self source).symm⟩
    rw [placeAt, hbefore]
    rfl
  have hread := @readNodes_follows source _ 0 0 (byteSize source + 1) hmirrors (by omega)
  show (readNodes source (byteSize source + 1) none [] 0 0 >>= _) =
    (outcome { rest := source }).mapError Stop.error
  change Follows source { rest := source } 0 (readNodes source (byteSize source + 1) none [] 0 0) at hread
  generalize readNodes source (byteSize source + 1) none [] 0 0 = r at hread ⊢
  cases hread with
  | error hfails =>
      rw [hfails]
      rfl
  | nodes houtcome hframes _ _ _ hend =>
      cases hend with
      | text hnone hrest =>
          rw [houtcome, outcome_of_nil hrest, State.finish, hnone]
          rfl
      | closing hopen _ _ =>
          rw [hopen] at hframes
          cases hframes

end States

end Bytes
end Markup
end StoryDocs
