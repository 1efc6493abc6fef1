import StoryDocs.Proofs.Markup.Indent
import StoryDocs.Proofs.Markup.Tags
import StoryDocs.Proofs.Story.Rewriting

/-!
# Documents that keep their reading

Extraction changes the text before and behind the nodes that it keeps.  `Steady` lists what makes their
reading independent of it: expressions and tags that do not look ahead, prose that opens no code sample in a
line it shares with other nodes, and removed stories that stand on lines of their own.
-/

namespace StoryDocs

open Text Markup

/-! ## References -/

/-- A tag that refers to an exported value is read before every text. -/
theorem tagged_reference {name target tail : List Char} {selfClosing : Bool}
    (hname : name = metaElement ∨ name = storyElement) (htarget : target.all isPlain = true)
    (htail : ∀ bound rest, readAttributes (bound + 1) (tail ++ rest) =
      .ok ⟨⟨[], selfClosing⟩, tail.length⟩) (rest : List Char) :
    Tagged (.opening ⟨name, ⟨[reference target], selfClosing⟩⟩)
      ('<' :: name ++ " of=\x7b".toList ++ target ++ '\x7d' :: tail) rest := by
  have hread := @readOpeningTag_reference target (tail ++ rest) ⟨⟨[], selfClosing⟩, tail.length⟩ name
    (by rcases hname with rfl | rfl; decide; decide) htarget (fun bound => htail bound rest)
  have hwhole : '<' :: name ++ " of=\x7b".toList ++ target ++ '\x7d' :: tail ++ rest =
      '<' :: name ++ (" of=\x7b".toList ++ target ++ '\x7d' :: (tail ++ rest)) := by
    simp only [List.append_assoc, List.cons_append]
  have hsize : ('<' :: name ++ " of=\x7b".toList ++ target ++ '\x7d' :: tail).length =
      name.length + 1 + (target.length + 6 + tail.length) := by
    simp
    omega
  refine ⟨rfl, ?_⟩
  rw [hwhole, hsize]
  refine Piece.ofBracket_eq_opening_iff.mpr ⟨?_, ?_, hread⟩
  · rcases hname with rfl | rfl
    · rfl
    · rfl
  · rcases hname with rfl | rfl
    · exact ⟨'M', rfl, rfl⟩
    · exact ⟨'S', rfl, rfl⟩

/-- No part of a reference is a backtick. -/
theorem tick_not_mem_reference {name target tail : List Char}
    (hname : name = metaElement ∨ name = storyElement) (htarget : target.all isPlain = true)
    (htail : '\x60' ∉ tail) :
    '\x60' ∉ '<' :: name ++ " of=\x7b".toList ++ target ++ '\x7d' :: tail := by
  have htick : '\x60' ∉ target := fun hmem => absurd (List.all_eq_true.mp htarget _ hmem) (by decide)
  have hlead : '\x60' ∉ '<' :: name ++ " of=\x7b".toList := by
    rcases hname with rfl | rfl
    · decide
    · decide
  simp only [List.mem_append, List.mem_cons, not_or] at hlead ⊢
  exact ⟨⟨hlead, htick⟩, by decide, htail⟩

/-! ## Steady nodes -/

/-- Nodes whose reading does not depend on what extraction does around them.  `visited` tells whether
extraction comes to them, and `outside` whether they stand outside all elements. -/
inductive Steady : Bool → Bool → List Node → Prop
  | nil (visited outside : Bool) : Steady visited outside []
  /-- Prose that shares its last line with other nodes does not start it like a code sample. -/
  | text {visited outside : Bool} {value : List Char} {rest : List Node}
      (hticks : outside = false ∨ rest ≠ [] →
        startsWith fenceTicks ((lastLine value).dropWhile isIndent) = false)
      (hrest : Steady visited outside rest) : Steady visited outside (.text value :: rest)
  | script {visited : Bool} {value : List Char} {rest : List Node} (hrest : Steady visited true rest) :
      Steady visited true (.script value :: rest)
  /-- An expression ends with its brace, whatever comes behind it. -/
  | expression {visited outside flow : Bool} {value : List Char} {rest : List Node}
      (hgroup : ∀ s, groupLength? ('\x7b' :: value ++ '\x7d' :: s) = some (value.length + 2))
      (hrest : Steady visited outside rest) : Steady visited outside (.expression value flow :: rest)
  /-- So does the opening tag of an element that is kept. -/
  | kept {visited outside : Bool} {tag : Tag} {source : TagSource} {children rest : List Node}
      (hother : visited = true → tag.name ≠ metaElement ∧ tag.name ≠ storyElement)
      (hsource : tag.source = some source)
      (hfirm : ∀ s, readOpeningTag (source.opening ++ s) = readOpeningTag source.opening)
      (hchildren : Steady visited false children) (hrest : Steady visited outside rest) :
      Steady visited outside (.element tag children :: rest)
  /-- The children of metadata are kept and not visited. -/
  | metadata {outside : Bool} {tag : Tag} {children rest : List Node} (hname : tag.name = metaElement)
      (hchildren : Steady false false children) (hrest : Steady true outside rest) :
      Steady true outside (.element tag children :: rest)
  | named {outside : Bool} {tag : Tag} {name : List Char} {children rest : List Node}
      (hname : tag.name = storyElement) (hliteral : Story.literalName? tag = some name)
      (hrest : Steady true outside rest) : Steady true outside (.element tag children :: rest)
  /-- A story that is removed starts its line, and no prose follows it there. -/
  | removed {outside : Bool} {tag : Tag} {children rest : List Node} (hname : tag.name = storyElement)
      (hliteral : Story.literalName? tag = none) (hflow : tag.flow = true)
      (hline : ∀ value, rest.head? = some (.text value) → allBlank (restOfLine value) = true)
      (hrest : Steady true outside rest) : Steady true outside (.element tag children :: rest)

/-! ## What stands behind a list of nodes -/

/-- Behind the nodes of a document comes nothing, and behind the children of an element its closing tag. -/
def Bounded (outside : Bool) (rest : List Char) : Prop :=
  (outside = true → rest = []) ∧ (outside = false → rest.head? = some '<')

namespace Markup.Reads

variable {outside line : Bool} {ns : List Node} {rest rest' : List Char}

/-- Nodes that are neither prose nor a script block start with a bracket or a brace. -/
theorem head (h : Reads outside line ns rest) (hne : ns ≠ []) (htext : ∀ v, ns.head? ≠ some (.text v))
    (hscript : ∀ v, ns.head? ≠ some (.script v)) :
    (Node.printAll ns ++ rest).head? = some '<' ∨ (Node.printAll ns ++ rest).head? = some '\x7b' := by
  cases h with
  | nil => exact absurd rfl hne
  | text => exact absurd rfl (htext _)
  | script => exact absurd rfl (hscript _)
  | expression => exact .inr rfl
  | childless _ hopening _ =>
      obtain ⟨body, hbody⟩ := List.head?_eq_some_iff.mp hopening.bracket
      exact .inl (by rw [Node.printAll_cons, hbody]; rfl)
  | enclosing _ hprint hopening _ _ _ =>
      obtain ⟨body, hbody⟩ := List.head?_eq_some_iff.mp hopening.bracket
      exact .inl (by rw [Node.printAll_cons, hprint, hbody]; rfl)

/-- Steady prose opens no code sample before other nodes. -/
theorem unfenced (h : Reads outside line ns rest) (hbounded : Bounded outside rest)
    (htext : ∀ v, ns.head? ≠ some (.text v)) (hscript : ∀ v, ns.head? ≠ some (.script v))
    {value : List Char} (hticks : outside = false ∨ ns ≠ [] →
      startsWith fenceTicks ((lastLine value).dropWhile isIndent) = false) (before : Bool) :
    Unfenced before value (Node.printAll ns ++ rest) := by
  by_cases hne : ns = []
  · subst hne
    cases outside with
    | true =>
        rw [hbounded.1 rfl]
        exact .of_nil
    | false => exact .of_lastLine (hticks (.inl rfl)) (.inl (hbounded.2 rfl))
  · exact .of_lastLine (hticks (.inr hne)) (h.head hne htext hscript)

/-- The children of an element are read alike before every text that goes on alike. -/
theorem steady {b : Bool} (h : Reads outside line ns rest) (hinside : outside = false)
    (hsteady : Steady false false ns) (hindented : Indented b ns) (hrest : rest.head? = some '<')
    (halike : Alike rest rest') : Reads outside line ns rest' := by
  induction h generalizing b rest' with
  | nil outside line _ => exact .nil _ _ _
  | @text outside line value rest ns hne hprose hns ih =>
      subst hinside
      cases hsteady with
      | text hticks hsteady =>
          cases hindented with
          | text hnext hindented =>
              have hscript : ∀ v, ns.head? ≠ some (.script v) := by
                intro v hhead
                obtain ⟨tail, rfl⟩ := List.head?_eq_some_iff.mp hhead
                cases hns
              have hfence := hns.unfenced ⟨Bool.noConfusion, fun _ => hrest⟩ hnext hscript hticks line
              exact .text hne (hprose.alike (halike.append _) hfence)
                (ih rfl hsteady hindented hrest halike)
  | script => cases hinside
  | @expression outside line flow value rest ns _ _ ih =>
      cases hsteady with
      | expression hgroup hsteady =>
          cases hindented with
          | expression hindented =>
              exact .expression (hgroup _) (ih hinside hsteady hindented hrest halike)
  | @childless outside line tag rest ns hsource hopening _ ih =>
      cases hsteady with
      | kept _ hwritten hfirm _ hsteady =>
          cases hindented with
          | element _ _ hindented =>
              rw [hsource _ hwritten] at hfirm
              exact .childless hsource (hopening.opening_firm hfirm _)
                (ih hinside hsteady hindented hrest halike)
  | @enclosing outside line tag children opening closing rest ns hsource hprint hopening _ hclosing _
      ihc ih =>
      cases hsteady with
      | kept _ hwritten hfirm hchildren hsteady =>
          cases hindented with
          | element _ hinner hindented =>
              rw [hsource _ hwritten] at hfirm
              have hbracket : (closing ++ (Node.printAll ns ++ rest)).head? = some '<' := by
                rw [List.head?_append, hclosing.bracket]
                rfl
              exact .enclosing hsource hprint (hopening.opening_firm hfirm _)
                (ihc rfl hchildren hinner hbracket ((halike.append _).append _))
                (hclosing.closing_exchange _) (ih hinside hsteady hindented hrest halike)

end Markup.Reads

end StoryDocs
