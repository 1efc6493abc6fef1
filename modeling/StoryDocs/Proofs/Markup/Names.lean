import StoryDocs.Proofs.Markup.Generated

/-!
# Names of attributes

The reader gives no attribute a name that could not be written: one starts with a letter, an underscore or a
dollar sign and goes on with characters of names.  Its quoted values do not hold both kinds of quotes, and what it
finds spread is trimmed.
-/

namespace StoryDocs
namespace Markup

open Text

/-! ## Attributes that are read -/

section Reading

variable {s : List Char} {name : List Char} {value : Option AttributeValue}

/-- What a reader of attributes finds behind blanks: the end of the tag, or an attribute and what comes behind
it. -/
theorem readAttributes_cases {bound : Nat} {e : Read TagEnd} (h : readAttributes (bound + 1) s = .ok e) :
    e.value.attributes = [] ∨
      ∃ (a : Read Attribute) (tail : Read TagEnd), ReadsAttribute (s.drop (blankLength s)) a ∧
        readAttributes bound ((s.drop (blankLength s)).drop a.size) = .ok tail ∧
        e.value.attributes = a.value :: tail.value.attributes := by
  simp only [readAttributes] at h
  split at h
  · cases h
    exact .inl rfl
  · cases h
    exact .inl rfl
  · rename_i c t _ _ hrest
    split at h
    · rename_i hc
      split at h
      · cases h
      · rename_i a hspread
        split at h
        · cases h
        · rename_i tail htail
          cases h
          exact .inr ⟨a, tail, .inl ⟨by rw [hrest, beq_iff_eq.mp hc]; rfl, hspread⟩, htail, rfl⟩
    · split at h
      · rename_i hc
        split at h
        · cases h
        · rename_i a hproperty
          split at h
          · cases h
          · rename_i tail htail
            cases h
            exact .inr ⟨a, tail, .inr ⟨⟨c, by rw [hrest]; rfl, hc⟩, hproperty⟩, htail, rfl⟩
      · cases h
  · cases h

/-- A quoted value does not hold the quote that it stands in. -/
theorem exists_quote_of_readValue {before size : Nat} {text : List Char}
    (h : readValue name before s = .ok ⟨.literal text, size⟩) :
    ∃ quote, (quote = '\x22' ∨ quote = '\x27') ∧ quote ∉ text := by
  cases s with
  | nil => cases h
  | cons c t =>
      rw [readValue] at h
      split at h
      · rename_i hc
        dsimp only at h
        split at h
        · cases h
          refine ⟨c, by simpa using hc, fun hmem => ?_⟩
          have hne := List.all_eq_true.mp List.all_takeWhile c hmem
          simp at hne
        · cases h
      · split at h
        · cases hgroup : readGroup (c :: t) with
          | error f =>
              rw [hgroup] at h
              cases h
          | ok group =>
              rw [hgroup] at h
              cases h
        · cases h

theorem ReadsAttribute.isReadable {a : Attribute} {n : Nat} (h : ReadsAttribute s ⟨a, n⟩) : a.isReadable = true := by
  rcases h with ⟨_, hspread⟩ | ⟨⟨c, hhead, hc⟩, hproperty⟩
  · unfold readSpread at hspread
    split at hspread
    · cases hspread
    · split at hspread
      · cases hspread
        exact beq_iff_eq.mpr (trim_trim _)
      · cases hspread
  · -- The name is all that can be in a name from the first character on.
    have hname : isAttributeName (s.takeWhile isNameChar) = true := by
      obtain ⟨tail, rfl⟩ := List.head?_eq_some_iff.mp hhead
      rw [List.takeWhile_cons_of_pos (isNameChar_of_startsName hc), isAttributeName, hc, Bool.true_and]
      exact List.all_takeWhile
    simp only [readProperty] at hproperty
    split at hproperty
    · split at hproperty
      · rename_i value hvalue
        cases hproperty
        obtain ⟨value, size⟩ := value
        cases value with
        | expression source => exact hname
        | literal text =>
            -- A quote of the kind that the value stands in would end it.
            obtain ⟨quote, hquote, hfree⟩ := exists_quote_of_readValue hvalue
            have hkinds : (text.contains '\x22' && text.contains '\x27') = false := by
              rw [Bool.and_eq_false_iff]
              rcases hquote with rfl | rfl
              · exact .inl (by simpa using hfree)
              · exact .inr (by simpa using hfree)
            rw [Attribute.isReadable, hname, hkinds]
            rfl
      · cases hproperty
    · cases hproperty
      exact hname

theorem isReadable_of_readAttributes {bound : Nat} {a : Attribute} {e : Read TagEnd}
    (h : readAttributes bound s = .ok e) (hmem : a ∈ e.value.attributes) : a.isReadable = true := by
  induction bound generalizing s e with
  | zero => cases h
  | succ bound ih =>
      rcases readAttributes_cases h with hnone | ⟨b, tail, hread, htail, hattributes⟩
      · rw [hnone] at hmem
        cases hmem
      · rw [hattributes, List.mem_cons] at hmem
        rcases hmem with rfl | hmem
        · exact hread.isReadable
        · exact ih htail hmem

theorem isReadable_of_readOpeningTag {a : Attribute} {t : OpeningTag} {n : Nat} (h : readOpeningTag s = .ok ⟨t, n⟩)
    (hmem : a ∈ t.tagEnd.attributes) : a.isReadable = true := by
  simp only [readOpeningTag] at h
  split at h
  · cases h
  · rename_i e he
    cases h
    exact isReadable_of_readAttributes he hmem

theorem isAttributeName_of_readOpeningTag {t : OpeningTag} {n : Nat} (h : readOpeningTag s = .ok ⟨t, n⟩)
    (hmem : .property name value ∈ t.tagEnd.attributes) : isAttributeName name = true := by
  have hreadable := isReadable_of_readOpeningTag h hmem
  cases value with
  | none => exact hreadable
  | some value =>
      cases value with
      | expression source => exact hreadable
      | literal text =>
          rw [Attribute.isReadable, Bool.and_eq_true] at hreadable
          exact hreadable.1

end Reading

/-! ## Attributes of a document -/

/-- Some element of a node has an attribute of a name. -/
inductive Node.HasAttribute (name : List Char) : Node → Prop
  | own {tag : Tag} {children : List Node} {value : Option AttributeValue}
      (h : .property name value ∈ tag.attributes) : HasAttribute name (.element tag children)
  | child {tag : Tag} {children : List Node} {n : Node} (hmem : n ∈ children)
      (h : HasAttribute name n) : HasAttribute name (.element tag children)

/-- The reader can give an attribute a name. -/
def Produces (name : List Char) : Prop :=
  ∃ source d, parse source = .ok d ∧ ∃ n ∈ d.children, n.HasAttribute name

/-- All attributes of a tag have names that can be written. -/
def Tag.Named (t : Tag) : Prop :=
  ∀ name value, .property name value ∈ t.attributes → isAttributeName name = true

/-- All attributes of a node have names that can be written. -/
def Node.Named (n : Node) : Prop :=
  ∀ name, n.HasAttribute name → isAttributeName name = true

theorem Node.named_element {tag : Tag} {children : List Node} (htag : tag.Named)
    (hchildren : ∀ n ∈ children, n.Named) : (Node.element tag children).Named := by
  intro name h
  cases h with
  | own hmem => exact htag name _ hmem
  | child hmem hchild => exact hchildren _ hmem name hchild

namespace State

open Node

variable {s t : State}

/-- All attributes that were read so far have names that can be written. -/
structure Named (s : State) : Prop where
  nodes : ∀ n ∈ s.nodes, n.Named
  frames : ∀ f ∈ s.frames, f.tag.Named ∧ ∀ n ∈ f.before, n.Named

theorem Named.flushed (h : s.Named) : ∀ n ∈ s.flushed, n.Named := by
  unfold State.flushed
  split
  · exact h.nodes
  · refine List.forall_mem_cons.mpr ⟨?_, h.nodes⟩
    intro name hname
    cases hname

theorem Named.takeNode (h : s.Named) {node : Node} (hnode : node.Named) (n : Nat) :
    (s.takeNode n node).Named :=
  ⟨List.forall_mem_cons.mpr ⟨hnode, h.flushed⟩, h.frames⟩

theorem Move.named (hmove : Move s t) (h : s.Named) : t.Named := by
  cases hmove with
  | prose _ => exact ⟨h.nodes, h.frames⟩
  | script _ _ _ => exact h.takeNode (fun _ hname => by cases hname) _
  | expression _ _ => exact h.takeNode (fun _ hname => by cases hname) _
  | childless _ hread _ =>
      refine h.takeNode (Node.named_element ?_ (by simp)) _
      exact fun _ _ hmem => isAttributeName_of_readOpeningTag hread hmem
  | opening _ hread _ =>
      refine ⟨by simp, List.forall_mem_cons.mpr ⟨⟨?_, h.flushed⟩, h.frames⟩⟩
      exact fun _ _ hmem => isAttributeName_of_readOpeningTag hread hmem
  | closing hframes _ _ =>
      have hopen := h.frames
      rw [hframes] at hopen
      obtain ⟨⟨htag, hbefore⟩, hrest⟩ := List.forall_mem_cons.mp hopen
      refine ⟨List.forall_mem_cons.mpr ⟨Node.named_element htag ?_, hbefore⟩, hrest⟩
      exact fun n hn => h.flushed n (List.mem_reverse.mp hn)

end State

/-- The names that the reader can give attributes are those that can be written. -/
theorem produces_iff {name : List Char} : Produces name ↔ isAttributeName name = true := by
  constructor
  · rintro ⟨source, d, hparse, n, hn, hname⟩
    obtain ⟨last, hlast, _, _, hchildren⟩ :=
      State.parse_invariant State.Named (fun _ hmove hs => hmove.named hs) ⟨by simp, by simp⟩ hparse
    rw [hchildren, List.mem_reverse] at hn
    exact hlast.flushed n hn name hname
  · intro h
    -- An element with this attribute alone is read back.
    have hcomposed : Composed [.element { name := ['A'], attributes := [.property name none] } []] :=
      .element (.inl rfl) (by simpa [Attribute.isWritable] using h) .nil .nil
    obtain ⟨tag, kids, hparse, _, hattributes⟩ := exists_parse_of_reads (hcomposed.reads (.inl rfl))
    refine ⟨_, _, hparse, _, List.mem_cons_self, @Node.HasAttribute.own name tag kids none ?_⟩
    rw [hattributes]
    exact List.mem_cons_self

end Markup
end StoryDocs
