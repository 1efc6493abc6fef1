import Mathlib.Data.List.Induction
import StoryDocs.Proofs.Story.Extraction

/-!
# What extraction takes

The metadata and the stories of an extraction, told from the visited elements alone.  The attributes of all
metadata elements are joined in order.  A story is found under its name where that name appears first, and
its record is that of the last element with the name.
-/

namespace StoryDocs

open Text Markup

namespace Segment

/-- The attributes of a visited metadata element. -/
def metadata? : Segment → Option (List Attribute)
  | metadata tag _ _ => some tag.attributes
  | _ => none

/-- The record of a visited story with a literal name, under the name it is exported by. -/
def record? : Segment → Option (List Char × Story)
  | story tag children _ =>
    (Story.literalName? tag).map fun name =>
      (Naming.capitalize name, Story.ofElement name tag children)
  | _ => none

/-- The record of the last story that is exported by `key`. -/
def IsLast (segments : List Segment) (key : List Char) (r : Story) : Prop :=
  ∃ before s behind, segments = before ++ s :: behind ∧ s.record? = some (key, r) ∧
    ∀ later ∈ behind, later.key? ≠ some key

variable {segments : List Segment} {key : List Char} {r : Story}

theorem not_isLast_nil : ¬ IsLast [] key r := by
  rintro ⟨before, s, behind, hsplit, _⟩
  simp at hsplit

/-- A further segment takes the place of the last one if it has the same key. -/
theorem isLast_concat {s : Segment} : IsLast (segments ++ [s]) key r ↔
    s.record? = some (key, r) ∨ (s.key? ≠ some key ∧ IsLast segments key r) := by
  constructor
  · rintro ⟨before, t, behind, hsplit, hrecord, hlater⟩
    rcases List.eq_nil_or_concat behind with rfl | ⟨init, last, rfl⟩
    · obtain ⟨_, hlast⟩ := List.append_inj' hsplit rfl
      rw [← List.singleton_inj.mp hlast] at hrecord
      exact .inl hrecord
    · rw [List.concat_eq_append, ← List.cons_append, ← List.append_assoc] at hsplit
      obtain ⟨hinit, hlast⟩ := List.append_inj' hsplit rfl
      rw [← List.singleton_inj.mp hlast] at hlater
      refine .inr ⟨hlater s (by simp), before, t, init, hinit, hrecord, ?_⟩
      exact fun later hmem => hlater later (by simp [hmem])
  · rintro (hrecord | ⟨hkey, before, t, behind, rfl, hrecord, hlater⟩)
    · exact ⟨segments, s, [], rfl, hrecord, by simp⟩
    · refine ⟨before, t, behind ++ [s], by simp, hrecord, ?_⟩
      intro later hmem
      rcases List.mem_append.mp hmem with hmem | hmem
      · exact hlater later hmem
      · rw [List.mem_singleton.mp hmem]
        exact hkey

end Segment

/-! ## Stories -/

namespace Extraction

/-- A story is found under a name that it was put under, and the others are still there. -/
theorem mem_put_iff {key k : List Char} {s r : Story} {stories : List (List Char × Story)}
    (hnodup : (stories.map Prod.fst).Nodup) :
    (k, r) ∈ put key s stories ↔ (k = key ∧ r = s) ∨ (k ≠ key ∧ (k, r) ∈ stories) := by
  induction stories with
  | nil =>
      rw [put]
      simp
  | cons entry rest ih =>
      obtain ⟨first, old⟩ := entry
      rw [List.map_cons, List.nodup_cons] at hnodup
      rw [put]
      by_cases hfirst : first = key
      · -- The story takes the place of the old one, and no other entry has its name.
        subst hfirst
        have hrest : (k, r) ∈ rest → k ≠ first := by
          intro hmem heq
          have hkey : k ∈ rest.map Prod.fst := List.mem_map.mpr ⟨(k, r), hmem, rfl⟩
          exact hnodup.1 (heq ▸ hkey)
        rw [if_pos (beq_self_eq_true first), List.mem_cons, List.mem_cons, Prod.mk.injEq, Prod.mk.injEq]
        constructor
        · rintro (hhead | hmem)
          · exact .inl hhead
          · exact .inr ⟨hrest hmem, .inr hmem⟩
        · rintro (hhead | ⟨hne, ⟨heq, _⟩ | hmem⟩)
          · exact .inl hhead
          · exact absurd heq hne
          · exact .inr hmem
      · rw [if_neg (by simpa using hfirst), List.mem_cons, List.mem_cons, ih hnodup.2, Prod.mk.injEq]
        constructor
        · rintro (⟨rfl, rfl⟩ | hput | ⟨hne, hmem⟩)
          · exact .inr ⟨hfirst, .inl ⟨rfl, rfl⟩⟩
          · exact .inl hput
          · exact .inr ⟨hne, .inr hmem⟩
        · rintro (hput | ⟨_, hhead | hmem⟩)
          · exact .inr (.inl hput)
          · exact .inl hhead
          · rename_i hne
            exact .inr (.inr ⟨hne, hmem⟩)

end Extraction

namespace Collected

theorem stories_addMetadata (c : Collected) (tag : Tag) :
    (c.addMetadata tag).extraction.stories = c.extraction.stories := by
  unfold addMetadata
  split
  · rfl
  · rfl

/-- A segment without a key leaves the stories alone, and one with a key puts its record there. -/
theorem mem_stories_addSegment {c : Collected} {key : List Char} {r : Story}
    (hnodup : c.extraction.keys.Nodup) (s : Segment) :
    (key, r) ∈ (c.addSegment s).extraction.stories ↔
      s.record? = some (key, r) ∨ (s.key? ≠ some key ∧ (key, r) ∈ c.extraction.stories) := by
  cases s with
  | prose | fixed => simp [addSegment, Segment.record?, Segment.key?]
  | metadata tag children hname =>
      simp [addSegment, Segment.record?, Segment.key?, stories_addMetadata]
  | story tag children hname =>
      cases hliteral : Story.literalName? tag with
      | none => simp [addSegment, Segment.record?, Segment.key?, hliteral, dropStory, remark]
      | some name =>
          simp only [addSegment, hliteral, addStory, Segment.record?, Segment.key?, Option.map_some,
            Extraction.mem_put_iff hnodup, Option.some.injEq, Prod.mk.injEq, ne_eq]
          constructor
          · rintro (⟨rfl, rfl⟩ | ⟨hne, hmem⟩)
            · exact .inl ⟨rfl, rfl⟩
            · exact .inr ⟨fun heq => hne heq.symm, hmem⟩
          · rintro (⟨rfl, rfl⟩ | ⟨hne, hmem⟩)
            · exact .inl ⟨rfl, rfl⟩
            · exact .inr ⟨fun heq => hne heq.symm, hmem⟩

theorem nodup_keys_foldl (segments : List Segment) :
    (segments.foldl addSegment {}).extraction.keys.Nodup := by
  have hstart : ({} : Collected).extraction.keys = ([] : List (List Char)).eraseDups := rfl
  rw [keys_foldl_addSegment hstart]
  exact nodup_eraseDups _

/-- The stories that are collected are the last ones under their names. -/
theorem mem_stories_foldl (segments : List Segment) (key : List Char) (r : Story) :
    (key, r) ∈ (segments.foldl addSegment {}).extraction.stories ↔
      Segment.IsLast segments key r := by
  induction segments using List.reverseRecOn with
  | nil => simp [Segment.not_isLast_nil]
  | append_singleton segments s ih =>
      rw [List.foldl_append, List.foldl_cons, List.foldl_nil,
        mem_stories_addSegment (nodup_keys_foldl segments), ih, Segment.isLast_concat]

/-! ## Metadata -/

/-- Attribute lists joined in order; none if there is no list. -/
def joined (lists : List (List Attribute)) : Option (List Attribute) :=
  if lists = [] then none else some lists.flatten

theorem joined_concat (lists : List (List Attribute)) (attributes : List Attribute) :
    joined (lists ++ [attributes]) = some ((joined lists).getD [] ++ attributes) := by
  cases lists with
  | nil => simp [joined]
  | cons first lists => simp [joined]

theorem metadata_addSegment (c : Collected) (s : Segment) :
    (c.addSegment s).extraction.metadata =
      s.metadata?.elim c.extraction.metadata fun attributes =>
        some (c.extraction.metadata.getD [] ++ attributes) := by
  cases s with
  | prose | fixed => rfl
  | metadata tag children hname =>
      simp only [addSegment, addMetadata, Segment.metadata?, Option.elim_some]
      split
      · rename_i hnone
        rw [hnone]
        rfl
      · rename_i attributes hsome
        rw [hsome]
        rfl
  | story tag children hname =>
      rw [addSegment]
      split
      · rfl
      · rfl

theorem metadata_foldl (segments : List Segment) :
    (segments.foldl addSegment {}).extraction.metadata = joined (segments.filterMap Segment.metadata?) := by
  induction segments using List.reverseRecOn with
  | nil => rfl
  | append_singleton segments s ih =>
      rw [List.foldl_append, List.foldl_cons, List.foldl_nil, metadata_addSegment, ih,
        List.filterMap_append]
      cases hs : s.metadata? with
      | none => simp [hs]
      | some attributes => simp [hs, joined_concat]

end Collected

/-! ## The extraction -/

/-- A story has a literal name if the first attribute called `name` holds it. -/
theorem Story.literalName?_eq_some_iff {tag : Tag} {name : List Char} :
    Story.literalName? tag = some name ↔
      tag.attributes.find? (fun a => a.name? == some "name".toList) =
        some (.property "name".toList (some (.literal name))) := by
  rw [Story.literalName?, Tag.attribute?, Option.bind_eq_some_iff]
  constructor
  · rintro ⟨a, hfind, hliteral⟩
    have hname := List.find?_some hfind
    rw [hfind]
    cases a with
    | spread source => cases hliteral
    | property key value =>
        cases value with
        | none => cases hliteral
        | some value =>
            cases value with
            | expression source => cases hliteral
            | literal text =>
                obtain rfl : text = name := Option.some.inj hliteral
                obtain rfl : key = "name".toList := by simpa [Attribute.name?] using hname
                rfl
  · intro hfind
    exact ⟨_, hfind, rfl⟩

/-- An extraction is told by the visited elements.  The metadata are the attributes of all metadata elements in
order.  The stories are exported by the capitalized names of the stories with a literal name, each once and
in the order of first appearance, and the record under a name is that of the last story with it: the name as
written, the attributes that are not called `name`, the children as they stand in the document, and the
position. -/
theorem extract_visited (ns : List Char) (d : Document) :
    (extract ns d).2.extraction.metadata =
        (if d.segments.filterMap Segment.metadata? = [] then none
          else some (d.segments.filterMap Segment.metadata?).flatten) ∧
      (extract ns d).2.extraction.stories.map Prod.fst =
        (d.segments.filterMap Segment.key?).eraseDups ∧
      ∀ key r, (key, r) ∈ (extract ns d).2.extraction.stories ↔
        ∃ before tag children hname behind,
          d.segments = before ++ Segment.story tag children hname :: behind ∧
          tag.attributes.find? (fun a => a.name? == some "name".toList) =
            some (.property "name".toList (some (.literal r.name))) ∧
          key = Naming.capitalize r.name ∧
          r.attributes = tag.attributes.filter (fun a => a.name? != some "name".toList) ∧
          r.children = children ∧ r.position = tag.position ∧
          ∀ later ∈ behind, later.key? ≠ some key := by
  refine ⟨?_, extract_keys ns d, ?_⟩
  · rw [extract_collected]
    exact Collected.metadata_foldl d.segments
  · intro key r
    rw [extract_collected, Collected.mem_stories_foldl]
    constructor
    · rintro ⟨before, s, behind, hsplit, hrecord, hlater⟩
      cases s with
      | prose | fixed | metadata => cases hrecord
      | story tag children hname =>
          obtain ⟨name, hliteral, hentry⟩ := Option.map_eq_some_iff.mp hrecord
          obtain ⟨rfl, rfl⟩ := Prod.mk.inj hentry
          exact ⟨before, tag, children, hname, behind, hsplit,
            Story.literalName?_eq_some_iff.mp hliteral, rfl, rfl, rfl, rfl, hlater⟩
    · rintro ⟨before, tag, children, hname, behind, hsplit, hfind, hkey, hattributes, hchildren,
        hposition, hlater⟩
      refine ⟨before, .story tag children hname, behind, hsplit, ?_, hlater⟩
      have hrecord : Story.ofElement r.name tag children = r := by
        rw [Story.ofElement, ← hattributes, ← hchildren, ← hposition]
      rw [Segment.record?, Story.literalName?_eq_some_iff.mpr hfind, Option.map_some, hrecord, hkey]

end StoryDocs
