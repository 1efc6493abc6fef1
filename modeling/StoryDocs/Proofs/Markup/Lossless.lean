import StoryDocs.Proofs.Markup.Printing
import StoryDocs.Proofs.Markup.Reading

/-!
# Reading loses nothing

`State.written` is the text that a state has read, put together from the open elements, their nodes and
the pending prose.  Every move of the reader takes off the text exactly what it adds there, so a document
prints as its source.
-/

namespace StoryDocs
namespace Markup

/-- The text from the start of the parent of an open element to its first child. -/
def Frame.written (f : Frame) : List Char :=
  Node.printAll f.before.reverse ++ f.opening

namespace State

/-- The text that was read so far. -/
def written (s : State) : List Char :=
  s.frames.reverse.flatMap Frame.written ++ Node.printAll s.nodes.reverse ++ s.pending.reverse

/-- Making a node of the pending prose does not change what is printed. -/
theorem printAll_flushed (s : State) :
    Node.printAll s.flushed.reverse = Node.printAll s.nodes.reverse ++ s.pending.reverse := by
  unfold flushed
  split
  · rename_i hempty
    simp [List.isEmpty_iff.mp hempty]
  · simp [Node.print]

theorem takeProse_written (s : State) (n : Nat) :
    (s.takeProse n).written ++ (s.takeProse n).rest = s.written ++ s.rest := by
  simp [takeProse, skip, written]

theorem takeNode_written {s : State} {n : Nat} {node : Node} (hprint : node.print = s.rest.take n) :
    (s.takeNode n node).written ++ (s.takeNode n node).rest = s.written ++ s.rest := by
  simp [takeNode, skip, written, printAll_flushed, hprint]

/-- A move takes off the text what it adds to the text that was read. -/
theorem Move.written_append_rest {s t : State} (hmove : Move s t) :
    t.written ++ t.rest = s.written ++ s.rest := by
  cases hmove with
  | prose _ => exact takeProse_written s _
  | script _ _ _ => exact takeNode_written (by rw [Node.print])
  | expression htaken _ => exact takeNode_written (by rw [Node.print, htaken])
  | childless _ _ _ => exact takeNode_written (by simp [Node.print, Tag.print])
  | opening _ _ _ =>
      simp [skip, written, Frame.written, printAll_flushed]
  | closing hframes _ _ =>
      simp [skip, written, Frame.written, printAll_flushed, hframes, closed, Node.print, Tag.print]

/-! ## Tags are kept as written -/

/-- All nodes that were read so far are as written. -/
def Pristine (s : State) : Prop :=
  (∀ n ∈ s.nodes, n.Pristine) ∧ ∀ f ∈ s.frames, ∀ n ∈ f.before, n.Pristine

theorem Pristine.flushed {s : State} (h : s.Pristine) : ∀ n ∈ s.flushed, n.Pristine := by
  intro n hn
  unfold State.flushed at hn
  split at hn
  · exact h.1 n hn
  · rcases List.mem_cons.mp hn with rfl | hn
    · exact .text _
    · exact h.1 n hn

theorem Pristine.takeNode {s : State} (h : s.Pristine) {node : Node} (hnode : node.Pristine)
    (n : Nat) : (s.takeNode n node).Pristine := by
  refine ⟨fun m hm => ?_, h.2⟩
  rcases List.mem_cons.mp hm with rfl | hm
  · exact hnode
  · exact h.flushed m hm

theorem Move.pristine {s t : State} (hmove : Move s t) (h : s.Pristine) : t.Pristine := by
  cases hmove with
  | prose _ => exact h
  | script _ _ _ => exact h.takeNode (.script _) _
  | expression _ _ => exact h.takeNode (.expression _ _) _
  | childless _ _ _ => exact h.takeNode (.childless rfl) _
  | opening _ _ _ =>
      refine ⟨by simp, fun f hf => ?_⟩
      rcases List.mem_cons.mp hf with rfl | hf
      · exact h.flushed
      · exact h.2 f hf
  | @closing f fs n hframes _ _ =>
      refine ⟨fun m hm => ?_, fun g hg => h.2 g (by rw [hframes]; simp [hg])⟩
      rcases List.mem_cons.mp hm with rfl | hm
      · exact .enclosing rfl fun k hk => h.flushed k (List.mem_reverse.mp hk)
      · exact h.2 f (by simp [hframes]) m hm

end State

/-- Every node of a document is as written. -/
theorem parse_pristine {source : List Char} {d : Document} (h : parse source = .ok d) :
    ∀ n ∈ d.children, n.Pristine := by
  obtain ⟨last, hpristine, _, _, hchildren⟩ :=
    State.parse_invariant State.Pristine (fun _ hmove hs => hmove.pristine hs)
      (by simp [State.Pristine]) h
  intro n hn
  rw [hchildren] at hn
  exact hpristine.flushed n (List.mem_reverse.mp hn)

/-- A document prints as its source. -/
theorem parse_print {source : List Char} {d : Document} (h : parse source = .ok d) :
    d.print = source := by
  -- The text that was read and the text that is left always make up the source.
  obtain ⟨last, hwritten, hrest, hframes, hchildren⟩ :=
    State.parse_invariant (fun s => s.written ++ s.rest = source)
      (fun _ hmove hs => hmove.written_append_rest.trans hs) (by simp [State.written]) h
  calc d.print
      = Node.printAll last.nodes.reverse ++ last.pending.reverse := by
        rw [Document.print, hchildren, State.printAll_flushed]
    _ = last.written ++ last.rest := by simp [State.written, hframes, hrest]
    _ = source := hwritten

/-- Reading is lossless: a document prints as its source, and the prose, script blocks, expressions and
tags that it captured make up the source in their order, each of them once. -/
theorem print_and_captures_of_parse {source : List Char} {d : Document}
    (h : parse source = .ok d) : d.print = source ∧ d.captures.flatten = source := by
  have hprint := parse_print h
  refine ⟨hprint, ?_⟩
  have hcaptures := Node.flatten_capturesAll fun n hn => (parse_pristine h n hn).flatten_captures
  rw [Document.captures, hcaptures]
  exact hprint

/-- Prose, a script block, an expression and tags two levels deep are all captured. -/
theorem print_and_captures_of_nested :
    ∃ d, parse "import a\n\n<A b='c'>\\<\x7bd\x7d<E /></A >".toList = .ok d ∧
      d.print = "import a\n\n<A b='c'>\\<\x7bd\x7d<E /></A >".toList ∧
      d.captures.flatten = "import a\n\n<A b='c'>\\<\x7bd\x7d<E /></A >".toList := by
  have hparse : ∃ d, parse "import a\n\n<A b='c'>\\<\x7bd\x7d<E /></A >".toList = .ok d :=
    ⟨_, rfl⟩
  obtain ⟨d, hd⟩ := hparse
  exact ⟨d, hd, print_and_captures_of_parse hd⟩

end Markup
end StoryDocs
