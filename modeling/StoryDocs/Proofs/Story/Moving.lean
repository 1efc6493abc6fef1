import StoryDocs.Proofs.Script.Core.Respacing
import StoryDocs.Proofs.Story.Members

/-!
# Expressions that are moved

An expression goes into a property line by line: the lines behind the first lose the indentation that they share, and
get the one of a property.  If they are cut between characters, only blanks around line feeds change, and so a text of
the syntax stays what it is.
-/

namespace StoryDocs
namespace Synthesis

open Text Script

variable {n : Nat} {l m text u v : List Char} {ls ms : List (List Char)} {shapes : List Shape}
  {category : Category}

/-! ## Lines with the same code -/

/-- Two lines with the same code, between other blanks. -/
def SameCode (l m : List Char) : Prop :=
  ∃ b b' code e e', l = b ++ (code ++ e) ∧ m = b' ++ (code ++ e') ∧
    allBlank b = true ∧ allBlank b' = true ∧ allBlank e = true ∧ allBlank e' = true

theorem sameCode_relaid (h : Relayable n (dropReturn l)) : SameCode l (relaid n (dropReturn l)) := by
  obtain ⟨back, hl, hback⟩ := exists_dropReturn_append l
  generalize dropReturn l = k at h hl
  subst hl
  cases hcode : allBlank k with
  | true =>
      have hrest : trimEnd (dropBytes n k) = [] :=
        dropTail_eq_nil_iff.mpr (List.all_eq_true.mpr fun c hc => List.all_eq_true.mp hcode c (dropBytes_subset n k hc))
      rw [relaid, hrest]
      exact ⟨k ++ back, [], [], [], [], by simp, rfl, by rw [allBlank_append, hcode, hback]; rfl, rfl, rfl, rfl⟩
  | false =>
      obtain ⟨front, hfront, _, hblank⟩ := h.exists_split hcode
      obtain ⟨tail, htail, htailBlank⟩ := exists_dropTail_append isBlank (dropBytes n k)
      have hsplit : k ++ back = front ++ (trimEnd (dropBytes n k) ++ (tail ++ back)) := by
        rw [← List.append_assoc (trimEnd _), trimEnd, ← htail, ← List.append_assoc, ← hfront]
      rw [relaid_of_kept (h.kept hcode)]
      exact ⟨front, indent, _, tail ++ back, [], hsplit, by simp, hblank, rfl,
        by rw [allBlank_append, hback, Bool.and_true]; exact htailBlank, rfl⟩

/-- A line that ends with code ends with it when it is laid out again. -/
theorem sameCode_last {c : Char} (h : Relayable n l) (hlast : l.getLast? = some c) (hc : isBlank c = false) :
    ∃ b code, l = b ++ code ∧ relaid n l = indent ++ code ∧ allBlank b = true := by
  obtain ⟨k, rfl⟩ := List.getLast?_eq_some_iff.mp hlast
  have hcode : allBlank (k ++ [c]) = false := by simp [allBlank, hc]
  obtain ⟨front, hfront, _, hblank⟩ := h.exists_split hcode
  have hkept := h.kept hcode
  have htrim : trimEnd (dropBytes n (k ++ [c])) = dropBytes n (k ++ [c]) := by
    rw [hfront, List.getLast?_append] at hlast
    cases hend : (dropBytes n (k ++ [c])).getLast? with
    | none =>
        rw [List.getLast?_eq_none_iff.mp hend] at hkept
        exact absurd rfl hkept
    | some d =>
        rw [hend] at hlast
        exact dropTail_of_getLast? (hend.trans hlast) hc
  rw [relaid_of_kept hkept, htrim]
  exact ⟨front, _, hfront, rfl, hblank⟩

/-- Lines with the same code differ in blanks around their line feeds. -/
theorem respaced_unlines (h : List.Forall₂ SameCode ls ms) {b b' code : List Char} (hb : allBlank b = true)
    (hb' : allBlank b' = true) {k k' : List Char} (hk : allBlank k = true) (hk' : allBlank k' = true)
    (hfeed : '\n' ∈ k) (hfeed' : '\n' ∈ k') :
    Respaced (k ++ unlines (ls ++ [b ++ code])) (k' ++ unlines (ms ++ [b' ++ code])) := by
  induction h generalizing k k' with
  | nil =>
      have hgap := @Respaced.gap (k ++ b) (k' ++ b') _ _ (by rw [allBlank_append, hk, hb]; rfl)
        (by rw [allBlank_append, hk', hb']; rfl) (List.mem_append_left _ hfeed) (List.mem_append_left _ hfeed')
        (.refl code)
      simpa [unlines] using hgap
  | @cons l m ls ms hlines _ ih =>
      obtain ⟨f, f', same, e, e', rfl, rfl, hf, hf', he, he'⟩ := hlines
      have hrest := @ih (e ++ ['\n']) (e' ++ ['\n']) (by rw [allBlank_append, he]; rfl)
        (by rw [allBlank_append, he']; rfl) (by simp) (by simp)
      have hgap := @Respaced.gap (k ++ f) (k' ++ f') _ _ (by rw [allBlank_append, hk, hf]; rfl)
        (by rw [allBlank_append, hk', hf']; rfl) (List.mem_append_left _ hfeed) (List.mem_append_left _ hfeed')
        (hrest.append_left same)
      rw [List.cons_append, List.cons_append, unlines_cons (by simp), unlines_cons (by simp)]
      simpa using hgap

/-! ## Moved expressions -/

/-- The lines of an expression in its property. -/
theorem hanging_dedent (h : Solid text) (hclean : CleanlyIndented text) {first : List Char}
    {rest : List (List Char)} (hlines : lines text = first :: rest) :
    hanging (dedent text) =
      unlines ((if rest = [] then first else dropReturn first) :: rest.map (relaid (lostIndent text))) := by
  obtain ⟨first', rest', hlines', ⟨c, w, hfirst, _⟩, hlast⟩ := h.exists_lines
  obtain ⟨rfl, rfl⟩ := List.cons.inj (hlines.symm.trans hlines')
  have hrelayable := hclean.relayable
  have hlost : lostIndent text = sharedIndent rest := by rw [lostIndent, hlines, List.tail_cons]
  rw [hlines, List.tail_cons, hlost] at hrelayable
  obtain ⟨l, ls, hdedent, hl⟩ := h.exists_lines_dedent
  -- Any lead tells what stands behind it.
  have hproperty := @indentProperty_dedent ['.'] text first rest hlines (by decide) (by simp) (by simp [hfirst])
    fun m hm => ⟨hrelayable m (List.mem_of_getLast? hm), hlast m hm⟩
  rw [indentProperty_append hdedent hl (by decide), ← List.append_assoc, ← append_unlines] at hproperty
  rw [List.append_cancel_left hproperty, hlost]

/-- An expression changes only in blanks around its line feeds. -/
theorem respaced_hanging (h : Solid text) (hclean : CleanlyIndented text) : Respaced text (hanging (dedent text)) := by
  by_cases hfeed : '\n' ∈ text
  · obtain ⟨first, ms, last, hpieces⟩ := exists_pieces_ends hfeed
    obtain ⟨-, d, hlast, hd⟩ := h.ends hpieces
    have hne : last ≠ [] := by
      rintro rfl
      cases hlast
    have hlines : lines text = dropReturn first :: (ms.map dropReturn ++ [last]) := by
      rw [lines, hpieces, ← List.cons_append, terminated_append (by simp)]
      simp [terminated, hne]
    have hrelayable := hclean.relayable
    rw [hlines, List.tail_cons, List.forall_mem_append, List.forall_mem_singleton] at hrelayable
    obtain ⟨b, code, hlastSplit, hlastLaid, hb⟩ := sameCode_last hrelayable.2 hlast hd
    have hmiddle : List.Forall₂ SameCode ms (ms.map fun l => relaid (lostIndent text) (dropReturn l)) := by
      rw [List.forall₂_map_right_iff, List.forall₂_same]
      exact fun l hl => sameCode_relaid (hrelayable.1 _ (List.mem_map_of_mem hl))
    obtain ⟨back, hback, hbackBlank⟩ := exists_dropReturn_append first
    obtain ⟨back', hback', hbackBlank'⟩ := exists_dropReturn_append (dropReturn first)
    have hrest := @respaced_unlines _ _ hmiddle b indent code hb rfl (back' ++ back ++ ['\n']) ['\n']
      (by rw [allBlank_append, allBlank_append, hbackBlank, hbackBlank']; rfl) rfl (by simp) (by simp)
    have htext : text = dropReturn (dropReturn first) ++ (back' ++ back ++ ['\n'] ++ unlines (ms ++ [b ++ code])) := by
      rw [← unlines_pieces text, hpieces, unlines_cons (by simp), ← hlastSplit]
      conv_lhs => rw [hback, hback']
      simp
    rw [hanging_dedent h hclean hlines, if_neg (by simp), List.map_append, List.map_map, List.map_singleton, hlastLaid,
      unlines_cons (by simp)]
    conv_lhs => rw [htext]
    exact hrest.append_left _
  · have hne : text ≠ [] := by
      obtain ⟨c, hhead, _⟩ := h.head
      rintro rfl
      cases hhead
    have hlines := lines_of_not_mem hfeed hne
    rw [hanging_dedent h hclean hlines, if_pos rfl]
    exact .refl text

/-- What stands in front of an expression on its first line, and behind it on its last, does not change how its lines
are cut. -/
theorem CleanlyIndented.around (hclean : CleanlyIndented text) (h : Solid text) (hu : '\n' ∉ u) (hv : '\n' ∉ v) :
    CleanlyIndented (u ++ text ++ v) := by
  by_cases hfeed : '\n' ∈ text
  · obtain ⟨first, ms, last, hpieces⟩ := exists_pieces_ends hfeed
    obtain ⟨-, d, hlast, hd⟩ := h.ends hpieces
    obtain ⟨k, rfl⟩ := List.getLast?_eq_some_iff.mp hlast
    have hcode : allBlank (k ++ [d]) = false := by simp [allBlank, hd]
    have hcode' : allBlank (k ++ [d] ++ v) = false := by rw [allBlank_append, hcode, Bool.false_and]
    have hlines : (lines text).tail = ms.map dropReturn ++ [k ++ [d]] := by
      rw [lines, hpieces, ← List.cons_append, terminated_append (by simp)]
      simp [terminated]
    have halone : pieces u = [] ++ [u] := pieces_of_not_mem hu
    have hjoined := pieces_append halone hpieces
    have hfront : pieces (u ++ text) = (u ++ first) :: ms ++ [k ++ [d]] := hjoined
    have hwhole : (lines (u ++ text ++ v)).tail = ms.map dropReturn ++ [k ++ [d] ++ v] := by
      rw [lines, pieces_append hfront (pieces_of_not_mem hv), terminated_append (by simp)]
      simp [terminated]
    have hlost : lostIndent (u ++ text ++ v) = lostIndent text := by
      rw [lostIndent, lostIndent, hlines, hwhole, sharedIndent, sharedIndent]
      simp only [List.filter_append, List.map_append]
      simp only [List.filter_cons, List.filter_nil, hcode, hcode', Bool.not_false, if_true, List.map_singleton,
        indentSize_append hcode]
    rw [CleanlyIndented, hlines, List.forall_mem_append, List.forall_mem_singleton] at hclean
    rw [CleanlyIndented, hwhole, hlost, List.forall_mem_append, List.forall_mem_singleton]
    refine ⟨hclean.1, fun _ => ?_⟩
    obtain ⟨front, hprefix, hsize⟩ := cutsBetween_iff.mp (hclean.2 hcode)
    exact cutsBetween_iff.mpr ⟨front, hprefix.trans (List.prefix_append _ v), hsize⟩
  · have hline : '\n' ∉ u ++ text ++ v := by simp [hu, hfeed, hv]
    have hne : u ++ text ++ v ≠ [] := by
      obtain ⟨c, hhead, _⟩ := h.head
      intro hnil
      rw [List.append_assoc, List.append_eq_nil_iff, List.append_eq_nil_iff] at hnil
      rw [hnil.2.1] at hhead
      cases hhead
    intro l hl
    rw [lines_of_not_mem hline hne] at hl
    cases hl

/-- A text of the syntax stays what it is when it is moved. -/
theorem core_hanging (h : Core tags category text shapes) (hsolid : Solid text) (hclean : CleanlyIndented text) :
    Core tags category (hanging (dedent text)) shapes := by
  -- A list and what stands between tags go up to the code behind, here a bracket.
  have hstops : category.Stops [')'] := by
    cases category
    case list => exact startsCode_cons (by decide) []
    case children => exact startsCode_cons (by decide) []
    all_goals trivial
  have hspaced : Respaced (text ++ [')']) (hanging (dedent text) ++ [')']) := by
    exact (respaced_hanging hsolid hclean).append_right [')']
  obtain ⟨text', t', htext, hcore, hrest⟩ := h.respaced hstops hspaced
  obtain ⟨t'', rfl, hnil⟩ := hrest.cons (by decide)
  obtain rfl := hnil.eq_nil
  rwa [List.append_cancel_right htext]

end Synthesis
end StoryDocs
