import StoryDocs.Files.Store

/-!
# What stands in a store

`get?` is the view of a store.  A text that is written shows at its place and nowhere else, so a path leads
where it led before.  In a well-formed store nothing stands below a file, and every file is listed once.
-/

namespace StoryDocs
namespace Files

/-! ## The order of places -/

theorem nameOrder_eq_iff {a b : Name} : nameOrder a b = .eq ↔ a = b := by
  fun_induction nameOrder a b with
  | case1 => simp
  | case2 => simp
  | case3 => simp
  | case4 a s b t hlt =>
      have hne : a ≠ b := by
        rintro rfl
        omega
      simp [hne]
  | case5 a s b t _ hgt =>
      have hne : a ≠ b := by
        rintro rfl
        omega
      simp [hne]
  | case6 a s b t hlt hgt ih =>
      have hsame : a = b := Char.toNat_inj.mp (by omega)
      simp [ih, hsame]

theorem placeOrder_eq_iff {p q : Place} : placeOrder p q = .eq ↔ p = q := by
  fun_induction placeOrder p q with
  | case1 => simp
  | case2 => simp
  | case3 => simp
  | case4 a s b t hname ih => simp [ih, nameOrder_eq_iff.mp hname]
  | case5 a s b t hname =>
      have hne : a ≠ b := fun hsame => hname (nameOrder_eq_iff.mpr hsame)
      simpa [hne] using hname

/-- A place lies at or below a base if the base is where its names begin. -/
theorem below?_eq_some_iff {base place names : Place} :
    below? base place = some names ↔ place = base ++ names := by
  fun_induction below? base place with
  | case1 place => simp [eq_comm]
  | case2 => simp
  | case3 a base b place hname ih => simp [ih, beq_iff_eq.mp hname]
  | case4 a base b place hname =>
      have hne : b ≠ a := fun hsame => hname (beq_iff_eq.mpr hsame.symm)
      simp [hne]

namespace Store

variable {s t : Store} {place q : Place} {text : List Char}

/-! ## Entries -/

theorem find?_insertEntry_self (place : Place) (entry : Entry) (entries : List (Place × Entry)) :
    (insertEntry place entry entries).find? (fun (p, _) => p == place) = some (place, entry) := by
  induction entries with
  | nil => simp [insertEntry]
  | cons e rest ih =>
      obtain ⟨p, old⟩ := e
      rw [insertEntry]
      split
      · simp
      · simp
      · rename_i hgt
        have hne : p ≠ place := by
          rintro rfl
          rw [placeOrder_eq_iff.mpr rfl] at hgt
          cases hgt
        simpa [hne] using ih

theorem find?_insertEntry_of_ne (entry : Entry) (entries : List (Place × Entry)) (hne : q ≠ place) :
    (insertEntry place entry entries).find? (fun (p, _) => p == q) =
      entries.find? (fun (p, _) => p == q) := by
  induction entries with
  | nil => simp [insertEntry, hne.symm]
  | cons e rest ih =>
      obtain ⟨p, old⟩ := e
      rw [insertEntry]
      split
      · simp [hne.symm]
      · rename_i heq
        have hp : place = p := placeOrder_eq_iff.mp heq
        simp [← hp, hne.symm]
      · by_cases hp : p = q
        · simp [hp]
        · simpa [hp] using ih

theorem any_insertEntry (f : Place → Bool) (place : Place) (entry : Entry)
    (entries : List (Place × Entry)) :
    (insertEntry place entry entries).any (fun (p, _) => f p) =
      (f place || entries.any fun (p, _) => f p) := by
  induction entries with
  | nil => simp [insertEntry]
  | cons e rest ih =>
      obtain ⟨p, old⟩ := e
      rw [insertEntry]
      split
      · simp
      · rename_i heq
        have hp : place = p := placeOrder_eq_iff.mp heq
        simp [hp]
      · rw [List.any_cons, ih, List.any_cons, Bool.or_left_comm]

theorem hasBelow_iff :
    s.hasBelow place = true ↔ ∃ e ∈ s.entries, ∃ names, names ≠ [] ∧ e.1 = place ++ names := by
  unfold hasBelow
  rw [List.any_eq_true]
  refine exists_congr fun e => and_congr_right fun _ => ?_
  cases hbelow : below? place e.1 with
  | none =>
      refine ⟨fun h => by simp [hbelow] at h, fun ⟨names, _, heq⟩ => ?_⟩
      rw [below?_eq_some_iff.mpr heq] at hbelow
      cases hbelow
  | some names =>
      have heq := below?_eq_some_iff.mp hbelow
      constructor
      · intro h
        exact ⟨names, by simpa [hbelow] using h, heq⟩
      · rintro ⟨others, hne, hothers⟩
        have hsame : names = others := List.append_cancel_left (heq.symm.trans hothers)
        simpa [hbelow, hsame] using hne

/-- What has a directory below it has something below it, unless it is that directory. -/
theorem hasBelow_of_directory {names : Place} (h : s.get? (place ++ names) = some .directory)
    (hfind : s.entries.find? (fun (p, _) => p == place) = none) :
    place.isEmpty = true ∨ s.hasBelow place = true := by
  unfold get? at h
  split at h
  · -- The directory has an entry, which lies below the place because the place has none.
    rename_i p entry hfound
    have hp : p = place ++ names := by simpa using List.find?_some hfound
    refine .inr (hasBelow_iff.mpr ⟨_, List.mem_of_find?_eq_some hfound, names, ?_, hp⟩)
    rintro rfl
    rw [List.append_nil] at hfound
    rw [hfound] at hfind
    cases hfind
  · split at h
    · rename_i hdirectory
      rw [Bool.or_eq_true] at hdirectory
      rcases hdirectory with hempty | hbelow
      · exact .inl (by simpa using (List.append_eq_nil_iff.mp (List.isEmpty_iff.mp hempty)).1)
      · obtain ⟨e, he, more, hne, heq⟩ := hasBelow_iff.mp hbelow
        refine .inr (hasBelow_iff.mpr ⟨e, he, names ++ more, by simp [hne], ?_⟩)
        rw [heq, List.append_assoc]
    · cases h

/-! ## Writing -/

/-- `t` is `s` with a file of the given text at a place where no directory stood. -/
structure Written (place : Place) (text : List Char) (s t : Store) : Prop where
  here : t.get? place = some (.file (.text text))
  elsewhere : ∀ q, q ≠ place → t.get? q = s.get? q
  free : s.get? place ≠ some .directory

theorem get?_put_self (s : Store) (place : Place) (entry : Entry) :
    (s.put place entry).get? place = some entry := by
  simp [get?, put, find?_insertEntry_self]

theorem get?_put_of_ne {entry : Entry} (hdirectory : s.get? place.dropLast = some .directory)
    (hne : q ≠ place) : (s.put place entry).get? q = s.get? q := by
  have hfind : (s.put place entry).entries.find? (fun (p, _) => p == q) =
      s.entries.find? (fun (p, _) => p == q) := find?_insertEntry_of_ne entry s.entries hne
  unfold get?
  rw [hfind]
  cases hentry : s.entries.find? (fun (p, _) => p == q) with
  | some e => rfl
  | none =>
      -- The place can only lie below what is a directory already.
      have hbelow : (s.put place entry).hasBelow q =
          (((below? q place).map fun rest : Place => !rest.isEmpty).getD false || s.hasBelow q) :=
        any_insertEntry (fun p => ((below? q p).map fun rest : Place => !rest.isEmpty).getD false) place
          entry s.entries
      cases hplace : below? q place with
      | none => simp [hbelow, hplace]
      | some names =>
          have heq := below?_eq_some_iff.mp hplace
          have hnames : names ≠ [] := by
            rintro rfl
            exact hne (by simpa using heq.symm)
          rw [heq, List.dropLast_append_of_ne_nil hnames] at hdirectory
          rcases hasBelow_of_directory hdirectory hentry with hempty | hold
          · simp [hempty]
          · simp [hbelow, hold]

theorem enter_eq_ok_iff : s.enter place = .ok () ↔ s.get? place = some .directory := by
  unfold enter
  split <;> simp_all

theorem write_written (h : s.write place text = .ok t) : Written place text s t := by
  unfold write at h
  split at h
  · cases h
  · rename_i hfree
    split at h
    · cases h
    · rename_i henter
      cases h
      exact ⟨get?_put_self s place _, fun q hne => get?_put_of_ne (enter_eq_ok_iff.mp henter) hne,
        hfree⟩

/-- A text can be read where it stands. -/
theorem read_eq_ok_iff : s.read place = .ok text ↔ s.get? place = some (.file (.text text)) := by
  unfold read
  split <;> simp_all

/-! ## Paths -/

theorem follow_append (s : Store) (place : Place) (a b : List (List Char)) :
    s.follow place (a ++ b) = (s.follow place a).bind fun q => s.follow q b := by
  induction a generalizing place with
  | nil => rfl
  | cons piece pieces ih =>
      rw [List.cons_append, follow, follow]
      cases s.enter place with
      | error fault => rfl
      | ok =>
          show (if _ then _ else if _ then _ else _) = Except.bind (if _ then _ else if _ then _ else _) _
          split
          · exact ih place
          · split
            · exact ih place.dropLast
            · exact ih (place ++ [piece])

namespace Written

variable (h : Written place text s t)

include h

/-- Writing a file makes no directory and removes none. -/
theorem directory_iff : t.get? q = some .directory ↔ s.get? q = some .directory := by
  by_cases hq : q = place
  · subst hq
    simp [h.here, h.free]
  · rw [h.elsewhere q hq]

theorem follow_iff {start : Place} {pieces : List (List Char)} :
    t.follow start pieces = .ok q ↔ s.follow start pieces = .ok q := by
  induction pieces generalizing start with
  | nil => rfl
  | cons piece pieces ih =>
      have henter : t.enter start = .ok () ↔ s.enter start = .ok () := by
        rw [enter_eq_ok_iff, enter_eq_ok_iff, h.directory_iff]
      rw [follow, follow]
      cases hs : s.enter start with
      | error fault =>
          cases ht : t.enter start with
          | error fault => simp [bind, Except.bind]
          | ok => exact absurd (henter.mp ht) (by rw [hs]; simp)
      | ok =>
          rw [henter.mpr hs]
          show (if _ then _ else if _ then _ else _) = _ ↔ (if _ then _ else if _ then _ else _) = _
          split
          · exact ih
          · split
            · exact ih
            · exact ih

/-- A path leads where it led before. -/
theorem locate_iff {directory : Place} {path : List Char} :
    t.locate directory path = .ok q ↔ s.locate directory path = .ok q := by
  unfold locate
  split
  · exact Iff.rfl
  · exact h.follow_iff
  · exact h.follow_iff

end Written

end Store

/-! ## Well-formed stores -/

/-- What a path can name: no piece of a path that leads nowhere or upwards. -/
structure IsName (name : Name) : Prop where
  nonempty : name ≠ []
  noSlash : '/' ∉ name
  notHere : name ≠ ['.']
  notUp : name ≠ ['.', '.']

instance (name : Name) : Decidable (IsName name) :=
  decidable_of_iff (name ≠ [] ∧ '/' ∉ name ∧ name ≠ ['.'] ∧ name ≠ ['.', '.'])
    ⟨fun h => ⟨h.1, h.2.1, h.2.2.1, h.2.2.2⟩, fun h => ⟨h.1, h.2, h.3, h.4⟩⟩

namespace Store

/-- A store that is a tree: its entries are in order, so that each place has one, all names are proper, and
the root and whatever has an entry below it is a directory. -/
structure WellFormed (s : Store) : Prop where
  ordered : s.entries.Pairwise fun a b => placeOrder a.1 b.1 = .lt
  named : ∀ e ∈ s.entries, ∀ name ∈ e.1, IsName name
  above : ∀ e ∈ s.entries, e.1 = [] ∨ s.hasBelow e.1 = true → e.2 = .directory

variable {s : Store} {place q names : Place} {c : Contents}

theorem mem_of_get?_file (h : s.get? place = some (.file c)) : (place, .file c) ∈ s.entries := by
  unfold get? at h
  split at h
  · rename_i p entry hfound
    have hp : p = place := by simpa using List.find?_some hfound
    cases h
    rw [← hp]
    exact List.mem_of_find?_eq_some hfound
  · split at h <;> cases h

namespace WellFormed

/-- No place has two entries. -/
theorem pairwise_ne (hs : s.WellFormed) : s.entries.Pairwise fun a b => a.1 ≠ b.1 := by
  refine hs.ordered.imp fun {a b} hlt heq => ?_
  rw [placeOrder_eq_iff.mpr heq] at hlt
  cases hlt

theorem find?_of_mem {entries : List (Place × Entry)} {e : Place × Entry}
    (hdistinct : entries.Pairwise fun a b => a.1 ≠ b.1) (he : e ∈ entries) :
    entries.find? (fun (p, _) => p == e.1) = some e := by
  induction entries with
  | nil => cases he
  | cons f rest ih =>
      rw [List.pairwise_cons] at hdistinct
      rcases List.mem_cons.mp he with rfl | hrest
      · simp
      · simpa [hdistinct.1 e hrest] using ih hdistinct.2 hrest

theorem get?_of_mem (hs : s.WellFormed) {entry : Entry} (h : (place, entry) ∈ s.entries) :
    s.get? place = some entry := by
  simp [get?, find?_of_mem hs.pairwise_ne h]

theorem get?_file_iff (hs : s.WellFormed) :
    s.get? place = some (.file c) ↔ (place, .file c) ∈ s.entries :=
  ⟨mem_of_get?_file, hs.get?_of_mem⟩

theorem get?_of_hasBelow (hs : s.WellFormed) (h : place = [] ∨ s.hasBelow place = true) :
    s.get? place = some .directory := by
  unfold get?
  split
  · rename_i p entry hfound
    have hp : p = place := by simpa using List.find?_some hfound
    subst hp
    have hentry : entry = .directory := hs.above _ (List.mem_of_find?_eq_some hfound) h
    rw [hentry]
  · rw [if_pos]
    simpa using h

/-- What stands above something is a directory. -/
theorem directory_above (hs : s.WellFormed) (h : s.get? (place ++ names) ≠ none) (hne : names ≠ []) :
    s.get? place = some .directory := by
  unfold get? at h
  split at h
  · rename_i p entry hfound
    have hp : p = place ++ names := by simpa using List.find?_some hfound
    exact hs.get?_of_hasBelow
      (.inr (hasBelow_iff.mpr ⟨_, List.mem_of_find?_eq_some hfound, names, hne, hp⟩))
  · split at h
    · rename_i hdirectory
      rw [Bool.or_eq_true] at hdirectory
      rcases hdirectory with hempty | hbelow
      · exact absurd (List.append_eq_nil_iff.mp (List.isEmpty_iff.mp hempty)).2 hne
      · obtain ⟨e, he, more, hmore, heq⟩ := hasBelow_iff.mp hbelow
        refine hs.get?_of_hasBelow (.inr (hasBelow_iff.mpr ⟨e, he, names ++ more, by simp [hne], ?_⟩))
        rw [heq, List.append_assoc]
    · exact absurd rfl h

end WellFormed
end Store
end Files
end StoryDocs
