import LayeredDrawing.Disk
import Mathlib.Data.List.TakeWhile

/-!
# Reading what was written

A file that was written has the text that was written to it (`Disk.readText_write`). The write
changes the disk at one location, where no directory was; a path to a file leads through
directories only, so it leads to the same location before and after (`Disk.walk_put`).
-/

namespace LayeredDrawing.Disk

variable {d : Disk} {location : Location} {entry : Entry}

/-! ## What is at a location -/

theorem lookup_put_self (hroot : location ≠ []) :
    Disk.entry? (d.put location entry) location = some entry := by
  simp [ entry?, hroot, put]

theorem lookup_filter_of_ne {other : Location} (hne : other ≠ location)
    (entries : List (Location × Entry)) :
    (entries.filter (·.1 != location)).lookup other = entries.lookup other := by
  induction entries with
  | nil => rfl
  | cons m ms ih =>
    obtain ⟨place, e⟩ := m
    by_cases hplace : place = location
    · have hother : (other == location) = false := by simpa using hne
      simpa [List.filter_cons, List.lookup_cons, hplace, hother] using ih
    · cases hother : (other == place) <;> simp [List.lookup_cons, hplace, hother, ih]

theorem lookup_put_of_ne {other : Location} (hne : other ≠ location) :
    Disk.entry? (d.put location entry) other = d.entry? other := by
  have hbeq : (other == location) = false := by simpa using hne
  unfold entry?
  split
  · rfl
  · simp only [put, List.lookup_cons, hbeq]
    exact lookup_filter_of_ne hne d.entries

/-! ## Paths -/

/-- The names of a path are followed one part after the other. -/
theorem walk_append {here there : Location} {as : List String} (h : d.walk here as = .ok there)
    (bs : List String) : d.walk here (as ++ bs) = d.walk there bs := by
  induction as generalizing here with
  | nil =>
    obtain rfl : here = there := by simpa [walk] using h
    rfl
  | cons name rest ih =>
    rw [walk] at h
    rw [List.cons_append, walk]
    split at h
    · simp at h
    · simp at h
    · split at h
      · next hstay => rw [if_pos hstay, ih h]
      · next hstay =>
        rw [if_neg hstay]
        split at h
        · next hup => rw [if_pos hup, ih h]
        · next hup =>
          rw [if_neg hup]
          split at h
          · simp at h
          · next hthere => rw [if_neg hthere, ih h]

/-- A path that leads through directories does not change when something is put where no
directory was. -/
theorem walk_put {here there : Location} {names : List String} (hroot : location ≠ [])
    (hfree : ¬ d.entry? location = some .directory) (h : d.walk here names = .ok there) :
    (d.put location entry).walk here names = .ok there := by
  induction names generalizing here with
  | nil => exact h
  | cons name rest ih =>
    rw [walk] at h ⊢
    split at h
    · simp at h
    · simp at h
    · next hdirectory =>
      have hhere : here ≠ location := by
        rintro rfl
        exact hfree hdirectory
      rw [lookup_put_of_ne hhere]
      simp only [hdirectory]
      split at h
      · next hstay => rw [if_pos hstay, ih h]
      · next hstay =>
        rw [if_neg hstay]
        split at h
        · next hup => rw [if_pos hup, ih h]
        · next hup =>
          rw [if_neg hup]
          split at h
          · simp at h
          · next hthere =>
            have hstill : ¬ (Disk.entry? (d.put location entry) (here ++ [name])).isNone := by
              by_cases hlocation : here ++ [name] = location
              · rw [hlocation, lookup_put_self hroot]; simp
              · rw [lookup_put_of_ne hlocation]; exact hthere
            rw [if_neg hstill, ih h]

/-- What it takes for a file to be written: a directory that is there, and a name in it that is
no directory. -/
theorem exists_of_target {path : String} (h : d.target path = .ok location) :
    ∃ before last here, names path = before ++ [last] ∧
      d.walk (d.start path) before = .ok here ∧ d.entry? here = some .directory ∧
      location = here ++ [last] ∧ (¬ d.entry? location = some .directory) ∧
      last ≠ "" ∧ last ≠ "." ∧ last ≠ ".." := by
  unfold target at h
  dsimp only at h
  split at h
  · split at h <;> simp at h
  · next last before hnames =>
    split at h
    · simp at h
    · next here hwalk =>
      split at h
      · simp at h
      · simp at h
      · simp at h
      · next hdirectory hfree =>
        split at h
        · simp at h
        · next hlast =>
          obtain rfl : here ++ [last] = location := by simpa using h
          simp only [not_or] at hlast
          obtain ⟨hdot, hup, hslash⟩ := hlast
          -- The last name is not empty, so none was dropped from the end of the path.
          have hreverse : (names path).reverse = last :: before := by
            rw [← hnames, eq_comm, List.dropWhile_eq_self_iff]
            intro hlength hempty
            apply hslash
            rw [List.head?_eq_getElem?, List.getElem?_eq_getElem hlength]
            simpa using hempty
          have hforward : names path = before.reverse ++ [last] := by
            rw [← List.reverse_reverse (names path), hreverse, List.reverse_cons]
          have hlast : last ≠ "" := by simpa [hreverse] using hslash
          exact ⟨before.reverse, last, here, hforward, hwalk, hdirectory, rfl,
            hfree, hlast, hdot, hup⟩

/-! ## Files -/

/-- **A file that was written has the text that was written to it.** -/
theorem readText_write {d' : Disk} {path text : String} (h : d.write path text = .ok d') :
    d'.readText path = .ok text := by
  unfold write at h
  split at h
  · simp at h
  · next location htarget =>
    obtain rfl : d.put location (.file text.toUTF8) = d' := by simpa using h
    obtain ⟨before, last, here, hnames, hwalk, hdirectory, hlocation, hfree, hempty, hdot, hup⟩ :=
      exists_of_target htarget
    have hroot : location ≠ [] := by simp [hlocation]
    have hpath : path ≠ "" := by
      rintro rfl
      have hlast : before ++ [last] = [] ++ [""] := hnames.symm.trans (by decide)
      obtain ⟨-, hlast⟩ := List.append_inj' hlast rfl
      exact hempty (by simpa using hlast)
    -- The walk to the directory is the same, and the file is in it now.
    have hfind : (d.put location (.file text.toUTF8)).find path = .ok location := by
      have hsame : (d.put location (.file text.toUTF8)).walk (d.start path) before = .ok here :=
        walk_put hroot hfree hwalk
      have hhere : here ≠ location := by simp [hlocation]
      rw [find, if_neg hpath, hnames]
      refine (walk_append hsame [last]).trans ?_
      rw [walk, lookup_put_of_ne hhere, hdirectory]
      simp only [hempty, hdot, hup, or_self, if_false]
      rw [← hlocation, lookup_put_self hroot]
      rfl
    have htext : String.fromUTF8? text.toUTF8 = some text := by
      unfold String.fromUTF8?
      exact dif_pos text.isValidUTF8
    simp only [readText, hfind, lookup_put_self hroot, htext]

end LayeredDrawing.Disk
