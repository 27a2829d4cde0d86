import Mathlib.Data.List.Basic

/-!
# Tables written entry by entry

The layout keeps ranks, positions and coordinates in tables that are filled in one entry at a
time. `setAll` writes a list of entries; if their indices are distinct, the table has the
entry's value at each of them (`getD_setAll`) and is the old one elsewhere
(`getD_setAll_of_not_mem`).
-/

namespace LayeredDrawing

variable {α : Type} {table : Array α} {u v : Nat} {x d : α}

theorem getD_setIfInBounds_self (h : v < table.size) :
    (table.setIfInBounds v x).getD v d = x := by
  simp [h]

theorem getD_setIfInBounds_ne (h : u ≠ v) :
    (table.setIfInBounds u x).getD v d = table.getD v d := by
  simp [h]

/-- A table with entries written into it, in their order. -/
def setAll (table : Array α) (entries : List (Nat × α)) : Array α :=
  entries.foldl (fun t e => t.setIfInBounds e.1 e.2) table

variable {entries : List (Nat × α)}

@[simp] theorem setAll_nil (table : Array α) : setAll table [] = table := rfl

@[simp] theorem setAll_cons (table : Array α) (e : Nat × α) (entries : List (Nat × α)) :
    setAll table (e :: entries) = setAll (table.setIfInBounds e.1 e.2) entries := rfl

@[simp] theorem size_setAll (table : Array α) (entries : List (Nat × α)) :
    (setAll table entries).size = table.size := by
  induction entries generalizing table with
  | nil => rfl
  | cons e entries ih => simp [ih]

theorem getD_replicate (size v : Nat) (d : α) : (Array.replicate size d).getD v d = d := by
  rw [Array.getD_eq_getD_getElem?, Array.getElem?_replicate]
  split <;> rfl

/-- What holds of a table and of the entries holds of the table they are written into. -/
theorem forall_getD_setAll {P : α → Prop} (ht : ∀ v, P (table.getD v d))
    (he : ∀ e ∈ entries, P e.2) (v : Nat) : P ((setAll table entries).getD v d) := by
  induction entries generalizing table with
  | nil => exact ht v
  | cons e entries ih =>
    obtain ⟨hx, he⟩ := List.forall_mem_cons.1 he
    refine ih (fun u => ?_) he
    rw [Array.getD_eq_getD_getElem?, Array.getElem?_setIfInBounds]
    split
    · split
      · exact hx
      · rename_i h₁ h₂
        have := ht u
        rwa [Array.getD_eq_getD_getElem?, Array.getElem?_eq_none (by omega)] at this
    · rw [← Array.getD_eq_getD_getElem?]
      exact ht u

theorem getD_setAll_of_not_mem (h : v ∉ entries.map (·.1)) :
    (setAll table entries).getD v d = table.getD v d := by
  induction entries generalizing table with
  | nil => rfl
  | cons e entries ih =>
    obtain ⟨he, h⟩ := not_or.1 (mt List.mem_cons.2 h)
    rw [setAll_cons, ih h, getD_setIfInBounds_ne (Ne.symm he)]

theorem getD_setAll (hn : (entries.map (·.1)).Nodup) (hm : (v, x) ∈ entries)
    (hv : v < table.size) : (setAll table entries).getD v d = x := by
  induction entries generalizing table with
  | nil => simp at hm
  | cons e entries ih =>
    obtain ⟨he, hn⟩ := List.nodup_cons.1 hn
    rw [setAll_cons]
    rcases List.mem_cons.1 hm with rfl | hm
    · rw [getD_setAll_of_not_mem he, getD_setIfInBounds_self hv]
    · exact ih hn hm (by simpa using hv)

end LayeredDrawing
