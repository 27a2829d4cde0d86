import Mathlib.Data.List.Basic
import Mathlib.Data.List.Perm.Basic

/-!
# Lists with keys

Members of a list are told apart by a natural number, their key: vertices by rank, the nodes of
a rank by order. A list falls into the classes of its keys (`flatMap_filter_key_perm`), and if
its keys are `0, …, n - 1`, sorting puts each member at the index of its key
(`getElem?_mergeSort_key`). Sorting by any total order keeps the order of members that tie
(`exists_stable_mergeSort`). Where the members are pairs of a name and a value and no name occurs
twice, looking up a name finds its pair wherever it stands (`lookup_eq_some_iff_mem`).
-/

namespace LayeredDrawing

variable {β : Type} {key : β → Nat} {l : List β} {n : Nat}

theorem pairwise_mergeSort_key (l : List β) (key : β → Nat) :
    (l.mergeSort fun a b => key a ≤ key b).Pairwise fun a b => key a ≤ key b := by
  have htrans : ∀ a b c : β, decide (key a ≤ key b) = true → decide (key b ≤ key c) = true →
      decide (key a ≤ key c) = true := by
    intro a b c hab hbc
    simp only [decide_eq_true_eq] at *
    omega
  have htotal : ∀ a b : β, (decide (key a ≤ key b) || decide (key b ≤ key a)) = true := by
    intro a b
    simp only [Bool.or_eq_true, decide_eq_true_eq]
    omega
  simpa using List.pairwise_mergeSort htrans htotal l

theorem map_mergeSort_eq_range (h : (l.map key).Perm (List.range n)) :
    (l.mergeSort fun a b => key a ≤ key b).map key = List.range n := by
  have hperm : ((l.mergeSort fun a b => key a ≤ key b).map key).Perm (List.range n) :=
    ((List.mergeSort_perm l _).map key).trans h
  refine List.Perm.eq_of_pairwise (fun a b _ _ (hab : a ≤ b) hba => Nat.le_antisymm hab hba)
    ?_ ?_ hperm
  · exact List.pairwise_map.2 (pairwise_mergeSort_key l key)
  · exact List.pairwise_le_range

/-- The member with key `k` comes to stand at index `k`. -/
theorem getElem?_mergeSort_key (h : (l.map key).Perm (List.range n)) {b : β} (hb : b ∈ l) :
    (l.mergeSort fun a b => key a ≤ key b)[key b]? = some b := by
  have hm : b ∈ l.mergeSort fun a b => key a ≤ key b := List.mem_mergeSort.2 hb
  obtain ⟨i, hi⟩ := List.mem_iff_getElem?.1 hm
  have hk : ((l.mergeSort fun a b => key a ≤ key b).map key)[i]? = some (key b) := by
    rw [List.getElem?_map, hi, Option.map_some]
  rw [map_mergeSort_eq_range h, List.getElem?_eq_some_iff] at hk
  obtain ⟨hlt, hk⟩ := hk
  rw [List.getElem_range] at hk
  rw [← hk, hi]

/-- The members whose keys are listed fall into the classes of these keys. -/
theorem flatMap_filter_mem_perm (l : List β) (key : β → Nat) {keys : List Nat} (hn : keys.Nodup) :
    (keys.flatMap fun k => l.filter (key · == k)).Perm (l.filter (key · ∈ keys)) := by
  induction keys with
  | nil => simp
  | cons k keys ih =>
    obtain ⟨hk, hn⟩ := List.nodup_cons.1 hn
    have hfirst : (l.filter (key · ∈ k :: keys)).filter (key · == k) = l.filter (key · == k) := by
      rw [List.filter_filter]
      refine List.filter_congr fun b _ => ?_
      grind
    have hrest : (l.filter (key · ∈ k :: keys)).filter (fun b => !(key b == k)) =
        l.filter (key · ∈ keys) := by
      rw [List.filter_filter]
      refine List.filter_congr fun b _ => ?_
      grind
    have hsplit := List.filter_append_perm (key · == k) (l.filter (key · ∈ k :: keys))
    rw [hfirst, hrest] at hsplit
    exact ((ih hn).append_left _).trans hsplit

/-- A list falls into the classes of its keys. -/
theorem flatMap_filter_key_perm (l : List β) (key : β → Nat) (n : Nat) :
    ((List.range n).flatMap fun k => l.filter (key · == k)).Perm (l.filter (key · < n)) := by
  simpa using flatMap_filter_mem_perm l key (List.nodup_range (n := n))

/-! ## Stable sorting -/

/-- A sorted list with the indices that its members had: of two members that tie, the one with the
lesser index comes first. -/
theorem exists_stable_mergeSort {le : β → β → Bool}
    (htrans : ∀ a b c, le a b = true → le b c = true → le a c = true)
    (htotal : ∀ a b, (le a b || le b a) = true) (l : List β) :
    ∃ ranked : List (β × Nat), ranked.Perm l.zipIdx ∧
      ranked.Pairwise (fun m n => le m.1 n.1 = true ∧ (le n.1 m.1 = true → m.2 < n.2)) ∧
      ranked.map Prod.fst = l.mergeSort le := by
  have hperm := l.zipIdx.mergeSort_perm (List.zipIdxLE le)
  refine ⟨_, hperm, ?_, List.mergeSort_zipIdx⟩
  have hsorted := List.pairwise_mergeSort (List.zipIdxLE_trans htrans)
    (List.zipIdxLE_total htotal) l.zipIdx
  have hdistinct : (l.zipIdx.mergeSort (List.zipIdxLE le)).Pairwise fun m n => m.2 ≠ n.2 := by
    have hindices : (l.zipIdx.map Prod.snd).Nodup := by
      rw [List.zipIdx_map_snd]
      exact List.nodup_range'
    exact List.pairwise_map.1 ((hperm.map Prod.snd).nodup_iff.2 hindices)
  refine hsorted.imp₂ (fun m n hmn hne => ?_) hdistinct
  rw [List.zipIdxLE] at hmn
  split at hmn
  · rename_i hle
    refine ⟨hle, fun hge => ?_⟩
    rw [if_pos hge] at hmn
    exact Nat.lt_of_le_of_ne (of_decide_eq_true hmn) hne
  · cases hmn

/-! ## Values by name -/

section Named

variable {pairs pairs' : List (String × β)}

theorem lookup_eq_some_iff_mem (h : (pairs.map (·.1)).Nodup) {k : String} {b : β} :
    pairs.lookup k = some b ↔ (k, b) ∈ pairs := by
  rw [List.lookup_eq_some_iff]
  constructor
  · rintro ⟨before, after, rfl, -⟩
    simp
  · intro hm
    obtain ⟨before, after, rfl⟩ := List.append_of_mem hm
    refine ⟨before, after, rfl, fun p hp => ?_⟩
    rw [List.map_append] at h
    have hne := (List.nodup_append.1 h).2.2 p.1 (List.mem_map_of_mem hp) k (by simp)
    simpa using hne.symm

/-- The order of the pairs plays no part, nor do pairs with other names. -/
theorem lookup_congr (h : (pairs.map (·.1)).Nodup) (h' : (pairs'.map (·.1)).Nodup) {k : String}
    (hk : ∀ b, (k, b) ∈ pairs ↔ (k, b) ∈ pairs') : pairs.lookup k = pairs'.lookup k := by
  refine Option.ext fun b => ?_
  rw [lookup_eq_some_iff_mem h, lookup_eq_some_iff_mem h', hk]

end Named

end LayeredDrawing
