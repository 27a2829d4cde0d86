import LayeredDrawing.Coordinates
import LayeredDrawing.Proofs.Exact
import LayeredDrawing.Proofs.Table
import Mathlib.Data.List.Chain
import Mathlib.Data.List.Nodup
import Mathlib.Tactic.Linarith

/-!
# Alignment keeps nodes apart

Centers are written into the table in two ways only: a layer is packed, or it is aligned
(`Arranged`). Layers have no node in common, so after packing, after each layer that is aligned and
after any number of rounds each layer has the centers that it got last (`Laid`), over any numbers.

A layer that is aligned gets its centers from three lists, in each of which neighbours are as far
apart as they have to be (`Apart`): the centers pushed right, those pushed left, and the middle of
both. Exact middles keep the distances, whatever the wishes were. The table of centers therefore
keeps the gaps of all layers (`KeepsGaps`).

* `Laid.alignLayers`: each layer has the centers of a packed or an aligned one.
* `apart_resolve`: the exact centers of an aligned layer are apart.
* `Laid.spaced`: **the gaps of all layers are kept through any number of rounds.**
-/

namespace LayeredDrawing.Coordinates

/-! ## The entries that are written -/

section Entries

variable {α : Type} [Scalar α]

/-- The nodes of a layer packed from a cursor on, with their centers. -/
def packed (sep : α) (extent : Nat → α) (cursor : α) : List Nat → List (Nat × α)
  | [] => []
  | v :: rest =>
    (v, cursor + Scalar.half (extent v)) :: packed sep extent (cursor + (extent v + sep)) rest

@[simp] theorem map_fst_packed (sep : α) (extent : Nat → α) (cursor : α) (layer : List Nat) :
    (packed sep extent cursor layer).map (·.1) = layer := by
  induction layer generalizing cursor with
  | nil => rfl
  | cons v layer ih => simp [packed, ih]

theorem packFrom_eq_setAll (sep : α) (extent : Nat → α) (cursor : α) (cross : Array α)
    (layer : List Nat) :
    packFrom sep extent cursor cross layer = setAll cross (packed sep extent cursor layer) := by
  induction layer generalizing cursor cross with
  | nil => rfl
  | cons v layer ih => rw [packFrom, ih, packed, setAll_cons]

/-- The nodes of all layers with their centers in the packed drawing. -/
def packedLayers (sep : α) (extent : Nat → α) (layers : Layers) : List (Nat × α) :=
  let widest := Scalar.largest (layers.map (packedWidth sep extent))
  layers.flatMap fun layer =>
    packed sep extent (Scalar.half (widest - packedWidth sep extent layer)) layer

theorem packLayers_eq_setAll (sep : α) (extent : Nat → α) (size : Nat) (layers : Layers) :
    packLayers sep extent size layers =
      setAll (Array.replicate size Scalar.zero) (packedLayers sep extent layers) := by
  simp only [packLayers, packedLayers, setAll, List.foldl_flatMap, packFrom_eq_setAll]

theorem map_fst_packedLayers (sep : α) (extent : Nat → α) (layers : Layers) :
    (packedLayers sep extent layers).map (·.1) = layers.flatten := by
  simp only [packedLayers, List.map_flatMap, map_fst_packed, List.flatMap_id']

theorem length_pushRightOf (sep : α) (u : Wish α) (center : α) (wishes : List (Wish α)) :
    (pushRightOf sep u center wishes).length = wishes.length := by
  induction wishes generalizing u center with
  | nil => rfl
  | cons v wishes ih => simp [pushRightOf, ih]

@[simp] theorem length_pushRight (sep : α) (wishes : List (Wish α)) :
    (pushRight sep wishes).length = wishes.length := by
  cases wishes with
  | nil => rfl
  | cons u wishes => simp [pushRight, length_pushRightOf]

theorem pushLeft_cons_cons {sep : α} {u v : Wish α} {wishes : List (Wish α)} {center : α}
    {centers : List α} (h : pushLeft sep (v :: wishes) = center :: centers) :
    pushLeft sep (u :: v :: wishes) =
      Scalar.smaller u.center (center - gap sep u v) :: center :: centers := by
  rw [pushLeft, h]

theorem exists_pushLeft (sep : α) (u : Wish α) (wishes : List (Wish α)) :
    ∃ center centers, pushLeft sep (u :: wishes) = center :: centers ∧
      centers.length = wishes.length := by
  induction wishes generalizing u with
  | nil => exact ⟨_, _, rfl, rfl⟩
  | cons v wishes ih =>
    obtain ⟨center, centers, e, hlen⟩ := ih v
    exact ⟨_, _, pushLeft_cons_cons e, by simp [hlen]⟩

@[simp] theorem length_pushLeft (sep : α) (wishes : List (Wish α)) :
    (pushLeft sep wishes).length = wishes.length := by
  cases wishes with
  | nil => rfl
  | cons u wishes =>
    obtain ⟨center, centers, e, hlen⟩ := exists_pushLeft sep u wishes
    simp [e, hlen]

@[simp] theorem length_resolve (sep : α) (wishes : List (Wish α)) :
    (resolve sep wishes).length = wishes.length := by
  simp [resolve]

/-- The nodes of a layer with the centers that alignment gives them. -/
def aligned (sep : α) (extent : Nat → α) (neighbours : Nat → List Nat) (cross : Array α)
    (layer : List Nat) : List (Nat × α) :=
  layer.zip (resolve sep (layer.map fun v => ⟨extent v, wish neighbours cross v⟩))

theorem map_fst_aligned (sep : α) (extent : Nat → α) (neighbours : Nat → List Nat)
    (cross : Array α) (layer : List Nat) :
    (aligned sep extent neighbours cross layer).map (·.1) = layer :=
  List.map_fst_zip (by simp)

theorem map_snd_aligned (sep : α) (extent : Nat → α) (neighbours : Nat → List Nat)
    (cross : Array α) (layer : List Nat) :
    (aligned sep extent neighbours cross layer).map (·.2) =
      resolve sep (layer.map fun v => ⟨extent v, wish neighbours cross v⟩) :=
  List.map_snd_zip (by simp)

theorem cross_alignLayer (sep : α) (extent : Nat → α) (neighbours : Nat → List Nat)
    (a : Alignment α) (layer : List Nat) :
    (alignLayer sep extent neighbours a layer).cross =
      setAll a.cross (aligned sep extent neighbours a.cross layer) := by
  have main : ∀ (entries : List (Nat × α)) (a : Alignment α),
      (entries.foldl (fun a e => a.place e.1 e.2) a).cross =
        setAll a.cross entries := by
    intro entries
    induction entries with
    | nil => exact fun a => rfl
    | cons e entries ih => exact fun a => ih _
  exact main _ a

/-- A layer with the centers it has when it is packed or aligned. -/
inductive Arranged (sep : α) (extent : Nat → α) (layer : List Nat) : List (Nat × α) → Prop
  | packed (cursor : α) : Arranged sep extent layer (packed sep extent cursor layer)
  | aligned (neighbours : Nat → List Nat) (cross : Array α) :
    Arranged sep extent layer (aligned sep extent neighbours cross layer)

end Entries

/-! ## The table of centers -/

section Table

variable {α : Type} [Scalar α] {sep : α} {extent : Nat → α} {cross : Array α}
  {entries : List (Nat × α)} {layers : Layers} {layer : List Nat}

/-- The nodes of a list with their centers in a table. -/
def centersIn (cross : Array α) (layer : List Nat) : List (Nat × α) :=
  layer.map fun v => (v, get cross v)

/-- Some of the entries written into a table are found in it. -/
theorem centersIn_setAll (cross : Array α) {block : List (Nat × α)} (hn : (entries.map (·.1)).Nodup)
    (hlt : ∀ v ∈ entries.map (·.1), v < cross.size) (hs : ∀ e ∈ block, e ∈ entries) :
    centersIn (setAll cross entries) (block.map (·.1)) = block := by
  rw [centersIn, List.map_map]
  refine (List.map_congr_left fun e he => ?_).trans (List.map_id block)
  exact Prod.ext rfl (getD_setAll hn (hs e he) (hlt e.1 (List.mem_map_of_mem (hs e he))))

/-- A layer keeps its centers when those of other nodes are written. -/
theorem centersIn_setAll_of_disjoint (hd : ∀ v ∈ layer, v ∉ entries.map (·.1)) :
    centersIn (setAll cross entries) layer = centersIn cross layer :=
  List.map_congr_left fun v hv => Prod.ext rfl (getD_setAll_of_not_mem (hd v hv))

/-- A layer that is aligned has the centers that alignment gives it. -/
theorem centersIn_alignLayer {neighbours : Nat → List Nat} {a : Alignment α} (hn : layer.Nodup)
    (hlt : ∀ v ∈ layer, v < a.cross.size) :
    centersIn (alignLayer sep extent neighbours a layer).cross layer =
      aligned sep extent neighbours a.cross layer := by
  have hmap := map_fst_aligned sep extent neighbours a.cross layer
  have hcenters := centersIn_setAll a.cross (by rwa [hmap]) (by rwa [hmap]) fun e he => he
  rwa [hmap, ← cross_alignLayer] at hcenters

/-- A table in which each layer has the centers of one that is packed or aligned. -/
structure Laid (sep : α) (extent : Nat → α) (layers : Layers) (size : Nat) (cross : Array α) :
    Prop where
  size_eq : cross.size = size
  arranged : ∀ layer ∈ layers, Arranged sep extent layer (centersIn cross layer)

section Rounds

variable {size : Nat} (hn : layers.flatten.Nodup) (hlt : ∀ v ∈ layers.flatten, v < size)

include hn hlt

theorem laid_packLayers : Laid sep extent layers size (packLayers sep extent size layers) := by
  refine ⟨by simp [packLayers_eq_setAll], fun layer hl => ?_⟩
  let cursor := Scalar.half (Scalar.largest (layers.map (packedWidth sep extent)) -
    packedWidth sep extent layer)
  have hblock : ∀ e ∈ packed sep extent cursor layer, e ∈ packedLayers sep extent layers :=
    fun e he => List.mem_flatMap.2 ⟨layer, hl, he⟩
  have hcenters := centersIn_setAll (Array.replicate size Scalar.zero)
    (by rwa [map_fst_packedLayers]) (by simpa [map_fst_packedLayers] using hlt) hblock
  rw [map_fst_packed] at hcenters
  rw [packLayers_eq_setAll, hcenters]
  exact .packed cursor

/-- A layer that is aligned does not touch the other layers. -/
theorem Laid.alignLayer {neighbours : Nat → List Nat} {a : Alignment α}
    (h : Laid sep extent layers size a.cross) (hl : layer ∈ layers) :
    Laid sep extent layers size (alignLayer sep extent neighbours a layer).cross := by
  obtain ⟨hnodup, hdisjoint⟩ := List.nodup_flatten.1 hn
  refine ⟨by rw [cross_alignLayer, size_setAll, h.size_eq], fun layer' hl' => ?_⟩
  by_cases e : layer' = layer
  · subst e
    have hlt' : ∀ v ∈ layer', v < a.cross.size := fun v hv =>
      h.size_eq ▸ hlt v (List.mem_flatten.2 ⟨layer', hl, hv⟩)
    rw [centersIn_alignLayer (hnodup layer' hl) hlt']
    exact .aligned neighbours a.cross
  · rw [cross_alignLayer, centersIn_setAll_of_disjoint]
    · exact h.arranged layer' hl'
    · have : Std.Symm (@List.Disjoint Nat) := ⟨fun _ _ => List.disjoint_symm⟩
      rw [map_fst_aligned]
      exact fun v hv => hdisjoint.forall hl' hl e hv

theorem Laid.foldl_alignLayer {neighbours : Nat → List Nat} {ls : Layers}
    (hs : ∀ layer ∈ ls, layer ∈ layers) {a : Alignment α}
    (h : Laid sep extent layers size a.cross) :
    Laid sep extent layers size
      (ls.foldl (Coordinates.alignLayer sep extent neighbours) a).cross := by
  induction ls generalizing a with
  | nil => exact h
  | cons layer ls ih =>
    obtain ⟨hl, hs⟩ := List.forall_mem_cons.1 hs
    exact ih hs (h.alignLayer hn hlt hl)

theorem Laid.alignRound {above below : Nat → List Nat}
    (h : Laid sep extent layers size cross) :
    Laid sep extent layers size (alignRound sep extent above below layers cross).cross := by
  have hdown : ∀ layer ∈ layers.drop 1, layer ∈ layers :=
    fun layer hl => List.mem_of_mem_drop hl
  have hup : ∀ layer ∈ layers.reverse.drop 1, layer ∈ layers :=
    fun layer hl => List.mem_reverse.1 (List.mem_of_mem_drop hl)
  exact Laid.foldl_alignLayer hn hlt hup (Laid.foldl_alignLayer hn hlt hdown h)

theorem Laid.alignLayers {above below : Nat → List Nat} {passes : Nat}
    (h : Laid sep extent layers size cross) :
    Laid sep extent layers size (alignLayers sep extent above below layers passes cross) := by
  induction passes generalizing cross with
  | zero => exact h
  | succ passes ih =>
    rw [Coordinates.alignLayers]
    split
    · exact ih (h.alignRound hn hlt)
    · exact h.alignRound hn hlt

end Rounds

end Table

/-! ## Exact centers -/

section Exact

variable {sep : Rat}

/-- Each center is as far to the right of the one before as their nodes demand. -/
def Apart (sep : Rat) (wishes : List (Wish Rat)) (centers : List Rat) : Prop :=
  (wishes.zip centers).IsChain fun p q => p.2 + gap sep p.1 q.1 ≤ q.2

theorem apart_pushRightOf (u : Wish Rat) (center : Rat) (wishes : List (Wish Rat)) :
    Apart sep (u :: wishes) (center :: pushRightOf sep u center wishes) := by
  induction wishes generalizing u center with
  | nil => exact .singleton _
  | cons v wishes ih =>
    refine List.isChain_cons_cons.2 ⟨?_, ih v _⟩
    rw [Scalar.larger_rat]
    exact le_max_right _ _

theorem apart_pushRight (wishes : List (Wish Rat)) : Apart sep wishes (pushRight sep wishes) := by
  cases wishes with
  | nil => exact .nil
  | cons u wishes => exact apart_pushRightOf u u.center wishes

theorem apart_pushLeft (wishes : List (Wish Rat)) : Apart sep wishes (pushLeft sep wishes) := by
  induction wishes with
  | nil => exact .nil
  | cons u wishes ih =>
    cases wishes with
    | nil => exact .singleton _
    | cons v wishes =>
      obtain ⟨center, centers, e, -⟩ := exists_pushLeft sep v wishes
      rw [e] at ih
      rw [pushLeft_cons_cons e, Scalar.smaller_rat]
      refine List.isChain_cons_cons.2 ⟨?_, ih⟩
      have := min_le_right u.center (center - gap sep u v)
      linarith

/-- The middles of centers that are apart are apart. -/
theorem Apart.middle {wishes : List (Wish Rat)} {rights lefts : List Rat}
    (hr : Apart sep wishes rights) (hl : Apart sep wishes lefts) :
    Apart sep wishes (rights.zipWith (fun r l => Scalar.half (r + l)) lefts) := by
  rw [Apart, List.isChain_iff_getElem] at hr hl ⊢
  intro i hi
  simp only [List.length_zip, List.length_zipWith] at hi
  have h₁ := hr i (by simp only [List.length_zip]; omega)
  have h₂ := hl i (by simp only [List.length_zip]; omega)
  simp only [List.getElem_zip, List.getElem_zipWith, Scalar.half_rat] at h₁ h₂ ⊢
  linarith

theorem apart_resolve (wishes : List (Wish Rat)) : Apart sep wishes (resolve sep wishes) :=
  (apart_pushRight wishes).middle (apart_pushLeft wishes)

/-- Of two nodes with their centers, the second is as far to the right of the first as their
extents and the distance between them demand. -/
def Follows (sep : Rat) (extent : Nat → Rat) (p q : Nat × Rat) : Prop :=
  p.2 + ((extent p.1 + extent q.1) / 2 + sep) ≤ q.2

theorem isChain_packed (sep : Rat) (extent : Nat → Rat) (cursor : Rat) (layer : List Nat) :
    (packed sep extent cursor layer).IsChain (Follows sep extent) := by
  induction layer generalizing cursor with
  | nil => exact .nil
  | cons u layer ih =>
    cases layer with
    | nil => exact .singleton _
    | cons v layer =>
      refine List.isChain_cons_cons.2 ⟨?_, ih _⟩
      simp only [Follows, Scalar.half_rat]
      linarith

theorem isChain_aligned (sep : Rat) (extent : Nat → Rat) (neighbours : Nat → List Nat)
    (cross : Array Rat) (layer : List Nat) :
    (aligned sep extent neighbours cross layer).IsChain (Follows sep extent) := by
  have h : Apart sep (layer.map fun v => ⟨extent v, wish neighbours cross v⟩) _ :=
    apart_resolve _
  rw [Apart, List.zip_map_left, List.isChain_map] at h
  exact h

/-- The exact centers of a layer that is packed or aligned keep their gaps. -/
theorem Arranged.isChain {extent : Nat → Rat} {layer : List Nat} {entries : List (Nat × Rat)}
    (h : Arranged sep extent layer entries) : entries.IsChain (Follows sep extent) := by
  cases h with
  | packed cursor => exact isChain_packed sep extent cursor layer
  | aligned neighbours cross => exact isChain_aligned sep extent neighbours cross layer

/-- Each node of a layer is as far to the right of the one before as the two demand. -/
def KeepsGaps (sep : Rat) (extent : Nat → Rat) (cross : Array Rat) (layer : List Nat) : Prop :=
  layer.IsChain fun u v => Follows sep extent (u, get cross u) (v, get cross v)

/-- A table of centers that keeps the gaps of all layers. -/
structure Spaced (sep : Rat) (extent : Nat → Rat) (layers : Layers) (size : Nat)
    (cross : Array Rat) : Prop where
  size_eq : cross.size = size
  keepsGaps : ∀ layer ∈ layers, KeepsGaps sep extent cross layer

/-- **No round brings nodes closer together** than they have to be. -/
theorem Laid.spaced {extent : Nat → Rat} {layers : Layers} {size : Nat} {cross : Array Rat}
    (h : Laid sep extent layers size cross) : Spaced sep extent layers size cross where
  size_eq := h.size_eq
  keepsGaps layer hl := (List.isChain_map _).1 (h.arranged layer hl).isChain

end Exact

end LayeredDrawing.Coordinates
