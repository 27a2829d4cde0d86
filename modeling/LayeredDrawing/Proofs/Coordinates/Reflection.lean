import LayeredDrawing.Proofs.Coordinates.Extent
import Mathlib.Algebra.Order.Group.MinMax
import Mathlib.Tactic.FieldSimp

/-!
# Mirror images

Exact coordinates prefer no side. If every layer is listed from right to left, packing gives the
centers mirrored in the middle of the widest layer (`mirrored_packLayers`), and every layer that is
aligned keeps the two tables mirror images: the mirrored wishes, pushed right, are what the wishes
are, pushed left (`pushRight_mirror`, `pushLeft_mirror`), and nodes move by the same distances, so
that both runs end after the same round. The last shift puts the left ends of both drawings on the
margin.

* `Mirrored.alignLayers`: all rounds keep the tables mirror images.
* `assign_reverse`: **the drawing of the reversed layers is the mirror image of the drawing.**
-/

namespace LayeredDrawing

namespace Scalar

variable {xs ys : List Rat}

theorem foldl_add_rat (xs : List Rat) (x : Rat) : xs.foldl (· + ·) x = x + xs.sum := by
  induction xs generalizing x with
  | nil => simp
  | cons y xs ih => rw [List.foldl_cons, ih, List.sum_cons, add_assoc]

theorem sum_rat (xs : List Rat) : sum xs = xs.sum :=
  (foldl_add_rat xs 0).trans (zero_add _)

/-- The greatest member does not depend on the order. -/
theorem largest_congr (h : xs.Perm ys) : largest xs = largest ys := by
  have hcomm : RightCommutative (larger : Rat → Rat → Rat) :=
    ⟨fun a b c => by simp only [larger_rat, max_right_comm]⟩
  exact h.foldl_eq zero

theorem mean?_cons (x : Rat) (xs : List Rat) :
    mean? (x :: xs) = some ((x :: xs).sum / ((x :: xs).length : Rat)) := by
  have hfold : mean? (x :: xs) =
      some ((x :: xs).foldl (· + ·) zero / ((x :: xs).length : Rat)) := rfl
  rw [hfold, foldl_add_rat, zero_rat, zero_add]

theorem mean?_map_sub (k : Rat) (xs : List Rat) :
    mean? (xs.map (k - ·)) = (mean? xs).map (k - ·) := by
  have hsum : ∀ xs : List Rat, (xs.map (k - ·)).sum = xs.length * k - xs.sum := by
    intro xs
    induction xs with
    | nil => simp
    | cons x xs ih =>
      simp only [List.map_cons, List.sum_cons, ih, List.length_cons, Nat.cast_add, Nat.cast_one]
      ring
  cases xs with
  | nil => rfl
  | cons x xs =>
    have hlength : ((x :: xs).length : Rat) ≠ 0 := Nat.cast_ne_zero.2 (by simp)
    rw [List.map_cons, mean?_cons, ← List.map_cons, hsum, List.length_map, mean?_cons,
      Option.map_some]
    congr 1
    field_simp

end Scalar

namespace Coordinates

variable {sep k : Rat} {extent : Nat → Rat} {size : Nat} {layers : Layers} {layer : List Nat}

/-! ## Rows of wishes -/

section Rows

/-- The wish of a node in the mirror image. -/
def Wish.mirror (k : Rat) (w : Wish Rat) : Wish Rat := ⟨w.extent, k - w.center⟩

theorem gap_mirror (u v : Wish Rat) : gap sep (u.mirror k) (v.mirror k) = gap sep v u := by
  simp only [gap, Wish.mirror, add_comm u.extent]

theorem exists_pushRightOf_concat (sep : Rat) (w : Wish Rat) (center : Rat) (ws : List (Wish Rat))
    (u : Wish Rat) :
    ∃ cs c, pushRightOf sep w center (ws ++ [u]) = cs ++ [c] ∧
      ∀ v, pushRightOf sep w center (ws ++ [u, v]) =
        cs ++ [c, Scalar.larger v.center (c + gap sep u v)] := by
  induction ws generalizing w center with
  | nil => exact ⟨[], _, rfl, fun v => rfl⟩
  | cons w' ws ih =>
    obtain ⟨cs, c, hu, hv⟩ := ih w' (Scalar.larger w'.center (center + gap sep w w'))
    exact ⟨_ :: cs, c, congrArg (_ :: ·) hu, fun v => congrArg (_ :: ·) (hv v)⟩

/-- The last node of a row is pushed by the one before it. -/
theorem exists_pushRight_concat (sep : Rat) (ws : List (Wish Rat)) (u : Wish Rat) :
    ∃ cs c, pushRight sep (ws ++ [u]) = cs ++ [c] ∧
      ∀ v, pushRight sep (ws ++ [u, v]) =
        cs ++ [c, Scalar.larger v.center (c + gap sep u v)] := by
  cases ws with
  | nil => exact ⟨[], _, rfl, fun v => rfl⟩
  | cons w ws =>
    obtain ⟨cs, c, hu, hv⟩ := exists_pushRightOf_concat sep w w.center ws u
    exact ⟨_ :: cs, c, congrArg (_ :: ·) hu, fun v => congrArg (_ :: ·) (hv v)⟩

/-- The mirrored row, pushed right, is the row pushed left. -/
theorem pushRight_mirror (ws : List (Wish Rat)) :
    pushRight sep (ws.map (Wish.mirror k)).reverse =
      ((pushLeft sep ws).map (k - ·)).reverse := by
  induction ws with
  | nil => rfl
  | cons u ws ih =>
    cases ws with
    | nil => rfl
    | cons v ws =>
      obtain ⟨center, centers, e, -⟩ := exists_pushLeft sep v ws
      obtain ⟨cs, c, hv, hu⟩ :=
        exists_pushRight_concat sep (ws.map (Wish.mirror k)).reverse (v.mirror k)
      rw [List.map_cons, List.reverse_cons, hv, e, List.map_cons, List.reverse_cons] at ih
      obtain ⟨rfl, hc⟩ := List.append_inj' ih rfl
      obtain rfl : c = k - center := by simpa using hc
      have hpush : Scalar.larger (k - u.center) (k - center + gap sep u v) =
          k - Scalar.smaller u.center (center - gap sep u v) := by
        rw [Scalar.larger_rat, Scalar.smaller_rat, ← max_sub_sub_left]
        congr 1
        ring
      have hu := hu (u.mirror k)
      rw [gap_mirror] at hu
      rw [pushLeft_cons_cons e]
      simp only [List.map_cons, List.reverse_cons, List.append_assoc, List.singleton_append]
      rw [hu, ← hpush]
      rfl

theorem map_mirror_mirror (ws : List (Wish Rat)) :
    (ws.map (Wish.mirror k)).map (Wish.mirror k) = ws := by
  rw [List.map_map]
  refine (List.map_congr_left fun w _ => ?_).trans (List.map_id ws)
  simp [Wish.mirror]

theorem pushLeft_mirror (ws : List (Wish Rat)) :
    pushLeft sep (ws.map (Wish.mirror k)).reverse =
      ((pushRight sep ws).map (k - ·)).reverse := by
  have h : pushRight sep (((ws.map (Wish.mirror k)).reverse.map (Wish.mirror k)).reverse) = _ :=
    pushRight_mirror _
  rw [List.map_reverse, map_mirror_mirror, List.reverse_reverse] at h
  rw [h, List.map_reverse, List.reverse_reverse, List.map_map]
  refine ((List.map_congr_left fun c _ => ?_).trans (List.map_id _)).symm
  simp

theorem resolve_mirror (ws : List (Wish Rat)) :
    resolve sep (ws.map (Wish.mirror k)).reverse = ((resolve sep ws).map (k - ·)).reverse := by
  rw [resolve, resolve, pushRight_mirror, pushLeft_mirror, ← List.reverse_zipWith (by simp),
    List.map_zipWith, List.zipWith_map, List.zipWith_comm]
  congr 2
  funext r l
  simp only [Scalar.half_rat]
  ring

end Rows

/-! ## Tables -/

/-- Two tables of the centers of as many nodes are mirror images of each other. -/
structure Mirrored (k : Rat) (size : Nat) (cross cross' : Array Rat) : Prop where
  size_eq : cross.size = size
  size_eq' : cross'.size = size
  center : ∀ v < size, get cross' v = k - get cross v

section Entries

variable {entries : List (Nat × Rat)} {cross cross' : Array Rat}

/-- An entry in the mirror image. -/
def mirrorEntry (k : Rat) (e : Nat × Rat) : Nat × Rat := (e.1, k - e.2)

theorem map_fst_mirrorEntries (entries : List (Nat × Rat)) :
    ((entries.map (mirrorEntry k)).reverse).map (·.1) = (entries.map (·.1)).reverse := by
  rw [List.map_reverse, List.map_map]
  rfl

theorem mirrored_setAll (h : Mirrored k size cross cross') (hn : (entries.map (·.1)).Nodup) :
    Mirrored k size (setAll cross entries)
      (setAll cross' (entries.map (mirrorEntry k)).reverse) where
  size_eq := by rw [size_setAll, h.size_eq]
  size_eq' := by rw [size_setAll, h.size_eq']
  center v hv := by
    have hkeys := map_fst_mirrorEntries (k := k) entries
    by_cases hm : v ∈ entries.map (·.1)
    · obtain ⟨⟨_, c⟩, he, rfl⟩ := List.mem_map.1 hm
      have hold : get (setAll cross entries) _ = c :=
        getD_setAll hn he (h.size_eq.symm ▸ hv)
      have hnew : get (setAll cross' (entries.map (mirrorEntry k)).reverse) _ =
          k - c :=
        getD_setAll (by rw [hkeys]; exact List.nodup_reverse.2 hn)
          (List.mem_reverse.2 (List.mem_map_of_mem he)) (h.size_eq'.symm ▸ hv)
      rw [hold, hnew]
    · have hold : get (setAll cross entries) v = get cross v :=
        getD_setAll_of_not_mem hm
      have hnew : get (setAll cross' (entries.map (mirrorEntry k)).reverse) v =
          get cross' v :=
        getD_setAll_of_not_mem (by rwa [hkeys, List.mem_reverse])
      rw [hold, hnew, h.center v hv]

/-- Distances in the mirror image are the same. -/
theorem movesFrom_mirror (old new : Rat) : movesFrom (k - old) (k - new) = movesFrom old new := by
  have hleft : k - new - (k - old) = old - new := by ring
  have hright : k - old - (k - new) = new - old := by ring
  rw [movesFrom, movesFrom, hleft, hright, Bool.or_comm]

/-- Distinct nodes are placed: whether one has moved is told by the table before. -/
theorem moved_foldl_place (hn : (entries.map (·.1)).Nodup) (a : Alignment Rat) :
    (entries.foldl (fun a e => a.place e.1 e.2) a).moved =
      (a.moved || entries.any fun e => movesFrom (get a.cross e.1) e.2) := by
  induction entries generalizing a with
  | nil => simp
  | cons e entries ih =>
    obtain ⟨he, hn⟩ := List.nodup_cons.1 hn
    have hrest : (entries.any fun e' => movesFrom (get (a.place e.1 e.2).cross e'.1) e'.2) =
        entries.any fun e' => movesFrom (get a.cross e'.1) e'.2 := by
      refine Bool.eq_iff_iff.2 ?_
      simp only [List.any_eq_true]
      refine exists_congr fun e' => and_congr_right fun he' => ?_
      have hne : e.1 ≠ e'.1 := fun h => he (List.mem_map.2 ⟨e', he', h.symm⟩)
      have hget : get (a.place e.1 e.2).cross e'.1 = get a.cross e'.1 := getD_setIfInBounds_ne hne
      rw [hget]
    rw [List.foldl_cons, ih hn, hrest, List.any_cons, ← Bool.or_assoc]
    rfl

end Entries

/-! ## Packed layers -/

/-- The nodes before one in a packed layer, their extents and the gaps after them come before it. -/
theorem mem_packed_append (cursor : Rat) (before after : List Nat) (v : Nat) :
    (v, cursor + (before.map extent).sum + sep * before.length + extent v / 2) ∈
      packed sep extent cursor (before ++ v :: after) := by
  induction before generalizing cursor with
  | nil =>
    refine List.mem_cons.2 (.inl (Prod.ext rfl ?_))
    simp
  | cons u before ih =>
    have hcursor : cursor + ((u :: before).map extent).sum + sep * (u :: before).length =
        cursor + (extent u + sep) + (before.map extent).sum + sep * before.length := by
      simp only [List.map_cons, List.sum_cons, List.length_cons, Nat.cast_add, Nat.cast_one]
      ring
    rw [hcursor]
    exact List.mem_cons_of_mem _ (ih _)

theorem packedWidth_append (before after : List Nat) (v : Nat) :
    packedWidth sep extent (before ++ v :: after) =
      (before.map extent).sum + extent v + (after.map extent).sum +
        sep * (before.length + after.length) := by
  have hlength : (before ++ v :: after).length - 1 = before.length + after.length := by
    rw [List.length_append, List.length_cons]
    omega
  rw [packedWidth, Scalar.sum_rat, hlength]
  simp only [List.map_append, List.map_cons, List.sum_append, List.sum_cons, Scalar.ofNat_rat,
    Nat.cast_add]
  ring

theorem packedWidth_reverse (layer : List Nat) :
    packedWidth sep extent layer.reverse = packedWidth sep extent layer := by
  rw [packedWidth, packedWidth, Scalar.sum_rat, Scalar.sum_rat, List.length_reverse,
    (layer.reverse_perm.map extent).sum_eq]

/-- The center of a node in the packed drawing, by the nodes before it and after it. -/
theorem get_packLayers (hn : layers.flatten.Nodup) (hlt : ∀ v ∈ layers.flatten, v < size)
    {before after : List Nat} {v : Nat} (hl : before ++ v :: after ∈ layers) :
    get (packLayers sep extent size layers) v =
      (Scalar.largest (layers.map (packedWidth sep extent)) -
          packedWidth sep extent (before ++ v :: after)) / 2 +
        (before.map extent).sum + sep * before.length + extent v / 2 := by
  have hflat : v ∈ layers.flatten := List.mem_flatten.2 ⟨_, hl, by simp⟩
  rw [packLayers_eq_setAll]
  refine getD_setAll (by rwa [map_fst_packedLayers]) ?_ (by simpa using hlt v hflat)
  exact List.mem_flatMap.2 ⟨_, hl, mem_packed_append _ before after v⟩

theorem perm_flatten_map_reverse (layers : Layers) :
    (layers.map List.reverse).flatten.Perm layers.flatten := by
  refine List.Perm.flatten_congr ?_
  rw [List.forall₂_map_left_iff]
  exact List.forall₂_same.2 fun layer _ => layer.reverse_perm

section Layers

variable (hl : layers.flatten.Perm (List.range size))

include hl

theorem nodup_flatten : layers.flatten.Nodup := hl.nodup_iff.2 List.nodup_range

theorem lt_size_of_mem : ∀ v ∈ layers.flatten, v < size := fun _ hv =>
  List.mem_range.1 (hl.mem_iff.1 hv)

/-- **Packing prefers no side.** -/
theorem mirrored_packLayers :
    Mirrored (Scalar.largest (layers.map (packedWidth sep extent))) size
      (packLayers sep extent size layers)
      (packLayers sep extent size (layers.map List.reverse)) := by
  have hl' := (perm_flatten_map_reverse layers).trans hl
  have hwidths : (layers.map List.reverse).map (packedWidth sep extent) =
      layers.map (packedWidth sep extent) := by
    rw [List.map_map]
    exact List.map_congr_left fun layer _ => packedWidth_reverse layer
  refine ⟨by simp [packLayers_eq_setAll], by simp [packLayers_eq_setAll], fun v hv => ?_⟩
  obtain ⟨layer, hlayer, hm⟩ := List.mem_flatten.1 (hl.mem_iff.2 (List.mem_range.2 hv))
  obtain ⟨before, after, rfl⟩ := List.append_of_mem hm
  have hreverse : (before ++ v :: after).reverse = after.reverse ++ v :: before.reverse := by simp
  have hlayer' : after.reverse ++ v :: before.reverse ∈ layers.map List.reverse :=
    hreverse ▸ List.mem_map_of_mem hlayer
  rw [get_packLayers (nodup_flatten hl) (lt_size_of_mem hl) hlayer,
    get_packLayers (nodup_flatten hl') (lt_size_of_mem hl') hlayer', hwidths, ← hreverse,
    packedWidth_reverse, packedWidth_append, (after.reverse_perm.map extent).sum_eq,
    List.length_reverse]
  ring

end Layers

/-! ## Aligned layers -/

section Rounds

variable {neighbours above below : Nat → List Nat} {cross cross' : Array Rat}
  {a a' : Alignment Rat}

/-- Two tables of centers that are mirror images, after nodes have moved noticeably in both rounds
or in neither. -/
structure MirroredRun (k : Rat) (size : Nat) (a a' : Alignment Rat) : Prop where
  cross : Mirrored k size a.cross a'.cross
  moved : a'.moved = a.moved

theorem wish_mirrored (h : Mirrored k size cross cross') (hnb : ∀ v, ∀ w ∈ neighbours v, w < size)
    {v : Nat} (hv : v < size) : wish neighbours cross' v = k - wish neighbours cross v := by
  have hcenters : (neighbours v).map (get cross') = ((neighbours v).map (get cross)).map (k - ·) := by
    rw [List.map_map]
    exact List.map_congr_left fun w hw => h.center w (hnb v w hw)
  rw [wish, wish, hcenters, Scalar.mean?_map_sub, h.center v hv]
  cases Scalar.mean? ((neighbours v).map (get cross)) <;> rfl

/-- A reversed layer is aligned to the mirror image. -/
theorem aligned_reverse (h : Mirrored k size cross cross')
    (hnb : ∀ v, ∀ w ∈ neighbours v, w < size) (hlt : ∀ v ∈ layer, v < size) :
    aligned sep extent neighbours cross' layer.reverse =
      ((aligned sep extent neighbours cross layer).map (mirrorEntry k)).reverse := by
  have hwishes : (layer.reverse.map fun v => (⟨extent v, wish neighbours cross' v⟩ : Wish Rat)) =
      ((layer.map fun v => (⟨extent v, wish neighbours cross v⟩ : Wish Rat)).map
        (Wish.mirror k)).reverse := by
    rw [← List.map_reverse, ← List.map_reverse, List.map_map]
    refine List.map_congr_left fun v hv => ?_
    rw [wish_mirrored h hnb (hlt v (List.mem_reverse.1 hv))]
    rfl
  rw [aligned, hwishes, resolve_mirror, aligned, List.zip_eq_zipWith, List.zip_eq_zipWith,
    ← List.reverse_zipWith (by simp), List.map_zipWith, List.zipWith_map_right]
  rfl

theorem moved_alignLayer (hn : layer.Nodup) :
    (alignLayer sep extent neighbours a layer).moved = (a.moved ||
      (aligned sep extent neighbours a.cross layer).any fun e =>
        movesFrom (get a.cross e.1) e.2) := by
  have hkeys := map_fst_aligned sep extent neighbours a.cross layer
  exact moved_foldl_place (hkeys.symm ▸ hn) a

/-- **Aligning a layer prefers no side.** -/
theorem MirroredRun.alignLayer (h : MirroredRun k size a a')
    (hnb : ∀ v, ∀ w ∈ neighbours v, w < size) (hn : layer.Nodup) (hlt : ∀ v ∈ layer, v < size) :
    MirroredRun k size (alignLayer sep extent neighbours a layer)
      (alignLayer sep extent neighbours a' layer.reverse) where
  cross := by
    rw [cross_alignLayer, cross_alignLayer, aligned_reverse h.cross hnb hlt]
    exact mirrored_setAll h.cross (by rwa [map_fst_aligned])
  moved := by
    rw [moved_alignLayer hn, moved_alignLayer (List.nodup_reverse.2 hn),
      aligned_reverse h.cross hnb hlt, h.moved, List.any_reverse, List.any_map]
    refine congrArg (a.moved || ·) (Bool.eq_iff_iff.2 ?_)
    simp only [List.any_eq_true, Function.comp_apply, mirrorEntry]
    refine exists_congr fun e => and_congr_right fun he => ?_
    have hmem : e.1 ∈ layer :=
      map_fst_aligned sep extent neighbours a.cross layer ▸ List.mem_map_of_mem he
    rw [h.cross.center e.1 (hlt e.1 hmem), movesFrom_mirror]

theorem MirroredRun.foldl_alignLayer {ls : Layers} (h : MirroredRun k size a a')
    (hnb : ∀ v, ∀ w ∈ neighbours v, w < size)
    (hls : ∀ layer ∈ ls, layer.Nodup ∧ ∀ v ∈ layer, v < size) :
    MirroredRun k size (ls.foldl (Coordinates.alignLayer sep extent neighbours) a)
      ((ls.map List.reverse).foldl (Coordinates.alignLayer sep extent neighbours) a') := by
  induction ls generalizing a a' with
  | nil => exact h
  | cons layer ls ih =>
    obtain ⟨⟨hn, hlt⟩, hls⟩ := List.forall_mem_cons.1 hls
    exact ih (h.alignLayer hnb hn hlt) hls

section Neighbours

variable (habove : ∀ v, ∀ w ∈ above v, w < size) (hbelow : ∀ v, ∀ w ∈ below v, w < size)
  (hls : ∀ layer ∈ layers, layer.Nodup ∧ ∀ v ∈ layer, v < size)

include habove hbelow hls

theorem Mirrored.alignRound (h : Mirrored k size cross cross') :
    MirroredRun k size (alignRound sep extent above below layers cross)
      (alignRound sep extent above below (layers.map List.reverse) cross') := by
  have hdown : ∀ layer ∈ layers.drop 1, layer.Nodup ∧ ∀ v ∈ layer, v < size :=
    fun layer hl => hls layer (List.mem_of_mem_drop hl)
  have hup : ∀ layer ∈ layers.reverse.drop 1, layer.Nodup ∧ ∀ v ∈ layer, v < size :=
    fun layer hl => hls layer (List.mem_reverse.1 (List.mem_of_mem_drop hl))
  have hstart : MirroredRun k size ⟨cross, false⟩ ⟨cross', false⟩ := ⟨h, rfl⟩
  rw [Coordinates.alignRound, Coordinates.alignRound, ← List.map_reverse, ← List.map_drop,
    ← List.map_drop]
  exact (hstart.foldl_alignLayer habove hdown).foldl_alignLayer hbelow hup

/-- **Any number of rounds prefers no side**: they keep the centers mirror images, and as many of
them are made. -/
theorem Mirrored.alignLayers {passes : Nat} (h : Mirrored k size cross cross') :
    Mirrored k size (alignLayers sep extent above below layers passes cross)
      (alignLayers sep extent above below (layers.map List.reverse) passes cross') := by
  induction passes generalizing cross cross' with
  | zero => exact h
  | succ passes ih =>
    have hround : MirroredRun k size (Coordinates.alignRound sep extent above below layers cross)
        (Coordinates.alignRound sep extent above below (layers.map List.reverse) cross') :=
      h.alignRound habove hbelow hls
    rw [Coordinates.alignLayers, Coordinates.alignLayers, hround.moved]
    split
    · exact ih hround.cross
    · exact hround.cross

end Neighbours

end Rounds

/-! ## The frame -/

section Frame

variable {extents : Array (Size Rat)} {g : Digraph} {spacing : Spacing Rat}

theorem thicknesses_map_reverse (extents : Array (Size Rat)) (layers : Layers) :
    thicknesses extents (layers.map List.reverse) = thicknesses extents layers := by
  rw [thicknesses, List.map_map]
  exact List.map_congr_left fun layer _ =>
    Scalar.largest_congr (layer.reverse_perm.map (heightOf extents))

section Listed

variable (hl : layers.flatten.Perm (List.range extents.size))

include hl

theorem exists_mirrored_crossTable (hg : g.size ≤ extents.size) (spacing : Spacing Rat) :
    ∃ k, Mirrored k extents.size (crossTable layers extents g spacing)
      (crossTable (layers.map List.reverse) extents g spacing) := by
  have habove : ∀ v, ∀ w ∈ g.predecessorTable.at v, w < extents.size := by
    intro v w hw
    rw [Digraph.at_predecessorTable, Digraph.mem_predecessors] at hw
    exact (g.inRange _ hw).1.trans_le hg
  have hbelow : ∀ v, ∀ w ∈ g.successorTable.at v, w < extents.size := by
    intro v w hw
    rw [Digraph.at_successorTable, Digraph.mem_successors] at hw
    exact (g.inRange _ hw).2.trans_le hg
  have hlayers : ∀ layer ∈ layers, layer.Nodup ∧ ∀ v ∈ layer, v < extents.size :=
    fun layer hlayer => ⟨(List.nodup_flatten.1 (nodup_flatten hl)).1 layer hlayer,
      fun v hv => lt_size_of_mem hl v (List.mem_flatten.2 ⟨layer, hlayer, hv⟩)⟩
  exact ⟨_, (mirrored_packLayers hl).alignLayers habove hbelow hlayers⟩

theorem y_getD_centers_assign_reverse {v : Nat} (hv : v < extents.size) :
    ((assign (layers.map List.reverse) extents g spacing).centers.getD v Point.origin).y =
      ((assign layers extents g spacing).centers.getD v Point.origin).y := by
  have hl' := (perm_flatten_map_reverse layers).trans hl
  obtain ⟨layer, hlayer, hm⟩ := List.mem_flatten.1 (hl.mem_iff.2 (List.mem_range.2 hv))
  obtain ⟨r, hr⟩ := List.mem_iff_getElem?.1 hlayer
  obtain ⟨y, hy⟩ := exists_rankCenter extents spacing hr
  have hr' : (layers.map List.reverse)[r]? = some layer.reverse := by
    rw [List.getElem?_map, hr, Option.map_some]
  have hy' : (rankCenters (layers.map List.reverse) extents spacing)[r]? = some y := by
    rwa [rankCenters, thicknesses_map_reverse]
  rw [getD_centers_assign g spacing (nodup_flatten hl) (lt_size_of_mem hl) hr hy hm,
    getD_centers_assign g spacing (nodup_flatten hl') (lt_size_of_mem hl') hr' hy'
      (List.mem_reverse.2 hm)]

/-- The first start of a box in the mirror image tells the last end of one. -/
theorem isGreatest_maxX_frameBox (hk : Mirrored k extents.size (crossTable layers extents g spacing)
      (crossTable (layers.map List.reverse) extents g spacing)) {edge : Rat}
    (hedge : IsLeast {x | x ∈ (layers.map List.reverse).flatten.map fun v =>
      get (crossTable (layers.map List.reverse) extents g spacing) v - widthOf extents v / 2}
        edge) :
    IsGreatest (Box.maxX '' (frameBox layers extents g spacing '' {v | v < extents.size}))
      (k - edge + offset layers extents g spacing) := by
  have hl' := (perm_flatten_map_reverse layers).trans hl
  have hmax : ∀ v < extents.size, (frameBox layers extents g spacing v).maxX =
      k - (get (crossTable (layers.map List.reverse) extents g spacing) v -
        widthOf extents v / 2) + offset layers extents g spacing := by
    intro v hv
    rw [maxX_frameBox (nodup_flatten hl) (lt_size_of_mem hl) (hl.mem_iff.2 (List.mem_range.2 hv)),
      hk.center v hv]
    ring
  obtain ⟨hmem, hle⟩ := hedge
  refine ⟨?_, ?_⟩
  · obtain ⟨v, hv, e⟩ := List.mem_map.1 hmem
    have hv := lt_size_of_mem hl' v hv
    exact ⟨_, ⟨v, hv, rfl⟩, by rw [hmax v hv, e]⟩
  · rintro _ ⟨_, ⟨v, hv, rfl⟩, rfl⟩
    have := hle (List.mem_map_of_mem (hl'.mem_iff.2 (List.mem_range.2 hv)))
    rw [hmax v hv]
    linarith

end Listed

/-- **Exact coordinates have no bias to a side.** Take layers that list every node once, with any
extents, arcs and distances, and any number of alignment rounds. With every layer reversed the nodes
are at the same places along the rank axis and at the mirrored ones along the cross axis: the two
centers of a node add up to twice the margin and the length from the first start of a box to the
last end of one. -/
theorem assign_reverse (hl : layers.flatten.Perm (List.range extents.size))
    (hg : g.size ≤ extents.size) (spacing : Spacing Rat) :
    (assign (layers.map List.reverse) extents g spacing).rankSpan =
        (assign layers extents g spacing).rankSpan ∧
      (∀ v < extents.size,
        ((assign (layers.map List.reverse) extents g spacing).centers.getD v .origin).y =
          ((assign layers extents g spacing).centers.getD v .origin).y) ∧
      (extents.size ≠ 0 → ∃ start finish,
        IsLeast (Box.minX '' (frameBox layers extents g spacing '' {v | v < extents.size})) start ∧
        IsGreatest (Box.maxX '' (frameBox layers extents g spacing '' {v | v < extents.size}))
          finish ∧
        ∀ v < extents.size,
          ((assign (layers.map List.reverse) extents g spacing).centers.getD v .origin).x +
              ((assign layers extents g spacing).centers.getD v .origin).x =
            2 * spacing.crossMargin + (finish - start)) := by
  have hl' := (perm_flatten_map_reverse layers).trans hl
  refine ⟨?_, fun v hv => y_getD_centers_assign_reverse hl hv, fun hsize => ?_⟩
  · have hspan : ∀ ls, (assign ls extents g spacing).rankSpan =
        (stackRanks spacing.rankSep spacing.rankMargin (thicknesses extents ls)).2 -
          spacing.rankMargin := fun _ => rfl
    rw [hspan, hspan, thicknesses_map_reverse]
  · have hlisted : {v | v ∈ layers.flatten} = {v | v < extents.size} :=
      Set.ext fun v => hl.mem_iff.trans List.mem_range
    have hne : ∀ {ls : Layers}, ls.flatten.Perm (List.range extents.size) → ls.flatten ≠ [] :=
      fun h e => hsize (by simpa [e] using h.length_eq.symm)
    obtain ⟨k, hk⟩ := exists_mirrored_crossTable hl hg spacing
    obtain ⟨edge, hoffset, hedge⟩ := exists_offset_eq extents g spacing (hne hl')
    have hstart : IsLeast
        (Box.minX '' (frameBox layers extents g spacing '' {v | v ∈ layers.flatten}))
        spacing.crossMargin :=
      isLeast_minX_frameBox (nodup_flatten hl) (lt_size_of_mem hl) (hne hl)
    rw [hlisted] at hstart
    refine ⟨_, _, hstart, isGreatest_maxX_frameBox hl hk hedge, fun v hv => ?_⟩
    have hv' := List.mem_range.2 hv
    rw [x_getD_centers_assign g spacing (nodup_flatten hl') (lt_size_of_mem hl')
        (hl'.mem_iff.2 hv'),
      x_getD_centers_assign g spacing (nodup_flatten hl) (lt_size_of_mem hl) (hl.mem_iff.2 hv'),
      hoffset, hk.center v hv]
    ring

/-- A rank of one node over one with two of different widths, aligned in two rounds. -/
theorem assign_reverse_lopsided :
    let layers : Layers := [[0], [1, 2]]
    let extents : Array (Size Rat) := #[⟨10, 4⟩, ⟨6, 2⟩, ⟨20, 8⟩]
    let g : Digraph := .ofArcs 3 [⟨0, 1⟩, ⟨0, 2⟩, ⟨0, 2⟩]
    let spacing : Spacing Rat := ⟨3, 5, 1, 2, 2⟩
    ∃ start finish,
      IsLeast (Box.minX '' (frameBox layers extents g spacing '' {v | v < 3})) start ∧
      IsGreatest (Box.maxX '' (frameBox layers extents g spacing '' {v | v < 3})) finish ∧
      ∀ v < 3, ((assign [[0], [2, 1]] extents g spacing).centers.getD v .origin).x +
        ((assign layers extents g spacing).centers.getD v .origin).x =
          2 * 1 + (finish - start) := by
  intro layers extents g spacing
  have hl : layers.flatten.Perm (List.range extents.size) := by decide
  have hg : g.size ≤ extents.size := by decide
  exact (assign_reverse hl hg spacing).2.2 (by decide)

end Frame

end Coordinates

end LayeredDrawing
