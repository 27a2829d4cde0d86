import LayeredDrawing.Proofs.Coordinates.Frame
import LayeredDrawing.Proofs.Number.Order

/-!
# Rounded centers are in order

Rounded centers need not keep the gaps that exact ones keep, but they do not change places. Each
step of the layout adds distances or takes middles, and the rounded operations keep the order of
their operands, so that the centers of a layer do not decrease (`Arranged.pairwise_le`), nor do
those of the ranks (`pairwise_rankCenters`). Both are carried to the centers of the frame as long
as these are numbers: no bound on the magnitudes is needed.
-/

namespace LayeredDrawing.Coordinates

open Single

/-! ## Centers of one layer -/

section Layers

variable {sep : Float32} {extent : Nat → Float32} (hs : 0 ≤ sep)

include hs

theorem isChain_packed_le (he : ∀ v, 0 ≤ extent v) (cursor : Float32) (layer : List Nat)
    (h : ∀ e ∈ packed sep extent cursor layer, IsNumber e.2) :
    (packed sep extent cursor layer).IsChain fun p q => p.2 ≤ q.2 := by
  induction layer generalizing cursor with
  | nil => exact .nil
  | cons u layer ih =>
    obtain ⟨hu, hrest⟩ := List.forall_mem_cons.1 h
    cases layer with
    | nil => exact .singleton _
    | cons v layer =>
      refine List.isChain_cons_cons.2 ⟨?_, ih _ hrest⟩
      have hv : IsNumber (cursor + (extent u + sep) + Scalar.half (extent v)) :=
        (List.forall_mem_cons.1 hrest).1
      obtain ⟨hcursor, -⟩ := isNumber_of_add hv
      have hextent : Scalar.half (extent u) ≤ extent u + sep :=
        le_trans (half_le_self (he u)) (le_add_of_nonneg hs (isNumber_of_add hcursor).2)
      calc cursor + Scalar.half (extent u)
          ≤ cursor + (extent u + sep) :=
            add_mono (le_refl (isNumber_of_add hu).1) hextent hu hcursor
        _ ≤ cursor + (extent u + sep) + Scalar.half (extent v) :=
            le_add_of_nonneg (half_nonneg (he v)) hv

theorem gap_nonneg {u v : Wish Float32} (hu : 0 ≤ u.extent) (hv : 0 ≤ v.extent) :
    0 ≤ gap sep u v :=
  add_nonneg (half_nonneg (add_nonneg hu hv)) hs

theorem isChain_pushRightOf {u : Wish Float32} {center : Float32} {wishes : List (Wish Float32)}
    (hu : 0 ≤ u.extent) (he : ∀ w ∈ wishes, 0 ≤ w.extent) (hc : IsNumber center)
    (h : ∀ x ∈ pushRightOf sep u center wishes, IsNumber x) :
    (center :: pushRightOf sep u center wishes).IsChain (· ≤ ·) := by
  induction wishes generalizing u center with
  | nil => exact .singleton _
  | cons v wishes ih =>
    obtain ⟨hv, he⟩ := List.forall_mem_cons.1 he
    obtain ⟨hpushed, h⟩ := List.forall_mem_cons.1 h
    exact List.isChain_cons_cons.2
      ⟨le_larger_add hc (gap_nonneg hs hu hv) hpushed, ih hv he hpushed h⟩

theorem isChain_pushRight {wishes : List (Wish Float32)} (he : ∀ w ∈ wishes, 0 ≤ w.extent)
    (h : ∀ x ∈ pushRight sep wishes, IsNumber x) :
    (pushRight sep wishes).IsChain (· ≤ ·) := by
  cases wishes with
  | nil => exact .nil
  | cons u wishes =>
    obtain ⟨hu, he⟩ := List.forall_mem_cons.1 he
    obtain ⟨hc, h⟩ := List.forall_mem_cons.1 h
    exact isChain_pushRightOf hs hu he hc h

theorem isChain_pushLeft {wishes : List (Wish Float32)} (he : ∀ w ∈ wishes, 0 ≤ w.extent)
    (h : ∀ x ∈ pushLeft sep wishes, IsNumber x) : (pushLeft sep wishes).IsChain (· ≤ ·) := by
  induction wishes with
  | nil => exact .nil
  | cons u wishes ih =>
    cases wishes with
    | nil => exact .singleton _
    | cons v wishes =>
      obtain ⟨center, centers, e, -⟩ := exists_pushLeft sep v wishes
      rw [e] at ih
      rw [pushLeft_cons_cons e] at h ⊢
      obtain ⟨hu, he⟩ := List.forall_mem_cons.1 he
      obtain ⟨hpushed, h⟩ := List.forall_mem_cons.1 h
      have hgap := gap_nonneg hs hu (he v List.mem_cons_self)
      exact List.isChain_cons_cons.2
        ⟨smaller_sub_le (h center List.mem_cons_self) hgap hpushed, ih he h⟩

/-- The middles of centers in order are in order. If a middle is a number, so are the two centers
that it is between. -/
theorem isChain_resolve {wishes : List (Wish Float32)} (he : ∀ w ∈ wishes, 0 ≤ w.extent)
    (h : ∀ x ∈ resolve sep wishes, IsNumber x) : (resolve sep wishes).IsChain (· ≤ ·) := by
  have hlen : (pushRight sep wishes).length = (pushLeft sep wishes).length := by simp
  have hsum : ∀ i (hr : i < (pushRight sep wishes).length) (hl : i < (pushLeft sep wishes).length),
      IsNumber ((pushRight sep wishes)[i] + (pushLeft sep wishes)[i]) := by
    intro i hr hl
    refine isNumber_of_half (h _ (List.mem_iff_getElem.2 ⟨i, ?_, ?_⟩))
    · simpa using hr
    · simp only [resolve, List.getElem_zipWith]
  have hright : (pushRight sep wishes).IsChain (· ≤ ·) := by
    refine isChain_pushRight hs he fun x hx => ?_
    obtain ⟨i, hi, rfl⟩ := List.getElem_of_mem hx
    exact (isNumber_of_add (hsum i hi (hlen ▸ hi))).1
  have hleft : (pushLeft sep wishes).IsChain (· ≤ ·) := by
    refine isChain_pushLeft hs he fun x hx => ?_
    obtain ⟨i, hi, rfl⟩ := List.getElem_of_mem hx
    exact (isNumber_of_add (hsum i (hlen ▸ hi) hi)).2
  rw [List.isChain_iff_getElem] at hright hleft ⊢
  intro i hi
  have hr : i + 1 < (pushRight sep wishes).length := by simpa using hi
  have hl : i + 1 < (pushLeft sep wishes).length := by simpa using hi
  simp only [resolve, List.getElem_zipWith]
  exact half_mono (add_mono (hright i hr) (hleft i hl) (hsum i _ _) (hsum (i + 1) hr hl))

/-- **The rounded centers of a layer do not decrease**, whether it is packed or aligned. -/
theorem Arranged.pairwise_le {layer : List Nat} {entries : List (Nat × Float32)}
    (h : Arranged sep extent layer entries) (he : ∀ v, 0 ≤ extent v)
    (hn : ∀ e ∈ entries, IsNumber e.2) : entries.Pairwise fun p q => p.2 ≤ q.2 := by
  refine pairwise_of_isChain ?_ fun a b _ c => le_trans
  cases h with
  | packed cursor => exact isChain_packed_le hs he cursor layer hn
  | aligned neighbours cross =>
    have hsnd := map_snd_aligned sep extent neighbours cross layer
    have hchain : (resolve sep (layer.map fun v => ⟨extent v, wish neighbours cross v⟩)).IsChain
        (· ≤ ·) := by
      refine isChain_resolve hs (by simpa using fun v _ => he v) fun x hx => ?_
      rw [← hsnd] at hx
      obtain ⟨e, hmem, rfl⟩ := List.mem_map.1 hx
      exact hn e hmem
    rw [← hsnd, List.isChain_map] at hchain
    exact hchain

end Layers

/-! ## The stack of the ranks -/

section Ranks

variable {sep : Float32} (hs : 0 ≤ sep)

include hs

/-- Ranks below a cursor go on from the center before it. -/
theorem isChain_stackBelow_le {ts : List Float32} (ht : ∀ t ∈ ts, 0 ≤ t) {y cursor : Float32}
    (hy : IsNumber cursor → y ≤ cursor)
    (h : ∀ c ∈ (stackBelow sep cursor ts).1, IsNumber c) :
    (y :: (stackBelow sep cursor ts).1).IsChain (· ≤ ·) := by
  induction ts generalizing y cursor with
  | nil => exact .singleton _
  | cons t ts ih =>
    obtain ⟨ht, hts⟩ := List.forall_mem_cons.1 ht
    obtain ⟨hc, h⟩ := List.forall_mem_cons.1 h
    have hc : IsNumber (cursor + sep + Scalar.half t) := hc
    obtain ⟨hstart, -⟩ := isNumber_of_add hc
    refine List.isChain_cons_cons.2 ⟨?_, ih hts (fun hend => ?_) h⟩
    · calc y ≤ cursor := hy (isNumber_of_add hstart).1
        _ ≤ cursor + sep := le_add_of_nonneg hs hstart
        _ ≤ cursor + sep + Scalar.half t := le_add_of_nonneg (half_nonneg ht) hc
    · exact add_mono (le_refl hstart) (half_le_self ht) hc hend

theorem isChain_stackRanks_le {margin : Float32} {ts : List Float32} (ht : ∀ t ∈ ts, 0 ≤ t)
    (h : ∀ c ∈ (stackRanks sep margin ts).1, IsNumber c) :
    (stackRanks sep margin ts).1.IsChain (· ≤ ·) := by
  cases ts with
  | nil => exact .nil
  | cons t ts =>
    obtain ⟨ht, hts⟩ := List.forall_mem_cons.1 ht
    obtain ⟨hc, h⟩ := List.forall_mem_cons.1 h
    exact isChain_stackBelow_le hs hts
      (fun hend => add_mono (le_refl (isNumber_of_add hc).1) (half_le_self ht) hc hend) h

end Ranks

/-! ## The frame -/

section Frame

variable {layers : Layers} {extents : Array (Size Float32)} {g : Digraph}
  {spacing : Spacing Float32}

/-- **The rounded centers of the ranks do not decrease.** -/
theorem pairwise_rankCenters (hs : 0 ≤ spacing.rankSep)
    (h : ∀ y ∈ rankCenters layers extents spacing, IsNumber y) :
    (rankCenters layers extents spacing).Pairwise (· ≤ ·) := by
  have hts : ∀ t ∈ thicknesses extents layers, 0 ≤ t := by
    intro t ht
    obtain ⟨layer, -, rfl⟩ := List.mem_map.1 ht
    exact largest_nonneg _
  exact (isChain_stackRanks_le hs hts h).pairwise

variable (hn : layers.flatten.Nodup) (hlt : ∀ v ∈ layers.flatten, v < extents.size)

include hn hlt

/-- The rounded centers of one layer of the frame are in order along the cross axis. -/
theorem pairwise_cross_assign (hs : 0 ≤ spacing.nodeSep) (he : ∀ s ∈ extents, 0 ≤ s.width)
    {layer : List Nat} (hl : layer ∈ layers)
    (h : ∀ v ∈ layer,
      IsNumber ((assign layers extents g spacing).centers.getD v Point.origin).x) :
    layer.Pairwise fun u v =>
      ((assign layers extents g spacing).centers.getD u Point.origin).x ≤
        ((assign layers extents g spacing).centers.getD v Point.origin).x := by
  obtain ⟨r, hr⟩ := List.mem_iff_getElem?.1 hl
  obtain ⟨y, hy⟩ := exists_rankCenter extents spacing hr
  have hcenter := fun v (hv : v ∈ layer) => getD_centers_assign g spacing hn hlt hr hy hv
  have hsum : ∀ v ∈ layer, IsNumber
      (get (crossTable layers extents g spacing) v + offset layers extents g spacing) := by
    intro v hv
    have := h v hv
    rwa [hcenter v hv] at this
  have hwidth : ∀ v, 0 ≤ widthOf extents v := forall_widthOf (le_refl isNumber_zero) he
  have hpair := ((laid_crossTable g spacing hn hlt).arranged layer hl).pairwise_le hs hwidth ?_
  · refine (List.pairwise_map.1 hpair).imp_of_mem fun {u v} hu hv huv => ?_
    rw [hcenter u hu, hcenter v hv]
    exact add_mono huv (le_refl (isNumber_of_add (hsum u hu)).2) (hsum u hu) (hsum v hv)
  · intro e hmem
    obtain ⟨v, hv, rfl⟩ := List.mem_map.1 hmem
    exact (isNumber_of_add (hsum v hv)).1

/-- Two ranks of the frame: the nodes of one rank share their place along the rank axis, and those
of a higher one do not lie before them. -/
theorem rank_le_assign (hs : 0 ≤ spacing.rankSep) (hne : ∀ layer ∈ layers, layer ≠ [])
    (h : ∀ v ∈ layers.flatten,
      IsNumber ((assign layers extents g spacing).centers.getD v Point.origin).y)
    {i j u v : Nat} (hij : i ≤ j) {layer layer' : List Nat} (hi : layers[i]? = some layer)
    (hj : layers[j]? = some layer') (hu : u ∈ layer) (hv : v ∈ layer') :
    ((assign layers extents g spacing).centers.getD u Point.origin).y ≤
      ((assign layers extents g spacing).centers.getD v Point.origin).y := by
  have hnumber : ∀ y ∈ rankCenters layers extents spacing, IsNumber y := by
    intro y hy
    obtain ⟨r, hr⟩ := List.mem_iff_getElem?.1 hy
    have hlen : (rankCenters layers extents spacing).length = layers.length := by
      simp [rankCenters, length_stackRanks, thicknesses]
    have hlayer := List.getElem?_eq_getElem (hlen ▸ (List.getElem?_eq_some_iff.1 hr).1)
    obtain ⟨w, hw⟩ := List.exists_mem_of_ne_nil _ (hne _ (List.mem_of_getElem? hlayer))
    have := h w (List.mem_flatten.2 ⟨_, List.mem_of_getElem? hlayer, hw⟩)
    rwa [getD_centers_assign g spacing hn hlt hlayer hr hw] at this
  obtain ⟨y, hy⟩ := exists_rankCenter extents spacing hi
  obtain ⟨y', hy'⟩ := exists_rankCenter extents spacing hj
  rw [getD_centers_assign g spacing hn hlt hi hy hu, getD_centers_assign g spacing hn hlt hj hy' hv]
  rcases hij.eq_or_lt with rfl | hij
  · obtain rfl := Option.some.inj (hy.symm.trans hy')
    exact le_refl (hnumber y (List.mem_of_getElem? hy))
  · obtain ⟨hyi, rfl⟩ := List.getElem?_eq_some_iff.1 hy
    obtain ⟨hyj, rfl⟩ := List.getElem?_eq_some_iff.1 hy'
    exact List.pairwise_iff_getElem.1 (pairwise_rankCenters hs hnumber) i j hyi hyj hij

end Frame

end LayeredDrawing.Coordinates
