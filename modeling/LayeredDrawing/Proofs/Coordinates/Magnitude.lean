import LayeredDrawing.Proofs.Coordinates.Frame
import LayeredDrawing.Proofs.Number.Magnitude

/-!
# How large coordinates become

Extents and distances of at most `2 ^ k`, with at most `2 ^ n` nodes in a layer, give coordinates
of at most `2 ^ (k + n + 2)`, however often the layers are aligned. The reason is that the bound
`2 ^ (k + n + 1)` of the packed layers absorbs a gap, as `n` is at least 24: a node that is pushed
does not leave the bound, the mean of its neighbours keeps it, and so does the middle between the
nodes pushed right and left (`within_alignLayers`).
-/

namespace LayeredDrawing.Coordinates

variable {k n : ℕ} {sep : Float32} {extent : ℕ → Float32}

/-- The numbers of a table have a bound. -/
def TableWithin (b : ℚ) (table : Array Float32) : Prop := ∀ v, Within b (get table v)

/-! ## Packing -/

section Packing

variable (hn : 24 ≤ n) (hkn : k + n ≤ 102) (hsep : Within (2 ^ k) sep)
  (hext : ∀ v, Within (2 ^ k) (extent v))

include hn hkn hsep hext

theorem within_packedWidth {layer : List ℕ} (hlen : layer.length ≤ 2 ^ n) :
    Within (2 ^ (k + n + 1)) (packedWidth sep extent layer) := by
  have hsum : Within (2 ^ (k + n)) (Scalar.sum (layer.map extent)) := by
    refine within_sum (by omega) (show k + 24 ≤ k + n by omega) fun x hx => ?_
    obtain ⟨v, -, rfl⟩ := List.mem_map.1 hx
    exact hext v
  have hgaps : Within (2 ^ (k + n)) (sep * Float32.ofNat (layer.length - 1)) :=
    hsep.mul (by omega) (within_ofNat (by omega) (by omega))
  exact hsum.add (by omega) hgaps

theorem within_packed {cursor : Float32} (hc : Within (2 ^ (k + n + 1)) cursor) (layer : List ℕ) :
    ∀ e ∈ packed sep extent cursor layer, Within (2 ^ (k + n + 1)) e.2 := by
  induction layer generalizing cursor with
  | nil => simp [packed]
  | cons v layer ih =>
    have hstep : Within (2 ^ (k + 1)) (extent v + sep) := (hext v).add (by omega) hsep
    refine List.forall_mem_cons.2 ⟨?_, ih (hc.add_small (by omega) (by omega) hstep)⟩
    exact hc.add_small (by omega) (by omega)
      (Within.half (by omega) ((hext v).two_pow_mono (Nat.le_succ k)))

theorem within_packLayers {layers : Layers} (hlen : ∀ layer ∈ layers, layer.length ≤ 2 ^ n)
    (size : ℕ) : TableWithin (2 ^ (k + n + 1)) (packLayers sep extent size layers) := by
  have hwidth : ∀ layer ∈ layers, Within (2 ^ (k + n + 1)) (packedWidth sep extent layer) :=
    fun layer hl => within_packedWidth hn hkn hsep hext (hlen layer hl)
  have hwidest : Within (2 ^ (k + n + 1))
      (Scalar.largest (layers.map (packedWidth sep extent))) := by
    refine within_largest fun x hx => ?_
    obtain ⟨layer, hl, rfl⟩ := List.mem_map.1 hx
    exact hwidth layer hl
  intro v
  rw [packLayers_eq_setAll]
  refine forall_getD_setAll (fun u => ?_) (fun e he => ?_) v
  · rw [getD_replicate]
    exact within_zero (pow_pos two_pos _).le
  · obtain ⟨layer, hl, he⟩ := List.mem_flatMap.1 he
    refine within_packed hn hkn hsep hext ?_ layer e he
    exact Within.half (by omega) (hwidest.sub (by omega) (hwidth layer hl))

end Packing

/-! ## Alignment -/

section Alignment

variable (hn : 24 ≤ n) (hkn : k + n ≤ 102) (hsep : Within (2 ^ k) sep)

include hn hkn hsep

theorem within_gap {u v : Wish Float32} (hu : Within (2 ^ k) u.extent)
    (hv : Within (2 ^ k) v.extent) : Within (2 ^ (k + 1)) (gap sep u v) :=
  (Within.half (by omega) (hu.add (by omega) hv)).add (by omega) hsep

theorem within_pushRightOf {wishes : List (Wish Float32)} {u : Wish Float32} {center : Float32}
    (hu : Within (2 ^ k) u.extent) (hc : Within (2 ^ (k + n + 1)) center)
    (he : ∀ w ∈ wishes, Within (2 ^ k) w.extent)
    (hw : ∀ w ∈ wishes, Within (2 ^ (k + n + 1)) w.center) :
    ∀ x ∈ pushRightOf sep u center wishes, Within (2 ^ (k + n + 1)) x := by
  induction wishes generalizing u center with
  | nil => simp [pushRightOf]
  | cons v wishes ih =>
    obtain ⟨hv, he⟩ := List.forall_mem_cons.1 he
    obtain ⟨hvc, hw⟩ := List.forall_mem_cons.1 hw
    -- The bound absorbs the gap.
    have hpushed : Within (2 ^ (k + n + 1)) (Scalar.larger v.center (center + gap sep u v)) :=
      hvc.larger (hc.add_small (by omega) (by omega) (within_gap hn hkn hsep hu hv))
    exact List.forall_mem_cons.2 ⟨hpushed, ih hv hpushed he hw⟩

theorem within_pushLeft {wishes : List (Wish Float32)}
    (he : ∀ w ∈ wishes, Within (2 ^ k) w.extent)
    (hw : ∀ w ∈ wishes, Within (2 ^ (k + n + 1)) w.center) :
    ∀ x ∈ pushLeft sep wishes, Within (2 ^ (k + n + 1)) x := by
  induction wishes with
  | nil => simp [pushLeft]
  | cons u wishes ih =>
    obtain ⟨hu, he⟩ := List.forall_mem_cons.1 he
    obtain ⟨huc, hw⟩ := List.forall_mem_cons.1 hw
    cases wishes with
    | nil => simpa [pushLeft] using huc
    | cons v wishes =>
      have hrest := ih he hw
      rw [pushLeft]
      split
      · simp
      · rename_i center centers h
        rw [h] at hrest
        have hc := hrest center List.mem_cons_self
        have hgap := within_gap hn hkn hsep hu (he v List.mem_cons_self)
        exact List.forall_mem_cons.2
          ⟨huc.smaller (hc.sub_small (by omega) (by omega) hgap), hrest⟩

theorem within_resolve {wishes : List (Wish Float32)}
    (he : ∀ w ∈ wishes, Within (2 ^ k) w.extent)
    (hw : ∀ w ∈ wishes, Within (2 ^ (k + n + 1)) w.center) :
    ∀ x ∈ resolve sep wishes, Within (2 ^ (k + n + 1)) x := by
  intro x hx
  rw [resolve, ← List.map_uncurry_zip_eq_zipWith] at hx
  obtain ⟨⟨r, l⟩, hrl, rfl⟩ := List.mem_map.1 hx
  obtain ⟨hr, hl⟩ := List.of_mem_zip hrl
  have hright : Within (2 ^ (k + n + 1)) r := by
    cases wishes with
    | nil => simp [pushRight] at hr
    | cons u wishes =>
      obtain ⟨hu, he⟩ := List.forall_mem_cons.1 he
      obtain ⟨huc, hw⟩ := List.forall_mem_cons.1 hw
      rcases List.mem_cons.1 hr with rfl | hr
      · exact huc
      · exact within_pushRightOf hn hkn hsep hu huc he hw r hr
  have hleft := within_pushLeft hn hkn hsep he hw l hl
  exact Within.half (by omega) (hright.add (by omega) hleft)

variable (hext : ∀ v, Within (2 ^ k) (extent v)) {neighbours : ℕ → List ℕ}

omit hn hsep in
theorem within_wish {cross : Array Float32} (h : TableWithin (2 ^ (k + n + 1)) cross) (v : ℕ) :
    Within (2 ^ (k + n + 1)) (wish neighbours cross v) := by
  rw [wish]
  cases hm : Scalar.mean? ((neighbours v).map (get cross)) with
  | none => exact h v
  | some y =>
    refine within_mean (by omega) (fun x hx => ?_) hm
    obtain ⟨u, -, rfl⟩ := List.mem_map.1 hx
    exact h u

include hext

/-- A layer that is aligned keeps the bound. -/
theorem within_alignLayer {a : Coordinates.Alignment Float32}
    (h : TableWithin (2 ^ (k + n + 1)) a.cross) (layer : List ℕ) :
    TableWithin (2 ^ (k + n + 1)) (alignLayer sep extent neighbours a layer).cross := by
  intro v
  rw [cross_alignLayer]
  refine forall_getD_setAll h (fun e he => ?_) v
  refine within_resolve hn hkn hsep ?_ ?_ e.2 (List.of_mem_zip he).2
  · intro w hw
    obtain ⟨u, -, rfl⟩ := List.mem_map.1 hw
    exact hext u
  · intro w hw
    obtain ⟨u, -, rfl⟩ := List.mem_map.1 hw
    exact within_wish hkn h u

theorem within_alignRound {above below : ℕ → List ℕ} {layers : Layers} {cross : Array Float32}
    (h : TableWithin (2 ^ (k + n + 1)) cross) :
    TableWithin (2 ^ (k + n + 1)) (alignRound sep extent above below layers cross).cross := by
  have hfold : ∀ (neighbours : ℕ → List ℕ) (ls : Layers) (a : Coordinates.Alignment Float32),
      TableWithin (2 ^ (k + n + 1)) a.cross →
        TableWithin (2 ^ (k + n + 1)) (ls.foldl (alignLayer sep extent neighbours) a).cross :=
    fun neighbours ls a ha =>
      List.foldlRecOn
        (motive := fun a : Coordinates.Alignment Float32 => TableWithin (2 ^ (k + n + 1)) a.cross)
        ls _ ha fun _ ha layer _ => within_alignLayer hn hkn hsep hext ha layer
  exact hfold below _ _ (hfold above _ _ h)

/-- **No number of rounds leads beyond the bound.** -/
theorem within_alignLayers {above below : ℕ → List ℕ} {layers : Layers} {passes : ℕ}
    {cross : Array Float32} (h : TableWithin (2 ^ (k + n + 1)) cross) :
    TableWithin (2 ^ (k + n + 1))
      (alignLayers sep extent above below layers passes cross) := by
  induction passes generalizing cross with
  | zero => exact h
  | succ passes ih =>
    rw [alignLayers]
    split
    · exact ih (within_alignRound hn hkn hsep hext h)
    · exact within_alignRound hn hkn hsep hext h

end Alignment

/-! ## The frame -/

section Frame

variable (hn : 24 ≤ n) (hkn : k + n ≤ 102)

include hn hkn

theorem within_shift {margin : Float32} (hm : Within (2 ^ k) margin)
    (hext : ∀ v, Within (2 ^ k) (extent v)) (layers : Layers) {cross : Array Float32}
    (h : TableWithin (2 ^ (k + n + 1)) cross) :
    Within (2 ^ (k + n + 1)) (shift margin extent layers cross) := by
  have hzero : Within (2 ^ (k + n + 1)) (Scalar.zero : Float32) :=
    within_zero (pow_pos two_pos _).le
  rw [shift]
  split
  · rename_i edge hedge
    have hedge : Within (2 ^ (k + n + 1)) edge := by
      refine within_least? (fun x hx => ?_) hedge
      obtain ⟨v, -, rfl⟩ := List.mem_map.1 hx
      exact (h v).sub_small (by omega) (by omega)
        (Within.half (by omega) ((hext v).two_pow_mono (Nat.le_succ k)))
    split
    · exact hm.small_sub (by omega) (by omega) hedge
    · exact hzero
  · exact hzero

variable {ts : List Float32} (hsep : Within (2 ^ k) sep) (hts : ∀ t ∈ ts, Within (2 ^ k) t)

include hsep hts

theorem within_stackBelow {cursor : Float32} (hc : Within (2 ^ (k + n + 1)) cursor) :
    (∀ y ∈ (stackBelow sep cursor ts).1, Within (2 ^ (k + n + 1)) y) ∧
      Within (2 ^ (k + n + 1)) (stackBelow sep cursor ts).2 := by
  induction ts generalizing cursor with
  | nil => simpa [stackBelow] using hc
  | cons t ts ih =>
    obtain ⟨ht, hts⟩ := List.forall_mem_cons.1 hts
    have hstart : Within (2 ^ (k + n + 1)) (cursor + sep) :=
      hc.add_small (by omega) (by omega) hsep
    obtain ⟨hcenters, hlast⟩ := ih hts (hstart.add_small (by omega) (by omega) ht)
    refine ⟨List.forall_mem_cons.2 ⟨?_, hcenters⟩, hlast⟩
    exact hstart.add_small (by omega) (by omega)
      (Within.half (by omega) (ht.two_pow_mono (Nat.le_succ k)))

theorem within_stackRanks {margin : Float32} (hm : Within (2 ^ k) margin) :
    (∀ y ∈ (stackRanks sep margin ts).1, Within (2 ^ (k + n + 1)) y) ∧
      Within (2 ^ (k + n + 1)) (stackRanks sep margin ts).2 := by
  have hm' : Within (2 ^ (k + n + 1)) margin := hm.two_pow_mono (by omega)
  cases ts with
  | nil => simpa [stackRanks] using hm'
  | cons t ts =>
    obtain ⟨ht, hts⟩ := List.forall_mem_cons.1 hts
    obtain ⟨hcenters, hlast⟩ :=
      within_stackBelow hn hkn hsep hts (hm'.add_small (by omega) (by omega) ht)
    refine ⟨List.forall_mem_cons.2 ⟨?_, hcenters⟩, hlast⟩
    exact hm'.add_small (by omega) (by omega)
      (Within.half (by omega) (ht.two_pow_mono (Nat.le_succ k)))

end Frame

/-- The distances of a frame have a bound. -/
structure SpacingWithin (b : ℚ) (spacing : Spacing Float32) : Prop where
  nodeSep : Within b spacing.nodeSep
  rankSep : Within b spacing.rankSep
  crossMargin : Within b spacing.crossMargin
  rankMargin : Within b spacing.rankMargin

section Assign

variable {layers : Layers} {extents : Array (Size Float32)} {spacing : Spacing Float32}
  (hn : 24 ≤ n) (hkn : k + n ≤ 102) (hs : SpacingWithin (2 ^ k) spacing)
  (hw : ∀ v, Within (2 ^ k) (widthOf extents v)) (hh : ∀ v, Within (2 ^ k) (heightOf extents v))
  (hlen : ∀ layer ∈ layers, layer.length ≤ 2 ^ n) (g : Digraph)

include hn hkn hs hh in
theorem within_stack : (∀ y ∈ rankCenters layers extents spacing, Within (2 ^ (k + n + 1)) y) ∧
    Within (2 ^ (k + n + 1)) (assign layers extents g spacing).rankSpan := by
  have hts : ∀ t ∈ thicknesses extents layers, Within (2 ^ k) t := by
    intro t ht
    obtain ⟨layer, -, rfl⟩ := List.mem_map.1 ht
    refine within_largest fun x hx => ?_
    obtain ⟨v, -, rfl⟩ := List.mem_map.1 hx
    exact hh v
  obtain ⟨hcenters, hlast⟩ := within_stackRanks hn hkn hs.rankSep hts hs.rankMargin
  exact ⟨hcenters, hlast.sub_small (by omega) (by omega) hs.rankMargin⟩

include hn hkn hs hw hh hlen in
/-- **The coordinates of the frame** are bounded by extents, distances and the number of nodes in
a layer. -/
theorem within_centers_assign (v : ℕ) :
    Within (2 ^ (k + n + 2)) ((assign layers extents g spacing).centers.getD v Point.origin).x ∧
      Within (2 ^ (k + n + 1))
        ((assign layers extents g spacing).centers.getD v Point.origin).y := by
  have hcross : TableWithin (2 ^ (k + n + 1)) (crossTable layers extents g spacing) :=
    within_alignLayers hn hkn hs.nodeSep hw
      (within_packLayers hn hkn hs.nodeSep hw hlen extents.size)
  have hoffset : Within (2 ^ (k + n + 1)) (offset layers extents g spacing) :=
    within_shift hn hkn hs.crossMargin hw layers hcross
  have hstack : ∀ y ∈ rankCenters layers extents spacing, Within (2 ^ (k + n + 1)) y :=
    (within_stack hn hkn hs hh g).1
  rw [centers_assign]
  refine forall_getD_setAll (P := fun p : Point Float32 =>
    Within (2 ^ (k + n + 2)) p.x ∧ Within (2 ^ (k + n + 1)) p.y) (fun u => ?_) (fun e he => ?_) v
  · rw [getD_replicate]
    exact ⟨within_zero (pow_pos two_pos _).le, within_zero (pow_pos two_pos _).le⟩
  · obtain ⟨⟨layer, y⟩, hly, he⟩ := List.mem_flatMap.1 he
    obtain ⟨u, -, rfl⟩ := List.mem_map.1 he
    exact ⟨(hcross u).add (by omega) hoffset, hstack y (List.of_mem_zip hly).2⟩

end Assign

end LayeredDrawing.Coordinates
