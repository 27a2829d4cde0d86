import LayeredDrawing.Layout
import LayeredDrawing.Proofs.Solution

/-!
# Which diagrams are laid out

A layout goes through four stages: the options are checked, the graph is built, the graph is
solved and the nodes are placed. The last two never fail, since every graph is solved and its
solution has all the names of the diagram; what is left are the faults of the options and then
those of the diagram (`compute_outcome`).
-/

namespace LayeredDrawing

variable {α δ : Type}

/-! ## Placing nodes -/

/-- All of a node but its position. -/
def Node.content (n : Node α δ) : String × δ × Option (Size α) := (n.id, n.data, n.measured)

@[simp] theorem Node.content_movedTo (n : Node α δ) (p : Point α) :
    (n.movedTo p).content = n.content := rfl

variable [Scalar α]

theorem exists_placeNodes {s : Solution α} {nodes : List (Node α δ)}
    (h : ∀ n ∈ nodes, n.id ∈ s.placements.map (·.1)) :
    ∃ placed, placeNodes s nodes = .ok placed := by
  induction nodes with
  | nil => exact ⟨[], rfl⟩
  | cons n nodes ih =>
    obtain ⟨hn, h⟩ := List.forall_mem_cons.1 h
    obtain ⟨placed, e⟩ := ih h
    obtain ⟨p, hp⟩ : ∃ p, s.get? n.id = some p := by
      refine Option.ne_none_iff_exists'.1 fun hp => ?_
      obtain ⟨q, hq, hqn⟩ := List.mem_map.1 hn
      have := List.lookup_eq_none_iff.1 hp q hq
      simp [hqn] at this
    exact ⟨n.movedTo p.topLeft :: placed, by simp [placeNodes, hp, e]⟩

theorem map_content_placeNodes {solution : Solution α} {nodes placed : List (Node α δ)}
    (h : placeNodes solution nodes = .ok placed) :
    placed.map Node.content = nodes.map Node.content := by
  induction nodes generalizing placed with
  | nil =>
    obtain rfl : [] = placed := by simpa [placeNodes] using h
    rfl
  | cons node rest ih =>
    rw [placeNodes] at h
    split at h
    · simp at h
    · split at h
      · simp at h
      · next hrest =>
        obtain rfl := Except.ok.inj h
        simp [ih hrest]

/-! ## The outcome of a layout -/

namespace Layout

variable {o : Options Float32} {nodes : List (Node Float32 δ)} {edges : List Edge}
  {sizes : Option (SizeMap Float32)}

theorem compute_of_check_eq_error {f : OptionFault Float32} (h : o.check = .error f) :
    compute o nodes edges sizes = .error (.invalidOptions f.message) := by
  simp only [compute, h]

theorem compute_of_build_eq_error {err : LayoutError} (ho : o.check = .ok ())
    (h : SizedGraph.build nodes edges sizes o.defaultSize = .error err) :
    compute o nodes edges sizes = .error err := by
  simp only [compute, ho, h]

/-- Once the graph is built, nothing goes wrong. -/
theorem exists_compute_of_build {g : SizedGraph Float32} (ho : o.check = .ok ())
    (h : SizedGraph.build nodes edges sizes o.defaultSize = .ok g) :
    ∃ l, compute o nodes edges sizes = .ok l := by
  obtain ⟨s, hs⟩ := exists_solve o g
  obtain ⟨placed, hp⟩ : ∃ placed, placeNodes s nodes = .ok placed := by
    refine exists_placeNodes fun n hn => ?_
    rw [ids_solve hs, SizedGraph.nodes_of_build h, List.map_map]
    exact List.mem_map.2 ⟨n, hn, rfl⟩
  exact ⟨⟨placed, edges, s⟩, by simp only [compute, ho, h, hs, hp]⟩

theorem exists_compute_iff :
    (∃ l, compute o nodes edges sizes = .ok l) ↔
      o.check = .ok () ∧ (nodes.map (·.id)).Nodup ∧ ∀ e ∈ edges, e.Joins (nodes.map (·.id)) := by
  constructor
  · rintro ⟨l, hl⟩
    cases ho : o.check with
    | error f =>
      rw [compute_of_check_eq_error ho] at hl
      cases hl
    | ok u =>
      cases hb : SizedGraph.build nodes edges sizes o.defaultSize with
      | ok g => exact ⟨rfl, SizedGraph.exists_build_iff.1 ⟨g, hb⟩⟩
      | error err =>
        rw [compute_of_build_eq_error ho hb] at hl
        cases hl
  · rintro ⟨ho, hb⟩
    obtain ⟨g, hg⟩ := SizedGraph.exists_build_iff.2 hb
    exact exists_compute_of_build ho hg

/-- The stages of a layout that succeeds. -/
theorem stages_of_compute {l : Layout δ} (h : compute o nodes edges sizes = .ok l) :
    o.check = .ok () ∧ ∃ g, SizedGraph.build nodes edges sizes o.defaultSize = .ok g ∧
      solve o g = .ok l.solution ∧ placeNodes l.solution nodes = .ok l.nodes ∧
      l.edges = edges := by
  obtain ⟨ho, hg⟩ := exists_compute_iff.1 ⟨l, h⟩
  obtain ⟨g, hg⟩ := SizedGraph.exists_build_iff.2 hg
  obtain ⟨s, hs⟩ := exists_solve o g
  refine ⟨ho, g, hg, ?_⟩
  simp only [compute, ho, hg, hs] at h
  split at h
  · cases h
  · rename_i placed hp
    obtain rfl := Except.ok.inj h
    exact ⟨hs, hp, rfl⟩

/-- Nothing of the nodes changes but their positions. -/
theorem map_content_compute {l : Layout δ} (h : compute o nodes edges sizes = .ok l) :
    l.nodes.map Node.content = nodes.map Node.content := by
  obtain ⟨-, g, -, -, hplaced, -⟩ := stages_of_compute h
  exact map_content_placeNodes hplaced

theorem compute_eq_error_iff {err : LayoutError} :
    compute o nodes edges sizes = .error err ↔
      (∃ f, o.check = .error f ∧ err = .invalidOptions f.message) ∨
        o.check = .ok () ∧ SizedGraph.Fault (nodes.map (·.id)) edges err := by
  cases ho : o.check with
  | error f =>
    rw [compute_of_check_eq_error ho]
    simp [eq_comm]
  | ok u =>
    cases hb : SizedGraph.build nodes edges sizes o.defaultSize with
    | error err' =>
      rw [compute_of_build_eq_error ho hb, ← SizedGraph.build_eq_error_iff, hb]
      simp
    | ok g =>
      obtain ⟨l, hl⟩ := exists_compute_of_build ho hb
      rw [hl, ← SizedGraph.build_eq_error_iff, hb]
      simp

/-- **What comes of a diagram.** It is laid out if the options can be used, no two nodes share
a name and every edge joins two nodes. Otherwise the error is the fault of the options, or else
the first fault of the diagram; that the layout itself went wrong is never reported. -/
theorem compute_outcome (o : Options Float32) (nodes : List (Node Float32 δ))
    (edges : List Edge) (sizes : Option (SizeMap Float32)) :
    ((∃ l, compute o nodes edges sizes = .ok l) ↔
      o.check = .ok () ∧ (nodes.map (·.id)).Nodup ∧
        ∀ e ∈ edges, e.source ∈ nodes.map (·.id) ∧ e.target ∈ nodes.map (·.id)) ∧
    (∀ err, compute o nodes edges sizes = .error err ↔
      (∃ f, o.check = .error f ∧ err = .invalidOptions f.message) ∨
        o.check = .ok () ∧ SizedGraph.Fault (nodes.map (·.id)) edges err) ∧
    ∀ reason, compute o nodes edges sizes ≠ .error (.layout reason) := by
  refine ⟨exists_compute_iff, fun err => compute_eq_error_iff, fun reason h => ?_⟩
  rcases compute_eq_error_iff.1 h with ⟨f, -, hf⟩ | ⟨-, hf⟩
  · cases hf
  · cases hf.isGraphError

end Layout

end LayeredDrawing
