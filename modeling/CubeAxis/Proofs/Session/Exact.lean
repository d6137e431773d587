import CubeAxis.Proofs.Drill.Barren
import CubeAxis.Proofs.Session.Build

namespace CubeAxis

/-- Names leave no doubt: about members, and about levels as far as the mode goes by
their names. -/
structure Dimension.Unambiguous (d : Dimension) : Prop where
  members : ∀ a ∈ d.hierarchy.members, ∀ b ∈ d.hierarchy.members, a.uniqueName = b.uniqueName → a = b
  levels : d.mode.Tells d.hierarchy

theorem Dimension.unambiguous_of_memberless {d : Dimension} (void : d.hierarchy.members = []) :
    d.Unambiguous where
  members a left := by
    rw [void] at left
    exact absurd left List.not_mem_nil
  levels := by
    unfold Mode.Tells
    split
    · intro a left
      rw [void] at left
      exact absurd left List.not_mem_nil
    · intro l _ m inside
      rw [void] at inside
      exact absurd inside List.not_mem_nil

namespace Session

/-- The session evaluates, to the tuples whose every member is visible given the
members recorded after those before it. -/
def Exact (s : Session) : Prop :=
  ∃ ts : List Tuple, s.evaluate = .ok ts ∧ ∀ tuple, tuple ∈ ts ↔ s.drills.Visible s.dimensions tuple

variable {s t : Session}

theorem exact_iff : s.Exact ↔ s.expr.Denotes s.hierarchies (s.drills.visibleTuples s.dimensions) := by
  unfold Exact evaluate
  simp only [mapError_eq_ok]
  exact Iff.rfl

theorem Consistent.findHierarchy (consistent : s.Consistent) {d : Dimension}
    (mem : d ∈ s.dimensions) : Expr.findHierarchy s.hierarchies d.hierarchy.name = .ok d.hierarchy :=
  Expr.findHierarchy_of_nodup consistent.names (List.mem_map_of_mem mem)

theorem Consistent.resolves (consistent : s.Consistent) {d : Dimension} (mem : d ∈ s.dimensions)
    (unambiguous : d.Unambiguous) : d.Resolves s.hierarchies := by
  have regular : d.hierarchy.Regular := ⟨(consistent.built d mem).sound, unambiguous.members⟩
  exact ⟨regular, unambiguous.levels, consistent.findHierarchy mem,
    (consistent.selected d mem).hung regular⟩

theorem Consistent.exact (consistent : s.Consistent) (any : s.dimensions ≠ [])
    (unambiguous : ∀ d ∈ s.dimensions, d.Unambiguous) : s.Exact := by
  rw [exact_iff]
  refine DrillTree.axisExpr_denotes any (fun d mem => ?_) consistent.recorded.aligned
  exact consistent.resolves mem (unambiguous d mem)

/-- Beside a hierarchy without members nothing is visible, so evaluating is all that is
left to do. -/
theorem Consistent.exact_iff_evaluates (consistent : s.Consistent)
    (void : ∃ d ∈ s.dimensions, d.hierarchy.members = []) :
    s.Exact ↔ ∃ ts, s.evaluate = .ok ts := by
  have invisible := DrillTree.visibleTuples_of_memberless (t := s.drills) void
  obtain ⟨d, mem, none⟩ := void
  have term := (consistent.resolves mem (Dimension.unambiguous_of_memberless none)).term_fullExpr
  have nothing : d.shown [] = ∅ := by
    refine Set.eq_empty_iff_forall_notMem.mpr fun m shown => ?_
    obtain ⟨inside, _⟩ := shown
    rw [none] at inside
    exact List.not_mem_nil inside
  rw [nothing, lone_empty] at term
  have barren := DrillTree.axisExpr_barren ⟨d, mem, none, term.denotes⟩ consistent.recorded.aligned
  constructor
  · intro exact
    obtain ⟨ts, run, _⟩ := exact
    exact ⟨ts, run⟩
  · intro evaluates
    obtain ⟨ts, run⟩ := evaluates
    obtain rfl := barren.value ts (mapError_eq_ok.mp run)
    refine ⟨[], run, fun tuple => iff_of_false List.not_mem_nil fun visible => ?_⟩
    exact (Set.eq_empty_iff_forall_notMem.mp invisible) tuple visible

/-- A dimension changes by its selection alone. -/
theorem exists_dimension_of_frame (same : s.frame = t.frame) {d : Dimension}
    (mem : d ∈ s.dimensions) : ∃ e ∈ t.dimensions, e.hierarchy = d.hierarchy ∧ e.mode = d.mode := by
  have framed : (d.hierarchy, d.mode) ∈ t.frame := by
    rw [← same]
    exact List.mem_map_of_mem mem
  obtain ⟨e, inside, equal⟩ := List.mem_map.mp framed
  exact ⟨e, inside, Prod.mk.inj equal⟩

/-- Whether names are ambiguous does not change along a run. -/
theorem Leads.unambiguous (leads : s.Leads t) (unambiguous : ∀ d ∈ s.dimensions, d.Unambiguous) :
    ∀ d ∈ t.dimensions, d.Unambiguous := by
  intro d mem
  obtain ⟨e, inside, hierarchy, mode⟩ := exists_dimension_of_frame leads.frame mem
  obtain ⟨members, levels⟩ := unambiguous e inside
  exact ⟨hierarchy ▸ members, mode ▸ hierarchy ▸ levels⟩

theorem Leads.memberless (leads : s.Leads t) (void : ∃ d ∈ s.dimensions, d.hierarchy.members = []) :
    ∃ d ∈ t.dimensions, d.hierarchy.members = [] := by
  obtain ⟨d, mem, none⟩ := void
  obtain ⟨e, inside, hierarchy, _⟩ := exists_dimension_of_frame leads.frame.symm mem
  exact ⟨e, inside, hierarchy ▸ none⟩

end Session
end CubeAxis
