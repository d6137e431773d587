import CubeAxis.Proofs.Session.Run

namespace CubeAxis.Session

variable {s t : Session}

theorem Consistent.empty : ({} : Session).Consistent where
  names := List.nodup_nil
  built _ mem := absurd mem List.not_mem_nil
  selected _ mem := absurd mem List.not_mem_nil
  recorded := .empty

theorem addDimension_eq_ok {mode : Mode} {spec : HierarchySpec}
    (added : addDimension mode s spec = .ok t) : ∃ h,
      spec.name ∉ s.hierarchies.map (·.name) ∧
      (Hierarchy.new spec.name spec.levels).addPaths spec.members = .ok h ∧
      t = { s with dimensions := s.dimensions ++ [⟨h, spec.mode.getD mode, .empty⟩] } := by
  unfold addDimension at added
  split at added
  · cases added
  · rename_i fresh
    rw [bind_eq_ok] at added
    obtain ⟨h, run, same⟩ := added
    rw [mapError_eq_ok] at run
    cases same
    refine ⟨h, fun taken => fresh ?_, run, rfl⟩
    obtain ⟨g, mem, named⟩ := List.mem_map.mp taken
    obtain ⟨d, inside, rfl⟩ := List.mem_map.mp mem
    exact List.any_eq_true.mpr ⟨d, inside, beq_iff_eq.mpr named⟩

/-- Hierarchies are added before any position is recorded. -/
theorem Consistent.addDimension {mode : Mode} {spec : HierarchySpec} (consistent : s.Consistent)
    (bare : s.drills = .empty) (added : addDimension mode s spec = .ok t) :
    t.Consistent ∧ t.drills = .empty := by
  obtain ⟨h, fresh, run, rfl⟩ := addDimension_eq_ok added
  have named : h.name = spec.name := Hierarchy.addPaths_name run
  have hierarchies : (s.dimensions ++ [(⟨h, spec.mode.getD mode, .empty⟩ : Dimension)]).map
      (·.hierarchy) = s.hierarchies ++ [h] := List.map_append
  refine ⟨⟨?_, fun d mem => ?_, fun d mem => ?_, ?_⟩, bare⟩
  · rw [Session.hierarchies, hierarchies, List.map_append, List.map_singleton, named]
    refine List.nodup_append.mpr ⟨consistent.names, List.nodup_singleton _, ?_⟩
    intro a old b new same
    rw [List.mem_singleton.mp new] at same
    exact fresh (same ▸ old)
  · rcases List.mem_append.mp mem with old | new
    · exact consistent.built d old
    · rw [List.mem_singleton.mp new]
      exact Hierarchy.Built.addPaths (.new _ _) run
  · rcases List.mem_append.mp mem with old | new
    · exact consistent.selected d old
    · rw [List.mem_singleton.mp new]
      exact .empty
  · rw [bare]
    exact .empty

theorem actionOf_within {h : Hierarchy} {index : Nat} {spec : SelectionSpec} {a : Selection}
    (known : actionOf h index spec = .ok a) : a.target.Within h := by
  unfold actionOf at known
  split at known
  · rw [bind_eq_ok] at known
    obtain ⟨m, found, same⟩ := known
    cases same
    exact memberAt_eq_ok found
  · rw [bind_eq_ok] at known
    obtain ⟨l, found, same⟩ := known
    cases same
    exact levelNamed_eq_ok found
  · cases known

/-- A selection of the file is an action on one of the hierarchies. -/
theorem leads_of_select {index : Nat} {spec : SelectionSpec} (run : s.select index spec = .ok t) :
    s.Leads t := by
  unfold select at run
  rw [bind_eq_ok] at run
  obtain ⟨i, _, run⟩ := run
  split at run
  · cases run
    exact .start
  · rename_i d found
    rw [bind_eq_ok] at run
    obtain ⟨a, known, same⟩ := run
    cases same
    exact .select i a .start found (actionOf_within known)

theorem leads_of_addDrill {spec : DrillSpec} (run : s.addDrill spec = .ok t) : s.Leads t := by
  unfold addDrill at run
  rw [bind_eq_ok] at run
  obtain ⟨p, known, same⟩ := run
  cases same
  exact .drill .start known

/-- A session is built by adding the hierarchies; what follows are actions. -/
theorem exists_start_of_build {spec : SessionSpec} {mode : Mode} (built : build spec mode = .ok s) :
    ∃ first, spec.hierarchies.foldlM (Session.addDimension mode) {} = .ok first ∧ first.Leads s := by
  unfold build at built
  rw [bind_eq_ok] at built
  obtain ⟨first, added, built⟩ := built
  rw [bind_eq_ok] at built
  obtain ⟨second, selected, drilled⟩ := built
  have selections : first.Leads second := by
    refine foldlM_invariant selected .start fun t step u leads run => leads.trans ?_
    exact leads_of_select run
  refine ⟨first, added, foldlM_invariant drilled selections fun t step u leads run => ?_⟩
  exact leads.trans (leads_of_addDrill run)

theorem build_consistent {spec : SessionSpec} {mode : Mode} (built : build spec mode = .ok s) :
    s.Consistent := by
  obtain ⟨first, added, leads⟩ := exists_start_of_build built
  have start : first.Consistent ∧ first.drills = .empty := by
    refine foldlM_invariant (p := fun t => t.Consistent ∧ t.drills = .empty) added ⟨.empty, rfl⟩ ?_
    intro t step u inv run
    exact inv.1.addDimension inv.2 run
  exact leads.consistent start.1

/-- Every hierarchy of the file is on the axis. -/
theorem length_dimensions_of_build {spec : SessionSpec} {mode : Mode}
    (built : build spec mode = .ok s) : s.dimensions.length = spec.hierarchies.length := by
  obtain ⟨first, added, leads⟩ := exists_start_of_build built
  have grows : ∀ (specs : List HierarchySpec) (t u : Session),
      specs.foldlM (Session.addDimension mode) t = .ok u →
      u.dimensions.length = t.dimensions.length + specs.length := by
    intro specs
    induction specs with
    | nil =>
      intro t u run
      cases run
      rfl
    | cons spec specs ih =>
      intro t u run
      rw [List.foldlM_cons, bind_eq_ok] at run
      obtain ⟨x, head, rest⟩ := run
      obtain ⟨h, _, _, rfl⟩ := addDimension_eq_ok head
      rw [ih _ u rest, List.length_append, List.length_singleton, List.length_cons]
      omega
  rw [leads.length_dimensions, grows _ _ _ added]
  simp

end CubeAxis.Session
