import CubeAxis.Proofs.Drill.Trie
import CubeAxis.Proofs.Expr.Denotation
import CubeAxis.Proofs.Selection
import CubeAxis.Session

namespace CubeAxis

theorem mapError_eq_ok {ε δ α : Type} {x : Except ε α} {f : ε → δ} {a : α} :
    x.mapError f = .ok a ↔ x = .ok a := by
  cases x <;> simp [Except.mapError]

theorem foldlM_invariant {ε α β : Type} {step : β → α → Except ε β} {p : β → Prop} {as : List α}
    {b c : β} (run : as.foldlM step b = .ok c) (start : p b)
    (keeps : ∀ x a y, p x → step x a = .ok y → p y) : p c := by
  induction as generalizing b with
  | nil =>
    cases run
    exact start
  | cons a as ih =>
    rw [List.foldlM_cons, bind_eq_ok] at run
    obtain ⟨x, first, rest⟩ := run
    exact ih rest (keeps b a x start first)

namespace Session

/-- The sessions that actions on the selections and on the recorded positions
lead to. -/
inductive Leads (s : Session) : Session → Prop
  | start : Leads s s
  | select {t : Session} {d : Dimension} (i : Nat) (a : Selection) : Leads s t →
      t.dimensions[i]? = some d → a.target.Within d.hierarchy →
      Leads s (t.modifySelection i (·.apply a))
  | deselect {t : Session} (i : Nat) : Leads s t → Leads s (t.modifySelection i (·.clear))
  | drill {t : Session} {paths : List String} {p : Position} : Leads s t →
      t.position paths = .ok p → Leads s { t with drills := t.drills.add p }
  | undrill {t : Session} {paths : List String} {p : Position} : Leads s t →
      t.position paths = .ok p → Leads s { t with drills := t.drills.remove p }
  | prune {t : Session} (depth : Nat) : Leads s t → Leads s { t with drills := t.drills.prune depth }
  | clearLevel {t : Session} (depth : Nat) : Leads s t →
      Leads s { t with drills := t.drills.clearLevel depth }
  | clear {t : Session} : Leads s t → Leads s { t with drills := t.drills.clear }

theorem Leads.trans {s t u : Session} (first : s.Leads t) (second : t.Leads u) : s.Leads u := by
  induction second with
  | start => exact first
  | select i a _ at_ within ih => exact .select i a ih at_ within
  | deselect i _ ih => exact .deselect i ih
  | drill _ known ih => exact .drill ih known
  | undrill _ known ih => exact .undrill ih known
  | prune depth _ ih => exact .prune depth ih
  | clearLevel depth _ ih => exact .clearLevel depth ih
  | clear _ ih => exact .clear ih

/-- Differently named hierarchies that were built, with selections and positions
that were reached. -/
structure Consistent (s : Session) : Prop where
  names : (s.hierarchies.map (·.name)).Nodup
  built : ∀ d ∈ s.dimensions, d.hierarchy.Built
  selected : ∀ d ∈ s.dimensions, d.selection.Reached d.hierarchy
  recorded : s.drills.Reached s.hierarchies

variable {s t : Session}

/-- What no action changes: the hierarchies and their modes. -/
def frame (s : Session) : List (Hierarchy × Mode) :=
  s.dimensions.map fun d => (d.hierarchy, d.mode)

theorem hierarchies_eq_frame (s : Session) : s.hierarchies = s.frame.map (·.1) := by
  rw [frame, List.map_map]
  rfl

theorem frame_modifySelection (s : Session) (i : Nat) (change : SelectionTree → SelectionTree) :
    (s.modifySelection i change).frame = s.frame := by
  refine List.ext_getElem? fun j => ?_
  simp only [frame, modifySelection, List.getElem?_map, List.getElem?_modify]
  cases s.dimensions[j]? with
  | none => rfl
  | some d => by_cases here : i = j <;> simp [here]

theorem mem_modifySelection {i : Nat} {change : SelectionTree → SelectionTree} {d : Dimension}
    (mem : d ∈ (s.modifySelection i change).dimensions) :
    d ∈ s.dimensions ∨
      ∃ e, s.dimensions[i]? = some e ∧ d = { e with selection := change e.selection } := by
  obtain ⟨j, found⟩ := List.mem_iff_getElem?.mp mem
  simp only [modifySelection, List.getElem?_modify] at found
  cases there : s.dimensions[j]? with
  | none =>
    rw [there] at found
    cases found
  | some e =>
    rw [there] at found
    by_cases here : i = j
    · subst here
      simp only [if_true] at found
      cases found
      exact Or.inr ⟨e, there, rfl⟩
    · simp only [if_neg here] at found
      cases found
      exact Or.inl (List.mem_of_getElem? there)

theorem Consistent.modifySelection (consistent : s.Consistent) {i : Nat}
    {change : SelectionTree → SelectionTree}
    (keeps : ∀ d, s.dimensions[i]? = some d → d.selection.Reached d.hierarchy →
      (change d.selection).Reached d.hierarchy) : (s.modifySelection i change).Consistent := by
  obtain ⟨names, built, selected, recorded⟩ := consistent
  have same : (s.modifySelection i change).hierarchies = s.hierarchies := by
    rw [hierarchies_eq_frame, frame_modifySelection, ← hierarchies_eq_frame]
  refine ⟨same ▸ names, fun d mem => ?_, fun d mem => ?_, same ▸ recorded⟩
  · rcases mem_modifySelection mem with old | ⟨e, found, rfl⟩
    · exact built d old
    · exact built e (List.mem_of_getElem? found)
  · rcases mem_modifySelection mem with old | ⟨e, found, rfl⟩
    · exact selected d old
    · exact keeps e found (selected e (List.mem_of_getElem? found))

theorem memberAt_eq_ok {h : Hierarchy} {path : String} {m : Member}
    (found : memberAt h path = .ok m) : m ∈ h.members := by
  rw [memberAt, mapError_eq_ok, Hierarchy.member] at found
  split at found
  · rename_i k there
    cases found
    exact List.mem_of_find?_eq_some there
  · cases found

theorem levelNamed_eq_ok {h : Hierarchy} {name : String} {l : Level}
    (found : levelNamed h name = .ok l) : l ∈ h.levels := by
  rw [levelNamed, mapError_eq_ok, Hierarchy.levelByName] at found
  split at found
  · rename_i k there
    cases found
    exact List.mem_of_find?_eq_some there
  · cases found

theorem within_of_mapM {paths : List String} {ds : List Dimension} {p : Position}
    (short : paths.length ≤ ds.length)
    (run : (paths.zip ds).mapM (fun (path, d) => memberAt d.hierarchy path) = .ok p) :
    p.Within (ds.map (·.hierarchy)) := by
  induction paths generalizing ds p with
  | nil =>
    cases run
    exact Position.within_nil _
  | cons path paths ih =>
    cases ds with
    | nil => exact absurd short (Nat.not_succ_le_zero _)
    | cons d ds =>
      rw [List.zip_cons_cons, List.mapM_cons, bind_eq_ok] at run
      obtain ⟨m, first, later⟩ := run
      rw [bind_eq_ok] at later
      obtain ⟨q, rest, same⟩ := later
      cases same
      exact Position.within_cons.mpr
        ⟨memberAt_eq_ok first, ih (Nat.le_of_succ_le_succ short) rest⟩

/-- A position is looked up in the hierarchies in order. -/
theorem within_of_position {paths : List String} {p : Position} (known : s.position paths = .ok p) :
    p.Within s.hierarchies := by
  unfold position at known
  split at known
  · cases known
  · rename_i fits
    rw [Bool.or_eq_true, not_or, decide_eq_true_eq, Nat.not_lt] at fits
    exact within_of_mapM fits.2 known

theorem Leads.consistent (leads : s.Leads t) (consistent : s.Consistent) : t.Consistent := by
  induction leads with
  | start => exact consistent
  | @select t d i a _ found within ih =>
    refine ih.modifySelection fun e there reached => ?_
    cases found.symm.trans there
    exact .apply a reached within
  | deselect i _ ih => exact ih.modifySelection fun d _ reached => .clear reached
  | drill _ known ih => exact { ih with recorded := .add _ ih.recorded (within_of_position known) }
  | undrill _ known ih =>
    exact { ih with recorded := .remove _ ih.recorded (within_of_position known) }
  | prune depth _ ih => exact { ih with recorded := .prune depth ih.recorded }
  | clearLevel depth _ ih => exact { ih with recorded := .clearLevel depth ih.recorded }
  | clear _ ih => exact { ih with recorded := .clear ih.recorded }

theorem Leads.frame (leads : s.Leads t) : t.frame = s.frame := by
  induction leads with
  | start => rfl
  | select i a _ _ _ ih => rw [frame_modifySelection, ih]
  | deselect i _ ih => rw [frame_modifySelection, ih]
  | drill _ _ ih => exact ih
  | undrill _ _ ih => exact ih
  | prune _ _ ih => exact ih
  | clearLevel _ _ ih => exact ih
  | clear _ ih => exact ih

theorem Leads.length_dimensions (leads : s.Leads t) : t.dimensions.length = s.dimensions.length := by
  have same := congrArg List.length leads.frame
  rwa [Session.frame, Session.frame, List.length_map, List.length_map] at same

end Session
end CubeAxis
