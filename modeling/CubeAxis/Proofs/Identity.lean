import CubeAxis.Proofs.Segments

namespace CubeAxis
namespace Hierarchy

variable {h : Hierarchy}

/-- Equality, children and ancestors of the members go by their paths. -/
structure FollowsPaths (h : Hierarchy) : Prop where
  equal : ∀ a ∈ h.members, ∀ b ∈ h.members, (a == b) = true ↔ a.path = b.path
  children : ∀ m ∈ h.members,
    h.children m = h.members.filter fun c => c.parent?.any (·.path == m.path)
  ancestor : ∀ a ∈ h.members, ∀ b ∈ h.members,
    a.isAncestorOf b = true ↔ ∃ rest, b.path = a.path ++ "/" ++ rest

/-- Where no two members share a unique name, everything follows the paths. -/
theorem Regular.followsPaths (regular : h.Regular) (named : h.Named) : h.FollowsPaths where
  equal a left b right := by
    rw [regular.beq_iff left right]
    exact ⟨congrArg _, named.path_inj left right⟩
  children m inside := by
    refine List.filter_congr fun c child => ?_
    cases link : c.parent? with
    | none => rfl
    | some p =>
      have parent := regular.parent_mem c child p link
      rw [Option.any_some, Option.any_some, Bool.eq_iff_iff, regular.beq_iff parent inside,
        beq_iff_eq]
      exact ⟨congrArg _, named.path_inj parent inside⟩
  ancestor a left b right := by
    rw [regular.isAncestorOf_iff left right]
    refine ⟨Member.path_of_mem_ancestors, fun longer => ?_⟩
    obtain ⟨rest, same⟩ := longer
    have proper : b.Proper := fun k above => named.name k (regular.upward_mem right above)
    obtain ⟨k, above, path⟩ := Member.exists_mem_ancestors_of_path proper same
    exact named.path_inj (regular.ancestors_mem right above) left path ▸ above

theorem FollowsPaths.nodup (follows : h.FollowsPaths) (named : h.Named) :
    (h.members.map Member.uniqueName).Nodup := by
  have paths := List.pairwise_map.mp named.paths
  refine List.pairwise_map.mpr (paths.imp_of_mem fun {a b} left right other same => other ?_)
  exact (follows.equal a left b right).mp (Member.beq_iff.mpr same)

/-- Names without bracketing inside keep the unique names apart. -/
theorem Named.nodup_of_plain (named : h.Named) (sound : h.Sound)
    (plain : ∀ m ∈ h.members, ¬ bracketing.toList <:+: m.name.toList) :
    (h.members.map Member.uniqueName).Nodup := by
  have paths := List.pairwise_map.mp named.paths
  have clean : ∀ m ∈ h.members, ∀ n ∈ m.segments, ¬ bracketing.toList <:+: n.toList := by
    intro m inside n mem
    obtain ⟨k, above, rfl⟩ := List.mem_map.mp mem
    exact plain k (sound.upward_mem inside (Member.mem_pathFromRoot.mp above))
  refine List.pairwise_map.mpr (paths.imp_of_mem fun {a b} left right other same => other ?_)
  have home := (named.owner a left).trans (named.owner b right).symm
  have names := Member.segments_eq_of_uniqueName home (clean a left) (clean b right) same
  rw [Member.path_eq, Member.path_eq, names]

/-- Identity follows paths exactly where unique names are unique. Names that do not
read like bracketing make them so. -/
theorem followsPaths_iff (built : h.Built) :
    (h.FollowsPaths ↔ (h.members.map Member.uniqueName).Nodup) ∧
      ((∀ m ∈ h.members, ¬ bracketing.toList <:+: m.name.toList) → h.FollowsPaths) := by
  have exact : h.FollowsPaths ↔ (h.members.map Member.uniqueName).Nodup :=
    ⟨fun follows => follows.nodup built.named,
      fun names => (built.regular names).followsPaths built.named⟩
  exact ⟨exact, fun plain => exact.mpr (built.named.nodup_of_plain built.sound plain)⟩

theorem followsPaths_calendar : calendar.FollowsPaths :=
  (followsPaths_iff calendar_built).1.mpr (by decide)

/-- A root with a name that reads like a member further down, which is there too. -/
def bracketed : Hierarchy :=
  (((Hierarchy.new "H" ["One", "Two", "Three"]).addPath "A].[B").2.addPath "A/B/C").2

/-- The root equals that member, though their paths differ. -/
theorem not_followsPaths_bracketed : bracketed.Built ∧ ¬ bracketed.FollowsPaths := by
  have built : bracketed.Built := .addPath _ (.addPath _ (.new _ _))
  exact ⟨built, fun follows => absurd (follows.nodup built.named) (by decide)⟩

end Hierarchy
end CubeAxis
