/-!
Sets of protocol versions. The empty set stands for every version. Members are kept in ascending
order, so equal sets are equal lists.
-/

namespace Wireform

structure VersionSet where
  members : List Nat
  ascending : members.Pairwise (· < ·)
  deriving DecidableEq

namespace VersionSet

def insertInto (version : Nat) : List Nat → List Nat
  | [] => [version]
  | least :: rest =>
    if version < least then version :: least :: rest
    else if version = least then least :: rest
    else least :: insertInto version rest

theorem mem_insertInto {version other : Nat} {members : List Nat} :
    other ∈ insertInto version members ↔ other = version ∨ other ∈ members := by
  induction members with
  | nil => simp [insertInto]
  | cons least rest ih =>
    unfold insertInto
    split
    · simp
    · split
      next same => subst same; simp
      next => simp only [List.mem_cons, ih]; exact or_left_comm

theorem pairwise_insertInto {version : Nat} {members : List Nat}
    (ascending : members.Pairwise (· < ·)) : (insertInto version members).Pairwise (· < ·) := by
  induction members with
  | nil => simp [insertInto]
  | cons least rest ih =>
    obtain ⟨below, ordered⟩ := List.pairwise_cons.1 ascending
    unfold insertInto
    split
    next less =>
      refine List.pairwise_cons.2 ⟨fun other member => ?_, ascending⟩
      rcases List.mem_cons.1 member with rfl | member
      · exact less
      · exact Nat.lt_trans less (below other member)
    next notLess =>
      split
      next => exact ascending
      next different =>
        refine List.pairwise_cons.2 ⟨fun other member => ?_, ih ordered⟩
        rcases mem_insertInto.1 member with rfl | member
        · omega
        · exact below other member

def all : VersionSet :=
  ⟨[], .nil⟩

def insert (set : VersionSet) (version : Nat) : VersionSet :=
  ⟨insertInto version set.members, pairwise_insertInto set.ascending⟩

def ofList (versions : List Nat) : VersionSet :=
  versions.foldl insert all

def isAll (set : VersionSet) : Bool :=
  set.members.isEmpty

def covers (set : VersionSet) (version : Nat) : Bool :=
  set.isAll || set.members.contains version

end VersionSet

/-- What applies to some protocol versions. -/
class Versioned (δ : Type) where
  versions : δ → VersionSet

end Wireform
