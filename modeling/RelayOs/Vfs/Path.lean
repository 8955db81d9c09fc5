import RelayOs.Vfs.Contract

/-!
# Names

Names are raw bytes. What may be one is checked here, for every filesystem alike
(`RelayOs.Vfs.checkName_ok_iff`); a name is looked up where it stands.
-/

namespace RelayOs.Vfs

/-- The longest name, in bytes. -/
def nameMax : ℕ := 255

/-- The byte that separates names. -/
def slash : UInt8 := 47

/-- The name of a directory in itself. -/
def dot : Bytes := [46]

/-- The name of the directory above. -/
def dotdot : Bytes := [46, 46]

/-- **Checks a name** that a change is about to put into a directory. -/
def checkName (n : Bytes) : Except Errno Unit :=
  if n = [] then .error .ENOENT
  else if n = dot ∨ n = dotdot ∨ slash ∈ n ∨ 0 ∈ n then .error .EINVAL
  else if n.length > nameMax then .error .ENAMETOOLONG
  else .ok ()

/-! ### Names -/

/-- **A name a directory may hold.** -/
structure NameOk (n : Bytes) : Prop where
  ne_nil : n ≠ []
  ne_dot : n ≠ dot
  ne_dotdot : n ≠ dotdot
  no_slash : slash ∉ n
  no_nul : 0 ∉ n
  length_le : n.length ≤ nameMax

/-- **The check accepts** exactly the names a directory may hold. -/
theorem checkName_ok_iff {n : Bytes} : checkName n = .ok () ↔ NameOk n := by
  unfold checkName
  constructor
  · intro h
    split at h
    · cases h
    split at h
    · cases h
    split at h
    · cases h
    rename_i h1 h2 h3
    rw [not_or, not_or, not_or] at h2
    exact ⟨h1, h2.1, h2.2.1, h2.2.2.1, h2.2.2.2, by omega⟩
  · rintro ⟨h1, h2, h3, h4, h5, h6⟩
    rw [if_neg h1, if_neg (by simp [h2, h3, h4, h5]), if_neg (by omega)]

end RelayOs.Vfs
