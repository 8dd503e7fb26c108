import BinarySchema.FileSystem

/-!
# Resolved paths

A resolved path has no parts that stay or go up, so following it from the root visits what it says, and
the file that is found there is one of the file system's under this very path. This is what makes the
number of files a bound for everything that is done once for each path.
-/

namespace BinarySchema

namespace Path

/-- That every part of a path goes one step down. -/
def Normal (path : Path) : Prop :=
  ∀ part ∈ path, part ≠ "" ∧ part ≠ "." ∧ part ≠ ".."

theorem step_normal (path : Path) {part : String} (h : part ≠ "" ∧ part ≠ "." ∧ part ≠ "..") :
    path.step part = path ++ [part] := by
  rw [step, if_neg (by simp [h.1, h.2.1]), if_neg h.2.2]

theorem Normal.step {path : Path} (h : path.Normal) (part : String) : (path.step part).Normal := by
  unfold Path.step
  split
  · exact h
  · rename_i hstays
    split
    · exact fun other hother => h other (List.dropLast_subset _ hother)
    · rename_i hup
      rw [not_or] at hstays
      intro other hother
      rcases List.mem_append.1 hother with hinside | hlast
      · exact h other hinside
      · obtain rfl := List.mem_singleton.1 hlast
        exact ⟨hstays.1, hstays.2, hup⟩

theorem resolve_normal (directory : Path) (name : String) : (resolve directory name).Normal := by
  have hfold (parts : List String) {path : Path} (h : path.Normal) :
      (parts.foldl Path.step path).Normal := by
    induction parts generalizing path with
    | nil => exact h
    | cons part parts ih => exact ih (h.step part)
  exact hfold _ nofun

end Path

namespace FileSystem

variable {fs : FileSystem} {path : Path} {content : List UInt8}

theorem walk_ok {place : Path} {parts : List String} (hparts : Path.Normal parts)
    (h : fs.walk place parts = .ok content) : fs.file? (place ++ parts) = some content := by
  induction parts generalizing place with
  | nil =>
    unfold walk at h
    split at h
    · cases h
    · rw [List.append_nil]
      split at h
      · cases h
        assumption
      · cases h
  | cons part parts ih =>
    obtain ⟨hpart, hrest⟩ := List.forall_mem_cons.1 hparts
    unfold walk at h
    split at h
    · cases h
    split at h
    · cases h
    dsimp only at h
    rw [Path.step_normal place hpart] at h
    split at h
    · have hfile := ih hrest h
      rwa [List.append_assoc] at hfile
    · cases h

theorem mem_files_of_contentAt (hpath : path.Normal) (h : fs.contentAt path = .ok (some content)) :
    ∃ file ∈ fs.files, file.1 = path := by
  unfold contentAt at h
  dsimp only at h
  split at h
  · cases h
  split at h
  · rename_i hwalk
    have hfile := walk_ok hpath hwalk
    rw [List.nil_append, file?, Option.map_eq_some_iff] at hfile
    obtain ⟨file, hfound, -⟩ := hfile
    exact ⟨file, List.mem_of_find?_eq_some hfound, by simpa using List.find?_some hfound⟩
  · cases h
  · cases h

def textAt (fs : FileSystem) (path : Path) : Option String :=
  match fs.contentAt path with
  | .ok (some content) => (textOfContent content).toOption
  | _ => none

theorem mem_files_of_textAt (hpath : path.Normal) {text : String} (h : fs.textAt path = some text) :
    ∃ file ∈ fs.files, file.1 = path := by
  unfold textAt at h
  split at h
  · rename_i hcontent
    exact mem_files_of_contentAt hpath hcontent
  · cases h

/-! ### Files that are not met yet -/

/-- The number of files whose paths are not among some others. -/
def unmet (fs : FileSystem) (met : List Path) : Nat :=
  fs.files.countP fun file => !met.contains file.1

theorem unmet_le (fs : FileSystem) (met : List Path) : fs.unmet met ≤ fs.files.length :=
  List.countP_le_length

theorem unmet_anti (fs : FileSystem) {met more : List Path} (h : met ⊆ more) :
    fs.unmet more ≤ fs.unmet met := by
  refine List.countP_mono_left fun file _ hfile => ?_
  simp only [Bool.not_eq_true', List.contains_eq_mem, decide_eq_false_iff_not] at hfile ⊢
  exact fun hmem => hfile (h hmem)

/-- Meeting the path of a file leaves fewer of them. -/
theorem unmet_cons_lt {met : List Path} (hfile : ∃ file ∈ fs.files, file.1 = path)
    (hnew : path ∉ met) : fs.unmet (path :: met) < fs.unmet met := by
  obtain ⟨file, hmem, rfl⟩ := hfile
  obtain ⟨before, behind, hfiles⟩ := List.append_of_mem hmem
  have hless (files : List (Path × List UInt8)) :
      files.countP (fun other => !(file.1 :: met).contains other.1)
        ≤ files.countP fun other => !met.contains other.1 := by
    refine List.countP_mono_left fun other _ hother => ?_
    simp only [Bool.not_eq_true', List.contains_eq_mem, decide_eq_false_iff_not, List.mem_cons,
      not_or] at hother ⊢
    exact hother.2
  unfold unmet
  rw [hfiles, List.countP_append, List.countP_append, List.countP_cons_of_neg (by simp),
    List.countP_cons_of_pos (by simpa using hnew)]
  have hbefore := hless before
  have hbehind := hless behind
  omega

end FileSystem

end BinarySchema
