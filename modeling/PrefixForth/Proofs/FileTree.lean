import Mathlib.Data.List.Basic
import PrefixForth.FileTree

/-!
# What writing a file changes

A file is put at the path that its name leads to. The directories on the way there exist already, or
the name would not lead there (`Reached.follow`), so nothing else comes to be: at every other path
stands what stood there before (`Reached.place?_put`). The name still leads to the file, which now
has the new content (`read_put_of_target`).

None of this needs a tree to be in order. In one that was put together by hand, a file may stand where
other files need a directory; it is not touched either.
-/

namespace PrefixForth

namespace FileTree

variable {t t' : FileTree} {p q : Path} {parts : List Bytes} {name content : Bytes}

/-! ### Putting a file -/

private theorem lookup_cons_ite (q r : Path) (old : Bytes) (files : List (Path × Bytes)) :
    ((r, old) :: files).lookup q = if q = r then some old else files.lookup q := by
  by_cases hq : q = r
  · rw [hq, List.lookup_cons_self, if_pos rfl]
  · rw [List.lookup_cons, beq_false_of_ne hq, if_neg hq]

/-- What is put at a path is found there, and nothing else changes. -/
theorem lookup_put (t : FileTree) (p : Path) (content : Bytes) (q : Path) :
    (t.put p content).files.lookup q = if q = p then some content else t.files.lookup q := by
  have hreplace : ∀ files : List (Path × Bytes),
      (files.map fun f => if f.1 = p then (p, content) else f).lookup q =
        if q = p then (files.lookup p).map fun _ => content else files.lookup q := by
    intro files
    induction files with
    | nil => simp
    | cons f files ih =>
      obtain ⟨r, old⟩ := f
      rw [List.map_cons]
      by_cases hr : r = p
      · rw [if_pos hr, lookup_cons_ite, ih, lookup_cons_ite, lookup_cons_ite, hr]
        split <;> simp
      · rw [if_neg hr, lookup_cons_ite, ih, lookup_cons_ite, lookup_cons_ite, if_neg (Ne.symm hr)]
        by_cases hq : q = p
        · rw [if_neg fun hqr => hr (hqr.symm.trans hq), if_pos hq, if_pos hq]
        · rw [if_neg hq, if_neg hq]
  rw [put]
  split
  · rename_i hsome
    obtain ⟨old, hold⟩ := Option.isSome_iff_exists.mp hsome
    simp [hreplace, hold]
  · rename_i hnone
    rw [Option.not_isSome_iff_eq_none] at hnone
    rw [List.lookup_append, lookup_cons_ite, List.lookup_nil]
    by_cases hq : q = p
    · simp [hq, hnone]
    · simp [hq]

/-- A file that is put somewhere makes directories of the paths on the way there. -/
theorem any_isPrefixOf_put (t : FileTree) (p : Path) (content : Bytes) (q : Path) :
    (t.put p content).files.any (fun f => q.isPrefixOf f.1) =
      (t.files.any (fun f => q.isPrefixOf f.1) || q.isPrefixOf p) := by
  rw [put]
  split
  · rename_i hsome
    -- a file stands there already, so the paths are those from before
    obtain ⟨old, hold⟩ := Option.isSome_iff_exists.mp hsome
    have hmem : (p, old) ∈ t.files := by
      obtain ⟨l₁, l₂, hfiles, -⟩ := List.lookup_eq_some_iff.mp hold
      simp [hfiles]
    have hpaths : ∀ f : Path × Bytes, q.isPrefixOf (if f.1 = p then (p, content) else f).1 =
        q.isPrefixOf f.1 := fun f => by
      split
      · rename_i hf
        rw [hf]
      · rfl
    rw [List.any_map]
    simp only [Function.comp_def, hpaths]
    by_cases hq : q.isPrefixOf p = true
    · have hany : t.files.any (fun f => q.isPrefixOf f.1) = true :=
        List.any_eq_true.mpr ⟨_, hmem, hq⟩
      simp [hany]
    · simp [hq]
  · simp

/-- Something stands at every path on the way to the given one. -/
def Reached (t : FileTree) (p : Path) : Prop :=
  ∀ r, r <+: p → r ≠ p → t.place? r ≠ none

/-- A file that is put at a path changes nothing at any other one, if the way there exists. -/
theorem Reached.place?_put (h : t.Reached p) (content : Bytes) (q : Path) :
    (t.put p content).place? q = if q = p then some (.file content) else t.place? q := by
  by_cases hq : q = p
  · rw [if_pos hq, place?, lookup_put, if_pos hq]
  have hdirectories : (t.put p content).directories = t.directories := by
    rw [put]
    split <;> rfl
  rw [if_neg hq, place?, lookup_put, if_neg hq, any_isPrefixOf_put, hdirectories, place?]
  rcases hfile : t.files.lookup q with _ | old
  · rcases hway : q.isPrefixOf p with _ | _
    · refine if_congr ?_ rfl rfl
      rw [Bool.or_false]
    · -- the path is on the way, and something stands there that is no file
      have hplace := h q (List.isPrefixOf_iff_prefix.mp hway) hq
      simp only [place?, hfile, ne_eq, ite_eq_right_iff, reduceCtorEq, imp_false, not_not] at hplace
      refine if_congr (iff_of_true ?_ hplace) rfl rfl
      exact .inr (.inr (.inr (Bool.or_true _)))
  · rfl

/-! ### The way to a file -/

/-- Where one part of a name leads from a directory, unless the part is too long. -/
def next? (p : Path) (part : Bytes) : Option Path :=
  if part = [] ∨ part = utf8 "." then some p
  else if part = above then some (Path.parent p)
  else if maxPartLength < part.length then none
  else some (p ++ [part])

/-- Following a name, one part at a time. -/
theorem follow_cons_eq_ok_iff {part : Bytes} : t.follow p (part :: parts) = .ok q ↔
    t.place? p = some .directory ∧ ∃ r, next? p part = some r ∧ t.follow r parts = .ok q := by
  rw [follow, next?]
  rcases hplace : t.place? p with _ | content | _
  · simp
  · simp
  · split_ifs <;> simp

/-- All that is on the way to a name in a directory exists, if the directory does. -/
theorem Reached.of_append {r : Path} (h : t.Reached p) (hp : t.place? p ≠ none)
    (hr : r <+: p ++ [name]) (hne : r ≠ p ++ [name]) : t.place? r ≠ none := by
  have hprefix : r <+: p := (List.prefix_concat_iff.mp hr).resolve_left hne
  by_cases hrp : r = p
  · rwa [hrp]
  · exact h r hprefix hrp

/-- The way to a parent is a part of the way. -/
theorem Reached.parent (h : t.Reached p) (hp : t.place? p ≠ none) : t.Reached (Path.parent p) := by
  rw [Path.parent]
  split
  · exact fun r hr hne => h.of_append hp hr hne
  · split
    · exact h
    · intro r hr hne
      have hlast : p.dropLast <+: p := List.dropLast_prefix p
      refine h r (hr.trans hlast) fun hrp => hne ?_
      -- a path that is a prefix of its own beginning is empty
      have hlength := hr.length_le
      rw [hrp, List.length_dropLast] at hlength
      have hnil : p = [] := List.length_eq_zero_iff.mp (by omega)
      rw [hrp, hnil, List.dropLast_nil]

/-- One more part of a name leads to a path that can be reached. -/
theorem Reached.next {part : Bytes} {r : Path} (h : t.Reached p) (hp : t.place? p ≠ none)
    (hr : next? p part = some r) : t.Reached r := by
  rw [next?] at hr
  split_ifs at hr
  · exact Option.some.inj hr ▸ h
  · exact Option.some.inj hr ▸ h.parent hp
  · exact Option.some.inj hr ▸ fun r hr hne => h.of_append hp hr hne

/-- A name leads only over paths where something stands. -/
theorem Reached.follow (h : t.Reached p) (hfollow : t.follow p parts = .ok q) : t.Reached q := by
  induction parts generalizing p with
  | nil =>
    obtain rfl : p = q := by simpa [FileTree.follow] using hfollow
    exact h
  | cons part parts ih =>
    obtain ⟨hplace, r, hr, hrest⟩ := follow_cons_eq_ok_iff.mp hfollow
    exact ih (h.next (by simp [hplace]) hr) hrest

private theorem place?_nil_ne_none (t : FileTree) : t.place? [] ≠ none := by
  rw [place?]
  split
  · simp
  · simp [Path.isAncestor]

private theorem reached_partsOf (t : FileTree) (name : Bytes) : t.Reached (partsOf name).1 := by
  intro r hr hne
  rw [partsOf] at hr hne
  split at hr
  · rename_i hslash
    rw [if_pos hslash] at hne
    have hnil : r = [] := by
      rcases List.prefix_cons_iff.mp hr with hnil | ⟨rest, hr, hrest⟩
      · exact hnil
      · rw [List.prefix_nil.mp hrest] at hr
        exact absurd hr hne
    rw [hnil]
    exact t.place?_nil_ne_none
  · rename_i hslash
    rw [if_neg hslash] at hne
    exact absurd (List.prefix_nil.mp hr) hne

/-- The way to a path that a name resolves to exists. -/
private theorem reached_of_resolve (h : t.resolve name = .ok p) : t.Reached p := by
  rw [resolve] at h
  split at h
  · cases h
  · exact (reached_partsOf t name).follow h

/-- Where directories stay, a name leads to the same path. -/
theorem follow_congr (hdirectory : ∀ r, t.place? r = some .directory → t'.place? r = some .directory)
    (h : t.follow p parts = .ok q) : t'.follow p parts = .ok q := by
  induction parts generalizing p with
  | nil => exact h
  | cons part parts ih =>
    obtain ⟨hplace, r, hr, hrest⟩ := follow_cons_eq_ok_iff.mp h
    exact follow_cons_eq_ok_iff.mpr ⟨hdirectory p hplace, r, hr, ih hrest⟩

/-- How a name is resolved depends on the directories only. -/
private theorem resolve_congr
    (hdirectory : ∀ r, t.place? r = some .directory → t'.place? r = some .directory)
    (h : t.resolve name = .ok p) : t'.resolve name = .ok p := by
  rw [resolve] at h ⊢
  split at h
  · cases h
  · exact follow_congr hdirectory h

/-! ### Writing -/

/-- What can be written to is not a directory. -/
private theorem resolve_of_target (h : t.target name = .ok p) :
    t.resolve name = .ok p ∧ t.place? p ≠ some .directory := by
  rw [target] at h
  split at h
  · cases h
  · split at h
    · simp only at h
      split at h <;> cases h
    · split at h
      · cases h
      · rename_i q hresolve
        split at h
        · cases h
        · rename_i hplace
          obtain rfl : q = p := Except.ok.inj h
          exact ⟨hresolve, hplace⟩

/-- Where a file is written, it stands with its content, and elsewhere stands what stood there. -/
theorem place?_put_of_target (h : t.target name = .ok p) (content : Bytes) (q : Path) :
    (t.put p content).place? q = if q = p then some (.file content) else t.place? q :=
  (reached_of_resolve (resolve_of_target h).1).place?_put content q

/-- The name of a file that has been written leads to its content. -/
theorem read_put_of_target (h : t.target name = .ok p) (content : Bytes) :
    (t.put p content).read name = .ok content := by
  obtain ⟨hresolve, hplace⟩ := resolve_of_target h
  have hdirectory : ∀ r, t.place? r = some .directory →
      (t.put p content).place? r = some .directory := by
    intro r hr
    have hrp : r ≠ p := fun hrp => hplace (by rw [← hrp, hr])
    rw [place?_put_of_target h, if_neg hrp, hr]
  rw [read, resolve_congr hdirectory hresolve]
  simp [place?_put_of_target h]

end FileTree

end PrefixForth
