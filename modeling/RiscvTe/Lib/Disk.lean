import Mathlib

/-!
# Files by their paths

A disk is a finite map from paths to contents. `names` lists a directory: the
files that lie directly in it, each once, in the order of the map. `eraseAll`
and `writeAll` do something to several files, and the lemmas say what is there
afterwards.
-/

namespace Disk

abbrev Path := List Char

abbrev Files (α : Type) := AList fun _ : Path => α

variable {α : Type}

/-! ## Directories -/

/-- The path of a file in a directory. -/
def within (dir name : Path) : Path := dir ++ '/' :: name

/-- The name of a file that lies directly in the directory. -/
def nameIn (dir path : Path) : Option Path :=
  if (dir ++ ['/']).isPrefixOf path then
    let name := path.drop (dir.length + 1)
    if '/' ∈ name then none else some name
  else none

theorem nameIn_eq_some {dir path name : Path} :
    nameIn dir path = some name ↔ path = within dir name ∧ '/' ∉ name := by
  rw [nameIn]
  constructor
  · intro h
    split at h
    · rename_i hpre
      obtain ⟨rest, rfl⟩ := List.isPrefixOf_iff_prefix.mp hpre
      have hdrop : (dir ++ ['/'] ++ rest).drop (dir.length + 1) = rest := by
        rw [List.drop_left' (by simp)]
      simp only [hdrop] at h
      split at h
      · cases h
      · rename_i hslash
        cases h
        exact ⟨by simp [within], hslash⟩
    · cases h
  · intro h
    obtain ⟨rfl, hslash⟩ := h
    have hpre : (dir ++ ['/']).isPrefixOf (within dir name) = true := by
      rw [List.isPrefixOf_iff_prefix]
      exact ⟨name, by simp [within]⟩
    have hdrop : (within dir name).drop (dir.length + 1) = name := by
      rw [within, ← List.singleton_append, ← List.append_assoc, List.drop_left' (by simp)]
    simp only [if_pos hpre, hdrop, if_neg hslash]

def names (disk : Files α) (dir : Path) : List Path := disk.keys.filterMap (nameIn dir)

theorem mem_names {disk : Files α} {dir name : Path} :
    name ∈ names disk dir ↔ within dir name ∈ disk ∧ '/' ∉ name := by
  rw [names, List.mem_filterMap]
  constructor
  · intro h
    obtain ⟨path, hpath, hname⟩ := h
    obtain ⟨rfl, hslash⟩ := nameIn_eq_some.mp hname
    exact ⟨AList.mem_keys.mpr hpath, hslash⟩
  · intro h
    exact ⟨within dir name, AList.mem_keys.mp h.1, nameIn_eq_some.mpr ⟨rfl, h.2⟩⟩

theorem names_nodup (disk : Files α) (dir : Path) : (names disk dir).Nodup := by
  refine disk.keys_nodup.filterMap ?_
  intro path path' name h h'
  rw [(nameIn_eq_some.mp h).1, (nameIn_eq_some.mp h').1]

theorem within_inj {dir name name' : Path} (h : within dir name = within dir name') :
    name = name' := by
  rw [within, within] at h
  exact (List.cons.inj (List.append_cancel_left h)).2

/-! ## Several files at once -/

def eraseAll (disk : Files α) (paths : List Path) : Files α :=
  paths.foldl (fun disk path => disk.erase path) disk

theorem mem_eraseAll {disk : Files α} {paths : List Path} {path : Path} :
    path ∈ eraseAll disk paths ↔ path ∈ disk ∧ path ∉ paths := by
  induction paths generalizing disk with
  | nil => simp [eraseAll]
  | cons first paths ih =>
      rw [eraseAll, List.foldl_cons, ← eraseAll, ih, AList.mem_erase, List.mem_cons, not_or]
      tauto

def writeAll (disk : Files α) (paths : List Path) (text : Path → α) : Files α :=
  paths.foldl (fun disk path => disk.insert path (text path)) disk

theorem lookup_writeAll {disk : Files α} {paths : List Path} {text : Path → α} {path : Path} :
    (writeAll disk paths text).lookup path
      = if path ∈ paths then some (text path) else disk.lookup path := by
  induction paths generalizing disk with
  | nil => simp [writeAll]
  | cons first paths ih =>
      rw [writeAll, List.foldl_cons, ← writeAll, ih]
      by_cases hpath : path ∈ paths
      · rw [if_pos hpath, if_pos (List.mem_cons_of_mem _ hpath)]
      · rw [if_neg hpath]
        by_cases hfirst : path = first
        · subst hfirst
          rw [AList.lookup_insert, if_pos List.mem_cons_self]
        · rw [AList.lookup_insert_ne hfirst, if_neg]
          intro hin
          rcases List.mem_cons.mp hin with h | h
          · exact hfirst h
          · exact hpath h

end Disk
