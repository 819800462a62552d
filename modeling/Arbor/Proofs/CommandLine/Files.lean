import Arbor.CommandLine.Directory
import Arbor.Proofs.Toml.Documents

/-!
This module contains what writing a file does to a tree of files: the file can be read again, also after another file of
the same directory was written, and every path that could be followed before can be followed still.
-/

namespace Arbor.CommandLine

/-! Paths -/

namespace Path

variable {name directory : String}

theorem splitList_ne_nil (cs : List Char) : splitList cs ≠ [] := by
  cases cs with
  | nil => simp [splitList]
  | cons c cs =>
    rw [splitList]
    split
    · simp
    · split <;> simp

theorem splitList_append (cs ds : List Char) : splitList (cs ++ '/' :: ds) = splitList cs ++ splitList ds := by
  induction cs with
  | nil => simp [splitList]
  | cons c cs ih =>
    rw [List.cons_append, splitList, splitList, ih]
    split
    · rfl
    · obtain ⟨first, rest, hcs⟩ := List.exists_cons_of_ne_nil (splitList_ne_nil cs)
      rw [hcs]
      rfl

theorem splitList_of_not_mem {cs : List Char} (h : '/' ∉ cs) (hcs : cs ≠ []) : splitList cs = [cs] := by
  induction cs with
  | nil => exact absurd rfl hcs
  | cons c cs ih =>
    rw [List.mem_cons, not_or] at h
    rw [splitList, if_neg (Ne.symm h.1)]
    cases cs with
    | nil => rfl
    | cons d cs => rw [ih h.2 (List.cons_ne_nil _ _)]

structure IsName (name : String) : Prop where
  slash : '/' ∉ name.toList
  empty : name ≠ ""
  here : name ≠ "."
  above : name ≠ ".."

theorem IsName.components (h : IsName name) : components name = [name] := by
  have hcs : name.toList ≠ [] := by simpa using h.empty
  rw [Path.components, splitList_of_not_mem h.slash hcs, List.map_cons, List.map_nil, String.ofList_toList]

theorem exists_components_join (directory : String) :
    ∃ parents, ∀ name, IsName name → components (join directory name) = parents ++ [name] := by
  by_cases hempty : directory = ""
  · exact ⟨[], fun name h => by rw [join, if_pos (.inl hempty), hempty, String.empty_append, h.components]; rfl⟩
  by_cases hslash : directory.toList.getLast? = some '/'
  · obtain ⟨before, hbefore⟩ := List.getLast?_eq_some_iff.mp hslash
    refine ⟨(splitList before).map String.ofList, fun name h => ?_⟩
    rw [join, if_pos (.inr hslash), components, String.toList_append, hbefore, List.append_assoc,
      List.singleton_append, splitList_append, List.map_append, ← h.components, components]
  · refine ⟨components directory, fun name h => ?_⟩
    have hlist : (directory ++ "/" ++ name).toList = directory.toList ++ '/' :: name.toList := by simp
    rw [join, if_neg (not_or.mpr ⟨hempty, hslash⟩), components, hlist, splitList_append, List.map_append,
      ← h.components, components, components]

theorem isAbsolute_join (h : IsName name) : isAbsolute (join directory name) = isAbsolute directory := by
  have hname : name.toList.head? ≠ some '/' := fun hhead => h.slash (List.mem_of_mem_head? hhead)
  unfold isAbsolute join
  cases hcs : directory.toList with
  | nil =>
    have hempty : directory = "" := String.toList_eq_nil_iff.mp hcs
    rw [if_pos (.inl hempty), String.toList_append, hcs, List.nil_append]
    simpa using hname
  | cons c cs =>
    split <;> simp [hcs]

end Path

namespace FileTree

variable {t t' : FileTree} {current directory path p q : List String} {name content : String}

/-! A new file -/

theorem lookup_put : (t.put p content).files.lookup path = if path = p then some content else t.files.lookup path := by
  rw [put, apply_ite FileTree.files]
  exact lookup_replace_or_append t.files p content path

theorem isDirectory_iff : t.isDirectory path = true ↔
    path = [] ∨ (∃ d ∈ t.directories, path <+: d) ∨ ∃ file ∈ t.files.map Prod.fst, path <+: file ∧ file ≠ path := by
  simp [isDirectory, or_assoc]

theorem mem_files_put {file : List String} :
    file ∈ (t.put p content).files.map Prod.fst ↔ file = p ∨ file ∈ t.files.map Prod.fst := by
  unfold put
  split
  · next hold =>
    have hp : p ∈ t.files.map Prod.fst := by
      obtain ⟨old, hold⟩ := Option.isSome_iff_exists.mp hold
      obtain ⟨before, after, hfiles, -⟩ := List.lookup_eq_some_iff.mp hold
      simp [hfiles]
    rw [List.map_map]
    change file ∈ t.files.map Prod.fst ↔ _
    exact ⟨.inr, fun h => h.elim (fun heq => heq ▸ hp) id⟩
  · simp [or_comm]

theorem isDirectory_put : (t.put p content).isDirectory path = true ↔
    t.isDirectory path = true ∨ path <+: p ∧ p ≠ path := by
  have hdirectories : (t.put p content).directories = t.directories := by
    unfold put
    split <;> rfl
  simp only [isDirectory_iff, hdirectories, mem_files_put]
  grind

/-! Following a path -/

theorem enter_put {d : List String} (h : t.enter directory name = .ok d) :
    (t.put p content).enter directory name = .ok d := by
  unfold enter at h ⊢
  split at h
  · rw [if_pos ‹_›]
    exact h
  · rw [if_neg ‹_›]
    split at h
    · rw [if_pos ‹_›]
      exact h
    · rw [if_neg ‹_›]
      cases hentry : entry directory name with
      | error e =>
        rw [hentry] at h
        cases h
      | ok path =>
        rw [hentry] at h
        change (if t.isDirectory path = true then Except.ok path else if (t.files.lookup path).isSome then
          throw FileError.notDirectory else throw FileError.notFound) = Except.ok d at h
        split at h
        · next hpath =>
          cases h
          exact if_pos (isDirectory_put.mpr (.inl hpath))
        · split at h <;> cases h

theorem foldlM_enter_put {d : List String} {names : List String} (h : names.foldlM t.enter directory = .ok d) :
    names.foldlM (t.put p content).enter directory = .ok d := by
  induction names generalizing directory with
  | nil => exact h
  | cons name rest ih =>
    rw [List.foldlM_cons] at h ⊢
    cases henter : t.enter directory name with
    | error e =>
      rw [henter] at h
      cases h
    | ok next =>
      rw [henter] at h
      rw [enter_put henter]
      exact ih h

theorem target_join {dir : String} {parents : List String} (hname : Path.IsName name)
    (hparents : Path.components (Path.join dir name) = parents ++ [name])
    (hlimit : ¬pathLimit < (Path.join dir name).utf8ByteSize) :
    t.target current (Path.join dir name) =
      (parents.foldlM t.enter (if Path.isAbsolute dir then [] else current)).bind fun d =>
        (entry d name).map fun path => .entry path false := by
  have hempty : Path.join dir name ≠ "" := by
    intro heq
    rw [heq] at hparents
    have hlast : some "" = (parents ++ [name]).getLast? := congrArg List.getLast? hparents
    rw [List.getLast?_concat] at hlast
    exact hname.empty (Option.some.inj hlast).symm
  have hreverse : (Path.components (Path.join dir name)).reverse.dropWhile (· = "") = name :: parents.reverse := by
    rw [hparents, List.reverse_append, List.reverse_singleton, List.singleton_append, List.dropWhile_cons_of_neg]
    simpa using hname.empty
  unfold FileTree.target
  rw [if_neg hempty, if_neg hlimit]
  dsimp only
  rw [hreverse]
  dsimp only
  rw [List.reverse_reverse, Path.isAbsolute_join hname, hparents, List.getLast?_concat]
  congr 1
  funext d
  rw [if_neg (not_or.mpr ⟨hname.here, hname.above⟩)]
  cases entry d name with
  | error e => rfl
  | ok path => simp [hname.empty, Except.map, Except.bind, bind, pure, Except.pure]

/-! Writing and reading -/

section Join

variable {dir : String} {parents : List String}

theorem exists_put_of_write (hname : Path.IsName name)
    (hparents : Path.components (Path.join dir name) = parents ++ [name])
    (h : t.write current (Path.join dir name) content = .ok t') :
    ∃ d, parents.foldlM t.enter (if Path.isAbsolute dir then [] else current) = .ok d ∧
      entry d name = .ok (d ++ [name]) ∧ t.isDirectory (d ++ [name]) = false ∧
      ¬pathLimit < (Path.join dir name).utf8ByteSize ∧ t' = t.put (d ++ [name]) content := by
  have hlimit : ¬pathLimit < (Path.join dir name).utf8ByteSize := by
    intro hlong
    unfold FileTree.write FileTree.target at h
    rw [if_pos hlong] at h
    split at h <;> cases h
  have htarget : t.target current (Path.join dir name) = _ := target_join hname hparents hlimit
  unfold FileTree.write at h
  rw [htarget] at h
  cases hd : parents.foldlM t.enter (if Path.isAbsolute dir then [] else current) with
  | error e =>
    rw [hd] at h
    cases h
  | ok d =>
    rw [hd] at h
    cases hentry : entry d name with
    | error e =>
      change (Except.bind (Except.map _ (entry d name)) _) = _ at h
      rw [hentry] at h
      cases h
    | ok path =>
      have hpath : path = d ++ [name] := by
        unfold entry at hentry
        split at hentry <;> cases hentry
        rfl
      subst hpath
      change (Except.bind (Except.map _ (entry d name)) _) = _ at h
      rw [hentry] at h
      change (if false = true ∨ t.isDirectory (d ++ [name]) = true then throw FileError.isDirectory
        else Except.ok (t.put (d ++ [name]) content)) = Except.ok t' at h
      split at h
      · cases h
      · next hdirectory =>
        cases h
        refine ⟨d, rfl, hentry, ?_, hlimit, rfl⟩
        simpa using hdirectory

theorem read_join {d : List String} (hname : Path.IsName name)
    (hparents : Path.components (Path.join dir name) = parents ++ [name])
    (hd : parents.foldlM t.enter (if Path.isAbsolute dir then [] else current) = .ok d)
    (hentry : entry d name = .ok (d ++ [name])) (hlimit : ¬pathLimit < (Path.join dir name).utf8ByteSize)
    (hdirectory : t.isDirectory (d ++ [name]) = false) (hfile : t.files.lookup (d ++ [name]) = some content) :
    t.read current (Path.join dir name) = .ok content := by
  have htarget : t.target current (Path.join dir name) = .ok (.entry (d ++ [name]) false) := by
    rw [target_join hname hparents hlimit, hd]
    change Except.map _ (entry d name) = _
    rw [hentry]
    rfl
  have hfind : t.find current (Path.join dir name) = .ok (.file (d ++ [name]) content) := by
    unfold FileTree.find
    rw [htarget]
    change (if t.isDirectory (d ++ [name]) = true then _ else _) = _
    rw [hdirectory, hfile]
    rfl
  unfold FileTree.read
  rw [hfind]
  rfl

theorem read_of_writes {other content' : String} {t'' : FileTree} (hname : Path.IsName name)
    (hother : Path.IsName other) (hne : name ≠ other) (h : t.write current (Path.join dir name) content = .ok t')
    (h' : t'.write current (Path.join dir other) content' = .ok t'') :
    t''.read current (Path.join dir name) = .ok content := by
  obtain ⟨parents, hparents⟩ := Path.exists_components_join dir
  obtain ⟨d, hd, hentry, hdirectory, hlimit, rfl⟩ := exists_put_of_write hname (hparents name hname) h
  obtain ⟨d', hd', -, -, -, rfl⟩ := exists_put_of_write hother (hparents other hother) h'
  have hsame : d' = d := by
    rw [foldlM_enter_put hd] at hd'
    exact (Except.ok.inj hd').symm
  subst hsame
  have hentries : d' ++ [name] ≠ d' ++ [other] := by simpa using hne
  apply read_join hname (hparents name hname) (foldlM_enter_put (foldlM_enter_put hd)) hentry hlimit
  · rw [← Bool.not_eq_true, isDirectory_put, isDirectory_put, hdirectory]
    rintro ((h | ⟨-, h⟩) | ⟨h, -⟩)
    · cases h
    · exact h rfl
    · exact hentries (h.eq_of_length (by simp))
  · rw [lookup_put, if_neg hentries, lookup_put, if_pos rfl]

end Join

end FileTree

end Arbor.CommandLine
